import MString.Proofs.Mlibc.Scan
import MString.Proofs.Mlibc.Writes

/-!
# `MString.Proofs.Mlibc.Fields`: a specification in a format

With enough room, the loop goes from the `%` of a specification to what follows it, and
has stored the writes of the conversion.

* `numberWrites`, `textWrites`: the writes of a number and of a string, from the
  attributes that the loop has stored.
* `path_number`, `path_string`, `path_char`: the way over a specification.
* `vsnprintf_of_path`: the result, from a way to the end of the format.
-/

set_option autoImplicit false

namespace MString

open Sink

/-! ### The conversions with room -/

/-- `tmp_buf`. -/
def numberBuf (f : FmtFlags) (d : Nat) : List Char :=
  (digitsOf (baseOf f) d).map (numsAt (!f.doct && !f.ddec && f.dhexUp))

/-- The pieces that a numeric conversion writes, in order. -/
def numberWrites (fa : Fattrs) (d : BitVec 64) : List (List Char) :=
  digitWrites (numberBuf fa.flags d.toNat) (digitAttrs fa (numberBuf fa.flags d.toNat).length)

section Convert

variable {env : Strings} {dsize : Nat} {out : List Char} {s : KprintfState}

/-- `digit` lays out the digits of the number, for all bases of the conversions. -/
theorem digit_eq (d : BitVec 64) (fa : Fattrs) (hbase : 8 ≤ baseOf fa.flags) (k : Sink) :
    digit dsize d fa k = .ok (orReturned (digitOut dsize (numberBuf fa.flags d.toNat)
      (digitAttrs fa (numberBuf fa.flags d.toNat).length) k)) := by
  rw [digit, tmpDigits_eq hbase d.isLt, Loop.ok_bind]
  rfl

/-- A number has a digit, zero too. -/
theorem numberBuf_ne_nil (f : FmtFlags) (d : Nat) (hbase : 8 ≤ baseOf f) : numberBuf f d ≠ [] := by
  rw [numberBuf, digitsOf_step (by omega)]
  simp

/-- A number has a digit, which is stored. -/
theorem flatten_numberWrites_pos (fa : Fattrs) (d : BitVec 64) (hbase : 8 ≤ baseOf fa.flags) :
    0 < (numberWrites fa d).flatten.length := by
  have hbuf := List.length_pos_iff.mpr (numberBuf_ne_nil fa.flags d.toNat hbase)
  unfold numberWrites digitWrites
  simp only [List.flatten_append, List.length_append, List.flatten_singleton, List.length_reverse]
  omega

/-- With room for all of it, a numeric conversion writes its pieces and goes on behind itself.
-/
theorem convert_num (d : BitVec 64) (hbase : 8 ≤ baseOf s.fa.flags) (hs : s.sink = ofList out)
    (hroom : out.length + (numberWrites s.fa d).flatten.length ≤ dsize) :
    convert env dsize s (.num d) = .ok (.inl { s with
      fmt := s.fmt + 1, fa := {}, sink := ofList (out ++ (numberWrites s.fa d).flatten) }) := by
  have hdigit : digit dsize d s.fa s.sink
      = .ok (ofList (out ++ (numberWrites s.fa d).flatten)) := by
    rw [digit_eq d s.fa hbase, hs, (writes_digitOut _ _).fits dsize out hroom]
    rfl
  have hpos := flatten_numberWrites_pos s.fa d hbase
  have hgrown : ¬ (ofList (out ++ (numberWrites s.fa d).flatten)).cs - s.sink.cs = 0 := by
    rw [hs, cs_ofList, cs_ofList, List.length_append]
    omega
  unfold convert
  dsimp only
  rw [hdigit, Loop.ok_bind, if_neg hgrown]

/-- So does a string, ... -/
theorem convert_str (p : BitVec 64) {len : Nat} (hlen : strlen env.mem p = .ok len)
    (hs : s.sink = ofList out)
    (hroom : out.length + (stringWrites env.mem p (strLen s.fa len) s.fa).flatten.length ≤ dsize) :
    convert env dsize s (.str p) = .ok (.inl { s with
      fmt := s.fmt + 1, fa := {}
      sink := ofList (out ++ (stringWrites env.mem p (strLen s.fa len) s.fa).flatten) }) := by
  have hstring : stringOut env.mem dsize p len s.fa s.sink
      = ofList (out ++ (stringWrites env.mem p (strLen s.fa len) s.fa).flatten) := by
    rw [hs]
    exact Except.ok.inj ((writes_stringOut env.mem p len s.fa).fits dsize out hroom)
  unfold convert
  dsimp only
  rw [hlen, Loop.ok_bind, hstring]

/-- ... and a character. -/
theorem convert_chr (c : Char) (hs : s.sink = ofList out)
    (hroom : out.length + (charWrites c s.fa).flatten.length ≤ dsize) :
    convert env dsize s (.chr c) = .ok (.inl { s with
      fmt := s.fmt + 1, fa := {}, sink := ofList (out ++ (charWrites c s.fa).flatten) }) := by
  have hchar : charOut dsize c s.fa s.sink = .ok (ofList (out ++ (charWrites c s.fa).flatten)) := by
    rw [hs]
    exact (writes_charOut c s.fa).fits dsize out hroom
  unfold convert
  dsimp only
  rw [hchar]

end Convert

/-! ### The field of a number -/

/-- What the writes of a number amount to, with a width and a precision that an `int`
holds. The sign and the prefix are not taken off the width. -/
def fieldText (f : FmtFlags) (width precision : Nat) (digits : List Char) : List Char :=
  let zeros := precision - digits.length
  let pad := width - digits.length - zeros
  (if f.fspace then [' '] else []) ++
    (padding (!f.flj) (if f.fzero then '0' else ' ') pad ++
      (signText f ++ (List.replicate zeros '0' ++ (digits ++ padding f.flj ' ' pad))))

section Numbers

variable {w p j : Nat}

/-- A width below `2 ^ 31` keeps its value as a `size_t`. -/
theorem toNat_toSize (hw : w < 2 ^ 31) : (toSize (BitVec.ofNat 32 w)).toNat = w := by
  have hmsb : (BitVec.ofNat 32 w).msb = false := by
    rw [BitVec.msb_eq_decide, BitVec.toNat_ofNat, decide_eq_false_iff_not]
    omega
  rw [toSize, BitVec.toNat_signExtend, hmsb, BitVec.toNat_setWidth, BitVec.toNat_ofNat]
  simp only [Bool.false_eq_true, if_false]
  omega

/-- What is left of a width behind `j` characters, if anything. -/
theorem lessSize_ofNat (hw : w < 2 ^ 31) :
    lessSize (BitVec.ofNat 32 w) j = BitVec.ofNat 32 (w - j) := by
  unfold lessSize
  rw [toNat_toSize hw]
  by_cases hle : w ≤ j
  · rw [if_pos hle, Nat.sub_eq_zero_of_le hle]
    rfl
  · have hsize : toSize (BitVec.ofNat 32 w) = BitVec.ofNat 64 w := by
      apply BitVec.eq_of_toNat_eq
      rw [toNat_toSize hw, BitVec.toNat_ofNat]
      omega
    rw [if_neg hle, hsize]
    apply BitVec.eq_of_toNat_eq
    simp only [BitVec.toNat_setWidth, BitVec.toNat_sub, BitVec.toNat_ofNat]
    omega

/-- Below `2 ^ 31`, the bits of a number are not those of a negative one. -/
theorem toInt_ofNat (hw : w < 2 ^ 31) : (BitVec.ofNat 32 w).toInt = w := by
  rw [BitVec.toInt_eq_toNat_cond, BitVec.toNat_ofNat, Nat.mod_eq_of_lt (by omega),
    if_pos (by omega)]

/-- The width that is left for the padding of a number of `j` digits. -/
theorem digitAttrs_width {fa : Fattrs} (hw : w < 2 ^ 31) (hp : p < 2 ^ 31)
    (hwidth : fa.width = BitVec.ofNat 32 w) (hprecision : fa.presiction = BitVec.ofNat 32 p) :
    (digitAttrs fa j).width = BitVec.ofNat 32 (w - j - (p - j)) := by
  have hsle : (BitVec.ofNat 32 (w - j)).sle (BitVec.ofNat 32 (p - j)) = decide (w - j ≤ p - j) := by
    rw [BitVec.sle_eq_decide, toInt_ofNat (by omega), toInt_ofNat (by omega)]
    simp only [decide_eq_decide]
    omega
  unfold digitAttrs
  simp only [hwidth, hprecision, lessSize_ofNat hw, lessSize_ofNat hp, hsle, decide_eq_true_iff]
  by_cases hle : w - j ≤ p - j
  · rw [if_pos hle, Nat.sub_eq_zero_of_le hle]
    rfl
  · rw [if_neg hle]
    apply BitVec.eq_of_toNat_eq
    simp only [BitVec.toNat_sub, BitVec.toNat_ofNat]
    omega

/-- The precision that is left for its zeros. -/
theorem digitAttrs_presiction {fa : Fattrs} (hp : p < 2 ^ 31)
    (hprecision : fa.presiction = BitVec.ofNat 32 p) :
    (digitAttrs fa j).presiction = BitVec.ofNat 32 (p - j) := by
  unfold digitAttrs
  simp only [hprecision, lessSize_ofNat hp]

/-- So many zeros are written. -/
theorem zeroText_eq {fa : Fattrs} (hp : p < 2 ^ 31)
    (hprecision : fa.presiction = BitVec.ofNat 32 p) :
    zeroText fa = List.replicate p '0' := by
  unfold zeroText
  rw [hprecision, toInt_ofNat hp, BitVec.toNat_ofNat, Nat.mod_eq_of_lt (by omega)]
  by_cases hpos : (p : Int) > 0
  · rw [if_pos hpos]
  · rw [if_neg hpos, show p = 0 by omega]

/-- Characters that are written one by one make the text. -/
theorem flatten_singletons (text : List Char) : (text.map fun c => [c]).flatten = text := by
  rw [← List.flatMap_def, List.flatMap_singleton']

/-- The pieces of a number, put together, are one field. -/
theorem flatten_numberWrites {fa : Fattrs} (hw : w < 2 ^ 31) (hp : p < 2 ^ 31)
    (hwidth : fa.width = BitVec.ofNat 32 w) (hprecision : fa.presiction = BitVec.ofNat 32 p)
    (d : BitVec 64) :
    (numberWrites fa d).flatten
      = fieldText fa.flags w p (numberBuf fa.flags d.toNat).reverse := by
  unfold numberWrites digitWrites
  generalize numberBuf fa.flags d.toNat = buf
  have hflags : (digitAttrs fa buf.length).flags = fa.flags := rfl
  rw [digitAttrs_width hw hp hwidth hprecision, toNat_toSize (by omega), hflags,
    zeroText_eq (show p - buf.length < 2 ^ 31 by omega) (digitAttrs_presiction hp hprecision)]
  unfold fieldText
  cases fa.flags.fspace
  all_goals simp [flatten_singletons]

end Numbers

/-! ### The type bits -/

/-- Nothing has named a type yet. -/
structure FmtFlags.Untyped (f : FmtFlags) : Prop where
  doct : f.doct = false
  ddec : f.ddec = false
  dhex : f.dhex = false
  dhexUp : f.dhexUp = false
  dunsig : f.dunsig = false

/-- Flags set no base and no sign of a conversion. -/
theorem untyped_applyFlags (fs : List Flag) {f : FmtFlags} (h : f.Untyped) :
    (applyFlags f fs).Untyped := by
  induction fs generalizing f with
  | nil => exact h
  | cons x fs ih =>
      refine ih ?_
      cases x <;> exact ⟨h.1, h.2, h.3, h.4, h.5⟩

/-- Nor do the other options. -/
theorem Options.untyped_attrs (o : Options) : o.attrs.Untyped := by
  have h := untyped_applyFlags o.flags (⟨rfl, rfl, rfl, rfl, rfl⟩ : FmtFlags.Untyped {})
  have hdot : (dotFlags (applyFlags {} o.flags) o.precision).Untyped := by
    cases o.precision with
    | none => exact h
    | some a => exact ⟨h.1, h.2, h.3, h.4, h.5⟩
  unfold Options.attrs
  cases o.length <;> exact ⟨hdot.1, hdot.2, hdot.3, hdot.4, hdot.5⟩

/-- So the base is that of the conversion's character. -/
theorem NumConv.baseOf_apply (c : NumConv) {f : FmtFlags} (h : f.Untyped) :
    baseOf (c.apply f) = c.base := by
  cases c <;> simp [NumConv.apply, NumConv.base, baseOf, h.doct, h.ddec]

/-- All bases are 8 or more. -/
theorem NumConv.eight_le_baseOf (c : NumConv) {f : FmtFlags} (h : f.Untyped) :
    8 ≤ baseOf (c.apply f) := by
  rw [c.baseOf_apply h]
  cases c <;> decide

/-! ### The way over a specification -/

/-- What the loop has stored when it converts a number. -/
def Options.numberAttrs (o : Options) (c : NumConv) (args : Nat → BitVec 64) : Fattrs :=
  { o.fattrs args 0 with flags := c.apply o.attrs }

/-- The number. -/
def Options.number (o : Options) (c : NumConv) (args : Nat → BitVec 64) : BitVec 64 :=
  identNumSize (args o.starSlots) (c.apply o.attrs)

/-- The string that a `%s` prints: its argument, or the text for a null pointer. -/
def Options.stringAt (env : Strings) (o : Options) (args : Nat → BitVec 64) : BitVec 64 :=
  if args o.starSlots = 0 then env.nullText else args o.starSlots

section Ways

variable {env : Strings} {args : Nat → BitVec 64} {dsize : Nat} {fmt rest out : List Char}
  {pos ap : Nat} {k : Sink} {P : KprintfState → Prop} {o : Options}

/-- Any other character is copied. -/
theorem turn_literal {c : Char} (hc : charAt fmt pos = c) (hpercent : c ≠ '%') (hnul : c ≠ '\x00')
    (hroom : out.length < dsize) :
    vsnprintfTurn env args dsize fmt ⟨pos, false, {}, ap, ofList out⟩
      = .ok (.inl ⟨pos + 1, false, {}, ap, ofList (out ++ [c])⟩) := by
  have hecho : echo dsize fmt ⟨pos, false, {}, ap, ofList out⟩
      = .inl ⟨pos + 1, false, {}, ap, ofList (out ++ [c])⟩ := by
    have hpos : (((pos : Nat) : Int) - ({} : Fattrs).cinf.toInt).toNat = pos := by
      show ((pos : Int) - 0).toNat = pos
      omega
    unfold echo
    simp only [hpos, hc, copyByteIp_ofList hroom]
  rw [← hecho]
  simp [vsnprintfTurn, hc, hpercent, hnul]

/-- The turns over text without per cent signs copy it. -/
theorem path_literals {p : List Char} (hP : ∀ s, P s) (hpercent : '%' ∉ p) (hnul : '\x00' ∉ p)
    (h : Here fmt pos (p ++ rest)) (hroom : out.length + p.length ≤ dsize) :
    Loop.Path (vsnprintfTurn env args dsize fmt) P ⟨pos, false, {}, ap, ofList out⟩
        ⟨pos + p.length, false, {}, ap, ofList (out ++ p)⟩ ∧ Here fmt (pos + p.length) rest := by
  refine ⟨?_, h.skip⟩
  induction p generalizing pos out with
  | nil =>
      rw [List.append_nil]
      exact .refl _
  | cons c p ih =>
      rw [List.mem_cons, not_or] at hpercent hnul
      rw [List.length_cons] at hroom
      have hturn := @turn_literal env args dsize fmt out pos ap c h.charAt (Ne.symm hpercent.1)
        (Ne.symm hnul.1) (by omega)
      have hroom' : (out ++ [c]).length + p.length ≤ dsize := by
        rw [List.length_append, List.length_singleton]
        omega
      have hrest := ih hpercent.2 hnul.2 h.next hroom'
      rw [List.append_assoc, List.singleton_append] at hrest
      rw [List.length_cons, Nat.add_comm p.length, ← Nat.add_assoc]
      exact .turn (hP _) hturn hrest

/-- The turns over a numeric conversion write its field. -/
theorem path_number (c : NumConv) (hP : ∀ s, charAt fmt s.fmt ≠ '*' → P s)
    (h : Here fmt pos (o.text c.char ++ rest)) (ho : o.Taken fun i => args (ap + i))
    (hstar : o.width = .star → ∀ pos fa, charAt fmt pos = '*' → fa.flags = {} → fa.OnlyFlags →
      fa.presiction = 0 → P ⟨pos, true, fa, ap, ofList out⟩)
    (hprec : o.precision = some .star → ∀ s, P s)
    (hroom : out.length + (numberWrites (o.numberAttrs c fun i => args (ap + i))
      (o.number c fun i => args (ap + i))).flatten.length ≤ dsize) :
    Loop.Path (vsnprintfTurn env args dsize fmt) P ⟨pos, false, {}, ap, ofList out⟩
      ⟨pos + (o.text c.char).length, false, {}, ap + o.starSlots + 1, ofList (out ++
        (numberWrites (o.numberAttrs c fun i => args (ap + i))
          (o.number c fun i => args (ap + i))).flatten)⟩ := by
  have hconv : c.char ≠ 'h' ∧ c.char ≠ 'l' := by cases c <;> decide
  obtain ⟨n, hpath, hchar⟩ := path_options hP h hconv ho hstar hprec
  have hturn := @turn_num env args dsize fmt (pos + 1 + o.body.length) (ap + o.starSlots)
    (o.fattrs (fun i => args (ap + i)) n) (ofList out) c hchar
  have hne : charAt fmt (pos + 1 + o.body.length) ≠ '*' := by
    rw [hchar]
    cases c <;> decide
  have hconvert := @convert_num env dsize out
    ⟨pos + 1 + o.body.length, false,
      { (o.fattrs (fun i => args (ap + i)) n).counted 1 with flags := c.apply o.attrs },
      ap + o.starSlots + 1, ofList out⟩ (o.number c fun i => args (ap + i))
    (c.eight_le_baseOf o.untyped_attrs) rfl hroom
  rw [o.length_text, ← Nat.add_assoc, ← Nat.add_assoc]
  exact hpath.trans (.single (hP _ hne) (hturn.trans hconvert))

/-- The turns over a string conversion write the string. -/
theorem path_string {len : Nat} (hP : ∀ s, charAt fmt s.fmt ≠ '*' → P s)
    (h : Here fmt pos (o.text 's' ++ rest)) (ho : o.Taken fun i => args (ap + i))
    (hstar : o.width = .star → ∀ pos fa, charAt fmt pos = '*' → fa.flags = {} → fa.OnlyFlags →
      fa.presiction = 0 → P ⟨pos, true, fa, ap, ofList out⟩)
    (hprec : o.precision = some .star → ∀ s, P s)
    (hlen : strlen env.mem (o.stringAt env fun i => args (ap + i)) = .ok len)
    (hroom : out.length + (stringWrites env.mem (o.stringAt env fun i => args (ap + i))
      (strLen (o.fattrs (fun i => args (ap + i)) 0) len)
      (o.fattrs (fun i => args (ap + i)) 0)).flatten.length ≤ dsize) :
    Loop.Path (vsnprintfTurn env args dsize fmt) P ⟨pos, false, {}, ap, ofList out⟩
      ⟨pos + (o.text 's').length, false, {}, ap + o.starSlots + 1, ofList (out ++
        (stringWrites env.mem (o.stringAt env fun i => args (ap + i))
          (strLen (o.fattrs (fun i => args (ap + i)) 0) len)
          (o.fattrs (fun i => args (ap + i)) 0)).flatten)⟩ := by
  obtain ⟨n, hpath, hchar⟩ := path_options hP h (by decide) ho hstar hprec
  have hturn := @turn_str env args dsize fmt (pos + 1 + o.body.length) (ap + o.starSlots)
    (o.fattrs (fun i => args (ap + i)) n) (ofList out) hchar
  have hne : charAt fmt (pos + 1 + o.body.length) ≠ '*' := by
    rw [hchar]
    decide
  have hconvert := @convert_str env dsize out
    ⟨pos + 1 + o.body.length, false, (o.fattrs (fun i => args (ap + i)) n).counted 1,
      ap + o.starSlots + 1, ofList out⟩
    (o.stringAt env fun i => args (ap + i)) len hlen rfl hroom
  rw [o.length_text, ← Nat.add_assoc, ← Nat.add_assoc]
  exact hpath.trans (.single (hP _ hne) (hturn.trans hconvert))

/-- The turns over a character conversion write the character. -/
theorem path_char (hP : ∀ s, charAt fmt s.fmt ≠ '*' → P s)
    (h : Here fmt pos (o.text 'c' ++ rest)) (ho : o.Taken fun i => args (ap + i))
    (hstar : o.width = .star → ∀ pos fa, charAt fmt pos = '*' → fa.flags = {} → fa.OnlyFlags →
      fa.presiction = 0 → P ⟨pos, true, fa, ap, ofList out⟩)
    (hprec : o.precision = some .star → ∀ s, P s)
    (hroom : out.length + (charWrites (Char.ofNat ((args (ap + o.starSlots)).toNat % 256))
      (o.fattrs (fun i => args (ap + i)) 0)).flatten.length ≤ dsize) :
    Loop.Path (vsnprintfTurn env args dsize fmt) P ⟨pos, false, {}, ap, ofList out⟩
      ⟨pos + (o.text 'c').length, false, {}, ap + o.starSlots + 1, ofList (out ++
        (charWrites (Char.ofNat ((args (ap + o.starSlots)).toNat % 256))
          (o.fattrs (fun i => args (ap + i)) 0)).flatten)⟩ := by
  obtain ⟨n, hpath, hchar⟩ := path_options hP h (by decide) ho hstar hprec
  have hturn := @turn_chr env args dsize fmt (pos + 1 + o.body.length) (ap + o.starSlots)
    (o.fattrs (fun i => args (ap + i)) n) (ofList out) hchar
  have hne : charAt fmt (pos + 1 + o.body.length) ≠ '*' := by
    rw [hchar]
    decide
  have hconvert := @convert_chr env dsize out
    ⟨pos + 1 + o.body.length, false, (o.fattrs (fun i => args (ap + i)) n).counted 1,
      ap + o.starSlots + 1, ofList out⟩
    (Char.ofNat ((args (ap + o.starSlots)).toNat % 256)) rfl hroom
  rw [o.length_text, ← Nat.add_assoc, ← Nat.add_assoc]
  exact hpath.trans (.single (hP _ hne) (hturn.trans hconvert))

end Ways

/-! ### Whole formats -/

/-- The arguments from the first on are all of them. -/
theorem args_zero (args : Nat → BitVec 64) : (fun i => args (0 + i)) = args :=
  funext fun i => by rw [Nat.zero_add]

/-- A format that is one specification. -/
theorem here_text (o : Options) (conversion : Char) :
    Here (o.text conversion) 0 (o.text conversion ++ []) := by
  rw [List.append_nil]
  exact here_zero _

/-- At the end of a format nothing is in front. -/
theorem here_end (o : Options) (conversion : Char) :
    Here (o.text conversion) (0 + (o.text conversion).length) [] :=
  (here_text o conversion).skip

/-- Behind its per cent sign stand the options of a conversion and its character. -/
theorem here_body (o : Options) (conversion : Char) :
    Here (o.text conversion) 0 ('%' :: (o.body ++ [conversion])) := by
  rw [← o.text_append, List.append_nil]
  exact here_zero _

/-- Where `vsnprintf` starts. -/
def kprintfStart : KprintfState := ⟨0, false, {}, 0, ofList []⟩

section Runs

variable {env : Strings} {args : Nat → BitVec 64} {dsize : BitVec 64} {fmt out : List Char}
  {P : KprintfState → Prop} {s : KprintfState}

/-- `vsnprintf` is the run of its loop. -/
theorem vsnprintf_eq_run : vsnprintf env args dsize fmt
    = Loop.run .diverges (vsnprintfTurn env args dsize.toNat fmt) (turnBudget dsize.toNat fmt)
        kprintfStart := rfl

/-- A way to the end of the format gives the result. -/
theorem vsnprintf_of_path
    (hpath : Loop.Path (vsnprintfTurn env args dsize.toNat fmt) P kprintfStart s)
    (hs : Here fmt s.fmt []) : vsnprintf env args dsize fmt = .ok s.sink := by
  obtain ⟨out, hrun, -⟩ := vsnprintf_total env args dsize fmt
  have hexit := @turn_end env args dsize.toNat fmt s.fmt s.ap s.fa s.sink s.pers hs
  rw [vsnprintf_eq_run] at hrun ⊢
  rw [hrun, hpath.exit hexit hrun]

/-- What is printed on the way to a state stays in front of the result. -/
theorem vsnprintf_prefix
    (hpath : Loop.Path (vsnprintfTurn env args dsize.toNat fmt) P kprintfStart s)
    (hs : s.sink = ofList out) (hlen : out.length ≤ dsize.toNat) :
    ∃ p, vsnprintf env args dsize fmt = .ok (ofList (out ++ p)) := by
  obtain ⟨all, hrun, -⟩ := vsnprintf_total env args dsize fmt
  rw [vsnprintf_eq_run] at hrun ⊢
  obtain ⟨n, hrest⟩ := hpath.run _ hrun
  have hfilled : Filled dsize.toNat out s.sink := hs ▸ filled_self hlen
  obtain ⟨p, hp, -⟩ := run_filled hfilled hrest
  exact ⟨p, by rw [hrun, hp]⟩

/-- A format without specifications is copied. -/
theorem vsnprintf_literals {dsize : BitVec 64} (env : Strings) (args : Nat → BitVec 64)
    (hpercent : '%' ∉ fmt) (hnul : '\x00' ∉ fmt) (hroom : fmt.length ≤ dsize.toNat) :
    vsnprintf env args dsize fmt = .ok (ofList fmt) := by
  have hstart : Here fmt 0 (fmt ++ []) := by
    rw [List.append_nil]
    exact here_zero fmt
  obtain ⟨hpath, hend⟩ := @path_literals env args dsize.toNat fmt [] [] 0 0 (fun _ => True) fmt
    (fun _ => trivial) hpercent hnul hstart (by rw [List.length_nil]; omega)
  exact vsnprintf_of_path hpath hend

end Runs

end MString
