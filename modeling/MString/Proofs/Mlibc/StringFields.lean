import Mathlib.Data.BitVec
import MString.Proofs.Mlibc.Layout

/-!
# `MString.Proofs.Mlibc.StringFields`: the fields of strings

When `%s` prints the characters that the width and the precision ask for, and depends on
no byte of the string but these and its NUL.

* `TextAt`: what a string is.
* `vsnprintf_string`: what the code prints.
* `printsString_iff`: the exact condition. A precision only ever makes the code print
  more: `len < fa.presiction` replaces the length by the larger of the two.
-/

set_option autoImplicit false

namespace MString

open Sink

/-! ### Strings in memory -/

/-- The string at `s`, up to its NUL. -/
structure TextAt (mem : BitVec 64 → Char) (s : BitVec 64) (text : List Char) : Prop where
  chars : ∀ i, ∀ h : i < text.length, mem (s + BitVec.ofNat 64 i) = text.get ⟨i, h⟩
  noNul : '\x00' ∉ text
  nul : mem (s + BitVec.ofNat 64 text.length) = '\x00'

section Texts

variable {env : Strings} {mem : BitVec 64 → Char} {s : BitVec 64} {text : List Char}

/-- `strlen` finds the length of a text. -/
theorem TextAt.strlen (h : TextAt env.mem s text) : strlen env.mem s = .ok text.length := by
  obtain ⟨len, hlen⟩ := strlen_total env s
  rw [hlen]
  -- The loop comes to the NUL, and leaves there.
  have hpath : ∀ n, n ≤ text.length → Loop.Reaches (fun n =>
      if env.mem (s + BitVec.ofNat 64 n) = '\x00' then .ok (.inr n) else .ok (.inl (n + 1)) :
        Nat → Except Fault (Nat ⊕ Nat)) 0 n := by
    intro n
    induction n with
    | zero => exact fun _ => .refl 0
    | succ n ih =>
        intro hn
        refine (ih (by omega)).trans (.single trivial (if_neg ?_))
        rw [h.chars n hn]
        exact fun hc => h.noNul (hc ▸ List.get_mem _ _)
  rw [MString.strlen] at hlen
  exact congrArg Except.ok ((hpath text.length (Nat.le_refl _)).exit (if_pos h.nul) hlen)

/-- The bytes from its start are its characters. -/
theorem TextAt.map_range (h : TextAt mem s text) :
    ((List.range text.length).map fun i => mem (s + BitVec.ofNat 64 i)) = text := by
  refine List.ext_getElem (by simp) fun i hi hi' => ?_
  rw [List.getElem_map, List.getElem_range, h.chars i hi']
  rfl

/-- What a memory says that agrees on the string and its NUL. -/
theorem TextAt.congr {mem' : BitVec 64 → Char} (h : TextAt mem s text)
    (hchars : ∀ i < text.length, mem' (s + BitVec.ofNat 64 i) = mem (s + BitVec.ofNat 64 i))
    (hnul : mem' (s + BitVec.ofNat 64 text.length) = mem (s + BitVec.ofNat 64 text.length)) :
    TextAt mem' s text where
  chars i hi := (hchars i hi).trans (h.chars i hi)
  noNul := h.noNul
  nul := hnul.trans h.nul

end Texts

/-! ### What the code prints -/

/-- The options that a string conversion has a use for: `-`, a width and a precision. -/
structure Options.ForString (o : Options) : Prop where
  flags : o.flags = [] ∨ o.flags = [.minus]
  length : o.length = .none

/-- `n` characters at `s` in a field. -/
def codeString (o : Options) (args : Nat → BitVec 64) (mem : BitVec 64 → Char) (s : BitVec 64)
    (n : Nat) : List Char :=
  let blanks := (o.widthOf args).natAbs - n
  padding (!decide (.minus ∈ o.flags)) ' ' blanks ++
    ((List.range n).map (fun i => mem (s + BitVec.ofNat 64 i)) ++
      padding (decide (.minus ∈ o.flags)) ' ' blanks)

section Code

variable {env : Strings} {args : Nat → BitVec 64} {dsize : BitVec 64} {o : Options} {len : Nat}

/-- The pieces that a string conversion writes, put together. -/
theorem flatten_stringWrites (mem : BitVec 64 → Char) (s : BitVec 64) (n : Nat)
    (hnonneg : 0 ≤ o.widthOf args) (hsmall : o.widthOf args < 2 ^ 31) :
    (stringWrites mem s n (o.fattrs args 0)).flatten = codeString o args mem s n := by
  have hwidth : BitVec.ofInt 32 (o.widthOf args) = BitVec.ofNat 32 (o.widthOf args).natAbs := by
    rw [show o.widthOf args = ((o.widthOf args).natAbs : Int) by omega]
    exact BitVec.ofInt_natCast ..
  have hblanks : (toSize (lessSize (o.fattrs args 0).width n)).toNat
      = (o.widthOf args).natAbs - n := by
    show (toSize (lessSize (BitVec.ofInt 32 (o.widthOf args)) n)).toNat = _
    rw [hwidth, lessSize_ofNat (by omega), toNat_toSize (by omega)]
  have hflj : (o.fattrs args 0).flags.flj = decide (.minus ∈ o.flags) := o.attrs_bits.1
  unfold stringWrites codeString
  dsimp only
  rw [hblanks, hflj]
  simp

/-- With room for it, `vsnprintf` prints this text of a single string conversion. -/
theorem vsnprintf_string (ho : o.Taken args)
    (hnonneg : 0 ≤ o.widthOf args) (hsmall : o.widthOf args < 2 ^ 31)
    (hlen : strlen env.mem (o.stringAt env args) = .ok len)
    (hroom : (codeString o args env.mem (o.stringAt env args)
      (strLen (o.fattrs args 0) len)).length ≤ dsize.toNat) :
    vsnprintf env args dsize (o.text 's') = .ok (ofList (codeString o args env.mem
      (o.stringAt env args) (strLen (o.fattrs args 0) len))) := by
  have htext := flatten_stringWrites env.mem (o.stringAt env args) (strLen (o.fattrs args 0) len)
    hnonneg hsmall
  have hpath := @path_string env args dsize.toNat (o.text 's') [] [] 0 0
    (fun _ => True) o len (fun _ _ => trivial) (here_text o 's') (by rwa [args_zero])
    (fun _ _ _ _ _ _ _ => trivial) (fun _ _ => trivial) (by rwa [args_zero])
    (by rw [args_zero, htext]; simpa using hroom)
  rw [args_zero, htext, List.nil_append] at hpath
  exact vsnprintf_of_path hpath (here_end o 's')

end Code

/-! ### When the field is right -/

/-- The memory matters only at the characters that are shown and at the NUL. -/
def ReadsOnly (env : Strings) (args : Nat → BitVec 64) (dsize : BitVec 64) (o : Options)
    (text : List Char) : Prop :=
  ∀ env' : Strings, o.stringAt env' args = o.stringAt env args →
    (∀ i < (o.shown args text).length, env'.mem (o.stringAt env args + BitVec.ofNat 64 i)
      = env.mem (o.stringAt env args + BitVec.ofNat 64 i)) →
    env'.mem (o.stringAt env args + BitVec.ofNat 64 text.length)
      = env.mem (o.stringAt env args + BitVec.ofNat 64 text.length) →
    vsnprintf env' args dsize (o.text 's') = vsnprintf env args dsize (o.text 's')

/-- With enough room, `%s` prints the field, and reads nothing that it does not need. -/
def PrintsString (env : Strings) (args : Nat → BitVec 64) (o : Options) (text : List Char) : Prop :=
  ∀ dsize : BitVec 64, (o.stringField args text).length ≤ dsize.toNat →
    vsnprintf env args dsize (o.text 's') = .ok (ofList (o.stringField args text)) ∧
      ReadsOnly env args dsize o text

/-- When it does: the width is a numeral without a zero, or a `*` without `-` whose
argument is not negative, `.*` does not follow a `-`, and a precision is the length of the
string. -/
structure Options.StringFits (o : Options) (args : Nat → BitVec 64) (text : List Char) : Prop where
  width : ∀ ds, o.width = .digits ds → 0 ∉ ds ∧ numeral ds < 2 ^ 31
  widthStar : o.width = .star → o.flags = [] ∧ 0 ≤ o.widthOf args
  precisionStar : o.precision = some .star → o.flags = []
  precision : ∀ p, o.precisionOf args = some p → p = text.length

/-- The text and its numerals are such that no `int` of the code overflows, and the string
does not look like an echo. -/
structure Options.SmallString (o : Options) (args : Nat → BitVec 64) (text : List Char) :
    Prop where
  small : o.Small
  width : -2 ^ 31 < o.widthOf args
  length : text.length < 2 ^ 31
  head : text.head? ≠ some '%'

section Fits

variable {env : Strings} {args : Nat → BitVec 64} {o : Options} {text : List Char}

/-- No flag of such a conversion is refused. -/
theorem Options.ForString.flagsTaken (h : o.ForString) : FlagsTaken {} o.flags := by
  rcases h.flags with hflags | hflags
  · rw [hflags]
    trivial
  · rw [hflags]
    exact ⟨rfl, trivial⟩

/-- And no option. -/
theorem Options.StringFits.taken (h : o.StringFits args text) (ho : o.ForString) :
    o.Taken args where
  flags := ho.flagsTaken
  width ds hds := (h.width ds hds).1
  widthStar := h.widthStar
  precisionStar hp f hf := by
    rw [h.precisionStar hp] at hf
    exact absurd hf List.not_mem_nil

/-- Its width is a number that fits an `int`. -/
theorem Options.StringFits.widthOf (h : o.StringFits args text) :
    0 ≤ o.widthOf args ∧ o.widthOf args < 2 ^ 31 :=
  o.widthOf_bounds (fun ds hds => (h.width ds hds).2) fun hw => (h.widthStar hw).2

/-- A precision that is the length cuts nothing off. -/
theorem shown_of_precision (h : ∀ p, o.precisionOf args = some p → p = text.length) :
    o.shown args text = text := by
  unfold Options.shown
  cases hp : o.precisionOf args with
  | none => rfl
  | some p => exact List.take_of_length_le (Nat.le_of_eq (h p hp).symm)

/-- All of the text is shown. -/
theorem Options.StringFits.shown (h : o.StringFits args text) : o.shown args text = text :=
  shown_of_precision h.precision

/-- A precision that is at most the length leaves the length as it is. -/
theorem strLen_of_precision {n : Nat} (h : ∀ p, o.precisionOf args = some p → p ≤ n) :
    strLen (o.fattrs args 0) n = n := by
  have hle : ¬ ((o.fattrs args 0).presiction.toInt > 0
      ∧ n < (o.fattrs args 0).presiction.toNat) := by
    intro ⟨hpos, hlt⟩
    cases hp : o.precision with
    | none => simp [Options.fattrs, hp] at hpos
    | some a =>
        have hbits : (o.fattrs args 0).presiction
            = BitVec.ofInt 32 (a.number (args o.width.slots)) := by
          simp [Options.fattrs, hp]
        rw [hbits] at hpos hlt
        by_cases hneg : a.number (args o.width.slots) < 0
        · -- Only a `*` is negative, and its bits are those of the argument.
          cases a with
          | digits ds => exact absurd hneg (by simp only [Amount.number]; omega)
          | star =>
              rw [show BitVec.ofInt 32 (Amount.star.number (args o.width.slots))
                = (args o.width.slots).setWidth 32 from BitVec.ofInt_toInt] at hpos
              have hneg' : ((args o.width.slots).setWidth 32).toInt < 0 := hneg
              omega
        · have hof : o.precisionOf args = some (a.number (args o.width.slots)).toNat := by
            simp [Options.precisionOf, hp, hneg]
          have hp' := h _ hof
          rw [BitVec.toNat_ofInt] at hlt
          omega
  exact if_neg hle

/-- Where all of the text is shown, the field is what the code writes. -/
theorem stringField_eq_codeString (mem : BitVec 64 → Char) (s : BitVec 64)
    (htext : TextAt mem s text) (hnonneg : 0 ≤ o.widthOf args)
    (hshown : o.shown args text = text) :
    o.stringField args text = codeString o args mem s text.length := by
  have hleft : o.left args = decide (.minus ∈ o.flags) := by
    rw [Options.left, decide_eq_false (show ¬ o.widthOf args < 0 by omega), Bool.or_false]
  unfold Options.stringField codeString
  dsimp only
  rw [hleft, hshown, htext.map_range]
  by_cases hminus : Flag.minus ∈ o.flags
  · simp [hminus, padding]
  · simp [hminus, padding]

/-- So the code prints the field. -/
theorem vsnprintf_stringField (h : o.StringFits args text) (ho : o.ForString)
    (htext : TextAt env.mem (o.stringAt env args) text) {dsize : BitVec 64}
    (hroom : (o.stringField args text).length ≤ dsize.toNat) :
    vsnprintf env args dsize (o.text 's') = .ok (ofList (o.stringField args text)) := by
  have hfield := stringField_eq_codeString env.mem _ htext h.widthOf.1 h.shown
  have hlen := strLen_of_precision fun p hp => Nat.le_of_eq (h.precision p hp)
  have hcode := @vsnprintf_string env args dsize o text.length (h.taken ho) h.widthOf.1 h.widthOf.2
    htext.strlen
  rw [hlen, ← hfield] at hcode
  exact hcode hroom

/-- The condition is enough. -/
theorem printsString_of_fits (h : o.StringFits args text) (ho : o.ForString)
    (htext : TextAt env.mem (o.stringAt env args) text) : PrintsString env args o text := by
  intro dsize hroom
  refine ⟨vsnprintf_stringField h ho htext hroom, fun env' hat hchars hnul => ?_⟩
  rw [h.shown] at hchars
  have htext' := htext.congr hchars hnul
  rw [vsnprintf_stringField h ho htext hroom]
  exact vsnprintf_stringField h ho (hat ▸ htext') hroom

end Fits

/-! ### When it is not -/

section Misfits

variable {env : Strings} {args : Nat → BitVec 64} {o : Options} {text : List Char}

/-- What is shown is a first part of the text. -/
theorem shown_subset (o : Options) (args : Nat → BitVec 64) (text : List Char) :
    o.shown args text <+: text := by
  unfold Options.shown
  split
  · exact List.prefix_rfl
  · exact List.take_prefix ..

/-- A field begins with a blank or as the string does. -/
theorem head_stringField {x : Char} (h : (o.stringField args text).head? = some x) :
    x = ' ' ∨ text.head? = some x := by
  have hshown : ∀ y, (o.shown args text).head? = some y → text.head? = some y := by
    intro y hy
    obtain ⟨rest, hrest⟩ := shown_subset o args text
    rw [← hrest, List.head?_append, hy]
    rfl
  have hblank : ∀ n, (List.replicate n ' ').head? = some x → x = ' ' :=
    fun n hn => List.eq_of_mem_replicate (List.mem_of_head? hn)
  unfold Options.stringField at h
  dsimp only at h
  split at h
  all_goals
    rw [List.head?_append, Option.or_eq_some_iff] at h
    rcases h with h | ⟨-, h⟩
  · exact .inr (hshown x h)
  · exact .inl (hblank _ h)
  · exact .inl (hblank _ h)
  · exact .inr (hshown x h)

/-- A field is as long as its width and what is shown ask for. -/
theorem length_stringField (o : Options) (args : Nat → BitVec 64) (text : List Char) :
    (o.stringField args text).length
      = max (o.widthOf args).natAbs (o.shown args text).length := by
  unfold Options.stringField
  dsimp only
  split
  all_goals
    rw [List.length_append, List.length_replicate]
    omega

/-- A field of a small conversion is no longer than `2 ^ 31`. -/
theorem length_stringField_le (h : o.SmallString args text) :
    (o.stringField args text).length ≤ 2 ^ 31 := by
  have hwidth : (o.widthOf args).natAbs ≤ 2 ^ 31 := Amount.natAbs_number_le _ h.small.width
  have hshown := (shown_subset o args text).length_le
  have hlen := h.length
  rw [length_stringField]
  omega

/-- The string's field has no NUL. -/
theorem nul_notMem_stringField {mem : BitVec 64 → Char} {s : BitVec 64} (h : TextAt mem s text) :
    '\x00' ∉ o.stringField args text := by
  have hshown : '\x00' ∉ o.shown args text := fun hx =>
    h.noNul ((shown_subset o args text).subset hx)
  have hblank : ∀ n, '\x00' ∉ List.replicate n ' ' :=
    fun n hn => absurd (List.eq_of_mem_replicate hn) (by decide)
  unfold Options.stringField
  dsimp only
  split
  all_goals
    rw [List.mem_append, not_or]
  · exact ⟨hshown, hblank _⟩
  · exact ⟨hblank _, hshown⟩

/-- The code copies the bytes behind the NUL. -/
theorem nul_mem_codeString {mem : BitVec 64 → Char} {s : BitVec 64} (h : TextAt mem s text)
    {n : Nat} (hn : text.length < n) : '\x00' ∈ codeString o args mem s n := by
  refine List.mem_append_right _ (List.mem_append_left _ ?_)
  exact List.mem_map.mpr ⟨text.length, List.mem_range.mpr hn, h.nul⟩

/-- A negative width is a large `size_t`, and what is left of it is no width, either. -/
theorem blanks_of_negative {w : BitVec 32} {n : Nat} (hneg : w.toInt < 0) (hmin : -2 ^ 31 < w.toInt)
    (hn : n < 2 ^ 31) :
    2 ^ 31 < (toSize (lessSize w n)).toNat + n ∧ (toSize (lessSize w n)).toNat + n < 2 ^ 64 := by
  have hsize : ∀ x : BitVec 32,
      (toSize x).toNat = x.toNat + if 2 ^ 31 ≤ x.toNat then 2 ^ 64 - 2 ^ 32 else 0 := by
    intro x
    have hx := x.isLt
    rw [toSize, BitVec.toNat_signExtend, BitVec.toNat_setWidth, BitVec.msb_eq_decide]
    simp only [decide_eq_true_eq]
    split
    · omega
    · omega
  have hw := w.isLt
  have hint := BitVec.toInt_eq_toNat_cond w
  -- A negative width is a large number once it is a `size_t`.
  have hnat : 2 ^ 31 < w.toNat := by
    split at hint
    · omega
    · omega
  -- The length is taken from it, and what is left is cut to an `int`.
  have hless : (lessSize w n).toNat = w.toNat - n := by
    have hlarge : ¬ (toSize w).toNat ≤ n := by
      rw [hsize, if_pos (by omega)]
      omega
    rw [lessSize, if_neg hlarge, BitVec.toNat_setWidth, BitVec.toNat_sub, hsize, if_pos (by omega),
      BitVec.toNat_ofNat]
    omega
  rw [hsize, hless]
  split
  · omega
  · omega

/-- A precision, from any number that stands there already. -/
theorem path_precision_any {dsize pos ap : Nat} {fmt rest : List Char} {fa : Fattrs} {k : Sink}
    (precision : Option Amount)
    (h : Here fmt pos (precision.elim [] (fun a => '.' :: a.text) ++ rest)) (hflags : fa.flags = {})
    (hp : ¬ fa.presiction.toInt > 0) :
    ∃ pos' fa', Loop.Reaches (vsnprintfTurn env args dsize fmt) ⟨pos, true, fa, ap, k⟩
      ⟨pos', true, fa', ap + precision.elim 0 Amount.slots, k⟩ ∧ Here fmt pos' rest ∧
        fa'.width = fa.width ∧ fa'.flags.flj = false := by
  cases precision with
  | none => exact ⟨pos, fa, .refl _, h, rfl, by rw [hflags]⟩
  | some a =>
      have hdot := @turn_dot env args dsize fmt pos ap fa k h.charAt
      have hlmask : fa.flags.lmask = false := by rw [hflags]; rfl
      have hflj : fa.flags.flj = false := by rw [hflags]
      -- The dot takes the zero flag away, and `fmask` stays clear, so `*` is taken.
      have hfmask : ({ fa.flags with fzero := false, dot := true } : FmtFlags).fmask = false := by
        rw [hflags]
        rfl
      cases a with
      | digits ds =>
          have hpath := @path_precision env args dsize fmt rest (pos + 1) ap
            { fa.counted 1 with flags := { fa.flags with fzero := false, dot := true } } k
            (fun _ => True) (fun _ _ => trivial) ds fa.presiction.toNat h.next hlmask rfl
            (by rw [BitVec.ofNat_toNat, BitVec.setWidth_eq]; rfl)
          have hrest := h.next.skip
          rw [show (Amount.digits ds).text.length = ds.length from List.length_map ..] at hrest
          exact ⟨_, _, .turn trivial hdot hpath, hrest, rfl, hflj⟩
      -- `*` takes the next argument.
      | star =>
          have hturn := @turn_star_precision env args dsize fmt (pos + 1) ap
            { fa.counted 1 with flags := { fa.flags with fzero := false, dot := true } } k
            h.next.charAt hfmask hlmask rfl hp
          exact ⟨_, _, .turn trivial hdot (.single trivial hturn), h.next.next, rfl, hflj⟩

/-- Cut to the precision, a small length stays small. -/
theorem strLen_lt {fa : Fattrs} {n : Nat} (hn : n < 2 ^ 31) : strLen fa n < 2 ^ 31 := by
  unfold strLen
  split
  · rename_i hpos
    have hint := BitVec.toInt_eq_toNat_cond fa.presiction
    have hlt := fa.presiction.isLt
    split at hint
    · omega
    · omega
  · exact hn

/-- A negative width fills the destination with blanks. -/
theorem prints_blanks (ho : o.ForString) (hflags : o.flags = []) (hw : o.width = .star)
    (hneg : o.widthOf args < 0) (hmin : -2 ^ 31 < o.widthOf args)
    (htext : TextAt env.mem (o.stringAt env args) text) (hlen : text.length < 2 ^ 31) :
    ∃ out, vsnprintf env args (BitVec.allOnes 64) (o.text 's') = .ok (ofList out) ∧
      2 ^ 31 < out.length := by
  have hfmt : Here (o.text 's') 0 ('%' :: '*' ::
      (o.precision.elim [] (fun a => '.' :: a.text) ++ ['s'])) := by
    have hspec : o.text 's' = '%' :: '*' ::
        (o.precision.elim [] (fun a => '.' :: a.text) ++ ['s']) := by
      simp [Options.text, Options.flagsText, Options.precisionText, hflags, hw, Amount.text,
        ho.length, LengthMod.text]
    rw [hspec]
    exact here_zero _
  have hstart := @turn_percent env args (BitVec.allOnes 64).toNat _ 0 0 {} (ofList []) hfmt.charAt
  have hturn := @turn_star_width env args (BitVec.allOnes 64).toNat _ 1 0 {} (ofList [])
    hfmt.next.charAt rfl ⟨rfl, rfl, by decide⟩
  rw [Options.widthOf, hw] at hneg hmin
  have hsign : ((args 0).setWidth 32).toInt < 0 := hneg
  rw [starNumber_high _ rfl rfl, starNumber_low _ rfl rfl, if_pos hsign] at hturn
  obtain ⟨pos, fa, hpath, hhere, hwidth, hflj⟩ := @path_precision_any env args
    (BitVec.allOnes 64).toNat 2 1 (o.text 's') ['s']
    { ({} : Fattrs).counted 1 with width := (args 0).setWidth 32, presiction := -1 } (ofList [])
    o.precision hfmt.next.next rfl (show ¬ (-1 : BitVec 32).toInt > 0 by decide)
  have hstr := @turn_str env args (BitVec.allOnes 64).toNat (o.text 's') pos
    (1 + o.precision.elim 0 Amount.slots) fa (ofList []) hhere.charAt
  -- The writes are blanks, and then the characters.
  have hslots : args (1 + o.precision.elim 0 Amount.slots) = args o.starSlots := by
    rw [Options.starSlots, hw]
    rfl
  have hlen' := @strLen_lt (fa.counted 1) text.length hlen
  obtain ⟨hlarge, hfits⟩ := blanks_of_negative hsign hmin hlen'
  have hwrites : (stringWrites env.mem (o.stringAt env args) (strLen (fa.counted 1) text.length)
      (fa.counted 1)).flatten.length = (toSize (lessSize ((args 0).setWidth 32)
        (strLen (fa.counted 1) text.length))).toNat + strLen (fa.counted 1) text.length := by
    unfold stringWrites
    simp only [Fattrs.counted_flags, Fattrs.counted_width, hflj, hwidth, padding]
    simp
  have hall : (BitVec.allOnes 64).toNat = 2 ^ 64 - 1 := by decide
  have hconvert := @convert_str env (BitVec.allOnes 64).toNat []
    ⟨pos, false, fa.counted 1, 1 + o.precision.elim 0 Amount.slots + 1, ofList []⟩
    (o.stringAt env args) text.length htext.strlen rfl
    (by rw [hwrites, hall]; simp only [List.length_nil]; omega)
  rw [hslots, show (if args o.starSlots = 0 then env.nullText else args o.starSlots)
    = o.stringAt env args from rfl, hconvert] at hstr
  have hall := (Loop.Path.turn trivial hstart (.turn trivial hturn hpath)).trans
    (.single trivial hstr)
  refine ⟨_, vsnprintf_of_path hall hhere.next, ?_⟩
  rw [List.nil_append, hwrites]
  exact hlarge

/-! Another memory, in which the string at `s` is `text` and the literal is far behind it. -/

/-- Memory with the text at `s`, and the literal for a null pointer `2 ^ 32` bytes behind it. -/
def otherStrings (s : BitVec 64) (text : List Char) : Strings where
  mem a :=
    let i := (a - s).toNat
    if i < 2 ^ 32 then text.getD i '\x00' else "<NULL>".toList.getD (i - 2 ^ 32) '\x00'
  nullText := s + 2 ^ 32
  holds := by
    intro i
    have hi := i.isLt
    have hplace : (s + 2 ^ 32 + BitVec.ofNat 64 i.val - s).toNat = 2 ^ 32 + i.val := by
      have hs := s.isLt
      have hpow : (2 ^ 32 : BitVec 64) = BitVec.ofNat 64 (2 ^ 32) := by decide
      rw [hpow, BitVec.toNat_sub, BitVec.toNat_add, BitVec.toNat_add, BitVec.toNat_ofNat,
        BitVec.toNat_ofNat]
      omega
    simp only [hplace]
    rw [if_neg (by omega), Nat.add_sub_cancel_left]
    clear hi hplace
    revert i
    decide

/-- Behind `s` stands the text, and then there are NULs. -/
theorem otherStrings_mem (s : BitVec 64) (text : List Char) {i : Nat} (hi : i < 2 ^ 32) :
    (otherStrings s text).mem (s + BitVec.ofNat 64 i) = text.getD i '\x00' := by
  have hplace : (s + BitVec.ofNat 64 i - s).toNat = i := by
    have hs := s.isLt
    rw [BitVec.toNat_sub, BitVec.toNat_add, BitVec.toNat_ofNat]
    omega
  show (if (s + BitVec.ofNat 64 i - s).toNat < 2 ^ 32 then _ else _) = _
  rw [hplace, if_pos hi]

/-- So the text stands there. -/
theorem otherStrings_textAt (s : BitVec 64) (hlen : text.length < 2 ^ 32) (hnul : '\x00' ∉ text) :
    TextAt (otherStrings s text).mem s text where
  chars i hi := by
    rw [otherStrings_mem s text (by omega), List.getD_eq_getElem?_getD, List.getElem?_eq_getElem hi]
    rfl
  noNul := hnul
  nul := by
    rw [otherStrings_mem s text hlen, List.getD_eq_getElem?_getD, List.getElem?_eq_none (by omega)]
    rfl

/-- A string has one text. -/
theorem TextAt.unique {env : Strings} {s : BitVec 64} {text text' : List Char}
    (h : TextAt env.mem s text) (h' : TextAt env.mem s text') : text = text' := by
  have hlen : text.length = text'.length := Except.ok.inj (h.strlen.symm.trans h'.strlen)
  rw [← h.map_range, ← h'.map_range, hlen]

/-- The text for a null pointer stands where the environment has it. -/
theorem nullText_textAt (env : Strings) : TextAt env.mem env.nullText "<NULL>".toList where
  chars i hi := by
    have hlt : i < 7 := Nat.lt_trans hi (by decide)
    have hchar := env.holds ⟨i, hlt⟩
    rw [show ((⟨i, hlt⟩ : Fin 7) : Nat) = i from rfl] at hchar
    rw [hchar]
    have hi' : i < 6 := hi
    interval_cases i <;> rfl
  noNul := by decide
  nul := env.holds 6

/-- The length of what the code writes for a string. -/
theorem length_codeString (mem : BitVec 64 → Char) (s : BitVec 64) (n : Nat) :
    (codeString o args mem s n).length = max (o.widthOf args).natAbs n := by
  unfold codeString padding
  by_cases hminus : Flag.minus ∈ o.flags
  all_goals
    simp [hminus]
    omega

/-- Two strings of one length in equal fields are equal. -/
theorem codeString_cancel {mem mem' : BitVec 64 → Char} {s s' : BitVec 64} {n : Nat}
    (h : codeString o args mem s n = codeString o args mem' s' n) :
    (List.range n).map (fun i => mem (s + BitVec.ofNat 64 i))
      = (List.range n).map fun i => mem' (s' + BitVec.ofNat 64 i) :=
  List.append_cancel_right (List.append_cancel_left h)

/-- Padding is blanks only. -/
theorem filter_padding (side : Bool) (n : Nat) :
    (padding side ' ' n).filter (· ≠ ' ') = [] := by
  cases side with
  | true => simp [padding]
  | false => rfl

/-- So the characters of the string can be read off what the code writes, ... -/
theorem filter_codeString (mem : BitVec 64 → Char) (s : BitVec 64) (n : Nat) :
    (codeString o args mem s n).filter (· ≠ ' ')
      = ((List.range n).map fun i => mem (s + BitVec.ofNat 64 i)).filter (· ≠ ' ') := by
  rw [codeString, List.filter_append, List.filter_append, filter_padding, filter_padding,
    List.nil_append, List.append_nil]

/-- ... and off the field. -/
theorem filter_stringField (o : Options) (args : Nat → BitVec 64) (text : List Char) :
    (o.stringField args text).filter (· ≠ ' ') = (o.shown args text).filter (· ≠ ' ') := by
  have hblank : ∀ n, (List.replicate n ' ').filter (· ≠ ' ') = [] := filter_padding true
  unfold Options.stringField
  dsimp only
  split
  · rw [List.filter_append, hblank, List.append_nil]
  · rw [List.filter_append, hblank, List.nil_append]

/-- With a precision below the length the string is printed as if there were none. -/
theorem vsnprintf_of_less {p : Nat} (ho : o.Taken args) (hnonneg : 0 ≤ o.widthOf args)
    (hsmall : o.SmallString args text) (hp : o.precisionOf args = some p) (hlt : p < text.length)
    {env' : Strings} {text' : List Char} (hlen' : text'.length = text.length)
    (htext' : TextAt env'.mem (o.stringAt env' args) text') :
    vsnprintf env' args (BitVec.allOnes 64) (o.text 's')
      = .ok (ofList (codeString o args env'.mem (o.stringAt env' args) text.length)) := by
  have hall : (BitVec.allOnes 64).toNat = 2 ^ 64 - 1 := by decide
  have hlen := hsmall.length
  have hwidth : (o.widthOf args).natAbs ≤ 2 ^ 31 := Amount.natAbs_number_le _ hsmall.small.width
  have hstrlen := @strLen_of_precision args o text.length fun p' hp' => by
    rw [hp] at hp'
    obtain rfl := Option.some.inj hp'
    omega
  have hrun := @vsnprintf_string env' args (BitVec.allOnes 64) o text'.length ho hnonneg
    (Amount.number_lt _ hsmall.small.width) htext'.strlen
  rw [hlen', hstrlen] at hrun
  exact hrun (by rw [length_codeString, hall]; omega)

/-- What is cut off is printed. -/
theorem precision_not_less {p : Nat} (h : PrintsString env args o text) (ho : o.Taken args)
    (hnonneg : 0 ≤ o.widthOf args) (hsmall : o.SmallString args text)
    (htext : TextAt env.mem (o.stringAt env args) text) (hp : o.precisionOf args = some p) :
    ¬ p < text.length := by
  intro hlt
  have hall : (BitVec.allOnes 64).toNat = 2 ^ 64 - 1 := by decide
  have hfield := length_stringField_le hsmall
  have hlen := hsmall.length
  -- The field is large enough for all of the text, so nothing is cut off there.
  obtain ⟨hprints, hreads⟩ := h (BitVec.allOnes 64) (by rw [hall]; omega)
  have hrun := vsnprintf_of_less ho hnonneg hsmall hp hlt rfl htext
  by_cases hnull : args o.starSlots = 0
  · -- The literal has no blank, so the blanks can be told from it.
    have hat : o.stringAt env args = env.nullText := if_pos hnull
    rw [hat] at htext
    obtain rfl := htext.unique (nullText_textAt env)
    rw [hprints] at hrun
    have htexts := Sink.ofList_injective (Except.ok.inj hrun)
    rw [hat] at htexts
    have hcount := congrArg (fun l => (l.filter (· ≠ ' ')).length) htexts
    simp only [filter_codeString, filter_stringField, htext.map_range] at hcount
    have hshown : o.shown args "<NULL>".toList = "<NULL>".toList.take p := by
      simp [Options.shown, hp]
    have hp6 : p < 6 := hlt
    rw [hshown] at hcount
    interval_cases p <;> exact absurd hcount (by decide)
  · -- A string that differs where it is cut off prints something else.
    have hat : ∀ env' : Strings, o.stringAt env' args = args o.starSlots := fun env' => if_neg hnull
    obtain ⟨c, hc, hnul⟩ : ∃ c : Char, c ≠ text.get ⟨p, hlt⟩ ∧ c ≠ '\x00' := by
      by_cases hx : text.get ⟨p, hlt⟩ = 'x'
      · exact ⟨'y', by rw [hx]; decide, by decide⟩
      · exact ⟨'x', Ne.symm hx, by decide⟩
    have hother := @otherStrings_textAt (text.set p c) (args o.starSlots)
      (by rw [List.length_set]; omega) (fun hmem => by
        rcases List.mem_or_eq_of_mem_set hmem with hmem | heq
        · exact htext.noNul hmem
        · exact hnul heq.symm)
    -- The precision ends in front of `p`, so a right `vsnprintf` does not look at the character
    -- there. The code prints it.
    have hsame := hreads (otherStrings (args o.starSlots) (text.set p c)) (by rw [hat, hat]) ?_ ?_
    · rw [vsnprintf_of_less ho hnonneg hsmall hp hlt List.length_set (by rw [hat]; exact hother),
        hrun] at hsame
      have htexts := codeString_cancel (Sink.ofList_injective (Except.ok.inj hsame))
      have hmap := hother.map_range
      rw [List.length_set] at hmap
      rw [hat, hat, hmap, ← hat env, htext.map_range] at htexts
      have hget := congrArg (fun l => l[p]?) htexts
      simp only [List.getElem?_set_self hlt, List.getElem?_eq_getElem hlt] at hget
      exact hc (Option.some.inj hget)
    · intro i hi
      have hshown : (o.shown args text).length ≤ p := by
        simp only [Options.shown, hp, List.length_take]
        omega
      rw [hat, otherStrings_mem _ _ (by omega), ← hat env, htext.chars i (by omega),
        List.getD_eq_getElem?_getD, List.getElem?_set_ne (by omega),
        List.getElem?_eq_getElem (by omega)]
      rfl
    · have hend := hother.nul
      rw [List.length_set] at hend
      rw [hat, hend, ← hat env, htext.nul]

/-- A precision that is written out, or taken from an argument, is below `2 ^ 31`. -/
theorem precisionOf_lt {p : Nat} (h : o.Small) (hp : o.precisionOf args = some p) : p < 2 ^ 31 := by
  cases hprecision : o.precision with
  | none => simp [Options.precisionOf, hprecision] at hp
  | some a =>
      simp only [Options.precisionOf, hprecision] at hp
      split at hp
      · cases hp
      · obtain rfl := Option.some.inj hp
        have hlt := @Amount.number_lt a (args o.width.slots) fun ds hds =>
          h.precision ds (by rw [hprecision, hds])
        omega

/-- The parser has it in its 32 bits. -/
theorem precision_bits {p : Nat} (hp : o.precisionOf args = some p) (hlt : p < 2 ^ 31) :
    (o.fattrs args 0).presiction = BitVec.ofNat 32 p := by
  cases hprecision : o.precision with
  | none => simp [Options.precisionOf, hprecision] at hp
  | some a =>
      simp only [Options.precisionOf, hprecision] at hp
      split at hp
      · cases hp
      · have hnat := Option.some.inj hp
        have hint : a.number (args o.width.slots) = (p : Int) := by omega
        simp only [Options.fattrs, hprecision, Option.elim_some, hint]
        exact BitVec.ofInt_natCast ..

/-- A longer precision makes the code copy the NUL. -/
theorem precision_not_greater {p : Nat} (h : PrintsString env args o text) (ho : o.Taken args)
    (hnonneg : 0 ≤ o.widthOf args) (hsmall : o.SmallString args text)
    (htext : TextAt env.mem (o.stringAt env args) text) (hp : o.precisionOf args = some p)
    (hlarge : p < 2 ^ 31) : ¬ text.length < p := by
  intro hlt
  have hall : (BitVec.allOnes 64).toNat = 2 ^ 64 - 1 := by decide
  have hfield := length_stringField_le hsmall
  have hwidth : (o.widthOf args).natAbs ≤ 2 ^ 31 := Amount.natAbs_number_le _ hsmall.small.width
  have hprints := (h (BitVec.allOnes 64) (by rw [hall]; omega)).1
  have hbits := precision_bits hp hlarge
  have hstrlen : strLen (o.fattrs args 0) text.length = p := by
    have hint : (BitVec.ofNat 32 p).toInt = p := toInt_ofNat hlarge
    have hnat : (BitVec.ofNat 32 p).toNat = p := by
      rw [BitVec.toNat_ofNat]
      omega
    rw [strLen, hbits, hint, hnat, if_pos ⟨by omega, hlt⟩]
  have hrun := @vsnprintf_string env args (BitVec.allOnes 64) o text.length ho hnonneg
    (Amount.number_lt _ hsmall.small.width) htext.strlen
  rw [hstrlen] at hrun
  have hcode := hrun (by rw [length_codeString, hall]; omega)
  rw [hprints] at hcode
  exact nul_notMem_stringField htext (by
    rw [Sink.ofList_injective (Except.ok.inj hcode)]
    exact nul_mem_codeString htext hlt)

/-- The condition is necessary: whatever memory surrounds the text, the code prints the field.
-/
theorem fits_of_printsString (ho : o.ForString)
    (htext : TextAt env.mem (o.stringAt env args) text) (hsmall : o.SmallString args text)
    (h : PrintsString env args o text) : o.StringFits args text := by
  have hall : (BitVec.allOnes 64).toNat = 2 ^ 64 - 1 := by decide
  have hfield := length_stringField_le hsmall
  have hprints := (h (BitVec.allOnes 64) (by rw [hall]; omega)).1
  have hhead : (o.stringField args text).head? ≠ some '%' := fun hhead =>
    (head_stringField hhead).elim (by decide) hsmall.head
  have hgiven := not_given (by rw [hall]; decide) hprints hhead
  have hroom : ([] : List Char).length < (BitVec.allOnes 64).toNat := by rw [hall]; decide
  have hparsed := hsmall.small.parsed (here_body o 's') hroom hgiven
  have hstar : o.width = .star → o.flags = [] ∧ 0 ≤ o.widthOf args := by
    intro hw
    refine ⟨hparsed.widthStar hw, ?_⟩
    by_contra hneg
    -- The output is longer than any field.
    obtain ⟨out, hout, hlong⟩ := prints_blanks ho (hparsed.widthStar hw) hw (by omega) hsmall.width
      htext hsmall.length
    rw [hprints] at hout
    have hlen := congrArg List.length (Sink.ofList_injective (Except.ok.inj hout))
    omega
  have hprecisionStar : o.precision = some .star → o.flags = [] := by
    intro hp
    refine ho.flags.resolve_right fun hminus => ?_
    have hzero := hparsed.precisionStar hp .minus (by rw [hminus]; exact .head _)
    cases hzero
  have htaken : o.Taken args := ⟨hparsed.flags, hparsed.width, hstar, hparsed.precisionStar⟩
  have hnonneg := (o.widthOf_bounds hsmall.small.width fun hw => (hstar hw).2).1
  refine ⟨fun ds hds => ⟨hparsed.width ds hds, hsmall.small.width ds hds⟩, hstar, hprecisionStar,
    fun p hp => ?_⟩
  have hnotless := precision_not_less h htaken hnonneg hsmall htext hp
  have hnotgreater := precision_not_greater h htaken hnonneg hsmall htext hp
    (precisionOf_lt hsmall.small hp)
  omega

end Misfits

section Strings

variable {env : Strings} {args : Nat → BitVec 64} {o : Options} {text : List Char}

/-- The field of a string is right under the condition, and, where no `int` overflows,
under no other. -/
theorem printsString_iff (ho : o.ForString)
    (htext : TextAt env.mem (o.stringAt env args) text) :
    (o.StringFits args text → PrintsString env args o text) ∧
      (o.SmallString args text → PrintsString env args o text → o.StringFits args text) :=
  ⟨fun h => printsString_of_fits h ho htext, fits_of_printsString ho htext⟩

/-- `%8.6s` of the literal is right. -/
theorem printsString_iff_literal :
    PrintsString literalOnly (fun _ => 0)
      { width := .digits [8], precision := some (.digits [6]) } "<NULL>".toList := by
  refine (printsString_iff ⟨.inl rfl, rfl⟩ (nullText_textAt literalOnly)).1 ⟨fun ds hds => ?_,
    (fun hw => nomatch hw), (fun hp => by cases hp), fun p hp => ?_⟩
  · obtain rfl := Amount.digits.inj hds
    decide
  · exact (Option.some.inj hp).symm

/-- `%.1s` of two characters prints both. -/
theorem not_printsString_cut :
    ¬ PrintsString (otherStrings 4096 ['a', 'b']) (fun _ => 4096)
      { precision := some (.digits [1]) } ['a', 'b'] := by
  intro h
  have htext : TextAt (otherStrings 4096 ['a', 'b']).mem 4096 ['a', 'b'] :=
    otherStrings_textAt 4096 (by decide) (by decide)
  have hspec := (h 16 (by decide)).1
  have htaken : ({ precision := some (.digits [1]) } : Options).Taken (fun _ => 4096) := by
    refine ⟨trivial, fun ds hds => ?_, (fun hw => nomatch hw), fun hp => by cases hp⟩
    obtain rfl := Amount.digits.inj hds
    decide
  have hlen : strLen (({ precision := some (.digits [1]) } : Options).fattrs (fun _ => 4096) 0) 2
      = 2 := by decide
  have hcode := @vsnprintf_string (otherStrings 4096 ['a', 'b']) (fun _ => 4096) 16
    { precision := some (.digits [1]) } 2 htaken (by decide) (by decide) htext.strlen
  rw [hlen] at hcode
  rw [hcode (by rw [length_codeString]; decide)] at hspec
  have hlength := congrArg List.length (Sink.ofList_injective (Except.ok.inj hspec))
  rw [length_codeString] at hlength
  exact absurd hlength (by decide)

end Strings

end MString
