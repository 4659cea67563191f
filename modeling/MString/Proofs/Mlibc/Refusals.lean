import MString.Proofs.Mlibc.Fields

/-!
# `MString.Proofs.Mlibc.Refusals`: specifications that the loop gives up

A character that the loop refuses leads back to the `%`, which is printed. So the output
goes on with a `%`, and then with whatever the rest of the format is taken for.

* `reaches_echo`: the way back.
* `echoed_flag`, `echoed_star`, `echoed_precision`: a flag that another one excludes, and
  a `*` behind a flag. What follows the `%` is then read as ordinary characters.
* `echoed_next`, `echoed_repeated`: a character behind all the options, and one behind
  options that are there twice.
* `refused_zero`: a zero inside a width. What follows the `%` is then read as a
  specification once more.
* `not_given`: what the output then begins with.
-/

set_option autoImplicit false

namespace MString

open Sink

section Echo

variable {dsize : Nat} {fmt out : List Char} {pos n ap : Nat} {pers : Bool} {fa : Fattrs}

/-- The code steps back over the characters it has counted. When they are all the ones from the
`%` on, it is the `%` that it prints. -/
theorem echo_percent (h : charAt fmt pos = '%') (hn : n < 2 ^ 31)
    (hcinf : fa.cinf = BitVec.ofNat 32 n) (hroom : out.length < dsize) :
    echo dsize fmt ⟨pos + n, pers, fa, ap, ofList out⟩
      = .inl ⟨pos + 1, pers, {}, ap, ofList (out ++ ['%'])⟩ := by
  have hpos : (((pos + n : Nat) : Int) - fa.cinf.toInt).toNat = pos := by
    rw [hcinf, toInt_ofNat hn]
    omega
  unfold echo
  simp only [hpos, h, copyByteIp_ofList hroom]

end Echo

/-- The flags up to the first one that is refused. -/
theorem exists_refused : ∀ (fs : List Flag) (f : FmtFlags), ¬ FlagsTaken f fs →
    ∃ fs₁ x fs₂, fs = fs₁ ++ x :: fs₂ ∧ FlagsTaken f fs₁ ∧ x.refused (applyFlags f fs₁) = true := by
  intro fs
  induction fs with
  | nil => exact fun f h => absurd trivial h
  | cons x fs ih =>
      intro f h
      by_cases hx : x.refused f = true
      · exact ⟨[], x, fs, rfl, trivial, hx⟩
      · rw [Bool.not_eq_true] at hx
        obtain ⟨fs₁, y, fs₂, rfl, htaken, hy⟩ := ih (x.apply f) fun hfs => h ⟨hx, hfs⟩
        exact ⟨x :: fs₁, y, fs₂, rfl, ⟨hx, htaken⟩, hy⟩

/-- A flag leaves a mark, and the next ones do not take it away. -/
theorem fmask_applyFlags : ∀ (fs : List Flag) (f : FmtFlags), f.fmask = true ∨ fs ≠ [] →
    (applyFlags f fs).fmask = true := by
  intro fs
  induction fs with
  | nil => exact fun f h => h.elim id fun h => absurd rfl h
  | cons x fs ih =>
      intro f _
      refine ih (x.apply f) (.inl ?_)
      -- The bits that `-` and `+` clear are replaced by their own.
      cases x with
      | zero => cases hflj : f.flj <;> simp [Flag.apply, FmtFlags.fmask, hflj]
      | space => cases hfsig : f.fsig <;> simp [Flag.apply, FmtFlags.fmask, hfsig]
      | _ => simp [Flag.apply, FmtFlags.fmask]

/-- The digits of a width in front of the first zero behind them. -/
theorem exists_zero {ds : List (Fin 10)} (h : 0 ∈ ds) :
    ∃ ds₁ ds₂, ds = ds₁ ++ 0 :: ds₂ ∧ 0 ∉ ds₁ := by
  induction ds with
  | nil => exact absurd h List.not_mem_nil
  | cons d ds ih =>
      by_cases hd : d = 0
      · exact ⟨[], ds, by rw [hd]; rfl, List.not_mem_nil⟩
      · obtain ⟨ds₁, ds₂, rfl, hnot⟩ := ih (by simpa [Ne.symm hd] using h)
        exact ⟨d :: ds₁, ds₂, rfl, by simpa [Ne.symm hd] using hnot⟩

/-- A number only grows as its digits are read. -/
theorem foldl_digits_le (ds : List (Fin 10)) (n : Nat) :
    n ≤ ds.foldl (fun n d => 10 * n + d.val) n := by
  induction ds generalizing n with
  | nil => exact Nat.le_refl n
  | cons d ds ih => exact (show n ≤ 10 * n + d.val by omega).trans (ih _)

/-- Every other character is refused behind a `%`. -/
def specChars : List Char :=
  ['d', 'i', 'u', 'x', 'X', 'o', 'p', 's', 'c', '%', '-', '0', '+', ' ', '#', '*', '.', 'h', 'l',
    'z']

section Turns

variable {env : Strings} {args : Nat → BitVec 64} {dsize : Nat} {fmt : List Char} {pos ap : Nat}
  {fa : Fattrs} {k : Sink} {c : Char}

/-- A character that is no part of a specification is handed to `echo`. -/
theorem turn_other (hc : charAt fmt pos = c) (hnul : c ≠ '\x00') (hdigit : isdigit c = false)
    (hother : c ∉ specChars) :
    vsnprintfTurn env args dsize fmt ⟨pos, true, fa, ap, k⟩
      = .ok (echo dsize fmt ⟨pos, false, fa.counted 1, ap, k⟩) := by
  have hswitch : kprintfSwitch env args fmt ⟨pos, false, fa.counted 1, ap, k⟩
      = .broken ⟨pos, false, fa.counted 1, ap, k⟩ := by
    unfold kprintfSwitch
    rw [show charAt fmt (KprintfState.mk pos false (fa.counted 1) ap k).fmt = c from hc]
    -- All cases but the last one are on characters of the list.
    split
    all_goals first
      | rfl
      | exact absurd (by decide) hother
  rw [turn_switch_char hc hnul hdigit, hswitch]
  rfl

/-- `*` behind an amount that is positive already is refused. -/
theorem starCase_late {s : KprintfState}
    (hlate : (if s.fa.flags.dot then s.fa.presiction else s.fa.width).toInt > 0) :
    starCase args s = .broken s := by
  unfold starCase
  dsimp only
  by_cases hdot : s.fa.flags.dot = true
  · rw [if_pos hdot] at hlate
    rw [if_pos hdot, if_pos hlate, ite_self]
  · rw [if_neg hdot] at hlate
    rw [if_neg hdot, if_pos hlate, ite_self]

/-- `*` behind an amount that is not zero. -/
theorem turn_star_late (hc : charAt fmt pos = '*')
    (hlate : (if fa.flags.dot then fa.presiction else fa.width).toInt > 0) :
    vsnprintfTurn env args dsize fmt ⟨pos, true, fa, ap, k⟩
      = .ok (echo dsize fmt ⟨pos, false, fa.counted 1, ap, k⟩) := by
  rw [turn_star_switch hc]
  exact congrArg (afterSwitch env dsize fmt) (starCase_late hlate)

end Turns

section Ways

variable {env : Strings} {args : Nat → BitVec 64} {dsize : Nat} {fmt rest out : List Char}
  {pos n ap ap' : Nat} {pers : Bool} {fa : Fattrs} {o : Options}

/-- The `%` has been printed, and nothing else of the specification. -/
def Given (env : Strings) (args : Nat → BitVec 64) (dsize : Nat) (fmt : List Char) (pos ap : Nat)
    (out : List Char) : Prop :=
  ∃ pers ap', Loop.Reaches (vsnprintfTurn env args dsize fmt) ⟨pos, false, {}, ap, ofList out⟩
    ⟨pos + 1, pers, {}, ap', ofList (out ++ ['%'])⟩

/-- The `%` has been printed, no argument has been taken, and the rest is read as
ordinary characters. -/
def Echoed (env : Strings) (args : Nat → BitVec 64) (dsize : Nat) (fmt : List Char)
    (pos ap : Nat) (out : List Char) : Prop :=
  Loop.Reaches (vsnprintfTurn env args dsize fmt) ⟨pos, false, {}, ap, ofList out⟩
    ⟨pos + 1, false, {}, ap, ofList (out ++ ['%'])⟩

/-- A `%` that has been echoed is given, with no argument taken. -/
theorem Echoed.given (h : Echoed env args dsize fmt pos ap out) :
    Given env args dsize fmt pos ap out := ⟨false, ap, h⟩

/-- From the start, the counter holds the number of characters read. -/
@[simp] theorem Fattrs.counted_cinf_zero (n : Nat) :
    (({} : Fattrs).counted n).cinf = BitVec.ofNat 32 n := BitVec.zero_add _

/-- From the refused character, which the counter has counted, back to the `%`. -/
theorem reaches_echo {s : KprintfState} (hpercent : charAt fmt pos = '%')
    (hpath : Loop.Reaches (vsnprintfTurn env args dsize fmt) s
      ⟨pos + 1 + n, true, fa, ap', ofList out⟩)
    (hturn : vsnprintfTurn env args dsize fmt ⟨pos + 1 + n, true, fa, ap', ofList out⟩
      = .ok (echo dsize fmt ⟨pos + 1 + n, pers, fa.counted 1, ap', ofList out⟩))
    (hcinf : fa.cinf = BitVec.ofNat 32 n) (hn : n + 1 < 2 ^ 31) (hroom : out.length < dsize) :
    Loop.Reaches (vsnprintfTurn env args dsize fmt) s
      ⟨pos + 1, pers, {}, ap', ofList (out ++ ['%'])⟩ := by
  have hcount : (fa.counted 1).cinf = BitVec.ofNat 32 (n + 1) := by
    rw [BitVec.ofNat_add, ← hcinf]
    rfl
  rw [show pos + 1 + n = pos + (n + 1) by omega] at hturn hpath
  rw [echo_percent hpercent hn hcount hroom] at hturn
  exact hpath.trans (.single trivial hturn)

/-- From the `%` over flags. -/
theorem reaches_flags {fs : List Flag} (h : Here fmt pos ('%' :: (fs.map Flag.char ++ rest)))
    (htaken : FlagsTaken {} fs) :
    Loop.Reaches (vsnprintfTurn env args dsize fmt) ⟨pos, false, {}, ap, ofList out⟩
        ⟨pos + 1 + fs.length, true,
          { ({} : Fattrs).counted fs.length with flags := applyFlags {} fs }, ap, ofList out⟩ ∧
      Here fmt (pos + 1 + fs.length) rest := by
  have hstart := @turn_percent env args dsize fmt pos ap {} (ofList out) h.charAt
  have hpath := @path_flags env args dsize fmt rest (pos + 1) ap {} (ofList out) (fun _ => True)
    (fun _ _ => trivial) fs h.next ⟨rfl, rfl, by decide⟩ htaken
  have hbehind := h.next.skip
  rw [List.length_map] at hbehind
  exact ⟨.turn trivial hstart hpath, hbehind⟩

/-- A flag that is refused among the flags sends the code back to the `%`. -/
theorem echoed_flag (h : Here fmt pos ('%' :: (o.body ++ rest))) (hroom : out.length < dsize)
    (hlen : o.flags.length < 2 ^ 31) (hflags : ¬ FlagsTaken {} o.flags) :
    Echoed env args dsize fmt pos ap out := by
  obtain ⟨fs₁, x, fs₂, hfs, htaken, hx⟩ := exists_refused o.flags {} hflags
  have hsplit : Here fmt pos ('%' :: (fs₁.map Flag.char ++ (x.char :: (fs₂.map Flag.char ++
      (o.width.text ++ (o.precisionText ++ o.length.text)) ++ rest)))) := by
    simpa [Options.body, Options.flagsText, hfs] using h
  obtain ⟨hpath, hhere⟩ := @reaches_flags env args dsize fmt _ out pos ap fs₁ hsplit htaken
  have hturn := @turn_flag_refused env args dsize fmt (pos + 1 + fs₁.length) ap
    { ({} : Fattrs).counted fs₁.length with flags := applyFlags {} fs₁ } (ofList out) x
    hhere.charAt (fun _ => ⟨applyFlags_lmask {} fs₁, applyFlags_dot {} fs₁⟩) (.inl hx)
  -- A zero is never refused among the flags.
  have hpers : isdigit x.char = false := by
    cases x with
    | zero => cases hx
    | _ => rfl
  rw [hpers] at hturn
  have hcount := congrArg List.length hfs
  rw [List.length_append, List.length_cons] at hcount
  exact reaches_echo hsplit.charAt hpath hturn (Fattrs.counted_cinf_zero _) (by omega) hroom

/-- A `*` behind flags does, too. The flags have set `fmask`, and the code takes no `*` then. -/
theorem echoed_star (h : Here fmt pos ('%' :: (o.body ++ rest))) (hroom : out.length < dsize)
    (hlen : o.flags.length + 1 < 2 ^ 31) (hflags : FlagsTaken {} o.flags)
    (hwidth : o.width = .star) (hne : o.flags ≠ []) : Echoed env args dsize fmt pos ap out := by
  have hsplit : Here fmt pos ('%' :: (o.flags.map Flag.char ++
      ('*' :: (o.precisionText ++ o.length.text ++ rest)))) := by
    simpa [Options.body, Options.flagsText, hwidth, Amount.text] using h
  obtain ⟨hpath, hhere⟩ := @reaches_flags env args dsize fmt _ out pos ap o.flags hsplit hflags
  have hfmask := fmask_applyFlags o.flags {} (.inr hne)
  have hturn := @turn_star_refused env args dsize fmt (pos + 1 + o.flags.length) ap
    { ({} : Fattrs).counted o.flags.length with flags := applyFlags {} o.flags } (ofList out)
    hhere.charAt (by rw [hfmask]; rfl)
  exact reaches_echo h.charAt hpath hturn (Fattrs.counted_cinf_zero _) hlen hroom

/-- `*` for the precision, with flags that the dot does not take away. -/
theorem echoed_precision (h : Here fmt pos ('%' :: (o.body ++ rest))) (hroom : out.length < dsize)
    (hlen : o.flags.length + o.width.text.length + 2 < 2 ^ 31) (hflags : FlagsTaken {} o.flags)
    (hdigits : ∀ ds, o.width = .digits ds → 0 ∉ ds) (hwidth : o.width = .star → o.flags = [])
    (hprecision : o.precision = some .star)
    (hfmask : (dotFlags (applyFlags {} o.flags) o.precision).fmask = true) :
    Echoed env args dsize fmt pos ap out := by
  rw [hprecision] at hfmask
  -- A `*` for the width would have been the only one that is taken, with no flags.
  have hstar : o.width ≠ .star := by
    intro hw
    rw [hwidth hw] at hfmask
    exact absurd hfmask (by decide)
  have hslots : o.width.slots = 0 := by
    cases hw : o.width with
    | digits ds => rfl
    | star => exact absurd hw hstar
  have hfront := @path_front env args dsize fmt rest pos ap (ofList out) (fun _ => True) o
    (fun _ _ => trivial) h hflags hdigits (fun hw => absurd hw hstar)
    (fun _ _ _ _ _ _ _ => trivial)
  have hbehind := h.behind_width
  rw [Options.precisionText, hprecision] at hbehind
  have hflen : o.flagsText.length = o.flags.length := List.length_map ..
  rw [hflen, hslots] at hfront
  rw [hflen] at hbehind
  generalize o.flags.length + o.width.text.length = n at hfront hbehind hlen
  -- The dot is taken, and the `*` behind it is refused.
  have hdot := @turn_dot env args dsize fmt (pos + 1 + n) (ap + 0)
    { ({} : Fattrs).counted n with
      width := BitVec.ofInt 32 (o.widthOf fun i => args (ap + i))
      flags := applyFlags {} o.flags } (ofList out) hbehind.charAt
  have hturn := @turn_star_refused env args dsize fmt (pos + 1 + n + 1) (ap + 0)
    { (({ ({} : Fattrs).counted n with
        width := BitVec.ofInt 32 (o.widthOf fun i => args (ap + i))
        flags := applyFlags {} o.flags } : Fattrs).counted 1) with
      flags := dotFlags (applyFlags {} o.flags) (some .star) } (ofList out) hbehind.next.charAt
    (by rw [hfmask]; rfl)
  have hcinf : (({} : Fattrs).counted n).cinf + BitVec.ofNat 32 1 = BitVec.ofNat 32 (n + 1) := by
    rw [Fattrs.counted_cinf_zero, ← BitVec.ofNat_add]
  exact reaches_echo h.charAt (hfront.trans (.single trivial hdot)) hturn hcinf (by omega) hroom

/-- The characters that are refused behind all the options: flags that come too late, a
`*` behind flags, a length or an amount that is not zero, and whatever is no part of a
specification. -/
inductive Options.Refuses (o : Options) : Char → Prop where
  | other {c : Char} (hdigit : isdigit c = false) (hother : c ∉ specChars) : Refuses o c
  | flag (f : Flag) (hzero : f ≠ .zero)
      (hlate : o.length ≠ .none ∨ o.precision ≠ none ∨
        ∃ ds, o.width = .digits ds ∧ 0 < numeral ds ∧ numeral ds < 2 ^ 31) : Refuses o f.char
  | star (hlate : o.length ≠ .none ∨ o.attrs.fmask = true ∨
      ∃ ds, o.precision.getD o.width = .digits ds ∧ 0 < numeral ds ∧ numeral ds < 2 ^ 31) :
      Refuses o '*'

/-- The attributes have a dot exactly when the specification has a precision. -/
theorem Options.attrs_dot (o : Options) : o.attrs.dot = o.precision.isSome := by
  have hdot := applyFlags_dot {} o.flags
  unfold Options.attrs
  cases o.precision
  all_goals
    cases o.length
    all_goals simp [LengthMod.apply, dotFlags, hdot]

/-- They have a length exactly when the specification names one. -/
theorem Options.attrs_lmask (o : Options) : o.attrs.lmask = decide (o.length ≠ .none) := by
  have hlmask := (dotFlags_lmask (applyFlags {} o.flags) o.precision).trans
    (applyFlags_lmask {} o.flags)
  unfold Options.attrs
  generalize dotFlags (applyFlags {} o.flags) o.precision = f at hlmask ⊢
  cases o.length with
  | none => exact hlmask
  | _ => simp [LengthMod.apply, FmtFlags.lmask]

/-- What the loop does with such a character. -/
theorem turn_refuses {x : Char} {c : BitVec 32} {k : Sink} (hx : o.Refuses x) (hnul : x ≠ '\x00')
    (hc : charAt fmt pos = x) (args' : Nat → BitVec 64) :
    vsnprintfTurn env args dsize fmt ⟨pos, true, o.fattrs args' c, ap, k⟩
      = .ok (echo dsize fmt ⟨pos, false, (o.fattrs args' c).counted 1, ap, k⟩) := by
  have hpositive : ∀ ds, 0 < numeral ds → numeral ds < 2 ^ 31 →
      (BitVec.ofInt 32 (numeral ds : Int)).toInt > 0 := by
    intro ds hpos hlt
    rw [BitVec.ofInt_natCast, toInt_ofNat hlt]
    omega
  -- the three ways a character is refused: no case of the switch, a flag too late, a star too late
  cases hx with
  | other hdigit hother => exact turn_other hc hnul hdigit hother
  | flag f hzero hlate =>
      have hbar : (o.attrs.lmask || o.attrs.dot || decide ((o.fattrs args' c).width.toInt > 0)
          || f.refused o.attrs) = true := by
        rw [o.attrs_lmask, o.attrs_dot]
        rcases hlate with hlength | hprecision | ⟨ds, hw, hpos, hlt⟩
        · simp [hlength]
        · simp [Option.isSome_iff_ne_none.mpr hprecision]
        · have hwidth : (o.fattrs args' c).width.toInt > 0 := by
            show (BitVec.ofInt 32 (o.widthOf args')).toInt > 0
            rw [Options.widthOf, hw]
            exact hpositive ds hpos hlt
          simp [hwidth]
      have hpers : isdigit f.char = false := by
        cases f with
        | zero => exact absurd rfl hzero
        | _ => rfl
      have hturn := @turn_flag_switch env args dsize fmt pos ap (o.fattrs args' c) k f hc
        fun h => absurd h hzero
      rw [hpers] at hturn
      rw [hturn]
      exact congrArg (afterSwitch env dsize fmt) (if_pos hbar)
  | star hlate =>
      by_cases hmask : (o.attrs.fmask || o.attrs.lmask) = true
      · exact turn_star_refused hc hmask
      · rw [Bool.not_eq_true, Bool.or_eq_false_iff, o.attrs_lmask] at hmask
        rcases hlate with hlength | hfmask | ⟨ds, hamount, hpos, hlt⟩
        · exact absurd hmask.2 (by simp [hlength])
        · rw [hmask.1] at hfmask
          cases hfmask
        · refine turn_star_late hc ?_
          show (if o.attrs.dot then (o.fattrs args' c).presiction
            else (o.fattrs args' c).width).toInt > 0
          rw [o.attrs_dot]
          cases hp : o.precision with
          | none =>
              rw [hp] at hamount
              show (BitVec.ofInt 32 (o.widthOf args')).toInt > 0
              rw [Options.widthOf, show o.width = .digits ds from hamount]
              exact hpositive ds hpos hlt
          | some a =>
              rw [hp] at hamount
              obtain rfl : a = .digits ds := hamount
              show (o.precision.elim 0 fun a =>
                BitVec.ofInt 32 (a.number (args' o.width.slots))).toInt > 0
              rw [hp]
              exact hpositive ds hpos hlt

/-- Without a `*`, the options take no argument. -/
theorem starSlots_eq_zero (hwidth : o.width ≠ .star) (hprecision : o.precision ≠ some .star) :
    o.starSlots = 0 := by
  unfold Options.starSlots
  have hw : o.width.slots = 0 := by
    cases hw : o.width with
    | digits ds => rfl
    | star => exact absurd hw hwidth
  rw [hw]
  cases hp : o.precision with
  | none => rfl
  | some a =>
      cases a with
      | digits ds => rfl
      | star => exact absurd hp hprecision

/-- A character that is refused behind all the options. -/
theorem echoed_next {x : Char} (h : Here fmt pos ('%' :: (o.body ++ x :: rest)))
    (hroom : out.length < dsize) (hlen : o.body.length + 1 < 2 ^ 31)
    (ho : o.Taken fun i => args (ap + i)) (hwidth : o.width ≠ .star)
    (hprecision : o.precision ≠ some .star) (hlength : o.length.text.length ≤ 1)
    (hx : o.Refuses x) (hnul : x ≠ '\x00') : Echoed env args dsize fmt pos ap out := by
  have hletter : x ≠ 'h' ∧ x ≠ 'l' := by
    cases hx with
    | other hdigit hother =>
        constructor
        · rintro rfl
          exact hother (by decide)
        · rintro rfl
          exact hother (by decide)
    | flag f hzero hlate => cases f <;> decide
    | star hlate => decide
  obtain ⟨c, hpath, hcinf⟩ := @path_body env args dsize fmt (x :: rest) pos ap (ofList out)
    (fun _ => True) o (fun _ _ => trivial) h (fun c hc => by
      obtain rfl : x = c := Option.some.inj hc
      exact hletter) ho (fun _ _ _ _ _ _ _ => trivial) (fun _ _ => trivial)
  rw [starSlots_eq_zero hwidth hprecision] at hpath
  have hturn := @turn_refuses env args dsize fmt (pos + 1 + o.body.length) (ap + 0) o x c
    (ofList out) hx hnul h.behind_body.charAt (fun i => args (ap + i))
  exact reaches_echo h.charAt hpath hturn (hcinf hprecision hlength) hlen hroom

/-- Points and `z`, however many: the loop takes each of them as if it were the first, so
only the counter goes on. -/
theorem path_repeated {ap : Nat} {k : Sink} (hrest : ∀ c, rest.head? = some c → c ≠ 'h' ∧ c ≠ 'l') :
    ∀ (cs : List Char) {pos : Nat} {fa : Fattrs}, (∀ c ∈ cs, c = '.' ∨ c = 'z') →
      Here fmt pos (cs ++ rest) →
      ∃ fa', Loop.Reaches (vsnprintfTurn env args dsize fmt) ⟨pos, true, fa, ap, k⟩
          ⟨pos + cs.length, true, fa', ap, k⟩ ∧
        fa'.cinf = fa.cinf + BitVec.ofNat 32 cs.length := by
  intro cs
  induction cs with
  | nil => exact fun {pos fa} _ _ => ⟨fa, .refl _, (BitVec.add_zero _).symm⟩
  | cons c cs ih =>
      intro pos fa hcs h
      -- A `z` is taken by itself, as no `h` or `l` follows it.
      have hnext : ∀ x, (cs ++ rest).head? = some x → x ≠ 'h' ∧ x ≠ 'l' := by
        intro x hx
        cases cs with
        | nil => exact hrest x hx
        | cons y cs =>
            obtain rfl : y = x := Option.some.inj hx
            rcases hcs y (List.mem_cons_of_mem _ (.head _)) with rfl | rfl <;> decide
      -- Each of the characters is taken, whatever the flags are.
      have hturn : ∃ f : FmtFlags, vsnprintfTurn env args dsize fmt ⟨pos, true, fa, ap, k⟩
          = .ok (.inl ⟨pos + 1, true, { fa.counted 1 with flags := f }, ap, k⟩) := by
        rcases hcs c (.head _) with rfl | rfl
        · exact ⟨_, turn_dot h.charAt⟩
        · have hz : Here fmt pos (LengthMod.z.text ++ (cs ++ rest)) := h
          exact ⟨_, turn_length .z nofun hz hnext⟩
      obtain ⟨f, hturn⟩ := hturn
      obtain ⟨fa', hpath, hcinf⟩ := ih (fun c hc => hcs c (List.mem_cons_of_mem _ hc)) h.next
      refine ⟨fa', ?_, ?_⟩
      · rw [List.length_cons, Nat.add_comm cs.length, ← Nat.add_assoc]
        exact .turn trivial hturn hpath
      · rw [hcinf, List.length_cons, Nat.add_comm, BitVec.ofNat_add]
        exact BitVec.add_assoc ..

/-- A second point or `z`, and more of them, in front of a character that is no part of a
specification. The switch has no test for what it has had already, so the way to the refused
character is only longer. -/
theorem echoed_repeated {cs : List Char} {x : Char}
    (h : Here fmt pos ('%' :: (o.body ++ (cs ++ x :: rest)))) (hroom : out.length < dsize)
    (hlen : o.body.length + cs.length + 1 < 2 ^ 31) (ho : o.Taken fun i => args (ap + i))
    (hwidth : o.width ≠ .star) (hprecision : o.precision ≠ some .star)
    (hlength : o.length.text.length ≤ 1) (hcs : ∀ c ∈ cs, c = '.' ∨ c = 'z')
    (hdigit : isdigit x = false) (hother : x ∉ specChars) (hnul : x ≠ '\x00') :
    Echoed env args dsize fmt pos ap out := by
  -- Neither the refused character nor a repeated option can be taken for a second letter of the
  -- length.
  have hletter : ∀ c, (x :: rest).head? = some c → c ≠ 'h' ∧ c ≠ 'l' := by
    intro c hc
    obtain rfl : x = c := Option.some.inj hc
    constructor
    · rintro rfl
      exact hother (by decide)
    · rintro rfl
      exact hother (by decide)
  have hhead : ∀ c, (cs ++ x :: rest).head? = some c → c ≠ 'h' ∧ c ≠ 'l' := by
    intro c hc
    cases cs with
    | nil => exact hletter c hc
    | cons y cs =>
        obtain rfl : y = c := Option.some.inj hc
        rcases hcs y (.head _) with rfl | rfl <;> decide
  obtain ⟨c, hpath, hcinf⟩ := @path_body env args dsize fmt (cs ++ x :: rest) pos ap (ofList out)
    (fun _ => True) o (fun _ _ => trivial) h hhead ho (fun _ _ _ _ _ _ _ => trivial)
    (fun _ _ => trivial)
  have hbehind : Here fmt (pos + 1 + o.body.length) (cs ++ x :: rest) := h.behind_body
  -- The options are taken once more, and each is counted.
  obtain ⟨fa', hmore, hcinf'⟩ := @path_repeated env args dsize fmt (x :: rest) (ap + o.starSlots)
    (ofList out) hletter cs _ (o.fattrs (fun i => args (ap + i)) c) hcs hbehind
  rw [starSlots_eq_zero hwidth hprecision] at hpath hmore
  rw [Nat.add_assoc (pos + 1)] at hmore
  have hchar : charAt fmt (pos + 1 + (o.body.length + cs.length)) = x := by
    rw [← Nat.add_assoc]
    exact hbehind.skip.charAt
  have hturn := @turn_other env args dsize fmt (pos + 1 + (o.body.length + cs.length)) (ap + 0) fa'
    (ofList out) x hchar hnul hdigit hother
  have hcount : fa'.cinf = BitVec.ofNat 32 (o.body.length + cs.length) := by
    rw [hcinf', show (o.fattrs (fun i => args (ap + i)) c).cinf = c from rfl,
      hcinf hprecision hlength, BitVec.ofNat_add]
  exact reaches_echo h.charAt (hpath.trans hmore) hturn hcount hlen hroom

/-- A zero behind the first digit of a width. -/
theorem refused_zero {ds : List (Fin 10)} (h : Here fmt pos ('%' :: (o.body ++ rest)))
    (hroom : out.length < dsize) (hlen : o.flags.length + ds.length < 2 ^ 31)
    (hflags : FlagsTaken {} o.flags) (hwidth : o.width = .digits ds) (hzero : 0 ∈ ds)
    (hsmall : numeral ds < 2 ^ 31) : Given env args dsize fmt pos ap out := by
  obtain ⟨ds₁, ds₂, rfl, hnot⟩ := exists_zero hzero
  have hsplit : Here fmt pos
      ('%' :: (o.flags.map Flag.char ++ (digitChars ds₁ ++ (Nat.digitChar 0 ::
        (digitChars ds₂ ++ (o.precisionText ++ o.length.text) ++ rest))))) := by
    simpa [Options.body, Options.flagsText, hwidth, Amount.text, digitChars] using h
  obtain ⟨hpath, hhere⟩ := @reaches_flags env args dsize fmt _ out pos ap o.flags hsplit hflags
  have hpath' := @path_width env args dsize fmt _ (pos + 1 + o.flags.length) ap
    { ({} : Fattrs).counted o.flags.length with flags := applyFlags {} o.flags } (ofList out)
    (fun _ => True) (fun _ _ => trivial) ds₁ hnot 0 hhere (applyFlags_lmask {} o.flags)
    (applyFlags_dot {} o.flags) rfl
  have hchar : charAt fmt (pos + 1 + o.flags.length + (digitChars ds₁).length) = '0' :=
    hhere.skip.charAt
  rw [show (digitChars ds₁).length = ds₁.length from List.length_map ..] at hchar
  -- The digits in front of the zero make a positive width.
  have hle : numeral ds₁ ≤ numeral (ds₁ ++ 0 :: ds₂) := by
    rw [numeral, numeral, List.foldl_append]
    exact foldl_digits_le _ _
  have hpos : 0 < numeral ds₁ := by
    cases ds₁ with
    | nil => exact absurd hwidth (o.width_head ds₂)
    | cons d ds₁ =>
        have hd : d.val ≠ 0 := fun hd => hnot (by rw [show d = 0 from Fin.ext hd]; exact .head _)
        have hfirst := foldl_digits_le ds₁ (10 * 0 + d.val)
        rw [numeral, List.foldl_cons]
        omega
  have hlarge : (BitVec.ofNat 32 (numeral ds₁)).toInt > 0 := by
    rw [toInt_ofNat (by omega)]
    omega
  have hturn := @turn_flag_refused env args dsize fmt (pos + 1 + o.flags.length + ds₁.length) ap
    { ({ ({} : Fattrs).counted o.flags.length with
        flags := applyFlags {} o.flags } : Fattrs).counted ds₁.length with
      width := BitVec.ofNat 32 (numeral ds₁) } (ofList out) .zero hchar
    (fun _ => ⟨applyFlags_lmask {} o.flags, applyFlags_dot {} o.flags⟩) (.inr hlarge)
  have hcinf : (({} : Fattrs).counted o.flags.length).cinf + BitVec.ofNat 32 ds₁.length
      = BitVec.ofNat 32 (o.flags.length + ds₁.length) := by
    rw [Fattrs.counted_cinf_zero, ← BitVec.ofNat_add]
  rw [List.length_append, List.length_cons] at hlen
  rw [Nat.add_assoc (pos + 1)] at hpath' hturn
  exact ⟨_, _, reaches_echo h.charAt (hpath.trans hpath') hturn hcinf (by omega) hroom⟩

/-- Then the output begins with a `%`. -/
theorem not_given {dsize : BitVec 64} {field : List Char} (hdsize : 1 ≤ dsize.toNat)
    (h : vsnprintf env args dsize fmt = .ok (ofList field)) (hhead : field.head? ≠ some '%') :
    ¬ Given env args dsize.toNat fmt 0 0 [] := by
  intro ⟨pers, ap, hpath⟩
  obtain ⟨p, hp⟩ := vsnprintf_prefix hpath rfl hdsize
  rw [h] at hp
  exact hhead (by rw [Sink.ofList_injective (Except.ok.inj hp)]; rfl)

end Ways

end MString
