import MString.Proofs.Mlibc.Format
import MString.Proofs.Mlibc.Vsnprintf

/-!
# `MString.Proofs.Mlibc.Scan`: the loop behind a `%`

What the turns of `vsnprintf` make of the characters of a specification, one by one.

* `Here fmt pos rest`: what is left of the format at `pos`.
* `Flag.apply`, `Flag.refused`: what a flag does to the bits of `flags`, and when it is
  not taken for a flag.
* `turn_flag`, `turn_digit`, `turn_star`, `turn_num`, ...: one turn each.
* `echo_start`: a refused character leads back to the `%`, which is printed.
-/

set_option autoImplicit false

namespace MString

open Sink

/-! ### Places in the format -/

/-- `rest` is what is left of the format. -/
def Here (fmt : List Char) (pos : Nat) (rest : List Char) : Prop := fmt.drop pos = rest

section Places

variable {fmt rest : List Char} {pos : Nat} {c : Char}

/-- A walk starts with the whole text in front of it. -/
theorem here_zero (fmt : List Char) : Here fmt 0 fmt := rfl

/-- What is in front of a place is what the text holds from there on. -/
theorem Here.getElem? (h : Here fmt pos rest) (i : Nat) : fmt[pos + i]? = rest[i]? := by
  rw [← show fmt.drop pos = rest from h, List.getElem?_drop]

/-- The next character is the one that the format pointer shows. -/
theorem Here.charAt (h : Here fmt pos (c :: rest)) : charAt fmt pos = c := by
  have hget := h.getElem? 0
  rw [Nat.add_zero] at hget
  rw [MString.charAt, List.getD_eq_getElem?_getD, hget]
  rfl

/-- One character further. -/
theorem Here.next (h : Here fmt pos (c :: rest)) : Here fmt (pos + 1) rest := by
  rw [Here, ← List.drop_drop, show fmt.drop pos = _ from h]
  rfl

/-- A stretch of text further. -/
theorem Here.skip {text : List Char} (h : Here fmt pos (text ++ rest)) :
    Here fmt (pos + text.length) rest := by
  rw [Here, ← List.drop_drop, show fmt.drop pos = _ from h, List.drop_left]

/-- Behind the text stands the NUL. -/
theorem Here.charAt_end (h : Here fmt pos []) : MString.charAt fmt pos = '\x00' := by
  have hget := h.getElem? 0
  rw [Nat.add_zero] at hget
  rw [MString.charAt, List.getD_eq_getElem?_getD, hget]
  rfl

end Places

/-! ### The characters -/

/-- The bits of a flag. -/
def Flag.apply (f : FmtFlags) : Flag → FmtFlags
  | .minus => { f with fzero := false, flj := true }
  | .zero => { f with fzero := f.fzero || !f.flj }
  | .plus => { f with fspace := false, fsig := true }
  | .space => { f with fspace := f.fspace || !f.fsig }
  | .hash => { f with fpref := true }

/-- A blank is not taken behind `-`, and `-` not behind a blank. -/
def Flag.refused (f : FmtFlags) : Flag → Bool
  | .minus => f.fspace
  | .space => f.flj
  | _ => false

/-- The bits of a conversion. -/
def NumConv.apply (f : FmtFlags) : NumConv → FmtFlags
  | .d | .i => { f with ddec := true }
  | .u => { f with ddec := true, dunsig := true }
  | .x => { f with dhex := true, dunsig := true }
  | .X => { f with dhexUp := true, dunsig := true }
  | .p => { f with dhex := true, fpref := true, llong := true, dunsig := true }
  | .o => { f with doct := true, dunsig := true }

/-- The bits of a length modifier. -/
def LengthMod.apply (f : FmtFlags) : LengthMod → FmtFlags
  | .none => f
  | .hh => { f with lchar := true }
  | .h => { f with lshort := true }
  | .l => { f with llong := true }
  | .ll => { f with ldlong := true }
  | .z => { f with lsizet := true }

/-- Every character counts. -/
def Fattrs.counted (fa : Fattrs) (n : Nat) : Fattrs :=
  { fa with cinf := fa.cinf + BitVec.ofNat 32 n }

/-- Counting the characters of a conversion touches no flag, ... -/
@[simp] theorem Fattrs.counted_flags (fa : Fattrs) (n : Nat) :
    (fa.counted n).flags = fa.flags := rfl

/-- ... no width ... -/
@[simp] theorem Fattrs.counted_width (fa : Fattrs) (n : Nat) :
    (fa.counted n).width = fa.width := rfl

/-- ... and no precision. -/
@[simp] theorem Fattrs.counted_presiction (fa : Fattrs) (n : Nat) :
    (fa.counted n).presiction = fa.presiction := rfl

/-- Two counts in a row are one. -/
theorem Fattrs.counted_add (fa : Fattrs) (m n : Nat) :
    (fa.counted m).counted n = fa.counted (m + n) := by
  simp only [counted, BitVec.add_assoc, BitVec.ofNat_add]

/-- The low half of the number that a `*` takes is the argument. -/
theorem starNumber_low {f : FmtFlags} (slot : BitVec 64) (hlmask : f.lmask = false)
    (hunsig : f.dunsig = false) : (identNumSize slot f).setWidth 32 = slot.setWidth 32 := by
  simp only [FmtFlags.lmask, Bool.or_eq_false_iff] at hlmask
  unfold identNumSize
  simp only [hlmask, hunsig, Bool.false_eq_true, if_false]
  refine BitVec.eq_of_getLsbD_eq fun i hi => ?_
  simp only [BitVec.getLsbD_setWidth, BitVec.getLsbD_signExtend]
  simp [hi, show i < 64 by omega]

/-- The high half is its sign. -/
theorem starNumber_high {f : FmtFlags} (slot : BitVec 64) (hlmask : f.lmask = false)
    (hunsig : f.dunsig = false) :
    (identNumSize slot f >>> 32).setWidth 32 = if (slot.setWidth 32).toInt < 0 then -1 else 0 := by
  simp only [FmtFlags.lmask, Bool.or_eq_false_iff] at hlmask
  unfold identNumSize
  simp only [hlmask, hunsig, Bool.false_eq_true, if_false]
  have hmsb : (slot.setWidth 32).toInt < 0 ↔ (slot.setWidth 32).msb = true := by
    rw [BitVec.toInt_neg_iff, BitVec.msb_eq_decide, decide_eq_true_iff]
    omega
  simp only [hmsb]
  refine BitVec.eq_of_getLsbD_eq fun i hi => ?_
  simp only [BitVec.getLsbD_setWidth, BitVec.getLsbD_ushiftRight, BitVec.getLsbD_signExtend]
  by_cases h : (slot.setWidth 32).msb = true
  · have hones : (-1 : BitVec 32) = BitVec.allOnes 32 := by decide
    rw [if_pos h, hones, BitVec.getLsbD_allOnes]
    simp [hi, h, show 32 + i < 64 by omega]
  · simp [hi, h, show 32 + i < 64 by omega]

section Switching

variable {env : Strings} {args : Nat → BitVec 64} {fmt rest : List Char} {s : KprintfState}

/-- The cases of the five flag characters are one case, with the flag's own refusal and its own
effect. -/
theorem switch_flag (f : Flag) (hc : charAt fmt s.fmt = f.char) :
    kprintfSwitch env args fmt s
      = flagCase (f.refused s.fa.flags) s (f.apply s.fa.flags) := by
  unfold kprintfSwitch
  rw [hc]
  cases f
  all_goals rfl

/-- So are those of the numeric conversions: they set their flags and take an argument. -/
theorem switch_num (c : NumConv) (hc : charAt fmt s.fmt = c.char) :
    kprintfSwitch env args fmt s = numberCase args s (c.apply s.fa.flags) := by
  unfold kprintfSwitch
  rw [hc]
  cases c
  all_goals rfl

/-- `%s` takes an argument, or the text for a null pointer. -/
theorem switch_str (hc : charAt fmt s.fmt = 's') :
    kprintfSwitch env args fmt s = .convert { s with ap := s.ap + 1 }
      (.str (if args s.ap = 0 then env.nullText else args s.ap)) := by
  unfold kprintfSwitch
  rw [hc]
  rfl

/-- `%c` takes the low byte of an argument. -/
theorem switch_chr (hc : charAt fmt s.fmt = 'c') :
    kprintfSwitch env args fmt s = .convert { s with ap := s.ap + 1 }
      (.chr (Char.ofNat ((args s.ap).toNat % 256))) := by
  unfold kprintfSwitch
  rw [hc]
  rfl

/-- The dot clears the zero flag and is not refused, even behind another dot. -/
theorem switch_dot (hc : charAt fmt s.fmt = '.') :
    kprintfSwitch env args fmt s
      = takeFlags s { s.fa.flags with fzero := false, dot := true } := by
  unfold kprintfSwitch
  rw [hc]
  rfl

/-- The star has a case of its own, `starCase`. -/
theorem switch_star (hc : charAt fmt s.fmt = '*') :
    kprintfSwitch env args fmt s = starCase args s := by
  unfold kprintfSwitch
  rw [hc]
  rfl

/-- A star behind digits, or a second one, ends the conversion. -/
theorem starCase_refused (h : (s.fa.flags.fmask || s.fa.flags.lmask) = true) :
    starCase args s = .broken s := if_pos h

/-- A star in front of the dot is the width. -/
theorem starCase_width (hfmask : s.fa.flags.fmask = false) (hlmask : s.fa.flags.lmask = false)
    (hdot : s.fa.flags.dot = false) (hwidth : ¬ s.fa.width.toInt > 0) :
    starCase args s = .next { s with
      pers := true, ap := s.ap + 1
      fa := { s.fa with
        width := (identNumSize (args s.ap) s.fa.flags).setWidth 32
        presiction := (identNumSize (args s.ap) s.fa.flags >>> 32).setWidth 32 } } := by
  have hbar : ¬ (s.fa.flags.fmask || s.fa.flags.lmask) = true := by simp [hfmask, hlmask]
  have hdot' : ¬ s.fa.flags.dot = true := by simp [hdot]
  unfold starCase
  dsimp only
  rw [if_neg hbar, if_neg hdot', if_neg hwidth]

/-- Behind the dot it is the precision. -/
theorem starCase_precision (hfmask : s.fa.flags.fmask = false)
    (hlmask : s.fa.flags.lmask = false) (hdot : s.fa.flags.dot = true)
    (hprecision : ¬ s.fa.presiction.toInt > 0) :
    starCase args s = .next { s with
      pers := true, ap := s.ap + 1
      fa := { s.fa with
        presiction := (identNumSize (args s.ap) s.fa.flags).setWidth 32
        cinf := (identNumSize (args s.ap) s.fa.flags >>> 32).setWidth 32 } } := by
  have hbar : ¬ (s.fa.flags.fmask || s.fa.flags.lmask) = true := by simp [hfmask, hlmask]
  unfold starCase
  dsimp only
  rw [if_neg hbar, if_pos hdot, if_neg hprecision]

/-- A modifier of two letters is seen at the first one. -/
theorem switch_length (m : LengthMod) (hm : m ≠ .none) (h : Here fmt s.fmt (m.text ++ rest))
    (hrest : ∀ c, rest.head? = some c → c ≠ 'h' ∧ c ≠ 'l') :
    kprintfSwitch env args fmt s
      = takeFlags { s with fmt := s.fmt + (m.text.length - 1) } (m.apply s.fa.flags) := by
  -- what follows a single letter does not double it
  have hnext : ∀ c, c = 'h' ∨ c = 'l' → Here fmt (s.fmt + 1) rest → charAt fmt (s.fmt + 1) ≠ c := by
    intro c hc hh heq
    cases rest with
    | nil =>
        rw [hh.charAt_end] at heq
        subst heq
        revert hc
        decide
    | cons c' rest =>
        rw [hh.charAt] at heq
        subst heq
        exact hc.elim (hrest c' rfl).1 (hrest c' rfl).2
  cases m with
  | none => exact absurd rfl hm
  | hh =>
      unfold kprintfSwitch
      rw [h.charAt]
      exact if_pos h.next.charAt
  | h =>
      unfold kprintfSwitch
      rw [h.charAt]
      exact if_neg (hnext 'h' (.inl rfl) h.next)
  | l =>
      unfold kprintfSwitch
      rw [h.charAt]
      exact if_neg (hnext 'l' (.inr rfl) h.next)
  | ll =>
      unfold kprintfSwitch
      rw [h.charAt]
      exact if_pos h.next.charAt
  | z =>
      unfold kprintfSwitch
      rw [h.charAt]
      rfl

end Switching

/-! ### One turn each -/

section Turns

variable {env : Strings} {args : Nat → BitVec 64} {dsize : Nat} {fmt rest : List Char}
  {pos ap : Nat} {fa : Fattrs} {k : Sink} {c : Char}

/-- A per cent sign opens a conversion. -/
theorem turn_percent (hc : charAt fmt pos = '%') :
    vsnprintfTurn env args dsize fmt ⟨pos, false, fa, ap, k⟩
      = .ok (.inl ⟨pos + 1, true, fa, ap, k⟩) := by
  simp [vsnprintfTurn, hc]

/-- At the NUL the loop leaves, inside of a conversion or not. -/
theorem turn_end {pers : Bool} (h : Here fmt pos []) :
    vsnprintfTurn env args dsize fmt ⟨pos, pers, fa, ap, k⟩ = .ok (.inr k) := by
  simp [vsnprintfTurn, h.charAt_end]

/-- All characters but the digits of a width or a precision get to the `switch`. A zero
leaves `pers` set. -/
theorem turn_switch (hc : charAt fmt pos = c) (hnul : c ≠ '\x00')
    (hdigit : isdigit c = true → c = '0' ∧ fa.flags.lmask = false ∧ fa.flags.dot = false) :
    vsnprintfTurn env args dsize fmt ⟨pos, true, fa, ap, k⟩
      = afterSwitch env dsize fmt
          (kprintfSwitch env args fmt ⟨pos, isdigit c, fa.counted 1, ap, k⟩) := by
  by_cases hd : isdigit c = true
  · obtain ⟨rfl, hlmask, hdot⟩ := hdigit hd
    simp [vsnprintfTurn, hc, hd, hlmask, hdot, Fattrs.counted]
  · rw [Bool.not_eq_true] at hd
    simp [vsnprintfTurn, hc, hnul, hd, Fattrs.counted]

/-- Inside of a conversion, a character that is no digit goes to the switch. -/
theorem turn_switch_char (hc : charAt fmt pos = c) (hnul : c ≠ '\x00')
    (hdigit : isdigit c = false) :
    vsnprintfTurn env args dsize fmt ⟨pos, true, fa, ap, k⟩
      = afterSwitch env dsize fmt
          (kprintfSwitch env args fmt ⟨pos, false, fa.counted 1, ap, k⟩) := by
  rw [turn_switch hc hnul fun h => absurd h (by simp [hdigit]), hdigit]

/-- Nothing but flags has come so far. -/
def Fattrs.OnlyFlags (fa : Fattrs) : Prop :=
  fa.flags.lmask = false ∧ fa.flags.dot = false ∧ ¬ fa.width.toInt > 0

/-- A flag character goes there too. The zero does so only in front of the digits and of the
dot; elsewhere it is a digit. -/
theorem turn_flag_switch (f : Flag) (hc : charAt fmt pos = f.char)
    (hfirst : f = .zero → fa.flags.lmask = false ∧ fa.flags.dot = false) :
    vsnprintfTurn env args dsize fmt ⟨pos, true, fa, ap, k⟩
      = afterSwitch env dsize fmt (flagCase (f.refused fa.flags)
          ⟨pos, isdigit f.char, fa.counted 1, ap, k⟩ (f.apply fa.flags)) := by
  have hnul : f.char ≠ '\x00' := by cases f <;> decide
  have hdigit : isdigit f.char = true → f.char = '0' ∧ fa.flags.lmask = false
      ∧ fa.flags.dot = false := by
    cases f with
    | zero => exact fun _ => ⟨rfl, hfirst rfl⟩
    | _ => exact fun h => absurd h (by decide)
  rw [turn_switch hc hnul hdigit, switch_flag f hc]
  rfl

/-- A flag that is not refused is taken, and the next character is looked at. -/
theorem turn_flag (f : Flag) (hc : charAt fmt pos = f.char) (hfirst : fa.OnlyFlags)
    (htaken : f.refused fa.flags = false) :
    vsnprintfTurn env args dsize fmt ⟨pos, true, fa, ap, k⟩
      = .ok (.inl ⟨pos + 1, true, { fa.counted 1 with flags := f.apply fa.flags }, ap, k⟩) := by
  obtain ⟨hlmask, hdot, hwidth⟩ := hfirst
  rw [turn_flag_switch f hc fun _ => ⟨hlmask, hdot⟩]
  have hbar : ¬ (fa.flags.lmask || fa.flags.dot || decide (fa.width.toInt > 0)
      || f.refused fa.flags) = true := by
    simp [hlmask, hdot, hwidth, htaken]
  exact congrArg (afterSwitch env dsize fmt) (if_neg hbar)

/-- A flag that is refused, or comes too late. -/
theorem turn_flag_refused (f : Flag) (hc : charAt fmt pos = f.char)
    (hfirst : f = .zero → fa.flags.lmask = false ∧ fa.flags.dot = false)
    (hrefused : f.refused fa.flags = true ∨ fa.width.toInt > 0) :
    vsnprintfTurn env args dsize fmt ⟨pos, true, fa, ap, k⟩
      = .ok (echo dsize fmt ⟨pos, isdigit f.char, fa.counted 1, ap, k⟩) := by
  rw [turn_flag_switch f hc hfirst]
  have hbar : (fa.flags.lmask || fa.flags.dot || decide (fa.width.toInt > 0)
      || f.refused fa.flags) = true := by
    rcases hrefused with h | h
    · simp [h]
    · simp [h]
  exact congrArg (afterSwitch env dsize fmt) (if_pos hbar)

/-- The characters of the ten digits are digits, ... -/
theorem isdigit_digitChar (d : Fin 10) : isdigit (Nat.digitChar d.val) = true := by
  revert d
  decide

/-- ... with their own values, ... -/
theorem char2int_digitChar (d : Fin 10) :
    char2int (Nat.digitChar d.val) = BitVec.ofNat 32 d.val := by
  revert d
  decide

/-- ... and none of them is the NUL ... -/
theorem digitChar_ne_nul (d : Fin 10) : Nat.digitChar d.val ≠ '\x00' := by
  revert d
  decide

/-- ... or a star. -/
theorem digitChar_ne_star (d : Fin 10) : Nat.digitChar d.val ≠ '*' := by
  revert d
  decide

/-- A digit in front of the dot goes into the width. The first one is no zero, which would be a
flag. -/
theorem turn_width {d : Fin 10} (hd : d ≠ 0) (hc : charAt fmt pos = Nat.digitChar d.val)
    (hlmask : fa.flags.lmask = false) (hdot : fa.flags.dot = false) :
    vsnprintfTurn env args dsize fmt ⟨pos, true, fa, ap, k⟩
      = .ok (.inl ⟨pos + 1, true,
          { fa.counted 1 with width := fieldsInc fa.width (BitVec.ofNat 32 d.val) }, ap, k⟩) := by
  have hlarge : Nat.digitChar d.val > '0' := by
    clear hc
    revert d
    decide
  simp [vsnprintfTurn, hc, digitChar_ne_nul, isdigit_digitChar, char2int_digitChar, hlmask, hdot,
    hlarge, Fattrs.counted]

/-- A digit behind the dot goes into the precision. -/
theorem turn_precision {d : Fin 10} (hc : charAt fmt pos = Nat.digitChar d.val)
    (hlmask : fa.flags.lmask = false) (hdot : fa.flags.dot = true) :
    vsnprintfTurn env args dsize fmt ⟨pos, true, fa, ap, k⟩
      = .ok (.inl ⟨pos + 1, true,
          { fa.counted 1 with presiction := fieldsInc fa.presiction (BitVec.ofNat 32 d.val) },
          ap, k⟩) := by
  simp [vsnprintfTurn, hc, digitChar_ne_nul, isdigit_digitChar, char2int_digitChar, hlmask, hdot,
    Fattrs.counted]

/-- The dot is taken and the next character is looked at. -/
theorem turn_dot (hc : charAt fmt pos = '.') :
    vsnprintfTurn env args dsize fmt ⟨pos, true, fa, ap, k⟩
      = .ok (.inl ⟨pos + 1, true,
          { fa.counted 1 with flags := { fa.flags with fzero := false, dot := true } },
          ap, k⟩) := by
  rw [turn_switch_char hc (by decide) (by decide), switch_dot hc]
  rfl

/-- A length modifier takes its one or two characters at once. The character behind it decides
where it ends. -/
theorem turn_length (m : LengthMod) (hm : m ≠ .none) (h : Here fmt pos (m.text ++ rest))
    (hrest : ∀ c, rest.head? = some c → c ≠ 'h' ∧ c ≠ 'l') :
    vsnprintfTurn env args dsize fmt ⟨pos, true, fa, ap, k⟩
      = .ok (.inl ⟨pos + m.text.length, true,
          { fa.counted 1 with flags := m.apply fa.flags }, ap, k⟩) := by
  have hc : ∃ c, charAt fmt pos = c ∧ c ≠ '\x00' ∧ isdigit c = false := by
    cases m with
    | none => exact absurd rfl hm
    | _ => exact ⟨_, h.charAt, by decide, by decide⟩
  obtain ⟨c, hc, hnul, hdigit⟩ := hc
  have hlen : pos + (m.text.length - 1) + 1 = pos + m.text.length := by
    cases m with
    | none => exact absurd rfl hm
    | _ => rfl
  rw [turn_switch_char hc hnul hdigit, switch_length m hm h hrest, ← hlen]
  rfl

/-- A star goes to its case. -/
theorem turn_star_switch (hc : charAt fmt pos = '*') :
    vsnprintfTurn env args dsize fmt ⟨pos, true, fa, ap, k⟩
      = afterSwitch env dsize fmt (starCase args ⟨pos, false, fa.counted 1, ap, k⟩) := by
  rw [turn_switch_char hc (by decide) (by decide), switch_star hc]

/-- `*` behind a flag or a length. -/
theorem turn_star_refused (hc : charAt fmt pos = '*')
    (hrefused : (fa.flags.fmask || fa.flags.lmask) = true) :
    vsnprintfTurn env args dsize fmt ⟨pos, true, fa, ap, k⟩
      = .ok (echo dsize fmt ⟨pos, false, fa.counted 1, ap, k⟩) := by
  rw [turn_star_switch hc, starCase_refused hrefused]
  rfl

/-- `*` for the width. The precision gets the other half of the number. -/
theorem turn_star_width (hc : charAt fmt pos = '*') (hfmask : fa.flags.fmask = false)
    (hfirst : fa.OnlyFlags) :
    vsnprintfTurn env args dsize fmt ⟨pos, true, fa, ap, k⟩
      = .ok (.inl ⟨pos + 1, true,
          { fa.counted 1 with
            width := (identNumSize (args ap) fa.flags).setWidth 32
            presiction := (identNumSize (args ap) fa.flags >>> 32).setWidth 32 },
          ap + 1, k⟩) := by
  obtain ⟨hlmask, hdot, hwidth⟩ := hfirst
  rw [turn_star_switch hc, starCase_width hfmask hlmask hdot hwidth]
  rfl

/-- `*` for the precision. The counter of the characters gets the other half of the
number. -/
theorem turn_star_precision (hc : charAt fmt pos = '*') (hfmask : fa.flags.fmask = false)
    (hlmask : fa.flags.lmask = false) (hdot : fa.flags.dot = true)
    (hprecision : ¬ fa.presiction.toInt > 0) :
    vsnprintfTurn env args dsize fmt ⟨pos, true, fa, ap, k⟩
      = .ok (.inl ⟨pos + 1, true,
          { fa with
            presiction := (identNumSize (args ap) fa.flags).setWidth 32
            cinf := (identNumSize (args ap) fa.flags >>> 32).setWidth 32 },
          ap + 1, k⟩) := by
  rw [turn_star_switch hc, starCase_precision hfmask hlmask hdot hprecision]
  rfl

/-- A numeric conversion is written with its argument. -/
theorem turn_num (c : NumConv) (hc : charAt fmt pos = c.char) :
    vsnprintfTurn env args dsize fmt ⟨pos, true, fa, ap, k⟩
      = convert env dsize
          ⟨pos, false, { fa.counted 1 with flags := c.apply fa.flags }, ap + 1, k⟩
          (.num (identNumSize (args ap) (c.apply fa.flags))) := by
  have hchar : c.char ≠ '\x00' ∧ isdigit c.char = false := by cases c <;> decide
  rw [turn_switch_char hc hchar.1 hchar.2, switch_num c hc]
  rfl

/-- So is a string, ... -/
theorem turn_str (hc : charAt fmt pos = 's') :
    vsnprintfTurn env args dsize fmt ⟨pos, true, fa, ap, k⟩
      = convert env dsize ⟨pos, false, fa.counted 1, ap + 1, k⟩
          (.str (if args ap = 0 then env.nullText else args ap)) := by
  rw [turn_switch_char hc (by decide) (by decide), switch_str hc]
  rfl

/-- ... and a character. -/
theorem turn_chr (hc : charAt fmt pos = 'c') :
    vsnprintfTurn env args dsize fmt ⟨pos, true, fa, ap, k⟩
      = convert env dsize ⟨pos, false, fa.counted 1, ap + 1, k⟩
          (.chr (Char.ofNat ((args ap).toNat % 256))) := by
  rw [turn_switch_char hc (by decide) (by decide), switch_chr hc]
  rfl

end Turns

/-! ### Runs of characters -/

/-- The flags of a conversion, taken one after the other. -/
def applyFlags (f : FmtFlags) (fs : List Flag) : FmtFlags := fs.foldl Flag.apply f

/-- No flag is refused. -/
def FlagsTaken : FmtFlags → List Flag → Prop
  | _, [] => True
  | f, x :: fs => x.refused f = false ∧ FlagsTaken (x.apply f) fs

/-- A flag is no length modifier, ... -/
@[simp] theorem Flag.apply_lmask (f : FmtFlags) (x : Flag) : (x.apply f).lmask = f.lmask := by
  cases x <;> rfl

/-- ... and no dot. -/
@[simp] theorem Flag.apply_dot (f : FmtFlags) (x : Flag) : (x.apply f).dot = f.dot := by
  cases x <;> rfl

/-- So the flags in front of a conversion leave the length modifiers alone, ... -/
theorem applyFlags_lmask (f : FmtFlags) (fs : List Flag) :
    (applyFlags f fs).lmask = f.lmask := by
  induction fs generalizing f with
  | nil => rfl
  | cons x fs ih => exact (ih _).trans (x.apply_lmask f)

/-- ... and the dot. -/
theorem applyFlags_dot (f : FmtFlags) (fs : List Flag) : (applyFlags f fs).dot = f.dot := by
  induction fs generalizing f with
  | nil => rfl
  | cons x fs ih => exact (ih _).trans (x.apply_dot f)

section Paths

variable {env : Strings} {args : Nat → BitVec 64} {dsize : Nat} {fmt rest : List Char}
  {pos ap : Nat} {fa : Fattrs} {k : Sink} {P : KprintfState → Prop}

/-- One more digit of a width or a precision, as a number. -/
theorem fieldsInc_ofNat (n d : Nat) :
    fieldsInc (BitVec.ofNat 32 n) (BitVec.ofNat 32 d) = BitVec.ofNat 32 (10 * n + d) := by
  rw [fieldsInc, BitVec.ofNat_add, BitVec.ofNat_mul, BitVec.mul_comm]
  rfl

/-- The turns over the flags. The loop goes from the first of them to what stands behind the
last. -/
theorem path_flags (hP : ∀ s, charAt fmt s.fmt ≠ '*' → P s) (fs : List Flag)
    (h : Here fmt pos (fs.map Flag.char ++ rest)) (hfirst : fa.OnlyFlags)
    (htaken : FlagsTaken fa.flags fs) :
    Loop.Path (vsnprintfTurn env args dsize fmt) P ⟨pos, true, fa, ap, k⟩
      ⟨pos + fs.length, true, { fa.counted fs.length with flags := applyFlags fa.flags fs },
        ap, k⟩ := by
  induction fs generalizing pos fa with
  | nil =>
      have hfa : fa.counted 0 = fa := by simp [Fattrs.counted]
      show Loop.Path _ P ⟨pos, true, fa, ap, k⟩
        ⟨pos, true, { fa.counted 0 with flags := fa.flags }, ap, k⟩
      rw [hfa]
      exact .refl _
  | cons x fs ih =>
      have hchar : charAt fmt pos ≠ '*' := by
        rw [h.charAt]
        cases x <;> decide
      have hrest := @ih (pos + 1) { fa.counted 1 with flags := x.apply fa.flags } h.next
        ⟨(x.apply_lmask _).trans hfirst.1, (x.apply_dot _).trans hfirst.2.1, hfirst.2.2⟩ htaken.2
      have hcount := fa.counted_add 1 fs.length
      rw [Nat.add_comm 1] at hcount
      rw [List.length_cons, ← hcount, ← Nat.add_assoc, Nat.add_right_comm]
      exact .turn (hP _ hchar) (turn_flag x h.charAt hfirst htaken.1) hrest

/-- The digits of a width. -/
theorem path_width (hP : ∀ s, charAt fmt s.fmt ≠ '*' → P s) (ds : List (Fin 10)) (hzero : 0 ∉ ds)
    {w : Nat} (h : Here fmt pos (digitChars ds ++ rest)) (hlmask : fa.flags.lmask = false)
    (hdot : fa.flags.dot = false) (hw : fa.width = BitVec.ofNat 32 w) :
    Loop.Path (vsnprintfTurn env args dsize fmt) P ⟨pos, true, fa, ap, k⟩
      ⟨pos + ds.length, true, { fa.counted ds.length with
        width := BitVec.ofNat 32 (ds.foldl (fun n d => 10 * n + d.val) w) }, ap, k⟩ := by
  induction ds generalizing pos fa w with
  | nil =>
      have hfa : fa.counted 0 = fa := by simp [Fattrs.counted]
      show Loop.Path _ P ⟨pos, true, fa, ap, k⟩
        ⟨pos, true, { fa.counted 0 with width := BitVec.ofNat 32 w }, ap, k⟩
      rw [hfa, ← hw]
      exact .refl _
  | cons d ds ih =>
      rw [List.mem_cons, not_or] at hzero
      have hchar : charAt fmt pos ≠ '*' := by
        rw [h.charAt]
        exact digitChar_ne_star d
      have hrest := @ih (pos + 1)
        { fa.counted 1 with width := BitVec.ofNat 32 (10 * w + d.val) } hzero.2 _ h.next hlmask
          hdot rfl
      have hcount := fa.counted_add 1 ds.length
      rw [Nat.add_comm 1] at hcount
      rw [List.length_cons, ← hcount, ← Nat.add_assoc, Nat.add_right_comm]
      have hturn := @turn_width env args dsize fmt pos ap fa k d (Ne.symm hzero.1) h.charAt hlmask
        hdot
      rw [hw, fieldsInc_ofNat] at hturn
      exact .turn (hP _ hchar) hturn hrest

/-- The digits of a precision. -/
theorem path_precision (hP : ∀ s, charAt fmt s.fmt ≠ '*' → P s) (ds : List (Fin 10)) {p : Nat}
    (h : Here fmt pos (digitChars ds ++ rest)) (hlmask : fa.flags.lmask = false)
    (hdot : fa.flags.dot = true) (hp : fa.presiction = BitVec.ofNat 32 p) :
    Loop.Path (vsnprintfTurn env args dsize fmt) P ⟨pos, true, fa, ap, k⟩
      ⟨pos + ds.length, true, { fa.counted ds.length with
        presiction := BitVec.ofNat 32 (ds.foldl (fun n d => 10 * n + d.val) p) }, ap, k⟩ := by
  induction ds generalizing pos fa p with
  | nil =>
      have hfa : fa.counted 0 = fa := by simp [Fattrs.counted]
      show Loop.Path _ P ⟨pos, true, fa, ap, k⟩
        ⟨pos, true, { fa.counted 0 with presiction := BitVec.ofNat 32 p }, ap, k⟩
      rw [hfa, ← hp]
      exact .refl _
  | cons d ds ih =>
      have hchar : charAt fmt pos ≠ '*' := by
        rw [h.charAt]
        exact digitChar_ne_star d
      have hrest := @ih (pos + 1)
        { fa.counted 1 with presiction := BitVec.ofNat 32 (10 * p + d.val) } _ h.next hlmask hdot
          rfl
      have hcount := fa.counted_add 1 ds.length
      rw [Nat.add_comm 1] at hcount
      rw [List.length_cons, ← hcount, ← Nat.add_assoc, Nat.add_right_comm]
      have hturn := @turn_precision env args dsize fmt pos ap fa k d h.charAt hlmask hdot
      rw [hp, fieldsInc_ofNat] at hturn
      exact .turn (hP _ hchar) hturn hrest

/-! ### All options -/

/-- A width. The other half of the number of a `*` is zero unless it is negative. -/
theorem path_widthAmount (hP : ∀ s, charAt fmt s.fmt ≠ '*' → P s) (a : Amount)
    (h : Here fmt pos (a.text ++ rest)) (hfirst : fa.OnlyFlags) (hw : fa.width = 0)
    (hp : fa.presiction = 0) (hunsig : fa.flags.dunsig = false)
    (hdigits : ∀ ds, a = .digits ds → 0 ∉ ds)
    (hstar : a = .star → fa.flags.fmask = false ∧ 0 ≤ a.number (args ap) ∧
      P ⟨pos, true, fa, ap, k⟩) :
    Loop.Path (vsnprintfTurn env args dsize fmt) P ⟨pos, true, fa, ap, k⟩
      ⟨pos + a.text.length, true,
        { fa.counted a.text.length with width := BitVec.ofInt 32 (a.number (args ap)) },
        ap + a.slots, k⟩ := by
  cases a with
  | digits ds =>
      have hpath := @path_width env args dsize fmt rest pos ap fa k P hP ds (hdigits ds rfl) 0 h
        hfirst.1 hfirst.2.1 hw
      rw [show (Amount.digits ds).text.length = ds.length from List.length_map ..]
      exact hpath
  | star =>
      obtain ⟨hfmask, hnonneg, hPstar⟩ := hstar rfl
      have hsign : ¬ ((args ap).setWidth 32).toInt < 0 := Int.not_lt.mpr hnonneg
      have hturn := @turn_star_width env args dsize fmt pos ap fa k h.charAt hfmask hfirst
      rw [starNumber_low _ hfirst.1 hunsig, starNumber_high _ hfirst.1 hunsig,
        if_neg hsign] at hturn
      refine .single hPstar ?_
      rw [show BitVec.ofInt 32 (Amount.star.number (args ap)) = (args ap).setWidth 32
        from BitVec.ofInt_toInt, hturn, ← hp]
      rfl

/-- What the dot and the precision make of the flags. -/
def dotFlags (f : FmtFlags) (precision : Option Amount) : FmtFlags :=
  precision.elim f fun _ => { f with fzero := false, dot := true }

/-- The dot is no length modifier. -/
theorem dotFlags_lmask (f : FmtFlags) (precision : Option Amount) :
    (dotFlags f precision).lmask = f.lmask := by
  cases precision <;> rfl

/-- A precision, with its dot. -/
theorem path_precisionAmount (hP : ∀ s, charAt fmt s.fmt ≠ '*' → P s) (precision : Option Amount)
    (h : Here fmt pos (precision.elim [] (fun a => '.' :: a.text) ++ rest))
    (hlmask : fa.flags.lmask = false) (hp : fa.presiction = 0) (hunsig : fa.flags.dunsig = false)
    (hstar : precision = some .star →
      (dotFlags fa.flags precision).fmask = false ∧ ∀ s, P s) :
    ∃ c, Loop.Path (vsnprintfTurn env args dsize fmt) P ⟨pos, true, fa, ap, k⟩
      ⟨pos + (precision.elim [] fun a => '.' :: a.text).length, true,
        { fa with
          presiction := precision.elim 0 fun a => BitVec.ofInt 32 (a.number (args ap))
          flags := dotFlags fa.flags precision
          cinf := c },
        ap + precision.elim 0 Amount.slots, k⟩ ∧
      (precision ≠ some .star →
        c = fa.cinf + BitVec.ofNat 32 (precision.elim [] fun a => '.' :: a.text).length) := by
  cases precision with
  | none =>
      refine ⟨fa.cinf, ?_, fun _ => (BitVec.add_zero _).symm⟩
      show Loop.Path _ P ⟨pos, true, fa, ap, k⟩ ⟨pos, true, { fa with presiction := 0 }, ap, k⟩
      rw [← hp]
      exact .refl _
  | some a =>
      have hdot := @turn_dot env args dsize fmt pos ap fa k h.charAt
      have hP' : P ⟨pos, true, fa, ap, k⟩ := hP _ (by rw [h.charAt]; decide)
      cases a with
      | digits ds =>
          have hpath := @path_precision env args dsize fmt rest (pos + 1) ap
            { fa.counted 1 with flags := { fa.flags with fzero := false, dot := true } } k P hP ds 0
            h.next hlmask rfl hp
          have hlen : ('.' :: (Amount.digits ds).text).length = 1 + ds.length := by
            rw [List.length_cons, show (Amount.digits ds).text.length = ds.length
              from List.length_map .., Nat.add_comm]
          refine ⟨((fa.counted 1).counted ds.length).cinf, .turn hP' hdot ?_, fun _ => ?_⟩
          · show Loop.Path _ P _ ⟨pos + ('.' :: (Amount.digits ds).text).length, _, _, _, _⟩
            rw [hlen, ← Nat.add_assoc]
            exact hpath
          · rw [fa.counted_add, ← hlen]
            rfl
      | star =>
          obtain ⟨hfmask, hall⟩ := hstar rfl
          have hturn := @turn_star_precision env args dsize fmt (pos + 1) ap
            { fa.counted 1 with flags := { fa.flags with fzero := false, dot := true } } k
            h.next.charAt hfmask hlmask rfl (by simp [hp])
          have hlow : (identNumSize (args ap) (dotFlags fa.flags (some .star))).setWidth 32
              = (args ap).setWidth 32 := starNumber_low _ hlmask hunsig
          -- the high half of the number falls on `cinf`, which is why the count is lost here
          refine ⟨(identNumSize (args ap) (dotFlags fa.flags (some .star)) >>> 32).setWidth 32,
            .turn hP' hdot (.single (hall _) ?_), fun hne => absurd rfl hne⟩
          rw [show (some Amount.star).elim 0 (fun a => BitVec.ofInt 32 (a.number (args ap)))
            = (args ap).setWidth 32 from BitVec.ofInt_toInt, ← hlow]
          exact hturn

end Paths

/-- The bits of all options. -/
def Options.attrs (o : Options) : FmtFlags :=
  o.length.apply (dotFlags (applyFlags {} o.flags) o.precision)

/-- What the loop has stored when it comes to the conversion. -/
def Options.fattrs (o : Options) (args : Nat → BitVec 64) (c : BitVec 32) : Fattrs where
  width := BitVec.ofInt 32 (o.widthOf args)
  presiction := o.precision.elim 0 fun a => BitVec.ofInt 32 (a.number (args o.width.slots))
  cinf := c
  flags := o.attrs

/-- The options that the loop reads to their end. -/
structure Options.Taken (o : Options) (args : Nat → BitVec 64) : Prop where
  flags : FlagsTaken {} o.flags
  width : ∀ ds, o.width = .digits ds → 0 ∉ ds
  widthStar : o.width = .star → o.flags = [] ∧ 0 ≤ o.widthOf args
  precisionStar : o.precision = some .star → ∀ f ∈ o.flags, f = .zero

section Options

variable {env : Strings} {args : Nat → BitVec 64} {dsize : Nat} {fmt rest : List Char}
  {pos ap : Nat} {k : Sink} {P : KprintfState → Prop} {o : Options} {conversion : Char}

/-- When all flags in front of the dot are zeros, the dot leaves none of them. -/
theorem fmask_zeros : ∀ (fs : List Flag) (f : FmtFlags), (∀ x ∈ fs, x = .zero) → f.flj = false →
    f.fsig = false → f.fspace = false → f.fpref = false →
    ({ applyFlags f fs with fzero := false, dot := true } : FmtFlags).fmask = false := by
  intro fs
  induction fs with
  | nil =>
      intro f _ h1 h2 h3 h4
      simp [applyFlags, FmtFlags.fmask, h1, h2, h3, h4]
  | cons x fs ih =>
      intro f hx h1 h2 h3 h4
      obtain rfl := hx x (.head _)
      exact ih _ (fun y hy => hx y (.tail _ hy)) h1 h2 h3 h4

/-- Flags do not make a conversion an unsigned one. -/
theorem applyFlags_dunsig (f : FmtFlags) (fs : List Flag) :
    (applyFlags f fs).dunsig = f.dunsig := by
  induction fs generalizing f with
  | nil => rfl
  | cons x fs ih =>
      refine (ih _).trans ?_
      cases x <;> rfl

/-- What is left behind the width. -/
theorem Here.behind_width (h : Here fmt pos ('%' :: (o.body ++ rest))) :
    Here fmt (pos + 1 + (o.flagsText.length + o.width.text.length))
      (o.precisionText ++ (o.length.text ++ rest)) := by
  have hnext := h.next
  simp only [Options.body, List.append_assoc] at hnext
  rw [← Nat.add_assoc]
  exact hnext.skip.skip

/-- From the `%` to the end of the width. -/
theorem path_front (hP : ∀ s, charAt fmt s.fmt ≠ '*' → P s)
    (h : Here fmt pos ('%' :: (o.body ++ rest))) (hflags : FlagsTaken {} o.flags)
    (hdigits : ∀ ds, o.width = .digits ds → 0 ∉ ds)
    (hwidth : o.width = .star → o.flags = [] ∧ 0 ≤ o.widthOf fun i => args (ap + i))
    (hstar : o.width = .star → ∀ pos fa, charAt fmt pos = '*' → fa.flags = {} → fa.OnlyFlags →
      fa.presiction = 0 → P ⟨pos, true, fa, ap, k⟩) :
    Loop.Path (vsnprintfTurn env args dsize fmt) P ⟨pos, false, {}, ap, k⟩
      ⟨pos + 1 + (o.flagsText.length + o.width.text.length), true,
        { ({} : Fattrs).counted (o.flagsText.length + o.width.text.length) with
          width := BitVec.ofInt 32 (o.widthOf fun i => args (ap + i))
          flags := applyFlags {} o.flags },
        ap + o.width.slots, k⟩ := by
  have hstart := @turn_percent env args dsize fmt pos ap {} k h.charAt
  have h1 : Here fmt (pos + 1) (o.flagsText ++ (o.width.text ++ (o.precisionText ++
      (o.length.text ++ rest)))) := by
    have hnext := h.next
    simp only [Options.body, List.append_assoc] at hnext
    exact hnext
  have hnone : ¬ (0 : BitVec 32).toInt > 0 := by decide
  -- The path goes from the `%` over the flags, and then over the width.
  have hpath := @path_flags env args dsize fmt _ (pos + 1) ap {} k P hP o.flags h1
    ⟨rfl, rfl, hnone⟩ hflags
  rw [show o.flags.length = o.flagsText.length from (List.length_map ..).symm] at hpath
  -- Flags leave the fields alone that the cases of the width look at.
  have hlmask := applyFlags_lmask {} o.flags
  have hdot := applyFlags_dot {} o.flags
  have hunsig := applyFlags_dunsig {} o.flags
  have hflags0 : o.flags = [] → applyFlags {} o.flags = {} := fun h => by rw [h]; rfl
  generalize applyFlags {} o.flags = f at hpath hlmask hdot hunsig hflags0 ⊢
  have hamount := @path_widthAmount env args dsize fmt _ (pos + 1 + o.flagsText.length) ap
    { ({} : Fattrs).counted o.flagsText.length with flags := f } k P hP o.width h1.skip
    ⟨hlmask, hdot, hnone⟩ rfl rfl hunsig hdigits fun hw => by
      obtain ⟨hnil, hnonneg⟩ := hwidth hw
      have hf0 := hflags0 hnil
      subst hf0
      have hchar := h1.skip
      rw [hw] at hchar
      exact ⟨rfl, hnonneg, hstar hw _ _ hchar.charAt rfl ⟨rfl, rfl, hnone⟩ rfl⟩
  have hcount := ({} : Fattrs).counted_add o.flagsText.length o.width.text.length
  rw [← hcount, ← Nat.add_assoc (pos + 1)]
  exact ((Loop.Path.single (hP _ (by rw [h.charAt]; decide)) hstart).trans hpath).trans hamount

/-- From the `%` to what follows the options. The counter is right unless a `*` or a
modifier of two letters has spoiled it. -/
theorem path_body (hP : ∀ s, charAt fmt s.fmt ≠ '*' → P s)
    (h : Here fmt pos ('%' :: (o.body ++ rest)))
    (hrest : ∀ c, rest.head? = some c → c ≠ 'h' ∧ c ≠ 'l') (ho : o.Taken fun i => args (ap + i))
    (hstar : o.width = .star → ∀ pos fa, charAt fmt pos = '*' → fa.flags = {} → fa.OnlyFlags →
      fa.presiction = 0 → P ⟨pos, true, fa, ap, k⟩)
    (hprec : o.precision = some .star → ∀ s, P s) :
    ∃ c, Loop.Path (vsnprintfTurn env args dsize fmt) P ⟨pos, false, {}, ap, k⟩
      ⟨pos + 1 + o.body.length, true, o.fattrs (fun i => args (ap + i)) c, ap + o.starSlots, k⟩ ∧
      (o.precision ≠ some .star → o.length.text.length ≤ 1 →
        c = BitVec.ofNat 32 o.body.length) := by
  have hfront := @path_front env args dsize fmt rest pos ap k P o hP h ho.flags ho.width
    ho.widthStar hstar
  have hbehind := h.behind_width
  have hlen : o.body.length
      = o.flagsText.length + o.width.text.length + o.precisionText.length
        + o.length.text.length := by
    simp [Options.body, Nat.add_assoc]
  rw [hlen]
  generalize o.flagsText.length + o.width.text.length = n at hfront hbehind
  have hzeros : o.precision = some .star →
      (dotFlags (applyFlags {} o.flags) o.precision).fmask = false := by
    intro hp
    rw [hp]
    exact fmask_zeros o.flags {} (ho.precisionStar hp) rfl rfl rfl rfl
  obtain ⟨c, hprecision, hcinf⟩ := @path_precisionAmount env args dsize fmt _ (pos + 1 + n)
    (ap + o.width.slots)
    { ({} : Fattrs).counted n with
      width := BitVec.ofInt 32 (o.widthOf fun i => args (ap + i))
      flags := applyFlags {} o.flags } k P hP o.precision hbehind (applyFlags_lmask {} o.flags) rfl
    (applyFlags_dunsig {} o.flags) fun hp => ⟨hzeros hp, hprec hp⟩
  have hlast : Here fmt (pos + 1 + n + o.precisionText.length) (o.length.text ++ rest) :=
    hbehind.skip
  rw [show (o.precision.elim [] fun a => '.' :: a.text).length = o.precisionText.length from rfl]
    at hprecision hcinf
  have hcount : o.precision ≠ some .star → c = BitVec.ofNat 32 (n + o.precisionText.length) := by
    intro hp
    rw [hcinf hp, BitVec.ofNat_add]
    exact congrArg (· + _) (BitVec.zero_add _)
  rw [Nat.add_assoc (pos + 1)] at hprecision hlast
  rw [← Nat.add_assoc (pos + 1)]
  generalize n + o.precisionText.length = m at hprecision hlast hcount
  -- flags, width and precision are behind; what is left is the length letter
  have hsofar : Loop.Path (vsnprintfTurn env args dsize fmt) P ⟨pos, false, {}, ap, k⟩
      ⟨pos + 1 + m, true, { o.fattrs (fun i => args (ap + i)) c with
        flags := dotFlags (applyFlags {} o.flags) o.precision }, ap + o.starSlots, k⟩ := by
    rw [Options.starSlots, ← Nat.add_assoc]
    exact hfront.trans hprecision
  by_cases hm : o.length = .none
  · refine ⟨c, ?_, fun hp _ => ?_⟩
    · rw [Options.fattrs, Options.attrs, hm]
      exact hsofar
    · rw [hcount hp, hm]
      rfl
  · have hlength := @turn_length env args dsize fmt rest (pos + 1 + m) (ap + o.starSlots)
      { o.fattrs (fun i => args (ap + i)) c with
        flags := dotFlags (applyFlags {} o.flags) o.precision } k o.length hm hlast hrest
    have hne : charAt fmt (pos + 1 + m) ≠ '*' := by
      cases hl : o.length with
      | none => exact absurd hl hm
      | _ =>
          rw [hl] at hlast
          rw [hlast.charAt]
          decide
    refine ⟨c + 1, hsofar.trans (.single (hP _ hne) hlength), fun hp hshort => ?_⟩
    have hone : o.length.text.length = 1 := by
      cases hl : o.length with
      | none => exact absurd hl hm
      | hh => exact absurd (hl ▸ hshort) (by decide)
      | ll => exact absurd (hl ▸ hshort) (by decide)
      | _ => rfl
    rw [hcount hp, hone, BitVec.ofNat_add]
    rfl

/-- Behind a conversion stands the rest of the format. -/
theorem Here.behind_body (h : Here fmt pos ('%' :: (o.body ++ rest))) :
    Here fmt (pos + 1 + o.body.length) rest := h.next.skip

/-- From the `%` to the conversion. -/
theorem path_options (hP : ∀ s, charAt fmt s.fmt ≠ '*' → P s)
    (h : Here fmt pos (o.text conversion ++ rest)) (hconv : conversion ≠ 'h' ∧ conversion ≠ 'l')
    (ho : o.Taken fun i => args (ap + i))
    (hstar : o.width = .star → ∀ pos fa, charAt fmt pos = '*' → fa.flags = {} → fa.OnlyFlags →
      fa.presiction = 0 → P ⟨pos, true, fa, ap, k⟩)
    (hprec : o.precision = some .star → ∀ s, P s) :
    ∃ c, Loop.Path (vsnprintfTurn env args dsize fmt) P ⟨pos, false, {}, ap, k⟩
      ⟨pos + 1 + o.body.length, true, o.fattrs (fun i => args (ap + i)) c, ap + o.starSlots, k⟩ ∧
        charAt fmt (pos + 1 + o.body.length) = conversion := by
  rw [o.text_append] at h
  obtain ⟨c, hpath, -⟩ := path_body hP h (fun c hc => by
    obtain rfl : conversion = c := Option.some.inj hc
    exact hconv) ho hstar hprec
  exact ⟨c, hpath, h.behind_body.charAt⟩

/-- The conversion is the last character of a specification. -/
theorem Options.length_text (o : Options) (conversion : Char) :
    (o.text conversion).length = 1 + o.body.length + 1 := by
  simp only [text, body, List.length_cons, List.length_append, List.length_nil]
  omega

end Options

end MString
