import MString.Proofs.Mlibc.Fields

/-!
# `MString.Proofs.Mlibc.Numerals`: conversions without options

`%d`, `%hhu`, `%lX` and the others print a canonical numeral, and `printsNumeral_iff` says
for which arguments it is the one of the right number.

* `numberBuf_eq`: the digits that the code stores are the canonical ones.
* `readNumber_digits`: a numeral can be read back.
* `NumConv.Kept`: the number that the code prints is the one that the conversion names.
-/

set_option autoImplicit false

namespace MString

open Sink

/-! ### Digits -/

/-- The digits of the code are those of a numeral, in lower case ... -/
theorem numsAt_lower (d : Fin 16) : numsAt false d.val = Nat.digitChar d.val := by
  revert d
  decide

/-- ... and in upper case. -/
theorem numsAt_upper (d : Fin 16) : numsAt true d.val = (Nat.digitChar d.val).toUpper := by
  revert d
  decide

/-- The digits of `tmp_buf`, read from the last one, are those of `Nat.toDigits`. -/
theorem map_digitsOf {b : Nat} (hb : 2 ≤ b) (hb' : b ≤ 16) {num : Nat → Char} {f : Char → Char}
    (hnum : ∀ d : Fin 16, num d.val = f (Nat.digitChar d.val)) (n : Nat) :
    ((digitsOf b n).map num).reverse = (Nat.toDigits b n).map f := by
  induction n using Nat.strongRecOn with
  | ind n ih =>
      rw [digitsOf_step hb, Nat.toDigits_eq_if (by omega)]
      have hdigit : num (n % b) = f (Nat.digitChar (n % b)) :=
        hnum ⟨n % b, (Nat.mod_lt n (by omega)).trans_le hb'⟩
      by_cases hlt : n < b
      · rw [if_pos hlt, if_pos (Nat.div_eq_of_lt hlt), Nat.mod_eq_of_lt hlt] at *
        simp [hdigit]
      · have hdiv : n / b ≠ 0 := by
          have hpos := Nat.div_pos (Nat.le_of_not_lt hlt) (by omega : 0 < b)
          omega
        rw [if_neg hlt, if_neg hdiv, List.map_cons, List.reverse_cons,
          ih (n / b) (Nat.div_lt_self (by omega) (by omega)), hdigit]
        simp

/-- The buffer holds the digits of the number, the last one first. -/
theorem numberBuf_eq (c : NumConv) {f : FmtFlags} (h : f.Untyped) (n : Nat) :
    (numberBuf (c.apply f) n).reverse = c.digits n := by
  have hbase := c.baseOf_apply h
  have hrange : 2 ≤ c.base ∧ c.base ≤ 16 := by cases c <;> decide
  have hupper : (!(c.apply f).doct && !(c.apply f).ddec && (c.apply f).dhexUp)
      = decide (c = .X) := by
    cases c <;> simp [NumConv.apply, h.doct, h.ddec, h.dhexUp]
  rw [numberBuf, hbase, hupper, NumConv.digits]
  by_cases hX : c = .X
  · rw [if_pos hX, decide_eq_true hX]
    exact map_digitsOf hrange.1 hrange.2 numsAt_upper n
  · rw [if_neg hX, decide_eq_false hX, @map_digitsOf _ hrange.1 hrange.2 _ id numsAt_lower n,
      List.map_id]

/-- The value of a digit. -/
def digitValue (c : Char) : Option Nat :=
  if '0' ≤ c ∧ c ≤ '9' then some (c.toNat - '0'.toNat)
  else if 'a' ≤ c ∧ c ≤ 'f' then some (c.toNat - 'a'.toNat + 10)
  else if 'A' ≤ c ∧ c ≤ 'F' then some (c.toNat - 'A'.toNat + 10)
  else none

/-- The number that the digits of a text spell. -/
def readNumber (b : Nat) (text : List Char) : Nat :=
  (text.filterMap digitValue).foldl (fun n d => b * n + d) 0

/-- A digit is read back, in lower case ... -/
theorem digitValue_lower (d : Fin 16) : digitValue (Nat.digitChar d.val) = some d.val := by
  revert d
  decide

/-- ... and in upper case. -/
theorem digitValue_upper (d : Fin 16) : digitValue (Nat.digitChar d.val).toUpper = some d.val := by
  revert d
  decide

/-- A numeral is read back, in every base up to 16. -/
theorem readNumber_toDigits {b : Nat} (hb : 2 ≤ b) (hb' : b ≤ 16) {f : Char → Char}
    (hf : ∀ d : Fin 16, digitValue (f (Nat.digitChar d.val)) = some d.val) (n : Nat) :
    readNumber b ((Nat.toDigits b n).map f) = n := by
  induction n using Nat.strongRecOn with
  | ind n ih =>
      rw [Nat.toDigits_eq_if (by omega)]
      by_cases hlt : n < b
      · rw [if_pos hlt]
        simp [readNumber, hf ⟨n, by omega⟩]
      · have hdigit := hf ⟨n % b, (Nat.mod_lt n (by omega)).trans_le hb'⟩
        have hrest := ih (n / b) (Nat.div_lt_self (by omega) (by omega))
        rw [readNumber] at hrest ⊢
        rw [if_neg hlt, List.map_append, List.filterMap_append, List.foldl_append, hrest]
        simp only [List.map_cons, List.map_nil, List.filterMap_cons, hdigit, List.filterMap_nil,
          List.foldl_cons, List.foldl_nil]
        exact Nat.div_add_mod n b

/-- So is that of a conversion. -/
theorem readNumber_digits (c : NumConv) (n : Nat) : readNumber c.base (c.digits n) = n := by
  have hrange : 2 ≤ c.base ∧ c.base ≤ 16 := by cases c <;> decide
  rw [NumConv.digits]
  split
  · exact readNumber_toDigits hrange.1 hrange.2 digitValue_upper n
  · have h := @readNumber_toDigits c.base hrange.1 hrange.2 id digitValue_lower n
    rwa [List.map_id] at h

/-- All characters of a numeral are digits. -/
theorem isSome_of_mem_toDigits {b : Nat} (hb : 2 ≤ b) (hb' : b ≤ 16) {f : Char → Char}
    (hf : ∀ d : Fin 16, digitValue (f (Nat.digitChar d.val)) = some d.val) (n : Nat) :
    ∀ x ∈ (Nat.toDigits b n).map f, (digitValue x).isSome := by
  induction n using Nat.strongRecOn with
  | ind n ih =>
      rw [Nat.toDigits_eq_if (by omega)]
      by_cases hlt : n < b
      · rw [if_pos hlt]
        simp [hf ⟨n, by omega⟩]
      · have hdigit := hf ⟨n % b, (Nat.mod_lt n (by omega)).trans_le hb'⟩
        have hrest := ih (n / b) (Nat.div_lt_self (by omega) (by omega))
        rw [if_neg hlt, List.map_append]
        intro x hx
        rcases List.mem_append.mp hx with hx | hx
        · exact hrest x hx
        · obtain rfl : x = f (Nat.digitChar (n % b)) := by simpa using hx
          rw [hdigit]
          rfl

/-- A numeral of a natural number consists of digits. -/
theorem isSome_of_mem_digits (c : NumConv) (n : Nat) :
    ∀ x ∈ c.digits n, (digitValue x).isSome := by
  have hrange : 2 ≤ c.base ∧ c.base ≤ 16 := by cases c <;> decide
  rw [NumConv.digits]
  split
  · exact isSome_of_mem_toDigits hrange.1 hrange.2 digitValue_upper n
  · have h := @isSome_of_mem_toDigits c.base hrange.1 hrange.2 id digitValue_lower n
    rwa [List.map_id] at h

/-- The numeral of a 64-bit number has at most 22 digits. -/
theorem length_digits_le (c : NumConv) {n : Nat} (hn : n < 2 ^ 64) : (c.digits n).length ≤ 22 := by
  have hbase : 8 ≤ c.base := by cases c <;> decide
  have hpow : n < c.base ^ 22 := by
    calc n < 2 ^ 64 := hn
      _ ≤ 8 ^ 22 := by decide
      _ ≤ c.base ^ 22 := Nat.pow_le_pow_left hbase 22
  have hlen := length_digitsOf (by omega) (by omega) hpow
  have hempty : FmtFlags.Untyped {} := ⟨rfl, rfl, rfl, rfl, rfl⟩
  rw [← numberBuf_eq c hempty n, List.length_reverse, numberBuf, List.length_map,
    c.baseOf_apply hempty]
  exact hlen

/-! ### Values -/

namespace NumConv

/-- The width of what the code takes for a number: `hh` and `h` are forgotten. -/
def readBits (c : NumConv) (m : LengthMod) : Nat := max 32 (c.bits m)

/-- The argument, read unsigned, is a nonnegative number of the type that is named. -/
def Kept (c : NumConv) (m : LengthMod) (slot : BitVec 64) : Prop :=
  (slot.setWidth (c.readBits m)).toNat < 2 ^ (if c.signed then c.bits m - 1 else c.bits m)

instance (c : NumConv) (m : LengthMod) (slot : BitVec 64) : Decidable (c.Kept m slot) :=
  inferInstanceAs (Decidable (_ < _))

end NumConv

/-- The length bits are those of the modifier. -/
structure FmtFlags.LengthBits (f : FmtFlags) (m : LengthMod) : Prop where
  llong : f.llong = decide (m = .l)
  ldlong : f.ldlong = decide (m = .ll)
  lsizet : f.lsizet = decide (m = .z)

/-- Flags set no length. -/
theorem lengthBits_applyFlags (fs : List Flag) {f : FmtFlags} (h : f.LengthBits .none) :
    (applyFlags f fs).LengthBits .none := by
  induction fs generalizing f with
  | nil => exact h
  | cons x fs ih =>
      refine ih ?_
      cases x <;> exact ⟨h.1, h.2, h.3⟩

/-- The parser has the length modifier of the options. -/
theorem Options.lengthBits_attrs (o : Options) : o.attrs.LengthBits o.length := by
  have h := lengthBits_applyFlags o.flags (⟨rfl, rfl, rfl⟩ : FmtFlags.LengthBits {} .none)
  have hdot : (dotFlags (applyFlags {} o.flags) o.precision).LengthBits .none := by
    cases o.precision with
    | none => exact h
    | some a => exact ⟨h.1, h.2, h.3⟩
  unfold Options.attrs
  cases o.length
  all_goals
    constructor
    all_goals simp [LengthMod.apply, hdot.llong, hdot.ldlong, hdot.lsizet]

/-- The number that the code prints. -/
theorem Options.number_eq (o : Options) (c : NumConv) (args : Nat → BitVec 64) :
    o.number c args =
      if c.bits o.length = 64 then args o.starSlots
      else if c.signed then ((args o.starSlots).setWidth 32).signExtend 64
      else ((args o.starSlots).setWidth 32).setWidth 64 := by
  have hlength := o.lengthBits_attrs
  have htype := o.untyped_attrs
  unfold Options.number identNumSize
  generalize o.attrs = f at hlength htype
  cases hm : o.length
  all_goals
    rw [hm] at hlength
    cases c
    all_goals
      simp [NumConv.apply, NumConv.bits, NumConv.signed, LengthMod.bits, hlength.llong,
        hlength.ldlong, hlength.lsizet, htype.dunsig]

/-- The number that the code prints is the value exactly when the argument is kept. -/
theorem value_eq_iff (o : Options) (c : NumConv) (args : Nat → BitVec 64) :
    ((o.number c args).toNat : Int) = c.value o.length (args o.starSlots) ↔
      c.Kept o.length (args o.starSlots) := by
  rw [o.number_eq]
  generalize args o.starSlots = slot
  have hslot := slot.isLt
  have hbits : c.bits o.length = 8 ∨ c.bits o.length = 16 ∨ c.bits o.length = 32 ∨
      c.bits o.length = 64 := by
    unfold NumConv.bits
    cases o.length <;> (split <;> simp [LengthMod.bits])
  unfold NumConv.Kept NumConv.value NumConv.readBits
  generalize c.bits o.length = bits at hbits ⊢
  cases c.signed with
  | true =>
      simp only [if_true]
      rcases hbits with rfl | rfl | rfl | rfl
      all_goals
        simp [BitVec.toInt_eq_toNat_cond, BitVec.toNat_signExtend, BitVec.msb_eq_decide]
        omega
  | false =>
      simp only [Bool.false_eq_true, if_false]
      rcases hbits with rfl | rfl | rfl | rfl
      all_goals
        simp
        omega

/-! ### Conversions without options -/

/-- With enough room, `%`, the modifier and the conversion print the canonical numeral of
the converted argument. -/
def PrintsNumeral (env : Strings) (args : Nat → BitVec 64) (c : NumConv) (m : LengthMod) : Prop :=
  ∀ dsize : BitVec 64, (c.canonical (c.value m (args 0))).length ≤ dsize.toNat →
    vsnprintf env args dsize (({ length := m } : Options).text c.char)
      = .ok (ofList (c.canonical (c.value m (args 0))))

section Plain

variable {env : Strings} {args : Nat → BitVec 64} {c : NumConv} {m : LengthMod}

/-- The magnitude of an argument fits 64 bits. -/
theorem abs_value_lt (c : NumConv) (m : LengthMod) (slot : BitVec 64) :
    (c.value m slot).natAbs < 2 ^ 64 := by
  have hslot := slot.isLt
  have hbits : c.bits m ≤ 64 := by
    unfold NumConv.bits
    cases m <;> (split <;> decide)
  have hpow : 2 ^ c.bits m ≤ 2 ^ 64 := Nat.pow_le_pow_right (by decide) hbits
  have hlt := (slot.setWidth (c.bits m)).isLt
  unfold NumConv.value
  split
  · rw [BitVec.toInt_eq_toNat_cond]
    split <;> omega
  · omega

/-- What the code prints for a conversion without options: the digits of its number. -/
theorem vsnprintf_plain (hc : c ≠ .p) {dsize : BitVec 64}
    (hroom : (c.digits (({ length := m } : Options).number c args).toNat).length ≤ dsize.toNat) :
    vsnprintf env args dsize (({ length := m } : Options).text c.char)
      = .ok (ofList (c.digits (({ length := m } : Options).number c args).toNat)) := by
  generalize ho : ({ length := m } : Options) = o at hroom ⊢
  -- without options the field is the digits alone
  have hflatten : (numberWrites (o.numberAttrs c args) (o.number c args)).flatten
      = c.digits (o.number c args).toNat := by
    have hw : (o.numberAttrs c args).width = BitVec.ofNat 32 0 := by subst ho; rfl
    have hp : (o.numberAttrs c args).presiction = BitVec.ofNat 32 0 := by subst ho; rfl
    have hflags : (o.numberAttrs c args).flags = c.apply o.attrs := rfl
    have hsign : signText (c.apply o.attrs) = [] := by
      subst ho
      cases m
      all_goals
        cases c
        all_goals first
          | rfl
          | exact absurd rfl hc
    have hspace : (c.apply o.attrs).fspace = false := by
      subst ho
      cases m
      all_goals
        cases c
        all_goals rfl
    rw [flatten_numberWrites (by decide) (by decide) hw hp, hflags, numberBuf_eq c o.untyped_attrs,
      fieldText, hsign, hspace]
    simp [padding]
  have htaken : o.Taken args := by
    subst ho
    refine ⟨trivial, ?_, ?_, ?_⟩
    · intro ds h
      obtain rfl : [] = ds := Amount.digits.inj h
      exact List.not_mem_nil
    · intro h
      cases h
    · intro h
      cases h
  have hpath := @path_number env args dsize.toNat (o.text c.char) [] [] 0 0
    (fun _ => True) o c (fun _ _ => trivial) (here_text o c.char) (by rwa [args_zero])
    (fun _ _ _ _ _ _ _ => trivial) (fun _ _ => trivial)
    (by rw [args_zero, hflatten]; simpa using hroom)
  rw [args_zero, hflatten] at hpath
  exact vsnprintf_of_path hpath (here_end o c.char)

/-- The numerals are right exactly for the arguments that are kept: `neg` is never set, and
`hh` and `h` are forgotten. -/
theorem printsNumeral_iff (hc : c ≠ .p) : PrintsNumeral env args c m ↔ c.Kept m (args 0) := by
  have hvalue := value_eq_iff { length := m } c args
  have hslot : args ({ length := m } : Options).starSlots = args 0 := rfl
  rw [hslot] at hvalue
  generalize hn : (({ length := m } : Options).number c args).toNat = n at hvalue
  have hlt : n < 2 ^ 64 := hn ▸ BitVec.isLt _
  rw [← hvalue]
  refine ⟨fun h => ?_, fun h dsize hdsize => ?_⟩
  · -- With all the room there is, the two texts are equal, and can be read back.
    have habs := abs_value_lt c m (args 0)
    generalize hv : c.value m (args 0) = v at h habs
    have hlen : (c.canonical v).length ≤ 23 := by
      have hdigits := length_digits_le c habs
      unfold NumConv.canonical
      rw [List.length_append]
      split <;> simp <;> omega
    have hall : (BitVec.allOnes 64).toNat = 2 ^ 64 - 1 := by decide
    have hcode := @vsnprintf_plain env args c m hc (BitVec.allOnes 64)
      (by have hdigits := length_digits_le c hlt; rw [hn, hall]; omega)
    have hspec := h (BitVec.allOnes 64) (by rw [hv, hall]; omega)
    rw [hcode, hn, hv] at hspec
    have htexts := ofList_injective (Except.ok.inj hspec)
    -- The code never prints a minus, so the number is not negative.
    by_cases hneg : v < 0
    · have hmem : '-' ∈ c.digits n := by
        rw [htexts, NumConv.canonical, if_pos hneg]
        simp
      have hdigit := isSome_of_mem_digits c n '-' hmem
      simp [digitValue] at hdigit
    · -- Then the digits are the same, and the number they stand for is.
      rw [NumConv.canonical, if_neg hneg, List.nil_append] at htexts
      have hread := congrArg (readNumber c.base) htexts
      rw [readNumber_digits, readNumber_digits] at hread
      omega
  · have hcanonical : c.canonical (c.value m (args 0)) = c.digits n := by
      rw [← h, NumConv.canonical, if_neg (by omega)]
      rfl
    rw [hcanonical] at hdsize ⊢
    rw [← hn] at hdsize ⊢
    exact vsnprintf_plain hc hdsize

end Plain

/-- The text for a null pointer stands at its place. -/
theorem literalOnly_holds (i : Fin 7) :
    "<NULL>".toList.getD ((4096 : BitVec 64) + BitVec.ofNat 64 i - 4096).toNat '\x00'
      = ['<', 'N', 'U', 'L', 'L', '>', '\x00'][i] := by
  revert i
  decide

/-- A memory with nothing but the literal. -/
def literalOnly : Strings where
  mem p := "<NULL>".toList.getD (p - 4096).toNat '\x00'
  nullText := 4096
  holds := literalOnly_holds

/-- A `%d` of 42 in a slot with other bits above it, and a `%hhX` of 0x1ff. -/
theorem printsNumeral_iff_small :
    PrintsNumeral literalOnly (fun _ => 0xffffffff0000002a) .d .none ∧
      ¬ PrintsNumeral literalOnly (fun _ => 0x1ff) .X .hh :=
  ⟨(printsNumeral_iff (by decide)).mpr (by decide),
    fun h => absurd ((printsNumeral_iff (by decide)).mp h) (by decide)⟩

/-- `%d` of -1 prints 2^64 - 1. -/
theorem not_printsNumeral_negative : ¬ PrintsNumeral literalOnly (fun _ => -1) .d .none := by
  intro h
  have hspec := h 32 (by decide)
  rw [vsnprintf_plain (by decide) (by decide)] at hspec
  exact absurd (Sink.ofList_injective (Except.ok.inj hspec)) (by decide)

end MString
