import Mathlib.Data.List.Induction
import MString.Mlibc.Stdlib
import MString.Proofs.Mlibc.Numerals

/-!
# `MString.Proofs.Mlibc.Itoa`: what `itoa` leaves in its buffer

The digits go behind one another from the last one on (`run_itoaTurn`), with a `-` in
front of them for a negative number in radix 10, and the whole is reversed
(`run_reverseTurn`). Three things go wrong. The digits are those of the number read
unsigned; the `-` is reversed with them; and the last digit is not taken off `buflen`, so
that the terminator is stored behind the buffer when the digits fill it.

* `itoaNumeral`: the canonical numeral.
* `ItoaLaws`: what is expected of `itoa`.
* `ItoaFits`: the numbers and lengths for which it keeps it (`itoaLaws_iff`).
-/

set_option autoImplicit false

namespace MString

/-- The canonical numeral of an `int`. Only radix 10 has a sign. -/
def itoaNumeral (num radix : BitVec 32) : List Char :=
  if num.toInt < 0 ∧ radix = 10 then '-' :: Nat.toDigits 10 num.toInt.natAbs
  else (Nat.toDigits radix.toNat num.toNat).map Char.toUpper

/-- Only the buffer is written, and it holds the numeral when there is room for it and its
terminator. -/
def ItoaLaws (num : BitVec 32) (buflen : Uintptr) (radix : BitVec 32) : Prop :=
  ∃ dest, itoa num buflen radix = .ok dest
    ∧ (∀ i, dest i ≠ none → i < buflen.toNat)
    ∧ ((itoaNumeral num radix).length + 1 ≤ buflen.toNat →
        ∀ i (hi : i < (itoaNumeral num radix ++ ['\x00']).length),
          dest i = some (itoaNumeral num radix ++ ['\x00'])[i])

/-- There is no room for a negative number of radix 10, nor do its ten digits and the `-`
fill the buffer. Any other numeral does not fill it. -/
def ItoaFits (num : BitVec 32) (buflen : Uintptr) (radix : BitVec 32) : Prop :=
  if num.toInt < 0 ∧ radix = 10 then
    buflen.toNat < (itoaNumeral num radix).length + 1 ∧ buflen.toNat ≠ 11
  else buflen.toNat ≠ (itoaNumeral num radix).length

/-- The buffer behind the characters `out`. -/
def stored (out : List Char) : Nat → Option Char := fun i => out[i]?

/-- One character more in the buffer. -/
theorem stored_append (out : List Char) (c : Char) :
    Function.update (stored out) out.length (some c) = stored (out ++ [c]) := by
  funext i
  rcases Nat.lt_trichotomy i out.length with h | rfl | h
  · rw [Function.update_of_ne (by omega), stored, stored, List.getElem?_append_left h]
  · simp [stored]
  · rw [Function.update_of_ne (by omega), stored, stored, List.getElem?_eq_none (by omega),
      List.getElem?_eq_none (by simp; omega)]

/-- The buffer, with `room` bytes of it to go. -/
def itoaBuf (out : List Char) (room : Nat) : ItoaBuf := ⟨out.length, room, stored out⟩

/-- Storing a character, which moves the pointer and makes the room smaller. -/
theorem put_itoaBuf (out : List Char) (room : Nat) (c : Char) :
    (itoaBuf out room).put c = itoaBuf (out ++ [c]) room := by
  rw [itoaBuf, itoaBuf, ItoaBuf.put, stored_append, List.length_append]
  rfl

/-! ### The digits -/

section
variable {radix : BitVec 32} {table : List Char}

/-- The digits as the loop finds them, the lowest first. -/
def itoaDigits (table : List Char) (radix num : BitVec 32) : List Char :=
  (digitsOf radix.toNat num.toNat).map fun d => table.getD d '\x00'

/-- One turn of the division gives the last digit. -/
theorem itoaDigits_step (hb : 2 ≤ radix.toNat) (num : BitVec 32) :
    itoaDigits table radix num = table.getD (num % radix).toNat '\x00'
      :: if num.ult radix then [] else itoaDigits table radix (num / radix) := by
  rw [itoaDigits, digitsOf_step hb, List.map_cons, BitVec.toNat_umod]
  congr 1
  have hlt : num.ult radix = true ↔ num.toNat / radix.toNat = 0 := by
    rw [BitVec.ult, decide_eq_true_eq, Nat.div_eq_zero_iff]
    omega
  by_cases h : num.toNat / radix.toNat = 0
  · rw [if_pos h, if_pos (hlt.mpr h)]
    rfl
  · rw [if_neg h, if_neg (fun hu => h (hlt.mp hu)), itoaDigits, BitVec.toNat_udiv]

/-- The loop stores as many digits as there is room for. The last digit of all leaves the
room as it is. -/
theorem run_itoaTurn (hb : 2 ≤ radix.toNat) :
    ∀ (n : Nat) (num : BitVec 32) (out : List Char) (room : Nat),
      (itoaDigits table radix num).length ≤ n →
      Loop.run .diverges (itoaTurn table radix) (n + 1) (num, itoaBuf out room)
        = .ok (itoaBuf (out ++ (itoaDigits table radix num).take room)
            (room - min room ((itoaDigits table radix num).length - 1))) := by
  intro n
  -- on a bound of the digits still to be written
  induction n with
  | zero =>
      intro num out room hn
      rw [itoaDigits_step hb] at hn
      simp at hn
  | succ n ih =>
      intro num out room hn
      rw [itoaDigits_step hb] at hn ⊢
      cases room with
      | zero =>
          rw [Loop.run_exit (b := itoaBuf out 0) rfl]
          simp
      | succ room =>
          have hroom : (itoaBuf out (room + 1)).buflen > 0 := Nat.zero_lt_succ room
          -- the loop is left at the last digit, after it is written
          by_cases hlt : num.ult radix
          · have hmod : (num % radix).toNat = num.toNat := by
              rw [BitVec.toNat_umod, Nat.mod_eq_of_lt (by simpa [BitVec.ult] using hlt)]
            rw [if_pos hlt, hmod]
            have hturn : itoaTurn table radix (num, itoaBuf out (room + 1))
                = .ok (.inr (itoaBuf (out ++ [table.getD num.toNat '\x00']) (room + 1))) := by
              rw [itoaTurn, if_pos hroom, if_pos hlt, put_itoaBuf]
            rw [Loop.run_exit hturn]
            simp
          · rw [if_neg hlt] at hn ⊢
            have hturn : itoaTurn table radix (num, itoaBuf out (room + 1))
                = .ok (.inl (num / radix,
                    itoaBuf (out ++ [table.getD (num % radix).toNat '\x00']) room)) := by
              rw [itoaTurn, if_pos hroom, if_neg hlt, put_itoaBuf]
              rfl
            have hlen : (itoaDigits table radix (num / radix)).length ≠ 0 := by
              rw [itoaDigits_step hb]
              simp
            rw [List.length_cons] at hn
            rw [Loop.run_continue hturn, ih _ _ _ (by omega), List.take_succ_cons,
              List.length_cons, List.append_assoc]
            congr 2
            omega

end

/-! ### The reversal -/

/-- Two characters of the buffer change places. -/
theorem stored_swap (a m c : List Char) (x y : Char) :
    Function.update (Function.update (stored (a ++ (x :: (m ++ [y]) ++ c))) a.length (some y))
        (a.length + m.length + 1) (some x)
      = stored (a ++ [y] ++ (m ++ ([x] ++ c))) := by
  have hset : ∀ (l : List Char) (i : Nat) (z : Char), i < l.length →
      Function.update (stored l) i (some z) = stored (l.set i z) := by
    intro l i z hi
    funext j
    by_cases hj : j = i
    · subst hj
      rw [Function.update_self, stored, List.getElem?_set_self hi]
    · rw [Function.update_of_ne hj, stored, stored, List.getElem?_set_ne (Ne.symm hj)]
  have hfirst : (a ++ (x :: (m ++ [y]) ++ c)).set a.length y = a ++ y :: m ++ y :: c := by
    simp
  have hlast : (a ++ y :: m ++ y :: c).set (a ++ y :: m).length x = a ++ y :: m ++ x :: c := by
    rw [List.set_append_right _ _ (Nat.le_refl _), Nat.sub_self]
    rfl
  rw [show a.length + m.length + 1 = (a ++ y :: m).length by simp; omega,
    hset _ _ _ (by simp), hfirst, hset _ _ _ (by simp), hlast]
  simp

/-- What stands between the two pointers is reversed. -/
theorem run_reverseTurn (l : List Char) :
    ∀ (a c : List Char) (n : Nat), l.length ≤ n →
      Loop.run .diverges reverseTurn (n + 1)
          (a.length, a.length + l.length - 1, stored (a ++ (l ++ c)))
        = .ok (stored (a ++ (l.reverse ++ c))) := by
  -- both ends move inwards, so the text is taken from both ends
  induction l using List.bidirectionalRec with
  | nil =>
      intro a c n _
      apply Loop.run_exit
      rw [reverseTurn, if_neg (by simp)]
      rfl
  | singleton x =>
      intro a c n _
      apply Loop.run_exit
      rw [reverseTurn, if_neg (by simp)]
      rfl
  | cons_append x m y ih =>
      intro a c n hn
      have hlen : (x :: (m ++ [y])).length = m.length + 2 := by simp
      rw [hlen] at hn ⊢
      obtain ⟨n, rfl⟩ := Nat.exists_eq_add_one_of_ne_zero (show n ≠ 0 by omega)
      have hfront : stored (a ++ (x :: (m ++ [y]) ++ c)) a.length = some x := by simp [stored]
      have hback : stored (a ++ (x :: (m ++ [y]) ++ c)) (a.length + m.length + 1) = some y := by
        rw [stored, show a ++ (x :: (m ++ [y]) ++ c) = (a ++ x :: m) ++ y :: c by simp,
          show a.length + m.length + 1 = (a ++ x :: m).length by simp; omega]
        simp
      have hturn : reverseTurn (a.length, a.length + (m.length + 2) - 1,
          stored (a ++ (x :: (m ++ [y]) ++ c)))
          = .ok (.inl ((a ++ [y]).length, (a ++ [y]).length + m.length - 1,
              stored (a ++ [y] ++ (m ++ ([x] ++ c))))) := by
        rw [reverseTurn, if_pos (by omega), show a.length + (m.length + 2) - 1
          = a.length + m.length + 1 by omega, hfront, hback]
        dsimp only
        rw [stored_swap, List.length_append, List.length_singleton]
        congr 5
        omega
      rw [Loop.run_continue hturn, ih _ _ _ (by omega)]
      simp

/-- The whole buffer is reversed, up to the terminator. -/
theorem reverse_stored (out c : List Char) (hlen : out.length < TURNS) :
    Loop.run .diverges reverseTurn TURNS (0, out.length - 1, stored (out ++ c))
      = .ok (stored (out.reverse ++ c)) := by
  have h := run_reverseTurn out [] c (TURNS - 1) (by omega)
  rwa [Nat.sub_add_cancel (show 1 ≤ TURNS by decide), List.length_nil, Nat.zero_add] at h

/-! ### The buffer behind `itoa` -/

section
variable {radix : BitVec 32} {table : List Char}

/-- A radix with a table is 8, 10 or 16. -/
theorem toNat_radix (h : itoaTable radix = some table) :
    radix.toNat = 8 ∨ radix.toNat = 10 ∨ radix.toNat = 16 := by
  rw [itoaTable] at h
  by_cases h10 : radix = 10 ∨ radix = 8
  · rcases h10 with rfl | rfl
    · exact .inr (.inl rfl)
    · exact .inl rfl
  · by_cases h16 : radix = 16
    · subst h16
      exact .inr (.inr rfl)
    · rw [if_neg h10, if_neg h16] at h
      cases h

/-- An `int` has at most eleven digits. -/
theorem length_itoaDigits (hb : 8 ≤ radix.toNat) (num : BitVec 32) :
    (itoaDigits table radix num).length ≤ 11 := by
  rw [itoaDigits, List.length_map]
  refine length_digitsOf (by omega) (by omega) (Nat.lt_of_lt_of_le num.isLt ?_)
  calc 2 ^ 32 ≤ 8 ^ 11 := by decide
    _ ≤ radix.toNat ^ 11 := Nat.pow_le_pow_left hb 11

/-- The buffer with its terminator, if `buflen` says that there is room for it. -/
def terminated (s : ItoaBuf) : Nat → Option Char :=
  if s.buflen > 0 then Function.update s.dest s.buf (some '\x00') else s.dest

/-- A terminator is stored where there is room for it. -/
theorem terminated_itoaBuf (out : List Char) (room : Nat) :
    terminated (itoaBuf out room) = stored (out ++ if room > 0 then ['\x00'] else []) := by
  rw [terminated]
  by_cases h : room > 0
  · exact (if_pos h).trans ((stored_append out _).trans (by rw [if_pos h]))
  · exact (if_neg h).trans (by rw [if_neg h, List.append_nil]; rfl)

/-- Behind the sign, if there is one: the digits, and the terminator if `buflen` says that
there is room for it. -/
theorem itoa_eq {num : BitVec 32} {buflen : Uintptr} {sign : List Char}
    (htable : itoaTable radix = some table)
    (hsign : sign = if num.toInt < 0 ∧ radix = 10 then ['-'] else [])
    (hpos : 0 < buflen.toNat) :
    itoa num buflen radix
      = .ok (stored
        ((sign ++ (itoaDigits table radix num).take (buflen.toNat - sign.length)).reverse
          ++ if (itoaDigits table radix num).length ≤ buflen.toNat - sign.length then ['\x00']
            else [])) := by
  have hb : 8 ≤ radix.toNat := by
    rcases toNat_radix htable with h | h | h <;> omega
  have hlen : (itoaDigits table radix num).length ≤ 11 := length_itoaDigits hb num
  have hstep : (itoaDigits table radix num).length ≠ 0 := by
    rw [itoaDigits_step (by omega)]
    simp
  -- the sign is stored first, and ends up in front only when the whole is reversed
  have hstart : (if num.toInt < 0 ∧ radix = 10 then
        { (itoaBuf [] buflen.toNat).put '-' with buflen := buflen.toNat - 1 }
      else itoaBuf [] buflen.toNat) = itoaBuf sign (buflen.toNat - sign.length) := by
    rw [hsign]
    split
    · rw [put_itoaBuf]
      rfl
    · rfl
  have hrun := @run_itoaTurn radix table (by omega) (TURNS - 1) num sign
    (buflen.toNat - sign.length) (by unfold TURNS; omega)
  rw [Nat.sub_add_cancel (show 1 ≤ TURNS by decide)] at hrun
  have hitoa : itoa num buflen radix = (Loop.run .diverges (itoaTurn table radix) TURNS
      (num, itoaBuf sign (buflen.toNat - sign.length)) >>= fun s =>
        Loop.run .diverges reverseTurn TURNS (0, s.buf - 1, terminated s)) := by
    rw [itoa, htable, ← hstart]
    exact if_pos hpos
  generalize itoaDigits table radix num = digits at *
  generalize buflen.toNat - sign.length = room at *
  have hout : (sign ++ digits.take room).length < TURNS := by
    have hs : sign.length ≤ 1 := by
      rw [hsign]
      split <;> simp
    rw [List.length_append, List.length_take]
    unfold TURNS
    omega
  rw [hitoa, hrun, Loop.ok_bind, terminated_itoaBuf]
  refine (reverse_stored _ _ hout).trans ?_
  -- the terminator is stored only when room is left for it
  by_cases hfit : digits.length ≤ room
  · rw [if_pos hfit, if_pos (by omega)]
  · rw [if_neg hfit, if_neg (by omega)]

/-! ### The numeral -/

/-- Every digit is below the base. -/
theorem digitsOf_lt {b d : Nat} (hb : 2 ≤ b) : ∀ x ∈ digitsOf b d, x < b := by
  intro x hx
  rw [digitsOf] at hx
  split at hx
  · rw [List.mem_singleton.mp hx]
    omega
  · exact Nat.digits_lt_base hb hx

/-- Both tables have the digits of the radix. -/
theorem itoaDigits_eq (htable : itoaTable radix = some table) (num : BitVec 32) :
    itoaDigits table radix num = (digitsOf radix.toNat num.toNat).map (numsAt true) := by
  refine List.map_congr_left fun d hd => ?_
  have hlt : d < radix.toNat :=
    digitsOf_lt (by rcases toNat_radix htable with h | h | h <;> omega) d hd
  have hten : ∀ d : Fin 10, ['0', '1', '2', '3', '4', '5', '6', '7', '8', '9'].getD d.val '\x00'
      = numsAt true d.val := by decide
  have hhex : ∀ d : Fin 16, ['0', '1', '2', '3', '4', '5', '6', '7', '8', '9', 'A', 'B', 'C', 'D',
      'E', 'F'].getD d.val '\x00' = numsAt true d.val := by decide
  rw [itoaTable] at htable
  split at htable
  · rename_i h
    cases htable
    exact hten ⟨d, by rcases h with rfl | rfl <;> [exact hlt; exact Nat.lt_trans hlt (by decide)]⟩
  · split at htable
    · rename_i h
      cases htable
      subst h
      exact hhex ⟨d, hlt⟩
    · cases htable

/-- Reversed, the digits of the code are the numeral. -/
theorem reverse_itoaDigits (htable : itoaTable radix = some table) (num : BitVec 32) :
    (itoaDigits table radix num).reverse
      = (Nat.toDigits radix.toNat num.toNat).map Char.toUpper := by
  rw [itoaDigits_eq htable]
  apply map_digitsOf _ _ numsAt_upper
  all_goals rcases toNat_radix htable with h | h | h <;> omega

/-- No digit is a sign. -/
theorem ne_minus_of_mem (htable : itoaTable radix = some table) {num : BitVec 32} {c : Char}
    (hc : c ∈ itoaDigits table radix num) : c ≠ '-' := by
  have hchars : ∀ d : Fin 16, numsAt true d.val ≠ '-' := by decide
  rw [itoaDigits_eq htable] at hc
  obtain ⟨d, hd, rfl⟩ := List.mem_map.mp hc
  have hlt : d < radix.toNat :=
    digitsOf_lt (by rcases toNat_radix htable with h | h | h <;> omega) d hd
  exact hchars ⟨d, by rcases toNat_radix htable with h | h | h <;> omega⟩

/-- An `int` has between one and ten decimal digits. -/
theorem length_toDigits {n : Nat} (hn : n < 10 ^ 10) :
    1 ≤ (Nat.toDigits 10 n).length ∧ (Nat.toDigits 10 n).length ≤ 10 := by
  have hdigits := map_digitsOf (b := 10) (by decide) (by decide) (f := id) numsAt_lower n
  have hlen := congrArg List.length hdigits
  rw [List.length_reverse, List.length_map, List.length_map] at hlen
  rw [← hlen]
  refine ⟨?_, length_digitsOf (by decide) (by decide) hn⟩
  rw [digitsOf_step (by decide)]
  simp

/-- Read unsigned, a negative number has ten digits. -/
theorem length_negative {num : BitVec 32} (hneg : num.toInt < 0) (hradix : radix = 10) :
    (itoaDigits table radix num).length = 10 := by
  have hlow : 2 ^ 31 ≤ num.toNat := by
    rw [BitVec.toInt_eq_toNat_cond] at hneg
    split at hneg <;> omega
  have hlt := num.isLt
  have hten : radix.toNat = 10 := by
    rw [hradix]
    rfl
  rw [itoaDigits, List.length_map, hten, digitsOf, if_neg (by omega)]
  have hle : (Nat.digits 10 num.toNat).length ≤ 10 :=
    (Nat.digits_length_le_iff (by decide) _).mpr (by omega)
  have hge : ¬ (Nat.digits 10 num.toNat).length ≤ 9 := by
    rw [Nat.digits_length_le_iff (by decide)]
    omega
  omega

end

/-! ### When `itoa` is right -/

section
variable {num : BitVec 32} {buflen : Uintptr} {radix : BitVec 32} {out : List Char}

/-- What the laws say about the characters that are stored. -/
theorem itoaLaws_stored (h : itoa num buflen radix = .ok (stored out)) :
    ItoaLaws num buflen radix ↔ out.length ≤ buflen.toNat
      ∧ ((itoaNumeral num radix).length + 1 ≤ buflen.toNat →
        itoaNumeral num radix ++ ['\x00'] <+: out) := by
  have hwrites : (∀ i, stored out i ≠ none → i < buflen.toNat) ↔ out.length ≤ buflen.toNat := by
    constructor
    · intro hall
      by_contra hlt
      have hget := hall buflen.toNat (by rw [stored, List.getElem?_eq_getElem (by omega)]; simp)
      exact Nat.lt_irrefl _ hget
    · intro hle i hi
      have hlt : i < out.length := by
        by_contra hge
        exact hi (List.getElem?_eq_none (by omega))
      omega
  have hbegins : ∀ l : List Char,
      (∀ i (hi : i < l.length), stored out i = some l[i]) ↔ l <+: out := by
    intro l
    rw [List.prefix_iff_getElem?]
    rfl
  constructor
  · rintro ⟨dest, hdest, hw, hnum⟩
    rw [h, Except.ok.injEq] at hdest
    subst hdest
    exact ⟨hwrites.mp hw, fun hroom => (hbegins _).mp (hnum hroom)⟩
  · rintro ⟨hw, hnum⟩
    exact ⟨_, h, hwrites.mpr hw, fun hroom => (hbegins _).mpr (hnum hroom)⟩

/-- Each of the three has a table. -/
theorem exists_itoaTable (hradix : radix = 8 ∨ radix = 10 ∨ radix = 16) :
    ∃ table, itoaTable radix = some table := by
  rcases hradix with rfl | rfl | rfl
  · exact ⟨_, rfl⟩
  · exact ⟨_, rfl⟩
  · exact ⟨_, rfl⟩

/-- Without a sign only a full buffer is a problem. -/
theorem itoaLaws_unsigned {table : List Char} (htable : itoaTable radix = some table)
    (hpos : 0 < buflen.toNat) (hsign : ¬ (num.toInt < 0 ∧ radix = 10)) :
    ItoaLaws num buflen radix ↔ buflen.toNat ≠ (itoaNumeral num radix).length := by
  have hnum : itoaNumeral num radix = (itoaDigits table radix num).reverse := by
    rw [itoaNumeral, if_neg hsign, reverse_itoaDigits htable]
  have heq := @itoa_eq radix table num buflen [] htable (if_neg hsign).symm hpos
  rw [List.nil_append, List.length_nil, Nat.sub_zero] at heq
  rw [itoaLaws_stored heq, hnum, List.length_append, List.length_reverse, List.length_reverse,
    List.length_take]
  by_cases hfit : (itoaDigits table radix num).length ≤ buflen.toNat
  · rw [if_pos hfit, List.take_of_length_le hfit]
    constructor
    · rintro ⟨hle, -⟩
      rw [List.length_singleton] at hle
      omega
    · intro hne
      exact ⟨by rw [List.length_singleton]; omega, fun _ => List.prefix_refl _⟩
  · rw [if_neg hfit]
    refine iff_of_true ⟨?_, fun hroom => ?_⟩ (by omega)
    · rw [List.length_nil]
      omega
    · omega

/-- A negative number is only right where it need not be there. -/
theorem itoaLaws_negative {table : List Char} (htable : itoaTable radix = some table)
    (hpos : 0 < buflen.toNat) (hsign : num.toInt < 0 ∧ radix = 10) :
    ItoaLaws num buflen radix
      ↔ buflen.toNat < (itoaNumeral num radix).length + 1 ∧ buflen.toNat ≠ 11 := by
  -- The digits are those of the number as an unsigned one, so there are ten of them.
  have hten : (itoaDigits table radix num).length = 10 := length_negative hsign.1 hsign.2
  have heq := @itoa_eq radix table num buflen ['-'] htable (if_pos hsign).symm hpos
  have hlen := length_toDigits (n := num.toInt.natAbs) (by
    have h1 := BitVec.le_toInt num
    have h2 := BitVec.toInt_lt (x := num)
    omega)
  have hdigit : ∀ c ∈ itoaDigits table radix num, c ≠ '-' := fun c hc => ne_minus_of_mem htable hc
  rw [List.length_singleton] at heq
  rw [itoaLaws_stored heq, itoaNumeral, if_pos hsign, List.length_append, List.length_reverse,
    List.length_append, List.length_take, List.length_singleton, List.length_cons]
  generalize itoaDigits table radix num = digits at *
  rw [hten]
  constructor
  · rintro ⟨hle, hnum⟩
    by_cases hroom : (Nat.toDigits 10 num.toInt.natAbs).length + 1 + 1 ≤ buflen.toNat
    · -- The first character is a digit, and not the sign.
      exfalso
      have hne : digits.take (buflen.toNat - 1) ≠ [] := by
        rw [← List.length_pos_iff, List.length_take]
        omega
      obtain ⟨t, ht⟩ := hnum hroom
      have hhead := congrArg List.head? ht
      rw [List.cons_append, List.cons_append, List.head?_cons, List.reverse_append,
        List.append_assoc, List.head?_append_of_ne_nil _ (by simpa using hne),
        List.head?_reverse] at hhead
      have hmem := List.mem_of_mem_take (List.mem_of_getLast? hhead.symm)
      exact hdigit _ hmem rfl
    · -- The ten digits and the sign fill eleven bytes, and the terminator would come behind
      -- them.
      refine ⟨by omega, fun h11 => ?_⟩
      rw [if_pos (by omega), List.length_singleton] at hle
      omega
  · rintro ⟨hshort, hne⟩
    rw [if_neg (by omega), List.length_nil]
    exact ⟨by omega, fun hroom => by omega⟩

/-- `itoa` keeps its laws exactly for the numbers and lengths that fit. With room for it, a
negative number of radix 10 is never its numeral; any other one fails only where its digits fill
the buffer, so that the terminator is stored behind it. -/
theorem itoaLaws_iff (num : BitVec 32) (buflen : Uintptr)
    (hradix : radix = 8 ∨ radix = 10 ∨ radix = 16) :
    ItoaLaws num buflen radix ↔ ItoaFits num buflen radix := by
  obtain ⟨table, htable⟩ := exists_itoaTable hradix
  have hlen : 1 ≤ (itoaNumeral num radix).length := by
    rw [itoaNumeral]
    split
    · simp
    · rw [← reverse_itoaDigits htable, itoaDigits_step
        (by rcases toNat_radix htable with h | h | h <;> omega)]
      simp
  by_cases hzero : buflen.toNat = 0
  · -- Nothing is written, and there is no room for the numeral.
    have heq : itoa num buflen radix = .ok (stored []) := by
      rw [itoa, htable]
      exact if_neg (by omega)
    rw [itoaLaws_stored heq, ItoaFits, hzero]
    refine iff_of_true ⟨Nat.le_refl _, fun hroom => by omega⟩ ?_
    split
    · exact ⟨by omega, by decide⟩
    · omega
  · rw [ItoaFits]
    split
    · exact itoaLaws_negative htable (by omega) (by assumption)
    · exact itoaLaws_unsigned htable (by omega) (by assumption)

/-- 70605 in eight bytes. -/
theorem itoaLaws_digits : ItoaLaws 70605 8 10 ↔ ItoaFits 70605 8 10 :=
  itoaLaws_iff 70605 8 (.inr (.inl rfl))

/-- 7 in one byte: the terminator is stored behind the buffer. -/
theorem not_itoaLaws_full : ¬ ItoaLaws 7 1 10 := by
  intro h
  have heq := @itoa_eq 10 _ 7 1 [] rfl rfl (by decide)
  rw [itoaLaws_stored heq] at h
  exact absurd h.1 (by decide)

end

end MString
