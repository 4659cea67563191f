import Mathlib.Data.List.Range
import MString.Eza.Bits
import MString.Lib.Loop
import MString.Proofs.Mm.Words

/-!
# `MString.Proofs.Eza.Bits`: searching and clearing a bitmap

The two assembly routines number the bits of a bitmap in the same way (`bitAt`):

* `findFirstBitMem64_eq` finds the least set bit, `findFirstBitMem64_zero` says when there
  is none;
* `bitAt_resetBitMem64` clears that bit and no other;
* `takeBits` clears one bit after the other, and `run_takeTurn` says which ones it finds.

A bit has a number of 32 bits, the largest of which stands for no bit, so all this is
about bitmaps without a set bit from there on (`bitmapLaws_iff`).
-/

set_option autoImplicit false

namespace MString

/-- Bit `i` of a bitmap. -/
def bitAt (ptr : Nat → BitVec 64) (i : Nat) : Bool := (ptr (i / 64)).getLsbD (i % 64)

variable {ptr : Nat → BitVec 64}

/-- `bsf` finds the lowest bit that is set. -/
theorem bsf_eq_some {word : BitVec 64} {b : Nat} :
    bsf word = some b ↔ word.getLsbD b = true ∧ b < 64 ∧ ∀ j, j < b → word.getLsbD j = false := by
  simp [bsf, List.find?_range_eq_some]

/-- It finds none exactly when the word is zero. -/
theorem bsf_eq_none {word : BitVec 64} :
    bsf word = none ↔ ∀ j, j < 64 → word.getLsbD j = false := by
  simp [bsf]

/-- The loop stops at the first word that has a bit. -/
theorem findFirstBitLoop_of_some {word b : Nat} (h : bsf (ptr word) = some b) (rbx : Nat)
    (rax : BitVec 64) : findFirstBitLoop ptr rbx word rax = BitVec.ofNat 64 b + rax := by
  unfold findFirstBitLoop
  simp [h]

/-- It goes on behind a word without one. -/
theorem findFirstBitLoop_of_none {word : Nat} (h : bsf (ptr word) = none) (rbx : Nat)
    (rax : BitVec 64) :
    findFirstBitLoop ptr (rbx + 1) word rax = findFirstBitLoop ptr rbx (word + 1) (rax + 64) := by
  conv_lhs => unfold findFirstBitLoop
  simp [h]

/-- The bits of a word, by their numbers in the bitmap. -/
theorem getLsbD_word {word j : Nat} (hj : j < 64) :
    (ptr word).getLsbD j = bitAt ptr (64 * word + j) := by
  rw [bitAt, show (64 * word + j) / 64 = word by omega, show (64 * word + j) % 64 = j by omega]

/-- The loop finds the least bit at or after the start of its word. -/
theorem findFirstBitLoop_eq {i : Nat} (hi : bitAt ptr i = true) :
    ∀ rbx word : Nat, 64 * word ≤ i → i < 64 * (word + rbx + 1) →
      (∀ j, 64 * word ≤ j → j < i → bitAt ptr j = false) →
      findFirstBitLoop ptr rbx word (BitVec.ofNat 64 (64 * word)) = BitVec.ofNat 64 i := by
  -- A bit of the word itself is found at once.
  have hhere : ∀ rbx word : Nat, i / 64 = word →
      (∀ j, 64 * word ≤ j → j < i → bitAt ptr j = false) →
      findFirstBitLoop ptr rbx word (BitVec.ofNat 64 (64 * word)) = BitVec.ofNat 64 i := by
    intro rbx word hdiv hmin
    have hmod : i % 64 < 64 := Nat.mod_lt _ (by omega)
    have hfound : bsf (ptr word) = some (i % 64) := by
      refine bsf_eq_some.mpr ⟨by rw [← hdiv]; exact hi, hmod, fun j hj => ?_⟩
      rw [getLsbD_word (by omega)]
      exact hmin _ (by omega) (by omega)
    rw [findFirstBitLoop_of_some hfound, ← BitVec.ofNat_add]
    congr 1
    omega
  intro rbx
  induction rbx with
  | zero => intro word hge hlt hmin; exact hhere 0 word (by omega) hmin
  | succ rbx ih =>
      intro word hge hlt hmin
      by_cases hdiv : i / 64 = word
      · exact hhere _ word hdiv hmin
      · -- The word is zero, so the loop goes on to the next one.
        have hzero : bsf (ptr word) = none := by
          refine bsf_eq_none.mpr fun j hj => ?_
          rw [getLsbD_word hj]
          exact hmin _ (by omega) (by omega)
        have hrax : BitVec.ofNat 64 (64 * word) + 64 = BitVec.ofNat 64 (64 * (word + 1)) := by
          rw [Nat.mul_add, BitVec.ofNat_add]
          rfl
        rw [findFirstBitLoop_of_none hzero, hrax]
        exact ih (word + 1) (by omega) (by omega) fun j hj hji => hmin j (by omega) hji

/-- `find_first_bit_mem_64` finds the least set bit. -/
theorem findFirstBitMem64_eq {count : BitVec 64} {i : Nat} (hcount : count ≠ 0)
    (hi : bitAt ptr i = true) (hlt : i < 64 * count.toNat)
    (hmin : ∀ j, j < i → bitAt ptr j = false) :
    findFirstBitMem64 ptr count = BitVec.ofNat 32 i := by
  have hpos : count.toNat ≠ 0 := fun h => hcount (BitVec.eq_of_toNat_eq h)
  have hrbx : (count - 1).toNat = count.toNat - 1 := by
    have := count.isLt
    rw [BitVec.toNat_sub, show (1 : BitVec 64).toNat = 1 from rfl]
    omega
  have hloop := findFirstBitLoop_eq hi (count.toNat - 1) 0 (by omega) (by omega)
    fun j _ hj => hmin j hj
  rw [findFirstBitMem64, hrbx, show (0 : BitVec 64) = BitVec.ofNat 64 (64 * 0) from rfl, hloop]
  apply BitVec.eq_of_toNat_eq
  rw [BitVec.toNat_setWidth, BitVec.toNat_ofNat, BitVec.toNat_ofNat]
  omega

/-- `reset_bit_mem_64` clears its bit and no other. -/
theorem bitAt_resetBitMem64 (ptr : Nat → BitVec 64) (bit : BitIdx) (j : Nat) :
    bitAt (resetBitMem64 ptr bit) j = (bitAt ptr j && decide (j ≠ bit.toNat)) := by
  have hlt := bit.isLt
  have hbit : (bit.setWidth 64 : BitVec 64).toNat = bit.toNat := by
    rw [BitVec.toNat_setWidth]
    omega
  have hrax : ((bit.setWidth 64 : BitVec 64) &&& 0x3f).toNat = bit.toNat % 64 := by
    rw [BitVec.toNat_and, hbit]
    exact Nat.and_two_pow_sub_one_eq_mod _ 6
  have hoffset : (((bit.setWidth 64 : BitVec 64) &&& 0xffffffffffffffc0) >>> 3).toNat
      = 8 * (bit.toNat / 64) := by
    rw [BitVec.toNat_ushiftRight, Nat.shiftRight_eq_div_pow,
      show (0xffffffffffffffc0 : BitVec 64) = ~~~(BitVec.ofNat 64 (2 ^ 6 - 1)) by decide,
      toNat_and_blockMask, hbit]
    omega
  unfold bitAt resetBitMem64
  simp only [hrax, hoffset]
  by_cases hword : j / 64 = bit.toNat / 64
  · rw [hword, if_pos rfl, BitVec.getLsbD_and, BitVec.getLsbD_not]
    have h64 : j % 64 < 64 := Nat.mod_lt _ (by omega)
    congr 1
    rw [← BitVec.twoPow_eq, BitVec.getLsbD_twoPow]
    have heq : bit.toNat % 64 = j % 64 ↔ j = bit.toNat := by omega
    simp [h64, heq, Nat.mod_lt]
  · rw [if_neg (by omega)]
    have hne : j ≠ bit.toNat := fun h => hword (by rw [h])
    simp [hne]

/-! ### Taking all bits -/

/-- Over words of zero it ends with the invalid index. -/
theorem findFirstBitLoop_zero :
    ∀ rbx word : Nat, ∀ rax, (∀ w, word ≤ w → w ≤ word + rbx → ptr w = 0) →
      findFirstBitLoop ptr rbx word rax = INVALID_BIT_INDEX.setWidth 64 := by
  have hnone : ∀ word, ptr word = 0 → bsf (ptr word) = none := fun word h =>
    bsf_eq_none.mpr fun j _ => by rw [h]; exact BitVec.getLsbD_zero
  intro rbx
  induction rbx with
  | zero =>
      intro word rax h
      unfold findFirstBitLoop
      rw [hnone word (h word (Nat.le_refl _) (Nat.le_refl _))]
  | succ rbx ih =>
      intro word rax h
      rw [findFirstBitLoop_of_none (hnone word (h word (Nat.le_refl _) (by omega)))]
      exact ih (word + 1) _ fun w hge hle => h w (by omega) (by omega)

/-- `find_first_bit_mem_64` finds nothing in zeros. -/
theorem findFirstBitMem64_zero {count : BitVec 64} (hcount : count ≠ 0)
    (h : ∀ w < count.toNat, ptr w = 0) : findFirstBitMem64 ptr count = INVALID_BIT_INDEX := by
  have hpos : count.toNat ≠ 0 := fun h => hcount (BitVec.eq_of_toNat_eq h)
  have hrbx : (count - 1).toNat = count.toNat - 1 := by
    have := count.isLt
    rw [BitVec.toNat_sub, show (1 : BitVec 64).toNat = 1 from rfl]
    omega
  rw [findFirstBitMem64, hrbx, findFirstBitLoop_zero _ _ _ fun w _ hle => h w (by omega)]
  rfl

/-- The first bit is found, kept and cleared. -/
def takeTurn (count : BitVec 64) (s : (Nat → BitVec 64) × List BitIdx) :
    Except Fault (((Nat → BitVec 64) × List BitIdx) ⊕ ((Nat → BitVec 64) × List BitIdx)) :=
  let idx := findFirstBitMem64 s.1 count
  if idx ≠ INVALID_BIT_INDEX then .ok (.inl (resetBitMem64 s.1 idx, s.2 ++ [idx]))
  else .ok (.inr s)

/-- The bits are taken until there is none. -/
def takeBits (ptr : Nat → BitVec 64) (count : BitVec 64) :
    Except Fault ((Nat → BitVec 64) × List BitIdx) :=
  Loop.run .diverges (takeTurn count) (64 * count.toNat + 1) (ptr, [])

/-- The set bits among the first `n`, in increasing order. -/
def bitNumbers (ptr : Nat → BitVec 64) (n : Nat) : List Nat := (List.range n).filter (bitAt ptr)

/-- The numbers of the bits that are set. -/
theorem mem_bitNumbers {n i : Nat} : i ∈ bitNumbers ptr n ↔ i < n ∧ bitAt ptr i = true := by
  rw [bitNumbers, List.mem_filter, List.mem_range]

/-- They come in ascending order. -/
theorem pairwise_bitNumbers (ptr : Nat → BitVec 64) (n : Nat) :
    (bitNumbers ptr n).Pairwise (· < ·) :=
  List.pairwise_lt_range.filter _

/-- The head is the least set bit. -/
theorem least_of_bitNumbers {n i : Nat} {rest : List Nat} (h : bitNumbers ptr n = i :: rest) :
    i < n ∧ bitAt ptr i = true ∧ ∀ j < i, bitAt ptr j = false := by
  have hi := mem_bitNumbers.mp (h ▸ List.mem_cons_self : i ∈ bitNumbers ptr n)
  refine ⟨hi.1, hi.2, fun j hj => ?_⟩
  by_contra hset
  have hmem : j ∈ bitNumbers ptr n := mem_bitNumbers.mpr ⟨by omega, by simpa using hset⟩
  have hsorted := pairwise_bitNumbers ptr n
  rw [h] at hmem hsorted
  rcases List.mem_cons.mp hmem with heq | hrest
  · omega
  · have hlt := List.rel_of_pairwise_cons hsorted hrest
    omega

/-- Without the head, the others are left. -/
theorem bitNumbers_reset {n i : Nat} {rest : List Nat} (h : bitNumbers ptr n = i :: rest)
    {bit : BitIdx} (hbit : bit.toNat = i) : bitNumbers (resetBitMem64 ptr bit) n = rest := by
  have hsorted := pairwise_bitNumbers ptr n
  rw [h] at hsorted
  have hfilter : bitNumbers (resetBitMem64 ptr bit) n
      = (bitNumbers ptr n).filter fun j => decide (j ≠ i) := by
    rw [bitNumbers, bitNumbers, List.filter_filter]
    refine List.filter_congr fun j _ => ?_
    rw [bitAt_resetBitMem64, hbit, Bool.and_comm]
  rw [hfilter, h, List.filter_cons_of_neg (by simp), List.filter_eq_self]
  intro j hj
  have hlt := List.rel_of_pairwise_cons hsorted hj
  exact decide_eq_true (by omega)

/-- No set bit, no set word. -/
theorem bitNumbers_eq_nil {count : Nat} :
    bitNumbers ptr (64 * count) = [] ↔ ∀ w < count, ptr w = 0 := by
  constructor
  · intro h w hw
    refine BitVec.eq_of_getLsbD_eq fun j hj => ?_
    rw [getLsbD_word hj, show (0 : BitVec 64).getLsbD j = false from BitVec.getLsbD_zero]
    by_contra hset
    have hmem : 64 * w + j ∈ bitNumbers ptr (64 * count) :=
      mem_bitNumbers.mpr ⟨by omega, by simpa using hset⟩
    rw [h] at hmem
    exact absurd hmem List.not_mem_nil
  · intro h
    refine List.eq_nil_iff_forall_not_mem.mpr fun i hi => ?_
    obtain ⟨hlt, hset⟩ := mem_bitNumbers.mp hi
    rw [bitAt, h (i / 64) (by omega)] at hset
    simp at hset

/-- As long as the bits have numbers, one after the other is taken. -/
theorem run_takeTurn {count : BitVec 64} (hcount : count ≠ 0) :
    ∀ (bits : List Nat) (ptr : Nat → BitVec 64) (idxs : List BitIdx) (n : Nat),
      bitNumbers ptr (64 * count.toNat) = bits → (∀ i ∈ bits, i < INVALID_BIT_INDEX.toNat) →
      bits.length < n → ∃ ptr', Loop.run .diverges (takeTurn count) n (ptr, idxs)
        = .ok (ptr', idxs ++ bits.map (BitVec.ofNat 32)) ∧
          ∀ j, bitAt ptr' j = (bitAt ptr j && decide (j ∉ bits)) := by
  have hlast : INVALID_BIT_INDEX.toNat = 2 ^ 32 - 1 := by decide
  intro bits
  -- on the bits that are still set, of which each turn clears the least
  induction bits with
  | nil =>
      intro ptr idxs n hbits _ hn
      obtain ⟨n, rfl⟩ := Nat.exists_eq_succ_of_ne_zero (Nat.ne_of_gt hn)
      have hturn : takeTurn count (ptr, idxs) = .ok (.inr (ptr, idxs)) := by
        have hnone := findFirstBitMem64_zero hcount (bitNumbers_eq_nil.mp hbits)
        unfold takeTurn
        dsimp only
        rw [hnone, if_neg (fun h => h rfl)]
      refine ⟨ptr, ?_, fun j => ?_⟩
      · rw [Loop.run_exit hturn, List.map_nil, List.append_nil]
      · simp
  | cons i bits ih =>
      intro ptr idxs n hbits hsmall hn
      obtain ⟨n, rfl⟩ := Nat.exists_eq_succ_of_ne_zero (Nat.ne_of_gt (Nat.zero_lt_of_lt hn))
      obtain ⟨hlt, hset, hmin⟩ := least_of_bitNumbers hbits
      have hi := hsmall i (.head _)
      have hbit : (BitVec.ofNat 32 i).toNat = i := by
        rw [BitVec.toNat_ofNat]
        omega
      have hvalid : BitVec.ofNat 32 i ≠ INVALID_BIT_INDEX := fun heq => by
        rw [← heq, hbit] at hi
        omega
      have hturn : takeTurn count (ptr, idxs)
          = .ok (.inl (resetBitMem64 ptr (BitVec.ofNat 32 i), idxs ++ [BitVec.ofNat 32 i])) := by
        unfold takeTurn
        dsimp only
        rw [findFirstBitMem64_eq hcount hset hlt hmin, if_pos hvalid]
      rw [List.length_cons] at hn
      obtain ⟨ptr', hrun, hbits'⟩ := ih (resetBitMem64 ptr (BitVec.ofNat 32 i))
        (idxs ++ [BitVec.ofNat 32 i]) n (bitNumbers_reset hbits hbit)
        (fun j hj => hsmall j (.tail _ hj)) (by omega)
      refine ⟨ptr', ?_, fun j => ?_⟩
      · rw [Loop.run_continue hturn, hrun, List.map_cons, List.append_assoc, List.singleton_append]
      · rw [hbits', bitAt_resetBitMem64, hbit, Bool.and_assoc]
        simp [List.mem_cons, not_or]

/-! ### All bitmaps -/

/-- What is expected of the two routines on the `count` words at `ptr`. -/
structure BitmapLaws (ptr : Nat → BitVec 64) (count : BitVec 64) : Prop where
  least : ∀ i < 64 * count.toNat, bitAt ptr i = true → (∀ j < i, bitAt ptr j = false) →
    (findFirstBitMem64 ptr count).toNat = i
  invalid : findFirstBitMem64 ptr count = INVALID_BIT_INDEX ↔ ∀ w < count.toNat, ptr w = 0
  reset : ∀ i < 64 * count.toNat, bitAt ptr i = true → (∀ j < i, bitAt ptr j = false) →
    ∀ j, bitAt (resetBitMem64 ptr (findFirstBitMem64 ptr count)) j
      = (bitAt ptr j && decide (j ≠ i))
  taken : ∃ ptr' idxs, takeBits ptr count = .ok (ptr', idxs) ∧
    idxs.map BitVec.toNat = bitNumbers ptr (64 * count.toNat) ∧
    ∀ j, bitAt ptr' j = (bitAt ptr j && decide (64 * count.toNat ≤ j))

section Laws

variable {count : BitVec 64}

/-- The bits that are taken have numbers. -/
theorem takeBits_valid {ptr' : Nat → BitVec 64} {idxs : List BitIdx}
    (h : takeBits ptr count = .ok (ptr', idxs)) : INVALID_BIT_INDEX ∉ idxs := by
  refine Loop.run_invariant (fun s : (Nat → BitVec 64) × List BitIdx => INVALID_BIT_INDEX ∉ s.2)
    (fun s => INVALID_BIT_INDEX ∉ s.2) ?_ _ _ _ List.not_mem_nil h
  intro s r hs hr
  unfold takeTurn at hr
  dsimp only at hr
  split at hr
  · rename_i hvalid
    obtain rfl := Except.ok.inj hr
    rw [Sum.elim_inl, List.mem_append, List.mem_singleton, not_or]
    exact ⟨hs, fun heq => hvalid heq.symm⟩
  · obtain rfl := Except.ok.inj hr
    exact hs

/-- The laws hold of an array whose set bits have all numbers below the invalid one. This is so
of every array that is not larger than 2³² - 1 bits. -/
theorem bitmapLaws_of_small (hcount : count ≠ 0)
    (hsmall : ∀ i < 64 * count.toNat, bitAt ptr i = true → i < INVALID_BIT_INDEX.toNat) :
    BitmapLaws ptr count := by
  have hlast : INVALID_BIT_INDEX.toNat = 2 ^ 32 - 1 := by decide
  have hnat : ∀ i < INVALID_BIT_INDEX.toNat, (BitVec.ofNat 32 i).toNat = i := by
    intro i hi
    rw [BitVec.toNat_ofNat]
    omega
  -- The function finds the least bit, and its number fits the result.
  have hleast : ∀ i < 64 * count.toNat, bitAt ptr i = true → (∀ j < i, bitAt ptr j = false) →
      (findFirstBitMem64 ptr count).toNat = i := by
    intro i hlt hset hmin
    rw [findFirstBitMem64_eq hcount hset hlt hmin]
    exact hnat i (hsmall i hlt hset)
  have hbits : ∀ i ∈ bitNumbers ptr (64 * count.toNat), i < INVALID_BIT_INDEX.toNat := fun i hi =>
    hsmall i (mem_bitNumbers.mp hi).1 (mem_bitNumbers.mp hi).2
  refine ⟨hleast, ⟨fun h => ?_, findFirstBitMem64_zero hcount⟩, fun i hlt hset hmin j => ?_, ?_⟩
  · -- A set bit would have a number, and be found.
    rw [← bitNumbers_eq_nil]
    cases hb : bitNumbers ptr (64 * count.toNat) with
    | nil => rfl
    | cons i rest =>
        obtain ⟨hlt, hset, hmin⟩ := least_of_bitNumbers hb
        have hi := hleast i hlt hset hmin
        rw [h] at hi
        have hvalid := hsmall i hlt hset
        omega
  · rw [bitAt_resetBitMem64, hleast i hlt hset hmin]
  · -- With each turn there is one bit less, so the loop over the bits ends.
    have hlen : (bitNumbers ptr (64 * count.toNat)).length < 64 * count.toNat + 1 := by
      have hle := List.length_filter_le (bitAt ptr) (List.range (64 * count.toNat))
      rw [List.length_range] at hle
      rw [bitNumbers]
      omega
    obtain ⟨ptr', hrun, hptr⟩ := run_takeTurn hcount _ ptr [] _ rfl hbits hlen
    refine ⟨ptr', _, hrun, ?_, fun j => ?_⟩
    · rw [List.nil_append, List.map_map]
      exact (List.map_congr_left (g := id) fun i hi => hnat i (hbits i hi)).trans (List.map_id _)
    · rw [hptr]
      cases hset : bitAt ptr j with
      | false => rfl
      | true => simp [mem_bitNumbers, hset]

/-- The laws hold exactly for the bitmaps whose set bits have numbers below the one that
stands for no bit. -/
theorem bitmapLaws_iff (hcount : count ≠ 0) : BitmapLaws ptr count ↔
    ∀ i < 64 * count.toNat, bitAt ptr i = true → i < INVALID_BIT_INDEX.toNat := by
  refine ⟨fun h i hi hset => ?_, bitmapLaws_of_small hcount⟩
  obtain ⟨ptr', idxs, hrun, hidxs, -⟩ := h.taken
  have hmem : i ∈ idxs.map BitVec.toNat := by
    rw [hidxs]
    exact mem_bitNumbers.mpr ⟨hi, hset⟩
  obtain ⟨idx, hidx, rfl⟩ := List.mem_map.mp hmem
  have hne : idx.toNat ≠ INVALID_BIT_INDEX.toNat := fun heq =>
    takeBits_valid hrun (BitVec.eq_of_toNat_eq heq ▸ hidx)
  have hlast : INVALID_BIT_INDEX.toNat = 2 ^ 32 - 1 := by decide
  have hlt := idx.isLt
  omega

end Laws

/-- Three words, of which the second has no bit. -/
theorem bitmapLaws_iff_words :
    BitmapLaws (fun w => if w = 0 then 0x8000000000000005 else if w = 1 then 0 else 0xf0) 3 :=
  (bitmapLaws_iff (by decide)).mpr fun i hi _ => Nat.lt_trans hi (by decide)

/-- In a bitmap of 512 MB whose last bit alone is set, none is found. -/
theorem not_bitmapLaws_last :
    ¬ BitmapLaws (fun w => if w = 2 ^ 26 - 1 then 1#64 <<< 63 else 0)
      (BitVec.ofNat 64 (2 ^ 26)) := by
  intro h
  have hcount : (BitVec.ofNat 64 (2 ^ 26)).toNat = 2 ^ 26 := by decide
  have hfirst : findFirstBitMem64 (fun w => if w = 2 ^ 26 - 1 then 1#64 <<< 63 else 0)
      (BitVec.ofNat 64 (2 ^ 26)) = BitVec.ofNat 32 (2 ^ 32 - 1) := by
    refine findFirstBitMem64_eq (by decide) (by decide) (by decide) fun j hj => ?_
    by_cases hw : j / 64 = 2 ^ 26 - 1
    · have hlow : j % 64 < 63 := by omega
      rw [bitAt, if_pos hw, BitVec.getLsbD_shiftLeft]
      simp [hlow]
    · rw [bitAt, if_neg hw]
      exact BitVec.getLsbD_zero
  have hword := h.invalid.mp hfirst (2 ^ 26 - 1) (by rw [hcount]; omega)
  rw [if_pos rfl] at hword
  exact absurd hword (by decide)

end MString
