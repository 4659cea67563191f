import MString.Proofs.Mm.BuddyRuns

/-!
# `MString.Proofs.Mm.BuddyInit`: the bitmaps of a fresh buddy

Three computations have to agree on the size of a bitmap: `bbuddy_size`, the distance
from `pbmp` to `nbmp`, and the number of words that the loop of `bbuddy_init` writes. The
first two do. The loop writes no word for less than 32 smallest blocks, and from 96 on it
writes more words than a bitmap has, so the end of `pbmp` goes over the start of `nbmp`.

* `InitRight`: what a fresh buddy has to look like.
* `freeBit_init_wide`: a wide buddy starts with a free block inside the root.
* `bbuddyInit_iff`: the sizes for which a fresh buddy is right.
-/

set_option autoImplicit false

namespace MString

open HeapTree Bbuddy

/-- Both bitmaps have a place for every block, one behind the other in the area, and say
that the root is free and no block is separated. -/
structure InitRight (maxPart : Nat) (b : Bbuddy) : Prop where
  /-- Two bitmaps of `nbmpAt` words. -/
  inside : BBUDDY_T_SIZE + 4 * (b.nbmpAt + b.nbmpAt) ≤ bbuddySize maxPart
  room : ∀ B : BuddyBlock, B.Valid maxPart →
    bbuddyIndexp B.align B.num < b.nbmpAt ∧ nIndx B.align B.num < 32
  free : ∀ B : BuddyBlock, B.Valid maxPart → (freeBit b B = true ↔ B = ⟨1, 0⟩)
  whole : ∀ B : BuddyBlock, B.Valid maxPart → wholeBit b B = true

/-- The two words behind a `bbuddy_t` say so already. -/
def ReadyWords (maxPart : Nat) (words : Nat → BitVec 32) : Prop :=
  ∀ B : BuddyBlock, B.Valid maxPart →
    (words 0).getLsbD B.node = true ∧ ((words 1).getLsbD B.node = true → B = ⟨1, 0⟩)

section Init

variable {M maxPart : Nat} {words : Nat → BitVec 32} {b b0 : Bbuddy} {B : BuddyBlock}

/-- `bbuddy_init` on areas that overlap: word 0 of `nbmp` is filled with that word of
`pbmp`. -/
theorem init_words_wide (words : Nat → BitVec 32) (at' pn N : Nat) :
    let b := (List.range N).foldl (fun b i => (b.setNbmp i NIL).setPbmp i FIL)
      (⟨words, at', pn⟩ : Bbuddy)
    b.nbmpAt = at' ∧ b.pn = pn ∧ (at' < N → b.nbmp 0 = FIL) := by
  induction N with
  | zero => simp
  | succ N ih =>
      obtain ⟨hat, hpn, hfil⟩ := ih
      rw [List.range_succ, List.foldl_append]
      generalize (List.range N).foldl _ _ = b at *
      refine ⟨hat, hpn, fun hN => ?_⟩
      simp only [List.foldl_cons, List.foldl_nil, nbmp, setPbmp, setNbmp, Function.update_apply,
        hat, Nat.add_zero]
      by_cases heq : at' = N
      · rw [if_pos heq]
      · have hkept := hfil (by omega)
        rw [nbmp, hat] at hkept
        rw [if_neg heq, if_neg (by omega)]
        exact hkept

/-- `pn` is the size that was asked for. -/
theorem bbuddyInit_pn (hinit : bbuddyInit (some words) maxPart = some b) : b.pn = maxPart := by
  have hpos : maxPart ≠ 0 := by
    rintro rfl
    cases hinit
  simp only [bbuddyInit, if_neg hpos, Option.some.injEq] at hinit
  rw [← hinit]
  exact (init_words_wide words _ maxPart _).2.1

/-- In a fresh buddy of 96 or more smallest blocks the root is not the only free one. -/
theorem freeBit_init_wide (hM : 96 ≤ M)
    (hinit : bbuddyInit (some words) M = some b0) : freeBit b0 ⟨2, 0⟩ = true := by
  have hpos : M ≠ 0 := by omega
  simp only [bbuddyInit, if_neg hpos, Option.some.injEq] at hinit
  rw [if_pos (by omega)] at hinit
  obtain ⟨-, -, hfil⟩ := init_words_wide words (M / 32 + 2) M (M / 32 * 2)
  have hword := hfil (by omega)
  generalize (List.range (M / 32 * 2)).foldl _ _ = b at *
  have hbit : b.freeAt 2 = true := by
    rw [freeAt, show 2 / 32 = 0 from rfl, hword]
    decide
  have hzero : (b.markNbmp 0 0).freeAt 2 = true := by
    rw [freeAt_markNbmp (h := 0), hbit]
    rfl
  have hone : ((b.markNbmp 0 0).markNbmp 0 1).freeAt 2 = true := by
    rw [freeAt_markNbmp (h := 1), hzero]
    rfl
  rw [← hinit]
  exact hone

/-- The place of a block in the two bitmaps, for less than 128 smallest blocks. -/
theorem BuddyBlock.Valid.place (hB : B.Valid maxPart) (hsize : maxPart < 128) :
    bbuddyIndexp B.align B.num = B.node / 32 ∧ nIndx B.align B.num = B.node % 32 := by
  obtain ⟨i, hi, hle, hnum⟩ := hB
  have hlarge : i ≤ 6 := layer_le (by omega)
  rw [BuddyBlock.node, hi]
  exact node_index hlarge hnum

/-- The nodes of a layer end where those of the next one start. -/
theorem BuddyBlock.Valid.node_lt_of (hB : B.Valid maxPart) {L : Nat} (h : maxPart < 2 ^ L) :
    B.node < 2 ^ L := by
  obtain ⟨i, hi, hle, hnum⟩ := hB
  have hiL : 2 ^ i < 2 ^ L := Nat.lt_of_le_of_lt hle h
  have hsucc : 2 ^ (i + 1) ≤ 2 ^ L :=
    Nat.pow_le_pow_right (by omega) ((Nat.pow_lt_pow_iff_right (by omega)).mp hiL)
  rw [Nat.pow_succ] at hsucc
  rw [BuddyBlock.node, hi]
  omega

/-- The root is the block of the whole memory. -/
theorem BuddyBlock.Valid.node_eq_one (hB : B.Valid maxPart) : B.node = 1 ↔ B = ⟨1, 0⟩ := by
  obtain ⟨i, hi, -, hnum⟩ := hB
  have hpos := Nat.two_pow_pos i
  constructor
  · intro h
    rw [BuddyBlock.node, hi] at h
    obtain ⟨align, num⟩ := B
    simp only [BuddyBlock.mk.injEq]
    simp only at hi hnum
    omega
  · rintro rfl
    rfl

/-- For 32 up to 95 smallest blocks. -/
theorem initRight_middle (hlow : 32 ≤ maxPart) (hhigh : maxPart < 96)
    (hinit : bbuddyInit (some words) maxPart = some b) : InitRight maxPart b := by
  obtain ⟨hat, -, hflags⟩ := init_flags hlow hhigh hinit
  have hword : ∀ B : BuddyBlock, B.Valid maxPart → B.node / 32 < b.nbmpAt := by
    intro B hB
    by_cases h64 : maxPart < 64
    · have := hB.node_lt_of (L := 6) h64
      omega
    · have := hB.node_lt_of (L := 7) (by omega)
      omega
  refine ⟨?_, fun B hB => ?_, fun B hB => ?_, fun B hB => ?_⟩
  · rw [bbuddySize, hat, if_neg (by omega)]
    split <;> omega
  · obtain ⟨hp, hn⟩ := hB.place (by omega)
    rw [hp, hn]
    exact ⟨hword B hB, Nat.mod_lt _ (by omega)⟩
  · obtain ⟨hp, hn⟩ := hB.place (by omega)
    have hpos := hB.node_pos
    rw [freeBit, hp, hn, ← freeAt, (hflags _ (hword B hB)).1, ← hB.node_eq_one]
    omega
  · obtain ⟨hp, hn⟩ := hB.place (by omega)
    rw [wholeBit, hp, hn, ← wholeAt]
    exact (hflags _ (hword B hB)).2

/-- For less than 32, where the loop has no turn. -/
theorem initRight_small (hhigh : maxPart < 32)
    (hinit : bbuddyInit (some words) maxPart = some b) :
    InitRight maxPart b ↔ ReadyWords maxPart words := by
  have hpos : maxPart ≠ 0 := by
    rintro rfl
    cases hinit
  have hw : maxPart / 32 = 0 := by omega
  simp only [bbuddyInit, if_neg hpos, hw, Option.some.injEq] at hinit
  have hb : b = ((⟨words, 1, maxPart⟩ : Bbuddy).markNbmp 0 0).markNbmp 0 1 := hinit.symm
  have hat : b.nbmpAt = 1 := by rw [hb]; rfl
  have hlt : ∀ B : BuddyBlock, B.Valid maxPart → B.node < 32 :=
    fun B hB => hB.node_lt_of (L := 5) hhigh
  -- `init` sets two flags of the first word and leaves the other words as they were.
  have hfree : ∀ B : BuddyBlock, B.Valid maxPart →
      freeBit b B = ((words 1).getLsbD B.node || decide (B.node = 1)) := by
    intro B hB
    have hn := hlt B hB
    have hpos := hB.node_pos
    obtain ⟨hp, hbit⟩ := hB.place (by omega)
    have hone := @freeAt_markNbmp ((⟨words, 1, maxPart⟩ : Bbuddy).markNbmp 0 0) 1 B.node
    have hzero := @freeAt_markNbmp (⟨words, 1, maxPart⟩ : Bbuddy) 0 B.node
    simp only [Nat.zero_mod, show 1 / 32 = 0 from rfl, show 1 % 32 = 1 from rfl] at hone hzero
    rw [freeBit, hp, hbit, ← freeAt, hb, hone, hzero, freeAt, Nat.div_eq_of_lt hn,
      Nat.mod_eq_of_lt hn, decide_eq_false (show ¬ B.node = 0 by omega), Bool.or_false]
    rfl
  have hwhole : ∀ B : BuddyBlock, B.Valid maxPart → wholeBit b B = (words 0).getLsbD B.node := by
    intro B hB
    have hn := hlt B hB
    have hword : B.node / 32 < 1 := by omega
    obtain ⟨hp, hbit⟩ := hB.place (by omega)
    rw [wholeBit, hp, hbit, ← wholeAt, hb, markNbmp, wholeAt_setNbmp (by exact hword), markNbmp,
      wholeAt_setNbmp (by exact hword), wholeAt, Nat.div_eq_of_lt hn, Nat.mod_eq_of_lt hn]
    rfl
  -- All flags lie in the two words, so the words decide what `init` leaves behind.
  constructor
  · intro hright B hB
    refine ⟨(hwhole B hB).symm.trans (hright.whole B hB), fun hset => (hright.free B hB).mp ?_⟩
    rw [hfree B hB, hset]
    rfl
  · intro hready
    refine ⟨?_, fun B hB => ?_, fun B hB => ?_, fun B hB => ?_⟩
    · rw [bbuddySize, hat, if_pos hw]
      omega
    · obtain ⟨hp, hbit⟩ := hB.place (by omega)
      have hn := hlt B hB
      rw [hp, hbit, hat]
      omega
    · rw [hfree B hB, Bool.or_eq_true, decide_eq_true_iff, hB.node_eq_one]
      exact ⟨fun h => h.elim (hready B hB).2 id, .inr⟩
    · rw [hwhole B hB]
      exact (hready B hB).1

/-- A fresh buddy is right exactly when it has 32 up to 95 smallest blocks, or less and the
memory held these bits before. -/
theorem bbuddyInit_iff (words : Nat → BitVec 32) (hpos : 1 ≤ maxPart) :
    ∃ b, bbuddyInit (some words) maxPart = some b ∧
      (InitRight maxPart b ↔
        (32 ≤ maxPart ∧ maxPart < 96) ∨ (maxPart < 32 ∧ ReadyWords maxPart words)) := by
  have hne : maxPart ≠ 0 := by omega
  obtain ⟨b, hinit⟩ : ∃ b, bbuddyInit (some words) maxPart = some b :=
    ⟨_, by rw [bbuddyInit]; exact if_neg hne⟩
  refine ⟨b, hinit, ?_⟩
  by_cases hsmall : maxPart < 32
  · rw [initRight_small hsmall hinit]
    exact ⟨fun h => .inr ⟨hsmall, h⟩, fun h => h.elim (fun h => by omega) And.right⟩
  · by_cases hwide : maxPart < 96
    · have hlow : 32 ≤ maxPart := by omega
      exact iff_of_true (initRight_middle hlow hwide hinit) (.inl ⟨hlow, hwide⟩)
    · refine iff_of_false (fun hright => ?_) (by omega)
      have hvalid : BuddyBlock.Valid maxPart ⟨2, 0⟩ := ⟨1, rfl, by omega, by decide⟩
      have hfree := freeBit_init_wide (by omega) hinit
      exact absurd ((hright.free _ hvalid).mp hfree) (by decide)

end Init

/-- A buddy of 64 smallest blocks. -/
theorem bbuddyInit_iff_64 : ∃ b, bbuddyInit (some fun i => BitVec.ofNat 32 i) 64 = some b ∧
    InitRight 64 b := by
  obtain ⟨b, hinit, hright⟩ := bbuddyInit_iff (fun i => BitVec.ofNat 32 i) (show 1 ≤ 64 by decide)
  exact ⟨b, hinit, hright.mpr (.inl (by decide))⟩

/-- On cleared memory a buddy of 128 smallest blocks has a free block inside the root. -/
theorem not_initRight_128 : ∃ b, bbuddyInit (some fun _ => 0) 128 = some b ∧ ¬ InitRight 128 b := by
  refine ⟨_, rfl, fun hright => ?_⟩
  have hfree := (hright.free ⟨2, 0⟩ ⟨1, rfl, by decide, by decide⟩).mp (by decide +kernel)
  cases hfree

end MString
