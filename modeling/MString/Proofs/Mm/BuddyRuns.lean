import MString.Proofs.Mm.Bbuddy

/-!
# `MString.Proofs.Mm.BuddyRuns`: allocations and releases in any order

A `BuddyRun` is a sequence of allocations and releases of live blocks, each of which
meets a condition. The list of live blocks is kept beside the buddy.

* `tracked_init` and `Tracked.step`: a buddy of 32 or 64 smallest blocks keeps exact
  books, as long as no release sweeps the flag of a block that stays separated.
* `buddyRun_sound`: so live blocks are disjoint and free blocks are clear of them.
* `buddyRun_overlaps`: four blocks, of which two are released as a pair. The flags that
  the join of the two sweeps let the next release free the whole area.
-/

set_option autoImplicit false

namespace MString

open HeapTree Bbuddy

/-- The block `num` of the layer `align`. -/
structure BuddyBlock where
  align : Nat
  num : Nat
deriving DecidableEq, Repr

namespace BuddyBlock

/-- The node of the tree that the block is. -/
def node (B : BuddyBlock) : Nat := B.align + B.num

/-- Its first index in the smallest layer. -/
def first (M : Nat) (B : BuddyBlock) : Nat := B.num * (M / B.align)

/-- The block contains the unit `u` of the smallest layer. -/
def Covers (M : Nat) (B : BuddyBlock) (u : Nat) : Prop := u < M ∧ u / (M / B.align) = B.num

/-- The block lies in a layer of the buddy, at an index of this layer. -/
def Valid (M : Nat) (B : BuddyBlock) : Prop := ∃ i, B.align = 2 ^ i ∧ 2 ^ i ≤ M ∧ B.num < 2 ^ i

end BuddyBlock

/-- The free bit of a block. -/
def freeBit (b : Bbuddy) (B : BuddyBlock) : Bool :=
  (b.nbmp (bbuddyIndexp B.align B.num)).getLsbD (nIndx B.align B.num)

/-- The not-separated bit of a block. -/
def wholeBit (b : Bbuddy) (B : BuddyBlock) : Bool :=
  (b.pbmp (bbuddyIndexp B.align B.num)).getLsbD (nIndx B.align B.num)

/-! ### Runs -/

/-- A call of the allocator. -/
inductive BuddyOp where
  | alloc (align : Nat)
  | release (B : BuddyBlock)

/-- The layer is one of the buddy's, the block is live. -/
def BuddyOp.Allowed (M : Nat) (live : List BuddyBlock) : BuddyOp → Prop
  | .alloc align => (∃ i, align = 2 ^ i) ∧ align ≤ M
  | .release B => B ∈ live

/-- One operation on the buddy and the list of live blocks. -/
def buddyStep (M : Nat) (s : Bbuddy × List BuddyBlock) :
    BuddyOp → Except Fault (Bbuddy × List BuddyBlock)
  | .alloc align => do
      let (b, r) ← bbuddyBlockAlloc s.1 align
      .ok (b, if r = ENOBLOCK then s.2 else ⟨align, r⟩ :: s.2)
  | .release B => do
      let (b, _) ← bbuddyBlockRelease s.1 (B.first M)
      .ok (b, s.2.erase B)

/-- A sequence of operations that all meet the condition `ok`. -/
inductive BuddyRun (M : Nat) (ok : List BuddyBlock → BuddyOp → Prop) (b : Bbuddy) :
    Bbuddy × List BuddyBlock → Prop
  | refl : BuddyRun M ok b (b, [])
  | step {s s' : Bbuddy × List BuddyBlock} {op : BuddyOp} (before : BuddyRun M ok b s)
      (hop : op.Allowed M s.2) (hok : ok s.2 op) (call : buddyStep M s op = .ok s') :
      BuddyRun M ok b s'

/-- Live blocks are disjoint, and no block whose free bit is set has a unit of one of
them. -/
def BuddySound (M : Nat) (s : Bbuddy × List BuddyBlock) : Prop :=
  s.2.Pairwise (fun B C => ∀ u, ¬ (B.Covers M u ∧ C.Covers M u)) ∧
    ∀ B ∈ s.2, ∀ C : BuddyBlock, C.Valid M → freeBit s.1 C = true →
      ∀ u, ¬ (B.Covers M u ∧ C.Covers M u)

/-! ### Blocks and nodes -/

section Blocks

variable {M L : Nat} {B C : BuddyBlock} {b : Bbuddy} {live : List BuddyBlock}

/-- A block is a node of the tree, ... -/
theorem BuddyBlock.Valid.node_pos (hB : B.Valid M) : 1 ≤ B.node := by
  obtain ⟨i, hi, -, -⟩ := hB
  have := Nat.two_pow_pos i
  unfold BuddyBlock.node
  omega

/-- ... below its last one. -/
theorem BuddyBlock.Valid.node_lt (hB : B.Valid M) : B.node < 2 * M := by
  obtain ⟨i, hi, hle, hnum⟩ := hB
  unfold BuddyBlock.node
  omega

/-- The units of a block are the leaves below its node. -/
theorem covers_iff {u : Nat} (hM : M = 2 ^ L) (hB : B.Valid M) :
    B.Covers M u ↔ u < M ∧ Anc B.node (M + u) := by
  obtain ⟨i, hi, hle, hnum⟩ := hB
  have hiL : i ≤ L := by
    rw [hM] at hle
    exact (Nat.pow_le_pow_iff_right (by omega)).mp hle
  have hunits : M / B.align = 2 ^ (L - i) := by
    rw [hM, hi, Nat.pow_div hiL (by omega)]
  have hanc : (M + u) / 2 ^ (L - i) = 2 ^ i + u / 2 ^ (L - i) := by
    rw [hM, show L = i + (L - i) by omega, Nat.pow_add, Nat.mul_comm, Nat.add_sub_cancel_left,
      Nat.mul_add_div (Nat.two_pow_pos _)]
  refine and_congr_right fun hu => ?_
  rw [hunits, BuddyBlock.node, hi]
  constructor
  · intro heq
    exact ⟨L - i, by rw [hanc, heq]⟩
  · intro hB
    have hlt : u / 2 ^ (L - i) < 2 ^ i := by
      rw [Nat.div_lt_iff_lt_mul (Nat.two_pow_pos _), ← Nat.pow_add,
        show i + (L - i) = L by omega, ← hM]
      exact hu
    have hnode : Anc (2 ^ i + u / 2 ^ (L - i)) (M + u) := ⟨L - i, hanc⟩
    generalize u / 2 ^ (L - i) = v at *
    rcases anc_total hB hnode with h | h
    · have := h.eq_of_lt (by omega)
      omega
    · have := h.eq_of_lt (by omega)
      omega

/-- Every node is a block. -/
theorem exists_block {x : Nat} (hM : M = 2 ^ L) (h1 : 1 ≤ x) (hx : x < 2 * M) :
    ∃ C : BuddyBlock, C.Valid M ∧ C.node = x := by
  have hlo : 2 ^ Nat.log2 x ≤ x := Nat.log2_self_le (by omega)
  have hhi : x < 2 ^ (Nat.log2 x + 1) := Nat.lt_log2_self
  have hlt : 2 ^ Nat.log2 x < 2 ^ (L + 1) := by
    rw [Nat.pow_succ, ← hM]
    omega
  rw [Nat.pow_lt_pow_iff_right (by omega)] at hlt
  rw [Nat.pow_succ] at hhi
  have hle : 2 ^ Nat.log2 x ≤ M := hM ▸ Nat.pow_le_pow_right (by omega) (by omega)
  exact ⟨⟨2 ^ Nat.log2 x, x - 2 ^ Nat.log2 x⟩,
    ⟨Nat.log2 x, rfl, hle, show x - 2 ^ Nat.log2 x < _ by omega⟩, Nat.add_sub_cancel' hlo⟩

/-- A block heads the leaf of its first index, and no other one. -/
theorem BuddyBlock.Valid.heads_iff {num : Nat} (hM : M = 2 ^ L) (hB : B.Valid M) (hnum : num < M) :
    Heads B.node (M + num) ↔ B.first M = num := by
  obtain ⟨i, hi, hle, hBnum⟩ := hB
  have hiL : i ≤ L := by rwa [hM, Nat.pow_le_pow_iff_right (by omega)] at hle
  have hpow : M = 2 ^ i * 2 ^ (L - i) := by rw [hM, ← Nat.pow_add, Nat.add_sub_cancel' hiL]
  have hunits : M / 2 ^ i = 2 ^ (L - i) := by rw [hM, Nat.pow_div hiL (by omega)]
  have hleaf : B.node * 2 ^ (L - i) = M + B.num * 2 ^ (L - i) := by
    rw [BuddyBlock.node, hi, Nat.add_mul, ← hpow]
  have hpos := Nat.two_pow_pos i
  rw [BuddyBlock.first, hi, hunits]
  constructor
  · rintro ⟨d, hd⟩
    -- The leaves are `L - i` layers below the block.
    have hlow : 2 ^ (i + d) < 2 ^ (L + 1) := by
      have : 2 ^ i * 2 ^ d ≤ B.node * 2 ^ d :=
        Nat.mul_le_mul_right _ (by rw [BuddyBlock.node]; omega)
      rw [Nat.pow_succ, ← hM, Nat.pow_add]
      omega
    have hhigh : 2 ^ L < 2 ^ (i + 1 + d) := by
      have : B.node * 2 ^ d < 2 ^ i * 2 * 2 ^ d :=
        Nat.mul_lt_mul_of_pos_right (by rw [BuddyBlock.node]; omega) (Nat.two_pow_pos d)
      rw [← hM, Nat.pow_add, Nat.pow_succ]
      omega
    rw [Nat.pow_lt_pow_iff_right (by omega)] at hlow hhigh
    obtain rfl : d = L - i := by omega
    omega
  · intro h
    exact ⟨L - i, by omega⟩

/-- Blocks that do not meet share no unit. -/
theorem disjoint_of_not_meets (hM : M = 2 ^ L) (hB : B.Valid M) (hC : C.Valid M)
    (h : ¬ Meets B.node C.node) (u : Nat) : ¬ (B.Covers M u ∧ C.Covers M u) := by
  rw [covers_iff hM hB, covers_iff hM hC]
  rintro ⟨⟨-, hBu⟩, -, hCu⟩
  exact h (anc_total hBu hCu)

/-- In a small buddy, the bit that the code reads for a block is the one of its node, ... -/
theorem freeBit_eq (hsize : M = 32 ∨ M = 64) (hB : B.Valid M) : freeBit b B = b.freeAt B.node := by
  obtain ⟨i, hi, hle, hnum⟩ := hB
  have hlarge : i ≤ 6 := layer_le (by omega)
  obtain ⟨hp, hn⟩ := node_index hlarge hnum
  rw [freeBit, hi, hp, hn, freeAt, BuddyBlock.node, hi]

/-- ... in both bitmaps. -/
theorem wholeBit_eq (hsize : M = 32 ∨ M = 64) (hB : B.Valid M) :
    wholeBit b B = b.wholeAt B.node := by
  obtain ⟨i, hi, hle, hnum⟩ := hB
  have hlarge : i ≤ 6 := layer_le (by omega)
  obtain ⟨hp, hn⟩ := node_index hlarge hnum
  rw [wholeBit, hi, hp, hn, wholeAt, BuddyBlock.node, hi]

/-- The nodes of a list of blocks. -/
def nodesOf (live : List BuddyBlock) : Set Nat := {h | ∃ B ∈ live, B.node = h}

/-- No block is in use. -/
@[simp] theorem nodesOf_nil : nodesOf [] = ∅ := by
  simp [nodesOf]

/-- One more block is. -/
@[simp] theorem nodesOf_cons : nodesOf (B :: live) = insert B.node (nodesOf live) := by
  ext h
  simp [nodesOf, eq_comm]

/-- The order of the blocks does not matter. -/
theorem nodesOf_perm {live' : List BuddyBlock} (h : live.Perm live') :
    nodesOf live = nodesOf live' := by
  ext x
  simp [nodesOf, h.mem_iff]

/-- A block that meets none of those in use is clear. -/
theorem clear_nodesOf (h : ∀ C ∈ live, ¬ Meets B.node C.node) : Clear (nodesOf live) B.node := by
  rintro l ⟨C, hC, rfl⟩ hm
  exact h C hC hm.symm

end Blocks

/-! ### The invariant -/

/-- The books are exact for the live blocks, which do not meet. -/
structure Tracked (M : Nat) (s : Bbuddy × List BuddyBlock) : Prop where
  books : BuddyBooks M (nodesOf s.2) s.1
  valid : ∀ B ∈ s.2, B.Valid M
  apart : s.2.Pairwise fun B C => ¬ Meets B.node C.node

/-- The books are what soundness asks for. -/
theorem Tracked.sound {M L : Nat} {s : Bbuddy × List BuddyBlock} (hM : M = 2 ^ L)
    (hs : Tracked M s) : BuddySound M s := by
  refine ⟨?_, fun B hB C hC hfree u => ?_⟩
  · refine hs.apart.imp_of_mem fun {B C} hB hC h u => ?_
    exact disjoint_of_not_meets hM (hs.valid B hB) (hs.valid C hC) h u
  · rw [freeBit_eq hs.books.small.size hC] at hfree
    have hclear := ((hs.books.free _ hC.node_pos hC.node_lt).mp hfree).1
    exact disjoint_of_not_meets hM (hs.valid B hB) hC (hclear _ ⟨B, hB, rfl⟩) u

/-- `bbuddy_init` on areas that do not overlap. -/
theorem init_words (words : Nat → BitVec 32) (pn : Nat) {N at' : Nat} (hN : N ≤ at') :
    let b := (List.range N).foldl (fun b i => (b.setNbmp i NIL).setPbmp i FIL)
      (⟨words, at', pn⟩ : Bbuddy)
    b.nbmpAt = at' ∧ b.pn = pn ∧ ∀ i, i < N → b.nbmp i = NIL ∧ b.pbmp i = FIL := by
  induction N with
  | zero => simp
  | succ N ih =>
      obtain ⟨hat, hpn, hwords⟩ := ih (by omega)
      rw [List.range_succ, List.foldl_append]
      generalize (List.range N).foldl _ _ = b at *
      refine ⟨hat, hpn, fun i hi => ?_⟩
      have hN : N < (b.setNbmp N NIL).nbmpAt := by
        rw [nbmpAt_setNbmp]
        omega
      simp only [List.foldl_cons, List.foldl_nil]
      rw [nbmp_setPbmp hN, nbmp_setNbmp, pbmp_setPbmp, pbmp_setNbmp (by omega)]
      by_cases heq : i = N
      · simp [heq]
      · simp only [heq, if_false]
        exact hwords i (by omega)

/-- The bitmaps that `bbuddy_init` leaves: bits 0 and 1 of `nbmp` are set, and all of
`pbmp`. -/
theorem init_flags {maxPart : Nat} (hlow : 32 ≤ maxPart) (hhigh : maxPart < 96)
    {words : Nat → BitVec 32} {b : Bbuddy} (hinit : bbuddyInit (some words) maxPart = some b) :
    b.nbmpAt = maxPart / 32 * 2 ∧ b.pn = maxPart ∧
      ∀ h, h / 32 < b.nbmpAt → (b.freeAt h = true ↔ h ≤ 1) ∧ b.wholeAt h = true := by
  have hpos : maxPart ≠ 0 := by omega
  -- For the sizes below 96 the two cases of the code are one number.
  have hat : (if maxPart / 32 > 1 then maxPart / 32 + 2 else maxPart / 32 + 1)
      = maxPart / 32 * 2 := by
    split <;> omega
  simp only [bbuddyInit, if_neg hpos, hat, Option.some.injEq] at hinit
  obtain ⟨hbat, hpn, hwords⟩ := init_words words maxPart (Nat.le_refl (maxPart / 32 * 2))
  generalize (List.range (maxPart / 32 * 2)).foldl _ _ = b0 at *
  rw [← hinit]
  refine ⟨hbat, hpn, fun h hh => ?_⟩
  simp only [nbmpAt_markNbmp, hbat] at hh
  obtain ⟨hnil, hfil⟩ := hwords _ hh
  constructor
  · -- Two bits are set on top of the empty words, those of the root and of the unused number 0.
    have hone := @freeAt_markNbmp (b0.markNbmp 0 0) 1 h
    have hzero := @freeAt_markNbmp b0 0 h
    have hnone : b0.freeAt h = false := by
      rw [freeAt, hnil]
      simp [NIL]
    simp only [Nat.zero_mod, show 1 / 32 = 0 from rfl, show 1 % 32 = 1 from rfl,
      hnone, Bool.false_or] at hone hzero
    rw [hone, hzero, Bool.or_eq_true, decide_eq_true_iff, decide_eq_true_iff]
    omega
  · have hones : ∀ k, k < 32 → FIL.getLsbD k = true := by decide
    have hat0 : h / 32 < b0.nbmpAt := by omega
    rw [markNbmp, wholeAt_setNbmp (by exact hat0), markNbmp, wholeAt_setNbmp hat0, wholeAt, hfil]
    exact hones _ (Nat.mod_lt _ (by omega))

/-- A fresh buddy: the root is free and no block is separated. -/
theorem tracked_of_flags {M : Nat} {b : Bbuddy} (hsmall : Small M b)
    (hflags : ∀ h, h / 32 < b.nbmpAt → (b.freeAt h = true ↔ h ≤ 1) ∧ b.wholeAt h = true) :
    Tracked M (b, []) := by
  refine ⟨⟨hsmall, fun h h1 hlt => ?_, fun h h1 hlt => ?_⟩, by simp, by simp⟩
  · rw [(hflags h (hsmall.word_lt hlt)).1, nodesOf_nil, free_empty]
    omega
  · rw [nodesOf_nil]
    exact iff_of_true (hflags h (hsmall.word_lt hlt)).2 not_split_empty

/-- At the start, the books are empty. -/
theorem tracked_init {M : Nat} (hsize : M = 32 ∨ M = 64) {words : Nat → BitVec 32} {b : Bbuddy}
    (hinit : bbuddyInit (some words) M = some b) : Tracked M (b, []) := by
  obtain ⟨hat, hpn, hflags⟩ := init_flags (show 32 ≤ M by omega) (show M < 96 by omega) hinit
  exact tracked_of_flags ⟨hsize, hpn, by omega⟩ hflags

/-- No join of the release sweeps the flag of a block that stays separated. -/
def CleanRelease (M : Nat) (rest : Set Nat) (B : Nat) : Prop :=
  ∀ g, Anc g B → 1 < g → Clear rest (g / 2) →
    ∀ x, 1 ≤ x → x < 2 * M → x / 32 = g / 32 → ¬ Split rest x

/-- A separated block that only the released one had separated is the parent of a join. -/
theorem split_of_not_swept {S : Set Nat} {B x : Nat} (hclear : Clear S B) (hx1 : 1 ≤ x)
    (hsplit : Split (insert B S) x) (hswept : ¬ Swept S B x) : Split S x := by
  rcases split_insert.mp hsplit with ⟨hxB, hne⟩ | hstay
  · by_contra hnot
    obtain ⟨a, ha, haB⟩ := hxB.child hne.symm
    refine hswept ⟨a, haB, by omega, ?_, .inr ha.symm⟩
    rw [ha]
    intro l hl hm
    cases hm with
    | inl hlx => exact hclear l hl (.inl (hlx.trans hxB))
    | inr hxl =>
        refine hnot ⟨l, hl, hxl, ?_⟩
        rintro rfl
        exact hclear l hl (.inl hxB)
  · exact hstay

/-- A clean release keeps the books exact. -/
theorem release_books {M L : Nat} {S : Set Nat} {b : Bbuddy} {B : BuddyBlock} (hM : M = 2 ^ L)
    (hB : B.Valid M) (hclear : Clear S B.node) (hb : BuddyBooks M (insert B.node S) b)
    (hclean : CleanRelease M S B.node) :
    ∃ b', bbuddyBlockRelease b (B.first M) = .ok (b', 0) ∧ BuddyBooks M S b' := by
  obtain ⟨i, hi, hle, hnum⟩ := hB
  rw [hM, Nat.pow_le_pow_iff_right (by omega)] at hle
  rw [BuddyBlock.node, hi] at hclear hb hclean
  obtain ⟨b', hrun, hflags⟩ := bbuddyBlockRelease_flags hM hle hnum hclear hb
    (not_split_insert_self hclear)
    (fun y hy _ hne => split_insert.mpr (.inl ⟨hy.anc, hne.symm⟩))
  refine ⟨b', by rw [BuddyBlock.first, hi]; exact hrun,
    hflags.congr (fun _ _ _ => Iff.rfl) fun x hx hlt => ⟨?_, fun hsplit => ⟨?_, ?_⟩⟩⟩
  · rintro ⟨hsplit, hswept⟩
    exact split_of_not_swept hclear hx hsplit hswept
  · exact split_insert.mpr (.inr hsplit)
  · rintro ⟨a, haB, h1, hpar, hword | rfl⟩
    · exact hclean a haB h1 hpar x hx hlt hword hsplit
    · exact hpar.not_split hsplit

/-- The buddy has 32 or 64 smallest blocks, and a release is clean. -/
def CleanStep (M : Nat) (live : List BuddyBlock) (op : BuddyOp) : Prop :=
  (M = 32 ∨ M = 64) ∧
    ∀ B, op = .release B → CleanRelease M (nodesOf (live.erase B)) B.node

/-- An allocation that succeeds, and one that does not. -/
theorem Tracked.alloc {M i : Nat} {s : Bbuddy × List BuddyBlock} (hs : Tracked M s)
    (hi : 2 ^ i ≤ M) :
    (∃ b' num, bbuddyBlockAlloc s.1 (2 ^ i) = .ok (b', num) ∧ num ≠ ENOBLOCK ∧
      Tracked M (b', ⟨2 ^ i, num⟩ :: s.2)) ∨
    (bbuddyBlockAlloc s.1 (2 ^ i) = .ok (s.1, ENOBLOCK) ∧
      ∀ x, 1 ≤ x → x < 2 ^ i * 2 → ¬ Free (nodesOf s.2) x) := by
  have hsize := hs.books.small.size
  refine (bbuddyBlockAlloc_books hs.books hi).imp
    (fun ⟨b', g, hrun, hge, hlt, hclear, hbooks⟩ => ?_) id
  refine ⟨b', g - 2 ^ i, hrun, by unfold ENOBLOCK; omega, ?_, ?_, ?_⟩
  · have hnode : (⟨2 ^ i, g - 2 ^ i⟩ : BuddyBlock).node = g := by
      unfold BuddyBlock.node
      exact Nat.add_sub_cancel' hge
    rw [nodesOf_cons, hnode]
    exact hbooks
  · intro B hB
    rcases List.mem_cons.mp hB with rfl | hB
    · exact ⟨i, rfl, hi, by simp only; omega⟩
    · exact hs.valid B hB
  · refine List.pairwise_cons.mpr ⟨fun C hC hm => ?_, hs.apart⟩
    have hnode : (⟨2 ^ i, g - 2 ^ i⟩ : BuddyBlock).node = g := by
      unfold BuddyBlock.node
      exact Nat.add_sub_cancel' hge
    rw [hnode] at hm
    exact hclear _ ⟨C, hC, rfl⟩ hm.symm

/-- Taking a block out of the list. -/
theorem Tracked.erase {M : Nat} {s : Bbuddy × List BuddyBlock} (hs : Tracked M s) {B : BuddyBlock}
    (hB : B ∈ s.2) :
    nodesOf s.2 = insert B.node (nodesOf (s.2.erase B)) ∧
      Clear (nodesOf (s.2.erase B)) B.node ∧
      (s.2.erase B).Pairwise fun B C => ¬ Meets B.node C.node := by
  have hperm := List.perm_cons_erase hB
  have happart := (hperm.pairwise_iff fun {B C} h hm => h (Meets.symm hm)).mp hs.apart
  obtain ⟨hBrest, hrest⟩ := List.pairwise_cons.mp happart
  exact ⟨(nodesOf_perm hperm).trans nodesOf_cons, clear_nodesOf hBrest, hrest⟩

/-- The step lemma. An allowed operation that meets the condition returns and keeps the
invariant. -/
theorem Tracked.step {M L : Nat} {s : Bbuddy × List BuddyBlock} {op : BuddyOp} (hM : M = 2 ^ L)
    (hs : Tracked M s) (hop : op.Allowed M s.2) (hclean : CleanStep M s.2 op) :
    ∃ s', buddyStep M s op = .ok s' ∧ Tracked M s' := by
  cases op with
  | alloc align =>
      obtain ⟨⟨i, rfl⟩, hle⟩ := hop
      rcases hs.alloc hle with ⟨b', num, hrun, hnum, htracked⟩ | ⟨hrun, -⟩
      · exact ⟨_, by simp [buddyStep, hrun, Loop.ok_bind, hnum], htracked⟩
      · exact ⟨s, by simp [buddyStep, hrun, Loop.ok_bind], hs⟩
  | release B =>
      have hB : B ∈ s.2 := hop
      obtain ⟨hnodes, hclear, hrest⟩ := hs.erase hB
      obtain ⟨b', hrun, hbooks⟩ := release_books hM (hs.valid B hB) hclear (hnodes ▸ hs.books)
        (hclean.2 B rfl)
      refine ⟨(b', s.2.erase B), by simp [buddyStep, hrun, Loop.ok_bind], hbooks, ?_, hrest⟩
      exact fun C hC => hs.valid C (List.mem_of_mem_erase hC)

/-- The run lemma. No step meets the condition on a buddy of another size. -/
theorem BuddyRun.tracked {M L : Nat} {words : Nat → BitVec 32} {b : Bbuddy}
    {s : Bbuddy × List BuddyBlock} (hM : M = 2 ^ L) (hinit : bbuddyInit (some words) M = some b)
    (hrun : BuddyRun M (CleanStep M) b s) :
    ((M = 32 ∨ M = 64) → Tracked M s) ∧ (¬ (M = 32 ∨ M = 64) → s.2 = []) := by
  induction hrun with
  | refl => exact ⟨fun hsize => tracked_init hsize hinit, fun _ => rfl⟩
  | step before hop hok call ih =>
      refine ⟨fun hsize => ?_, fun hsize => absurd hok.1 hsize⟩
      obtain ⟨s', hcall, htracked⟩ := (ih.1 hsize).step hM hop hok
      rw [call] at hcall
      cases hcall
      exact htracked

/-- In every state that clean operations reach, live blocks are disjoint and clear of all
free ones, and the next clean operation returns. -/
theorem buddyRun_sound {M L : Nat} {words : Nat → BitVec 32} {b : Bbuddy}
    {s : Bbuddy × List BuddyBlock} (hM : M = 2 ^ L)
    (hinit : bbuddyInit (some words) M = some b) (hrun : BuddyRun M (CleanStep M) b s) :
    BuddySound M s ∧ ∀ op : BuddyOp, op.Allowed M s.2 → CleanStep M s.2 op →
      ∃ s', buddyStep M s op = .ok s' := by
  obtain ⟨hsmall, hlarge⟩ := hrun.tracked hM hinit
  refine ⟨?_, fun op hop hok => ?_⟩
  · by_cases hsize : M = 32 ∨ M = 64
    · exact (hsmall hsize).sound hM
    · rw [BuddySound, hlarge hsize]
      simp
  · obtain ⟨s', hcall, -⟩ := (hsmall hok.1).step hM hop hok
    exact ⟨s', hcall⟩

/-- A buddy on cleared memory. -/
def freshBuddy (M : Nat) : Bbuddy := (bbuddyInit (some fun _ => 0) M).getD ⟨fun _ => 0, 0, 0⟩

/-- A release whose sibling is live joins nothing. -/
theorem not_clear_of_sibling {rest : Set Nat} {B g : Nat} (hmem : sibling B ∈ rest) (hg : Anc g B) :
    ¬ Clear rest (g / 2) := by
  have hparent := hg.halves
  rw [← sibling_half (g := B)] at hparent
  exact fun hclear => hclear _ hmem (.inr (hparent.trans (anc_half _)))

/-- Two halves, of which one is released. -/
theorem buddyRun_sound_two :
    ∃ s : Bbuddy × List BuddyBlock, s.2 = [⟨2, 1⟩] ∧
      BuddyRun 32 (CleanStep 32) (freshBuddy 32) s ∧ BuddySound 32 s := by
  have hrun : (do
      let s1 ← buddyStep 32 (freshBuddy 32, []) (.alloc 2)
      let s2 ← buddyStep 32 s1 (.alloc 2)
      let s3 ← buddyStep 32 s2 (.release ⟨2, 0⟩)
      .ok (s2.2, s3.2) : Except Fault _) = .ok ([⟨2, 1⟩, ⟨2, 0⟩], [⟨2, 1⟩]) := by
    decide +kernel
  obtain ⟨s1, h1, hrun⟩ := Loop.exists_of_bind hrun
  obtain ⟨s2, h2, hrun⟩ := Loop.exists_of_bind hrun
  obtain ⟨s3, h3, hrun⟩ := Loop.exists_of_bind hrun
  obtain ⟨hlive2, hlive3⟩ := Prod.mk.inj (Except.ok.inj hrun)
  have halloc : ∀ live, CleanStep 32 live (.alloc 2) :=
    fun live => ⟨.inl rfl, fun B h => by cases h⟩
  have hclean : CleanStep 32 s2.2 (.release ⟨2, 0⟩) := by
    refine ⟨.inl rfl, fun B h => ?_⟩
    cases h
    refine fun g hg _ hclear => absurd hclear (not_clear_of_sibling ⟨⟨2, 1⟩, ?_, by decide⟩ hg)
    rw [hlive2]
    decide
  have htwo : ∀ live, BuddyOp.Allowed 32 live (.alloc 2) := fun live => ⟨⟨1, rfl⟩, by decide⟩
  have hall : BuddyRun 32 (CleanStep 32) (freshBuddy 32) s3 := by
    refine .step (.step (.step .refl (htwo _) (halloc _) h1) (htwo _) (halloc _) h2) ?_ hclean h3
    simp [BuddyOp.Allowed, hlive2]
  have hinit : bbuddyInit (some fun _ => 0) 32 = some (freshBuddy 32) := rfl
  exact ⟨s3, hlive3, hall, (buddyRun_sound (L := 5) rfl hinit hall).1⟩

/-- Four blocks of layer 4, of which the third, the fourth and the first are released. The
join of the third and the fourth marks the root not separated, so the last release frees
the root, and the second block is still live. -/
theorem buddyRun_overlaps :
    ¬ ∀ (M L : Nat) (words : Nat → BitVec 32) (b : Bbuddy) (s : Bbuddy × List BuddyBlock),
      M = 2 ^ L → 32 ≤ M → bbuddyInit (some words) M = some b →
        BuddyRun M (fun _ _ => True) b s → BuddySound M s := by
  intro hall
  -- Four blocks fill the range; the releases join the third and the fourth, and then the root.
  have hrun : (do
      let s1 ← buddyStep 32 (freshBuddy 32, []) (.alloc 4)
      let s2 ← buddyStep 32 s1 (.alloc 4)
      let s3 ← buddyStep 32 s2 (.alloc 4)
      let s4 ← buddyStep 32 s3 (.alloc 4)
      let s5 ← buddyStep 32 s4 (.release ⟨4, 2⟩)
      let s6 ← buddyStep 32 s5 (.release ⟨4, 3⟩)
      let s7 ← buddyStep 32 s6 (.release ⟨4, 0⟩)
      .ok (s4.2, s5.2, s6.2, s7.2, freeBit s7.1 ⟨1, 0⟩) : Except Fault _)
        = .ok ([⟨4, 3⟩, ⟨4, 2⟩, ⟨4, 1⟩, ⟨4, 0⟩], [⟨4, 3⟩, ⟨4, 1⟩, ⟨4, 0⟩], [⟨4, 1⟩, ⟨4, 0⟩],
          [⟨4, 1⟩], true) := by
    decide +kernel
  obtain ⟨s1, h1, hrun⟩ := Loop.exists_of_bind hrun
  obtain ⟨s2, h2, hrun⟩ := Loop.exists_of_bind hrun
  obtain ⟨s3, h3, hrun⟩ := Loop.exists_of_bind hrun
  obtain ⟨s4, h4, hrun⟩ := Loop.exists_of_bind hrun
  obtain ⟨s5, h5, hrun⟩ := Loop.exists_of_bind hrun
  obtain ⟨s6, h6, hrun⟩ := Loop.exists_of_bind hrun
  obtain ⟨s7, h7, hrun⟩ := Loop.exists_of_bind hrun
  simp only [Except.ok.injEq, Prod.mk.injEq] at hrun
  obtain ⟨hlive4, hlive5, hlive6, hlive7, hroot⟩ := hrun
  have hfour : ∀ live, BuddyOp.Allowed 32 live (.alloc 4) := fun live => ⟨⟨2, rfl⟩, by decide⟩
  have hallocs : BuddyRun 32 (fun _ _ => True) (freshBuddy 32) s4 :=
    .step (.step (.step (.step .refl (hfour _) trivial h1) (hfour _) trivial h2)
      (hfour _) trivial h3) (hfour _) trivial h4
  have hreleases : BuddyRun 32 (fun _ _ => True) (freshBuddy 32) s7 := by
    refine .step (.step (.step hallocs ?_ trivial h5) ?_ trivial h6) ?_ trivial h7
    · simp [BuddyOp.Allowed, hlive4]
    · simp [BuddyOp.Allowed, hlive5]
    · simp [BuddyOp.Allowed, hlive6]
  have hsound := hall 32 5 (fun _ => 0) _ s7 rfl (by decide) rfl hreleases
  refine hsound.2 ⟨4, 1⟩ (by rw [hlive7]; decide) ⟨1, 0⟩ ⟨0, rfl, by decide, by decide⟩ hroot 8 ?_
  unfold BuddyBlock.Covers
  decide

end MString
