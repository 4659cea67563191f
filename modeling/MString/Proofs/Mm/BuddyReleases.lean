import Mathlib.Data.List.Pairwise
import MString.Proofs.Mm.BuddyInit

/-!
# `MString.Proofs.Mm.BuddyReleases`: releasing everything

Allocations on a fresh buddy, all of which succeed, and then the release of all blocks in
some order.

* `Legible`: a buddy whose separated flags are right wherever a later release reads them.
* `Misled`: a block is still live that begins where a larger separated block does, and
  the flag of the larger one says that it is not separated.
* `Lost`: the larger block was freed in the place of the live one, whose own bit nobody
  sets any more. Its sibling never finds it free, so a part of the sibling stays free
  to the end.
* `releaseAll_restores_iff`: the releases restore the fresh buddy exactly if none of them
  misleads a later one.
-/

set_option autoImplicit false

namespace MString

open HeapTree Bbuddy

/-- The blocks that a list of allocations yields. -/
def allocAll : Bbuddy → List Nat → Except Fault (Bbuddy × List BuddyBlock)
  | b, [] => .ok (b, [])
  | b, align :: aligns => do
      let (b, num) ← bbuddyBlockAlloc b align
      let (b, blocks) ← allocAll b aligns
      .ok (b, ⟨align, num⟩ :: blocks)

/-- Releases in the order of a list. -/
def releaseAll (M : Nat) : Bbuddy → List BuddyBlock → Except Fault Bbuddy
  | b, [] => .ok b
  | b, B :: rest => do
      let (b, _) ← bbuddyBlockRelease b (B.first M)
      releaseAll M b rest

/-- All flags are those of the fresh buddy `b0`, the root is the only free block, it can be
had, and then nothing else. -/
def Restored (M : Nat) (b0 b : Bbuddy) : Prop :=
  (∀ C : BuddyBlock, C.Valid M → freeBit b C = freeBit b0 C ∧ wholeBit b C = wholeBit b0 C) ∧
    (∀ C : BuddyBlock, C.Valid M → (freeBit b C = true ↔ C = ⟨1, 0⟩)) ∧
    ∃ b', bbuddyBlockAlloc b 1 = .ok (b', 0) ∧
      ∀ i, 2 ^ i ≤ M → bbuddyBlockAlloc b' (2 ^ i) = .ok (b', ENOBLOCK)

/-- No join of the release sweeps the flag of a separated block that begins where a block
does that is still live. -/
def HarmlessRelease (M : Nat) (rest : Set Nat) (B : Nat) : Prop :=
  ∀ g, Anc g B → 1 < g → Clear rest (g / 2) →
    ∀ x, 1 ≤ x → x < 2 * M → x / 32 = g / 32 → ¬ ∃ l ∈ rest, Heads x l ∧ x ≠ l

/-- Each release of the order is harmless. -/
def HarmlessOrder (M : Nat) : List BuddyBlock → Prop
  | [] => True
  | B :: rest => HarmlessRelease M (nodesOf rest) B.node ∧ HarmlessOrder M rest

/-! ### Restored buddies -/

section Restored

variable {M L : Nat} {b b0 : Bbuddy}

/-- The books of a buddy without live blocks. -/
theorem restored_of_books (hb0 : BuddyBooks M ∅ b0) (hb : BuddyBooks M ∅ b) : Restored M b0 b := by
  have hsize := hb.small.size
  have hfree : ∀ C : BuddyBlock, C.Valid M → (freeBit b C = true ↔ C.node = 1) := fun C hC => by
    rw [freeBit_eq hsize hC, hb.free _ hC.node_pos hC.node_lt, free_empty]
  refine ⟨fun C hC => ⟨?_, ?_⟩, fun C hC => (hfree C hC).trans ⟨?_, ?_⟩, ?_⟩
  · rw [Bool.eq_iff_iff, hfree C hC, freeBit_eq hsize hC, hb0.free _ hC.node_pos hC.node_lt,
      free_empty]
  · rw [Bool.eq_iff_iff, wholeBit_eq hsize hC, wholeBit_eq hsize hC,
      hb.whole _ hC.node_pos hC.node_lt, hb0.whole _ hC.node_pos hC.node_lt]
  · obtain ⟨i, hi, -, -⟩ := hC
    obtain ⟨align, num⟩ := C
    have hpos := Nat.two_pow_pos i
    simp only [BuddyBlock.node, BuddyBlock.mk.injEq] at hi ⊢
    omega
  · rintro rfl
    rfl
  · rcases bbuddyBlockAlloc_books (i := 0) hb (by omega) with
      ⟨b', g, hrun, hge, hlt, -, hbooks⟩ | ⟨-, hnone⟩
    · obtain rfl : g = 1 := by omega
      refine ⟨b', hrun, fun i hi => ?_⟩
      rcases bbuddyBlockAlloc_books hbooks hi with ⟨-, g, -, hge, -, hclear, -⟩ | ⟨hrun, -⟩
      · have := Nat.two_pow_pos i
        exact absurd (.inl (anc_one (by omega))) (hclear 1 (by simp))
      · exact hrun
    · exact absurd (free_empty.mpr rfl) (hnone 1 (by omega) (by omega))

/-- From 128 pages on, no state counts as restored. At the start a half of the tree is marked as
free next to the root. -/
theorem not_restored_wide {words : Nat → BitVec 32} (hM : 128 ≤ M)
    (hinit : bbuddyInit (some words) M = some b0) : ¬ Restored M b0 b := by
  rintro ⟨hsame, honly, -⟩
  have hvalid : BuddyBlock.Valid M ⟨2, 0⟩ := ⟨1, rfl, by omega, by decide⟩
  have hfree := (hsame _ hvalid).1
  rw [freeBit_init_wide (by omega) hinit] at hfree
  exact absurd ((honly _ hvalid).mp hfree) (by decide)

/-- A free block other than the root. -/
theorem not_restored_of_free (hsize : M = 32 ∨ M = 64) {z : Nat} (hz1 : 1 < z) (hzM : z < 2 * M)
    (hfree : b.freeAt z = true) : ¬ Restored M b0 b := by
  rintro ⟨-, honly, -⟩
  have hM : ∃ L, M = 2 ^ L := hsize.elim (fun h => ⟨5, h⟩) fun h => ⟨6, h⟩
  obtain ⟨L, hM⟩ := hM
  obtain ⟨C, hvalid, hnode⟩ := exists_block hM (by omega) hzM
  have hroot := (honly C hvalid).mp (by rw [freeBit_eq hsize hvalid, hnode]; exact hfree)
  rw [hroot] at hnode
  exact absurd hnode.symm (Nat.ne_of_gt hz1)

end Restored

/-! ### Allocations -/

/-- The order of the live blocks does not matter. -/
theorem Tracked.perm {M : Nat} {b : Bbuddy} {live live' : List BuddyBlock}
    (hs : Tracked M (b, live)) (hperm : live.Perm live') : Tracked M (b, live') where
  books := nodesOf_perm hperm ▸ hs.books
  valid B hB := hs.valid B (hperm.mem_iff.mpr hB)
  apart := (hperm.pairwise_iff fun {_ _} h hm => h (Meets.symm hm)).mp hs.apart

/-- A series of allocations keeps track of its blocks. -/
theorem allocAll_tracked {M : Nat} : ∀ (aligns : List Nat) (b b' : Bbuddy)
    (live blocks : List BuddyBlock), Tracked M (b, live) →
      (∀ a ∈ aligns, (∃ i, a = 2 ^ i) ∧ a ≤ M) → allocAll b aligns = .ok (b', blocks) →
      (∀ B ∈ blocks, B.num ≠ ENOBLOCK) → Tracked M (b', blocks ++ live) := by
  intro aligns
  induction aligns with
  | nil =>
      intro b b' live blocks hs _ hrun _
      cases hrun
      exact hs
  | cons a aligns ih =>
      intro b b' live blocks hs haligns hrun hnum
      obtain ⟨⟨b1, num⟩, hfirst, hrun⟩ := Loop.exists_of_bind hrun
      obtain ⟨⟨b2, rest⟩, hall, hrun⟩ := Loop.exists_of_bind hrun
      cases hrun
      obtain ⟨⟨i, rfl⟩, hle⟩ := haligns a (by simp)
      rcases hs.alloc hle with ⟨b3, num', hgot, -, htracked⟩ | ⟨hnone, -⟩
      · rw [hgot] at hfirst
        cases hfirst
        have hrest := ih _ _ _ _ htracked (fun a ha => haligns a (by simp [ha])) hall
          (fun B hB => hnum B (by simp [hB]))
        exact hrest.perm List.perm_middle
      · rw [hnone] at hfirst
        cases hfirst
        exact absurd rfl (hnum ⟨2 ^ i, ENOBLOCK⟩ (by simp))

/-! ### Releases that find their blocks -/

section Releases

variable {M L : Nat} {b : Bbuddy} {B : BuddyBlock} {rest : List BuddyBlock} {F W : Nat → Prop}

/-- The free bits are exact. A block marked separated is separated, and a separated block
that begins where a live one does is marked so. -/
def Legible (M : Nat) (live : List BuddyBlock) (b : Bbuddy) : Prop :=
  ∃ W, Flags M (Free (nodesOf live)) W b ∧
    (∀ x, 1 ≤ x → x < 2 * M → (∃ l ∈ nodesOf live, Heads x l ∧ x ≠ l) → W x) ∧
    ∀ x, 1 ≤ x → x < 2 * M → W x → Split (nodesOf live) x

/-- The free bits are exact, but a separated block that begins where a live one does is
marked as not separated. -/
def Misled (M : Nat) (live : List BuddyBlock) (b : Bbuddy) : Prop :=
  ∃ W, Flags M (Free (nodesOf live)) W b ∧
    (∀ x, 1 ≤ x → x < 2 * M → W x → Split (nodesOf live) x) ∧
    ∃ x l, 1 ≤ x ∧ l ∈ nodesOf live ∧ Heads x l ∧ x ≠ l ∧ ¬ W x

/-- The blocks of a list are blocks of the buddy and do not meet. -/
structure BlocksApart (M : Nat) (live : List BuddyBlock) : Prop where
  valid : ∀ B ∈ live, B.Valid M
  apart : live.Pairwise fun B C => ¬ Meets B.node C.node

/-- The blocks behind the first one are apart, too. -/
theorem BlocksApart.tail (h : BlocksApart M (B :: rest)) : BlocksApart M rest where
  valid C hC := h.valid C (List.mem_cons_of_mem _ hC)
  apart := (List.pairwise_cons.mp h.apart).2

/-- And the first one is clear of them. -/
theorem BlocksApart.clear (h : BlocksApart M (B :: rest)) : Clear (nodesOf rest) B.node :=
  clear_nodesOf (List.pairwise_cons.mp h.apart).1

/-- A live block has none of the others inside. -/
theorem BlocksApart.not_split {live : List BuddyBlock} (h : BlocksApart M live) (hB : B ∈ live) :
    ¬ Split (nodesOf live) B.node := by
  rintro ⟨l, ⟨C, hC, rfl⟩, hBC, hne⟩
  have hBCne : B ≠ C := fun heq => hne (heq ▸ rfl)
  have : Std.Symm fun B C : BuddyBlock => ¬ Meets B.node C.node := ⟨fun _ _ h hm => h hm.symm⟩
  exact h.apart.forall hB hC hBCne (.inl hBC)

/-- The release of a block that no wrong mark leads past. -/
theorem BlocksApart.release (hM : M = 2 ^ L) (h : BlocksApart M (B :: rest))
    (hb : Flags M (Free (nodesOf (B :: rest))) W b)
    (hsplit : ∀ x, 1 ≤ x → x < 2 * M → W x → Split (nodesOf (B :: rest)) x)
    (hlead : ∀ y, Heads y B.node → 1 ≤ y → y ≠ B.node → W y) :
    ∃ b', bbuddyBlockRelease b (B.first M) = .ok (b', 0) ∧
      Flags M (Free (nodesOf rest)) (fun x => W x ∧ ¬ Swept (nodesOf rest) B.node x) b' ∧
      ∀ x, 1 ≤ x → x < 2 * M → W x ∧ ¬ Swept (nodesOf rest) B.node x → Split (nodesOf rest) x := by
  have hclear := h.clear
  have hvalid := h.valid B (by simp)
  have hself : ¬ W B.node := fun hW =>
    h.not_split (by simp) (hsplit _ hvalid.node_pos hvalid.node_lt hW)
  rw [nodesOf_cons] at hb hsplit
  have hupper : ∀ x, 1 ≤ x → x < 2 * M → W x ∧ ¬ Swept (nodesOf rest) B.node x →
      Split (nodesOf rest) x := fun x hx hlt hW =>
    split_of_not_swept hclear hx (hsplit x hx hlt hW.1) hW.2
  obtain ⟨i, hi, hle, hnum⟩ := hvalid
  rw [hM, Nat.pow_le_pow_iff_right (by omega)] at hle
  have hnode : B.node = 2 ^ i + B.num := by rw [BuddyBlock.node, hi]
  rw [BuddyBlock.first, hi]
  simp only [hnode] at hclear hb hself hlead hupper ⊢
  obtain ⟨b', hrun, hflags⟩ := bbuddyBlockRelease_flags hM hle hnum hclear hb hself hlead
  exact ⟨b', hrun, hflags, hupper⟩

theorem Legible.lead (hlead : ∀ x, 1 ≤ x → x < 2 * M →
      (∃ l ∈ nodesOf (B :: rest), Heads x l ∧ x ≠ l) → W x) (hB : B.Valid M) :
    ∀ y, Heads y B.node → 1 ≤ y → y ≠ B.node → W y := by
  intro y hy hy1 hne
  have := hy.anc.le
  have := hB.node_lt
  exact hlead y hy1 (by omega) ⟨B.node, by simp, hy, hne⟩

/-- A harmless release leaves the other ones legible. -/
theorem Legible.release (hM : M = 2 ^ L) (h : BlocksApart M (B :: rest))
    (hb : Legible M (B :: rest) b) (hharmless : HarmlessRelease M (nodesOf rest) B.node) :
    ∃ b', bbuddyBlockRelease b (B.first M) = .ok (b', 0) ∧ Legible M rest b' := by
  obtain ⟨W, hflags, hlead, hsplit⟩ := hb
  obtain ⟨b', hrun, hflags', hupper⟩ := h.release hM hflags hsplit
    (Legible.lead hlead (h.valid B (by simp)))
  refine ⟨b', hrun, _, hflags', ?_, hupper⟩
  rintro x hx hlt ⟨l, hl, hxl, hne⟩
  refine ⟨hlead x hx hlt ⟨l, by simp [hl], hxl, hne⟩, ?_⟩
  rintro ⟨a, haB, h1, hpar, hword | rfl⟩
  · exact hharmless a haB h1 hpar x hx hlt hword ⟨l, hl, hxl, hne⟩
  · exact hpar l hl (.inr hxl.anc)

/-- A release that is not harmless goes well itself. -/
theorem Legible.mislead (hM : M = 2 ^ L) (h : BlocksApart M (B :: rest))
    (hb : Legible M (B :: rest) b) (hharm : ¬ HarmlessRelease M (nodesOf rest) B.node) :
    ∃ b', bbuddyBlockRelease b (B.first M) = .ok (b', 0) ∧ Misled M rest b' := by
  obtain ⟨W, hflags, hlead, hsplit⟩ := hb
  obtain ⟨b', hrun, hflags', hupper⟩ := h.release hM hflags hsplit
    (Legible.lead hlead (h.valid B (by simp)))
  unfold HarmlessRelease at hharm
  push Not at hharm
  obtain ⟨a, haB, h1, hpar, x, hx, hlt, hword, l, hl, hxl, hne⟩ := hharm
  refine ⟨b', hrun, _, hflags', hupper, x, l, hx, hl, hxl, hne, fun hW => ?_⟩
  exact hW.2 ⟨a, haB, h1, hpar, .inl hword⟩

end Releases

/-! ### A block that is lost -/

/-- The bits once `l` was released and a larger block was freed in its place. `S` are the
blocks that are still live. -/
structure Lost (M : Nat) (S : Set Nat) (l : Nat) (F W : Nat → Prop) : Prop where
  whole : ∀ B ∈ S, ¬ W B
  head : ∀ B ∈ S, ∀ y, 1 ≤ y → Heads y B → ¬ F y
  below : ∀ B, B ∈ S ∨ B = l → ∀ z, Anc B z → ¬ F z
  cover : ∀ u, u < M → Anc (l + 1) (M + u) →
    ∃ z, Anc (l + 1) z ∧ Anc z (M + u) ∧ (z ∈ S ∨ F z)

namespace Lost

variable {M l g y : Nat} {S : Set Nat} {F W : Nat → Prop} {b : Bbuddy}

/-- Joining two blocks keeps all of it: the sibling of `l` is not joined, as `l` is not
free. -/
theorem join (h : Lost M S l F W) (hl : l % 2 = 0) (hg1 : 1 < g) (hg : F g) (hs : F (sibling g)) :
    Lost M S l (fun x => (F x ∧ x ≠ g ∧ x ≠ sibling g) ∨ x = g / 2)
      (fun x => (W x ∧ x / 32 ≠ g / 32) ∧ x ≠ g / 2) where
  whole B hB hW := h.whole B hB hW.1.1
  -- A node that is new among the free ones is the parent of the two that are joined.
  head B hB y hy hyB := by
    rintro (⟨hF, -⟩ | rfl)
    · exact h.head B hB y hy hyB hF
    · by_cases heq : g / 2 = B
      · exact h.below B (.inl hB) g (heq ▸ anc_half g) hg
      · -- The left half heads `B` too, and it is one of the two.
        have hleft := h.head B hB (g / 2 * 2) (by omega) (hyB.left heq)
        have : g / 2 * 2 = g ∨ g / 2 * 2 = sibling g := by
          unfold sibling
          split <;> omega
        rcases this with hchild | hchild
        · rw [hchild] at hleft
          exact hleft hg
        · rw [hchild] at hleft
          exact hleft hs
  below B hB z hz := by
    rintro (⟨hF, -⟩ | rfl)
    · exact h.below B hB z hz hF
    · exact h.below B hB g (hz.trans (anc_half g)) hg
  cover u hu hlu := by
    obtain ⟨z, hlz, hzu, hz | hz⟩ := h.cover u hu hlu
    · exact ⟨z, hlz, hzu, .inl hz⟩
    · -- A free block stays free, unless it is one of the two. Then their parent covers `u`.
      by_cases hjoined : z = g ∨ z = sibling g
      · have hhalf : z / 2 = g / 2 := by
          rcases hjoined with rfl | rfl
          · rfl
          · exact sibling_half
        have hne : l + 1 ≠ z := by
          rintro rfl
          have hlfree : F l := by
            rcases hjoined with heq | heq
            · rwa [← heq, sibling, if_pos (by omega), Nat.add_sub_cancel] at hs
            · have : l = g := by
                unfold sibling at heq
                split at heq <;> omega
              exact this ▸ hg
          exact h.below l (.inr rfl) l (anc_refl l) hlfree
        refine ⟨g / 2, hhalf ▸ hlz.half hne, ?_, .inr (.inr rfl)⟩
        rw [← hhalf]
        exact (anc_half z).trans hzu
      · exact ⟨z, hlz, hzu, .inr (.inl ⟨hz, by tauto⟩)⟩

/-- While it climbs, the free block `g` is the one to be joined next. -/
def Climbing (M : Nat) (S : Set Nat) (l g : Nat) (b : Bbuddy) : Prop :=
  1 ≤ g ∧ g < 2 * M ∧ ∃ F W, Flags M F W b ∧ F g ∧ Lost M S l F W

/-- Climbing from a free block. -/
theorem climb {i q : Nat} (h : Lost M S l F W) (hb : Flags M F W b) (hl : l % 2 = 0)
    (hi : 2 ^ i ≤ M) (hq : q < 2 ^ i) (hy : F (2 ^ i + q)) (hroot : i = 0 → ¬ F 2) :
    ∃ b' F' W', bbuddySplitUp b (2 ^ i) q = .ok b' ∧ Flags M F' W' b' ∧ Lost M S l F' W' := by
  have hsize := hb.small.size
  have hlarge : i ≤ 6 := layer_le (by omega)
  have hpos : 0 < 2 ^ i := Nat.two_pow_pos i
  have hjoin : ∀ g b, 1 < g → Climbing M S l g b → b.freeAt (sibling g) = true →
      Climbing M S l (g / 2) (joinBlocks b g) := by
    rintro g b hg1 ⟨-, hgM, F, W, hflags, hFg, hlost⟩ hfree
    have hsib := sibling_half (g := g)
    have hs := (hflags.free (sibling g) (by omega) (by omega)).mp hfree
    exact ⟨by omega, by omega, _, _, hflags.join hgM, .inr rfl, hlost.join hl hg1 hFg hs⟩
  have htwo : i = 0 → b.freeAt 2 = false := fun h0 => Bool.eq_false_iff.mpr fun hfree =>
    hroot h0 ((hb.free 2 (by omega) (by omega)).mp hfree)
  obtain ⟨b', g, hrun, ⟨-, -, F', W', hflags, -, hlost⟩, -⟩ :=
    splitUp_rule (Climbing M S l) hjoin i q TURNS b hlarge hq htwo
      ⟨by omega, by omega, F, W, hb, hy, h⟩ (by unfold TURNS; omega)
  exact ⟨b', F', W', hrun, hflags, hlost⟩

/-- Freeing a block that begins where the released block `B` does. -/
theorem mark {B : Nat} (h : Lost M (insert B S) l F W) (hB : Clear S B) (hlB : ¬ Meets l B)
    (hl : l % 2 = 0) (hy : Heads y B) : Lost M S l (fun x => F x ∨ x = y) W where
  whole C hC := h.whole C (.inr hC)
  head C hC x hx hxC := by
    rintro (hF | rfl)
    · exact h.head C (.inr hC) x hx hxC hF
    · exact hB C hC ((hxC.total hy).imp Heads.anc Heads.anc)
  below C hC z hz := by
    rintro (hF | rfl)
    · exact h.below C (hC.imp .inr id) z hz hF
    · have hCB : Anc C B := hz.trans hy.anc
      rcases hC with hC | rfl
      · exact hB C hC (.inl hCB)
      · exact hlB (.inl hCB)
  cover u hu hlu := by
    obtain ⟨z, hlz, hzu, hz | hz⟩ := h.cover u hu hlu
    · rcases hz with rfl | hz
      · exact ⟨y, hy.of_odd hlz (by omega), hy.anc.trans hzu, .inr (.inr rfl)⟩
      · exact ⟨z, hlz, hzu, .inl hz⟩
    · exact ⟨z, hlz, hzu, .inr (.inl hz)⟩

end Lost

section Losing

variable {M L l : Nat} {b : Bbuddy} {B : BuddyBlock} {rest : List BuddyBlock} {F W : Nat → Prop}

/-- What a release gives back, when no block that begins where the released one does is
free. -/
theorem BuddyBlock.Valid.finds (hM : M = 2 ^ L) (hB : B.Valid M) (hb : Flags M F W b)
    (hused : ∀ y, Heads y B.node → 1 ≤ y → ¬ F y) (hwhole : ¬ W B.node) :
    ∃ i q, 2 ^ i ≤ M ∧ q < 2 ^ i ∧ Heads (2 ^ i + q) B.node ∧
      (∀ y, Heads y (2 ^ i + q) → 1 ≤ y → y ≠ 2 ^ i + q → W y) ∧
      ∀ b', bbuddySplitUp (b.markNbmp ((2 ^ i + q) / 32) ((2 ^ i + q) % 32)) (2 ^ i) q = .ok b' →
        bbuddyBlockRelease b (B.first M) = .ok (b', 0) := by
  have hpos := hB.node_pos
  have hlt := hB.node_lt
  have hfreeAt : ∀ y, Heads y B.node → 1 ≤ y → b.freeAt y = false := fun y hy hy1 => by
    have := hy.anc.le
    rw [Bool.eq_false_iff]
    exact fun hfree => hused y hy hy1 ((hb.free y hy1 (by omega)).mp hfree)
  have hwholeAt := (hb.whole _ hpos hlt).mpr hwhole
  obtain ⟨k, hk, hle, hnum⟩ := hB
  have hkL : k ≤ L := by rwa [hM, Nat.pow_le_pow_iff_right (by omega)] at hle
  have hnode : B.node = 2 ^ k + B.num := by rw [BuddyBlock.node, hk]
  rw [hnode] at hfreeAt hwholeAt
  obtain ⟨i, q, hik, hq, hheads, -, hbefore, hrun⟩ :=
    release_finds hb.small hM hkL hnum hfreeAt hwholeAt
  refine ⟨i, q, Nat.le_trans (Nat.pow_le_pow_right (by omega) hik) hle, hq, hnode ▸ hheads,
    fun y hy hy1 hne => ?_, fun b' hup => by rw [BuddyBlock.first, hk]; exact hrun b' hup⟩
  have hyle := hy.anc.le
  have hqle := hheads.anc.le
  by_contra hW
  have hmarked := hbefore y hy hy1 hne
  rw [(hb.whole y hy1 (by omega)).mpr hW] at hmarked
  cases hmarked

/-- Further releases return, and the block stays lost. -/
theorem Lost.release (hM : M = 2 ^ L) (h : Lost M (nodesOf (B :: rest)) l F W)
    (hb : Flags M F W b) (happart : BlocksApart M (B :: rest)) (hl : l % 2 = 0)
    (hlB : ¬ Meets l B.node) :
    ∃ b' F' W', bbuddyBlockRelease b (B.first M) = .ok (b', 0) ∧ Flags M F' W' b' ∧
      Lost M (nodesOf rest) l F' W' := by
  have hmem : B.node ∈ nodesOf (B :: rest) := by simp
  have hvalid := happart.valid B (by simp)
  obtain ⟨i, q, hi, hq, hheads, -, hrun⟩ := hvalid.finds hM hb
    (fun y hy hy1 => h.head _ hmem y hy1 hy) (h.whole _ hmem)
  have hmarked := hb.markFree (2 ^ i + q)
  -- A root that has a free half is not given back.
  have hroot : i = 0 → ¬ (F 2 ∨ 2 = 2 ^ i + q) := by
    rintro rfl (hF | heq)
    · obtain rfl : q = 0 := by omega
      by_cases hone : 1 = B.node
      · exact h.below _ (.inl hmem) 2 (hone ▸ anc_half 2) hF
      · exact h.head _ hmem 2 (by omega) (hheads.left hone) hF
    · omega
  rw [nodesOf_cons] at h
  obtain ⟨b', F', W', hup, hflags, hlost⟩ :=
    (h.mark happart.clear hlB hl hheads).climb hmarked hl hi hq (.inr rfl) hroot
  exact ⟨b', F', W', hrun b' hup, hflags, hlost⟩

/-- The right sibling of a block is covered by its live and its free blocks. -/
theorem BlocksApart.cover_sibling (h : BlocksApart M (B :: rest)) (heven : B.node % 2 = 0)
    {u : Nat} (hu : u < M) (hlu : Anc (B.node + 1) (M + u)) :
    ∃ z, Anc (B.node + 1) z ∧ Anc z (M + u) ∧
      (z ∈ nodesOf rest ∨ Free (nodesOf (B :: rest)) z) := by
  have hBpos := (h.valid B (by simp)).node_pos
  -- A block over the unit is in the right half, unless it contains `B`.
  have hbelow : ∀ z, Anc z (M + u) → ¬ Anc z B.node → Anc (B.node + 1) z := by
    intro z hzu hzB
    refine (anc_total hlu hzu).elim id fun hz => ?_
    by_cases heq : z = B.node + 1
    · exact heq ▸ anc_refl _
    · have := hz.half heq
      rw [show (B.node + 1) / 2 = B.node / 2 by omega] at this
      exact absurd (this.trans (anc_half _)) hzB
  -- A unit that no live block has lies in a free one.
  by_cases hleaf : Clear (nodesOf (B :: rest)) (M + u)
  · obtain ⟨f, hf, hfree⟩ := exists_free_of_clear hleaf (by omega)
    refine ⟨f, hbelow f hf fun hfB => ?_, hf, .inr hfree⟩
    exact hfree.1 B.node (by simp) (.inr hfB)
  · -- The unit lies in a live block, and that is not `B`.
    unfold Clear at hleaf
    push Not at hleaf
    obtain ⟨C, ⟨D, hD, rfl⟩, hCu⟩ := hleaf
    have hDlt := (h.valid D hD).node_lt
    have hanc : Anc D.node (M + u) := hCu.elim id fun hup => by
      rw [hup.eq_of_lt (by omega)]
      exact anc_refl _
    rcases List.mem_cons.mp hD with rfl | hD
    · exfalso
      rcases anc_total hlu hanc with hup | hup
      · have := hup.le
        omega
      · have := (hup.half (by omega)).le
        omega
    · have hDrest : D.node ∈ nodesOf rest := ⟨D, hD, rfl⟩
      exact ⟨D.node, hbelow _ hanc fun hDB => h.clear _ hDrest (.inl hDB), hanc, .inl hDrest⟩

/-- A block is lost when a larger one that begins with it is marked free in its place. -/
theorem lost_of_heads (h : BlocksApart M (B :: rest)) (hwhole : ∀ C ∈ nodesOf (B :: rest), ¬ W C)
    {y : Nat} (heven : B.node % 2 = 0) (hy : Heads y B.node) (hne : y ≠ B.node) :
    Lost M (nodesOf rest) B.node (fun x => Free (nodesOf (B :: rest)) x ∨ x = y) W where
  whole C hC := hwhole C (by simp [hC])
  head C hC x _ hxC := by
    rintro (hF | rfl)
    · exact hF.1 C (by simp [hC]) (.inr hxC.anc)
    · exact h.clear C hC ((hxC.total hy).imp Heads.anc Heads.anc)
  below C hC z hz := by
    rintro (hF | rfl)
    · exact hF.1 C (by rcases hC with hC | rfl <;> simp [*]) (.inl hz)
    · rcases hC with hC | rfl
      · exact h.clear C hC (.inl (hz.trans hy.anc))
      · exact hne (hy.anc.antisymm hz)
  cover u hu hlu := by
    obtain ⟨z, hBz, hzu, hz⟩ := h.cover_sibling heven hu hlu
    exact ⟨z, hBz, hzu, hz.imp id .inl⟩

/-- The release of a block that a wrong mark leads past loses it. -/
theorem Misled.release (hM : M = 2 ^ L) (h : BlocksApart M (B :: rest))
    (hb : Misled M (B :: rest) b) :
    ∃ b', bbuddyBlockRelease b (B.first M) = .ok (b', 0) ∧
      (Misled M rest b' ∨ B.node % 2 = 0 ∧ ∃ F W, Flags M F W b' ∧
        Lost M (nodesOf rest) B.node F W) := by
  obtain ⟨W, hflags, hsplit, x, l, hx1, hl, hxl, hne, hW⟩ := hb
  have hvalid := h.valid B (by simp)
  by_cases hlead : ∀ y, Heads y B.node → 1 ≤ y → y ≠ B.node → W y
  · obtain ⟨b', hrun, hflags', hupper⟩ := h.release hM hflags hsplit hlead
    refine ⟨b', hrun, .inl ⟨_, hflags', hupper, x, l, hx1, ?_, hxl, hne, fun hW' => hW hW'.1⟩⟩
    rw [nodesOf_cons] at hl
    refine hl.resolve_left ?_
    rintro rfl
    exact hW (hlead x hxl hx1 hne)
  · push Not at hlead
    obtain ⟨y0, hy0, hy01, hy0ne, hWy0⟩ := hlead
    have hmem : B.node ∈ nodesOf (B :: rest) := by simp
    have hwhole : ∀ C ∈ nodesOf (B :: rest), ¬ W C := by
      rintro _ ⟨D, hD, rfl⟩ hWC
      exact h.not_split hD (hsplit _ (h.valid D hD).node_pos (h.valid D hD).node_lt hWC)
    obtain ⟨i, q, hi, hq, hheads, hbefore, hrun⟩ := hvalid.finds hM hflags
      (fun y hy _ hF => hF.1 _ hmem (.inr hy.anc)) (hwhole _ hmem)
    -- The mark stops the search at a larger block, which is given back instead.
    have hyne : 2 ^ i + q ≠ B.node := by
      intro heq
      rw [heq] at hbefore
      exact hWy0 (hbefore y0 hy0 hy01 hy0ne)
    have hpos : 0 < 2 ^ i := Nat.two_pow_pos i
    have heven := hheads.even hyne
    have hroot : i = 0 → ¬ (Free (nodesOf (B :: rest)) 2 ∨ 2 = 2 ^ i + q) := by
      rintro rfl (hF | heq)
      · obtain rfl : q = 0 := by omega
        exact hF.1 _ hmem (.inr (hheads.left hyne).anc)
      · omega
    obtain ⟨b', F', W', hup, hflags', hlost⟩ := (lost_of_heads h hwhole heven hheads hyne).climb
      (hflags.markFree (2 ^ i + q)) heven hi hq (.inr rfl) hroot
    exact ⟨b', hrun b' hup, .inr ⟨heven, F', W', hflags', hlost⟩⟩

/-- The right sibling of a block contains a unit. -/
theorem exists_unit (hM : M = 2 ^ L) (hB : B.Valid M) (heven : B.node % 2 = 0) :
    ∃ u, u < M ∧ Anc (B.node + 1) (M + u) := by
  obtain ⟨i, hi, hle, hnum⟩ := hB
  have hiL : i ≤ L := by rwa [hM, Nat.pow_le_pow_iff_right (by omega)] at hle
  have hpow : M = 2 ^ i * 2 ^ (L - i) := by rw [hM, ← Nat.pow_add, Nat.add_sub_cancel' hiL]
  have hnum1 : B.num + 1 < 2 ^ i := by
    rw [BuddyBlock.node, hi] at heven
    cases i with
    | zero => omega
    | succ i =>
        rw [Nat.pow_succ] at *
        omega
  refine ⟨(B.num + 1) * 2 ^ (L - i), ?_, L - i, ?_⟩
  · rw [hpow]
    exact Nat.mul_lt_mul_of_pos_right hnum1 (Nat.two_pow_pos _)
  · rw [hpow, ← Nat.add_mul, Nat.mul_div_cancel _ (Nat.two_pow_pos _), BuddyBlock.node, hi]
    omega

/-- After a block was lost, the releases of all others leave a block free that is not the
root. -/
theorem Lost.releaseAll (hM : M = 2 ^ L) {D : BuddyBlock} (hD : D.Valid M)
    (heven : D.node % 2 = 0) :
    ∀ (order : List BuddyBlock) (b : Bbuddy) (F W : Nat → Prop), BlocksApart M order →
      (∀ B ∈ order, ¬ Meets D.node B.node) → Flags M F W b →
      Lost M (nodesOf order) D.node F W →
      ∃ b', releaseAll M b order = .ok b' ∧ ∃ z, 1 < z ∧ z < 2 * M ∧ b'.freeAt z = true := by
  intro order
  induction order with
  | nil =>
      intro b F W _ _ hb h
      obtain ⟨u, hu, hDu⟩ := exists_unit hM hD heven
      obtain ⟨z, hDz, hzu, hz | hz⟩ := h.cover u hu hDu
      · simp at hz
      · have hpos := hD.node_pos
        have hge := hDz.le
        have hle := hzu.le
        exact ⟨b, rfl, z, by omega, by omega, (hb.free z (by omega) (by omega)).mpr hz⟩
  | cons B rest ih =>
      intro b F W happart hDB hb h
      obtain ⟨b1, F1, W1, hrun, hflags, hlost⟩ := h.release hM hb happart heven (hDB B (by simp))
      obtain ⟨b', hrest, hfree⟩ := ih b1 F1 W1 happart.tail
        (fun C hC => hDB C (List.mem_cons_of_mem _ hC)) hflags hlost
      exact ⟨b', by simp [MString.releaseAll, hrun, Loop.ok_bind, hrest], hfree⟩

/-- A misled release is among the rest, so some block is lost in the end. -/
theorem Misled.releaseAll (hM : M = 2 ^ L) :
    ∀ (order : List BuddyBlock) (b : Bbuddy), BlocksApart M order → Misled M order b →
      ∃ b', releaseAll M b order = .ok b' ∧ ∃ z, 1 < z ∧ z < 2 * M ∧ b'.freeAt z = true := by
  intro order
  induction order with
  | nil =>
      rintro b - ⟨W, -, -, x, l, -, hl, -⟩
      simp at hl
  | cons B rest ih =>
      intro b happart hb
      obtain ⟨b1, hrun, hmisled | ⟨heven, F, W, hflags, hlost⟩⟩ := hb.release hM happart
      · obtain ⟨b', hrest, hfree⟩ := ih b1 happart.tail hmisled
        exact ⟨b', by simp [MString.releaseAll, hrun, Loop.ok_bind, hrest], hfree⟩
      · obtain ⟨b', hrest, hfree⟩ := hlost.releaseAll hM (happart.valid B (by simp)) heven rest b1
          F W happart.tail (List.pairwise_cons.mp happart.apart).1 hflags
        exact ⟨b', by simp [MString.releaseAll, hrun, Loop.ok_bind, hrest], hfree⟩

/-- The run lemma: a legible buddy ends with exact books, if all releases are harmless, and
with a free block that is not the root otherwise. -/
theorem Legible.releaseAll (hM : M = 2 ^ L) :
    ∀ (order : List BuddyBlock) (b : Bbuddy), BlocksApart M order → Legible M order b →
      ∃ b', releaseAll M b order = .ok b' ∧ (HarmlessOrder M order ∧ BuddyBooks M ∅ b' ∨
        ¬ HarmlessOrder M order ∧ ∃ z, 1 < z ∧ z < 2 * M ∧ b'.freeAt z = true) := by
  intro order
  induction order with
  | nil =>
      rintro b - ⟨W, hflags, -, hsplit⟩
      simp only [nodesOf_nil] at hflags hsplit
      refine ⟨b, rfl, .inl ⟨trivial, hflags.congr (fun _ _ _ => Iff.rfl) fun x hx hlt => ?_⟩⟩
      exact ⟨hsplit x hx hlt, fun hs => absurd hs not_split_empty⟩
  | cons B rest ih =>
      intro b happart hb
      by_cases hharmless : HarmlessRelease M (nodesOf rest) B.node
      · obtain ⟨b1, hrun, hlegible⟩ := hb.release hM happart hharmless
        obtain ⟨b', hrest, hend⟩ := ih b1 happart.tail hlegible
        refine ⟨b', by simp [MString.releaseAll, hrun, Loop.ok_bind, hrest], hend.imp ?_ ?_⟩
        · exact fun ⟨hrestok, hbooks⟩ => ⟨⟨hharmless, hrestok⟩, hbooks⟩
        · exact fun ⟨hrestbad, hfree⟩ => ⟨fun hok => hrestbad hok.2, hfree⟩
      · obtain ⟨b1, hrun, hmisled⟩ := hb.mislead hM happart hharmless
        obtain ⟨b', hrest, hfree⟩ := hmisled.releaseAll hM rest b1 happart.tail
        refine ⟨b', by simp [MString.releaseAll, hrun, Loop.ok_bind, hrest], .inr ⟨?_, hfree⟩⟩
        exact fun hok => hharmless hok.1

end Losing

/-- Releasing the blocks of successful allocations in some order restores the fresh buddy
exactly if it has 32 or 64 smallest blocks and every release is harmless. -/
theorem releaseAll_restores_iff {M L : Nat} {words : Nat → BitVec 32} {b0 b1 : Bbuddy}
    {aligns : List Nat} {blocks order : List BuddyBlock} (hM : M = 2 ^ L) (h32 : 32 ≤ M)
    (hinit : bbuddyInit (some words) M = some b0)
    (haligns : ∀ a ∈ aligns, (∃ i, a = 2 ^ i) ∧ a ≤ M)
    (hall : allocAll b0 aligns = .ok (b1, blocks)) (hnum : ∀ B ∈ blocks, B.num ≠ ENOBLOCK)
    (hperm : blocks.Perm order) :
    (∃ b2, releaseAll M b1 order = .ok b2 ∧ Restored M b0 b2) ↔
      (M = 32 ∨ M = 64) ∧ HarmlessOrder M order := by
  by_cases hsize : M = 32 ∨ M = 64
  -- Every layer is in one word: the books are right after the allocations.
  · have hfresh := tracked_init hsize hinit
    have htracked := allocAll_tracked aligns b0 b1 [] blocks hfresh haligns hall hnum
    rw [List.append_nil] at htracked
    have hlive := htracked.perm hperm
    have happart : BlocksApart M order := ⟨hlive.valid, hlive.apart⟩
    have hlegible : Legible M order b1 := by
      refine ⟨_, hlive.books, fun x _ _ ⟨l, hl, hxl, hne⟩ => ?_, fun _ _ _ => id⟩
      exact ⟨l, hl, hxl.anc, hne.symm⟩
    obtain ⟨b2, hrun, ⟨hharmless, hbooks⟩ | ⟨hharm, z, hz1, hzM, hfree⟩⟩ :=
      Legible.releaseAll hM order b1 happart hlegible
    · refine iff_of_true ⟨b2, hrun, restored_of_books ?_ hbooks⟩ ⟨hsize, hharmless⟩
      simpa using hfresh.books
    · refine iff_of_false ?_ fun h => hharm h.2
      rintro ⟨b2', hrun', hrestored⟩
      rw [hrun] at hrun'
      cases hrun'
      exact not_restored_of_free hsize hz1 hzM hfree hrestored
  · refine iff_of_false ?_ fun h => hsize h.1
    -- From 128 pages on no release restores the flags.
    rintro ⟨b2, -, hrestored⟩
    have hL5 : 5 ≤ L := by
      rw [hM] at h32
      exact (Nat.pow_le_pow_iff_right (a := 2) (n := 5) (by omega)).mp h32
    have hL7 : 7 ≤ L := by
      by_contra hsmall
      interval_cases L <;> omega
    have := Nat.pow_le_pow_right (n := 2) (by omega) hL7
    exact not_restored_wide (by omega) hinit hrestored

/-- Two halves. -/
theorem releaseAll_restores_two : ∃ b1 b2, allocAll (freshBuddy 32) [2, 2]
      = .ok (b1, [⟨2, 0⟩, ⟨2, 1⟩]) ∧
    releaseAll 32 b1 [⟨2, 0⟩, ⟨2, 1⟩] = .ok b2 ∧ Restored 32 (freshBuddy 32) b2 := by
  have hrun : (do
      let (_, blocks) ← allocAll (freshBuddy 32) [2, 2]
      .ok blocks : Except Fault _) = .ok [⟨2, 0⟩, ⟨2, 1⟩] := by
    decide +kernel
  obtain ⟨⟨b1, blocks⟩, hall, hblocks⟩ := Loop.exists_of_bind hrun
  obtain rfl : blocks = [⟨2, 0⟩, ⟨2, 1⟩] := Except.ok.inj hblocks
  have hinit : bbuddyInit (some fun _ => 0) 32 = some (freshBuddy 32) := rfl
  have hfirst : HarmlessRelease 32 (nodesOf [⟨2, 1⟩]) 2 := fun g hg _ hclear =>
    absurd hclear (not_clear_of_sibling ⟨⟨2, 1⟩, by simp, by decide⟩ hg)
  have hsecond : HarmlessRelease 32 (nodesOf []) 3 := fun g _ _ _ x _ _ _ => by simp
  obtain ⟨b2, hreleases, hrestored⟩ := (releaseAll_restores_iff (L := 5) rfl (by decide) hinit
    (by intro a ha; obtain rfl : a = 2 := by simpa using ha
        exact ⟨⟨1, rfl⟩, by decide⟩) hall (by decide) (List.Perm.refl _)).mpr
      ⟨.inl rfl, hfirst, hsecond, trivial⟩
  exact ⟨b1, b2, hall, hreleases, hrestored⟩

/-- Four blocks of layer 4, of which the third, the fourth, the first and the second are
released in this order. In the end block 1 of layer 4 is free, and so is the root. -/
theorem releaseAll_leaves_four :
    ¬ ∀ (M L : Nat) (words : Nat → BitVec 32) (b0 b1 : Bbuddy) (aligns : List Nat)
      (blocks order : List BuddyBlock), M = 2 ^ L → 32 ≤ M → bbuddyInit (some words) M = some b0 →
        (∀ a ∈ aligns, (∃ i, a = 2 ^ i) ∧ a ≤ M) → allocAll b0 aligns = .ok (b1, blocks) →
        (∀ B ∈ blocks, B.num ≠ ENOBLOCK) → blocks.Perm order →
        ∃ b2, releaseAll M b1 order = .ok b2 ∧ Restored M b0 b2 := by
  intro hall
  have hrun : (do
      let (b1, blocks) ← allocAll (freshBuddy 32) [4, 4, 4, 4]
      let b2 ← releaseAll 32 b1 [⟨4, 2⟩, ⟨4, 3⟩, ⟨4, 0⟩, ⟨4, 1⟩]
      .ok (blocks, freeBit b2 ⟨4, 1⟩) : Except Fault _)
        = .ok ([⟨4, 0⟩, ⟨4, 1⟩, ⟨4, 2⟩, ⟨4, 3⟩], true) := by
    decide +kernel
  obtain ⟨⟨b1, blocks⟩, hallocs, hrun⟩ := Loop.exists_of_bind hrun
  obtain ⟨b2, hreleases, hrun⟩ := Loop.exists_of_bind hrun
  obtain ⟨rfl, hfree⟩ := Prod.mk.inj (Except.ok.inj hrun)
  obtain ⟨b2', hreleases', -, honly, -⟩ := hall 32 5 (fun _ => 0) _ b1 [4, 4, 4, 4] _
    [⟨4, 2⟩, ⟨4, 3⟩, ⟨4, 0⟩, ⟨4, 1⟩] rfl (by decide) rfl
    (by intro a ha; obtain rfl : a = 4 := by simpa using ha
        exact ⟨⟨2, rfl⟩, by decide⟩) hallocs (by decide) (by decide)
  rw [hreleases] at hreleases'
  cases hreleases'
  exact absurd ((honly _ ⟨2, rfl, by decide, by decide⟩).mp hfree) (by decide)

end MString
