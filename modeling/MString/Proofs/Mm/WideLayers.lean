import MString.Proofs.Mm.BuddyRuns

/-!
# `MString.Proofs.Mm.WideLayers`: an allocation from any buddy

`bbuddy_block_alloc` goes up to a layer with a free block and comes down again, separating
one block in each layer. From layer 64 on the code separates a block in one place and frees
its halves in another one (`partedAt`), and from layer 128 on it returns a wrong number
(`numberOf`).

* `bbuddyBlockAlloc_descent`: an allocation is a `Descent` from the first free block of the
  deepest layer that has one.
* `Descent.right`: with layers of at most 64 blocks, it takes a block out of the free space.
* `Descent.wrong`: otherwise some other block of the layer is lost.
* `allocRight_iff`: an allocation is right when its layer has at most 64 blocks, or there is
  no block for it.
-/

set_option autoImplicit false

namespace MString

open HeapTree Bbuddy

/-! ### The turns -/

/-- The block whose halves the code frees when it separates the block `h` of layer `2 ^ i`:
in a layer of several words it looks at the bit only. -/
def partedAt (i h : Nat) : Nat := if i ≤ 5 then h else 2 ^ i + h % 32

/-- The number that the code returns for the block `g` of layer `2 ^ i`. -/
def numberOf (i g : Nat) : Nat := if i ≤ 6 then g - 2 ^ i else g - 64

/-- The block `h` is used and separated, the halves of `c` are free. -/
def partBlock (b : Bbuddy) (h c : Nat) : Bbuddy :=
  markChilds ((b.clearNbmp (h / 32) (h % 32)).clearPbmp (h / 32) (h % 32))
    (c * 2 / 32) (c * 2 % 32)

/-- No block from `lo` up to `hi` is free. -/
def NoneFree (b : Bbuddy) (lo hi : Nat) : Prop := ∀ x, lo ≤ x → x < hi → b.freeAt x = false

/-- A layer of at least 128 blocks fills a multiple of four words. -/
theorem wide_layer {i : Nat} (hi : 7 ≤ i) : 2 ^ i = 32 * (2 ^ i / 32) ∧ 4 ≤ 2 ^ i / 32 := by
  have hpow : 2 ^ i = 128 * 2 ^ (i - 7) := by
    rw [show (128 : Nat) = 2 ^ 7 from rfl, ← Nat.pow_add, Nat.add_sub_cancel' hi]
  have := Nat.two_pow_pos (i - 7)
  omega

section Turns

variable {b : Bbuddy} {i h m : Nat}

/-- The last turn. -/
theorem allocTurn_number (hf : First b (2 ^ i) h) :
    allocTurn (b, 2 ^ i, 0) = .ok (.inr (takeBlock b h, numberOf i h)) := by
  unfold numberOf
  by_cases hi : i ≤ 6
  · rw [if_pos hi]
    exact allocTurn_take hi hf
  · rw [if_neg hi]
    obtain ⟨hw, hwide⟩ := wide_layer (show 7 ≤ i by omega)
    have hge := hf.ge
    have hlt := hf.lt
    rw [hw] at hf
    obtain ⟨hword, hbit⟩ := scan_some hf
    have hne : 2 ^ i / 32 ≠ 0 := by omega
    simp only [allocTurn, if_pos hne, hword,
      show 2 ^ i / 32 + (h / 32 - 2 ^ i / 32) = h / 32 by omega, hbit, takeBlock, if_true]
    congr 3
    rw [if_pos (by omega)]
    omega

/-- A turn on the way down. -/
theorem allocTurn_part (hf : First b (2 ^ i) h) :
    allocTurn (b, 2 ^ i, m + 1) = .ok (.inl (partBlock b h (partedAt i h), 2 ^ (i + 1), m)) := by
  rw [Nat.pow_succ]
  unfold partedAt
  by_cases hi : i ≤ 5
  · rw [if_pos hi]
    exact allocTurn_cut (by omega) hf
  · rw [if_neg hi]
    have hw : 2 ^ i = 32 * (2 ^ i / 32) ∧ 2 ≤ 2 ^ i / 32 := by
      rcases Nat.lt_or_eq_of_le (show 6 ≤ i by omega) with hlt | rfl
      · obtain ⟨hw, hwide⟩ := wide_layer hlt
        exact ⟨hw, by omega⟩
      · decide
    obtain ⟨hw, hwide⟩ := hw
    have hge := hf.ge
    have hlt := hf.lt
    rw [hw] at hf
    obtain ⟨hword, hbit⟩ := scan_some hf
    have hne : 2 ^ i / 32 ≠ 0 := by omega
    -- The index of the word does not enter the place of the halves.
    have hp : bbuddyIndexp (2 ^ i * 2) (h % 32 * 2) = (2 ^ i + h % 32) * 2 / 32 := by
      rw [bbuddyIndexp, if_pos (by omega)]
      omega
    have hn : bbuddyIndexbn (h % 32 * 2) = (2 ^ i + h % 32) * 2 % 32 := by
      unfold bbuddyIndexbn
      split <;> omega
    simp only [allocTurn, if_pos hne, hword,
      show 2 ^ i / 32 + (h / 32 - 2 ^ i / 32) = h / 32 by omega, hbit, partBlock, hp, hn]
    rfl

/-- A turn on the way up. -/
theorem allocTurn_up (hnone : NoneFree b (2 ^ i) (2 ^ (i + 1))) :
    allocTurn (b, 2 ^ i, m) = .ok (.inl (b, 2 ^ i / 2, m + 1)) := by
  have hlayer : ∀ j, 2 ^ i ≤ j → j < 2 ^ i * 2 → b.freeAt j = false := hnone
  by_cases hi : i ≤ 6
  · exact allocTurn_none hi hlayer
  · obtain ⟨hw, hwide⟩ := wide_layer (show 7 ≤ i by omega)
    rw [hw] at hlayer
    have hne : 2 ^ i / 32 ≠ 0 := by omega
    simp only [allocTurn, if_pos hne, scanWords_none hlayer]

end Turns

/-! ### The flags -/

/-- The bitmaps have words for all blocks, and do not overlap. -/
def Roomy (M : Nat) (b : Bbuddy) : Prop := ∀ h, h < 2 * M → h / 32 < b.nbmpAt

section Flags

variable {M i h c x : Nat} {b : Bbuddy}

/-- Cutting a block keeps the room, ... -/
theorem Roomy.partBlock (hb : Roomy M b) : Roomy M (MString.partBlock b h c) := hb

/-- A block that is taken is not free, ... -/
theorem freeAt_takeBlock (hb : Roomy M b) (hh : h < 2 * M) :
    (takeBlock b h).freeAt x = (b.freeAt x && !decide (x = h)) := by
  rw [takeBlock, markPbmp, freeAt_setPbmp (by exact hb h hh), freeAt_clearNbmp]

/-- ... and is one piece. -/
theorem wholeAt_takeBlock (hb : Roomy M b) (hx : x < 2 * M) :
    (takeBlock b h).wholeAt x = (b.wholeAt x || decide (x = h)) := by
  rw [takeBlock, wholeAt_markPbmp, clearNbmp, wholeAt_setNbmp (by exact hb x hx)]

/-- A block that is cut is not free, but two others are. -/
theorem freeAt_partBlock (hb : Roomy M b) (hh : h < 2 * M) (hc : c * 2 + 1 < 2 * M) :
    (partBlock b h c).freeAt x
      = (b.freeAt x && !decide (x = h) || decide (x = c * 2) || decide (x = c * 2 + 1)) := by
  have hword : c * 2 / 32 = (c * 2 + 1) / 32 := by omega
  have hbit : c * 2 % 32 + 1 = (c * 2 + 1) % 32 := by omega
  have hcw : (c * 2 + 1) / 32 < b.nbmpAt := hb _ hc
  rw [partBlock, markChilds, markPbmp, freeAt_setPbmp (by rw [hword]; exact hcw), markPbmp,
    freeAt_setPbmp (by rw [hword]; exact hcw), hbit, hword, freeAt_markNbmp, ← hword,
    freeAt_markNbmp, clearPbmp, freeAt_setPbmp (by exact hb h hh), freeAt_clearNbmp]

end Flags

/-- The block that the code cuts lies in the layer. -/
theorem partedAt_bounds {i h : Nat} (hge : 2 ^ i ≤ h) (hlt : h < 2 ^ i * 2) :
    2 ^ i ≤ partedAt i h ∧ partedAt i h < 2 ^ i * 2 := by
  unfold partedAt
  split
  · exact ⟨hge, hlt⟩
  · have : 2 ^ 6 ≤ 2 ^ i := Nat.pow_le_pow_right (by omega) (by omega)
    omega

/-- Halves that are freed elsewhere are freed below a block far to the left. -/
theorem partedAt_far {i h : Nat} (hge : 2 ^ i ≤ h)
    (hplace : partedAt i h ≠ h) : 6 ≤ i ∧ 2 ^ i + 32 ≤ h := by
  have hsix : 6 ≤ i := by
    by_contra hlow
    exact hplace (if_pos (by omega))
  have hdef : partedAt i h = 2 ^ i + h % 32 := if_neg (by omega)
  have hdvd : 2 ^ i % 32 = 0 := by
    rw [show i = 5 + (i - 5) by omega, Nat.pow_add]
    exact Nat.mul_mod_right _ _
  omega

/-! ### An allocation is a descent -/

/-- From the block `h` of layer `2 ^ i` down `m` layers to the block `g`. -/
inductive Descent : Nat → Nat → Bbuddy → Nat → Nat → Bbuddy → Prop where
  | take {i h : Nat} {b : Bbuddy} (first : First b (2 ^ i) h) : Descent i h b 0 h (takeBlock b h)
  | part {i h m g : Nat} {b b' : Bbuddy} (first : First b (2 ^ i) h)
      (down : Descent (i + 1) (partedAt i h * 2) (partBlock b h (partedAt i h)) m g b') :
      Descent i h b (m + 1) g b'

section Descents

variable {M : Nat} {b : Bbuddy}

/-- The halves are the only free blocks of their layer. -/
theorem first_partBlock {i h : Nat} {hi : Nat} (hb : Roomy M b) (hf : First b (2 ^ i) h)
    (hnone : NoneFree b (2 ^ (i + 1)) hi) (hM : 2 ^ (i + 1) ≤ M) (hle : 2 ^ (i + 2) ≤ hi) :
    First (partBlock b h (partedAt i h)) (2 ^ (i + 1)) (partedAt i h * 2) ∧
      NoneFree (partBlock b h (partedAt i h)) (2 ^ (i + 2)) hi := by
  have hge := hf.ge
  have hlt := hf.lt
  have hpow : 2 ^ (i + 1) = 2 ^ i * 2 := Nat.pow_succ 2 i
  have hpow' : 2 ^ (i + 2) = 2 ^ i * 4 := by
    rw [Nat.pow_add]
  obtain ⟨hcge, hclt⟩ := partedAt_bounds hge hlt
  have hfree := fun x => @freeAt_partBlock M h (partedAt i h) x b hb (by omega) (by omega)
  refine ⟨⟨by omega, by omega, ?_, fun j hj hjlt => ?_⟩, fun x hx hxlt => ?_⟩
  · rw [hfree]
    simp
  · rw [hfree, hnone j hj (by omega)]
    simp
    omega
  · rw [hfree, hnone x (by omega) hxlt]
    simp
    omega

/-- The way down. -/
theorem exists_descent :
    ∀ (m i h : Nat) (b : Bbuddy) (n : Nat), Roomy M b → First b (2 ^ i) h →
      NoneFree b (2 ^ (i + 1)) (2 ^ (i + m + 1)) → 2 ^ (i + m) ≤ M →
      ∃ g b', Descent i h b m g b' ∧
        Loop.run .diverges allocTurn (n + (m + 1)) (b, 2 ^ i, m)
          = .ok (b', numberOf (i + m) g) := by
  intro m
  induction m with
  | zero =>
      intro i h b n _ hf _ _
      exact ⟨h, _, .take hf, Loop.run_exit (allocTurn_number hf)⟩
  | succ m ih =>
      intro i h b n hb hf hnone hM
      have hle : 2 ^ (i + 1) ≤ M := Nat.le_trans (Nat.pow_le_pow_right (by omega) (by omega)) hM
      obtain ⟨hf', hnone'⟩ := first_partBlock hb hf hnone hle
        (Nat.pow_le_pow_right (by omega) (by omega))
      rw [show i + (m + 1) = i + 1 + m by omega] at hnone' hM ⊢
      obtain ⟨g, b', hdown, hrun⟩ := ih (i + 1) _ _ n hb.partBlock hf' hnone' hM
      refine ⟨g, b', .part hf hdown, ?_⟩
      rw [← Nat.add_assoc, Loop.run_continue (allocTurn_part hf)]
      exact hrun

/-- The way up. -/
theorem exists_ascent (hb : Roomy M b) :
    ∀ (i m n : Nat), NoneFree b (2 ^ (i + 1)) (2 ^ (i + m + 1)) → 2 ^ (i + m) ≤ M →
      2 * i + m + 2 ≤ n →
      (∃ k h g b', k ≤ i ∧ First b (2 ^ k) h ∧ Descent k h b (i + m - k) g b' ∧
        Loop.run .diverges allocTurn n (b, 2 ^ i, m) = .ok (b', numberOf (i + m) g)) ∨
      (Loop.run .diverges allocTurn n (b, 2 ^ i, m) = .ok (b, ENOBLOCK) ∧
        NoneFree b 1 (2 ^ (i + m + 1))) := by
  intro i
  -- The induction is on the layer from which the search goes up.
  induction i with
  | zero =>
      intro m n hnone hM hn
      cases hfree : b.freeAt 1 with
      | true =>
          have hf : First b (2 ^ 0) 1 := ⟨by omega, by omega, hfree, fun j hj hj1 => by omega⟩
          obtain ⟨n, rfl⟩ : ∃ k, n = k + (m + 1) := ⟨n - (m + 1), by omega⟩
          obtain ⟨g, b', hdown, hrun⟩ := exists_descent m 0 1 b n hb hf hnone hM
          refine .inl ⟨0, 1, g, b', Nat.le_refl _, hf, ?_, hrun⟩
          rw [show 0 + m - 0 = m by omega]
          exact hdown
      | false =>
          have hnone' : NoneFree b 1 (2 ^ (0 + m + 1)) := fun x hx hlt => by
            by_cases hx1 : x = 1
            · exact hx1 ▸ hfree
            · exact hnone x (by omega) hlt
          refine .inr ⟨?_, hnone'⟩
          obtain ⟨n, rfl⟩ : ∃ k, n = k + 2 := ⟨n - 2, by omega⟩
          have hup : allocTurn (b, 2 ^ 0, m) = .ok (.inl (b, 2 ^ 0 / 2, m + 1)) :=
            allocTurn_up fun x hx hlt => hnone' x hx
              (Nat.lt_of_lt_of_le hlt (Nat.pow_le_pow_right (by omega) (by omega)))
          rw [Loop.run_continue hup]
          exact Loop.run_exit allocTurn_zero
  | succ i ih =>
      intro m n hnone hM hn
      have hpow : 2 ^ (i + 1) = 2 ^ i * 2 := Nat.pow_succ 2 i
      have hpow' : 2 ^ (i + 1 + 1) = 2 ^ (i + 1) * 2 := Nat.pow_succ 2 (i + 1)
      -- Either this layer has a free block, which is cut down, or the search goes up.
      rcases first_or_none b (2 ^ (i + 1)) with ⟨h, hf⟩ | hlayer
      · obtain ⟨n, rfl⟩ : ∃ k, n = k + (m + 1) := ⟨n - (m + 1), by omega⟩
        obtain ⟨g, b', hdown, hrun⟩ := exists_descent m (i + 1) h b n hb hf hnone hM
        refine .inl ⟨i + 1, h, g, b', Nat.le_refl _, hf, ?_, hrun⟩
        rw [show i + 1 + m - (i + 1) = m by omega]
        exact hdown
      · rw [← hpow'] at hlayer
        obtain ⟨n, rfl⟩ : ∃ k, n = k + 1 := ⟨n - 1, by omega⟩
        have hup := allocTurn_up (m := m) hlayer
        rw [show 2 ^ (i + 1) / 2 = 2 ^ i by omega] at hup
        rw [Loop.run_continue hup]
        rw [show i + 1 + m = i + (m + 1) by omega] at hnone hM ⊢
        have hdeep : NoneFree b (2 ^ (i + 1)) (2 ^ (i + (m + 1) + 1)) := fun x hx hlt => by
          by_cases hin : x < 2 ^ (i + 1 + 1)
          · exact hlayer x hx hin
          · exact hnone x (by omega) hlt
        rcases ih (m + 1) n hdeep hM (by omega) with ⟨k, h, g, b', hk, hf, hdown, hrun⟩ | hnone'
        · exact .inl ⟨k, h, g, b', by omega, hf, hdown, hrun⟩
        · exact .inr hnone'

/-- An allocation finds a block to start from, or there is none for it. -/
theorem bbuddyBlockAlloc_descent {L i : Nat} (hb : Roomy (2 ^ L) b) (hL : L < 32) (hi : i ≤ L) :
    (∃ k h g b', k ≤ i ∧ First b (2 ^ k) h ∧ Descent k h b (i - k) g b' ∧
      bbuddyBlockAlloc b (2 ^ i) = .ok (b', numberOf i g)) ∨
    (bbuddyBlockAlloc b (2 ^ i) = .ok (b, ENOBLOCK) ∧ NoneFree b 1 (2 ^ (i + 1))) :=
  exists_ascent hb i 0 TURNS (fun x hx hlt => absurd hx (Nat.not_le.mpr hlt))
    (Nat.pow_le_pow_right (by omega) hi) (by unfold TURNS; omega)

/-- The descent ends in its layer. -/
theorem Descent.layer {i h m g : Nat} {b b' : Bbuddy} (hd : Descent i h b m g b') :
    2 ^ (i + m) ≤ g ∧ g < 2 ^ (i + m) * 2 := by
  induction hd with
  | take first => exact ⟨first.ge, first.lt⟩
  | @part i h m g b b' first down ih =>
      rw [show i + (m + 1) = i + 1 + m by omega]
      exact ih

end Descents

/-! ### The free space -/

/-- Unit `u` of the smallest layer is in a free block. -/
def FreeUnit (M : Nat) (b : Bbuddy) (u : Nat) : Prop :=
  ∃ x, 1 ≤ x ∧ x < 2 * M ∧ b.freeAt x = true ∧ Anc x (M + u)

/-- No free block is a part of another one. -/
def FreeApart (M : Nat) (b : Bbuddy) : Prop :=
  ∀ x y, 1 ≤ x → y < 2 * M → b.freeAt x = true → b.freeAt y = true → Anc x y → x = y

/-- No free block has a part of `c`. -/
def Hidden (M : Nat) (b : Bbuddy) (c : Nat) : Prop :=
  ∀ x, 1 ≤ x → x < 2 * M → b.freeAt x = true → ¬ Meets x c

section Space

variable {M i h g c d m : Nat} {b b' : Bbuddy}

/-- Free blocks that meet are one. -/
theorem FreeApart.eq_of_meets (hap : FreeApart M b) {x y : Nat} (hx1 : 1 ≤ x) (hx : x < 2 * M)
    (hy1 : 1 ≤ y) (hy : y < 2 * M) (hxf : b.freeAt x = true) (hyf : b.freeAt y = true)
    (hm : Meets x y) : x = y := by
  cases hm with
  | inl hxy => exact hap x y hx1 hy hxf hyf hxy
  | inr hyx => exact (hap y x hy1 hx hyf hxf hyx).symm

/-- Taking a block out of the free space. -/
theorem hidden_takeBlock (hb : Roomy M b) (hap : FreeApart M b) (h1 : 1 ≤ h) (hh : h < 2 * M)
    (hfree : b.freeAt h = true) : Hidden M (takeBlock b h) h := by
  intro x hx1 hx hxf hm
  rw [freeAt_takeBlock hb hh, Bool.and_eq_true, Bool.not_eq_true', decide_eq_false_iff_not] at hxf
  exact hxf.2 (hap.eq_of_meets hx1 hx h1 hh hxf.1 hfree hm)

/-- Taking a block takes its units, and no other ones. -/
theorem freeUnit_takeBlock (hb : Roomy M b) (hap : FreeApart M b) (h1 : 1 ≤ h) (hh : h < 2 * M)
    (hfree : b.freeAt h = true) (u : Nat) :
    FreeUnit M (takeBlock b h) u ↔ FreeUnit M b u ∧ ¬ Anc h (M + u) := by
  have hbits := fun x => @freeAt_takeBlock M h x b hb hh
  constructor
  · intro ⟨x, hx1, hx, hxf, hanc⟩
    have hxf' := hxf
    rw [hbits, Bool.and_eq_true] at hxf
    exact ⟨⟨x, hx1, hx, hxf.1, hanc⟩, fun hhu =>
      hidden_takeBlock hb hap h1 hh hfree x hx1 hx hxf' (anc_total hanc hhu)⟩
  · intro ⟨⟨x, hx1, hx, hxf, hanc⟩, hnot⟩
    refine ⟨x, hx1, hx, ?_, hanc⟩
    rw [hbits, hxf, Bool.true_and, Bool.not_eq_true', decide_eq_false_iff_not]
    rintro rfl
    exact hnot hanc

/-- The free blocks after a block is separated in its own place. -/
theorem freeAt_partBlock_iff (hb : Roomy M b) (hc : c * 2 + 1 < 2 * M) (hh : h < 2 * M) (x : Nat) :
    (partBlock b h c).freeAt x = true
      ↔ (b.freeAt x = true ∧ x ≠ h) ∨ x = c * 2 ∨ x = c * 2 + 1 := by
  rw [freeAt_partBlock hb hh hc]
  simp [or_assoc]

/-- Cutting keeps the free blocks apart, ... -/
theorem apart_partBlock (hb : Roomy M b) (hap : FreeApart M b) (h1 : 1 ≤ h) (hh : h * 2 + 1 < 2 * M)
    (hfree : b.freeAt h = true) : FreeApart M (partBlock b h h) := by
  have hbits := freeAt_partBlock_iff hb hh (show h < 2 * M by omega)
  -- A free block that meets a half of `h` meets `h`.
  have hhalf : ∀ x y, 1 ≤ x → x < 2 * M → b.freeAt x = true → x ≠ h → y / 2 = h → ¬ Meets x y := by
    intro x y hx1 hx hxf hne hy hm
    exact hne (hap.eq_of_meets hx1 hx h1 (by omega) hxf hfree (hm.mono (hy ▸ anc_half y)))
  have hother : ∀ x, x = h * 2 ∨ x = h * 2 + 1 → x / 2 = h := by
    intro x hx
    omega
  intro x y hx1 hy hxf hyf hanc
  have hle := hanc.le
  rcases (hbits x).mp hxf with ⟨hxf, hxne⟩ | hx
  · rcases (hbits y).mp hyf with ⟨hyf, -⟩ | hy'
    · exact hap x y hx1 hy hxf hyf hanc
    · exact absurd (.inl hanc) (hhalf x y hx1 (by omega) hxf hxne (hother y hy'))
  · rcases (hbits y).mp hyf with ⟨hyf, hyne⟩ | hy'
    · exact absurd (.inr hanc) (hhalf y x (by omega) hy hyf hyne (hother x hx))
    · exact hanc.eq_of_lt (by omega)

/-- ... and loses no unit. -/
theorem freeUnit_partBlock (hb : Roomy M b) (h1 : 1 ≤ h) (hh : h * 2 + 1 < 2 * M)
    (hfree : b.freeAt h = true) (u : Nat) : FreeUnit M (partBlock b h h) u ↔ FreeUnit M b u := by
  have hbits := freeAt_partBlock_iff hb hh (show h < 2 * M by omega)
  constructor
  · intro ⟨x, hx1, hx, hxf, hanc⟩
    rcases (hbits x).mp hxf with ⟨hxf, -⟩ | hx'
    · exact ⟨x, hx1, hx, hxf, hanc⟩
    · exact ⟨h, h1, by omega, hfree, Anc.trans ⟨1, by omega⟩ hanc⟩
  · intro ⟨x, hx1, hx, hxf, hanc⟩
    by_cases hxh : x = h
    · subst hxh
      obtain ⟨y, hy, hyu⟩ := hanc.child (by omega)
      exact ⟨y, by omega, by omega, (hbits y).mpr (.inr (by omega)), hyu⟩
    · exact ⟨x, hx1, hx, (hbits x).mpr (.inl ⟨hxf, hxh⟩), hanc⟩

/-- In layers of at most 64 blocks, a descent takes its block out of the free space. -/
theorem Descent.right (hd : Descent i h b m g b') (hb : Roomy M b) (hap : FreeApart M b)
    (hM : 2 ^ (i + m) ≤ M) (hi : i + m ≤ 6) :
    Anc h g ∧ b'.freeAt g = false ∧ b'.wholeAt g = true ∧
      ∀ u, FreeUnit M b' u ↔ FreeUnit M b u ∧ ¬ Anc g (M + u) := by
  induction hd with
  -- The block that is taken is free, and a block of its layer.
  | @take i h b first =>
      have hpos := Nat.two_pow_pos i
      have hge := first.ge
      have hlt := first.lt
      have hh : h < 2 * M := by
        rw [Nat.add_zero] at hM
        omega
      refine ⟨anc_refl h, ?_, ?_, freeUnit_takeBlock hb hap (by omega) hh first.free⟩
      · rw [freeAt_takeBlock hb hh]
        simp
      · rw [wholeAt_takeBlock hb hh]
        simp
  | @part i h m g b b' first down ih =>
      have hpos := Nat.two_pow_pos i
      have hge := first.ge
      have hlt := first.lt
      have hle : 2 ^ (i + 1) ≤ 2 ^ (i + 1 + m) := Nat.pow_le_pow_right (by omega) (by omega)
      have hpow : 2 ^ (i + 1) = 2 ^ i * 2 := Nat.pow_succ 2 i
      have hplace : partedAt i h = h := if_pos (by omega)
      rw [hplace] at ih
      rw [show i + (m + 1) = i + 1 + m by omega] at hM hi
      obtain ⟨hanc, hfree, hwhole, hspace⟩ := ih hb.partBlock
        (apart_partBlock hb hap (by omega) (by omega) first.free) hM hi
      refine ⟨Anc.trans ⟨1, by omega⟩ hanc, hfree, hwhole, fun u => ?_⟩
      rw [hspace u, freeUnit_partBlock hb (by omega) (by omega) first.free u]

/-- What a layer of several words has lost stays lost: the code frees blocks at the start of
their layers. -/
theorem Descent.hides {k : Nat} (hd : Descent i h b m g b') (hb : Roomy M b)
    (hM : 2 ^ (i + m) ≤ M) (hk : 6 ≤ k) (hki : k < i) (hge : 2 ^ k + 32 ≤ d) (hlt : d < 2 ^ k * 2)
    (hhide : Hidden M b d) : Hidden M b' d := by
  induction hd with
  -- Taking the block frees nothing.
  | @take i h b first =>
      have hh := first.lt
      intro x hx1 hx hxf
      rw [freeAt_takeBlock hb (by rw [Nat.add_zero] at hM; omega), Bool.and_eq_true] at hxf
      exact hhide x hx1 hx hxf.1
  | @part i h m g b b' first down ih =>
      have hfge := first.ge
      have hflt := first.lt
      have hpow : 2 ^ (i + 1) = 2 ^ i * 2 := Nat.pow_succ 2 i
      have hle : 2 ^ (i + 1) ≤ 2 ^ (i + (m + 1)) := Nat.pow_le_pow_right (by omega) (by omega)
      have hki' : 2 ^ (k + 1) ≤ 2 ^ i := Nat.pow_le_pow_right (by omega) hki
      have hpowk : 2 ^ (k + 1) = 2 ^ k * 2 := Nat.pow_succ 2 k
      have hplace : partedAt i h = 2 ^ i + h % 32 := if_neg (by omega)
      obtain ⟨hcge, hclt⟩ := partedAt_bounds hfge hflt
      -- Parting marks two halves as free, and the descent goes on in one of them.
      refine ih hb.partBlock (by rwa [show i + 1 + m = i + (m + 1) by omega]) (by omega) ?_
      intro x hx1 hx hxf
      rcases (freeAt_partBlock_iff hb (by omega) (by omega) x).mp hxf with ⟨hxf, -⟩ | hx'
      · exact hhide x hx1 hx hxf
      · rintro (hanc | hanc)
        · have := hanc.le
          omega
        · -- In the layer of `d`, the freed block lies in one of the first 16 blocks.
          obtain ⟨e, rfl⟩ : ∃ e, i = k + (e + 1) := ⟨i - k - 1, by omega⟩
          have hlayer : 2 ^ (k + (e + 1) + 1) = 2 ^ k * 2 ^ (e + 2) := by
            rw [← Nat.pow_add]
            congr 1
          have hfour : 4 ≤ 2 ^ (e + 2) := by
            have : 2 ^ 2 ≤ 2 ^ (e + 2) := Nat.pow_le_pow_right (by omega) (by omega)
            omega
          have hup : x / 2 ^ (e + 2) < 2 ^ k + 32 ∧ 2 ^ k ≤ x / 2 ^ (e + 2) := by
            constructor
            · rw [Nat.div_lt_iff_lt_mul (by omega), Nat.add_mul, ← hlayer]
              omega
            · rw [Nat.le_div_iff_mul_le (by omega), ← hlayer]
              omega
          obtain ⟨hup, hup'⟩ := hup
          have hanc' : Anc (x / 2 ^ (e + 2)) x := ⟨e + 2, rfl⟩
          generalize x / 2 ^ (e + 2) = a at hup hup' hanc'
          rcases anc_total hanc hanc' with had | had
          · have := had.le
            omega
          · have := had.eq_of_lt (by omega)
            omega

end Space

section Wrong

variable {M i h g m : Nat} {b b' : Bbuddy}

/-- A part of a hidden block is hidden. -/
theorem Hidden.mono {c d : Nat} (hh : Hidden M b c) (hcd : Anc c d) : Hidden M b d :=
  fun x hx1 hx hxf hm => hh x hx1 hx hxf (hm.mono hcd)

/-- A block whose halves are freed elsewhere is lost. -/
theorem hidden_partBlock (hb : Roomy M b) (hap : FreeApart M b) (hM : 2 ^ i * 2 ≤ M)
    (first : First b (2 ^ i) h) (hplace : partedAt i h ≠ h) :
    Hidden M (partBlock b h (partedAt i h)) h := by
  have hpos := Nat.two_pow_pos i
  have hge := first.ge
  have hlt := first.lt
  obtain ⟨hpge, hplt⟩ := partedAt_bounds hge hlt
  intro x hx1 hx hxf hm
  rcases (freeAt_partBlock_iff hb (by omega) (by omega) x).mp hxf with ⟨hxf, hne⟩ | hx'
  · exact hne (hap.eq_of_meets hx1 hx (by omega) (by omega) hxf first.free hm)
  · rcases hm with hanc | hanc
    · have := hanc.le
      omega
    · have hhalf := hanc.half (by omega)
      rw [show x / 2 = partedAt i h by omega] at hhalf
      exact hplace (hhalf.eq_of_lt (by omega)).symm

/-- A descent to a layer of at least 128 blocks takes a block of that layer out of the free
space that is not the one it returns the number of. -/
theorem Descent.wrong (hd : Descent i h b m g b') (hb : Roomy M b) (hap : FreeApart M b)
    (hM : 2 ^ (i + m) ≤ M) (hi : 7 ≤ i + m) :
    ∃ c, 2 ^ (i + m) ≤ c ∧ c < 2 ^ (i + m) * 2 ∧ Anc h c ∧ c ≠ 2 ^ (i + m) + (g - 64) ∧
      Hidden M b' c := by
  induction hd with
  | @take i h b first =>
      have hge := first.ge
      have hlt := first.lt
      have hwide : 2 ^ 7 ≤ 2 ^ i := Nat.pow_le_pow_right (by omega) hi
      simp only [Nat.add_zero] at hM ⊢
      exact ⟨h, hge, hlt, anc_refl h, by omega,
        hidden_takeBlock hb hap (by omega) (by omega) first.free⟩
  | @part i h m g b b' first down ih =>
      have hpos := Nat.two_pow_pos i
      have hge := first.ge
      have hlt := first.lt
      have hpow : 2 ^ (i + 1) = 2 ^ i * 2 := Nat.pow_succ 2 i
      have hle : 2 ^ (i + 1) ≤ 2 ^ (i + 1 + m) := Nat.pow_le_pow_right (by omega) (by omega)
      rw [show i + (m + 1) = i + 1 + m by omega] at hM hi ⊢
      by_cases hplace : partedAt i h = h
      · -- The halves are where they belong.
        rw [hplace] at ih
        obtain ⟨c, hcge, hclt, hanc, hne, hhide⟩ := ih hb.partBlock
          (apart_partBlock hb hap (by omega) (by omega) first.free) hM hi
        exact ⟨c, hcge, hclt, Anc.trans ⟨1, by omega⟩ hanc, hne, hhide⟩
      · -- All of `h` is lost, and has a second block of the layer.
        obtain ⟨hsix, hfar⟩ := partedAt_far hge hplace
        have hlost := down.hides hb.partBlock hM hsix (by omega) hfar hlt
          (hidden_partBlock hb hap (by omega) first hplace)
        obtain ⟨c, hcge, hclt, hanc, hne⟩ := exists_below_ne hge hlt
          (show 1 ≤ m + 1 by omega) (2 ^ (i + 1 + m) + (g - 64))
        rw [show i + (m + 1) = i + 1 + m by omega] at hcge hclt
        exact ⟨c, hcge, hclt, hanc, hne, hlost.mono hanc⟩

end Wrong

/-! ### When an allocation is right -/

/-- A partial split tree: a free block is not separated and all blocks above it are, and the
smallest blocks are not separated. -/
structure SplitTree (M : Nat) (b : Bbuddy) : Prop where
  free : ∀ h, 1 ≤ h → h < 2 * M → b.freeAt h = true →
    b.wholeAt h = true ∧ ∀ a, 1 ≤ a → Anc a h → a ≠ h → b.wholeAt a = false
  leaf : ∀ h, M ≤ h → h < 2 * M →
    (∀ a, 1 ≤ a → Anc a h → a ≠ h → b.wholeAt a = false) → b.wholeAt h = true

/-- The free blocks of a split tree are apart. -/
theorem SplitTree.apart {M : Nat} {b : Bbuddy} (hb : SplitTree M b) : FreeApart M b := by
  intro x y hx1 hy hxf hyf hanc
  by_contra hne
  have hle := hanc.le
  have hwhole := (hb.free x hx1 (by omega) hxf).1
  rw [(hb.free y (by omega) hy hyf).2 x hx1 hanc hne] at hwhole
  cases hwhole

/-- The block `n` of layer `align` has been free space, is in use, and nothing else has
changed about the free space. -/
structure TakesBlock (M : Nat) (b b' : Bbuddy) (align n : Nat) : Prop where
  lt : n < align
  noError : n ≠ ENOBLOCK ∧ n ≠ EBUDDYCORRUPED ∧ n ≠ EINVALIDINDX
  inside : ∀ u, BuddyBlock.Covers M ⟨align, n⟩ u → FreeUnit M b u
  used : b'.freeAt (align + n) = false ∧ b'.wholeAt (align + n) = true
  shrinks : ∀ u, u < M →
    (FreeUnit M b' u ↔ FreeUnit M b u ∧ ¬ BuddyBlock.Covers M ⟨align, n⟩ u)

/-- An allocation answers `ENOBLOCK` when there is no block for it, and takes the block that
it answers otherwise. -/
def AllocRight (M : Nat) (b : Bbuddy) (align : Nat) : Prop :=
  ∃ b' n, bbuddyBlockAlloc b align = .ok (b', n) ∧
    (n = ENOBLOCK ↔ NoneFree b 1 (align * 2)) ∧ (n ≠ ENOBLOCK → TakesBlock M b b' align n)

section AllocRight

variable {L i : Nat} {b : Bbuddy}

/-- In the wide layers, it takes a block that it does not answer. -/
theorem noneFree_of_allocRight (hb : SplitTree (2 ^ L) b) (hroom : Roomy (2 ^ L) b) (hL : L < 32)
    (hi : i ≤ L) (hwide : 7 ≤ i) (hright : AllocRight (2 ^ L) b (2 ^ i)) :
    NoneFree b 1 (2 ^ (i + 1)) := by
  have hM : 2 ^ i ≤ 2 ^ L := Nat.pow_le_pow_right (by omega) hi
  rcases bbuddyBlockAlloc_descent hroom hL hi with ⟨k, h, g, b', hk, hf, hdown, hrun⟩ | ⟨-, hnone⟩
  · exfalso
    obtain ⟨b'', n, hrun', hcode, htakes⟩ := hright
    obtain ⟨rfl, rfl⟩ := Prod.mk.inj (Except.ok.inj (hrun.symm.trans hrun'))
    have hkpos := Nat.two_pow_pos k
    have hki : 2 ^ k ≤ 2 ^ i := Nat.pow_le_pow_right (by omega) hk
    have hge := hf.ge
    have hlt := hf.lt
    have hnot : numberOf i g ≠ ENOBLOCK := fun hcode' => by
      have := hcode.mp hcode' h (by omega) (by omega)
      rw [hf.free] at this
      cases this
    have hnum : numberOf i g = g - 64 := if_neg (by omega)
    obtain ⟨c, hcge, hclt, hanc, hne, hhide⟩ := hdown.wrong hroom hb.apart
      (by rwa [Nat.add_sub_cancel' hk]) (by omega)
    rw [Nat.add_sub_cancel' hk] at hcge hclt hne
    have htakes := htakes hnot
    have hvalid : BuddyBlock.Valid (2 ^ L) ⟨2 ^ i, numberOf i g⟩ := ⟨i, rfl, hM, htakes.lt⟩
    -- The first unit of the lost block.
    have hleaf : c * 2 ^ (L - i) = 2 ^ L + (c - 2 ^ i) * 2 ^ (L - i) := by
      rw [Nat.sub_mul, ← Nat.pow_add, Nat.add_sub_cancel' hi]
      have : 2 ^ i * 2 ^ (L - i) ≤ c * 2 ^ (L - i) := Nat.mul_le_mul_right _ hcge
      rw [← Nat.pow_add, Nat.add_sub_cancel' hi] at this
      omega
    have hunit : (c - 2 ^ i) * 2 ^ (L - i) < 2 ^ L := by
      have : (c - 2 ^ i) * 2 ^ (L - i) < 2 ^ i * 2 ^ (L - i) :=
        Nat.mul_lt_mul_of_pos_right (by omega) (Nat.two_pow_pos _)
      rwa [← Nat.pow_add, Nat.add_sub_cancel' hi] at this
    generalize (c - 2 ^ i) * 2 ^ (L - i) = u at hleaf hunit
    have hcu : Anc c (2 ^ L + u) :=
      ⟨L - i, by rw [← hleaf, Nat.mul_div_cancel _ (Nat.two_pow_pos _)]⟩
    have hbefore : FreeUnit (2 ^ L) b u := ⟨h, by omega, by omega, hf.free, hanc.trans hcu⟩
    have hother : ¬ BuddyBlock.Covers (2 ^ L) ⟨2 ^ i, numberOf i g⟩ u := by
      rw [covers_iff rfl hvalid]
      rintro ⟨-, hanc'⟩
      have hnlt := htakes.lt
      dsimp only [BuddyBlock.node] at hanc'
      rw [hnum] at hanc' hnlt
      rcases anc_total hcu hanc' with hc | hc
      · have := hc.eq_of_lt (by omega)
        omega
      · have := hc.eq_of_lt (by omega)
        omega
    obtain ⟨x, hx1, hx, hxf, hxu⟩ := (htakes.shrinks u hunit).mpr ⟨hbefore, hother⟩
    exact hhide x hx1 hx hxf (anc_total hxu hcu)
  · exact hnone

/-- An allocation is right exactly when its layer has at most 64 blocks or there is no block
for it. -/
theorem allocRight_iff (hb : SplitTree (2 ^ L) b) (hroom : Roomy (2 ^ L) b) (hL : L < 32)
    (hi : i ≤ L) :
    AllocRight (2 ^ L) b (2 ^ i) ↔ 2 ^ i ≤ 64 ∨ NoneFree b 1 (2 ^ i * 2) := by
  have hsmall : 2 ^ i ≤ 64 ↔ i ≤ 6 := Nat.pow_le_pow_iff_right (n := i) (m := 6) (a := 2) (by omega)
  rw [hsmall]
  constructor
  · intro hright
    by_cases hlow : i ≤ 6
    · exact .inl hlow
    · exact .inr (noneFree_of_allocRight hb hroom hL hi (by omega) hright)
  · intro hcase
    have hM : 2 ^ i ≤ 2 ^ L := Nat.pow_le_pow_right (by omega) hi
    rcases bbuddyBlockAlloc_descent hroom hL hi with
      ⟨k, h, g, b', hk, hf, hdown, hrun⟩ | ⟨hrun, hnone⟩
    · have hkpos := Nat.two_pow_pos k
      have hki : 2 ^ k ≤ 2 ^ i := Nat.pow_le_pow_right (by omega) hk
      have hge := hf.ge
      have hlt := hf.lt
      have hsome : ¬ NoneFree b 1 (2 ^ i * 2) := fun hnone => by
        have := hnone h (by omega) (by omega)
        rw [hf.free] at this
        cases this
      have hlow : i ≤ 6 := hcase.resolve_right hsome
      obtain ⟨hgge, hglt⟩ := hdown.layer
      obtain ⟨hanc, hfree, hwhole, hspace⟩ := hdown.right hroom hb.apart
        (by rwa [Nat.add_sub_cancel' hk]) (by omega)
      rw [Nat.add_sub_cancel' hk] at hgge hglt
      -- Below the layer 128 the number of the block is what the caller gets.
      have hnum : numberOf i g = g - 2 ^ i := if_pos hlow
      have h64 := hsmall.mpr hlow
      have hvalid : BuddyBlock.Valid (2 ^ L) ⟨2 ^ i, g - 2 ^ i⟩ :=
        ⟨i, rfl, hM, by dsimp only; omega⟩
      have hnode : BuddyBlock.node ⟨2 ^ i, g - 2 ^ i⟩ = g := Nat.add_sub_cancel' hgge
      have hcovers : ∀ u, BuddyBlock.Covers (2 ^ L) ⟨2 ^ i, g - 2 ^ i⟩ u ↔
          u < 2 ^ L ∧ Anc g (2 ^ L + u) := fun u => by
        rw [covers_iff rfl hvalid, hnode]
      rw [hnum] at hrun
      refine ⟨b', _, hrun, iff_of_false (by unfold ENOBLOCK; omega) hsome, fun _ => ⟨by omega, ?_,
        fun u hu => ?_, ?_, fun u hu => ?_⟩⟩
      · unfold ENOBLOCK EBUDDYCORRUPED EINVALIDINDX
        omega
      · exact ⟨h, by omega, by omega, hf.free, hanc.trans ((hcovers u).mp hu).2⟩
      · rw [show 2 ^ i + (g - 2 ^ i) = g by omega]
        exact ⟨hfree, hwhole⟩
      · rw [hspace u, hcovers u, and_iff_right hu]
    · exact ⟨b, ENOBLOCK, hrun, iff_of_true rfl hnone, fun hne => absurd rfl hne⟩

end AllocRight

/-- A buddy of `2 ^ L` smallest blocks of which none is in use. -/
def wholeBuddy (L : Nat) : Bbuddy where
  words i := if i < 2 ^ L / 16 + 1 then FIL else if i = 2 ^ L / 16 + 1 then 2 else 0
  nbmpAt := 2 ^ L / 16 + 1
  pn := 2 ^ L

/-- The whole buddy has room ... -/
theorem roomy_wholeBuddy (L : Nat) : Roomy (2 ^ L) (wholeBuddy L) := by
  intro h hh
  show h / 32 < 2 ^ L / 16 + 1
  omega

/-- ... and is a split tree. -/
theorem splitTree_wholeBuddy (L : Nat) : SplitTree (2 ^ L) (wholeBuddy L) := by
  have hwhole : ∀ h, h < 2 * 2 ^ L → (wholeBuddy L).wholeAt h = true := by
    intro h hh
    show (if h / 32 < 2 ^ L / 16 + 1 then FIL else _).getLsbD (h % 32) = true
    rw [if_pos (by omega), show FIL = BitVec.allOnes 32 from rfl, BitVec.getLsbD_allOnes]
    exact decide_eq_true (Nat.mod_lt _ (by omega))
  have hroot : ∀ h, (wholeBuddy L).freeAt h = true → h = 1 := by
    intro h hfree
    have hword : (if h / 32 = 0 then (2 : BitVec 32) else 0).getLsbD (h % 32) = true := by
      rw [← hfree]
      show _ = (if 2 ^ L / 16 + 1 + h / 32 < 2 ^ L / 16 + 1 then FIL
        else if 2 ^ L / 16 + 1 + h / 32 = 2 ^ L / 16 + 1 then 2 else 0).getLsbD (h % 32)
      rw [if_neg (show ¬ 2 ^ L / 16 + 1 + h / 32 < 2 ^ L / 16 + 1 by omega)]
      congr 2
      exact propext (by omega)
    split at hword
    · case isTrue h0 =>
        rw [show (2 : BitVec 32) = BitVec.twoPow 32 1 from rfl, BitVec.getLsbD_twoPow] at hword
        simp at hword
        omega
    · simp at hword
  refine ⟨fun h h1 hh hfree => ⟨hwhole h hh, fun a ha hanc hne => ?_⟩, fun h _ hh _ => hwhole h hh⟩
  obtain rfl := hroot h hfree
  have := hanc.le
  omega

/-- An allocation of an eighth of 128 blocks. -/
theorem allocRight_eight : AllocRight (2 ^ 7) (wholeBuddy 7) (2 ^ 3) ↔
    2 ^ 3 ≤ 64 ∨ NoneFree (wholeBuddy 7) 1 (2 ^ 3 * 2) :=
  allocRight_iff (splitTree_wholeBuddy 7) (roomy_wholeBuddy 7) (by decide) (by decide)

/-- One of 128 blocks: the answer is 64 for the first block. -/
theorem not_allocRight_unit :
    ¬ ∀ (L i : Nat) (b : Bbuddy), SplitTree (2 ^ L) b → Roomy (2 ^ L) b → L < 32 → i ≤ L →
      AllocRight (2 ^ L) b (2 ^ i) := by
  intro h
  have hright := h 7 7 (wholeBuddy 7) (splitTree_wholeBuddy 7) (roomy_wholeBuddy 7) (by decide)
    (by decide)
  have hnone := noneFree_of_allocRight (splitTree_wholeBuddy 7) (roomy_wholeBuddy 7) (by decide)
    (by decide) (by decide) hright 1 (by decide) (by decide)
  exact absurd hnone (by decide)

end MString
