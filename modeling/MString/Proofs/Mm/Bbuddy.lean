import Mathlib.Tactic.IntervalCases
import MString.Lib.HeapTree
import MString.Mm.Bbuddy

/-!
# `MString.Proofs.Mm.Bbuddy`: the two bitmaps of a small buddy

The block `num` of the layer `align` is the node `align + num` of a binary tree in heap
numbering. With at most 64 blocks in the smallest layer the code's word and bit of a
block are the ones of its node (`node_index`), and the two bitmaps do not overlap.

* `Flags M F W b`: the free bits are as `F` says and the blocks marked separated are
  those of `W`. `Flags.take`, `Flags.cut` and `Flags.join` follow the three ways in which
  the code changes them.
* `BuddyBooks M S b`: exactly the greatest blocks that meet none of `S` are free, and exactly
  the blocks above one of `S` are separated.
* `bbuddyBlockAlloc_books`: what an allocation does.
* `splitUp_rule` is the rule for climbing with `__bbuddy_split_up`, and `release_finds`
  says which block a release gives back.
* `bbuddyBlockRelease_flags`: what a release does that gives back its own block. It sets
  the flags of all blocks in the words where it joins two (`Swept`).
-/

set_option autoImplicit false

namespace MString

open HeapTree

namespace Bbuddy

/-- The free bit of a node. -/
def freeAt (b : Bbuddy) (h : Nat) : Bool := (b.nbmp (h / 32)).getLsbD (h % 32)

/-- The not-separated bit of a node. -/
def wholeAt (b : Bbuddy) (h : Nat) : Bool := (b.pbmp (h / 32)).getLsbD (h % 32)

section Words

variable {b : Bbuddy} {p q n : Nat} {w : BitVec 32}

@[simp] theorem nbmpAt_setPbmp : (b.setPbmp p w).nbmpAt = b.nbmpAt := rfl
@[simp] theorem nbmpAt_setNbmp : (b.setNbmp p w).nbmpAt = b.nbmpAt := rfl
@[simp] theorem nbmpAt_markPbmp : (b.markPbmp p n).nbmpAt = b.nbmpAt := rfl
@[simp] theorem nbmpAt_clearPbmp : (b.clearPbmp p n).nbmpAt = b.nbmpAt := rfl
@[simp] theorem nbmpAt_markNbmp : (b.markNbmp p n).nbmpAt = b.nbmpAt := rfl
@[simp] theorem nbmpAt_clearNbmp : (b.clearNbmp p n).nbmpAt = b.nbmpAt := rfl

/-- A store to one of the bitmaps, read back. -/
theorem pbmp_setPbmp : (b.setPbmp p w).pbmp q = if q = p then w else b.pbmp q := by
  simp [pbmp, setPbmp, Function.update_apply]

/-- The same for the other one. -/
theorem nbmp_setNbmp : (b.setNbmp p w).nbmp q = if q = p then w else b.nbmp q := by
  simp [nbmp, setNbmp, Function.update_apply]

/-- The two bitmaps lie one behind the other, so a store to `nbmp` does not reach `pbmp`, ... -/
theorem pbmp_setNbmp (hq : q < b.nbmpAt) : (b.setNbmp p w).pbmp q = b.pbmp q := by
  simp only [pbmp, setNbmp, Function.update_apply]
  rw [if_neg (by omega)]

/-- ... nor the other way round. -/
theorem nbmp_setPbmp (hp : p < b.nbmpAt) : (b.setPbmp p w).nbmp q = b.nbmp q := by
  simp only [nbmp, setPbmp, Function.update_apply]
  rw [if_neg (by omega)]

end Words

/-- Setting one bit of a word. -/
theorem getLsbD_mark (w : BitVec 32) {n j : Nat} (hj : j < 32) :
    (w ||| 1#32 <<< n).getLsbD j = (w.getLsbD j || decide (j = n)) := by
  rw [BitVec.getLsbD_or, ← BitVec.twoPow_eq, BitVec.getLsbD_twoPow]
  by_cases h : j = n
  · simp [h, h ▸ hj]
  · simp [h, Ne.symm h]

/-- Clearing one bit of a word. -/
theorem getLsbD_clear (w : BitVec 32) {n j : Nat} (hj : j < 32) :
    (w &&& ~~~(1#32 <<< n)).getLsbD j = (w.getLsbD j && !decide (j = n)) := by
  rw [BitVec.getLsbD_and, BitVec.getLsbD_not, ← BitVec.twoPow_eq, BitVec.getLsbD_twoPow]
  by_cases h : j = n
  · simp [h, h ▸ hj]
  · simp [h, Ne.symm h, hj]

/-- Two nodes of one word are told apart by their bits. -/
theorem bit_eq_iff {x h : Nat} (hw : x / 32 = h / 32) : x % 32 = h % 32 ↔ x = h := by
  omega

section Nodes

variable {b : Bbuddy} {h x : Nat}

/-- `bit_set` frees the block it names and no other. -/
theorem freeAt_markNbmp :
    (b.markNbmp (h / 32) (h % 32)).freeAt x = (b.freeAt x || decide (x = h)) := by
  rw [freeAt, markNbmp, nbmp_setNbmp]
  by_cases hw : x / 32 = h / 32
  · rw [if_pos hw, getLsbD_mark _ (Nat.mod_lt _ (by omega)), freeAt, hw]
    simp [bit_eq_iff hw]
  · have hne : x ≠ h := fun heq => hw (heq ▸ rfl)
    simp [hw, hne, freeAt]

/-- Clearing its bit takes it. -/
theorem freeAt_clearNbmp :
    (b.clearNbmp (h / 32) (h % 32)).freeAt x = (b.freeAt x && !decide (x = h)) := by
  rw [freeAt, clearNbmp, nbmp_setNbmp]
  by_cases hw : x / 32 = h / 32
  · rw [if_pos hw, getLsbD_clear _ (Nat.mod_lt _ (by omega)), freeAt, hw]
    simp [bit_eq_iff hw]
  · have hne : x ≠ h := fun heq => hw (heq ▸ rfl)
    simp [hw, hne, freeAt]

/-- The bit of the other bitmap says whether a block is one piece. -/
theorem wholeAt_markPbmp :
    (b.markPbmp (h / 32) (h % 32)).wholeAt x = (b.wholeAt x || decide (x = h)) := by
  rw [wholeAt, markPbmp, pbmp_setPbmp]
  by_cases hw : x / 32 = h / 32
  · rw [if_pos hw, getLsbD_mark _ (Nat.mod_lt _ (by omega)), wholeAt, hw]
    simp [bit_eq_iff hw]
  · have hne : x ≠ h := fun heq => hw (heq ▸ rfl)
    simp [hw, hne, wholeAt]

/-- Clearing it cuts the block. -/
theorem wholeAt_clearPbmp :
    (b.clearPbmp (h / 32) (h % 32)).wholeAt x = (b.wholeAt x && !decide (x = h)) := by
  rw [wholeAt, clearPbmp, pbmp_setPbmp]
  by_cases hw : x / 32 = h / 32
  · rw [if_pos hw, getLsbD_clear _ (Nat.mod_lt _ (by omega)), wholeAt, hw]
    simp [bit_eq_iff hw]
  · have hne : x ≠ h := fun heq => hw (heq ▸ rfl)
    simp [hw, hne, wholeAt]

/-- A store to the free bits leaves the pieces as they are. -/
theorem wholeAt_setNbmp {p : Nat} {w : BitVec 32} (hx : x / 32 < b.nbmpAt) :
    (b.setNbmp p w).wholeAt x = b.wholeAt x := by
  rw [wholeAt, pbmp_setNbmp hx, wholeAt]

/-- A store to the pieces leaves the free bits. -/
theorem freeAt_setPbmp {p : Nat} {w : BitVec 32} (hp : p < b.nbmpAt) :
    (b.setPbmp p w).freeAt x = b.freeAt x := by
  rw [freeAt, nbmp_setPbmp hp, freeAt]

end Nodes

end Bbuddy

open Bbuddy

/-- The layers of word 0, the one of word 1 and the one of words 2 and 3. -/
theorem layer_cases {i : Nat} (hi : i ≤ 6) : 2 ^ i ≤ 16 ∨ 2 ^ i = 32 ∨ 2 ^ i = 64 := by
  interval_cases i <;> decide

/-- The layers below 128 are the first seven. -/
theorem layer_le {i : Nat} (h : 2 ^ i < 128) : i ≤ 6 := by
  by_contra hlarge
  have := Nat.pow_le_pow_right (n := 2) (by omega) (show 7 ≤ i by omega)
  omega

/-- The word and the bit that the code takes for a block of a layer of at most 64
blocks. -/
theorem node_index {i num : Nat} (hi : i ≤ 6) (hnum : num < 2 ^ i) :
    bbuddyIndexp (2 ^ i) num = (2 ^ i + num) / 32 ∧ nIndx (2 ^ i) num = (2 ^ i + num) % 32 := by
  unfold bbuddyIndexp nIndx bbuddyIndexbn
  rcases layer_cases hi with hlow | heq | heq
  · rw [if_neg (by omega), if_pos (by omega)]
    omega
  · rw [heq] at hnum ⊢
    rw [if_neg (by omega), if_neg (by omega), if_neg (by omega)]
    omega
  · rw [heq] at hnum ⊢
    rw [if_pos (by omega), if_neg (by omega)]
    split <;> omega

/-- A buddy of 32 or 64 smallest blocks. -/
structure Small (M : Nat) (b : Bbuddy) : Prop where
  size : M = 32 ∨ M = 64
  pn : b.pn = M
  nbmpAt : b.nbmpAt = M / 16

/-- The word of a block lies in its bitmap. -/
theorem Small.word_lt {M : Nat} {b : Bbuddy} (hb : Small M b) {h : Nat} (hh : h < 2 * M) :
    h / 32 < b.nbmpAt := by
  have hat := hb.nbmpAt
  rcases hb.size with rfl | rfl <;> omega

/-- A small map has at most seven layers. -/
theorem Small.layers_le {M L : Nat} {b : Bbuddy} (hb : Small M b) (hM : M = 2 ^ L) : L ≤ 6 := by
  have hsize := hb.size
  exact layer_le (by omega)

/-- The free bits are as `F` says, and the blocks marked separated are those of `W`. -/
structure Flags (M : Nat) (F W : Nat → Prop) (b : Bbuddy) : Prop where
  small : Small M b
  free : ∀ h, 1 ≤ h → h < 2 * M → (b.freeAt h = true ↔ F h)
  whole : ∀ h, 1 ≤ h → h < 2 * M → (b.wholeAt h = true ↔ ¬ W h)

namespace Flags

variable {M h : Nat} {F F' W W' : Nat → Prop} {b : Bbuddy}

/-- The bits may be described by any two sets that agree on the blocks there are. -/
theorem congr (hb : Flags M F W b) (hF : ∀ x, 1 ≤ x → x < 2 * M → (F x ↔ F' x))
    (hW : ∀ x, 1 ≤ x → x < 2 * M → (W x ↔ W' x)) : Flags M F' W' b where
  small := hb.small
  free x h1 hx := (hb.free x h1 hx).trans (hF x h1 hx)
  whole x h1 hx := (hb.whole x h1 hx).trans (not_congr (hW x h1 hx))

/-- `nbmp |= ` a node. -/
theorem markFree (hb : Flags M F W b) (h : Nat) :
    Flags M (fun x => F x ∨ x = h) W (b.markNbmp (h / 32) (h % 32)) where
  small := ⟨hb.small.size, hb.small.pn, hb.small.nbmpAt⟩
  free x h1 hx := by
    rw [freeAt_markNbmp, Bool.or_eq_true, hb.free x h1 hx, decide_eq_true_iff]
  whole x h1 hx := by
    rw [markNbmp, wholeAt_setNbmp (hb.small.word_lt hx)]
    exact hb.whole x h1 hx

/-- `nbmp &= ~` a node. -/
theorem clearFree (hb : Flags M F W b) (h : Nat) :
    Flags M (fun x => F x ∧ x ≠ h) W (b.clearNbmp (h / 32) (h % 32)) where
  small := ⟨hb.small.size, hb.small.pn, hb.small.nbmpAt⟩
  free x h1 hx := by
    rw [freeAt_clearNbmp, Bool.and_eq_true, hb.free x h1 hx, Bool.not_eq_true',
      decide_eq_false_iff_not]
  whole x h1 hx := by
    rw [clearNbmp, wholeAt_setNbmp (hb.small.word_lt hx)]
    exact hb.whole x h1 hx

/-- `pbmp |= ` a node. -/
theorem markWhole (hb : Flags M F W b) (hh : h < 2 * M) :
    Flags M F (fun x => W x ∧ x ≠ h) (b.markPbmp (h / 32) (h % 32)) where
  small := ⟨hb.small.size, hb.small.pn, hb.small.nbmpAt⟩
  free x h1 hx := by
    rw [markPbmp, freeAt_setPbmp (hb.small.word_lt hh)]
    exact hb.free x h1 hx
  whole x h1 hx := by
    rw [wholeAt_markPbmp, Bool.or_eq_true, hb.whole x h1 hx, decide_eq_true_iff]
    tauto

/-- `pbmp &= ~` a node. -/
theorem clearWhole (hb : Flags M F W b) (hh : h < 2 * M) :
    Flags M F (fun x => W x ∨ x = h) (b.clearPbmp (h / 32) (h % 32)) where
  small := ⟨hb.small.size, hb.small.pn, hb.small.nbmpAt⟩
  free x h1 hx := by
    rw [clearPbmp, freeAt_setPbmp (hb.small.word_lt hh)]
    exact hb.free x h1 hx
  whole x h1 hx := by
    rw [wholeAt_clearPbmp, Bool.and_eq_true, hb.whole x h1 hx, Bool.not_eq_true',
      decide_eq_false_iff_not]
    tauto

end Flags

/-! ### The turns of an allocation -/

/-- `h` is the first free block of its layer. -/
structure First (b : Bbuddy) (align h : Nat) : Prop where
  ge : align ≤ h
  lt : h < align * 2
  free : b.freeAt h = true
  least : ∀ j, align ≤ j → j < h → b.freeAt j = false

/-- A layer has a first free block, or none. -/
theorem first_or_none (b : Bbuddy) (align : Nat) :
    (∃ h, First b align h) ∨ ∀ j, align ≤ j → j < align * 2 → b.freeAt j = false := by
  cases hscan : (List.range' align align).find? b.freeAt with
  | some h =>
      obtain ⟨hfree, hmem, hleast⟩ := List.find?_range'_eq_some.mp hscan
      obtain ⟨hge, hlt⟩ := List.mem_range'_1.mp hmem
      exact .inl ⟨h, hge, by omega, hfree, fun j hj hjh => by simpa using hleast j hj hjh⟩
  | none =>
      have hnone := List.find?_range'_eq_none.mp hscan
      exact .inr fun j hj hlt => by simpa using hnone j hj (by omega)

/-- The block is used and not separated. -/
def takeBlock (b : Bbuddy) (h : Nat) : Bbuddy :=
  (b.clearNbmp (h / 32) (h % 32)).markPbmp (h / 32) (h % 32)

/-- The block is used and separated, its children are free. -/
def cutBlock (b : Bbuddy) (h : Nat) : Bbuddy :=
  markChilds ((b.clearNbmp (h / 32) (h % 32)).clearPbmp (h / 32) (h % 32))
    (h * 2 / 32) (h * 2 % 32)

section Turns

variable {b : Bbuddy} {i h m : Nat}

/-- In the layers that share the first word, the scan finds the first free block ... -/
theorem scanSmall_some (hlow : 2 ^ i ≤ 16) (hf : First b (2 ^ i) h) :
    scanSmall b (2 ^ i) = some h := by
  obtain ⟨hge, hlt, hfree, hleast⟩ := hf
  have hbit : ∀ j, j < 32 → (b.nbmp 0).getLsbD j = b.freeAt j := fun j hj => by
    rw [freeAt, show j / 32 = 0 by omega, show j % 32 = j by omega]
  refine List.find?_range'_eq_some.mpr ⟨?_, List.mem_range'_1.mpr ⟨hge, by omega⟩, ?_⟩
  · rw [hbit h (by omega), hfree]
  · intro j hj hjh
    rw [hbit j (by omega), hleast j hj hjh]
    rfl

/-- ... and says so when there is none. -/
theorem scanSmall_none (hlow : 2 ^ i ≤ 16)
    (hnone : ∀ j, 2 ^ i ≤ j → j < 2 ^ i * 2 → b.freeAt j = false) :
    scanSmall b (2 ^ i) = none := by
  refine List.find?_range'_eq_none.mpr fun j hj hlt => ?_
  have hfree := hnone j hj (by omega)
  rw [freeAt, show j / 32 = 0 by omega, show j % 32 = j by omega] at hfree
  simp [hfree]

/-- A word without a free block is zero. -/
theorem nbmp_eq_zero {q : Nat} (hfree : ∀ j, j / 32 = q → b.freeAt j = false) :
    b.nbmp q = 0 := by
  refine BitVec.eq_of_getLsbD_eq fun k hk => ?_
  have := hfree (32 * q + k) (by omega)
  rw [freeAt, show (32 * q + k) / 32 = q by omega, show (32 * q + k) % 32 = k by omega] at this
  rw [this]
  simp

/-- The two scans of a layer that fills whole words. -/
theorem scan_some {w : Nat} (hf : First b (32 * w) h) :
    scanWords b w = some (h / 32 - w) ∧ scanBits (b.nbmp (h / 32)) = some (h % 32) := by
  obtain ⟨hge, hlt, hfree, hleast⟩ := hf
  constructor
  · refine List.find?_range_eq_some.mpr ⟨?_, List.mem_range.mpr (by omega), ?_⟩
    · rw [show w + (h / 32 - w) = h / 32 by omega, bne_iff_ne]
      intro hzero
      rw [freeAt, hzero] at hfree
      simp at hfree
    · intro j hj
      rw [nbmp_eq_zero fun k hk => hleast k (by omega) (by omega)]
      rfl
  · refine List.find?_range_eq_some.mpr ⟨hfree, List.mem_range.mpr (Nat.mod_lt _ (by omega)), ?_⟩
    intro k hk
    have := hleast (32 * (h / 32) + k) (by omega) (by omega)
    rw [freeAt, show (32 * (h / 32) + k) / 32 = h / 32 by omega,
      show (32 * (h / 32) + k) % 32 = k by omega] at this
    rw [this]
    rfl

/-- The scan by whole words says so too. -/
theorem scanWords_none {w : Nat}
    (hnone : ∀ j, 32 * w ≤ j → j < 32 * w * 2 → b.freeAt j = false) :
    scanWords b w = none := by
  refine List.find?_range_eq_none.mpr fun q hq => ?_
  rw [nbmp_eq_zero fun j hj => hnone j (by omega) (by omega)]
  rfl

/-- In the layer that was asked for, a free block is taken. -/
theorem allocTurn_take (hi : i ≤ 6) (hf : First b (2 ^ i) h) :
    allocTurn (b, 2 ^ i, 0) = .ok (.inr (takeBlock b h, h - 2 ^ i)) := by
  have hge := hf.ge
  have hlt := hf.lt
  rcases layer_cases hi with hlow | heq
  · have hzero : 2 ^ i / 32 = 0 := by omega
    simp only [allocTurn, hzero, scanSmall_some hlow hf, takeBlock]
    rw [show h / 32 = 0 by omega, show h % 32 = h by omega]
    rfl
  · have hw : 2 ^ i = 32 * (2 ^ i / 32) := by omega
    rw [hw] at hf
    obtain ⟨hword, hbit⟩ := scan_some hf
    have hne : 2 ^ i / 32 ≠ 0 := by omega
    simp only [allocTurn, if_pos hne, hword,
      show 2 ^ i / 32 + (h / 32 - 2 ^ i / 32) = h / 32 by omega, hbit, takeBlock, if_true]
    congr 3
    split <;> omega

/-- Above it, the block is cut in two and the search goes down with the first half. -/
theorem allocTurn_cut (hi : i < 6) (hf : First b (2 ^ i) h) :
    allocTurn (b, 2 ^ i, m + 1) = .ok (.inl (cutBlock b h, 2 ^ i * 2, m)) := by
  have hge := hf.ge
  have hlt := hf.lt
  have hindex : ∀ n, bbuddyIndexbn n = n % 32 := fun n => by
    unfold bbuddyIndexbn
    split <;> omega
  -- The layers 1 to 16 share the first word; the layer 32 has a word of its own.
  rcases layer_cases (Nat.le_of_lt hi) with hlow | heq | heq
  · have hzero : 2 ^ i / 32 = 0 := by omega
    have hpow : 2 ^ i * 2 / 32 = h * 2 / 32 := by
      have : i ≤ 4 := by
        by_contra hlarge
        have := Nat.pow_le_pow_right (n := 2) (by omega) (show 5 ≤ i by omega)
        omega
      interval_cases i <;> omega
    simp only [allocTurn, hzero, scanSmall_some hlow hf, cutBlock, hindex, hpow,
      show h / 32 = 0 by omega, show h % 32 = h by omega]
    rfl
  · have hw : 2 ^ i = 32 * (2 ^ i / 32) := by omega
    rw [hw] at hf
    obtain ⟨hword, hbit⟩ := scan_some hf
    have hne : 2 ^ i / 32 ≠ 0 := by omega
    have hp : bbuddyIndexp (2 ^ i * 2) (h % 32 * 2) = h * 2 / 32 := by
      rw [bbuddyIndexp, heq, if_pos (by omega)]
      omega
    simp only [allocTurn, if_pos hne, hword,
      show 2 ^ i / 32 + (h / 32 - 2 ^ i / 32) = h / 32 by omega, hbit, cutBlock, hp, hindex,
      show h % 32 * 2 % 32 = h * 2 % 32 by omega]
    rfl
  · have := Nat.pow_lt_pow_right (a := 2) (by omega) hi
    omega

/-- A layer without a free block sends the search up. -/
theorem allocTurn_none (hi : i ≤ 6)
    (hnone : ∀ j, 2 ^ i ≤ j → j < 2 ^ i * 2 → b.freeAt j = false) :
    allocTurn (b, 2 ^ i, m) = .ok (.inl (b, 2 ^ i / 2, m + 1)) := by
  have hpos : 0 < 2 ^ i := Nat.two_pow_pos i
  rcases layer_cases hi with hlow | heq
  · have hzero : 2 ^ i / 32 = 0 := by omega
    simp only [allocTurn, hzero, scanSmall_none hlow hnone]
    rw [if_neg (by simp), if_neg (by omega)]
  · have hw : 2 ^ i = 32 * (2 ^ i / 32) := by omega
    rw [hw] at hnone
    have hne : 2 ^ i / 32 ≠ 0 := by omega
    simp only [allocTurn, if_pos hne, scanWords_none hnone]

/-- Above the root there is nothing left. -/
theorem allocTurn_zero : allocTurn (b, 0, m) = .ok (.inr (b, ENOBLOCK)) := by
  simp [allocTurn, scanSmall]

end Turns

/-! ### What an allocation does -/

section Alloc

variable {M h : Nat} {S : Set Nat} {F W : Nat → Prop} {b : Bbuddy}

/-- Taking a block clears both of its bits. -/
theorem Flags.take (hb : Flags M F W b) (hh : h < 2 * M) :
    Flags M (fun x => F x ∧ x ≠ h) (fun x => W x ∧ x ≠ h) (takeBlock b h) :=
  (hb.clearFree h).markWhole hh

/-- Cutting one sets the bits of its halves. -/
theorem Flags.cut (hb : Flags M F W b) (hh : h * 2 + 1 < 2 * M) :
    Flags M (fun x => (F x ∧ x ≠ h) ∨ x = h * 2 ∨ x = h * 2 + 1)
      (fun x => (W x ∨ x = h) ∧ x ≠ h * 2 ∧ x ≠ h * 2 + 1) (cutBlock b h) := by
  have hword : (h * 2 + 1) / 32 = h * 2 / 32 := by omega
  have hbit : (h * 2 + 1) % 32 = h * 2 % 32 + 1 := by omega
  have h1 := ((hb.clearFree h).clearWhole (h := h) (by omega)).markFree (h * 2)
  have h2 := (h1.markFree (h * 2 + 1)).markWhole (h := h * 2) (by omega)
  have h3 := h2.markWhole (h := h * 2 + 1) (by omega)
  rw [hword, hbit] at h3
  exact h3.congr (fun x _ _ => by tauto) (fun x _ _ => by tauto)

/-- The bitmaps of a buddy whose blocks in use are the nodes `S`. -/
def BuddyBooks (M : Nat) (S : Set Nat) (b : Bbuddy) : Prop := Flags M (Free S) (Split S) b

/-- The bitmaps while a block `h` is on its way: it is clear and its free bit is set, and
all other flags are those of a buddy in which it is in use. -/
def Hole (M : Nat) (S : Set Nat) (h : Nat) (b : Bbuddy) : Prop :=
  Flags M (fun x => x = h ∨ Free (insert h S) x) (Split (insert h S)) b

/-- A free block is a hole that the books do not know yet. -/
theorem BuddyBooks.hole (hb : BuddyBooks M S b) (hf : Free S h) (h1 : 1 ≤ h) : Hole M S h b :=
  Flags.congr hb (fun _ hx _ => free_insert hf h1 hx) (fun _ hx _ => (split_insert_free hf hx).symm)

/-- A hole that is taken goes into the books. -/
theorem Hole.take (hb : Hole M S h b) (hclear : Clear S h) (hh : h < 2 * M) :
    BuddyBooks M (insert h S) (takeBlock b h) := by
  refine (Flags.take hb hh).congr (fun x _ _ => ?_) (fun x _ _ => ?_)
  · constructor
    · rintro ⟨rfl | hx, hne⟩
      · exact absurd rfl hne
      · exact hx
    · intro hx
      refine ⟨.inr hx, ?_⟩
      rintro rfl
      exact not_free_insert_self hx
  · refine ⟨And.left, fun hx => ⟨hx, ?_⟩⟩
    rintro rfl
    exact not_split_insert_self hclear hx

/-- A hole that is cut leaves its first half as the hole. The second is free. -/
theorem Hole.cut (hb : Hole M S h b) (hclear : Clear S h) (h1 : 1 ≤ h) (hh : h * 2 + 1 < 2 * M) :
    Hole M S (h * 2) (cutBlock b h) := by
  have hleft : h * 2 / 2 = h := by omega
  have hright : (h * 2 + 1) / 2 = h := by omega
  refine (Flags.cut hb hh).congr (fun x hx _ => ?_) (fun x _ _ => ?_)
  · rw [free_insert_child hclear h1 hleft hright (by omega) hx]
    have hself : Free (insert h S) x → x ≠ h := by
      rintro hx rfl
      exact not_free_insert_self hx
    tauto
  · rw [split_insert_child hleft h1]
    have hbelow : ∀ c, Anc h c → h < c → ¬ (Split (insert h S) c ∨ c = h) := by
      rintro c hc hlt (hsplit | rfl)
      · rcases split_insert.mp hsplit with ⟨hanc, -⟩ | hsplit
        · have := hanc.le
          omega
        · exact (hclear.mono hc).not_split hsplit
      · omega
    refine ⟨And.left, fun hx => ⟨hx, ?_, ?_⟩⟩
    · rintro rfl
      exact hbelow _ ⟨1, by omega⟩ (by omega) hx
    · rintro rfl
      exact hbelow _ ⟨1, by omega⟩ (by omega) hx

/-- The way down. The block `h` of the layer `i` is free and clear, and no other block of
this layer or of the `m` next ones is free, apart from the sibling of `h`. -/
theorem alloc_down {M : Nat} {S : Set Nat} :
    ∀ (m i h n : Nat) (b : Bbuddy), Hole M S h b → Clear S h → First b (2 ^ i) h →
      (∀ x, 2 ^ i * 2 ≤ x → x < 2 ^ (i + m + 1) → b.freeAt x = false) → 2 ^ (i + m) ≤ M →
      ∃ b' g, Loop.run .diverges allocTurn (n + (m + 1)) (b, 2 ^ i, m) = .ok (b', g - 2 ^ (i + m)) ∧
        2 ^ (i + m) ≤ g ∧ g < 2 ^ (i + m) * 2 ∧ Clear S g ∧ BuddyBooks M (insert g S) b' := by
  intro m
  induction m with
  | zero =>
      intro i h n b hb hclear hf _ hM
      have hi : i ≤ 6 := by
        have := hb.small.size
        simp only [Nat.add_zero] at hM
        exact layer_le (by omega)
      have hlt := hf.lt
      simp only [Nat.add_zero] at hM ⊢
      exact ⟨_, h, Loop.run_exit (allocTurn_take hi hf), hf.ge, hlt, hclear,
        hb.take hclear (by omega)⟩
  | succ m ih =>
      intro i h n b hb hclear hf hrest hM
      have hsize := hb.small.size
      have hge := hf.ge
      have hlt := hf.lt
      have hpos : 0 < 2 ^ i := Nat.two_pow_pos i
      have hpow : 2 ^ (i + 1) = 2 ^ i * 2 := Nat.pow_succ 2 i
      have hpow' : 2 ^ (i + 2) = 2 ^ i * 4 := by
        rw [Nat.pow_add]
      have hle : 2 ^ (i + 1) ≤ M := Nat.le_trans (Nat.pow_le_pow_right (by omega) (by omega)) hM
      have hi : i < 6 := by
        by_contra hlarge
        have := Nat.pow_le_pow_right (n := 2) (by omega) (show 6 ≤ i by omega)
        omega
      have hcut := hb.cut hclear (by omega) (by omega)
      -- In the next layer only the two halves of `h` are free, and none in the ones after it.
      have hnew : ∀ x, 2 ^ i * 2 ≤ x → x < 2 ^ (i + (m + 1) + 1) → x ≠ h * 2 → x ≠ h * 2 + 1 →
          (cutBlock b h).freeAt x = false := by
        intro x hx hxlt hne hne'
        have hxM : x < 2 * M := by
          have : 2 ^ (i + (m + 1) + 1) = 2 ^ (i + (m + 1)) * 2 := Nat.pow_succ 2 _
          omega
        have hnot := hrest x hx hxlt
        rw [Bool.eq_false_iff] at hnot ⊢
        intro hfree
        rcases (hcut.free x (by omega) hxM).mp hfree with heq | hfree
        · exact hne heq
        · rw [free_insert_child hclear (by omega) (show h * 2 / 2 = h by omega)
            (show (h * 2 + 1) / 2 = h by omega) (by omega) (by omega)] at hfree
          cases hfree with
          | inl hfree => exact hnot ((hb.free x (by omega) hxM).mpr (.inr hfree))
          | inr heq => exact hne' heq
      have hmono : 2 ^ (i + 2) ≤ 2 ^ (i + (m + 1) + 1) :=
        Nat.pow_le_pow_right (by omega) (by omega)
      have hfirst : First (cutBlock b h) (2 ^ (i + 1)) (h * 2) := by
        refine ⟨by omega, by omega, ?_, fun j hj hjh =>
          hnew j (by omega) (by omega) (by omega) (by omega)⟩
        exact (hcut.free (h * 2) (by omega) (by omega)).mpr (.inl rfl)
      have hturn := allocTurn_cut (m := m) hi hf
      rw [← hpow] at hturn
      rw [← Nat.add_assoc, Loop.run_continue hturn]
      have hclear' : Clear S (h * 2) := hclear.mono ⟨1, by omega⟩
      have := ih (i + 1) (h * 2) n _ hcut hclear' hfirst
        (fun x hx hxlt => hnew x (by omega)
          (by rw [show i + (m + 1) + 1 = i + 1 + m + 1 by omega]; exact hxlt) (by omega) (by omega))
        (by rw [show i + 1 + m = i + (m + 1) by omega]; exact hM)
      rwa [show i + 1 + m = i + (m + 1) by omega] at this

/-- The way up. No block of the `m` layers after the layer `i` is free. -/
theorem alloc_up {M : Nat} {S : Set Nat} {b : Bbuddy} (hb : BuddyBooks M S b) :
    ∀ (i m n : Nat), (∀ x, 2 ^ i * 2 ≤ x → x < 2 ^ (i + m + 1) → b.freeAt x = false) →
      2 ^ (i + m) ≤ M → 2 * i + m + 2 ≤ n →
      (∃ b' g, Loop.run .diverges allocTurn n (b, 2 ^ i, m) = .ok (b', g - 2 ^ (i + m)) ∧
        2 ^ (i + m) ≤ g ∧ g < 2 ^ (i + m) * 2 ∧ Clear S g ∧ BuddyBooks M (insert g S) b') ∨
      (Loop.run .diverges allocTurn n (b, 2 ^ i, m) = .ok (b, ENOBLOCK) ∧
        ∀ x, 1 ≤ x → x < 2 ^ (i + m + 1) → b.freeAt x = false) := by
  intro i
  -- The induction is on the layer, upwards: the layers below are known to have no free block.
  induction i with
  | zero =>
      intro m n hrest hM hn
      obtain ⟨n, rfl⟩ : ∃ k, n = k + (m + 1) := ⟨n - (m + 1), by omega⟩
      have hsize := hb.small.size
      have hone : 2 ^ 0 = 1 := rfl
      cases hfree : b.freeAt 1 with
      | true =>
          have hF : Free S 1 := (hb.free 1 (by omega) (by omega)).mp hfree
          refine .inl (alloc_down m 0 1 n b (BuddyBooks.hole hb hF (by omega)) hF.1 ?_ hrest hM)
          exact ⟨by omega, by omega, hfree, fun j hj hj1 => by omega⟩
      | false =>
          refine .inr ⟨?_, fun x hx hlt => ?_⟩
          · obtain ⟨n, rfl⟩ : ∃ k, n = k + 1 := ⟨n - 1, by omega⟩
            have hturn : allocTurn (b, 2 ^ 0, m) = .ok (.inl (b, 2 ^ 0 / 2, m + 1)) := by
              refine allocTurn_none (by omega) fun j hj hj2 => ?_
              obtain rfl : j = 1 := by omega
              exact hfree
            rw [show n + 1 + (m + 1) = n + (m + 1) + 1 by omega, Loop.run_continue hturn]
            exact Loop.run_exit allocTurn_zero
          · by_cases hx1 : x = 1
            · exact hx1 ▸ hfree
            · exact hrest x (by omega) hlt
  | succ i ih =>
      intro m n hrest hM hn
      have hsize := hb.small.size
      have hpos : 0 < 2 ^ i := Nat.two_pow_pos i
      have hpow : 2 ^ (i + 1) = 2 ^ i * 2 := Nat.pow_succ 2 i
      have hi : i + 1 ≤ 6 := by
        by_contra hlarge
        have := Nat.pow_le_pow_right (n := 2) (by omega) (show 7 ≤ i + 1 + m by omega)
        omega
      have hle : 2 ^ (i + 1) ≤ 2 ^ (i + 1 + m) := Nat.pow_le_pow_right (by omega) (by omega)
      -- Either this layer has a free block, which is cut down, or the search goes up.
      rcases first_or_none b (2 ^ (i + 1)) with ⟨h, hf⟩ | hlayer
      · have hge := hf.ge
        have hlt := hf.lt
        have hF : Free S h := (hb.free h (by omega) (by omega)).mp hf.free
        obtain ⟨n, rfl⟩ : ∃ k, n = k + (m + 1) := ⟨n - (m + 1), by omega⟩
        exact .inl
          (alloc_down m (i + 1) h n b (BuddyBooks.hole hb hF (by omega)) hF.1 hf hrest hM)
      · obtain ⟨n, rfl⟩ : ∃ k, n = k + 1 := ⟨n - 1, by omega⟩
        have hturn := allocTurn_none (m := m) hi hlayer
        rw [show 2 ^ (i + 1) / 2 = 2 ^ i by omega] at hturn
        rw [Loop.run_continue hturn, show i + 1 + m = i + (m + 1) by omega]
        refine ih (m + 1) n (fun x hx hlt => ?_) ?_ (by omega)
        · by_cases hdeep : x < 2 ^ (i + 1) * 2
          · exact hlayer x (by omega) hdeep
          · refine hrest x (by omega) ?_
            rw [show i + 1 + m + 1 = i + (m + 1) + 1 by omega]
            exact hlt
        · rw [show i + (m + 1) = i + 1 + m by omega]
          exact hM

end Alloc

/-- An allocation takes a clear block of its layer, or there is no free block in its layer
and above it. -/
theorem bbuddyBlockAlloc_books {M : Nat} {S : Set Nat} {b : Bbuddy} (hb : BuddyBooks M S b)
    {i : Nat} (hi : 2 ^ i ≤ M) :
    (∃ b' g, bbuddyBlockAlloc b (2 ^ i) = .ok (b', g - 2 ^ i) ∧
      2 ^ i ≤ g ∧ g < 2 ^ i * 2 ∧ Clear S g ∧ BuddyBooks M (insert g S) b') ∨
    (bbuddyBlockAlloc b (2 ^ i) = .ok (b, ENOBLOCK) ∧
      ∀ x, 1 ≤ x → x < 2 ^ i * 2 → ¬ Free S x) := by
  have hsize := hb.small.size
  have hlarge : i ≤ 6 := layer_le (by omega)
  have hpow : 2 ^ (i + 0 + 1) = 2 ^ i * 2 := Nat.pow_succ 2 i
  rcases alloc_up hb i 0 TURNS (fun x hx hlt => by omega) hi (by unfold TURNS; omega)
    with hgot | hnone
  · exact .inl hgot
  · refine .inr ⟨hnone.1, fun x hx hlt hfree => ?_⟩
    have := hnone.2 x hx (by omega)
    rw [(hb.free x hx (by omega)).mpr hfree] at this
    cases this

/-! ### Joining blocks -/

/-- The other half of the parent. -/
def sibling (g : Nat) : Nat := if g % 2 = 1 then g - 1 else g + 1

/-- What `__bbuddy_split_up` does to a block whose sibling is free: both are used, all
blocks of their word are marked not separated, and the parent is free. -/
def joinBlocks (b : Bbuddy) (g : Nat) : Bbuddy :=
  let b := (b.clearNbmp (g / 32) (sibling g % 32)).clearNbmp (g / 32) (g % 32)
  let b := b.setPbmp (g / 32) (b.pbmp (g / 32) ||| ~~~(1#32 <<< (sibling g % 32)))
  let b := b.setPbmp (g / 32) (b.pbmp (g / 32) ||| ~~~(1#32 <<< (g % 32)))
  (b.markNbmp (g / 2 / 32) (g / 2 % 32)).markPbmp (g / 2 / 32) (g / 2 % 32)

/-- A block and its sibling have one parent, ... -/
theorem sibling_half {g : Nat} : sibling g / 2 = g / 2 := by
  unfold sibling
  split <;> omega

/-- ... stand in one word ... -/
theorem sibling_word {g : Nat} : sibling g / 32 = g / 32 := by
  unfold sibling
  split <;> omega

/-- ... and are two. -/
theorem sibling_ne {g : Nat} : g ≠ sibling g := by
  unfold sibling
  split <;> omega

section Join

variable {M i num g j k w : Nat} {S : Set Nat} {F W : Nat → Prop} {b : Bbuddy}

/-- Where the sibling is free, the two are joined, and the walk goes on above unless it is at
the root. -/
theorem splitUpTurn_join (h1 : 1 ≤ i) (hi : i ≤ 6) (hnum : num < 2 ^ i)
    (hfree : b.freeAt (sibling (2 ^ i + num)) = true) :
    splitUpTurn (b, 2 ^ i, num) =
      if 2 ^ i / 2 > 1 then .ok (.inl (joinBlocks b (2 ^ i + num), 2 ^ i / 2, num / 2))
      else .ok (.inr (joinBlocks b (2 ^ i + num))) := by
  obtain ⟨i, rfl⟩ : ∃ k, i = k + 1 := ⟨i - 1, by omega⟩
  obtain ⟨hp, hn⟩ := node_index hi hnum
  have hpow : 2 ^ (i + 1) = 2 ^ i * 2 := Nat.pow_succ 2 i
  obtain ⟨hp', hn'⟩ := node_index (show i ≤ 6 by omega) (show num / 2 < 2 ^ i by omega)
  have hhalf : 2 ^ (i + 1) / 2 = 2 ^ i := by omega
  have hparent : 2 ^ i + num / 2 = (2 ^ (i + 1) + num) / 2 := by omega
  have hsib : (if num % 2 = 1 then (2 ^ (i + 1) + num) % 32 - 1 else (2 ^ (i + 1) + num) % 32 + 1)
      = sibling (2 ^ (i + 1) + num) % 32 := by
    unfold sibling
    split <;> split <;> omega
  have hbit : (b.nbmp ((2 ^ (i + 1) + num) / 32)).getLsbD (sibling (2 ^ (i + 1) + num) % 32)
      = true := by
    rw [← sibling_word]
    exact hfree
  simp only [splitUpTurn, hp, hn, hsib, hbit, if_true, hhalf, hp', hn', hparent]
  rfl

/-- Where it is not, the walk ends. -/
theorem splitUpTurn_stay (h1 : 1 ≤ i) (hi : i ≤ 6) (hnum : num < 2 ^ i)
    (hfree : b.freeAt (sibling (2 ^ i + num)) = false) :
    splitUpTurn (b, 2 ^ i, num) = .ok (.inr b) := by
  obtain ⟨i, rfl⟩ : ∃ k, i = k + 1 := ⟨i - 1, by omega⟩
  obtain ⟨hp, hn⟩ := node_index hi hnum
  have hpow : 2 ^ (i + 1) = 2 ^ i * 2 := Nat.pow_succ 2 i
  have hsib : (if num % 2 = 1 then (2 ^ (i + 1) + num) % 32 - 1 else (2 ^ (i + 1) + num) % 32 + 1)
      = sibling (2 ^ (i + 1) + num) % 32 := by
    unfold sibling
    split <;> split <;> omega
  have hbit : (b.nbmp ((2 ^ (i + 1) + num) / 32)).getLsbD (sibling (2 ^ (i + 1) + num) % 32)
      = false := by
    rw [← sibling_word]
    exact hfree
  simp [splitUpTurn, hp, hn, hsib, hbit]

/-- For the root the bit of block 2 stands in the place of a sibling's. -/
theorem splitUpTurn_root (hfree : b.freeAt 2 = false) :
    splitUpTurn (b, 2 ^ 0, 0) = .ok (.inr b) := by
  have hbit : ¬ (b.nbmp 0).getLsbD 2 = true := by
    rw [show (b.nbmp 0).getLsbD 2 = b.freeAt 2 from rfl, hfree]
    decide
  exact if_neg hbit

/-- The two masks set all bits of a word. -/
theorem Flags.fillWord (hb : Flags M F W b) (hw : w < b.nbmpAt) (hjk : j ≠ k) :
    Flags M F (fun x => W x ∧ x / 32 ≠ w)
      ((b.setPbmp w (b.pbmp w ||| ~~~(1#32 <<< j))).setPbmp w
        ((b.setPbmp w (b.pbmp w ||| ~~~(1#32 <<< j))).pbmp w ||| ~~~(1#32 <<< k))) where
  small := ⟨hb.small.size, hb.small.pn, hb.small.nbmpAt⟩
  free x h1 hx := by
    rw [freeAt_setPbmp (by exact hw), freeAt_setPbmp hw]
    exact hb.free x h1 hx
  whole x h1 hx := by
    have hlt : x % 32 < 32 := Nat.mod_lt _ (by omega)
    rw [wholeAt, pbmp_setPbmp]
    by_cases heq : x / 32 = w
    · have hbit : x % 32 ≠ j ∨ x % 32 ≠ k := by omega
      rw [if_pos heq, pbmp_setPbmp, if_pos rfl]
      simp only [BitVec.getLsbD_or, BitVec.getLsbD_not, ← BitVec.twoPow_eq, BitVec.getLsbD_twoPow]
      simp only [hlt, heq, ne_eq, not_true, and_false, not_false_iff, iff_true, Bool.or_eq_true,
        Bool.not_eq_true', decide_true, Bool.and_eq_false_imp, decide_eq_true_eq,
        decide_eq_false_iff_not, Bool.true_and]
      omega
    · rw [if_neg heq, pbmp_setPbmp, if_neg heq, ← wholeAt, hb.whole x h1 hx]
      tauto

/-- Joining clears the bits of the two halves and frees their parent. The slip of the source
clears, with these two, the other pieces that stand in the same word. -/
theorem Flags.join (hb : Flags M F W b) (hg : g < 2 * M) :
    Flags M (fun x => (F x ∧ x ≠ g ∧ x ≠ sibling g) ∨ x = g / 2)
      (fun x => (W x ∧ x / 32 ≠ g / 32) ∧ x ≠ g / 2) (joinBlocks b g) := by
  have hbits : sibling g % 32 ≠ g % 32 := fun heq =>
    sibling_ne ((bit_eq_iff sibling_word).mp heq).symm
  have h1 := hb.clearFree (sibling g)
  rw [sibling_word] at h1
  have h2 := (h1.clearFree g).fillWord (hb.small.word_lt hg) hbits
  have h3 := (h2.markFree (g / 2)).markWhole (h := g / 2) (by omega)
  exact h3.congr (fun x _ _ => by tauto) (fun x _ _ => Iff.rfl)

/-- Climbing while the sibling is free. `I g b` holds of the block `g` that is next to be
joined; the root has no sibling, and block 2, which the code takes for it, is not free. -/
theorem splitUp_rule (I : Nat → Bbuddy → Prop)
    (hjoin : ∀ g b, 1 < g → I g b → b.freeAt (sibling g) = true → I (g / 2) (joinBlocks b g)) :
    ∀ (i num n : Nat) (b : Bbuddy), i ≤ 6 → num < 2 ^ i → (i = 0 → b.freeAt 2 = false) →
      I (2 ^ i + num) b → i + 1 ≤ n →
      ∃ b' g, Loop.run .diverges splitUpTurn n (b, 2 ^ i, num) = .ok b' ∧ I g b' ∧
        (g = 1 ∨ b'.freeAt (sibling g) = false) := by
  intro i
  -- The induction is on the layer of the block; each join goes to the next larger one.
  induction i with
  | zero =>
      intro num n b _ hnum hroot hI hn
      obtain rfl : num = 0 := by omega
      obtain ⟨n, rfl⟩ : ∃ k, n = k + 1 := ⟨n - 1, by omega⟩
      exact ⟨b, 1, Loop.run_exit (splitUpTurn_root (hroot rfl)), hI, .inl rfl⟩
  | succ i ih =>
      intro num n b hi hnum _ hI hn
      have hpow : 2 ^ (i + 1) = 2 ^ i * 2 := Nat.pow_succ 2 i
      have hpos : 0 < 2 ^ i := Nat.two_pow_pos i
      obtain ⟨n, rfl⟩ : ∃ k, n = k + 1 := ⟨n - 1, by omega⟩
      have hhalf : 2 ^ (i + 1) / 2 = 2 ^ i := by omega
      have hparent : (2 ^ (i + 1) + num) / 2 = 2 ^ i + num / 2 := by omega
      cases hfree : b.freeAt (sibling (2 ^ (i + 1) + num)) with
      | false =>
          exact ⟨b, _, Loop.run_exit (splitUpTurn_stay (by omega) hi hnum hfree), hI, .inr hfree⟩
      | true =>
          have hnext := hjoin _ b (by omega) hI hfree
          have hturn := splitUpTurn_join (by omega) hi hnum hfree
          rw [hparent] at hnext
          rw [hhalf] at hturn
          by_cases hdeep : 2 ^ i > 1
          · rw [if_pos hdeep] at hturn
            rw [Loop.run_continue hturn]
            refine ih _ n _ (by omega) (by omega) (fun h0 => ?_) hnext (by omega)
            subst h0
            omega
          · rw [if_neg hdeep] at hturn
            exact ⟨_, _, Loop.run_exit hturn, hnext, .inl (by omega)⟩

/-- The release of `g` marks `x` not separated: it joins two blocks whose word holds the
flag of `x`, or `x` is their parent. -/
def Swept (S : Set Nat) (g x : Nat) : Prop :=
  ∃ a, Anc a g ∧ 1 < a ∧ Clear S (a / 2) ∧ (x / 32 = a / 32 ∨ x = a / 2)

/-- While the block `g` is given back, `h` is the one to be joined next, and the words of the
blocks between `g` and `h` are swept. -/
structure Joining (M : Nat) (S : Set Nat) (W : Nat → Prop) (g h : Nat) (b : Bbuddy) : Prop where
  anc : Anc h g
  pos : 1 ≤ h
  clear : Clear S h
  flags : Flags M (fun x => x = h ∨ Free (insert h S) x)
    (fun x => W x ∧ ¬ ∃ a, Anc a g ∧ h < a ∧ (x / 32 = a / 32 ∨ x = a / 2)) b

/-- While blocks are joined upwards, the sibling's bit is set exactly when the parent would be
clear. -/
theorem Joining.freeAt_sibling {h : Nat} (hj : Joining M S W g h b) (hg : g < 2 * M)
    (h1 : 1 < h) : b.freeAt (sibling h) = true ↔ Clear S (h / 2) := by
  have := hj.anc.le
  have hhalf := sibling_half (g := h)
  rw [hj.flags.free _ (by omega) (by omega),
    ← free_sibling hj.clear (by omega) sibling_half sibling_ne]
  exact ⟨fun hx => hx.resolve_left sibling_ne.symm, .inr⟩

/-- One join. -/
theorem Joining.join {h : Nat} (hj : Joining M S W g h b) (hg : g < 2 * M) (h1 : 1 < h)
    (hfree : b.freeAt (sibling h) = true) : Joining M S W g (h / 2) (joinBlocks b h) := by
  have hpar := (hj.freeAt_sibling hg h1).mp hfree
  obtain ⟨hhg, -, -, hflags⟩ := hj
  have := hhg.le
  refine ⟨(anc_half h).trans hhg, by omega, hpar,
    (Flags.join hflags (by omega)).congr (fun x hx _ => ?_) (fun x _ _ => ?_)⟩
  · rw [free_insert_child hpar (by omega) rfl sibling_half sibling_ne hx]
    have hself : Free (insert (h / 2) S) x → x ≠ h ∧ x ≠ sibling h := by
      intro hx
      constructor
      · rintro rfl
        exact not_free_insert_below (anc_half _) hx
      · rintro rfl
        exact not_free_insert_below ⟨1, sibling_half⟩ hx
    tauto
  · -- Between `g` and the parent there is `h`, besides the blocks between `g` and `h`.
    constructor
    · rintro ⟨⟨⟨hW, hnot⟩, hword⟩, hne⟩
      refine ⟨hW, ?_⟩
      rintro ⟨a, hag, hlt, hx⟩
      by_cases hah : a = h
      · subst hah
        tauto
      · have : Anc h a := (anc_total hag hhg).resolve_left fun hanc => by
          have := (hanc.half hah).le
          omega
        exact hnot ⟨a, hag, by have := this.le; omega, hx⟩
    · rintro ⟨hW, hnot⟩
      refine ⟨⟨⟨hW, fun ⟨a, hag, hlt, hx⟩ => hnot ⟨a, hag, by omega, hx⟩⟩, ?_⟩, ?_⟩
      · exact fun hword => hnot ⟨h, hhg, by omega, .inl hword⟩
      · exact fun heq => hnot ⟨h, hhg, by omega, .inr heq⟩

/-- Where no join follows, the flags are right without the block. -/
theorem Joining.done {h : Nat} (hj : Joining M S W g h b) (htop : h = 1 ∨ ¬ Clear S (h / 2)) :
    Flags M (Free S) (fun x => W x ∧ ¬ Swept S g x) b := by
  obtain ⟨hhg, hpos, hclear, hflags⟩ := hj
  refine hflags.congr (fun x hx _ => (free_insert ⟨hclear, htop⟩ hpos hx).symm)
    fun x _ _ => and_congr_right fun _ => not_congr ⟨?_, ?_⟩
  · rintro ⟨a, hag, hlt, hx⟩
    have hha : Anc h a := (anc_total hag hhg).resolve_left fun hanc => by
      have := hanc.le
      omega
    exact ⟨a, hag, by omega, hclear.mono (hha.half (by omega)), hx⟩
  · rintro ⟨a, hag, h1, hpar, hx⟩
    refine ⟨a, hag, ?_, hx⟩
    by_contra hle
    have hah : Anc a h := (anc_total hag hhg).elim id fun hanc => by
      have := hanc.le
      obtain rfl : a = h := by omega
      exact anc_refl a
    cases htop with
    | inl hone => omega
    | inr hnot => exact hnot (hpar.mono hah.halves)

/-- Giving back a block joins it with all free halves on its way up and sweeps their
words. -/
theorem splitUp_flags (hi : 2 ^ i ≤ M) (hnum : num < 2 ^ i) (hclear : Clear S (2 ^ i + num))
    (hb : Flags M (fun x => x = 2 ^ i + num ∨ Free (insert (2 ^ i + num) S) x) W b) :
    ∃ b', bbuddySplitUp b (2 ^ i) num = .ok b' ∧
      Flags M (Free S) (fun x => W x ∧ ¬ Swept S (2 ^ i + num) x) b' := by
  have hsize := hb.small.size
  have hlarge : i ≤ 6 := layer_le (by omega)
  have hlt : 2 ^ i + num < 2 * M := by omega
  have hpos : 0 < 2 ^ i := Nat.two_pow_pos i
  generalize hg : 2 ^ i + num = g at *
  have hstart : Joining M S W g g b := ⟨anc_refl g, by omega, hclear,
      hb.congr (fun _ _ _ => Iff.rfl) fun x _ _ => by
    refine ⟨fun hW => ⟨hW, ?_⟩, And.left⟩
    rintro ⟨a, hag, hlt, -⟩
    have := hag.le
    omega⟩
  -- The root has no sibling, and block 2 is not free as it is part of the root.
  have hroot : i = 0 → b.freeAt 2 = false := by
    rintro rfl
    obtain rfl : g = 1 := by omega
    rw [Bool.eq_false_iff]
    intro hfree
    rcases (hb.free 2 (by omega) (by omega)).mp hfree with heq | hfree
    · omega
    · exact not_free_insert_below ⟨1, by omega⟩ hfree
  obtain ⟨b', h, hrun, hj, hexit⟩ := splitUp_rule (Joining M S W g)
    (fun h b h1 hj hfree => hj.join hlt h1 hfree) i num TURNS b hlarge hnum hroot
    (hg ▸ hstart) (by unfold TURNS; omega)
  refine ⟨b', hrun, hj.done ?_⟩
  by_cases h1 : h = 1
  · exact .inl h1
  · have hpos' := hj.pos
    refine .inr fun hpar => ?_
    rw [(hj.freeAt_sibling hlt (by omega)).mpr hpar] at hexit
    simp [h1] at hexit

end Join

/-! ### What a release does -/

/-- Climbing passes the layers in which the block starts at an even number. -/
theorem startLayer_mul (k d num : Nat) : startLayer (k + d) (num * 2 ^ d) = startLayer k num := by
  induction d with
  | zero => simp
  | succ d ih =>
      rw [Nat.pow_succ, ← Nat.mul_assoc, ← Nat.add_assoc, startLayer, if_neg (by omega),
        Nat.mul_div_cancel _ (by omega)]
      exact ih

/-- Climbing from the block `num` of the layer `k` ends at a block above it that starts
where it does, and at the highest one. -/
theorem startLayer_above (k num : Nat) :
    ∃ q i d, startLayer k num = (q, i) ∧ k = i + d ∧ num = q * 2 ^ d ∧ (i = 0 ∨ q % 2 = 1) := by
  induction k generalizing num with
  | zero => exact ⟨num, 0, 0, rfl, rfl, by simp, .inl rfl⟩
  | succ k ih =>
      by_cases hodd : num % 2 = 1
      · exact ⟨num, k + 1, 0, by simp [startLayer, hodd], rfl, by simp, .inr hodd⟩
      · obtain ⟨q, i, d, hq, hk, hnum, htop⟩ := ih (num / 2)
        refine ⟨q, i, d + 1, by rw [startLayer, if_neg hodd, hq], by omega, ?_, htop⟩
        rw [Nat.pow_succ, ← Nat.mul_assoc, ← hnum]
        omega

section Release

variable {M L k i q num n : Nat} {S : Set Nat} {F W : Nat → Prop} {b : Bbuddy}

/-- Where a call of `__bbuddy_block_release` looks. -/
def releaseAt (b : Bbuddy) (num i : Nat) : Nat × Nat :=
  if i = 0 then startLayer (layersOf b.pn - 1) num else (num, i)

/-- A turn of the release at the layer of the block: it is one piece in use, so it is given back
and joined. -/
theorem releaseTurn_give {b' : Bbuddy} (hnum : num ≤ b.pn) (hat : releaseAt b num i = (q, k))
    (hk : k ≤ 6) (hq : q < 2 ^ k) (hused : b.freeAt (2 ^ k + q) = false)
    (hwhole : b.wholeAt (2 ^ k + q) = true)
    (hup : bbuddySplitUp (b.markNbmp ((2 ^ k + q) / 32) ((2 ^ k + q) % 32)) (2 ^ k) q = .ok b') :
    releaseTurn (b, num, i) = .ok (.inr (b', 0)) := by
  obtain ⟨hp, hn⟩ := node_index hk hq
  unfold releaseAt at hat
  rw [freeAt] at hused
  rw [wholeAt] at hwhole
  simp only [releaseTurn, if_neg (Nat.not_lt.mpr hnum), hat, hp, hn, hused, hwhole, hup]
  rfl

/-- A block that is cut is not the one to be given back. The turn goes one layer down. -/
theorem releaseTurn_deep (hnum : num ≤ b.pn) (hat : releaseAt b num i = (q, k))
    (hk : k ≤ 6) (hq : q < 2 ^ k) (hused : b.freeAt (2 ^ k + q) = false)
    (hsplit : b.wholeAt (2 ^ k + q) = false) (hlayer : k + 1 < layersOf b.pn) :
    releaseTurn (b, num, i) = .ok (.inl (b, q * 2, k + 1)) := by
  obtain ⟨hp, hn⟩ := node_index hk hq
  unfold releaseAt at hat
  rw [freeAt] at hused
  rw [wholeAt] at hsplit
  simp only [releaseTurn, if_neg (Nat.not_lt.mpr hnum), hat, hp, hn, hused, hsplit]
  simp [Nat.not_le.mpr hlayer]

/-- Calls that come across no free block on their way down from `q` give back the first
block that is marked not separated, and there is one at the latest at the end. -/
theorem release_down (hM : b.pn = 2 ^ L) (hL : k + n ≤ L) (hL6 : L ≤ 6) (hq : q < 2 ^ k)
    (hused : ∀ d, d ≤ n → b.freeAt ((2 ^ k + q) * 2 ^ d) = false)
    (hwhole : b.wholeAt ((2 ^ k + q) * 2 ^ n) = true)
    (hnum : num ≤ b.pn) (hat : releaseAt b num i = (q, k)) (fuel : Nat) :
    ∃ d, d ≤ n ∧ b.wholeAt ((2 ^ k + q) * 2 ^ d) = true ∧
      (∀ e, e < d → b.wholeAt ((2 ^ k + q) * 2 ^ e) = false) ∧
      ∀ b', bbuddySplitUp (b.markNbmp ((2 ^ k + q) * 2 ^ d / 32) ((2 ^ k + q) * 2 ^ d % 32))
          (2 ^ (k + d)) (q * 2 ^ d) = .ok b' →
        Loop.run .diverges releaseTurn (fuel + (n + 1)) (b, num, i) = .ok (b', 0) := by
  -- The induction is on the layers down to the one that is marked.
  induction n generalizing k q num i fuel with
  | zero =>
      have hfree := hused 0 (by omega)
      simp only [Nat.pow_zero, Nat.mul_one] at hwhole hfree
      refine ⟨0, by omega, by simpa using hwhole, fun e he => by omega, fun b' hup => ?_⟩
      simp only [Nat.pow_zero, Nat.mul_one, Nat.add_zero] at hup
      exact Loop.run_exit (releaseTurn_give hnum hat (by omega) hq hfree hwhole hup)
  | succ n ih =>
      have hfree := hused 0 (by omega)
      simp only [Nat.pow_zero, Nat.mul_one] at hfree
      -- A block marked here is given back; else its first half is looked at.
      cases hhere : b.wholeAt (2 ^ k + q) with
      | true =>
          refine ⟨0, by omega, by simpa using hhere, fun e he => by omega, fun b' hup => ?_⟩
          simp only [Nat.pow_zero, Nat.mul_one, Nat.add_zero] at hup
          exact Loop.run_exit (releaseTurn_give hnum hat (by omega) hq hfree hhere hup)
      | false =>
          have hlayers : layersOf b.pn = L + 1 := by
            rw [hM, layersOf, if_neg (by have := Nat.two_pow_pos L; omega), Nat.log2_two_pow]
          have hturn := releaseTurn_deep hnum hat (by omega) hq hfree hhere (by omega)
          have hnode : ∀ d, (2 ^ (k + 1) + q * 2) * 2 ^ d = (2 ^ k + q) * 2 ^ (d + 1) := fun d => by
            rw [Nat.pow_succ, Nat.pow_succ', ← Nat.add_mul, Nat.mul_assoc]
          have hpow : 2 ^ (k + 1) = 2 ^ k * 2 := Nat.pow_succ 2 k
          have hle : 2 ^ (k + 1) ≤ 2 ^ L := Nat.pow_le_pow_right (by omega) (by omega)
          obtain ⟨d, hd, hdwhole, hbefore, hrun⟩ := ih (k := k + 1) (q := q * 2)
            (i := k + 1) (by omega) (by omega)
            (fun d hd => by rw [hnode]; exact hused (d + 1) (by omega))
            (by rw [hnode]; exact hwhole) (show q * 2 ≤ b.pn by omega) (by simp [releaseAt]) fuel
          refine ⟨d + 1, by omega, by rw [← hnode]; exact hdwhole, fun e he => ?_, fun b' hup => ?_⟩
          · cases e with
            | zero => simpa using hhere
            | succ e =>
                rw [← hnode]
                exact hbefore e (by omega)
          · rw [show fuel + (n + 1 + 1) = fuel + (n + 1) + 1 by omega, Loop.run_continue hturn]
            refine hrun b' ?_
            rw [hnode, Nat.mul_assoc, ← Nat.pow_succ', show k + 1 + d = k + (d + 1) by omega]
            exact hup

/-- Where the release of the block `num` of the layer `k` by its first index starts: at the
highest block that begins there. -/
theorem release_start (hb : Small M b) (hM : M = 2 ^ L) (hk : k ≤ L) (hnum : num < 2 ^ k) :
    ∃ q i n, k = i + n ∧ num = q * 2 ^ n ∧ q < 2 ^ i ∧ (i = 0 ∨ q % 2 = 1) ∧
      num * (M / 2 ^ k) ≤ b.pn ∧ releaseAt b (num * (M / 2 ^ k)) 0 = (q, i) := by
  have hlayers : layersOf b.pn = L + 1 := by
    rw [hb.pn, hM, layersOf, if_neg (by have := Nat.two_pow_pos L; omega), Nat.log2_two_pow]
  have hunits : M / 2 ^ k = 2 ^ (L - k) := by
    rw [hM, Nat.pow_div hk (by omega)]
  have hindex : num * (M / 2 ^ k) ≤ b.pn := by
    rw [hb.pn]
    calc num * (M / 2 ^ k) ≤ 2 ^ k * (M / 2 ^ k) := Nat.mul_le_mul_right _ (Nat.le_of_lt hnum)
      _ ≤ M := Nat.mul_div_le _ _
  obtain ⟨q, i, n, hstart, rfl, rfl, htop⟩ := startLayer_above k num
  have hq : q < 2 ^ i := by
    rw [Nat.pow_add] at hnum
    exact Nat.lt_of_mul_lt_mul_right hnum
  refine ⟨q, i, n, rfl, rfl, hq, htop, hindex, ?_⟩
  rw [releaseAt, if_pos rfl, hlayers, hunits, Nat.add_sub_cancel]
  rw [show L = i + n + (L - (i + n)) by omega, Nat.add_sub_cancel_left, startLayer_mul, hstart]

/-- A release of the block `num` of the layer `k` by its first index in the smallest layer
gives back the highest block with this first index that is marked not separated. -/
theorem release_finds (hb : Small M b) (hM : M = 2 ^ L) (hk : k ≤ L) (hnum : num < 2 ^ k)
    (hused : ∀ y, Heads y (2 ^ k + num) → 1 ≤ y → b.freeAt y = false)
    (hwhole : b.wholeAt (2 ^ k + num) = true) :
    ∃ i q, i ≤ k ∧ q < 2 ^ i ∧ Heads (2 ^ i + q) (2 ^ k + num) ∧ b.wholeAt (2 ^ i + q) = true ∧
      (∀ y, Heads y (2 ^ i + q) → 1 ≤ y → y ≠ 2 ^ i + q → b.wholeAt y = false) ∧
      ∀ b', bbuddySplitUp (b.markNbmp ((2 ^ i + q) / 32) ((2 ^ i + q) % 32)) (2 ^ i) q = .ok b' →
        bbuddyBlockRelease b (num * (M / 2 ^ k)) = .ok (b', 0) := by
  have hsize := hb.size
  have hL : L ≤ 6 := layer_le (by omega)
  have hpn : b.pn = 2 ^ L := hb.pn.trans hM
  obtain ⟨q, i, n, rfl, rfl, hq, htop, hindex, hat⟩ := release_start hb hM hk hnum
  have hnode : 2 ^ (i + n) + q * 2 ^ n = (2 ^ i + q) * 2 ^ n := by
    rw [Nat.pow_add, ← Nat.add_mul]
  have hpos : 0 < 2 ^ i := Nat.two_pow_pos i
  -- The start is a right half, or the root.
  have hodd : (2 ^ i + q) % 2 = 1 := by
    cases i with
    | zero =>
        rw [Nat.pow_zero] at hq ⊢
        omega
    | succ i =>
        rw [Nat.pow_succ]
        omega
  have hheads : ∀ d, d ≤ n → Heads ((2 ^ i + q) * 2 ^ d) (2 ^ (i + n) + q * 2 ^ n) := fun d hd =>
    ⟨n - d, by rw [hnode, Nat.mul_assoc, ← Nat.pow_add, Nat.add_sub_cancel' hd]⟩
  obtain ⟨d, hd, hdwhole, hbefore, hrun⟩ := release_down (n := n) hpn (by omega) hL hq
    (fun d hd => hused _ (hheads d hd) (Nat.mul_pos (by omega) (Nat.two_pow_pos d)))
    (by rw [← hnode]; exact hwhole) hindex hat (TURNS - (n + 1))
  have hdnode : 2 ^ (i + d) + q * 2 ^ d = (2 ^ i + q) * 2 ^ d := by
    rw [Nat.pow_add, ← Nat.add_mul]
  refine ⟨i + d, q * 2 ^ d, by omega, ?_, ?_, ?_, fun y hy hy1 hne => ?_, fun b' hup => ?_⟩
  · rw [Nat.pow_add]
    exact Nat.mul_lt_mul_of_pos_right hq (Nat.two_pow_pos d)
  · rw [hdnode]
    exact hheads d hd
  · rw [hdnode]
    exact hdwhole
  · -- The blocks that head this one are those on the way down from the start.
    rw [hdnode] at hy hne
    have hdown : Heads (2 ^ i + q) y := by
      rcases Heads.comparable ⟨d, rfl⟩ hy with hdown | hup
      · exact hdown
      · have heq : y = 2 ^ i + q := by
          by_contra hne'
          have heven := hup.even hne'
          omega
        exact heq ▸ heads_refl _
    obtain ⟨e, rfl⟩ := hdown
    refine hbefore e ?_
    by_contra hle
    have hge : (2 ^ i + q) * 2 ^ d ≤ (2 ^ i + q) * 2 ^ e :=
      Nat.mul_le_mul_left _ (Nat.pow_le_pow_right (by omega) (by omega))
    exact hne (Nat.le_antisymm hy.anc.le hge)
  · rw [hdnode] at hup
    have := hrun b' hup
    rwa [Nat.sub_add_cancel (by unfold TURNS; omega)] at this

/-- The release of a block that no wrong mark leads past. The flags of the words that it
sweeps are all set. -/
theorem bbuddyBlockRelease_flags (hM : M = 2 ^ L) (hk : k ≤ L) (hnum : num < 2 ^ k)
    (hclear : Clear S (2 ^ k + num)) (hb : Flags M (Free (insert (2 ^ k + num) S)) W b)
    (hwhole : ¬ W (2 ^ k + num))
    (hlead : ∀ y, Heads y (2 ^ k + num) → 1 ≤ y → y ≠ 2 ^ k + num → W y) :
    ∃ b', bbuddyBlockRelease b (num * (M / 2 ^ k)) = .ok (b', 0) ∧
      Flags M (Free S) (fun x => W x ∧ ¬ Swept S (2 ^ k + num) x) b' := by
  have hpos : 0 < 2 ^ k := Nat.two_pow_pos k
  have hle : 2 ^ k ≤ M := hM ▸ Nat.pow_le_pow_right (by omega) hk
  have hlt : 2 ^ k + num < 2 * M := by omega
  -- No node over the block is marked as free, as the block is live.
  have hused : ∀ y, Heads y (2 ^ k + num) → 1 ≤ y → b.freeAt y = false := by
    intro y hy hy1
    rw [Bool.eq_false_iff]
    intro hfree
    have hylt := hy.anc.le
    have := (hb.free y hy1 (by omega)).mp hfree
    exact (clear_insert.mp this.1).1 (.inr hy.anc)
  obtain ⟨i, q, hik, hq, hheads, hfound, -, hrun⟩ := release_finds hb.small hM hk hnum hused
    ((hb.whole _ (by omega) hlt).mpr hwhole)
  have hq1 : 0 < 2 ^ i := Nat.two_pow_pos i
  -- The search stops at the block itself. A larger one that begins there is marked as parted.
  have hself : 2 ^ i + q = 2 ^ k + num := by
    by_contra hne
    have := hheads.anc.le
    exact (hb.whole _ (by omega) (by omega)).mp hfound (hlead _ hheads (by omega) hne)
  rw [← hself] at hb hclear ⊢
  -- Marking the block is the first store, and the joins start from there.
  have hmarked := (Flags.markFree hb (2 ^ i + q)).congr (fun x _ _ => or_comm)
    (fun x _ _ => Iff.rfl)
  have hle' : 2 ^ i ≤ M := Nat.le_trans (Nat.pow_le_pow_right (by omega) hik) hle
  obtain ⟨b', hup, hflags⟩ := splitUp_flags hle' hq hclear hmarked
  exact ⟨b', hrun b' hup, hflags⟩

end Release

end MString
