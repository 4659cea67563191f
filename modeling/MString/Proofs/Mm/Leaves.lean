import MString.Proofs.Mm.HardwareWalk
import MString.Proofs.Mm.Remap

/-!
# `MString.Proofs.Mm.Leaves`: the leaves that a call leaves behind

`mm_pin_virtual_address` takes a page without a leaf for one that is mapped to
`INVALID_PAGE_IDX`; the processor does not. `LeavesTo` says for every page whether it has a
leaf after a call, and `leavesTo_of_call` that a call that succeeds leaves those of its range.
-/

set_option autoImplicit false

namespace MString

/-- A frame that is no table may be cleaned: the leaves stay. -/
theorem WellFormed.leafOf_clean {m : Mem} {root : Uintptr} {pf : PageIdx} (h : WellFormed m root)
    (hlow : LowFrame pf)
    (hfresh : ∀ p, p.length < 4 → tableOf m root p ≠ some (pframeToVirt pf)) (v : Uintptr) :
    leafOf (m.clean pf) root v = leafOf m root v := by
  have hp : (path v).length < 4 := by simp [path]
  unfold leafOf
  rw [h.tableOf_clean hlow hfresh _ hp]
  cases ht : tableOf m root (path v) with
  | none => rfl
  | some t => simp only [h.agree_clean hlow hfresh _ t _ hp ht]

theorem Readable.clean {m : Mem} {root : Uintptr} {pf : PageIdx} (hread : Readable m root)
    (h : WellFormed m root) (hlow : LowFrame pf)
    (hfresh : ∀ p, p.length < 4 → tableOf m root p ≠ some (pframeToVirt pf)) :
    Readable (m.clean pf) root where
  upper p t i hp ht hpres := by
    rw [h.tableOf_clean hlow hfresh p (by omega)] at ht
    rw [h.agree_clean hlow hfresh p t i (by omega) ht] at hpres ⊢
    exact hread.upper p t i hp ht hpres
  leaf v e hleaf := by
    rw [h.leafOf_clean hlow hfresh] at hleaf
    exact hread.leaf v e hleaf

/-- The `n` pages from `virt` on have leaves with the frames `f`, and the others are as
before. -/
structure LeavesTo (root virt : Uintptr) (n : Nat) (f : Nat → PageIdx) (m m' : Mem) : Prop where
  inside : ∀ i, i < n → ∀ w, pageOf w = pageOf (virt + BitVec.ofNat 64 (4096 * i)) →
    ∃ e, leafOf m' root w = some e ∧ e.base = f i
  outside : ∀ w, (∀ i, i < n → pageOf w ≠ pageOf (virt + BitVec.ofNat 64 (4096 * i))) →
    leafOf m' root w = leafOf m root w
  readable : Readable m root → Readable m' root

/-- A call that succeeds, where the translations afterwards are known. -/
theorem leavesTo_of_call {σ : Type} {mapped : EntryPtr → Bool} {pacc : PageFrameAccessor σ}
    {free : σ → PageIdx → Prop} {hist : σ → List PageIdx → Prop} {root virt n : Uintptr}
    {flags : PageFlags} {s s' : Machine σ} {k : Nat} {f : Nat → PageIdx}
    (hsup : Supplies pacc free hist) (ha : Answers mapped) (h : Ready free root s)
    (hvirt : virt.toNat % 4096 = 0) (hrefused : ¬ Refused ⟨root⟩ virt n)
    (hover : ¬ Overruns virt (virt + n * PAGE_SIZE))
    (hk : visited virt (virt + n * PAGE_SIZE) = k)
    (hframes : ∀ i, i < k → translate s'.mem root (virt + BitVec.ofNat 64 (4096 * i)) = f i)
    (hrun : mmMapPages mapped (some ⟨root⟩) (some pacc) virt n flags s = .ok (0, s')) :
    LeavesTo root virt k f s.mem s'.mem := by
  have hpage := and_pageMask_of_aligned hvirt
  obtain ⟨us, hedits, -, hall⟩ := mmMapPages_edits hsup ha h hrefused (by rwa [hpage]) hrun
  rw [hall rfl, hpage, hk] at hedits
  constructor
  case inside =>
    intro i hi w hw
    obtain ⟨j, hj⟩ := hedits.leafOf_mem h.wf ⟨_, mem_pagesFrom_of_lt virt hi, hw⟩
    refine ⟨_, hj, ?_⟩
    have hframe := hframes i hi
    rw [← translate_of_pageOf_eq hw, translate_eq_leafOf, hj] at hframe
    exact hframe
  case outside =>
    intro w hw
    refine hedits.leafOf_other h.wf fun v hv => ?_
    obtain ⟨i, hi, rfl⟩ := mem_pagesFrom hv
    exact hw i hi
  case readable => exact hedits.readable h.wf

end MString
