import MString.Proofs.Mm.Edits

/-!
# `MString.Proofs.Mm.Histories`: any sequence of calls on one directory

`MapStep` is one call of `mm_map_pages` on a directory that returns, with any accessor
that keeps its promise, and `MapRun` a sequence of them, each of which meets a
condition. Accessors and contexts may differ from call to call.

* `MapStep.edits`: such a call makes stores for the pages it visits.
* `MapRun.invariant`: what every call keeps holds after every sequence of them.
* `zeroPage_unmapped`: no call maps page zero, unless it asks for that page by an
  address other than zero or overruns the address space.
-/

set_option autoImplicit false

namespace MString

/-- The frames that `alloc_page` hands out to the accessor are low, and none of them is a
table of the directory. -/
def SuppliesTo {σ : Type} (pacc : PageFrameAccessor σ) (root : Uintptr) (m : Mem) (ctx : σ) :
    Prop :=
  ∃ free, Supplies pacc free (fun _ _ => True) ∧ (∀ pf, free ctx pf → LowFrame pf) ∧
    ∀ pf, free ctx pf → ∀ p, p.length < 4 → tableOf m root p ≠ some (pframeToVirt pf)

/-- A call of `mm_map_pages` that returns `r`. -/
def MapStep (root virt n : Uintptr) (flags : PageFlags) (m : Mem) (r : Status) (m' : Mem) :
    Prop :=
  ∃ (σ : Type) (pacc : Option (PageFrameAccessor σ)) (ctx ctx' : σ),
    (∀ p, pacc = some p → SuppliesTo p root m ctx) ∧
    mmMapPages kernelWindow (some ⟨root⟩) pacc virt n flags ⟨m, ctx⟩ = .ok (r, ⟨m', ctx'⟩)

/-- A sequence of calls whose arguments all meet the condition `ok`. -/
inductive MapRun (root : Uintptr) (ok : Uintptr → Uintptr → Prop) (m : Mem) : Mem → Prop
  | refl : MapRun root ok m m
  | step {m1 m' : Mem} {virt n : Uintptr} {flags : PageFlags} {r : Status}
      (before : MapRun root ok m m1) (call : MapStep root virt n flags m1 r m')
      (hok : ok virt n) : MapRun root ok m m'

/-- The invariant rule. -/
theorem MapRun.invariant {root : Uintptr} {ok : Uintptr → Uintptr → Prop} (I : Mem → Prop)
    (hstep : ∀ m virt n flags r m', I m → ok virt n → MapStep root virt n flags m r m' → I m')
    {m m' : Mem} (h : MapRun root ok m m') (hI : I m) : I m' := by
  induction h with
  | refl => exact hI
  | step before call hok ih => exact hstep _ _ _ _ _ _ ih hok call

/-- The history of an accessor may be forgotten. -/
theorem Supplies.forget {σ : Type} {pacc : PageFrameAccessor σ} {free : σ → PageIdx → Prop}
    {hist : σ → List PageIdx → Prop} (h : Supplies pacc free hist) :
    Supplies pacc free (fun _ _ => True) where
  some := fun hrun => by
    obtain ⟨hpf, hmem, -, hfree⟩ := h.some hrun
    exact ⟨hpf, hmem, fun _ _ => trivial, hfree⟩
  none := fun hrun => by
    obtain ⟨hmem, -, hfree⟩ := h.none hrun
    exact ⟨hmem, fun _ _ => trivial, hfree⟩
  next := fun hrun => ⟨fun _ _ => trivial, (h.next hrun).2⟩

/-- The pages that a call visits, from the one of `virt` on. -/
def visitedPages (virt n : Uintptr) : List Uintptr :=
  pagesFrom (virt &&& PAGE_ADDR_MASK)
    (visited (virt &&& PAGE_ADDR_MASK) (virt + n * PAGE_SIZE))

/-- The call does not run into the last gigabyte from inside the last 512 GB. -/
def Steady (root virt n : Uintptr) : Prop :=
  Refused ⟨root⟩ virt n ∨ ¬ Overruns (virt &&& PAGE_ADDR_MASK) (virt + n * PAGE_SIZE)

section Step

variable {root virt n : Uintptr} {flags : PageFlags} {m m' : Mem} {r : Status}

/-- A call makes stores for a first part of the pages it visits, and for all of them when
it succeeds. -/
theorem MapStep.edits (h : MapStep root virt n flags m r m') (hwf : WellFormed m root)
    (hsteady : Steady root virt n) :
    ∃ us, Edits flags root us m m' ∧ (∀ v ∈ us, ¬ Refused ⟨root⟩ virt n ∧ v ∈ visitedPages virt n) ∧
      (r = 0 → ¬ Refused ⟨root⟩ virt n ∧ us = visitedPages virt n) := by
  obtain ⟨σ, pacc, ctx, ctx', hsupplies, hrun⟩ := h
  have hrefusal : (Except.ok (-EINVAL, ⟨m, ctx⟩) : Except Fault (Status × Machine σ))
      = .ok (r, ⟨m', ctx'⟩) → ∃ us, Edits flags root us m m' ∧
        (∀ v ∈ us, ¬ Refused ⟨root⟩ virt n ∧ v ∈ visitedPages virt n) ∧
        (r = 0 → ¬ Refused ⟨root⟩ virt n ∧ us = visitedPages virt n) := by
    intro heq
    cases heq
    exact ⟨[], .refl _, by simp, fun h0 => absurd h0 neg_EINVAL_ne_zero⟩
  cases pacc with
  | none =>
      exact hrefusal hrun
  | some pacc =>
      by_cases hrefused : Refused ⟨root⟩ virt n
      · simp only [mmMapPages, if_pos hrefused] at hrun
        exact hrefusal hrun
      · obtain ⟨free, hsup, hlow, hfresh⟩ := hsupplies pacc rfl
        obtain ⟨us, hedits, hpre, hall⟩ := mmMapPages_edits hsup answers_kernelWindow
          ⟨hwf, hlow, hfresh⟩ hrefused (hsteady.resolve_left hrefused) hrun
        exact ⟨us, hedits, fun v hv => ⟨hrefused, hpre.subset hv⟩,
          fun h0 => ⟨hrefused, hall h0⟩⟩

end Step

/-! ### Page zero -/

/-- The call does not ask for a page that the tables take for page zero, and it does not
overrun. -/
def SparesZero (root virt n : Uintptr) : Prop :=
  Refused ⟨root⟩ virt n ∨
    pageOf virt ≠ 0 ∧ ¬ Overruns (virt &&& PAGE_ADDR_MASK) (virt + n * PAGE_SIZE)

/-- The pages that a call visits lie in one block of 512 GB, so only the first of them can
be page zero. -/
theorem pageOf_visited_ne_zero {root virt n v : Uintptr} (hrefused : ¬ Refused ⟨root⟩ virt n)
    (hvirt : pageOf virt ≠ 0)
    (hover : ¬ Overruns (virt &&& PAGE_ADDR_MASK) (virt + n * PAGE_SIZE))
    (hv : v ∈ visitedPages virt n) : pageOf v ≠ 0 := by
  have hspan := spans_l4ToAddr (page_aligned virt) (page_le_end hrefused) hover
  have hblock := hspan.sameBlock hv
  have hfirst : pageOf (virt &&& PAGE_ADDR_MASK) ≠ 0 := by
    rw [pageOf, toNat_and_pageMask]
    unfold pageOf at hvirt
    omega
  have haligned := page_aligned virt
  obtain ⟨i, hi, rfl⟩ := mem_pagesFrom hv
  generalize virt &&& PAGE_ADDR_MASK = w at *
  cases hspan with
  | single one =>
      obtain rfl : i = 0 := by omega
      simpa using hfirst
  | whole aligned pos reach last block top =>
      have hlt := (l4ToAddr w (virt + n * PAGE_SIZE)).isLt
      unfold pageOf at hfirst ⊢
      rw [toNat_page (by omega)] at hblock ⊢
      omega

/-- Page zero stays unmapped in every state that the calls reach. -/
theorem zeroPage_unmapped {root : Uintptr} {m m' : Mem} (hroot : TableAddr root)
    (hempty : ∀ i, (slotEntry m root i).present = false)
    (hrun : MapRun root (SparesZero root) m m') (a : Uintptr) (ha : a < PAGE_SIZE) :
    mmPinVirtualAddress kernelWindow m' ⟨root⟩ a = .ok INVALID_PAGE_IDX := by
  have hzero : pageOf a = 0 := by
    have hlt := BitVec.lt_def.mp ha
    rw [show PAGE_SIZE.toNat = 4096 from rfl] at hlt
    unfold pageOf
    omega
  have hstart : leafOf m root a = none := by
    have htab : tableOf m root (path a) = none := by
      cases ht : tableOf m root (path a) with
      | none => rfl
      | some t => exact absurd (tableOf_of_empty hempty ht).1 (by simp [path])
    rw [leafOf, htab]
  obtain ⟨hwf, hleaf⟩ := hrun.invariant
    (fun m => WellFormed m root ∧ leafOf m root a = none)
    (fun m virt n flags r m' hI hok hcall => by
      have hsteady : Steady root virt n := hok.imp id And.right
      obtain ⟨us, hedits, hus, -⟩ := hcall.edits hI.1 hsteady
      refine ⟨hedits.wellFormed hI.1, ?_⟩
      rw [hedits.leafOf_other hI.1 fun v hv heq => ?_]
      · exact hI.2
      · obtain ⟨hrefused, hvis⟩ := hus v hv
        obtain ⟨hpage, hover⟩ := hok.resolve_left hrefused
        exact pageOf_visited_ne_zero hrefused hpage hover hvis (heq.symm.trans hzero))
    ⟨wellFormed_of_empty hroot hempty, hstart⟩
  rw [mmPinVirtualAddress_eq answers_kernelWindow hwf, translate_eq_leafOf, hleaf]

/-- A call on the empty directory of `emptyDirectory`. -/
theorem mapStep_emptyDirectory {virt n : Uintptr} {flags : PageFlags} {r : Status}
    {s' : Machine (LinearPaCtx × CacheState 0)}
    (hrun : mmMapPages kernelWindow (some ⟨EMPTY_ROOT⟩) (some (pageaccsLinearPa (cacheAllocator 0)))
      virt n flags emptyDirectory = .ok (r, s')) :
    MapStep EMPTY_ROOT virt n flags emptyDirectory.mem r s'.mem := by
  refine ⟨_, _, _, s'.ctx, fun p hp => ?_, hrun⟩
  cases hp
  exact ⟨_, (supplies_linearPa (allocates_cacheAllocator 0) 100).forget,
    ready_emptyDirectory.low, ready_emptyDirectory.fresh⟩

/-- One page at `0x1000`. -/
theorem zeroPage_unmapped_one :
    ∃ m', MapRun EMPTY_ROOT (SparesZero EMPTY_ROOT) emptyDirectory.mem m' ∧
      mmPinVirtualAddress kernelWindow m' ⟨EMPTY_ROOT⟩ 0x123 = .ok INVALID_PAGE_IDX := by
  obtain ⟨s', hrun⟩ := Loop.exists_of_map_fst (a := (0 : Status)) (x :=
    mmMapPages kernelWindow (some ⟨EMPTY_ROOT⟩) (some (pageaccsLinearPa (cacheAllocator 0)))
      0x1000 1 0 emptyDirectory) (by decide +kernel)
  have hspares : SparesZero EMPTY_ROOT 0x1000 1 := .inr ⟨by decide, by decide⟩
  have hone : MapRun EMPTY_ROOT (SparesZero EMPTY_ROOT) emptyDirectory.mem s'.mem :=
    .step .refl (mapStep_emptyDirectory hrun) hspares
  exact ⟨s'.mem, hone, zeroPage_unmapped (tableAddr_pframeToVirt (by decide)) (fun _ => rfl) hone
    0x123 (by decide)⟩

/-- One page at address 1: the address is rounded down after it was compared with zero. -/
theorem zeroPage_mapped_by_one :
    ¬ ∀ m', MapRun EMPTY_ROOT (fun _ _ => True) emptyDirectory.mem m' → ∀ a, a < PAGE_SIZE →
      mmPinVirtualAddress kernelWindow m' ⟨EMPTY_ROOT⟩ a = .ok INVALID_PAGE_IDX := by
  intro hall
  obtain ⟨⟨r, s'⟩, hrun, hpin⟩ := Loop.exists_of_bind (b := (100 : PageIdx))
    (x := mmMapPages kernelWindow (some ⟨EMPTY_ROOT⟩)
      (some (pageaccsLinearPa (cacheAllocator 0))) 1 1 0 emptyDirectory)
    (f := fun x => mmPinVirtualAddress kernelWindow x.2.mem ⟨EMPTY_ROOT⟩ 0) (by decide +kernel)
  have hzero := hall s'.mem (.step .refl (mapStep_emptyDirectory hrun) trivial) 0 (by decide)
  rw [hzero] at hpin
  exact absurd (Except.ok.inj hpin) (by decide)

end MString
