import MString.Proofs.Mm.Histories

/-!
# `MString.Proofs.Mm.Rights`: what the processor permits on a page

The processor combines the four entries on the path of an address: `us` and `rw` must be
set in all of them, `nx` in none, and the leaf decides about the cache.

The upper entries are written without regard to the flags of the call (`Plain`), so
`pageRights_eq` reads the rights off the leaf, except that no page is ever open to user
code. `mapRights_iff` draws the consequence for the flags of a call.
-/

set_option autoImplicit false

namespace MString

/-- What the processor permits on a page. -/
structure PageRights where
  user : Bool
  writable : Bool
  executable : Bool
  cacheDisabled : Bool
deriving DecidableEq, Repr

/-- The entries on the path of `v` from the table at `t` on, when all are present. -/
def pathEntries (m : Mem) (v : Uintptr) : Uintptr → List Nat → Option (List TlbEntry)
  | _, [] => some []
  | t, shift :: shifts =>
      let e := slotEntry m t (ptlIndex shift v)
      if e.present then (pathEntries m v e.table shifts).map (e :: ·) else none

/-- The processor's rule. -/
def combineRights (es : List TlbEntry) : PageRights where
  user := es.all (·.us)
  writable := es.all (·.rw)
  executable := es.all (!·.nx)
  cacheDisabled := (es.getLast?.map (·.pcd)).getD false

/-- The rights of the page of `v`, when it is mapped. -/
def pageRights (m : Mem) (root v : Uintptr) : Option PageRights :=
  (pathEntries m v root [39, 30, 21, 12]).map combineRights

/-- The page of `v` has the rights that the flags ask for. -/
def Granted (flags : PageFlags) (m : Mem) (root v : Uintptr) : Prop :=
  pageRights m root v
    = some ⟨flags &&& PF_KERNEL_PAGE = 0, true, true, flags &&& PF_IO_PAGE ≠ 0⟩

/-- With plain upper entries the leaf decides, and user code is shut out. -/
theorem pageRights_eq {m : Mem} {root : Uintptr} (hplain : PlainDirectory m root) (v : Uintptr) :
    pageRights m root v
      = (leafOf m root v).map fun e => ⟨false, e.rw, !e.nx, e.pcd⟩ := by
  have h1 := @tableOf_concat m root [] (ptlIndex 39 v)
  have h2 := @tableOf_concat m root [ptlIndex 39 v] (ptlIndex 30 v)
  have h3 := @tableOf_concat m root [ptlIndex 39 v, ptlIndex 30 v] (ptlIndex 21 v)
  simp only [List.nil_append, List.cons_append] at h1 h2 h3
  rw [show tableOf m root [] = some root from rfl, Option.bind_some] at h1
  -- The walk ends at the first entry that is not present, and so do both sides.
  cases p4 : (slotEntry m root (ptlIndex 39 v)).present with
  | false =>
      rw [entryTable_of_not_present p4] at h1
      simp [pageRights, pathEntries, leafOf, path, h3, h2, h1, p4]
  | true =>
      rw [entryTable_of_present p4] at h1
      rw [h1, Option.bind_some] at h2
      have e4 := hplain [] root _ (by simp) rfl p4
      cases p3 : (slotEntry m (slotEntry m root (ptlIndex 39 v)).table (ptlIndex 30 v)).present with
      | false =>
          rw [entryTable_of_not_present p3] at h2
          simp [pageRights, pathEntries, leafOf, path, h3, h2, p4, p3]
      | true =>
          rw [entryTable_of_present p3] at h2
          rw [h2, Option.bind_some] at h3
          have e3 := hplain _ _ _ (by simp) h1 p3
          cases p2 : (slotEntry m (slotEntry m (slotEntry m root (ptlIndex 39 v)).table
              (ptlIndex 30 v)).table (ptlIndex 21 v)).present with
          | false =>
              rw [entryTable_of_not_present p2] at h3
              simp [pageRights, pathEntries, leafOf, path, h3, p4, p3, p2]
          | true =>
              rw [entryTable_of_present p2] at h3
              have e2 := hplain _ _ _ (by simp) h2 p2
              cases p1 : (slotEntry m (slotEntry m (slotEntry m (slotEntry m root
                  (ptlIndex 39 v)).table (ptlIndex 30 v)).table (ptlIndex 21 v)).table
                  (ptlIndex 12 v)).present with
              | false => simp [pageRights, pathEntries, leafOf, path, h3, p4, p3, p2, p1]
              | true =>
                  simp [pageRights, pathEntries, leafOf, path, h3, p4, p3, p2, p1, combineRights,
                    e4.us, e4.rw, e4.nx, e3.rw, e3.nx, e2.rw, e2.nx]

/-- The rights of a leaf with the flags. -/
theorem granted_iff_of_leaf {flags : PageFlags} {m : Mem} {root v : Uintptr} {j : PageIdx}
    (hplain : PlainDirectory m root) (hleaf : leafOf m root v = some (leafEntry flags j)) :
    Granted flags m root v ↔ flags &&& PF_KERNEL_PAGE ≠ 0 := by
  rw [Granted, pageRights_eq hplain, hleaf]
  simp [leafEntry, TlbEntry.setBase, TlbEntry.zero]

/-! ### The last call of a history -/

section LastCall

variable {root virt n : Uintptr} {flags : PageFlags} {m0 m m' : Mem} {r : Status}

/-- A call that succeeds is accepted and does not overrun. -/
theorem MapStep.accepted (h : MapStep root virt n flags m 0 m') (hwf : WellFormed m root) :
    ¬ Refused ⟨root⟩ virt n ∧ ¬ Overruns (virt &&& PAGE_ADDR_MASK) (virt + n * PAGE_SIZE) := by
  obtain ⟨σ, pacc, ctx, ctx', hsupplies, hrun⟩ := h
  cases pacc with
  | none => cases hrun
  | some pacc =>
      have hrefused : ¬ Refused ⟨root⟩ virt n := fun hr => by
        simp only [mmMapPages, if_pos hr] at hrun
        cases hrun
      obtain ⟨free, hsup, hlow, hfresh⟩ := hsupplies pacc rfl
      refine ⟨hrefused, fun hover => ?_⟩
      exact neg_ENOMEM_ne_zero (mmMapPages_overruns hsup ⟨hwf, hlow, hfresh⟩ hrefused hover
        hrun).symm

/-- A page of the range in the block of its first page is visited. -/
theorem exists_visited (hrefused : ¬ Refused ⟨root⟩ virt n) (hn : n.toNat < 2 ^ 36) {i : Nat}
    (hi : i < n.toNat) (hblock : (virt.toNat + 4096 * i) / 2 ^ 39 = virt.toNat / 2 ^ 39) :
    ∃ v ∈ visitedPages virt n, pageOf (virt + BitVec.ofNat 64 (4096 * i)) = pageOf v := by
  have hend := toNat_end hrefused (by omega)
  have hlt := (virt + n * PAGE_SIZE).isLt
  have hto := @toNat_l4ToAddr (virt &&& PAGE_ADDR_MASK) (virt + n * PAGE_SIZE) (page_aligned virt)
  have hmask := toNat_and_pageMask virt
  have hne : virt + n * PAGE_SIZE ≠ virt &&& PAGE_ADDR_MASK := fun heq => by
    have := congrArg BitVec.toNat heq
    omega
  have hvis : i < visited (virt &&& PAGE_ADDR_MASK) (virt + n * PAGE_SIZE) := by
    rw [visited, if_neg hne, hto]
    split <;> omega
  refine ⟨_, mem_pagesFrom_of_lt _ hvis, ?_⟩
  rw [pageOf, pageOf, toNat_page (by omega), toNat_page (by omega)]
  omega

/-- The other pages of the range are not. -/
theorem pageOf_ne_visited (hrefused : ¬ Refused ⟨root⟩ virt n)
    (hover : ¬ Overruns (virt &&& PAGE_ADDR_MASK) (virt + n * PAGE_SIZE))
    (hn : n.toNat < 2 ^ 36) {i : Nat} (hi : i < n.toNat)
    (hblock : (virt.toNat + 4096 * i) / 2 ^ 39 ≠ virt.toNat / 2 ^ 39) {v : Uintptr}
    (hv : v ∈ visitedPages virt n) : pageOf (virt + BitVec.ofNat 64 (4096 * i)) ≠ pageOf v := by
  have hend := toNat_end hrefused (by omega)
  have hlt := (virt + n * PAGE_SIZE).isLt
  have hmask := toNat_and_pageMask virt
  have hspan := spans_l4ToAddr (page_aligned virt) (page_le_end hrefused) hover
  have hsame := hspan.sameBlock hv
  have hfit : ∀ j, j < visited (virt &&& PAGE_ADDR_MASK) (virt + n * PAGE_SIZE) →
      (virt &&& PAGE_ADDR_MASK).toNat + 4096 * j < 2 ^ 64 := by
    intro j hj
    cases hspan with
    | single one => omega
    | whole _ _ _ last _ top => omega
  obtain ⟨j, hj, rfl⟩ := mem_pagesFrom hv
  have hfitj := hfit j hj
  rw [toNat_page hfitj] at hsame
  rw [pageOf, pageOf, toNat_page (by omega), toNat_page hfitj]
  omega

/-- In a directory that was empty once, after any calls that do not overrun, a successful
call gives its pages the rights that its flags ask for exactly when it asks for kernel
pages and the pages beyond the block of `virt`, which it does not visit, had these rights
before. -/
theorem mapRights_iff (hroot : TableAddr root)
    (hempty : ∀ i, (slotEntry m0 root i).present = false)
    (hbefore : MapRun root (Steady root) m0 m) (hcall : MapStep root virt n flags m 0 m') :
    (∀ i, i < n.toNat → Granted flags m' root (virt + BitVec.ofNat 64 (4096 * i))) ↔
      flags &&& PF_KERNEL_PAGE ≠ 0 ∧ n.toNat < 2 ^ 36 ∧ ∀ i, i < n.toNat →
        (virt.toNat + 4096 * i) / 2 ^ 39 ≠ virt.toNat / 2 ^ 39 →
        Granted flags m root (virt + BitVec.ofNat 64 (4096 * i)) := by
  obtain ⟨hwf, hplain⟩ := hbefore.invariant
    (fun m => WellFormed m root ∧ PlainDirectory m root)
    (fun m virt n flags r m' hI hok hstep => by
      obtain ⟨us, hedits, -, -⟩ := hstep.edits hI.1 hok
      exact ⟨hedits.wellFormed hI.1, hedits.plain hI.1 hI.2⟩)
    ⟨wellFormed_of_empty hroot hempty, fun p t i _ ht hpres => by
      rw [(tableOf_of_empty hempty ht).2, hempty i] at hpres
      cases hpres⟩
  obtain ⟨hrefused, hover⟩ := hcall.accepted hwf
  obtain ⟨us, hedits, -, hall⟩ := hcall.edits hwf (.inr hover)
  obtain ⟨-, rfl⟩ := hall rfl
  have hplain' := hedits.plain hwf hplain
  have hn0 : 0 < n.toNat := Nat.pos_of_ne_zero fun h0 =>
    hrefused (.inr (.inl (BitVec.eq_of_toNat_eq h0)))
  -- What the call says about a page depends on the block that the page is in.
  have hin : n.toNat < 2 ^ 36 → ∀ i, i < n.toNat →
      (virt.toNat + 4096 * i) / 2 ^ 39 = virt.toNat / 2 ^ 39 →
      (Granted flags m' root (virt + BitVec.ofNat 64 (4096 * i)) ↔
        flags &&& PF_KERNEL_PAGE ≠ 0) := by
    intro hn i hi hblock
    obtain ⟨j, hleaf⟩ := hedits.leafOf_mem hwf (exists_visited hrefused hn hi hblock)
    exact granted_iff_of_leaf hplain' hleaf
  have hout : n.toNat < 2 ^ 36 → ∀ i, i < n.toNat →
      (virt.toNat + 4096 * i) / 2 ^ 39 ≠ virt.toNat / 2 ^ 39 →
      (Granted flags m' root (virt + BitVec.ofNat 64 (4096 * i)) ↔
        Granted flags m root (virt + BitVec.ofNat 64 (4096 * i))) := by
    intro hn i hi hblock
    have hleaf := hedits.leafOf_other hwf fun v hv =>
      pageOf_ne_visited hrefused hover hn hi hblock hv
    rw [Granted, Granted, pageRights_eq hplain', pageRights_eq hplain, hleaf]
  constructor
  · intro hgranted
    have hn : n.toNat < 2 ^ 36 := by
      by_contra hn
      obtain ⟨i, hi, htab⟩ := exists_no_table (hedits.wellFormed hwf) virt
      have hnone : leafOf m' root (virt + BitVec.ofNat 64 (4096 * i)) = none := by
        rw [leafOf, htab]
      have hgi := hgranted i (by omega)
      rw [Granted, pageRights_eq hplain', hnone] at hgi
      cases hgi
    exact ⟨(hin hn 0 hn0 (by rw [Nat.mul_zero, Nat.add_zero])).mp (hgranted 0 hn0), hn,
      fun i hi hblock => (hout hn i hi hblock).mp (hgranted i hi)⟩
  · rintro ⟨hkernel, hn, hbeyond⟩ i hi
    by_cases hblock : (virt.toNat + 4096 * i) / 2 ^ 39 = virt.toNat / 2 ^ 39
    · exact (hin hn i hi hblock).mpr hkernel
    · exact (hout hn i hi hblock).mpr (hbeyond i hi hblock)

end LastCall

/-- A kernel page at `0x2000`, after a call without `PF_KERNEL_PAGE` has hung the tables:
`alloc_page` takes that bit for `PAF_DMA_PAGE` and refuses. -/
theorem mapRights_kernel_page :
    ∃ m m', MapRun EMPTY_ROOT (Steady EMPTY_ROOT) emptyDirectory.mem m ∧
      MapStep EMPTY_ROOT 0x2000 1 PF_KERNEL_PAGE m 0 m' ∧
      ((∀ i, i < (1 : Uintptr).toNat →
          Granted PF_KERNEL_PAGE m' EMPTY_ROOT (0x2000 + BitVec.ofNat 64 (4096 * i))) ↔
        PF_KERNEL_PAGE &&& PF_KERNEL_PAGE ≠ 0 ∧ (1 : Uintptr).toNat < 2 ^ 36 ∧
          ∀ i, i < (1 : Uintptr).toNat →
            ((0x2000 : Uintptr).toNat + 4096 * i) / 2 ^ 39 ≠ (0x2000 : Uintptr).toNat / 2 ^ 39 →
            Granted PF_KERNEL_PAGE m EMPTY_ROOT (0x2000 + BitVec.ofNat 64 (4096 * i))) := by
  -- A page for the user and then one for the kernel: both calls succeed.
  obtain ⟨⟨r, s⟩, hfirst, hsecond⟩ := Loop.exists_of_bind (b := (0 : Status))
    (x := mmMapPages kernelWindow (some ⟨EMPTY_ROOT⟩)
      (some (pageaccsLinearPa (cacheAllocator 0))) 0x1000 1 0 emptyDirectory)
    (f := fun x => (mmMapPages kernelWindow (some ⟨EMPTY_ROOT⟩)
      (some (pageaccsLinearPa (cacheAllocator 0))) 0x2000 1 PF_KERNEL_PAGE x.2).map Prod.fst)
    (by decide +kernel)
  obtain ⟨s', hsecond⟩ := Loop.exists_of_map_fst hsecond
  have hsup := supplies_linearPa (allocates_cacheAllocator 0) 100
  have hready : Ready (fun c pf => pf ∈ c.2.pages) EMPTY_ROOT s := by
    obtain ⟨gs, hgs⟩ := mmMapPages_spec hsup answers_kernelWindow ready_emptyDirectory (by decide)
      (by decide +kernel) (by decide +kernel) hfirst
    exact hgs.ready
  -- The first call is the history.
  have hrun : MapRun EMPTY_ROOT (Steady EMPTY_ROOT) emptyDirectory.mem s.mem :=
    .step .refl (mapStep_emptyDirectory hfirst) (.inr (by decide +kernel))
  -- The second one is the call in question. What it supplies is what the first call has left.
  have hstep : MapStep EMPTY_ROOT 0x2000 1 PF_KERNEL_PAGE s.mem 0 s'.mem := by
    refine ⟨_, _, s.ctx, s'.ctx, fun p hp => ?_, hsecond⟩
    cases hp
    exact ⟨_, hsup.forget, hready.low, hready.fresh⟩
  exact ⟨s.mem, s'.mem, hrun, hstep, mapRights_iff (tableAddr_pframeToVirt (by decide))
    (fun _ => rfl) hrun hstep⟩

/-- A page without `PF_KERNEL_PAGE`, in an empty directory: it is not open to user code. -/
theorem mapRights_user_page :
    ∃ m', MapStep EMPTY_ROOT 0x1000 1 0 emptyDirectory.mem 0 m' ∧
      ¬ ∀ i, i < (1 : Uintptr).toNat →
        Granted 0 m' EMPTY_ROOT (0x1000 + BitVec.ofNat 64 (4096 * i)) := by
  obtain ⟨⟨r, s'⟩, hrun, hrest⟩ := Loop.exists_of_bind
    (b := ((0 : Status), some (PageRights.mk false true true false)))
    (x := mmMapPages kernelWindow (some ⟨EMPTY_ROOT⟩)
      (some (pageaccsLinearPa (cacheAllocator 0))) 0x1000 1 0 emptyDirectory)
    (f := fun x => pure (x.1, pageRights x.2.mem EMPTY_ROOT (0x1000 + BitVec.ofNat 64 (4096 * 0))))
    (by decide +kernel)
  obtain ⟨rfl, hrights⟩ := Prod.mk.inj (Except.ok.inj hrest)
  refine ⟨s'.mem, mapStep_emptyDirectory hrun, fun hall => ?_⟩
  have hzero := hall 0 (by decide)
  rw [Granted] at hzero
  exact absurd (hrights.symm.trans hzero) (by decide)

end MString
