import MString.Proofs.Mm.MemoryMap

/-!
# `MString.Proofs.Mm.FrameLists`: where every frame is after `build_page_array`

`initialize_page_array` puts every frame on one list and counts it there, and
`initialize_percpu_caches` moves frames of `ZONE_NORMAL` to the caches.

* `once_framesOf`: every frame is on one list of the zones.
* `rounds_moves`: a free list that is not empty loses a frame to the first cache.
* `accounted_iff`: the books are right exactly when there is nothing to move.
-/

set_option autoImplicit false

namespace MString

/-- The lists and their counters. -/
structure FrameBooks (nrCpus n : Nat) (mm : MemoryManager)
    (pages reserved : ZoneType → List PageIdx) (cache : Nat → List PageIdx) : Prop where
  pagesRing : ∀ z, Ring.IsRing mm.lists.links (.pages z) ((pages z).map .frame)
  reservedRing : ∀ z, Ring.IsRing mm.lists.links (.reservedPages z) ((reserved z).map .frame)
  cacheRing : ∀ k, k < nrCpus → Ring.IsRing mm.lists.links (.cachePages k) ((cache k).map .frame)
  /-- Every frame is on one list. -/
  once : ∀ p, p < n → (pages .dma ++ pages .normal ++ reserved .dma ++ reserved .normal
    ++ (List.range nrCpus).flatMap cache).count (BitVec.ofNat 32 p) = 1
  zones : ∀ z, mm.zones z
    = ⟨BitVec.ofNat 32 (pages z).length + BitVec.ofNat 32 (reserved z).length,
        BitVec.ofNat 32 (pages z).length, BitVec.ofNat 32 (reserved z).length⟩
  caches : ∀ k, k < nrCpus →
    mm.lists.caches k = ⟨BitVec.ofNat 32 (cache k).length, BitVec.ofNat 32 (cache k).length⟩

/-- The first `n` frames are on the lists, and the counters are right. -/
def Accounted (nrCpus n : Nat) (mm : MemoryManager) : Prop :=
  ∃ pages reserved cache, FrameBooks nrCpus n mm pages reserved cache

section Frames

variable {free : Nat → Bool} {n : Nat}

theorem count_framesOf {k : Bool} {z : ZoneType} {p : Nat} (hn : n ≤ 2 ^ 32) (hp : p < n) :
    (framesOf free k z n).count (BitVec.ofNat 32 p)
      = if zoneOf (BitVec.ofNat 32 p) = z ∧ free p = k then 1 else 0 := by
  have hmem : BitVec.ofNat 32 p ∈ framesOf free k z n ↔
      zoneOf (BitVec.ofNat 32 p) = z ∧ free p = k := by
    rw [mem_framesOf]
    constructor
    · intro ⟨q, hq, hz, hfree, heq⟩
      obtain rfl := ofNat32_inj (by omega) (by omega) heq
      exact ⟨hz, hfree⟩
    · intro ⟨hz, hfree⟩
      exact ⟨p, hp, hz, hfree, rfl⟩
  split
  · case isTrue h => exact List.count_eq_one_of_mem (nodup_framesOf free k z hn) (hmem.mpr h)
  · case isFalse h => exact List.count_eq_zero.mpr fun hc => h (hmem.mp hc)

/-- The zones' lists have every frame once. -/
theorem once_framesOf {p : Nat} (hn : n ≤ 2 ^ 32) (hp : p < n) :
    (framesOf free true .dma n ++ framesOf free true .normal n ++ framesOf free false .dma n
      ++ framesOf free false .normal n).count (BitVec.ofNat 32 p) = 1 := by
  simp only [List.count_append, count_framesOf hn hp]
  cases zoneOf (BitVec.ofNat 32 p) <;> cases free p <;> simp

theorem length_framesOf_le (free : Nat → Bool) (z : ZoneType) (n : Nat) :
    (framesOf free true z n).length + (framesOf free false z n).length ≤ n := by
  induction n with
  | zero => exact Nat.le_refl _
  | succ n ih =>
      rw [framesOf_succ, framesOf_succ]
      cases free n <;> cases inZone z n <;> simp <;> omega

/-- The free list of `ZONE_NORMAL` is empty when no frame from 16 MB on is free. -/
theorem framesOf_normal_eq_nil (hn : n ≤ 2 ^ 32) :
    framesOf free true .normal n = [] ↔ ∀ p, 4096 ≤ p → p < n → free p = false := by
  have hzone : ∀ p, p < n → (zoneOf (BitVec.ofNat 32 p) = .normal ↔ 4096 ≤ p) := by
    intro p hp
    have hdma : BitVec.ofNat 32 p < DMA_PAGES ↔ p < 4096 := by
      rw [BitVec.lt_def, BitVec.toNat_ofNat, Nat.mod_eq_of_lt (by omega),
        show DMA_PAGES.toNat = 4096 from rfl]
    unfold zoneOf
    split
    · case isTrue h =>
        have := hdma.mp h
        exact iff_of_false nofun (by omega)
    · case isFalse h =>
        have := mt hdma.mpr h
        exact iff_of_true rfl (by omega)
  rw [List.eq_nil_iff_forall_not_mem]
  constructor
  · intro hnil p hp hlt
    rw [Bool.eq_false_iff]
    exact fun hfree => hnil _ (mem_framesOf.mpr ⟨p, hlt, (hzone p hlt).mpr hp, hfree, rfl⟩)
  · intro hnone idx hmem
    obtain ⟨p, hp, hz, hfree, rfl⟩ := mem_framesOf.mp hmem
    rw [hnone p ((hzone p hp).mp hz) hp] at hfree
    cases hfree

end Frames

/-- The first cache takes a frame from a list that has one. -/
theorem rounds_moves {nrCpus total free : Nat} (hpos : 0 < nrCpus) (hfree : 0 < free)
    (hle : free ≤ total) : ∀ n, (rounds nrCpus total free (n + 1)).free < free := by
  intro n
  induction n with
  | zero =>
      have hshare : 0 < if total ≤ total / nrCpus + nrCpus then total else total / nrCpus := by
        split
        · omega
        · case isFalse h =>
            refine Nat.div_pos ?_ hpos
            generalize total / nrCpus = share at h
            omega
      show free - takes (if total ≤ total / nrCpus + nrCpus then total else total / nrCpus) free
        < free
      unfold takes
      omega
  | succ n ih =>
      rw [rounds]
      refine Nat.lt_of_le_of_lt ?_ ih
      exact Nat.sub_le _ _

section Run

variable {t : E820Table} {kdataEnd maxPhysAddr : Uintptr} {nrCpus : Nat} {mm mm' : MemoryManager}

/-- The caches are filled from the free list of `ZONE_NORMAL`. -/
theorem Sorted.sharedOut {free : Nat → Bool} {n : Nat} {mm1 : MemoryManager}
    (h : Sorted free n mm1) (hn : n < 2 ^ 25) (hcpus : nrCpus < 2 ^ 31) :
    (framesOf free true .normal n).length ≤ (mm1.zones .normal).numTotalPages.toNat ∧
      ∃ c mm' cs, initializePercpuCaches nrCpus mm1 = .ok mm' ∧
        SharedOut nrCpus (framesOf free true .normal n) mm1
          (rounds nrCpus (mm1.zones .normal).numTotalPages.toNat
            (framesOf free true .normal n).length nrCpus) nrCpus c mm' cs := by
  have hlen := length_framesOf_le free .normal n
  have htotal : (mm1.zones .normal).numTotalPages.toNat
      = (framesOf free true .normal n).length + (framesOf free false .normal n).length := by
    rw [h.counts .normal, BitVec.toNat_add, BitVec.toNat_ofNat, BitVec.toNat_ofNat]
    omega
  have hle : (framesOf free true .normal n).length ≤ (mm1.zones .normal).numTotalPages.toNat := by
    omega
  exact ⟨hle, initializePercpuCaches_rounds (by omega) (h.rings true .normal)
    (nodup_framesOf free true .normal (by omega)) hle⟩

/-- So a run of `build_page_array` fills them. -/
theorem sharedOut_of_run (hcpus : nrCpus < 2 ^ 31)
    (hrun : buildPageArray t kdataEnd nrCpus mm = .ok (maxPhysAddr, mm')) :
    ∃ mm1 s c cs, Sorted (freeFrame t kdataEnd maxPhysAddr) (pageCount maxPhysAddr) mm1 ∧
      pageCount maxPhysAddr < 2 ^ 25 ∧
      (framesOf (freeFrame t kdataEnd maxPhysAddr) true .normal (pageCount maxPhysAddr)).length
        ≤ (mm1.zones .normal).numTotalPages.toNat ∧
      s = rounds nrCpus (mm1.zones .normal).numTotalPages.toNat
        (framesOf (freeFrame t kdataEnd maxPhysAddr) true .normal (pageCount maxPhysAddr)).length
        nrCpus ∧
      SharedOut nrCpus
        (framesOf (freeFrame t kdataEnd maxPhysAddr) true .normal (pageCount maxPhysAddr))
        mm1 s nrCpus c mm' cs := by
  obtain ⟨max', -, hrest⟩ := Loop.exists_of_bind hrun
  obtain ⟨mm1, harray, hrest⟩ := Loop.exists_of_bind hrest
  obtain ⟨mm2, hcaches, hret⟩ := Loop.exists_of_bind hrest
  cases hret
  obtain ⟨hsorted, hroom, -⟩ := initializePageArray_sorted harray
  obtain ⟨hle, c, mm3, cs, hok, h⟩ := hsorted.sharedOut hroom.lt hcpus
  obtain rfl := Except.ok.inj (hok.symm.trans hcaches)
  exact ⟨mm1, _, c, cs, hsorted, hroom.lt, hle, rfl, h⟩

/-- A frame that is moved is counted twice. -/
theorem no_free_of_accounted (hpos : 0 < nrCpus) (hcpus : nrCpus < 2 ^ 31)
    (hrun : buildPageArray t kdataEnd nrCpus mm = .ok (maxPhysAddr, mm'))
    (h : Accounted nrCpus (pageCount maxPhysAddr) mm') :
    ∀ p, 4096 ≤ p → p < pageCount maxPhysAddr → freeFrame t kdataEnd maxPhysAddr p = false := by
  obtain ⟨mm1, s, c, cs, hsorted, hcount, hle, hs, hshared⟩ := sharedOut_of_run hcpus hrun
  obtain ⟨pages, reserved, cache, hbooks⟩ := h
  refine (framesOf_normal_eq_nil (by omega)).mp ?_
  have hlen := length_framesOf_le (freeFrame t kdataEnd maxPhysAddr) .normal (pageCount maxPhysAddr)
  generalize hfs : framesOf (freeFrame t kdataEnd maxPhysAddr) true .normal (pageCount maxPhysAddr)
    = fs at *
  have htaken : ∀ k, k < nrCpus → (cs k).length ≤ fs.length := by
    intro k hk
    have hsub : (cs k).length ≤ ((List.range nrCpus).flatMap cs).length :=
      (List.sublist_flatten_of_mem (List.mem_map_of_mem (List.mem_range.mpr hk))).length_le
    rw [hshared.whole, List.length_take] at hsub
    omega
  -- A cache has as many frames as it counts, but the loop counts two for each one it moves. So
  -- it has none.
  have hnone : ∀ k, k < nrCpus → cs k = [] := by
    intro k hk
    have heq := frames_unique (hbooks.cacheRing k hk) (hshared.caches k hk) (cachePages_ne_frame k)
    have hcounts := (hbooks.caches k hk).symm.trans (hshared.counts k hk)
    rw [heq] at hcounts
    have hnum := congrArg (fun c => (PercpuPageCache.numFreePages c).toNat) hcounts
    dsimp only at hnum
    have := htaken k hk
    rw [BitVec.toNat_ofNat, BitVec.toNat_ofNat] at hnum
    exact List.eq_nil_of_length_eq_zero (by omega)
  -- Nothing has been handed out.
  have hwhole : fs.take (fs.length - s.free) = [] := by
    rw [← hshared.whole, List.flatMap_eq_nil_iff]
    exact fun k hk => hnone k (List.mem_range.mp hk)
  rcases Nat.eq_zero_or_pos fs.length with hzero | hpos'
  · exact List.eq_nil_of_length_eq_zero hzero
  · -- The first cache would have got a frame.
    obtain ⟨n, rfl⟩ : ∃ n, nrCpus = n + 1 := ⟨nrCpus - 1, by omega⟩
    have hmoves := rounds_moves hpos hpos' hle n
    rw [← hs] at hmoves
    have := congrArg List.length hwhole
    rw [List.length_take, List.length_nil] at this
    omega

/-- The books are right exactly when no frame from 16 MB on is free. -/
theorem accounted_iff (hpos : 0 < nrCpus) (hcpus : nrCpus < 2 ^ 31)
    (hrun : buildPageArray t kdataEnd nrCpus mm = .ok (maxPhysAddr, mm')) :
    Accounted nrCpus (pageCount maxPhysAddr) mm' ↔
      ∀ p, 4096 ≤ p → p < pageCount maxPhysAddr → freeFrame t kdataEnd maxPhysAddr p = false := by
  refine ⟨no_free_of_accounted hpos hcpus hrun, fun hnone => ?_⟩
  obtain ⟨mm1, s, c, cs, hsorted, hcount, -, -, hshared⟩ := sharedOut_of_run hcpus hrun
  -- With no free frame for `ZONE_NORMAL` there is nothing to share out.
  have hnil := (framesOf_normal_eq_nil (by omega)).mpr hnone
  rw [hnil] at hshared
  have hempty : (List.range nrCpus).flatMap cs = [] := by
    rw [hshared.whole, List.take_nil]
  have hcs : ∀ k, k < nrCpus → cs k = [] := fun k hk =>
    List.flatMap_eq_nil_iff.mp hempty k (List.mem_range.mpr hk)
  -- The other rings are as the page array has left them.
  have hother : ∀ k z, (k, z) ≠ (true, ZoneType.normal) → Ring.IsRing mm'.lists.links (listHead k z)
      ((framesOf (freeFrame t kdataEnd maxPhysAddr) k z (pageCount maxPhysAddr)).map .frame) := by
    intro k z hne
    refine hshared.others _ _ (hsorted.rings k z) fun y hy => ⟨?_, fun j hj => ?_⟩
    · have happart := @lists_apart (freeFrame t kdataEnd maxPhysAddr) k true z .normal
        (pageCount maxPhysAddr) (by omega) (fun heq => hne (by rw [heq.1, heq.2])) y hy
      rwa [hnil] at happart
    · subst hj
      rcases List.mem_cons.mp hy with heq | hmem
      · cases k <;> cases heq
      · obtain ⟨f, -, heq⟩ := List.mem_map.mp hmem
        cases heq
  refine ⟨fun z => framesOf (freeFrame t kdataEnd maxPhysAddr) true z (pageCount maxPhysAddr),
    fun z => framesOf (freeFrame t kdataEnd maxPhysAddr) false z (pageCount maxPhysAddr), cs,
    fun z => ?_, fun z => hother false z nofun, hshared.caches, fun p hp => ?_, fun z => ?_,
    fun k hk => ?_⟩
  · cases z with
    | dma => exact hother true .dma nofun
    | normal =>
        have hzone := hshared.zone
        rwa [List.drop_nil, ← hnil] at hzone
  · rw [hempty, List.append_nil]
    exact once_framesOf (by omega) hp
  · rw [hshared.zones]
    show Function.update mm1.zones .normal ((mm1.zones .normal).without (0 - s.free)) z = _
    rw [Nat.zero_sub, MemoryZone.without_zero, Function.update_eq_self, hsorted.counts]
  · rw [hshared.counts k hk, hcs k hk]
    rfl

end Run

/-- A machine of 32 MB with one CPU. -/
theorem buildPageArray_small : ∃ mm', buildPageArray smallMap (KERNEL_BASE + 0x200000) 1
    (normalZone [] 0) = .ok (0x2000000, mm') := by
  have hroom : HasRoom (KERNEL_BASE + 0x200000) (pageCount 0x2000000) := .inr (by decide)
  obtain ⟨sc, hsc⟩ := @scanAt_total smallMap (by decide) (pageCount 0x2000000)
  obtain ⟨mm1, harray⟩ := initializePageArray_total hroom hsc (normalZone [] 0)
  obtain ⟨hsorted, -⟩ := initializePageArray_sorted harray
  obtain ⟨-, c, mm', cs, hok, -⟩ := hsorted.sharedOut hroom.lt (show 1 < 2 ^ 31 by decide)
  exact ⟨mm', Loop.bind_of_ok (show detectPhysicalMemory smallMap = .ok 0x2000000 by decide)
    (Loop.bind_of_ok harray (Loop.bind_of_ok hok rfl))⟩

/-- The books of this machine. -/
theorem accounted_iff_small : ∃ mm', buildPageArray smallMap (KERNEL_BASE + 0x200000) 1
    (normalZone [] 0) = .ok (0x2000000, mm') ∧ (Accounted 1 (pageCount 0x2000000) mm' ↔
      ∀ p, 4096 ≤ p → p < pageCount 0x2000000 →
        freeFrame smallMap (KERNEL_BASE + 0x200000) 0x2000000 p = false) := by
  obtain ⟨mm', hrun⟩ := buildPageArray_small
  exact ⟨mm', hrun, accounted_iff (by decide) (by decide) hrun⟩

/-- They are wrong: frame 4096 is free. -/
theorem not_accounted_small :
    ¬ ∀ (t : E820Table) (kdataEnd maxPhysAddr : Uintptr) (nrCpus : Nat) (mm mm' : MemoryManager),
      buildPageArray t kdataEnd nrCpus mm = .ok (maxPhysAddr, mm') →
      Accounted nrCpus (pageCount maxPhysAddr) mm' := by
  intro h
  obtain ⟨mm', hrun⟩ := buildPageArray_small
  have hnone := no_free_of_accounted (by decide) (by decide) hrun (h _ _ _ _ _ _ hrun) 4096
    (by decide) (by decide)
  obtain ⟨sc, hsc⟩ := @scanAt_total smallMap (by decide) (pageCount 0x2000000)
  have hfree : freeFrame smallMap (KERNEL_BASE + 0x200000) 0x2000000 4096 = true :=
    (freeFrame_iff (E820Table.sortedDisjoint_of_ends (by decide)) hsc (by decide) (by decide)).mpr
      ⟨⟨1, trivial, by decide, rfl⟩, by decide⟩
  rw [hfree] at hnone
  cases hnone

end MString
