import Mathlib.Data.List.GetD
import MString.Lib.Sweep
import MString.Proofs.Mm.Addresses
import MString.Proofs.Mm.PageArray

/-!
# `MString.Proofs.Mm.MemoryMap`: which frames are taken from the memory map

A record of the table is a span of pages: its end is rounded down to a page, and so is its
start, except for the first record, of which the pages count that begin in it. The scan of
`initialize_page_array` is one pass over these spans.

* `scanAt_place`: the scan stands where the pass stands.
* `usablePage_iff`: in a table whose records are sorted and disjoint, a page is usable if
  the pass gets to a usable record that has it.
* `freeInside_iff`: the free frames lie in usable records.
* `losesNone_iff`: no frame of a usable record is lost.
-/

set_option autoImplicit false

namespace MString

open Sweep (Spans Place Reached)

/-! ### Records as spans of pages -/

/-- The record has the byte. -/
def E820MemMap.Has (m : E820MemMap) (a : Nat) : Prop :=
  m.baseAddress.toNat ≤ a ∧ a < m.baseAddress.toNat + m.length.toNat

/-- The records are sorted by base, and no byte is in two of them. -/
def E820Table.SortedDisjoint (t : E820Table) : Prop :=
  t.entries.Pairwise fun m m' =>
    m.baseAddress.toNat ≤ m'.baseAddress.toNat ∧ ∀ a, ¬ (m.Has a ∧ m'.Has a)

/-- The pages of the records. -/
def E820Table.spans (t : E820Table) : Spans where
  lo j := if j = 0 then ((t.entry 0).baseAddress.toNat + 4095) / 4096
    else (t.entry j).baseAddress.toNat / 4096
  hi j := ((t.entry j).baseAddress + (t.entry j).length).toNat / 4096

/-- The static array is zero behind its records. -/
theorem E820Table.entry_of_ge {t : E820Table} {j : Nat} (h : t.count ≤ j) :
    t.entry j = ⟨0, 0, 0, 0⟩ := by
  rw [entry, List.getD_eq_default _ _ h]

/-- The records in front are those of the table. -/
theorem E820Table.entry_mem {t : E820Table} {j : Nat} (h : j < t.count) :
    t.entry j ∈ t.entries := by
  rw [entry, List.getD_eq_getElem _ _ h]
  exact List.getElem_mem h

/-- Behind the last record there are no pages. -/
theorem E820Table.not_has_of_ge {t : E820Table} {j : Nat} (h : t.count ≤ j) (p : Nat) :
    ¬ t.spans.Has j p := by
  have hhi : t.spans.hi j = 0 := by
    show ((t.entry j).baseAddress + (t.entry j).length).toNat / 4096 = 0
    rw [t.entry_of_ge h]
    rfl
  exact fun hhas => absurd hhas.2 (by omega)

/-- So only a record can have a page. -/
theorem E820Table.lt_count_of_has {t : E820Table} {j p : Nat} (h : t.spans.Has j p) :
    j < t.count :=
  Nat.lt_of_not_le fun hge => t.not_has_of_ge hge p h

/-- A record's first whole page is not below the page of its base. -/
theorem E820Table.lo_le (t : E820Table) (j : Nat) :
    (t.entry j).baseAddress.toNat / 4096 ≤ t.spans.lo j := by
  show _ ≤ (if j = 0 then _ else _)
  split
  · case isTrue h =>
      subst h
      omega
  · exact Nat.le_refl _

/-- A record with pages does not go round the end of the address space. -/
theorem E820Table.no_wrap {t : E820Table} {j : Nat} (h : t.spans.lo j < t.spans.hi j) :
    t.spans.hi j
        = ((t.entry j).baseAddress.toNat + (t.entry j).length.toNat) / 4096 ∧
      0 < (t.entry j).length.toNat := by
  have hlo := t.lo_le j
  have hhi : t.spans.hi j
      = ((t.entry j).baseAddress.toNat + (t.entry j).length.toNat) % 2 ^ 64 / 4096 := by
    show ((t.entry j).baseAddress + (t.entry j).length).toNat / 4096 = _
    rw [BitVec.toNat_add]
  have h1 := (t.entry j).baseAddress.isLt
  have h2 := (t.entry j).length.isLt
  rw [hhi] at h ⊢
  generalize t.spans.lo j = l at *
  generalize (t.entry j).baseAddress.toNat = b at *
  generalize (t.entry j).length.toNat = n at *
  omega

/-- Records that end where the next one begins, or before. -/
theorem E820Table.sortedDisjoint_of_ends {t : E820Table}
    (h : t.entries.Pairwise fun m m' =>
      m.baseAddress.toNat + m.length.toNat ≤ m'.baseAddress.toNat) : t.SortedDisjoint := by
  refine h.imp fun {m m'} hle => ⟨by omega, fun a ⟨hm, hm'⟩ => ?_⟩
  have := hm.2
  have := hm'.1
  omega

/-- Sorted and disjoint records are disjoint spans, in order. -/
theorem E820Table.SortedDisjoint.ordered {t : E820Table} (h : t.SortedDisjoint) :
    Sweep.Ordered t.spans := by
  intro j k hlt hj hk
  have hkc : k < t.count := t.lt_count_of_has ⟨Nat.le_refl _, hk⟩
  have hjc : j < t.count := Nat.lt_trans hlt hkc
  have hpair := List.pairwise_iff_getElem.mp h j k hjc hkc hlt
  rw [← List.getD_eq_getElem _ ⟨0, 0, 0, 0⟩ hjc, ← List.getD_eq_getElem _ ⟨0, 0, 0, 0⟩ hkc] at hpair
  rw [show t.entries.getD j _ = t.entry j from rfl, show t.entries.getD k _ = t.entry k from rfl]
    at hpair
  obtain ⟨hbase, hdisj⟩ := hpair
  obtain ⟨hhi, -⟩ := t.no_wrap hj
  obtain ⟨-, hpos⟩ := t.no_wrap hk
  have hlo := t.lo_le k
  -- The first byte of the later record is behind the earlier one.
  have hfirst := hdisj (t.entry k).baseAddress.toNat
  simp only [E820MemMap.Has] at hfirst
  rw [hhi]
  omega

/-! ### The scan is the pass -/

/-- The address of a page that is in range does not wrap. -/
theorem toNat_pageAddr {p : Nat} (hp : p < 2 ^ 52) : (pageAddr p).toNat = 4096 * p := by
  rw [pageAddr, BitVec.toNat_ofNat]
  omega

/-- An end, rounded down, is behind a page. -/
theorem pageAddr_lt_rounded {p : Nat} (hp : p < 2 ^ 52) (x : Uintptr) :
    pageAddr p < x &&& PAGE_ADDR_MASK ↔ p < x.toNat / 4096 := by
  rw [BitVec.lt_def, toNat_pageAddr hp, toNat_and_pageMask]
  omega

/-- A start, rounded down, is not behind a page. -/
theorem rounded_le_pageAddr {p : Nat} (hp : p < 2 ^ 52) (x : Uintptr) :
    x &&& PAGE_ADDR_MASK ≤ pageAddr p ↔ x.toNat / 4096 ≤ p := by
  rw [BitVec.le_def, toNat_pageAddr hp, toNat_and_pageMask]
  omega

/-- The scan stands where the pass does. Behind the last record it does not count on. -/
structure Follows (t : E820Table) (sc : MapScan) (pl : Place) : Prop where
  left : sc.justLeft = pl.justLeft
  id : sc.e820id = min pl.span t.count
  covers : ∀ p, p < 2 ^ 52 → (sc.covers (pageAddr p) ↔ t.spans.Has pl.span p)
  type : pl.span < t.count → sc.type = (t.entry pl.span).type

variable {t : E820Table}

/-- Both scans begin at the first record. -/
theorem follows_firstMap : Follows t (firstMap t) ⟨0, false⟩ := by
  refine ⟨rfl, by simp [firstMap], fun p hp => ?_, fun _ => rfl⟩
  refine and_congr ?_ (pageAddr_lt_rounded hp _)
  show (t.entry 0).baseAddress ≤ pageAddr p ↔ ((t.entry 0).baseAddress.toNat + 4095) / 4096 ≤ p
  rw [BitVec.le_def, toNat_pageAddr hp]
  omega

/-- And go into it together. -/
theorem Follows.entered {sc : MapScan} {pl : Place} (h : Follows t sc pl) :
    Follows t sc.entered ⟨pl.span, false⟩ :=
  ⟨rfl, h.id, h.covers, h.type⟩

/-- The move to the next record. -/
theorem Follows.nextMap {sc sc' : MapScan} {pl : Place} (h : Follows t sc pl)
    (hnext : MString.nextMap t sc = .ok sc') : Follows t sc' ⟨pl.span + 1, true⟩ := by
  have hid := h.id
  unfold MString.nextMap at hnext
  split at hnext
  · case isTrue hlt =>
      obtain ⟨mmap, hread, hret⟩ := Loop.exists_of_bind hnext
      have hspan : sc.e820id = pl.span := by omega
      rw [hspan] at hread hret
      have hmmap : mmap = t.entry (pl.span + 1) := by
        unfold E820Table.read at hread
        split at hread
        · cases hread
          rfl
        · cases hread
      subst hmmap
      cases hret
      refine ⟨rfl, by dsimp only; omega, fun p hp => ?_, fun _ => rfl⟩
      exact and_congr (rounded_le_pageAddr hp _) (pageAddr_lt_rounded hp _)
  · case isFalse hge =>
      cases hnext
      refine ⟨rfl, by dsimp only; omega, fun p hp => iff_of_false ?_ ?_, fun hlt => ?_⟩
      · exact fun hcov => absurd hcov.2 (by simp)
      · exact t.not_has_of_ge (by dsimp only; omega) p
      · dsimp only at hlt
        omega

/-- One page of the scan is one point of the pass. -/
theorem Follows.scanPage {sc sc' : MapScan} {pl : Place} {p : Nat} {usable : Bool}
    (h : Follows t sc pl) (hp : p < 2 ^ 52)
    (hpage : MString.scanPage t sc (pageAddr p) = .ok (usable, sc')) :
    Follows t sc' (Sweep.point t.spans p pl).2 ∧
      (usable = true ↔ (Sweep.point t.spans p pl).1 = true ∧
        (t.entry (Sweep.point t.spans p pl).2.span).type = E820_USABLE) := by
  have husable : ∀ {sc : MapScan} {pl : Place}, Follows t sc pl → t.spans.Has pl.span p →
      ((sc.type == E820_USABLE) = true ↔ (t.entry pl.span).type = E820_USABLE) := by
    intro sc pl hf hhas
    rw [hf.type (t.lt_count_of_has hhas), beq_iff_eq]
  unfold MString.scanPage at hpage
  unfold Sweep.point
  -- The page is in the current map, or in the next one, or in none.
  by_cases hcov : sc.covers (pageAddr p)
  · have hhas := (h.covers p hp).mp hcov
    rw [if_pos hcov] at hpage
    cases hpage
    rw [if_pos hhas]
    exact ⟨h.entered, (husable h hhas).trans (and_iff_right rfl).symm⟩
  · have hhas : ¬ t.spans.Has pl.span p := fun hc => hcov ((h.covers p hp).mpr hc)
    rw [if_neg hcov] at hpage
    rw [if_neg hhas]
    -- Only the first page behind a map makes the scan move on.
    by_cases hleft : sc.justLeft = false
    · rw [if_pos hleft] at hpage
      rw [if_pos (h.left.symm.trans hleft)]
      obtain ⟨sc1, hnext, hrest⟩ := Loop.exists_of_bind hpage
      have h1 := h.nextMap hnext
      by_cases hcov1 : sc1.covers (pageAddr p)
      · have hhas1 : t.spans.Has (pl.span + 1) p := (h1.covers p hp).mp hcov1
        rw [if_pos hcov1] at hrest
        cases hrest
        rw [decide_eq_true hhas1]
        exact ⟨h1.entered, (husable h1 hhas1).trans (and_iff_right rfl).symm⟩
      · have hhas1 : ¬ t.spans.Has (pl.span + 1) p := fun hc => hcov1 ((h1.covers p hp).mpr hc)
        rw [if_neg hcov1] at hrest
        cases hrest
        rw [decide_eq_false hhas1]
        exact ⟨h1, by simp⟩
    · rw [if_neg hleft] at hpage
      rw [if_neg fun hc => hleft (h.left.trans hc)]
      cases hpage
      exact ⟨h, by simp⟩

/-- In front of every page, the scan stands where the pass does. -/
theorem scanAt_place {p : Nat} {sc : MapScan} (hp : p < 2 ^ 52) (hsc : scanAt t p = .ok sc) :
    Follows t sc (Sweep.place t.spans p) := by
  induction p generalizing sc with
  | zero =>
      cases hsc
      exact follows_firstMap
  | succ p ih =>
      obtain ⟨sc0, hsc0, hrest⟩ := Loop.exists_of_bind hsc
      obtain ⟨⟨usable, sc1⟩, hpage, hret⟩ := Loop.exists_of_bind hrest
      cases hret
      exact ((ih (by omega) hsc0).scanPage (by omega) hpage).1

/-- The pages that the scan finds usable, in a table that is in order. -/
theorem usablePage_iff (ht : t.SortedDisjoint) {p : Nat} {sc : MapScan} (hp : p < 2 ^ 52)
    (hsc : scanAt t (p + 1) = .ok sc) :
    usablePage t p = true ↔
      ∃ j, Reached t.spans j ∧ t.spans.Has j p ∧ (t.entry j).type = E820_USABLE := by
  obtain ⟨sc0, hsc0, hrest⟩ := Loop.exists_of_bind hsc
  obtain ⟨⟨usable, sc1⟩, hpage, -⟩ := Loop.exists_of_bind hrest
  rw [usablePage_of_scan hsc0 hpage, ((scanAt_place hp hsc0).scanPage hp hpage).2]
  constructor
  · intro ⟨hin, htype⟩
    obtain ⟨hreached, hhas⟩ := (Sweep.point_iff ht.ordered p _).mp ⟨hin, rfl⟩
    exact ⟨_, hreached, hhas, htype⟩
  · intro ⟨j, hreached, hhas, htype⟩
    obtain ⟨hin, hspan⟩ := (Sweep.point_iff ht.ordered p j).mpr ⟨hreached, hhas⟩
    rw [← hspan] at htype
    exact ⟨hin, htype⟩

/-! ### The free frames lie in usable records -/

/-- The byte is usable memory. -/
def E820Table.Usable (t : E820Table) (a : Nat) : Prop :=
  ∃ m ∈ t.entries, m.type = E820_USABLE ∧ m.Has a

/-- All bytes of the free frames are usable memory. -/
def FreeInside (t : E820Table) (mm : MemoryManager) : Prop :=
  FreeLists mm fun idx => ∀ a, a / 4096 = idx.toNat → t.Usable a

/-- Where the first page of a usable record is freed, the bytes of it that are in front of
the record are usable memory, too. -/
def StartsCovered (t : E820Table) (kdataEnd maxPhysAddr : Uintptr) : Prop :=
  ∀ j, Reached t.spans j → t.spans.lo j < t.spans.hi j → (t.entry j).type = E820_USABLE →
    t.spans.lo j < pageCount maxPhysAddr →
    kernelFrame kdataEnd maxPhysAddr (t.spans.lo j) = false →
    ∀ a, 4096 * t.spans.lo j ≤ a → a < (t.entry j).baseAddress.toNat → t.Usable a

section Run

variable {kdataEnd maxPhysAddr : Uintptr} {mm mm' : MemoryManager}

/-- The frames that the loop frees: those of a usable record that the scan comes to, but for
the kernel's own. The scan has to get behind the page. -/
theorem freeFrame_iff (ht : t.SortedDisjoint) {n p : Nat} {sc : MapScan}
    (hsc : scanAt t n = .ok sc) (hp : p < n) (hlt : p < 2 ^ 52) :
    freeFrame t kdataEnd maxPhysAddr p = true ↔
      (∃ j, Reached t.spans j ∧ t.spans.Has j p ∧ (t.entry j).type = E820_USABLE) ∧
        kernelFrame kdataEnd maxPhysAddr p = false := by
  obtain ⟨sc', hsc'⟩ := scanAt_of_le hsc (show p + 1 ≤ _ from hp)
  rw [freeFrame, Bool.and_eq_true, Bool.not_eq_true', usablePage_iff ht hlt hsc']

/-- A page of a record lies in the record, but for the bytes in front of its start. -/
theorem has_of_page {j p a : Nat} (hp : t.spans.Has j p) (ha : a / 4096 = p)
    (hbase : (t.entry j).baseAddress.toNat ≤ a) : (t.entry j).Has a := by
  refine ⟨hbase, ?_⟩
  have hhi := (t.no_wrap (Nat.lt_of_le_of_lt hp.1 hp.2)).1
  have := hp.2
  omega

/-- A page in front of whose end a record starts is the record's first one. -/
theorem lo_of_start {j p a : Nat} (hp : t.spans.Has j p) (ha : a / 4096 = p)
    (hbase : a < (t.entry j).baseAddress.toNat) : t.spans.lo j = p := by
  have hlo := hp.1
  have hdef : t.spans.lo j = if j = 0 then ((t.entry 0).baseAddress.toNat + 4095) / 4096
    else (t.entry j).baseAddress.toNat / 4096 := rfl
  split at hdef
  · case isTrue h0 =>
      subst h0
      omega
  · omega

/-- A start that is freed without the bytes in front of it shows. -/
theorem startsCovered_of_freeInside (ht : t.SortedDisjoint)
    (hrun : initializePageArray t kdataEnd maxPhysAddr (initializeZones mm) = .ok mm')
    (h : FreeInside t mm') : StartsCovered t kdataEnd maxPhysAddr := by
  obtain ⟨hsorted, hroom, sc, hsc⟩ := initializePageArray_sorted hrun
  have hcount := hroom.lt
  intro j hreached hne htype hlt hkernel a ha hbase
  have hfree : freeFrame t kdataEnd maxPhysAddr (t.spans.lo j) = true :=
    (freeFrame_iff ht hsc hlt (by omega)).mpr
      ⟨⟨j, hreached, ⟨Nat.le_refl _, hne⟩, htype⟩, hkernel⟩
  refine (hsorted.freeLists_iff _).mp h _ hlt hfree a ?_
  have hlo := t.lo_le j
  rw [BitVec.toNat_ofNat, Nat.mod_eq_of_lt (by omega)]
  omega

/-- All bytes of the free frames are usable memory when the freed starts are covered. -/
theorem freeInside_iff (ht : t.SortedDisjoint)
    (hrun : initializePageArray t kdataEnd maxPhysAddr (initializeZones mm) = .ok mm') :
    FreeInside t mm' ↔ StartsCovered t kdataEnd maxPhysAddr := by
  refine ⟨startsCovered_of_freeInside ht hrun, fun h => ?_⟩
  obtain ⟨hsorted, hroom, sc, hsc⟩ := initializePageArray_sorted hrun
  have hcount := hroom.lt
  refine (hsorted.freeLists_iff _).mpr fun p hp hfree a ha => ?_
  obtain ⟨⟨j, hreached, hhas, htype⟩, hkernel⟩ := (freeFrame_iff ht hsc hp (by omega)).mp hfree
  rw [BitVec.toNat_ofNat, Nat.mod_eq_of_lt (by omega)] at ha
  rcases Nat.lt_or_ge a (t.entry j).baseAddress.toNat with hbefore | hbase
  · have hlo := lo_of_start hhas ha hbefore
    refine h j hreached (Nat.lt_of_le_of_lt hhas.1 hhas.2) htype (by omega) (hlo ▸ hkernel) a ?_
      hbefore
    omega
  · exact ⟨t.entry j, E820Table.entry_mem (t.lt_count_of_has hhas), htype,
      has_of_page hhas ha hbase⟩

end Run

/-- A machine of 32 MB, all usable. Its second record begins inside the last page of the first
one. -/
def adjoiningMap : E820Table :=
  ⟨[⟨0, 0x9fc00, 0, 1⟩, ⟨0x9fc00, 0x60400, 0, 1⟩, ⟨0x100000, 0x1f00000, 0, 1⟩], by decide⟩

/-- The page that the two records share is freed, and both its parts are usable. -/
theorem freeInside_iff_adjoining :
    ∃ mm', initializePageArray adjoiningMap (KERNEL_BASE + 0x200000) 0x2000000
        (initializeZones (normalZone [] 0)) = .ok mm' ∧
      (FreeInside adjoiningMap mm' ↔
        StartsCovered adjoiningMap (KERNEL_BASE + 0x200000) 0x2000000) ∧
      FreeInside adjoiningMap mm' := by
  obtain ⟨sc, hsc⟩ := @scanAt_total adjoiningMap (by decide) (pageCount 0x2000000)
  obtain ⟨mm', hrun⟩ := @initializePageArray_total adjoiningMap (KERNEL_BASE + 0x200000) 0x2000000
    (.inr (by decide)) _ hsc (normalZone [] 0)
  have hiff := freeInside_iff (E820Table.sortedDisjoint_of_ends (by decide)) hrun
  refine ⟨mm', hrun, hiff, hiff.mpr fun j _ hne _ _ _ a ha hbefore => ?_⟩
  -- The bytes in front of the second record are in the first one.
  refine ⟨adjoiningMap.entry 0, List.mem_cons_self, rfl, Nat.zero_le a, ?_⟩
  have hj : j < 3 := adjoiningMap.lt_count_of_has ⟨Nat.le_refl _, hne⟩
  have hstarts : ∀ j < 3, 4096 * adjoiningMap.spans.lo j < (adjoiningMap.entry j).baseAddress.toNat →
      (adjoiningMap.entry j).baseAddress.toNat ≤ 0x9fc00 := by decide
  have hlength : (adjoiningMap.entry 0).baseAddress.toNat + (adjoiningMap.entry 0).length.toNat
      = 0x9fc00 := by decide
  have hlow := hstarts j hj (Nat.lt_of_le_of_lt ha hbefore)
  omega

/-- A machine of 32 MB, with half a page of the firmware's in front of usable memory. -/
def firmwareMap : E820Table :=
  ⟨[⟨0, 0x9f000, 0, 1⟩, ⟨0x9f800, 0x60800, 0, 1⟩, ⟨0x100000, 0x1f00000, 0, 1⟩], by decide⟩

/-- The page with the firmware's half is freed. -/
theorem not_freeInside_firmware :
    ¬ ∀ (t : E820Table) (kdataEnd maxPhysAddr : Uintptr) (mm mm' : MemoryManager),
      t.SortedDisjoint → detectPhysicalMemory t = .ok maxPhysAddr →
      initializePageArray t kdataEnd maxPhysAddr (initializeZones mm) = .ok mm' →
      FreeInside t mm' := by
  intro h
  have hsorted : firmwareMap.SortedDisjoint := E820Table.sortedDisjoint_of_ends (by decide)
  obtain ⟨sc, hsc⟩ := @scanAt_total firmwareMap (by decide) (pageCount 0x2000000)
  obtain ⟨mm', hrun⟩ := @initializePageArray_total firmwareMap (KERNEL_BASE + 0x200000) 0x2000000
    (.inr (by decide)) _ hsc (normalZone [] 0)
  have hin := h _ _ _ _ _ hsorted (by decide) hrun
  obtain ⟨m, hm, -, hhas⟩ := startsCovered_of_freeInside hsorted hrun hin 1 trivial (by decide) rfl
    (by decide) (by decide) 0x9f000 (by decide) (by decide)
  have hnone : ∀ m ∈ firmwareMap.entries, ¬ (m.baseAddress.toNat ≤ 0x9f000 ∧
      0x9f000 < m.baseAddress.toNat + m.length.toNat) := by decide
  exact hnone m hm hhas

/-! ### No usable frame is lost -/

/-- The frame lies in a usable record. -/
def E820Table.Whole (t : E820Table) (j p : Nat) : Prop :=
  (t.entry j).type = E820_USABLE ∧ ∀ a, a / 4096 = p → (t.entry j).Has a

/-- Every frame in a usable record that is none of the kernel's is on its free list. -/
def LosesNone (t : E820Table) (kdataEnd maxPhysAddr : Uintptr) (mm : MemoryManager) : Prop :=
  ∀ p, p < pageCount maxPhysAddr → kernelFrame kdataEnd maxPhysAddr p = false →
    (∃ j, j < t.count ∧ t.Whole j p) →
      OnFreeList mm (zoneOf (BitVec.ofNat 32 p)) (BitVec.ofNat 32 p)

/-- The pass gets to every record that has such a frame, and it ends behind its start. -/
def AllReached (t : E820Table) (kdataEnd maxPhysAddr : Uintptr) : Prop :=
  ∀ j, j < t.count →
    (∃ p, p < pageCount maxPhysAddr ∧ kernelFrame kdataEnd maxPhysAddr p = false ∧ t.Whole j p) →
    Reached t.spans j ∧ t.spans.lo j < t.spans.hi j

section Run

variable {kdataEnd maxPhysAddr : Uintptr} {mm mm' : MemoryManager}

/-- A page that a usable record has in whole is one of the record's pages. -/
theorem E820Table.Whole.has {j p : Nat} (h : t.Whole j p) (hne : t.spans.lo j < t.spans.hi j) :
    t.spans.Has j p := by
  have hfirst := h.2 (4096 * p) (by omega)
  have hlast := h.2 (4096 * p + 4095) (by omega)
  have hhi := (t.no_wrap hne).1
  have hlo : t.spans.lo j ≤ ((t.entry j).baseAddress.toNat + 4095) / 4096 := by
    show (if j = 0 then _ else _) ≤ _
    split
    · case isTrue h0 =>
        subst h0
        exact Nat.le_refl _
    · omega
  have := hfirst.1
  have := hlast.2
  exact ⟨by omega, by omega⟩

/-- The record that a page of another one is taken from has bytes of it. -/
theorem E820Table.Whole.eq (ht : t.SortedDisjoint) {j k p : Nat} (h : t.Whole j p)
    (hj : j < t.count) (hk : t.spans.Has k p) : j = k := by
  have hlo := t.lo_le k
  have hlast : (t.entry k).Has (4096 * p + 4095) := by
    refine has_of_page hk (by omega) ?_
    have := hk.1
    omega
  have hlast' := h.2 (4096 * p + 4095) (by omega)
  have hkc := t.lt_count_of_has hk
  have hpair := List.pairwise_iff_getElem.mp ht
  rcases Nat.lt_trichotomy j k with hlt | heq | hgt
  · have hdisj := (hpair j k hj hkc hlt).2 (4096 * p + 4095)
    rw [← List.getD_eq_getElem _ ⟨0, 0, 0, 0⟩ hj, ← List.getD_eq_getElem _ ⟨0, 0, 0, 0⟩ hkc]
      at hdisj
    exact absurd ⟨hlast', hlast⟩ hdisj
  · exact heq
  · have hdisj := (hpair k j hkc hj hgt).2 (4096 * p + 4095)
    rw [← List.getD_eq_getElem _ ⟨0, 0, 0, 0⟩ hj, ← List.getD_eq_getElem _ ⟨0, 0, 0, 0⟩ hkc]
      at hdisj
    exact absurd ⟨hlast, hlast'⟩ hdisj

/-- A record that the pass does not get to is lost. -/
theorem allReached_of_losesNone (ht : t.SortedDisjoint)
    (hrun : initializePageArray t kdataEnd maxPhysAddr (initializeZones mm) = .ok mm')
    (h : LosesNone t kdataEnd maxPhysAddr mm') : AllReached t kdataEnd maxPhysAddr := by
  obtain ⟨hsorted, hroom, sc, hsc⟩ := initializePageArray_sorted hrun
  have hcount := hroom.lt
  intro j hj ⟨p, hp, hkernel, hwhole⟩
  have hfree := (hsorted.onFreeList_iff (by omega) hp).mp (h p hp hkernel ⟨j, hj, hwhole⟩)
  obtain ⟨⟨k, hreached, hhas, -⟩, -⟩ := (freeFrame_iff ht hsc hp (by omega)).mp hfree
  obtain rfl := hwhole.eq ht hj hhas
  exact ⟨hreached, Nat.lt_of_le_of_lt hhas.1 hhas.2⟩

/-- No frame of a usable record is lost when the pass gets to the records that have one. -/
theorem losesNone_iff (ht : t.SortedDisjoint)
    (hrun : initializePageArray t kdataEnd maxPhysAddr (initializeZones mm) = .ok mm') :
    LosesNone t kdataEnd maxPhysAddr mm' ↔ AllReached t kdataEnd maxPhysAddr := by
  refine ⟨allReached_of_losesNone ht hrun, fun h => ?_⟩
  obtain ⟨hsorted, hroom, sc, hsc⟩ := initializePageArray_sorted hrun
  have hcount := hroom.lt
  intro p hp hkernel ⟨j, hj, hwhole⟩
  obtain ⟨hreached, hne⟩ := h j hj ⟨p, hp, hkernel, hwhole⟩
  exact (hsorted.onFreeList_iff (by omega) hp).mpr ((freeFrame_iff ht hsc hp (by omega)).mpr
    ⟨⟨j, hreached, hwhole.has hne, hwhole.1⟩, hkernel⟩)

end Run

/-- Every record of this machine has a page, so the scan comes to all of them. -/
theorem losesNone_iff_adjoining :
    ∃ mm', initializePageArray adjoiningMap (KERNEL_BASE + 0x200000) 0x2000000
        (initializeZones (normalZone [] 0)) = .ok mm' ∧
      (LosesNone adjoiningMap (KERNEL_BASE + 0x200000) 0x2000000 mm' ↔
        AllReached adjoiningMap (KERNEL_BASE + 0x200000) 0x2000000) ∧
      LosesNone adjoiningMap (KERNEL_BASE + 0x200000) 0x2000000 mm' := by
  obtain ⟨sc, hsc⟩ := @scanAt_total adjoiningMap (by decide) (pageCount 0x2000000)
  obtain ⟨mm', hrun⟩ := @initializePageArray_total adjoiningMap (KERNEL_BASE + 0x200000) 0x2000000
    (.inr (by decide)) _ hsc (normalZone [] 0)
  have hiff := losesNone_iff (E820Table.sortedDisjoint_of_ends (by decide)) hrun
  refine ⟨mm', hrun, hiff, hiff.mpr fun j hj _ => ?_⟩
  have hpages : ∀ j < 3, adjoiningMap.spans.lo j < adjoiningMap.spans.hi j := by decide
  have hreached : ∀ j, j < 3 → Reached adjoiningMap.spans j
    | 0, _ => show adjoiningMap.spans.Has 0 0 by decide
    | 1, _ => trivial
    | 2, _ => ⟨trivial, hpages 1 (by decide)⟩
  exact ⟨hreached j hj, hpages j hj⟩

/-- A machine of 32 MB, with a record of half a kilobyte that has no page. -/
def shortRecordMap : E820Table :=
  ⟨[⟨0, 0x9f000, 0, 1⟩, ⟨0x9f400, 0x200, 0, 2⟩, ⟨0x100000, 0x1f00000, 0, 1⟩], by decide⟩

/-- All memory behind the short record is lost. -/
theorem not_losesNone_shortRecord :
    ¬ ∀ (t : E820Table) (kdataEnd maxPhysAddr : Uintptr) (mm mm' : MemoryManager),
      t.SortedDisjoint → detectPhysicalMemory t = .ok maxPhysAddr →
      initializePageArray t kdataEnd maxPhysAddr (initializeZones mm) = .ok mm' →
      LosesNone t kdataEnd maxPhysAddr mm' := by
  intro h
  have hsorted : shortRecordMap.SortedDisjoint := E820Table.sortedDisjoint_of_ends (by decide)
  obtain ⟨sc, hsc⟩ := @scanAt_total shortRecordMap (by decide) (pageCount 0x2000000)
  obtain ⟨mm', hrun⟩ := @initializePageArray_total shortRecordMap (KERNEL_BASE + 0x200000) 0x2000000
    (.inr (by decide)) _ hsc (normalZone [] 0)
  have hnone := h _ _ _ _ _ hsorted (by decide) hrun
  -- Frame 4096 is in the third record.
  have hwhole : shortRecordMap.Whole 2 4096 := by
    refine ⟨rfl, fun a ha => ?_⟩
    show 0x100000 ≤ a ∧ a < 0x2000000
    omega
  have hreached := (allReached_of_losesNone hsorted hrun hnone 2 (by decide)
    ⟨4096, by decide, by decide, hwhole⟩).1
  have hshort : ¬ shortRecordMap.spans.lo 1 < shortRecordMap.spans.hi 1 := by decide
  exact hshort (hreached.before Nat.one_pos (by decide)).2

end MString
