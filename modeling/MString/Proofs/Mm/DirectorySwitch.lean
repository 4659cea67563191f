import MString.Proofs.Eza.BootTables
import MString.Proofs.Mm.BelowTop
import MString.Proofs.Mm.Leaves

/-!
# `MString.Proofs.Mm.DirectorySwitch`: from the boot tables to the kernel's directory

`arch_remap_memory` ends with `load_cr3`: from one instruction to the next, other tables
translate the addresses of the code, the stack and all data.

* `remap_leaves`: the leaves of the whole directory.
* `remap_keepsAddresses`: what the new directory translates, the boot tables translate to
  the same place. The new one keeps the kernel's window up to the end of memory, and the
  first 16 MB without page zero.
-/

set_option autoImplicit false

namespace MString

open PageWalk

variable {κ : Type} {alloc : PageAllocator κ} {free : κ → PageIdx → Prop}

section Remap

variable {kEntries : Uintptr} {dmaPages totalPages : PageIdx} {s s' : Machine κ}

/-- What a run leaves is what its second call leaves. -/
theorem archRemapMemory_end {t u : Machine (LinearPaCtx × κ)}
    (h1 : mmMapPages kernelWindow (some ⟨kEntries⟩) (some (pageaccsLinearPa alloc)) 0x1000
      ((dmaPages - 1).setWidth 64) 0 ⟨s.mem, (linearPaReset ⟨1, totalPages, 0⟩, s.ctx)⟩
        = .ok (0, t))
    (hv : verifyMapping kernelWindow t.mem ⟨kEntries⟩ (dmaPages - 1).toNat 0x1000 1 = .ok ())
    (h2 : mmMapPages kernelWindow (some ⟨kEntries⟩) (some (pageaccsLinearPa alloc)) KERNEL_BASE
      (totalPages.setWidth 64) 0
      ⟨t.mem, (linearPaReset { t.ctx.1 with startPage := 0 }, t.ctx.2)⟩ = .ok (0, u))
    (hrun : archRemapMemory kernelWindow alloc kEntries dmaPages totalPages 0 s = .ok s') :
    s' = ⟨u.mem, u.ctx.2⟩ := by
  rw [archRemapMemory, if_pos rfl] at hrun
  dsimp only at hrun
  rw [h1, Loop.ok_bind] at hrun
  dsimp only at hrun
  rw [if_neg (by simp), hv, Loop.ok_bind, h2, Loop.ok_bind] at hrun
  dsimp only at hrun
  rw [if_neg (by simp)] at hrun
  obtain ⟨⟨⟩, -, hrun⟩ := Loop.exists_of_bind hrun
  cases hrun
  rfl

/-- The leaves of the directory after a run: those of the kernel's window, those of the
first 16 MB, and no others. -/
structure RemapLeaves (kEntries : Uintptr) (dmaPages totalPages : PageIdx) (m : Mem) : Prop where
  readable : Readable m kEntries
  wf : WellFormed m kEntries
  kernel : ∀ i, i < totalPages.toNat → ∀ w,
    pageOf w = pageOf (KERNEL_BASE + BitVec.ofNat 64 (4096 * i)) →
    ∃ e, leafOf m kEntries w = some e ∧ e.base = BitVec.ofNat 32 i
  dma : ∀ i, 1 ≤ i → i < dmaPages.toNat → ∀ w, pageOf w = i →
    ∃ e, leafOf m kEntries w = some e ∧ e.base = BitVec.ofNat 32 i
  others : ∀ w, (∀ i, i < totalPages.toNat →
      pageOf w ≠ pageOf (KERNEL_BASE + BitVec.ofNat 64 (4096 * i))) →
    (pageOf w = 0 ∨ dmaPages.toNat ≤ pageOf w) → leafOf m kEntries w = none

/-- The first call visits the pages of the DMA zone, without page zero. -/
theorem BootMemory.dma_visited (h : BootMemory free kEntries s) (htwo : 2 ≤ dmaPages.toNat)
    (hdma : dmaPages.toNat ≤ 2 ^ 19) :
    visited 0x1000 (0x1000 + (dmaPages - 1).setWidth 64 * PAGE_SIZE) = (dmaPages - 1).toNat := by
  have hv0 : (0x1000 : Uintptr).toNat = 0x1000 := rfl
  obtain ⟨hn, hsub⟩ := dma_count dmaPages
  obtain ⟨hrefused, -⟩ := @BootMemory.dma_accepted _ _ _ dmaPages _ h fun hone => by
    rw [hone] at htwo
    exact absurd htwo (by decide)
  rw [visited_eq (by decide) hrefused (by omega) fun h0 => hrefused (.inr (.inl h0)), hn, hv0,
    if_pos (by omega)]
  exact Nat.min_eq_left (by omega)

/-- The second one visits all memory. -/
theorem BootMemory.kernel_visited (h : BootMemory free kEntries s) (hpos : 0 < totalPages.toNat)
    (hfit : totalPages.toNat ≤ 2 ^ 18) :
    visited KERNEL_BASE (KERNEL_BASE + totalPages.setWidth 64 * PAGE_SIZE) = totalPages.toNat := by
  have hkb : KERNEL_BASE.toNat = 0xffffffff80000000 := by decide
  obtain ⟨hrefused, -⟩ := h.kernel_accepted hpos hfit
  obtain ⟨hn, -⟩ := @kernel_range totalPages (by omega)
  rw [visited_eq (by decide) hrefused (by omega) fun h0 => hrefused (.inr (.inl h0)),
    if_neg (by rw [hkb]; omega), hn]

theorem BootMemory.no_leaf (h : BootMemory free kEntries s) (w : Uintptr) :
    leafOf s.mem kEntries w = none := by
  unfold leafOf
  cases ht : tableOf s.mem kEntries (path w) with
  | none => rfl
  | some t => exact absurd (tableOf_of_empty h.empty ht).1 (by simp [path])

/-- A run leaves these leaves behind, and no free frame is a table. -/
theorem remap_leaves (halloc : Allocates alloc free) (hboot : BootMemory free kEntries s)
    (htotal : totalPages.toNat ≤ 2 ^ 19) (hdma : dmaPages.toNat ≤ totalPages.toNat)
    (hrun : archRemapMemory kernelWindow alloc kEntries dmaPages totalPages 0 s = .ok s') :
    totalPages.toNat ≤ 2 ^ 18 ∧ RemapLeaves kEntries dmaPages totalPages s'.mem ∧
      Ready free kEntries s' ∧ ∀ x, free s'.ctx x → free s.ctx x := by
  have hkb : KERNEL_BASE.toNat = 0xffffffff80000000 := by decide
  have hv0 : (0x1000 : Uintptr).toNat = 0x1000 := rfl
  obtain ⟨t, u, h1, hv, h2⟩ := archRemapMemory_ok hrun
  obtain ⟨htwo, hready⟩ := two_le_of_verified halloc hboot h1 hv
  have hready' : Ready (fun c => free c.2) kEntries
      ⟨t.mem, (linearPaReset { t.ctx.1 with startPage := 0 }, t.ctx.2)⟩ :=
    ⟨hready.wf, hready.low, hready.fresh⟩
  have hfit : totalPages.toNat ≤ 2 ^ 18 := by
    by_contra hbig
    exact kernel_refused halloc hready' htotal (by omega) h2 rfl
  have hmap2 := kernel_mapped halloc hboot (by omega) hfit rfl hready' h2
  rw [archRemapMemory_end h1 hv h2 hrun]
  refine ⟨hfit, ?_, ⟨hmap2.ready.wf, hmap2.ready.low, hmap2.ready.fresh⟩, fun x hx => ?_⟩
  case refine_2 =>
    -- neither call gives a frame back
    have hsup := @supplies_linearPa _ _ _ halloc 0
    exact mmMapPages_frees hsup h1 x (mmMapPages_frees hsup h2 x hx)
  -- the first call, from page 1 on
  have hone : dmaPages ≠ 1 := by
    rintro rfl
    exact absurd htwo (by decide)
  obtain ⟨hr1, ho1⟩ := hboot.dma_accepted hone
  obtain ⟨-, hsub⟩ := dma_count dmaPages
  have hmap1 := dma_mapped halloc hboot hone h1
  rw [Nat.min_eq_left (by omega)] at hmap1
  have hk1 := hboot.dma_visited htwo (by omega)
  have hleaves1 := leavesTo_of_call (supplies_linearPa halloc 0) answers_kernelWindow
    (hboot.ready _) (by decide) hr1 ho1 hk1 hmap1.inside h1
  -- the second call, over the kernel's window
  obtain ⟨hr2, ho2⟩ := hboot.kernel_accepted (by omega) hfit
  have hk2 := hboot.kernel_visited (by omega) hfit
  have hleaves2 := leavesTo_of_call (supplies_linearPa halloc 0) answers_kernelWindow hready'
    (by decide) hr2 ho2 hk2 hmap2.inside h2
  have hkernel : ∀ i, i < totalPages.toNat →
      pageOf (KERNEL_BASE + BitVec.ofNat 64 (4096 * i)) = 2 ^ 36 - 2 ^ 19 + i := by
    intro i hi
    rw [pageOf, toNat_page (by rw [hkb]; omega), hkb]
    omega
  have hdmaPage : ∀ i, i < (dmaPages - 1).toNat →
      pageOf ((0x1000 : Uintptr) + BitVec.ofNat 64 (4096 * i)) = i + 1 := by
    intro i hi
    rw [pageOf, toNat_page (by rw [hv0]; omega), hv0]
    omega
  constructor
  case readable => exact hleaves2.readable (hleaves1.readable (readable_of_empty hboot.empty))
  case wf => exact hmap2.ready.wf
  case kernel =>
    intro i hi w hw
    obtain ⟨e, he, hbase⟩ := hleaves2.inside i hi w hw
    exact ⟨e, he, hbase.trans (BitVec.zero_add _)⟩
  case dma =>
    intro i hi1 hi w hw
    rw [hleaves2.outside w fun j hj => by rw [hw, hkernel j hj]; omega]
    obtain ⟨e, he, hbase⟩ := hleaves1.inside (i - 1) (by omega) w
      (by rw [hw, hdmaPage (i - 1) (by omega)]; omega)
    refine ⟨e, he, hbase.trans (BitVec.eq_of_toNat_eq ?_)⟩
    rw [BitVec.toNat_add, BitVec.toNat_ofNat, BitVec.toNat_ofNat,
      show (1 : PageIdx).toNat = 1 from rfl]
    omega
  case others =>
    intro w hk hd
    rw [hleaves2.outside w hk]
    refine (hleaves1.outside w fun i hi => ?_).trans (hboot.no_leaf w)
    rw [hdmaPage i hi]
    omega

/-- From the boot tables to the new directory: an address that this one translates, it
translates to where the boot tables do, and these addresses are the window at `KERNEL_BASE`
up to the end of memory and the DMA zone at its own addresses, without page zero. -/
theorem remap_keepsAddresses (halloc : Allocates alloc free) (hboot : BootMemory free kEntries s)
    (hbase : kEntries ≠ KERNEL_BASE) (htotal : totalPages.toNat ≤ 2 ^ 19)
    (hdma : dmaPages.toNat ≤ totalPages.toNat)
    (hrun : archRemapMemory kernelWindow alloc kEntries dmaPages totalPages 0 s = .ok s')
    {m : Words} {b : BootLayout} (himage : BootImage m b) (v : Uintptr) (pa : Nat) :
    PageWalk.translate (physicalWords s'.mem) (loadCr3 (k2p kEntries) 1 1).toNat v.toNat = some pa
      ↔ PageWalk.translate m b.ptl0 v.toNat = some pa
        ∧ (KERNEL_BASE.toNat ≤ v.toNat ∧ v.toNat < KERNEL_BASE.toNat + 4096 * totalPages.toNat
          ∨ 4096 ≤ v.toNat ∧ v.toNat < 4096 * dmaPages.toNat) := by
  have hkb : KERNEL_BASE.toNat = 0xffffffff80000000 := by decide
  have hoffset : KERNEL_OFFSET.toNat = 0xffff800000000000 := by decide
  obtain ⟨hfit, hleaves, -⟩ := remap_leaves halloc hboot htotal hdma hrun
  rw [translate_physicalWords hleaves.wf hleaves.readable hbase, translate_boot himage]
  simp only [bootWindows, List.mem_cons, List.not_mem_nil, or_false, exists_eq_or_imp,
    exists_eq_left, AtDistance, hoffset, hkb]
  by_cases hc : Canonical v.toNat
  case neg =>
    rw [if_neg hc]
    unfold Canonical at hc
    simp only [reduceCtorEq, false_iff]
    omega
  rw [if_pos hc]
  unfold Canonical at hc
  have hkernelPage : ∀ i, i < totalPages.toNat →
      pageOf (KERNEL_BASE + BitVec.ofNat 64 (4096 * i)) = 2 ^ 36 - 2 ^ 19 + i := by
    intro i hi
    rw [pageOf, toNat_page (by rw [hkb]; omega), hkb]
    omega
  by_cases hk : 0xffffffff80000000 ≤ v.toNat
      ∧ v.toNat < 0xffffffff80000000 + 4096 * totalPages.toNat
  case pos =>
    -- a page of the kernel's window
    have hi : (v.toNat - 0xffffffff80000000) / 4096 < totalPages.toNat := by omega
    obtain ⟨e, he, hframe⟩ := hleaves.kernel _ hi v (by rw [hkernelPage _ hi, pageOf]; omega)
    rw [he, Option.map_some, hframe, Option.some_inj, BitVec.toNat_ofNat]
    omega
  by_cases hd : 4096 ≤ v.toNat ∧ v.toNat < 4096 * dmaPages.toNat
  case pos =>
    -- a page of the DMA zone, at its own address
    obtain ⟨e, he, hframe⟩ := hleaves.dma (v.toNat / 4096) (by omega) (by omega) v
      (by rw [pageOf]; omega)
    rw [he, Option.map_some, hframe, Option.some_inj, BitVec.toNat_ofNat]
    omega
  -- any other page has no leaf
  rw [hleaves.others v (fun i hi => by rw [hkernelPage i hi, pageOf]; omega)
    (by rw [pageOf]; omega), Option.map_none]
  simp only [reduceCtorEq, false_iff]
  omega

end Remap

/-! ### One boot -/

theorem exists_of_bootFault {dmaPages totalPages : PageIdx}
    (h : bootFault dmaPages totalPages = none) :
    ∃ s', archRemapMemory kernelWindow (bootAllocator 1000) EMPTY_ROOT dmaPages totalPages 0
      bootMachine = .ok s' := by
  unfold bootFault at h
  split at h
  · case h_1 s' hrun => exact ⟨s', hrun⟩
  · cases h

/-- Three pages of memory: an address in the last one. -/
theorem remap_keepsAddresses_three : ∃ s',
    archRemapMemory kernelWindow (bootAllocator 1000) EMPTY_ROOT 2 3 0 bootMachine = .ok s' ∧
      (PageWalk.translate (physicalWords s'.mem) (loadCr3 (k2p EMPTY_ROOT) 1 1).toNat
          (KERNEL_BASE + 0x2345).toNat = some 0x2345
        ↔ PageWalk.translate firstMemory firstLayout.ptl0 (KERNEL_BASE + 0x2345).toNat
            = some 0x2345
          ∧ (KERNEL_BASE.toNat ≤ (KERNEL_BASE + 0x2345).toNat
              ∧ (KERNEL_BASE + 0x2345).toNat < KERNEL_BASE.toNat + 4096 * (3 : PageIdx).toNat
            ∨ 4096 ≤ (KERNEL_BASE + 0x2345).toNat
              ∧ (KERNEL_BASE + 0x2345).toNat < 4096 * (2 : PageIdx).toNat)) := by
  obtain ⟨s', hrun⟩ := @exists_of_bootFault 2 3 (by decide +kernel)
  exact ⟨s', hrun, remap_keepsAddresses (allocates_bootAllocator (by decide))
    bootMemory_bootMachine (by decide) (by decide) (by decide) hrun bootImage_first
    (KERNEL_BASE + 0x2345) 0x2345⟩

end MString
