import MString.Proofs.Mm.DirectorySwitch
import MString.Proofs.Mm.FrameBook
import MString.Proofs.Mm.Stock

/-!
# `MString.Proofs.Mm.RemapRuns`: `arch_remap_memory` with the pages of the boot's cache

* `archRemapMemory_stands`: as long as the book has frames, a run with the lists of the cache
  does what it does with the book.
* `archRemapMemory_stocked`: with three frames for every 2 MB of the two mappings, a run
  comes to its end.
-/

set_option autoImplicit false

namespace MString

open Lockstep

variable {ahead : Nat} {kEntries : Uintptr} {dmaPages totalPages : PageIdx}

theorem archRemapMemory_stands {boot : Nat} {mapped : EntryPtr → Bool} {m : Mem} {c : PageLists}
    {F : Frames} (h : CacheCounts boot ahead c F.pages) :
    Together UsedUp (fun _ => False)
      (fun s s' => s.mem = s'.mem ∧ CacheCounts boot ahead s'.ctx s.ctx.pages)
      (archRemapMemory mapped framesAlloc kEntries dmaPages totalPages 0 ⟨m, F⟩)
      (archRemapMemory mapped (allocPage boot) kEntries dmaPages totalPages 0 ⟨m, c⟩) := by
  have hverify : ∀ (m : Mem) (n : Nat) (ptr : Uintptr) (idx : PageIdx),
      Together UsedUp (fun _ => False) Eq (verifyMapping mapped m ⟨kEntries⟩ n ptr idx)
        (verifyMapping mapped m ⟨kEntries⟩ n ptr idx) := by
    intro m n ptr idx
    cases verifyMapping mapped m ⟨kEntries⟩ n ptr idx with
    | error e => exact .error e
    | ok x => exact .ok rfl
  rw [archRemapMemory, archRemapMemory, if_pos rfl, if_pos rfl]
  -- the first mapping, and its verification
  refine (mmMapPages_stands sameAccessor_linearPa h).bind (fun _ hq => hq.elim) ?_
  rintro ⟨r, ⟨m1, ctx, F1⟩⟩ ⟨r', ⟨m1', ctx', c1⟩⟩ ⟨hr, hm, hctx, hc1⟩
  obtain rfl : r = r' := hr
  obtain rfl : m1 = m1' := hm
  obtain rfl : ctx = ctx' := hctx
  dsimp only
  split
  · exact .error _
  refine (hverify m1 _ _ _).bind (fun _ hq => hq.elim) ?_
  rintro ⟨⟩ ⟨⟩ -
  -- the second one
  refine (mmMapPages_stands sameAccessor_linearPa hc1).bind (fun _ hq => hq.elim) ?_
  rintro ⟨r, ⟨m2, ctx2, F2⟩⟩ ⟨r', ⟨m2', ctx2', c2⟩⟩ ⟨hr, hm, hctx, hc2⟩
  obtain rfl : r = r' := hr
  obtain rfl : m2 = m2' := hm
  dsimp only
  split
  · exact .error _
  refine (hverify m2 _ _ _).bind (fun _ hq => hq.elim) ?_
  rintro ⟨⟩ ⟨⟩ -
  exact .ok ⟨rfl, hc2⟩

theorem provides_linearPa {flags : PageFlags} (hdma : flags &&& PAF_DMA_PAGE = 0) :
    Provides (pageaccsLinearPa framesAlloc) flags 0 (fun c => c.2.pages.length) where
  alloc s hs := provides_stub hdma s hs
  next _ _ := ⟨_, _, rfl, Nat.le_refl _⟩

/-- A linear mapping takes three frames for every 2 MB at most. -/
theorem linear_stocked {virt n : Uintptr} {k : Nat} {s : Machine (LinearPaCtx × Frames)}
    (h : Ready (fun c => Frames.Lists c.2) kEntries s) (hvirt : virt.toNat % 4096 = 0)
    (hrefused : ¬ Refused ⟨kEntries⟩ virt n) (hover : ¬ Overruns virt (virt + n * PAGE_SIZE))
    (hk : visited virt (virt + n * PAGE_SIZE) = k) (hfit : virt.toNat + 4096 * k ≤ 2 ^ 64)
    (hs : 3 * (k / 512 + 2) ≤ s.ctx.2.pages.length) :
    Spends (fun c => c.2.pages.length) (3 * (k / 512 + 2)) s
      (mmMapPages kernelWindow (some ⟨kEntries⟩) (some (pageaccsLinearPa framesAlloc))
        virt n 0 s) := by
  -- the accessor counts up, so only the tables cost frames
  have htables := tablesFor_pagesFrom_le hfit
  obtain ⟨s', hrun, hle⟩ := mmMapPages_stocked (supplies_linearPa allocates_framesAlloc 0)
    (@provides_linearPa 0 (by decide)) answers_kernelWindow h hvirt hrefused hover hk
    (by rw [Nat.zero_mul, Nat.add_zero]; exact Nat.le_trans htables hs)
  exact ⟨s', hrun, by omega⟩

/-- The frames that the two mappings take at most. -/
def remapFrames (dmaPages totalPages : PageIdx) : Nat :=
  3 * (dmaPages.toNat / 512 + 2) + 3 * (totalPages.toNat / 512 + 2)

/-- With so many frames in the book, and at most 1 GB of memory, a run ends. -/
theorem archRemapMemory_stocked {s : Machine Frames} (hboot : BootMemory Frames.Lists kEntries s)
    (hdma : 2 ≤ dmaPages.toNat) (htotal : dmaPages.toNat ≤ totalPages.toNat)
    (hfit : totalPages.toNat ≤ 2 ^ 18)
    (hs : remapFrames dmaPages totalPages ≤ s.ctx.pages.length) :
    ∃ s', archRemapMemory kernelWindow framesAlloc kEntries dmaPages totalPages 0 s
        = .ok s' ∧
      s.ctx.pages.length ≤ s'.ctx.pages.length + remapFrames dmaPages totalPages := by
  have hkb : KERNEL_BASE.toNat = 0xffffffff80000000 := by decide
  have hv0 : (0x1000 : Uintptr).toNat = 0x1000 := rfl
  have halloc := allocates_framesAlloc
  unfold remapFrames at hs ⊢
  -- the first call, from page 1 on
  have hone : dmaPages ≠ 1 := by
    rintro rfl
    exact absurd hdma (by decide)
  obtain ⟨hr1, ho1⟩ := hboot.dma_accepted hone
  obtain ⟨hn1, hsub⟩ := dma_count dmaPages
  have hk1 := hboot.dma_visited hdma (by omega)
  obtain ⟨t, h1, hle1⟩ := @linear_stocked kEntries _ _ _ _
    (hboot.ready (linearPaReset ⟨1, totalPages, 0⟩)) (by decide) hr1 ho1 hk1 (by rw [hv0]; omega)
    (show 3 * ((dmaPages - 1).toNat / 512 + 2) ≤ s.ctx.pages.length by omega)
  have hmap1 := dma_mapped halloc hboot hone h1
  rw [Nat.min_eq_left (by omega)] at hmap1
  have hv1 := (verifyMapping_eq_ok answers_kernelWindow hmap1.ready.wf _ _ _).mpr hmap1.inside
  -- the second call, over the kernel's window
  have hready : Ready (fun c => Frames.Lists c.2) kEntries
      ⟨t.mem, (linearPaReset { t.ctx.1 with startPage := 0 }, t.ctx.2)⟩ :=
    ⟨hmap1.ready.wf, hmap1.ready.low, hmap1.ready.fresh⟩
  obtain ⟨hr2, ho2⟩ := hboot.kernel_accepted (by omega) hfit
  have hk2 := hboot.kernel_visited (by omega) hfit
  have hspent : s.ctx.pages.length ≤ t.ctx.2.pages.length + 3 * ((dmaPages - 1).toNat / 512 + 2) :=
    hle1
  obtain ⟨u, h2, hle2⟩ := @linear_stocked kEntries _ _ _ _ hready (by decide) hr2 ho2 hk2
    (by rw [hkb]; omega)
    (show 3 * (totalPages.toNat / 512 + 2) ≤ t.ctx.2.pages.length by omega)
  have hmap2 := kernel_mapped halloc hboot (by omega) hfit rfl hready h2
  have hv2 := (verifyMapping_eq_ok answers_kernelWindow hmap2.ready.wf _ _ _).mpr hmap2.inside
  refine ⟨⟨u.mem, u.ctx.2⟩, ?_, ?_⟩
  · rw [archRemapMemory, if_pos rfl]
    dsimp only
    rw [h1, Loop.ok_bind]
    dsimp only
    rw [if_neg (by simp), hv1, Loop.ok_bind, h2, Loop.ok_bind]
    dsimp only
    rw [if_neg (by simp), hv2]
    rfl
  · have hrest : t.ctx.2.pages.length
        ≤ u.ctx.2.pages.length + 3 * (totalPages.toNat / 512 + 2) := hle2
    show s.ctx.pages.length ≤ u.ctx.2.pages.length + _
    omega

end MString
