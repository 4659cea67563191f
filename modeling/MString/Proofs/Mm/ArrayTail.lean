import MString.Proofs.Mm.MemoryMap

/-!
# `MString.Proofs.Mm.ArrayTail`: the end of `page_frames_array`

The array stands behind the kernel image, and `initialize_page_array` reserves the pages of
both. It adds two numbers of pages, each rounded down, in a `page_idx_t`, and the loop's
number of frames is rounded up. So the array can end behind the reserved pages, and the
frame behind them is freed with the array's last bytes in it.

The loop frees frames one after the other, and it may fault before it is through: the boot
tables map a gigabyte of the kernel window only. So the property is about the free lists in
every state of the loop (`InPageArrayLoop`), and not about those that it returns with.

* `toNat_kernelEndPage`: the last page that is reserved.
* `keepsOff_iff`: no free frame has a byte of the array when the two remainders and the
  descriptor of a last, partial page fit in a page, or when the loop does not get to the
  frame behind the reserved pages.
-/

set_option autoImplicit false

namespace MString

/-- The physical end of `page_frames_array`, with a descriptor for every frame below
`max_phys_addr`. -/
def arrayEnd (kdataEnd maxPhysAddr : Uintptr) : Nat :=
  kdataEnd.toNat - KERNEL_BASE.toNat + 40 * pageCount maxPhysAddr

/-- The free frames have no byte of the kernel image and the array. -/
def KeepsOff (kdataEnd maxPhysAddr : Uintptr) (mm : MemoryManager) : Prop :=
  FreeLists mm fun idx => ∀ a, a / 4096 = idx.toNat →
    ¬ (KERNEL_PHYS_START.toNat ≤ a ∧ a < arrayEnd kdataEnd maxPhysAddr)

/-- The whole pages of the image and the whole pages of the array. -/
def wholePages (kdataEnd maxPhysAddr : Uintptr) : Nat :=
  (kdataEnd.toNat - KERNEL_BASE.toNat) / 4096 + 40 * (maxPhysAddr.toNat / 4096) / 4096

/-- The first page from the image's start on that is not reserved. The sum of the whole
pages is a `page_idx_t`. -/
def firstBehind (kdataEnd maxPhysAddr : Uintptr) : Nat :=
  max 256 (wholePages kdataEnd maxPhysAddr % 2 ^ 32 + 1)

/-- What is left of the image and of the array, and the descriptor of a partial page at the
end, fit in the last reserved page (and the number of that page in a `page_idx_t`); or there
is no frame behind that page, or no byte of the array behind the image's start; or the loop
faults in front of that frame, for whose descriptor there is no room in the kernel window. -/
def TailReserved (kdataEnd maxPhysAddr : Uintptr) : Prop :=
  (kdataEnd.toNat - KERNEL_BASE.toNat) % 4096 + 40 * (maxPhysAddr.toNat / 4096) % 4096
        + 40 * (pageCount maxPhysAddr - maxPhysAddr.toNat / 4096) ≤ 4096
      ∧ wholePages kdataEnd maxPhysAddr < 2 ^ 32
    ∨ pageCount maxPhysAddr ≤ firstBehind kdataEnd maxPhysAddr
    ∨ arrayEnd kdataEnd maxPhysAddr ≤ KERNEL_PHYS_START.toNat
    ∨ ¬ HasRoom kdataEnd (firstBehind kdataEnd maxPhysAddr + 1)

section Tail

variable {kdataEnd maxPhysAddr : Uintptr}

/-- The start of the image is a page's, so it drops out of the sum, also when the image ends
in front of it. -/
theorem toNat_kernelEndPage (hbase : KERNEL_BASE ≤ kdataEnd) :
    (kernelEndPage kdataEnd maxPhysAddr).toNat = wholePages kdataEnd maxPhysAddr % 2 ^ 32 := by
  have hlt := kdataEnd.isLt
  have hmax := maxPhysAddr.isLt
  rw [BitVec.le_def, toNat_KERNEL_BASE] at hbase
  have hstart : kernelStartPage.toNat = 256 := by decide
  have himage : (kdataEnd - KERNEL_BASE - KERNEL_PHYS_START).toNat
      = (kdataEnd.toNat - 0xffffffff80000000 + (2 ^ 64 - 0x100000)) % 2 ^ 64 := by
    rw [BitVec.toNat_sub, BitVec.toNat_sub, toNat_KERNEL_BASE,
      show KERNEL_PHYS_START.toNat = 0x100000 from rfl]
    omega
  have harray : (maxPhysAddr / PAGE_SIZE * PAGE_FRAME_SIZE).toNat
      = 40 * (maxPhysAddr.toNat / 4096) := by
    rw [BitVec.toNat_mul, BitVec.toNat_udiv, show PAGE_SIZE.toNat = 4096 from rfl,
      show PAGE_FRAME_SIZE.toNat = 40 from rfl]
    omega
  rw [kernelEndPage, BitVec.toNat_add, BitVec.toNat_add, BitVec.toNat_setWidth,
    BitVec.toNat_setWidth, BitVec.toNat_udiv, BitVec.toNat_udiv, himage, harray, hstart,
    show PAGE_SIZE.toNat = 4096 from rfl, wholePages, toNat_KERNEL_BASE]
  omega

/-- A frame from the image's start on is reserved for the kernel exactly when it is in front
of `firstBehind`. -/
theorem kernelFrame_eq_false_iff {p : Nat} (hroom : HasRoom kdataEnd (p + 1)) (hp : 256 ≤ p) :
    kernelFrame kdataEnd maxPhysAddr p = false ↔ firstBehind kdataEnd maxPhysAddr ≤ p := by
  have hlt := hroom.lt
  have hbase : KERNEL_BASE ≤ kdataEnd := hroom.resolve_left (Nat.succ_ne_zero p) |>.1
  have hend := @toNat_kernelEndPage _ maxPhysAddr hbase
  rw [kernelFrame, decide_eq_false_iff_not, BitVec.le_def, BitVec.le_def, BitVec.toNat_ofNat,
    Nat.mod_eq_of_lt (show p < 2 ^ 32 by omega), show kernelStartPage.toNat = 256 by decide, hend,
    firstBehind]
  omega

/-- The array's end, by its whole pages and what is left of them. -/
theorem arrayEnd_eq :
    arrayEnd kdataEnd maxPhysAddr = 4096 * wholePages kdataEnd maxPhysAddr
      + (kdataEnd.toNat - KERNEL_BASE.toNat) % 4096 + 40 * (maxPhysAddr.toNat / 4096) % 4096
      + 40 * (pageCount maxPhysAddr - maxPhysAddr.toNat / 4096) := by
  have hround : maxPhysAddr.toNat / 4096 ≤ pageCount maxPhysAddr := by
    unfold pageCount
    omega
  unfold arrayEnd wholePages
  omega

/-- Under the condition the array's tail is reserved, whatever the memory map is: in every
state of the loop, the free frames have no byte of it. -/
theorem keepsOff_of_tailReserved (htail : TailReserved kdataEnd maxPhysAddr) {t : E820Table}
    {mm : MemoryManager} {st : PageArrayState}
    (hst : InPageArrayLoop t kdataEnd maxPhysAddr mm st) : KeepsOff kdataEnd maxPhysAddr st.mm := by
  obtain ⟨n, hat⟩ := hst.atPage
  have hn := hat.room.lt
  refine (hat.sorted.freeLists_iff _).mpr fun p hp hfree a ha ⟨hstart, hend⟩ => ?_
  rw [BitVec.toNat_ofNat, Nat.mod_eq_of_lt (by omega)] at ha
  rw [show KERNEL_PHYS_START.toNat = 0x100000 from rfl] at hstart
  have hroom : HasRoom kdataEnd (p + 1) := hat.room.mono hp
  have hbehind : firstBehind kdataEnd maxPhysAddr ≤ p := by
    rw [freeFrame, Bool.and_eq_true, Bool.not_eq_true'] at hfree
    exact (kernelFrame_eq_false_iff hroom (by omega)).mp hfree.2
  have heq := @arrayEnd_eq kdataEnd maxPhysAddr
  rcases htail with ⟨hfits, hwhole⟩ | hnone | hempty | hfault
  · have hlast : wholePages kdataEnd maxPhysAddr + 1 ≤ firstBehind kdataEnd maxPhysAddr := by
      rw [firstBehind, Nat.mod_eq_of_lt hwhole]
      exact Nat.le_max_right ..
    omega
  · have := hat.below
    omega
  · rw [show KERNEL_PHYS_START.toNat = 0x100000 from rfl] at hempty
    omega
  · exact hfault (hroom.mono (Nat.succ_le_succ hbehind))

/-- One record of usable memory, from the start. -/
def wholeMap (n : Nat) : E820Table :=
  ⟨[⟨0, BitVec.ofNat 32 (4096 * n), BitVec.ofNat 32 (4096 * n / 2 ^ 32), 1⟩],
    (by decide : 1 ≤ 32)⟩

theorem length_wholeMap {n : Nat} (hn : n < 2 ^ 25) :
    ((wholeMap n).entry 0).length.toNat = 4096 * n := by
  show ((BitVec.ofNat 32 (4096 * n / 2 ^ 32)).setWidth 64 <<< 32
    ||| (BitVec.ofNat 32 (4096 * n)).setWidth 64).toNat = 4096 * n
  have hlow : 4096 * n % 2 ^ 32 < 2 ^ 32 := Nat.mod_lt _ (by decide)
  have hhigh : 4096 * n / 2 ^ 32 % 2 ^ 32 % 2 ^ 64 * 2 ^ 32 % 2 ^ 64
      = 4096 * n / 2 ^ 32 * 2 ^ 32 := by omega
  rw [BitVec.toNat_or, BitVec.toNat_shiftLeft, BitVec.toNat_setWidth, BitVec.toNat_setWidth,
    BitVec.toNat_ofNat, BitVec.toNat_ofNat, Nat.shiftLeft_eq, hhigh,
    Nat.mod_eq_of_lt (show 4096 * n % 2 ^ 32 < 2 ^ 64 by omega), ← Nat.shiftLeft_eq,
    ← Nat.shiftLeft_add_eq_or_of_lt hlow, Nat.shiftLeft_eq]
  omega

/-- All of its pages are usable. -/
theorem has_wholeMap {n p : Nat} (hn : n < 2 ^ 25) (hp : p < n) :
    Sweep.Reached (wholeMap n).spans 0 ∧ (wholeMap n).spans.Has 0 p := by
  have hlo : (wholeMap n).spans.lo 0 = 0 := by
    show ((0 : Uintptr).toNat + 4095) / 4096 = 0
    rfl
  have hhi : (wholeMap n).spans.hi 0 = n := by
    show ((0 : Uintptr) + ((wholeMap n).entry 0).length).toNat / 4096 = n
    rw [BitVec.toNat_add, length_wholeMap hn]
    show (0 + 4096 * n) % 2 ^ 64 / 4096 = n
    omega
  exact ⟨⟨by omega, by omega⟩, by omega, by omega⟩

/-- Otherwise the frame behind the reserved pages has bytes of the array. -/
theorem firstBehind_lt_arrayEnd (htail : ¬ TailReserved kdataEnd maxPhysAddr) :
    4096 * firstBehind kdataEnd maxPhysAddr < arrayEnd kdataEnd maxPhysAddr := by
  simp only [TailReserved, not_or, Nat.not_le, Classical.not_not] at htail
  obtain ⟨hrest, -, hbytes, hroom⟩ := htail
  rw [show KERNEL_PHYS_START.toNat = 0x100000 from rfl] at hbytes
  have heq := @arrayEnd_eq kdataEnd maxPhysAddr
  have hlt := hroom.lt
  rcases Nat.lt_or_ge (wholePages kdataEnd maxPhysAddr) (2 ^ 32) with hwhole | hwhole
  · have hleft : ¬ (kdataEnd.toNat - KERNEL_BASE.toNat) % 4096
        + 40 * (maxPhysAddr.toNat / 4096) % 4096
        + 40 * (pageCount maxPhysAddr - maxPhysAddr.toNat / 4096) ≤ 4096 :=
      fun hfits => hrest ⟨hfits, hwhole⟩
    rw [firstBehind, Nat.mod_eq_of_lt hwhole]
    omega
  · -- The number of pages is cut to 32 bits, and the array goes on far behind.
    omega

/-- A frame from `firstBehind` on that the loop finds usable, and comes to, is on a free list
from then on. So the property fails there when the frame is in front of the array's end. -/
theorem not_keepsOff {t : E820Table} (ht : t.SortedDisjoint)
    (hcount : t.count < E820MAP_E820_MAXRECORDS) (mm : MemoryManager) {j p : Nat}
    (hreached : Sweep.Reached t.spans j) (hhas : t.spans.Has j p)
    (htype : (t.entry j).type = E820_USABLE) (hp : p < pageCount maxPhysAddr)
    (hroom : HasRoom kdataEnd (p + 1)) (hbehind : firstBehind kdataEnd maxPhysAddr ≤ p)
    (hend : 4096 * p < arrayEnd kdataEnd maxPhysAddr) :
    ∃ st, InPageArrayLoop t kdataEnd maxPhysAddr mm st ∧
      ¬ KeepsOff kdataEnd maxPhysAddr st.mm := by
  have hlt := hroom.lt
  have hstart : 256 ≤ p := Nat.le_trans (Nat.le_max_left ..) hbehind
  obtain ⟨st, hst, hat⟩ := exists_atPage mm hroom hp fun q _ => scanAt_total hcount q
  obtain ⟨sc, hsc⟩ := @scanAt_total t hcount (p + 1)
  have hkernel := (kernelFrame_eq_false_iff hroom hstart).mpr hbehind
  have hfree : freeFrame t kdataEnd maxPhysAddr p = true :=
    (freeFrame_iff ht hsc (Nat.lt_succ_self p) (by omega)).mpr
      ⟨⟨j, hreached, hhas, htype⟩, hkernel⟩
  refine ⟨st, hst, fun hoff => ?_⟩
  refine (hat.sorted.freeLists_iff _).mp hoff p (Nat.lt_succ_self p) hfree (4096 * p) ?_ ⟨?_, hend⟩
  · rw [BitVec.toNat_ofNat, Nat.mod_eq_of_lt (by omega)]
    omega
  · rw [show KERNEL_PHYS_START.toNat = 0x100000 from rfl]
    omega

/-- In no state of the loop, on no memory map, a free frame has a byte of the array: this
holds under the condition and under no other. -/
theorem keepsOff_iff (kdataEnd maxPhysAddr : Uintptr) :
    (∀ (t : E820Table) (mm : MemoryManager) (st : PageArrayState),
      InPageArrayLoop t kdataEnd maxPhysAddr mm st → KeepsOff kdataEnd maxPhysAddr st.mm) ↔
      TailReserved kdataEnd maxPhysAddr := by
  refine ⟨fun h => ?_, fun htail t mm st hst => keepsOff_of_tailReserved htail hst⟩
  refine Classical.byContradiction fun htail => ?_
  have hend := firstBehind_lt_arrayEnd htail
  simp only [TailReserved, not_or, Nat.not_le, Classical.not_not] at htail
  obtain ⟨-, hframes, -, hroom⟩ := htail
  -- All memory is usable, so the page behind the reserved ones is freed.
  obtain ⟨hreached, hhas⟩ :=
    @has_wholeMap _ (firstBehind kdataEnd maxPhysAddr) hroom.lt (Nat.lt_succ_self _)
  have ht : (wholeMap (firstBehind kdataEnd maxPhysAddr + 1)).SortedDisjoint :=
    List.pairwise_singleton _ _
  obtain ⟨st, hst, hoff⟩ := not_keepsOff ht (by decide : 1 < 32) (normalZone [] 0) hreached hhas
    rfl hframes hroom (Nat.le_refl _) hend
  exact hoff (h _ _ _ hst)

end Tail

/-- A machine of a page more than 32 MB. -/
def oddMap : E820Table := ⟨[⟨0, 0x9f000, 0, 1⟩, ⟨0x100000, 0x1f01000, 0, 1⟩], by decide⟩

/-- On it, the last bytes of the array are in a free frame. -/
theorem not_keepsOff_odd :
    ¬ ∀ (t : E820Table) (kdataEnd maxPhysAddr : Uintptr) (mm : MemoryManager) (st : PageArrayState),
      detectPhysicalMemory t = .ok maxPhysAddr →
      InPageArrayLoop t kdataEnd maxPhysAddr mm st → KeepsOff kdataEnd maxPhysAddr st.mm := by
  intro h
  obtain ⟨st, hst, hoff⟩ := @not_keepsOff (KERNEL_BASE + 0x200fff) 0x2001000 oddMap
    (E820Table.sortedDisjoint_of_ends (by decide)) (by decide) (normalZone [] 0) 1 593
    (show Sweep.Reached oddMap.spans 1 from trivial) (by decide) rfl (by decide)
    (.inr (by decide)) (by decide) (by decide)
  exact hoff (h _ _ _ _ _ (by decide) hst)

end MString
