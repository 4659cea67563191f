import MString.Mm.Mm
import MString.Proofs.Mm.Words

/-!
# `MString.Proofs.Mm.Addresses`: the three names of a page frame

A frame has an index, a physical address and an address in the kernel window, and six
helpers go between them. The window's address is a 32-bit product that is added to
`KERNEL_BASE`, the walkers sign-extend the product, and `_k2p` takes the start of the
window itself for an address outside of it.

`AddressesAgree` is that all of them name the same frame, and `addressesAgree_iff` says
for which frames they do.
-/

set_option autoImplicit false

namespace MString

/-- The helpers agree on a frame. -/
structure AddressesAgree (idx : PageIdx) : Prop where
  /-- The walkers find a table where `alloc_page` has cleared it. -/
  table : ∀ e, (pdp3Fields (idx.setWidth 64) e).table = pframeToVirt idx ∧
    (pde2Fields (idx.setWidth 64) e).table = pframeToVirt idx
  index : virtToPframeId (pframeIdToVirt idx) = idx
  physical : virtToPhys (pframeToVirt idx) = pframePhysAddr idx
  kernel : k2p (pframeToVirt idx) = pframePhysAddr idx

theorem toNat_KERNEL_BASE : KERNEL_BASE.toNat = 0xffffffff80000000 := by decide

/-- The way to the window and back. The product has 32 bits, and what is above them is lost. -/
theorem virtToPhys_pframeToVirt (idx : PageIdx) :
    virtToPhys (pframeToVirt idx) = (idx * 0x1000#32).setWidth 64 := by
  rw [virtToPhys, pframeToVirt, BitVec.add_comm, BitVec.add_sub_cancel]

/-- The product is the address modulo 4 GB. -/
theorem toNat_product (idx : PageIdx) :
    ((idx * 0x1000#32).setWidth 64).toNat = idx.toNat * 4096 % 2 ^ 32 := by
  rw [BitVec.toNat_setWidth, BitVec.toNat_mul, BitVec.toNat_ofNat]
  omega

/-- `pframe_phys_addr` multiplies in 64 bits, and drops nothing. -/
theorem toNat_pframePhysAddr (idx : PageIdx) : (pframePhysAddr idx).toNat = idx.toNat * 4096 := by
  have hlt := idx.isLt
  rw [pframePhysAddr, BitVec.toNat_mul, BitVec.toNat_setWidth,
    show PAGE_SIZE.toNat = 4096 from rfl]
  omega

/-- The 32-bit product is the physical address below 4 GB. -/
theorem physical_iff (idx : PageIdx) :
    virtToPhys (pframeToVirt idx) = pframePhysAddr idx ↔ idx.toNat < 2 ^ 20 := by
  rw [virtToPhys_pframeToVirt, ← BitVec.toNat_inj, toNat_product, toNat_pframePhysAddr]
  have hlt := idx.isLt
  omega

/-- The window begins at the kernel's base, and shows the address modulo 4 GB. -/
theorem toNat_pframeToVirt_mod (idx : PageIdx) :
    (pframeToVirt idx).toNat = (0xffffffff80000000 + idx.toNat * 4096 % 2 ^ 32) % 2 ^ 64 := by
  rw [pframeToVirt, BitVec.toNat_add, toNat_product, toNat_KERNEL_BASE]

/-- `_k2p` takes the start of the window, and what has wrapped, for addresses of the other
mapping. -/
theorem kernel_iff (idx : PageIdx) (h : idx.toNat < 2 ^ 20) :
    k2p (pframeToVirt idx) = pframePhysAddr idx ↔ 0 < idx.toNat ∧ idx.toNat < 2 ^ 19 := by
  have hphys := (physical_iff idx).mpr h
  have hvirt := toNat_pframeToVirt_mod idx
  have hwindow : pframeToVirt idx > KERNEL_BASE ↔ 0 < idx.toNat ∧ idx.toNat < 2 ^ 19 := by
    rw [gt_iff_lt, BitVec.lt_def, hvirt, toNat_KERNEL_BASE]
    omega
  rw [k2p, ← hwindow]
  by_cases hin : pframeToVirt idx > KERNEL_BASE
  · rw [if_pos hin]
    exact ⟨fun _ => hin, fun _ => hphys⟩
  · rw [if_neg hin]
    refine ⟨fun heq => ?_, fun hgt => absurd hgt hin⟩
    -- The two offsets would be the same.
    have hoff := heq.trans hphys.symm
    rw [virtToPhys, ← BitVec.toNat_inj, BitVec.toNat_sub, BitVec.toNat_sub, hvirt,
      toNat_KERNEL_BASE, show KERNEL_OFFSET.toNat = 0xffff800000000000 from rfl] at hoff
    omega

/-- Below 4 GB the frame number comes back. -/
theorem index_of_lt (idx : PageIdx) (h : idx.toNat < 2 ^ 20) :
    virtToPframeId (pframeIdToVirt idx) = idx := by
  have hphys := virtToPhys_pframeToVirt idx
  rw [virtToPhys] at hphys
  rw [virtToPframeId, show pframeIdToVirt idx = pframeToVirt idx from rfl, hphys,
    ← BitVec.toNat_inj, BitVec.toNat_setWidth, BitVec.toNat_ushiftRight, toNat_product,
    Nat.shiftRight_eq_div_pow, PAGE_WIDTH]
  omega

/-- The helpers agree on the frames of the first 2 GB, page zero excepted. -/
theorem addressesAgree_iff (idx : PageIdx) :
    AddressesAgree idx ↔ 0 < idx.toNat ∧ idx.toNat < 2 ^ 19 := by
  constructor
  · intro h
    exact (kernel_iff idx ((physical_iff idx).mp h.physical)).mp h.kernel
  · rintro ⟨hpos, hlow⟩
    have hlt : idx.toNat < 2 ^ 20 := by omega
    exact ⟨fun e => ⟨table_setBase _ hlow, table_setBase _ hlow⟩, index_of_lt idx hlt,
      (physical_iff idx).mpr hlt, (kernel_iff idx hlt).mpr ⟨hpos, hlow⟩⟩

/-- A machine of 32 MB. -/
def smallMap : E820Table := ⟨[⟨0, 0x9f000, 0, 1⟩, ⟨0x100000, 0x1f00000, 0, 1⟩], by decide⟩

/-- They disagree on page zero of every machine. -/
theorem addressesAgree_page_zero :
    ¬ ∀ (t : E820Table) (maxPhysAddr : Uintptr) (idx : PageIdx),
      detectPhysicalMemory t = .ok maxPhysAddr → idx.toNat * 4096 < maxPhysAddr.toNat →
      AddressesAgree idx := by
  intro h
  have hzero := h smallMap 0x2000000 0 (by decide) (by decide)
  exact absurd ((kernel_iff 0 (by decide)).mp hzero.kernel).1 (by decide)

end MString
