import MString.Mm.PageAccs

/-!
# `MString.Mm.Remap`: the kernel's own page directory

`arch_remap_memory` of `eza/amd64/mm/mm.c`: the boot processor maps the DMA zone to
itself, except for page zero, and all memory to the window at `KERNEL_BASE`, and
reads both mappings back (`verify_mapping`).

`kEntries` is the address of the array `k_entries`, the root of the directory, and
the two page counts are `memory_zones[ZONE_DMA].num_total_pages` and
`swks.mem_total_pages`. What is printed, and the reload of `CR3`, change no table.
-/

set_option autoImplicit false

namespace MString

/-- `verify_mapping`, with `numPages` pages to go. -/
def verifyMapping (mapped : EntryPtr → Bool) (m : Mem) (pd : PageDirectory) :
    Nat → Uintptr → PageIdx → Except Fault Unit
  | 0, _, _ => .ok ()
  | numPages + 1, ptr, startIdx => do
      let t ← mmPinVirtualAddress mapped m pd ptr
      if t ≠ startIdx then .error (.panic "arch_remap_memory(): Can't remap zone !")
      else verifyMapping mapped m pd numPages (ptr + PAGE_SIZE) (startIdx + 1)

variable {κ : Type}

/-- `arch_remap_memory`. -/
def archRemapMemory (mapped : EntryPtr → Bool) (alloc : PageAllocator κ) (kEntries : Uintptr)
    (dmaPages totalPages : PageIdx) (cpu : Nat) (s : Machine κ) : Except Fault (Machine κ) :=
  if cpu = 0 then do
    -- `curr_page` is set by the reset.
    let paCtx := linearPaReset ⟨1, totalPages, 0⟩
    let kernelPtDirectory : PageDirectory := ⟨kEntries⟩
    let (r, t) ← mmMapPages mapped (some kernelPtDirectory) (some (pageaccsLinearPa alloc)) 0x1000
      ((dmaPages - 1).setWidth 64) 0 ⟨s.mem, (paCtx, s.ctx)⟩
    if r ≠ 0 then
      .error (.panic
        "arch_remap_memory(): Can't remap physical pages (DMA identical mapping) !")
    else
    verifyMapping mapped t.mem kernelPtDirectory (dmaPages - 1).toNat 0x1000 1
    let paCtx := linearPaReset { t.ctx.1 with startPage := 0 }
    let (r, t) ← mmMapPages mapped (some kernelPtDirectory) (some (pageaccsLinearPa alloc))
      KERNEL_BASE (totalPages.setWidth 64) 0 ⟨t.mem, (paCtx, t.ctx.2)⟩
    if r ≠ 0 then
      .error (.panic "arch_remap_memory(): Can't remap physical pages !")
    else
    verifyMapping mapped t.mem kernelPtDirectory totalPages.toNat KERNEL_BASE 0
    return ⟨t.mem, t.ctx.2⟩
  else .ok s

end MString
