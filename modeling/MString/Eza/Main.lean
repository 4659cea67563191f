import MString.Eza.IdleTasks
import MString.Mm.Mm
import MString.Mm.Remap

/-!
# `MString.Eza.Main`: the boot of the first processor

`main_routine` of `eza/generic_api/main.c`, from the memory map that the BIOS has left to the
switch to the stack of the first idle task: what `arch_pmm_init` of `eza/amd64/pmm.c` does
about memory, and `initialize_scheduler`.

The kernel ends at `kdataEnd` (`KERNEL_END_PHYS` is behind the array of frames). What
`main_routine` does with the descriptor tables, the interrupt controllers and the timer in
between touches none of this state: `MString.Eza.Idt` and `MString.Eza.IrqRuns` have it.
-/

set_option autoImplicit false

namespace MString

/-- `setup_memory_swks`: `swks.mem_total_pages`. -/
def setupMemorySwks (maxPhysAddr : Uintptr) : PageIdx := (maxPhysAddr / PAGE_SIZE).setWidth 32

/-- The end of `arch_pmm_init` on the boot processor: the page array and the kernel's
directory. It answers `swks.mem_total_pages`. -/
def archPmmInit (env : TaskEnv) (t : E820Table) (kdataEnd : Uintptr) (nrCpus : Nat) (mem : Mem)
    (mm : MemoryManager) : Except Fault (PageIdx × Machine PageLists) := do
  let (maxPhysAddr, mm) ← buildPageArray t kdataEnd nrCpus mm
  let memTotalPages := setupMemorySwks maxPhysAddr
  let m ← archRemapMemory env.mapped (allocPage 0) env.kernelPtDirectory.entries
    (mm.zones .dma).numTotalPages memTotalPages 0 ⟨mem, mm.lists⟩
  return (memTotalPages, m)

/-- The kernel when `main_routine_stage1` is called. -/
structure MainState where
  memTotalPages : PageIdx
  idle : IdleState
  rsp : Uintptr

/-- `main_routine` up to `load_stack_pointer`. -/
def mainRoutine (env : TaskEnv) (t : E820Table) (kdataEnd : Uintptr) (nrCpus : Nat)
    (words : Nat → BitVec 64) (mm : MemoryManager) (s : IdleState) : Except Fault MainState := do
  let (memTotalPages, m) ← archPmmInit env t kdataEnd nrCpus s.kernel.machine.mem mm
  let s ← initializeScheduler env 0 memTotalPages nrCpus words
    { s with kernel := { s.kernel with machine := m } }
  match s.idleTasks 0 with
  | none => .error (.pageFault HIGH_ADDRESS_OFFSET)
  | some ts => return ⟨memTotalPages, s, (s.kernel.task ts).kernelStack.highAddress - 512⟩

end MString
