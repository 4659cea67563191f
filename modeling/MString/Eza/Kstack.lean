import MString.Eza.Bits
import MString.Mm.Page

/-!
# `MString.Eza.Kstack`: the kernel stack allocator

`eza/generic_api/kstack.c`, and the way from a stack pointer to the task that runs on
the stack (`arch_current_task`). Kernel stacks are numbered from `KERNEL_BASE` down.

The list of chunks holds the one chunk that `initialize_stack_allocator_context`
makes, so the chunk's bitmap stands beside the counters of the context.
-/

set_option autoImplicit false

namespace MString

def KERNEL_STACK_PAGES : Nat := 4
def KERNEL_STACK_SIZE : Uintptr := 4 * PAGE_SIZE
def KERNEL_STACK_GAP : Uintptr := PAGE_SIZE
def KERNEL_STACK_STEP : Uintptr := 8 * PAGE_SIZE
def KERNEL_STACK_MASK : Uintptr := ~~~(KERNEL_STACK_STEP - 1)

def KERNEL_INVALID_ADDRESS : Uintptr := 0x100
def INVALID_STACK_ID : BitIdx := INVALID_BIT_INDEX

def BITMAP_INIT_PATTERN : BitVec 64 := ~~~0

/-- `sizeof(kernel_stack_chunk_t)`. -/
def KERNEL_STACK_CHUNK_SIZE : Nat := 40

/-- The words of a chunk's bitmap, which fills the rest of its page. -/
def BITMAP_ENTRIES_COUNT : Nat := (PAGE_SIZE.toNat - KERNEL_STACK_CHUNK_SIZE) / 8

/-- `starting_kernel_stack_address`, as `initialize_kernel_stack_allocator` sets it. -/
def STARTING_KERNEL_STACK_ADDRESS : Uintptr := KERNEL_BASE

/-- `kernel_stack_t`. -/
structure KernelStack where
  id : BitIdx
  highAddress : Uintptr
  lowAddress : Uintptr
deriving DecidableEq, Repr

/-- `kernel_stack_allocator_context_t`, with the bitmap of its chunk. -/
structure KernelStackContext where
  totalItems : BitVec 32
  freeItems : BitVec 32
  bitmap : Nat → BitVec 64

/-- `initialize_bitmap`. -/
def initializeBitmap (bitmap : Nat → BitVec 64) (size : Nat) : Nat → BitVec 64 :=
  fun i => if i < size then BITMAP_INIT_PATTERN else bitmap i

/-- `initialize_stack_allocator_context`, on the words of the page it is given. -/
def initializeStackAllocatorContext (page : Nat → BitVec 64) : KernelStackContext where
  totalItems := BitVec.ofNat 32 BITMAP_ENTRIES_COUNT
  freeItems := BitVec.ofNat 32 BITMAP_ENTRIES_COUNT
  bitmap := initializeBitmap page BITMAP_ENTRIES_COUNT

/-- The stack of the number `idx`. The product is a 32-bit one. -/
def stackOf (idx : BitIdx) : KernelStack :=
  let highAddress := STARTING_KERNEL_STACK_ADDRESS
    - (idx * KERNEL_STACK_STEP.setWidth 32).setWidth 64 - KERNEL_STACK_GAP
  ⟨idx, highAddress, highAddress - KERNEL_STACK_SIZE⟩

/-- `allocate_kernel_stack`. -/
def allocateKernelStack (ctx : KernelStackContext) (stack : KernelStack) :
    Status × KernelStack × KernelStackContext :=
  let failed := (-ENOENT,
    { stack with highAddress := KERNEL_INVALID_ADDRESS, id := INVALID_STACK_ID }, ctx)
  if ctx.freeItems > 0 then
    let idx := findFirstBitMem64 ctx.bitmap (BitVec.ofNat 64 BITMAP_ENTRIES_COUNT)
    if idx ≠ INVALID_BIT_INDEX then
      (0, stackOf idx,
        { ctx with freeItems := ctx.freeItems - 1, bitmap := resetBitMem64 ctx.bitmap idx })
    else failed
  else failed

/-- `free_kernel_stack`. -/
def freeKernelStack (_id : BitIdx) (ctx : KernelStackContext) : Status × KernelStackContext :=
  (0, ctx)

/-- `arch_system_sched_data`: the `kernel_task_data_t` of the task that runs on the
stack `rsp` points into, which starts with its `system_data`. -/
def archSystemSchedData (rsp : Uintptr) : Uintptr := rsp &&& KERNEL_STACK_MASK

/-- Where `task` stands in a `kernel_task_data_t`. -/
def TASK_OFFSET : Uintptr := 16

/-- `arch_current_task`. -/
def archCurrentTask (rsp : Uintptr) : Uintptr := (rsp &&& KERNEL_STACK_MASK) + TASK_OFFSET

/-- The page at which `create_new_task` maps the `kernel_task_data_t` of a task. -/
def taskStructPage (stack : KernelStack) : Uintptr := stack.lowAddress &&& KERNEL_STACK_MASK

end MString
