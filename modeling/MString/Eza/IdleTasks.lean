import MString.Eza.Task

/-!
# `MString.Eza.IdleTasks`: the idle tasks

`initialize_scheduler` of `eza/generic_api/scheduler.c`: the allocator of kernel stacks, and
then the idle tasks of all processors (`initialize_idle_tasks` of `eza/amd64/sched/task.c`).

The processor `boot` makes them all. Their pages are mapped with the accessor `idle_pacc`,
whose context is a static variable, `next_frame`: the frame to map, or `NULL` for new frames.
-/

set_option autoImplicit false

namespace MString

/-- `acc_next_frame`. -/
def accNextFrame (boot : Nat) (c : Option PageIdx × PageLists) :
    Except Fault (PageIdx × Option PageIdx × PageLists) :=
  match c.1 with
  | some nextFrame => .ok (nextFrame, c)
  | none => do
      -- `alloc_page(0,0)`, which does not clean the page
      let (frame, lists) ← takePage boot c.2
      match frame with
      | none => .error (.panic "initialize_idle_tasks(): Can't allocate a page !")
      | some frame => return (frame, none, lists)

/-- `idle_pacc`, where `memTotalPages` is `swks.mem_total_pages`. -/
def idlePacc (boot : Nat) (memTotalPages : PageIdx) :
    PageFrameAccessor (Option PageIdx × PageLists) where
  framesLeft _ := memTotalPages
  nextFrame := accNextFrame boot
  reset c := c
  allocPage := pageaccsAllocPageStub (allocPage boot)

/-- The kernel with the array `idle_tasks`. -/
structure IdleState where
  kernel : TaskState
  idleTasks : Nat → Option PageIdx

/-- The two mappings of an idle task: its stack, and below it the task struct. -/
def mapIdleTask (env : TaskEnv) (boot : Nat) (memTotalPages ts : PageIdx) (s : TaskState) :
    Except Fault TaskState := do
  let stack := (s.task ts).kernelStack
  let (r, s) ← mapIntoTask env (idlePacc boot memTotalPages) none ts stack.lowAddress
    (BitVec.ofNat 64 KERNEL_STACK_PAGES) s
  if r ≠ 0 then
    .error (.panic "initialize_idle_tasks(): Can't map kernel stack for idle task !")
  else
  let (r, s) ← mapIntoTask env (idlePacc boot memTotalPages) (some ts) ts (taskStructPage stack) 1 s
  if r ≠ 0 then
    .error (.panic "initialize_idle_tasks(): Can't map kernel stack for idle task !")
  else return s

/-- The body of the loop of `initialize_idle_tasks`. -/
def initializeIdleTask (env : TaskEnv) (boot : Nat) (memTotalPages : PageIdx) (s : IdleState)
    (cpu : Nat) : Except Fault IdleState := do
  let (tsPage, m) ← allocPage boot 0 true s.kernel.machine
  match tsPage with
  | none => .error (.panic
      "initialize_idle_tasks(): Can't allocate main structure for idle task !")
  | some ts =>
      let k := { s.kernel with machine := m }.setData ts .zero
      let k := k.setTask ts { k.task ts with pid := 0, ppid := 0, pageDir := env.kernelPtDirectory }
      let (r, k) := allocateTaskStack ts k
      if r ≠ 0 then
        .error (.panic "initialize_idle_tasks(): Can't initialize kernel stack for idle task !")
      else
      let k ← mapIdleTask env boot memTotalPages ts k
      -- `__arch_setup_ctx(task,0)`
      let cr3 := k2p (k.task ts).pageDir.entries
      let k := k.setTask ts { k.task ts with archContext := ⟨cr3, 0⟩ }
      let d := initializeTaskSystemData (k.taskData ts) (BitVec.ofNat 32 cpu)
      return ⟨k.setData ts d, Function.update s.idleTasks cpu (some ts)⟩

/-- `initialize_idle_tasks`, for `nrCpus` processors. -/
def initializeIdleTasks (env : TaskEnv) (boot : Nat) (memTotalPages : PageIdx) (nrCpus : Nat)
    (s : IdleState) : Except Fault IdleState :=
  (List.range nrCpus).foldlM (initializeIdleTask env boot memTotalPages) s

/-- `initialize_kernel_stack_allocator`, where `words` are those of the page it is given. -/
def initializeKernelStackAllocator (boot : Nat) (words : Nat → BitVec 64) (s : TaskState) :
    Except Fault TaskState := do
  let (ch1, m) ← allocPage boot 0 false s.machine
  match ch1 with
  | none => .error (.panic
      "initialize_stack_allocator_context(): Can't initialize stack context !")
  | some _ =>
      return { s with machine := m, mainStackCtx := initializeStackAllocatorContext words }

/-- `initialize_scheduler`. -/
def initializeScheduler (env : TaskEnv) (boot : Nat) (memTotalPages : PageIdx) (nrCpus : Nat)
    (words : Nat → BitVec 64) (s : IdleState) : Except Fault IdleState := do
  let k ← initializeKernelStackAllocator boot words s.kernel
  initializeIdleTasks env boot memTotalPages nrCpus { s with kernel := k }

end MString
