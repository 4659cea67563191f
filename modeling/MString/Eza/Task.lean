import MString.Eza.Kstack
import MString.Mm.PageAccs

/-!
# `MString.Eza.Task`: creating tasks

`create_new_task` of `eza/generic_api/task.c`, `create_task` of
`eza/generic_api/process.c`, and `arch_setup_task_context` and `kernel_thread` of
`eza/amd64/sched/task.c`.

A `task_t *` is named by the frame of its `kernel_task_data_t`, and `none` is `NULL`.
These frames hold no tables, so the structures stand beside the memory of the tables.
The words that are written through the address of a kernel stack stand there too.
-/

set_option autoImplicit false

namespace MString

/-- `pid_t`. -/
abbrev Pid := BitVec 32

/-- `task_creation_flags_t`. -/
abbrev TaskCreationFlags := BitVec 32

def CLONE_MM : TaskCreationFlags := 0x1

def GENERIC_KERNEL_PAGE : PageFlags := 0
def KERNEL_STACK_PAGE_FLAGS : PageFlags := 0

/-- `task_privelege_t`. -/
inductive TaskPrivelege where
  | kernel
  | user
deriving DecidableEq, Repr

/-- `arch_context_t`. -/
structure ArchContext where
  cr3 : Uintptr
  rsp : Uintptr
deriving DecidableEq, Repr

/-- `task_t`, with the `arch_context_t` that its `arch_context` holds. -/
structure Task where
  pid : Pid
  ppid : Pid
  kernelStack : KernelStack
  pageDir : PageDirectory
  archContext : ArchContext
deriving DecidableEq, Repr

/-- `system_sched_data_t`. -/
structure SystemSchedData where
  cpuId : BitVec 32
  irqNum : BitVec 32
deriving DecidableEq, Repr

/-- `kernel_task_data_t`. -/
structure KernelTaskData where
  systemData : SystemSchedData
  task : Task
deriving DecidableEq, Repr

/-- What a clean page holds. -/
def KernelTaskData.zero : KernelTaskData := ⟨⟨0, 0⟩, ⟨0, 0, ⟨0, 0, 0⟩, ⟨0⟩, ⟨0, 0⟩⟩⟩

/-- What the creation of a task changes. -/
structure TaskState where
  machine : Machine PageLists
  mainStackCtx : KernelStackContext
  taskData : PageIdx → KernelTaskData
  /-- The words written through the kernel stacks' addresses. -/
  stackMem : Uintptr → BitVec 64
  /-- The counter `pid` of `task.c`. -/
  pid : Pid
  kthread1 : Option PageIdx

/-- What the creation of a task depends on and does not change. -/
structure TaskEnv where
  mapped : EntryPtr → Bool
  alloc : PageAllocator PageLists
  kernelPtDirectory : PageDirectory
  cpuId : BitVec 32
  /-- The flags that `pushfq` reads. -/
  rflags : BitVec 64
  kernelThreadHelper : Uintptr
  childForkPath : Uintptr

/-- A write to the structure in the frame `ts`. -/
def TaskState.setData (s : TaskState) (ts : PageIdx) (d : KernelTaskData) : TaskState :=
  { s with taskData := fun p => if p = ts then d else s.taskData p }

/-- A write to the `task_t` in the frame `ts`. -/
def TaskState.setTask (s : TaskState) (ts : PageIdx) (t : Task) : TaskState :=
  s.setData ts { s.taskData ts with task := t }

/-- The `task_t` in the frame `ts`. -/
def TaskState.task (s : TaskState) (ts : PageIdx) : Task := (s.taskData ts).task

section SetData

variable (s : TaskState) (ts p : PageIdx) (d : KernelTaskData) (t : Task)

/-- The data of a task that were set, and those of the others. -/
@[simp] theorem TaskState.taskData_setData :
    (s.setData ts d).taskData p = if p = ts then d else s.taskData p := rfl

/-- Setting its `task_t` leaves the rest of a task's data. -/
@[simp] theorem TaskState.taskData_setTask : (s.setTask ts t).taskData p
    = if p = ts then { s.taskData ts with task := t } else s.taskData p := rfl

/-- The `task_t` that was set, and those of the others. -/
@[simp] theorem TaskState.task_setTask :
    (s.setTask ts t).task p = if p = ts then t else s.task p := by
  by_cases h : p = ts <;> simp [TaskState.task, h]

@[simp] theorem TaskState.machine_setData : (s.setData ts d).machine = s.machine := rfl

@[simp] theorem TaskState.mainStackCtx_setData :
    (s.setData ts d).mainStackCtx = s.mainStackCtx := rfl

@[simp] theorem TaskState.pid_setData : (s.setData ts d).pid = s.pid := rfl

@[simp] theorem TaskState.machine_setTask : (s.setTask ts t).machine = s.machine := rfl

@[simp] theorem TaskState.mainStackCtx_setTask :
    (s.setTask ts t).mainStackCtx = s.mainStackCtx := rfl

@[simp] theorem TaskState.pid_setTask : (s.setTask ts t).pid = s.pid := rfl

end SetData

/-- `initialize_task_system_data`. -/
def initializeTaskSystemData (d : KernelTaskData) (cpu : BitVec 32) : KernelTaskData :=
  { d with systemData := ⟨cpu, 0⟩ }

/-- The loop of `alloc_stack_pages`, with `n` pages to go. -/
def stackPagesLoop (alloc : PageAllocator PageLists) :
    Nat → Option PageIdx → Machine PageLists → Except Fault (Option PageIdx × Machine PageLists)
  | 0, first, s => .ok (first, s)
  | n + 1, first, s => do
      let (p, s) ← alloc GENERIC_KERNEL_PAGE false s
      match p with
      | none => return (none, s)
      | some p =>
          let links := initListHead s.ctx.links (.frame p)
          match first with
          | none => stackPagesLoop alloc n (some p) ⟨s.mem, { s.ctx with links := links }⟩
          | some first =>
              let links ← listAddTail links (.frame p) (.frame first)
              stackPagesLoop alloc n (some first) ⟨s.mem, { s.ctx with links := links }⟩

/-- `alloc_stack_pages`. -/
def allocStackPages (alloc : PageAllocator PageLists) (s : Machine PageLists) :
    Except Fault (Option PageIdx × Machine PageLists) :=
  stackPagesLoop alloc KERNEL_STACK_PAGES none s

/-- `initialize_mm`. -/
def initializeMm (env : TaskEnv) (orig : Option PageIdx) (target : PageIdx)
    (flags : TaskCreationFlags) (s : TaskState) : Status × TaskState :=
  let setDir (d : PageDirectory) := s.setTask target { s.task target with pageDir := d }
  match orig with
  | none => (0, setDir env.kernelPtDirectory)
  | some orig =>
      if flags &&& CLONE_MM ≠ 0 then (0, setDir (s.task orig).pageDir)
      -- the directory stays as `initialize_page_directory` left it
      else (-EINVAL, setDir ⟨0⟩)

/-- `mm_map_pages` into the directory of the task in the frame `ts`, with an accessor
whose context is `c`. -/
def mapIntoTask {γ : Type} (env : TaskEnv) (pacc : PageFrameAccessor (γ × PageLists)) (c : γ)
    (ts : PageIdx) (virtAddr numPages : Uintptr) (s : TaskState) :
    Except Fault (Status × TaskState) := do
  let (r, m) ← mmMapPages env.mapped (some (s.task ts).pageDir) (some pacc) virtAddr numPages
    KERNEL_STACK_PAGE_FLAGS ⟨s.machine.mem, (c, s.machine.ctx)⟩
  return (r, { s with machine := ⟨m.mem, m.ctx.2⟩ })

/-- The steps of `create_new_task` that may fail once the task has a kernel stack and a
directory: stack pages are allocated, and the stack and the task struct mapped. -/
def mapNewTask (env : TaskEnv) (ts : PageIdx) (s : TaskState) :
    Except Fault (Status × TaskState) := do
  let (stackPages, m) ← allocStackPages env.alloc s.machine
  let s := { s with machine := m }
  match stackPages with
  | none => return (-ENOMEM, s)
  | some stackPages =>
      -- `curr` and `pages_left` are set by the reset
      let paCtx := listPaReset ⟨stackPages, none, BitVec.ofNat 32 KERNEL_STACK_PAGES, 0⟩
      let (r, s) ← mapIntoTask env (pageaccsListPa id env.alloc) paCtx ts
        (s.task ts).kernelStack.lowAddress (BitVec.ofNat 64 KERNEL_STACK_PAGES) s
      if r ≠ 0 then return (r, s)
      let lCtx := linearPaReset ⟨ts, ts, 0⟩
      mapIntoTask env (pageaccsLinearPa env.alloc) lCtx ts
        (taskStructPage (s.task ts).kernelStack) 1 s

/-- The label `free_stack`, where the later ones end. -/
def freeStack (ts : PageIdx) (s : TaskState) : TaskState :=
  { s with mainStackCtx := (freeKernelStack (s.task ts).kernelStack.id s.mainStackCtx).2 }

/-- `allocate_kernel_stack` on the stack of the task in the frame `ts`. -/
def allocateTaskStack (ts : PageIdx) (s : TaskState) : Status × TaskState :=
  let (r, stack, ctx) := allocateKernelStack s.mainStackCtx (s.task ts).kernelStack
  (r, { s.setTask ts { s.task ts with kernelStack := stack } with mainStackCtx := ctx })

/-- The steps of `create_new_task` that may fail once the task struct has its frame. -/
def setupNewTask (env : TaskEnv) (ts : PageIdx) (parent : Option PageIdx)
    (flags : TaskCreationFlags) (s : TaskState) : Except Fault (Status × TaskState) := do
  let (r, s) := allocateTaskStack ts s
  -- `r = allocate_kernel_stack(..) != 0`
  let r : Status := if r ≠ 0 then 1 else 0
  if r ≠ 0 then return (r, s)
  let (r, s) := initializeMm env parent ts flags s
  if r ≠ 0 then return (r, freeStack ts s)
  let (r, s) ← mapNewTask env ts s
  if r ≠ 0 then return (r, freeStack ts s)
  return (0, s)

/-- `create_new_task`. The load of `parent->pid` from a null pointer is refused. -/
def createNewTask (env : TaskEnv) (parent : Option PageIdx) (flags : TaskCreationFlags)
    (_priv : TaskPrivelege) (s : TaskState) :
    Except Fault (Status × Option PageIdx × TaskState) := do
  let (tsPage, m) ← env.alloc GENERIC_KERNEL_PAGE true s.machine
  let s := { s with machine := m }
  match tsPage with
  | none => return (-ENOMEM, none, s)
  | some ts =>
      let s := s.setData ts .zero
      let (r, s) ← setupNewTask env ts parent flags s
      if r ≠ 0 then return (r, none, s)
      let s := s.setData ts (initializeTaskSystemData (s.taskData ts) env.cpuId)
      let s := { s.setTask ts { s.task ts with pid := s.pid } with pid := s.pid + 1 }
      match parent with
      | none => .error (.pageFault 0)
      | some parent =>
          return (0, some ts, s.setTask ts { s.task ts with ppid := (s.task parent).pid })

/-! ### The first context -/

/-- `sizeof(regs_t)`. -/
def REGS_SIZE : Uintptr := 152

def OFFSET_RIP : Uintptr := 112
def OFFSET_CS : Uintptr := 120
def OFFSET_RFLAGS : Uintptr := 128
def OFFSET_OLD_RSP : Uintptr := 136
def OFFSET_OLD_SS : Uintptr := 144
def OFFSET_RDI : Uintptr := 16
def OFFSET_RSI : Uintptr := 8

def KTEXT_DES : BitVec 64 := 1
def KDATA_DES : BitVec 64 := 2

/-- `gdtselector`. -/
def gdtselector (des : BitVec 64) : BitVec 64 := des <<< 3

/-- A store of one word. -/
def setWord (m : Uintptr → BitVec 64) (a : Uintptr) (w : BitVec 64) : Uintptr → BitVec 64 :=
  fun x => if x = a then w else m x

/-- `memset(a, 0, size)`, on whole words. -/
def zeroWords (m : Uintptr → BitVec 64) (a size : Uintptr) : Uintptr → BitVec 64 :=
  fun x => if x - a < size then 0 else m x

/-- `delta`: the way from the registers down to the FX area. -/
def FX_DELTA : Uintptr := (0x1000 - REGS_SIZE) - ((0x1000 - REGS_SIZE) &&& 0xe00) + 512

/-- `arch_setup_task_context`, `__arch_setup_ctx` included. -/
def archSetupTaskContext (env : TaskEnv) (newtask : PageIdx) (_cflags : TaskCreationFlags)
    (priv : TaskPrivelege) (s : TaskState) : Status × TaskState :=
  let highAddress := (s.task newtask).kernelStack.highAddress
  let regs := highAddress - REGS_SIZE
  let (cs, rip, ss, rsp) : BitVec 64 × BitVec 64 × BitVec 64 × BitVec 64 :=
    match priv with
    | .kernel => (KTEXT_DES, env.kernelThreadHelper, KDATA_DES, highAddress)
    | .user => (0, 0, 0, 0)
  let m := zeroWords s.stackMem regs REGS_SIZE
  let m := setWord m (regs + OFFSET_CS) (gdtselector cs)
  let m := setWord m (regs + OFFSET_OLD_SS) (gdtselector ss)
  let m := setWord m (regs + OFFSET_RIP) rip
  let m := setWord m (regs + OFFSET_OLD_RSP) rsp
  let m := setWord m (regs + OFFSET_RFLAGS) (env.rflags ||| 0x200)
  let fsave := regs - FX_DELTA
  let m := zeroWords m fsave 512
  let m := setWord m (fsave - 8) FX_DELTA
  let m := setWord m (fsave - 16) env.childForkPath
  let cr3 := k2p (s.task newtask).pageDir.entries
  let s := s.setTask newtask { s.task newtask with archContext := ⟨cr3, fsave - 16⟩ }
  (0, { s with stackMem := m })

/-- Where `kernel_stack.high_address` stands in a `task_t`. -/
def HIGH_ADDRESS_OFFSET : Uintptr := 32

/-- `create_task`, for a caller that asks for the new task. -/
def createTask (env : TaskEnv) (parent : Option PageIdx) (flags : TaskCreationFlags)
    (priv : TaskPrivelege) (s : TaskState) :
    Except Fault (Status × Option PageIdx × TaskState) := do
  let (r, newTask, s) ← createNewTask env parent flags priv s
  let (r, s) ←
    if r = 0 then
      match newTask with
      | none => .error (.pageFault HIGH_ADDRESS_OFFSET)
      | some ts =>
          let (r, s) := archSetupTaskContext env ts flags priv s
          if r = 0 then pure (r, { s with kthread1 := some ts }) else pure (r, s)
    else pure (r, s)
  let newTask := if r < 0 then none else newTask
  return (r, newTask, s)

/-- `kernel_thread`, on the task `current`. -/
def kernelThread (env : TaskEnv) (current : PageIdx) (fn data : Uintptr) (s : TaskState) :
    Except Fault (Status × TaskState) := do
  let (r, newtask, s) ← createTask env (some current) CLONE_MM .kernel s
  if r ≥ 0 then
    match newtask with
    | none => .error (.pageFault HIGH_ADDRESS_OFFSET)
    | some newtask =>
        let regs := (s.task newtask).kernelStack.highAddress - REGS_SIZE
        let m := setWord s.stackMem (regs + OFFSET_RDI) fn
        let m := setWord m (regs + OFFSET_RSI) data
        return (r, { s with stackMem := m })
  else return (r, s)

end MString
