import Mathlib.Data.BitVec
import Mathlib.Tactic.Ring
import MString.Eza.Task
import MString.Proofs.Eza.Kstack

/-!
# `MString.Proofs.Eza.Task`: what `create_task` answers

* `setupNewTask_exhausted`: without a kernel stack the steps of `create_new_task` end
  with the status 1, which is no error code.
* `setupNewTask_cases`: with one they end with an error code, or with the task set up.
* `createTask_contract_iff`: `create_task` keeps its contract exactly if it finds a
  kernel stack, or no frame for the task, and does not get as far as the process id of
  a null parent. `kernel_thread` returns exactly in the first case.
-/

set_option autoImplicit false

namespace MString

/-- `mm_map_pages` answers with zero or with an error code. -/
theorem mmMapPages_status {σ : Type} {mapped : EntryPtr → Bool} {pd : Option PageDirectory}
    {pacc : Option (PageFrameAccessor σ)} {virtAddr numPages : Uintptr} {flags : PageFlags}
    {s s' : Machine σ} {r : Status}
    (h : mmMapPages mapped pd pacc virtAddr numPages flags s = .ok (r, s')) : r = 0 ∨ r < 0 := by
  have hinval : -EINVAL < 0 := by decide
  have hnomem : -ENOMEM < 0 := by decide
  unfold mmMapPages at h
  split at h
  · split at h
    · cases h
      exact .inr hinval
    · unfold mapAccepted at h
      obtain ⟨⟨r1, s1⟩, -, h⟩ := Loop.exists_of_bind h
      dsimp only at h
      split at h
      · cases h
        exact .inr hnomem
      · obtain ⟨⟨r2, s2⟩, -, h⟩ := Loop.exists_of_bind h
        dsimp only at h
        split at h
        · cases h
          exact .inr hnomem
        · cases h
          exact .inl rfl
  · cases h
    exact .inr hinval

/-- What two successful mappings for the task in the frame `ts` do to the machine. -/
def MappedAs (env : TaskEnv) (ts : PageIdx) (t : Task) (m m' : Machine PageLists) : Prop :=
  ∃ first m0 m1 m2,
    allocStackPages env.alloc m = .ok (some first, m0) ∧
    mmMapPages env.mapped (some t.pageDir) (some (pageaccsListPa id env.alloc))
        t.kernelStack.lowAddress (BitVec.ofNat 64 KERNEL_STACK_PAGES) KERNEL_STACK_PAGE_FLAGS
        ⟨m0.mem, (listPaReset ⟨first, none, BitVec.ofNat 32 KERNEL_STACK_PAGES, 0⟩, m0.ctx)⟩
      = .ok (0, m1) ∧
    mmMapPages env.mapped (some t.pageDir) (some (pageaccsLinearPa env.alloc))
        (taskStructPage t.kernelStack) 1 KERNEL_STACK_PAGE_FLAGS
        ⟨m1.mem, (linearPaReset ⟨ts, ts, 0⟩, m1.ctx.2)⟩
      = .ok (0, m2) ∧
    m' = ⟨m2.mem, m2.ctx.2⟩

section Steps

variable {env : TaskEnv} {ts : PageIdx} {parent : Option PageIdx} {flags : TaskCreationFlags}
  {s s' : TaskState} {r : Status}

/-- What `map_new_task` does: it maps both parts of the task, or it fails. -/
theorem mapNewTask_cases (h : mapNewTask env ts s = .ok (r, s')) :
    (r = 0 ∧ ∃ m, s' = { s with machine := m } ∧ MappedAs env ts (s.task ts) s.machine m) ∨
      r < 0 := by
  obtain ⟨⟨stackPages, m0⟩, hpages, h⟩ := Loop.exists_of_bind h
  cases stackPages with
  | none =>
      cases h
      exact .inr (by decide)
  | some first =>
      obtain ⟨⟨r1, s1⟩, hstack, h⟩ := Loop.exists_of_bind h
      obtain ⟨⟨r1', m1⟩, hmap1, heq⟩ := Loop.exists_of_bind hstack
      cases heq
      dsimp only at h
      rcases mmMapPages_status hmap1 with hr | hr
      · subst hr
        rw [if_neg (by decide)] at h
        obtain ⟨⟨r2, m2⟩, hmap2, heq⟩ := Loop.exists_of_bind h
        cases heq
        rcases mmMapPages_status hmap2 with hr | hr
        · subst hr
          exact .inl ⟨rfl, _, rfl, first, m0, m1, m2, hpages, hmap1, hmap2, rfl⟩
        · exact .inr hr
      · rw [if_pos (Int.ne_of_lt hr)] at h
        cases h
        exact .inr hr

/-- The directory that `initialize_mm` chooses. -/
def taskDirectory (env : TaskEnv) (parent : Option PageIdx) (s : TaskState) : PageDirectory :=
  match parent with
  | none => env.kernelPtDirectory
  | some p => (s.task p).pageDir

/-- What `initialize_mm` does: it gives the task a directory, or it refuses. -/
theorem initializeMm_cases (h : initializeMm env parent ts flags s = (r, s')) :
    (r = 0 ∧ s' = s.setTask ts { s.task ts with pageDir := taskDirectory env parent s }) ∨
      r < 0 := by
  unfold initializeMm at h
  split at h
  · cases h
    exact .inl ⟨rfl, rfl⟩
  · split at h
    · cases h
      exact .inl ⟨rfl, rfl⟩
    · cases h
      exact .inr (by decide)

/-- Allocating the stack of a task touches its slot and the allocator's context only. -/
theorem allocateTaskStack_eq {stack : KernelStack} {ctx : KernelStackContext}
    (h : allocateKernelStack s.mainStackCtx (s.task ts).kernelStack = (r, stack, ctx)) :
    allocateTaskStack ts s
      = (r, { s.setTask ts { s.task ts with kernelStack := stack } with mainStackCtx := ctx }) := by
  rw [allocateTaskStack, h]

/-- Without a kernel stack, the status is 1. -/
theorem setupNewTask_exhausted (hstack : (allocateTaskStack ts s).1 ≠ 0) :
    setupNewTask env ts parent flags s = .ok (1, (allocateTaskStack ts s).2) := by
  rw [setupNewTask]
  simp only [if_pos hstack]
  rfl

/-- The task in the frame `ts` has a stack and a directory, and both its stack and its
struct are mapped: what the steps of `create_new_task` make of the state `s`. -/
structure Prepared (env : TaskEnv) (ts : PageIdx) (parent : Option PageIdx)
    (s s' : TaskState) : Prop where
  stack : allocateKernelStack s.mainStackCtx (s.task ts).kernelStack
    = (0, (s'.task ts).kernelStack, s'.mainStackCtx)
  dir : ∀ p, parent = some p → p ≠ ts → (s'.task ts).pageDir = (s'.task p).pageDir
  kernelDir : parent = none → (s'.task ts).pageDir = env.kernelPtDirectory
  mapped : MappedAs env ts (s'.task ts) s.machine s'.machine
  others : ∀ p, p ≠ ts → s'.task p = s.task p
  pid : s'.pid = s.pid

/-- With a kernel stack, the steps end with an error code or with the task set up. -/
theorem setupNewTask_cases (hstack : (allocateTaskStack ts s).1 = 0)
    (h : setupNewTask env ts parent flags s = .ok (r, s')) :
    (r = 0 ∧ Prepared env ts parent s s') ∨ r < 0 := by
  obtain ⟨⟨stack, ctx⟩, hkstack⟩ :
      ∃ x, allocateKernelStack s.mainStackCtx (s.task ts).kernelStack = (0, x) :=
    ⟨_, Prod.ext hstack rfl⟩
  -- The stack is there, so the function goes on.
  rw [setupNewTask, allocateTaskStack_eq hkstack] at h
  simp only [ne_eq, not_true, if_false] at h
  rcases hmm : initializeMm env parent ts flags
    { s.setTask ts { s.task ts with kernelStack := stack } with mainStackCtx := ctx } with ⟨r1, s1⟩
  rw [hmm] at h
  dsimp only at h
  rcases initializeMm_cases hmm with ⟨rfl, rfl⟩ | hr
  · rw [if_neg (by decide)] at h
    obtain ⟨⟨r2, s2⟩, hmap, h⟩ := Loop.exists_of_bind h
    dsimp only at h
    rcases mapNewTask_cases hmap with ⟨rfl, m, rfl, hmapped⟩ | hr
    · cases h
      refine .inl ⟨rfl, ?_⟩
      -- Mapping the task's pages changes the tables only, so what was set before is still
      -- there.
      constructor
      case stack => simpa [TaskState.task] using hkstack
      case dir => rintro p rfl hne; simp [TaskState.task, taskDirectory, hne]
      case kernelDir => rintro rfl; simp [TaskState.task, taskDirectory]
      case mapped => simpa [TaskState.task] using hmapped
      case others => intro p hne; simp [TaskState.task, hne]
      case pid => rfl
    · -- Each step that fails hands its error on.
      rw [if_pos (Int.ne_of_lt hr)] at h
      cases h
      exact .inr hr
  · rw [if_pos (Int.ne_of_lt hr)] at h
    cases h
    exact .inr hr

end Steps

/-! ### The first context -/

/-- A store at an offset, read at an offset. -/
theorem setWord_add (m : Uintptr → BitVec 64) (base a c : Uintptr) (w : BitVec 64) :
    setWord m (base + a) w (base + c) = if c = a then w else m (base + c) := by
  simp [setWord]

/-- A cleared area, read at an offset. -/
theorem zeroWords_add (m : Uintptr → BitVec 64) (base a c size : Uintptr) :
    zeroWords m (base + a) size (base + c) = if c - a < size then 0 else m (base + c) := by
  have hsub : base + c - (base + a) = c - a := by ring
  rw [zeroWords, hsub]

/-- The word that `arch_setup_task_context` leaves at the offset `c` from the saved
registers. -/
def firstWord (env : TaskEnv) (priv : TaskPrivelege) (highAddress c old : Uintptr) : BitVec 64 :=
  let kernel (w : BitVec 64) : BitVec 64 := if priv = .kernel then w else 0
  if c = -FX_DELTA - 16 then env.childForkPath
  else if c = -FX_DELTA - 8 then FX_DELTA
  else if c + FX_DELTA < 512 then 0
  else if c = OFFSET_RFLAGS then env.rflags ||| 0x200
  else if c = OFFSET_OLD_RSP then kernel highAddress
  else if c = OFFSET_RIP then kernel env.kernelThreadHelper
  else if c = OFFSET_OLD_SS then kernel (gdtselector KDATA_DES)
  else if c = OFFSET_CS then kernel (gdtselector KTEXT_DES)
  else if c < REGS_SIZE then 0
  else old

/-- Every word behind the saved registers, as `arch_setup_task_context` leaves it. -/
theorem stackMem_archSetupTaskContext (env : TaskEnv) (ts : PageIdx) (flags : TaskCreationFlags)
    (priv : TaskPrivelege) (s : TaskState) (c : Uintptr) :
    (archSetupTaskContext env ts flags priv s).2.stackMem
        ((s.task ts).kernelStack.highAddress - REGS_SIZE + c)
      = firstWord env priv (s.task ts).kernelStack.highAddress c
          (s.stackMem ((s.task ts).kernelStack.highAddress - REGS_SIZE + c)) := by
  generalize hb : (s.task ts).kernelStack.highAddress - REGS_SIZE = base
  have hdown : ∀ d : Uintptr, base + -FX_DELTA - d = base + (-FX_DELTA - d) := fun d => by ring
  have hfsave : base - FX_DELTA = base + -FX_DELTA := by ring
  have hbase : ∀ m size, zeroWords m base size (base + c) = if c < size then 0 else m (base + c) :=
    fun m size => by simpa using zeroWords_add m base 0 c size
  cases priv <;>
    simp only [archSetupTaskContext, hb, hdown, hfsave, setWord_add, zeroWords_add, hbase,
      sub_neg_eq_add] <;>
    rfl

/-- The words at the top of the stack from which a new task starts: the address it
returns to, the FX area under it, and the registers that `iretq` and the pops before it
load. -/
structure FirstFrame (env : TaskEnv) (priv : TaskPrivelege) (highAddress : Uintptr)
    (m : Uintptr → BitVec 64) : Prop where
  resume : m (highAddress - REGS_SIZE + (-FX_DELTA - 16)) = env.childForkPath
  delta : m (highAddress - REGS_SIZE + (-FX_DELTA - 8)) = FX_DELTA
  fx : ∀ i < 64, m (highAddress - REGS_SIZE + (-FX_DELTA + BitVec.ofNat 64 (8 * i))) = 0
  gpr : ∀ i < 14, m (highAddress - REGS_SIZE + BitVec.ofNat 64 (8 * i)) = 0
  rip : m (highAddress - REGS_SIZE + OFFSET_RIP)
    = if priv = .kernel then env.kernelThreadHelper else 0
  cs : m (highAddress - REGS_SIZE + OFFSET_CS)
    = if priv = .kernel then gdtselector KTEXT_DES else 0
  rflags : m (highAddress - REGS_SIZE + OFFSET_RFLAGS) = env.rflags ||| 0x200
  rsp : m (highAddress - REGS_SIZE + OFFSET_OLD_RSP)
    = if priv = .kernel then highAddress else 0
  ss : m (highAddress - REGS_SIZE + OFFSET_OLD_SS)
    = if priv = .kernel then gdtselector KDATA_DES else 0

/-- So the frame of a new task stands below the top of its stack. -/
theorem firstFrame (env : TaskEnv) (ts : PageIdx) (flags : TaskCreationFlags)
    (priv : TaskPrivelege) (s : TaskState) :
    FirstFrame env priv (s.task ts).kernelStack.highAddress
      (archSetupTaskContext env ts flags priv s).2.stackMem := by
  -- The words of the FX area and those of the registers are different ones. The distances are
  -- checked one by one.
  have hfx : ∀ i < 64, ∀ d : Uintptr, d = -FX_DELTA + BitVec.ofNat 64 (8 * i) →
      d ≠ -FX_DELTA - 16 ∧ d ≠ -FX_DELTA - 8 ∧ d + FX_DELTA < 512 := by
    rintro i hi d rfl
    revert i
    decide
  have hgpr : ∀ i < 14, ∀ d : Uintptr, d = BitVec.ofNat 64 (8 * i) →
      d ≠ -FX_DELTA - 16 ∧ d ≠ -FX_DELTA - 8 ∧ ¬ d + FX_DELTA < 512 ∧ d ≠ OFFSET_RFLAGS ∧
        d ≠ OFFSET_OLD_RSP ∧ d ≠ OFFSET_RIP ∧ d ≠ OFFSET_OLD_SS ∧ d ≠ OFFSET_CS ∧
        d < REGS_SIZE := by
    rintro i hi d rfl
    revert i
    decide
  constructor
  case fx =>
    intro i hi
    obtain ⟨h1, h2, h3⟩ := hfx i hi _ rfl
    rw [stackMem_archSetupTaskContext, firstWord, if_neg h1, if_neg h2, if_pos h3]
  case gpr =>
    intro i hi
    obtain ⟨h1, h2, h3, h4, h5, h6, h7, h8, h9⟩ := hgpr i hi _ rfl
    rw [stackMem_archSetupTaskContext, firstWord, if_neg h1, if_neg h2, if_neg h3, if_neg h4,
      if_neg h5, if_neg h6, if_neg h7, if_neg h8, if_pos h9]
  all_goals
    rw [stackMem_archSetupTaskContext]
    rfl

/-! ### The contract -/

/-- The task in the frame `ts` is fully set up in `s'`, by a creation that began in `s`. -/
structure SetUp (env : TaskEnv) (parent : Option PageIdx) (priv : TaskPrivelege) (ts : PageIdx)
    (s s' : TaskState) : Prop where
  stack : allocateKernelStack s.mainStackCtx ⟨0, 0, 0⟩
    = (0, (s'.task ts).kernelStack, s'.mainStackCtx)
  dir : ∀ p, parent = some p → p ≠ ts → (s'.task ts).pageDir = (s'.task p).pageDir
  kernelDir : parent = none → (s'.task ts).pageDir = env.kernelPtDirectory
  mapped : ∃ m, MappedAs env ts (s'.task ts) m s'.machine
  pid : (s'.task ts).pid = s.pid ∧ s'.pid = s.pid + 1
  ppid : ∀ p, parent = some p → (s'.task ts).ppid = (s'.task p).pid
  systemData : (s'.taskData ts).systemData = ⟨env.cpuId, 0⟩
  context : (s'.task ts).archContext = ⟨k2p (s'.task ts).pageDir.entries,
    (s'.task ts).kernelStack.highAddress - REGS_SIZE - FX_DELTA - 16⟩
  frame : FirstFrame env priv (s'.task ts).kernelStack.highAddress s'.stackMem
  current : s'.kthread1 = some ts

/-- `create_task` returns 0 and stores a task that is set up, or it returns an error code
and stores `NULL`. -/
def KeepsContract (env : TaskEnv) (parent : Option PageIdx) (flags : TaskCreationFlags)
    (priv : TaskPrivelege) (s : TaskState) : Prop :=
  ∃ r newtask s', createTask env parent flags priv s = .ok (r, newtask, s') ∧
    ((r = 0 ∧ ∃ ts, newtask = some ts ∧ SetUp env parent priv ts s s') ∨
      (r < 0 ∧ newtask = none))

/-- The state in which the steps start, with the task struct in the frame `ts`. -/
def TaskState.withFrame (s : TaskState) (m : Machine PageLists) (ts : PageIdx) : TaskState :=
  { s with machine := m }.setData ts .zero

/-- The steps of `create_new_task` return, with whatever outcome. -/
def StepsReturn (env : TaskEnv) (parent : Option PageIdx) (flags : TaskCreationFlags)
    (s : TaskState) : Prop :=
  ∃ tsPage m, env.alloc GENERIC_KERNEL_PAGE true s.machine = .ok (tsPage, m) ∧
    ∀ ts, tsPage = some ts → ∃ x, setupNewTask env ts parent flags (s.withFrame m ts) = .ok x

/-- `StepsReturn`, computed. -/
def stepsReturn (env : TaskEnv) (parent : Option PageIdx) (flags : TaskCreationFlags)
    (s : TaskState) : Bool :=
  match env.alloc GENERIC_KERNEL_PAGE true s.machine with
  | .ok (some ts, m) => (setupNewTask env ts parent flags (s.withFrame m ts)).isOk
  | .ok (none, _) => true
  | .error _ => false

/-- A computation that comes to its end has a result. -/
theorem isOk_iff {ε α : Type} {x : Except ε α} : x.isOk = true ↔ ∃ a, x = .ok a := by
  cases x <;> simp [Except.isOk, Except.toBool]

instance (env : TaskEnv) (parent : Option PageIdx) (flags : TaskCreationFlags) (s : TaskState) :
    Decidable (StepsReturn env parent flags s) :=
  decidable_of_iff (stepsReturn env parent flags s = true) <| by
    unfold stepsReturn StepsReturn
    split
    case h_1 ts m h => simp [h, isOk_iff]
    case h_2 m h => simp [h]
    case h_3 e h => simp [h]

/-- No kernel stack is left. -/
def NoStackLeft (ctx : KernelStackContext) : Prop :=
  ctx.freeItems = 0 ∨
    findFirstBitMem64 ctx.bitmap (BitVec.ofNat 64 BITMAP_ENTRIES_COUNT) = INVALID_BIT_INDEX

/-- There is a frame for the task, and no kernel stack. -/
def OutOfStacks (env : TaskEnv) (s : TaskState) : Prop :=
  (∃ ts m, env.alloc GENERIC_KERNEL_PAGE true s.machine = .ok (some ts, m)) ∧
    NoStackLeft s.mainStackCtx

/-- All steps of `create_new_task` succeed. -/
def StepsSucceed (env : TaskEnv) (parent : Option PageIdx) (flags : TaskCreationFlags)
    (s : TaskState) : Prop :=
  ∃ ts m s', env.alloc GENERIC_KERNEL_PAGE true s.machine = .ok (some ts, m) ∧
    setupNewTask env ts parent flags (s.withFrame m ts) = .ok (0, s')

/-- `allocate_kernel_stack` fails exactly when no identifier is left. -/
theorem allocateKernelStack_ne_zero (ctx : KernelStackContext) (stack : KernelStack) :
    (allocateKernelStack ctx stack).1 ≠ 0 ↔ NoStackLeft ctx := by
  have hnoent : -ENOENT ≠ 0 := by decide
  have hpos : 0#32 < ctx.freeItems ↔ ctx.freeItems ≠ 0#32 := by
    rw [BitVec.lt_def, ne_eq, ← BitVec.toNat_inj]
    exact Nat.pos_iff_ne_zero
  unfold allocateKernelStack NoStackLeft
  by_cases hfree : ctx.freeItems = 0
  · simp [hfree, hnoent]
  · by_cases hbit : findFirstBitMem64 ctx.bitmap (BitVec.ofNat 64 BITMAP_ENTRIES_COUNT)
        = INVALID_BIT_INDEX
    · simp [hbit, hnoent]
    · have hfree' : 0#32 < ctx.freeItems := hpos.mpr hfree
      simpa [hfree', hbit] using hfree

section Contract

variable {env : TaskEnv} {ts : PageIdx} {parent : Option PageIdx} {flags : TaskCreationFlags}
  {priv : TaskPrivelege} {s s' : TaskState} {m : Machine PageLists} {r : Status}

/-- For a task in a fresh frame that is the same: its stack depends on the allocator's context
only. -/
theorem stack_withFrame : (allocateTaskStack ts (s.withFrame m ts)).1 ≠ 0 ↔
    NoStackLeft s.mainStackCtx :=
  allocateKernelStack_ne_zero s.mainStackCtx _

/-- The frame of a new task has been cleared. -/
theorem task_withFrame : (s.withFrame m ts).task ts = KernelTaskData.zero.task := by
  simp [TaskState.withFrame, TaskState.task, TaskState.setData]

/-- Without a frame, the creation fails as it should. -/
theorem createTask_noFrame
    (halloc : env.alloc GENERIC_KERNEL_PAGE true s.machine = .ok (none, m)) :
    createTask env parent flags priv s = .ok (-ENOMEM, none, { s with machine := m }) := by
  simp only [createTask, createNewTask, halloc, Loop.ok_bind]
  rfl

/-- When a step fails, its status is returned, and no task. -/
theorem createTask_failed (hr : r ≠ 0)
    (halloc : env.alloc GENERIC_KERNEL_PAGE true s.machine = .ok (some ts, m))
    (hsetup : setupNewTask env ts parent flags (s.withFrame m ts) = .ok (r, s')) :
    createTask env parent flags priv s = .ok (r, none, s') := by
  have hnew : createNewTask env parent flags priv s = .ok (r, none, s') := by
    simp only [createNewTask, halloc, Loop.ok_bind]
    show setupNewTask env ts parent flags (s.withFrame m ts) >>= _ = _
    rw [hsetup, Loop.ok_bind]
    simp only [hr, ne_eq, not_false_eq_true, if_true]
    rfl
  rw [createTask, hnew, Loop.ok_bind]
  simp only [if_neg hr, ite_self]
  rfl

/-- When all steps succeed, the process id of a null parent is asked for. -/
theorem createTask_nullParent
    (halloc : env.alloc GENERIC_KERNEL_PAGE true s.machine = .ok (some ts, m))
    (hsetup : setupNewTask env ts none flags (s.withFrame m ts) = .ok (0, s')) :
    createTask env none flags priv s = .error (.pageFault 0) := by
  have hnew : createNewTask env none flags priv s = .error (.pageFault 0) := by
    simp only [createNewTask, halloc, Loop.ok_bind]
    show setupNewTask env ts none flags (s.withFrame m ts) >>= _ = _
    rw [hsetup, Loop.ok_bind]
    rfl
  rw [createTask, hnew]
  rfl

/-- The end of `create_new_task`. -/
def finishNewTask (env : TaskEnv) (ts parent : PageIdx) (s : TaskState) : TaskState :=
  let s := s.setData ts (initializeTaskSystemData (s.taskData ts) env.cpuId)
  let s := { s.setTask ts { s.task ts with pid := s.pid } with pid := s.pid + 1 }
  s.setTask ts { s.task ts with ppid := (s.task parent).pid }

section Finish

variable (env : TaskEnv) (ts p : PageIdx) (flags : TaskCreationFlags) (priv : TaskPrivelege)
  (s : TaskState)

/-- The new task gets the next identifier, and `p` as its parent. -/
@[simp] theorem task_finishNewTask : (finishNewTask env ts p s).task ts
    = { s.task ts with
        pid := s.pid
        ppid := if p = ts then s.pid else (s.task p).pid } := by
  by_cases h : p = ts <;>
    simp [finishNewTask, initializeTaskSystemData, TaskState.task, h]

/-- No other task changes. -/
@[simp] theorem task_finishNewTask_ne {q : PageIdx} (hq : q ≠ ts) :
    (finishNewTask env ts p s).task q = s.task q := by
  simp [finishNewTask, TaskState.task, hq]

/-- Its per-task data name the processor. -/
@[simp] theorem systemData_finishNewTask :
    ((finishNewTask env ts p s).taskData ts).systemData = ⟨env.cpuId, 0⟩ := by
  simp [finishNewTask, initializeTaskSystemData]

@[simp] theorem machine_finishNewTask : (finishNewTask env ts p s).machine = s.machine := rfl

@[simp] theorem mainStackCtx_finishNewTask :
    (finishNewTask env ts p s).mainStackCtx = s.mainStackCtx := rfl

@[simp] theorem pid_finishNewTask : (finishNewTask env ts p s).pid = s.pid + 1 := rfl

/-- `create_task` after `create_new_task`. -/
def readyTask (env : TaskEnv) (ts : PageIdx) (flags : TaskCreationFlags) (priv : TaskPrivelege)
    (s : TaskState) : TaskState :=
  { (archSetupTaskContext env ts flags priv s).2 with kthread1 := some ts }

/-- `create_task` sets the context of a new task and makes it ready. -/
@[simp] theorem task_readyTask : (readyTask env ts flags priv s).task ts
    = { s.task ts with archContext := ⟨k2p (s.task ts).pageDir.entries,
        (s.task ts).kernelStack.highAddress - REGS_SIZE - FX_DELTA - 16⟩ } := by
  simp [readyTask, archSetupTaskContext, TaskState.task]

/-- No other task changes. -/
@[simp] theorem task_readyTask_ne {q : PageIdx} (hq : q ≠ ts) :
    (readyTask env ts flags priv s).task q = s.task q := by
  simp [readyTask, archSetupTaskContext, TaskState.task, hq]

@[simp] theorem systemData_readyTask :
    ((readyTask env ts flags priv s).taskData ts).systemData = (s.taskData ts).systemData := by
  simp [readyTask, archSetupTaskContext]

@[simp] theorem machine_readyTask : (readyTask env ts flags priv s).machine = s.machine := rfl

@[simp] theorem mainStackCtx_readyTask :
    (readyTask env ts flags priv s).mainStackCtx = s.mainStackCtx := rfl

@[simp] theorem pid_readyTask : (readyTask env ts flags priv s).pid = s.pid := rfl

end Finish

/-- With another parent, the task is set up. -/
theorem createTask_succeeded {p : PageIdx}
    (hstack : ¬ NoStackLeft s.mainStackCtx)
    (halloc : env.alloc GENERIC_KERNEL_PAGE true s.machine = .ok (some ts, m))
    (hsetup : setupNewTask env ts (some p) flags (s.withFrame m ts) = .ok (0, s')) :
    ∃ s2, createTask env (some p) flags priv s = .ok (0, some ts, s2) ∧
      SetUp env (some p) priv ts s s2 := by
  have hnew : createNewTask env (some p) flags priv s
      = .ok (0, some ts, finishNewTask env ts p s') := by
    simp only [createNewTask, halloc, Loop.ok_bind]
    show setupNewTask env ts (some p) flags (s.withFrame m ts) >>= _ = _
    rw [hsetup, Loop.ok_bind]
    rfl
  refine ⟨readyTask env ts flags priv (finishNewTask env ts p s'), ?_, ?_⟩
  · rw [createTask, hnew]
    rfl
  · have hw : (allocateTaskStack ts (s.withFrame m ts)).1 = 0 :=
      not_not.mp fun hne => hstack (stack_withFrame.mp hne)
    -- a result of 0 leaves the case in which every step succeeded
    rcases setupNewTask_cases hw hsetup with ⟨-, hp⟩ | hr
    · have hframe := firstFrame env ts flags priv (finishNewTask env ts p s')
      have hstack := hp.stack
      rw [task_withFrame] at hstack
      constructor
      case stack =>
        simp only [task_readyTask, task_finishNewTask, mainStackCtx_readyTask,
          mainStackCtx_finishNewTask]
        exact hstack
      case dir =>
        rintro q hq hne
        simp [hne, hp.dir q hq hne]
      case kernelDir => exact fun h => absurd h (by simp)
      case mapped =>
        refine ⟨(s.withFrame m ts).machine, ?_⟩
        simpa [MappedAs] using hp.mapped
      case pid =>
        have hpid : s'.pid = s.pid := hp.pid
        simp [hpid]
      case ppid =>
        rintro q hq
        cases hq
        by_cases h : p = ts
        · subst h
          simp
        · simp [h]
      case systemData => simp
      case context => simp
      case frame =>
        simp only [task_finishNewTask] at hframe
        simp only [task_readyTask, task_finishNewTask]
        exact hframe
      case current => rfl
    · exact absurd hr (by decide)

/-- `create_task` keeps its contract unless it finds a frame and no kernel stack, or all
steps succeed for a null parent. -/
theorem keepsContract_iff (hreturn : StepsReturn env parent flags s) :
    KeepsContract env parent flags priv s ↔
      ¬ OutOfStacks env s ∧ ¬ (parent = none ∧ StepsSucceed env parent flags s) := by
  obtain ⟨tsPage, m, halloc, hsteps⟩ := hreturn
  -- without a frame nothing was changed and `ENOMEM` is returned
  cases tsPage with
  | none =>
      have hframe : ¬ ∃ ts m, env.alloc GENERIC_KERNEL_PAGE true s.machine = .ok (some ts, m) := by
        rintro ⟨ts, m', heq⟩
        cases halloc.symm.trans heq
      refine iff_of_true ⟨_, _, _, createTask_noFrame halloc, .inr ⟨by decide, rfl⟩⟩
        ⟨fun h => hframe h.1, fun h => ?_⟩
      obtain ⟨ts, m', -, heq, -⟩ := h.2
      exact hframe ⟨ts, m', heq⟩
  | some ts =>
      obtain ⟨⟨r, s'⟩, hsetup⟩ := hsteps ts rfl
      -- the two defects: no stack left, and a success that has no parent to charge
      by_cases hstack : NoStackLeft s.mainStackCtx
      · rw [setupNewTask_exhausted (stack_withFrame.mpr hstack)] at hsetup
        refine iff_of_false ?_ fun h => h.1 ⟨⟨ts, m, halloc⟩, hstack⟩
        rintro ⟨r', newtask, s2, hrun, hout⟩
        rw [createTask_failed one_ne_zero halloc
          (setupNewTask_exhausted (stack_withFrame.mpr hstack))] at hrun
        cases hrun
        rcases hout with ⟨hr, -⟩ | ⟨hr, -⟩
        · exact absurd hr (by decide)
        · exact absurd hr (by decide)
      · have hw : (allocateTaskStack ts (s.withFrame m ts)).1 = 0 :=
          not_not.mp fun hne => hstack (stack_withFrame.mp hne)
        have hleft : ¬ OutOfStacks env s := fun h => hstack h.2
        rcases setupNewTask_cases hw hsetup with ⟨rfl, -⟩ | hr
        · cases parent with
          | none =>
              refine iff_of_false ?_ fun h => h.2 ⟨rfl, ts, m, s', halloc, hsetup⟩
              rintro ⟨r', newtask, s2, hrun, -⟩
              rw [createTask_nullParent halloc hsetup] at hrun
              cases hrun
          | some p =>
              obtain ⟨s2, hrun, hset⟩ : ∃ s2, createTask env (some p) flags priv s
                  = .ok (0, some ts, s2) ∧ SetUp env (some p) priv ts s s2 :=
                createTask_succeeded hstack halloc hsetup
              exact iff_of_true ⟨_, _, _, hrun, .inl ⟨rfl, ts, rfl, hset⟩⟩
                ⟨hleft, fun h => by cases h.1⟩
        · refine iff_of_true ⟨_, _, _, createTask_failed (Int.ne_of_lt hr) halloc hsetup,
            .inr ⟨hr, rfl⟩⟩ ⟨hleft, fun h => ?_⟩
          obtain ⟨ts', m', s2, halloc', hsetup'⟩ := h.2
          cases halloc.symm.trans halloc'
          cases hsetup.symm.trans hsetup'
          exact absurd hr (by decide)

/-- `kernel_thread` returns, in particular without an access through a null task, unless
`create_task` finds a frame and no kernel stack. -/
theorem kernelThread_returns_iff {current : PageIdx} {fn data : Uintptr}
    (hreturn : StepsReturn env (some current) CLONE_MM s) :
    (∃ x, kernelThread env current fn data s = .ok x) ↔ ¬ OutOfStacks env s := by
  have hcontract : KeepsContract env (some current) CLONE_MM .kernel s ↔ _ :=
    keepsContract_iff hreturn
  by_cases hout : OutOfStacks env s
  · obtain ⟨⟨ts, m, halloc⟩, hstack⟩ := hout
    refine iff_of_false ?_ fun h => h ⟨⟨ts, m, halloc⟩, hstack⟩
    rintro ⟨x, hx⟩
    rw [kernelThread, createTask_failed one_ne_zero halloc
      (setupNewTask_exhausted (stack_withFrame.mpr hstack))] at hx
    cases hx
  · refine iff_of_true ?_ hout
    obtain ⟨r, newtask, s', hrun, hend⟩ := hcontract.mpr ⟨hout, fun h => by cases h.1⟩
    rw [kernelThread, hrun, Loop.ok_bind]
    rcases hend with ⟨rfl, ts, rfl, -⟩ | ⟨hr, rfl⟩
    · exact ⟨_, rfl⟩
    · have hneg : ¬ r ≥ 0 := by
        rw [ge_iff_le, Int.not_le]
        exact hr
      simp only [hneg, if_false]
      exact ⟨_, rfl⟩

end Contract

/-- What the outcomes of the steps decide about `create_task` and `kernel_thread`. -/
theorem createTask_contract_iff (env : TaskEnv) (parent : Option PageIdx)
    (flags : TaskCreationFlags) (priv : TaskPrivelege) (current : PageIdx) (fn data : Uintptr)
    (s : TaskState) (hreturn : StepsReturn env parent flags s)
    (hthread : StepsReturn env (some current) CLONE_MM s) :
    (KeepsContract env parent flags priv s ↔
      ¬ OutOfStacks env s ∧ ¬ (parent = none ∧ StepsSucceed env parent flags s)) ∧
    ((∃ x, kernelThread env current fn data s = .ok x) ↔ ¬ OutOfStacks env s) :=
  ⟨keepsContract_iff hreturn, kernelThread_returns_iff hthread⟩

/-! ### A small machine -/

/-- The 16 frames from 16 on are free on processor 0. -/
def sixteenFrames : PageLists where
  links :=
    { next := fun l => some (match l with
        | .cachePages _ => .frame 16
        | .frame i => if i < 31 then .frame (i + 1) else .cachePages 0
        | l => l)
      prev := fun l => some (match l with
        | .cachePages _ => .frame 31
        | .frame i => if 16 < i then .frame (i - 1) else .cachePages 0
        | l => l) }
  caches := fun _ => ⟨16, 16⟩

/-- The root of the kernel's directory is in frame 10. -/
def smallEnv : TaskEnv where
  mapped := kernelWindow
  alloc := allocPage 0
  kernelPtDirectory := ⟨pframeToVirt 10⟩
  cpuId := 0
  rflags := 0x202
  kernelThreadHelper := 0xffffffff80101000
  childForkPath := 0xffffffff80102000

/-- Empty tables, and an idle task in frame 9. -/
def smallStart (ctx : KernelStackContext) : TaskState where
  machine := ⟨fun _ => .zero, sixteenFrames⟩
  mainStackCtx := ctx
  taskData := fun _ => ⟨⟨0, 0⟩, ⟨0, 0, stackOf 0, ⟨pframeToVirt 10⟩, ⟨0, 0⟩⟩⟩
  stackMem := fun _ => 0
  pid := 1
  kthread1 := none

theorem machine_smallStart (ctx : KernelStackContext) :
    (smallStart ctx).machine = ⟨fun _ => .zero, sixteenFrames⟩ := rfl

theorem mainStackCtx_smallStart (ctx : KernelStackContext) :
    (smallStart ctx).mainStackCtx = ctx := rfl

/-- The idle task creates a kernel thread with its own directory. -/
theorem createTask_contract_idle :
    (KeepsContract smallEnv (some 9) CLONE_MM .kernel
        (smallStart (initializeStackAllocatorContext fun _ => 0)) ↔
      ¬ OutOfStacks smallEnv (smallStart (initializeStackAllocatorContext fun _ => 0)) ∧
      ¬ (some (9 : PageIdx) = none ∧ StepsSucceed smallEnv (some 9) CLONE_MM
          (smallStart (initializeStackAllocatorContext fun _ => 0)))) ∧
    ((∃ x, kernelThread smallEnv 9 0xffffffff80103000 0
        (smallStart (initializeStackAllocatorContext fun _ => 0)) = .ok x) ↔
      ¬ OutOfStacks smallEnv (smallStart (initializeStackAllocatorContext fun _ => 0))) := by
  have hreturn : StepsReturn smallEnv (some 9) CLONE_MM
      (smallStart (initializeStackAllocatorContext fun _ => 0)) := by decide +kernel
  exact createTask_contract_iff smallEnv (some 9) CLONE_MM .kernel 9 0xffffffff80103000 0 _
    hreturn hreturn

/-- The context after `n` kernel stacks have been handed out. -/
def contextAfter (n : Nat) : KernelStackContext :=
  (kstackRun (List.replicate n (.alloc noStack)) (kstackStart fun _ => 0)).ctx

/-- After `n` allocations, the first `n` identifiers are handed out. -/
theorem handed_contextAfter (n : Nat) (hn : n ≤ BITMAP_ENTRIES_COUNT) :
    Handed n (contextAfter n) := by
  induction n with
  | zero => exact handed_start _
  | succ n ih =>
      have hn' := ih (Nat.le_of_succ_le hn)
      rw [contextAfter] at hn' ⊢
      rw [List.replicate_succ', kstackRun_append]
      generalize kstackRun (List.replicate n (.alloc noStack)) (kstackStart fun _ => 0) = s at hn' ⊢
      obtain ⟨ctx', hrun, h'⟩ := allocateKernelStack_lt hn' hn noStack
      have hctx : (kstackRun [.alloc noStack] s).ctx = ctx' := by
        simp [kstackRun, kstackStep, hrun]
      rwa [hctx]

/-- Once all of them are, no stack is left. -/
theorem noStackLeft_of_handed {ctx : KernelStackContext} (h : Handed BITMAP_ENTRIES_COUNT ctx) :
    NoStackLeft ctx := by
  have hfree := h.free
  exact .inl (BitVec.eq_of_toNat_eq (by simpa using hfree))

/-- With all kernel stacks handed out, `create_task` answers 1, and `kernel_thread` loads
through a null task. -/
theorem createTask_without_stack :
    ¬ KeepsContract smallEnv (some 9) CLONE_MM .kernel
        (smallStart (contextAfter BITMAP_ENTRIES_COUNT)) ∧
      kernelThread smallEnv 9 0xffffffff80103000 0
          (smallStart (contextAfter BITMAP_ENTRIES_COUNT))
        = .error (.pageFault HIGH_ADDRESS_OFFSET) := by
  have hfirst : (smallEnv.alloc GENERIC_KERNEL_PAGE true ⟨fun _ => .zero, sixteenFrames⟩).map
      Prod.fst = .ok (some 16) := by decide +kernel
  obtain ⟨m, halloc⟩ := Loop.exists_of_map_fst hfirst
  rw [← machine_smallStart (contextAfter BITMAP_ENTRIES_COUNT)] at halloc
  have hleft : NoStackLeft (smallStart (contextAfter BITMAP_ENTRIES_COUNT)).mainStackCtx := by
    rw [mainStackCtx_smallStart]
    exact noStackLeft_of_handed (handed_contextAfter _ (Nat.le_refl _))
  have hrun : createTask smallEnv (some 9) CLONE_MM .kernel
      (smallStart (contextAfter BITMAP_ENTRIES_COUNT)) = _ :=
    createTask_failed one_ne_zero halloc (setupNewTask_exhausted (stack_withFrame.mpr hleft))
  constructor
  · rintro ⟨r, newtask, s2, hrun', hend⟩
    cases hrun.symm.trans hrun'
    rcases hend with ⟨hr, -⟩ | ⟨hr, -⟩
    · exact absurd hr (by decide)
    · exact absurd hr (by decide)
  · rw [kernelThread, hrun]
    rfl

end MString
