import MString.Proofs.Eza.TaskPages
import MString.Proofs.Eza.TaskSwitches

/-!
# `MString.Proofs.Eza.ThreadRuns`: threads from their creation on

`TaskSwitches` takes the places of the tasks for granted. Here they are those that
`kernel_thread` gives them: the stack from `allocate_kernel_stack` and the task struct at
the bottom of its slot. Creations and switches interleave in any order.

* `slotPlaces`: the slots of the allocator are places that share no byte.
* `kernelThread_ok`: what a successful `kernel_thread` hands out, and where it writes.
* `ThreadStep` and `ThreadStep.kept`: what the system can do, and the invariant.
* `threads_served`: in every run, a new thread starts with its own arguments, one that has
  switched away goes on after its call, and a creation takes a slot that nobody uses.
-/

set_option autoImplicit false

namespace MString

open Amd64 ByteMemory

/-! ### The places -/

/-- A number that the allocator of kernel stacks can hand out. -/
abbrev Slot := Fin BITMAP_ENTRIES_COUNT

/-- Its stack. -/
def Slot.stack (t : Slot) : KernelStack := stackOf (BitVec.ofNat 32 t)

/-- Where `arch_context` stands in a `task_t`. -/
def ARCH_CONTEXT_OFFSET : Uintptr := 64

/-- The `arch_context_t` of the task whose struct is mapped below the stack. -/
def contextOf (stack : KernelStack) : Uintptr :=
  taskStructPage stack + TASK_OFFSET + ARCH_CONTEXT_OFFSET

/-- The context of `current_task()`. -/
def currentContext (c : Cpu) : Uintptr := archCurrentTask (c.reg .rsp) + ARCH_CONTEXT_OFFSET

/-- The place of the thread in the slot `t`. Its struct is named by the address below the
stack; the address of its frame in the kernel's window is another name for it. -/
def slotPlace (t : Slot) : TaskPlace :=
  ⟨t.stack.lowAddress, KERNEL_STACK_SIZE.toNat, contextOf t.stack⟩

/-- The context of a task stands 80 bytes into its slot. -/
theorem toNat_contextOf (t : Slot) : (contextOf t.stack).toNat = slotBase t + 80 := by
  have hpage := toNat_taskStructPage t.isLt
  have hlt := (toNat_stackOf t.isLt).2
  have hbound := (stackOf (BitVec.ofNat 32 t)).highAddress.isLt
  rw [contextOf, BitVec.toNat_add, BitVec.toNat_add, Slot.stack, hpage,
    show TASK_OFFSET.toNat = 16 from rfl, show ARCH_CONTEXT_OFFSET.toNat = 64 from rfl]
  omega

/-- The bytes of a stack, by their addresses. -/
theorem onStack_iff (t : Slot) (x : Addr) : (slotPlace t).OnStack x ↔
    slotBase t + 3 * 4096 ≤ x.toNat ∧ x.toNat < slotBase t + 7 * 4096 := by
  obtain ⟨hlow, hhigh⟩ := toNat_stackOf t.isLt
  have hbound := (stackOf (BitVec.ofNat 32 t)).highAddress.isLt
  have hsize : KERNEL_STACK_SIZE.toNat = 4 * 4096 := by decide
  have hx := x.isLt
  rw [TaskPlace.OnStack, slotPlace, hsize, BitVec.toNat_sub]
  simp only [Slot.stack]
  rw [hlow]
  omega

/-- So these are the addresses of a context. -/
theorem inContext_iff (t : Slot) (x : Addr) : (slotPlace t).InContext x ↔
    slotBase t + 80 ≤ x.toNat ∧ x.toNat < slotBase t + 96 := by
  have hcontext := toNat_contextOf t
  have hhigh := (toNat_stackOf t.isLt).2
  have hbound := (stackOf (BitVec.ofNat 32 t)).highAddress.isLt
  have hx := x.isLt
  rw [TaskPlace.InContext, slotPlace, BitVec.toNat_sub]
  simp only
  rw [hcontext]
  omega

/-- What a thread owns lies in its slot. -/
theorem inSlot_of_owns {t : Slot} {x : Addr} (h : (slotPlace t).Owns x) :
    slotBase t + 80 ≤ x.toNat ∧ x.toNat < slotBase t + 7 * 4096 := by
  rcases h with h | h
  · have := (onStack_iff t x).mp h
    omega
  · have := (inContext_iff t x).mp h
    omega

/-- The slots are apart. -/
theorem slot_unique {t u : Slot} {x : Nat} (ht : slotBase t ≤ x) (ht' : x < slotBase t + 2 ^ 15)
    (hu : slotBase u ≤ x) (hu' : x < slotBase u + 2 ^ 15) : t = u := by
  rcases Nat.lt_trichotomy t u with hlt | heq | hgt
  · have := slotBase_lt hlt u.isLt
    omega
  · exact Fin.ext heq
  · have := slotBase_lt hgt t.isLt
    omega

/-- Different slots have different stacks. -/
theorem slot_of_stack {t u : Slot} (h : t.stack = u.stack) : t = u := by
  have ht := (toNat_stackOf t.isLt).2
  have hu := (toNat_stackOf u.isLt).2
  rw [← Slot.stack, h, Slot.stack, hu] at ht
  exact slot_unique (x := slotBase u) (by omega) (by omega) (by omega) (by omega)

/-- The places of all threads that there can be. -/
def slotPlaces : TaskPlaces Slot where
  place := slotPlace
  apart := by
    intro t x hstack hcontext
    have hs := (onStack_iff t x).mp hstack
    have hc := (inContext_iff t x).mp hcontext
    omega
  disjoint := by
    intro t u x ht hu
    have h := inSlot_of_owns ht
    have h' := inSlot_of_owns hu
    exact slot_unique (x := x.toNat) (by omega) (by omega) (by omega) (by omega)

/-- On its own stack, `current_task()` finds the thread's own context. -/
theorem currentContext_eq {t : Slot} {c : Cpu}
    (hlow : slotBase t + 3 * 4096 ≤ (c.reg .rsp).toNat)
    (hhigh : (c.reg .rsp).toNat ≤ slotBase t + 7 * 4096) :
    currentContext c = (slotPlace t).context := by
  have hmod := slotBase_mod t.isLt
  have hpage : (c.reg .rsp) &&& KERNEL_STACK_MASK = taskStructPage t.stack := by
    apply BitVec.eq_of_toNat_eq
    rw [toNat_and_stackMask, Slot.stack, toNat_taskStructPage t.isLt]
    omega
  rw [currentContext, archCurrentTask, hpage]
  rfl

/-! ### What a creation hands out -/

section Creation

variable {env : TaskEnv} {ts : PageIdx} {parent : Option PageIdx} {flags : TaskCreationFlags}
  {priv : TaskPrivelege} {s s' : TaskState} {r : Status}

/-- What the steps of `create_new_task` leave of the words of the stacks, and of the
allocator: a failure gives nothing back, since `free_kernel_stack` does nothing. -/
structure OnlyStack (s s' : TaskState) (ctx : KernelStackContext) : Prop where
  words : s'.stackMem = s.stackMem
  ctx : s'.mainStackCtx = ctx

/-- `initialize_mm` writes to no stack, ... -/
theorem initializeMm_frame (h : initializeMm env parent ts flags s = (r, s')) :
    OnlyStack s s' s.mainStackCtx := by
  unfold initializeMm at h
  split at h
  · cases h
    exact ⟨rfl, rfl⟩
  · split at h
    · cases h
      exact ⟨rfl, rfl⟩
    · cases h
      exact ⟨rfl, rfl⟩

/-- ... nor does mapping pages into the task, ... -/
theorem mapIntoTask_frame {γ : Type} {pacc : PageFrameAccessor (γ × PageLists)} {c : γ}
    {virtAddr numPages : Uintptr}
    (h : mapIntoTask env pacc c ts virtAddr numPages s = .ok (r, s')) :
    OnlyStack s s' s.mainStackCtx := by
  obtain ⟨⟨r₁, m⟩, -, h⟩ := Loop.exists_of_bind h
  cases h
  exact ⟨rfl, rfl⟩

/-- ... mapping the task itself ... -/
theorem mapNewTask_frame (h : mapNewTask env ts s = .ok (r, s')) :
    OnlyStack s s' s.mainStackCtx := by
  obtain ⟨⟨stackPages, m⟩, -, h⟩ := Loop.exists_of_bind h
  cases stackPages with
  | none =>
      cases h
      exact ⟨rfl, rfl⟩
  | some first =>
      obtain ⟨⟨r₁, s₁⟩, hstack, h⟩ := Loop.exists_of_bind h
      have hframe := mapIntoTask_frame hstack
      dsimp only at h
      split at h
      · cases h
        exact ⟨hframe.words, hframe.ctx⟩
      · have hframe' := mapIntoTask_frame h
        exact ⟨hframe'.words.trans hframe.words, hframe'.ctx.trans hframe.ctx⟩

/-- ... or setting it up, which takes one slot of the allocator. -/
theorem setupNewTask_frame (h : setupNewTask env ts parent flags s = .ok (r, s')) :
    OnlyStack s s' (allocateTaskStack ts s).2.mainStackCtx := by
  rcases hstack : allocateTaskStack ts s with ⟨r₁, s₁⟩
  have hwords : s₁.stackMem = s.stackMem := by
    unfold allocateTaskStack at hstack
    cases hstack
    rfl
  rw [setupNewTask, hstack] at h
  dsimp only at h ⊢
  by_cases hr : r₁ = 0
  · rw [if_neg (not_not.mpr (if_neg (not_not.mpr hr)))] at h
    rcases hmm : initializeMm env parent ts flags s₁ with ⟨r₂, s₂⟩
    have hframe := initializeMm_frame hmm
    rw [hmm] at h
    dsimp only at h
    split at h
    · cases h
      exact ⟨hframe.words.trans hwords, hframe.ctx⟩
    · obtain ⟨⟨r₃, s₃⟩, hmap, h⟩ := Loop.exists_of_bind h
      have hframe' := mapNewTask_frame hmap
      dsimp only at h
      split at h <;> cases h <;>
        exact ⟨hframe'.words.trans (hframe.words.trans hwords), hframe'.ctx.trans hframe.ctx⟩
  · rw [if_pos (by rw [if_pos hr]; decide), if_pos hr] at h
    cases h
    exact ⟨hwords, rfl⟩

/-- Whatever `allocate_kernel_stack` answers, it uses up one number at most. -/
theorem Handed.after {n : Nat} {ctx : KernelStackContext} (h : Handed n ctx)
    (stack : KernelStack) : ∃ m, n ≤ m ∧ Handed m (allocateKernelStack ctx stack).2.2 := by
  have hle : n ≤ BITMAP_ENTRIES_COUNT := by
    have := h.free
    omega
  rcases Nat.lt_or_eq_of_le hle with hlt | rfl
  · obtain ⟨ctx', hrun, h'⟩ := allocateKernelStack_lt h hlt stack
    rw [hrun]
    exact ⟨n + 1, Nat.le_succ n, h'⟩
  · rw [allocateKernelStack_full h]
    exact ⟨_, Nat.le_refl _, h⟩

/-- `create_new_task` writes nothing to a stack. -/
theorem createNewTask_words {o : Option PageIdx}
    (h : createNewTask env parent flags priv s = .ok (r, o, s')) : s'.stackMem = s.stackMem := by
  obtain ⟨⟨tsPage, m⟩, -, h⟩ := Loop.exists_of_bind h
  cases tsPage with
  | none =>
      cases h
      rfl
  | some ts =>
      obtain ⟨⟨r₁, s₁⟩, hsetup, h⟩ := Loop.exists_of_bind h
      have hwords : s₁.stackMem = s.stackMem := (setupNewTask_frame hsetup).words
      dsimp only at h
      split at h
      · cases h
        exact hwords
      · cases parent with
        | none => cases h
        | some p =>
            cases h
            exact hwords

/-- A creation that hands back no task may have used up a number. -/
theorem createNewTask_none {n : Nat} (hn : Handed n s.mainStackCtx)
    (h : createNewTask env parent flags priv s = .ok (r, none, s')) :
    ∃ m, n ≤ m ∧ Handed m s'.mainStackCtx := by
  obtain ⟨⟨tsPage, m⟩, -, h⟩ := Loop.exists_of_bind h
  cases tsPage with
  | none =>
      cases h
      exact ⟨n, Nat.le_refl n, hn⟩
  | some ts =>
      obtain ⟨⟨r₁, s₁⟩, hsetup, h⟩ := Loop.exists_of_bind h
      dsimp only at h
      split at h
      · cases h
        rw [(setupNewTask_frame hsetup).ctx]
        exact hn.after _
      · cases parent with
        | none => cases h
        | some p => cases h

/-- What `create_task` returns is the outcome of `create_new_task`, with a first context
if it is a task. -/
theorem createTask_inv {o : Option PageIdx}
    (h : createTask env parent flags priv s = .ok (r, o, s')) :
    (∃ ts s₁, o = some ts ∧ r = 0 ∧ createNewTask env parent flags priv s = .ok (0, some ts, s₁)
        ∧ s' = readyTask env ts flags priv s₁)
      ∨ o = none ∧ createNewTask env parent flags priv s = .ok (r, none, s') := by
  obtain ⟨⟨r₁, newtask, s₁⟩, hnew, h⟩ := Loop.exists_of_bind h
  dsimp only at h
  split at h
  · case isTrue hr =>
      subst hr
      cases newtask with
      | none => cases h
      | some ts =>
          cases h
          exact .inl ⟨ts, s₁, rfl, rfl, hnew, rfl⟩
  · case isFalse hr =>
      cases newtask with
      | none =>
          have hnone : (if r₁ < 0 then none else none : Option PageIdx) = none := ite_self none
          change Except.ok (r₁, (if r₁ < 0 then none else none : Option PageIdx), s₁) = _ at h
          rw [hnone] at h
          cases h
          exact .inr ⟨rfl, hnew⟩
      | some ts => exact absurd (createNewTask_some hnew) hr

/-! ### Where a creation writes -/

/-- The words of a first context. -/
def InImage (highAddress a : Addr) : Prop := (a - imageBottom highAddress).toNat < 8 * IMAGE_WORDS

/-- A distance from the saved registers, counted from the lowest word. -/
theorem inImage_add (highAddress c : Uintptr) :
    InImage highAddress (highAddress - REGS_SIZE + c) ↔ (c + 888).toNat < 1040 := by
  have hdist : highAddress - REGS_SIZE + c - imageBottom highAddress = c + 888 := by
    rw [imageBottom, show (888 : Uintptr) = FX_DELTA + 16 from rfl]
    ring
  rw [InImage, hdist]
  rfl

/-- Every address is some distance from the saved registers. -/
theorem exists_stack_offset (highAddress a : Uintptr) : ∃ c, a = highAddress - REGS_SIZE + c :=
  ⟨a - (highAddress - REGS_SIZE), by ring⟩

/-- Outside of the first frame, the words on the stack are the old ones. -/
theorem firstWord_old {highAddress c old : Uintptr} (hout : ¬ (c + 888).toNat < 1040) :
    firstWord env priv highAddress c old = old := by
  have hne : ∀ d : Uintptr, (d + 888).toNat < 1040 → c ≠ d := by
    rintro d hd rfl
    exact hout hd
  have hfx : ¬ c + FX_DELTA < 512 := by
    rw [show FX_DELTA = 872 from rfl]
    bv_omega
  have hregs : ¬ c < REGS_SIZE := by
    rw [show REGS_SIZE = 152 from rfl]
    bv_omega
  rw [firstWord, if_neg (hne _ (by decide)), if_neg (hne _ (by decide)), if_neg hfx,
    if_neg (hne _ (by decide)), if_neg (hne _ (by decide)), if_neg (hne _ (by decide)),
    if_neg (hne _ (by decide)), if_neg (hne _ (by decide)), if_neg hregs]

/-- `arch_setup_task_context` and `kernel_thread` write nowhere else. -/
theorem threadArgs_old {fn data : Uintptr} {a : Uintptr}
    (hout : ¬ InImage (s.task ts).kernelStack.highAddress a) :
    threadArgs (s.task ts).kernelStack.highAddress fn data
      (archSetupTaskContext env ts flags priv s).2.stackMem a = s.stackMem a := by
  obtain ⟨c, rfl⟩ := exists_stack_offset (s.task ts).kernelStack.highAddress a
  have hc := mt (inImage_add _ c).mpr hout
  have hne : ∀ d : Uintptr, (d + 888).toNat < 1040 → c ≠ d := by
    rintro d hd rfl
    exact hc hd
  rw [threadArgs_add, if_neg (hne _ (by decide)), if_neg (hne _ (by decide)),
    stackMem_archSetupTaskContext, firstWord_old hc]

/-- The image of a thread is at the top of its stack. -/
theorem InImage.onStack {t : Slot} {a : Addr} (h : InImage t.stack.highAddress a) :
    (slotPlace t).OnStack a := by
  have hhigh := (toNat_stackOf t.isLt).2
  have hmod := slotBase_mod t.isLt
  obtain ⟨c, rfl⟩ := exists_stack_offset t.stack.highAddress a
  rw [inImage_add] at h
  rw [onStack_iff, show REGS_SIZE = 152 from rfl]
  rw [← Slot.stack] at hhigh
  generalize t.stack.highAddress = high at hhigh ⊢
  bv_omega

/-- What a `kernel_thread` that does not fail has done, if `n` numbers were used up. -/
structure ThreadCreated (env : TaskEnv) (fn data : Uintptr) (n : Nat) (t : Slot) (ts : PageIdx)
    (s s' : TaskState) : Prop where
  current : s'.kthread1 = some ts
  slot : t.val = n
  stack : (s'.task ts).kernelStack = t.stack
  handed : Handed (n + 1) s'.mainStackCtx
  frame : ∃ w, FirstFrame env .kernel t.stack.highAddress w ∧
    s'.stackMem = threadArgs t.stack.highAddress fn data w
  rsp : (s'.task ts).archContext.rsp = imageBottom t.stack.highAddress
  writes : ∀ a, s'.stackMem a ≠ s.stackMem a → (slotPlace t).OnStack a

/-- The writes of `kernel_thread` to the task that `create_task` has made ready. -/
def withArgs (env : TaskEnv) (t : Slot) (ts : PageIdx) (fn data : Uintptr) (s : TaskState) :
    TaskState :=
  { readyTask env ts CLONE_MM .kernel s with
    stackMem := threadArgs t.stack.highAddress fn data
      (archSetupTaskContext env ts CLONE_MM .kernel s).2.stackMem }

/-- Storing the arguments of a thread changes no task's data. -/
theorem taskData_withArgs {t : Slot} {fn data : Uintptr} :
    (withArgs env t ts fn data s).taskData = (readyTask env ts CLONE_MM .kernel s).taskData := rfl

/-- A ready task with these arguments is a thread that was created. -/
theorem withArgs_created {t : Slot} {fn data : Uintptr} {s₁ : TaskState}
    (hstack : (s₁.task ts).kernelStack = t.stack) (hwords : s₁.stackMem = s.stackMem)
    (hhanded : Handed (t + 1) s₁.mainStackCtx) :
    ThreadCreated env fn data t t ts s (withArgs env t ts fn data s₁) := by
  have htask : (withArgs env t ts fn data s₁).task ts
      = (readyTask env ts CLONE_MM .kernel s₁).task ts := by
    rw [TaskState.task, taskData_withArgs, TaskState.task]
  have hframe := firstFrame env ts CLONE_MM .kernel s₁
  rw [hstack] at hframe
  rw [task_readyTask, hstack] at htask
  constructor
  case current => rfl
  case slot => rfl
  case stack =>
    rw [htask]
    exact hstack
  case handed => exact hhanded
  case frame => exact ⟨_, hframe, rfl⟩
  case rsp => rw [htask, imageBottom]
  case writes =>
    intro a ha
    refine InImage.onStack (not_not.mp fun hout => ha ?_)
    rw [← hstack] at hout
    have hold := @threadArgs_old env ts CLONE_MM .kernel s₁ fn data a hout
    rw [hstack] at hold
    exact hold.trans (congrFun hwords a)

/-- `kernel_thread` hands out the next slot and writes to its stack only. -/
theorem kernelThread_created {n : Nat} {current : PageIdx} {fn data : Uintptr}
    (hn : Handed n s.mainStackCtx) (h : kernelThread env current fn data s = .ok (r, s'))
    (hr : 0 ≤ r) : ∃ t ts, ThreadCreated env fn data n t ts s s' := by
  obtain ⟨⟨r₁, newtask, s₂⟩, hcreate, h⟩ := Loop.exists_of_bind h
  dsimp only at h
  split at h
  · rcases createTask_inv hcreate with ⟨ts, s₁, rfl, -, hnew, rfl⟩ | ⟨rfl, -⟩
    · have hwords := createNewTask_words hnew
      obtain ⟨m, s₀, -, -, hprep, rfl⟩ := createNewTask_ok hnew
      obtain ⟨hlt, hstack, hnext⟩ := hn.next hprep.stack
      let t : Slot := ⟨n, hlt⟩
      have hstack' : ((finishNewTask env ts current s₀).task ts).kernelStack = t.stack := by
        rw [task_finishNewTask]
        exact hstack
      have hready : ((readyTask env ts CLONE_MM .kernel
          (finishNewTask env ts current s₀)).task ts).kernelStack = t.stack := by
        rw [task_readyTask, hstack']
      have hargs : s' = withArgs env t ts fn data (finishNewTask env ts current s₀) := by
        cases h
        rw [hready]
        rfl
      exact ⟨t, ts, hargs ▸ withArgs_created hstack' hwords hnext⟩
    · cases h
  · case isFalse hneg =>
      cases h
      exact absurd hr hneg

/-- One that fails has written nothing to a stack. -/
theorem kernelThread_failed {n : Nat} {current : PageIdx} {fn data : Uintptr}
    (hn : Handed n s.mainStackCtx) (h : kernelThread env current fn data s = .ok (r, s'))
    (hr : r < 0) : s'.stackMem = s.stackMem ∧ ∃ m, n ≤ m ∧ Handed m s'.mainStackCtx := by
  obtain ⟨⟨r₁, newtask, s₂⟩, hcreate, h⟩ := Loop.exists_of_bind h
  dsimp only at h
  split at h
  · case isTrue hpos =>
      cases newtask with
      | none => cases h
      | some ts =>
          cases h
          exact absurd hr (Int.not_lt.mpr hpos)
  · rcases createTask_inv hcreate with ⟨ts, s₁, rfl, rfl, -, -⟩ | ⟨rfl, hnew⟩
    · cases h
      exact absurd hr (by decide)
    · cases h
      exact ⟨createNewTask_words hnew, createNewTask_none hn hnew⟩

end Creation

/-! ### The system -/

/-- One processor, its threads, and what the kernel keeps about them. -/
structure ThreadSystem where
  tasks : TaskSystem Slot
  kernel : TaskState
  /-- What a thread that has not run yet was created with. -/
  args : Slot → Uintptr × Uintptr

namespace ThreadSystem

/-- The thread waits for its first or its next turn. -/
def Waits (s : ThreadSystem) (t : Slot) : Prop := s.tasks.asleep t ≠ none ∨ s.tasks.prepared t

/-- There is a thread in the slot. -/
def Uses (s : ThreadSystem) (t : Slot) : Prop := t = s.tasks.running ∨ s.Waits t

/-- The memory `m` has what the waiting threads own. -/
def KeepsWaiting (s : ThreadSystem) (m : Memory) : Prop :=
  ∀ t, s.Waits t → ∀ x, (slotPlace t).Owns x → m x = s.tasks.cpu.mem x

end ThreadSystem

/-- The word that a byte belongs to. -/
def wordOf (x : Addr) : Addr := x - BitVec.ofNat 64 (x.toNat % 8)

/-- The memory after a creation, which is a run of code on the running thread's stack: it
has the image and the context of the new thread, and a byte that a waiting thread owns is
the old one unless the creation has written its word. -/
structure Written (s : ThreadSystem) (k : TaskState) (ts : PageIdx) (m : Memory) : Prop where
  image : Carries m k.stackMem (imageBottom (k.task ts).kernelStack.highAddress) IMAGE_WORDS
  rsp : load m (contextOf (k.task ts).kernelStack + CONTEXT_RSP) = (k.task ts).archContext.rsp
  keeps : ∀ t, s.Waits t → ∀ x, (slotPlace t).Owns x →
    k.stackMem (wordOf x) = s.kernel.stackMem (wordOf x) → m x = s.tasks.cpu.mem x

/-- What the system can do. -/
inductive ThreadStep (env : ContextEnv) (tenv : TaskEnv) : ThreadSystem → ThreadSystem → Prop
  /-- The running thread does anything else. -/
  | work {s : ThreadSystem} (c : Cpu) (keeps : s.KeepsWaiting c.mem) :
      ThreadStep env tenv s { s with tasks := { s.tasks with cpu := c } }
  /-- It calls `kernel_thread`, which creates the thread `t`. -/
  | spawn {s : ThreadSystem} (t : Slot) (ts current : PageIdx) (fn data : Uintptr) (r : Status)
      (k : TaskState) (c : Cpu) (call : kernelThread tenv current fn data s.kernel = .ok (r, k))
      (success : 0 ≤ r) (new : k.kthread1 = some ts) (slot : (k.task ts).kernelStack = t.stack)
      (written : Written s k ts c.mem) :
      ThreadStep env tenv s
        { tasks := { s.tasks with
            cpu := c, prepared := fun u => u = t ∨ s.tasks.prepared u }
          kernel := k
          args := Function.update s.args t (fn, data) }
  /-- It calls `kernel_thread`, which fails. -/
  | fail {s : ThreadSystem} (current : PageIdx) (fn data : Uintptr) (r : Status)
      (k : TaskState) (c : Cpu) (call : kernelThread tenv current fn data s.kernel = .ok (r, k))
      (failure : r < 0) (keeps : s.KeepsWaiting c.mem) :
      ThreadStep env tenv s { s with tasks := { s.tasks with cpu := c }, kernel := k }
  /-- It activates the thread `t`. -/
  | switch {s : ThreadSystem} (t : Slot) (next : Word) (c : Cpu) (other : t ≠ s.tasks.running)
      (waits : s.Waits t) (room : s.tasks.Room slotPlaces)
      (call : archActivateTask env (currentContext s.tasks.cpu) (slotPlace t).context next
        s.tasks.cpu = some c) :
      ThreadStep env tenv s
        { s with tasks :=
          { cpu := c
            running := t
            asleep := Function.update (Function.update s.tasks.asleep s.tasks.running
              (some (activateArgs (currentContext s.tasks.cpu) (slotPlace t).context s.tasks.cpu,
                next))) t none
            prepared := fun u => u ≠ t ∧ s.tasks.prepared u } }

/-! ### The invariant -/

/-- The stack pointer of a thread with room for a switch is on its stack, or just above. -/
theorem room_rsp {s : ThreadSystem} (h : s.tasks.Room slotPlaces) :
    currentContext s.tasks.cpu = (slotPlace s.tasks.running).context := by
  have hsize := toNat_sub_sleepBottom (s.tasks.cpu.reg .rsp)
  have hone : (1 : Addr).toNat = 1 := rfl
  have hpos : 24 ≤ sleepSize (s.tasks.cpu.reg .rsp) := Nat.le_add_left _ _
  -- the last byte that a switch writes is the one below the stack pointer
  have hlast := h (s.tasks.cpu.reg .rsp - 1) (by
    rw [sub_right_comm, BitVec.toNat_sub, hsize, hone]
    have := savedSize_lt (s.tasks.cpu.reg .rsp - 16)
    rw [sleepSize] at hsize hpos ⊢
    omega)
  have hlast' := (onStack_iff s.tasks.running _).mp hlast
  have hhigh := (toNat_stackOf s.tasks.running.isLt).2
  have hbound := (stackOf (BitVec.ofNat 32 s.tasks.running)).highAddress.isLt
  rw [BitVec.toNat_sub, hone] at hlast'
  have hrsp := (s.tasks.cpu.reg .rsp).isLt
  refine currentContext_eq ?_ ?_ <;> omega

/-- A thread that has not run yet has its first context on its own stack. -/
structure ReadyAt (tenv : TaskEnv) (t : Slot) (m : Memory) (fn data : Uintptr) : Prop where
  image : ∃ w, FirstFrame tenv .kernel t.stack.highAddress w ∧
    Carries m (threadArgs t.stack.highAddress fn data w) (imageBottom t.stack.highAddress)
      IMAGE_WORDS
  rsp : load m ((slotPlace t).context + CONTEXT_RSP) = imageBottom t.stack.highAddress

/-- What the thread owns decides whether it is ready. -/
theorem ReadyAt.of_owns {tenv : TaskEnv} {t : Slot} {m m' : Memory} {fn data : Uintptr}
    (h : ReadyAt tenv t m fn data) (hm : ∀ x, (slotPlace t).Owns x → m' x = m x) :
    ReadyAt tenv t m' fn data := by
  obtain ⟨w, hframe, himage⟩ := h.image
  refine ⟨⟨w, hframe, himage.of_agree (by decide) fun x hx => hm x (.inl ?_)⟩, ?_⟩
  · exact InImage.onStack hx
  · rw [load_congr fun x hx => hm x (.inr ((slotPlace t).slot_inContext hx)), h.rsp]

/-- Every waiting thread can go on, and the allocator has not come to the end of what is
unused. -/
structure ThreadsKept (env : ContextEnv) (tenv : TaskEnv) (s : ThreadSystem) : Prop where
  parked : AllParked env slotPlaces s.tasks
  ready : ∀ t, s.tasks.prepared t → ReadyAt tenv t s.tasks.cpu.mem (s.args t).1 (s.args t).2
  idle : ¬ s.tasks.prepared s.tasks.running
  unused : ∃ n, Handed n s.kernel.mainStackCtx ∧ ∀ t : Slot, n ≤ t → ¬ s.Uses t

section Steps

variable {env : ContextEnv} {tenv : TaskEnv} {s s' : ThreadSystem}

/-- A waiting thread stays ready when nobody writes to its stack. -/
theorem ThreadsKept.ready_of_keeps (h : ThreadsKept env tenv s) {m : Memory}
    (hm : s.KeepsWaiting m) {t : Slot} (ht : s.tasks.prepared t) :
    ReadyAt tenv t m (s.args t).1 (s.args t).2 :=
  (h.ready t ht).of_owns (hm t (.inr ht))

/-- A byte and its word lie in the same slot. -/
theorem wordOf_owned {t u : Slot} {x : Addr} (hu : (slotPlace u).Owns x)
    (ht : (slotPlace t).OnStack (wordOf x)) : t = u := by
  have hmod := slotBase_mod u.isLt
  have hx := inSlot_of_owns hu
  have hw := (onStack_iff t _).mp ht
  have hle : BitVec.ofNat 64 (x.toNat % 8) ≤ x := by
    rw [BitVec.le_def, BitVec.toNat_ofNat]
    omega
  rw [wordOf, BitVec.toNat_sub_of_le hle, BitVec.toNat_ofNat] at hw
  exact slot_unique (x := x.toNat - x.toNat % 8) (by omega) (by omega) (by omega) (by omega)

/-- A creation in a slot that nobody waits in keeps what the waiting threads own. -/
theorem Written.keepsWaiting {k : TaskState} {ts : PageIdx} {m : Memory} {t : Slot}
    (h : Written s k ts m) (ht : ¬ s.Waits t)
    (hwrites : ∀ a, k.stackMem a ≠ s.kernel.stackMem a → (slotPlace t).OnStack a) :
    s.KeepsWaiting m := by
  intro u hu x hx
  refine h.keeps u hu x hx (not_not.mp fun hne => ht ?_)
  rw [wordOf_owned hx (hwrites _ hne)]
  exact hu

/-- Every step keeps the invariant. -/
theorem ThreadStep.kept (h : ThreadStep env tenv s s') (hs : ThreadsKept env tenv s) :
    ThreadsKept env tenv s' := by
  obtain ⟨n, hn, hunused⟩ := hs.unused
  cases h with
  | work c keeps =>
      refine ⟨⟨hs.parked.awake, ?_⟩, ?_, hs.idle, n, hn, hunused⟩
      · exact hs.parked.of_keepsAsleep fun t ht => keeps t (.inl ht)
      · exact fun t ht => hs.ready_of_keeps keeps ht
  | spawn t ts current fn data r k c call success new slot written =>
      obtain ⟨u, tu, hcreated⟩ := kernelThread_created hn call success
      -- the slot in the constructor is the one that the allocator has handed out
      obtain rfl : tu = ts := Option.some_inj.mp (hcreated.current.symm.trans new)
      obtain rfl : u = t := slot_of_stack (hcreated.stack.symm.trans slot)
      have hfree : ¬ s.Uses u := hunused u (Nat.le_of_eq hcreated.slot.symm)
      have hkeeps : s.KeepsWaiting c.mem :=
        written.keepsWaiting (fun hw => hfree (.inr hw)) hcreated.writes
      refine ⟨⟨hs.parked.awake, ?_⟩, ?_, ?_, n + 1, hcreated.handed, ?_⟩
      · exact hs.parked.of_keepsAsleep fun t ht => hkeeps t (.inl ht)
      · intro v hv
        dsimp only at hv ⊢
        by_cases hvu : v = u
        · subst hvu
          rw [Function.update_self]
          obtain ⟨w, hframe, hwords⟩ := hcreated.frame
          have himage := written.image
          rw [hcreated.stack, hwords] at himage
          refine ⟨⟨w, hframe, himage⟩, ?_⟩
          rw [← hcreated.rsp, ← written.rsp, hcreated.stack]
          rfl
        · rw [Function.update_of_ne hvu]
          exact hs.ready_of_keeps hkeeps (hv.resolve_left hvu)
      · rintro (hrun | hprep)
        · exact hfree (.inl hrun.symm)
        · exact hs.idle hprep
      · intro v hv hused
        have hvn := hunused v (by omega)
        rcases hused with hrun | hwaits | rfl | hprep
        · exact hvn (.inl hrun)
        · exact hvn (.inr (.inl hwaits))
        · rw [hcreated.slot] at hv
          omega
        · exact hvn (.inr (.inr hprep))
  | fail current fn data r k c call failure keeps =>
      obtain ⟨-, m, hnm, hm⟩ := kernelThread_failed hn call failure
      refine ⟨⟨hs.parked.awake, ?_⟩, ?_, hs.idle, m, hm, fun t ht => ?_⟩
      · exact hs.parked.of_keepsAsleep fun t ht => keeps t (.inl ht)
      · exact fun t ht => hs.ready_of_keeps keeps ht
      · exact hunused t (Nat.le_trans hnm ht)
  | switch t next c other waits room call =>
      rw [room_rsp room] at call ⊢
      obtain ⟨-, -, hout⟩ := archActivateTask_parks room.slotApart call
      have hstep : SwitchStep env tenv slotPlaces s.tasks _ :=
        .switch t next c other waits room call
      refine ⟨hstep.allParked hs.parked, ?_, fun hidle => hidle.1 rfl, n, hn, ?_⟩
      · rintro u ⟨hut, hu⟩
        have hrun : u ≠ s.tasks.running := fun heq => hs.idle (heq ▸ hu)
        refine (hs.ready u hu).of_owns fun x hx => ?_
        exact hout x (room.misses hrun hx).1 (room.misses hrun hx).2
      · intro u hu hused
        refine hunused u hu ?_
        rcases hused with rfl | hasleep | ⟨-, hprep⟩
        · exact .inr waits
        · dsimp only at hasleep
          by_cases hut : u = t
          · exact .inr (hut ▸ waits)
          · rw [Function.update_of_ne hut] at hasleep
            by_cases hrun : u = s.tasks.running
            · exact .inl hrun
            · rw [Function.update_of_ne hrun] at hasleep
              exact .inr (.inl hasleep)
        · exact .inr (.inr hprep)

/-! ### What the threads can rely on -/

/-- The kernel before the first `kernel_thread`: the running thread has one of the stacks
that were handed out, and no other thread waits. -/
structure FirstThread (s : ThreadSystem) : Prop where
  handed : ∃ n, Handed n s.kernel.mainStackCtx ∧ s.tasks.running < n
  fresh : s.tasks.Fresh
  none : ∀ t, ¬ s.tasks.prepared t

/-- The invariant holds at the start. -/
theorem FirstThread.kept (h : FirstThread s) : ThreadsKept env tenv s := by
  obtain ⟨n, hn, hrun⟩ := h.handed
  refine ⟨⟨h.fresh _, ?_⟩, fun t ht => absurd ht (h.none t), h.none _, n, hn, ?_⟩
  · intro t c next ht
    rw [h.fresh t] at ht
    cases ht
  · rintro t ht (rfl | hasleep | hprep)
    · exact Nat.not_lt.mpr ht hrun
    · exact hasleep (h.fresh t)
    · exact h.none t hprep

/-- The run lemma. -/
theorem threadsKept_run (hstart : FirstThread s)
    (hrun : Relation.ReflTransGen (ThreadStep env tenv) s s') : ThreadsKept env tenv s' := by
  induction hrun with
  | refl => exact hstart.kept
  | tail _ hstep ih => exact hstep.kept ih

end Steps

/-- Whatever thread is activated goes on as it should, and a creation takes a slot that no
thread uses. -/
structure ThreadsServed (env : ContextEnv) (tenv : TaskEnv) (s : ThreadSystem) : Prop where
  starts : ∀ t next, s.tasks.prepared t → s.tasks.Room slotPlaces →
    ∃ c, archActivateTask env (currentContext s.tasks.cpu) (slotPlace t).context next s.tasks.cpu
        = some c ∧ Started tenv t.stack.highAddress (s.args t).1 (s.args t).2 c
  resumes : ∀ t c₀ next₀ next, s.tasks.asleep t = some (c₀, next₀) → s.tasks.Room slotPlaces →
    ∃ c, archActivateTask env (currentContext s.tasks.cpu) (slotPlace t).context next s.tasks.cpu
        = some c ∧ c.reg = c₀.reg ∧ c.fx = c₀.fx ∧ c.rip = next₀
  fresh : ∀ current fn data r k,
    kernelThread tenv current fn data s.kernel = .ok (r, k) → 0 ≤ r →
    ∃ ts t, k.kthread1 = some ts ∧ (k.task ts).kernelStack = Slot.stack t ∧ ¬ s.Uses t ∧
      ∀ a, k.stackMem a ≠ s.kernel.stackMem a → (slotPlace t).OnStack a

/-- In every run of creations, switches and other work, all threads are served. -/
theorem threads_served (env : ContextEnv) (tenv : TaskEnv) (s₀ s : ThreadSystem)
    (hpath : tenv.childForkPath = env.childForkPath)
    (hloadable : env.loadable ((gdtselector KTEXT_DES).setWidth 16)
      ((gdtselector KDATA_DES).setWidth 16) = true)
    (hstart : FirstThread s₀) (hrun : Relation.ReflTransGen (ThreadStep env tenv) s₀ s) :
    ThreadsServed env tenv s := by
  have hkept := threadsKept_run hstart hrun
  constructor
  -- A thread that was created and has not run yet.
  case starts =>
    intro t next ht hroom
    have hne : t ≠ s.tasks.running := fun heq => hkept.idle (heq ▸ ht)
    have hready := hkept.ready t ht
    obtain ⟨w, hframe, himage⟩ := hready.image
    have hmod := slotBase_mod t.isLt
    have haligned : t.stack.highAddress.toNat % 4096 = 0 := by
      rw [Slot.stack, (toNat_stackOf t.isLt).2]
      omega
    rw [room_rsp hroom]
    exact archActivateTask_starts hpath hloadable haligned hframe himage hready.rsp
      hroom.slotApart fun x hx => hroom.misses hne (.inl (InImage.onStack hx))
  -- A thread that has run and gone to sleep.
  case resumes =>
    intro t c₀ next₀ next hasleep hroom
    have hparked := hkept.parked.parked t c₀ next₀ hasleep
    have hne : t ≠ s.tasks.running := by
      rintro rfl
      rw [hkept.parked.awake] at hasleep
      cases hasleep
    rw [room_rsp hroom]
    exact archActivateTask_wakes hroom.slotApart hparked.rsp hparked.asleep fun x hx =>
      hroom.misses hne (.inl (hparked.inside x hx))
  -- A new thread takes a slot that no other one has.
  case fresh =>
    intro current fn data r k hcall hr
    obtain ⟨n, hn, hunused⟩ := hkept.unused
    obtain ⟨t, ts, hcreated⟩ := kernelThread_created hn hcall hr
    exact ⟨ts, t, hcreated.current, hcreated.stack, hunused t (Nat.le_of_eq hcreated.slot.symm),
      hcreated.writes⟩

/-! ### The idle task and a thread -/

/-- There is a slot. -/
theorem slots_pos : 0 < BITMAP_ENTRIES_COUNT := by decide

/-- The idle task runs on the first stack. -/
def idleSystem : ThreadSystem where
  tasks :=
    { cpu := { firstCpu (fun _ => 0) with reg := fun _ => (stackOf 0).highAddress - 512 }
      running := ⟨0, slots_pos⟩
      asleep := fun _ => none
      prepared := fun _ => False }
  kernel := smallStart (contextAfter 1)
  args := fun _ => (0, 0)

/-- The idle system starts with one thread. -/
theorem firstThread_idleSystem : FirstThread idleSystem where
  handed := ⟨1, handed_contextAfter 1 (by decide), Nat.zero_lt_one⟩
  fresh := fun _ => rfl
  none := fun _ => id

/-- A memory that a creation can leave. -/
def memoryAfter (k : TaskState) (ts : PageIdx) : Memory :=
  ofWords fun a =>
    if a = contextOf (k.task ts).kernelStack + CONTEXT_RSP then (k.task ts).archContext.rsp
    else k.stackMem a

/-- The memory after a creation in it. -/
theorem written_idleSystem {env : TaskEnv} {fn data : Uintptr} {n : Nat} {t : Slot} {ts : PageIdx}
    {k : TaskState} (h : ThreadCreated env fn data n t ts idleSystem.kernel k) :
    Written idleSystem k ts (memoryAfter k ts) := by
  have hcontext := toNat_contextOf t
  have hmod := slotBase_mod t.isLt
  have hhigh := (toNat_stackOf t.isLt).2
  have hbound := (stackOf (BitVec.ofNat 32 t)).highAddress.isLt
  have hslot : (contextOf t.stack + CONTEXT_RSP).toNat = slotBase t + 88 := by
    rw [BitVec.toNat_add, hcontext, show CONTEXT_RSP.toNat = 8 from rfl]
    omega
  have hbottom : (imageBottom t.stack.highAddress).toNat % 8 = 0 := by
    rw [imageBottom, show REGS_SIZE = 152 from rfl, show FX_DELTA = 872 from rfl]
    rw [← Slot.stack] at hhigh
    generalize t.stack.highAddress = high at hhigh ⊢
    bv_omega
  constructor
  case image =>
    intro i hi
    -- the image is on the stack, and the context is not
    have hword : BitVec.ofNat 64 (8 * i) + imageBottom t.stack.highAddress
        - imageBottom t.stack.highAddress = BitVec.ofNat 64 (8 * i) := by ring
    have hin : InImage t.stack.highAddress
        (imageBottom t.stack.highAddress + BitVec.ofNat 64 (8 * i)) := by
      rw [InImage, add_comm, hword, BitVec.toNat_ofNat]
      omega
    have hon := (onStack_iff t _).mp hin.onStack
    rw [memoryAfter, carries_ofWords _ (h.stack ▸ hbottom) IMAGE_WORDS i hi, if_neg]
    rw [h.stack]
    intro heq
    rw [heq] at hon
    omega
  case rsp =>
    rw [memoryAfter, load_ofWords _ (by rw [h.stack]; omega), if_pos rfl]
  case keeps =>
    intro u hu
    rcases hu with hu | hu
    · exact absurd rfl hu
    · exact absurd hu id

/-- A switch from the idle task's stack pointer leaves its 1040 bytes on the first stack. -/
theorem room_idle {x : Addr} (hx : (x - sleepBottom ((stackOf 0).highAddress - 512)).toNat
    < sleepSize ((stackOf 0).highAddress - 512)) :
    (slotPlace ⟨0, slots_pos⟩).OnStack x := by
  have hbottom : sleepBottom ((stackOf 0).highAddress - 512) = 18446744071562062320 := by decide
  have hsize : sleepSize ((stackOf 0).highAddress - 512) = 1040 := by decide
  have hlow : (stackOf 0).lowAddress = 18446744071562047488 := by decide
  rw [hbottom, hsize] at hx
  show (x - (stackOf 0).lowAddress).toNat < 0x4000
  rw [hlow]
  bv_omega

/-- The idle task has created the thread `t`. -/
def spawnedSystem (t : Slot) (ts : PageIdx) (k : TaskState) : ThreadSystem where
  tasks :=
    { idleSystem.tasks with
      cpu := { idleSystem.tasks.cpu with mem := memoryAfter k ts }
      prepared := fun u => u = t ∨ idleSystem.tasks.prepared u }
  kernel := k
  args := Function.update idleSystem.args t (0xffffffff80103000, 7)

/-- The running thread of the system with the new thread has room for a switch. -/
theorem room_spawnedSystem (t : Slot) (ts : PageIdx) (k : TaskState) :
    (spawnedSystem t ts k).tasks.Room slotPlaces := fun x hx => by
  have hrsp : (spawnedSystem t ts k).tasks.cpu.reg .rsp = (stackOf 0).highAddress - 512 := rfl
  rw [hrsp] at hx
  exact room_idle hx

/-- The idle task creates a thread and switches to it. The thread runs in the state in which
`kernel_thread` has promised it to start, and the idle task sleeps. -/
theorem threads_served_idle : ∃ t s,
    Relation.ReflTransGen (ThreadStep topEnv smallEnv) idleSystem s ∧ s.tasks.running = t
      ∧ Started smallEnv t.stack.highAddress 0xffffffff80103000 7 s.tasks.cpu
      ∧ s.tasks.asleep ⟨0, slots_pos⟩ ≠ none ∧ ThreadsServed topEnv smallEnv s := by
  -- `kernel_thread` runs on the example, and it succeeds.
  have hfirst : (kernelThread smallEnv 9 0xffffffff80103000 7 idleSystem.kernel).map Prod.fst
      = .ok 0 := by decide +kernel
  obtain ⟨k, hcall⟩ := Loop.exists_of_map_fst hfirst
  obtain ⟨t, ts, hcreated⟩ :=
    kernelThread_created (handed_contextAfter 1 (by decide)) hcall (Int.le_refl 0)
  -- Its creation is the first step of the run.
  have hspawn : ThreadStep topEnv smallEnv idleSystem (spawnedSystem t ts k) :=
    .spawn t ts 9 0xffffffff80103000 7 0 k { idleSystem.tasks.cpu with mem := memoryAfter k ts }
      hcall (Int.le_refl 0) hcreated.current hcreated.stack (written_idleSystem hcreated)
  have hserved := threads_served topEnv smallEnv idleSystem _ rfl (by decide)
    firstThread_idleSystem (.single hspawn)
  have hprepared : (spawnedSystem t ts k).tasks.prepared t := Or.inl rfl
  have hidle : (⟨0, slots_pos⟩ : Slot) ≠ t := fun heq =>
    absurd (hcreated.slot.symm.trans (congrArg Fin.val heq.symm)) (by decide)
  have hother : t ≠ (spawnedSystem t ts k).tasks.running := Ne.symm hidle
  have hargs : (spawnedSystem t ts k).args t = (0xffffffff80103000, 7) := Function.update_self ..
  -- The thread that was created is served, so a switch to it starts it.
  obtain ⟨c, hswitch, hstarted⟩ :=
    hserved.starts t 0x40 hprepared (room_spawnedSystem t ts k)
  rw [hargs] at hstarted
  have hrun := (Relation.ReflTransGen.single hspawn).tail
    (.switch t 0x40 c hother (.inr hprepared) (room_spawnedSystem t ts k) hswitch)
  refine ⟨t, _, hrun, rfl, hstarted, ?_, threads_served topEnv smallEnv idleSystem _ rfl (by decide)
    firstThread_idleSystem hrun⟩
  dsimp only
  -- And the idle task that ran before is asleep.
  rw [Function.update_of_ne hidle]
  intro hnone
  rw [show (⟨0, slots_pos⟩ : Slot) = (spawnedSystem t ts k).tasks.running from rfl,
    Function.update_self] at hnone
  cases hnone

end MString
