import MString.Proofs.Eza.FirstRun
import Mathlib.Logic.Relation

/-!
# `MString.Proofs.Eza.TaskSwitches`: any sequence of switches

A system of tasks whose stacks and contexts share no byte. Between two switches the
running task does what it likes, save writing to the stack or the context of a task that
sleeps. It may prepare further tasks with `arch_setup_task_context`, and it may call
`arch_activate_task` for any other task that sleeps or is prepared.

* `SwitchStep`: what the system can do.
* `AllParked`: every sleeping task has its context on its own stack; `SwitchStep.allParked`
  keeps it.
* `switches_resume`: in every run, activating a task that sleeps goes on after its call.
-/

set_option autoImplicit false

namespace MString

open Amd64 ByteMemory

/-! ### The system -/

/-- Where a task has its stack and its `arch_context_t`. -/
structure TaskPlace where
  low : Addr
  size : Nat
  context : Addr

/-- The byte is on the task's stack. -/
def TaskPlace.OnStack (p : TaskPlace) (x : Addr) : Prop := (x - p.low).toNat < p.size

/-- The byte is in the task's context, which has two words. -/
def TaskPlace.InContext (p : TaskPlace) (x : Addr) : Prop := (x - p.context).toNat < 16

/-- The byte is the task's. -/
def TaskPlace.Owns (p : TaskPlace) (x : Addr) : Prop := p.OnStack x ∨ p.InContext x

/-- The places of all tasks, which share no byte. -/
structure TaskPlaces (τ : Type) where
  place : τ → TaskPlace
  apart : ∀ t x, (place t).OnStack x → ¬ (place t).InContext x
  disjoint : ∀ t u x, (place t).Owns x → (place u).Owns x → t = u

/-- One processor and its tasks. -/
structure TaskSystem (τ : Type) where
  cpu : Cpu
  running : τ
  /-- A task that has switched away, with its state at the call and the return address. -/
  asleep : τ → Option (Cpu × Word)
  /-- The task has a first context. -/
  prepared : τ → Prop

/-- Nobody has switched yet. -/
def TaskSystem.Fresh {τ : Type} (s : TaskSystem τ) : Prop := ∀ t, s.asleep t = none

/-- The memory `m` has the sleeping tasks as they are in `s`. -/
def TaskSystem.KeepsAsleep {τ : Type} (P : TaskPlaces τ) (s : TaskSystem τ) (m : Memory) : Prop :=
  ∀ t, s.asleep t ≠ none → ∀ x, (P.place t).Owns x → m x = s.cpu.mem x

/-- The running task has room on its stack for what a switch leaves there. -/
def TaskSystem.Room {τ : Type} (P : TaskPlaces τ) (s : TaskSystem τ) : Prop :=
  ∀ x : Addr, (x - sleepBottom (s.cpu.reg .rsp)).toNat < sleepSize (s.cpu.reg .rsp) →
    (P.place s.running).OnStack x

/-- The memory `m` has what `arch_setup_task_context` leaves of the task at `p`. -/
structure FirstContext (tenv : TaskEnv) (p : TaskPlace) (m : Memory) (k : TaskState)
    (ts : PageIdx) (flags : TaskCreationFlags) (priv : TaskPrivelege) : Prop where
  top : (k.task ts).kernelStack.highAddress = p.low + BitVec.ofNat 64 p.size
  image : Carries m (archSetupTaskContext tenv ts flags priv k).2.stackMem
    (imageBottom (k.task ts).kernelStack.highAddress) IMAGE_WORDS
  cr3 : load m p.context
    = ((archSetupTaskContext tenv ts flags priv k).2.task ts).archContext.cr3
  rsp : load m (p.context + CONTEXT_RSP)
    = ((archSetupTaskContext tenv ts flags priv k).2.task ts).archContext.rsp

variable {τ : Type}

/-- What the system can do. -/
inductive SwitchStep [DecidableEq τ] (env : ContextEnv) (tenv : TaskEnv) (P : TaskPlaces τ) :
    TaskSystem τ → TaskSystem τ → Prop
  /-- The running task does anything else. -/
  | work {s : TaskSystem τ} (c : Cpu) (keeps : s.KeepsAsleep P c.mem) :
      SwitchStep env tenv P s { s with cpu := c }
  /-- The running task prepares `t`. -/
  | prepare {s : TaskSystem τ} (t : τ) (c : Cpu) (k : TaskState) (ts : PageIdx)
      (flags : TaskCreationFlags) (priv : TaskPrivelege) (other : t ≠ s.running)
      (awake : s.asleep t = none) (first : FirstContext tenv (P.place t) c.mem k ts flags priv)
      (keeps : s.KeepsAsleep P c.mem) :
      SwitchStep env tenv P s
        { s with cpu := c, prepared := fun u => u = t ∨ s.prepared u }
  /-- The running task activates `t`. -/
  | switch {s : TaskSystem τ} (t : τ) (next : Word) (c : Cpu) (other : t ≠ s.running)
      (ready : s.asleep t ≠ none ∨ s.prepared t) (room : s.Room P)
      (call : archActivateTask env (P.place s.running).context (P.place t).context next s.cpu
        = some c) :
      SwitchStep env tenv P s
        { cpu := c
          running := t
          asleep := Function.update (Function.update s.asleep s.running
            (some (activateArgs (P.place s.running).context (P.place t).context s.cpu, next)))
            t none
          prepared := fun u => u ≠ t ∧ s.prepared u }

/-! ### The invariant -/

/-- A sleeping task has its context on its own stack. -/
structure ParkedAt (env : ContextEnv) (p : TaskPlace) (m : Memory) (c : Cpu) (next : Word) :
    Prop where
  asleep : Asleep env m c next
  rsp : load m (p.context + CONTEXT_RSP) = sleepBottom (c.reg .rsp)
  inside : ∀ x : Addr, (x - sleepBottom (c.reg .rsp)).toNat < sleepSize (c.reg .rsp) →
    p.OnStack x

/-- The second word of a context is in it. -/
theorem TaskPlace.slot_inContext (p : TaskPlace) {x : Addr}
    (hx : (x - (p.context + CONTEXT_RSP)).toNat < 8) : p.InContext x := by
  have hle := toNat_sub_le x p.context (p.context + CONTEXT_RSP)
  rw [add_sub_cancel_left] at hle
  have h8 : CONTEXT_RSP.toNat = 8 := rfl
  rw [TaskPlace.InContext]
  omega

/-- What the task owns decides whether it is parked. -/
theorem ParkedAt.of_owns {env : ContextEnv} {p : TaskPlace} {m m' : Memory} {c : Cpu}
    {next : Word} (h : ParkedAt env p m c next) (hm : ∀ x, p.Owns x → m' x = m x) :
    ParkedAt env p m' c next := by
  refine ⟨h.asleep.of_agree fun x hx => hm x (.inl (h.inside x hx)), ?_, h.inside⟩
  rw [load_congr fun x hx => hm x (.inr (p.slot_inContext hx)), h.rsp]

/-- The running task is awake and the others are parked. -/
structure AllParked (env : ContextEnv) (P : TaskPlaces τ) (s : TaskSystem τ) : Prop where
  awake : s.asleep s.running = none
  parked : ∀ t c next, s.asleep t = some (c, next) → ParkedAt env (P.place t) s.cpu.mem c next

/-- Other writes that leave the bytes of sleeping tasks alone leave all of them parked. -/
theorem AllParked.of_keepsAsleep {env : ContextEnv} {P : TaskPlaces τ} {s : TaskSystem τ}
    (h : AllParked env P s) {m : Memory} (hm : s.KeepsAsleep P m) :
    ∀ t c next, s.asleep t = some (c, next) → ParkedAt env (P.place t) m c next := by
  intro t c next ht
  exact (h.parked t c next ht).of_owns (hm t (by rw [ht]; exact Option.some_ne_none _))

/-- A call leaves its own slot apart from the stack below it. -/
theorem TaskSystem.Room.slotApart {P : TaskPlaces τ} {s : TaskSystem τ} (h : s.Room P) :
    SlotApart (P.place s.running).context s.cpu := by
  intro x hx hstack
  exact P.apart s.running x (h x hstack) ((P.place s.running).slot_inContext hx)

/-- What a switch writes is the running task's. -/
theorem TaskSystem.Room.misses {P : TaskPlaces τ} {s : TaskSystem τ} (h : s.Room P) {t : τ}
    (ht : t ≠ s.running) {x : Addr} (hx : (P.place t).Owns x) :
    ¬ (x - sleepBottom (s.cpu.reg .rsp)).toNat < sleepSize (s.cpu.reg .rsp)
      ∧ ¬ (x - ((P.place s.running).context + CONTEXT_RSP)).toNat < 8 := by
  refine ⟨fun hstack => ht ?_, fun hslot => ht ?_⟩
  · exact P.disjoint t s.running x hx (.inl (h x hstack))
  · exact P.disjoint t s.running x hx (.inr ((P.place s.running).slot_inContext hslot))

/-- Every step keeps the invariant. -/
theorem SwitchStep.allParked [DecidableEq τ] {env : ContextEnv} {tenv : TaskEnv} {P : TaskPlaces τ}
    {s s' : TaskSystem τ} (h : SwitchStep env tenv P s s') (hs : AllParked env P s) :
    AllParked env P s' := by
  cases h with
  | work c keeps => exact ⟨hs.awake, hs.of_keepsAsleep keeps⟩
  | prepare t c k ts flags priv other awake first keeps => exact ⟨hs.awake, hs.of_keepsAsleep keeps⟩
  | switch t next c other ready room call =>
      refine ⟨Function.update_self .., ?_⟩
      -- The switch puts the running task to sleep, and writes on its stack and in its context
      -- only.
      obtain ⟨hasleep, hslot, hout⟩ := archActivateTask_parks room.slotApart call
      intro u c₀ next₀ hu
      dsimp only at hu
      have hut : u ≠ t := by
        rintro rfl
        rw [Function.update_self] at hu
        cases hu
      rw [Function.update_of_ne hut] at hu
      by_cases hrun : u = s.running
      · subst hrun
        rw [Function.update_self] at hu
        cases hu
        have hrsp : (activateArgs (P.place s.running).context (P.place t).context s.cpu).reg .rsp
            = s.cpu.reg .rsp := by simp [activateArgs]
        refine ⟨hasleep, ?_, ?_⟩
        · rw [hrsp]
          exact hslot
        · rw [hrsp]
          exact room
      · -- The stacks of the other sleepers are not touched.
        rw [Function.update_of_ne hrun] at hu
        refine (hs.parked u c₀ next₀ hu).of_owns fun x hx => ?_
        exact hout x (room.misses hrun hx).1 (room.misses hrun hx).2

/-- So does every run. -/
theorem allParked_run [DecidableEq τ] {env : ContextEnv} {tenv : TaskEnv} {P : TaskPlaces τ}
    {s₀ s : TaskSystem τ} (hfresh : s₀.Fresh)
    (hrun : Relation.ReflTransGen (SwitchStep env tenv P) s₀ s) : AllParked env P s := by
  induction hrun with
  | refl =>
      refine ⟨hfresh _, fun t c next ht => ?_⟩
      rw [hfresh t] at ht
      cases ht
  | tail _ hstep ih => exact hstep.allParked ih

/-- In every run, a task that has switched away and is activated again goes on after its
call, with all registers, the stack pointer and the FX state it had there. -/
theorem switches_resume [DecidableEq τ] (env : ContextEnv) (tenv : TaskEnv) (P : TaskPlaces τ)
    (s₀ s : TaskSystem τ) (t : τ) (c₀ : Cpu) (next₀ next : Word) (hfresh : s₀.Fresh)
    (hrun : Relation.ReflTransGen (SwitchStep env tenv P) s₀ s)
    (hasleep : s.asleep t = some (c₀, next₀)) (hroom : s.Room P) :
    ∃ c, archActivateTask env (P.place s.running).context (P.place t).context next s.cpu = some c
      ∧ c.reg = c₀.reg ∧ c.fx = c₀.fx ∧ c.rip = next₀ := by
  have hinv := allParked_run hfresh hrun
  have hparked := hinv.parked t c₀ next₀ hasleep
  have hne : t ≠ s.running := by
    rintro rfl
    rw [hinv.awake] at hasleep
    cases hasleep
  exact archActivateTask_wakes hroom.slotApart hparked.rsp hparked.asleep fun x hx =>
    hroom.misses hne (.inl (hparked.inside x hx))

/-! ### Two tasks -/

/-- Two stacks of four pages. -/
def twoPlaces : TaskPlaces Bool where
  place
    | false => ⟨0x10000, 0x4000, 0x8000⟩
    | true => ⟨0x20000, 0x4000, 0x9000⟩
  apart := by
    intro t x hstack hcontext
    cases t <;> simp only [TaskPlace.OnStack, TaskPlace.InContext] at hstack hcontext <;> bv_omega
  disjoint := by
    intro t u x ht hu
    by_contra hne
    cases t <;> cases u <;> first
      | exact hne rfl
      | simp only [TaskPlace.Owns, TaskPlace.OnStack, TaskPlace.InContext] at ht hu
        bv_omega

/-- The second task before it has a context. -/
def secondState : TaskState :=
  topState.setTask 5 { topState.task 5 with kernelStack := ⟨1, 0x24000, 0x20000⟩ }

/-- All words that the first task writes to prepare the second one. -/
def secondWords (a : Uintptr) : BitVec 64 :=
  let s := (archSetupTaskContext smallEnv 5 0 .kernel secondState).2
  if a = 0x9000 then (s.task 5).archContext.cr3
  else if a = 0x9008 then (s.task 5).archContext.rsp
  else s.stackMem a

def firstCpu (m : Memory) : Cpu where
  reg := fun _ => 0x13000
  rip := 0
  rflags := 0
  cs := 8
  ss := 16
  cr3 := 0
  fx := fun _ => 0
  mem := m

/-- The first task runs. -/
def twoTasks : TaskSystem Bool where
  cpu := firstCpu fun _ => 0
  running := false
  asleep := fun _ => none
  prepared := fun _ => False

theorem high_secondState : (secondState.task 5).kernelStack.highAddress = 0x24000 := by decide

/-- The image is no part of the context. -/
theorem secondWords_image {i : Nat} (hi : i < IMAGE_WORDS) :
    secondWords (imageBottom 0x24000 + BitVec.ofNat 64 (8 * i))
      = (archSetupTaskContext smallEnv 5 0 .kernel secondState).2.stackMem
          (imageBottom 0x24000 + BitVec.ofNat 64 (8 * i)) := by
  have hne : ∀ i < IMAGE_WORDS, imageBottom 0x24000 + BitVec.ofNat 64 (8 * i) ≠ 0x9000
      ∧ imageBottom 0x24000 + BitVec.ofNat 64 (8 * i) ≠ 0x9008 := by decide
  rw [secondWords, if_neg (hne i hi).1, if_neg (hne i hi).2]

/-- The memory of the example carries the image that the code prepares for task 5. -/
theorem secondImage :
    Carries (ofWords secondWords)
      (archSetupTaskContext smallEnv 5 0 .kernel secondState).2.stackMem (imageBottom 0x24000)
      IMAGE_WORDS := by
  intro i hi
  rw [carries_ofWords secondWords (by decide) IMAGE_WORDS i hi, secondWords_image hi]

/-- So the task is ready to be switched to for the first time. -/
theorem secondContext :
    FirstContext smallEnv (twoPlaces.place true) (ofWords secondWords) secondState 5 0 .kernel := by
  constructor
  case top => exact high_secondState
  case image =>
    rw [high_secondState]
    exact secondImage
  case cr3 =>
    rw [load_ofWords _ (by decide)]
    rfl
  case rsp =>
    rw [load_ofWords _ (by decide)]
    rfl

/-- Both tasks have room for a switch at the stack pointers they use. -/
theorem room_first {x : Addr} (hx : (x - sleepBottom 0x13000).toNat < sleepSize 0x13000) :
    (twoPlaces.place false).OnStack x := by
  have hbottom : sleepBottom 0x13000 = 0x12bf0 := by decide
  have hsize : sleepSize 0x13000 = 1040 := by decide
  rw [hbottom, hsize] at hx
  show (x - 0x10000).toNat < 0x4000
  bv_omega

/-- The stack of the example has room for the registers that a switch saves. -/
theorem room_second {x : Addr} (hx : (x - sleepBottom 0x24000).toNat < sleepSize 0x24000) :
    (twoPlaces.place true).OnStack x := by
  have hbottom : sleepBottom 0x24000 = 0x23bf0 := by decide
  have hsize : sleepSize 0x24000 = 1040 := by decide
  rw [hbottom, hsize] at hx
  show (x - 0x20000).toNat < 0x4000
  bv_omega

/-- The first task prepares the second one. -/
def secondPrepared : TaskSystem Bool :=
  { twoTasks with
    cpu := firstCpu (ofWords secondWords), prepared := fun u => u = true ∨ twoTasks.prepared u }

/-- The running task has room for its registers, too. -/
theorem room_secondPrepared : secondPrepared.Room twoPlaces := fun _ hx => room_first hx

/-- It switches to the second one. -/
theorem second_starts :
    ∃ c, archActivateTask topEnv (twoPlaces.place false).context (twoPlaces.place true).context
        0x40 secondPrepared.cpu = some c ∧ Started smallEnv 0x24000 0 0 c := by
  have hframe := firstFrame smallEnv 5 0 .kernel secondState
  rw [high_secondState] at hframe
  have hrsp : load secondPrepared.cpu.mem ((twoPlaces.place true).context + CONTEXT_RSP)
      = imageBottom 0x24000 := by
    have hload := secondContext.rsp
    rw [rsp_archSetupTaskContext, high_secondState] at hload
    exact hload
  have hinside : ∀ x : Addr, (x - imageBottom 0x24000).toNat < 8 * IMAGE_WORDS →
      (twoPlaces.place true).Owns x := by
    intro x hx
    have hbottom : imageBottom 0x24000 = sleepBottom 0x24000 := by decide
    have hsize : 8 * IMAGE_WORDS = sleepSize 0x24000 := by decide
    rw [hbottom, hsize] at hx
    exact .inl (room_second hx)
  refine archActivateTask_starts rfl (by decide) (by decide) hframe ?_ hrsp
    room_secondPrepared.slotApart fun x hx => room_secondPrepared.misses (by decide) (hinside x hx)
  rw [threadArgs_zero hframe]
  exact secondImage

/-- The second task switches back to the first one at once. -/
theorem switches_resume_two :
    ∃ s c, Relation.ReflTransGen (SwitchStep topEnv smallEnv twoPlaces) twoTasks s
      ∧ s.running = true
      ∧ archActivateTask topEnv (twoPlaces.place s.running).context (twoPlaces.place false).context
          0x80 s.cpu = some c
      ∧ c.reg = (activateArgs 0x8000 0x9000 secondPrepared.cpu).reg
      ∧ c.fx = secondPrepared.cpu.fx ∧ c.rip = 0x40 := by
  obtain ⟨c₁, hcall, hstarted⟩ := second_starts
  have hprepare : SwitchStep topEnv smallEnv twoPlaces twoTasks secondPrepared :=
    .prepare true _ secondState 5 0 .kernel (by decide) rfl secondContext fun t ht => absurd rfl ht
  have hswitch := @SwitchStep.switch Bool _ topEnv smallEnv twoPlaces secondPrepared true 0x40 c₁
    (by decide) (.inr (.inl rfl)) room_secondPrepared hcall
  have hrun := Relation.ReflTransGen.tail (.single hprepare) hswitch
  obtain ⟨c, hback, hreg, hfx, hrip⟩ := switches_resume topEnv smallEnv twoPlaces twoTasks _ false
    (activateArgs 0x8000 0x9000 secondPrepared.cpu) 0x40 0x80 (fun _ => rfl) hrun rfl
    (fun x hx => room_second (hstarted.rsp ▸ hx))
  exact ⟨_, c, hrun, rfl, hback, hreg, hfx, hrip⟩

end MString
