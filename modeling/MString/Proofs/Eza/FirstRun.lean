import MString.Proofs.Eza.Switch
import MString.Proofs.Eza.Task
import Mathlib.Tactic.IntervalCases

/-!
# `MString.Proofs.Eza.FirstRun`: a new thread starts

`arch_setup_task_context` and `kernel_thread` write whole words to addresses of the new
stack; the switch reads bytes. `Carries m w a n` joins the two: the `n` words of `w` from
`a` on stand in the memory `m`.

* `threadImage`: what both functions leave is a saved state under an `iretq` frame.
* `newThread_starts`: the tail of `arch_hw_activate_task` and `child_fork_path` take it
  down to the top of the stack and enter `kernel_thread_helper`.
* `archActivateTask_starts`: so does a whole switch. `MString.Proofs.Eza.ThreadRuns` shows that
  every successful `kernel_thread` leaves this image.
-/

set_option autoImplicit false

namespace MString

open Amd64 ByteMemory

/-- The words of `w` stand in memory, `n` of them from `a` on. -/
def Carries (m : Memory) (w : Uintptr → BitVec 64) (a : Addr) (n : Nat) : Prop :=
  ∀ i < n, load m (a + BitVec.ofNat 64 (8 * i)) = w (a + BitVec.ofNat 64 (8 * i))

/-- A memory that agrees on the bytes of an image carries it, too. -/
theorem Carries.of_agree {m m' : Memory} {w : Uintptr → BitVec 64} {a : Addr} {n : Nat}
    (h : Carries m w a n) (hn : 8 * n < 2 ^ 64) (hm : Agree a (8 * n) m m') : Carries m' w a n := by
  intro i hi
  rw [load_congr (hm.up (BitVec.ofNat 64 (8 * i)) (by rw [BitVec.toNat_ofNat]; omega))]
  exact h i hi

/-- A memory made of words carries any part of them. -/
theorem carries_ofWords (w : Uintptr → BitVec 64) {a : Addr} (ha : a.toNat % 8 = 0) (n : Nat) :
    Carries (ofWords w) w a n := by
  intro i _
  apply load_ofWords
  rw [BitVec.toNat_add, BitVec.toNat_ofNat]
  omega

/-- The two writes of `kernel_thread` to the registers of the new thread. -/
def threadArgs (highAddress fn data : Uintptr) (m : Uintptr → BitVec 64) : Uintptr → BitVec 64 :=
  setWord (setWord m (highAddress - REGS_SIZE + OFFSET_RDI) fn)
    (highAddress - REGS_SIZE + OFFSET_RSI) data

/-- How many words the image of a new thread has: the label, the way up, the FX area with
the gap above it, and the registers. -/
def IMAGE_WORDS : Nat := 130

/-- The lowest word of the image. -/
def imageBottom (highAddress : Uintptr) : Uintptr := highAddress - REGS_SIZE - FX_DELTA - 16

/-- The state that the image of a new thread saves. -/
def firstSaved (highAddress fn data : Uintptr) (c : Cpu) : Cpu :=
  { c with
    reg := fun r => match r with
      | .rdi => fn
      | .rsi => data
      | .rsp => highAddress - 40
      | _ => 0
    fx := fun _ => 0 }

/-- The frame above it. -/
def firstInterruptFrame (env : TaskEnv) (highAddress : Uintptr) : InterruptFrame where
  rip := env.kernelThreadHelper
  cs := gdtselector KTEXT_DES
  rflags := env.rflags ||| 0x200
  rsp := highAddress
  ss := gdtselector KDATA_DES

/-- `threadArgs` writes the words for `rsi` and `rdi` in the frame of the registers, and no
others. -/
theorem threadArgs_add (highAddress fn data c : Uintptr) (m : Uintptr → BitVec 64) :
    threadArgs highAddress fn data m (highAddress - REGS_SIZE + c)
      = if c = OFFSET_RSI then data else if c = OFFSET_RDI then fn
        else m (highAddress - REGS_SIZE + c) := by
  rw [threadArgs, setWord_add, setWord_add]

/-- A word that is there already can be left out. -/
theorem setWord_self (m : Uintptr → BitVec 64) (a : Uintptr) (w : BitVec 64) (h : m a = w) :
    setWord m a w = m := by
  funext x
  rw [setWord]
  split
  · case isTrue hx => rw [hx, h]
  · rfl

/-- Before `kernel_thread` writes them, the arguments are null. -/
theorem threadArgs_zero {tenv : TaskEnv} {priv : TaskPrivelege} {highAddress : Uintptr}
    {w : Uintptr → BitVec 64} (h : FirstFrame tenv priv highAddress w) :
    threadArgs highAddress 0 0 w = w := by
  have hrdi : setWord w (highAddress - REGS_SIZE + OFFSET_RDI) 0 = w :=
    setWord_self _ _ _ (h.gpr 2 (by decide))
  rw [threadArgs, hrdi]
  exact setWord_self _ _ _ (h.gpr 1 (by decide))

section Image

variable {tenv : TaskEnv} {highAddress fn data : Uintptr} {w : Uintptr → BitVec 64} {m : Memory}

/-- The words of the image, by their distance from the saved registers. -/
theorem Carries.load_add (h : Carries m w (imageBottom highAddress) IMAGE_WORDS) {c : Uintptr}
    (i : Nat) (hi : i < IMAGE_WORDS)
    (hc : BitVec.ofNat 64 (8 * i) = c + FX_DELTA + 16) :
    load m (highAddress - REGS_SIZE + c) = w (highAddress - REGS_SIZE + c) := by
  have haddr : imageBottom highAddress + BitVec.ofNat 64 (8 * i) = highAddress - REGS_SIZE + c := by
    rw [hc, imageBottom]
    ring
  rw [← haddr]
  exact h i hi

variable {priv : TaskPrivelege}

/-- The words that `kernel_thread` does not write. -/
theorem Carries.load_frame
    (h : Carries m (threadArgs highAddress fn data w) (imageBottom highAddress) IMAGE_WORDS)
    {c : Uintptr} (i : Nat) (hi : i < IMAGE_WORDS)
    (hc : BitVec.ofNat 64 (8 * i) = c + FX_DELTA + 16) (hrsi : c ≠ OFFSET_RSI)
    (hrdi : c ≠ OFFSET_RDI) :
    load m (highAddress - REGS_SIZE + c) = w (highAddress - REGS_SIZE + c) := by
  rw [h.load_add i hi hc, threadArgs_add, if_neg hrsi, if_neg hrdi]

/-- The saved registers, in the order of the pops. -/
theorem firstSaved_gprs (c : Cpu) (j : Nat) (hj : j < 14) :
    (restoredGprs.map (firstSaved highAddress fn data c).reg)[j]?
      = some (if BitVec.ofNat 64 (8 * j) = OFFSET_RSI then data
          else if BitVec.ofNat 64 (8 * j) = OFFSET_RDI then fn else 0) := by
  interval_cases j <;> rfl

/-- Behind a page-aligned top, the distance to the FX area is always the same. -/
theorem fxDelta_regs (haligned : highAddress.toNat % 4096 = 0) :
    fxDelta (highAddress - REGS_SIZE) = FX_DELTA := by
  have hsize : REGS_SIZE.toNat = 152 := rfl
  have hdelta : FX_DELTA.toNat = 872 := rfl
  apply BitVec.eq_of_toNat_eq
  rw [toNat_fxDelta, BitVec.toNat_sub, hsize, hdelta]
  omega

/-- `kernel_thread` writes no word of the FX area. -/
theorem fxWord_apart {i : Nat} (hi : i < 64) :
    -FX_DELTA + BitVec.ofNat 64 (8 * i) ≠ OFFSET_RSI
      ∧ -FX_DELTA + BitVec.ofNat 64 (8 * i) ≠ OFFSET_RDI := by
  revert i
  decide

/-- The image is a saved state. -/
theorem threadImage_saved (haligned : highAddress.toNat % 4096 = 0)
    (hframe : FirstFrame tenv priv highAddress w)
    (h : Carries m (threadArgs highAddress fn data w) (imageBottom highAddress) IMAGE_WORDS)
    (c : Cpu) : SavedAll m (firstSaved highAddress fn data c) := by
  have hsp : (firstSaved highAddress fn data c).reg .rsp - SAVED_GPR_SIZE
      = highAddress - REGS_SIZE := by
    show highAddress - 40 - 112 = highAddress - 152
    ring
  have hbottom : saveBottom ((firstSaved highAddress fn data c).reg .rsp)
      = highAddress - REGS_SIZE + (-FX_DELTA - 8) := by
    rw [saveBottom, hsp, fxDelta_regs haligned]
    ring
  -- the delta word, the area of `fxsave`, and the general registers
  refine ⟨?_, ?_, ?_⟩
  · rw [hbottom, hsp, fxDelta_regs haligned,
      h.load_frame 1 (by decide) (by decide) (by decide) (by decide)]
    exact hframe.delta
  · funext k
    have hk : k.val / 8 < 64 := by omega
    have hword : load m (highAddress - REGS_SIZE
        + (-FX_DELTA + BitVec.ofNat 64 (8 * (k.val / 8)))) = 0 := by
      rw [h.load_frame (k.val / 8 + 2) (by rw [IMAGE_WORDS]; omega)]
      · exact hframe.fx (k.val / 8) hk
      · rw [Nat.mul_add, BitVec.ofNat_add]
        show BitVec.ofNat 64 (8 * (k.val / 8)) + 16 = _
        ring
      · exact (fxWord_apart hk).1
      · exact (fxWord_apart hk).2
    have haddr : highAddress - REGS_SIZE + (-FX_DELTA - 8) + 8 + BitVec.ofNat 64 k
        = highAddress - REGS_SIZE + (-FX_DELTA + BitVec.ofNat 64 (8 * (k.val / 8)))
          + BitVec.ofNat 64 (k.val % 8) := by
      have hsplit : BitVec.ofNat 64 k = BitVec.ofNat 64 (8 * (k.val / 8))
          + BitVec.ofNat 64 (k.val % 8) := by
        rw [← BitVec.ofNat_add, Nat.div_add_mod]
      rw [hsplit]
      ring
    rw [hbottom, ByteMemory.read, haddr]
    have hbyte := byte_of_load m (highAddress - REGS_SIZE
      + (-FX_DELTA + BitVec.ofNat 64 (8 * (k.val / 8)))) ⟨k.val % 8, Nat.mod_lt _ (by decide)⟩
    rw [hbyte, hword]
    simp [bytesOf, firstSaved]
  · rw [hsp, holds_iff]
    intro j hj
    have hj14 : j < 14 := hj
    have hentry := List.getElem?_eq_getElem hj
    rw [firstSaved_gprs c j hj14, Option.some_inj] at hentry
    rw [← hentry, h.load_add (111 + j) (by rw [IMAGE_WORDS]; omega), threadArgs_add,
      hframe.gpr j hj14]
    rw [Nat.mul_add, BitVec.ofNat_add, add_assoc, add_comm]
    rfl

/-- The frame that `iretq` takes stands above it. -/
theorem threadImage_frame (hframe : FirstFrame tenv .kernel highAddress w)
    (h : Carries m (threadArgs highAddress fn data w) (imageBottom highAddress) IMAGE_WORDS) :
    Holds m (highAddress - 40) (firstInterruptFrame tenv highAddress).words := by
  have haddr : ∀ i, highAddress - 40 + BitVec.ofNat 64 (8 * i)
      = highAddress - REGS_SIZE + (OFFSET_RIP + BitVec.ofNat 64 (8 * i)) := fun i => by
    show highAddress - 40 + _ = highAddress - 152 + (112 + _)
    ring
  rw [holds_iff]
  intro i hi
  have hi5 : i < 5 := hi
  have hword : load m (highAddress - 40 + BitVec.ofNat 64 (8 * i))
      = w (highAddress - REGS_SIZE + (OFFSET_RIP + BitVec.ofNat 64 (8 * i))) := by
    rw [haddr]
    clear hi
    interval_cases i
    · exact h.load_frame 125 (by decide) (by decide) (by decide) (by decide)
    · exact h.load_frame 126 (by decide) (by decide) (by decide) (by decide)
    · exact h.load_frame 127 (by decide) (by decide) (by decide) (by decide)
    · exact h.load_frame 128 (by decide) (by decide) (by decide) (by decide)
    · exact h.load_frame 129 (by decide) (by decide) (by decide) (by decide)
  rw [hword]
  interval_cases i
  · exact hframe.rip
  · exact hframe.cs
  · exact hframe.rflags
  · exact hframe.rsp
  · exact hframe.ss

end Image

/-! ### Entering the thread -/

/-- The tail of `arch_hw_activate_task`, from the load of the new stack pointer on, and what
it returns to. -/
def switchIn (env : ContextEnv) (c : Cpu) : Option Cpu := do
  let c ← exec [.movq .rsi .rsp] c
  resume env (ret c)

/-- How a new thread finds itself: in `kernel_thread_helper`, with its arguments, on an
empty stack, in the kernel's segments and with interrupts enabled. -/
structure Started (tenv : TaskEnv) (highAddress fn data : Uintptr) (c : Cpu) : Prop where
  rip : c.rip = tenv.kernelThreadHelper
  fn : c.reg .rdi = fn
  data : c.reg .rsi = data
  rsp : c.reg .rsp = highAddress
  cs : c.cs = (gdtselector KTEXT_DES).setWidth 16
  ss : c.ss = (gdtselector KDATA_DES).setWidth 16
  interrupts : c.rflags.getLsbD IF = true
  fx : c.fx = fun _ => 0

/-- Going on from a new thread's image, whose label has been taken. -/
theorem resume_starts {tenv : TaskEnv} {env : ContextEnv} {highAddress fn data : Uintptr}
    {w : Uintptr → BitVec 64} {c : Cpu}
    (hloadable : env.loadable ((gdtselector KTEXT_DES).setWidth 16)
      ((gdtselector KDATA_DES).setWidth 16) = true)
    (haligned : highAddress.toNat % 4096 = 0)
    (hframe : FirstFrame tenv .kernel highAddress w)
    (h : Carries c.mem (threadArgs highAddress fn data w) (imageBottom highAddress) IMAGE_WORDS)
    (hrip : c.rip = env.childForkPath) (hrsp : c.reg .rsp = imageBottom highAddress + 8) :
    ∃ c', resume env c = some c' ∧ Started tenv highAddress fn data c' := by
  let saved := firstSaved highAddress fn data c
  -- the image is laid out like a frame that `SAVE_ALL` left
  have hsp : c.reg .rsp = saveBottom (saved.reg .rsp) := by
    have hsaved : saved.reg .rsp - SAVED_GPR_SIZE = highAddress - REGS_SIZE := by
      show highAddress - 40 - 112 = highAddress - 152
      ring
    rw [saveBottom, hsaved, fxDelta_regs haligned, hrsp, imageBottom]
    ring
  obtain ⟨reg, rflags, hexec, hregs, -⟩ :=
    exec_restoreAll hsp (threadImage_saved haligned hframe h c)
  let f := firstInterruptFrame tenv highAddress
  let c₁ : Cpu := { c with reg, rflags, fx := saved.fx }
  -- what `iretq` pops is the interrupt frame at the top of the image
  have hstack : Holds c₁.mem (c₁.reg .rsp) f.words := by
    rw [show c₁.reg .rsp = highAddress - 40 from hregs .rsp (by decide)]
    exact threadImage_frame hframe h
  let c₂ : Cpu := { c₁.set .rsp f.rsp with
    rip := f.rip, cs := f.cs.setWidth 16, ss := f.ss.setWidth 16, rflags := f.rflags }
  have hiretq : iretq env.loadable c₁ = some c₂ := iretq_eq hstack hloadable
  refine ⟨c₂, ?_, ?_⟩
  · rw [resume, if_neg (hrip ▸ env.labels.symm), if_pos hrip, childForkPath, hexec]
    exact hiretq
  · constructor
    case rip => rfl
    case fn => exact hregs .rdi (by decide)
    case data => exact hregs .rsi (by decide)
    case rsp => rfl
    case cs => rfl
    case ss => rfl
    case interrupts =>
      show (tenv.rflags ||| 0x200).getLsbD IF = true
      rw [BitVec.getLsbD_or]
      exact Bool.or_true _
    case fx => rfl

/-- The lowest word of the image is the label. -/
theorem threadImage_label {tenv : TaskEnv} {highAddress fn data : Uintptr}
    {w : Uintptr → BitVec 64} {m : Memory} (hframe : FirstFrame tenv .kernel highAddress w)
    (h : Carries m (threadArgs highAddress fn data w) (imageBottom highAddress) IMAGE_WORDS) :
    load m (imageBottom highAddress) = tenv.childForkPath := by
  have hbottom : imageBottom highAddress = highAddress - REGS_SIZE + (-FX_DELTA - 16) := by
    rw [imageBottom]
    ring
  have hlabel := @Carries.load_frame _ _ _ _ _ h (-FX_DELTA - 16) 0 (by decide) (by decide)
    (by decide) (by decide)
  rw [hbottom, hlabel, hframe.resume]

/-- Switching in from a new thread's image. -/
theorem switchIn_starts {tenv : TaskEnv} {env : ContextEnv} {highAddress fn data : Uintptr}
    {w : Uintptr → BitVec 64} {c : Cpu} (hpath : tenv.childForkPath = env.childForkPath)
    (hloadable : env.loadable ((gdtselector KTEXT_DES).setWidth 16)
      ((gdtselector KDATA_DES).setWidth 16) = true)
    (haligned : highAddress.toNat % 4096 = 0)
    (hframe : FirstFrame tenv .kernel highAddress w)
    (h : Carries c.mem (threadArgs highAddress fn data w) (imageBottom highAddress) IMAGE_WORDS)
    (hrsi : c.reg .rsi = imageBottom highAddress) :
    ∃ c', switchIn env c = some c' ∧ Started tenv highAddress fn data c' := by
  have hrip : (ret (c.set .rsp (c.reg .rsi))).rip = env.childForkPath := by
    rw [← hpath, ← threadImage_label hframe h, ← hrsi]
    simp [ret, Cpu.top, Cpu.set]
  refine resume_starts hloadable haligned hframe h hrip ?_
  rw [← hrsi]
  simp [ret]

/-- A switch to a new thread starts it. The caller's stack and slot are no part of the
image. -/
theorem archActivateTask_starts {tenv : TaskEnv} {env : ContextEnv} {own other : Addr}
    {next : Word} {highAddress fn data : Uintptr} {w : Uintptr → BitVec 64} {c : Cpu}
    (hpath : tenv.childForkPath = env.childForkPath)
    (hloadable : env.loadable ((gdtselector KTEXT_DES).setWidth 16)
      ((gdtselector KDATA_DES).setWidth 16) = true)
    (haligned : highAddress.toNat % 4096 = 0)
    (hframe : FirstFrame tenv .kernel highAddress w)
    (h : Carries c.mem (threadArgs highAddress fn data w) (imageBottom highAddress) IMAGE_WORDS)
    (hrsp : load c.mem (other + CONTEXT_RSP) = imageBottom highAddress)
    (hslot : SlotApart own c)
    (hapart : ∀ x : Addr, (x - imageBottom highAddress).toNat < 8 * IMAGE_WORDS →
      ¬ (x - sleepBottom (c.reg .rsp)).toNat < sleepSize (c.reg .rsp)
        ∧ ¬ (x - (own + CONTEXT_RSP)).toNat < 8) :
    ∃ c', archActivateTask env own other next c = some c'
      ∧ Started tenv highAddress fn data c' := by
  obtain ⟨c₁, hhw, hsp₁, hrip₁, -, -, hout⟩ := @archHwActivateTask_args env own other next c hslot
  have himage : Carries c₁.mem (threadArgs highAddress fn data w) (imageBottom highAddress)
      IMAGE_WORDS :=
    h.of_agree (by decide) fun x hx => hout x (hapart x hx).1 (hapart x hx).2
  rw [hrsp] at hsp₁ hrip₁
  rw [threadImage_label hframe himage, hpath] at hrip₁
  obtain ⟨c', hresume, hstarted⟩ := resume_starts hloadable haligned hframe himage hrip₁ hsp₁
  refine ⟨c', ?_, hstarted⟩
  rw [archActivateTask, hhw]
  exact hresume

/-- The stored stack pointer. -/
theorem rsp_archSetupTaskContext (tenv : TaskEnv) (ts : PageIdx) (flags : TaskCreationFlags)
    (priv : TaskPrivelege) (s : TaskState) :
    ((archSetupTaskContext tenv ts flags priv s).2.task ts).archContext.rsp
      = imageBottom (s.task ts).kernelStack.highAddress := by
  simp [archSetupTaskContext, TaskState.task, imageBottom]

/-- `kernel_thread` and `arch_setup_task_context` build what a switch consumes, and the FX
area of the image is no part of its registers. -/
theorem newThread_starts (tenv : TaskEnv) (env : ContextEnv) (s : TaskState) (ts : PageIdx)
    (flags : TaskCreationFlags) (fn data : Uintptr) (c : Cpu)
    (hpath : tenv.childForkPath = env.childForkPath)
    (hloadable : env.loadable ((gdtselector KTEXT_DES).setWidth 16)
      ((gdtselector KDATA_DES).setWidth 16) = true)
    (haligned : (s.task ts).kernelStack.highAddress.toNat % 4096 = 0)
    (himage : Carries c.mem (threadArgs (s.task ts).kernelStack.highAddress fn data
      (archSetupTaskContext tenv ts flags .kernel s).2.stackMem)
      (imageBottom (s.task ts).kernelStack.highAddress) IMAGE_WORDS)
    (hrsi : c.reg .rsi
      = ((archSetupTaskContext tenv ts flags .kernel s).2.task ts).archContext.rsp) :
    (∃ c', switchIn env c = some c'
        ∧ Started tenv (s.task ts).kernelStack.highAddress fn data c')
      ∧ ∀ x : Addr, (x - (imageBottom (s.task ts).kernelStack.highAddress + 16)).toNat < 512 →
          ¬ (x - ((s.task ts).kernelStack.highAddress - REGS_SIZE)).toNat < REGS_SIZE.toNat := by
  have hrsp := rsp_archSetupTaskContext tenv ts flags .kernel s
  refine ⟨switchIn_starts hpath hloadable haligned (firstFrame tenv ts flags .kernel s) himage
    (hrsi.trans hrsp), ?_⟩
  intro x hx
  have hdelta : FX_DELTA.toNat = 872 := rfl
  have hsize : REGS_SIZE.toNat = 152 := rfl
  have hdist : x - ((s.task ts).kernelStack.highAddress - REGS_SIZE)
      = x - (imageBottom (s.task ts).kernelStack.highAddress + 16) - FX_DELTA := by
    rw [imageBottom]
    ring
  rw [hdist, BitVec.toNat_sub, hdelta, hsize]
  omega

/-- The idle task's neighbour in frame 5 is given its first context. -/
def topState : TaskState := smallStart (initializeStackAllocatorContext fun _ => 0)

/-- The processor before the switch to it. -/
def topCpu (fn data : Uintptr) : Cpu where
  reg := fun _ => imageBottom (topState.task 5).kernelStack.highAddress
  rip := 0
  rflags := 0
  cs := 8
  ss := 16
  cr3 := 0
  fx := fun _ => 0
  mem := ofWords (threadArgs (topState.task 5).kernelStack.highAddress fn data
    (archSetupTaskContext smallEnv 5 0 .kernel topState).2.stackMem)

/-- A thread on the stack of the example. -/
theorem newThread_starts_top :
    (∃ c', switchIn topEnv (topCpu 0xffffffff80103000 7) = some c'
        ∧ Started smallEnv (topState.task 5).kernelStack.highAddress 0xffffffff80103000 7 c')
      ∧ ∀ x : Addr, (x - (imageBottom (topState.task 5).kernelStack.highAddress + 16)).toNat < 512 →
          ¬ (x - ((topState.task 5).kernelStack.highAddress - REGS_SIZE)).toNat < REGS_SIZE.toNat :=
  newThread_starts smallEnv topEnv topState 5 0 0xffffffff80103000 7
    (topCpu 0xffffffff80103000 7) rfl (by decide) (by decide)
    (carries_ofWords _ (by decide) _) (rsp_archSetupTaskContext smallEnv 5 0 .kernel topState).symm

/-! ### Threads of `kernel_thread` -/

/-- `create_new_task` hands back a task only with status 0. -/
theorem createNewTask_some {tenv : TaskEnv} {parent : Option PageIdx}
    {flags : TaskCreationFlags} {priv : TaskPrivelege} {s s' : TaskState} {r : Status}
    {ts : PageIdx} (h : createNewTask tenv parent flags priv s = .ok (r, some ts, s')) : r = 0 := by
  obtain ⟨⟨tsPage, m⟩, -, h⟩ := Loop.exists_of_bind h
  cases tsPage with
  | none => cases h
  | some ts' =>
      obtain ⟨⟨r₁, s₁⟩, -, h⟩ := Loop.exists_of_bind h
      dsimp only at h
      split at h
      · cases h
      · cases parent with
        | none => cases h
        | some p => cases h; rfl

end MString
