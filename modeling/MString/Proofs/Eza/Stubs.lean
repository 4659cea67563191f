import MString.Eza.Stubs
import MString.Proofs.Eza.Context

/-!
# `MString.Proofs.Eza.Stubs`: what the stubs pass on and bring back

A stub starts in a state `c` that the processor has made of the interrupted one, `i`:
`Entered` says that the registers are the interrupted ones and the frame stands on the
stack. The handler in C is any function that keeps to the calling convention,
`CallReturns`.

* `exec_stubEntry`: any stub saves the interrupted registers under the frame.
* `stubExit_restores`: from there, `stubExit` loads them and returns to the frame that it
  finds.
* `irq_roundTrip`: interrupts.
* `servesFault_iff`: exceptions, which are handed the wrong frame unless `r10` happens to
  hold its address, and return to their error code where there is one.
-/

set_option autoImplicit false

namespace MString

open Amd64 ByteMemory

/-- A stub is entered in the state `c` after the state `i` was interrupted. -/
structure Entered (i : Cpu) (error : Option Word) (c : Cpu) : Prop where
  regs : ∀ r, r ≠ .rsp → c.reg r = i.reg r
  fx : c.fx = i.fx
  frame : Holds c.mem (c.reg .rsp) (error.toList ++ i.frame.words)

/-- The processor enters stubs so. -/
theorem entered_deliver (g : Gate) (s : EntryStack) (error : Option Word) (i : Cpu) :
    Entered i error (deliver g s error i) := by
  rw [deliver]
  generalize hc : i.set .rsp (s.base &&& ~~~15#64) = c
  generalize hws : i.frame.words.reverse ++ error.toList = ws
  have hreverse : ws.reverse = error.toList ++ i.frame.words := by
    rw [← hws]
    cases error <;> rfl
  have hlen : 8 * ws.length ≤ 2 ^ 64 := by
    rw [← hws]
    cases error <;> simp [InterruptFrame.words]
  have heq := c.pushAll_eq ws
  refine ⟨?_, ?_, ?_⟩
  · intro r hr
    rw [heq]
    simp [← hc, hr]
  · rw [heq, ← hc]
    rfl
  · rw [← hreverse]
    exact c.holds_pushAll ws hlen

/-- The registers that a function in C keeps. -/
def calleeSaved : List Reg := [.rbx, .rbp, .r12, .r13, .r14, .r15]

/-- A function in C, called in the state `c`, has returned in the state `c'`. What its
callers have on the stack ends below `top`. -/
structure CallReturns (top : Addr) (c c' : Cpu) : Prop where
  rip : c'.rip = c.top
  rsp : c'.reg .rsp = c.reg .rsp + 8
  saved : ∀ r ∈ calleeSaved, c'.reg r = c.reg r
  stack : Agree (c.reg .rsp + 8) (top - (c.reg .rsp + 8)).toNat c.mem c'.mem

/-! ### Entry and exit -/

/-- A stub has saved the registers of `c`, in which it was entered. -/
structure StubSaved (c : Cpu) (m : Memory) : Prop where
  saved : SavedAll m (c.set .rsp (c.reg .rsp - 8))
  rax : load m (c.reg .rsp - 8) = c.reg .rax

/-- How many bytes a stub takes. -/
def stubSize (s : Word) : Nat := savedSize (s - 8) + 8

/-- Any stub that loads `rax` saves what it found. -/
theorem exec_stubEntry {mov : Instr} {w : Word} (hmov : ∀ c, step mov c = some (c.set .rax w))
    (c : Cpu) :
    ∃ reg rflags m, exec ([.pushq .rax, mov] ++ saveAll) c = some { c with reg, rflags, mem := m }
      ∧ reg .rsp = saveBottom (c.reg .rsp - 8)
      ∧ reg .rax = w
      ∧ (∀ r, r ≠ .rax → r ≠ .rsp → r ≠ .r8 → r ≠ .r9 → reg r = c.reg r)
      ∧ StubSaved c m
      ∧ Agree (c.reg .rsp) (2 ^ 64 - stubSize (c.reg .rsp)) c.mem m := by
  -- The state behind the first two instructions: `rax` has been pushed and holds the stub's
  -- number.
  let c₁ : Cpu := (c.push (c.reg .rax)).set .rax w
  have hsp₁ : c₁.reg .rsp = c.reg .rsp - 8 := by simp [c₁, Cpu.push]
  have hexec₁ : exec [.pushq .rax, mov] c = some c₁ := by
    rw [exec, step, Option.bind_some, exec, hmov]
    rfl
  obtain ⟨reg, rflags, m, hexec, hsp, hregs, hsaved, hagree⟩ := exec_saveAll c₁
  rw [hsp₁] at hsp hagree
  have hlt := savedSize_lt (c.reg .rsp - 8)
  have h8 : (8 : Word).toNat = 8 := rfl
  refine ⟨reg, rflags, m, ?_, hsp, ?_, ?_, ⟨?_, ?_⟩, ?_⟩
  · rw [exec_append_some hexec₁, hexec]
    rfl
  · rw [hregs .rax (by decide) (by decide) (by decide)]
    simp [c₁]
  · intro r hrax hrsp hr8 hr9
    rw [hregs r hrsp hr8 hr9]
    simp [c₁, hrax, hrsp, Cpu.push]
  · -- `SAVE_ALL` saves the registers as they were, and `rax` is saved already.
    refine hsaved.congr (fun r hr => ?_) rfl
    by_cases hrsp : r = .rsp
    · rw [hrsp, hsp₁]
      simp
    · simp [c₁, hr, hrsp, Cpu.push]
  · -- The word of `rax` is above what `SAVE_ALL` stores.
    rw [load_congr (hagree.take (by omega))]
    exact load_store _
  · rw [stubSize]
    refine ((c.agree_push (c.reg .rax)).take (by omega)).trans (hagree.sub ?_)
    rw [sub_sub_cancel, h8]
    omega

/-- What a function in C leaves of a stub's area. -/
theorem StubSaved.of_agree {c : Cpu} {m m' : Memory} (h : StubSaved c m)
    (hm : Agree (saveBottom (c.reg .rsp - 8)) (stubSize (c.reg .rsp)) m m') : StubSaved c m' := by
  have hsp : (c.set .rsp (c.reg .rsp - 8)).reg .rsp = c.reg .rsp - 8 := by simp
  have hdist := toNat_sub_saveBottom (c.reg .rsp - 8)
  rw [stubSize] at hm
  refine ⟨h.saved.of_agree ?_, ?_⟩
  · rw [hsp]
    exact hm.take (by omega)
  · rw [load_congr (hm.sub (by rw [hdist])), h.rax]

/-- The exit loads what the entry has saved, and returns to the frame on the stack. -/
theorem stubExit_eq (env : ContextEnv) {c c₀ : Cpu}
    (hsp : c.reg .rsp = saveBottom (c₀.reg .rsp - 8)) (h : StubSaved c₀ c.mem) :
    ∃ rflags, stubExit env c
      = iretq env.loadable { c with reg := c₀.reg, rflags, fx := c₀.fx } := by
  let saved : Cpu := c₀.set .rsp (c₀.reg .rsp - 8)
  have hsaved : saved.reg .rsp = c₀.reg .rsp - 8 := by simp [saved]
  obtain ⟨reg, rflags, hexec, hregs, -⟩ := exec_restoreAll (hsaved ▸ hsp) h.saved
  let c₁ : Cpu := { c with reg, rflags, fx := saved.fx }
  have hsp₁ : c₁.reg .rsp = c₀.reg .rsp - 8 := (hregs .rsp (by decide)).trans hsaved
  have htop : c₁.top = c₀.reg .rax := by
    rw [Cpu.top, hsp₁]
    exact h.rax
  have hreg : ((c₁.set .rsp (c₁.reg .rsp + 8)).set .rax c₁.top).reg = c₀.reg := by
    funext r
    by_cases hrax : r = .rax
    · rw [hrax]
      simp [htop]
    · by_cases hrsp : r = .rsp
      · rw [hrsp]
        simp [hsp₁]
      · simp [hrax, hrsp, c₁, hregs r hrax, saved]
  refine ⟨rflags, ?_⟩
  rw [stubExit, hexec, ← hreg]
  rfl

/-- A stub that was entered in the state `c` is ready for its call in the state `c'`. -/
structure StubReady (c c' : Cpu) : Prop where
  rsp : c'.reg .rsp = saveBottom (c.reg .rsp - 8)
  saved : StubSaved c c'.mem
  above : Agree (c.reg .rsp) (2 ^ 64 - stubSize (c.reg .rsp)) c.mem c'.mem

/-- The context of a stub stands below the stack pointer and one word more. -/
theorem toNat_sub_stubBottom (s : Word) : (s - saveBottom (s - 8)).toNat = stubSize s := by
  have hlt := savedSize_lt (s - 8)
  have h8 : (8 : Word).toNat = 8 := rfl
  have hsum : s - saveBottom (s - 8) = (s - 8 - saveBottom (s - 8)) + 8 := by ring
  rw [hsum, BitVec.toNat_add, toNat_sub_saveBottom, stubSize, h8]
  omega

section Call

variable {c c' : Cpu} (target next : Word)

/-- The call itself leaves the saved registers and the frame. -/
theorem StubReady.call (h : StubReady c c') :
    StubSaved c (call target next c').mem
      ∧ Agree (c.reg .rsp) 48 c.mem (call target next c').mem := by
  have hlt := savedSize_lt (c.reg .rsp - 8)
  have hdist := toNat_sub_stubBottom (c.reg .rsp)
  have habove := h.above
  have hpush : Agree (saveBottom (c.reg .rsp - 8)) (2 ^ 64 - 8) c'.mem
      (Amd64.call target next c').mem :=
    h.rsp ▸ c'.agree_push next
  rw [stubSize] at hdist habove
  refine ⟨h.saved.of_agree (hpush.take ?_), (habove.take (by omega)).trans (hpush.sub ?_)⟩
  · rw [stubSize]
    omega
  · rw [hdist]
    omega

/-- When the call returns, the saved registers and the `n` bytes of the frame are still
there. -/
theorem StubReady.returns (h : StubReady c c') {n : Nat} (hn : n ≤ 48) {c₂ : Cpu}
    (hret : CallReturns (c.reg .rsp + BitVec.ofNat 64 n) (Amd64.call target next c') c₂) :
    c₂.reg .rsp = saveBottom (c.reg .rsp - 8) ∧ StubSaved c c₂.mem
      ∧ Agree (c.reg .rsp) n c.mem c₂.mem := by
  have hlt := savedSize_lt (c.reg .rsp - 8)
  have hdist := toNat_sub_stubBottom (c.reg .rsp)
  obtain ⟨hsaved, hframe⟩ := h.call target next
  have hsp : (Amd64.call target next c').reg .rsp + 8 = saveBottom (c.reg .rsp - 8) := by
    rw [← h.rsp]
    simp [Amd64.call, Cpu.push]
  have hsize : (c.reg .rsp + BitVec.ofNat 64 n - saveBottom (c.reg .rsp - 8)).toNat
      = stubSize (c.reg .rsp) + n := by
    rw [add_sub_right_comm, BitVec.toNat_add, hdist, BitVec.toNat_ofNat, stubSize]
    omega
  have hstack := hret.stack
  rw [hsp, hsize] at hstack
  refine ⟨hret.rsp.trans hsp, hsaved.of_agree (hstack.take (by omega)), ?_⟩
  exact (hframe.take hn).trans (hstack.sub (by rw [hdist]))

end Call

/-! ### Interrupts -/

/-- The stub of line `v` has called `do_irq` with the number of its line, and the FX state
of the interrupted `i` stands apart from the registers under the frame. -/
structure PassesIrq (doIrq next : Word) (v : Nat) (i c c₁ : Cpu) : Prop where
  rip : c₁.rip = doIrq
  back : c₁.top = next
  number : (c₁.reg .rdi).toNat = v
  regs : Holds c₁.mem (c.reg .rsp - 120) (restoredGprs.map i.reg ++ i.reg .rax :: i.frame.words)
  fx : ∃ area : Addr, read c₁.mem area 512 = i.fx ∧ ∀ x : Addr, (x - area).toNat < 512 →
    ¬ (x - (c.reg .rsp - 120)).toNat < 160

/-- The interrupted state goes on. -/
structure GoesOn (i c : Cpu) : Prop where
  rip : c.rip = i.rip
  reg : c.reg = i.reg
  fx : c.fx = i.fx

/-- A stub pushes its context and passes its number in `rdi`. -/
theorem exec_irqEntry (v : Nat) (c : Cpu) :
    ∃ c', exec (irqEntry v) c = some c' ∧ StubReady c c' ∧ c'.reg .rdi = BitVec.ofNat 64 v := by
  obtain ⟨reg, rflags, m, hexec, hsp, hrax, -, hsaved, hagree⟩ :=
    @exec_stubEntry (.movqImm (BitVec.ofNat 64 v) .rax) (BitVec.ofNat 64 v) (fun _ => rfl) c
  refine ⟨_, (exec_append_some hexec).trans rfl, ⟨?_, hsaved, hagree⟩, ?_⟩
  · simp [hsp]
  · simp [hrax]

/-- The FX area ends below the registers. -/
theorem StubSaved.fx_apart {c : Cpu} {x : Addr}
    (hx : (x - (saveBottom (c.reg .rsp - 8) + 8)).toNat < 512) :
    ¬ (x - (c.reg .rsp - 120)).toNat < 160 := by
  have hdelta := toNat_fxDelta (c.reg .rsp - 120)
  have hdist : x - (c.reg .rsp - 120)
      = x - (saveBottom (c.reg .rsp - 8) + 8) - fxDelta (c.reg .rsp - 120) := by
    have hgpr : c.reg .rsp - 8 - SAVED_GPR_SIZE = c.reg .rsp - 120 := by
      show c.reg .rsp - 8 - 112 = _
      ring
    rw [saveBottom, hgpr]
    ring
  rw [hdist, BitVec.toNat_sub]
  omega

/-- The stub passes its number on. -/
theorem callDoIrq_passes (doIrq next : Word) {v : Nat} (hv : v < NUM_IRQ_STUBS) {i c : Cpu}
    (h : Entered i none c) :
    ∃ c', callDoIrq doIrq next v c = some (call doIrq next c') ∧ StubReady c c'
      ∧ PassesIrq doIrq next v i c (call doIrq next c') := by
  obtain ⟨c', hexec, hready, hrdi⟩ := exec_irqEntry v c
  obtain ⟨hsaved, hframe⟩ := hready.call doIrq next
  refine ⟨c', ?_, hready, rfl, ?_, ?_, ?_, ?_⟩
  · rw [callDoIrq, hexec]
    rfl
  · simp [call, Cpu.push, Cpu.top]
  · have hcall : (call doIrq next c').reg .rdi = c'.reg .rdi := by simp [call, Cpu.push]
    rw [NUM_IRQ_STUBS] at hv
    rw [hcall, hrdi, BitVec.toNat_ofNat]
    omega
  · -- The registers as they were interrupted are on the stack, in the order in which they are
    -- popped.
    have hregs : restoredGprs.map i.reg
        = restoredGprs.map (c.set .rsp (c.reg .rsp - 8)).reg := by
      apply List.map_congr_left
      intro r hr
      have hrsp : r ≠ .rsp := by
        rintro rfl
        revert hr
        decide
      rw [Cpu.set_reg, if_neg hrsp, h.regs r hrsp]
    have hbase : (c.set .rsp (c.reg .rsp - 8)).reg .rsp - SAVED_GPR_SIZE = c.reg .rsp - 120 := by
      show c.reg .rsp - 8 - 112 = _
      ring
    have hrax : c.reg .rsp - 120 + BitVec.ofNat 64 (8 * (restoredGprs.map i.reg).length)
        = c.reg .rsp - 8 := by
      show c.reg .rsp - 120 + 112 = _
      ring
    have hgprs := hsaved.saved.gprs
    rw [hbase, ← hregs] at hgprs
    rw [holds_append, hrax]
    refine ⟨hgprs, ?_, ?_⟩
    · rw [hsaved.rax, h.regs .rax (by decide)]
    · -- The frame of the processor stands above them, and nothing has been stored over it.
      rw [sub_add_cancel]
      exact h.frame.of_agree (hframe.take (by simp [InterruptFrame.words]))
  · -- The FX area was saved from the interrupted state, and the frame is not in it.
    refine ⟨saveBottom (c.reg .rsp - 8) + 8, ?_, fun x hx => StubSaved.fx_apart hx⟩
    have hfx := hsaved.saved.fx
    rw [Cpu.set_reg, if_pos rfl] at hfx
    exact hfx.trans h.fx

/-- Returning to the interrupted state. -/
theorem stubExit_goesOn {env : ContextEnv} {i c c₂ : Cpu} {error : Option Word}
    (h : Entered i error c) (hload : env.loadable i.cs i.ss = true)
    (hsp : c₂.reg .rsp = saveBottom (c.reg .rsp - 8)) (hsaved : StubSaved c c₂.mem)
    (hframe : Holds c₂.mem (c.reg .rsp) i.frame.words) :
    ∃ c₃, stubExit env c₂ = some c₃ ∧ GoesOn i c₃ := by
  obtain ⟨rflags, hexit⟩ := stubExit_eq env hsp hsaved
  have hcs : (i.frame.cs).setWidth 16 = i.cs := by simp [Cpu.frame]
  have hss : (i.frame.ss).setWidth 16 = i.ss := by simp [Cpu.frame]
  have hload' : env.loadable (i.frame.cs.setWidth 16) (i.frame.ss.setWidth 16) = true := by
    rw [hcs, hss]
    exact hload
  have hiretq := @iretq_eq env.loadable { c₂ with reg := c.reg, rflags, fx := c.fx } i.frame
    hframe hload'
  refine ⟨_, hexit.trans hiretq, ?_⟩
  refine ⟨rfl, ?_, h.fx⟩
  funext r
  by_cases hr : r = .rsp
  · rw [hr]
    simp [Cpu.frame]
  · simp [hr, h.regs r hr]

/-- An interrupt comes and goes. -/
theorem irq_roundTrip (env : ContextEnv) (doIrq next : Word) (v : Nat) (i c : Cpu)
    (hv : v < NUM_IRQ_STUBS) (h : Entered i none c) (hload : env.loadable i.cs i.ss = true) :
    ∃ c₁, callDoIrq doIrq next v c = some c₁ ∧ PassesIrq doIrq next v i c c₁
      ∧ ∀ c₂, CallReturns (c.reg .rsp + 40) c₁ c₂ →
        ∃ c₃, stubExit env c₂ = some c₃ ∧ GoesOn i c₃ := by
  obtain ⟨c', hcall, hready, hpasses⟩ := callDoIrq_passes doIrq next hv h
  refine ⟨call doIrq next c', hcall, hpasses, ?_⟩
  intro c₂ hret
  obtain ⟨hsp, hsaved, hframe⟩ := @StubReady.returns _ _ doIrq next hready 40 (by decide) _ hret
  exact stubExit_goesOn h hload hsp hsaved
    (h.frame.of_agree (hframe.take (by simp [InterruptFrame.words])))

/-- A kernel thread that was interrupted. -/
def interrupted : Cpu where
  reg := fun _ => 0xffff800000007000
  rip := 0xffffffff80104000
  rflags := 0x202
  cs := 8
  ss := 16
  cr3 := 0
  fx := fun _ => 0
  mem := fun _ => 0

/-- An interrupt gate that leads to a stub, and the stack of the interrupted thread. -/
def stubEntered (error : Option Word) : Cpu :=
  deliver ⟨8, 0xffffffff80105000, true⟩ ⟨0xffff800000007000, 16⟩ error interrupted

/-- The stub of line 1. -/
theorem irq_roundTrip_one :
    ∃ c₁, callDoIrq 0xffffffff80106000 0xffffffff80107000 1 (stubEntered none) = some c₁
      ∧ PassesIrq 0xffffffff80106000 0xffffffff80107000 1 interrupted (stubEntered none) c₁
      ∧ ∀ c₂, CallReturns ((stubEntered none).reg .rsp + 40) c₁ c₂ →
          ∃ c₃, stubExit topEnv c₂ = some c₃ ∧ GoesOn interrupted c₃ :=
  irq_roundTrip topEnv 0xffffffff80106000 0xffffffff80107000 1 interrupted (stubEntered none)
    (by decide) (entered_deliver _ _ none interrupted) (by decide)

/-! ### Exceptions -/

/-- The error code on the stack, if there is one. -/
def errorOf (slot : Nat) (error : Word) : Option Word :=
  if pushesErrorCode slot then some error else none

/-- Where the frame is that the function in C takes: from the error code on, if its
argument has one. -/
def frameAddress (slot : Nat) (f : FaultHandler) (c : Cpu) : Addr :=
  if f.takesErrorFrame then c.reg .rsp
  else c.reg .rsp + BitVec.ofNat 64 (8 * (errorOf slot 0).toList.length)

/-- The exception in `slot` is served: the function in C gets the address of its frame,
and when it returns, the interrupted state goes on. -/
def ServesFault (env : ContextEnv) (impl : Option FaultHandler → Word) (next : Word) (slot : Nat)
    (f : FaultHandler) (i c : Cpu) : Prop :=
  ∃ c₁, callHiLevel impl next f c = some c₁ ∧ c₁.rip = impl (some f)
    ∧ c₁.reg .rdi = frameAddress slot f c
    ∧ ∀ c₂, f.loops = false →
        CallReturns (c.reg .rsp + BitVec.ofNat 64 (40 + 8 * (errorOf slot 0).toList.length)) c₁ c₂ →
        ∃ c₃, stubExit env c₂ = some c₃ ∧ c₃.rip = i.rip ∧ c₃.reg = i.reg

/-- The number of a handler is the place of its function in the table. -/
theorem hiLevelFaultHandlers_number (f : FaultHandler) :
    hiLevelFaultHandlers[(f.number.setWidth 64 : Word).toNat]? = some (some f) := by
  cases f <;> rfl

/-- The handler reaches its function in C with what `r10` was, moved by the size of the
saved registers. -/
theorem callHiLevel_eq (impl : Option FaultHandler → Word) (next : Word) (f : FaultHandler)
    (c : Cpu) :
    ∃ c', callHiLevel impl next f c = some (call (impl (some f)) next c') ∧ StubReady c c'
      ∧ c'.reg .rdi = c.reg .r10 + 120 := by
  obtain ⟨reg, rflags, m, hexec, hsp, hrax, hregs, hsaved, hagree⟩ :=
    @exec_stubEntry (.movlImm f.number .rax) (f.number.setWidth 64) (fun _ => rfl) c
  have hr10 : reg .r10 = c.reg .r10 :=
    hregs .r10 (by decide) (by decide) (by decide) (by decide)
  let c₁ : Cpu := { c with reg, rflags, mem := m }
  let c₂ : Cpu := { (c₁.set .rdi (c₁.reg .r10)).set .rdi (c₁.reg .r10 + (SAVED_GPR_SIZE + 8)) with
    rflags := addFlags rflags (c₁.reg .r10) (SAVED_GPR_SIZE + 8) }
  have hargs : exec [.movq .r10 .rdi, .addqImm (SAVED_GPR_SIZE + 8) .rdi] c₁ = some c₂ := by
    simp [exec, step, c₁, c₂]
    rfl
  have hentry : exec (faultEntry f) c = some c₂ := (exec_append_some hexec).trans hargs
  have hrax₂ : c₂.reg .rax = f.number.setWidth 64 := by simp [c₂, c₁, hrax]
  refine ⟨c₂, ?_, ⟨?_, hsaved, hagree⟩, ?_⟩
  · rw [callHiLevel, hentry]
    show (hiLevelFaultHandlers[(c₂.reg .rax).toNat]?).bind _ = _
    rw [hrax₂, hiLevelFaultHandlers_number]
    rfl
  · simp [c₂, c₁, hsp]
  · simp [c₂, c₁, hr10]
    rfl

/-- What an exit from a stub finds on the stack decides where it goes. -/
theorem stubExit_frame {env : ContextEnv} {c c₂ : Cpu} {f : InterruptFrame}
    (hsp : c₂.reg .rsp = saveBottom (c.reg .rsp - 8)) (hsaved : StubSaved c c₂.mem)
    (hframe : Holds c₂.mem (c.reg .rsp) f.words) :
    ∃ c₃ : Cpu, stubExit env c₂ = (if env.loadable (f.cs.setWidth 16) (f.ss.setWidth 16) then
        some c₃ else none)
      ∧ c₃.rip = f.rip ∧ c₃.reg = (c.set .rsp f.rsp).reg ∧ c₃.fx = c.fx := by
  obtain ⟨rflags, hexit⟩ := stubExit_eq env hsp hsaved
  have hiretq := @iretq_frame env.loadable { c₂ with reg := c.reg, rflags, fx := c.fx } f hframe
  exact ⟨_, hexit.trans hiretq, rfl, rfl, rfl⟩

/-- What `iretq` takes for a frame under an error code. -/
def errorFrame (error : Word) (i : Cpu) : InterruptFrame where
  rip := error
  cs := i.rip
  rflags := i.cs.setWidth 64
  rsp := i.rflags
  ss := i.reg .rsp

/-- The frame that `iretq` finds at the end of a stub. -/
def foundFrame (slot : Nat) (error : Word) (i : Cpu) : InterruptFrame :=
  if pushesErrorCode slot then errorFrame error i else i.frame

/-- What the processor has pushed is what the handler finds, as long as nothing is stored over
it. -/
theorem Entered.found {slot : Nat} {error : Word} {i c : Cpu}
    (h : Entered i (errorOf slot error) c) {m : Memory}
    (hm : Agree (c.reg .rsp) (40 + 8 * (errorOf slot 0).toList.length) c.mem m) :
    Holds m (c.reg .rsp) (foundFrame slot error i).words := by
  have hframe := h.frame
  rw [foundFrame]
  rw [errorOf] at hframe hm
  cases hp : pushesErrorCode slot with
  | true =>
      rw [hp, if_pos rfl] at hframe hm
      have hframe' := hframe.of_agree (hm.take (by simp [InterruptFrame.words]))
      exact ⟨hframe'.1, hframe'.2.1, hframe'.2.2.1, hframe'.2.2.2.1, hframe'.2.2.2.2.1, trivial⟩
  | false =>
      rw [hp, if_neg Bool.false_ne_true] at hframe hm
      exact hframe.of_agree (hm.take (by simp [InterruptFrame.words]))

/-- A function in C that does nothing keeps to the convention. -/
theorem callReturns_ret (top : Addr) (c : Cpu) : CallReturns top c (ret c) := by
  refine ⟨rfl, ?_, ?_, Agree.refl⟩
  · simp [ret]
  · intro r hr
    have hrsp : r ≠ .rsp := by
      rintro rfl
      revert hr
      decide
    simp [ret, hrsp]

/-- The way back to the frame that is found leads to the interrupted state. -/
def WayBack (env : ContextEnv) (slot : Nat) (error : Word) (i : Cpu) : Prop :=
  pushesErrorCode slot = true →
    error = i.rip ∧ i.rflags = i.reg .rsp ∧
      env.loadable (i.rip.setWidth 16) ((i.reg .rsp).setWidth 16) = true

/-- The frame that is found is the interrupted state's on the way back only. -/
theorem wayBack_iff {env : ContextEnv} {slot : Nat} {error : Word} {i : Cpu}
    (hload : env.loadable i.cs i.ss = true) :
    WayBack env slot error i ↔
      (foundFrame slot error i).rip = i.rip ∧ (foundFrame slot error i).rsp = i.reg .rsp ∧
        env.loadable ((foundFrame slot error i).cs.setWidth 16)
          ((foundFrame slot error i).ss.setWidth 16) = true := by
  rw [WayBack, foundFrame]
  cases hp : pushesErrorCode slot with
  | true =>
      rw [if_pos rfl]
      exact ⟨fun h => h rfl, fun h _ => h⟩
  | false =>
      rw [if_neg Bool.false_ne_true]
      refine iff_of_true (fun h => absurd h Bool.false_ne_true) ⟨rfl, rfl, ?_⟩
      simpa [Cpu.frame] using hload

/-- After the call, the exit takes the frame that is found. -/
theorem stubExit_found {env : ContextEnv} {target next : Word} {slot : Nat} {error : Word}
    {i c c' c₂ : Cpu} (h : Entered i (errorOf slot error) c) (hready : StubReady c c')
    (hret : CallReturns (c.reg .rsp + BitVec.ofNat 64 (40 + 8 * (errorOf slot 0).toList.length))
      (call target next c') c₂) :
    ∃ c₃ : Cpu, stubExit env c₂ = (if env.loadable ((foundFrame slot error i).cs.setWidth 16)
        ((foundFrame slot error i).ss.setWidth 16) then some c₃ else none)
      ∧ c₃.rip = (foundFrame slot error i).rip
      ∧ c₃.reg = (c.set .rsp (foundFrame slot error i).rsp).reg := by
  have hn : 40 + 8 * (errorOf slot 0).toList.length ≤ 48 := by
    rw [errorOf]
    split <;> decide
  obtain ⟨hsp, hsaved, hframe⟩ := @StubReady.returns _ _ target next hready _ hn _ hret
  obtain ⟨c₃, hexit, hrip, hreg, -⟩ := @stubExit_frame env _ _ _ hsp hsaved (h.found hframe)
  exact ⟨c₃, hexit, hrip, hreg⟩

/-- An exception is served if `r10` points 120 bytes below its frame, and the function in
C does not return, or there is no error code, or the error code with what stands above it
makes the same way back. -/
theorem servesFault_iff (env : ContextEnv) (impl : Option FaultHandler → Word) (next : Word)
    (slot : Nat) (f : FaultHandler) (error : Word) (i c : Cpu)
    (h : Entered i (errorOf slot error) c) (hload : env.loadable i.cs i.ss = true) :
    ServesFault env impl next slot f i c ↔
      i.reg .r10 + 120 = frameAddress slot f c ∧ (f.loops = false → WayBack env slot error i) := by
  obtain ⟨c', hcall, hready, hrdi⟩ := callHiLevel_eq impl next f c
  -- The handlers take their frame from `r10`, and the stub leaves `r10` as it was interrupted.
  have hr10 : (call (impl (some f)) next c').reg .rdi = i.reg .r10 + 120 := by
    rw [← h.regs .r10 (by decide), ← hrdi]
    simp [call, Cpu.push]
  constructor
  · rintro ⟨c₁, hcall₁, -, hframe, hreturn⟩
    cases hcall.symm.trans hcall₁
    -- One handler that returns is enough to find out where the stub goes: the one that does
    -- nothing.
    refine ⟨hr10 ▸ hframe, fun hloops => (wayBack_iff hload).mpr ?_⟩
    have hret := callReturns_ret
      (c.reg .rsp + BitVec.ofNat 64 (40 + 8 * (errorOf slot 0).toList.length))
      (call (impl (some f)) next c')
    obtain ⟨c₃, hexit, hrip, hreg⟩ := @stubExit_found env _ _ _ _ _ _ _ _ h hready hret
    obtain ⟨c₄, hexit₄, hrip₄, hreg₄⟩ := hreturn _ hloops hret
    rw [hexit] at hexit₄
    split at hexit₄
    · case isTrue hloads =>
        cases hexit₄
        refine ⟨hrip ▸ hrip₄, ?_, hloads⟩
        rw [← hreg₄, hreg]
        simp
    · cases hexit₄
  · rintro ⟨hframe, hback⟩
    refine ⟨_, hcall, rfl, hr10.trans hframe, ?_⟩
    intro c₂ hloops hret
    obtain ⟨hrip, hrsp, hloads⟩ := (wayBack_iff hload).mp (hback hloops)
    obtain ⟨c₃, hexit, hrip₃, hreg₃⟩ := @stubExit_found env _ _ _ _ _ _ _ _ h hready hret
    -- Every register but the stack pointer is popped as it was pushed.
    refine ⟨c₃, hexit.trans (if_pos hloads), hrip₃.trans hrip, ?_⟩
    rw [hreg₃, hrsp]
    funext r
    by_cases hr : r = .rsp
    · rw [hr]
      simp
    · simp [hr, h.regs r hr]

/-- The stub of the divide error. -/
theorem servesFault_iff_divide :
    ServesFault topEnv (fun _ => 0xffffffff80106000) 0xffffffff80107000 0 .divideByZero
        interrupted (stubEntered none) ↔
      interrupted.reg .r10 + 120 = frameAddress 0 .divideByZero (stubEntered none)
        ∧ (FaultHandler.divideByZero.loops = false → WayBack topEnv 0 0 interrupted) :=
  servesFault_iff topEnv (fun _ => 0xffffffff80106000) 0xffffffff80107000 0 .divideByZero 0
    interrupted (stubEntered none) (entered_deliver _ _ none interrupted) (by decide)

/-- A division by zero in the interrupted thread: its `r10` is no frame's address. -/
theorem divide_fault_lost :
    (0, FaultHandler.divideByZero) ∈ faultsToInstall ∧ Entered interrupted none (stubEntered none)
      ∧ ¬ ServesFault topEnv (fun _ => 0xffffffff80106000) 0xffffffff80107000 0 .divideByZero
          interrupted (stubEntered none) := by
  refine ⟨by decide, entered_deliver _ _ none interrupted, ?_⟩
  rintro ⟨c₁, hcall₁, -, hframe, -⟩
  obtain ⟨c', hcall, -, hrdi⟩ := callHiLevel_eq (fun _ => 0xffffffff80106000) 0xffffffff80107000
    .divideByZero (stubEntered none)
  cases hcall.symm.trans hcall₁
  have hne : (stubEntered none).reg .r10 + 120
      ≠ frameAddress 0 .divideByZero (stubEntered none) := by decide
  apply hne
  rw [← hframe, ← hrdi]
  simp [call, Cpu.push]

end MString
