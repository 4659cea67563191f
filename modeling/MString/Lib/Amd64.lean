import MString.Lib.ByteMemory

/-!
# `MString.Lib.Amd64`: the instructions a context switch is made of

The part of the amd64 instruction set that saves and restores a register file:
moves, stack pushes and pops, the arithmetic that aligns a stack pointer, the
`fxsave` pair, and the transfers `call`, `ret` and `iretq`. A straight piece of
code is a list of `Instr` and `exec` runs it; a fault is `none`. Control transfers
are functions on the state, for the code between them is straight.

* `exec_pushes`: pushing a list of registers leaves their values one above the
  other, the last pushed lowest, and touches nothing else.
* `exec_pops`: popping a list of registers from values that stand in its order
  loads them and touches nothing else.

The two compose: what `pushes rs` leaves is what `pops rs.reverse` takes.

Memory is flat: the code that runs here sees every address the same way under
each value of `cr3`. Nothing here mentions a program.
-/

set_option autoImplicit false

namespace Amd64

open ByteMemory

/-- The general registers. -/
inductive Reg where
  | rax | rbx | rcx | rdx | rsi | rdi | rbp | rsp
  | r8 | r9 | r10 | r11 | r12 | r13 | r14 | r15
deriving DecidableEq, Repr

/-- A segment selector. -/
abbrev Selector := BitVec 16

/-- The 512 bytes `fxsave` writes. -/
abbrev FxImage := Fin 512 → Byte

/-- What the modelled instructions see of the processor: registers, flags, the stack segment,
the directory in use, the floating-point state and the memory. -/
structure Cpu where
  reg : Reg → Word
  rip : Word
  rflags : Word
  cs : Selector
  ss : Selector
  cr3 : Word
  fx : FxImage
  mem : Memory

/-! ### Flags -/

def CF : Nat := 0
def PF : Nat := 2
def AF : Nat := 4
def ZF : Nat := 6
def SF : Nat := 7
def IF : Nat := 9
def OF : Nat := 11

/-- The flags with one of them set or cleared. -/
def setFlag (f : Word) (i : Nat) (b : Bool) : Word :=
  if b then f ||| BitVec.twoPow 64 i else f &&& ~~~BitVec.twoPow 64 i

/-- One flag changes, the others do not. -/
theorem getLsbD_setFlag (f : Word) {i j : Nat} (b : Bool) (hj : j < 64) :
    (setFlag f i b).getLsbD j = if i = j then b else f.getLsbD j := by
  cases b with
  | true =>
      rw [setFlag, if_pos rfl, BitVec.getLsbD_or, BitVec.getLsbD_twoPow]
      by_cases hij : i = j <;> simp [hij, hj]
  | false =>
      rw [setFlag, if_neg Bool.false_ne_true, BitVec.getLsbD_and, BitVec.getLsbD_not,
        BitVec.getLsbD_twoPow]
      by_cases hij : i = j <;> simp [hij, hj]

/-- Even parity of the low byte. -/
def parity (w : Word) : Bool :=
  (List.range 8).foldl (fun p i => p ^^ w.getLsbD i) true

/-- The status flags after an operation with this result. -/
def status (f result : Word) (carry adjust overflow : Bool) : Word :=
  setFlag (setFlag (setFlag (setFlag (setFlag (setFlag f CF carry) PF (parity result))
    AF adjust) SF result.msb) OF overflow) ZF (result == 0)

/-- Of the status flags of an operation, the zero flag tells whether the result is zero. -/
@[simp] theorem getLsbD_status_ZF (f result : Word) (carry adjust overflow : Bool) :
    (status f result carry adjust overflow).getLsbD ZF = (result == 0) := by
  rw [status, getLsbD_setFlag _ _ (by decide), if_pos rfl]

/-- The flags of `x - y`, as `sub` and `cmp` set them. -/
def subFlags (f x y : Word) : Word :=
  status f (x - y) (decide (x.toNat < y.toNat)) (decide (x.toNat % 16 < y.toNat % 16))
    (BitVec.ssubOverflow x y)

/-- The flags of `x + y`. -/
def addFlags (f x y : Word) : Word :=
  status f (x + y) (decide (2 ^ 64 ≤ x.toNat + y.toNat))
    (decide (16 ≤ x.toNat % 16 + y.toNat % 16)) (BitVec.saddOverflow x y)

/-! ### Instructions -/

/-- Operands stand in the order of the assembler: source first. -/
inductive Instr where
  | pushq (src : Reg)
  | pushqImm (imm : Word)
  | popq (dst : Reg)
  | movq (src dst : Reg)
  | movqImm (imm : Word) (dst : Reg)
  /-- `movl $imm, dst`: the upper half of the register is cleared. -/
  | movlImm (imm : BitVec 32) (dst : Reg)
  | andqImm (imm : Word) (dst : Reg)
  | addq (src dst : Reg)
  | addqImm (imm : Word) (dst : Reg)
  | subq (src dst : Reg)
  | cmpq (src dst : Reg)
  /-- `movq src, (base)`. -/
  | store (src base : Reg)
  | fxsave (base : Reg)
  | fxrstor (base : Reg)
  | movFromCr3 (dst : Reg)
  | movToCr3 (src : Reg)
  | cli
  | sti
deriving DecidableEq, Repr

namespace Cpu

/-- A register is loaded. -/
def set (c : Cpu) (r : Reg) (w : Word) : Cpu :=
  { c with reg := Function.update c.reg r w }

/-- A word is pushed. -/
def push (c : Cpu) (w : Word) : Cpu :=
  { c.set .rsp (c.reg .rsp - 8) with mem := ByteMemory.store c.mem (c.reg .rsp - 8) w }

/-- The word on top of the stack. -/
def top (c : Cpu) : Word := load c.mem (c.reg .rsp)

end Cpu

/-- `fxsave` and `fxrstor` fault on an address that is not a multiple of 16. -/
def Aligned (a : Addr) : Prop := a &&& 15 = 0

instance (a : Addr) : Decidable (Aligned a) := inferInstanceAs (Decidable (_ = _))

/-- One instruction. `none` is a fault, or an operand that the model does not have. -/
def step : Instr → Cpu → Option Cpu
  | .pushq src, c => some (c.push (c.reg src))
  | .pushqImm imm, c => some (c.push imm)
  -- The register is written after `rsp` has moved: `popq %rsp` loads the value.
  | .popq dst, c => some ((c.set .rsp (c.reg .rsp + 8)).set dst c.top)
  | .movq src dst, c => some (c.set dst (c.reg src))
  | .movqImm imm dst, c => some (c.set dst imm)
  | .movlImm imm dst, c => some (c.set dst (imm.setWidth 64))
  | .andqImm imm dst, c =>
      let w := c.reg dst &&& imm
      some { c.set dst w with rflags := status c.rflags w false false false }
  | .addq src dst, c =>
      some { c.set dst (c.reg dst + c.reg src) with
        rflags := addFlags c.rflags (c.reg dst) (c.reg src) }
  | .addqImm imm dst, c =>
      some { c.set dst (c.reg dst + imm) with rflags := addFlags c.rflags (c.reg dst) imm }
  | .subq src dst, c =>
      some { c.set dst (c.reg dst - c.reg src) with
        rflags := subFlags c.rflags (c.reg dst) (c.reg src) }
  | .cmpq src dst, c => some { c with rflags := subFlags c.rflags (c.reg dst) (c.reg src) }
  | .store src base, c => some { c with mem := ByteMemory.store c.mem (c.reg base) (c.reg src) }
  | .fxsave base, c =>
      if Aligned (c.reg base) then some { c with mem := write c.mem (c.reg base) c.fx } else none
  | .fxrstor base, c =>
      if Aligned (c.reg base) then some { c with fx := read c.mem (c.reg base) 512 } else none
  | .movFromCr3 dst, c => some (c.set dst c.cr3)
  | .movToCr3 src, c => some { c with cr3 := c.reg src }
  | .cli, c => some { c with rflags := setFlag c.rflags IF false }
  | .sti, c => some { c with rflags := setFlag c.rflags IF true }

/-- Run a straight piece of code. -/
def exec : List Instr → Cpu → Option Cpu
  | [], c => some c
  | i :: is, c => (step i c).bind (exec is)

/-- Two pieces of straight-line code in a row. -/
theorem exec_append (is js : List Instr) (c : Cpu) :
    exec (is ++ js) c = (exec is c).bind (exec js) := by
  induction is generalizing c with
  | nil => rfl
  | cons i is ih =>
      rw [List.cons_append, exec, exec, Option.bind_assoc]
      congr 1
      funext c'
      exact ih c'

/-- The second runs from where the first has come to. -/
theorem exec_append_some {is js : List Instr} {c c' : Cpu} (h : exec is c = some c') :
    exec (is ++ js) c = exec js c' := by
  rw [exec_append, h, Option.bind_some]

/-- The instructions that write to memory. -/
def Instr.stores : Instr → Bool
  | .pushq _ | .pushqImm _ | .store _ _ | .fxsave _ => true
  | _ => false

/-- An instruction that is no store leaves the memory alone. -/
theorem step_mem {i : Instr} {c c' : Cpu} (hi : i.stores = false) (h : step i c = some c') :
    c'.mem = c.mem := by
  cases i with
  | pushq | pushqImm | store | fxsave => cases hi
  | fxrstor base =>
      rw [step] at h
      split at h
      · cases h
        rfl
      · cases h
  | _ => cases h; rfl

/-- Code without stores leaves memory alone. -/
theorem exec_mem {is : List Instr} (his : ∀ i ∈ is, i.stores = false) {c c' : Cpu}
    (h : exec is c = some c') : c'.mem = c.mem := by
  induction is generalizing c with
  | nil => cases h; rfl
  | cons i is ih =>
      rw [exec, Option.bind_eq_some_iff] at h
      obtain ⟨c₁, hstep, hrest⟩ := h
      rw [ih (fun j hj => his j (List.mem_cons_of_mem _ hj)) hrest]
      exact step_mem (his i List.mem_cons_self) hstep

/-! ### Transfers -/

/-- `call target`, with the address of the instruction after it. -/
def call (target next : Word) (c : Cpu) : Cpu :=
  { c.push next with rip := target }

/-- `ret` takes the address on top of the stack. -/
def ret (c : Cpu) : Cpu :=
  { c.set .rsp (c.reg .rsp + 8) with rip := c.top }

/-- What an interrupt pushes, lowest address first, above the error code. -/
structure InterruptFrame where
  rip : Word
  cs : Word
  rflags : Word
  rsp : Word
  ss : Word

namespace InterruptFrame

/-- The five words, from the lowest address up. -/
def words (f : InterruptFrame) : List Word := [f.rip, f.cs, f.rflags, f.rsp, f.ss]

/-- The frame that stands at `a`. -/
def loadFrom (m : Memory) (a : Addr) : InterruptFrame where
  rip := load m a
  cs := load m (a + 8)
  rflags := load m (a + 8 + 8)
  rsp := load m (a + 8 + 8 + 8)
  ss := load m (a + 8 + 8 + 8 + 8)

/-- What `iretq` loads is what stands there. -/
theorem loadFrom_eq {m : Memory} {a : Addr} {f : InterruptFrame} (h : Holds m a f.words) :
    loadFrom m a = f := by
  obtain ⟨hrip, hcs, hrflags, hrsp, hss, -⟩ := h
  rw [loadFrom, hrip, hcs, hrflags, hrsp, hss]

end InterruptFrame

/-- `iretq`. `loadable cs ss` says whether the descriptor tables let the two
selectors be loaded; where they do not, the instruction faults. -/
def iretq (loadable : Selector → Selector → Bool) (c : Cpu) : Option Cpu :=
  let f := InterruptFrame.loadFrom c.mem (c.reg .rsp)
  if loadable (f.cs.setWidth 16) (f.ss.setWidth 16) then
    some { c.set .rsp f.rsp with
      rip := f.rip, cs := f.cs.setWidth 16, ss := f.ss.setWidth 16, rflags := f.rflags }
  else none

/-- Returning to the frame on the stack. -/
theorem iretq_frame {loadable : Selector → Selector → Bool} {c : Cpu} {f : InterruptFrame}
    (h : Holds c.mem (c.reg .rsp) f.words) :
    iretq loadable c = if loadable (f.cs.setWidth 16) (f.ss.setWidth 16) then
      some { c.set .rsp f.rsp with
        rip := f.rip, cs := f.cs.setWidth 16, ss := f.ss.setWidth 16, rflags := f.rflags }
    else none := by
  rw [iretq, InterruptFrame.loadFrom_eq h]

/-- Its selectors can be loaded. -/
theorem iretq_eq {loadable : Selector → Selector → Bool} {c : Cpu} {f : InterruptFrame}
    (h : Holds c.mem (c.reg .rsp) f.words)
    (hload : loadable (f.cs.setWidth 16) (f.ss.setWidth 16) = true) :
    iretq loadable c = some { c.set .rsp f.rsp with
      rip := f.rip, cs := f.cs.setWidth 16, ss := f.ss.setWidth 16, rflags := f.rflags } :=
  (iretq_frame h).trans (if_pos hload)

/-- An entry of the interrupt descriptor table. -/
structure Gate where
  selector : Selector
  offset : Word
  /-- An interrupt gate clears `IF`, a trap gate does not. -/
  interrupt : Bool

/-- The stack an interrupt is taken on: the current one, or one from the task
state segment. -/
structure EntryStack where
  base : Word
  ss : Selector

namespace Cpu

/-- Push one quadword after the other. -/
def pushAll (c : Cpu) (ws : List Word) : Cpu := ws.foldl push c

/-- The frame an interrupt of `c` would push. -/
def frame (c : Cpu) : InterruptFrame where
  rip := c.rip
  cs := c.cs.setWidth 64
  rflags := c.rflags
  rsp := c.reg .rsp
  ss := c.ss.setWidth 64

end Cpu

def TF : Nat := 8
def NT : Nat := 14
def RF : Nat := 16
def VM : Nat := 17

/-- Taking an interrupt or exception in 64-bit mode: the stack pointer is rounded
down to a multiple of 16, the frame goes on the stack, an error code below it where
the vector has one, and the gate's handler starts. -/
def deliver (g : Gate) (s : EntryStack) (error : Option Word) (c : Cpu) : Cpu :=
  let c' := (c.set .rsp (s.base &&& ~~~15#64)).pushAll (c.frame.words.reverse ++ error.toList)
  let f := setFlag (setFlag (setFlag (setFlag c.rflags TF false) NT false) RF false) VM false
  { c' with
    rip := g.offset, cs := g.selector, ss := s.ss
    rflags := if g.interrupt then setFlag f IF false else f }

/-! ### Runs of pushes and pops -/

namespace Cpu

variable (c : Cpu)

/-- A register that was loaded, and the others. -/
@[simp] theorem set_reg (r q : Reg) (w : Word) :
    (c.set r w).reg q = if q = r then w else c.reg q := by
  rw [set]
  exact Function.update_apply c.reg r w q

@[simp] theorem pushAll_nil : c.pushAll [] = c := rfl

@[simp] theorem pushAll_cons (w : Word) (ws : List Word) :
    c.pushAll (w :: ws) = (c.push w).pushAll ws := rfl

/-- Pushing changes `rsp` and memory. -/
theorem pushAll_eq (ws : List Word) :
    c.pushAll ws = { c.set .rsp (c.reg .rsp - BitVec.ofNat 64 (8 * ws.length)) with
      mem := (c.pushAll ws).mem } := by
  induction ws generalizing c with
  | nil => simp [set]
  | cons w ws ih =>
      rw [pushAll_cons, ih]
      simp [push, set, sub_sub, eight_add]

/-- A push leaves what is on the stack alone. -/
theorem agree_push (w : Word) : Agree (c.reg .rsp) (2 ^ 64 - 8) c.mem (c.push w).mem :=
  agree_store_below c.mem (c.reg .rsp) w

/-- Pushing writes below the stack pointer only. -/
theorem agree_pushAll (ws : List Word) (hlen : 8 * ws.length ≤ 2 ^ 64) :
    Agree (c.reg .rsp) (2 ^ 64 - 8 * ws.length) c.mem (c.pushAll ws).mem := by
  induction ws generalizing c with
  | nil => exact Agree.refl
  | cons w ws ih =>
      rw [List.length_cons] at hlen
      rw [pushAll_cons, List.length_cons]
      have hrest := ih (c.push w) (by omega)
      have hsp : (c.push w).reg .rsp = c.reg .rsp - 8 := by simp [push]
      rw [hsp] at hrest
      refine ((c.agree_push w).take (by omega)).trans (hrest.sub ?_)
      rw [sub_sub_cancel]
      simp
      omega

/-- What was pushed stands on the stack, the last push lowest. -/
theorem holds_pushAll (ws : List Word) (hlen : 8 * ws.length ≤ 2 ^ 64) :
    Holds (c.pushAll ws).mem ((c.pushAll ws).reg .rsp) ws.reverse := by
  induction ws generalizing c with
  | nil => trivial
  | cons w ws ih =>
      rw [pushAll_cons, List.reverse_cons, holds_append]
      rw [List.length_cons] at hlen
      refine ⟨ih (c.push w) (by omega), ?_, trivial⟩
      have hsp : ((c.push w).pushAll ws).reg .rsp + BitVec.ofNat 64 (8 * ws.reverse.length)
          = c.reg .rsp - 8 := by
        rw [pushAll_eq, List.length_reverse]
        simp [push]
      have hw := (c.push w).agree_pushAll ws (by omega)
      have hpush : (c.push w).reg .rsp = c.reg .rsp - 8 := by simp [push]
      rw [hpush] at hw
      rw [hsp, load_congr (hw.take (by omega))]
      exact load_store w

end Cpu

/-- Pushing registers other than `rsp` pushes the values they have now. -/
theorem exec_pushes_eq {rs : List Reg} (hrs : Reg.rsp ∉ rs) (c : Cpu) :
    exec (rs.map .pushq) c = some (c.pushAll (rs.map c.reg)) := by
  induction rs generalizing c with
  | nil => rfl
  | cons r rs ih =>
      rw [List.mem_cons, not_or] at hrs
      have hreg : rs.map (c.push (c.reg r)).reg = rs.map c.reg := by
        apply List.map_congr_left
        intro q hq
        have hne : q ≠ .rsp := fun h => hrs.2 (h ▸ hq)
        simp [Cpu.push, hne]
      rw [List.map_cons, exec, step, Option.bind_some, ih hrs.2, hreg]
      rfl

/-- The values stand on the stack, the first from the highest address, and what was
there before is untouched. -/
theorem exec_pushes {rs : List Reg} (hrs : Reg.rsp ∉ rs) (hlen : 8 * rs.length ≤ 2 ^ 64)
    (c : Cpu) :
    ∃ reg m, exec (rs.map .pushq) c = some { c with reg, mem := m }
      ∧ reg .rsp = c.reg .rsp - BitVec.ofNat 64 (8 * rs.length)
      ∧ (∀ r, r ≠ .rsp → reg r = c.reg r)
      ∧ Holds m (reg .rsp) (rs.reverse.map c.reg)
      ∧ Agree (c.reg .rsp) (2 ^ 64 - 8 * rs.length) c.mem m := by
  have hlen' : 8 * (rs.map c.reg).length ≤ 2 ^ 64 := by rwa [List.length_map]
  have heq := c.pushAll_eq (rs.map c.reg)
  have hholds := c.holds_pushAll (rs.map c.reg) hlen'
  have hagree := c.agree_pushAll (rs.map c.reg) hlen'
  rw [List.length_map] at heq hagree
  rw [← List.map_reverse] at hholds
  refine ⟨(c.pushAll (rs.map c.reg)).reg, (c.pushAll (rs.map c.reg)).mem, ?_, ?_, ?_, hholds,
    hagree⟩
  · rw [exec_pushes_eq hrs, heq]
    rfl
  · rw [heq]
    simp
  · intro r hr
    rw [heq]
    simp [hr]

/-- Popping registers loads the values on the stack, the first from the lowest
address. -/
theorem exec_pops {rs : List Reg} (hnodup : rs.Nodup) (hrs : Reg.rsp ∉ rs) {vs : List Word}
    (c : Cpu) (hlen : vs.length = rs.length) (h : Holds c.mem (c.reg .rsp) vs) :
    ∃ reg : Reg → Word, exec (rs.map .popq) c = some { c with reg }
      ∧ reg .rsp = c.reg .rsp + BitVec.ofNat 64 (8 * rs.length)
      ∧ rs.map reg = vs
      ∧ ∀ r, r ∉ rs → r ≠ .rsp → reg r = c.reg r := by
  induction rs generalizing c vs with
  | nil =>
      rw [List.length_nil, List.length_eq_zero_iff] at hlen
      exact ⟨c.reg, rfl, by simp, by simp [hlen], fun _ _ _ => rfl⟩
  | cons r rs ih =>
      cases vs with
      | nil => simp at hlen
      | cons v vs =>
        rw [List.mem_cons, not_or] at hrs
        rw [List.nodup_cons] at hnodup
        rw [List.length_cons, List.length_cons, Nat.succ_inj] at hlen
        -- One `popq`: the top of the stack goes to `r`, and the stack pointer goes up by a
        -- word.
        let c' : Cpu := (c.set .rsp (c.reg .rsp + 8)).set r c.top
        have hsp : c'.reg .rsp = c.reg .rsp + 8 := by simp [c', hrs.1]
        have hstack : Holds c'.mem (c'.reg .rsp) vs := by
          rw [hsp]
          exact h.2
        obtain ⟨reg, hexec, hregsp, hregs, hothers⟩ := ih hnodup.2 hrs.2 c' hlen hstack
        refine ⟨reg, ?_, ?_, ?_, ?_⟩
        · rw [List.map_cons, exec, step, Option.bind_some]
          exact hexec
        · rw [hregsp, hsp, add_assoc, List.length_cons]
          exact congrArg (c.reg .rsp + ·) (eight_add rs.length)
        · -- The later instructions do not pop `r` again.
          rw [List.map_cons, hregs, hothers r hnodup.1 (Ne.symm hrs.1)]
          have hr : c'.reg r = v := by
            rw [← h.1]
            simp [c', Cpu.top]
          rw [hr]
        · intro q hq hqsp
          rw [List.mem_cons, not_or] at hq
          rw [hothers q hq.2 hqsp]
          simp [c', hq.1, hqsp]

end Amd64
