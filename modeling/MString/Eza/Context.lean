import MString.Lib.Amd64
import MString.Eza.Task

/-!
# `MString.Eza.Context`: saving and restoring a context

The macros of `include/eza/amd64/context.h`, `arch_hw_activate_task` of
`eza/amd64/sched/context.S`, `child_fork_path` of `eza/amd64/asm.S` and
`arch_activate_task` of `include/eza/amd64/scheduler.h`.

All tasks share the kernel's directory, so a switch of `cr3` does not change what
an address of the kernel means, and memory is one for all of them.
-/

set_option autoImplicit false

namespace MString

open Amd64 ByteMemory

/-- The operands of `SAVE_GPR`. -/
def savedGprs : List Reg :=
  [.r8, .r9, .r10, .r11, .r12, .r13, .r14, .r15, .rbx, .rcx, .rdx, .rdi, .rsi, .rbp]

/-- The operands of `RESTORE_GPR`. -/
def restoredGprs : List Reg :=
  [.rbp, .rsi, .rdi, .rdx, .rcx, .rbx, .r15, .r14, .r13, .r12, .r11, .r10, .r9, .r8]

/-- `SAVE_GPR`. -/
def saveGpr : List Instr := savedGprs.map .pushq

/-- `RESTORE_GPR`. -/
def restoreGpr : List Instr := restoredGprs.map .popq

/-- `SAVED_GPR_SIZE`. -/
def SAVED_GPR_SIZE : Word := 14 * 8

/-- `SAVE_MM`. -/
def saveMm : List Instr :=
  [.movq .rsp .r8, .andqImm 0xfffffffffffffe00 .r8, .movq .rsp .r9, .subq .r8 .r9,
    .addqImm 512 .r9, .subq .r9 .rsp, .fxsave .rsp, .pushq .r9]

/-- `RESTORE_MM`. -/
def restoreMm : List Instr := [.popq .r10, .fxrstor .rsp, .addq .r10 .rsp]

/-- `SAVE_ALL`. -/
def saveAll : List Instr := saveGpr ++ .cli :: saveMm

/-- `RESTORE_ALL`. -/
def restoreAll : List Instr := restoreMm ++ restoreGpr

/-- What the assembler code depends on and does not change. -/
structure ContextEnv where
  /-- The address of `arch_hw_activate_task`. -/
  archHwActivateTask : Word
  /-- The address of `__return_from_sleep`. -/
  returnFromSleep : Word
  /-- The address of `child_fork_path`. -/
  childForkPath : Word
  /-- The selectors that the descriptor table lets `iretq` load. -/
  loadable : Selector → Selector → Bool
  labels : returnFromSleep ≠ childForkPath

/-- The saving half of `arch_hw_activate_task`. -/
def sleepPath (env : ContextEnv) : List Instr :=
  .pushq .rax :: saveAll ++ [.pushqImm env.returnFromSleep]

/-- The part of `arch_hw_activate_task` that loads the directory in `rdi`, up to the
label `lcr3`. -/
def switchCr3 (c : Cpu) : Option Cpu := do
  let c ← exec [.movFromCr3 .rax, .cmpq .rdi .rax] c
  if c.rflags.getLsbD ZF then some c else exec [.movq .rdi .rax, .movToCr3 .rax] c

/-- `arch_hw_activate_task`, up to and with its `retq`. -/
def archHwActivateTask (env : ContextEnv) (c : Cpu) : Option Cpu := do
  let c ← exec (sleepPath env) c
  let c ← switchCr3 c
  let c ← exec [.store .rsp .rdx, .movq .rsi .rsp] c
  return ret c

/-- The code at `__return_from_sleep`. -/
def returnFromSleep (c : Cpu) : Option Cpu := do
  let c ← exec restoreAll c
  let c ← exec [.popq .rax, .sti] c
  return ret c

/-- `child_fork_path`. -/
def childForkPath (env : ContextEnv) (c : Cpu) : Option Cpu := do
  let c ← exec restoreAll c
  iretq env.loadable c

/-- Where a switch goes on: the code at the address that `retq` has popped. -/
def resume (env : ContextEnv) (c : Cpu) : Option Cpu :=
  if c.rip = env.returnFromSleep then returnFromSleep c
  else if c.rip = env.childForkPath then childForkPath env c
  else none

/-- Where `rsp` stands in an `arch_context_t`; `cr3` is its first field. -/
def CONTEXT_RSP : Word := 8

/-- The arguments that `arch_activate_task` passes, in the task with the context at
`own` and for the task with the context at `other`. -/
def activateArgs (own other : Addr) (c : Cpu) : Cpu :=
  ((c.set .rdi (load c.mem other)).set .rsi (load c.mem (other + CONTEXT_RSP))).set .rdx
    (own + CONTEXT_RSP)

/-- `arch_activate_task`, from the call at whose return address is `next` to the first
instruction of the other task's own code. -/
def archActivateTask (env : ContextEnv) (own other : Addr) (next : Word) (c : Cpu) :
    Option Cpu := do
  let c ← archHwActivateTask env (call env.archHwActivateTask next (activateArgs own other c))
  resume env c

end MString
