import MString.Eza.Context

/-!
# `MString.Eza.Stubs`: where interrupts and exceptions enter

The stubs of `eza/amd64/asm.S`: `low_irq_stubs` with `common_interrupt`, and the fault
handlers with `common_exception_path`. Each has an entry, up to and with the call of the
handler in C, and both leave by the same instructions. The tables that say which stub is
installed where are those of `eza/amd64/fault.c` and `include/eza/amd64/fault.h`.
-/

set_option autoImplicit false

namespace MString

open Amd64 ByteMemory

/-! ### Interrupts -/

/-- How often `low_irq_stubs` repeats its stub. -/
def NUM_IRQ_STUBS : Nat := 16

/-- The stub of `low_irq_stubs` with the number `v`, and `common_interrupt` up to its call
of `do_irq`. -/
def irqEntry (v : Nat) : List Instr :=
  [.pushq .rax, .movqImm (BitVec.ofNat 64 v) .rax] ++ saveAll ++ [.movq .rax .rdi]

/-- The call of `do_irq`, with the address of the instruction after it. -/
def callDoIrq (doIrq next : Word) (v : Nat) (c : Cpu) : Option Cpu := do
  let c ← exec (irqEntry v) c
  return call doIrq next c

/-- The end of `common_interrupt` and of `common_exception_path`. -/
def stubExit (env : ContextEnv) (c : Cpu) : Option Cpu := do
  let c ← exec restoreAll c
  let c ← exec [.popq .rax] c
  iretq env.loadable c

/-! ### Exceptions -/

/-- The handlers of `asm.S`, without their suffix `_fault_handler`. -/
inductive FaultHandler where
  | divideByZero | debug | nmi | breakpoint | overflow | boundRange | invalidOpcode
  | deviceNotAvailable | doublefault | invalidTss | segmentNotPresent | stack
  | generalProtection | pageFault | fpu | alignmentCheck | machineCheck | simd
  | securityException
deriving DecidableEq, Repr

/-- `faults_to_install`: the slot of the descriptor table and the handler in it. -/
def faultsToInstall : List (Nat × FaultHandler) :=
  [(0, .divideByZero), (1, .debug), (2, .nmi), (3, .breakpoint), (4, .overflow),
    (5, .boundRange), (6, .invalidOpcode), (7, .deviceNotAvailable), (8, .doublefault),
    (10, .invalidTss), (11, .segmentNotPresent), (12, .stack), (13, .generalProtection),
    (14, .pageFault), (16, .fpu), (17, .alignmentCheck), (18, .machineCheck), (19, .simd),
    (30, .securityException)]

/-- The number that a handler loads into `eax`. -/
def FaultHandler.number : FaultHandler → BitVec 32
  | .divideByZero => 0x0
  | .debug => 0x1
  | .nmi => 0x2
  | .breakpoint => 0x3
  | .overflow => 0x4
  | .boundRange => 0x5
  | .invalidOpcode => 0x6
  | .deviceNotAvailable => 0x7
  | .doublefault => 0x8
  | .invalidTss => 10
  | .segmentNotPresent => 11
  | .stack => 12
  | .generalProtection => 13
  | .pageFault => 14
  | .fpu => 16
  | .alignmentCheck => 17
  | .machineCheck => 18
  | .simd => 19
  | .securityException => 30

/-- `hi_level_fault_handlers`: the function in C of a handler, `none` where it is
`reserved_fault_handler_impl`. -/
def hiLevelFaultHandlers : List (Option FaultHandler) :=
  [some .divideByZero, some .debug, some .nmi, some .breakpoint, some .overflow,
    some .boundRange, some .invalidOpcode, some .deviceNotAvailable, some .doublefault, none,
    some .invalidTss, some .segmentNotPresent, some .stack, some .generalProtection,
    some .pageFault, none, some .fpu, some .alignmentCheck, some .machineCheck, some .simd,
    none, none, none, none, none, none, none, none, none, none, some .securityException, none]

/-- The functions that take an `interrupt_stack_frame_err_t *`. -/
def FaultHandler.takesErrorFrame : FaultHandler → Bool
  | .doublefault | .invalidTss | .segmentNotPresent | .stack | .generalProtection | .pageFault
  | .alignmentCheck => true
  | _ => false

/-- The functions that end in a loop. -/
def FaultHandler.loops : FaultHandler → Bool
  | .generalProtection | .pageFault => true
  | _ => false

/-- The vectors for which the processor pushes an error code. -/
def pushesErrorCode (slot : Nat) : Bool := slot ∈ [8, 10, 11, 12, 13, 14, 17, 21, 29, 30]

/-- A fault handler, and `common_exception_path` up to its call. -/
def faultEntry (f : FaultHandler) : List Instr :=
  [.pushq .rax, .movlImm f.number .rax] ++ saveAll
    ++ [.movq .r10 .rdi, .addqImm (SAVED_GPR_SIZE + 8) .rdi]

/-- The call through the table, at whose entries the functions in C stand at the addresses
`impl`. -/
def callHiLevel (impl : Option FaultHandler → Word) (next : Word) (f : FaultHandler) (c : Cpu) :
    Option Cpu := do
  let c ← exec (faultEntry f) c
  let h ← hiLevelFaultHandlers[(c.reg .rax).toNat]?
  return call (impl h) next c

end MString
