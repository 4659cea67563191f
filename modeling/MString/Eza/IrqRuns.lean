import MString.Eza.I8259
import MString.Eza.Idt
import MString.Eza.Interrupt
import MString.Lib.Pic

/-!
# `MString.Eza.IrqRuns`: interrupts while the kernel runs

The driver of `eza/amd64/i8259.c` on the two controllers behind its ports, the rest of
`eza/generic_api/interrupt.c`, `arch_initialize_irqs` of `eza/amd64/interrupt.c`, and what
happens from then on: devices ask for interrupts, the processor takes them through the
descriptor table, and calls of `do_irq` go on, one inside the other where a handler lets it.
-/

set_option autoImplicit false

namespace MString

open Amd64

/-! ### The driver on any device -/

/-- A device with ports. -/
structure PortIo (σ : Type) where
  outb : Port → BitVec 8 → σ → σ
  inb : Port → σ → BitVec 8

/-- The ports that remember what was written to them. -/
def lastWritten : PortIo Ports := ⟨outb, inb⟩

namespace PortIo

variable {σ : Type} (io : PortIo σ)

/-- `i8259a_enable_all`. -/
def enableAll (s : σ) : σ :=
  io.outb (I8259PIC1_BASE + 1) 0x0 (io.outb (I8259PIC0_BASE + 1) 0x0 s)

/-- `i8259a_disable_all`. -/
def disableAll (s : σ) : σ :=
  io.outb (I8259PIC1_BASE + 1) 0xff (io.outb (I8259PIC0_BASE + 1) 0xff s)

/-- `i8259a_enable_irq`. -/
def enableIrq (irq : BitVec 32) (s : σ) : σ :=
  if irq < 0x08 then
    let mask := io.inb (I8259PIC0_BASE + 1) s
    io.outb (I8259PIC0_BASE + 1) (clearMask mask irq) s
  else
    let mask := io.inb (I8259PIC1_BASE + 1) s
    io.outb (I8259PIC1_BASE + 1) (clearMask mask irq) s

/-- `i8259a_disable_irq`. -/
def disableIrq (irq : BitVec 32) (s : σ) : σ :=
  if irq < 0x08 then
    let mask := io.inb (I8259PIC0_BASE + 1) s
    io.outb (I8259PIC0_BASE + 1) (setMask mask irq) s
  else
    let mask := io.inb (I8259PIC1_BASE + 1) s
    io.outb (I8259PIC1_BASE + 1) (setMask mask irq) s

/-- `i8259a_ack_irq`. -/
def ackIrq (irq : BitVec 32) (s : σ) : σ :=
  let s := if irq ≥ 8 then io.outb I8259PIC1_BASE PIC_EOI s else s
  io.outb I8259PIC0_BASE PIC_EOI s

/-- `initialize_pic`. -/
def initializePic (s : σ) : σ :=
  let s := io.outb I8259PIC0_BASE 0x11 s
  let s := io.outb (I8259PIC0_BASE + 1) 0x20 s
  let s := io.outb (I8259PIC0_BASE + 1) 0x4 s
  let s := io.outb (I8259PIC0_BASE + 1) 0x01 s
  let s := io.outb I8259PIC1_BASE 0x11 s
  let s := io.outb (I8259PIC1_BASE + 1) 0x28 s
  let s := io.outb (I8259PIC1_BASE + 1) 0x02 s
  let s := io.outb (I8259PIC1_BASE + 1) 0x01 s
  io.disableAll s

end PortIo

/-- On the ports that remember, this is the driver as it is in `MString.Eza.I8259`. -/
theorem lastWritten_driver :
    lastWritten.enableAll = i8259aEnableAll ∧ lastWritten.disableAll = i8259aDisableAll ∧
      lastWritten.enableIrq = i8259aEnableIrq ∧ lastWritten.disableIrq = i8259aDisableIrq ∧
      lastWritten.ackIrq = i8259aAckIrq ∧ lastWritten.initializePic = initializePic :=
  ⟨rfl, rfl, rfl, rfl, rfl, rfl⟩

/-- The two controllers behind their ports. -/
def chipPorts : PortIo Pic.Pair where
  outb port val p :=
    if port = I8259PIC0_BASE then { p with master := p.master.command val }
    else if port = I8259PIC0_BASE + 1 then { p with master := p.master.data val }
    else if port = I8259PIC1_BASE then { p with slave := p.slave.command val }
    else if port = I8259PIC1_BASE + 1 then { p with slave := p.slave.data val }
    else p
  inb port p :=
    if port = I8259PIC0_BASE + 1 then p.master.mask
    else if port = I8259PIC1_BASE + 1 then p.slave.mask
    else 0

/-- The master's input that the slave is wired to. -/
def SLAVE_LINE : Nat := 2

/-! ### The calls of the controllers -/

/-- What the interrupt code asks a controller for, but for the acknowledgement. -/
inductive ControllerCall where
  | enableIrq (irq : BitVec 32)
  | disableIrq (irq : BitVec 32)
  | enableAll
  | disableAll
deriving DecidableEq, Repr

/-- `disable_hw_irq` and `enable_hw_irq`, with the call that `call` makes of the line. -/
def callOfLine (call : BitVec 32 → ControllerCall) (irq : Irq) (s : IrqState) :
    Status × List (Uintptr × ControllerCall) :=
  if irq.toNat < NUM_IRQS then
    match s.controllers irq.toNat with
    | some ctrl => (0, [(ctrl.address, call (irq.setWidth 32))])
    | none => (-EINVAL, [])
  else (-EINVAL, [])

/-- `disable_hw_irq`. -/
def disableHwIrq (irq : Irq) (s : IrqState) : Status × List (Uintptr × ControllerCall) :=
  callOfLine .disableIrq irq s

/-- `enable_hw_irq`. -/
def enableHwIrq (irq : Irq) (s : IrqState) : Status × List (Uintptr × ControllerCall) :=
  callOfLine .enableIrq irq s

/-- The body of the loops of `disable_all_irqs` and `enable_all_irqs`. -/
def controllerEntry (call : ControllerCall) (pos : IrqPtr)
    (s : IrqState × List (Uintptr × ControllerCall)) :
    Except Fault (IrqState × List (Uintptr × ControllerCall)) :=
  match pos with
  | .controller ctrl => .ok (s.1, s.2 ++ [(ctrl, call)])
  | _ => .error .notAFrame

/-- The loop over `known_hw_int_controllers`. -/
def callOfAll (call : ControllerCall) (s : IrqState) :
    Except Fault (List (Uintptr × ControllerCall)) := do
  let (_, calls) ←
    listForEachEntry (fun s => s.1.links) .knownHwIntControllers (controllerEntry call) (s, [])
  return calls

/-- `disable_all_irqs`. -/
def disableAllIrqs (s : IrqState) : Except Fault (List (Uintptr × ControllerCall)) :=
  callOfAll .disableAll s

/-- `enable_all_irqs`. -/
def enableAllIrqs (s : IrqState) : Except Fault (List (Uintptr × ControllerCall)) :=
  callOfAll .enableAll s

/-! ### A running kernel -/

/-- What the interrupt code runs on. -/
structure IrqHardware (σ : Type) where
  /-- `i8259a_init`, up to the registration. -/
  start : σ → σ
  /-- A device asks for an interrupt. -/
  raise : Nat → σ → σ
  /-- The processor takes one and gets its vector. -/
  acknowledge : σ → Option (BitVec 8 × σ)
  control : ControllerCall → σ → σ
  ackIrq : BitVec 32 → σ → σ

/-- The calls of the driver on a device. -/
def PortIo.control {σ : Type} (io : PortIo σ) : ControllerCall → σ → σ
  | .enableIrq irq => io.enableIrq irq
  | .disableIrq irq => io.disableIrq irq
  | .enableAll => io.enableAll
  | .disableAll => io.disableAll

/-- The driver and the two controllers. -/
def picHardware : IrqHardware Pic.Pair where
  start := chipPorts.initializePic
  raise line p := p.raise line
  acknowledge p := p.acknowledge SLAVE_LINE
  control := chipPorts.control
  ackIrq := chipPorts.ackIrq

/-- What the linker has decided. -/
structure IrqLayout where
  /-- `i8259A_pic`. -/
  pic : Uintptr
  /-- `timer_interrupt_handler`. -/
  timerInterruptHandler : Uintptr
  /-- `irq_entrypoints_array`. -/
  irqEntrypointsArray : Nat → Uintptr
  /-- The stubs of the exceptions. -/
  faultEntry : FaultHandler → Uintptr

/-- The kernel, as far as interrupts are concerned. -/
structure IrqKernel (σ : Type) where
  irqs : IrqState
  idt : Idt
  hw : σ
  /-- For each call of `do_irq` that goes on, what it has still to call. The latest is
  first. -/
  active : List (List IrqCall)
  /-- The lines of all calls of `do_irq`, the latest first. -/
  taken : List Nat
  /-- `swks.system_ticks_64`. -/
  systemTicks : BitVec 64

section Run

variable {σ : Type} (hw : IrqHardware σ) (layout : IrqLayout)

/-- The line whose stub the processor enters for a vector. -/
def lineOfVector (idt : Idt) (v : BitVec 8) : Option Nat :=
  match (gateTable idt).gate v.toNat with
  | some g => (List.range NUM_IRQ_STUBS).find? fun l => layout.irqEntrypointsArray l == g.gate.offset
  | none => none

/-- The processor takes an interrupt: the stub calls `do_irq` with its line. A vector without
a stub would be an exception, which is not modelled here. -/
def takeInterrupt (k : IrqKernel σ) : Except Fault (IrqKernel σ) :=
  match hw.acknowledge k.hw with
  | none => .ok k
  | some (v, chips) =>
      match lineOfVector layout k.idt v with
      | none => .error .diverges
      | some line => do
          let (calls, irqs) ← doIrq (BitVec.ofNat 64 line) k.irqs
          return { k with
            irqs := irqs
            hw := chips
            active := calls :: k.active
            taken := line :: k.taken }

/-- `timer_tick`. Neither `process_timers` nor `scheduler_tick` does anything. -/
def timerTick (ticks : BitVec 64) : BitVec 64 := ticks + 1

/-- The latest call of `do_irq` goes on by one call, or returns. -/
def goOn (k : IrqKernel σ) : IrqKernel σ :=
  match k.active with
  | [] => k
  | [] :: rest => { k with active := rest }
  | (call :: calls) :: rest =>
      let k := { k with active := calls :: rest }
      match call with
      | .handler handler _ =>
          if handler = layout.timerInterruptHandler then
            { k with systemTicks := timerTick k.systemTicks }
          else k
      | .ackIrq irq => { k with hw := hw.ackIrq irq k.hw }
      | .spurious _ => k

/-- The calls of the interrupt code that reach the driver. -/
def controlled (calls : List (Uintptr × ControllerCall)) (k : IrqKernel σ) : IrqKernel σ :=
  { k with hw := (calls.filter fun c => c.1 = layout.pic).foldl (fun s c => hw.control c.2 s) k.hw }

/-- What can happen next. -/
inductive IrqEvent where
  | raise (line : Nat)
  | interrupt
  | goOn
  | enableHwIrq (irq : Irq)
  | disableHwIrq (irq : Irq)
  | enableAllIrqs
  | disableAllIrqs

/-- One event: a device raises its line, the processor takes an interrupt, or it goes on with
what it was doing. -/
def irqEvent : IrqEvent → IrqKernel σ → Except Fault (IrqKernel σ)
  | .raise line, k => .ok { k with hw := hw.raise line k.hw }
  | .interrupt, k => takeInterrupt hw layout k
  | .goOn, k => .ok (goOn hw layout k)
  | .enableHwIrq irq, k => .ok (controlled hw layout (enableHwIrq irq k.irqs).2 k)
  | .disableHwIrq irq, k => .ok (controlled hw layout (disableHwIrq irq k.irqs).2 k)
  | .enableAllIrqs, k => do
      let calls ← enableAllIrqs k.irqs
      return controlled hw layout calls k
  | .disableAllIrqs, k => do
      let calls ← disableAllIrqs k.irqs
      return controlled hw layout calls k

end Run

end MString
