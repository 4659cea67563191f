import Mathlib.Logic.Function.Basic
import MString.Eza.List

/-!
# `MString.Eza.Interrupt`: interrupt lines and their handlers

`eza/generic_api/interrupt.c`: the actions registered on each line, the pool of
action descriptors, and the dispatch of an interrupt to them.

A descriptor is an element of the static array `descs` and is named by its index.
Handlers and their data are pointers. What a handler or a controller does when it
is called is not the kernel's: `do_irq` answers with the calls it has made.
-/

set_option autoImplicit false

namespace MString

def NUM_IRQS : Nat := 16

/-- The length of the array `descs` in `allocate_irq_action`. -/
def NUM_IRQ_ACTIONS : Nat := 128

/-- `irq_t`. -/
abbrev Irq := BitVec 64

/-- The list heads of the interrupt code. -/
inductive IrqPtr where
  /-- `irqs[irq].actions`. -/
  | actions (irq : Nat)
  /-- `descs[idx].l`. -/
  | action (idx : Nat)
  /-- `known_hw_int_controllers`. -/
  | knownHwIntControllers
  /-- `ctrl->l`. -/
  | controller (ctrl : Uintptr)
deriving DecidableEq, Repr

/-- `irq_action_t`, but for its list head. -/
structure IrqAction where
  handler : Uintptr
  flags : BitVec 32
  privateData : Uintptr
deriving DecidableEq, Repr

/-- `hw_interrupt_controller_t`: where it stands, and its `handles_irq`. -/
structure HwInterruptController where
  address : Uintptr
  handlesIrq : BitVec 32 → Bool

/-- Where `enable_irq` and `ack_irq` stand in a controller. -/
def ENABLE_IRQ_OFFSET : Uintptr := 48
def ACK_IRQ_OFFSET : Uintptr := 64

/-- The static data of the interrupt code. `idx` is the next descriptor, and
`irqStat` the counters of the processor in `swks`. -/
structure IrqState where
  links : ListHeads IrqPtr
  descs : Nat → IrqAction
  idx : Nat
  controllers : Nat → Option HwInterruptController
  irqStat : Nat → BitVec 64

/-- `initialize_irqs`, on data in which no descriptor has been handed out. -/
def initializeIrqs (s : IrqState) : IrqState :=
  { s with
    links := (List.range NUM_IRQS).foldl (fun l i => initListHead l (.actions i)) s.links
    controllers := fun i => if i < NUM_IRQS then none else s.controllers i }

/-- `allocate_irq_action`. A descriptor past the array is initialised all the same,
which writes to memory that is not the array's. -/
def allocateIrqAction (s : IrqState) : Except Fault (Nat × IrqState) :=
  if s.idx < NUM_IRQ_ACTIONS then
    .ok (s.idx, { s with links := initListHead s.links (.action s.idx), idx := s.idx + 1 })
  else .error (.outOfBounds s.idx)

/-- `install_irq_action`. -/
def installIrqAction (irq desc : Nat) (s : IrqState) : Except Fault IrqState := do
  let links ← listAddTail s.links (.action desc) (.actions irq)
  return { s with links := links }

/-- `remove_irq_action`. -/
def removeIrqAction (desc : Nat) (s : IrqState) : Except Fault IrqState := do
  let links ← listDel s.links (.action desc)
  return { s with links := links }

/-- `register_hw_interrupt_controller`. -/
def registerHwInterruptController (ctrl : HwInterruptController) (s : IrqState) :
    Except Fault IrqState := do
  let links ← listAdd s.links (.controller ctrl.address) .knownHwIntControllers
  return { s with
    links := links
    controllers := fun i =>
      if i < NUM_IRQS ∧ s.controllers i = none ∧ ctrl.handlesIrq (BitVec.ofNat 32 i) then some ctrl
      else s.controllers i }

/-- `register_irq`. -/
def registerIrq (irq : Irq) (handler data : Uintptr) (flags : BitVec 32) (s : IrqState) :
    Except Fault (Status × IrqState) :=
  if irq.toNat < NUM_IRQS ∧ handler ≠ 0 then do
    let (desc, s) ← allocateIrqAction s
    let s := { s with descs := Function.update s.descs desc ⟨handler, flags, data⟩ }
    let s ← installIrqAction irq.toNat desc s
    match s.controllers irq.toNat with
    | some _ => return (0, s)
    | none => .error (.pageFault ENABLE_IRQ_OFFSET)
  else .ok (-EINVAL, s)

/-- The body of the loop of `unregister_irq`. -/
def unregisterEntry (data : Uintptr) (pos : IrqPtr) (s : IrqState) : Except Fault IrqState :=
  match pos with
  | .action desc => if (s.descs desc).privateData = data then removeIrqAction desc s else .ok s
  | _ => .error .notAFrame

/-- `unregister_irq`. Its `retval` is set once. -/
def unregisterIrq (irq : Irq) (data : Uintptr) (s : IrqState) :
    Except Fault (Status × IrqState) :=
  if irq.toNat < NUM_IRQS then do
    let s ← listForEachEntry IrqState.links (.actions irq.toNat) (unregisterEntry data) s
    return (-EINVAL, s)
  else .ok (-EINVAL, s)

/-- What `do_irq` calls. -/
inductive IrqCall where
  | handler (handler data : Uintptr)
  /-- `irqs[irq].controller->ack_irq(irq)`. -/
  | ackIrq (irq : BitVec 32)
  /-- `interrupts_enable` and the message about a spurious interrupt. -/
  | spurious (irq : Irq)
deriving DecidableEq, Repr

/-- The body of the loop of `do_irq`: the calls so far are kept beside the state. -/
def doIrqEntry (pos : IrqPtr) (s : IrqState × List IrqCall) :
    Except Fault (IrqState × List IrqCall) :=
  match pos with
  | .action desc =>
      let action := s.1.descs desc
      .ok (s.1, s.2 ++ [.handler action.handler action.privateData])
  | _ => .error .notAFrame

/-- `do_irq`. The number of handlers is the number of calls before the
acknowledgement. -/
def doIrq (irq : Irq) (s : IrqState) : Except Fault (List IrqCall × IrqState) :=
  if irq.toNat < NUM_IRQS then do
    let s := { s with irqStat := Function.update s.irqStat irq.toNat (s.irqStat irq.toNat + 1) }
    let (s, calls) ← listForEachEntry (fun s => s.1.links) (.actions irq.toNat) doIrqEntry (s, [])
    match s.controllers irq.toNat with
    | none => .error (.pageFault ACK_IRQ_OFFSET)
    | some _ =>
        let acked := calls ++ [.ackIrq (irq.setWidth 32)]
        if calls.length > 0 then return (acked, s)
        else return (acked ++ [.spurious irq], s)
  else .ok ([.spurious irq], s)

/-! ### Histories -/

/-- The static data before the first call: `known_hw_int_controllers` is a
`LIST_HEAD`, and the rest is zero until `initialize_irqs` runs. -/
def irqStart : IrqState :=
  initializeIrqs
    ⟨initListHead ⟨fun _ => none, fun _ => none⟩ .knownHwIntControllers, fun _ => ⟨0, 0, 0⟩, 0,
      fun _ => none, fun _ => 0⟩

/-- One call into the interrupt code. -/
inductive IrqOp where
  | registerController (ctrl : HwInterruptController)
  | register (irq : Irq) (handler data : Uintptr) (flags : BitVec 32)
  | unregister (irq : Irq) (data : Uintptr)

/-- Its status and the state it leaves. -/
def irqStep : IrqOp → IrqState → Except Fault (Status × IrqState)
  | .registerController ctrl, s => do
      let s ← registerHwInterruptController ctrl s
      return (0, s)
  | .register irq handler data flags, s => registerIrq irq handler data flags s
  | .unregister irq data, s => unregisterIrq irq data s

end MString
