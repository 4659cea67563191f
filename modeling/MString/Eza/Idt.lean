import MString.Eza.Stubs
import MString.Eza.Task
import MString.Lib.Descriptors

/-!
# `MString.Eza.Idt`: the interrupt descriptor table

`eza/amd64/pmm.c`: `install_trap_gate` and `install_interrupt_gate` over the table `idt`,
with `install_fault_handlers` of `eza/amd64/fault.c` and the loop of `arch_initialize_irqs`
of `eza/amd64/interrupt.c`, which fill it.

The addresses of the stubs of `eza/amd64/asm.S` come from the linker. The arguments `dpl`
and `ist` are enumerations in C, that is words of 32 bits, and bit fields of two and three
bits in the descriptor.
-/

set_option autoImplicit false

namespace MString

open Amd64 BitFields

/-- `idescriptor_t`, but for its unnamed last field. -/
structure IDescriptor where
  offset0_15 : BitVec 16
  selector : BitVec 16
  ist : BitVec 3
  unused : BitVec 5
  type : BitVec 5
  dpl : BitVec 2
  present : BitVec 1
  offset16_31 : BitVec 16
  offset32_63 : BitVec 32
deriving DecidableEq, Repr

/-- How it lies in memory. -/
def IDescriptor.fields (p : IDescriptor) : List (Nat × Nat) :=
  [(16, p.offset0_15.toNat), (16, p.selector.toNat), (3, p.ist.toNat), (5, p.unused.toNat),
    (5, p.type.toNat), (2, p.dpl.toNat), (1, p.present.toNat), (16, p.offset16_31.toNat),
    (32, p.offset32_63.toNat), (32, 0)]

/-- The 16 bytes of a descriptor, as a number. -/
def IDescriptor.word (p : IDescriptor) : Nat := pack p.fields

def IDT_ITEMS : Nat := 64
def AR_INTR : BitVec 5 := 0xe
def AR_TRAP : BitVec 5 := 0xf

/-- `idt`. -/
abbrev Idt := Nat → IDescriptor

/-- The static table, before anything is installed. -/
def idtStart : Idt := fun _ => ⟨0, 0, 0, 0, 0, 0, 0, 0, 0⟩

/-- `idt_set_offset`. -/
def idtSetOffset (p : IDescriptor) (off : Uintptr) : IDescriptor :=
  { p with
    offset0_15 := (off &&& 0xffff).setWidth 16
    offset16_31 := (off >>> 16 &&& 0xffff).setWidth 16
    offset32_63 := (off >>> 32).setWidth 32 }

/-- `install_trap_gate`. -/
def installTrapGate (slot : BitVec 32) (handler : Uintptr) (dpl ist : BitVec 32) (idt : Idt) :
    Status × Idt :=
  if slot.toNat < IDT_ITEMS ∧ handler ≠ 0 then
    let p := idtSetOffset (idt slot.toNat) handler
    (0, Function.update idt slot.toNat { p with
      selector := (gdtselector KTEXT_DES).setWidth 16
      unused := 0
      type := AR_TRAP
      present := 1
      dpl := dpl.setWidth 2
      ist := ist.setWidth 3 })
  else (-EINVAL, idt)

/-- `install_interrupt_gate`, which takes any handler and leaves `unused` as it is. -/
def installInterruptGate (slot : BitVec 32) (handler : Uintptr) (dpl ist : BitVec 32) (idt : Idt) :
    Status × Idt :=
  if slot.toNat < IDT_ITEMS then
    let p := idtSetOffset (idt slot.toNat) handler
    (0, Function.update idt slot.toNat { p with
      selector := (gdtselector KTEXT_DES).setWidth 16
      type := AR_INTR
      present := 1
      dpl := dpl.setWidth 2
      ist := ist.setWidth 3 })
  else (-EINVAL, idt)

/-- The table that `arch_pmm_init` loads: the limit in `idtr` is the size of the table. -/
def gateTable (idt : Idt) : GateTable := ⟨fun v => (idt v).word, 16 * IDT_ITEMS⟩

/-! ### The loops that fill the table -/

def PROT_RING_0 : BitVec 32 := 0

/-- The loop of `install_fault_handlers`, over the entries up to the null handler. -/
def installFaults : List (BitVec 32 × Uintptr) → Idt → Except Fault Idt
  | [], idt => .ok idt
  | (slot, handler) :: faults, idt =>
      if handler = 0 then .ok idt
      else
        let (r, idt) := installTrapGate slot handler PROT_RING_0 0 idt
        if r ≠ 0 then .error (.panic s!"Can't install fault handler #{slot.toNat}")
        else installFaults faults idt

/-- `install_fault_handlers`, where `entry` are the addresses of the handlers. -/
def installFaultHandlers (entry : FaultHandler → Uintptr) (idt : Idt) : Except Fault Idt :=
  installFaults (faultsToInstall.map (fun f => (BitVec.ofNat 32 f.1, entry f.2)) ++ [(0, 0)]) idt

def IRQ_BASE : Nat := 0x20

/-- The body of the loop of `arch_initialize_irqs`, where `irqEntrypointsArray` are the
addresses of the stubs. -/
def installIrqGate (irqEntrypointsArray : Nat → Uintptr) (idt : Idt) (idx : Nat) :
    Except Fault Idt :=
  let (r, idt) := installInterruptGate (BitVec.ofNat 32 (idx + IRQ_BASE))
    (irqEntrypointsArray idx) PROT_RING_0 0 idt
  if r ≠ 0 then .error (.panic s!"Can't install IDT slot for IRQ #{idx}\n") else .ok idt

/-- The loop over the lines. -/
def initializeIrqGates (irqEntrypointsArray : Nat → Uintptr) (idt : Idt) : Except Fault Idt :=
  (List.range NUM_IRQ_STUBS).foldlM (installIrqGate irqEntrypointsArray) idt

/-! ### Histories -/

/-- One call that installs a gate. -/
inductive GateOp where
  | trap (slot : BitVec 32) (handler : Uintptr) (dpl ist : BitVec 32)
  | interrupt (slot : BitVec 32) (handler : Uintptr) (dpl ist : BitVec 32)

/-- A call of one of the two functions that install a gate. -/
def gateStep : GateOp → Idt → Status × Idt
  | .trap slot handler dpl ist, idt => installTrapGate slot handler dpl ist idt
  | .interrupt slot handler dpl ist, idt => installInterruptGate slot handler dpl ist idt

/-- The calls in turn, with their results. -/
def gateRun : List GateOp → Idt → List Status × Idt
  | [], idt => ([], idt)
  | op :: ops, idt =>
      let (r, idt) := gateStep op idt
      let (rs, idt) := gateRun ops idt
      (r :: rs, idt)

end MString
