import Mathlib.Logic.Function.Basic
import MString.Types

/-!
# `MString.Eza.I8259`: the interrupt controller

`eza/amd64/i8259.c`: the driver of the two I8259A controllers, each of which has a command
port and, behind it, a data port with its mask. A set bit keeps a line from interrupting.

A data port reads as what was last written to it, so the state is that of the ports.
-/

set_option autoImplicit false

namespace MString

abbrev Port := BitVec 16

/-- What was last written to every port. -/
abbrev Ports := Port → BitVec 8

def outb (port : Port) (val : BitVec 8) (s : Ports) : Ports := Function.update s port val

def inb (port : Port) (s : Ports) : BitVec 8 := s port

def I8259PIC0_BASE : Port := 0x20
def I8259PIC1_BASE : Port := 0xa0

/-- `MAX_IRQ_NUM`. -/
def MAX_IRQ_NUM : BitVec 32 := 16

/-- `PIC_EOI`: end of interrupt. -/
def PIC_EOI : BitVec 8 := 0x20

/-- `mask &= ~(1 << irq)`: the expression is an `int`, the variable has eight bits. -/
def clearMask (mask : BitVec 8) (irq : BitVec 32) : BitVec 8 :=
  (mask.setWidth 32 &&& ~~~(1#32 <<< irq)).setWidth 8

/-- `mask |= (1 << irq)`. -/
def setMask (mask : BitVec 8) (irq : BitVec 32) : BitVec 8 :=
  (mask.setWidth 32 ||| 1#32 <<< irq).setWidth 8

/-- `i8259a_enable_all`. -/
def i8259aEnableAll (s : Ports) : Ports :=
  outb (I8259PIC1_BASE + 1) 0x0 (outb (I8259PIC0_BASE + 1) 0x0 s)

/-- `i8259a_disable_all`. -/
def i8259aDisableAll (s : Ports) : Ports :=
  outb (I8259PIC1_BASE + 1) 0xff (outb (I8259PIC0_BASE + 1) 0xff s)

/-- `i8259a_enable_irq`. -/
def i8259aEnableIrq (irq : BitVec 32) (s : Ports) : Ports :=
  if irq < 0x08 then
    let mask := inb (I8259PIC0_BASE + 1) s
    outb (I8259PIC0_BASE + 1) (clearMask mask irq) s
  else
    -- located in PIC1; the line's number is not reduced
    let mask := inb (I8259PIC1_BASE + 1) s
    outb (I8259PIC1_BASE + 1) (clearMask mask irq) s

/-- `i8259a_disable_irq`. -/
def i8259aDisableIrq (irq : BitVec 32) (s : Ports) : Ports :=
  if irq < 0x08 then
    let mask := inb (I8259PIC0_BASE + 1) s
    outb (I8259PIC0_BASE + 1) (setMask mask irq) s
  else
    let mask := inb (I8259PIC1_BASE + 1) s
    outb (I8259PIC1_BASE + 1) (setMask mask irq) s

/-- `i8259a_ack_irq`: end of irq. The master needs to be acknowledged, too. -/
def i8259aAckIrq (irq : BitVec 32) (s : Ports) : Ports :=
  let s := if irq ≥ 8 then outb I8259PIC1_BASE PIC_EOI s else s
  outb I8259PIC0_BASE PIC_EOI s

/-- `i8259a_handles_irq`. -/
def i8259aHandlesIrq (irq : BitVec 32) : Bool := irq < MAX_IRQ_NUM

/-- `initialize_pic`: the four words of the initialisation for the master and for the
slave, and all lines disabled. -/
def initializePic (s : Ports) : Ports :=
  let s := outb I8259PIC0_BASE 0x11 s
  let s := outb (I8259PIC0_BASE + 1) 0x20 s
  let s := outb (I8259PIC0_BASE + 1) 0x4 s
  let s := outb (I8259PIC0_BASE + 1) 0x01 s
  -- setting slave PIC
  let s := outb I8259PIC1_BASE 0x11 s
  let s := outb (I8259PIC1_BASE + 1) 0x28 s
  let s := outb (I8259PIC1_BASE + 1) 0x02 s
  let s := outb (I8259PIC1_BASE + 1) 0x01 s
  i8259aDisableAll s

end MString
