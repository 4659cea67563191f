import MString.Lib.Amd64
import MString.Lib.BitFields

/-!
# `MString.Lib.Descriptors`: descriptor tables

How the processor reads the entries of its descriptor tables in 64-bit mode, and what it
does with an interrupt: it looks for the gate of the vector in the interrupt descriptor
table, and enters the handler that the gate names.

* `decodeGate`: an entry of 16 bytes, as a number.
* `raise`: an interrupt or an exception.

Nothing here mentions a program.
-/

set_option autoImplicit false

namespace Amd64

open BitFields ByteMemory

/-- A gate with what is checked or looked up at its entry. -/
structure GateEntry where
  gate : Gate
  dpl : Nat
  /-- The stack of the interrupt stack table, or 0 for none. -/
  ist : Nat

/-- The types of a gate in 64-bit mode, with the bit above them that is zero in every
system descriptor. -/
def INTERRUPT_GATE : Nat := 0xe
def TRAP_GATE : Nat := 0xf

/-- The handler's address is in three parts. -/
def gateOffset (n : Nat) : Nat := field 0 16 n + 2 ^ 16 * field 48 16 n + 2 ^ 32 * field 64 32 n

/-- The gate in an entry of the interrupt descriptor table, if it is present. -/
def decodeGate (n : Nat) : Option GateEntry :=
  let type := field 40 5 n
  if field 47 1 n = 1 ∧ (type = INTERRUPT_GATE ∨ type = TRAP_GATE) then
    some ⟨⟨BitVec.ofNat 16 (field 16 16 n), BitVec.ofNat 64 (gateOffset n),
      type == INTERRUPT_GATE⟩, field 45 2 n, field 32 3 n⟩
  else none

/-- An interrupt descriptor table: its entries, and the limit in `idtr`. -/
structure GateTable where
  entry : Nat → Nat
  limit : Nat

/-- The gate of a vector. All 16 bytes of its entry have to be within the limit. -/
def GateTable.gate (t : GateTable) (v : Nat) : Option GateEntry :=
  if 16 * v + 15 ≤ t.limit then decodeGate (t.entry v) else none

/-- The stack for an interrupt of `c` without an entry of the interrupt stack table: the
current one in the kernel, and from user mode the one from the task state segment. -/
def entryStack (rsp0 : Word) (c : Cpu) : EntryStack :=
  if c.cs &&& 3 = 0 then ⟨c.reg .rsp, c.ss⟩ else ⟨rsp0, 0⟩

/-- An interrupt or an exception with the vector `v`. Where the vector has no gate, or one
with a stack of its own, this is `none`. -/
def raise (t : GateTable) (rsp0 : Word) (v : Nat) (error : Option Word) (c : Cpu) : Option Cpu :=
  match t.gate v with
  | some g => if g.ist = 0 then some (deliver g.gate (entryStack rsp0 c) error c) else none
  | none => none

end Amd64
