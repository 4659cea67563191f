import Mathlib.Logic.Function.Basic
import MString.Lib.Loop
import MString.Types

/-!
# `MString.Mlibc.Stdlib`: `itoa`

`itoa` of `mlibc/stdlib.c`. The pointers into the buffer are offsets from its start, and a
byte of the buffer is `none` until something is stored in it.
-/

set_option autoImplicit false

namespace MString

/-- The table of digits that the `switch` chooses. -/
def itoaTable (radix : BitVec 32) : Option (List Char) :=
  if radix = 10 ∨ radix = 8 then some ['0', '1', '2', '3', '4', '5', '6', '7', '8', '9']
  else if radix = 16 then
    some ['0', '1', '2', '3', '4', '5', '6', '7', '8', '9', 'A', 'B', 'C', 'D', 'E', 'F']
  else none

/-- `buf`, `buflen`, and what was stored. -/
structure ItoaBuf where
  buf : Nat
  buflen : Nat
  dest : Nat → Option Char

/-- `*buf++ = c`. -/
def ItoaBuf.put (c : Char) (s : ItoaBuf) : ItoaBuf :=
  { s with buf := s.buf + 1, dest := Function.update s.dest s.buf (some c) }

/-- One turn of the loop over the digits. `num < radix` compares unsigned numbers. The
`break` leaves `buflen` as it is. -/
def itoaTurn (table : List Char) (radix : BitVec 32) :
    BitVec 32 × ItoaBuf → Except Fault ((BitVec 32 × ItoaBuf) ⊕ ItoaBuf)
  | (num, s) =>
      if s.buflen > 0 then
        if num.ult radix then .ok (.inr (s.put (table.getD num.toNat '\x00')))
        else
          let s := s.put (table.getD (num % radix).toNat '\x00')
          .ok (.inl (num / radix, { s with buflen := s.buflen - 1 }))
      else .ok (.inr s)

/-- One turn of the loop that reverses the number. -/
def reverseTurn : Nat × Nat × (Nat → Option Char) →
    Except Fault ((Nat × Nat × (Nat → Option Char)) ⊕ (Nat → Option Char))
  | (sbuf, buf, dest) =>
      if sbuf < buf then
        let c := dest sbuf
        .ok (.inl (sbuf + 1, buf - 1,
          Function.update (Function.update dest sbuf (dest buf)) buf c))
      else .ok (.inr dest)

/-- `itoa`. -/
def itoa (num : BitVec 32) (buflen : Uintptr) (radix : BitVec 32) :
    Except Fault (Nat → Option Char) :=
  match itoaTable radix with
  | none => .ok fun _ => none
  | some table =>
      if buflen.toNat > 0 then do
        let s : ItoaBuf := ⟨0, buflen.toNat, fun _ => none⟩
        let s := if num.toInt < 0 ∧ radix = 10 then { s.put '-' with buflen := s.buflen - 1 } else s
        let s ← Loop.run .diverges (itoaTurn table radix) TURNS (num, s)
        let dest := if s.buflen > 0 then Function.update s.dest s.buf (some '\x00') else s.dest
        Loop.run .diverges reverseTurn TURNS (0, s.buf - 1, dest)
      else .ok fun _ => none

end MString
