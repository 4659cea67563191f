import Mathlib.Algebra.Group.Nat.Defs

/-!
# `MString.Types`: machine words, error codes, faults

The fixed-width types of `include/eza/amd64/types.h` are bit vectors of their
width, so that their arithmetic wraps where the kernel's does. Status codes are
integers, negative for an error, as in `include/eza/errno.h`.

A `Fault` is the end of a run that does not return to its caller: an access the
MMU refuses, a `panic`, or a loop that never ends.
-/

set_option autoImplicit false

namespace MString

/-- `uintptr_t` and `size_t`. -/
abbrev Uintptr := BitVec 64

/-- `page_idx_t`: the number of a physical page frame. -/
abbrev PageIdx := BitVec 32

/-- `page_flags_t`. -/
abbrev PageFlags := BitVec 32

/-- `status_t` and the `int` results of the kernel's functions. -/
abbrev Status := Int

def ENOENT : Status := 2
def ENOMEM : Status := 12
def EINVAL : Status := 22

@[simp] theorem neg_ENOMEM_ne_zero : -ENOMEM ≠ 0 := by decide

@[simp] theorem neg_EINVAL_ne_zero : -EINVAL ≠ 0 := by decide

/-- How a run ends without returning. -/
inductive Fault where
  /-- The MMU refused an access to this address. -/
  | pageFault (addr : Uintptr)
  /-- `panic` was called with this text. -/
  | panic (text : String)
  /-- A list head was taken for the element of another type, and the model does not have the
  bytes that stand behind it. -/
  | notAFrame
  /-- A static array was accessed at an index past its end. -/
  | outOfBounds (index : Nat)
  /-- A loop does not end. -/
  | diverges
  /-- The page allocator ran dry in a setting where it is taken never to. -/
  | exhausted
deriving DecidableEq, Repr

/-- The turn budget of every loop. A loop counter is a word of at most 64 bits,
so a loop driven by one that takes this many turns repeats itself and does not
end. -/
def TURNS : Nat := 2 ^ 64

end MString
