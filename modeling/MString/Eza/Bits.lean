import MString.Types

/-!
# `MString.Eza.Bits`: bitmaps in memory

The assembly of `include/eza/amd64/bits.h`. A bitmap is an array of 64-bit words;
its bit `i` is bit `i % 64` of word `i / 64`.
-/

set_option autoImplicit false

namespace MString

/-- `bit_idx_t`. -/
abbrev BitIdx := BitVec 32

def INVALID_BIT_INDEX : BitIdx := 0xffffffff

/-- What `bsf` finds in a word: its lowest set bit. On zero the instruction sets `ZF`
and leaves its destination alone. -/
def bsf (word : BitVec 64) : Option Nat := (List.range 64).find? fun i => word.getLsbD i

/-- The loop of `find_first_bit_mem_64`, at the word `word` with the bits counted so
far in `rax` and `rbx` more words behind this one. The destination keeps its first
value until a bit is found. -/
def findFirstBitLoop (ptr : Nat → BitVec 64) (rbx word : Nat) (rax : BitVec 64) : BitVec 64 :=
  match bsf (ptr word), rbx with
  | some rdx, _ => BitVec.ofNat 64 rdx + rax
  | none, 0 => INVALID_BIT_INDEX.setWidth 64
  | none, rbx + 1 => findFirstBitLoop ptr rbx (word + 1) (rax + 64)

/-- `find_first_bit_mem_64`. The loop counts `rbx` down to zero before it tests it, so
the first word is always looked at. -/
def findFirstBitMem64 (ptr : Nat → BitVec 64) (count : BitVec 64) : BitIdx :=
  (findFirstBitLoop ptr (count - 1).toNat 0 0).setWidth 32

/-- `reset_bit_mem_64`. -/
def resetBitMem64 (ptr : Nat → BitVec 64) (bit : BitIdx) : Nat → BitVec 64 :=
  let rbx : BitVec 64 := bit.setWidth 64
  let rax := rbx &&& 0x3f
  let offset := (rbx &&& 0xffffffffffffffc0) >>> 3
  fun i => if 8 * i = offset.toNat then ptr i &&& ~~~(1#64 <<< rax.toNat) else ptr i

end MString
