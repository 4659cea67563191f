import MString.Lib.Loop
import MString.Lib.Traced
import MString.Types

/-!
# `MString.Mlibc.String`: memory and string functions

The inline functions of `include/mlibc/string.h`; no `ARCH_` variant of any of them is
defined. A `char` is a signed byte.

A function that only reads takes what stands from its pointer on (`Chars`) and answers
with an offset from the pointer. A function that writes works on a `Traced` memory.
-/

set_option autoImplicit false

namespace MString

open ByteMemory

/-! ### Functions that write -/

/-- `*p = w` for a `uint16_t`. -/
def store16 (p : Addr) (w : BitVec 16) (t : Traced) : Traced :=
  (t.store p (w.setWidth 8)).store (p + 1) ((w >>> 8).setWidth 8)

/-- `while (len-- > 0) *to++ = tmp` for `uint16_t`s. -/
def fill16 (tmp : BitVec 16) : Nat → Addr → Traced → Traced
  | 0, _, t => t
  | len + 1, p, t => fill16 tmp len (p + 2) (store16 p tmp t)

/-- `memset`. An even address is filled by halfwords. -/
def memset (s : Addr) (c : BitVec 32) (n : Uintptr) (t : Traced) : Traced :=
  if s &&& 1 ≠ 0 then t.fill (c.setWidth 8) n.toNat s
  else
    let tmp := ((c &&& 0xff#32) ||| (c &&& 0xff#32) <<< 8).setWidth 16
    let t := fill16 tmp (n >>> 1).toNat s t
    if n &&& 1 ≠ 0 then t.store (s + 2#64 * (n >>> 1)) (c.setWidth 8) else t

/-- `memcpy`. -/
def memcpy (dst src : Addr) (n : Uintptr) (t : Traced) : Traced := t.copy n.toNat dst src

/-- `strncpy`. -/
def strncpy (dst src : Addr) (n : Uintptr) (t : Traced) : Traced :=
  (t.copy n.toNat dst src).store (dst + n) 0#8

/-- One turn of `for (; *to != '\0'; to++)`. -/
def endTurn (s : Addr × Traced) : Except Fault ((Addr × Traced) ⊕ (Addr × Traced)) :=
  let t := s.2.read s.1
  if t.mem s.1 ≠ 0#8 then .ok (.inl (s.1 + 1, t)) else .ok (.inr (s.1, t))

/-- `strncat`. -/
def strncat (dst src : Addr) (n : Uintptr) (t : Traced) : Except Fault Traced := do
  let (dst, t) ← Loop.run .diverges endTurn TURNS (dst, t)
  .ok ((t.copy n.toNat dst src).store (dst + n) 0#8)

/-! ### Functions that read -/

/-- What stands from a pointer on: `s i` is `s[i]`. -/
abbrev Chars := BitVec 64 → Byte

/-- `strncmp` from the offset `i` on, with the offsets at which it reads both strings. -/
def strncmpFrom (s1 s2 : Chars) : Nat → BitVec 64 → Int × List (BitVec 64)
  | 0, _ => (0, [])
  | n + 1, i =>
      if s1 i ≠ s2 i then ((s1 i).toInt - (s2 i).toInt, [i])
      else
        let r := strncmpFrom s1 s2 n (i + 1)
        (r.1, i :: r.2)

/-- `strncmp`. -/
def strncmp (s1 s2 : Chars) (n : Uintptr) : Int × List (BitVec 64) := strncmpFrom s1 s2 n.toNat 0

/-- `memcmp`, which has the loop of `strncmp`. -/
def memcmp (s1 s2 : Chars) (n : Uintptr) : Int := (strncmpFrom s1 s2 n.toNat 0).1

def strcmpTurn (s1 s2 : Chars) (i : BitVec 64) : Except Fault (BitVec 64 ⊕ Int) :=
  if s1 i ≠ 0#8 ∧ s2 i ≠ 0#8 then
    if s1 i ≠ s2 i then .ok (.inr ((s1 i).toInt - (s2 i).toInt)) else .ok (.inl (i + 1))
  else if s1 i = 0#8 then .ok (.inr (-1))
  else if s2 i = 0#8 then .ok (.inr 1)
  else .ok (.inr 0)

/-- `strcmp`. -/
def strcmp (s1 s2 : Chars) : Except Fault Int :=
  Loop.run .diverges (strcmpTurn s1 s2) TURNS 0

/-- One turn of `for (; (*p != '\0') && (*p != c); p++)`. -/
def findTurn (s : Chars) (c : BitVec 32) (i : BitVec 64) :
    Except Fault (BitVec 64 ⊕ BitVec 64) :=
  if s i ≠ 0#8 ∧ (s i).signExtend 32 ≠ c then .ok (.inl (i + 1)) else .ok (.inr i)

/-- `strchr`. -/
def strchr (s : Chars) (c : BitVec 32) : Except Fault (Option (BitVec 64)) := do
  let p ← Loop.run .diverges (findTurn s c) TURNS 0
  .ok (if s p = 0#8 then none else some p)

/-- One turn of `while (*p++ == c)`. -/
def skipTurn (s : Chars) (c : BitVec 32) (i : BitVec 64) :
    Except Fault (BitVec 64 ⊕ BitVec 64) :=
  if (s i).signExtend 32 = c then .ok (.inl (i + 1)) else .ok (.inr (i + 1))

/-- `strrchr`. -/
def strrchr (s : Chars) (c : BitVec 32) : Except Fault (Option (BitVec 64)) := do
  let p ← Loop.run .diverges (findTurn s c) TURNS 0
  if s p = 0#8 then .ok none
  else do
    let p ← Loop.run .diverges (skipTurn s c) TURNS p
    .ok (some p)

/-- One turn of the first loop of `strstr`, which looks for the first character of the
needle. -/
def headTurn (haystack needle : Chars) (s1 : BitVec 64) : Except Fault (BitVec 64 ⊕ BitVec 64) :=
  if haystack s1 ≠ 0#8 ∧ haystack s1 ≠ needle 0 then .ok (.inl (s1 + 1)) else .ok (.inr s1)

/-- One turn of the second loop of `strstr`. Both pointers move on behind the comparison,
also when it fails. -/
def matchTurn (haystack needle : Chars) (p : BitVec 64 × BitVec 64) :
    Except Fault ((BitVec 64 × BitVec 64) ⊕ (BitVec 64 × BitVec 64)) :=
  if haystack p.1 ≠ 0#8 ∧ haystack p.1 ≠ 0#8 then
    if haystack p.1 = needle p.2 then .ok (.inl (p.1 + 1, p.2 + 1))
    else .ok (.inr (p.1 + 1, p.2 + 1))
  else .ok (.inr p)

/-- `strstr`. -/
def strstr (haystack needle : Chars) : Except Fault (Option (BitVec 64)) := do
  let s1 ← Loop.run .diverges (headTurn haystack needle) TURNS 0
  let (s1, s2) ← Loop.run .diverges (matchTurn haystack needle) TURNS (s1, 0)
  .ok (if haystack s1 = 0#8 ∨ needle s2 = 0#8 then none else some s1)

end MString
