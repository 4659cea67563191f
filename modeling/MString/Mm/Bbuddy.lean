import Mathlib.Logic.Function.Basic
import MString.Lib.Loop
import MString.Types

/-!
# `MString.Mm.Bbuddy`: the binary buddy

`mm/bbuddy.c`. The layer `align` has `align` blocks, so layer 1 is the whole area. Two
bitmaps hold a bit for every block: `nbmp` says that it is free and `pbmp` that it is
not separated into its halves.

Both bitmaps stand in the memory behind the `bbuddy_t`, `pbmp` first, and each is an
index into the same words here. The numbers of layers and blocks stay below 2^32, so
they are natural numbers. The tail calls of the three recursive functions are turns of
a loop.
-/

set_option autoImplicit false

namespace MString

def ENOBLOCK : Nat := 65535
def EBUDDYCORRUPED : Nat := 65534
def EINVALIDINDX : Nat := 65533

/-- `fil` and `nil`. -/
def FIL : BitVec 32 := 0xffffffff
def NIL : BitVec 32 := 0

/-- `bbuddy_t`: the words behind it, which `pbmp` starts, the word at which `nbmp`
starts, and `pn`. -/
structure Bbuddy where
  words : Nat → BitVec 32
  nbmpAt : Nat
  pn : Nat

namespace Bbuddy

/-- The word `i` of `pbmp`. -/
def pbmp (b : Bbuddy) (i : Nat) : BitVec 32 := b.words i

/-- The word `i` of `nbmp`. -/
def nbmp (b : Bbuddy) (i : Nat) : BitVec 32 := b.words (b.nbmpAt + i)

/-- A store to `pbmp`. -/
def setPbmp (b : Bbuddy) (i : Nat) (w : BitVec 32) : Bbuddy :=
  { b with words := Function.update b.words i w }

/-- A store to `nbmp`. -/
def setNbmp (b : Bbuddy) (i : Nat) (w : BitVec 32) : Bbuddy :=
  { b with words := Function.update b.words (b.nbmpAt + i) w }

/-- `b->pbmp[p] |= (1 << n)`. -/
def markPbmp (b : Bbuddy) (p n : Nat) : Bbuddy := b.setPbmp p (b.pbmp p ||| 1#32 <<< n)

/-- `b->pbmp[p] &= ~(1 << n)`. -/
def clearPbmp (b : Bbuddy) (p n : Nat) : Bbuddy := b.setPbmp p (b.pbmp p &&& ~~~(1#32 <<< n))

/-- `b->nbmp[p] |= (1 << n)`. -/
def markNbmp (b : Bbuddy) (p n : Nat) : Bbuddy := b.setNbmp p (b.nbmp p ||| 1#32 <<< n)

/-- `b->nbmp[p] &= ~(1 << n)`. -/
def clearNbmp (b : Bbuddy) (p n : Nat) : Bbuddy := b.setNbmp p (b.nbmp p &&& ~~~(1#32 <<< n))

end Bbuddy

/-- `bbuddy_indexp`. -/
def bbuddyIndexp (p n : Nat) : Nat := if p / 32 > 1 then p / 32 + n / 32 else p / 32

/-- `bbuddy_indexbn`. -/
def bbuddyIndexbn (n : Nat) : Nat := if n / 32 ≠ 0 then n % 32 else n

/-- `n_indx`: the bit of the block `num` in its word. -/
def nIndx (align num : Nat) : Nat := if align < 32 then num + align else bbuddyIndexbn num

/-- `sizeof(bbuddy_t)`. -/
def BBUDDY_T_SIZE : Nat := 24

/-- `bbuddy_size`: the bytes of a `bbuddy_t` with its bitmaps. -/
def bbuddySize (n : Nat) : Nat :=
  (if n / 32 = 0 then 1 else if n / 32 > 1 then n / 32 + 2 else n / 32 + 1) * 8 + BBUDDY_T_SIZE

/-- `bbuddy_init`, on the words behind the `bbuddy_t`, or a null pointer. `none` is a
result of 1. -/
def bbuddyInit (ptr : Option (Nat → BitVec 32)) (maxPart : Nat) : Option Bbuddy :=
  match ptr with
  | none => none
  | some words =>
      if maxPart = 0 then none
      else
        let yy := maxPart / 32 * 2
        let b : Bbuddy :=
          ⟨words, if maxPart / 32 > 1 then maxPart / 32 + 2 else maxPart / 32 + 1, maxPart⟩
        let b := (List.range yy).foldl (fun b i => (b.setNbmp i NIL).setPbmp i FIL) b
        -- init first
        some ((b.markNbmp 0 0).markNbmp 0 1)

/-! ### Allocation -/

/-- The first free block of a layer in word 0. -/
def scanSmall (b : Bbuddy) (align : Nat) : Option Nat :=
  (List.range' align align).find? fun i => (b.nbmp 0).getLsbD i

/-- The first word of a layer of several words, or of one, with a free block. -/
def scanWords (b : Bbuddy) (pIndx : Nat) : Option Nat :=
  (List.range pIndx).find? fun i => b.nbmp (pIndx + i) != 0

/-- The first free block of a word. -/
def scanBits (word : BitVec 32) : Option Nat := (List.range 32).find? fun o => word.getLsbD o

/-- Mark children free. -/
def markChilds (b : Bbuddy) (p n : Nat) : Bbuddy :=
  (((b.markNbmp p n).markNbmp p (n + 1)).markPbmp p n).markPbmp p (n + 1)

/-- One call of `__bbuddy_block_alloc`. With `m_flag` the layer is one above the layer
asked for, and its block is separated. -/
def allocTurn : Bbuddy × Nat × Nat → Except Fault ((Bbuddy × Nat × Nat) ⊕ (Bbuddy × Nat))
  | (b, align, mFlag) =>
      let pIndx := align / 32
      if pIndx ≠ 0 then
        match scanWords b pIndx with
        | none => .ok (.inl (b, align / 2, mFlag + 1))
        | some i =>
            match scanBits (b.nbmp (pIndx + i)) with
            | none => .ok (.inr (b, 0))
            | some o =>
                if mFlag = 0 then
                  .ok (.inr ((b.clearNbmp (pIndx + i) o).markPbmp (pIndx + i) o,
                    if pIndx > 1 then (pIndx + i - 2) * 32 + o else o))
                else
                  -- The word `i` does not enter the place of the children.
                  .ok (.inl (markChilds ((b.clearNbmp (pIndx + i) o).clearPbmp (pIndx + i) o)
                    (bbuddyIndexp (align * 2) (o * 2)) (bbuddyIndexbn (o * 2)),
                    align * 2, mFlag - 1))
      else
        match scanSmall b align with
        | some i =>
            if mFlag = 0 then
              .ok (.inr ((b.clearNbmp 0 i).markPbmp 0 i, i - align))
            else
              .ok (.inl (markChilds ((b.clearNbmp 0 i).clearPbmp 0 i)
                (align * 2 / 32) (bbuddyIndexbn (i * 2)), align * 2, mFlag - 1))
        | none =>
            if align * 2 < 2 then .ok (.inr (b, ENOBLOCK))
            else .ok (.inl (b, align / 2, mFlag + 1))

/-- `bbuddy_block_alloc`. -/
def bbuddyBlockAlloc (b : Bbuddy) (align : Nat) : Except Fault (Bbuddy × Nat) :=
  Loop.run .diverges allocTurn TURNS (b, align, 0)

/-! ### Release -/

/-- One call of `__bbuddy_split_up`. -/
def splitUpTurn : Bbuddy × Nat × Nat → Except Fault ((Bbuddy × Nat × Nat) ⊕ Bbuddy)
  | (b, align, num) =>
      let p := bbuddyIndexp align num
      let n := nIndx align num
      let sibling := if num % 2 = 1 then n - 1 else n + 1
      if (b.nbmp p).getLsbD sibling then
        let b := (b.clearNbmp p sibling).clearNbmp p n
        -- Each of the two sets all bits of the word but one.
        let b := b.setPbmp p (b.pbmp p ||| ~~~(1#32 <<< sibling))
        let b := b.setPbmp p (b.pbmp p ||| ~~~(1#32 <<< n))
        let align := align / 2
        let num := num / 2
        let p := bbuddyIndexp align num
        let n := nIndx align num
        let b := (b.markNbmp p n).markPbmp p n
        if align > 1 then .ok (.inl (b, align, num)) else .ok (.inr b)
      else .ok (.inr b)

/-- `__bbuddy_split_up`. -/
def bbuddySplitUp (b : Bbuddy) (align num : Nat) : Except Fault Bbuddy :=
  Loop.run .diverges splitUpTurn TURNS (b, align, num)

/-- The number of layers. -/
def layersOf (pn : Nat) : Nat := if pn = 0 then 0 else Nat.log2 pn + 1

/-- The highest layer with a block that starts at `num` of layer `i`: its block and its
number. -/
def startLayer : Nat → Nat → Nat × Nat
  | 0, num => (num, 0)
  | i + 1, num => if num % 2 = 1 then (num, i + 1) else startLayer i (num / 2)

/-- One call of `__bbuddy_block_release`. -/
def releaseTurn : Bbuddy × Nat × Nat → Except Fault ((Bbuddy × Nat × Nat) ⊕ (Bbuddy × Nat))
  | (b, num, i) =>
      if num > b.pn then .ok (.inr (b, EINVALIDINDX))
      else
        let a := layersOf b.pn
        let start := if i = 0 then startLayer (a - 1) num else (num, i)
        let num := start.1
        let i := start.2
        let layer := 2 ^ i
        let n := nIndx layer num
        let p := bbuddyIndexp layer num
        if !(b.nbmp p).getLsbD n && (b.pbmp p).getLsbD n then do
          let b ← bbuddySplitUp (b.markNbmp p n) layer num
          .ok (.inr (b, 0))
        else if !(b.nbmp p).getLsbD n && !(b.pbmp p).getLsbD n then
          -- going deep
          if i + 1 ≥ a then .ok (.inr (b, EBUDDYCORRUPED))
          else .ok (.inl (b, num * 2, i + 1))
        else .ok (.inr (b, 0))

/-- `bbuddy_block_release`. -/
def bbuddyBlockRelease (b : Bbuddy) (num : Nat) : Except Fault (Bbuddy × Nat) :=
  Loop.run .diverges releaseTurn TURNS (b, num, 0)

end MString
