import MString.Lib.PageWalk
import MString.Mm.Page

/-!
# `MString.Eza.BootTables`: the tables that the kernel boots with

The section `K_INI_PTLS` of `eza/amd64/boot.S`: the contents of the tables, and where
`cr3` points before the kernel has a directory of its own. The addresses of the tables are
the linker's.
-/

set_option autoImplicit false

namespace MString

open PageWalk

def PTL_PRESENT : Nat := 1
def PTL_WRITABLE : Nat := 1 <<< 1
def PTL_2MB_PAGE : Nat := 1 <<< 7

/-- Where the linker puts the tables. -/
structure BootLayout where
  /-- `ptl_2_0g` to `ptl_2_3g`. -/
  ptl2 : Fin 4 → Nat
  ptl1 : Nat
  ptl0 : Nat

/-- `ptl2gen`, for `8 * k` entries. The assembler's `|` binds closer than its `+`. -/
def ptl2gen : Nat → Nat → List Nat
  | 0, _ => []
  | k + 1, g => ptl2gen k g ++ (List.range 8).map fun j =>
      (8 * k + j) * 0x200000
        + (g * 1024 * 1024 * 1024 ||| (PTL_WRITABLE ||| PTL_PRESENT ||| PTL_2MB_PAGE))

/-- The contents of `ptl_2_0g` to `ptl_2_3g`. -/
def ptl2Entries (g : Fin 4) : List Nat := ptl2gen 64 g

/-- The contents of `ptl_1`. -/
def ptl1Entries (b : BootLayout) : List Nat :=
  (List.finRange 4).map (fun g => b.ptl2 g + (PTL_WRITABLE ||| PTL_PRESENT))
    ++ List.replicate 506 0 ++ [b.ptl2 0 + (PTL_WRITABLE ||| PTL_PRESENT)] ++ List.replicate 1 0

/-- The contents of `ptl_0`. -/
def ptl0Entries (b : BootLayout) : List Nat :=
  [b.ptl1 + (PTL_WRITABLE ||| PTL_PRESENT)] ++ List.replicate 255 0
    ++ [b.ptl1 + (PTL_WRITABLE ||| PTL_PRESENT)] ++ List.replicate 254 0
    ++ [b.ptl1 + (PTL_WRITABLE ||| PTL_PRESENT)]

/-- The words stand in memory from `a` on. -/
def Placed (m : Words) (a : Nat) (ws : List Nat) : Prop :=
  ∀ i w, ws[i]? = some w → m (a + 8 * i) = w

/-- A memory into which the kernel's image was loaded. -/
structure BootImage (m : Words) (b : BootLayout) : Prop where
  ptl2 : ∀ g, Placed m (b.ptl2 g) (ptl2Entries g)
  ptl1 : Placed m b.ptl1 (ptl1Entries b)
  ptl0 : Placed m b.ptl0 (ptl0Entries b)
  /-- `.align 4096`. -/
  aligned : (∀ g, b.ptl2 g % 4096 = 0) ∧ b.ptl1 % 4096 = 0 ∧ b.ptl0 % 4096 = 0
  /-- The image is loaded below 4 GB. -/
  low : (∀ g, b.ptl2 g < 2 ^ 32) ∧ b.ptl1 < 2 ^ 32 ∧ b.ptl0 < 2 ^ 32

end MString
