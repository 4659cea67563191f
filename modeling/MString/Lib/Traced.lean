import MString.Lib.ByteMemory
import Mathlib.Logic.Function.Basic

/-!
# `MString.Lib.Traced`: a byte memory that keeps a trace

`Traced` is a memory of bytes together with the addresses that were read and written so
far, the last one first. A store of the byte that was there before is a write like any
other.

* `storeWord` stores a quadword, `storeLong` a long, and `loadLong` is the load for it.
* `copy` and `fill` are the loops `while (n-- > 0) *to++ = *from++` and
  `while (n-- > 0) *to++ = c`.
* `mem_writes_copy`, `mem_reads_copy`, `mem_writes_fill`: which addresses they touch.
* `copy_frame`, `fill_frame`: the rest of memory is as before.
* `copy_mem`: the copy holds what the source held, when no byte of the source is
  overwritten before it is read. The areas may overlap.

As in `ByteMemory`, `x` is one of the `n` addresses from `a` on when `(x - a).toNat < n`.
-/

set_option autoImplicit false

namespace ByteMemory

/-- A memory with what was read and written. -/
structure Traced where
  mem : Memory
  reads : List Addr
  writes : List Addr

namespace Traced

/-- A memory of which nothing was read or written yet. -/
def start (m : Memory) : Traced := ⟨m, [], []⟩

/-- `*p` is read. -/
def read (p : Addr) (t : Traced) : Traced := { t with reads := p :: t.reads }

/-- `*p = b`. -/
def store (p : Addr) (b : Byte) (t : Traced) : Traced :=
  { t with mem := Function.update t.mem p b, writes := p :: t.writes }

/-- `*p = w` for a quadword. -/
def storeWord (p : Addr) (w : Word) (t : Traced) : Traced :=
  { t with
    mem := ByteMemory.store t.mem p w
    writes := (List.range 8).map (fun i => p + BitVec.ofNat 64 i) ++ t.writes }

/-- The long at an address, least significant byte first. -/
def loadLong (m : Memory) (a : Addr) : BitVec 32 := m (a + 3) ++ m (a + 2) ++ m (a + 1) ++ m a

/-- `*p = w` for a long. -/
def storeLong (p : Addr) (w : BitVec 32) (t : Traced) : Traced :=
  (((t.store p (w.extractLsb' 0 8)).store (p + 1) (w.extractLsb' 8 8)).store (p + 2)
    (w.extractLsb' 16 8)).store (p + 3) (w.extractLsb' 24 8)

/-- `n` bytes are copied, one after the other. -/
def copy : Nat → (dst src : Addr) → Traced → Traced
  | 0, _, _, t => t
  | n + 1, dst, src, t => copy n (dst + 1) (src + 1) ((t.read src).store dst (t.mem src))

/-- `n` bytes are set to `c`. -/
def fill (c : Byte) : Nat → (dst : Addr) → Traced → Traced
  | 0, _, t => t
  | n + 1, dst, t => fill c n (dst + 1) (t.store dst c)

/-- A read leaves the memory as it is ... -/
@[simp] theorem mem_read (p : Addr) (t : Traced) : (t.read p).mem = t.mem := rfl

/-- ... and adds no write. -/
@[simp] theorem writes_read (p : Addr) (t : Traced) : (t.read p).writes = t.writes := rfl

/-- It is the last read. -/
@[simp] theorem reads_read (p : Addr) (t : Traced) : (t.read p).reads = p :: t.reads := rfl

/-- A store changes one byte. -/
@[simp] theorem mem_store (p : Addr) (b : Byte) (t : Traced) :
    (t.store p b).mem = Function.update t.mem p b := rfl

/-- It is the last write ... -/
@[simp] theorem writes_store (p : Addr) (b : Byte) (t : Traced) :
    (t.store p b).writes = p :: t.writes := rfl

/-- ... and no read. -/
@[simp] theorem reads_store (p : Addr) (b : Byte) (t : Traced) :
    (t.store p b).reads = t.reads := rfl

/-- The first address of an area, and the ones behind it. -/
theorem area_succ {n : Nat} (hn : n < 2 ^ 64) (x a : Addr) :
    (x - a).toNat < n + 1 ↔ x = a ∨ (x - (a + 1)).toNat < n := by
  have heq : x = a ↔ (x - a).toNat = 0 := by
    rw [← sub_eq_zero, ← BitVec.toNat_inj]
    simp
  have hnext : (x - (a + 1)).toNat = (2 ^ 64 - 1 + (x - a).toNat) % 2 ^ 64 := by
    rw [sub_add_eq_sub_sub, BitVec.toNat_sub]
    simp
  have hlt := (x - a).isLt
  rw [heq, hnext]
  omega

/-- The address `i` above the start of an area. -/
theorem toNat_offset (a : Addr) {i : Nat} (hi : i < 2 ^ 64) :
    (a + BitVec.ofNat 64 i - a).toNat = i := by
  rw [add_sub_cancel_left, BitVec.toNat_ofNat, Nat.mod_eq_of_lt hi]

/-- An address is at its distance from any other. -/
theorem eq_offset (a x : Addr) : x = a + BitVec.ofNat 64 (x - a).toNat := by
  rw [BitVec.ofNat_toNat, BitVec.setWidth_eq, add_sub_cancel]

/-- An offset from the next address. -/
theorem succ_offset (a : Addr) (i : Nat) :
    a + 1 + BitVec.ofNat 64 i = a + BitVec.ofNat 64 (i + 1) := by
  rw [add_assoc, Nat.add_comm i 1, BitVec.ofNat_add]
  rfl

/-- An area `k` bytes further up. -/
theorem area_offset {k n : Nat} (hkn : k + n ≤ 2 ^ 64) (x a : Addr) :
    (x - (a + BitVec.ofNat 64 k)).toNat < n ↔ k ≤ (x - a).toNat ∧ (x - a).toNat < k + n := by
  have hlt := (x - a).isLt
  by_cases hk : k < 2 ^ 64
  · rw [sub_add_eq_sub_sub, BitVec.toNat_sub, BitVec.toNat_ofNat, Nat.mod_eq_of_lt hk]
    omega
  · have hn : n = 0 := by omega
    subst hn
    omega

/-! ### What the stores and the loops touch -/

variable {n : Nat}

/-- A word is stored to eight addresses. -/
theorem mem_writes_storeWord (p x : Addr) (w : Word) (t : Traced) :
    x ∈ (t.storeWord p w).writes ↔ (x - p).toNat < 8 ∨ x ∈ t.writes := by
  rw [storeWord, List.mem_append, List.mem_map]
  refine or_congr_left ⟨?_, fun h => ⟨_, List.mem_range.mpr h, (eq_offset p x).symm⟩⟩
  rintro ⟨i, hi, rfl⟩
  have hi' := List.mem_range.mp hi
  rwa [toNat_offset p (by omega)]

/-- Copying writes to the destination, ... -/
theorem mem_writes_copy (hn : n ≤ 2 ^ 64) (dst src x : Addr) (t : Traced) :
    x ∈ (copy n dst src t).writes ↔ (x - dst).toNat < n ∨ x ∈ t.writes := by
  induction n generalizing dst src t with
  | zero => simp [copy]
  | succ n ih =>
      rw [copy, ih (by omega), area_succ (by omega), writes_store, writes_read, List.mem_cons]
      tauto

/-- ... and so does filling. -/
theorem mem_writes_fill (c : Byte) (hn : n ≤ 2 ^ 64) (dst x : Addr) (t : Traced) :
    x ∈ (fill c n dst t).writes ↔ (x - dst).toNat < n ∨ x ∈ t.writes := by
  induction n generalizing dst t with
  | zero => simp [fill]
  | succ n ih =>
      rw [fill, ih (by omega), area_succ (by omega), writes_store, List.mem_cons]
      tauto

/-! ### What memory holds behind them -/

/-- A store leaves the other addresses alone, ... -/
theorem store_frame {p x : Addr} (b : Byte) (t : Traced) (hx : x ≠ p) :
    (t.store p b).mem x = t.mem x :=
  Function.update_of_ne hx _ _

/-- ... and so does copying ... -/
theorem copy_frame (hn : n ≤ 2 ^ 64) {dst x : Addr} (src : Addr) (t : Traced)
    (hx : ¬ (x - dst).toNat < n) : (copy n dst src t).mem x = t.mem x := by
  induction n generalizing dst src t with
  | zero => rfl
  | succ n ih =>
      rw [area_succ (by omega), not_or] at hx
      rw [copy, ih (by omega) _ _ hx.2, store_frame _ _ hx.1, mem_read]

/-- ... and filling. -/
theorem fill_frame (c : Byte) (hn : n ≤ 2 ^ 64) {dst x : Addr} (t : Traced)
    (hx : ¬ (x - dst).toNat < n) : (fill c n dst t).mem x = t.mem x := by
  induction n generalizing dst t with
  | zero => rfl
  | succ n ih =>
      rw [area_succ (by omega), not_or] at hx
      rw [fill, ih (by omega) _ hx.2, store_frame _ _ hx.1]

/-- The copy is right when each byte is read before it is overwritten. -/
theorem copy_mem (hn : n ≤ 2 ^ 64) (dst src : Addr) (t : Traced)
    (hsafe : ∀ i < n, ∀ j < i, dst + BitVec.ofNat 64 j ≠ src + BitVec.ofNat 64 i) :
    ∀ i < n, (copy n dst src t).mem (dst + BitVec.ofNat 64 i)
      = t.mem (src + BitVec.ofNat 64 i) := by
  induction n generalizing dst src t with
  | zero => intro i hi; omega
  | succ n ih =>
      intro i hi
      rw [copy]
      cases i with
      | zero =>
          -- The first byte is out of reach of the later stores.
          have hout : ¬ (dst - (dst + 1)).toNat < n := by
            rw [sub_add_cancel_left]
            simp
            omega
          rw [show dst + BitVec.ofNat 64 0 = dst by simp,
            show src + BitVec.ofNat 64 0 = src by simp, copy_frame (by omega) _ _ hout]
          simp
      | succ i =>
          have hsafe' : ∀ i < n, ∀ j < i,
              dst + 1 + BitVec.ofNat 64 j ≠ src + 1 + BitVec.ofNat 64 i := by
            intro i hi j hj
            rw [succ_offset, succ_offset]
            exact hsafe (i + 1) (by omega) (j + 1) (by omega)
          have hne : src + BitVec.ofNat 64 (i + 1) ≠ dst := by
            have h := hsafe (i + 1) hi 0 (by omega)
            rw [show dst + BitVec.ofNat 64 0 = dst by simp] at h
            exact h.symm
          rw [← succ_offset, ih (by omega) _ _ _ hsafe' i (by omega), succ_offset,
            store_frame _ _ hne, mem_read]

/-- Every byte of the area is set. -/
theorem fill_mem (c : Byte) (hn : n ≤ 2 ^ 64) (dst : Addr) (t : Traced) :
    ∀ x, (x - dst).toNat < n → (fill c n dst t).mem x = c := by
  induction n generalizing dst t with
  | zero => intro x hx; omega
  | succ n ih =>
      intro x hx
      rw [fill]
      by_cases hin : (x - (dst + 1)).toNat < n
      · exact ih (by omega) _ _ x hin
      · rw [area_succ (by omega)] at hx
        rw [fill_frame c (by omega) _ hin, hx.resolve_right hin]
        simp

/-! ### Longs -/

/-- A long is stored to four addresses ... -/
theorem mem_writes_storeLong (p x : Addr) (w : BitVec 32) (t : Traced) :
    x ∈ (t.storeLong p w).writes ↔ (x - p).toNat < 4 ∨ x ∈ t.writes := by
  have h3 : p + 1 + 1 + 1 = p + 3 := by rw [add_assoc, add_assoc]; rfl
  have h2 : p + 1 + 1 = p + 2 := by rw [add_assoc]; rfl
  rw [area_succ (by decide), area_succ (by decide), area_succ (by decide), area_succ (by decide),
    h3, h2, storeLong]
  simp only [writes_store, List.mem_cons, Nat.not_lt_zero, or_false]
  tauto

/-- ... and leaves the others alone. -/
theorem storeLong_frame {p x : Addr} (w : BitVec 32) (t : Traced) (hx : ¬ (x - p).toNat < 4) :
    (t.storeLong p w).mem x = t.mem x := by
  have h3 : p + 1 + 1 + 1 = p + 3 := by rw [add_assoc, add_assoc]; rfl
  have h2 : p + 1 + 1 = p + 2 := by rw [add_assoc]; rfl
  rw [area_succ (by decide), area_succ (by decide), area_succ (by decide), area_succ (by decide),
    h3, h2] at hx
  push Not at hx
  rw [storeLong, store_frame _ _ hx.2.2.2.1, store_frame _ _ hx.2.2.1, store_frame _ _ hx.2.1,
    store_frame _ _ hx.1]

/-- What was stored is loaded. -/
theorem loadLong_storeLong (p : Addr) (w : BitVec 32) (t : Traced) :
    loadLong (t.storeLong p w).mem p = w := by
  have hne : ∀ i j : BitVec 64, i ≠ j → p + i ≠ p + j := fun i j h heq => h (add_left_cancel heq)
  have hne0 : ∀ i : BitVec 64, i ≠ 0 → p ≠ p + i := fun i h heq => h (left_eq_add.mp heq)
  simp only [loadLong, storeLong, mem_store, Function.update_self]
  rw [Function.update_of_ne (hne 2 3 (by decide)), Function.update_self,
    Function.update_of_ne (hne 1 3 (by decide)), Function.update_of_ne (hne 1 2 (by decide)),
    Function.update_self, Function.update_of_ne (hne0 3 (by decide)),
    Function.update_of_ne (hne0 2 (by decide)), Function.update_of_ne (hne0 1 (by decide)),
    Function.update_self]
  apply BitVec.eq_of_getLsbD_eq
  intro i hi
  simp only [BitVec.getLsbD_append, BitVec.getLsbD_extractLsb']
  grind

/-- Its lowest byte comes first. -/
theorem storeLong_self (p : Addr) (w : BitVec 32) (t : Traced) :
    (t.storeLong p w).mem p = w.extractLsb' 0 8 := by
  have hne0 : ∀ i : BitVec 64, i ≠ 0 → p ≠ p + i := fun i h heq => h (left_eq_add.mp heq)
  rw [storeLong, store_frame _ _ (hne0 3 (by decide)), store_frame _ _ (hne0 2 (by decide)),
    store_frame _ _ (hne0 1 (by decide)), mem_store, Function.update_self]

/-- A load sees four bytes. -/
theorem loadLong_congr {m m' : Memory} {a : Addr} (h : ∀ x, (x - a).toNat < 4 → m x = m' x) :
    loadLong m a = loadLong m' a := by
  have hoff : ∀ i : Nat, i < 4 → m (a + BitVec.ofNat 64 i) = m' (a + BitVec.ofNat 64 i) :=
    fun i hi => h _ (by rwa [toNat_offset a (by omega)])
  have h0 := hoff 0 (by decide)
  rw [show a + BitVec.ofNat 64 0 = a from add_zero a] at h0
  rw [loadLong, loadLong, h0]
  exact congrArg₂ _ (congrArg₂ _ (congrArg₂ _ (hoff 3 (by decide)) (hoff 2 (by decide)))
    (hoff 1 (by decide))) rfl

end Traced

end ByteMemory
