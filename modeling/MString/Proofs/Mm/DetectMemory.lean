import MString.Mm.Mm

/-!
# `MString.Proofs.Mm.DetectMemory`: the size of the main memory

`detect_physical_memory` takes the first usable record at `KERNEL_PHYS_START` and
compares its end with `MIN_PHYS_MEMORY_REQUIRED`. The operands of the comparison's
difference are the wrong way round, so it is the machines at the top of the address space
that are refused, and no small one.

`DetectsRight` is what the two panics are for, and `detectPhysicalMemory_iff` says for
which tables it holds.
-/

set_option autoImplicit false

namespace MString

/-- The first usable record at `KERNEL_PHYS_START`. -/
def E820Table.mainRecord (t : E820Table) : Option E820MemMap :=
  t.entries.find? fun m => m.baseAddress == KERNEL_PHYS_START && m.type == E820_USABLE

/-- The address behind a record, which may be beyond 64 bits. -/
def E820MemMap.limit (m : E820MemMap) : Nat := m.baseAddress.toNat + m.length.toNat

/-- The run ends in a panic. -/
def Panics {α : Type} (r : Except Fault α) : Prop := ∃ msg, r = .error (.panic msg)

/-- No main memory, or too little of it. -/
def TooSmall (t : E820Table) : Prop :=
  ∀ m, t.mainRecord = some m → m.limit ≤ MIN_PHYS_MEMORY_REQUIRED.toNat

/-- A machine is refused exactly when it is too small, and the end of its main memory is
found to the byte on every other one. -/
structure DetectsRight (t : E820Table) : Prop where
  refuses : Panics (detectPhysicalMemory t) ↔ TooSmall t
  finds : ¬ TooSmall t → ∃ m maxPhysAddr, t.mainRecord = some m ∧
    detectPhysicalMemory t = .ok maxPhysAddr ∧ maxPhysAddr.toNat = m.limit

theorem toNat_MIN_PHYS_MEMORY_REQUIRED : MIN_PHYS_MEMORY_REQUIRED.toNat = 0x1800000 := by decide

/-- Then it does not return. -/
theorem Panics.not_ok {α : Type} {r : Except Fault α} {a : α} (h : Panics r) : r ≠ .ok a := by
  obtain ⟨msg, rfl⟩ := h
  intro he
  cases he

/-- Without a record for main memory, the code panics. -/
theorem panics_of_no_record (t : E820Table) (h : t.mainRecord = none) :
    Panics (detectPhysicalMemory t) := by
  have hf : t.entries.find? (fun m => m.baseAddress == KERNEL_PHYS_START && m.type == 1) = none := h
  rw [detectPhysicalMemory, hf]
  exact ⟨_, rfl⟩

/-- The code's test, on the sum as the code has it. -/
theorem detectPhysicalMemory_record (t : E820Table) (m : E820MemMap) (h : t.mainRecord = some m) :
    (Panics (detectPhysicalMemory t) ∧
      (m.limit % 2 ^ 64 = 0 ∨ 2 ^ 64 ≤ m.limit % 2 ^ 64 + MIN_PHYS_MEMORY_REQUIRED.toNat)) ∨
    (detectPhysicalMemory t = .ok (m.baseAddress + m.length) ∧
      0 < m.limit % 2 ^ 64 ∧ m.limit % 2 ^ 64 + MIN_PHYS_MEMORY_REQUIRED.toNat < 2 ^ 64) := by
  have hf : t.entries.find? (fun m => m.baseAddress == KERNEL_PHYS_START && m.type == 1) =
    some m := h
  have hsum : (m.baseAddress + m.length).toNat = m.limit % 2 ^ 64 := BitVec.toNat_add _ _
  rw [detectPhysicalMemory, hf]
  dsimp only
  have htest : ((m.baseAddress + m.length) ≤ 0 ∨
      0 - (m.baseAddress + m.length) ≤ MIN_PHYS_MEMORY_REQUIRED) ↔
      (m.limit % 2 ^ 64 = 0 ∨ 2 ^ 64 ≤ m.limit % 2 ^ 64 + MIN_PHYS_MEMORY_REQUIRED.toNat) := by
    have hlt : m.limit % 2 ^ 64 < 2 ^ 64 := Nat.mod_lt _ (by decide)
    rw [BitVec.le_def, BitVec.le_def, BitVec.toNat_sub, hsum, toNat_MIN_PHYS_MEMORY_REQUIRED,
      show (0 : Uintptr).toNat = 0 from rfl]
    omega
  split
  case isTrue hif => exact .inl ⟨⟨_, rfl⟩, htest.mp hif⟩
  case isFalse hif =>
    rw [htest] at hif
    exact .inr ⟨rfl, by omega, by omega⟩

/-- Every record at `KERNEL_PHYS_START` ends behind address zero. -/
theorem mainRecord_limit (t : E820Table) (m : E820MemMap) (h : t.mainRecord = some m) :
    0x100000 ≤ m.limit := by
  have hp := List.find?_some h
  simp only [Bool.and_eq_true, beq_iff_eq] at hp
  rw [E820MemMap.limit, hp.1, show KERNEL_PHYS_START.toNat = 0x100000 by decide]
  omega

/-- Main memory is too small when its last byte is not above the minimum. -/
theorem tooSmall_iff (t : E820Table) (m : E820MemMap) (h : t.mainRecord = some m) :
    TooSmall t ↔ m.limit ≤ MIN_PHYS_MEMORY_REQUIRED.toNat := by
  constructor
  · intro ht
    exact ht m h
  · intro hm m' hm'
    rw [h, Option.some.injEq] at hm'
    rw [← hm']
    exact hm

/-- The detection is right exactly when the table has no main memory, or the end of it is
above `MIN_PHYS_MEMORY_REQUIRED` and at least that far from the top of the address
space. -/
theorem detectPhysicalMemory_iff (t : E820Table) :
    DetectsRight t ↔ ∀ m, t.mainRecord = some m →
      MIN_PHYS_MEMORY_REQUIRED.toNat < m.limit ∧
        m.limit + MIN_PHYS_MEMORY_REQUIRED.toNat < 2 ^ 64 := by
  have hmin := toNat_MIN_PHYS_MEMORY_REQUIRED
  cases hr : t.mainRecord with
  | none =>
    have hsmall : TooSmall t := fun m hm => by rw [hr] at hm; exact nomatch hm
    constructor
    · exact fun _ m hm => nomatch hm
    · exact fun _ => ⟨⟨fun _ => hsmall, fun _ => panics_of_no_record t hr⟩,
        fun h => absurd hsmall h⟩
  | some m =>
    have hlow := mainRecord_limit t m hr
    have hmain : (∀ m', some m = some m' → MIN_PHYS_MEMORY_REQUIRED.toNat < m'.limit ∧
        m'.limit + MIN_PHYS_MEMORY_REQUIRED.toNat < 2 ^ 64) ↔
        (MIN_PHYS_MEMORY_REQUIRED.toNat < m.limit ∧
          m.limit + MIN_PHYS_MEMORY_REQUIRED.toNat < 2 ^ 64) := by simp
    rw [hmain]
    constructor
    · intro hright
      -- A small machine is never refused, so this one is not small.
      rcases detectPhysicalMemory_record t m hr with ⟨hpanics, htest⟩ | ⟨hok, htest⟩
      · have hle := (tooSmall_iff t m hr).mp (hright.refuses.mp hpanics)
        omega
      · have hbig : ¬ TooSmall t := fun hs => (hright.refuses.mpr hs).not_ok hok
        obtain ⟨m', maxPhysAddr, hm', hmax, hexact⟩ := hright.finds hbig
        rw [hr, Option.some.injEq] at hm'
        rw [hok, Except.ok.injEq] at hmax
        rw [← hmax, ← hm', BitVec.toNat_add] at hexact
        have hlimit : m.limit % 2 ^ 64 = m.limit := hexact
        rw [tooSmall_iff t m hr] at hbig
        omega
    · rintro ⟨hbig, htop⟩
      have hmod : m.limit % 2 ^ 64 = m.limit := Nat.mod_eq_of_lt (by omega)
      have hnot : ¬ TooSmall t := fun hs => absurd ((tooSmall_iff t m hr).mp hs) (by omega)
      rcases detectPhysicalMemory_record t m hr with ⟨_, htest⟩ | ⟨hok, _⟩
      · omega
      · exact
          { refuses := ⟨fun hp => absurd hok hp.not_ok, fun hs => absurd hs hnot⟩
            finds := fun _ => ⟨m, _, hr, hok, (BitVec.toNat_add _ _).trans hmod⟩ }

/-- A machine with 1 MB of main memory. -/
def tinyMap : E820Table := ⟨[⟨0x100000, 0x100000, 0, 1⟩], by decide⟩

/-- Its 1 MB is accepted, though it is too little. -/
theorem not_detectsRight_tiny : ¬ DetectsRight tinyMap := by
  intro h
  have hok : detectPhysicalMemory tinyMap = .ok 0x200000 := by decide
  have hsmall : TooSmall tinyMap := by
    rintro m hm
    obtain rfl : ⟨0x100000, 0x100000, 0, 1⟩ = m := Option.some.inj hm
    decide
  exact (h.refuses.mpr hsmall).not_ok hok

end MString
