import MString.Lib.PageWalk
import MString.Mm.Pt

/-!
# `MString.Mm.Mmu`: the tables as the processor sees them

The entries of `pt.c` are bit fields; the processor reads quadwords of physical memory.
`load_cr3` of `include/eza/amd64/asm.h` names the directory for it.
-/

set_option autoImplicit false

namespace MString

open BitFields PageWalk

/-- The bit fields of an entry, the lowest first. -/
def TlbEntry.bitFields (e : TlbEntry) : List (Nat × Nat) :=
  [(1, e.present.toNat), (1, e.rw.toNat), (1, e.us.toNat), (1, e.pwt.toNat), (1, e.pcd.toNat),
    (1, e.a.toNat), (1, e.bit6.toNat), (1, e.bit7.toNat), (1, e.bit8.toNat),
    (3, e.available_9_11.toNat), (20, e.base_0_19.toNat), (20, e.base_20_39.toNat),
    (11, e.available_52_62.toNat), (1, e.nx.toNat)]

/-- The quadword that an entry is in memory. -/
def TlbEntry.word (e : TlbEntry) : Nat := pack e.bitFields

/-- The physical memory behind the kernel's window. -/
def physicalWords (m : Mem) : Words := fun pa => (m (p2kCode (BitVec.ofNat 64 pa))).word

/-- What `load_cr3` loads. -/
def loadCr3 (physAddr : Uintptr) (pcd pwt : BitVec 8) : BitVec 64 :=
  let cr3Val : BitVec 64 := ((pwt &&& 1).setWidth 64 <<< 3) ||| ((pcd &&& 1).setWidth 64 <<< 4)
  let physAddr := physAddr >>> 12
  let cr3Val := cr3Val ||| ((physAddr &&& 0xfffff) <<< 12)
  cr3Val ||| ((physAddr &&& 0xfffff00000) <<< 12)

section Word

variable (e : TlbEntry)

@[simp] theorem present_word : present e.word = e.present := by
  have h := field_pack [] 1 e.present.toNat (e.bitFields.drop 1)
  have hword : pack ([] ++ (1, e.present.toNat) :: e.bitFields.drop 1) = e.word := rfl
  rw [hword, show width [] = 0 from rfl] at h
  rw [present, h]
  cases e.present <;> rfl

@[simp] theorem pageSize_word : pageSize e.word = e.bit7 := by
  have h := field_pack (e.bitFields.take 7) 1 e.bit7.toNat (e.bitFields.drop 8)
  have hword : pack (e.bitFields.take 7 ++ (1, e.bit7.toNat) :: e.bitFields.drop 8) = e.word := rfl
  rw [hword, show width (e.bitFields.take 7) = 7 from rfl] at h
  rw [pageSize, h]
  cases e.bit7 <;> rfl

/-- The two base fields are one to the processor. -/
theorem base_word : base 12 e.word
    = 2 ^ 12 * (e.base_0_19.toNat + 2 ^ 20 * e.base_20_39.toNat) := by
  have h := field_pack (e.bitFields.take 10) 20 e.base_0_19.toNat (e.bitFields.drop 11)
  have h' := field_pack (e.bitFields.take 11) 20 e.base_20_39.toNat (e.bitFields.drop 12)
  have hlow := e.base_0_19.isLt
  have hhigh := e.base_20_39.isLt
  have hw : e.word = pack (e.bitFields.take 10 ++ (20, e.base_0_19.toNat) :: e.bitFields.drop 11) :=
    rfl
  have hw' : e.word
      = pack (e.bitFields.take 11 ++ (20, e.base_20_39.toNat) :: e.bitFields.drop 12) := rfl
  rw [← hw] at h
  rw [← hw'] at h'
  rw [show width (e.bitFields.take 10) = 12 from rfl] at h
  rw [show width (e.bitFields.take 11) = 32 from rfl] at h'
  rw [base, show 52 - 12 = 20 + 20 from rfl, field_add, h, h', Nat.mod_eq_of_lt hlow,
    Nat.mod_eq_of_lt hhigh]

end Word

/-- The processor takes the directory from where the argument says. -/
theorem base_loadCr3 (p : Uintptr) (pcd pwt : BitVec 8) (haligned : p.toNat % 4096 = 0)
    (hlt : p.toNat < 2 ^ 52) : base 12 (loadCr3 p pcd pwt).toNat = p.toNat := by
  have hbits : (loadCr3 p pcd pwt).extractLsb' 12 40 = p.extractLsb' 12 40 := by
    apply BitVec.eq_of_getLsbD_eq
    intro i hi
    have hlow : ∀ j < 64, (0xfffff#64).getLsbD j = decide (j < 20) := by decide
    have hhigh : ∀ j < 64, (0xfffff00000#64).getLsbD j = decide (20 ≤ j ∧ j < 40) := by decide
    -- the two flags are below the address
    have hpwt : ((pwt &&& 1).setWidth 64 <<< 3 : BitVec 64).getLsbD (12 + i) = false := by
      simp [BitVec.getLsbD_shiftLeft, BitVec.getLsbD_of_ge pwt (12 + i - 3) (by omega)]
    have hpcd : ((pcd &&& 1).setWidth 64 <<< 4 : BitVec 64).getLsbD (12 + i) = false := by
      simp [BitVec.getLsbD_shiftLeft, BitVec.getLsbD_of_ge pcd (12 + i - 4) (by omega)]
    simp only [loadCr3, BitVec.getLsbD_extractLsb', BitVec.getLsbD_or, hpwt, hpcd,
      BitVec.getLsbD_shiftLeft, BitVec.getLsbD_and, BitVec.getLsbD_ushiftRight,
      show 12 + i - 12 = i by omega]
    by_cases h20 : i < 20
    · simp [hlow i (by omega), hhigh i (by omega), hi, h20, show 12 + i < 64 by omega,
        show ¬ 12 + i < 12 by omega, show ¬ 20 ≤ i by omega]
    · simp [hlow i (by omega), hhigh i (by omega), hi, h20, show 12 + i < 64 by omega,
        show ¬ 12 + i < 12 by omega, show 20 ≤ i by omega]
  have hnum := congrArg BitVec.toNat hbits
  rw [BitVec.extractLsb'_toNat, BitVec.extractLsb'_toNat, Nat.shiftRight_eq_div_pow,
    Nat.shiftRight_eq_div_pow] at hnum
  rw [base, field, show 52 - 12 = 40 from rfl, hnum]
  omega

end MString
