import MString.Eza.Context
import MString.Proofs.Mm.Words
import Mathlib.Tactic.Ring

/-!
# `MString.Proofs.Eza.Context`: `SAVE_ALL` and `RESTORE_ALL` mirror each other

`SAVE_ALL` leaves the registers of `savedGprs`, the FX state below them at a multiple
of 512, and below that the way back up. `SavedAll m saved` says that this stands in
`m` for the state `saved`, and `saveBottom` where its lowest quadword is.

* `exec_saveAll`: for every stack pointer, `SAVE_ALL` establishes `SavedAll` and writes
  only below the stack pointer.
* `exec_restoreAll`: from `SavedAll`, `RESTORE_ALL` loads all registers but `rax`, the
  FX state and the stack pointer.
-/

set_option autoImplicit false

namespace MString

open Amd64 ByteMemory

/-! ### The FX area -/

/-- What `SAVE_MM` takes off the stack pointer `s` for the FX area. -/
def fxDelta (s : Word) : Word := s - (s &&& 0xfffffffffffffe00) + 512

/-- The distance that `SAVE_MM` rounds the stack down by. -/
theorem toNat_fxDelta (s : Word) : (fxDelta s).toNat = s.toNat % 512 + 512 := by
  have hmask : (s &&& 0xfffffffffffffe00).toNat = s.toNat / 512 * 512 := toNat_and_blockMask s 9
  have hdown : (s - (s &&& 0xfffffffffffffe00)).toNat = s.toNat % 512 := by
    rw [BitVec.toNat_sub_of_le (BitVec.le_def.mpr (by omega)), hmask]
    omega
  rw [fxDelta, BitVec.toNat_add, hdown]
  simp
  omega

/-- `fxsave` wants an address that is a multiple of 16. -/
theorem aligned_iff (a : Addr) : Aligned a ↔ a.toNat % 16 = 0 := by
  have hmod : (a &&& 15).toNat = a.toNat % 16 := by
    rw [BitVec.toNat_and]
    exact Nat.and_two_pow_sub_one_eq_mod a.toNat 4
  rw [Aligned, ← BitVec.toNat_inj, hmod]
  rfl

/-- The FX area is aligned for every stack pointer. -/
theorem aligned_fxArea (s : Word) : Aligned (s - fxDelta s) := by
  rw [aligned_iff, BitVec.toNat_sub, toNat_fxDelta]
  omega

/-- The part of `SAVE_MM` that makes room for the FX area. -/
def alignStack : List Instr :=
  [.movq .rsp .r8, .andqImm 0xfffffffffffffe00 .r8, .movq .rsp .r9, .subq .r8 .r9,
    .addqImm 512 .r9, .subq .r9 .rsp]

/-- The instructions that round down. Of the registers, they change the stack pointer, `r8` and
`r9` only. -/
theorem exec_alignStack (c : Cpu) :
    ∃ reg rflags, exec alignStack c = some { c with reg, rflags }
      ∧ reg .rsp = c.reg .rsp - fxDelta (c.reg .rsp)
      ∧ reg .r9 = fxDelta (c.reg .rsp)
      ∧ ∀ r, r ≠ .rsp → r ≠ .r8 → r ≠ .r9 → reg r = c.reg r := by
  refine ⟨_, _, rfl, ?_, ?_, ?_⟩
  · simp [fxDelta]
  · simp [fxDelta]
  · intro r hsp h8 h9
    simp [hsp, h8, h9]

/-- `SAVE_MM` stores the FX state and the way back up, and keeps all registers but its
scratch ones. -/
theorem exec_saveMm (c : Cpu) :
    ∃ reg rflags m, exec saveMm c = some { c with reg, rflags, mem := m }
      ∧ reg .rsp = c.reg .rsp - fxDelta (c.reg .rsp) - 8
      ∧ (∀ r, r ≠ .rsp → r ≠ .r8 → r ≠ .r9 → reg r = c.reg r)
      ∧ load m (reg .rsp) = fxDelta (c.reg .rsp)
      ∧ read m (reg .rsp + 8) 512 = c.fx
      ∧ Agree (c.reg .rsp) (2 ^ 64 - ((fxDelta (c.reg .rsp)).toNat + 8)) c.mem m := by
  obtain ⟨reg, rflags, hexec, hsp, hr9, hothers⟩ := exec_alignStack c
  have hal : Aligned (reg .rsp) := hsp ▸ aligned_fxArea (c.reg .rsp)
  have hdelta := toNat_fxDelta (c.reg .rsp)
  have hsave : saveMm = alignStack ++ [.fxsave .rsp, .pushq .r9] := rfl
  let m₁ := write c.mem (reg .rsp) c.fx
  let m := store m₁ (reg .rsp - 8) (reg .r9)
  have hup : reg .rsp - (reg .rsp - 8) = 8 := by ring
  refine ⟨Function.update reg .rsp (reg .rsp - 8), rflags, m, ?_, ?_, ?_, ?_, ?_, ?_⟩
  · rw [hsave, exec_append_some hexec, exec, step, if_pos hal, Option.bind_some]
    rfl
  · rw [Function.update_self, hsp]
  · intro r hr hr8 hr9
    rw [Function.update_of_ne hr, hothers r hr hr8 hr9]
  · rw [Function.update_self, load_store, hr9]
  · -- the push of the way back up misses the FX area
    have hpush : Agree (reg .rsp) 512 m₁ m := by
      apply agree_write <;> rw [← neg_sub, hup] <;> decide
    rw [Function.update_self, sub_add_cancel, read_congr hpush, read_write _ (by decide)]
  · have hfx : Agree (c.reg .rsp) (2 ^ 64 - ((fxDelta (c.reg .rsp)).toNat + 8)) c.mem m₁ := by
      apply agree_write <;> rw [hsp, sub_sub_cancel_left, BitVec.toNat_neg] <;> omega
    refine hfx.trans ?_
    have hdist : reg .rsp - 8 - c.reg .rsp = -(fxDelta (c.reg .rsp) + 8) := by
      rw [hsp]
      ring
    apply agree_write <;> rw [hdist, BitVec.toNat_neg, BitVec.toNat_add] <;> simp <;> omega

/-! ### The saved state -/

/-- The stack pointer after `SAVE_ALL` at the stack pointer `s`. -/
def saveBottom (s : Word) : Word :=
  s - SAVED_GPR_SIZE - fxDelta (s - SAVED_GPR_SIZE) - 8

/-- How many bytes `SAVE_ALL` takes. -/
def savedSize (s : Word) : Nat := SAVED_GPR_SIZE.toNat + (fxDelta (s - SAVED_GPR_SIZE)).toNat + 8

/-- A saved context takes less than 2 KB. -/
theorem savedSize_lt (s : Word) : savedSize s < 2 ^ 11 := by
  have hgpr : SAVED_GPR_SIZE.toNat = 112 := rfl
  rw [savedSize, toNat_fxDelta, hgpr]
  omega

/-- It stands right below the stack pointer. -/
theorem toNat_sub_saveBottom (s : Word) : (s - saveBottom s).toNat = savedSize s := by
  have hlt := savedSize_lt s
  rw [savedSize] at hlt ⊢
  have hsum : s - saveBottom s = SAVED_GPR_SIZE + fxDelta (s - SAVED_GPR_SIZE) + 8 := by
    rw [saveBottom]
    ring
  rw [hsum, BitVec.toNat_add, BitVec.toNat_add]
  simp
  omega

/-- What `SAVE_ALL` in the state `saved` leaves on the stack. -/
structure SavedAll (m : Memory) (saved : Cpu) : Prop where
  delta : load m (saveBottom (saved.reg .rsp)) = fxDelta (saved.reg .rsp - SAVED_GPR_SIZE)
  fx : read m (saveBottom (saved.reg .rsp) + 8) 512 = saved.fx
  gprs : Holds m (saved.reg .rsp - SAVED_GPR_SIZE) (restoredGprs.map saved.reg)

/-- Only the bytes that `SAVE_ALL` takes matter. -/
theorem SavedAll.of_agree {m m' : Memory} {saved : Cpu} (h : SavedAll m saved)
    (hm : Agree (saveBottom (saved.reg .rsp)) (savedSize (saved.reg .rsp)) m m') :
    SavedAll m' saved := by
  have hgpr : SAVED_GPR_SIZE.toNat = 112 := rfl
  have hfx := toNat_fxDelta (saved.reg .rsp - SAVED_GPR_SIZE)
  refine ⟨?_, ?_, ?_⟩
  · rw [load_congr (hm.take (by rw [savedSize]; omega))]
    exact h.delta
  · rw [read_congr (hm.up 8 (by rw [savedSize]; simp; omega))]
    exact h.fx
  · refine h.gprs.of_agree (hm.sub ?_)
    have hdist : saved.reg .rsp - SAVED_GPR_SIZE - saveBottom (saved.reg .rsp)
        = fxDelta (saved.reg .rsp - SAVED_GPR_SIZE) + 8 := by
      rw [saveBottom]
      ring
    rw [hdist, BitVec.toNat_add, List.length_map]
    have hlen : restoredGprs.length = 14 := rfl
    rw [hlen, savedSize]
    simp
    omega

/-- `rax` is taken off the stack by itself. -/
theorem rax_not_mem_restoredGprs {r : Reg} (h : r ∈ restoredGprs) : r ≠ .rax := by
  rintro rfl
  revert h
  decide

/-- `rax` is not part of what is saved. -/
theorem SavedAll.congr {m : Memory} {saved saved' : Cpu} (h : SavedAll m saved)
    (hregs : ∀ r, r ≠ .rax → saved'.reg r = saved.reg r) (hfx : saved'.fx = saved.fx) :
    SavedAll m saved' := by
  have hsp : saved'.reg .rsp = saved.reg .rsp := hregs .rsp (by decide)
  refine ⟨?_, ?_, ?_⟩
  · rw [hsp]
    exact h.delta
  · rw [hsp, hfx]
    exact h.fx
  · rw [hsp, List.map_congr_left fun r hr => hregs r (rax_not_mem_restoredGprs hr)]
    exact h.gprs

/-- `SAVE_ALL` saves the state it starts in, below the stack pointer, and changes no
register but the scratch ones of `SAVE_MM`. -/
theorem exec_saveAll (c : Cpu) :
    ∃ reg rflags m, exec saveAll c = some { c with reg, rflags, mem := m }
      ∧ reg .rsp = saveBottom (c.reg .rsp)
      ∧ (∀ r, r ≠ .rsp → r ≠ .r8 → r ≠ .r9 → reg r = c.reg r)
      ∧ SavedAll m c
      ∧ Agree (c.reg .rsp) (2 ^ 64 - savedSize (c.reg .rsp)) c.mem m := by
  -- First the pushes, and then the area below them.
  obtain ⟨reg₁, m₁, hexec₁, hsp₁, hregs₁, hgprs, hagree₁⟩ :=
    @exec_pushes savedGprs (by decide) (by decide) c
  have hsp₁ : reg₁ .rsp = c.reg .rsp - SAVED_GPR_SIZE := hsp₁
  let c₁ : Cpu := { c with reg := reg₁, mem := m₁, rflags := setFlag c.rflags IF false }
  obtain ⟨reg, rflags, m, hexec, hsp, hregs, hdelta, hfx, hagree⟩ := exec_saveMm c₁
  have hsp : reg .rsp = saveBottom (c.reg .rsp) := by rw [hsp, saveBottom, ← hsp₁]
  refine ⟨reg, rflags, m, ?_, hsp, ?_, ⟨?_, ?_, ?_⟩, ?_⟩
  · rw [saveAll, saveGpr, exec_append_some hexec₁, exec, step, Option.bind_some]
    exact hexec
  · intro r hr hr8 hr9
    rw [hregs r hr hr8 hr9]
    exact hregs₁ r hr
  · rw [← hsp, hdelta, ← hsp₁]
  · rw [← hsp]
    exact hfx
  · -- The pushed registers are above what `SAVE_MM` stores.
    rw [← hsp₁]
    refine hgprs.of_agree (hagree.take ?_)
    have hlen : (savedGprs.reverse.map c.reg).length = 14 := rfl
    rw [hlen, toNat_fxDelta]
    omega
  · have hsize : savedSize (c.reg .rsp) = 112 + (fxDelta (c₁.reg .rsp)).toNat + 8 := by
      rw [savedSize, ← hsp₁]
      rfl
    have hdist : c.reg .rsp - c₁.reg .rsp = 112 := by
      rw [show c₁.reg .rsp = c.reg .rsp - SAVED_GPR_SIZE from hsp₁, sub_sub_cancel]
      rfl
    have hlen : savedGprs.length = 14 := rfl
    refine (hagree₁.take (by rw [hsize, hlen]; omega)).trans (hagree.sub ?_)
    rw [hdist, hsize, toNat_fxDelta]
    simp
    omega

/-- `RESTORE_MM` at the bottom of a saved state goes back to its registers. -/
theorem exec_restoreMm {c saved : Cpu} (hsp : c.reg .rsp = saveBottom (saved.reg .rsp))
    (h : SavedAll c.mem saved) :
    ∃ reg rflags, exec restoreMm c = some { c with reg, rflags, fx := saved.fx }
      ∧ reg .rsp = saved.reg .rsp - SAVED_GPR_SIZE
      ∧ reg .rax = c.reg .rax := by
  have hup : c.reg .rsp + 8 + fxDelta (saved.reg .rsp - SAVED_GPR_SIZE)
      = saved.reg .rsp - SAVED_GPR_SIZE := by
    rw [hsp, saveBottom]
    ring
  have hal : Aligned (c.reg .rsp + 8) := by
    rw [← add_sub_cancel_right (c.reg .rsp + 8) (fxDelta (saved.reg .rsp - SAVED_GPR_SIZE)), hup]
    exact aligned_fxArea _
  have htop : c.top = fxDelta (saved.reg .rsp - SAVED_GPR_SIZE) := by
    rw [Cpu.top, hsp, h.delta]
  let c₁ : Cpu := (c.set .rsp (c.reg .rsp + 8)).set .r10 c.top
  have hsp₁ : c₁.reg .rsp = c.reg .rsp + 8 := by simp [c₁]
  have hfx : read c₁.mem (c₁.reg .rsp) 512 = saved.fx := by
    rw [hsp₁, hsp]
    exact h.fx
  have hfxrstor : step (.fxrstor .rsp) c₁ = some { c₁ with fx := saved.fx } := by
    rw [step, if_pos (hsp₁ ▸ hal), hfx]
  have hr10 : c₁.reg .r10 = fxDelta (saved.reg .rsp - SAVED_GPR_SIZE) := by simp [c₁, htop]
  refine ⟨Function.update c₁.reg .rsp (c₁.reg .rsp + c₁.reg .r10),
    addFlags c₁.rflags (c₁.reg .rsp) (c₁.reg .r10), ?_, ?_, ?_⟩
  · rw [restoreMm, exec, step, Option.bind_some, exec, hfxrstor]
    rfl
  · rw [Function.update_self, hsp₁, hr10, hup]
  · simp [c₁]

/-- All the others but the stack pointer are popped in a row. -/
theorem mem_restoredGprs (r : Reg) (hrax : r ≠ .rax) (hrsp : r ≠ .rsp) : r ∈ restoredGprs := by
  cases r <;> first | contradiction | decide

/-- `RESTORE_ALL` at the bottom of a saved state loads all of it. `rax` is not part of
the saved state. -/
theorem exec_restoreAll {c saved : Cpu} (hsp : c.reg .rsp = saveBottom (saved.reg .rsp))
    (h : SavedAll c.mem saved) :
    ∃ reg rflags, exec restoreAll c = some { c with reg, rflags, fx := saved.fx }
      ∧ (∀ r, r ≠ .rax → reg r = saved.reg r)
      ∧ reg .rax = c.reg .rax := by
  obtain ⟨reg₁, rflags, hexec₁, hsp₁, hrax₁⟩ := exec_restoreMm hsp h
  let c₁ : Cpu := { c with reg := reg₁, rflags, fx := saved.fx }
  have hstack : Holds c₁.mem (c₁.reg .rsp) (restoredGprs.map saved.reg) := by
    show Holds c.mem (reg₁ .rsp) _
    rw [hsp₁]
    exact h.gprs
  obtain ⟨reg, hexec, hregsp, hregs, hothers⟩ :=
    @exec_pops restoredGprs (by decide) (by decide) _ c₁ (by rw [List.length_map]) hstack
  refine ⟨reg, rflags, ?_, ?_, ?_⟩
  · rw [restoreAll, restoreGpr, exec_append_some hexec₁]
    exact hexec
  · intro r hr
    by_cases hrsp : r = .rsp
    · rw [hrsp, hregsp]
      show reg₁ .rsp + _ = _
      rw [hsp₁]
      exact sub_add_cancel _ _
    · exact List.map_inj_left.mp hregs r (mem_restoredGprs r hr hrsp)
  · rw [hothers .rax (by decide) (by decide)]
    exact hrax₁

/-! ### A small kernel -/

/-- The labels at some addresses, and the kernel's two segments. -/
def topEnv : ContextEnv where
  archHwActivateTask := 0xffffffff80100000
  returnFromSleep := 0xffffffff80100060
  childForkPath := 0xffffffff80102000
  loadable := fun cs ss => cs == 8 && ss == 16
  labels := by decide

end MString
