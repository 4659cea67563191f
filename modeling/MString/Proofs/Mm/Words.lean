import MString.Mm.Pt
import Mathlib.Tactic.Ring

/-!
# `MString.Proofs.Mm.Words`: the address arithmetic of the walkers

What the masks, shifts and bit-fields of `pt.c` compute, as facts about
naturals: an index is a quotient and a remainder (`ptlIndex_val`), a masked
address is the start of its block (`toNat_and_blockMask` and its instances), and
a frame number stored in the two base fields reads back (`base_setBase`).

`TableAddr` are the addresses a table can stand at. Below 2 GB the entry's
`table` is `pframe_to_virt` of the stored frame (`table_setBase`), and no two
slots of tables share an address (`addr_inj`).
-/

set_option autoImplicit false

namespace MString

/-! ### Blocks and indices -/

/-- Clearing the low `k` bits goes to the start of the `2 ^ k` block. -/
theorem toNat_and_blockMask (x : Uintptr) (k : Nat) :
    (x &&& ~~~(BitVec.ofNat 64 (2 ^ k - 1))).toNat = x.toNat / 2 ^ k * 2 ^ k := by
  apply Nat.eq_of_testBit_eq
  intro i
  rw [← Nat.shiftLeft_eq, ← Nat.shiftRight_eq_div_pow, Nat.testBit_shiftLeft,
    Nat.testBit_shiftRight, BitVec.testBit_toNat, BitVec.getLsbD_and, BitVec.getLsbD_not,
    BitVec.getLsbD_ofNat, Nat.testBit_two_pow_sub_one, BitVec.testBit_toNat]
  by_cases hik : k ≤ i
  · have hx : 64 ≤ i → x.getLsbD i = false := BitVec.getLsbD_of_ge x i
    by_cases h64 : i < 64
    · simp [hik, h64, show ¬ i < k by omega]
    · simp [hx (by omega), show k + (i - k) = i by omega]
  · simp [hik, show i < k by omega]

/-- The page mask rounds down to a page. -/
theorem toNat_and_pageMask (x : Uintptr) :
    (x &&& PAGE_ADDR_MASK).toNat = x.toNat / 2 ^ 12 * 2 ^ 12 := by
  rw [show PAGE_ADDR_MASK = ~~~(BitVec.ofNat 64 (2 ^ 12 - 1)) by decide, toNat_and_blockMask]

/-- The mask of a page directory entry rounds down to 2 MB. -/
theorem toNat_and_L2mask (x : Uintptr) :
    (x &&& L2_ADDR_MASK).toNat = x.toNat / 2 ^ 21 * 2 ^ 21 := by
  rw [show L2_ADDR_MASK = ~~~(BitVec.ofNat 64 (2 ^ 21 - 1)) by decide, toNat_and_blockMask]

/-- The next mask rounds down to 1 GB. -/
theorem toNat_and_L3mask (x : Uintptr) :
    (x &&& L3_ADDR_MASK).toNat = x.toNat / 2 ^ 30 * 2 ^ 30 := by
  rw [show L3_ADDR_MASK = ~~~(BitVec.ofNat 64 (2 ^ 30 - 1)) by decide, toNat_and_blockMask]

/-- The last one rounds down to 512 GB. -/
theorem toNat_and_L4mask (x : Uintptr) :
    (x &&& L4_ADDR_MASK).toNat = x.toNat / 2 ^ 39 * 2 ^ 39 := by
  rw [show L4_ADDR_MASK = ~~~(BitVec.ofNat 64 (2 ^ 39 - 1)) by decide, toNat_and_blockMask]

/-- A table index is nine bits of the page number. -/
theorem ptlIndex_val (shift : Nat) (v : Uintptr) :
    (ptlIndex shift v).val = v.toNat / 2 ^ shift % 512 := by
  show ((v >>> shift) &&& 0x1ff).toNat = _
  rw [BitVec.toNat_and, BitVec.toNat_ushiftRight, Nat.shiftRight_eq_div_pow]
  exact Nat.and_two_pow_sub_one_eq_mod _ 9

/-- Two addresses in one block have the same index. -/
theorem ptlIndex_eq {shift : Nat} {v w : Uintptr}
    (h : v.toNat / 2 ^ shift = w.toNat / 2 ^ shift) : ptlIndex shift v = ptlIndex shift w := by
  apply Fin.ext
  rw [ptlIndex_val, ptlIndex_val, h]

/-! ### Frame numbers in entries -/

/-- The two base fields hold all 32 bits of a frame number. -/
theorem base_setBase (e : TlbEntry) (pf : PageIdx) : (e.setBase (pf.setWidth 64)).base = pf := by
  apply BitVec.eq_of_getLsbD_eq
  intro i hi
  have hmask : ∀ j, (1048575#64).getLsbD j = decide (j < 20) := fun j => by
    rw [show (1048575#64) = BitVec.ofNat 64 (2 ^ 20 - 1) by decide, BitVec.getLsbD_ofNat,
      Nat.testBit_two_pow_sub_one]
    by_cases hj : j < 20
    · simp [hj, show j < 64 by omega]
    · simp [hj]
  simp only [TlbEntry.setBase, TlbEntry.base, BitVec.getLsbD_or, BitVec.getLsbD_setWidth,
    BitVec.getLsbD_and, BitVec.getLsbD_shiftLeft, BitVec.getLsbD_ushiftRight]
  by_cases h20 : i < 20
  · simp [hi, h20, hmask, show i < 64 by omega]
  · simp [hi, h20, hmask, show i - 20 < 20 by omega, show 20 + (i - 20) = i by omega,
      show i - 20 < 32 by omega, show i < 64 by omega]

/-- The frames a table can live in: those below 2 GB. -/
def LowFrame (pf : PageIdx) : Prop := pf.toNat < 2 ^ 19

instance (pf : PageIdx) : Decidable (LowFrame pf) := inferInstanceAs (Decidable (_ < _))

/-- `pframe_to_virt` of a low frame, as a number. -/
theorem toNat_pframeToVirt {pf : PageIdx} (h : LowFrame pf) :
    (pframeToVirt pf).toNat = KERNEL_BASE.toNat + 4096 * pf.toNat := by
  unfold LowFrame at h
  have hb : KERNEL_BASE.toNat = 0xffffffff80000000 := by decide
  simp only [pframeToVirt, BitVec.toNat_add, BitVec.toNat_setWidth, BitVec.toNat_mul,
    BitVec.toNat_ofNat, hb]
  omega

/-- Different frames below 2 GB have different addresses in the kernel's window. -/
theorem pframeToVirt_inj {pf pf' : PageIdx} (h : LowFrame pf) (h' : LowFrame pf')
    (heq : pframeToVirt pf = pframeToVirt pf') : pf = pf' := by
  have := congrArg BitVec.toNat heq
  rw [toNat_pframeToVirt h, toNat_pframeToVirt h'] at this
  exact BitVec.eq_of_toNat_eq (by omega)

/-- The walkers find the table of a low frame where `alloc_page` cleaned it. -/
theorem table_of_base {e : TlbEntry} (h : LowFrame e.base) : e.table = pframeToVirt e.base := by
  have hlow : e.base.toNat < 2 ^ 19 := h
  have hshift : (e.base <<< 12).toNat = 4096 * e.base.toNat := by
    rw [BitVec.toNat_shiftLeft, Nat.shiftLeft_eq]
    omega
  have hmsb : (e.base <<< 12).msb = false := by
    rw [BitVec.msb_eq_false_iff_two_mul_lt, hshift]
    omega
  apply BitVec.eq_of_toNat_eq
  rw [toNat_pframeToVirt h]
  have hb : KERNEL_BASE.toNat = 0xffffffff80000000 := by decide
  rw [TlbEntry.table, p2kCode, BitVec.toNat_add,
    BitVec.signExtend_eq_setWidth_of_msb_false hmsb, BitVec.toNat_setWidth, hshift, hb]
  omega

/-- An entry with a low frame as its base leads back to the frame's address. -/
theorem table_setBase (e : TlbEntry) {pf : PageIdx} (h : LowFrame pf) :
    (e.setBase (pf.setWidth 64)).table = pframeToVirt pf := by
  have hb := base_setBase e pf
  rw [table_of_base (by rw [hb]; exact h), hb]

/-! ### Where tables stand -/

/-- The address of a table: the start of a page in the kernel window. -/
structure TableAddr (t : Uintptr) : Prop where
  window : KERNEL_BASE.toNat ≤ t.toNat
  aligned : t.toNat % 4096 = 0

/-- The address of a low frame is one for a table. -/
theorem tableAddr_pframeToVirt {pf : PageIdx} (h : LowFrame pf) : TableAddr (pframeToVirt pf) := by
  have hb : KERNEL_BASE.toNat = 0xffffffff80000000 := by decide
  refine ⟨?_, ?_⟩ <;> rw [toNat_pframeToVirt h] <;> omega

/-- The address of a slot does not wrap. -/
theorem TableAddr.toNat_addr {t : Uintptr} (h : TableAddr t) (i : Fin 512) :
    (EntryPtr.mk t i).addr.toNat = t.toNat + 8 * i.val := by
  have hw := h.window
  have ha := h.aligned
  have hlt := t.isLt
  have hi := i.isLt
  simp only [EntryPtr.addr, BitVec.toNat_add, BitVec.toNat_ofNat]
  omega

/-- Slots of tables do not overlap. -/
theorem addr_inj {t t' : Uintptr} {i i' : Fin 512} (h : TableAddr t) (h' : TableAddr t')
    (heq : (EntryPtr.mk t i).addr = (EntryPtr.mk t' i').addr) : t = t' ∧ i = i' := by
  have hn := congrArg BitVec.toNat heq
  rw [h.toNat_addr, h'.toNat_addr] at hn
  have ha := h.aligned
  have ha' := h'.aligned
  have hi := i.isLt
  have hi' := i'.isLt
  exact ⟨BitVec.eq_of_toNat_eq (by omega), Fin.ext (by omega)⟩

/-- A slot lies in a frame's page exactly when its table is that page. -/
theorem addr_sub_lt_page {t : Uintptr} {pf : PageIdx} (h : TableAddr t) (hpf : LowFrame pf)
    (i : Fin 512) :
    (EntryPtr.mk t i).addr - pframeToVirt pf < PAGE_SIZE ↔ t = pframeToVirt pf := by
  have hp := tableAddr_pframeToVirt hpf
  have hn := h.toNat_addr i
  have hi := i.isLt
  have ha := h.aligned
  have ha' := hp.aligned
  have hlt := t.isLt
  have hlt' := (pframeToVirt pf).isLt
  rw [BitVec.lt_def, BitVec.toNat_sub, hn, show PAGE_SIZE.toNat = 4096 from rfl]
  constructor
  · intro hsub
    exact BitVec.eq_of_toNat_eq (by omega)
  · rintro rfl
    omega

/-- The window answers every slot of a table. -/
theorem kernelWindow_slot {t : Uintptr} (h : TableAddr t) (i : Fin 512) :
    kernelWindow ⟨t, i⟩ = true := by
  have hw := h.window
  simp only [kernelWindow, decide_eq_true_eq, BitVec.le_def]
  rw [h.toNat_addr]
  omega

end MString
