import Mathlib.Data.List.Induction
import Mathlib.Data.Set.Insert
import MString.Eza.I8259

/-!
# `MString.Proofs.Eza.I8259`: the masks and the lines

`PicOp.lines` is what an operation of the driver is for, on the set of disabled lines, and
`Describes` relates the two mask registers to such a set.

The driver shifts a bit by the number of the line for both controllers. A bit from 8 on
does not get into the eight bits of a mask, so no line of the slave is ever enabled or
disabled on its own.

* `describes_step`: an operation goes along with the set if it is one on the master, or
  changes nothing.
* `masks_describe_iff`: so do the masks in all states of a sequence.
-/

set_option autoImplicit false

namespace MString

/-- The operations of the driver. -/
inductive PicOp where
  | enableIrq (irq : BitVec 32)
  | disableIrq (irq : BitVec 32)
  | enableAll
  | disableAll
  | ackIrq (irq : BitVec 32)

namespace PicOp

/-- What the operation does at the ports. -/
def run : PicOp → Ports → Ports
  | enableIrq irq => i8259aEnableIrq irq
  | disableIrq irq => i8259aDisableIrq irq
  | enableAll => i8259aEnableAll
  | disableAll => i8259aDisableAll
  | ackIrq irq => i8259aAckIrq irq

/-- The disabled lines after the operation. -/
def lines : PicOp → Set (BitVec 32) → Set (BitVec 32)
  | enableIrq irq, S => S \ {irq}
  | disableIrq irq, S => insert irq S
  | enableAll, _ => ∅
  | disableAll, _ => Set.univ
  | ackIrq _, S => S

/-- The line is one of the driver's. -/
def Handled : PicOp → Prop
  | enableIrq irq | disableIrq irq | ackIrq irq => i8259aHandlesIrq irq = true
  | enableAll | disableAll => True

/-- The line is one of the master's, or is as it should be already. -/
def Takes (S : Set (BitVec 32)) : PicOp → Prop
  | enableIrq irq => irq < 8 ∨ irq ∉ S
  | disableIrq irq => irq < 8 ∨ irq ∈ S
  | enableAll | disableAll | ackIrq _ => True

end PicOp

/-- The bit of a line in the masks. -/
def lineMasked (s : Ports) (irq : BitVec 32) : Bool :=
  if irq < 8 then (inb (I8259PIC0_BASE + 1) s).getLsbD irq.toNat
  else (inb (I8259PIC1_BASE + 1) s).getLsbD (irq.toNat - 8)

/-- The set bits of the masks are those of the disabled lines. -/
def Describes (s : Ports) (S : Set (BitVec 32)) : Prop :=
  ∀ irq, i8259aHandlesIrq irq = true → (lineMasked s irq = true ↔ irq ∈ S)

/-- The ports after a sequence of operations. -/
def picAfter (s : Ports) (ops : List PicOp) : Ports :=
  ops.foldl (fun s op => op.run s) (initializePic s)

/-- The lines last disabled in a sequence of operations. -/
def disabledAfter (ops : List PicOp) : Set (BitVec 32) :=
  ops.foldl (fun S op => op.lines S) Set.univ

section Masks

variable {s : Ports} {mask : BitVec 8} {irq line : BitVec 32} {j : Nat} {S : Set (BitVec 32)}
  {op : PicOp} {ops : List PicOp}

/-- The bit that a line number is shifted to. Cut to eight bits, it is gone for the lines of the
slave. -/
theorem getLsbD_shifted (hj : j < 8) : (1#32 <<< irq).getLsbD j = decide (j = irq.toNat) := by
  rw [BitVec.shiftLeft_eq', ← BitVec.twoPow_eq, BitVec.getLsbD_twoPow]
  by_cases heq : j = irq.toNat
  · have h32 : irq.toNat < 32 := by omega
    simp [heq, h32]
  · have hne : ¬ irq.toNat = j := fun h => heq h.symm
    simp [heq, hne]

/-- Enabling a line clears its bit in a mask, ... -/
theorem getLsbD_clearMask (hj : j < 8) :
    (clearMask mask irq).getLsbD j = (mask.getLsbD j && !decide (j = irq.toNat)) := by
  have hj32 : j < 32 := by omega
  rw [clearMask, BitVec.getLsbD_setWidth, BitVec.getLsbD_and, BitVec.getLsbD_setWidth,
    BitVec.getLsbD_not, getLsbD_shifted hj]
  simp [hj, hj32]

/-- ... and disabling one sets it. -/
theorem getLsbD_setMask (hj : j < 8) :
    (setMask mask irq).getLsbD j = (mask.getLsbD j || decide (j = irq.toNat)) := by
  have hj32 : j < 32 := by omega
  rw [setMask, BitVec.getLsbD_setWidth, BitVec.getLsbD_or, BitVec.getLsbD_setWidth,
    getLsbD_shifted hj]
  simp [hj, hj32]

/-- A port reads back what was written to it, ... -/
@[simp] theorem inb_outb_self (port : Port) (val : BitVec 8) :
    inb port (outb port val s) = val := by
  rw [inb, outb, Function.update_self]

/-- ... and what was there before a write to another one. -/
theorem inb_outb_ne {port port' : Port} (h : port ≠ port') (val : BitVec 8) :
    inb port (outb port' val s) = inb port s := by
  rw [inb, outb, Function.update_of_ne h, inb]

/-- The two chips have different mask ports. -/
theorem data_ne : I8259PIC0_BASE + 1 ≠ I8259PIC1_BASE + 1 := by decide

/-- The two chips have sixteen lines. -/
theorem handlesIrq_iff : i8259aHandlesIrq line = true ↔ line.toNat < 16 := by
  rw [i8259aHandlesIrq, decide_eq_true_iff, BitVec.lt_def]
  rfl

/-- The first eight are the master's. -/
theorem lt_eight_iff : line < 8 ↔ line.toNat < 8 := BitVec.lt_def

/-- One operation on the mask of one of the controllers. -/
theorem lineMasked_write {f : BitVec 8 → BitVec 32 → BitVec 8} {g : Bool → Bool → Bool}
    (hf : ∀ mask j, j < 8 → (f mask irq).getLsbD j = g (mask.getLsbD j) (decide (j = irq.toNat)))
    (hg : ∀ b, g b false = b) (hline : i8259aHandlesIrq line = true) :
    lineMasked (if irq < 0x08 then outb (I8259PIC0_BASE + 1) (f (inb (I8259PIC0_BASE + 1) s) irq) s
      else outb (I8259PIC1_BASE + 1) (f (inb (I8259PIC1_BASE + 1) s) irq) s) line
        = g (lineMasked s line) (decide (irq < 8 ∧ line = irq)) := by
  rw [handlesIrq_iff] at hline
  unfold lineMasked
  by_cases hirq : irq < 8
  · rw [if_pos hirq]
    by_cases hlow : line < 8
    · have hj := lt_eight_iff.mp hlow
      rw [if_pos hlow, if_pos hlow, inb_outb_self, hf _ _ hj]
      simp only [hirq, true_and, BitVec.toNat_inj]
    · have hne : line ≠ irq := fun h => hlow (h ▸ hirq)
      rw [if_neg hlow, if_neg hlow, inb_outb_ne data_ne.symm, decide_eq_false (fun h => hne h.2),
        hg]
  · rw [if_neg hirq, decide_eq_false (fun h => hirq h.1), hg]
    by_cases hlow : line < 8
    · rw [if_pos hlow, if_pos hlow, inb_outb_ne data_ne]
    · -- The bit of a line of the slave is shifted out of the mask.
      have hout : ¬ line.toNat - 8 = irq.toNat := by
        rw [lt_eight_iff] at hirq
        omega
      rw [if_neg hlow, if_neg hlow, inb_outb_self, hf _ _ (by omega), decide_eq_false hout, hg]

/-- Enabling clears the mask bit of a line of the master, and does nothing for one of the slave.
-/
theorem lineMasked_enableIrq (hline : i8259aHandlesIrq line = true) :
    lineMasked (i8259aEnableIrq irq s) line
      = (lineMasked s line && !decide (irq < 8 ∧ line = irq)) :=
  lineMasked_write (f := clearMask) (g := fun b c => b && !c) (fun _ _ hj => getLsbD_clearMask hj)
    (by simp) hline

/-- So does disabling, which sets it. -/
theorem lineMasked_disableIrq (hline : i8259aHandlesIrq line = true) :
    lineMasked (i8259aDisableIrq irq s) line
      = (lineMasked s line || decide (irq < 8 ∧ line = irq)) :=
  lineMasked_write (f := setMask) (g := fun b c => b || c) (fun _ _ hj => getLsbD_setMask hj)
    (by simp) hline

/-- The same word for both controllers. -/
theorem lineMasked_all (val : BitVec 8) :
    lineMasked (outb (I8259PIC1_BASE + 1) val (outb (I8259PIC0_BASE + 1) val s)) line
      = val.getLsbD (if line < 8 then line.toNat else line.toNat - 8) := by
  unfold lineMasked
  split
  · rw [inb_outb_ne data_ne, inb_outb_self]
  · rw [inb_outb_self]

/-- Acknowledging a line leaves the masks alone. -/
theorem lineMasked_ackIrq : lineMasked (i8259aAckIrq irq s) line = lineMasked s line := by
  have h00 : I8259PIC0_BASE + 1 ≠ I8259PIC0_BASE := by decide
  have h01 : I8259PIC0_BASE + 1 ≠ I8259PIC1_BASE := by decide
  have h10 : I8259PIC1_BASE + 1 ≠ I8259PIC0_BASE := by decide
  have h11 : I8259PIC1_BASE + 1 ≠ I8259PIC1_BASE := by decide
  unfold lineMasked i8259aAckIrq
  dsimp only
  rw [inb_outb_ne h00, inb_outb_ne h10]
  by_cases hslave : irq ≥ 8
  · rw [if_pos hslave, inb_outb_ne h01, inb_outb_ne h11]
  · rw [if_neg hslave]

/-- After `disable_all` all lines are masked. -/
theorem describes_disableAll : Describes (i8259aDisableAll s) Set.univ := by
  intro line hline
  rw [handlesIrq_iff] at hline
  have hones : ∀ j, j < 8 → (0xff : BitVec 8).getLsbD j = true := by decide
  rw [i8259aDisableAll, lineMasked_all]
  refine iff_of_true (hones _ ?_) (Set.mem_univ line)
  split
  case isTrue hlow => exact lt_eight_iff.mp hlow
  case isFalse => omega

/-- The step lemma. -/
theorem describes_step (hop : op.Handled) (hs : Describes s S) :
    Describes (op.run s) (op.lines S) ↔ op.Takes S := by
  -- No call changes the lines of the second controller: one of 8 or more is right only when it
  -- already stood so.
  cases op with
  | enableIrq irq =>
      constructor
      · intro h
        by_contra hnot
        obtain ⟨hhigh, hmem⟩ := not_or.mp hnot
        have hset := h irq hop
        rw [PicOp.run, lineMasked_enableIrq hop, (hs irq hop).mpr (not_not.mp hmem)] at hset
        simp only [PicOp.lines, Set.mem_sdiff, Set.mem_singleton_iff, not_true, and_false,
          iff_false, and_true, decide_eq_false hhigh] at hset
        exact hset rfl
      · intro h line hline
        rw [PicOp.run, lineMasked_enableIrq hline, PicOp.lines, Set.mem_sdiff,
          Set.mem_singleton_iff, Bool.and_eq_true, Bool.not_eq_true', decide_eq_false_iff_not,
          hs line hline]
        refine and_congr_right fun hmem => not_congr ⟨And.right, fun heq => ⟨?_, heq⟩⟩
        exact h.resolve_right fun hirq => hirq (heq ▸ hmem)
  | disableIrq irq =>
      constructor
      · intro h
        by_contra hnot
        obtain ⟨hhigh, hmem⟩ := not_or.mp hnot
        have hclear : lineMasked s irq = false := by
          rw [Bool.eq_false_iff]
          exact fun hset => hmem ((hs irq hop).mp hset)
        have hset := h irq hop
        rw [PicOp.run, lineMasked_disableIrq hop, hclear] at hset
        simp only [PicOp.lines, Set.mem_insert_iff, true_or, iff_true, and_true,
          decide_eq_false hhigh] at hset
        exact absurd hset (by decide)
      · intro h line hline
        rw [PicOp.run, lineMasked_disableIrq hline, PicOp.lines, Set.mem_insert_iff,
          Bool.or_eq_true, decide_eq_true_iff, hs line hline]
        constructor
        · exact fun hcase => hcase.elim .inr fun heq => .inl heq.2
        · rintro (rfl | hmem)
          · exact h.elim (fun hlow => .inr ⟨hlow, rfl⟩) .inl
          · exact .inl hmem
  | enableAll =>
      refine iff_of_true (fun line hline => ?_) trivial
      rw [PicOp.run, i8259aEnableAll, lineMasked_all]
      simp [PicOp.lines]
  | disableAll => exact iff_of_true describes_disableAll trivial
  | ackIrq irq =>
      refine iff_of_true (fun line hline => ?_) trivial
      rw [PicOp.run, lineMasked_ackIrq]
      exact hs line hline

/-- The ports after one more operation ... -/
theorem picAfter_concat : picAfter s (ops ++ [op]) = op.run (picAfter s ops) := by
  simp [picAfter]

/-- ... and the lines that should be disabled. -/
theorem disabledAfter_concat : disabledAfter (ops ++ [op]) = op.lines (disabledAfter ops) := by
  simp [disabledAfter]

/-- After every operation of a sequence the masks describe the lines last disabled, exactly
when every line of the slave that is enabled or disabled on its own is so already. -/
theorem masks_describe_iff (hops : ∀ op ∈ ops, op.Handled) :
    (∀ done, done <+: ops → Describes (picAfter s done) (disabledAfter done)) ↔
      ∀ done op rest, ops = done ++ op :: rest → op.Takes (disabledAfter done) := by
  constructor
  · rintro h done op rest rfl
    have hbefore := h done (List.prefix_append _ _)
    have hafter := h (done ++ [op]) (by simp)
    rw [picAfter_concat, disabledAfter_concat] at hafter
    exact (describes_step (hops op (by simp)) hbefore).mp hafter
  · intro h done
    induction done using List.reverseRecOn with
    | nil => exact fun _ => describes_disableAll
    | append_singleton done op ih =>
        rintro ⟨rest, rfl⟩
        have hbefore := ih ⟨op :: rest, by simp⟩
        rw [picAfter_concat, disabledAfter_concat]
        exact (describes_step (hops op (by simp)) hbefore).mpr (h done op rest (by simp))

end Masks

/-- The timer's line is enabled. -/
theorem masks_describe_timer : Describes (picAfter (fun _ => 0) [.enableIrq 0])
    (disabledAfter [.enableIrq 0]) := by
  refine (masks_describe_iff (fun op hop => ?_)).mpr (fun done op rest h => ?_) _
    (List.prefix_refl _)
  · obtain rfl := List.mem_singleton.mp hop
    show i8259aHandlesIrq 0 = true
    decide
  · cases done with
    | nil =>
        obtain ⟨rfl, -⟩ := List.cons.inj h
        exact .inl (by decide)
    | cons op' done => simp at h

/-- The first line of the slave is not. -/
theorem not_describes_slave : ¬ Describes (picAfter (fun _ => 0) [.enableIrq 8])
    (disabledAfter [.enableIrq 8]) := by
  intro h
  have hmasked : lineMasked (picAfter (fun _ => 0) [.enableIrq 8]) 8 = true := by decide
  have hmem := (h 8 (by decide)).mp hmasked
  simp [disabledAfter, PicOp.lines] at hmem

end MString
