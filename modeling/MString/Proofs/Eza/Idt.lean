import MString.Eza.Idt
import MString.Proofs.Eza.Stubs

/-!
# `MString.Proofs.Eza.Idt`: what the processor finds in the interrupt descriptor table

The table is filled by calls of `install_trap_gate` and `install_interrupt_gate`, and read
by the processor, 16 bytes for each vector. `Installed` is the table as a map from vectors
to the last call that was accepted for them, and `Represents` says that the bytes are those.

* `gateRun_represents`: every run of calls keeps the map.
* `gates_of_run`: so the processor decodes the gate of the last accepted call.
* `boot_dispatches`: after the boot's calls, every interrupt line leads to its own stub, which
  passes the line's number to `do_irq` and brings the interrupted state back, and every
  exception leads to its own function in C.
-/

set_option autoImplicit false

namespace MString

open Amd64 ByteMemory BitFields

/-! ### A descriptor in memory -/

namespace IDescriptor

variable (p : IDescriptor)

/-- The fields of a descriptor, as they stand in its sixteen bytes: the low part of the
handler's address, ... -/
theorem field_offset0_15 : field 0 16 p.word = p.offset0_15.toNat :=
  (field_pack [] _ _ _).trans (Nat.mod_eq_of_lt p.offset0_15.isLt)

/-- ... the code segment, ... -/
theorem field_selector : field 16 16 p.word = p.selector.toNat :=
  (field_pack (p.fields.take 1) _ _ _).trans (Nat.mod_eq_of_lt p.selector.isLt)

/-- ... the stack of the interrupt stack table, ... -/
theorem field_ist : field 32 3 p.word = p.ist.toNat :=
  (field_pack (p.fields.take 2) _ _ _).trans (Nat.mod_eq_of_lt p.ist.isLt)

/-- ... the type, ... -/
theorem field_type : field 40 5 p.word = p.type.toNat :=
  (field_pack (p.fields.take 4) _ _ _).trans (Nat.mod_eq_of_lt p.type.isLt)

/-- ... the privilege level ... -/
theorem field_dpl : field 45 2 p.word = p.dpl.toNat :=
  (field_pack (p.fields.take 5) _ _ _).trans (Nat.mod_eq_of_lt p.dpl.isLt)

/-- ... and the present bit, ... -/
theorem field_present : field 47 1 p.word = p.present.toNat :=
  (field_pack (p.fields.take 6) _ _ _).trans (Nat.mod_eq_of_lt p.present.isLt)

/-- ... the middle part of the address ... -/
theorem field_offset16_31 : field 48 16 p.word = p.offset16_31.toNat :=
  (field_pack (p.fields.take 7) _ _ _).trans (Nat.mod_eq_of_lt p.offset16_31.isLt)

/-- ... and the high one. -/
theorem field_offset32_63 : field 64 32 p.word = p.offset32_63.toNat :=
  (field_pack (p.fields.take 8) _ _ _).trans (Nat.mod_eq_of_lt p.offset32_63.isLt)

end IDescriptor

/-- The three parts of an address are the address. -/
theorem gateOffset_setOffset (p q : IDescriptor) (off : Uintptr)
    (h0 : q.offset0_15 = (idtSetOffset p off).offset0_15)
    (h16 : q.offset16_31 = (idtSetOffset p off).offset16_31)
    (h32 : q.offset32_63 = (idtSetOffset p off).offset32_63) :
    BitVec.ofNat 64 (gateOffset q.word) = off := by
  have hoff := off.isLt
  have hmask : ∀ x : Uintptr, ((x &&& 0xffff).setWidth 16).toNat = x.toNat % 65536 := by
    intro x
    rw [BitVec.toNat_setWidth, BitVec.toNat_and, show (0xffff : Uintptr).toNat = 2 ^ 16 - 1 from rfl,
      Nat.and_two_pow_sub_one_eq_mod]
    omega
  rw [← BitVec.toNat_inj, gateOffset, q.field_offset0_15, q.field_offset16_31,
    q.field_offset32_63, h0, h16, h32]
  simp only [idtSetOffset, hmask, BitVec.toNat_setWidth, BitVec.toNat_ushiftRight,
    BitVec.toNat_ofNat, Nat.shiftRight_eq_div_pow]
  omega

/-! ### The table as a map -/

namespace GateOp

/-- The vector that a call installs a gate for. -/
def slot : GateOp → Nat
  | .trap slot _ _ _ => slot.toNat
  | .interrupt slot _ _ _ => slot.toNat

/-- A trap gate needs a handler, and any gate a slot of the table. -/
def Accepted : GateOp → Prop
  | .trap slot handler _ _ => slot.toNat < IDT_ITEMS ∧ handler ≠ 0
  | .interrupt slot _ _ _ => slot.toNat < IDT_ITEMS

instance (op : GateOp) : Decidable op.Accepted := by
  cases op <;> unfold Accepted <;> infer_instance

/-- The gate that a call asks for: `dpl` and `ist` are cut to their fields. -/
def gate : GateOp → GateEntry
  | .trap _ handler dpl ist => ⟨⟨8, handler, false⟩, dpl.toNat % 4, ist.toNat % 8⟩
  | .interrupt _ handler dpl ist => ⟨⟨8, handler, true⟩, dpl.toNat % 4, ist.toNat % 8⟩

/-- The descriptor that a call leaves. -/
def descriptor : GateOp → IDescriptor
  | .trap slot handler dpl ist =>
      { idtSetOffset (idtStart slot.toNat) handler with
        selector := 8, type := AR_TRAP, present := 1, dpl := dpl.setWidth 2, ist := ist.setWidth 3 }
  | .interrupt slot handler dpl ist =>
      { idtSetOffset (idtStart slot.toNat) handler with
        selector := 8, type := AR_INTR, present := 1, dpl := dpl.setWidth 2, ist := ist.setWidth 3 }

end GateOp

/-- For each vector, the last call that was accepted. -/
abbrev Installed := Nat → Option GateOp

/-- One more call. -/
def Installed.record (ins : Installed) (op : GateOp) : Installed :=
  if op.Accepted then Function.update ins op.slot (some op) else ins

/-- The bytes of the table are those of the calls. -/
def Represents (idt : Idt) (ins : Installed) : Prop :=
  ∀ v, idt v = match ins v with
    | none => idtStart v
    | some op => op.descriptor

/-- Only accepted calls are recorded, for their own vectors. -/
def Installed.Sound (ins : Installed) : Prop := ∀ v op, ins v = some op → op.Accepted ∧ op.slot = v

/-- Recording one more gate keeps the record sound. -/
theorem Installed.Sound.record {ins : Installed} (h : ins.Sound) (op : GateOp) :
    (ins.record op).Sound := by
  intro v op' hv
  unfold Installed.record at hv
  split at hv
  · case isTrue hacc =>
      by_cases hslot : v = op.slot
      · subst hslot
        rw [Function.update_self] at hv
        cases hv
        exact ⟨hacc, rfl⟩
      · rw [Function.update_of_ne hslot] at hv
        exact h v op' hv
  · exact h v op' hv

/-- A call of `install_interrupt_gate` does not clear the field `unused`, but nothing sets it. -/
theorem Represents.unused {idt : Idt} {ins : Installed} (h : Represents idt ins) (v : Nat) :
    (idt v).unused = 0 := by
  rw [h v]
  cases ins v with
  | none => rfl
  | some op => cases op <;> rfl

/-- One call, over the map. -/
theorem gateStep_represents {idt : Idt} {ins : Installed} (h : Represents idt ins) (op : GateOp) :
    (gateStep op idt).1 = (if op.Accepted then 0 else -EINVAL) ∧
      Represents (gateStep op idt).2 (ins.record op) := by
  have hkeep : ∀ d : IDescriptor, op.Accepted → d = op.descriptor →
      Represents (Function.update idt op.slot d) (ins.record op) := by
    intro d hacc hd v
    rw [Installed.record, if_pos hacc]
    by_cases hv : v = op.slot
    · subst hv
      rw [Function.update_self, Function.update_self]
      exact hd
    · rw [Function.update_of_ne hv, Function.update_of_ne hv]
      exact h v
  cases op with
  | trap slot handler dpl ist =>
      by_cases hacc : slot.toNat < IDT_ITEMS ∧ handler ≠ 0
      · have hacc' : (GateOp.trap slot handler dpl ist).Accepted := hacc
        rw [if_pos hacc', gateStep, installTrapGate, if_pos hacc]
        exact ⟨rfl, hkeep _ hacc' rfl⟩
      · have hacc' : ¬ (GateOp.trap slot handler dpl ist).Accepted := hacc
        rw [if_neg hacc', gateStep, installTrapGate, if_neg hacc, Installed.record, if_neg hacc']
        exact ⟨rfl, h⟩
  | interrupt slot handler dpl ist =>
      by_cases hacc : slot.toNat < IDT_ITEMS
      · have hacc' : (GateOp.interrupt slot handler dpl ist).Accepted := hacc
        rw [if_pos hacc', gateStep, installInterruptGate, if_pos hacc]
        refine ⟨rfl, hkeep _ hacc' ?_⟩
        -- The field that the call leaves is zero.
        show IDescriptor.mk _ _ _ (idt slot.toNat).unused _ _ _ _ _ = _
        rw [h.unused slot.toNat]
        rfl
      · have hacc' : ¬ (GateOp.interrupt slot handler dpl ist).Accepted := hacc
        rw [if_neg hacc', gateStep, installInterruptGate, if_neg hacc, Installed.record,
          if_neg hacc']
        exact ⟨rfl, h⟩

/-- A run of calls. -/
theorem gateRun_represents (ops : List GateOp) :
    ∀ {idt : Idt} {ins : Installed}, Represents idt ins →
      (gateRun ops idt).1 = ops.map (fun op => if op.Accepted then 0 else -EINVAL) ∧
        Represents (gateRun ops idt).2 (ops.foldl Installed.record ins) := by
  induction ops with
  | nil => exact fun h => ⟨rfl, h⟩
  | cons op ops ih =>
      intro idt ins h
      obtain ⟨hcode, hstep⟩ := gateStep_represents h op
      obtain ⟨hcodes, hrun⟩ := ih hstep
      refine ⟨?_, hrun⟩
      rw [List.map_cons, ← hcode, ← hcodes]
      rfl

/-- The gate that the processor decodes. -/
theorem decodeGate_descriptor {op : GateOp} (hacc : op.Accepted) :
    decodeGate op.descriptor.word = some op.gate := by
  have hdecode : ∀ (q : IDescriptor) (t : BitVec 5) (off : Uintptr) (dpl ist : BitVec 32),
      q.selector = 8 → q.present = 1 → q.type = t → (t = AR_INTR ∨ t = AR_TRAP) →
      BitVec.ofNat 64 (gateOffset q.word) = off → q.dpl = dpl.setWidth 2 →
      q.ist = ist.setWidth 3 →
      decodeGate q.word
        = some ⟨⟨8, off, t == AR_INTR⟩, dpl.toNat % 4, ist.toNat % 8⟩ := by
    intro q t off dpl ist hsel hpres htype ht hoff hdpl hist
    unfold decodeGate
    rw [q.field_present, q.field_type, q.field_selector, q.field_dpl, q.field_ist, hsel, hpres,
      htype, hoff, hdpl, hist, BitVec.toNat_setWidth, BitVec.toNat_setWidth]
    rcases ht with rfl | rfl <;> rfl
  cases op with
  | trap slot handler dpl ist =>
      exact hdecode _ AR_TRAP handler dpl ist rfl rfl rfl (.inr rfl)
        (gateOffset_setOffset (idtStart slot.toNat) _ handler rfl rfl rfl) rfl rfl
  | interrupt slot handler dpl ist =>
      exact hdecode _ AR_INTR handler dpl ist rfl rfl rfl (.inl rfl)
        (gateOffset_setOffset (idtStart slot.toNat) _ handler rfl rfl rfl) rfl rfl

/-- So the table has the gates of the map. -/
theorem Represents.gate {idt : Idt} {ins : Installed} (h : Represents idt ins) (hs : ins.Sound)
    (v : Nat) : (gateTable idt).gate v = (ins v).map GateOp.gate := by
  have hentry : decodeGate (idt v).word = (ins v).map GateOp.gate := by
    rw [h v]
    cases hv : ins v with
    | none =>
        show decodeGate (IDescriptor.word ⟨0, 0, 0, 0, 0, 0, 0, 0, 0⟩) = none
        decide
    | some op => exact decodeGate_descriptor (hs v op hv).1
  rw [GateTable.gate]
  split
  · exact hentry
  · case isFalse hlimit =>
      -- The limit is one more than it should be, which is not enough for another entry.
      have hout : IDT_ITEMS ≤ v := by
        simp only [gateTable, IDT_ITEMS] at hlimit ⊢
        omega
      cases hv : ins v with
      | none => rfl
      | some op =>
          obtain ⟨hacc, hslot⟩ := hs v op hv
          have : op.slot < IDT_ITEMS := by
            cases op with
            | trap => exact hacc.1
            | interrupt => exact hacc
          omega

/-- Before the first call. -/
theorem represents_start : Represents idtStart fun _ => none := fun _ => rfl

/-- The empty record is sound, ... -/
theorem sound_start : Installed.Sound fun _ => none := by
  intro v op h
  cases h

/-- ... and so is the one after any calls. -/
theorem sound_foldl (ops : List GateOp) :
    ∀ {ins : Installed}, ins.Sound → (ops.foldl Installed.record ins).Sound := by
  induction ops with
  | nil => exact fun h => h
  | cons op ops ih => exact fun h => ih (h.record op)

/-! ### The boot -/

section Boot

variable {entry : FaultHandler → Uintptr} {irqEntrypointsArray : Nat → Uintptr}

/-- The calls of `install_fault_handlers`. -/
def faultOps (entry : FaultHandler → Uintptr) : List GateOp :=
  faultsToInstall.map fun f => .trap (BitVec.ofNat 32 f.1) (entry f.2) 0 0

/-- The calls of `arch_initialize_irqs`. -/
def irqOps (irqEntrypointsArray : Nat → Uintptr) : List GateOp :=
  (List.range NUM_IRQ_STUBS).map fun idx =>
    .interrupt (BitVec.ofNat 32 (idx + IRQ_BASE)) (irqEntrypointsArray idx) 0 0

/-- A loop that installs trap gates up to the null handler. -/
theorem installFaults_run (faults : List (BitVec 32 × Uintptr)) :
    ∀ {idt : Idt}, (∀ f ∈ faults, f.1.toNat < IDT_ITEMS ∧ f.2 ≠ 0) →
      installFaults (faults ++ [(0, 0)]) idt
        = .ok (gateRun (faults.map fun f => .trap f.1 f.2 0 0) idt).2 := by
  induction faults with
  | nil => exact fun _ => rfl
  | cons f faults ih =>
      intro idt hall
      obtain ⟨hslot, hne⟩ := hall f List.mem_cons_self
      have hrest := fun g hg => hall g (List.mem_cons_of_mem _ hg)
      have hok : (installTrapGate f.1 f.2 PROT_RING_0 0 idt).1 = 0 := by
        rw [installTrapGate, if_pos ⟨hslot, hne⟩]
      rw [List.cons_append, installFaults, if_neg hne]
      simp only [hok, ne_eq, not_true_eq_false, if_false]
      exact ih hrest

/-- A loop that installs interrupt gates. -/
theorem initializeIrqGates_run (lines : List Nat) :
    ∀ {idt : Idt}, (∀ idx ∈ lines, idx < NUM_IRQ_STUBS) →
      lines.foldlM (installIrqGate irqEntrypointsArray) idt
        = .ok (gateRun (lines.map fun idx =>
            .interrupt (BitVec.ofNat 32 (idx + IRQ_BASE)) (irqEntrypointsArray idx) 0 0) idt).2 := by
  induction lines with
  | nil => exact fun _ => rfl
  | cons idx lines ih =>
      intro idt hall
      have hidx := hall idx List.mem_cons_self
      have hrest := fun g hg => hall g (List.mem_cons_of_mem _ hg)
      have hslot : (BitVec.ofNat 32 (idx + IRQ_BASE)).toNat < IDT_ITEMS := by
        rw [BitVec.toNat_ofNat]
        unfold NUM_IRQ_STUBS at hidx
        unfold IRQ_BASE IDT_ITEMS
        omega
      have hok : (installInterruptGate (BitVec.ofNat 32 (idx + IRQ_BASE))
          (irqEntrypointsArray idx) PROT_RING_0 0 idt).1 = 0 := by
        rw [installInterruptGate, if_pos hslot]
      rw [List.foldlM_cons, installIrqGate]
      simp only [hok, ne_eq, not_true_eq_false, if_false, Loop.ok_bind]
      exact ih hrest

/-- Calls for other vectors leave a vector alone. -/
theorem record_of_notMem {v : Nat} (ops : List GateOp) :
    ∀ {ins : Installed}, (∀ op ∈ ops, op.slot ≠ v) → ops.foldl Installed.record ins v = ins v := by
  induction ops with
  | nil => exact fun _ => rfl
  | cons op ops ih =>
      intro ins hall
      rw [List.foldl_cons, ih fun op' hop => hall op' (List.mem_cons_of_mem _ hop),
        Installed.record]
      split
      · exact Function.update_of_ne (hall op List.mem_cons_self).symm _ _
      · rfl

/-- Accepted calls for different vectors are all recorded. -/
theorem record_of_mem (ops : List GateOp) :
    ∀ {ins : Installed}, (ops.map GateOp.slot).Nodup → (∀ op ∈ ops, op.Accepted) →
      ∀ op ∈ ops, ops.foldl Installed.record ins op.slot = some op := by
  induction ops with
  | nil => exact fun _ _ _ h => absurd h List.not_mem_nil
  | cons op ops ih =>
      intro ins hnd hacc op' hop'
      rw [List.map_cons, List.nodup_cons] at hnd
      rw [List.foldl_cons]
      rcases List.mem_cons.mp hop' with rfl | hmem
      · rw [record_of_notMem ops fun o ho heq => hnd.1 (by rw [← heq]; exact List.mem_map_of_mem ho),
          Installed.record, if_pos (hacc op' List.mem_cons_self), Function.update_self]
      · exact ih hnd.2 (fun o ho => hacc o (List.mem_cons_of_mem _ ho)) op' hmem

/-- All the calls of the boot. -/
def bootOps (entry : FaultHandler → Uintptr) (irqEntrypointsArray : Nat → Uintptr) : List GateOp :=
  faultOps entry ++ irqOps irqEntrypointsArray

/-- Their vectors. -/
def bootSlots : List Nat :=
  faultsToInstall.map Prod.fst ++ (List.range NUM_IRQ_STUBS).map (· + IRQ_BASE)

/-- The vectors of the boot's calls. -/
theorem slots_bootOps : (bootOps entry irqEntrypointsArray).map GateOp.slot = bootSlots := by
  rw [bootOps, faultOps, irqOps, List.map_append, List.map_map, List.map_map]
  rfl

/-- All of these calls are accepted. -/
theorem accepted_bootOps (hentry : ∀ f, entry f ≠ 0) :
    ∀ op ∈ bootOps entry irqEntrypointsArray, op.Accepted := by
  intro op hop
  have hslot : op.slot < IDT_ITEMS := by
    have hmem : op.slot ∈ (bootOps entry irqEntrypointsArray).map GateOp.slot :=
      List.mem_map_of_mem hop
    rw [slots_bootOps] at hmem
    revert hmem
    generalize op.slot = v
    revert v
    decide
  rcases List.mem_append.mp hop with hmem | hmem
  · obtain ⟨f, -, rfl⟩ := List.mem_map.mp hmem
    exact ⟨hslot, hentry f.2⟩
  · obtain ⟨idx, -, rfl⟩ := List.mem_map.mp hmem
    exact hslot

/-- The boot fills the table with these calls. -/
theorem boot_represents (hentry : ∀ f, entry f ≠ 0) :
    ∃ idt, (installFaultHandlers entry idtStart >>= initializeIrqGates irqEntrypointsArray)
        = .ok idt ∧
      Represents idt ((bootOps entry irqEntrypointsArray).foldl Installed.record fun _ => none) := by
  have hfaults := @installFaults_run
    (faultsToInstall.map fun f => (BitVec.ofNat 32 f.1, entry f.2)) idtStart (by
      intro f hf
      obtain ⟨g, hg, rfl⟩ := List.mem_map.mp hf
      refine ⟨?_, hentry g.2⟩
      have hlt : ∀ q ∈ faultsToInstall.map Prod.fst, (BitVec.ofNat 32 q).toNat < IDT_ITEMS := by
        decide
      exact hlt _ (List.mem_map_of_mem hg))
  have hirqs := @initializeIrqGates_run irqEntrypointsArray (List.range NUM_IRQ_STUBS)
    (gateRun (faultOps entry) idtStart).2 fun idx hidx => List.mem_range.mp hidx
  rw [List.map_map] at hfaults
  refine ⟨_, Loop.bind_of_ok hfaults hirqs, ?_⟩
  obtain ⟨-, hrep⟩ := gateRun_represents (faultOps entry) represents_start
  obtain ⟨-, hrep'⟩ := gateRun_represents (irqOps irqEntrypointsArray) hrep
  rw [bootOps, List.foldl_append]
  exact hrep'

/-- The gate of a line leads to its stub. -/
theorem Represents.irqGate {idt : Idt} (hentry : ∀ f, entry f ≠ 0)
    (h : Represents idt ((bootOps entry irqEntrypointsArray).foldl Installed.record fun _ => none))
    {irq : Nat} (hirq : irq < NUM_IRQ_STUBS) :
    (gateTable idt).gate (IRQ_BASE + irq)
      = some ⟨⟨8, irqEntrypointsArray irq, true⟩, 0, 0⟩ := by
  have hmem := @record_of_mem (bootOps entry irqEntrypointsArray) (fun _ => none)
    (by rw [slots_bootOps]; decide) (accepted_bootOps hentry)
  have hop : GateOp.interrupt (BitVec.ofNat 32 (irq + IRQ_BASE)) (irqEntrypointsArray irq) 0 0
      ∈ bootOps entry irqEntrypointsArray :=
    List.mem_append_right _ (List.mem_map.mpr ⟨irq, List.mem_range.mpr hirq, rfl⟩)
  have hslot : (GateOp.interrupt (BitVec.ofNat 32 (irq + IRQ_BASE)) (irqEntrypointsArray irq)
      0 0).slot = IRQ_BASE + irq := by
    show (BitVec.ofNat 32 (irq + IRQ_BASE)).toNat = _
    rw [BitVec.toNat_ofNat]
    unfold NUM_IRQ_STUBS at hirq
    unfold IRQ_BASE
    omega
  rw [h.gate (sound_foldl _ sound_start), ← hslot, hmem _ hop]
  rfl

/-- The interrupted state goes on, in the mode it was in. -/
structure Resumed (i c : Cpu) : Prop where
  rip : c.rip = i.rip
  reg : c.reg = i.reg
  fx : c.fx = i.fx
  rflags : c.rflags = i.rflags
  cs : c.cs = i.cs
  ss : c.ss = i.ss

/-- The exit of a stub, on the frame of the interrupted state. -/
theorem stubExit_resumes {env : ContextEnv} {i c c₂ : Cpu} {error : Option Word}
    (h : Entered i error c) (hload : env.loadable i.cs i.ss = true)
    (hsp : c₂.reg .rsp = saveBottom (c.reg .rsp - 8)) (hsaved : StubSaved c c₂.mem)
    (hframe : Holds c₂.mem (c.reg .rsp) i.frame.words) :
    ∃ c₃, stubExit env c₂ = some c₃ ∧ Resumed i c₃ := by
  obtain ⟨rflags, hexit⟩ := stubExit_eq env hsp hsaved
  have hcs : (i.frame.cs).setWidth 16 = i.cs := by simp [Cpu.frame]
  have hss : (i.frame.ss).setWidth 16 = i.ss := by simp [Cpu.frame]
  have hload' : env.loadable (i.frame.cs.setWidth 16) (i.frame.ss.setWidth 16) = true := by
    rw [hcs, hss]
    exact hload
  have hiretq := @iretq_eq env.loadable { c₂ with reg := c.reg, rflags, fx := c.fx } i.frame
    hframe hload'
  refine ⟨_, hexit.trans hiretq, rfl, ?_, h.fx, rfl, hcs, hss⟩
  funext r
  by_cases hr : r = .rsp
  · rw [hr]
    simp [Cpu.frame]
  · simp [hr, h.regs r hr]

/-- An interrupt on a line is taken in the state `i`: the processor enters the line's stub
with interrupts off, the stub hands the number of the line to `do_irq`, and when that returns,
the state `i` goes on. -/
def ServesLine (env : ContextEnv) (t : GateTable) (rsp0 stub doIrq next : Word) (irq : Nat)
    (i : Cpu) : Prop :=
  ∃ c, raise t rsp0 (IRQ_BASE + irq) none i = some c ∧ c.rip = stub ∧ c.rflags.getLsbD IF = false ∧
    ∃ c₁, callDoIrq doIrq next irq c = some c₁ ∧ c₁.rip = doIrq ∧ (c₁.reg .rdi).toNat = irq ∧
      ∀ c₂, CallReturns (c.reg .rsp + 40) c₁ c₂ → ∃ c₃, stubExit env c₂ = some c₃ ∧ Resumed i c₃

/-- An exception is taken in the state `i`: the processor enters its handler, which calls its
function in C. -/
def ReachesFault (t : GateTable) (rsp0 : Word) (impl : Option FaultHandler → Word) (handler : Word)
    (next : Word) (slot : Nat) (f : FaultHandler) (error : Word) (i : Cpu) : Prop :=
  ∃ c, raise t rsp0 slot (errorOf slot error) i = some c ∧ c.rip = handler ∧
    c.rflags.getLsbD IF = i.rflags.getLsbD IF ∧
    ∃ c₁, callHiLevel impl next f c = some c₁ ∧ c₁.rip = impl (some f)

/-- What a gate does to `IF`. -/
theorem deliver_IF (g : Gate) (s : EntryStack) (error : Option Word) (i : Cpu) :
    (deliver g s error i).rflags.getLsbD IF = (!g.interrupt && i.rflags.getLsbD IF) := by
  have hkeep : ∀ (f : Word) (k : Nat), k ≠ IF → (setFlag f k false).getLsbD IF = f.getLsbD IF :=
    fun f k hk => by rw [getLsbD_setFlag _ _ (by decide), if_neg hk]
  show (if g.interrupt then setFlag _ IF false else _ : Word).getLsbD IF = _
  cases g.interrupt with
  | true =>
      rw [if_pos rfl, getLsbD_setFlag _ _ (by decide), if_pos rfl]
      rfl
  | false =>
      rw [if_neg Bool.false_ne_true, hkeep _ _ (by decide), hkeep _ _ (by decide),
        hkeep _ _ (by decide), hkeep _ _ (by decide)]
      rfl

/-- A line whose vector has the gate of its stub is served. -/
theorem servesLine_of_gate {t : GateTable} {stub : Word} {irq : Nat} (hirq : irq < NUM_IRQ_STUBS)
    (hgate : t.gate (IRQ_BASE + irq) = some ⟨⟨8, stub, true⟩, 0, 0⟩) (env : ContextEnv)
    (rsp0 doIrq next : Word) (i : Cpu) (hload : env.loadable i.cs i.ss = true) :
    ServesLine env t rsp0 stub doIrq next irq i := by
  have h := entered_deliver ⟨8, stub, true⟩ (entryStack rsp0 i) none i
  have hIF := deliver_IF ⟨8, stub, true⟩ (entryStack rsp0 i) none i
  refine ⟨deliver ⟨8, stub, true⟩ (entryStack rsp0 i) none i, ?_, rfl, hIF, ?_⟩
  · rw [raise, hgate]
    rfl
  · obtain ⟨c', hcall, hready, hpasses⟩ := callDoIrq_passes doIrq next hirq h
    refine ⟨_, hcall, hpasses.rip, hpasses.number, fun c₂ hret => ?_⟩
    obtain ⟨hsp, hsaved, hframe⟩ := @StubReady.returns _ _ doIrq next hready 40 (by decide) _ hret
    exact stubExit_resumes h hload hsp hsaved
      (h.frame.of_agree (hframe.take (by simp [InterruptFrame.words])))

/-- An exception whose vector has the gate of its handler reaches it. -/
theorem reachesFault_of_gate {t : GateTable} {handler : Word} {slot : Nat}
    (hgate : t.gate slot = some ⟨⟨8, handler, false⟩, 0, 0⟩) (rsp0 : Word)
    (impl : Option FaultHandler → Word) (next : Word) (f : FaultHandler) (error : Word) (i : Cpu) :
    ReachesFault t rsp0 impl handler next slot f error i := by
  have hIF := deliver_IF ⟨8, handler, false⟩ (entryStack rsp0 i) (errorOf slot error) i
  refine ⟨deliver ⟨8, handler, false⟩ (entryStack rsp0 i) (errorOf slot error) i, ?_, rfl, ?_, ?_⟩
  · rw [raise, hgate]
    rfl
  · rw [hIF]
    rfl
  · obtain ⟨c', hcall, -, -⟩ := callHiLevel_eq impl next f
      (deliver ⟨8, handler, false⟩ (entryStack rsp0 i) (errorOf slot error) i)
    exact ⟨_, hcall, rfl⟩

/-- After the boot's calls every line is served, every exception reaches its function, and the
processor finds nothing at the other vectors. -/
theorem boot_dispatches (entry : FaultHandler → Uintptr) (irqEntrypointsArray : Nat → Uintptr)
    (hentry : ∀ f, entry f ≠ 0) :
    ∃ idt, (installFaultHandlers entry idtStart >>= initializeIrqGates irqEntrypointsArray)
        = .ok idt ∧
      (∀ irq, irq < NUM_IRQ_STUBS → ∀ (env : ContextEnv) (rsp0 doIrq next : Word) (i : Cpu),
        env.loadable i.cs i.ss = true →
        ServesLine env (gateTable idt) rsp0 (irqEntrypointsArray irq) doIrq next irq i) ∧
      (∀ slot f, (slot, f) ∈ faultsToInstall → ∀ (rsp0 : Word) (impl : Option FaultHandler → Word)
        (next error : Word) (i : Cpu),
        ReachesFault (gateTable idt) rsp0 impl (entry f) next slot f error i) ∧
      ∀ v, v ∉ bootSlots → ∀ (rsp0 : Word) (error : Option Word) (i : Cpu),
        raise (gateTable idt) rsp0 v error i = none := by
  obtain ⟨idt, hrun, hrep⟩ := @boot_represents entry irqEntrypointsArray hentry
  -- The gate of a slot is the last one that was accepted for it, and every slot is used once.
  have hgate := hrep.gate (sound_foldl _ sound_start)
  have hmem := @record_of_mem (bootOps entry irqEntrypointsArray) (fun _ => none)
    (by rw [slots_bootOps]; decide) (accepted_bootOps hentry)
  refine ⟨idt, hrun, fun irq hirq env rsp0 doIrq next i hload => ?_,
    fun slot f hf rsp0 impl next error i => ?_, fun v hv rsp0 error i => ?_⟩
  · exact servesLine_of_gate hirq (hrep.irqGate hentry hirq) env rsp0 doIrq next i hload
  · have hop : GateOp.trap (BitVec.ofNat 32 slot) (entry f) 0 0
        ∈ bootOps entry irqEntrypointsArray :=
      List.mem_append_left _ (List.mem_map.mpr ⟨(slot, f), hf, rfl⟩)
    -- The slots are small, so they are the same numbers as 32-bit words.
    have hslot : (GateOp.trap (BitVec.ofNat 32 slot) (entry f) 0 0).slot = slot := by
      have hsmall : ∀ q ∈ faultsToInstall.map Prod.fst, (BitVec.ofNat 32 q).toNat = q := by decide
      exact hsmall slot (List.mem_map_of_mem (f := Prod.fst) hf)
    refine reachesFault_of_gate ?_ rsp0 impl next f error i
    rw [hgate, ← hslot, hmem _ hop]
    rfl
  · -- The other slots are as the zeroed table has them.
    have hnone : (gateTable idt).gate v = none := by
      rw [hgate, record_of_notMem]
      · rfl
      · intro op hop heq
        apply hv
        rw [← heq, ← slots_bootOps]
        exact List.mem_map_of_mem hop
    rw [raise, hnone]

/-- The timer's line, in the interrupted thread. -/
theorem boot_dispatches_timer :
    ∃ idt, (installFaultHandlers (fun _ => 0xffffffff80105000) idtStart
        >>= initializeIrqGates fun irq => 0xffffffff80104000 + BitVec.ofNat 64 (13 * irq)) = .ok idt ∧
      ServesLine topEnv (gateTable idt) 0 0xffffffff80104000 0xffffffff80106000 0xffffffff80107000
        0 interrupted := by
  obtain ⟨idt, hrun, hlines, -⟩ := boot_dispatches (fun _ => 0xffffffff80105000)
    (fun irq => 0xffffffff80104000 + BitVec.ofNat 64 (13 * irq)) fun _ => by decide
  exact ⟨idt, hrun, hlines 0 (by decide) topEnv 0 0xffffffff80106000 0xffffffff80107000 interrupted
    (by decide)⟩

end Boot

/-- After any calls, the processor finds at each vector the gate of the last accepted one,
and no gate where there was none. -/
theorem gates_of_run (ops : List GateOp) :
    (gateRun ops idtStart).1 = ops.map (fun op => if op.Accepted then 0 else -EINVAL) ∧
    ∀ v, (gateTable (gateRun ops idtStart).2).gate v
      = (ops.foldl Installed.record (fun _ => none) v).map GateOp.gate := by
  obtain ⟨hcodes, hrun⟩ := gateRun_represents ops represents_start
  exact ⟨hcodes, hrun.gate (sound_foldl ops sound_start)⟩

end MString
