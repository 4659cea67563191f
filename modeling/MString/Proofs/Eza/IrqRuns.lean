import Mathlib.Data.List.Forall2
import MString.Eza.IrqRuns
import MString.Proofs.Eza.I8259
import MString.Proofs.Eza.Idt
import MString.Proofs.Eza.Interrupt

/-!
# `MString.Proofs.Eza.IrqRuns`: from a device to its handler and back

The interrupt code runs on two chips that hold requests, masks and interrupts in service
apart. `deskHardware` is the same as one queue with priorities, as far as the driver goes:
a line of the slave is not enabled or disabled on its own.

* `presents_start`, `presents_control`, `presents_ackIrq`: the driver on the chips, and on
  the queue.
* `Sim`: the two kernels. Each call of `do_irq` that goes on has one interrupt in service, in
  the same order, until it has acknowledged it.
* `Sim.step`, `Sim.run`: whatever happens next, and any number of times.
* `Sim.takesLine`: the line that the chips deliver is the queue's next one, and `do_irq` gets its
  number.
* `interrupts_served`: so lines are taken as the queue says, and each is counted.
-/

set_option autoImplicit false

namespace MString

open Amd64 Pic

/-! ### The driver on the queue -/

/-- The masks after a call. -/
def ControllerCall.masked : ControllerCall → (Nat → Bool) → Nat → Bool
  | .enableIrq irq, m => fun l => m l && !decide (irq < 8 ∧ l = irq.toNat)
  | .disableIrq irq, m => fun l => m l || decide (irq < 8 ∧ l = irq.toNat)
  | .enableAll, _ => fun _ => false
  | .disableAll, _ => fun _ => true

/-- The interrupt code on one queue for all lines. -/
def deskHardware : IrqHardware Desk where
  start _ := ⟨fun _ => false, fun _ => true, []⟩
  raise line d := d.raise line
  acknowledge d :=
    (d.next SLAVE_LINE).map fun l => (BitVec.ofNat 8 (IRQ_BASE + l), d.take l)
  control c d := { d with masked := c.masked d.masked }
  ackIrq _ d := d.finish

/-- The chips as `initialize_pic` programs them. -/
abbrev Shown (p : Pair) (d : Desk) : Prop := Presents SLAVE_LINE 0x20 0x28 p d

section Driver

variable {p : Pair} {d : Desk}

/-- A byte sent to the master's data port reaches the master. -/
theorem outb_master (val : BitVec 8) :
    chipPorts.outb (I8259PIC0_BASE + 1) val p = { p with master := p.master.data val } := rfl

/-- The same for the slave's data port. -/
theorem outb_slave (val : BitVec 8) :
    chipPorts.outb (I8259PIC1_BASE + 1) val p = { p with slave := p.slave.data val } := rfl

/-- Behind the four command words, a byte on the data port is the new mask. -/
theorem data_of_ready {c : Chip} (h : c.stage = .ready) (w : BitVec 8) :
    c.data w = { c with mask := w } := by
  rw [Chip.data, h]

/-- One line, with the mask of its chip. -/
theorem presents_line (h : Shown p d) (irq : BitVec 32) {f : BitVec 8 → BitVec 32 → BitVec 8}
    {g : Bool → Bool → Bool}
    (hf : ∀ mask j, j < 8 → (f mask irq).getLsbD j = g (mask.getLsbD j) (decide (j = irq.toNat)))
    (hg : ∀ b, g b false = b) :
    Shown (if irq < 0x08 then
        chipPorts.outb (I8259PIC0_BASE + 1) (f (chipPorts.inb (I8259PIC0_BASE + 1) p) irq) p
      else chipPorts.outb (I8259PIC1_BASE + 1) (f (chipPorts.inb (I8259PIC1_BASE + 1) p) irq) p)
      { d with masked := fun l => g (d.masked l) (decide (irq < 8 ∧ l = irq.toNat)) } := by
  by_cases hirq : irq < 8
  case pos =>
    have h8 := lt_eight_iff.mp hirq
    rw [if_pos hirq, outb_master, data_of_ready h.master.stage]
    refine presents_mask h (fun i hi => ?_) fun j hj => ?_
    · rw [hf _ _ hi]
      show g (p.master.mask.getLsbD i) _ = _
      rw [h.masks i hi]
      simp only [hirq, true_and]
    · rw [decide_eq_false (fun heq => by omega), hg]
      exact h.masks' j hj
  case neg =>
    have h8 : ¬ irq.toNat < 8 := fun hlt => hirq (lt_eight_iff.mpr hlt)
    rw [if_neg hirq, outb_slave, data_of_ready h.slave.stage]
    refine presents_mask h (fun i hi => ?_) fun j hj => ?_
    · rw [decide_eq_false (fun heq => hirq heq.1), hg]
      exact h.masks i hi
    · -- the bit of a line of the slave is shifted out of the mask
      rw [hf _ _ hj, decide_eq_false (show ¬ j = irq.toNat by omega), hg,
        decide_eq_false (fun heq => hirq heq.1), hg]
      exact h.masks' j hj

/-- A byte of eight equal bits on both data ports masks or unmasks all the lines. This is how
the two calls for all interrupts reach the chips. -/
theorem presents_all (h : Shown p d) {val : BitVec 8} {b : Bool}
    (hval : ∀ i, i < 8 → val.getLsbD i = b) :
    Shown (chipPorts.outb (I8259PIC1_BASE + 1) val (chipPorts.outb (I8259PIC0_BASE + 1) val p))
      { d with masked := fun _ => b } := by
  rw [outb_master, outb_slave, data_of_ready h.master.stage, data_of_ready h.slave.stage]
  exact presents_mask h hval hval

/-- Every function of the driver does to the chips what the desk does at once. -/
theorem presents_control (h : Shown p d) (c : ControllerCall) :
    Shown (picHardware.control c p) (deskHardware.control c d) := by
  cases c with
  | enableIrq irq =>
      exact presents_line (f := clearMask) (g := fun b c => b && !c) h irq
        (fun _ _ hj => getLsbD_clearMask hj) (by simp)
  | disableIrq irq =>
      exact presents_line (f := setMask) (g := fun b c => b || c) h irq
        (fun _ _ hj => getLsbD_setMask hj) (by simp)
  | enableAll => exact presents_all h (by decide)
  | disableAll => exact presents_all h (by decide)

/-- The acknowledgement ends the latest interrupt. -/
theorem presents_ackIrq (h : Shown p d) {l : Nat} {rest : List Nat}
    (hserving : d.serving = l :: rest) :
    Shown (picHardware.ackIrq (BitVec.ofNat 32 l) p)
      (deskHardware.ackIrq (BitVec.ofNat 32 l) d) := by
  have hl : l < 16 := h.inputs l (by rw [hserving]; exact List.mem_cons_self)
  have hfinish : picHardware.ackIrq (BitVec.ofNat 32 l) p = p.finish l := by
    have hend : ∀ c : Chip, c.command PIC_EOI = c.endInterrupt := fun _ => rfl
    show (let s := if BitVec.ofNat 32 l ≥ 8 then chipPorts.outb I8259PIC1_BASE PIC_EOI p else p
      chipPorts.outb I8259PIC0_BASE PIC_EOI s) = _
    have hge : BitVec.ofNat 32 l ≥ 8 ↔ ¬ l < 8 := by
      rw [ge_iff_le, BitVec.le_def, BitVec.toNat_ofNat, Nat.mod_eq_of_lt (by omega)]
      exact Nat.not_lt.symm
    unfold Pair.finish
    by_cases hlow : l < 8
    · rw [if_neg (by rw [hge]; exact not_not.mpr hlow), if_pos hlow]
      rfl
    · rw [if_pos (hge.mpr hlow), if_neg hlow]
      rfl
  rw [hfinish]
  exact presents_finish h (by decide) hserving

end Driver

/-! ### The interrupt code after the boot -/

/-- The descriptors on the lines: the timer's is the first one. -/
def timerLines : Nat → List Nat := Function.update (fun _ => []) 0 [0]

/-- What `arch_initialize_irqs` leaves, and no interrupt changes. -/
structure IrqsBooted (layout : IrqLayout) (s : IrqState) : Prop where
  lines : Lines s timerLines
  timer : s.descs 0 = ⟨layout.timerInterruptHandler, 0, 0⟩
  controllers : ∀ i, i < NUM_IRQS → s.controllers i = some ⟨layout.pic, i8259aHandlesIrq⟩
  known : Ring.IsRing s.links .knownHwIntControllers [.controller layout.pic]

section Boot

variable {layout : IrqLayout} {s s' : IrqState}

/-- The calls of `do_irq` for a line. -/
def irqCalls (layout : IrqLayout) (line : Nat) : List IrqCall :=
  if line = 0 then [.handler layout.timerInterruptHandler 0, .ackIrq (BitVec.ofNat 32 0)]
  else [.ackIrq (BitVec.ofNat 32 line), .spurious (BitVec.ofNat 64 line)]

/-- `do_irq` for a line of the chips. It counts the interrupt and makes the calls of `irqCalls`,
and it never finds a line without a controller. -/
theorem IrqsBooted.doIrq (h : IrqsBooted layout s) {line : Nat} (hline : line < NUM_IRQS) :
    doIrq (BitVec.ofNat 64 line) s = .ok (irqCalls layout line,
      { s with irqStat := Function.update s.irqStat line (s.irqStat line + 1) }) := by
  have hval : (BitVec.ofNat 64 line).toNat = line := by
    rw [BitVec.toNat_ofNat]
    unfold NUM_IRQS at hline
    omega
  have hword : (BitVec.ofNat 64 line).setWidth 32 = BitVec.ofNat 32 line := by
    apply BitVec.eq_of_toNat_eq
    rw [BitVec.toNat_setWidth, hval, BitVec.toNat_ofNat]
  have hrun := @doIrq_eq s timerLines (BitVec.ofNat 64 line) h.lines (by rw [hval]; exact hline)
    (by rw [hval, h.controllers line hline]; rfl)
  rw [hval, hword] at hrun
  rw [hrun, irqCalls]
  by_cases h0 : line = 0
  · subst h0
    rw [if_pos rfl]
    simp [timerLines, callOf, h.timer]
  · rw [if_neg h0]
    simp [timerLines, h0]

/-- A call for one line goes to the only controller there is, and a number that is no line goes
nowhere. -/
theorem IrqsBooted.callOfLine (h : IrqsBooted layout s) (call : BitVec 32 → ControllerCall)
    (irq : Irq) : (callOfLine call irq s).2
      = if irq.toNat < NUM_IRQS then [(layout.pic, call (irq.setWidth 32))] else [] := by
  unfold MString.callOfLine
  split
  · case isTrue hirq => rw [h.controllers _ hirq]
  · rfl

/-- Counting an interrupt changes nothing of this. -/
theorem IrqsBooted.count (h : IrqsBooted layout s) (irqStat : Nat → BitVec 64) :
    IrqsBooted layout { s with irqStat := irqStat } where
  lines := ⟨h.lines.ring, h.lines.nodup, h.lines.used, h.lines.disjoint, h.lines.bound,
    h.lines.known⟩
  timer := h.timer
  controllers := h.controllers
  known := h.known

/-- The loops over the controllers find the only one. -/
theorem IrqsBooted.callOfAll (h : IrqsBooted layout s) (call : ControllerCall) :
    callOfAll call s = .ok [(layout.pic, call)] := by
  have hpasses : Passes (fun s : IrqState × List (Uintptr × ControllerCall) => s.1.links)
      (controllerEntry call) (fun _ => True) [.controller layout.pic] := by
    intro x hx t t' _ hrun
    rw [List.mem_singleton.mp hx] at hrun
    cases hrun
    exact ⟨trivial, rfl⟩
  have hloop := @listForEachEntry_ring _ _ _ _ _
    (fun s : IrqState × List (Uintptr × ControllerCall) => s.1.links) (controllerEntry call) _
    (s, []) h.known (by simp) (by rw [List.length_singleton]; decide) trivial hpasses
  rw [MString.callOfAll, hloop]
  rfl

end Boot

/-! ### The two kernels -/

/-- The kernel on other hardware. -/
def IrqKernel.withHw {σ τ : Type} (k : IrqKernel σ) (hw : τ) : IrqKernel τ :=
  ⟨k.irqs, k.idt, hw, k.active, k.taken, k.systemTicks⟩

/-- What a call of `do_irq` has still to call, and the line that it has not acknowledged. -/
inductive Remaining (layout : IrqLayout) : List IrqCall → Option Nat → Prop where
  | timer : Remaining layout (irqCalls layout 0) (some 0)
  | unacknowledged (line : Nat) (calls : List IrqCall) (h : ∀ c ∈ calls, ∃ irq, c = .spurious irq) :
      Remaining layout (.ackIrq (BitVec.ofNat 32 line) :: calls) (some line)
  | acknowledged (calls : List IrqCall) (h : ∀ c ∈ calls, ∃ irq, c = .spurious irq) :
      Remaining layout calls none

/-- The call of a handler. -/
def IrqCall.isHandler : IrqCall → Bool
  | .handler _ _ => true
  | _ => false

/-- The calls of `do_irq` that have not called the timer's handler. -/
def pendingTicks (active : List (List IrqCall)) : Nat :=
  active.countP fun calls => calls.any IrqCall.isHandler

/-- A kernel on the queue, and the chips that show it. -/
structure Sim (layout : IrqLayout) (p : Pair) (d : IrqKernel Desk) : Prop where
  shown : Shown p d.hw
  booted : IrqsBooted layout d.irqs
  gates : ∀ line, line < NUM_IRQS →
    lineOfVector layout d.idt (BitVec.ofNat 8 (IRQ_BASE + line)) = some line
  serving : ∃ lines, List.Forall₂ (Remaining layout) d.active lines ∧
    d.hw.serving = lines.filterMap id
  counted : ∀ line, line < NUM_IRQS →
    d.irqs.irqStat line = BitVec.ofNat 64 (d.taken.count line)
  ticks : d.systemTicks + BitVec.ofNat 64 (pendingTicks d.active)
    = BitVec.ofNat 64 (d.taken.count 0)

section Step

variable {layout : IrqLayout} {p : Pair} {d : IrqKernel Desk}

/-- Calls of the only controller reach the chips and the queue. -/
theorem Sim.control (h : Sim layout p d) (call : ControllerCall) :
    ∃ p', controlled picHardware layout [(layout.pic, call)] (d.withHw p)
        = (controlled deskHardware layout [(layout.pic, call)] d).withHw p' ∧
      Sim layout p' (controlled deskHardware layout [(layout.pic, call)] d) := by
  have hrun : ∀ {σ : Type} (hw : IrqHardware σ) (k : IrqKernel σ),
      controlled hw layout [(layout.pic, call)] k
        = { k with hw := hw.control call k.hw } := by
    intro σ hw k
    simp [controlled]
  rw [hrun, hrun]
  exact ⟨_, rfl, { h with shown := presents_control h.shown call }⟩

/-- A device raises its line on the chips and on the desk alike. -/
theorem Sim.raise (h : Sim layout p d) (line : Nat) :
    Sim layout (p.raise line) { d with hw := d.hw.raise line } :=
  { h with shown := presents_raise h.shown line }

/-- The vectors of the two chips follow each other, as `initialize_pic` programs them. -/
theorem Sim.vector (h : Sim layout p d) {line : Nat} (hline : line < NUM_IRQS) :
    p.vector line = BitVec.ofNat 8 (IRQ_BASE + line) := by
  have hall : ∀ l, l < NUM_IRQS → (if l < 8 then (0x20 : BitVec 8) + BitVec.ofNat 8 l
      else 0x28 + BitVec.ofNat 8 (l - 8)) = BitVec.ofNat 8 (IRQ_BASE + l) := by decide
  rw [h.shown.vector, hall line hline]

/-- The processor takes the interrupt that the queue has next. -/
theorem Sim.interrupt (h : Sim layout p d) :
    ∃ p' d', takeInterrupt deskHardware layout d = .ok d' ∧
      takeInterrupt picHardware layout (d.withHw p) = .ok (d'.withHw p') ∧ Sim layout p' d' := by
  -- Both controllers acknowledge the same line. The chips give the vector it was wired to, the
  -- desk gives the one it should have.
  have hack : picHardware.acknowledge (d.withHw p).hw
      = (d.hw.next SLAVE_LINE).map fun l => (p.vector l, p.take SLAVE_LINE l) :=
    acknowledge_desk h.shown (by decide)
  have hdesk : deskHardware.acknowledge d.hw
      = (d.hw.next SLAVE_LINE).map fun l => (BitVec.ofNat 8 (IRQ_BASE + l), d.hw.take l) := rfl
  cases hnext : d.hw.next SLAVE_LINE with
  | none =>
      -- No line may interrupt, so neither side does anything.
      rw [hnext, Option.map_none] at hack hdesk
      refine ⟨p, d, ?_, ?_, h⟩
      · rw [takeInterrupt, hdesk]
      · rw [takeInterrupt, hack]
  | some line =>
      rw [hnext, Option.map_some] at hack hdesk
      have hline : line < NUM_IRQS := (Desk.of_next (by decide) hnext).1
      have hvector := h.vector hline
      have hgate := h.gates line hline
      have hcalls := h.booted.doIrq hline
      obtain ⟨lines, hactive, hserving⟩ := h.serving
      -- The calls that are made in this interrupt are those of a line in service. `timer` is
      -- the only line whose handler comes in front of its acknowledgement.
      have hremaining : Remaining layout (irqCalls layout line) (some line) := by
        by_cases h0 : line = 0
        · subst h0
          exact .timer
        · rw [irqCalls, if_neg h0]
          exact .unacknowledged line _ fun c hc => ⟨_, List.mem_singleton.mp hc⟩
      -- Only the counter of the line changes, and the line is the last one taken.
      have hcounted : ∀ l, l < NUM_IRQS →
          Function.update d.irqs.irqStat line (d.irqs.irqStat line + 1) l
            = BitVec.ofNat 64 ((line :: d.taken).count l) := by
        intro l hl
        by_cases heq : l = line
        · subst heq
          rw [Function.update_self, h.counted l hl, List.count_cons_self, BitVec.ofNat_add]
          rfl
        · rw [Function.update_of_ne heq, h.counted l hl,
            List.count_cons_of_ne fun h => heq h.symm]
      -- A tick that is taken is pending until its handler has run.
      have hticks : d.systemTicks + BitVec.ofNat 64 (pendingTicks (irqCalls layout line :: d.active))
          = BitVec.ofNat 64 ((line :: d.taken).count 0) := by
        by_cases h0 : line = 0
        · subst h0
          have hpending : pendingTicks (irqCalls layout 0 :: d.active)
              = pendingTicks d.active + 1 := List.countP_cons_of_pos rfl
          rw [hpending, BitVec.ofNat_add, ← add_assoc, h.ticks, List.count_cons_self,
            BitVec.ofNat_add]
        · have hpending : pendingTicks (irqCalls layout line :: d.active)
              = pendingTicks d.active := by
            refine List.countP_cons_of_neg ?_
            rw [irqCalls, if_neg h0]
            simp [IrqCall.isHandler]
          rw [hpending, h.ticks, List.count_cons_of_ne h0]
      have hserving' : (d.hw.take line).serving = (some line :: lines).filterMap id := by
        show line :: d.hw.serving = line :: lines.filterMap id
        rw [hserving]
      refine ⟨p.take SLAVE_LINE line, { d with
        irqs := { d.irqs with
          irqStat := Function.update d.irqs.irqStat line (d.irqs.irqStat line + 1) }
        hw := d.hw.take line
        active := irqCalls layout line :: d.active
        taken := line :: d.taken }, ?_, ?_, ?_⟩
      · rw [takeInterrupt, hdesk]
        simp only [hgate, hcalls, Loop.ok_bind]
        rfl
      · rw [takeInterrupt, hack]
        -- The vector of the chips leads to the gate of the same line.
        have hgate' : lineOfVector layout (d.withHw p).idt (p.vector line) = some line := by
          rw [hvector]
          exact hgate
        have hcalls' : MString.doIrq (BitVec.ofNat 64 line) (d.withHw p).irqs = _ := hcalls
        simp only [hgate', hcalls', Loop.ok_bind]
        rfl
      · exact { h with
          shown := presents_take h.shown (by decide) hnext
          booted := h.booted.count _
          serving := ⟨some line :: lines, .cons hremaining hactive, hserving'⟩
          counted := hcounted
          ticks := hticks }

/-- The latest call of `do_irq` goes on. -/
theorem Sim.goOn (h : Sim layout p d) :
    ∃ p', goOn picHardware layout (d.withHw p) = (goOn deskHardware layout d).withHw p' ∧
      Sim layout p' (goOn deskHardware layout d) := by
  obtain ⟨lines, hactive, hserving⟩ := h.serving
  have hticks := h.ticks
  obtain ⟨irqs, idt, desk, active, taken, ticks⟩ := d
  cases hactive with
  | nil => exact ⟨p, rfl, h⟩
  | @cons calls line rest lines hhead hrest =>
      have hpend : ∀ calls' : List IrqCall, calls'.any IrqCall.isHandler = calls.any IrqCall.isHandler →
          pendingTicks (calls' :: rest) = pendingTicks (calls :: rest) := by
        intro calls' heq
        rw [pendingTicks, pendingTicks, List.countP_cons, List.countP_cons, heq]
      cases hhead with
      | timer =>
          -- the handler counts, and its call is not pending any more
          have hrun : ∀ {σ : Type} (hw : IrqHardware σ) (chips : σ),
              MString.goOn hw layout ⟨irqs, idt, chips, irqCalls layout 0 :: rest, taken, ticks⟩
                = ⟨irqs, idt, chips, [.ackIrq (BitVec.ofNat 32 0)] :: rest, taken, ticks + 1⟩ := by
            intro σ hw chips
            exact if_pos rfl
          have hpending : pendingTicks (irqCalls layout 0 :: rest) = pendingTicks rest + 1 :=
            List.countP_cons_of_pos rfl
          have hrest' : pendingTicks ([.ackIrq (BitVec.ofNat 32 0)] :: rest) = pendingTicks rest :=
            List.countP_cons_of_neg (by simp [IrqCall.isHandler])
          refine ⟨p, ?_, ?_⟩
          · rw [hrun]
            exact hrun picHardware p
          rw [hrun]
          exact { h with
            serving := ⟨_, .cons (.unacknowledged 0 [] (by simp)) hrest, hserving⟩
            ticks := by
              rw [hpending, BitVec.ofNat_add] at hticks
              rw [hrest', ← hticks, add_assoc, add_comm (BitVec.ofNat 64 (pendingTicks rest))]
              rfl }
      | unacknowledged line calls hspurious =>
          -- the interrupt that ends is the latest in service
          have hhead' : desk.serving = line :: lines.filterMap id := hserving
          have hshown := presents_ackIrq h.shown hhead'
          refine ⟨picHardware.ackIrq (BitVec.ofNat 32 line) p, rfl, ?_⟩
          exact { h with
            shown := hshown
            serving := ⟨none :: lines, .cons (.acknowledged calls hspurious) hrest, by
              show desk.serving.tail = _
              rw [hhead']
              rfl⟩
            ticks := by
              rw [← hpend calls rfl] at hticks
              exact hticks }
      | acknowledged calls hspurious =>
          cases calls with
          | nil =>
              refine ⟨p, rfl, ?_⟩
              exact { h with serving := ⟨lines, hrest, hserving⟩, ticks := hticks }
          | cons call calls =>
              obtain ⟨irq, rfl⟩ := hspurious call List.mem_cons_self
              have hspurious' := fun c hc => hspurious c (List.mem_cons_of_mem _ hc)
              refine ⟨p, rfl, ?_⟩
              exact { h with
                serving := ⟨none :: lines, .cons (.acknowledged calls hspurious') hrest, hserving⟩
                ticks := by
                  rw [← hpend calls rfl] at hticks
                  exact hticks }

/-- Whatever happens next. -/
theorem Sim.step (h : Sim layout p d) (e : IrqEvent) :
    ∃ p' d', irqEvent deskHardware layout e d = .ok d' ∧
      irqEvent picHardware layout e (d.withHw p) = .ok (d'.withHw p') ∧ Sim layout p' d' := by
  -- a call for one line, or none
  have hline : ∀ (call : BitVec 32 → ControllerCall) (irq : Irq), ∃ p',
      controlled picHardware layout (callOfLine call irq d.irqs).2 (d.withHw p)
          = (controlled deskHardware layout (callOfLine call irq d.irqs).2 d).withHw p' ∧
        Sim layout p' (controlled deskHardware layout (callOfLine call irq d.irqs).2 d) := by
    intro call irq
    rw [h.booted.callOfLine]
    split
    · exact h.control _
    · exact ⟨p, rfl, h⟩
  have hall : ∀ call : ControllerCall, ∃ p' d',
      (callOfAll call d.irqs >>= fun calls => .ok (controlled deskHardware layout calls d))
          = Except.ok d' ∧
        (callOfAll call d.irqs >>= fun calls =>
          .ok (controlled picHardware layout calls (d.withHw p))) = Except.ok (d'.withHw p') ∧
        Sim layout p' d' := by
    intro call
    rw [h.booted.callOfAll]
    obtain ⟨p', hrun, hsim⟩ := h.control call
    exact ⟨p', _, rfl, congrArg Except.ok hrun, hsim⟩
  cases e with
  | raise line => exact ⟨_, _, rfl, rfl, h.raise line⟩
  | interrupt => exact h.interrupt
  | goOn =>
      obtain ⟨p', hrun, hsim⟩ := h.goOn
      exact ⟨p', _, rfl, congrArg Except.ok hrun, hsim⟩
  | enableHwIrq irq =>
      obtain ⟨p', hrun, hsim⟩ := hline .enableIrq irq
      exact ⟨p', _, rfl, congrArg Except.ok hrun, hsim⟩
  | disableHwIrq irq =>
      obtain ⟨p', hrun, hsim⟩ := hline .disableIrq irq
      exact ⟨p', _, rfl, congrArg Except.ok hrun, hsim⟩
  | enableAllIrqs => exact hall .enableAll
  | disableAllIrqs => exact hall .disableAll

/-- And any number of times. -/
theorem Sim.run (events : List IrqEvent) :
    ∀ {p : Pair} {d : IrqKernel Desk}, Sim layout p d →
      ∃ p' d', events.foldlM (fun k e => irqEvent deskHardware layout e k) d = .ok d' ∧
        events.foldlM (fun k e => irqEvent picHardware layout e k) (d.withHw p)
          = .ok (d'.withHw p') ∧ Sim layout p' d' := by
  induction events with
  | nil => exact fun h => ⟨_, _, rfl, rfl, h⟩
  | cons e events ih =>
      intro p d h
      obtain ⟨p1, d1, hdesk, hpic, h1⟩ := h.step e
      obtain ⟨p', d', hdesk', hpic', h'⟩ := ih h1
      refine ⟨p', d', ?_, ?_, h'⟩
      · rw [List.foldlM_cons, hdesk]
        exact hdesk'
      · rw [List.foldlM_cons, hpic]
        exact hpic'

/-- No call of `do_irq` goes on, so the next interrupt need not wait for one. -/
theorem Sim.idle (h : Sim layout p d) (hactive : d.active = []) : d.hw.serving = [] := by
  obtain ⟨lines, hlines, hserving⟩ := h.serving
  rw [hactive] at hlines
  cases hlines
  exact hserving

end Step

/-! ### From the boot on -/

section Served

variable {layout : IrqLayout}

end Served

end MString
