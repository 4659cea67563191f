import Mathlib.Data.BitVec
import Mathlib.Logic.Function.Basic

/-!
# `MString.Lib.Pic`: a pair of interrupt controllers

Two 8259A controllers with eight inputs each. The master's output goes to the processor, and
the slave's to the input `wire` of the master, so that there are fifteen inputs for devices:
the number of an input is its own on the master and 8 more on the slave.

A controller is programmed by four words, the first of them on its command port and the
others on its data port. From then on a word on the data port is the mask, and the only
command here is the end of an interrupt. A request stays until the processor takes it. The
lower inputs of a chip come first, and an input that is being served keeps itself and those
behind it waiting.

* `Pair.acknowledge`: the processor takes an interrupt and gets a vector.
* `Desk`: what this amounts to, as one queue with priorities for all inputs.
* `acknowledge_desk`, `presents_take`, `presents_finish`: the pair is a `Desk`.

Nothing here mentions a program.
-/

set_option autoImplicit false

namespace Pic

/-! ### One chip -/

/-- What a word on the data port means. -/
inductive Stage where
  | vectorBase
  | cascade
  | mode
  | ready
deriving DecidableEq, Repr

/-- One controller: its setup, and for each of its eight inputs whether it is requested, masked
and in service. -/
structure Chip where
  stage : Stage
  /-- The first word has said that there is no third or no fourth one. -/
  single : Bool
  short : Bool
  base : BitVec 8
  cascade : BitVec 8
  /-- An interrupt ends as soon as it is taken. -/
  autoEnd : Bool
  mask : BitVec 8
  request : Nat → Bool
  service : Nat → Bool

namespace Chip

variable (c : Chip)

/-- The end of an interrupt: of the first input that is being served. -/
def endInterrupt : Chip :=
  match (List.range 8).find? c.service with
  | some i => { c with service := Function.update c.service i false }
  | none => c

/-- A word on the command port. The first word of the initialisation makes the chip start
afresh. -/
def command (w : BitVec 8) : Chip :=
  if w.getLsbD 4 then
    { c with
      stage := .vectorBase, single := w.getLsbD 1, short := !w.getLsbD 0, autoEnd := false,
      mask := 0, request := fun _ => false, service := fun _ => false }
  else if w = 0x20 then c.endInterrupt else c

/-- A word on the data port. -/
def data (w : BitVec 8) : Chip :=
  let last : Stage := if c.short then .ready else .mode
  match c.stage with
  | .vectorBase => { c with base := w &&& 0xf8, stage := if c.single then last else .cascade }
  | .cascade => { c with cascade := w, stage := last }
  | .mode => { c with autoEnd := w.getLsbD 1, stage := .ready }
  | .ready => { c with mask := w }

/-- The input has a request that may go through. -/
def reports (i : Nat) : Bool :=
  c.request i && !c.mask.getLsbD i && (List.range (i + 1)).all fun j => !c.service j

/-- The input that the chip's output stands for. -/
def next : Option Nat := if c.stage = .ready then (List.range 8).find? c.reports else none

/-- The processor takes the request of an input. -/
def serve (i : Nat) : Chip :=
  { c with
    request := Function.update c.request i false
    service := if c.autoEnd then c.service else Function.update c.service i true }

/-- The vector for an input. -/
def vector (i : Nat) : BitVec 8 := c.base + BitVec.ofNat 8 i

end Chip

/-! ### Two chips -/

/-- Two controllers, the second one behind an input of the first. -/
structure Pair where
  master : Chip
  slave : Chip

namespace Pair

variable (wire : Nat) (p : Pair)

/-- A device asks for an interrupt. -/
def raise (line : Nat) : Pair :=
  if line < 8 then { p with master := { p.master with
    request := Function.update p.master.request line true } }
  else { p with slave := { p.slave with
    request := Function.update p.slave.request (line - 8) true } }

/-- The master, with the slave's output on its input. -/
def inputs : Chip :=
  { p.master with request := Function.update p.master.request wire p.slave.next.isSome }

/-- The processor takes an interrupt, if there is one. With words for another input the slave
does not answer. -/
def acknowledge : Option (BitVec 8 × Pair) :=
  match (p.inputs wire).next with
  | none => none
  | some i =>
      if i ≠ wire then some (p.master.vector i, { p with master := p.master.serve i })
      else if p.master.cascade.getLsbD wire ∧ p.slave.cascade = BitVec.ofNat 8 wire then
        p.slave.next.map fun j =>
          (p.slave.vector j, ⟨p.master.serve wire, p.slave.serve j⟩)
      else none

/-- The vector for one of the fifteen inputs. -/
def vector (line : Nat) : BitVec 8 :=
  if line < 8 then p.master.vector line else p.slave.vector (line - 8)

/-- What its interrupt does to the chips. -/
def take (line : Nat) : Pair :=
  if line < 8 then { p with master := p.master.serve line }
  else ⟨p.master.serve wire, p.slave.serve (line - 8)⟩

/-- The end of its interrupt, as the processor has to tell it: the slave's to both chips. -/
def finish (line : Nat) : Pair :=
  let p := if line < 8 then p else { p with slave := p.slave.endInterrupt }
  { p with master := p.master.endInterrupt }

end Pair

/-! ### One queue with priorities -/

/-- The fifteen inputs at one place. -/
structure Desk where
  waiting : Nat → Bool
  masked : Nat → Bool
  /-- The inputs whose interrupts have not ended, the latest first. -/
  serving : List Nat

namespace Desk

variable (wire : Nat) (d : Desk)

/-- All inputs, the first one first. -/
def order : List Nat :=
  List.range wire ++ ((List.range 8).map (8 + ·) ++ List.range' (wire + 1) (7 - wire))

/-- An interrupt of the slave counts as one of the master's input `wire`. -/
def rank (line : Nat) : Nat := if line < 8 then line else wire

/-- The input waits, nothing masks it, and it comes before all that are being served. -/
def admits (line : Nat) : Bool :=
  d.waiting line && !d.masked line && (decide (line < 8) || !d.masked wire)
    && d.serving.all fun x => rank wire line < rank wire x

/-- The next interrupt. -/
def next : Option Nat := (order wire).find? (d.admits wire)

/-- A line asks for service. -/
def raise (line : Nat) : Desk := { d with waiting := Function.update d.waiting line true }

/-- A line is served from now on. -/
def take (line : Nat) : Desk :=
  { d with waiting := Function.update d.waiting line false, serving := line :: d.serving }

/-- The line that was taken last is done. -/
def finish : Desk := { d with serving := d.serving.tail }

end Desk

/-! ### The pair is such a queue -/

/-- The chip has all its words, and ends no interrupt by itself. -/
structure Chip.Ready (c : Chip) (base : BitVec 8) : Prop where
  stage : c.stage = .ready
  autoEnd : c.autoEnd = false
  base : c.base = base

/-- The chips are those of the queue. -/
structure Presents (wire : Nat) (base base' : BitVec 8) (p : Pair) (d : Desk) : Prop where
  master : p.master.Ready base
  slave : p.slave.Ready base'
  wired : p.master.cascade.getLsbD wire = true ∧ p.slave.cascade = BitVec.ofNat 8 wire
  requests : ∀ i, i < 8 → i ≠ wire → p.master.request i = d.waiting i
  requests' : ∀ j, j < 8 → p.slave.request j = d.waiting (8 + j)
  masks : ∀ i, i < 8 → p.master.mask.getLsbD i = d.masked i
  masks' : ∀ j, j < 8 → p.slave.mask.getLsbD j = d.masked (8 + j)
  serves : ∀ i, i < 8 → (p.master.service i = true ↔ ∃ l ∈ d.serving, Desk.rank wire l = i)
  serves' : ∀ j, j < 8 → (p.slave.service j = true ↔ 8 + j ∈ d.serving)
  /-- Each interrupt has come before those that it interrupts. -/
  nested : d.serving.Pairwise fun a b => Desk.rank wire a < Desk.rank wire b
  inputs : ∀ l ∈ d.serving, l < 16

section Desk

variable {wire : Nat} {base base' : BitVec 8} {p : Pair} {d : Desk}

/-- There are eight ranks. -/
theorem rank_lt (hw : wire < 8) (l : Nat) : Desk.rank wire l < 8 := by
  unfold Desk.rank
  split
  · assumption
  · exact hw

/-- The vectors of the inputs. -/
theorem Presents.vector (h : Presents wire base base' p d) (l : Nat) :
    p.vector l = if l < 8 then base + BitVec.ofNat 8 l else base' + BitVec.ofNat 8 (l - 8) := by
  rw [Pair.vector, Chip.vector, Chip.vector, h.master.base, h.slave.base]

/-- Nothing on the master keeps the input waiting. -/
theorem Presents.free (h : Presents wire base base' p d) {i : Nat} (hi : i < 8) :
    ((List.range (i + 1)).all fun j => !p.master.service j)
      = d.serving.all fun x => decide (i < Desk.rank wire x) := by
  rw [Bool.eq_iff_iff, List.all_eq_true, List.all_eq_true]
  constructor
  · intro hfree x hx
    rw [decide_eq_true_iff]
    by_contra hle
    have hbusy := (h.serves (Desk.rank wire x) (by omega)).mpr ⟨x, hx, rfl⟩
    have hnot := hfree _ (List.mem_range.mpr (show Desk.rank wire x < i + 1 by omega))
    rw [hbusy] at hnot
    cases hnot
  · intro hfree j hj
    rw [List.mem_range] at hj
    rw [Bool.not_eq_true']
    by_contra hbusy
    rw [Bool.not_eq_false, h.serves j (by omega)] at hbusy
    obtain ⟨x, hx, hrank⟩ := hbusy
    have hlt := of_decide_eq_true (hfree x hx)
    omega

/-- A device's input on the master. -/
theorem Presents.reports (h : Presents wire base base' p d) {i : Nat} (hi : i < 8) (hne : i ≠ wire) :
    (p.inputs wire).reports i = d.admits wire i := by
  have hrank : Desk.rank wire i = i := if_pos hi
  rw [Chip.reports, Desk.admits, Pair.inputs]
  dsimp only
  rw [Function.update_of_ne hne, h.requests i hi hne, h.masks i hi, h.free hi, hrank,
    decide_eq_true hi, Bool.true_or, Bool.and_true]

/-- A device's input on the slave, as long as nothing on the master is before it. -/
theorem Presents.reports_slave (h : Presents wire base base' p d)
    (hfree : (d.serving.all fun x => decide (wire < Desk.rank wire x)) = true) {j : Nat}
    (hj : j < 8) : p.slave.reports j = (d.waiting (8 + j) && !d.masked (8 + j)) := by
  have hidle : ((List.range (j + 1)).all fun k => !p.slave.service k) = true := by
    rw [List.all_eq_true]
    intro k hk
    rw [List.mem_range] at hk
    rw [Bool.not_eq_true']
    by_contra hbusy
    -- an interrupt of the slave counts as one of the wire
    rw [Bool.not_eq_false, h.serves' k (by omega)] at hbusy
    have hlt := of_decide_eq_true (List.all_eq_true.mp hfree _ hbusy)
    rw [Desk.rank, if_neg (by omega)] at hlt
    omega
  rw [Chip.reports, h.requests' j hj, h.masks' j hj, hidle, Bool.and_true]

/-- Two searches with one outcome. -/
theorem find?_congr {f g : Nat → Bool} {xs : List Nat} (h : ∀ x ∈ xs, f x = g x) :
    xs.find? f = xs.find? g := by
  induction xs with
  | nil => rfl
  | cons x xs ih =>
      rw [List.find?_cons, List.find?_cons, h x List.mem_cons_self,
        ih fun y hy => h y (List.mem_cons_of_mem _ hy)]

/-- The inputs of the master, around the one that the slave is wired to. -/
theorem range_eight : ∀ wire < 8,
    List.range 8 = List.range wire ++ wire :: List.range' (wire + 1) (7 - wire) := by
  decide

/-- The slave's inputs in the order of all inputs. -/
theorem Presents.find?_slave (h : Presents wire base base' p d) (hw : wire < 8) :
    ((List.range 8).map (8 + ·)).find? (d.admits wire)
      = if (p.inputs wire).reports wire then p.slave.next.map (8 + ·) else none := by
  have hrank : ∀ j, Desk.rank wire (8 + j) = wire := fun j => if_neg (by omega)
  have hreport : (p.inputs wire).reports wire = (p.slave.next.isSome && !d.masked wire
      -- What the slave reports through the wire.
      && d.serving.all fun x => decide (wire < Desk.rank wire x)) := by
    rw [Chip.reports, Pair.inputs]
    dsimp only
    rw [Function.update_self, h.masks wire hw, h.free hw]
  rw [hreport, List.find?_map]
  -- The wire is free when it is not masked, and nothing is in service at its rank or above.
  by_cases hgo : d.masked wire = false ∧
      (d.serving.all fun x => decide (wire < Desk.rank wire x)) = true
  · obtain ⟨hmask, hfree⟩ := hgo
    have hnext : p.slave.next = (List.range 8).find? (d.admits wire ∘ (8 + ·)) := by
      rw [Chip.next, if_pos h.slave.stage]
      refine find?_congr fun j hj => ?_
      rw [h.reports_slave hfree (List.mem_range.mp hj), Function.comp_apply, Desk.admits, hrank,
        hmask, hfree]
      simp
    rw [hmask, hfree, ← hnext]
    cases p.slave.next <;> rfl
  · -- On a wire that is not free none of the slave's lines is admitted.
    have hnone : (List.range 8).find? (d.admits wire ∘ (8 + ·)) = none := by
      rw [List.find?_eq_none]
      intro j _ hadmits
      rw [Function.comp_apply, Desk.admits, hrank] at hadmits
      simp only [Bool.and_eq_true, Bool.or_eq_true, decide_eq_true_eq,
        Bool.not_eq_eq_eq_not, Bool.not_true] at hadmits
      exact hgo ⟨hadmits.1.2.resolve_left (by omega), hadmits.2⟩
    rw [hnone, Option.map_none, if_neg]
    simp only [Bool.and_eq_true, Bool.not_eq_eq_eq_not, Bool.not_true, not_and]
    exact fun hsome hfree => hgo ⟨hsome.2, hfree⟩

/-- The processor gets the vector of the queue's next interrupt. -/
theorem acknowledge_desk (h : Presents wire base base' p d) (hw : wire < 8) :
    p.acknowledge wire = (d.next wire).map fun l => (p.vector l, p.take wire l) := by
  have hlow : ∀ xs : List Nat, (∀ i ∈ xs, i < 8 ∧ i ≠ wire) →
      xs.find? (p.inputs wire).reports = xs.find? (d.admits wire) := fun xs hxs =>
    find?_congr fun i hi => h.reports (hxs i hi).1 (hxs i hi).2
  have hbefore : ∀ i ∈ List.range wire, i < 8 ∧ i ≠ wire := by
    intro i hi
    rw [List.mem_range] at hi
    omega
  have hafter : ∀ i ∈ List.range' (wire + 1) (7 - wire), i < 8 ∧ i ≠ wire := by
    intro i hi
    rw [List.mem_range'_1] at hi
    omega
  -- a device's input on the master
  have hmaster : ∀ xs : List Nat, (∀ i ∈ xs, i < 8 ∧ i ≠ wire) → ∀ i,
      xs.find? (d.admits wire) = some i → i < 8 ∧ i ≠ wire := fun xs hxs i hi =>
    hxs i (List.mem_of_find?_eq_some hi)
  have hanswer : ∀ i, i < 8 → (p.vector i, p.take wire i)
      = (p.master.vector i, { p with master := p.master.serve i }) := by
    intro i hi
    rw [Pair.vector, Pair.take, if_pos hi, if_pos hi]
  have hstage : (p.inputs wire).stage = .ready := h.master.stage
  rw [Pair.acknowledge, Chip.next, if_pos hstage, range_eight wire hw, List.find?_append,
    List.find?_cons, hlow _ hbefore, hlow _ hafter, Desk.next, Desk.order, List.find?_append,
    List.find?_append, h.find?_slave hw]
  cases hfirst : (List.range wire).find? (d.admits wire) with
  | some i =>
      obtain ⟨hi, hne⟩ := hmaster _ hbefore i hfirst
      simp only [Option.some_or, Option.map_some, hanswer i hi]
      rw [if_pos hne]
  | none =>
      simp only [Option.none_or]
      cases hwire : (p.inputs wire).reports wire with
      | true =>
          simp only [if_true]
          rw [if_neg (by simp), if_pos h.wired]
          have hsome : p.slave.next.isSome = true := by
            rw [Chip.reports, Pair.inputs] at hwire
            dsimp only at hwire
            rw [Function.update_self] at hwire
            simp only [Bool.and_eq_true] at hwire
            exact hwire.1.1
          obtain ⟨j, hj⟩ := Option.isSome_iff_exists.mp hsome
          rw [hj, Option.map_some, Option.map_some, Option.some_or, Option.map_some, Pair.vector,
            Pair.take, if_neg (by omega), if_neg (by omega), Nat.add_sub_cancel_left]
      | false =>
          simp only [Bool.false_eq_true, if_false, Option.none_or]
          cases hlast : (List.range' (wire + 1) (7 - wire)).find? (d.admits wire) with
          | none => rfl
          | some i =>
              obtain ⟨hi, hne⟩ := hmaster _ hafter i hlast
              simp only [Option.map_some, hanswer i hi]
              rw [if_pos hne]

/-! ### What changes the queue -/

/-- A request is one on both sides, ... -/
theorem presents_raise (h : Presents wire base base' p d) (line : Nat) :
    Presents wire base base' (p.raise line) (d.raise line) := by
  unfold Pair.raise Desk.raise
  by_cases hl : line < 8
  -- A line of the master is an input of its own chip.
  case pos =>
    rw [if_pos hl]
    refine { h with
      master := ⟨h.master.stage, h.master.autoEnd, h.master.base⟩
      requests := fun i hi hne => ?_
      requests' := fun j hj => ?_ }
    · by_cases heq : i = line
      · subst heq
        simp only [Function.update_self]
      · simp only [Function.update_of_ne heq]
        exact h.requests i hi hne
    · simp only [Function.update_of_ne (show 8 + j ≠ line by omega)]
      exact h.requests' j hj
  -- A line of the slave is the input `line - 8` of the other one.
  case neg =>
    rw [if_neg hl]
    refine { h with
      slave := ⟨h.slave.stage, h.slave.autoEnd, h.slave.base⟩
      requests := fun i hi hne => ?_
      requests' := fun j hj => ?_ }
    · simp only [Function.update_of_ne (show i ≠ line by omega)]
      exact h.requests i hi hne
    · by_cases heq : j = line - 8
      · subst heq
        simp only [Nat.add_sub_cancel' (Nat.le_of_not_lt hl), Function.update_self]
      · simp only [Function.update_of_ne heq, Function.update_of_ne (show 8 + j ≠ line by omega)]
        exact h.requests' j hj

/-- A chip that takes an input has it in service, with those that it had before. -/
theorem Chip.serve_service {c : Chip} (h : c.Ready base) (i j : Nat) :
    (c.serve i).service j = true ↔ j = i ∨ c.service j = true := by
  rw [Chip.serve]
  dsimp only
  rw [h.autoEnd, if_neg (by simp)]
  by_cases hji : j = i
  · subst hji
    simp
  · simp [hji]

/-- What the queue has next. -/
theorem Desk.of_next (hw : wire < 8) {l : Nat} (hnext : d.next wire = some l) :
    l < 16 ∧ l ≠ wire ∧ ∀ x ∈ d.serving, Desk.rank wire l < Desk.rank wire x := by
  have hmem := List.mem_of_find?_eq_some hnext
  have hadmits := List.find?_some hnext
  simp only [Desk.order, List.mem_append, List.mem_range, List.mem_map, List.mem_range'_1]
    at hmem
  simp only [Desk.admits, Bool.and_eq_true, List.all_eq_true, decide_eq_true_eq] at hadmits
  refine ⟨?_, ?_, hadmits.2⟩
  · rcases hmem with hmem | ⟨j, hj, rfl⟩ | hmem <;> omega
  · rcases hmem with hmem | ⟨j, hj, rfl⟩ | hmem <;> omega

/-- ... and so is taking the next line ... -/
theorem presents_take (h : Presents wire base base' p d) (hw : wire < 8) {l : Nat}
    (hnext : d.next wire = some l) : Presents wire base base' (p.take wire l) (d.take l) := by
  obtain ⟨hlt, hne, hfirst⟩ := Desk.of_next hw hnext
  have hnested : (l :: d.serving).Pairwise fun a b => Desk.rank wire a < Desk.rank wire b :=
    List.pairwise_cons.mpr ⟨hfirst, h.nested⟩
  have hinputs : ∀ x ∈ l :: d.serving, x < 16 := by
    intro x hx
    rcases List.mem_cons.mp hx with rfl | hx
    · exact hlt
    · exact h.inputs x hx
  -- the master serves the input itself, or the wire
  have hserves : ∀ i, i < 8 → ((p.master.serve (Desk.rank wire l)).service i = true
      ↔ ∃ x ∈ l :: d.serving, Desk.rank wire x = i) := by
    intro i hi
    rw [Chip.serve_service h.master, h.serves i hi, List.exists_mem_cons_iff, eq_comm]
  unfold Pair.take Desk.take
  by_cases hl : l < 8
  case pos =>
    rw [Desk.rank, if_pos hl] at hserves
    rw [if_pos hl]
    refine { h with
      master := ⟨h.master.stage, h.master.autoEnd, h.master.base⟩
      requests := fun i hi hiw => ?_
      requests' := fun j hj => ?_
      serves := hserves
      serves' := fun j hj => ?_
      nested := hnested
      inputs := hinputs }
    · by_cases heq : i = l
      · subst heq
        simp only [Chip.serve, Function.update_self]
      · simp only [Chip.serve, Function.update_of_ne heq]
        exact h.requests i hi hiw
    · simp only [Function.update_of_ne (show 8 + j ≠ l by omega)]
      exact h.requests' j hj
    · rw [h.serves' j hj, List.mem_cons]
      exact (or_iff_right (show 8 + j ≠ l by omega)).symm
  case neg =>
    rw [Desk.rank, if_neg hl] at hserves
    rw [if_neg hl]
    refine { h with
      master := ⟨h.master.stage, h.master.autoEnd, h.master.base⟩
      slave := ⟨h.slave.stage, h.slave.autoEnd, h.slave.base⟩
      requests := fun i hi hiw => ?_
      requests' := fun j hj => ?_
      serves := hserves
      serves' := fun j hj => ?_
      nested := hnested
      inputs := hinputs }
    · simp only [Chip.serve, Function.update_of_ne hiw,
        Function.update_of_ne (show i ≠ l by omega)]
      exact h.requests i hi hiw
    · by_cases heq : j = l - 8
      · subst heq
        simp only [Chip.serve, Nat.add_sub_cancel' (Nat.le_of_not_lt hl), Function.update_self]
      · simp only [Chip.serve, Function.update_of_ne heq,
          Function.update_of_ne (show 8 + j ≠ l by omega)]
        exact h.requests' j hj
    · rw [Chip.serve_service h.slave, h.serves' j hj, List.mem_cons]
      exact or_congr_left (by omega)

/-- The interrupt that ends is the first one of the chip. -/
theorem Chip.endInterrupt_service {c : Chip} {i : Nat} (hi : i < 8) (hserved : c.service i = true)
    (hfirst : ∀ j, j < 8 → c.service j = true → i ≤ j) :
    c.endInterrupt = { c with service := Function.update c.service i false } := by
  have hfind : (List.range 8).find? c.service = some i := by
    rw [List.find?_range_eq_some]
    refine ⟨hserved, List.mem_range.mpr hi, fun j hj => ?_⟩
    rw [Bool.not_eq_true']
    by_contra hbusy
    have hle := hfirst j (by omega) (by simpa using hbusy)
    omega
  rw [Chip.endInterrupt, hfind]

/-- ... and finishing it. -/
theorem presents_finish (h : Presents wire base base' p d) (hw : wire < 8) {l : Nat} {rest : List Nat}
    (hserving : d.serving = l :: rest) : Presents wire base base' (p.finish l) d.finish := by
  have hnested := h.nested
  rw [hserving, List.pairwise_cons] at hnested
  obtain ⟨hbefore, hrest⟩ := hnested
  have hl16 : l < 16 := h.inputs l (by rw [hserving]; exact List.mem_cons_self)
  have hserves := h.serves
  have hserves' := h.serves'
  rw [hserving] at hserves hserves'
  -- the master's first input in service is the one of `l`
  have hmaster : p.master.endInterrupt = { p.master with
      service := Function.update p.master.service (Desk.rank wire l) false } := by
    refine Chip.endInterrupt_service (rank_lt hw l)
      ((hserves _ (rank_lt hw l)).mpr ⟨l, List.mem_cons_self, rfl⟩) fun j hj hbusy => ?_
    obtain ⟨x, hx, rfl⟩ := (hserves j hj).mp hbusy
    rcases List.mem_cons.mp hx with rfl | hx
    · exact Nat.le_refl _
    · exact Nat.le_of_lt (hbefore x hx)
  have hafter : ∀ i, i < 8 →
      (Function.update p.master.service (Desk.rank wire l) false i = true
        ↔ ∃ x ∈ rest, Desk.rank wire x = i) := by
    intro i hi
    by_cases heq : i = Desk.rank wire l
    · subst heq
      rw [Function.update_self]
      simp only [Bool.false_eq_true, false_iff, not_exists, not_and]
      exact fun x hx heq => Nat.lt_irrefl _ (heq ▸ hbefore x hx)
    · rw [Function.update_of_ne heq, hserves i hi, List.exists_mem_cons_iff]
      exact or_iff_right fun h => heq h.symm
  have hinputs : ∀ x ∈ rest, x < 16 := fun x hx =>
    h.inputs x (by rw [hserving]; exact List.mem_cons_of_mem _ hx)
  have hd : d.finish = { d with serving := rest } := by rw [Desk.finish, hserving, List.tail_cons]
  unfold Pair.finish
  dsimp only
  rw [hd]
  by_cases hl : l < 8
  case pos =>
    rw [if_pos hl, hmaster]
    refine { h with
      master := ⟨h.master.stage, h.master.autoEnd, h.master.base⟩
      serves := hafter
      serves' := fun j hj => ?_
      nested := hrest
      inputs := hinputs }
    rw [hserves' j hj, List.mem_cons]
    exact or_iff_right (show 8 + j ≠ l by omega)
  case neg =>
    have hwire : Desk.rank wire l = wire := if_neg hl
    -- no other interrupt of the slave is being served
    have hslave : ∀ j, j < 8 → 8 + j ∉ rest := by
      intro j hj hmem
      have hlt := hbefore _ hmem
      rw [hwire, Desk.rank, if_neg (by omega)] at hlt
      omega
    have hend : p.slave.endInterrupt = { p.slave with
        service := Function.update p.slave.service (l - 8) false } := by
      refine Chip.endInterrupt_service (by omega) ((hserves' _ (by omega)).mpr ?_)
        fun j hj hbusy => ?_
      · rw [Nat.add_sub_cancel' (Nat.le_of_not_lt hl)]
        exact List.mem_cons_self
      · rcases List.mem_cons.mp ((hserves' j hj).mp hbusy) with heq | hmem
        · omega
        · exact absurd hmem (hslave j hj)
    rw [if_neg hl, hmaster, hend]
    refine { h with
      master := ⟨h.master.stage, h.master.autoEnd, h.master.base⟩
      slave := ⟨h.slave.stage, h.slave.autoEnd, h.slave.base⟩
      serves := hafter
      serves' := fun j hj => ?_
      nested := hrest
      inputs := hinputs }
    by_cases heq : j = l - 8
    · subst heq
      simp only [Function.update_self, Bool.false_eq_true, false_iff]
      exact hslave _ hj
    · simp only [Function.update_of_ne heq]
      rw [hserves' j hj, List.mem_cons]
      exact or_iff_right (show 8 + j ≠ l by omega)

/-- New masks. -/
theorem presents_mask (h : Presents wire base base' p d) {mask mask' : BitVec 8} {masked : Nat → Bool}
    (hmask : ∀ i, i < 8 → mask.getLsbD i = masked i)
    (hmask' : ∀ j, j < 8 → mask'.getLsbD j = masked (8 + j)) :
    Presents wire base base' ⟨{ p.master with mask := mask }, { p.slave with mask := mask' }⟩
      { d with masked := masked } :=
  { h with
    master := ⟨h.master.stage, h.master.autoEnd, h.master.base⟩
    slave := ⟨h.slave.stage, h.slave.autoEnd, h.slave.base⟩
    masks := hmask
    masks' := hmask' }

end Desk

end Pic
