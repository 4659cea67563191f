import MString.Eza.Interrupt

/-!
# `MString.Proofs.Eza.Interrupt`: registered actions and their descriptors

`Lines` is the invariant of the interrupt code: the actions of every line are a ring
of descriptors, no descriptor is on two lines, and all of them have been handed out.
Every call that returns keeps it (`registerController_lines`, `registerIrq_ok`,
`unregisterIrq_unmatched`), and under it `doIrq_lines` reads off what an interrupt
calls.

Two things go wrong. `unregister_irq` follows the pointer of the entry it has just
removed, which `list_del` has poisoned (`unregisterIrq_matched`). And `register_irq`
takes a descriptor past the array, or the null controller of its line, for granted.

* `irqRun_behaves_iff`: when the calls of a run do what they are registered for.
* `irqRun_safe_iff`: when its registrations stay inside the descriptor array.
-/

set_option autoImplicit false

namespace MString

/-- The descriptors on the list of a line, in order. -/
def ActionsOn (s : IrqState) (irq : Nat) (ds : List Nat) : Prop :=
  Ring.IsRing s.links (.actions irq) (ds.map .action)

/-- The actions of all lines: `L irq` are the descriptors on the line `irq`. -/
structure Lines (s : IrqState) (L : Nat → List Nat) : Prop where
  ring : ∀ i, i < NUM_IRQS → ActionsOn s i (L i)
  nodup : ∀ i, i < NUM_IRQS → (L i).Nodup
  used : ∀ i, i < NUM_IRQS → ∀ d ∈ L i, d < s.idx
  disjoint : ∀ i j, i < NUM_IRQS → j < NUM_IRQS → i ≠ j → ∀ d ∈ L i, d ∉ L j
  bound : s.idx ≤ NUM_IRQ_ACTIONS
  known : ∃ x, s.links.next .knownHwIntControllers = some x ∧
    (x = .knownHwIntControllers ∨ ∃ c, x = .controller c)

section Rings

variable {s : IrqState} {L : Nat → List Nat} {irq : Nat}

/-- A line's head and its actions are different nodes. -/
theorem nodup_actions {ds : List Nat} (h : ds.Nodup) :
    (IrqPtr.actions irq :: ds.map IrqPtr.action).Nodup := by
  refine List.nodup_cons.mpr ⟨by simp, ?_⟩
  exact h.map fun a b hab => by simpa using hab

/-- A line has one list. -/
theorem ActionsOn.unique {ds es : List Nat} (h : ActionsOn s irq ds) (h' : ActionsOn s irq es) :
    ds = es := by
  have heq := Ring.IsRing.unique h h' (by simp) (by simp)
  exact List.map_injective_iff.mpr (fun a b hab => by simpa using hab) heq

/-- The last list head of a line is its own. -/
theorem getLast_actions (ds : List Nat) :
    (IrqPtr.actions irq :: ds.map IrqPtr.action).getLast (by simp) = .actions irq ∨
      ∃ d ∈ ds, (IrqPtr.actions irq :: ds.map IrqPtr.action).getLast (by simp) = .action d := by
  rcases List.mem_cons.mp (List.getLast_mem (l := IrqPtr.actions irq :: ds.map IrqPtr.action)
    (by simp)) with h | h
  · exact .inl h
  · obtain ⟨d, hd, hlast⟩ := List.mem_map.mp h
    exact .inr ⟨d, hd, hlast.symm⟩

/-- A list head that is no line's is on no line. -/
theorem ActionsOn.frame {s' : IrqState} {ds : List Nat} (h : ActionsOn s irq ds)
    (hnext : ∀ x ∈ IrqPtr.actions irq :: ds.map IrqPtr.action, s'.links.next x = s.links.next x)
    (hprev : ∀ x ∈ IrqPtr.actions irq :: ds.map IrqPtr.action, s'.links.prev x = s.links.prev x) :
    ActionsOn s' irq ds := Ring.IsRing.congr h hnext hprev

end Rings

/-! ### Registering a controller -/

section Controller

variable {s : IrqState} {L : Nat → List Nat} {ctrl : HwInterruptController}

/-- Registering a controller touches no line and takes no line's controller away. -/
theorem registerController_lines (h : Lines s L) :
    ∃ s', registerHwInterruptController ctrl s = .ok s' ∧ Lines s' L ∧ s'.idx = s.idx ∧
      s'.descs = s.descs ∧ ∀ i, (s.controllers i).isSome → (s'.controllers i).isSome := by
  obtain ⟨x, hx, hkind⟩ := h.known
  have hadd : listAdd s.links (.controller ctrl.address) .knownHwIntControllers
      = .ok (s.links.insert (.controller ctrl.address) .knownHwIntControllers x) := by
    rw [listAdd, hx]
    rfl
  simp only [registerHwInterruptController, hadd, Loop.ok_bind]
  refine ⟨_, rfl, ⟨fun i hi => ?_, h.nodup, h.used, h.disjoint, h.bound, ?_⟩, rfl, rfl, ?_⟩
  · have hxline : x ∉ IrqPtr.actions i :: (L i).map IrqPtr.action := by
      rcases hkind with rfl | ⟨c, rfl⟩ <;> simp
    exact Ring.IsRing.insert_frame (h.ring i hi) (by simp) (by simp) hxline
  · exact ⟨.controller ctrl.address, by simp [Ring.Links.insert], .inr ⟨_, rfl⟩⟩
  · intro i hi
    dsimp only
    split
    · rfl
    · exact hi

end Controller

/-! ### Registering an action -/

section Register

variable {s : IrqState} {L : Nat → List Nat} {irq : Irq} {handler data : Uintptr}
  {flags : BitVec 32}

/-- The next descriptor is on no line. -/
theorem Lines.fresh (h : Lines s L) : ∀ i, i < NUM_IRQS → s.idx ∉ L i :=
  fun i hi hm => Nat.lt_irrefl _ (h.used i hi _ hm)

/-- What is on a line after an action was appended to one. -/
theorem mem_appended {i j d e : Nat} (hd : d ∈ Function.update L i (L i ++ [e]) j) :
    d ∈ L j ∨ j = i ∧ d = e := by
  by_cases heq : j = i
  · subst heq
    rw [Function.update_self, List.mem_append, List.mem_singleton] at hd
    exact hd.imp id fun hd => ⟨rfl, hd⟩
  · rw [Function.update_of_ne heq] at hd
    exact .inl hd

/-- The lists of all lines, with an unused descriptor at the end of one, have no
descriptor twice. -/
theorem Lines.appended_nodup (h : Lines s L) (hirq : irq.toNat < NUM_IRQS) :
    ∀ i, i < NUM_IRQS →
      (Function.update L irq.toNat (L irq.toNat ++ [s.idx]) i).Nodup := by
  intro i hi
  by_cases heq : i = irq.toNat
  · subst heq
    rw [Function.update_self, List.nodup_append]
    refine ⟨h.nodup _ hirq, by simp, fun a ha b hb hab => ?_⟩
    rw [List.mem_singleton] at hb
    exact h.fresh _ hirq (by rw [← hb, ← hab]; exact ha)
  · rw [Function.update_of_ne heq]
    exact h.nodup i hi

/-- The lines stay apart when the next descriptor goes to one of them. -/
theorem Lines.appended_disjoint (h : Lines s L) :
    ∀ i j, i < NUM_IRQS → j < NUM_IRQS → i ≠ j →
      ∀ d ∈ Function.update L irq.toNat (L irq.toNat ++ [s.idx]) i,
        d ∉ Function.update L irq.toNat (L irq.toNat ++ [s.idx]) j := by
  intro i j hi hj hij d hd hd'
  rcases mem_appended hd with hd | ⟨rfl, rfl⟩
  · rcases mem_appended hd' with hd' | ⟨rfl, rfl⟩
    · exact h.disjoint i j hi hj hij d hd hd'
    · exact h.fresh i hi hd
  · rcases mem_appended hd' with hd' | ⟨rfl, -⟩
    · exact h.fresh j hj hd'
    · exact hij rfl

/-- A descriptor that is still unused is put at the end of the list of its line. -/
theorem install_lines (h : Lines s L) (hirq : irq.toNat < NUM_IRQS) (hidx : s.idx < NUM_IRQ_ACTIONS)
    (action : IrqAction) :
    ∃ s', installIrqAction irq.toNat s.idx
        { s with
          links := initListHead s.links (.action s.idx)
          idx := s.idx + 1
          descs := Function.update s.descs s.idx action } = .ok s' ∧
      Lines s' (Function.update L irq.toNat (L irq.toNat ++ [s.idx])) ∧ s'.idx = s.idx + 1 ∧
      s'.descs = Function.update s.descs s.idx action ∧ s'.controllers = s.controllers := by
  -- The new list head is on no line, so initialising it changes none.
  have hinit : ∀ i, i < NUM_IRQS →
      Ring.IsRing (initListHead s.links (.action s.idx)) (.actions i) ((L i).map .action) := by
    intro i hi
    have hne : ∀ x ∈ IrqPtr.actions i :: (L i).map IrqPtr.action, x ≠ .action s.idx := by
      intro x hx heq
      rw [heq] at hx
      exact h.fresh i hi (by simpa using hx)
    exact Ring.IsRing.congr (h.ring i hi) (fun x hx => by simp [initListHead, hne x hx])
      (fun x hx => by simp [initListHead, hne x hx])
  have hnew : IrqPtr.action s.idx ∉ IrqPtr.actions irq.toNat :: (L irq.toNat).map .action := by
    simpa using h.fresh _ hirq
  simp only [installIrqAction, listAddTail_ring (hinit _ hirq), Loop.ok_bind]
  refine ⟨_, rfl, ⟨fun i hi => ?_, h.appended_nodup hirq, fun i hi d hd => ?_,
    h.appended_disjoint, hidx, ?_⟩, rfl, rfl, rfl⟩
  · by_cases heq : i = irq.toNat
    · subst heq
      rw [Function.update_self, ActionsOn, List.map_append]
      exact Ring.ring_insert (hinit _ hirq) (nodup_actions (h.nodup _ hirq)) hnew
    · rw [Function.update_of_ne heq]
      -- The last entry of the changed line is on no other line.
      have hlast : (IrqPtr.actions irq.toNat :: (L irq.toNat).map IrqPtr.action).getLast (by simp)
          ∉ IrqPtr.actions i :: (L i).map IrqPtr.action := by
        rcases @getLast_actions irq.toNat (L irq.toNat) with hl | ⟨d, hd, hl⟩
        · rw [hl]
          simpa using fun h => heq h.symm
        · rw [hl]
          simpa using h.disjoint _ _ hirq hi (fun h => heq h.symm) d hd
      refine Ring.IsRing.insert_frame (hinit i hi) ?_ hlast ?_
      · simpa using h.fresh i hi
      · simpa using fun h => heq h.symm
  · rcases mem_appended hd with hd | ⟨-, rfl⟩
    · exact Nat.lt_succ_of_lt (h.used i hi d hd)
    · exact Nat.lt_succ_self _
  · obtain ⟨x, hx, hkind⟩ := h.known
    refine ⟨x, ?_, hkind⟩
    have hlast : (IrqPtr.actions irq.toNat :: (L irq.toNat).map IrqPtr.action).getLast (by simp)
        ≠ IrqPtr.knownHwIntControllers := by
      rcases @getLast_actions irq.toNat (L irq.toNat) with hl | ⟨d, -, hl⟩ <;> rw [hl] <;> simp
    simp [Ring.Links.insert, initListHead, hlast.symm, hx]

/-- `register_irq` with a descriptor to spare and a controller on the line. -/
theorem registerIrq_ok (h : Lines s L) (hirq : irq.toNat < NUM_IRQS) (hhandler : handler ≠ 0)
    (hidx : s.idx < NUM_IRQ_ACTIONS) (hctrl : (s.controllers irq.toNat).isSome) :
    ∃ s', registerIrq irq handler data flags s = .ok (0, s') ∧
      Lines s' (Function.update L irq.toNat (L irq.toNat ++ [s.idx])) ∧ s'.idx = s.idx + 1 ∧
      s'.descs = Function.update s.descs s.idx ⟨handler, flags, data⟩ ∧
      s'.controllers = s.controllers := by
  obtain ⟨s', hrun, hlines, hs', hdescs, hcontrollers⟩ :=
    install_lines h hirq hidx ⟨handler, flags, data⟩
  obtain ⟨ctrl, hctrl⟩ := Option.isSome_iff_exists.mp hctrl
  refine ⟨s', ?_, hlines, hs', hdescs, hcontrollers⟩
  simp only [registerIrq, hirq, hhandler, ne_eq, not_false_eq_true, and_self, if_true,
    allocateIrqAction, hidx, Loop.ok_bind, hrun, hcontrollers, hctrl]
  rfl

/-- Without a descriptor to spare, the next one lies past the array. -/
theorem registerIrq_exhausted (hirq : irq.toNat < NUM_IRQS) (hhandler : handler ≠ 0)
    (hidx : ¬ s.idx < NUM_IRQ_ACTIONS) :
    registerIrq irq handler data flags s = .error (.outOfBounds s.idx) := by
  simp only [registerIrq, hirq, hhandler, ne_eq, not_false_eq_true, and_self, if_true,
    allocateIrqAction, hidx, if_false]
  rfl

/-- Without a controller, the one that is asked to enable the line is null. -/
theorem registerIrq_uncontrolled (h : Lines s L) (hirq : irq.toNat < NUM_IRQS)
    (hhandler : handler ≠ 0) (hidx : s.idx < NUM_IRQ_ACTIONS)
    (hctrl : s.controllers irq.toNat = none) :
    registerIrq irq handler data flags s = .error (.pageFault ENABLE_IRQ_OFFSET) := by
  obtain ⟨s', hrun, -, -, -, hcontrollers⟩ := install_lines h hirq hidx ⟨handler, flags, data⟩
  simp only [registerIrq, hirq, hhandler, ne_eq, not_false_eq_true, and_self, if_true,
    allocateIrqAction, hidx, Loop.ok_bind, hrun, hcontrollers, hctrl]

/-- Arguments that are refused change nothing. -/
theorem registerIrq_refused (h : ¬ (irq.toNat < NUM_IRQS ∧ handler ≠ 0)) :
    registerIrq irq handler data flags s = .ok (-EINVAL, s) := if_neg h

end Register

/-! ### Removing actions -/

section Unregister

variable {s : IrqState} {L : Nat → List Nat} {irq : Irq} {data : Uintptr}

/-- At an action, `unregister_irq` compares its data and removes it. -/
theorem unregisterEntry_action (data : Uintptr) (d : Nat) (s : IrqState) :
    unregisterEntry data (.action d) s
      = if (s.descs d).privateData = data then removeIrqAction d s else .ok s := rfl

/-- Entries with other data are passed. -/
theorem foldlM_unregisterEntry (ds : List Nat) (h : ∀ d ∈ ds, (s.descs d).privateData ≠ data) :
    (ds.map IrqPtr.action).foldlM (fun s x => unregisterEntry data x s) s = .ok s := by
  induction ds with
  | nil => rfl
  | cons d ds ih =>
      rw [List.map_cons, List.foldlM_cons, unregisterEntry_action, if_neg (h d (by simp)),
        Loop.ok_bind]
      exact ih fun e he => h e (by simp [he])

/-- Over actions with other data it passes. -/
theorem unregisterEntry_passes {ds : List Nat} (h : ∀ d ∈ ds, (s.descs d).privateData ≠ data) :
    Passes IrqState.links (unregisterEntry data) (Eq s) (ds.map .action) := by
  rintro x hx t t' rfl hrun
  obtain ⟨d, hd, rfl⟩ := List.mem_map.mp hx
  rw [unregisterEntry_action, if_neg (h d hd)] at hrun
  cases hrun
  exact ⟨rfl, rfl⟩

/-- The turns of a loop over one line. -/
theorem Lines.length_lt (h : Lines s L) {i : Nat} (hi : i < NUM_IRQS) :
    (L i).length < TURNS := by
  -- The descriptors of a line are different numbers below 128.
  have hsub : L i ⊆ List.range NUM_IRQ_ACTIONS := fun d hd =>
    List.mem_range.mpr (Nat.lt_of_lt_of_le (h.used i hi d hd) h.bound)
  have hle := (h.nodup i hi).length_le_of_subset hsub
  rw [List.length_range, NUM_IRQ_ACTIONS] at hle
  unfold TURNS
  omega

/-- Without an action of that data, nothing happens, and the answer is an error. -/
theorem unregisterIrq_unmatched (h : Lines s L) (hirq : irq.toNat < NUM_IRQS)
    (hdata : ∀ d ∈ L irq.toNat, (s.descs d).privateData ≠ data) :
    unregisterIrq irq data s = .ok (-EINVAL, s) := by
  have hloop := listForEachEntry_ring (h.ring _ hirq) (by simp)
    (by rw [List.length_map]; exact h.length_lt hirq) rfl (unregisterEntry_passes hdata)
  rw [unregisterIrq, if_pos hirq, hloop, foldlM_unregisterEntry _ hdata]
  rfl

/-- With one, the loop goes on from the entry it has just removed. -/
theorem unregisterIrq_matched (h : Lines s L) (hirq : irq.toNat < NUM_IRQS) {d : Nat}
    (hd : d ∈ L irq.toNat) (hdata : (s.descs d).privateData = data) :
    unregisterIrq irq data s = .error (.pageFault LIST_POISON1) := by
  -- Split the list at the first match.
  obtain ⟨e, us, vs, hsplit, he, hus⟩ : ∃ e us vs, L irq.toNat = us ++ e :: vs ∧
      (s.descs e).privateData = data ∧ ∀ x ∈ us, (s.descs x).privateData ≠ data := by
    obtain ⟨e, he⟩ := Option.isSome_iff_exists.mp (List.find?_isSome
      (p := fun x => decide ((s.descs x).privateData = data)) |>.mpr ⟨d, hd, decide_eq_true hdata⟩)
    obtain ⟨hp, us, vs, hsplit, hus⟩ := List.find?_eq_some_iff_append.mp he
    exact ⟨e, us, vs, hsplit, by simpa using hp, fun x hx => by simpa using hus x hx⟩
  have hring := h.ring _ hirq
  rw [ActionsOn, hsplit, List.map_append, List.map_cons] at hring
  have hlen := h.length_lt hirq
  rw [hsplit, List.length_append, List.length_cons] at hlen
  have hdel := listDel_ring hring
  have hbody : unregisterEntry data (.action e) s = .ok { s with
      links := s.links.unlink (.action e)
        ((IrqPtr.actions irq.toNat :: us.map IrqPtr.action).getLast (by simp))
        ((vs.map IrqPtr.action).headD (.actions irq.toNat)) } := by
    rw [unregisterEntry_action, if_pos he, removeIrqAction, hdel]
    rfl
  have hloop := listForEachEntry_poisoned hring (by simp) (by rw [List.length_map]; omega) rfl
    (unregisterEntry_passes hus) (foldlM_unregisterEntry _ hus) hbody (by simp [Ring.Links.unlink])
  rw [unregisterIrq, if_pos hirq, hloop]
  rfl

end Unregister

/-! ### Dispatch -/

section Dispatch

variable {s : IrqState} {L : Nat → List Nat} {irq : Irq}

/-- The call of one action. -/
def callOf (descs : Nat → IrqAction) (d : Nat) : IrqCall :=
  .handler (descs d).handler (descs d).privateData

/-- The calls of the actions of a line, in their order. -/
theorem foldlM_doIrqEntry (s : IrqState) (ds : List Nat) :
    ∀ calls : List IrqCall, (ds.map IrqPtr.action).foldlM (fun s x => doIrqEntry x s) (s, calls)
      = .ok (s, calls ++ ds.map (callOf s.descs)) := by
  induction ds with
  | nil => intro calls; rw [List.map_nil, List.map_nil, List.append_nil]; rfl
  | cons d ds ih =>
      intro calls
      rw [List.map_cons, List.foldlM_cons]
      show (ds.map IrqPtr.action).foldlM (fun s x => doIrqEntry x s)
        (s, calls ++ [callOf s.descs d]) = _
      rw [ih, List.map_cons, List.append_assoc, List.singleton_append]

/-- Calling an action changes no list. -/
theorem doIrqEntry_passes (qs : List IrqPtr) :
    Passes (fun s : IrqState × List IrqCall => s.1.links) doIrqEntry (fun _ => True) qs := by
  intro x _ t t' _ hrun
  cases x with
  | action d =>
      cases hrun
      exact ⟨trivial, rfl⟩
  | actions i => cases hrun
  | knownHwIntControllers => cases hrun
  | controller c => cases hrun

/-- An interrupt on a line with a controller is counted and calls the handlers of its actions
in order, and then the controller. -/
theorem doIrq_eq (h : Lines s L) (hirq : irq.toNat < NUM_IRQS)
    (hctrl : (s.controllers irq.toNat).isSome) :
    doIrq irq s = .ok ((L irq.toNat).map (callOf s.descs) ++ [.ackIrq (irq.setWidth 32)] ++
        (if L irq.toNat = [] then [.spurious irq] else []),
      { s with
        irqStat := Function.update s.irqStat irq.toNat (s.irqStat irq.toNat + 1) }) := by
  obtain ⟨ctrl, hctrl⟩ := Option.isSome_iff_exists.mp hctrl
  have hloop := @listForEachEntry_ring _ _ _ _ _ (fun s : IrqState × List IrqCall => s.1.links)
    doIrqEntry _ ({ s with
      irqStat := Function.update s.irqStat irq.toNat (s.irqStat irq.toNat + 1) }, [])
    (h.ring _ hirq) (by simp) (by rw [List.length_map]; exact h.length_lt hirq) trivial
    (doIrqEntry_passes _)
  rw [foldlM_doIrqEntry, List.nil_append] at hloop
  simp only [doIrq, hirq, if_true, hloop, Loop.ok_bind, hctrl, List.length_map, gt_iff_lt]
  cases hL : L irq.toNat with
  | nil => rfl
  | cons d ds => simp [pure, Except.pure]

/-- `do_irq` calls the handlers of its line and acknowledges it. A line without handlers is
reported. -/
theorem doIrq_lines (h : Lines s L) (hirq : irq.toNat < NUM_IRQS)
    (hctrl : (s.controllers irq.toNat).isSome) :
    ∃ s', doIrq irq s = .ok ((L irq.toNat).map (callOf s.descs) ++ [.ackIrq (irq.setWidth 32)] ++
      (if L irq.toNat = [] then [.spurious irq] else []), s') :=
  ⟨_, doIrq_eq h hirq hctrl⟩

end Dispatch

/-! ### Histories of registrations -/

/-- The handlers with their data that are registered on each line, in order. -/
abbrev Registered := Nat → List (Uintptr × Uintptr)

/-- What a call makes of the registrations. -/
def IrqOp.apply : IrqOp → Registered → Registered
  | .registerController _, reg => reg
  | .register irq handler data _, reg =>
      if irq.toNat < NUM_IRQS ∧ handler ≠ 0 then
        Function.update reg irq.toNat (reg irq.toNat ++ [(handler, data)])
      else reg
  | .unregister irq data, reg =>
      if irq.toNat < NUM_IRQS then
        Function.update reg irq.toNat ((reg irq.toNat).filter fun a => a.2 ≠ data)
      else reg

/-- `unregister_irq` answers 0 exactly when there was something to remove. -/
def IrqOp.Outcome : IrqOp → Registered → Status → Prop
  | .unregister irq data, reg, r =>
      r = 0 ↔ irq.toNat < NUM_IRQS ∧ ∃ a ∈ reg irq.toNat, a.2 = data
  | _, _, _ => True

/-- An interrupt on a line with a controller calls the handlers registered there. -/
def Dispatches (s : IrqState) (reg : Registered) : Prop :=
  ∀ irq : Irq, irq.toNat < NUM_IRQS → (s.controllers irq.toNat).isSome →
    ∃ s', doIrq irq s = .ok ((reg irq.toNat).map (fun a => .handler a.1 a.2) ++
      [.ackIrq (irq.setWidth 32)] ++ (if reg irq.toNat = [] then [.spurious irq] else []), s')

/-- One call does what it is there for. -/
def Behaves (op : IrqOp) (s : IrqState) (reg : Registered) : Prop :=
  ∃ r s', irqStep op s = .ok (r, s') ∧ op.Outcome reg r ∧ Dispatches s' (op.apply reg)

/-- All calls of a run do. -/
def BehavesThroughout : List IrqOp → IrqState → Registered → Prop
  | [], _, _ => True
  | op :: ops, s, reg =>
      Behaves op s reg ∧ ∀ r s', irqStep op s = .ok (r, s') →
        BehavesThroughout ops s' (op.apply reg)

/-- The calls the code is made for: a registration that finds a descriptor, and a
removal that finds nothing to remove. -/
def IrqOp.Fits : IrqOp → IrqState → Registered → Prop
  | .registerController _, _, _ => True
  | .register irq handler _ _, s, _ =>
      irq.toNat < NUM_IRQS ∧ handler ≠ 0 → s.idx < NUM_IRQ_ACTIONS
  | .unregister irq data, _, reg =>
      irq.toNat < NUM_IRQS → ∀ a ∈ reg irq.toNat, a.2 ≠ data

/-- All calls of a run are such calls. -/
def FitsThroughout : List IrqOp → IrqState → Registered → Prop
  | [], _, _ => True
  | op :: ops, s, reg =>
      op.Fits s reg ∧ ∀ r s', irqStep op s = .ok (r, s') → FitsThroughout ops s' (op.apply reg)

/-- A registration or a removal on a line with a controller. -/
def IrqOp.OnLine (s : IrqState) : IrqOp → Prop
  | .registerController _ => True
  | .register irq _ _ _ => irq.toNat < NUM_IRQS ∧ (s.controllers irq.toNat).isSome
  | .unregister irq _ => irq.toNat < NUM_IRQS ∧ (s.controllers irq.toNat).isSome

/-- The lists of the lines hold what is registered. -/
structure Shows (s : IrqState) (L : Nat → List Nat) (reg : Registered) : Prop where
  lines : Lines s L
  shown : ∀ i, i < NUM_IRQS →
    (L i).map (fun d => ((s.descs d).handler, (s.descs d).privateData)) = reg i

section Runs

variable {s s' : IrqState} {L : Nat → List Nat} {reg : Registered} {op : IrqOp} {r : Status}

/-- Where the lists hold what is registered, `do_irq` calls it. -/
theorem Shows.dispatches (h : Shows s L reg) : Dispatches s reg := by
  intro irq hirq hctrl
  obtain ⟨s', hrun⟩ := doIrq_lines h.lines hirq hctrl
  have hshown := h.shown _ hirq
  refine ⟨s', ?_⟩
  rw [hrun, ← hshown]
  simp only [List.map_map, List.map_eq_nil_iff]
  rfl

/-- At the start nothing is registered. -/
theorem shows_irqStart : Shows irqStart (fun _ => []) (fun _ => []) where
  lines :=
    { ring := by
        have hself : ∀ i, i < NUM_IRQS → irqStart.links.next (.actions i) = some (.actions i) ∧
            irqStart.links.prev (.actions i) = some (.actions i) := by decide
        intro i hi
        exact Ring.linked_cons_cons.mpr ⟨(hself i hi).1, (hself i hi).2, trivial⟩
      nodup := fun _ _ => List.nodup_nil
      used := fun _ _ _ hd => absurd hd List.not_mem_nil
      disjoint := fun _ _ _ _ _ _ hd => absurd hd List.not_mem_nil
      bound := Nat.zero_le _
      known := ⟨.knownHwIntControllers, by decide, .inl rfl⟩ }
  shown := fun _ _ => rfl

/-- An action of the line has that data exactly when a registration has. -/
theorem Shows.matched_iff (h : Shows s L reg) {i : Nat} (hi : i < NUM_IRQS) (data : Uintptr) :
    (∃ d ∈ L i, (s.descs d).privateData = data) ↔ ∃ a ∈ reg i, a.2 = data := by
  rw [← h.shown i hi]
  simp

/-- A registration that succeeds is shown at the end of its line. -/
theorem Shows.register (h : Shows s L reg) {irq : Irq} {handler data : Uintptr}
    {flags : BitVec 32}
    (hlines : Lines s' (Function.update L irq.toNat (L irq.toNat ++ [s.idx])))
    (hdescs : s'.descs = Function.update s.descs s.idx ⟨handler, flags, data⟩) :
    Shows s' (Function.update L irq.toNat (L irq.toNat ++ [s.idx]))
      (Function.update reg irq.toNat (reg irq.toNat ++ [(handler, data)])) where
  lines := hlines
  shown := by
    -- The older descriptors keep their contents.
    have hold : ∀ i, i < NUM_IRQS → (L i).map (fun d => ((s'.descs d).handler,
        (s'.descs d).privateData)) = reg i := fun i hi => by
      rw [← h.shown i hi]
      refine List.map_congr_left fun d hd => ?_
      have hne : d ≠ s.idx := Nat.ne_of_lt (h.lines.used i hi d hd)
      rw [hdescs, Function.update_of_ne hne]
    intro i hi
    by_cases heq : i = irq.toNat
    · subst heq
      rw [Function.update_self, Function.update_self, List.map_append, hold _ hi, hdescs]
      simp
    · rw [Function.update_of_ne heq, Function.update_of_ne heq, hold i hi]

/-- Every call that returns keeps the lists in step with the registrations, and every
controller in its place. -/
theorem Shows.step (h : Shows s L reg) (hrun : irqStep op s = .ok (r, s')) :
    (∃ L', Shows s' L' (op.apply reg)) ∧
      ∀ i, (s.controllers i).isSome → (s'.controllers i).isSome := by
  -- one case per entry point; what is refused leaves the lists as they are
  cases op with
  | registerController ctrl =>
      obtain ⟨t, ht, hlines, -, hdescs, hkeep⟩ := @registerController_lines s L ctrl h.lines
      rw [irqStep, ht] at hrun
      cases hrun
      exact ⟨⟨L, hlines, by rw [hdescs]; exact h.shown⟩, hkeep⟩
  | register irq handler data flags =>
      rw [irqStep] at hrun
      by_cases hok : irq.toNat < NUM_IRQS ∧ handler ≠ 0
      · by_cases hidx : s.idx < NUM_IRQ_ACTIONS
        · cases hctrl : s.controllers irq.toNat with
          | none =>
              rw [registerIrq_uncontrolled h.lines hok.1 hok.2 hidx hctrl] at hrun
              cases hrun
          | some c =>
              obtain ⟨t, ht, hlines, -, hdescs, hcontrollers⟩ :=
                @registerIrq_ok s L irq handler data flags h.lines hok.1 hok.2 hidx
                  (by rw [hctrl]; rfl)
              rw [ht] at hrun
              cases hrun
              rw [IrqOp.apply, if_pos hok, hcontrollers]
              exact ⟨⟨_, h.register hlines hdescs⟩, fun _ hi => hi⟩
        · rw [registerIrq_exhausted hok.1 hok.2 hidx] at hrun
          cases hrun
      · rw [registerIrq_refused hok] at hrun
        cases hrun
        rw [IrqOp.apply, if_neg hok]
        exact ⟨⟨L, h⟩, fun _ hi => hi⟩
  | unregister irq data =>
      rw [irqStep] at hrun
      by_cases hirq : irq.toNat < NUM_IRQS
      · by_cases hmatch : ∃ d ∈ L irq.toNat, (s.descs d).privateData = data
        · obtain ⟨d, hd, hdata⟩ := hmatch
          rw [unregisterIrq_matched h.lines hirq hd hdata] at hrun
          cases hrun
        · have hnone : ∀ a ∈ reg irq.toNat, a.2 ≠ data := fun a ha heq =>
            hmatch ((h.matched_iff hirq data).mpr ⟨a, ha, heq⟩)
          rw [unregisterIrq_unmatched h.lines hirq fun d hd heq => hmatch ⟨d, hd, heq⟩] at hrun
          cases hrun
          have hfilter : (reg irq.toNat).filter (fun a => a.2 ≠ data) = reg irq.toNat :=
            List.filter_eq_self.mpr fun a ha => by simpa using hnone a ha
          rw [IrqOp.apply, if_pos hirq, hfilter, Function.update_eq_self]
          exact ⟨⟨L, h⟩, fun _ hi => hi⟩
      · rw [unregisterIrq, if_neg hirq] at hrun
        cases hrun
        rw [IrqOp.apply, if_neg hirq]
        exact ⟨⟨L, h⟩, fun _ hi => hi⟩

/-- One call behaves exactly when it fits. -/
theorem Shows.behaves_iff (h : Shows s L reg) (hon : op.OnLine s) :
    Behaves op s reg ↔ op.Fits s reg := by
  -- It is enough that the call returns with the right status.
  have hiff : Behaves op s reg ↔ ∃ r s', irqStep op s = .ok (r, s') ∧ op.Outcome reg r := by
    constructor
    · rintro ⟨r, s', hrun, hout, -⟩
      exact ⟨r, s', hrun, hout⟩
    · rintro ⟨r, s', hrun, hout⟩
      obtain ⟨⟨L', h'⟩, -⟩ := h.step hrun
      exact ⟨r, s', hrun, hout, h'.dispatches⟩
  rw [hiff]
  cases op with
  | registerController ctrl =>
      obtain ⟨t, ht, -⟩ := @registerController_lines s L ctrl h.lines
      exact ⟨fun _ => trivial, fun _ => ⟨0, t, by rw [irqStep, ht]; rfl, trivial⟩⟩
  | register irq handler data flags =>
      rw [irqStep]
      by_cases hok : irq.toNat < NUM_IRQS ∧ handler ≠ 0
      · constructor
        · rintro ⟨r, s', hrun, -⟩ -
          by_contra hidx
          rw [registerIrq_exhausted hok.1 hok.2 hidx] at hrun
          cases hrun
        · intro hfits
          obtain ⟨t, ht, -⟩ :=
            @registerIrq_ok s L irq handler data flags h.lines hok.1 hok.2 (hfits hok) hon.2
          exact ⟨0, t, ht, trivial⟩
      · exact ⟨fun _ hok' => absurd hok' hok,
          fun _ => ⟨-EINVAL, s, registerIrq_refused hok, trivial⟩⟩
  | unregister irq data =>
      rw [irqStep]
      have hirq : irq.toNat < NUM_IRQS := hon.1
      constructor
      · rintro ⟨r, s', hrun, -⟩ - a ha heq
        obtain ⟨d, hd, hdata⟩ := (h.matched_iff hirq data).mpr ⟨a, ha, heq⟩
        rw [unregisterIrq_matched h.lines hirq hd hdata] at hrun
        cases hrun
      · intro hfits
        refine ⟨-EINVAL, s, unregisterIrq_unmatched h.lines hirq fun d hd heq => ?_, ?_⟩
        · obtain ⟨a, ha, hadata⟩ := (h.matched_iff hirq data).mp ⟨d, hd, heq⟩
          exact hfits hirq a ha hadata
        · refine ⟨fun h0 => absurd h0 neg_EINVAL_ne_zero, fun ⟨_, a, ha, heq⟩ => ?_⟩
          exact absurd heq (hfits hirq a ha)

/-- A run on lines with a controller behaves exactly when its calls fit. -/
theorem Shows.behavesThroughout_iff :
    ∀ (ops : List IrqOp) (s : IrqState) (L : Nat → List Nat) (reg : Registered),
      Shows s L reg → (∀ op ∈ ops, op.OnLine s) →
      (BehavesThroughout ops s reg ↔ FitsThroughout ops s reg) := by
  intro ops
  induction ops with
  | nil => intro s L reg _ _; exact Iff.rfl
  | cons op ops ih =>
      intro s L reg h hon
      have hhere := h.behaves_iff (hon op (by simp))
      have hrest : ∀ r s', irqStep op s = .ok (r, s') →
          (BehavesThroughout ops s' (op.apply reg) ↔ FitsThroughout ops s' (op.apply reg)) := by
        intro r s' hrun
        obtain ⟨⟨L', h'⟩, hkeep⟩ := h.step hrun
        refine ih s' L' _ h' fun op' hop' => ?_
        have hon' := hon op' (by simp [hop'])
        cases op' with
        | registerController ctrl => trivial
        | register irq handler data flags => exact ⟨hon'.1, hkeep _ hon'.2⟩
        | unregister irq data => exact ⟨hon'.1, hkeep _ hon'.2⟩
      constructor
      · exact fun ⟨hb, hbs⟩ => ⟨hhere.mp hb, fun r s' hrun => (hrest r s' hrun).mp (hbs r s' hrun)⟩
      · exact fun ⟨hf, hfs⟩ =>
          ⟨hhere.mpr hf, fun r s' hrun => (hrest r s' hrun).mpr (hfs r s' hrun)⟩

/-- The lists after the controllers have been registered. -/
theorem shows_of_boot :
    ∀ (ctrls : List HwInterruptController) (s s' : IrqState), Shows s L reg →
      ctrls.foldlM (fun s c => registerHwInterruptController c s) s = .ok s' →
      Shows s' L reg := by
  intro ctrls
  induction ctrls with
  | nil =>
      intro s s' h hrun
      cases hrun
      exact h
  | cons c ctrls ih =>
      intro s s' h hrun
      rw [List.foldlM_cons] at hrun
      obtain ⟨t, ht, hlines, -, hdescs, -⟩ := @registerController_lines s L c h.lines
      rw [ht, Loop.ok_bind] at hrun
      exact ih t s' ⟨hlines, by rw [hdescs]; exact h.shown⟩ hrun

/-- In a run of registrations and removals on lines with a controller, every call and
every interrupt in between does what the history says, exactly when every
registration finds a descriptor in the array and every removal finds nothing to
remove. -/
theorem irqRun_behaves_iff (ctrls : List HwInterruptController) (s : IrqState)
    (ops : List IrqOp)
    (hboot : ctrls.foldlM (fun s c => registerHwInterruptController c s) irqStart = .ok s)
    (hon : ∀ op ∈ ops, op.OnLine s) :
    BehavesThroughout ops s (fun _ => []) ↔ FitsThroughout ops s (fun _ => []) :=
  Shows.behavesThroughout_iff ops s _ _ (shows_of_boot ctrls irqStart s shows_irqStart hboot) hon

end Runs

/-- A controller for all lines. -/
def allLines : HwInterruptController := ⟨0x200000, fun _ => true⟩

/-- The state after it has been registered. -/
def allLinesState : IrqState :=
  match registerHwInterruptController allLines irqStart with
  | .ok s => s
  | .error _ => irqStart

/-- Two handlers on one line, and a removal for data that neither has. -/
theorem irqRun_behaves_two :
    BehavesThroughout [.register 3 0x1000 0xa 0, .register 3 0x2000 0xb 0, .unregister 3 0xc]
        allLinesState (fun _ => []) ↔
      FitsThroughout [.register 3 0x1000 0xa 0, .register 3 0x2000 0xb 0, .unregister 3 0xc]
        allLinesState (fun _ => []) :=
  irqRun_behaves_iff [allLines] allLinesState _ rfl fun op hop => by
    simp only [List.mem_cons, List.not_mem_nil, or_false] at hop
    rcases hop with rfl | rfl | rfl <;> exact ⟨by decide, by decide⟩

/-- A handler is registered and removed again: the removal does not return. -/
theorem irqRun_removal_faults :
    ¬ BehavesThroughout [.register 3 0x1000 0xa 0, .unregister 3 0xa] allLinesState
      (fun _ => []) := by
  have hfault : (irqStep (.register 3 0x1000 0xa 0) allLinesState >>= fun x =>
      (irqStep (.unregister 3 0xa) x.2).map Prod.fst) = .error (.pageFault LIST_POISON1) := by
    decide +kernel
  rintro ⟨⟨r, s', hrun, -, -⟩, hrest⟩
  obtain ⟨⟨r', s'', hrun', -, -⟩, -⟩ := hrest r s' hrun
  rw [hrun, Loop.ok_bind] at hfault
  dsimp only at hfault
  rw [hrun'] at hfault
  cases hfault

/-! ### Descriptors and controllers -/

/-- Whether `register_irq` has what it takes for these arguments. -/
def CanRegister (s : IrqState) (irq : Irq) (handler : Uintptr) : Prop :=
  irq.toNat < NUM_IRQS ∧ handler ≠ 0 ∧ s.idx < NUM_IRQ_ACTIONS ∧
    (s.controllers irq.toNat).isSome

/-- A registration that succeeds takes a descriptor of the array that is on no list,
and one that cannot succeed answers an error and changes no list. -/
structure RegistersSafely (s : IrqState) (irq : Irq) (handler data : Uintptr)
    (flags : BitVec 32) : Prop where
  succeeded : ∀ s', registerIrq irq handler data flags s = .ok (0, s') →
    ∃ d, d < NUM_IRQ_ACTIONS ∧ (∀ i ds, i < NUM_IRQS → ActionsOn s i ds → d ∉ ds) ∧
      ∀ ds, ActionsOn s irq.toNat ds → ActionsOn s' irq.toNat (ds ++ [d])
  refused : ¬ CanRegister s irq handler → ∃ r s', registerIrq irq handler data flags s
    = .ok (r, s') ∧ r < 0 ∧ ∀ i ds, i < NUM_IRQS → (ActionsOn s' i ds ↔ ActionsOn s i ds)

/-- One call touches no null controller, and is safe if it is a registration. -/
def SafeStep (op : IrqOp) (s : IrqState) : Prop :=
  irqStep op s ≠ .error (.pageFault ENABLE_IRQ_OFFSET) ∧
    match op with
    | .register irq handler data flags => RegistersSafely s irq handler data flags
    | _ => True

/-- All calls of a run are safe. -/
def SafeThroughout : List IrqOp → IrqState → Prop
  | [], _ => True
  | op :: ops, s =>
      SafeStep op s ∧ ∀ r s', irqStep op s = .ok (r, s') → SafeThroughout ops s'

/-- A registration with arguments that are not refused finds a descriptor and a
controller. -/
def IrqOp.Supplied : IrqOp → IrqState → Prop
  | .register irq handler _ _, s =>
      irq.toNat < NUM_IRQS → handler ≠ 0 → CanRegister s irq handler
  | _, _ => True

/-- All registrations of a run are. -/
def SuppliedThroughout : List IrqOp → IrqState → Prop
  | [], _ => True
  | op :: ops, s =>
      op.Supplied s ∧ ∀ r s', irqStep op s = .ok (r, s') → SuppliedThroughout ops s'

section Safety

variable {s s' : IrqState} {L : Nat → List Nat} {reg : Registered} {op : IrqOp} {r : Status}

/-- The registration of a line with a controller and a descriptor to spare is safe. -/
theorem registersSafely (h : Lines s L) {irq : Irq} {handler data : Uintptr} {flags : BitVec 32}
    (hcan : irq.toNat < NUM_IRQS → handler ≠ 0 → CanRegister s irq handler) :
    RegistersSafely s irq handler data flags := by
  by_cases hok : irq.toNat < NUM_IRQS ∧ handler ≠ 0
  · obtain ⟨hirq, hhandler, hidx, hctrl⟩ := hcan hok.1 hok.2
    obtain ⟨t, ht, hlines, -, -, -⟩ :=
      @registerIrq_ok s L irq handler data flags h hirq hhandler hidx hctrl
    refine ⟨fun s' hrun => ?_, fun hnot => absurd (hcan hok.1 hok.2) hnot⟩
    rw [ht] at hrun
    cases hrun
    refine ⟨s.idx, hidx, fun i ds hi hds hmem => ?_, fun ds hds => ?_⟩
    · rw [hds.unique (h.ring i hi)] at hmem
      exact Nat.lt_irrefl _ (h.used i hi _ hmem)
    · have hring := hlines.ring _ hirq
      rw [Function.update_self] at hring
      rw [hds.unique (h.ring _ hirq)]
      exact hring
  · have hrun := @registerIrq_refused s irq handler data flags hok
    refine ⟨fun s' hrun' => ?_, fun _ => ⟨-EINVAL, s, hrun, by decide, fun _ _ _ => Iff.rfl⟩⟩
    rw [hrun] at hrun'
    cases hrun'

/-- One call is safe exactly when it is supplied. -/
theorem Lines.safeStep_iff (h : Lines s L) : SafeStep op s ↔ op.Supplied s := by
  cases op with
  | registerController ctrl =>
      obtain ⟨t, ht, -⟩ := @registerController_lines s L ctrl h
      refine ⟨fun _ => trivial, fun _ => ⟨fun herr => ?_, trivial⟩⟩
      rw [irqStep, ht] at herr
      cases herr
  | register irq handler data flags =>
      constructor
      · intro ⟨_, hsafe⟩ hirq hhandler
        by_contra hnot
        obtain ⟨r, s', hrun, -, -⟩ := hsafe.refused hnot
        -- The call does not return: it lacks a descriptor or a controller.
        by_cases hidx : s.idx < NUM_IRQ_ACTIONS
        · have hnone : s.controllers irq.toNat = none := by
            rw [← Option.not_isSome_iff_eq_none]
            exact fun hctrl => hnot ⟨hirq, hhandler, hidx, hctrl⟩
          rw [registerIrq_uncontrolled h hirq hhandler hidx hnone] at hrun
          cases hrun
        · rw [registerIrq_exhausted hirq hhandler hidx] at hrun
          cases hrun
      · intro hsup
        refine ⟨fun herr => ?_, registersSafely h hsup⟩
        rw [irqStep] at herr
        by_cases hok : irq.toNat < NUM_IRQS ∧ handler ≠ 0
        · obtain ⟨hirq, hhandler, hidx, hctrl⟩ := hsup hok.1 hok.2
          obtain ⟨t, ht, -⟩ := @registerIrq_ok s L irq handler data flags h hirq hhandler hidx hctrl
          rw [ht] at herr
          cases herr
        · rw [registerIrq_refused hok] at herr
          cases herr
  | unregister irq data =>
      refine ⟨fun _ => trivial, fun _ => ⟨fun herr => ?_, trivial⟩⟩
      rw [irqStep] at herr
      by_cases hirq : irq.toNat < NUM_IRQS
      · by_cases hmatch : ∃ d ∈ L irq.toNat, (s.descs d).privateData = data
        · obtain ⟨d, hd, hdata⟩ := hmatch
          rw [unregisterIrq_matched h hirq hd hdata] at herr
          exact absurd (Fault.pageFault.inj (Except.error.inj herr)) (by decide)
        · rw [unregisterIrq_unmatched h hirq fun d hd heq => hmatch ⟨d, hd, heq⟩] at herr
          cases herr
      · rw [unregisterIrq, if_neg hirq] at herr
        cases herr

/-- From any such state, a run is safe exactly when all of its registrations are supplied. -/
theorem Shows.safeThroughout_iff :
    ∀ (ops : List IrqOp) (s : IrqState) (L : Nat → List Nat) (reg : Registered),
      Shows s L reg → (SafeThroughout ops s ↔ SuppliedThroughout ops s) := by
  intro ops
  induction ops with
  | nil => intro s L reg _; exact Iff.rfl
  | cons op ops ih =>
      intro s L reg h
      have hrest : ∀ r s', irqStep op s = .ok (r, s') →
          (SafeThroughout ops s' ↔ SuppliedThroughout ops s') := by
        intro r s' hrun
        obtain ⟨⟨L', h'⟩, -⟩ := h.step hrun
        exact ih s' L' _ h'
      have hhere := @Lines.safeStep_iff s L op h.lines
      constructor
      · exact fun ⟨hb, hbs⟩ => ⟨hhere.mp hb, fun r s' hrun => (hrest r s' hrun).mp (hbs r s' hrun)⟩
      · exact fun ⟨hf, hfs⟩ =>
          ⟨hhere.mpr hf, fun r s' hrun => (hrest r s' hrun).mpr (hfs r s' hrun)⟩

/-- A run from the start is safe exactly when every registration with arguments that
are not refused comes while a descriptor is left and its line has a controller. -/
theorem irqRun_safe_iff (ops : List IrqOp) :
    SafeThroughout ops irqStart ↔ SuppliedThroughout ops irqStart :=
  Shows.safeThroughout_iff ops irqStart _ _ shows_irqStart

/-- A registration on a line without a controller. -/
theorem irqRun_uncontrolled_faults : ¬ SafeThroughout [.register 3 0x1000 0xa 0] irqStart := by
  have hfault : (irqStep (.register 3 0x1000 0xa 0) irqStart).map Prod.fst
      = .error (.pageFault ENABLE_IRQ_OFFSET) := by decide +kernel
  rintro ⟨⟨hnull, -⟩, -⟩
  cases hrun : irqStep (.register 3 0x1000 0xa 0) irqStart with
  | ok x =>
      rw [hrun] at hfault
      cases hfault
  | error e =>
      rw [hrun] at hfault hnull
      exact hnull (congrArg Except.error (Except.error.inj hfault))

end Safety

end MString
