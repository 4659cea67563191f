import MString.Proofs.Eza.IdleTurn

/-!
# `MString.Proofs.Eza.IdleTasks`: every processor gets its idle task

`initialize_scheduler` makes the tasks that the processors run before there are others.

* `IdlesKept` and `IdlesKept.step`: the invariant of the loop, and one turn.
* `initializeScheduler_idles`: with enough pages in the cache, the loop comes to its end
  exactly when there are stacks for all processors, and then every processor has its own, on
  which `current_task()` is its idle task.
-/

set_option autoImplicit false

namespace MString

/-! ### The loop -/

/-- What an idle task has. -/
structure IdleAt (env : TaskEnv) (s : IdleState) (cpu : Nat) (t : PageIdx × List PageIdx) :
    Prop where
  registered : s.idleTasks cpu = some t.1
  data : s.kernel.taskData t.1 = idleData env cpu
  length : t.2.length = KERNEL_STACK_PAGES
  lt : cpu < BITMAP_ENTRIES_COUNT
  has : SlotHas env.kernelPtDirectory.entries s.kernel.machine.mem cpu t.1 t.2

/-- The frames that the tasks hold. -/
def taskHeld (tasks : List (PageIdx × List PageIdx)) : List PageIdx :=
  tasks.flatMap fun t => t.1 :: t.2

/-- The invariant of the loop, which has started with `s₀` and the book `F₀`. -/
structure IdlesKept (env : TaskEnv) (boot ahead : Nat) (F₀ : Frames) (s₀ : IdleState)
    (tasks : List (PageIdx × List PageIdx)) (F : Frames) (s : IdleState) : Prop where
  cached : Cached boot ahead env.kernelPtDirectory.entries F s.kernel.machine
  held : F.held = F₀.held ++ taskHeld tasks
  lists : ∀ x, F.Lists x → F₀.Lists x
  handed : Handed tasks.length s.kernel.mainStackCtx
  task : ∀ cpu t, tasks[cpu]? = some t → IdleAt env s cpu t
  others : ∀ w, (∀ cpu, cpu < tasks.length → ¬ OfSlot cpu w) →
    leafOf s.kernel.machine.mem env.kernelPtDirectory.entries w
      = leafOf s₀.kernel.machine.mem env.kernelPtDirectory.entries w
  readable : Readable s₀.kernel.machine.mem env.kernelPtDirectory.entries →
    Readable s.kernel.machine.mem env.kernelPtDirectory.entries

section Loop

variable {env : TaskEnv} {boot ahead nrCpus : Nat} {memTotalPages : PageIdx} {F₀ F : Frames}
  {s₀ s s' : IdleState} {tasks : List (PageIdx × List PageIdx)}

/-- A slot stays as it is while another one is mapped. -/
theorem SlotHas.keep {root : Uintptr} {m m' : Mem} {j k : Nat} {ts us : PageIdx}
    {fs gs : List PageIdx} (h : SlotHas root m j us gs) (hleaves : SlotLeaves root k ts fs m m')
    (hgs : gs.length = KERNEL_STACK_PAGES) (hj : j < BITMAP_ENTRIES_COUNT)
    (hk : k < BITMAP_ENTRIES_COUNT) (hne : j ≠ k) : SlotHas root m' j us gs := by
  have hother : ∀ i, i < 8 → ∀ w, pageOf w = slotPage j i →
      leafOf m' root w = leafOf m root w := by
    intro i hi w hw
    refine hleaves.others w ?_
    rintro (heq | ⟨l, hl, heq⟩)
    · exact hne (slotPage_inj hj hk hi (by omega) (hw.symm.trans heq)).1
    · have hl4 : l < 4 := hl
      exact hne (slotPage_inj hj hk hi (by omega) (hw.symm.trans heq)).1
  constructor
  case struct =>
    intro w hw
    rw [hother 0 (by omega) w hw]
    exact h.struct w hw
  case stack =>
    intro i f hf w hw
    have hi : i < 4 := by
      have := (List.getElem?_eq_some_iff.mp hf).1
      rwa [hgs] at this
    rw [hother (3 + i) (by omega) w hw]
    exact h.stack i f hf w hw

/-- The task of a turn is none of the earlier ones. -/
theorem IdlesKept.ne_new (h : IdlesKept env boot ahead F₀ s₀ tasks F s) {ts : PageIdx}
    (hts : ts ∉ F.held) {t : PageIdx × List PageIdx} (ht : t ∈ tasks) : t.1 ≠ ts := by
  rintro rfl
  refine hts ?_
  rw [h.held]
  exact List.mem_append_right _ (List.mem_flatMap.mpr ⟨t, ht, List.mem_cons_self⟩)

/-- An earlier task has another struct and another slot. -/
theorem IdleAt.keep {cpu n : Nat} {t : PageIdx × List PageIdx} {ts : PageIdx} {fs : List PageIdx}
    {F' : Frames} (h : IdleAt env s cpu t) (hturn : IdleTurn env boot ahead n F s ts fs F' s')
    (hne : t.1 ≠ ts) (hcpu : cpu ≠ n) : IdleAt env s' cpu t := by
  refine ⟨?_, (hturn.others t.1 hne).trans h.data, h.length, h.lt,
    h.has.keep hturn.leaves h.length h.lt hturn.lt hcpu⟩
  rw [hturn.registered, Function.update_of_ne hcpu]
  exact h.registered

/-- One turn. -/
theorem IdlesKept.step (h : IdlesKept env boot ahead F₀ s₀ tasks F s) {ts : PageIdx}
    {fs : List PageIdx} {F' : Frames}
    (hturn : IdleTurn env boot ahead tasks.length F s ts fs F' s') :
    IdlesKept env boot ahead F₀ s₀ (tasks ++ [(ts, fs)]) F' s' := by
  have hlen : (tasks ++ [(ts, fs)]).length = tasks.length + 1 := by simp
  constructor
  case cached => exact hturn.cached
  case held =>
    rw [hturn.held, h.held, taskHeld, taskHeld, List.flatMap_append, List.flatMap_singleton,
      List.append_assoc]
  case lists => exact fun x hx => h.lists x (hturn.lists x hx)
  case handed =>
    rw [hlen]
    exact hturn.handed
  case task =>
    intro cpu t ht
    rcases Nat.lt_trichotomy cpu tasks.length with hcpu | rfl | hcpu
    · -- The earlier tasks keep their structures and their pages.
      rw [List.getElem?_append_left hcpu] at ht
      have hne := h.ne_new hturn.fresh (List.mem_of_getElem? ht)
      exact (h.task cpu t ht).keep hturn hne (Nat.ne_of_lt hcpu)
    · rw [List.getElem?_concat_length, Option.some.injEq] at ht
      subst ht
      refine ⟨?_, hturn.data, hturn.length, hturn.lt, hturn.leaves.has⟩
      rw [hturn.registered, Function.update_self]
    · rw [List.getElem?_eq_none (by rw [hlen]; omega)] at ht
      cases ht
  -- Only the pages of the new task's slot are changed.
  case others =>
    intro w hw
    rw [hlen] at hw
    rw [hturn.leaves.others w (hw _ (Nat.lt_succ_self _))]
    exact h.others w fun cpu hcpu => hw cpu (Nat.lt_succ_of_lt hcpu)
  case readable => exact fun h0 => hturn.leaves.readable (h.readable h0)

/-- The loop makes the tasks in the order of the processors. -/
theorem initializeIdleTasks_succ (n : Nat) :
    initializeIdleTasks env boot memTotalPages (n + 1) s
      = initializeIdleTasks env boot memTotalPages n s >>= fun s' =>
          initializeIdleTask env boot memTotalPages s' n := by
  rw [initializeIdleTasks, List.range_succ, List.foldlM_append]
  simp only [List.foldlM_cons, List.foldlM_nil, bind_pure]
  rfl

/-- The whole loop: it comes to its end with 21 frames for every processor, as long as there
are stacks. -/
theorem IdlesKept.run (ha : Answers env.mapped) (h : IdlesKept env boot ahead F₀ s₀ [] F₀ s₀) :
    ∀ n, n ≤ BITMAP_ENTRIES_COUNT → 21 * n ≤ F₀.pages.length →
      ∃ s tasks F, initializeIdleTasks env boot memTotalPages n s₀ = .ok s ∧ tasks.length = n ∧
        IdlesKept env boot ahead F₀ s₀ tasks F s ∧
        F₀.pages.length ≤ F.pages.length + 21 * n := by
  intro n
  induction n with
  | zero => intro _ _; exact ⟨s₀, [], F₀, rfl, rfl, h, Nat.le_refl _⟩
  | succ n ih =>
      intro hn hs
      obtain ⟨s, tasks, F, hrun, rfl, hkept, hle⟩ := ih (by omega) (by omega)
      obtain ⟨s', ts, fs, F', hstep, hturn, hle'⟩ := @initializeIdleTask_spec env boot ahead _
        memTotalPages s F ha hkept.cached hkept.handed (by omega) (by omega)
      refine ⟨s', tasks ++ [(ts, fs)], F', ?_, by simp, hkept.step hturn, by omega⟩
      rw [initializeIdleTasks_succ, hrun, Loop.ok_bind, hstep]

/-- When the stacks are used up, it does not: the next turn panics. -/
theorem IdlesKept.not_run (ha : Answers env.mapped) (h : IdlesKept env boot ahead F₀ s₀ [] F₀ s₀)
    (hs : 21 * BITMAP_ENTRIES_COUNT ≤ F₀.pages.length) :
    ∀ n, BITMAP_ENTRIES_COUNT < n →
      ¬ ∃ s, initializeIdleTasks env boot memTotalPages n s₀ = .ok s := by
  intro n hn
  induction n with
  | zero => omega
  | succ n ih =>
      rintro ⟨s', hrun⟩
      rw [initializeIdleTasks_succ] at hrun
      obtain ⟨s, hbefore, hturn⟩ := Loop.exists_of_bind hrun
      rcases Nat.lt_or_eq_of_le (Nat.le_of_lt_succ hn) with hlt | rfl
      · exact ih hlt ⟨s, hbefore⟩
      · -- all stacks are handed out when the turn begins
        obtain ⟨s1, tasks, F, hrun1, hlen, hkept, -⟩ := @IdlesKept.run env boot ahead memTotalPages
          _ _ ha h BITMAP_ENTRIES_COUNT (Nat.le_refl _) hs
        obtain rfl : s1 = s := Except.ok.inj (hrun1.symm.trans hbefore)
        exact Nat.lt_irrefl _ (lt_of_initializeIdleTask (hlen ▸ hkept.handed) hturn)

end Loop

/-! ### The scheduler's start -/

/-- The idle task `ts` of a processor, with the frames `fs` of its stack. On this stack,
`current_task()` and `system_sched_data()` find the struct of this very task. -/
structure IdleTask (env : TaskEnv) (s : IdleState) (cpu : Nat) (ts : PageIdx)
    (fs : List PageIdx) : Prop where
  registered : s.idleTasks cpu = some ts
  data : s.kernel.taskData ts = idleData env cpu
  length : fs.length = KERNEL_STACK_PAGES
  stack : ∀ i f, fs[i]? = some f →
    ∀ a, InPage (stackOf (BitVec.ofNat 32 cpu)).lowAddress i a →
      mmPinVirtualAddress env.mapped s.kernel.machine.mem env.kernelPtDirectory a = .ok f
  current : ∀ rsp : Uintptr, (stackOf (BitVec.ofNat 32 cpu)).lowAddress ≤ rsp →
    rsp ≤ (stackOf (BitVec.ofNat 32 cpu)).highAddress →
    ∀ a, InPage (archSystemSchedData rsp) 0 a →
      mmPinVirtualAddress env.mapped s.kernel.machine.mem env.kernelPtDirectory a = .ok ts

/-- Among the canonical addresses, the pages of a slot are those of the task. -/
theorem OfSlot.ofTask {k : Nat} {a : Uintptr} (h : OfSlot k a) (hk : k < BITMAP_ENTRIES_COUNT)
    (ha : PageWalk.Canonical a.toNat) : OfTask (stackOf (BitVec.ofNat 32 k)) a := by
  have hcount : BITMAP_ENTRIES_COUNT = 507 := by decide
  have hpages : KERNEL_STACK_PAGES = 4 := rfl
  have hmod := slotBase_mod hk
  have hbase : slotBase k = 0xffffffff80000000 - 2 ^ 15 * (k + 1) := rfl
  unfold PageWalk.Canonical at ha
  rcases h with h | ⟨i, hi, h⟩
  · refine .inr ?_
    rw [InPage, toNat_taskStructPage hk]
    unfold pageOf slotPage at h
    omega
  · refine .inl ⟨i, hi, ?_⟩
    rw [InPage, (toNat_stackOf hk).1]
    unfold pageOf slotPage at h
    omega

section Scheduler

variable {env : TaskEnv} {boot ahead nrCpus : Nat} {memTotalPages : PageIdx}
  {words : Nat → BitVec 64} {pages : List PageIdx} {s s' : IdleState} {F : Frames}

/-- What a task of the loop can rely on. -/
theorem IdlesKept.idleTask {F₀ : Frames} {s₀ : IdleState} {tasks : List (PageIdx × List PageIdx)}
    (ha : Answers env.mapped) (h : IdlesKept env boot ahead F₀ s₀ tasks F s) {cpu : Nat}
    {t : PageIdx × List PageIdx} (ht : tasks[cpu]? = some t) : IdleTask env s cpu t.1 t.2 := by
  have hat := h.task cpu t ht
  -- a pin reads the leaf
  have hpin : ∀ a f, (∃ e, leafOf s.kernel.machine.mem env.kernelPtDirectory.entries a = some e ∧
      e.base = f) →
      mmPinVirtualAddress env.mapped s.kernel.machine.mem env.kernelPtDirectory a = .ok f := by
    rintro a f ⟨e, he, rfl⟩
    rw [mmPinVirtualAddress_eq ha h.cached.ready.wf, translate_eq_leafOf, he]
  refine ⟨hat.registered, hat.data, hat.length, fun i f hf a hpage => ?_,
    fun rsp hlow hhigh a hpage => ?_⟩
  · exact hpin a f (hat.has.stack i f hf a (pageOf_of_stack hat.lt hpage))
  · rw [archSystemSchedData, and_stackMask_stackOf hat.lt hlow hhigh] at hpage
    exact hpin a t.1 (hat.has.struct a (pageOf_of_struct hat.lt hpage))

/-- The state in which the loop starts. -/
theorem idlesKept_start
    (hcached : Cached boot ahead env.kernelPtDirectory.entries F s.kernel.machine)
    (hpos : 0 < F.pages.length) :
    ∃ k ch1 qs, initializeKernelStackAllocator boot words s.kernel = .ok k ∧
      F.pages = ch1 :: qs ∧
      IdlesKept env boot ahead F.hold { s with kernel := k } [] F.hold { s with kernel := k } ∧
      (∀ w, leafOf k.machine.mem env.kernelPtDirectory.entries w
        = leafOf s.kernel.machine.mem env.kernelPtDirectory.entries w) ∧
      (Readable s.kernel.machine.mem env.kernelPtDirectory.entries →
        Readable k.machine.mem env.kernelPtDirectory.entries) := by
  obtain ⟨ch1, qs, m, halloc, hpages, hcached', hleaf, hread⟩ := hcached.take false hpos
  refine ⟨_, ch1, qs, by rw [initializeKernelStackAllocator, halloc, Loop.ok_bind]; rfl, hpages, ?_,
    hleaf, hread⟩
  constructor
  case cached => exact hcached'
  case held => exact (List.append_nil _).symm
  case lists => exact fun x hx => hx
  case handed => exact handed_start _
  case task => intro cpu t ht; simp at ht
  case others => exact fun w _ => rfl
  case readable => exact id

/-- The page of the allocator of stacks has left the book. -/
theorem Frames.length_hold {ch1 : PageIdx} {qs : List PageIdx} (h : F.pages = ch1 :: qs) :
    F.hold.pages.length + 1 = F.pages.length := by
  show F.pages.tail.length + 1 = _
  rw [h]
  rfl

/-- `initialize_scheduler` comes to its end with 21 frames for every processor and one for
the allocator of stacks, and this is where. -/
theorem initializeScheduler_kept (ha : Answers env.mapped)
    (hcached : Cached boot ahead env.kernelPtDirectory.entries F s.kernel.machine)
    (hn : nrCpus ≤ BITMAP_ENTRIES_COUNT) (hs : 1 + 21 * nrCpus ≤ F.pages.length) :
    ∃ s' ch1 tasks F' s₀, initializeScheduler env boot memTotalPages nrCpus words s = .ok s' ∧
      tasks.length = nrCpus ∧ IdlesKept env boot ahead F.hold s₀ tasks F' s' ∧
      F'.held = F.held ++ ch1 :: taskHeld tasks ∧ (∀ x, F'.Lists x → F.Lists x) ∧
      (∀ w, leafOf s₀.kernel.machine.mem env.kernelPtDirectory.entries w
        = leafOf s.kernel.machine.mem env.kernelPtDirectory.entries w) ∧
      (Readable s.kernel.machine.mem env.kernelPtDirectory.entries →
        Readable s₀.kernel.machine.mem env.kernelPtDirectory.entries) := by
  obtain ⟨k, ch1, qs, hstart, hpages, hkept₀, hleaf, hread⟩ :=
    @idlesKept_start env boot ahead words s F hcached (by omega)
  have hhold := Frames.length_hold hpages
  obtain ⟨s', tasks, F', hloop, hlen, hkept, -⟩ :=
    @IdlesKept.run env boot ahead memTotalPages _ _ ha hkept₀ nrCpus hn (by omega)
  refine ⟨s', ch1, tasks, F', _, by rw [initializeScheduler, hstart, Loop.ok_bind, hloop], hlen,
    hkept, ?_, fun x hx => (hkept.lists x hx).of_hold, hleaf, hread⟩
  rw [hkept.held]
  show F.held ++ F.pages.take 1 ++ _ = _
  rw [hpages, List.append_assoc]
  rfl

/-- It does not when there are more processors than stacks. -/
theorem not_initializeScheduler (ha : Answers env.mapped)
    (hcached : Cached boot ahead env.kernelPtDirectory.entries F s.kernel.machine)
    (hn : BITMAP_ENTRIES_COUNT < nrCpus) (hs : 1 + 21 * nrCpus ≤ F.pages.length) :
    ¬ ∃ s', initializeScheduler env boot memTotalPages nrCpus words s = .ok s' := by
  rintro ⟨s', hrun⟩
  obtain ⟨k, ch1, qs, hstart, hpages, hkept₀, -, -⟩ :=
    @idlesKept_start env boot ahead words s F hcached (by omega)
  have hhold := Frames.length_hold hpages
  rw [initializeScheduler, hstart, Loop.ok_bind] at hrun
  exact @IdlesKept.not_run env boot ahead memTotalPages _ _ ha hkept₀ (by omega) nrCpus hn
    ⟨s', hrun⟩

end Scheduler

/-- The frames 16 to 63. -/
def freeFrames : List PageIdx := (List.range 48).map fun i => BitVec.ofNat 32 (16 + i)

/-- A boot with these frames in the cache, and empty tables. -/
def idleBoot : IdleState where
  kernel := { idleStart with machine := ⟨fun _ => .zero, cacheOf 0 freeFrames⟩ }
  idleTasks := fun _ => none

end MString
