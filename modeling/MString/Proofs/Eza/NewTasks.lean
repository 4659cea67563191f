import MString.Proofs.Eza.TaskPages

/-!
# `MString.Proofs.Eza.NewTasks`: the pages of all tasks

All tasks that clone the kernel's directory are mapped in one set of tables. `Creations` is
a sequence of successful calls of `create_new_task`.

* `TasksMapped.step` and `Creations.mapped`: the invariant, for a call and for a sequence.
* `newTasks_keepFrames`: the pages of all tasks stay mapped to their own frames.
-/

set_option autoImplicit false

namespace MString

/-! ### Any sequence of creations -/

/-- A call of `create_new_task` that has succeeded. -/
structure Creation where
  before : TaskState
  /-- The frame of the new task. -/
  task : PageIdx
  after : TaskState

/-- The frames that were allocated for the task. -/
def Creation.frames (env : TaskEnv) (c : Creation) : List PageIdx :=
  match taskFrames env c.before with
  | .ok fs => fs
  | .error _ => []

/-- A sequence of successful calls, each of which clones the kernel's directory. -/
inductive Creations (env : TaskEnv) (s : TaskState) : List Creation → TaskState → Prop
  | refl : Creations env s [] s
  | step {cs : List Creation} {s1 s2 : TaskState} {ts : PageIdx} {parent : Option PageIdx}
      {flags : TaskCreationFlags} {priv : TaskPrivelege} (before : Creations env s cs s1)
      (dir : ∀ p, parent = some p → (s1.task p).pageDir = env.kernelPtDirectory)
      (call : createNewTask env parent flags priv s1 = .ok (0, some ts, s2)) :
      Creations env s (cs ++ [⟨s1, ts, s2⟩]) s2

/-- The tasks `cs` are mapped in their slots, which follow the first `k`, and their frames
are held. -/
structure TasksMapped (env : TaskEnv) (inv : PageLists → Prop) (free : PageLists → PageIdx → Prop)
    (k : Nat) (cs : List Creation) (s : TaskState) : Prop where
  ready : TasksReady inv free env.kernelPtDirectory.entries (k + cs.length) s
  task : ∀ i c, cs[i]? = some c → ∃ fs, taskFrames env c.before = .ok (c.task :: fs) ∧
    fs.length = KERNEL_STACK_PAGES ∧ k + i < BITMAP_ENTRIES_COUNT ∧
    (s.task c.task).kernelStack = stackOf (BitVec.ofNat 32 (k + i)) ∧
    (s.task c.task).pageDir = env.kernelPtDirectory ∧
    SlotMapped env.kernelPtDirectory.entries s.machine.mem (k + i) c.task fs
  held : ∀ c ∈ cs, ∀ x ∈ c.frames env, ¬ free s.machine.ctx x
  distinct : (cs.flatMap (Creation.frames env)).Nodup

/-- The frames of a creation are those that `taskFrames` collects. -/
theorem Creation.frames_of_ok {env : TaskEnv} {c : Creation} {fs : List PageIdx}
    (h : taskFrames env c.before = .ok fs) : c.frames env = fs := by
  rw [Creation.frames, h]

section Runs

variable {env : TaskEnv} {inv : PageLists → Prop} {free : PageLists → PageIdx → Prop} {k : Nat}
  {cs : List Creation} {s0 s s' : TaskState} {ts : PageIdx}

/-- The step lemma. -/
theorem TasksMapped.step (h : TasksMapped env inv free k cs s) {fs : List PageIdx}
    (hc : Creates env inv free env.kernelPtDirectory.entries (k + cs.length) ts fs s s') :
    TasksMapped env inv free k (cs ++ [⟨s, ts, s'⟩]) s' := by
  have hnew : (Creation.mk s ts s').frames env = ts :: fs := Creation.frames_of_ok hc.frames
  constructor
  case ready =>
    rw [List.length_append, List.length_singleton, ← Nat.add_assoc]
    exact hc.ready
  case task =>
    intro i c hi
    rcases Nat.lt_trichotomy i cs.length with hlt | rfl | hgt
    · -- An earlier task keeps its struct and its slot.
      rw [List.getElem?_append_left hlt] at hi
      obtain ⟨gs, hframes, hlen, hki, hstack, hdir, hslot⟩ := h.task i c hi
      have hne : c.task ≠ ts := by
        rintro rfl
        have hmem : c.task ∈ c.frames env := by
          rw [Creation.frames_of_ok hframes]
          exact List.mem_cons_self
        exact h.held c (List.mem_of_getElem? hi) c.task hmem (hc.fresh c.task List.mem_cons_self)
      rw [hc.others c.task hne]
      exact ⟨gs, hframes, hlen, hki, hstack, hdir, hslot.keep hlen hki hc.maps (by omega)⟩
    · -- The new task has what its creation says.
      rw [List.getElem?_concat_length, Option.some.injEq] at hi
      subst hi
      exact ⟨fs, hc.frames, hc.maps.length, hc.maps.lt, hc.stack, hc.dir, hc.maps.mapped⟩
    · rw [List.getElem?_eq_none (by simp; omega)] at hi
      cases hi
  -- No frame that is held is free, before and behind the creation.
  case held =>
    intro c hmem x hx
    rcases List.mem_append.mp hmem with hmem | hmem
    · exact fun hf => h.held c hmem x hx (hc.shrinks x hf)
    · obtain rfl := List.mem_singleton.mp hmem
      rw [hnew] at hx
      exact hc.held x hx
  -- So the new frames are none of those that are held.
  case distinct =>
    rw [List.flatMap_append, List.flatMap_singleton, hnew, List.nodup_append]
    refine ⟨h.distinct, hc.nodup, fun a ha b hb => ?_⟩
    rintro rfl
    obtain ⟨c, hmem, hac⟩ := List.mem_flatMap.mp ha
    exact h.held c hmem a hac (hc.fresh a hb)

/-- No creation succeeds without a parent. -/
theorem createNewTask_noParent {flags : TaskCreationFlags} {priv : TaskPrivelege} :
    createNewTask env none flags priv s ≠ .ok (0, some ts, s') := by
  intro h
  obtain ⟨⟨tsPage, m⟩, -, h⟩ := Loop.exists_of_bind h
  cases tsPage with
  | none => cases h
  | some ts' =>
      obtain ⟨⟨r, s1⟩, -, h⟩ := Loop.exists_of_bind h
      dsimp only at h
      split at h
      · cases h
      · cases h

/-- The run lemma. -/
theorem Creations.mapped (hal : HandsOut env.alloc inv free) (ha : Answers env.mapped)
    (hready : TasksReady inv free env.kernelPtDirectory.entries k s0) (h : Creations env s0 cs s) :
    TasksMapped env inv free k cs s := by
  induction h with
  | refl =>
      constructor
      case ready => exact hready
      case task => intro i c hi; simp at hi
      case held => intro c hc; simp at hc
      case distinct => exact List.nodup_nil
  | @step cs s1 s2 ts parent flags priv before dir call ih =>
      cases parent with
      | none => exact absurd call createNewTask_noParent
      | some p =>
          obtain ⟨fs, hcreates⟩ := createNewTask_creates hal ha ih.ready (dir p rfl) call
          exact ih.step hcreates

/-- Every creation of a run stands behind a run and ends one. -/
theorem Creations.split {pre post : List Creation} {c : Creation}
    (h : Creations env s0 (pre ++ c :: post) s) :
    Creations env s0 pre c.before ∧ Creations env s0 (pre ++ [c]) c.after := by
  generalize hcs : pre ++ c :: post = cs at h
  induction h generalizing post with
  | refl => simp at hcs
  | @step cs s1 s2 ts parent flags priv before dir call ih =>
      rcases post.eq_nil_or_concat with rfl | ⟨post, d, rfl⟩
      · obtain ⟨rfl, hc⟩ := List.append_inj' hcs rfl
        obtain rfl := List.singleton_inj.mp hc
        exact ⟨before, .step before dir call⟩
      · have hsplit : pre ++ c :: post ++ [d] = cs ++ [⟨s1, ts, s2⟩] := by
          rw [← hcs]
          simp
        exact ih (List.append_inj' hsplit rfl).1

end Runs

/-! ### What the tasks can rely on -/

/-- The address lies in the `i`-th page from `base` on. -/
def InPage (base : Uintptr) (i : Nat) (a : Uintptr) : Prop :=
  base.toNat + 4096 * i ≤ a.toNat ∧ a.toNat < base.toNat + 4096 * (i + 1)

/-- The address is one of the stack or of the page of the task struct. -/
def OfTask (stack : KernelStack) (a : Uintptr) : Prop :=
  (∃ i, i < KERNEL_STACK_PAGES ∧ InPage stack.lowAddress i a) ∨ InPage (taskStructPage stack) 0 a

/-- After the creations `cs`, the pages of every task translate to the frames allocated for
it, all these frames are different, and no creation has changed the translation of an
address of an earlier task. -/
structure KeepsFrames (env : TaskEnv) (cs : List Creation) (s : TaskState) : Prop where
  pages : ∀ c ∈ cs, ∃ fs, c.frames env = c.task :: fs ∧ fs.length = KERNEL_STACK_PAGES ∧
    (∀ i f, fs[i]? = some f → ∀ a, InPage (s.task c.task).kernelStack.lowAddress i a →
      mmPinVirtualAddress env.mapped s.machine.mem (s.task c.task).pageDir a = .ok f) ∧
    ∀ a, InPage (taskStructPage (s.task c.task).kernelStack) 0 a →
      mmPinVirtualAddress env.mapped s.machine.mem (s.task c.task).pageDir a = .ok c.task
  distinct : (cs.flatMap (Creation.frames env)).Nodup
  kept : ∀ pre c post, cs = pre ++ c :: post → ∀ d ∈ pre, ∀ a,
    OfTask (s.task d.task).kernelStack a →
    mmPinVirtualAddress env.mapped c.after.machine.mem (s.task d.task).pageDir a
      = mmPinVirtualAddress env.mapped c.before.machine.mem (s.task d.task).pageDir a

section Rely

variable {env : TaskEnv} {inv : PageLists → Prop} {free : PageLists → PageIdx → Prop} {k : Nat}
  {cs : List Creation} {s0 s : TaskState}

/-- An address in the page of a task's structure is in the first page of its slot. -/
theorem pageOf_of_struct {a : Uintptr} (hk : k < BITMAP_ENTRIES_COUNT)
    (ha : InPage (taskStructPage (stackOf (BitVec.ofNat 32 k))) 0 a) : pageOf a = slotPage k 0 := by
  have hmod := slotBase_mod hk
  obtain ⟨hlow, hhigh⟩ := ha
  rw [toNat_taskStructPage hk] at hlow hhigh
  unfold pageOf slotPage
  omega

/-- An address in page `i` of a stack is in page `3 + i` of its slot. -/
theorem pageOf_of_stack {a : Uintptr} {i : Nat} (hk : k < BITMAP_ENTRIES_COUNT)
    (ha : InPage (stackOf (BitVec.ofNat 32 k)).lowAddress i a) : pageOf a = slotPage k (3 + i) := by
  have hmod := slotBase_mod hk
  obtain ⟨hlow, hhigh⟩ := ha
  rw [(toNat_stackOf hk).1] at hlow hhigh
  unfold pageOf slotPage
  omega

/-- The pages of the tasks stay mapped to the frames that were allocated for them. -/
theorem newTasks_keepFrames (hal : HandsOut env.alloc inv free) (ha : Answers env.mapped)
    (hready : TasksReady inv free env.kernelPtDirectory.entries k s0)
    (hrun : Creations env s0 cs s) : KeepsFrames env cs s := by
  have hmapped := hrun.mapped hal ha hready
  have hwf : ∀ {us : List Creation} {u : TaskState}, TasksMapped env inv free k us u → ∀ a,
      mmPinVirtualAddress env.mapped u.machine.mem env.kernelPtDirectory a
        = .ok (translate u.machine.mem env.kernelPtDirectory.entries a) :=
    fun hu a => mmPinVirtualAddress_eq ha hu.ready.ready.wf a
  constructor
  case pages =>
    intro c hc
    obtain ⟨i, hi⟩ := List.mem_iff_getElem?.mp hc
    obtain ⟨fs, hframes, hlen, hki, hstack, hdir, hslot⟩ := hmapped.task i c hi
    refine ⟨fs, Creation.frames_of_ok hframes, hlen, fun j f hf a hpage => ?_, fun a hpage => ?_⟩
    · rw [hstack] at hpage
      rw [hdir, hwf hmapped, hslot.stack j f hf a (pageOf_of_stack hki hpage)]
    · rw [hstack] at hpage
      rw [hdir, hwf hmapped, hslot.struct a (pageOf_of_struct hki hpage)]
  case distinct => exact hmapped.distinct
  case kept =>
    intro pre c post hcs d hd a hof
    subst hcs
    obtain ⟨hbefore, hafter⟩ := hrun.split
    have hb := hbefore.mapped hal ha hready
    have hc := hafter.mapped hal ha hready
    obtain ⟨i, hi⟩ := List.mem_iff_getElem?.mp hd
    have hlt : i < pre.length := (List.getElem?_eq_some_iff.mp hi).1
    obtain ⟨fs, hframes, hlen, hki, hstack, hdir, -⟩ :=
      hmapped.task i d (by rwa [List.getElem?_append_left hlt])
    obtain ⟨gs, hgs, -, -, -, -, hslotb⟩ := hb.task i d hi
    obtain ⟨gs', hgs', -, -, -, -, hslotc⟩ := hc.task i d (by rwa [List.getElem?_append_left hlt])
    -- Both runs speak of the frames that the creation of `d` took.
    obtain rfl : fs = gs := (List.cons_eq_cons.mp (Except.ok.inj (hframes.symm.trans hgs))).2
    obtain rfl : fs = gs' := (List.cons_eq_cons.mp (Except.ok.inj (hframes.symm.trans hgs'))).2
    rw [hstack] at hof
    rw [hdir, hwf hb, hwf hc]
    rcases hof with ⟨j, hj, hpage⟩ | hpage
    · have hpageOf := pageOf_of_stack hki hpage
      have hlen' : j < fs.length := by rwa [hlen]
      have hget : fs[j]? = some fs[j] := List.getElem?_eq_getElem hlen'
      rw [hslotb.stack j _ hget a hpageOf, hslotc.stack j _ hget a hpageOf]
    · have hpageOf := pageOf_of_struct hki hpage
      rw [hslotb.struct a hpageOf, hslotc.struct a hpageOf]

end Rely

/-! ### Two tasks -/

/-- `smallEnv` with empty tables, sixteen free frames and no stack handed out. -/
def idleStart : TaskState := smallStart (initializeStackAllocatorContext fun _ => 0)

/-- The frames of `sixteenFrames`. -/
def freeSixteen : List PageIdx := (List.range 16).map fun i => BitVec.ofNat 32 (16 + i)

/-- The cache of the example holds its sixteen frames. -/
theorem cacheHolds_sixteenFrames : CacheHolds 0 sixteenFrames freeSixteen where
  ring := by decide +kernel
  nodup := by decide +kernel
  count := rfl

/-- All of them are below 2 GB. -/
theorem low_freeSixteen (pf : PageIdx) (hpf : pf ∈ freeSixteen) : LowFrame pf := by
  obtain ⟨i, hi, rfl⟩ := List.mem_map.mp hpf
  have hlt := List.mem_range.mp hi
  rw [LowFrame, BitVec.toNat_ofNat]
  omega

/-- And tasks can be created from there. -/
theorem tasksReady_idleStart :
    TasksReady (CacheIntact 0) (InCache 0) (pframeToVirt 10) 0 idleStart where
  lists := ⟨freeSixteen, cacheHolds_sixteenFrames⟩
  ready :=
    { wf := wellFormed_of_empty (tableAddr_pframeToVirt (by decide)) fun _ => rfl
      low := fun pf hpf => low_freeSixteen pf ((inCache_iff cacheHolds_sixteenFrames pf).mp hpf)
      fresh := fun pf hpf p _ ht => by
        have hmem := (inCache_iff cacheHolds_sixteenFrames pf).mp hpf
        have hroot := (tableOf_of_empty (fun _ => rfl) ht).2
        obtain rfl := pframeToVirt_inj (low_freeSixteen pf hmem) (by decide) hroot
        exact absurd hmem (by decide) }
  handed := handed_start _

/-- The idle task creates two kernel threads with the kernel's directory. -/
theorem newTasks_keepFrames_two : ∃ cs s, cs.length = 2 ∧ Creations smallEnv idleStart cs s ∧
    KeepsFrames smallEnv cs s := by
  obtain ⟨⟨r1, o1, s1⟩, hrun1, hrest⟩ := Loop.exists_of_bind
    (b := ((0 : Status), some (16 : PageIdx), smallEnv.kernelPtDirectory, (0 : Status),
      some (24 : PageIdx)))
    (x := createNewTask smallEnv (some 9) CLONE_MM .kernel idleStart)
    (f := fun x => createNewTask smallEnv (some 9) CLONE_MM .kernel x.2.2 >>= fun y =>
      pure (x.1, x.2.1, (x.2.2.task 9).pageDir, y.1, y.2.1)) (by decide +kernel)
  obtain ⟨⟨r2, o2, s2⟩, hrun2, hpure⟩ := Loop.exists_of_bind hrest
  dsimp only at hpure
  generalize hdir : (s1.task 9).pageDir = d at hpure
  cases hpure
  have hone : Creations smallEnv idleStart [⟨idleStart, 16, s1⟩] s1 :=
    .step .refl (fun p hp => by cases hp; rfl) hrun1
  have htwo := Creations.step hone (fun p hp => by cases hp; exact hdir) hrun2
  exact ⟨_, _, rfl, htwo, newTasks_keepFrames (handsOut_allocPage 0) answers_kernelWindow
    tasksReady_idleStart htwo⟩

end MString
