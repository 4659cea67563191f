import MString.Proofs.Eza.IdleFrames

/-!
# `MString.Proofs.Eza.IdleTurn`: one turn of the loop over the processors

A turn of `initialize_idle_tasks` takes a frame for the task struct and four for the stack,
and tables as it needs them.

* `mapIdleTask_spec`: the two mappings of one task.
* `initializeIdleTask_spec`: what a turn leaves behind, as an `IdleTurn`.

Both say that the step comes to its end, and where: as long as the book has frames enough,
the cache does what the book does. A cache that is used up is another matter, for then its
list head is taken for a frame.
-/

set_option autoImplicit false

namespace MString

open Lockstep

/-- A cache with its book, over a directory none of whose tables is in the book. -/
structure Cached (boot ahead : Nat) (root : Uintptr) (F : Frames) (s : Machine PageLists) :
    Prop where
  counts : CacheCounts boot ahead s.ctx F.pages
  ready : BookReady root s.mem F

section Take

variable {boot ahead : Nat} {root : Uintptr} {F : Frames} {s : Machine PageLists}

/-- As long as the book lists a page, the cache has one. The tables do not see it cleaned. -/
theorem Cached.take (h : Cached boot ahead root F s) (clean : Bool) (hpos : 0 < F.pages.length) :
    ∃ p qs s', allocPage boot 0 clean s = .ok (some p, s') ∧ F.pages = p :: qs ∧
      Cached boot ahead root F.hold s' ∧ (∀ w, leafOf s'.mem root w = leafOf s.mem root w) ∧
      (Readable s.mem root → Readable s'.mem root) := by
  obtain ⟨q, qs, hqs⟩ := List.exists_cons_of_length_pos hpos
  have hstands := allocPage_stands h.counts 0 clean s.mem
  rw [framesAlloc_cons (by decide) hqs] at hstands
  change Together _ _ _ _ (allocPage boot 0 clean s) at hstands
  generalize allocPage boot 0 clean s = x at hstands ⊢
  cases hstands with
  | left hq => exact hq.elim
  | @ok _ x hx =>
      obtain ⟨o, m', c'⟩ := x
      obtain ⟨ho, hmem, hcounts⟩ := hx
      obtain rfl : some q = o := ho
      obtain rfl : (if clean then s.mem.clean q else s.mem) = m' := hmem
      have hlists : F.Lists q := List.mem_append_right _ (by rw [hqs]; exact List.mem_cons_self)
      have hlow := h.ready.low q hlists
      have hfresh := h.ready.fresh q hlists
      have hwf := h.ready.wf
      refine ⟨q, qs, _, rfl, hqs, ?_⟩
      cases clean with
      | false => exact ⟨⟨hcounts, h.ready.of_tableOf hwf (fun _ _ => rfl) fun x hx => hx.of_hold⟩,
          fun _ => rfl, id⟩
      | true =>
          exact ⟨⟨hcounts, h.ready.of_tableOf (hwf.clean hlow hfresh)
            (fun q hq => hwf.tableOf_clean hlow hfresh q hq) fun x hx => hx.of_hold⟩,
            fun w => hwf.leafOf_clean hlow hfresh w, fun hread => hread.clean hwf hlow hfresh⟩

end Take

/-! ### The mappings of one task -/

section Map

variable {env : TaskEnv} {boot ahead : Nat} {memTotalPages ts : PageIdx} {root virt n : Uintptr}
  {F : Frames} {s s' : TaskState} {o : Option PageIdx}

/-- One of the two mappings, with four frames for every page. -/
theorem mapIntoTask_idle (ha : Answers env.mapped) (h : Cached boot ahead root F s.machine)
    (hdir : (s.task ts).pageDir = ⟨root⟩) (hb : BelowTop virt n) (hn : n ≠ 0)
    (hs : 4 * n.toNat ≤ F.pages.length) :
    ∃ s' gs F', mapIntoTask env (idlePacc boot memTotalPages) o ts virt n s = .ok (0, s') ∧
      gs.length = n.toNat ∧ IdleHist o F.held (o, F') gs ∧
      Cached boot ahead root F' s'.machine ∧ (∀ x, F'.Lists x → F.Lists x) ∧
      LeavesTo root virt n.toNat (fun i => gs.getD i INVALID_PAGE_IDX) s.machine.mem
        s'.machine.mem ∧
      s' = { s with machine := s'.machine } ∧
      F.pages.length ≤ F'.pages.length + 4 * n.toNat := by
  -- The walk over the lists goes step by step as the one over the books of frames.
  have hstands := @mmMapPages_stands _ boot ahead _ _ KERNEL_STACK_PAGE_FLAGS
    (@sameAccessor_idlePacc boot ahead memTotalPages) env.mapped ⟨root⟩ virt n s.machine.mem o
    s.machine.ctx F h.counts
  obtain ⟨⟨m', o', F'⟩, hbook, hle⟩ := @idleFrames_stocked memTotalPages KERNEL_STACK_PAGE_FLAGS o
    env.mapped root virt n s.machine.mem F ha h.ready hb hn rfl hs
  rw [hbook] at hstands
  generalize hmap : mmMapPages env.mapped (some ⟨root⟩) (some (idlePacc boot memTotalPages)) virt n
    KERNEL_STACK_PAGE_FLAGS ⟨s.machine.mem, (o, s.machine.ctx)⟩ = x at hstands
  -- The books do not run out, so neither do the lists.
  cases hstands with
  | left hq => exact hq.elim
  | @ok _ a ha' =>
      obtain ⟨r, m, o1, c⟩ := a
      obtain ⟨hr, hmem, ho, hcache⟩ := ha'
      obtain rfl : 0 = r := hr
      obtain rfl : m' = m := hmem
      obtain rfl : o' = o1 := ho
      obtain ⟨gs, hlen, hhist, hready, hlists, hleaves⟩ := idleFrames_maps ha h.ready hb hn hbook
      obtain rfl : o' = o := hhist.1
      refine ⟨{ s with machine := ⟨m', c⟩ }, gs, F', ?_, hlen, hhist, ⟨hcache, hready⟩, hlists,
        hleaves, rfl, hle⟩
      rw [mapIntoTask, hdir, hmap, Loop.ok_bind]
      rfl

/-- The pages of a slot that a task has: the struct and the stack. -/
def OfSlot (k : Nat) (w : Uintptr) : Prop :=
  pageOf w = slotPage k 0 ∨ ∃ i, i < KERNEL_STACK_PAGES ∧ pageOf w = slotPage k (3 + i)

/-- They have leaves with the frames of the task. -/
structure SlotHas (root : Uintptr) (m : Mem) (k : Nat) (ts : PageIdx) (fs : List PageIdx) :
    Prop where
  struct : ∀ w, pageOf w = slotPage k 0 → ∃ e, leafOf m root w = some e ∧ e.base = ts
  stack : ∀ i f, fs[i]? = some f → ∀ w, pageOf w = slotPage k (3 + i) →
    ∃ e, leafOf m root w = some e ∧ e.base = f

/-- What the two mappings of a task change. -/
structure SlotLeaves (root : Uintptr) (k : Nat) (ts : PageIdx) (fs : List PageIdx) (m m' : Mem) :
    Prop where
  has : SlotHas root m' k ts fs
  others : ∀ w, ¬ OfSlot k w → leafOf m' root w = leafOf m root w
  readable : Readable m root → Readable m' root

/-- The stack is mapped first, and then the struct below it. -/
theorem slotLeaves_of_maps {k : Nat} {fs gs : List PageIdx} {m m1 m' : Mem}
    (hk : k < BITMAP_ENTRIES_COUNT) (hfs : fs.length = KERNEL_STACK_PAGES) (hgs : gs = [ts])
    (hstack : LeavesTo root (stackOf (BitVec.ofNat 32 k)).lowAddress 4
      (fun i => fs.getD i INVALID_PAGE_IDX) m m1)
    (hstruct : LeavesTo root (taskStructPage (stackOf (BitVec.ofNat 32 k))) 1
      (fun i => gs.getD i INVALID_PAGE_IDX) m1 m') : SlotLeaves root k ts fs m m' := by
  subst hgs
  have hzero : pageOf (taskStructPage (stackOf (BitVec.ofNat 32 k)) + BitVec.ofNat 64 (4096 * 0))
      = slotPage k 0 := by
    rw [Nat.mul_zero, BitVec.add_zero, pageOf_taskStructPage hk]
  have hother : ∀ w, pageOf w ≠ slotPage k 0 → leafOf m' root w = leafOf m1 root w := by
    intro w hw
    refine hstruct.outside w fun i hi => ?_
    obtain rfl : i = 0 := Nat.lt_one_iff.mp hi
    rwa [hzero]
  refine ⟨⟨fun w hw => hstruct.inside 0 Nat.one_pos w (hw.trans hzero.symm), ?_⟩, ?_,
    fun h => hstruct.readable (hstack.readable h)⟩
  · intro i f hf w hw
    have hi : i < 4 := by
      have := (List.getElem?_eq_some_iff.mp hf).1
      rwa [hfs] at this
    -- the page of the struct is another one
    rw [hother w fun heq => ?_]
    · obtain ⟨e, he, hbase⟩ := hstack.inside i hi w (hw.trans (pageOf_stackPage hk hi).symm)
      exact ⟨e, he, by rw [hbase, List.getD_eq_getElem?_getD, hf, Option.getD_some]⟩
    · have := (slotPage_inj hk hk (by omega) (by omega) (hw.symm.trans heq)).2
      omega
  · intro w hw
    rw [hother w fun heq => hw (.inl heq)]
    refine hstack.outside w fun i hi heq => hw (.inr ⟨i, hi, ?_⟩)
    rw [heq, pageOf_stackPage hk hi]

/-- The same, seen from an earlier memory with the same leaves. -/
theorem SlotLeaves.of_leafOf {k : Nat} {fs : List PageIdx} {m m1 m' : Mem}
    (h : SlotLeaves root k ts fs m1 m') (hleaf : ∀ w, leafOf m1 root w = leafOf m root w)
    (hread : Readable m root → Readable m1 root) : SlotLeaves root k ts fs m m' :=
  ⟨h.has, fun w hw => (h.others w hw).trans (hleaf w), fun h0 => h.readable (hread h0)⟩

/-- The mappings of a task in the `k`-th slot: twenty frames are enough for them. -/
theorem mapIdleTask_spec {k : Nat} (ha : Answers env.mapped)
    (h : Cached boot ahead root F s.machine) (hk : k < BITMAP_ENTRIES_COUNT)
    (hdir : (s.task ts).pageDir = ⟨root⟩)
    (hstack : (s.task ts).kernelStack = stackOf (BitVec.ofNat 32 k))
    (hs : 20 ≤ F.pages.length) :
    ∃ s' fs F', mapIdleTask env boot memTotalPages ts s = .ok s' ∧
      fs.length = KERNEL_STACK_PAGES ∧ F'.held = F.held ++ fs ∧
      Cached boot ahead root F' s'.machine ∧ (∀ x, F'.Lists x → F.Lists x) ∧
      SlotLeaves root k ts fs s.machine.mem s'.machine.mem ∧
      s' = { s with machine := s'.machine } ∧ F.pages.length ≤ F'.pages.length + 20 := by
  have hfour : (BitVec.ofNat 64 KERNEL_STACK_PAGES).toNat = 4 := rfl
  have hone : (1 : Uintptr).toNat = 1 := rfl
  obtain ⟨s1, fs, F1, hmap1, hlen1, hhist1, hcached1, hlists1, hleaves1, hs1, hle1⟩ :=
    @mapIntoTask_idle env boot ahead memTotalPages ts root _ _ F s none ha h hdir
      (belowTop_stack hk) (by decide) (by omega)
  have hdir1 : (s1.task ts).pageDir = ⟨root⟩ := by
    rw [hs1]
    exact hdir
  obtain ⟨s2, gs, F2, hmap2, hlen2, hhist2, hcached2, hlists2, hleaves2, hs2, hle2⟩ :=
    @mapIntoTask_idle env boot ahead memTotalPages ts root _ _ F1 s1 (some ts) ha hcached1 hdir1
      (belowTop_taskStruct hk) (by decide) (by omega)
  -- the second mapping yields the frame of the struct
  obtain ⟨-, hheld2, hall⟩ := hhist2
  have hgs : gs = [ts] := by
    obtain ⟨g, rfl⟩ := List.length_eq_one_iff.mp hlen2
    rw [hall g (by simp)]
  refine ⟨s2, fs, F2, ?_, hlen1, hheld2.trans hhist1.2, hcached2,
    fun x hx => hlists1 x (hlists2 x hx), slotLeaves_of_maps hk hlen1 hgs hleaves1 hleaves2,
    by rw [hs2, hs1], by omega⟩
  rw [mapIdleTask, hstack, hmap1, Loop.ok_bind]
  dsimp only
  rw [if_neg (by simp), hmap2, Loop.ok_bind]
  rfl

end Map

/-! ### One turn -/

/-- The state once the struct of an idle task has its frame. -/
def withIdleTask (env : TaskEnv) (ts : PageIdx) (m : Machine PageLists) (s : TaskState) :
    TaskState :=
  let k := { s with machine := m }.setData ts .zero
  k.setTask ts { k.task ts with pid := 0, ppid := 0, pageDir := env.kernelPtDirectory }

/-- What is left to do once its pages are mapped. -/
def finishIdleTask (ts : PageIdx) (cpu : Nat) (s : TaskState) : TaskState :=
  let k := s.setTask ts { s.task ts with archContext := ⟨k2p (s.task ts).pageDir.entries, 0⟩ }
  k.setData ts (initializeTaskSystemData (k.taskData ts) (BitVec.ofNat 32 cpu))

/-- The struct of the idle task of `cpu`. -/
def idleData (env : TaskEnv) (cpu : Nat) : KernelTaskData where
  systemData := ⟨BitVec.ofNat 32 cpu, 0⟩
  task :=
    { pid := 0
      ppid := 0
      kernelStack := stackOf (BitVec.ofNat 32 cpu)
      pageDir := env.kernelPtDirectory
      archContext := ⟨k2p env.kernelPtDirectory.entries, 0⟩ }

section Turn

variable {env : TaskEnv} {boot ahead cpu : Nat} {memTotalPages ts : PageIdx} {s s' : IdleState}
  {m : Machine PageLists} {k k' : TaskState}

/-- The parts of a turn. -/
theorem initializeIdleTask_eq (halloc : allocPage boot 0 true s.kernel.machine = .ok (some ts, m))
    (hstack : allocateTaskStack ts (withIdleTask env ts m s.kernel) = (0, k)) :
    initializeIdleTask env boot memTotalPages s cpu
      = (mapIdleTask env boot memTotalPages ts k).map fun k' =>
          ⟨finishIdleTask ts cpu k', Function.update s.idleTasks cpu (some ts)⟩ := by
  rw [initializeIdleTask, halloc, Loop.ok_bind]
  unfold withIdleTask at hstack
  dsimp only at hstack ⊢
  rw [hstack]
  dsimp only
  rw [if_neg (by simp)]
  cases mapIdleTask env boot memTotalPages ts k with
  | error e => rfl
  | ok k' => rfl

/-- The kernel stack that a turn takes. -/
theorem allocateTaskStack_idle (h : Handed cpu s.kernel.mainStackCtx)
    (hcpu : cpu < BITMAP_ENTRIES_COUNT) :
    ∃ k, allocateTaskStack ts (withIdleTask env ts m s.kernel) = (0, k) ∧
      Handed (cpu + 1) k.mainStackCtx ∧ k.machine = m ∧
      (k.task ts).kernelStack = stackOf (BitVec.ofNat 32 cpu) ∧
      (k.task ts).pageDir = env.kernelPtDirectory ∧
      ∀ k', (∀ q, k'.taskData q = k.taskData q) →
        (finishIdleTask ts cpu k').taskData ts = idleData env cpu ∧
        ∀ q, q ≠ ts → (finishIdleTask ts cpu k').taskData q = s.kernel.taskData q := by
  obtain ⟨ctx, hstack, hhanded⟩ := allocateKernelStack_lt h hcpu
    ((withIdleTask env ts m s.kernel).task ts).kernelStack
  have hrun : allocateTaskStack ts (withIdleTask env ts m s.kernel)
      = (0, { (withIdleTask env ts m s.kernel).setTask ts
          { (withIdleTask env ts m s.kernel).task ts with
            kernelStack := stackOf (BitVec.ofNat 32 cpu) } with mainStackCtx := ctx }) := by
    have hctx : (withIdleTask env ts m s.kernel).mainStackCtx = s.kernel.mainStackCtx := rfl
    rw [allocateTaskStack, hctx, hstack]
  refine ⟨_, hrun, hhanded, rfl, ?_, ?_, fun k' hk' => ⟨?_, fun q hq => ?_⟩⟩
  · simp [withIdleTask, TaskState.task]
  · simp [withIdleTask, TaskState.task]
  · simp [finishIdleTask, withIdleTask, TaskState.task, hk', idleData, KernelTaskData.zero,
      initializeTaskSystemData]
  · simp [finishIdleTask, withIdleTask, TaskState.task, hk', hq]

/-- There is a stack for a turn that ends well. -/
theorem lt_of_initializeIdleTask (h : Handed cpu s.kernel.mainStackCtx)
    (hrun : initializeIdleTask env boot memTotalPages s cpu = .ok s') :
    cpu < BITMAP_ENTRIES_COUNT := by
  have hle : cpu ≤ BITMAP_ENTRIES_COUNT := by
    have := h.free
    omega
  refine Nat.lt_of_le_of_ne hle ?_
  rintro rfl
  obtain ⟨⟨o, m⟩, -, hrun⟩ := Loop.exists_of_bind hrun
  cases o with
  | none => cases hrun
  | some ts =>
      have hfull := allocateKernelStack_full h
        ((withIdleTask env ts m s.kernel).task ts).kernelStack
      have hctx : (withIdleTask env ts m s.kernel).mainStackCtx = s.kernel.mainStackCtx := rfl
      have hstack : (allocateTaskStack ts (withIdleTask env ts m s.kernel)).1 ≠ 0 := by
        rw [allocateTaskStack, hctx, hfull]
        show (-ENOENT : Status) ≠ 0
        decide
      unfold withIdleTask at hstack
      dsimp only at hrun hstack
      rw [if_pos hstack] at hrun
      cases hrun

/-- What a turn of the loop does, for the task `ts` with the frames `fs` of its stack. -/
structure IdleTurn (env : TaskEnv) (boot ahead cpu : Nat) (F : Frames) (s : IdleState)
    (ts : PageIdx) (fs : List PageIdx) (F' : Frames) (s' : IdleState) : Prop where
  cached : Cached boot ahead env.kernelPtDirectory.entries F' s'.kernel.machine
  held : F'.held = F.held ++ ts :: fs
  fresh : ts ∉ F.held
  lists : ∀ x, F'.Lists x → F.Lists x
  handed : Handed (cpu + 1) s'.kernel.mainStackCtx
  registered : s'.idleTasks = Function.update s.idleTasks cpu (some ts)
  data : s'.kernel.taskData ts = idleData env cpu
  others : ∀ q, q ≠ ts → s'.kernel.taskData q = s.kernel.taskData q
  length : fs.length = KERNEL_STACK_PAGES
  lt : cpu < BITMAP_ENTRIES_COUNT
  leaves : SlotLeaves env.kernelPtDirectory.entries cpu ts fs s.kernel.machine.mem
    s'.kernel.machine.mem

/-- A turn comes to its end with 21 frames, if there is a stack for it. -/
theorem initializeIdleTask_spec {F : Frames} (ha : Answers env.mapped)
    (h : Cached boot ahead env.kernelPtDirectory.entries F s.kernel.machine)
    (hh : Handed cpu s.kernel.mainStackCtx) (hlt : cpu < BITMAP_ENTRIES_COUNT)
    (hs : 21 ≤ F.pages.length) :
    ∃ s' ts fs F', initializeIdleTask env boot memTotalPages s cpu = .ok s' ∧
      IdleTurn env boot ahead cpu F s ts fs F' s' ∧ F.pages.length ≤ F'.pages.length + 21 := by
  -- The first frame of the cache becomes the task's structure, and its stack is the next one.
  obtain ⟨ts, qs, m, halloc, hpages, hcached, hleaf, hread⟩ := h.take true (by omega)
  obtain ⟨k, hstack, hhanded, hm, hkstack, hkdir, hdata⟩ :=
    @allocateTaskStack_idle env _ ts s m hh hlt
  rw [← hm] at hcached hleaf hread
  have hhold : F.hold.pages.length + 1 = F.pages.length := by
    show F.pages.tail.length + 1 = _
    rw [hpages]
    rfl
  -- The frames of the stack are drawn from what is left then.
  obtain ⟨k', fs, F', hmap, hlen, hheld, hcached', hlists, hleaves, hk', hle⟩ :=
    @mapIdleTask_spec env boot ahead memTotalPages ts _ _ k _ ha hcached hlt hkdir hkstack
      (by omega)
  obtain ⟨hnew, hold⟩ := hdata k' fun q => by rw [hk']
  have hctx : k'.mainStackCtx = k.mainStackCtx := by rw [hk']
  refine ⟨_, ts, fs, F', by rw [initializeIdleTask_eq halloc hstack, hmap]; rfl, ?_, by omega⟩
  constructor
  case cached => exact hcached'
  case held =>
    rw [hheld]
    show F.held ++ F.pages.take 1 ++ fs = _
    rw [hpages, List.append_assoc]
    rfl
  case fresh =>
    intro hts
    have hnd := F.nodup
    rw [hpages] at hnd
    exact (List.nodup_append.mp hnd).2.2 ts hts ts List.mem_cons_self rfl
  case lists => exact fun x hx => (hlists x hx).of_hold
  case handed =>
    show Handed _ k'.mainStackCtx
    rw [hctx]
    exact hhanded
  case registered => rfl
  case data => exact hnew
  case others => exact hold
  case length => exact hlen
  case lt => exact hlt
  case leaves => exact hleaves.of_leafOf hleaf hread

end Turn

end MString
