import MString.Proofs.Eza.Task
import MString.Proofs.Mm.BelowTop

/-!
# `MString.Proofs.Eza.TaskPages`: the pages of a task

`create_new_task` takes five frames for a task, one for its struct and four for its kernel
stack, and maps them in the slot of the stack: the struct in the first page, the stack in
the fourth to the seventh.

* `stackPagesLoop_spec`: `alloc_stack_pages` links the frames it takes to a ring.
* `createNewTask_creates`: a creation maps these frames in the slot of the task's stack, and
  nothing else changes.
-/

set_option autoImplicit false

namespace MString

/-! ### `alloc_stack_pages` -/

/-- What becomes of a new page in `alloc_stack_pages`. -/
def linkStackPage (first : Option PageIdx) (p : PageIdx) (links : ListHeads ListPtr) :
    Except Fault (ListHeads ListPtr) :=
  match first with
  | none => .ok (initListHead links (.frame p))
  | some first => listAddTail (initListHead links (.frame p)) (.frame p) (.frame first)

/-- One turn of the loop that draws the stack's pages. -/
theorem stackPagesLoop_succ (alloc : PageAllocator PageLists) (n : Nat) (first : Option PageIdx)
    (s : Machine PageLists) :
    stackPagesLoop alloc (n + 1) first s = (do
      let (p, s) ← alloc GENERIC_KERNEL_PAGE false s
      match p with
      | none => return (none, s)
      | some p =>
          let links ← linkStackPage first p s.ctx.links
          stackPagesLoop alloc n (some (first.getD p)) ⟨s.mem, { s.ctx with links := links }⟩) := by
  cases first <;> rfl

/-- The frames that `alloc_page` returns in the loop of `alloc_stack_pages`. -/
def stackFramesLoop (alloc : PageAllocator PageLists) :
    Nat → Option PageIdx → Machine PageLists → Except Fault (List PageIdx)
  | 0, _, _ => .ok []
  | n + 1, first, s => do
      let (p, s) ← alloc GENERIC_KERNEL_PAGE false s
      match p with
      | none => return []
      | some p =>
          let links ← linkStackPage first p s.ctx.links
          let fs ← stackFramesLoop alloc n (some (first.getD p))
            ⟨s.mem, { s.ctx with links := links }⟩
          return p :: fs

/-- The frames `fs` are handed out, and linked to a ring that starts at `first`. -/
structure StackRing (free : PageLists → PageIdx → Prop) (c : PageLists) (first : Option PageIdx)
    (fs : List PageIdx) : Prop where
  first : fs.head? = first
  ring : ∀ b qs, fs = b :: qs → Ring.IsRing c.links (.frame b) (qs.map .frame)
  nodup : fs.Nodup
  held : ∀ x ∈ fs, ¬ free c x

section StackPages

variable {alloc : PageAllocator PageLists} {inv : PageLists → Prop}
  {free : PageLists → PageIdx → Prop}

/-- No page has been drawn yet. -/
theorem stackRing_nil (c : PageLists) : StackRing free c none [] where
  first := rfl
  ring b qs h := by cases h
  nodup := List.nodup_nil
  held x hx := by simp at hx

/-- Linking a page changes the links of that page and of those in the ring. -/
theorem linkStackPage_ring {c : PageLists} {first : Option PageIdx} {fs : List PageIdx}
    {p : PageIdx} (h : StackRing free c first fs) (hp : p ∉ fs) :
    ∃ links, linkStackPage first p c.links = .ok links ∧
      (∀ b qs, fs ++ [p] = b :: qs → Ring.IsRing links (.frame b) (qs.map .frame)) ∧
      ∀ l, (∀ x ∈ fs ++ [p], l ≠ .frame x) →
        links.next l = c.links.next l ∧ links.prev l = c.links.prev l := by
  have hinit : ∀ l, (∀ x ∈ fs ++ [p], l ≠ .frame x) →
      (initListHead c.links (.frame p)).next l = c.links.next l ∧
        (initListHead c.links (.frame p)).prev l = c.links.prev l := by
    intro l hl
    have hlp : l ≠ .frame p := hl p (by simp)
    simp [initListHead, hlp]
  have hfirst := h.first
  -- the first frame is the ring by itself, each later one goes before it
  cases fs with
  | nil =>
      obtain rfl : first = none := hfirst.symm
      refine ⟨_, rfl, fun b qs hbq => ?_, hinit⟩
      obtain ⟨rfl, rfl⟩ := List.cons_eq_cons.mp hbq
      exact isRing_initListHead _ _
  | cons f fs =>
      obtain rfl : first = some f := hfirst.symm
      have hnd := h.nodup
      have hnodup : ((ListPtr.frame f) :: fs.map ListPtr.frame).Nodup := by
        rw [← List.map_cons]
        exact hnd.map fun a b hab => ListPtr.frame.inj hab
      have hout : (ListPtr.frame p) ∉ (ListPtr.frame f) :: fs.map ListPtr.frame := by
        rw [← List.map_cons]
        simpa using hp
      have hring := initListHead_frame (h.ring f fs rfl) hout
      refine ⟨_, listAddTail_ring hring, fun b qs hbq => ?_, fun l hl => ?_⟩
      · rw [List.cons_append] at hbq
        obtain ⟨rfl, rfl⟩ := List.cons_eq_cons.mp hbq
        rw [List.map_append, List.map_singleton]
        exact Ring.ring_insert hring hnodup hout
      · rw [← (hinit l hl).1, ← (hinit l hl).2]
        have hlp : l ≠ .frame p := hl p (by simp)
        have hlf : l ≠ .frame f := hl f (by simp)
        have hlast : l ≠ ((ListPtr.frame f) :: fs.map ListPtr.frame).getLast (by simp) := by
          intro heq
          have hmem := List.getLast_mem (l := (ListPtr.frame f) :: fs.map ListPtr.frame) (by simp)
          rw [← heq, ← List.map_cons] at hmem
          obtain ⟨x, hx, hxl⟩ := List.mem_map.mp hmem
          exact hl x (List.mem_append_left _ hx) hxl.symm
        simp [Ring.Links.insert, hlp, hlf, hlast]

/-- One turn of the loop takes a page and links it. -/
theorem StackRing.push (h : HandsOut alloc inv free) {s t : Machine PageLists}
    {first : Option PageIdx} {fs : List PageIdx} {p : PageIdx} {flags : PageFlags} {clean : Bool}
    (hring : StackRing free s.ctx first fs) (hinv : inv s.ctx)
    (halloc : alloc flags clean s = .ok (some p, t)) :
    ∃ links, linkStackPage first p t.ctx.links = .ok links ∧ inv ⟨links, t.ctx.caches⟩ ∧
      StackRing free ⟨links, t.ctx.caches⟩ (some (first.getD p)) (fs ++ [p]) ∧
      ∀ x, free ⟨links, t.ctx.caches⟩ x → free s.ctx x ∧ x ≠ p := by
  obtain ⟨hpf, -, hfree⟩ := h.some hinv halloc
  have hp : p ∉ fs := fun hmem => hring.held p hmem hpf
  have hheld : ∀ x ∈ fs ++ [p], ¬ free t.ctx x := by
    intro x hx hf
    obtain ⟨hf', hne⟩ := hfree x hf
    rcases List.mem_append.mp hx with hx | hx
    · exact hring.held x hx hf'
    · exact hne (List.mem_singleton.mp hx)
  -- The allocation has left the ring alone.
  have hring' : StackRing free t.ctx first fs := by
    refine ⟨hring.first, fun b qs hbq => ?_, hring.nodup, fun x hx => hheld x (by simp [hx])⟩
    have hkeep : ∀ l ∈ ListPtr.frame b :: qs.map ListPtr.frame,
        t.ctx.links.next l = s.ctx.links.next l ∧ t.ctx.links.prev l = s.ctx.links.prev l := by
      intro l hl
      rw [← List.map_cons, ← hbq] at hl
      obtain ⟨x, hx, rfl⟩ := List.mem_map.mp hl
      exact h.links hinv halloc x (hring.held x hx)
    exact (hring.ring b qs hbq).congr (fun l hl => (hkeep l hl).1) fun l hl => (hkeep l hl).2
  obtain ⟨links, hlink, hnew, hagree⟩ := linkStackPage_ring hring' hp
  obtain ⟨hinv', hfree'⟩ := h.relink (h.keeps hinv halloc) fun l hl => hagree l fun x hx heq =>
    hheld x hx (hl x heq)
  refine ⟨links, hlink, hinv', ⟨?_, hnew, ?_, fun x hx hf => hheld x hx (hfree' x hf)⟩,
    fun x hx => hfree x (hfree' x hx)⟩
  · rw [List.head?_append, hring.first]
    cases first <;> rfl
  · rw [List.nodup_append]
    refine ⟨hring.nodup, List.nodup_singleton p, fun a ha b hb => ?_⟩
    rw [List.mem_singleton.mp hb]
    rintro rfl
    exact hp ha

/-- The loop of `alloc_stack_pages` makes a ring of the frames it takes, unless the allocator
has no page. -/
theorem stackPagesLoop_spec (h : HandsOut alloc inv free) :
    ∀ (n : Nat) (first : Option PageIdx) (taken : List PageIdx) (s s' : Machine PageLists)
      (b : PageIdx), inv s.ctx → StackRing free s.ctx first taken →
      stackPagesLoop alloc n first s = .ok (some b, s') →
      ∃ fs, stackFramesLoop alloc n first s = .ok fs ∧ fs.length = n ∧ inv s'.ctx ∧
        s'.mem = s.mem ∧ StackRing free s'.ctx (some b) (taken ++ fs) ∧
        (∀ x ∈ fs, free s.ctx x) ∧ ∀ x, free s'.ctx x → free s.ctx x := by
  intro n
  -- on the pages left to allocate; `taken` are the ones already in the ring
  induction n with
  | zero =>
      intro first taken s s' b hinv hring hrun
      cases hrun
      exact ⟨[], rfl, rfl, hinv, rfl, by rwa [List.append_nil], by simp, fun _ hx => hx⟩
  | succ n ih =>
      intro first taken s s' b hinv hring hrun
      rw [stackPagesLoop_succ] at hrun
      obtain ⟨⟨p, t⟩, halloc, hrun⟩ := Loop.exists_of_bind hrun
      cases p with
      | none => cases hrun
      | some p =>
          obtain ⟨hpf, hmem, -⟩ := h.some hinv halloc
          obtain ⟨links, hlink, hinv', hring', hfree⟩ := hring.push h hinv halloc
          dsimp only at hrun
          rw [hlink, Loop.ok_bind] at hrun
          obtain ⟨fs, hfs, hlen, hinv2, hmem2, hring2, hin, hfree2⟩ :=
            ih _ (taken ++ [p]) ⟨t.mem, ⟨links, t.ctx.caches⟩⟩ s' b hinv' hring' hrun
          refine ⟨p :: fs, ?_, by rw [List.length_cons, hlen], hinv2, ?_, ?_, ?_,
            fun x hx => (hfree x (hfree2 x hx)).1⟩
          · rw [stackFramesLoop, halloc, Loop.ok_bind]
            dsimp only
            rw [hlink, Loop.ok_bind, hfs]
            rfl
          · rw [hmem2]
            exact hmem
          · rwa [List.append_assoc] at hring2
          · intro x hx
            rcases List.mem_cons.mp hx with rfl | hx
            · exact hpf
            · exact (hfree x (hin x hx)).1

end StackPages

/-! ### The steps of a creation -/

/-- The frames that `alloc_page` returns to `create_new_task` for the task struct and for
the stack. -/
def taskFrames (env : TaskEnv) (s : TaskState) : Except Fault (List PageIdx) := do
  let (tsPage, m) ← env.alloc GENERIC_KERNEL_PAGE true s.machine
  match tsPage with
  | none => return []
  | some ts =>
      let fs ← stackFramesLoop env.alloc KERNEL_STACK_PAGES none m
      return ts :: fs

section Inversion

variable {env : TaskEnv} {ts p : PageIdx} {flags : TaskCreationFlags} {priv : TaskPrivelege}
  {s s' : TaskState}

/-- The steps take the directory from the parent. -/
theorem pageDir_of_setupNewTask {parent : Option PageIdx}
    (h : setupNewTask env ts parent flags s = .ok (0, s')) :
    (s'.task ts).pageDir = taskDirectory env parent s := by
  rcases hstack : allocateTaskStack ts s with ⟨r, s1⟩
  -- The stack allocator changes no task's directory.
  have hdir : ∀ q, (s1.task q).pageDir = (s.task q).pageDir := by
    intro q
    unfold allocateTaskStack at hstack
    cases hstack
    by_cases hq : q = ts <;> simp [TaskState.task, hq]
  rw [setupNewTask, hstack] at h
  dsimp only at h
  by_cases hr : r = 0
  · rw [if_neg (not_not.mpr (if_neg (not_not.mpr hr)))] at h
    rcases hmm : initializeMm env parent ts flags s1 with ⟨r1, s2⟩
    rw [hmm] at h
    dsimp only at h
    -- The only step that does is `initialize_mm`.
    rcases initializeMm_cases hmm with ⟨rfl, rfl⟩ | hr1
    · rw [if_neg (by decide)] at h
      obtain ⟨⟨r2, s3⟩, hmap, h⟩ := Loop.exists_of_bind h
      dsimp only at h
      split at h
      · case isTrue hne =>
          cases h
          exact absurd rfl hne
      · case isFalse hr2 =>
          cases h
          rcases mapNewTask_cases hmap with ⟨-, m, rfl, -⟩ | hneg
          · cases parent with
            | none => simp [TaskState.task, taskDirectory]
            | some q => simpa [TaskState.task, taskDirectory] using hdir q
          · rw [not_not.mp hr2] at hneg
            exact absurd hneg (by decide)
    · rw [if_pos (Int.ne_of_lt hr1)] at h
      cases h
      exact absurd hr1 (by decide)
  · -- Without a stack the function fails.
    rw [if_pos (by rw [if_pos hr]; decide), if_pos hr] at h
    cases h

/-- What a creation that succeeds has done. -/
theorem createNewTask_ok (h : createNewTask env (some p) flags priv s = .ok (0, some ts, s')) :
    ∃ m s1, env.alloc GENERIC_KERNEL_PAGE true s.machine = .ok (some ts, m) ∧
      (s1.task ts).pageDir = ((s.withFrame m ts).task p).pageDir ∧
      Prepared env ts (some p) (s.withFrame m ts) s1 ∧ s' = finishNewTask env ts p s1 := by
  obtain ⟨⟨tsPage, m⟩, halloc, h⟩ := Loop.exists_of_bind h
  cases tsPage with
  | none => cases h
  | some ts' =>
      obtain ⟨⟨r, s1⟩, hsetup, h⟩ := Loop.exists_of_bind h
      dsimp only at h
      split at h
      · cases h
      · case isFalse hr =>
          obtain rfl : r = 0 := not_not.mp hr
          cases h
          have hstack : (allocateTaskStack ts (s.withFrame m ts)).1 = 0 := by
            by_contra hne
            have hone : (1 : Status) = 0 :=
              congrArg Prod.fst (Except.ok.inj ((setupNewTask_exhausted hne).symm.trans hsetup))
            exact one_ne_zero hone
          rcases setupNewTask_cases hstack hsetup with ⟨-, hprep⟩ | hneg
          · exact ⟨m, s1, halloc, pageDir_of_setupNewTask hsetup, hprep, rfl⟩
          · exact absurd hneg (by decide)

end Inversion

/-! ### The pages of a slot -/

/-- The `j`-th page of the `k`-th slot. -/
def slotPage (k j : Nat) : Nat := (slotBase k / 4096 + j) % 2 ^ 36

/-- Eight pages for each stack, and no page for two. -/
theorem slotPage_inj {k k' j j' : Nat} (hk : k < BITMAP_ENTRIES_COUNT)
    (hk' : k' < BITMAP_ENTRIES_COUNT) (hj : j < 8) (hj' : j' < 8)
    (h : slotPage k j = slotPage k' j') : k = k' ∧ j = j' := by
  have hcount : BITMAP_ENTRIES_COUNT = 507 := by decide
  unfold slotPage slotBase at h
  omega

section Slot

variable {k : Nat}

/-- A task's structure is in the first page of its slot. -/
theorem pageOf_taskStructPage (hk : k < BITMAP_ENTRIES_COUNT) :
    pageOf (taskStructPage (stackOf (BitVec.ofNat 32 k))) = slotPage k 0 := by
  unfold pageOf slotPage
  rw [toNat_taskStructPage hk]
  omega

/-- And the stack is in the fourth and those behind it. -/
theorem pageOf_stackPage (hk : k < BITMAP_ENTRIES_COUNT) {i : Nat} (hi : i < 4) :
    pageOf ((stackOf (BitVec.ofNat 32 k)).lowAddress + BitVec.ofNat 64 (4096 * i))
      = slotPage k (3 + i) := by
  have hcount : BITMAP_ENTRIES_COUNT = 507 := by decide
  obtain ⟨hlow, -⟩ := toNat_stackOf hk
  have hmod := slotBase_mod hk
  unfold pageOf slotPage
  rw [toNat_page (by rw [hlow]; unfold slotBase; omega), hlow]
  omega

/-- A stack ends below the top of the address space. -/
theorem belowTop_stack (hk : k < BITMAP_ENTRIES_COUNT) :
    BelowTop (stackOf (BitVec.ofNat 32 k)).lowAddress (BitVec.ofNat 64 KERNEL_STACK_PAGES) := by
  have hcount : BITMAP_ENTRIES_COUNT = 507 := by decide
  obtain ⟨hlow, -⟩ := toNat_stackOf hk
  have hmod := slotBase_mod hk
  have hpages : (BitVec.ofNat 64 KERNEL_STACK_PAGES).toNat = 4 := rfl
  unfold slotBase at hlow hmod
  constructor <;> omega

/-- And so does the page of the structure. -/
theorem belowTop_taskStruct (hk : k < BITMAP_ENTRIES_COUNT) :
    BelowTop (taskStructPage (stackOf (BitVec.ofNat 32 k))) 1 := by
  have hcount : BITMAP_ENTRIES_COUNT = 507 := by decide
  have hbase := toNat_taskStructPage hk
  have hmod := slotBase_mod hk
  have hone : (1 : Uintptr).toNat = 1 := rfl
  unfold slotBase at hbase hmod
  constructor <;> omega

end Slot

/-- `m` translates the pages of the `k`-th slot to the frames of its task: the struct in `ts`
and the stack in `fs`. -/
structure SlotMapped (root : Uintptr) (m : Mem) (k : Nat) (ts : PageIdx) (fs : List PageIdx) :
    Prop where
  struct : ∀ w, pageOf w = slotPage k 0 → translate m root w = ts
  stack : ∀ i f, fs[i]? = some f → ∀ w, pageOf w = slotPage k (3 + i) → translate m root w = f

/-- The two mappings of a creation. -/
structure SlotMaps (root : Uintptr) (k : Nat) (ts : PageIdx) (fs : List PageIdx) (m m' : Mem) :
    Prop where
  lt : k < BITMAP_ENTRIES_COUNT
  length : fs.length = KERNEL_STACK_PAGES
  maps : ∃ m1, MapsTo root (stackOf (BitVec.ofNat 32 k)).lowAddress 4
      (fun i => fs.getD i INVALID_PAGE_IDX) m m1 ∧
    MapsTo root (taskStructPage (stackOf (BitVec.ofNat 32 k))) 1 (fun _ => ts) m1 m'

section SlotMaps

variable {root : Uintptr} {k : Nat} {ts : PageIdx} {fs : List PageIdx} {m m' : Mem}

/-- Memory that translates alike may come first. -/
theorem SlotMaps.of_translate {m0 : Mem} (h : SlotMaps root k ts fs m m')
    (heq : ∀ w, translate m root w = translate m0 root w) : SlotMaps root k ts fs m0 m' where
  lt := h.lt
  length := h.length
  maps := by
    obtain ⟨m1, hstack, hstruct⟩ := h.maps
    exact ⟨m1, ⟨hstack.pages, fun w hw => (hstack.others w hw).trans (heq w)⟩, hstruct⟩

/-- The pages of other slots are not touched. -/
theorem SlotMaps.others (h : SlotMaps root k ts fs m m') {w : Uintptr}
    (hw : ∀ j, j < 8 → pageOf w ≠ slotPage k j) : translate m' root w = translate m root w := by
  obtain ⟨m1, hstack, hstruct⟩ := h.maps
  rw [hstruct.others w fun i hi => ?_, hstack.others w fun i hi => ?_]
  · rw [pageOf_stackPage h.lt hi]
    exact hw _ (by omega)
  · obtain rfl : i = 0 := Nat.lt_one_iff.mp hi
    rw [Nat.mul_zero, BitVec.add_zero, pageOf_taskStructPage h.lt]
    exact hw 0 (by omega)

/-- The slot is mapped afterwards. -/
theorem SlotMaps.mapped (h : SlotMaps root k ts fs m m') : SlotMapped root m' k ts fs := by
  obtain ⟨m1, hstack, hstruct⟩ := h.maps
  have hzero : pageOf (taskStructPage (stackOf (BitVec.ofNat 32 k)) + BitVec.ofNat 64 (4096 * 0))
      = slotPage k 0 := by
    rw [Nat.mul_zero, BitVec.add_zero, pageOf_taskStructPage h.lt]
  constructor
  case struct =>
    intro w hw
    exact hstruct.pages 0 (by omega) w (hw.trans hzero.symm)
  case stack =>
    intro i f hf w hw
    have hi : i < 4 := by
      have := (List.getElem?_eq_some_iff.mp hf).1
      rw [h.length] at this
      exact this
    -- The page of the struct is another one.
    rw [hstruct.others w fun j hj => ?_,
      hstack.pages i hi w (hw.trans (pageOf_stackPage h.lt hi).symm),
      List.getD_eq_getElem?_getD, hf, Option.getD_some]
    obtain rfl : j = 0 := Nat.lt_one_iff.mp hj
    rw [hw, hzero]
    intro heq
    have := (slotPage_inj h.lt h.lt (by omega) (by omega) heq).2
    omega

/-- Another slot that is mapped stays so. -/
theorem SlotMapped.keep {j : Nat} {ts' : PageIdx} {fs' : List PageIdx}
    (h : SlotMapped root m j ts' fs') (hfs : fs'.length = KERNEL_STACK_PAGES)
    (hj : j < BITMAP_ENTRIES_COUNT) (hmaps : SlotMaps root k ts fs m m') (hne : j ≠ k) :
    SlotMapped root m' j ts' fs' := by
  have hother : ∀ (i : Nat), i < 8 → ∀ w, pageOf w = slotPage j i →
      translate m' root w = translate m root w := by
    intro i hi w hw
    refine hmaps.others fun l hl heq => hne ?_
    exact (slotPage_inj hj hmaps.lt hi hl (hw.symm.trans heq)).1
  constructor
  case struct =>
    intro w hw
    rw [hother 0 (by omega) w hw, h.struct w hw]
  case stack =>
    intro i f hf w hw
    have hi : i < 4 := by
      have := (List.getElem?_eq_some_iff.mp hf).1
      rw [hfs] at this
      exact this
    rw [hother (3 + i) (by omega) w hw, h.stack i f hf w hw]

end SlotMaps

/-! ### One creation -/

/-- What every creation needs and keeps: an allocator with its invariant, a well-formed
directory, and a stack allocator that has handed out `k` stacks. -/
structure TasksReady (inv : PageLists → Prop) (free : PageLists → PageIdx → Prop) (root : Uintptr)
    (k : Nat) (s : TaskState) : Prop where
  lists : inv s.machine.ctx
  ready : Ready free root s.machine
  handed : Handed k s.mainStackCtx

/-- A creation takes the frames `ts` and `fs` and maps them in the `k`-th slot. -/
structure Creates (env : TaskEnv) (inv : PageLists → Prop) (free : PageLists → PageIdx → Prop)
    (root : Uintptr) (k : Nat) (ts : PageIdx) (fs : List PageIdx) (s s' : TaskState) : Prop where
  frames : taskFrames env s = .ok (ts :: fs)
  nodup : (ts :: fs).Nodup
  fresh : ∀ x ∈ ts :: fs, free s.machine.ctx x
  held : ∀ x ∈ ts :: fs, ¬ free s'.machine.ctx x
  shrinks : ∀ x, free s'.machine.ctx x → free s.machine.ctx x
  ready : TasksReady inv free root (k + 1) s'
  maps : SlotMaps root k ts fs s.machine.mem s'.machine.mem
  stack : (s'.task ts).kernelStack = stackOf (BitVec.ofNat 32 k)
  dir : (s'.task ts).pageDir = ⟨root⟩
  others : ∀ q, q ≠ ts → s'.task q = s.task q

section Create

variable {env : TaskEnv} {inv : PageLists → Prop} {free : PageLists → PageIdx → Prop}
  {root : Uintptr} {k : Nat} {ts : PageIdx} {s s' : TaskState}

/-- A stack is handed out when there is one. -/
theorem Handed.next {ctx ctx' : KernelStackContext} {st st' : KernelStack} (h : Handed k ctx)
    (hrun : allocateKernelStack ctx st = (0, st', ctx')) :
    k < BITMAP_ENTRIES_COUNT ∧ st' = stackOf (BitVec.ofNat 32 k) ∧ Handed (k + 1) ctx' := by
  have hle : k ≤ BITMAP_ENTRIES_COUNT := by
    have := h.free
    omega
  rcases Nat.lt_or_eq_of_le hle with hlt | rfl
  · obtain ⟨ctx1, hnext, h'⟩ := allocateKernelStack_lt h hlt st
    rw [hrun] at hnext
    cases hnext
    exact ⟨hlt, rfl, h'⟩
  · rw [allocateKernelStack_full h] at hrun
    exact absurd (congrArg Prod.fst hrun) (by show ¬ (-ENOENT = 0); decide)

/-- The frames for the stack, once the struct has its own. -/
theorem exists_stackFrames (hal : HandsOut env.alloc inv free) {m m0 : Machine PageLists}
    {first : PageIdx} (hinv : inv m.ctx)
    (hrun : allocStackPages env.alloc m = .ok (some first, m0)) :
    ∃ qs, stackFramesLoop env.alloc KERNEL_STACK_PAGES none m = .ok (first :: qs) ∧
      (first :: qs).length = KERNEL_STACK_PAGES ∧ inv m0.ctx ∧ m0.mem = m.mem ∧
      StackRing free m0.ctx (some first) (first :: qs) ∧ (∀ x ∈ first :: qs, free m.ctx x) ∧
      ∀ x, free m0.ctx x → free m.ctx x := by
  obtain ⟨fs, hfs, hlen, hinv0, hmem, hring, hin, hfree⟩ := stackPagesLoop_spec hal
    KERNEL_STACK_PAGES none [] m m0 first hinv (stackRing_nil _) hrun
  rw [List.nil_append] at hring
  obtain ⟨qs, rfl⟩ : ∃ qs, fs = first :: qs := by
    have hhead := hring.first
    cases fs with
    | nil => cases hhead
    | cons a qs => exact ⟨qs, by rw [Option.some.inj hhead]⟩
  exact ⟨qs, hfs, hlen, hinv0, hmem, hring, hin, hfree⟩

/-- The two mappings, for the `k`-th stack. -/
theorem mappedAs_spec (hal : HandsOut env.alloc inv free) (ha : Answers env.mapped)
    (hk : k < BITMAP_ENTRIES_COUNT) {t : Task} {m m' : Machine PageLists}
    (hstack : t.kernelStack = stackOf (BitVec.ofNat 32 k)) (hdir : t.pageDir = ⟨root⟩)
    (hinv : inv m.ctx) (hready : Ready free root m) (h : MappedAs env ts t m m') :
    ∃ fs, stackFramesLoop env.alloc KERNEL_STACK_PAGES none m = .ok fs ∧ fs.Nodup ∧
      (∀ x ∈ fs, free m.ctx x ∧ ¬ free m'.ctx x) ∧ (∀ x, free m'.ctx x → free m.ctx x) ∧
      inv m'.ctx ∧ Ready free root m' ∧ SlotMaps root k ts fs m.mem m'.mem := by
  obtain ⟨first, m0, m1, m2, hpages, hmap1, hmap2, rfl⟩ := h
  obtain ⟨qs, hfs, hlen, hinv0, hmem0, hring, hin, hfree0⟩ := exists_stackFrames hal hinv hpages
  rw [hstack, hdir] at hmap1 hmap2
  have hready0 : Ready free root ⟨m0.mem, m0.ctx⟩ :=
    hready.of_tableOf (by rw [hmem0]; exact hready.wf) (fun p _ => by rw [hmem0]) hfree0
  -- The stack: the list accessor walks the ring.
  have hleft : (BitVec.ofNat 32 KERNEL_STACK_PAGES).toNat = qs.length + 1 := hlen.symm
  obtain ⟨hinv1, hready1, hfree1, hmaps1⟩ := mapsTo_of_lift (pairs_listPa hal env.mapped _)
    (supplies_ringPa hal first (first :: qs)) (fun c fs hc => hc.frames) ha hinv0
    (ringHist_start (hring.ring first qs rfl) hring.held hleft) hready0 (belowTop_stack hk) hmap1
  -- The struct: the linear accessor yields its frame.
  obtain ⟨hinv2, hready2, hfree2, hmaps2⟩ := mapsTo_of_lift (pairs_linearPa hal env.mapped _)
    (supplies_linearPa hal.allocates_lift ts) (fun c fs hc => hc.2) ha hinv1
    (linearHist_start rfl) hready1 (belowTop_taskStruct hk) hmap2
  refine ⟨first :: qs, hfs, hring.nodup, fun x hx => ⟨hin x hx, fun hf => ?_⟩,
    fun x hx => ?_, hinv2, hready2, hk, hlen, m1.mem, ?_, ?_⟩
  · exact hring.held x hx (hfree1 x (hfree2 x hf))
  · exact hfree0 x (hfree1 x (hfree2 x hx))
  · rw [hmem0] at hmaps1
    exact hmaps1
  · refine ⟨fun i hi w hw => ?_, hmaps2.others⟩
    obtain rfl : i = 0 := Nat.lt_one_iff.mp hi
    have hpage := hmaps2.pages 0 hi w hw
    rwa [show ts + BitVec.ofNat 32 0 = ts from BitVec.add_zero ts] at hpage

/-- A successful creation with the directory at `root`. -/
theorem createNewTask_creates (hal : HandsOut env.alloc inv free) (ha : Answers env.mapped)
    (hready : TasksReady inv free root k s) {p : PageIdx} {flags : TaskCreationFlags}
    {priv : TaskPrivelege} (hdir : (s.task p).pageDir = ⟨root⟩)
    (h : createNewTask env (some p) flags priv s = .ok (0, some ts, s')) :
    ∃ fs, Creates env inv free root k ts fs s s' := by
  obtain ⟨m, s1, halloc, hdir1, hprep, rfl⟩ := createNewTask_ok h
  obtain ⟨hts, hmem, hfree⟩ := hal.some hready.lists halloc
  have hinv := hal.keeps hready.lists halloc
  rw [if_pos rfl] at hmem
  have hlow := hready.ready.low ts hts
  have hfresh := hready.ready.fresh ts hts
  have hwf := hready.ready.wf
  have hreadym : Ready free root m := by
    refine hready.ready.of_tableOf ?_ ?_ fun x hx => (hfree x hx).1
    · rw [hmem]
      exact hwf.clean hlow hfresh
    · intro q hq
      rw [hmem]
      exact hwf.tableOf_clean hlow hfresh q hq
  obtain ⟨hk, hstack, hhanded⟩ := hready.handed.next hprep.stack
  -- The parent's struct is not the new one: that has no directory.
  have hroot : (s1.task ts).pageDir = ⟨root⟩ := by
    by_cases hp : p = ts
    · subst hp
      rw [task_withFrame] at hdir1
      obtain ⟨first, m0, m1, m2, -, hmap1, -⟩ := hprep.mapped
      rw [hdir1] at hmap1
      simp only [mmMapPages, Refused] at hmap1
      cases hmap1
    · rw [hdir1, ← hdir]
      simp [TaskState.withFrame, TaskState.task, hp]
  obtain ⟨fs, hfs, hnd, hin, hfree', hinv', hready', hmaps⟩ :=
    mappedAs_spec hal ha hk hstack hroot hinv hreadym hprep.mapped
  refine ⟨fs, ?_⟩
  constructor
  case frames => simp only [taskFrames, halloc, hfs, Loop.ok_bind]; rfl
  case nodup => exact List.nodup_cons.mpr ⟨fun hmem => (hfree ts (hin ts hmem).1).2 rfl, hnd⟩
  case fresh =>
    intro x hx
    rcases List.mem_cons.mp hx with rfl | hx
    · exact hts
    · exact (hfree x (hin x hx).1).1
  case held =>
    intro x hx
    rcases List.mem_cons.mp hx with rfl | hx
    · exact fun hf => (hfree x (hfree' x hf)).2 rfl
    · exact (hin x hx).2
  case shrinks => exact fun x hx => (hfree x (hfree' x hx)).1
  case ready => exact ⟨hinv', hready', hhanded⟩
  case maps =>
    refine hmaps.of_translate fun w => ?_
    rw [hmem, hwf.translate_clean hlow hfresh]
  case stack => simpa using hstack
  case dir => simpa using hroot
  case others =>
    intro q hq
    rw [task_finishNewTask_ne env ts p s1 hq, hprep.others q hq]
    simp [TaskState.withFrame, TaskState.task, hq]

end Create

end MString
