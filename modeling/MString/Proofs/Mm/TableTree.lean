import MString.Proofs.Mm.Histories
import MString.Proofs.Mm.StoreLog

/-!
# `MString.Proofs.Mm.TableTree`: the tables that runs of calls build

`TreeRun` is a sequence of calls of `mm_map_pages` on one directory. The accessor may be a
different one in each call. The allocator behind it is one for the whole run, and `free`
are the frames it may still hand out. The state keeps what `alloc_page` has returned and
which entries were stored.

* `TablesKept`: what is expected of the directory.
* `mmMapPages_kept`: the rule for what both kinds of store keep in a call.
* `tablesKept_run`: the directory is as expected in all states of a run.
-/

set_option autoImplicit false

namespace MString

variable {σ α : Type}

/-! ### What is expected -/

/-- `e` is the present entry in slot `i` of the upper table at the end of `p`. -/
def UpperEntry (m : Mem) (root : Uintptr) (p : List (Fin 512)) (i : Fin 512) (e : TlbEntry) :
    Prop :=
  p.length < 3 ∧ ∃ t, tableOf m root p = some t ∧ slotEntry m t i = e ∧ e.present = true

/-- What a run is about: memory, the allocator, the frames that `alloc_page` has returned
and the entries that were stored. -/
structure TreeState (α : Type) where
  mem : Mem
  alloc : α
  obtained : List PageIdx
  stored : List Uintptr

/-- The directory at `root` is a tree of obtained frames, and present where an entry was
stored. -/
structure TablesKept (root : Uintptr) (s : TreeState α) : Prop where
  obtained : ∀ p i e, UpperEntry s.mem root p i e → e.base ∈ s.obtained
  single : ∀ p i e q j e', UpperEntry s.mem root p i e → UpperEntry s.mem root q j e' →
    e.base = e'.base → p = q ∧ i = j
  notRoot : ∀ p i e, UpperEntry s.mem root p i e → pframeToVirt e.base ≠ root
  unwritten : ∀ p t i, p.length < 4 → tableOf s.mem root p = some t →
    (EntryPtr.mk t (i : Fin 512)).addr ∉ s.stored → (slotEntry s.mem t i).present = false

/-! ### Runs -/

/-- Nothing was obtained or stored yet. -/
def TreeState.start (m : Mem) (a : α) : TreeState α := ⟨m, a, [], []⟩

/-- The allocator never returns a frame twice: `free` is what it may still return. The
accessor keeps the allocator's state where `view` finds it. -/
def SuppliesFrom (free : α → PageIdx → Prop) (view : σ → α) (pacc : PageFrameAccessor σ) : Prop :=
  Supplies pacc (fun c => free (view c)) (fun _ _ => True)

/-- A call of `mm_map_pages` that returns. -/
def TreeStep (free : α → PageIdx → Prop) (root virt n : Uintptr) (s s' : TreeState α) : Prop :=
  ∃ (σ : Type) (view : σ → α) (pacc : Option (PageFrameAccessor σ)) (flags : PageFlags) (r : Status)
    (ctx ctx' : σ),
    (∀ p, pacc = some p → SuppliesFrom free view p) ∧ view ctx = s.alloc ∧ view ctx' = s'.alloc ∧
    mmMapPagesLogged kernelWindow (some ⟨root⟩) (pacc.map (·.recorded)) virt n flags
      ⟨s.mem, ((ctx, s.obtained), s.stored)⟩
      = .ok (r, ⟨s'.mem, ((ctx', s'.obtained), s'.stored)⟩)

/-- A sequence of calls whose arguments all meet the condition `ok`. -/
inductive TreeRun (free : α → PageIdx → Prop) (root : Uintptr) (ok : Uintptr → Uintptr → Prop)
    (s : TreeState α) : TreeState α → Prop
  | refl : TreeRun free root ok s s
  | step {s1 s' : TreeState α} {virt n : Uintptr} (before : TreeRun free root ok s s1)
      (call : TreeStep free root virt n s1 s') (hok : ok virt n) : TreeRun free root ok s s'

/-! ### What both kinds of store keep -/

/-- What the allocator's refusal, a link and a leaf keep in a well-formed directory. -/
structure KeptByWalk (env : WalkEnv σ) (free : σ → PageIdx → Prop) (root : Uintptr)
    (I : Machine σ → Prop) : Prop where
  refused : ∀ {s s' : Machine σ}, I s → env.pacc.allocPage env.flags true s = .ok (none, s') → I s'
  link : ∀ {s s1 : Machine σ} {pf : PageIdx} {q : List (Fin 512)} {t : Uintptr} {i : Fin 512}
    {l : Level}, Ready free root s → I s → q.length < 3 → tableOf s.mem root q = some t →
    (slotEntry s.mem t i).present = false →
    env.pacc.allocPage env.flags true s = .ok (some pf, s1) → l ∈ upperLevels →
    I ⟨s1.mem.set (EntryPtr.mk t i).addr (l.fields (pf.setWidth 64) (slotEntry s1.mem t i)), s1.ctx⟩
  leaf : ∀ {s : Machine σ} {v t : Uintptr} {j : PageIdx} {c : σ}, Ready free root s → I s →
    tableOf s.mem root (path v) = some t → env.pacc.nextFrame s.ctx = .ok (j, c) →
    I ⟨s.mem.set (EntryPtr.mk t (ptlIndex 12 v)).addr (leafEntry env.flags j), c⟩

section Kept

variable {env : WalkEnv σ} {free : σ → PageIdx → Prop} {hist : σ → List PageIdx → Prop}
  {root : Uintptr} {I : Machine σ → Prop}

/-- What the stores of a walk keep, making sure of an entry keeps. -/
theorem ensureEntry_kept (hI : KeptByWalk env free root I) (ha : Answers env.mapped) {l : Level}
    (hl : l ∈ upperLevels) {s s' : Machine σ} {r : Status} (h : Ready free root s) (hs : I s)
    {q : List (Fin 512)} {t : Uintptr} {i : Fin 512} (hq : q.length < 3)
    (ht : tableOf s.mem root q = some t)
    (hrun : ensureEntry (populateEntry l.fields) env ⟨t, i⟩ s = .ok (r, s')) : I s' := by
  have hta := h.wf.addr q t (by omega) ht
  cases hpres : (slotEntry s.mem t i).present with
  | true =>
      rw [ensureEntry_of_present ha hta hpres] at hrun
      cases hrun
      exact hs
  | false =>
      obtain ⟨e, hread, hrun⟩ := Loop.exists_of_bind hrun
      rw [readEntry_slot ha _ hta] at hread
      cases hread
      rw [if_neg (by rw [hpres]; exact Bool.false_ne_true)] at hrun
      obtain ⟨⟨o, s1⟩, halloc, hrun⟩ := Loop.exists_of_bind hrun
      cases o with
      | none =>
          cases hrun
          exact hI.refused hs halloc
      | some pf =>
          simp only [readEntry_slot ha _ hta, writeEntry_slot ha _ hta] at hrun
          cases hrun
          exact hI.link h hs hq ht hpres halloc hl

/-- So does the mapping of a page, from any level on. -/
theorem mapPageFrom_kept (hsup : Supplies env.pacc free hist) (hI : KeptByWalk env free root I)
    (ha : Answers env.mapped) (v : Uintptr) :
    ∀ (ls pre : List Level) (t : Uintptr) (s : Machine σ) (r : Status) (s' : Machine σ),
      pre ++ ls = upperLevels → Ready free root s → I s →
      tableOf s.mem root (slots pre v) = some t →
      mapPageFrom env v ls t s = .ok (r, s') → I s' := by
  intro ls
  induction ls with
  | nil =>
      intro pre t s r s' hpre h hs ht hrun
      rw [List.append_nil] at hpre
      rw [hpre, slots_upperLevels] at ht
      obtain ⟨⟨i, c⟩, hnext, hrun⟩ := Loop.exists_of_bind hrun
      dsimp only at hrun
      rw [writeEntry_slot ha _ (h.wf.addr _ t (by simp [path]) ht)] at hrun
      cases hrun
      -- At the end of the path the leaf is stored.
      exact hI.leaf h hs ht hnext
  | cons l ls ih =>
      intro pre t s r s' hpre h hs ht hrun
      have hlen := length_above hpre
      have hl := mem_levels hpre
      have hta := h.wf.addr _ t (by simp; omega) ht
      obtain ⟨⟨r1, s1⟩, hens, hrun⟩ := Loop.exists_of_bind hrun
      -- First the entry is made sure of, and `I` stays.
      have hs1 := ensureEntry_kept hI ha hl h hs (by simpa using hlen) ht hens
      obtain ⟨h1, hg, -, -, hr⟩ :=
        ensureEntry_spec hsup ha (refers_of_mem hl) h (by simpa using hlen) ht hens
      dsimp only at hrun
      rcases hr with ⟨rfl, hpres⟩ | rfl
      · -- The rest of the path starts in the table of the entry.
        have ht1 := hg.tableOf _ t (by simp; omega) ht
        have hnext := tableOf_slots_concat ht1 hpres
        rw [if_neg (by simp), readEntry_slot ha _ hta, Loop.ok_bind] at hrun
        exact ih (pre ++ [l]) _ s1 r s' (by simpa using hpre) h1 hs1 hnext hrun
      · rw [if_pos neg_ENOMEM_ne_zero] at hrun
        cases hrun
        exact hs1

/-- And so does the mapping of any number of them. -/
theorem mapPagesFrom_kept (hsup : Supplies env.pacc free hist) (hI : KeptByWalk env free root I)
    (ha : Answers env.mapped) :
    ∀ (vs : List Uintptr) (s : Machine σ) (r : Status) (s' : Machine σ),
      Ready free root s → I s → mapPagesFrom env upperLevels root vs s = .ok (r, s') →
      Ready free root s' ∧ I s' := by
  intro vs
  induction vs with
  | nil =>
      intro s r s' h hs hrun
      cases hrun
      exact ⟨h, hs⟩
  | cons v vs ih =>
      intro s r s' h hs hrun
      obtain ⟨⟨r1, s1⟩, hpage, hrun⟩ := Loop.exists_of_bind hrun
      have h1 := (mapPageFrom_spec hsup ha v upperLevels [] root s r1 s1 rfl h rfl hpage).ready
      have hs1 := mapPageFrom_kept hsup hI ha v upperLevels [] root s r1 s1 rfl h hs rfl hpage
      dsimp only at hrun
      by_cases hr : r1 = 0
      · rw [if_neg (not_not.mpr hr)] at hrun
        exact ih s1 r s' h1 hs1 hrun
      · rw [if_pos hr] at hrun
        cases hrun
        exact ⟨h1, hs1⟩

/-- A call that does not overrun keeps what its stores keep. -/
theorem mmMapPages_kept {pacc : PageFrameAccessor σ} {virt n : Uintptr} {flags : PageFlags}
    {s s' : Machine σ} {r : Status} (hsup : Supplies pacc free hist)
    (hI : KeptByWalk ⟨kernelWindow, pacc, flags⟩ free root I) (h : Ready free root s) (hs : I s)
    (hsteady : Steady root virt n)
    (hrun : mmMapPages kernelWindow (some ⟨root⟩) (some pacc) virt n flags s = .ok (r, s')) :
    Ready free root s' ∧ I s' := by
  by_cases hrefused : Refused ⟨root⟩ virt n
  · simp only [mmMapPages, if_pos hrefused] at hrun
    cases hrun
    exact ⟨h, hs⟩
  · rw [mmMapPages_eq hsup answers_kernelWindow h hrefused (hsteady.resolve_left hrefused)] at hrun
    exact mapPagesFrom_kept hsup hI answers_kernelWindow _ s r s' h hs hrun

end Kept

/-! ### The tree -/

/-- The present entries of the upper tables refer to frames of the list. -/
def EntriesObtained (root : Uintptr) (m : Mem) (obtained : List PageIdx) : Prop :=
  ∀ p t i, p.length < 3 → tableOf m root p = some t → (slotEntry m t i).present = true →
    (slotEntry m t i).base ∈ obtained

/-- The frames of the list are low, and none of them is the root. -/
def FramesBelow (root : Uintptr) (obtained : List PageIdx) : Prop :=
  ∀ pf ∈ obtained, LowFrame pf ∧ pframeToVirt pf ≠ root

section Tree

variable {pacc : PageFrameAccessor σ} {free : σ → PageIdx → Prop} {flags : PageFlags}
  {root : Uintptr}

/-- An accessor that records its frames supplies them as before. -/
theorem Supplies.recorded (h : Supplies pacc free (fun _ _ => True)) :
    Supplies pacc.recorded (fun c => free c.1) (fun _ _ => True) where
  some := by
    intro flags s pf s' hrun
    obtain ⟨⟨o, t⟩, halloc, hrun⟩ := Loop.exists_of_bind hrun
    cases hrun
    exact h.some halloc
  none := by
    intro flags s s' hrun
    obtain ⟨⟨o, t⟩, halloc, hrun⟩ := Loop.exists_of_bind hrun
    cases hrun
    exact h.none halloc
  next := by
    intro c i c' hrun
    obtain ⟨⟨j, d⟩, hnext, hrun⟩ := Loop.exists_of_bind hrun
    cases hrun
    exact h.next hnext

/-- The entries of the upper tables refer to frames from `alloc_page`. -/
theorem keptByWalk_obtained (hsup : Supplies pacc free (fun _ _ => True)) :
    KeptByWalk ⟨kernelWindow, pacc.recorded, flags⟩ (fun c => free c.1) root
      (fun s => EntriesObtained root s.mem s.ctx.2 ∧ FramesBelow root s.ctx.2) where
  refused := by
    intro s s' hs hrun
    obtain ⟨⟨o, t⟩, halloc, hrun⟩ := Loop.exists_of_bind hrun
    cases hrun
    rw [(hsup.none halloc).1]
    exact hs
  link := by
    intro s s1 pf q t i l h hs hq ht hempty hrun hl
    obtain ⟨⟨o, u⟩, halloc, hrun⟩ := Loop.exists_of_bind hrun
    cases hrun
    obtain ⟨hpf, hmem, -⟩ := hsup.some halloc
    have hlow := h.low pf hpf
    have hfresh := h.fresh pf hpf
    -- The new table is none of those in use, and so it is not the root.
    have hroot : pframeToVirt pf ≠ root := fun heq => hfresh [] (by simp) (congrArg some heq.symm)
    refine ⟨?_, fun x hx => (List.mem_cons.mp hx).elim (fun heq => heq ▸ ⟨hlow, hroot⟩) (hs.2 x)⟩
    dsimp only
    rw [hmem]
    -- Only the new reference has to be looked at, and its frame is the last one recorded.
    refine h.wf.upper_link hq ht hempty hlow hfresh ((refers_of_mem hl).entryTable hlow _)
      (fun e => e.base ∈ pf :: s.ctx.2)
      (fun p u j hp hu hpres => List.mem_cons_of_mem _ (hs.1 p u j hp hu hpres)) ?_
    rw [(refers_of_mem hl).base]
    exact List.mem_cons_self
  -- A leaf is no reference.
  leaf := by
    intro s v t j c h hs ht hrun
    obtain ⟨⟨i, d⟩, -, hrun⟩ := Loop.exists_of_bind hrun
    cases hrun
    exact ⟨h.wf.upper_setLeaf rfl ht (fun e => e.base ∈ s.ctx.2) hs.1, hs.2⟩

/-- Where no entry was stored, the tables are not present. -/
def Unwritten (root : Uintptr) (m : Mem) (obtained : List PageIdx) (stored : List Uintptr) : Prop :=
  ∀ t ∈ root :: obtained.map pframeToVirt, ∀ i : Fin 512, (EntryPtr.mk t i).addr ∉ stored →
    (slotEntry m t i).present = false

/-- A cleaned frame is not present. -/
theorem present_clean {m : Mem} {pf : PageIdx} {t : Uintptr} {i : Fin 512}
    (h : t = pframeToVirt pf ∨ (slotEntry m t i).present = false) :
    (slotEntry (m.clean pf) t i).present = false := by
  unfold slotEntry Mem.clean
  split
  · rfl
  · case isFalse hout =>
      refine h.resolve_left fun heq => hout ?_
      rw [heq, EntryPtr.addr]
      dsimp only
      rw [BitVec.add_comm, BitVec.add_sub_cancel, BitVec.lt_def, BitVec.toNat_ofNat]
      have hi := i.isLt
      show 8 * i.val % 2 ^ 64 < 4096
      omega

/-- No store goes to a frame that has not been handed out. -/
theorem keptByStores_unwritten (hsup : Supplies pacc free (fun _ _ => True)) :
    KeptByStores ⟨kernelWindow, pacc.recorded.logged, flags⟩
      (fun s => Unwritten root s.mem s.ctx.1.2 s.ctx.2) where
  alloc := by
    intro s x hs hrun
    obtain ⟨y, hrec, hrun⟩ := Loop.exists_of_bind hrun
    obtain ⟨⟨o, u⟩, halloc, hrec⟩ := Loop.exists_of_bind hrec
    cases hrec
    cases hrun
    cases o with
    | none =>
        rw [(hsup.none halloc).1]
        exact hs
    | some pf =>
        intro t ht i hi
        dsimp only
        rw [(hsup.some halloc).2.1]
        refine present_clean ?_
        -- A page that was just handed out is empty; clearing it writes no other table.
        rcases List.mem_cons.mp ht with rfl | ht
        · exact .inr (hs _ List.mem_cons_self i hi)
        · rcases List.mem_cons.mp ht with rfl | ht
          · exact .inl rfl
          · exact .inr (hs t (List.mem_cons_of_mem _ ht) i hi)
  next := by
    intro s x hs hrun
    obtain ⟨y, hrec, hrun⟩ := Loop.exists_of_bind hrun
    obtain ⟨⟨j, d⟩, hnext, hrec⟩ := Loop.exists_of_bind hrec
    cases hrec
    cases hrun
    exact hs
  store := by
    intro s s' p e hs hrun
    obtain ⟨m, hwrite, hrun⟩ := Loop.exists_of_bind hrun
    rw [writeEntry] at hwrite
    split at hwrite
    · cases hwrite
      cases hrun
      intro t ht i hi
      rw [List.mem_cons, not_or] at hi
      dsimp only
      rw [slotEntry, Mem.set, if_neg hi.1]
      exact hs t ht i hi.2
    · cases hwrite

end Tree

/-! ### Runs of calls -/

/-- A well-formed directory of obtained frames, with an allocator that has only low frames
left that are none of its tables. -/
structure TreeInvariant (free : α → PageIdx → Prop) (root : Uintptr) (s : TreeState α) : Prop where
  wf : WellFormed s.mem root
  low : ∀ pf, free s.alloc pf → LowFrame pf
  fresh : ∀ pf, free s.alloc pf → ∀ p, p.length < 4 →
    tableOf s.mem root p ≠ some (pframeToVirt pf)
  entries : EntriesObtained root s.mem s.obtained
  frames : FramesBelow root s.obtained
  unwritten : Unwritten root s.mem s.obtained s.stored

section Runs

variable {free : α → PageIdx → Prop} {root virt n : Uintptr} {s s' : TreeState α}

/-- A call without an overrun keeps the invariant. -/
theorem TreeStep.invariant (hcall : TreeStep free root virt n s s') (hsteady : Steady root virt n)
    (h : TreeInvariant free root s) : TreeInvariant free root s' := by
  obtain ⟨m', a', obtained', stored'⟩ := s'
  obtain ⟨σ, view, pacc, flags, r, ctx, ctx', hsup, hview, hview', hrun⟩ := hcall
  have hforget := @mmMapPagesLogged_forget _ kernelWindow flags (some ⟨root⟩)
    (pacc.map (·.recorded)) virt n ⟨s.mem, ((ctx, s.obtained), s.stored)⟩
  rw [hrun] at hforget
  cases pacc with
  | none =>
      -- A null accessor is refused.
      cases hrun
      exact ⟨h.wf, hview' ▸ hview ▸ h.low, hview' ▸ hview ▸ h.fresh, h.entries, h.frames,
        h.unwritten⟩
  | some pacc =>
      have hsup' := hsup pacc rfl
      have hready : Ready (fun c : σ × List PageIdx => free (view c.1)) root
          ⟨s.mem, (ctx, s.obtained)⟩ :=
        ⟨h.wf, by rw [hview]; exact h.low, by rw [hview]; exact h.fresh⟩
      obtain ⟨hready', hentries, hframes⟩ := mmMapPages_kept hsup'.recorded
        (keptByWalk_obtained hsup') hready ⟨h.entries, h.frames⟩ hsteady hforget
      have hunwritten := mmMapPagesLogged_keeps
        (fun p hp => by cases hp; exact @keptByStores_unwritten _ _ _ _ root hsup')
        h.unwritten hrun
      exact ⟨hready'.wf, hview' ▸ hready'.low, hview' ▸ hready'.fresh, hentries, hframes,
        hunwritten⟩

/-- A run of calls keeps the tree. -/
theorem TreeRun.invariant (hrun : TreeRun free root (Steady root) s s')
    (h : TreeInvariant free root s) : TreeInvariant free root s' := by
  induction hrun with
  | refl => exact h
  | step _ hcall hok ih => exact hcall.invariant hok ih

/-- The directory of the invariant is as expected. -/
theorem TreeInvariant.tablesKept (h : TreeInvariant free root s) : TablesKept root s := by
  have hentry : ∀ {p i e}, UpperEntry s.mem root p i e →
      e.base ∈ s.obtained ∧ tableOf s.mem root (p ++ [i]) = some (pframeToVirt e.base) := by
    rintro p i e ⟨hp, t, ht, rfl, hpres⟩
    have hbase := h.entries p t i hp ht hpres
    refine ⟨hbase, ?_⟩
    rw [tableOf_concat, ht, Option.bind_some, entryTable_of_present hpres,
      table_of_base (h.frames _ hbase).1]
  refine ⟨fun p i e he => (hentry he).1, fun p i e q j e' he he' heq => ?_,
    fun p i e he => (h.frames _ (hentry he).1).2, fun p t i hp ht hi => ?_⟩
  · have hpath := h.wf.tree (p ++ [i]) (q ++ [j]) _ (by simp; have := he.1; omega)
      (by simp; have := he'.1; omega) (hentry he).2 (heq ▸ (hentry he').2)
    exact List.append_singleton_inj.mp hpath
  · refine h.unwritten t ?_ i hi
    -- The table is the root, or an entry refers to it.
    induction p using List.reverseRecOn with
    | nil => exact List.mem_cons.mpr (.inl (Option.some.inj ht).symm)
    | append_singleton p j _ =>
        simp only [List.length_append, List.length_singleton] at hp
        obtain ⟨u, hu, he⟩ := Radix.exists_prefix_table ht
        have hpres : (slotEntry s.mem u j).present = true := by
          cases hpr : (slotEntry s.mem u j).present with
          | true => rfl
          | false =>
              rw [entryTable_of_not_present hpr] at he
              cases he
        obtain ⟨hbase, htab⟩ := hentry ⟨by omega, u, hu, rfl, hpres⟩
        rw [htab] at ht
        exact List.mem_cons_of_mem _ (List.mem_map.mpr ⟨_, hbase, Option.some.inj ht⟩)

/-- The tables of an empty directory are a tree of frames from `alloc_page` after every
sequence of calls that do not overrun. -/
theorem tablesKept_run {m : Mem} {a : α} (hroot : TableAddr root)
    (hempty : ∀ i, (slotEntry m root i).present = false)
    (hfree : ∀ pf, free a pf → LowFrame pf ∧ pframeToVirt pf ≠ root)
    (hrun : TreeRun free root (Steady root) (.start m a) s) : TablesKept root s := by
  refine (hrun.invariant ⟨wellFormed_of_empty hroot hempty, fun pf hpf => (hfree pf hpf).1,
    fun pf hpf p _ ht => (hfree pf hpf).2 (tableOf_of_empty hempty ht).2, ?_, ?_, ?_⟩).tablesKept
  · intro p t i _ ht hpres
    have hslot : (slotEntry m t i).present = false := by
      rw [(tableOf_of_empty hempty ht).2]
      exact hempty i
    exact absurd (hslot.symm.trans hpres) Bool.false_ne_true
  · exact fun pf hpf => absurd hpf List.not_mem_nil
  · intro t ht i _
    obtain rfl := List.mem_singleton.mp ht
    exact hempty i

end Runs

/-- A call with the linear accessor, on the kernel's allocator. -/
theorem treeStep_linear {root virt n : Uintptr} {m : Mem} {c : LinearPaCtx} {a : CacheState 0}
    {r : Status} {t : Machine (Logged ((LinearPaCtx × CacheState 0) × List PageIdx))}
    (hrun : mmMapPagesLogged kernelWindow (some ⟨root⟩)
      (some (pageaccsLinearPa (cacheAllocator 0)).recorded) virt n 0 ⟨m, (((c, a), []), [])⟩
      = .ok (r, t)) :
    TreeStep (fun a pf => pf ∈ a.pages) root virt n (.start m a)
      ⟨t.mem, t.ctx.1.1.2, t.ctx.1.2, t.ctx.2⟩ :=
  ⟨_, Prod.snd, some (pageaccsLinearPa (cacheAllocator 0)), 0, r, (c, a), t.ctx.1.1,
    fun p hp => by cases hp; exact (supplies_linearPa (allocates_cacheAllocator 0) 100).forget,
    rfl, rfl, hrun⟩

/-- One page at `0x1000`. -/
theorem tablesKept_run_one :
    ∃ s', TreeRun (fun a pf => pf ∈ a.pages) EMPTY_ROOT (Steady EMPTY_ROOT)
        (.start emptyDirectory.mem emptyDirectory.ctx.2) s' ∧ TablesKept EMPTY_ROOT s' := by
  obtain ⟨t, hrun⟩ := Loop.exists_of_map_fst (a := (0 : Status)) (x :=
    mmMapPagesLogged kernelWindow (some ⟨EMPTY_ROOT⟩)
      (some (pageaccsLinearPa (cacheAllocator 0)).recorded) 0x1000 1 0
      ⟨emptyDirectory.mem, ((emptyDirectory.ctx, []), [])⟩) (by decide +kernel)
  have hone := TreeRun.step .refl (treeStep_linear hrun)
    (show Steady EMPTY_ROOT 0x1000 1 from .inr (by decide))
  have hready := ready_emptyDirectory
  exact ⟨_, hone, tablesKept_run (tableAddr_pframeToVirt (by decide)) (fun _ => rfl)
    (fun pf hpf => ⟨hready.low pf hpf,
      fun heq => hready.fresh pf hpf [] (by decide) (congrArg some heq.symm)⟩) hone⟩

/-- A cache with one frame, 4 GB above that of `EMPTY_ROOT`. -/
def highCache : CacheState 0 :=
  ⟨cacheOf 0 [0x100001], [0x100001], cacheHolds_cacheOf (by decide) (by decide)⟩

/-- The table of that frame is looked for in the root. -/
theorem not_tablesKept_high :
    ∃ s', TreeRun (fun a pf => pf ∈ a.pages) EMPTY_ROOT (Steady EMPTY_ROOT)
        (.start (fun _ => .zero) highCache) s' ∧ ¬ TablesKept EMPTY_ROOT s' := by
  obtain ⟨⟨r, t⟩, hrun, hroot⟩ := Loop.exists_of_bind (b := (true, EMPTY_ROOT))
    (x := mmMapPagesLogged kernelWindow (some ⟨EMPTY_ROOT⟩)
      (some (pageaccsLinearPa (cacheAllocator 0)).recorded) 0x1000 1 0
      ⟨fun _ => .zero, (((⟨100, 200, 100⟩, highCache), []), [])⟩)
    (f := fun x => .ok ((slotEntry x.2.mem EMPTY_ROOT 0).present,
      pframeToVirt (slotEntry x.2.mem EMPTY_ROOT 0).base)) (by decide +kernel)
  have hone := TreeRun.step .refl (treeStep_linear hrun)
    (show Steady EMPTY_ROOT 0x1000 1 from .inr (by decide))
  refine ⟨_, hone, fun hkept => ?_⟩
  have hpair := Except.ok.inj hroot
  exact hkept.notRoot [] 0 _ ⟨by decide, EMPTY_ROOT, rfl, rfl, congrArg Prod.fst hpair⟩
    (congrArg Prod.snd hpair)

end MString
