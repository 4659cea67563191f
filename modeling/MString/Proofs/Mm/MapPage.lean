import MString.Proofs.Mm.Tree

/-!
# `MString.Proofs.Mm.MapPage`: mapping page by page

The abstract counterpart of the range walkers: `mapPageFrom` maps one page, making
sure of the entry at every level on the way down, and `mapPagesFrom` does so for a
list of pages. `Proofs/Mm/Ranges.lean` shows that the nested loops of `pt.c` do
exactly this on ranges that stay inside one table of each level.

`Supplies` is what the walkers are promised of an accessor: `alloc_page` hands out
cleaned frames and never one twice. A history predicate keeps the book of what
`next_frame` has yielded. `Ready` adds that the directory is well formed and that
no frame still to be handed out is one of its tables.

`mapPageFrom_spec` is the step lemma and `mapPagesFrom_spec` the run lemma: the
pages mapped so far translate to the frames drawn, and nothing else has changed.
-/

set_option autoImplicit false

namespace MString

variable {σ : Type}

/-! ### What an accessor promises -/

/-- The promise of an accessor: `free c` are the frames that `alloc_page` may still
hand out in the context `c`, and `hist c fs` holds when `fs` is what `next_frame`
has yielded up to `c`. A history that holds of everything promises nothing. -/
structure Supplies (pacc : PageFrameAccessor σ) (free : σ → PageIdx → Prop)
    (hist : σ → List PageIdx → Prop) : Prop where
  some : ∀ {flags s pf s'}, pacc.allocPage flags true s = .ok (some pf, s') →
    free s.ctx pf ∧ s'.mem = s.mem.clean pf ∧ (∀ fs, hist s.ctx fs → hist s'.ctx fs) ∧
      ∀ x, free s'.ctx x → free s.ctx x ∧ x ≠ pf
  none : ∀ {flags s s'}, pacc.allocPage flags true s = .ok (none, s') →
    s'.mem = s.mem ∧ (∀ fs, hist s.ctx fs → hist s'.ctx fs) ∧ ∀ x, free s'.ctx x → free s.ctx x
  next : ∀ {c i c'}, pacc.nextFrame c = .ok (i, c') →
    (∀ fs, hist c fs → hist c' (fs ++ [i])) ∧ ∀ x, free c' x → free c x

/-- A well-formed directory, and an allocator that holds only low frames that are
none of its tables. -/
structure Ready (free : σ → PageIdx → Prop) (root : Uintptr) (s : Machine σ) : Prop where
  wf : WellFormed s.mem root
  low : ∀ pf, free s.ctx pf → LowFrame pf
  fresh : ∀ pf, free s.ctx pf → ∀ p, p.length < 4 → tableOf s.mem root p ≠ some (pframeToVirt pf)

/-! ### Mapping one page -/

/-- One upper level: the shift of its index and what populates its entries. -/
structure Level where
  shift : Nat
  fields : Uintptr → TlbEntry → TlbEntry

/-- The level of the root, ... -/
def pml4Upper : Level := ⟨39, pdp3Fields⟩

/-- ... the level of the gigabytes ... -/
def pdp3Upper : Level := ⟨30, pdp3Fields⟩

/-- ... and the level whose entries refer to page tables. -/
def pde2Upper : Level := ⟨21, pde2Fields⟩

/-- The upper levels, from the root down. -/
def upperLevels : List Level := [pml4Upper, pdp3Upper, pde2Upper]

/-- Map the page of `v`, starting in the table `t` with the levels `ls` left. -/
def mapPageFrom (env : WalkEnv σ) (v : Uintptr) :
    List Level → Uintptr → Machine σ → Except Fault (Status × Machine σ)
  | [], t, s => do
      let (i, ctx) ← env.pacc.nextFrame s.ctx
      let mem ← writeEntry env.mapped s.mem ⟨t, ptlIndex 12 v⟩ (leafEntry env.flags i)
      return (0, ⟨mem, ctx⟩)
  | l :: ls, t, s => do
      let (r, s) ← ensureEntry (populateEntry l.fields) env ⟨t, ptlIndex l.shift v⟩ s
      if r ≠ 0 then return (-ENOMEM, s)
      let e ← readEntry env.mapped s.mem ⟨t, ptlIndex l.shift v⟩
      mapPageFrom env v ls e.table s

/-- Map a list of pages, stopping at the first failure. -/
def mapPagesFrom (env : WalkEnv σ) (ls : List Level) (t : Uintptr) :
    List Uintptr → Machine σ → Except Fault (Status × Machine σ)
  | [], s => .ok (0, s)
  | v :: vs, s => do
      let (r, s) ← mapPageFrom env v ls t s
      if r ≠ 0 then return (r, s)
      mapPagesFrom env ls t vs s

/-- The slots that the levels `ls` take for the address `v`. -/
def slots (ls : List Level) (v : Uintptr) : List (Fin 512) := ls.map fun l => ptlIndex l.shift v

/-- The slots of two runs of levels. -/
@[simp] theorem slots_append (ls ls' : List Level) (v : Uintptr) :
    slots (ls ++ ls') v = slots ls v ++ slots ls' v := List.map_append

/-- A slot for each level. -/
@[simp] theorem length_slots (ls : List Level) (v : Uintptr) : (slots ls v).length = ls.length :=
  List.length_map _

/-- The upper levels lead to the page table. -/
theorem slots_upperLevels (v : Uintptr) : slots upperLevels v = path v := rfl

/-- The levels above and below are three, ... -/
theorem length_levels {pre ls : List Level} (hpre : pre ++ ls = upperLevels) :
    pre.length + ls.length = 3 := by
  rw [← List.length_append, hpre]
  rfl

/-- ... so above one of them there are fewer, ... -/
theorem length_above {pre ls : List Level} {l : Level} (hpre : pre ++ l :: ls = upperLevels) :
    pre.length < 3 := by
  have := length_levels hpre
  rw [List.length_cons] at this
  omega

/-- ... and it is one of the three. -/
theorem mem_levels {pre ls : List Level} {l : Level} (hpre : pre ++ l :: ls = upperLevels) :
    l ∈ upperLevels := by
  rw [← hpre]
  simp

/-- The table below a present entry. -/
theorem tableOf_slots_concat {m : Mem} {root v t : Uintptr} {l : Level} {pre : List Level}
    (ht : tableOf m root (slots pre v) = some t)
    (hpres : (slotEntry m t (ptlIndex l.shift v)).present = true) :
    tableOf m root (slots (pre ++ [l]) v)
      = some (slotEntry m t (ptlIndex l.shift v)).table := by
  rw [slots_append]
  show tableOf m root (slots pre v ++ [ptlIndex l.shift v]) = _
  rw [tableOf_concat, ht, Option.bind_some, entryTable_of_present hpres]

/-- What the two kinds of `populate_*_entry` write is a present reference to the
frame. -/
structure Refers (fields : Uintptr → TlbEntry → TlbEntry) : Prop where
  present : ∀ pfn e, (fields pfn e).present = true
  base : ∀ (pf : PageIdx) e, (fields (pf.setWidth 64) e).base = pf

/-- Both ways to populate an entry leave a reference: that of the two higher levels ... -/
theorem refers_pdp3Fields : Refers pdp3Fields := ⟨fun _ _ => rfl, fun pf _ => base_setBase _ pf⟩

/-- ... and that of the lowest. -/
theorem refers_pde2Fields : Refers pde2Fields := ⟨fun _ _ => rfl, fun pf _ => base_setBase _ pf⟩

/-- So do all upper levels. -/
theorem refers_of_mem {l : Level} (h : l ∈ upperLevels) : Refers l.fields := by
  simp only [upperLevels, List.mem_cons, List.not_mem_nil, or_false] at h
  rcases h with rfl | rfl | rfl
  · exact refers_pdp3Fields
  · exact refers_pdp3Fields
  · exact refers_pde2Fields

/-- A populated entry refers to the page it was populated with, below 2 GB. -/
theorem Refers.entryTable {fields : Uintptr → TlbEntry → TlbEntry} (h : Refers fields)
    {pf : PageIdx} (hlow : LowFrame pf) (e : TlbEntry) :
    MString.entryTable (fields (pf.setWidth 64) e) = some (pframeToVirt pf) := by
  have hb := h.base pf e
  rw [entryTable_of_present (h.present _ _), table_of_base (by rw [hb]; exact hlow), hb]

/-- A leaf is present and holds the frame drawn for it. -/
@[simp] theorem present_leafEntry (flags : PageFlags) (i : PageIdx) :
    (leafEntry flags i).present = true := rfl

/-- A leaf holds the frame that was stored. -/
@[simp] theorem base_leafEntry (flags : PageFlags) (i : PageIdx) : (leafEntry flags i).base = i :=
  base_setBase _ i

/-- A slot of a table can be read, ... -/
theorem readEntry_slot {mapped : EntryPtr → Bool} (ha : Answers mapped) (m : Mem) {t : Uintptr}
    (ht : TableAddr t) (i : Fin 512) : readEntry mapped m ⟨t, i⟩ = .ok (slotEntry m t i) := by
  rw [readEntry, if_pos (ha t i ht)]
  rfl

/-- ... and written. -/
theorem writeEntry_slot {mapped : EntryPtr → Bool} (ha : Answers mapped) (m : Mem) {t : Uintptr}
    (ht : TableAddr t) (i : Fin 512) (e : TlbEntry) :
    writeEntry mapped m ⟨t, i⟩ e = .ok (m.set (EntryPtr.mk t i).addr e) := by
  rw [writeEntry, if_pos (ha t i ht)]

/-! ### The mapper, step by step -/

section Equations

variable {env : WalkEnv σ} {v t : Uintptr} {s s' : Machine σ} {r : Status}

/-- In the page table itself, the page is mapped to the next frame. -/
theorem mapPageFrom_nil (ha : Answers env.mapped) (hta : TableAddr t)
    {i : PageIdx} {c : σ} (hnext : env.pacc.nextFrame s.ctx = .ok (i, c)) :
    mapPageFrom env v [] t s
      = .ok (0, ⟨s.mem.set (EntryPtr.mk t (ptlIndex 12 v)).addr (leafEntry env.flags i), c⟩) := by
  simp only [mapPageFrom, hnext, Loop.ok_bind, writeEntry_slot ha _ hta]
  rfl

/-- Above it, the way goes on through the table of the entry. -/
theorem mapPageFrom_cons (ha : Answers env.mapped) (hta : TableAddr t) {l : Level}
    (ls : List Level)
    (hens : ensureEntry (populateEntry l.fields) env ⟨t, ptlIndex l.shift v⟩ s = .ok (0, s')) :
    mapPageFrom env v (l :: ls) t s
      = mapPageFrom env v ls (slotEntry s'.mem t (ptlIndex l.shift v)).table s' := by
  simp only [mapPageFrom, hens, Loop.ok_bind, ne_eq, not_true_eq_false, if_false,
    readEntry_slot ha _ hta]

/-- Where the entry of a level cannot be had, the page is not mapped. -/
theorem mapPageFrom_cons_failed {l : Level} (ls : List Level)
    (hens : ensureEntry (populateEntry l.fields) env ⟨t, ptlIndex l.shift v⟩ s = .ok (r, s'))
    (hr : r ≠ 0) : mapPageFrom env v (l :: ls) t s = .ok (-ENOMEM, s') := by
  simp only [mapPageFrom, hens, Loop.ok_bind, if_pos hr]
  rfl

/-- After a page that was mapped come the others. -/
theorem mapPagesFrom_cons {ls : List Level} (vs : List Uintptr)
    (hpage : mapPageFrom env v ls t s = .ok (0, s')) :
    mapPagesFrom env ls t (v :: vs) s = mapPagesFrom env ls t vs s' := by
  simp only [mapPagesFrom, hpage, Loop.ok_bind, ne_eq, not_true_eq_false, if_false]

/-- After one that was not, nothing comes. -/
theorem mapPagesFrom_cons_failed {ls : List Level} (vs : List Uintptr)
    (hpage : mapPageFrom env v ls t s = .ok (r, s')) (hr : r ≠ 0) :
    mapPagesFrom env ls t (v :: vs) s = .ok (r, s') := by
  simp only [mapPagesFrom, hpage, Loop.ok_bind, if_pos hr]
  rfl

end Equations

section Step

variable {env : WalkEnv σ} {free : σ → PageIdx → Prop} {hist : σ → List PageIdx → Prop}
  {root : Uintptr} {s s' : Machine σ} {r : Status}

/-- A present entry needs nothing done. -/
theorem ensureEntry_of_present (ha : Answers env.mapped)
    {populate : WalkEnv σ → EntryPtr → Machine σ → Except Fault (Status × Machine σ)}
    {t : Uintptr} (ht : TableAddr t) {i : Fin 512} (h : (slotEntry s.mem t i).present = true) :
    ensureEntry populate env ⟨t, i⟩ s = .ok (0, s) := by
  rw [ensureEntry, readEntry_slot ha _ ht]
  show (if (slotEntry s.mem t i).present then _ else _) = _
  rw [if_pos h]
  rfl

/-- The frames still free stay fresh when the tables are those before. -/
theorem Ready.of_tableOf (h : Ready free root s) {m' : Mem} {c' : σ} (hwf : WellFormed m' root)
    (htab : ∀ p, p.length < 4 → tableOf m' root p = tableOf s.mem root p)
    (hfree : ∀ x, free c' x → free s.ctx x) : Ready free root ⟨m', c'⟩ where
  wf := hwf
  low pf hpf := h.low pf (hfree pf hpf)
  fresh pf hpf p hp := by
    rw [htab p hp]
    exact h.fresh pf (hfree pf hpf) p hp

/-- Making sure of an entry: the directory grows, translates as before, and the
entry is present unless the allocator refused. -/
theorem ensureEntry_spec (hsup : Supplies env.pacc free hist) (ha : Answers env.mapped)
    {fields : Uintptr → TlbEntry → TlbEntry} (hf : Refers fields) (h : Ready free root s)
    {q : List (Fin 512)} {t : Uintptr} {i : Fin 512} (hq : q.length < 3)
    (ht : tableOf s.mem root q = some t)
    (hrun : ensureEntry (populateEntry fields) env ⟨t, i⟩ s = .ok (r, s')) :
    Ready free root s' ∧ Grows root s.mem s'.mem ∧ (∀ fs, hist s.ctx fs → hist s'.ctx fs) ∧
      (∀ w, translate s'.mem root w = translate s.mem root w) ∧
      (r = 0 ∧ (slotEntry s'.mem t i).present = true ∨ r = -ENOMEM) := by
  have hta := h.wf.addr q t (by omega) ht
  cases hpres : (slotEntry s.mem t i).present with
  | true =>
      rw [ensureEntry_of_present ha hta hpres] at hrun
      cases hrun
      exact ⟨h, Grows.refl h.wf, fun _ hfs => hfs, fun _ => rfl, .inl ⟨rfl, hpres⟩⟩
  | false =>
      rw [ensureEntry, readEntry_slot ha _ hta] at hrun
      simp only [bind, Except.bind, hpres, Bool.false_eq_true, if_false, populateEntry] at hrun
      cases halloc : env.pacc.allocPage env.flags true s with
      | error e => simp [halloc] at hrun
      | ok x =>
          obtain ⟨o, s1⟩ := x
          simp only [halloc] at hrun
          cases o with
          | none =>
              -- The allocator refused: nothing in memory has changed.
              cases hrun
              obtain ⟨hmem, hhist, hfree⟩ := hsup.none halloc
              refine ⟨?_, ?_, hhist, fun w => by rw [hmem], .inr rfl⟩
              · exact h.of_tableOf (by rw [hmem]; exact h.wf) (fun p _ => by rw [hmem]) hfree
              · rw [hmem]
                exact Grows.refl h.wf
          | some pf =>
              obtain ⟨hpf, hmem, hhist, hfree⟩ := hsup.some halloc
              have hlow := h.low pf hpf
              have hfresh := h.fresh pf hpf
              have hlink := hf.entryTable hlow (slotEntry s1.mem t i)
              simp only [readEntry_slot ha _ hta, writeEntry_slot ha _ hta, pure,
                Except.pure] at hrun
              cases hrun
              rw [hmem] at hlink ⊢
              refine ⟨⟨(h.wf.link hq ht hpres hlow hfresh hlink).wf, ?_, ?_⟩,
                h.wf.link hq ht hpres hlow hfresh hlink, hhist, ?_, .inl ⟨rfl, ?_⟩⟩
              · exact fun x hx => h.low x (hfree x hx).1
              · intro x hx p hp hxp
                obtain ⟨hx', hne⟩ := hfree x hx
                rcases h.wf.tableOf_link hq ht hpres hlow hfresh hlink p _ hp hxp with hold | heq
                · exact h.fresh x hx' p hp hold
                · exact hne (pframeToVirt_inj (h.low x hx') hlow heq)
              · exact h.wf.translate_link hq ht hpres hlow hfresh hlink
              · show (slotEntry _ t i).present = true
                rw [slotEntry_set hta hta, if_pos ⟨rfl, rfl⟩]
                exact hf.present _ _

/-- What mapping one page does: it draws one frame and maps the page to it, or it
fails for want of a table and changes no translation. -/
structure PageMapped (free : σ → PageIdx → Prop) (hist : σ → List PageIdx → Prop)
    (root v : Uintptr) (s : Machine σ) (r : Status) (s' : Machine σ) : Prop where
  ready : Ready free root s'
  grows : Grows root s.mem s'.mem
  result : r = 0 ∧ (∃ i, (∀ fs, hist s.ctx fs → hist s'.ctx (fs ++ [i])) ∧
      ∀ w, translate s'.mem root w
        = if pageOf w = pageOf v then i else translate s.mem root w) ∨
    r = -ENOMEM ∧ (∀ fs, hist s.ctx fs → hist s'.ctx fs) ∧
      ∀ w, translate s'.mem root w = translate s.mem root w

/-- The step lemma. -/
theorem mapPageFrom_spec (hsup : Supplies env.pacc free hist) (ha : Answers env.mapped)
    (v : Uintptr) :
    ∀ (ls pre : List Level) (t : Uintptr) (s : Machine σ) (r : Status) (s' : Machine σ),
      pre ++ ls = upperLevels → Ready free root s → tableOf s.mem root (slots pre v) = some t →
      mapPageFrom env v ls t s = .ok (r, s') → PageMapped free hist root v s r s' := by
  intro ls
  induction ls with
  -- The path has led to the page table, and the leaf is stored.
  | nil =>
      intro pre t s r s' hpre h ht hrun
      rw [List.append_nil] at hpre
      rw [hpre, slots_upperLevels] at ht
      have hta := h.wf.addr _ t (by simp [path]) ht
      obtain ⟨⟨i, c⟩, hnext, -⟩ := Loop.exists_of_bind hrun
      obtain ⟨hhist, hfree⟩ := hsup.next hnext
      rw [mapPageFrom_nil ha hta hnext] at hrun
      cases hrun
      have hq : (path v).length = 3 := rfl
      refine ⟨?_, h.wf.setLeaf _ hq ht, .inl ⟨rfl, i, hhist, fun w => ?_⟩⟩
      · exact h.of_tableOf (h.wf.setLeaf _ hq ht).wf
          (fun p hp => h.wf.tableOf_setLeaf _ hq ht p hp) hfree
      · show translate (s.mem.set _ _) root w = _
        rw [h.wf.translate_setLeaf ht _ (present_leafEntry _ _), base_leafEntry]
  | cons l ls ih =>
      intro pre t s r s' hpre h ht hrun
      have hlen := length_above hpre
      have hl := mem_levels hpre
      have hta := h.wf.addr _ t (by simp; omega) ht
      obtain ⟨⟨r1, s1⟩, hens, -⟩ := Loop.exists_of_bind hrun
      obtain ⟨h1, hg, hhist, htr, hr⟩ :=
        ensureEntry_spec hsup ha (refers_of_mem hl) h (by simpa using hlen) ht hens
      rcases hr with ⟨rfl, hpres⟩ | rfl
      · -- The entry is present; the rest of the path starts in its table.
        have ht1 := hg.tableOf _ t (by simp; omega) ht
        have hnext := tableOf_slots_concat ht1 hpres
        rw [mapPageFrom_cons ha hta ls hens] at hrun
        have hmap := ih (pre ++ [l]) _ s1 r s' (by simpa using hpre) h1 hnext hrun
        refine ⟨hmap.ready, hg.trans hmap.grows, ?_⟩
        rcases hmap.result with ⟨hr, i, hd, hw⟩ | ⟨hr, hd, hw⟩
        · exact .inl ⟨hr, i, fun fs hfs => hd fs (hhist fs hfs), fun w => by rw [hw, htr]⟩
        · exact .inr ⟨hr, fun fs hfs => hd fs (hhist fs hfs), fun w => by rw [hw, htr]⟩
      · -- The table was refused, and no leaf has changed.
        rw [mapPageFrom_cons_failed ls hens neg_ENOMEM_ne_zero] at hrun
        cases hrun
        exact ⟨h1, hg, .inr ⟨rfl, hhist, htr⟩⟩

/-- What mapping a list of pages does: the frames `gs` are drawn for the first of
them, for all of them unless the allocator refused a table. -/
structure PagesMapped (free : σ → PageIdx → Prop) (hist : σ → List PageIdx → Prop)
    (root : Uintptr) (vs : List Uintptr) (s : Machine σ) (r : Status) (s' : Machine σ)
    (gs : List PageIdx) : Prop where
  ready : Ready free root s'
  grows : Grows root s.mem s'.mem
  history : ∀ fs, hist s.ctx fs → hist s'.ctx (fs ++ gs)
  result : r = 0 ∧ gs.length = vs.length ∨ r = -ENOMEM ∧ gs.length < vs.length
  frame : ∀ w, (∀ v ∈ vs.take gs.length, pageOf w ≠ pageOf v) →
    translate s'.mem root w = translate s.mem root w
  mapped : (vs.map pageOf).Nodup → ∀ (i : Nat) (v : Uintptr) (g : PageIdx),
    vs[i]? = some v → gs[i]? = some g →
    translate s'.mem root v = g

/-- The run lemma. -/
theorem mapPagesFrom_spec (hsup : Supplies env.pacc free hist) (ha : Answers env.mapped)
    {ls pre : List Level} (hpre : pre ++ ls = upperLevels) {q : List (Fin 512)} {t : Uintptr} :
    ∀ (vs : List Uintptr) (s : Machine σ) (r : Status) (s' : Machine σ),
      Ready free root s → tableOf s.mem root q = some t → (∀ v ∈ vs, slots pre v = q) →
      mapPagesFrom env ls t vs s = .ok (r, s') →
      ∃ gs, PagesMapped free hist root vs s r s' gs := by
  have hlen : pre.length < 4 := by
    have := length_levels hpre
    omega
  intro vs
  induction vs with
  | nil =>
      intro s r s' h _ _ hrun
      cases hrun
      exact ⟨[], h, Grows.refl h.wf, fun fs hfs => by rwa [List.append_nil], .inl ⟨rfl, rfl⟩,
        fun _ _ => rfl, fun _ i v g _ hg => by simp at hg⟩
  | cons v vs ih =>
      intro s r s' h ht hq hrun
      -- All the pages go through the same entries above `ls`, so the table `t` serves the later
      -- ones, too.
      have hv : slots pre v = q := hq v (by simp)
      have hqlen : q.length < 4 := by rw [← hv]; simpa using hlen
      obtain ⟨⟨r1, s1⟩, hpage, -⟩ := Loop.exists_of_bind hrun
      have hm := mapPageFrom_spec hsup ha v ls pre t s r1 s1 hpre h (by rw [hv]; exact ht) hpage
      rcases hm.result with ⟨rfl, g, hd1, hw1⟩ | ⟨rfl, hd1, hw1⟩
      · rw [mapPagesFrom_cons vs hpage] at hrun
        obtain ⟨gs, hk⟩ := ih s1 r s' hm.ready (hm.grows.tableOf _ t hqlen ht)
          (fun w hw => hq w (by simp [hw])) hrun
        refine ⟨g :: gs, hk.ready, hm.grows.trans hk.grows, ?_, ?_, ?_, ?_⟩
        · intro fs hfs
          rw [List.append_cons]
          exact hk.history _ (hd1 fs hfs)
        · simpa using hk.result
        · intro w hw
          rw [hk.frame w fun u hu => hw u (by simp [hu]), hw1, if_neg (hw v (by simp))]
        · -- The first page keeps its frame: the later ones are other pages.
          intro hnd i u x hu hx
          simp only [List.map_cons, List.nodup_cons, List.mem_map, not_exists, not_and] at hnd
          cases i with
          | zero =>
              simp only [List.getElem?_cons_zero, Option.some.injEq] at hu hx
              subst hu hx
              rw [hk.frame v fun u hu => fun heq =>
                hnd.1 u (List.mem_of_mem_take hu) heq.symm, hw1, if_pos rfl]
          | succ i => exact hk.mapped hnd.2 i u x (by simpa using hu) (by simpa using hx)
      · -- The first page was refused, and the others are not tried.
        rw [mapPagesFrom_cons_failed vs hpage neg_ENOMEM_ne_zero] at hrun
        cases hrun
        exact ⟨[], hm.ready, hm.grows, fun fs hfs => by simpa using hd1 fs hfs,
          .inr ⟨rfl, by simp⟩, fun w _ => hw1 w, fun _ i v g _ hg => by simp at hg⟩

/-- The run lemma for the walk from the root. -/
theorem mapPagesFrom_visits (hsup : Supplies env.pacc free hist) (ha : Answers env.mapped)
    {vs : List Uintptr} (h : Ready free root s)
    (hrun : mapPagesFrom env upperLevels root vs s = .ok (r, s')) :
    ∃ gs, PagesMapped free hist root vs s r s' gs :=
  @mapPagesFrom_spec _ env free hist root hsup ha upperLevels [] rfl [] root vs s r s' h rfl
    (fun _ _ => rfl) hrun

/-- Mapping the pages of two lists. -/
theorem mapPagesFrom_append (ls : List Level) (t : Uintptr) (us vs : List Uintptr)
    (s : Machine σ) :
    mapPagesFrom env ls t (us ++ vs) s = (do
      let (r, s) ← mapPagesFrom env ls t us s
      if r ≠ 0 then return (r, s)
      mapPagesFrom env ls t vs s) := by
  induction us generalizing s with
  | nil => rfl
  | cons u us ih =>
      rw [List.cons_append]
      cases hpage : mapPageFrom env u ls t s with
      | error e => simp only [mapPagesFrom, hpage, Loop.error_bind]
      | ok x =>
          obtain ⟨r, s1⟩ := x
          by_cases hr : r = 0
          · subst hr
            rw [mapPagesFrom_cons _ hpage, mapPagesFrom_cons _ hpage, ih s1]
          · rw [mapPagesFrom_cons_failed _ hpage hr, mapPagesFrom_cons_failed _ hpage hr,
              Loop.ok_bind]
            exact (if_pos hr).symm

end Step

end MString
