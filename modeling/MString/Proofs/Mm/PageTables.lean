import MString.Proofs.Mm.Pins

/-!
# `MString.Proofs.Mm.PageTables`: page tables that are there, and missing ones

Whether a call needs the allocator depends on the page tables alone.

* `mapPageFrom_of_tableOf`: where its page table is there, a page is mapped with one store.
* `mapPagesFrom_of_tables`: where all of them are, no call runs out of memory, and by
  `mapPagesFrom_tables` the pages are mapped.
* `mapPagesFrom_refused`: where one is missing, a call that gets no page does, and by
  `mapPagesFrom_stops` it does so at this page.
-/

set_option autoImplicit false

namespace MString

variable {σ : Type}

/-- The accessor's allocator has no page for these flags. -/
def Refuses (env : WalkEnv σ) : Prop :=
  ∀ s, env.pacc.allocPage env.flags true s = .ok (none, s)

variable {env : WalkEnv σ} {root : Uintptr}

/-- The first step down a path that leads to a table. -/
theorem present_of_tableOf {m : Mem} {v t t' : Uintptr} {l : Level} {ls pre : List Level}
    (hpre : pre ++ l :: ls = upperLevels) (ht : tableOf m root (slots pre v) = some t)
    (ht' : tableOf m root (path v) = some t') :
    (slotEntry m t (ptlIndex l.shift v)).present = true := by
  have hpath : path v = slots pre v ++ ptlIndex l.shift v :: slots ls v := by
    rw [← slots_upperLevels, ← hpre, slots_append]
    rfl
  rw [hpath, tableOf, Radix.tableAt_append] at ht'
  change (tableOf m root (slots pre v)).bind _ = _ at ht'
  rw [ht, Option.bind_some, Radix.tableAt_cons] at ht'
  cases hpres : (slotEntry m t (ptlIndex l.shift v)).present with
  | true => rfl
  | false =>
      rw [entryTable_eq_none.mpr hpres] at ht'
      cases ht'

/-- Where the page table is there, mapping a page goes straight to it. -/
theorem mapPageFrom_of_tableOf (ha : Answers env.mapped) {v t' : Uintptr} {s : Machine σ}
    (hwf : WellFormed s.mem root) (ht' : tableOf s.mem root (path v) = some t') :
    ∀ (ls pre : List Level) (t : Uintptr), pre ++ ls = upperLevels →
      tableOf s.mem root (slots pre v) = some t →
      mapPageFrom env v ls t s = mapPageFrom env v [] t' s := by
  intro ls
  induction ls with
  | nil =>
      intro pre t hpre ht
      rw [List.append_nil] at hpre
      rw [hpre, slots_upperLevels, ht'] at ht
      rw [Option.some.inj ht]
  | cons l ls ih =>
      intro pre t hpre ht
      have hlen := length_above hpre
      have hta := hwf.addr _ t (by simp; omega) ht
      have hpres := present_of_tableOf hpre ht ht'
      rw [← ih (pre ++ [l]) _ (by simpa using hpre) (tableOf_slots_concat ht hpres)]
      exact mapPageFrom_cons ha hta ls (ensureEntry_of_present ha hta hpres)

/-- Where it is missing and the allocator has no page, mapping fails. -/
theorem mapPageFrom_refused (hno : Refuses env) (ha : Answers env.mapped) {v : Uintptr}
    {s : Machine σ} (hwf : WellFormed s.mem root) (hnone : tableOf s.mem root (path v) = none) :
    ∀ (ls pre : List Level) (t : Uintptr), pre ++ ls = upperLevels →
      tableOf s.mem root (slots pre v) = some t → mapPageFrom env v ls t s = .ok (-ENOMEM, s) := by
  intro ls
  induction ls with
  | nil =>
      intro pre t hpre ht
      rw [List.append_nil] at hpre
      rw [hpre, slots_upperLevels, hnone] at ht
      cases ht
  | cons l ls ih =>
      intro pre t hpre ht
      have hlen := length_above hpre
      have hta := hwf.addr _ t (by simp; omega) ht
      cases hpres : (slotEntry s.mem t (ptlIndex l.shift v)).present with
      | true =>
          -- The missing table is further down.
          rw [mapPageFrom_cons ha hta ls (ensureEntry_of_present ha hta hpres)]
          exact ih (pre ++ [l]) _ (by simpa using hpre) (tableOf_slots_concat ht hpres)
      | false =>
          refine mapPageFrom_cons_failed ls ?_ neg_ENOMEM_ne_zero
          simp only [ensureEntry, readEntry_slot ha _ hta, hpres, Loop.ok_bind,
            Bool.false_eq_true, if_false, populateEntry, hno s]
          rfl

/-- The leaf store of a page leaves the tables where they are. -/
theorem mapPageFrom_leaf (ha : Answers env.mapped) {v t : Uintptr} {s s' : Machine σ} {r : Status}
    (hwf : WellFormed s.mem root) (ht : tableOf s.mem root (path v) = some t)
    (hrun : mapPageFrom env v [] t s = .ok (r, s')) :
    r = 0 ∧ WellFormed s'.mem root ∧
      ∀ p, p.length < 4 → tableOf s'.mem root p = tableOf s.mem root p := by
  have hta := hwf.addr _ t (by simp [path]) ht
  obtain ⟨⟨i, c⟩, hnext, -⟩ := Loop.exists_of_bind hrun
  rw [mapPageFrom_nil ha hta hnext] at hrun
  cases hrun
  exact ⟨rfl, (hwf.setLeaf _ rfl ht).wf, hwf.tableOf_setLeaf _ rfl ht⟩

/-- With all page tables there, no call runs out of memory. -/
theorem mapPagesFrom_of_tables (ha : Answers env.mapped) :
    ∀ (vs : List Uintptr) (s s' : Machine σ) (r : Status), WellFormed s.mem root →
      (∀ v ∈ vs, tableOf s.mem root (path v) ≠ none) →
      mapPagesFrom env upperLevels root vs s = .ok (r, s') → r = 0 := by
  intro vs
  induction vs with
  | nil =>
      intro s s' r _ _ hrun
      cases hrun
      rfl
  | cons v vs ih =>
      intro s s' r hwf htab hrun
      obtain ⟨t, ht⟩ := Option.ne_none_iff_exists'.mp (htab v List.mem_cons_self)
      obtain ⟨⟨r1, s1⟩, hpage, hrun⟩ := Loop.exists_of_bind hrun
      rw [mapPageFrom_of_tableOf ha hwf ht upperLevels [] root rfl rfl] at hpage
      obtain ⟨rfl, hwf1, htab1⟩ := mapPageFrom_leaf ha hwf ht hpage
      exact ih s1 s' r hwf1
        (fun w hw => by
          rw [htab1 _ (by simp [path])]
          exact htab w (List.mem_cons_of_mem _ hw))
        hrun

/-- They are mapped, and the tables stay where they are. -/
theorem mapPagesFrom_tables (ha : Answers env.mapped)
    (hnext : ∀ c, ∃ x, env.pacc.nextFrame c = .ok x) :
    ∀ (vs : List Uintptr) (s : Machine σ), WellFormed s.mem root →
      (∀ v ∈ vs, tableOf s.mem root (path v) ≠ none) →
      ∃ s', mapPagesFrom env upperLevels root vs s = .ok (0, s') ∧ WellFormed s'.mem root ∧
        ∀ p, p.length < 4 → tableOf s'.mem root p = tableOf s.mem root p := by
  intro vs
  induction vs with
  | nil => exact fun s hwf _ => ⟨s, rfl, hwf, fun _ _ => rfl⟩
  | cons v vs ih =>
      intro s hwf htab
      obtain ⟨t, ht⟩ := Option.ne_none_iff_exists'.mp (htab v List.mem_cons_self)
      have hta := hwf.addr _ t (by simp [path]) ht
      obtain ⟨⟨i, c⟩, hi⟩ := hnext s.ctx
      have hpage := mapPageFrom_nil (v := v) ha hta hi
      obtain ⟨-, hwf1, htab1⟩ := mapPageFrom_leaf ha hwf ht hpage
      rw [← mapPageFrom_of_tableOf ha hwf ht upperLevels [] root rfl rfl] at hpage
      obtain ⟨s', hrun, hwf', htab'⟩ := ih _ hwf1 fun w hw => by
        rw [htab1 _ (by simp [path])]
        exact htab w (List.mem_cons_of_mem _ hw)
      exact ⟨s', (mapPagesFrom_cons vs hpage).trans hrun, hwf', fun p hp => by
        rw [htab' p hp, htab1 p hp]⟩

/-- Behind them, a page whose table is missing ends a call that gets no page. -/
theorem mapPagesFrom_stops (hno : Refuses env) (ha : Answers env.mapped) {us : List Uintptr}
    {s s' : Machine σ} (hrun : mapPagesFrom env upperLevels root us s = .ok (0, s'))
    (hwf : WellFormed s'.mem root) {x : Uintptr} (hnone : tableOf s'.mem root (path x) = none)
    (ws : List Uintptr) :
    mapPagesFrom env upperLevels root (us ++ x :: ws) s = .ok (-ENOMEM, s') := by
  have hpage := mapPageFrom_refused hno ha hwf hnone upperLevels [] root rfl rfl
  rw [mapPagesFrom_append, hrun, Loop.ok_bind]
  exact mapPagesFrom_cons_failed ws hpage neg_ENOMEM_ne_zero

/-- A page that has been mapped has its page table. -/
theorem tableOf_of_mapPageFrom {free : σ → PageIdx → Prop} {hist : σ → List PageIdx → Prop}
    (hsup : Supplies env.pacc free hist) (ha : Answers env.mapped) {v : Uintptr} :
    ∀ (ls pre : List Level) (t : Uintptr) (s s' : Machine σ), pre ++ ls = upperLevels →
      Ready free root s → tableOf s.mem root (slots pre v) = some t →
      mapPageFrom env v ls t s = .ok (0, s') → tableOf s'.mem root (path v) ≠ none := by
  intro ls
  induction ls with
  | nil =>
      intro pre t s s' hpre h ht hrun
      rw [List.append_nil] at hpre
      rw [hpre, slots_upperLevels] at ht
      obtain ⟨-, -, htab⟩ := mapPageFrom_leaf ha h.wf ht hrun
      rw [htab _ (by simp [path]), ht]
      exact Option.some_ne_none t
  | cons l ls ih =>
      intro pre t s s' hpre h ht hrun
      have hlen := length_above hpre
      obtain ⟨⟨r1, s1⟩, hens, -⟩ := Loop.exists_of_bind hrun
      obtain ⟨h1, hg, -, -, hr⟩ :=
        ensureEntry_spec hsup ha (refers_of_mem (mem_levels hpre)) h (by simpa using hlen) ht hens
      rcases hr with ⟨rfl, hpres⟩ | rfl
      · rw [mapPageFrom_cons ha (h.wf.addr _ t (by simp; omega) ht) ls hens] at hrun
        exact ih (pre ++ [l]) _ s1 s' (by simpa using hpre) h1
          (tableOf_slots_concat (hg.tableOf _ t (by simp; omega) ht) hpres) hrun
      · rw [mapPageFrom_cons_failed ls hens neg_ENOMEM_ne_zero] at hrun
        cases hrun

/-- With one missing, a call that gets no page does. -/
theorem mapPagesFrom_refused (hno : Refuses env) (ha : Answers env.mapped)
    (hnext : ∀ c, ∃ x, env.pacc.nextFrame c = .ok x) :
    ∀ (vs : List Uintptr) (s : Machine σ), WellFormed s.mem root →
      (∃ v ∈ vs, tableOf s.mem root (path v) = none) →
      ∃ s', mapPagesFrom env upperLevels root vs s = .ok (-ENOMEM, s') := by
  intro vs
  induction vs with
  | nil => intro s _ ⟨v, hv, _⟩; simp at hv
  | cons v vs ih =>
      intro s hwf ⟨w, hw, hnone⟩
      cases ht : tableOf s.mem root (path v) with
      | none =>
          have hpage := mapPageFrom_refused hno ha hwf ht upperLevels [] root rfl rfl
          exact ⟨s, mapPagesFrom_cons_failed vs hpage neg_ENOMEM_ne_zero⟩
      | some t =>
          -- This page is mapped, and the missing table is that of a later one.
          have hta := hwf.addr _ t (by simp [path]) ht
          obtain ⟨⟨i, c⟩, hi⟩ := hnext s.ctx
          have hpage := mapPageFrom_nil (v := v) ha hta hi
          obtain ⟨-, hwf1, htab1⟩ := mapPageFrom_leaf ha hwf ht hpage
          have hw' : w ∈ vs := by
            rcases List.mem_cons.mp hw with rfl | hw
            · rw [hnone] at ht
              cases ht
            · exact hw
          obtain ⟨s', hrun⟩ := ih _ hwf1 ⟨w, hw', by rw [htab1 _ (by simp [path]), hnone]⟩
          rw [← mapPageFrom_of_tableOf ha hwf ht upperLevels [] root rfl rfl] at hpage
          exact ⟨s', (mapPagesFrom_cons vs hpage).trans hrun⟩

end MString
