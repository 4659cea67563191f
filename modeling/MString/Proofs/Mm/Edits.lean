import MString.Proofs.Mm.Pins

/-!
# `MString.Proofs.Mm.Edits`: the stores of one call

Two kinds of store change a directory: a fresh table is hung under an empty entry, and
a leaf is written for a page. `Edits flags root vs m m'` says that such stores lead from
`m` to `m'`, with leaves for the pages `vs` in this order.

* `mmMapPages_edits`: a call of `mm_map_pages` makes such stores, for all the pages it
  visits when it succeeds.
* `Edits.wellFormed`, `Edits.plain`: what every store keeps.
* `Edits.leafOf_other`, `Edits.leafOf_mem`: the leaves afterwards.
-/

set_option autoImplicit false

namespace MString

/-- An upper entry as the `populate_*_entry` functions write it, whatever the flags. -/
structure Plain (e : TlbEntry) : Prop where
  rw : e.rw = true
  us : e.us = false
  nx : e.nx = false

/-- The entries that refer to tables are plain. -/
theorem plain_fields {l : Level} (h : l ∈ upperLevels) (pfn : Uintptr) (e : TlbEntry) :
    Plain (l.fields pfn e) := by
  simp only [upperLevels, List.mem_cons, List.not_mem_nil, or_false] at h
  rcases h with rfl | rfl | rfl
  · exact ⟨rfl, rfl, rfl⟩
  · exact ⟨rfl, rfl, rfl⟩
  · exact ⟨rfl, rfl, rfl⟩

/-- All present entries of the upper tables are plain. -/
def PlainDirectory (m : Mem) (root : Uintptr) : Prop :=
  ∀ p t i, p.length < 3 → tableOf m root p = some t → (slotEntry m t i).present = true →
    Plain (slotEntry m t i)

/-- What holds of the old entries of the upper tables and of a new reference holds of all
of them. -/
theorem WellFormed.upper_link {m : Mem} {root t : Uintptr} {q : List (Fin 512)} {i : Fin 512}
    {pf : PageIdx} {e : TlbEntry} (h : WellFormed m root) (hq : q.length < 3)
    (ht : tableOf m root q = some t) (hempty : (slotEntry m t i).present = false)
    (hlow : LowFrame pf) (hfresh : ∀ p, p.length < 4 → tableOf m root p ≠ some (pframeToVirt pf))
    (he : entryTable e = some (pframeToVirt pf)) (P : TlbEntry → Prop)
    (hold : ∀ p u j, p.length < 3 → tableOf m root p = some u →
      (slotEntry m u j).present = true → P (slotEntry m u j)) (hnew : P e) :
    ∀ p u j, p.length < 3 →
      tableOf ((m.clean pf).set (EntryPtr.mk t i).addr e) root p = some u →
      (slotEntry ((m.clean pf).set (EntryPtr.mk t i).addr e) u j).present = true →
      P (slotEntry ((m.clean pf).set (EntryPtr.mk t i).addr e) u j) := by
  intro p u j hp hu hpres
  have hta := h.addr q t (by omega) ht
  have hua := (h.link hq ht hempty hlow hfresh he).wf.addr p u (by omega) hu
  rw [slotEntry_set hta hua] at hpres ⊢
  by_cases hslot : u = t ∧ j = i
  · rw [if_pos hslot]
    exact hnew
  · rw [if_neg hslot, slotEntry_clean hua hlow] at hpres ⊢
    by_cases hfrom : u = pframeToVirt pf
    · rw [if_pos hfrom] at hpres
      cases hpres
    · rw [if_neg hfrom] at hpres ⊢
      exact hold p u j hp ((h.tableOf_link hq ht hempty hlow hfresh he p u (by omega)
        hu).resolve_right hfrom) hpres

/-- A leaf is no entry of an upper table. -/
theorem WellFormed.upper_setLeaf {m : Mem} {root t : Uintptr} {q : List (Fin 512)} {i : Fin 512}
    {e : TlbEntry} (h : WellFormed m root) (hq : q.length = 3) (ht : tableOf m root q = some t)
    (P : TlbEntry → Prop)
    (hold : ∀ p u j, p.length < 3 → tableOf m root p = some u →
      (slotEntry m u j).present = true → P (slotEntry m u j)) :
    ∀ p u j, p.length < 3 → tableOf (m.set (EntryPtr.mk t i).addr e) root p = some u →
      (slotEntry (m.set (EntryPtr.mk t i).addr e) u j).present = true →
      P (slotEntry (m.set (EntryPtr.mk t i).addr e) u j) := by
  intro p u j hp hu hpres
  rw [h.tableOf_setLeaf _ hq ht p (by omega)] at hu
  rw [h.agree_setLeaf _ hq ht p u j (by omega) hu] at hpres ⊢
  exact hold p u j hp hu hpres

/-- Stores that lead from one memory to another, with leaves for a list of pages. -/
inductive Edits (flags : PageFlags) (root : Uintptr) : List Uintptr → Mem → Mem → Prop
  | refl (m : Mem) : Edits flags root [] m m
  /-- A clean fresh frame becomes a table under an empty entry. -/
  | link {vs : List Uintptr} {m m1 : Mem} {q : List (Fin 512)} {t : Uintptr} {i : Fin 512}
      {pf : PageIdx} {l : Level} {e : TlbEntry} (before : Edits flags root vs m m1)
      (short : q.length < 3) (table : tableOf m1 root q = some t)
      (empty : (slotEntry m1 t i).present = false) (low : LowFrame pf)
      (fresh : ∀ p, p.length < 4 → tableOf m1 root p ≠ some (pframeToVirt pf))
      (level : l ∈ upperLevels) :
      Edits flags root vs m
        ((m1.clean pf).set (EntryPtr.mk t i).addr (l.fields (pf.setWidth 64) e))
  /-- A page gets its leaf. -/
  | leaf {vs : List Uintptr} {m m1 : Mem} {v t : Uintptr} {j : PageIdx}
      (before : Edits flags root vs m m1) (table : tableOf m1 root (path v) = some t) :
      Edits flags root (vs ++ [v]) m
        (m1.set (EntryPtr.mk t (ptlIndex 12 v)).addr (leafEntry flags j))

section Edits

variable {flags : PageFlags} {root : Uintptr} {us vs : List Uintptr} {m m1 m' : Mem}

/-- Edits follow each other. -/
theorem Edits.trans (h : Edits flags root us m m1) (h' : Edits flags root vs m1 m') :
    Edits flags root (us ++ vs) m m' := by
  induction h' with
  | refl => rwa [List.append_nil]
  | link _ short table empty low fresh level ih =>
      exact .link (ih h) short table empty low fresh level
  | leaf _ table ih =>
      rw [← List.append_assoc]
      exact .leaf (ih h) table

/-- And they keep the tables well formed. -/
theorem Edits.wellFormed (h : Edits flags root vs m m') (hwf : WellFormed m root) :
    WellFormed m' root := by
  induction h with
  | refl => exact hwf
  | link _ short table empty low fresh level ih =>
      exact ((ih hwf).link short table empty low fresh ((refers_of_mem level).entryTable low _)).wf
  | leaf _ table ih => exact ((ih hwf).setLeaf _ rfl table).wf

/-- Upper entries stay plain. -/
theorem Edits.plain (h : Edits flags root vs m m') (hwf : WellFormed m root)
    (hplain : PlainDirectory m root) : PlainDirectory m' root := by
  induction h with
  | refl => exact hplain
  | link before short table empty low fresh level ih =>
      exact (before.wellFormed hwf).upper_link short table empty low fresh
        ((refers_of_mem level).entryTable low _) Plain (ih hwf hplain) (plain_fields level _ _)
  | leaf before table ih =>
      exact (before.wellFormed hwf).upper_setLeaf rfl table Plain (ih hwf hplain)

/-- The other pages keep their leaves. -/
theorem Edits.leafOf_other (h : Edits flags root vs m m') (hwf : WellFormed m root)
    {w : Uintptr} (hw : ∀ v ∈ vs, pageOf w ≠ pageOf v) : leafOf m' root w = leafOf m root w := by
  induction h with
  | refl => rfl
  | link before short table empty low fresh level ih =>
      rw [(before.wellFormed hwf).leafOf_link short table empty low fresh
        ((refers_of_mem level).entryTable low _)]
      exact ih hwf hw
  | @leaf vs m m1 v t j before table ih =>
      rw [(before.wellFormed hwf).leafOf_setLeaf table _ (present_leafEntry _ _),
        if_neg (hw v (by simp))]
      exact ih hwf fun u hu => hw u (by simp [hu])

/-- The pages of the list have a leaf with the flags. -/
theorem Edits.leafOf_mem (h : Edits flags root vs m m') (hwf : WellFormed m root)
    {w : Uintptr} (hw : ∃ v ∈ vs, pageOf w = pageOf v) :
    ∃ j, leafOf m' root w = some (leafEntry flags j) := by
  induction h with
  | refl => exact absurd hw (by simp)
  | link before short table empty low fresh level ih =>
      rw [(before.wellFormed hwf).leafOf_link short table empty low fresh
        ((refers_of_mem level).entryTable low _)]
      exact ih hwf hw
  | @leaf vs m m1 v t j before table ih =>
      rw [(before.wellFormed hwf).leafOf_setLeaf table _ (present_leafEntry _ _)]
      by_cases hlast : pageOf w = pageOf v
      · exact ⟨j, if_pos hlast⟩
      · rw [if_neg hlast]
        obtain ⟨u, hu, heq⟩ := hw
        rcases List.mem_append.mp hu with hu | hu
        · exact ih hwf ⟨u, hu, heq⟩
        · exact absurd (List.mem_singleton.mp hu ▸ heq) hlast

end Edits

/-! ### The walkers -/

section Walkers

variable {σ : Type} {env : WalkEnv σ} {free : σ → PageIdx → Prop}
  {hist : σ → List PageIdx → Prop} {root : Uintptr}

/-- Making sure of an entry hangs at most one table. -/
theorem ensureEntry_edits (hsup : Supplies env.pacc free hist) (ha : Answers env.mapped)
    {l : Level} (hl : l ∈ upperLevels) {s s' : Machine σ} {r : Status} (h : Ready free root s)
    {q : List (Fin 512)} {t : Uintptr} {i : Fin 512} (hq : q.length < 3)
    (ht : tableOf s.mem root q = some t)
    (hrun : ensureEntry (populateEntry l.fields) env ⟨t, i⟩ s = .ok (r, s')) :
    Edits env.flags root [] s.mem s'.mem := by
  have hta := h.wf.addr q t (by omega) ht
  cases hpres : (slotEntry s.mem t i).present with
  | true =>
      -- The entry is there already.
      rw [ensureEntry_of_present ha hta hpres] at hrun
      cases hrun
      exact .refl _
  | false =>
      rw [ensureEntry, readEntry_slot ha _ hta] at hrun
      simp only [bind, Except.bind, hpres, Bool.false_eq_true, if_false, populateEntry] at hrun
      cases halloc : env.pacc.allocPage env.flags true s with
      | error e => simp [halloc] at hrun
      | ok x =>
          obtain ⟨o, s1⟩ := x
          simp only [halloc] at hrun
          cases o with
          | none =>
              -- Without a page nothing is stored.
              cases hrun
              rw [(hsup.none halloc).1]
              exact .refl _
          | some pf =>
              -- The clean page becomes a table, and the entry refers to it.
              obtain ⟨hpf, hmem, -, -⟩ := hsup.some halloc
              simp only [readEntry_slot ha _ hta, writeEntry_slot ha _ hta, pure,
                Except.pure] at hrun
              cases hrun
              rw [hmem]
              exact .link (.refl _) hq ht hpres (h.low pf hpf) (h.fresh pf hpf) hl

/-- Mapping one page writes its leaf, unless a table was refused. -/
theorem mapPageFrom_edits (hsup : Supplies env.pacc free hist) (ha : Answers env.mapped)
    (v : Uintptr) :
    ∀ (ls pre : List Level) (t : Uintptr) (s : Machine σ) (r : Status) (s' : Machine σ),
      pre ++ ls = upperLevels → Ready free root s → tableOf s.mem root (slots pre v) = some t →
      mapPageFrom env v ls t s = .ok (r, s') →
      r = 0 ∧ Edits env.flags root [v] s.mem s'.mem ∨
        r ≠ 0 ∧ Edits env.flags root [] s.mem s'.mem := by
  intro ls
  induction ls with
  -- The leaf is the one edit of a page that is mapped.
  | nil =>
      intro pre t s r s' hpre h ht hrun
      rw [List.append_nil] at hpre
      rw [hpre, slots_upperLevels] at ht
      have hta := h.wf.addr _ t (by simp [path]) ht
      obtain ⟨⟨i, c⟩, -, hrun⟩ := Loop.exists_of_bind hrun
      dsimp only at hrun
      rw [writeEntry_slot ha _ hta] at hrun
      cases hrun
      exact .inl ⟨rfl, .leaf (.refl _) ht⟩
  | cons l ls ih =>
      intro pre t s r s' hpre h ht hrun
      have hlen := length_above hpre
      have hl := mem_levels hpre
      have hta := h.wf.addr _ t (by simp; omega) ht
      obtain ⟨⟨r1, s1⟩, hens, hrun⟩ := Loop.exists_of_bind hrun
      -- Filling in a reference is an edit, too, and it comes first.
      have hedit := ensureEntry_edits hsup ha hl h (by simpa using hlen) ht hens
      obtain ⟨h1, hg, -, -, hr⟩ :=
        ensureEntry_spec hsup ha (refers_of_mem hl) h (by simpa using hlen) ht hens
      dsimp only at hrun
      rcases hr with ⟨rfl, hpres⟩ | rfl
      · -- The rest of the path starts in the table of the entry.
        have ht1 := hg.tableOf _ t (by simp; omega) ht
        have hnext := tableOf_slots_concat ht1 hpres
        rw [if_neg (by simp), readEntry_slot ha _ hta, Loop.ok_bind] at hrun
        rcases ih (pre ++ [l]) _ s1 r s' (by simpa using hpre) h1 hnext hrun with
          ⟨hr, hrest⟩ | ⟨hr, hrest⟩
        · exact .inl ⟨hr, hedit.trans hrest⟩
        · exact .inr ⟨hr, hedit.trans hrest⟩
      · -- The table was refused, so nothing but clean references has changed.
        rw [if_pos neg_ENOMEM_ne_zero] at hrun
        cases hrun
        exact .inr ⟨neg_ENOMEM_ne_zero, hedit⟩

/-- Mapping a list of pages writes the leaves of a first part of them, of all of them
when it succeeds. -/
theorem mapPagesFrom_edits (hsup : Supplies env.pacc free hist) (ha : Answers env.mapped) :
    ∀ (vs : List Uintptr) (s : Machine σ) (r : Status) (s' : Machine σ),
      Ready free root s → mapPagesFrom env upperLevels root vs s = .ok (r, s') →
      ∃ us, Edits env.flags root us s.mem s'.mem ∧ us <+: vs ∧ (r = 0 → us = vs) := by
  intro vs
  induction vs with
  | nil =>
      intro s r s' _ hrun
      cases hrun
      exact ⟨[], .refl _, List.prefix_rfl, fun _ => rfl⟩
  | cons v vs ih =>
      intro s r s' h hrun
      obtain ⟨⟨r1, s1⟩, hpage, hrun⟩ := Loop.exists_of_bind hrun
      have hspec := mapPageFrom_spec hsup ha v upperLevels [] root s r1 s1 rfl h rfl hpage
      dsimp only at hrun
      rcases mapPageFrom_edits hsup ha v upperLevels [] root s r1 s1 rfl h rfl hpage with
        ⟨rfl, hedit⟩ | ⟨hr, hedit⟩
      · rw [if_neg (by simp)] at hrun
        obtain ⟨us, hus, hpre, hall⟩ := ih s1 r s' hspec.ready hrun
        exact ⟨v :: us, hedit.trans hus, List.cons_prefix_cons.mpr ⟨rfl, hpre⟩,
          fun h0 => by rw [hall h0]⟩
      · rw [if_pos hr] at hrun
        cases hrun
        exact ⟨[], hedit, List.nil_prefix, fun h0 => absurd h0 hr⟩

end Walkers

/-- The stores of one call that is not refused and does not overrun. -/
theorem mmMapPages_edits {σ : Type} {pacc : PageFrameAccessor σ} {free : σ → PageIdx → Prop}
    {hist : σ → List PageIdx → Prop} {root virt n : Uintptr} {flags : PageFlags}
    {s s' : Machine σ} {r : Status} {mapped : EntryPtr → Bool} (hsup : Supplies pacc free hist)
    (ha : Answers mapped) (h : Ready free root s) (hrefused : ¬ Refused ⟨root⟩ virt n)
    (hover : ¬ Overruns (virt &&& PAGE_ADDR_MASK) (virt + n * PAGE_SIZE))
    (hrun : mmMapPages mapped (some ⟨root⟩) (some pacc) virt n flags s = .ok (r, s')) :
    ∃ us, Edits flags root us s.mem s'.mem ∧
      us <+: pagesFrom (virt &&& PAGE_ADDR_MASK)
        (visited (virt &&& PAGE_ADDR_MASK) (virt + n * PAGE_SIZE)) ∧
      (r = 0 → us = pagesFrom (virt &&& PAGE_ADDR_MASK)
        (visited (virt &&& PAGE_ADDR_MASK) (virt + n * PAGE_SIZE))) := by
  rw [mmMapPages_eq hsup ha h hrefused hover] at hrun
  exact @mapPagesFrom_edits _ ⟨mapped, pacc, flags⟩ _ _ _ hsup ha _ s r s' h hrun

end MString
