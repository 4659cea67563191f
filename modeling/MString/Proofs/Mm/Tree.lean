import MString.Lib.Radix
import MString.Proofs.Mm.Words

/-!
# `MString.Proofs.Mm.Tree`: page directories as trees of tables

The four levels of a page directory are a radix tree (`Lib/Radix.lean`) over
nine-bit slots, whose references are the present entries. `WellFormed` says that
the upper three levels really form one: all tables stand in the kernel window and
no two of them coincide.

`translate` is the abstract translation, the leaf found along the path of an
address; `mmPinVirtualAddress_eq` says that `mm_pin_virtual_address` computes it.

Two writes change a directory, and each has one lemma:

* `WellFormed.setLeaf`: a store to a slot of a page table changes the translation
  of that page and of no other.
* `WellFormed.link`: hanging a fresh cleaned frame under an empty slot changes no
  translation.

`Grows` is what both leave behind for the walkers: present references stay.
-/

set_option autoImplicit false

namespace MString

/-- The entry in slot `i` of the table at `t`. -/
def slotEntry (m : Mem) (t : Uintptr) (i : Fin 512) : TlbEntry := m (EntryPtr.mk t i).addr

/-- The table that an entry refers to. -/
def entryTable (e : TlbEntry) : Option Uintptr := if e.present then some e.table else none

/-- The table at the end of a path. -/
def tableOf (m : Mem) (root : Uintptr) (p : List (Fin 512)) : Option Uintptr :=
  Radix.tableAt entryTable (slotEntry m) root p

/-- The path of the page table that translates `v`. -/
def path (v : Uintptr) : List (Fin 512) := [ptlIndex 39 v, ptlIndex 30 v, ptlIndex 21 v]

/-- The page of an address: the 36 bits that four levels of tables translate. -/
def pageOf (v : Uintptr) : Nat := v.toNat / 2 ^ 12 % 2 ^ 36

/-- A page directory whose tables form a tree in the kernel window. -/
structure WellFormed (m : Mem) (root : Uintptr) : Prop where
  addr : ∀ p t, p.length < 4 → tableOf m root p = some t → TableAddr t
  tree : Radix.IsTree entryTable (slotEntry m) root 4

/-- The frame that a directory maps an address to. -/
def translate (m : Mem) (root v : Uintptr) : PageIdx :=
  match tableOf m root (path v) with
  | some t => if (slotEntry m t (ptlIndex 12 v)).present then (slotEntry m t (ptlIndex 12 v)).base
      else INVALID_PAGE_IDX
  | none => INVALID_PAGE_IDX

/-- The present leaf on the path of an address. -/
def leafOf (m : Mem) (root v : Uintptr) : Option TlbEntry :=
  match tableOf m root (path v) with
  | some t => if (slotEntry m t (ptlIndex 12 v)).present then some (slotEntry m t (ptlIndex 12 v))
      else none
  | none => none

/-- The frame is that of the leaf. -/
theorem translate_eq_leafOf (m : Mem) (root v : Uintptr) : translate m root v
    = match leafOf m root v with
      | some e => e.base
      | none => INVALID_PAGE_IDX := by
  unfold translate leafOf
  cases tableOf m root (path v) with
  | none => rfl
  | some t => cases h : (slotEntry m t (ptlIndex 12 v)).present <;> simp [h]

/-- Every slot of every table answers. -/
def Answers (mapped : EntryPtr → Bool) : Prop :=
  ∀ t i, TableAddr t → mapped ⟨t, (i : Fin 512).val⟩ = true

/-- The kernel's window holds all tables. -/
theorem answers_kernelWindow : Answers kernelWindow := fun _ i h => kernelWindow_slot h i

variable {m m' : Mem} {root : Uintptr}

/-- The root is a table in the window. -/
theorem WellFormed.tableAddr_root (h : WellFormed m root) : TableAddr root :=
  h.addr [] root (by simp) rfl

/-- A present entry refers to its table, ... -/
@[simp] theorem entryTable_of_present {e : TlbEntry} (h : e.present = true) :
    entryTable e = some e.table := if_pos h

/-- ... another one to none. -/
@[simp] theorem entryTable_of_not_present {e : TlbEntry} (h : e.present = false) :
    entryTable e = none := by
  simp [entryTable, h]

/-- So an entry without a table is not present. -/
theorem entryTable_eq_none {e : TlbEntry} : entryTable e = none ↔ e.present = false := by
  cases h : e.present <;> simp [entryTable, h]

/-- An entry that refers to a table. -/
theorem entryTable_eq_some {e : TlbEntry} {t : Uintptr} :
    entryTable e = some t ↔ e.present = true ∧ e.table = t := by
  cases h : e.present <;> simp [entryTable, h]

/-- One level down. -/
theorem tableOf_concat (p : List (Fin 512)) (i : Fin 512) :
    tableOf m root (p ++ [i]) = (tableOf m root p).bind fun t => entryTable (slotEntry m t i) :=
  Radix.tableAt_concat root p i

/-- The table behind an entry of the root. -/
theorem tableOf_single (i : Fin 512) : tableOf m root [i] = entryTable (slotEntry m root i) :=
  tableOf_concat [] i

/-- In an empty directory no path leads anywhere. -/
theorem tableOf_of_empty (hempty : ∀ i, (slotEntry m root i).present = false)
    {p : List (Fin 512)} {t : Uintptr} (h : tableOf m root p = some t) : p = [] ∧ t = root := by
  cases p with
  | nil => exact ⟨rfl, (Option.some.inj h).symm⟩
  | cons i p =>
      rw [tableOf, Radix.tableAt_cons, entryTable_of_not_present (hempty i)] at h
      cases h

/-- An empty directory is well formed. -/
theorem wellFormed_of_empty (hroot : TableAddr root)
    (hempty : ∀ i, (slotEntry m root i).present = false) : WellFormed m root where
  addr := fun p t _ h => (tableOf_of_empty hempty h).2 ▸ hroot
  tree := fun p q t _ _ h h' => by
    rw [(tableOf_of_empty hempty h).1, (tableOf_of_empty hempty h').1]

/-- The reader walks the path. -/
theorem mmPinVirtualAddress_eq {mapped : EntryPtr → Bool} (ha : Answers mapped)
    (h : WellFormed m root) (v : Uintptr) :
    mmPinVirtualAddress mapped m ⟨root⟩ v = .ok (translate m root v) := by
  have read : ∀ t i, TableAddr t →
      readEntry mapped m ⟨t, (i : Fin 512).val⟩ = .ok (slotEntry m t i) := fun t i ht => by
    rw [readEntry, if_pos (ha t i ht)]
    rfl
  -- Walk down as long as the entries are present.
  have h1 := @tableOf_concat m root [] (ptlIndex 39 v)
  have h2 := @tableOf_concat m root [ptlIndex 39 v] (ptlIndex 30 v)
  have h3 := @tableOf_concat m root [ptlIndex 39 v, ptlIndex 30 v] (ptlIndex 21 v)
  simp only [List.nil_append, List.cons_append] at h1 h2 h3
  rw [show tableOf m root [] = some root from rfl, Option.bind_some] at h1
  rw [mmPinVirtualAddress, read _ _ h.tableAddr_root]
  cases p4 : (slotEntry m root (ptlIndex 39 v)).present with
  | false =>
      rw [entryTable_of_not_present p4] at h1
      simp [translate, path, h3, h2, h1, p4, bind, Except.bind, pure, Except.pure]
  | true =>
      rw [entryTable_of_present p4] at h1
      rw [h1, Option.bind_some] at h2
      have t4 := h.addr _ _ (by simp) h1
      simp only [bind, Except.bind, p4, if_true, read _ _ t4]
      cases p3 : (slotEntry m (slotEntry m root (ptlIndex 39 v)).table (ptlIndex 30 v)).present with
      | false =>
          rw [entryTable_of_not_present p3] at h2
          simp [translate, path, h3, h2, pure, Except.pure]
      | true =>
          rw [entryTable_of_present p3] at h2
          rw [h2, Option.bind_some] at h3
          have t3 := h.addr _ _ (by simp) h2
          simp only [if_true, read _ _ t3]
          cases p2 : (slotEntry m (slotEntry m (slotEntry m root (ptlIndex 39 v)).table
              (ptlIndex 30 v)).table (ptlIndex 21 v)).present with
          | false =>
              rw [entryTable_of_not_present p2] at h3
              simp [translate, path, h3, pure, Except.pure]
          | true =>
              rw [entryTable_of_present p2] at h3
              have t2 := h.addr _ _ (by simp) h3
              simp only [if_true, read _ _ t2]
              simp only [translate, path, h3]
              split <;> rfl

/-- Two addresses are in one page when they take the same path to the same slot. -/
theorem pageOf_eq_iff {v w : Uintptr} :
    pageOf v = pageOf w ↔ path v = path w ∧ ptlIndex 12 v = ptlIndex 12 w := by
  simp only [path, pageOf, List.cons.injEq, and_true, Fin.ext_iff, ptlIndex_val]
  constructor
  · intro h
    refine ⟨⟨?_, ?_, ?_⟩, ?_⟩ <;> omega
  · rintro ⟨⟨h4, h3, h2⟩, h1⟩
    omega

/-! ### Writes to tables -/

/-- A store to one slot, as the other slots see it. -/
theorem slotEntry_set {t t' : Uintptr} {i i' : Fin 512} (ht : TableAddr t) (ht' : TableAddr t')
    (e : TlbEntry) :
    slotEntry (m.set (EntryPtr.mk t i).addr e) t' i'
      = if t' = t ∧ i' = i then e else slotEntry m t' i' := by
  unfold slotEntry Mem.set
  by_cases h : (EntryPtr.mk t' i').addr = (EntryPtr.mk t i).addr
  · rw [if_pos h, if_pos (addr_inj ht' ht h)]
  · rw [if_neg h, if_neg]
    rintro ⟨rfl, rfl⟩
    exact h rfl

/-- A cleaned frame, as the slots see it. -/
theorem slotEntry_clean {t : Uintptr} {pf : PageIdx} (ht : TableAddr t) (hpf : LowFrame pf)
    (i : Fin 512) :
    slotEntry (m.clean pf) t i = if t = pframeToVirt pf then .zero else slotEntry m t i := by
  unfold slotEntry Mem.clean
  simp only [addr_sub_lt_page ht hpf]

/-- `m'` has grown out of `m`: it is well formed, and every reference that was
present in an upper table is still there. -/
structure Grows (root : Uintptr) (m m' : Mem) : Prop where
  wf : WellFormed m' root
  keep : ∀ p t i, p.length < 3 → tableOf m root p = some t →
    (slotEntry m t i).present = true → slotEntry m' t i = slotEntry m t i

/-- A directory has grown out of itself, ... -/
theorem Grows.refl (h : WellFormed m root) : Grows root m m := ⟨h, fun _ _ _ _ _ _ => rfl⟩

/-- A path that led to a table still leads to it. -/
theorem Grows.tableOf (h : Grows root m m') :
    ∀ (p : List (Fin 512)) (t : Uintptr), p.length < 4 → MString.tableOf m root p = some t →
      MString.tableOf m' root p = some t := by
  intro p
  induction p using List.reverseRecOn with
  | nil => intro t _ ht; exact ht
  | append_singleton p i ih =>
      intro t hp ht
      simp only [List.length_append, List.length_singleton] at hp
      obtain ⟨b, hb, he⟩ := Radix.exists_prefix_table ht
      have hpres : (slotEntry m b i).present = true := by
        cases hpr : (slotEntry m b i).present with
        | true => rfl
        | false => rw [entryTable_of_not_present hpr] at he; cases he
      rw [tableOf_concat, ih b (by omega) hb]
      show entryTable (slotEntry m' b i) = some t
      rw [h.keep p b i (by omega) hb hpres]
      exact he

/-- ... and growth is passed on. -/
theorem Grows.trans {m'' : Mem} (h : Grows root m m') (h' : Grows root m' m'') :
    Grows root m m'' :=
  ⟨h'.wf, fun p t i hp ht hpres => by
    have hk := h.keep p t i hp ht hpres
    rw [← hk]
    exact h'.keep p t i hp (h.tableOf p t (by omega) ht) (by rw [hk]; exact hpres)⟩

section Leaf

variable {t : Uintptr} {q : List (Fin 512)} {i : Fin 512} (e : TlbEntry)

/-- The upper tables do not see a store to a page table. -/
theorem WellFormed.agree_setLeaf (h : WellFormed m root) (hq : q.length = 3)
    (ht : tableOf m root q = some t) :
    ∀ p u j, p.length + 1 < 4 → tableOf m root p = some u →
      slotEntry (m.set (EntryPtr.mk t i).addr e) u j = slotEntry m u j := by
  intro p u j hp hu
  have hne : u ≠ t := by
    rintro rfl
    have := h.tree p q u (by omega) (by omega) hu ht
    rw [this] at hp
    omega
  rw [slotEntry_set (h.addr q t (by omega) ht) (h.addr p u (by omega) hu),
    if_neg fun hut => hne hut.1]

/-- A store to a page table moves no table. -/
theorem WellFormed.tableOf_setLeaf (h : WellFormed m root) (hq : q.length = 3)
    (ht : tableOf m root q = some t) (p : List (Fin 512)) (hp : p.length < 4) :
    tableOf (m.set (EntryPtr.mk t i).addr e) root p = tableOf m root p :=
  Radix.tableAt_of_agree (d := 4)
    (fun p u j hp hu => by rw [h.agree_setLeaf e hq ht p u j hp hu]) p hp

/-- The directory after a store to a page table. -/
theorem WellFormed.setLeaf (h : WellFormed m root) (hq : q.length = 3)
    (ht : tableOf m root q = some t) : Grows root m (m.set (EntryPtr.mk t i).addr e) where
  wf :=
    { addr := fun p u hp hu => h.addr p u hp (by rwa [h.tableOf_setLeaf e hq ht p hp] at hu)
      tree := Radix.isTree_of_agree h.tree
        (fun p u j hp hu => by rw [h.agree_setLeaf e hq ht p u j hp hu]) }
  keep := fun p u j hp hu _ => h.agree_setLeaf e hq ht p u j (by omega) hu

end Leaf

/-- A leaf stored for the page of `v` is the leaf of that page and of no other. -/
theorem WellFormed.leafOf_setLeaf (h : WellFormed m root) {v : Uintptr} {t : Uintptr}
    (ht : tableOf m root (path v) = some t) (e : TlbEntry) (he : e.present = true)
    (w : Uintptr) :
    leafOf (m.set (EntryPtr.mk t (ptlIndex 12 v)).addr e) root w
      = if pageOf w = pageOf v then some e else leafOf m root w := by
  have hq : (path v).length = 3 := rfl
  have htab := h.tableOf_setLeaf (i := ptlIndex 12 v) e hq ht (path w) (by simp [path])
  have hta := h.addr _ _ (by simp [path]) ht
  unfold leafOf
  rw [htab]
  by_cases hp : pageOf w = pageOf v
  · obtain ⟨h3, h1⟩ := pageOf_eq_iff.mp hp
    rw [if_pos hp, h3, ht, h1]
    simp only [slotEntry_set hta hta, and_self, if_true, he]
  · rw [if_neg hp]
    cases hw : tableOf m root (path w) with
    | none => rfl
    | some u =>
        have hne : ¬ (u = t ∧ ptlIndex 12 w = ptlIndex 12 v) := by
          rintro ⟨rfl, h1⟩
          have h3 := h.tree (path w) (path v) u (by simp [path]) (by simp [path]) hw ht
          exact hp (pageOf_eq_iff.mpr ⟨h3, h1⟩)
        simp only [slotEntry_set hta (h.addr _ _ (by simp [path]) hw), if_neg hne]

/-- So it translates that page and no other. -/
theorem WellFormed.translate_setLeaf (h : WellFormed m root) {v : Uintptr} {t : Uintptr}
    (ht : tableOf m root (path v) = some t) (e : TlbEntry) (he : e.present = true)
    (w : Uintptr) :
    translate (m.set (EntryPtr.mk t (ptlIndex 12 v)).addr e) root w
      = if pageOf w = pageOf v then e.base else translate m root w := by
  rw [translate_eq_leafOf, h.leafOf_setLeaf ht e he, translate_eq_leafOf]
  by_cases hp : pageOf w = pageOf v
  · rw [if_pos hp, if_pos hp]
  · rw [if_neg hp, if_neg hp]

section Clean

variable {pf : PageIdx}

/-- The tables do not see a frame cleaned that is none of them. -/
theorem WellFormed.agree_clean (h : WellFormed m root) (hlow : LowFrame pf)
    (hfresh : ∀ p, p.length < 4 → tableOf m root p ≠ some (pframeToVirt pf)) (p : List (Fin 512))
    (t : Uintptr) (i : Fin 512) (hp : p.length < 4) (ht : tableOf m root p = some t) :
    slotEntry (m.clean pf) t i = slotEntry m t i := by
  rw [slotEntry_clean (h.addr p t hp ht) hlow, if_neg]
  rintro rfl
  exact hfresh p hp ht

/-- Clearing a frame that is no table moves no table, ... -/
theorem WellFormed.tableOf_clean (h : WellFormed m root) (hlow : LowFrame pf)
    (hfresh : ∀ p, p.length < 4 → tableOf m root p ≠ some (pframeToVirt pf)) (p : List (Fin 512))
    (hp : p.length < 4) : tableOf (m.clean pf) root p = tableOf m root p :=
  Radix.tableAt_of_agree (d := 4)
    (fun p t i hp ht => by rw [h.agree_clean hlow hfresh p t i (by omega) ht]) p hp

/-- ... keeps the tree ... -/
theorem WellFormed.clean (h : WellFormed m root) (hlow : LowFrame pf)
    (hfresh : ∀ p, p.length < 4 → tableOf m root p ≠ some (pframeToVirt pf)) :
    WellFormed (m.clean pf) root where
  addr p t hp ht := h.addr p t hp (by rwa [h.tableOf_clean hlow hfresh p hp] at ht)
  tree := Radix.isTree_of_agree h.tree
    (fun p t i hp ht => by rw [h.agree_clean hlow hfresh p t i (by omega) ht])

/-- ... and all translations. -/
theorem WellFormed.translate_clean (h : WellFormed m root) (hlow : LowFrame pf)
    (hfresh : ∀ p, p.length < 4 → tableOf m root p ≠ some (pframeToVirt pf)) (v : Uintptr) :
    translate (m.clean pf) root v = translate m root v := by
  have hp : (path v).length < 4 := by simp [path]
  unfold translate
  rw [h.tableOf_clean hlow hfresh _ hp]
  cases ht : tableOf m root (path v) with
  | none => rfl
  | some t => simp only [h.agree_clean hlow hfresh _ t _ hp ht]

end Clean

/-- The translation of an address is that of its page. -/
theorem translate_of_pageOf_eq {v w : Uintptr} (h : pageOf v = pageOf w) :
    translate m root v = translate m root w := by
  obtain ⟨hpath, hslot⟩ := pageOf_eq_iff.mp h
  rw [translate, translate, hpath, hslot]

section Link

variable {t : Uintptr} {q : List (Fin 512)} {i : Fin 512} {pf : PageIdx} {e : TlbEntry}

/-- A clean fresh frame hung under an empty slot is a link in the sense of the
radix library. -/
theorem WellFormed.links (h : WellFormed m root) (hq : q.length < 3)
    (ht : tableOf m root q = some t) (hempty : (slotEntry m t i).present = false)
    (hlow : LowFrame pf) (hfresh : ∀ p, p.length < 4 → tableOf m root p ≠ some (pframeToVirt pf))
    (he : entryTable e = some (pframeToVirt pf)) :
    Radix.Links entryTable (slotEntry m) (slotEntry ((m.clean pf).set (EntryPtr.mk t i).addr e))
      root 4 q t (pframeToVirt pf) i := by
  have hta := h.addr q t (by omega) ht
  have hpa := tableAddr_pframeToVirt hlow
  have hne : t ≠ pframeToVirt pf := fun heq => hfresh q (by omega) (by rw [← heq]; exact ht)
  refine ⟨by omega, ht, by simp [hempty], hfresh, ?_, ?_, ?_⟩
  · rw [slotEntry_set hta hta, if_pos ⟨rfl, rfl⟩, he]
  · intro j
    rw [slotEntry_set hta hpa, if_neg fun hj => hne hj.1.symm, slotEntry_clean hpa hlow,
      if_pos rfl]
    rfl
  · intro p c j hp hc hcj
    have hca := h.addr p c hp hc
    rw [slotEntry_set hta hca, if_neg fun hj => hcj (by rw [hj.1, hj.2]),
      slotEntry_clean hca hlow, if_neg]
    rintro rfl
    exact hfresh p hp hc

/-- The directory after a fresh frame was hung under an empty slot. -/
theorem WellFormed.link (h : WellFormed m root) (hq : q.length < 3)
    (ht : tableOf m root q = some t) (hempty : (slotEntry m t i).present = false)
    (hlow : LowFrame pf) (hfresh : ∀ p, p.length < 4 → tableOf m root p ≠ some (pframeToVirt pf))
    (he : entryTable e = some (pframeToVirt pf)) :
    Grows root m ((m.clean pf).set (EntryPtr.mk t i).addr e) := by
  have l := h.links hq ht hempty hlow hfresh he
  have hta := h.addr q t (by omega) ht
  refine ⟨⟨?_, Radix.isTree_link l h.tree⟩, ?_⟩
  · intro p u hp hu
    rcases l.cases h.tree p u hp hu with hold | ⟨-, rfl⟩
    · exact h.addr p u hp hold
    · exact tableAddr_pframeToVirt hlow
  · intro p u j hp hu hpres
    have hua := h.addr p u (by omega) hu
    rw [slotEntry_set hta hua, if_neg, slotEntry_clean hua hlow, if_neg]
    · rintro rfl
      exact hfresh p (by omega) hu
    · rintro ⟨rfl, rfl⟩
      rw [hempty] at hpres
      cases hpres

/-- A fresh table holds no leaf. -/
theorem WellFormed.leafOf_link (h : WellFormed m root) (hq : q.length < 3)
    (ht : tableOf m root q = some t) (hempty : (slotEntry m t i).present = false)
    (hlow : LowFrame pf) (hfresh : ∀ p, p.length < 4 → tableOf m root p ≠ some (pframeToVirt pf))
    (he : entryTable e = some (pframeToVirt pf)) (w : Uintptr) :
    leafOf ((m.clean pf).set (EntryPtr.mk t i).addr e) root w = leafOf m root w := by
  have l := h.links hq ht hempty hlow hfresh he
  have hta := h.addr q t (by omega) ht
  have hlen : (path w).length < 4 := by simp [path]
  unfold leafOf
  -- A page with a table keeps it; a page with the new table has no entry there yet.
  cases hw : tableOf m root (path w) with
  | some u =>
      have hua := h.addr _ _ hlen hw
      have hut : ¬ (u = t ∧ ptlIndex 12 w = i) := by
        rintro ⟨rfl, -⟩
        have := h.tree (path w) q u hlen (by omega) hw ht
        rw [← this] at hq
        simp [path] at hq
      have hslot : slotEntry ((m.clean pf).set (EntryPtr.mk t i).addr e) u (ptlIndex 12 w)
          = slotEntry m u (ptlIndex 12 w) := by
        rw [slotEntry_set hta hua, if_neg hut, slotEntry_clean hua hlow, if_neg]
        rintro rfl
        exact hfresh _ hlen hw
      rw [show tableOf ((m.clean pf).set (EntryPtr.mk t i).addr e) root (path w) = some u from
        l.old (path w) u hlen hw]
      simp only [hslot]
  | none =>
      cases hw' : tableOf ((m.clean pf).set (EntryPtr.mk t i).addr e) root (path w) with
      | none => rfl
      | some u =>
          rcases l.cases h.tree (path w) u hlen hw' with hold | ⟨-, rfl⟩
          · rw [show tableOf m root (path w) = some u from hold] at hw
            cases hw
          · have hpa := tableAddr_pframeToVirt hlow
            have hne : pframeToVirt pf ≠ t := fun heq =>
              hfresh q (by omega) (by rw [heq]; exact ht)
            have hslot : slotEntry ((m.clean pf).set (EntryPtr.mk t i).addr e) (pframeToVirt pf)
                (ptlIndex 12 w) = .zero := by
              rw [slotEntry_set hta hpa, if_neg fun hj => hne hj.1, slotEntry_clean hpa hlow,
                if_pos rfl]
            simp only [hslot]
            rfl

/-- So it translates nothing. -/
theorem WellFormed.translate_link (h : WellFormed m root) (hq : q.length < 3)
    (ht : tableOf m root q = some t) (hempty : (slotEntry m t i).present = false)
    (hlow : LowFrame pf) (hfresh : ∀ p, p.length < 4 → tableOf m root p ≠ some (pframeToVirt pf))
    (he : entryTable e = some (pframeToVirt pf)) (w : Uintptr) :
    translate ((m.clean pf).set (EntryPtr.mk t i).addr e) root w = translate m root w := by
  rw [translate_eq_leafOf, h.leafOf_link hq ht hempty hlow hfresh he, translate_eq_leafOf]

/-- Only the fresh frame becomes a table. -/
theorem WellFormed.tableOf_link (h : WellFormed m root) (hq : q.length < 3)
    (ht : tableOf m root q = some t) (hempty : (slotEntry m t i).present = false)
    (hlow : LowFrame pf) (hfresh : ∀ p, p.length < 4 → tableOf m root p ≠ some (pframeToVirt pf))
    (he : entryTable e = some (pframeToVirt pf)) (p : List (Fin 512)) (u : Uintptr)
    (hp : p.length < 4)
    (hu : tableOf ((m.clean pf).set (EntryPtr.mk t i).addr e) root p = some u) :
    tableOf m root p = some u ∨ u = pframeToVirt pf :=
  ((h.links hq ht hempty hlow hfresh he).cases h.tree p u hp hu).imp id And.right

end Link

end MString
