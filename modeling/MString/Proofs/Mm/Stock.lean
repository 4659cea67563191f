import MString.Proofs.Mm.Edits

/-!
# `MString.Proofs.Mm.Stock`: calls that find enough frames

Mapping one page takes at most three frames for tables, and none when the tables for its
block of 2 MB are there. What the page itself takes is up to the accessor: its `price`.

* `mmMapPages_stocked`: with that many frames, a call of `mm_map_pages` succeeds, and uses up
  no more.
* `tablesFor_le`: three tables for every page.
* `tablesFor_pagesFrom_le`: for pages in a row, three for every block that they touch.
-/

set_option autoImplicit false

namespace MString

variable {σ : Type} {stock : σ → Nat} {price : Nat} {flags : PageFlags}

/-- The accessor has what it is asked for, as long as there is stock. A frame to map costs
`price`. -/
structure Provides (pacc : PageFrameAccessor σ) (flags : PageFlags) (price : Nat)
    (stock : σ → Nat) : Prop where
  alloc : ∀ s, 0 < stock s.ctx →
    ∃ pf s', pacc.allocPage flags true s = .ok (some pf, s') ∧ stock s.ctx ≤ stock s'.ctx + 1
  next : ∀ c, price ≤ stock c → ∃ i c', pacc.nextFrame c = .ok (i, c') ∧ stock c ≤ stock c' + price

/-- The run succeeds and uses up at most `n` frames. -/
def Spends (stock : σ → Nat) (n : Nat) (s : Machine σ) (x : Except Fault (Status × Machine σ)) :
    Prop := ∃ s', x = .ok (0, s') ∧ stock s.ctx ≤ stock s'.ctx + n

/-! ### One page -/

section Walk

variable {env : WalkEnv σ} {free : σ → PageIdx → Prop} {hist : σ → List PageIdx → Prop}
  {root : Uintptr}

theorem ensureEntry_stocked (hp : Provides env.pacc env.flags price stock)
    (ha : Answers env.mapped) (fields : Uintptr → TlbEntry → TlbEntry) {t : Uintptr}
    (hta : TableAddr t) (i : Fin 512) (s : Machine σ) (hs : 0 < stock s.ctx) :
    Spends stock 1 s (ensureEntry (populateEntry fields) env ⟨t, i⟩ s) := by
  cases hpres : (slotEntry s.mem t i).present with
  | true => exact ⟨s, ensureEntry_of_present ha hta hpres, Nat.le_succ _⟩
  | false =>
      obtain ⟨pf, s1, halloc, hle⟩ := hp.alloc s hs
      refine ⟨⟨s1.mem.set (EntryPtr.mk t i).addr
        (fields (pf.setWidth 64) (slotEntry s1.mem t i)), s1.ctx⟩, ?_, hle⟩
      rw [ensureEntry, readEntry_slot ha _ hta, Loop.ok_bind]
      simp only [hpres, Bool.false_eq_true, if_false, populateEntry, halloc, Loop.ok_bind,
        readEntry_slot ha _ hta, writeEntry_slot ha _ hta]
      rfl

/-- One page, from the table at `pre` on. -/
theorem mapPageFrom_stocked (hsup : Supplies env.pacc free hist)
    (hp : Provides env.pacc env.flags price stock) (ha : Answers env.mapped) (v : Uintptr) :
    ∀ (ls pre : List Level) (t : Uintptr) (s : Machine σ), pre ++ ls = upperLevels →
      Ready free root s → tableOf s.mem root (slots pre v) = some t →
      ls.length + price ≤ stock s.ctx →
      Spends stock (ls.length + price) s (mapPageFrom env v ls t s) := by
  intro ls
  -- on the levels below the table: one frame for each
  induction ls with
  | nil =>
      intro pre t s hpre h ht hs
      rw [List.append_nil] at hpre
      rw [hpre, slots_upperLevels] at ht
      rw [List.length_nil, Nat.zero_add] at hs ⊢
      have hta := h.wf.addr _ t (by simp [path]) ht
      obtain ⟨i, c, hnext, hle⟩ := hp.next s.ctx hs
      exact ⟨_, mapPageFrom_nil ha hta hnext, hle⟩
  | cons l ls ih =>
      intro pre t s hpre h ht hs
      have hlen := length_above hpre
      have hl := mem_levels hpre
      have hta := h.wf.addr _ t (by simp; omega) ht
      rw [List.length_cons] at hs ⊢
      obtain ⟨s1, hens, hle⟩ := ensureEntry_stocked hp ha l.fields hta (ptlIndex l.shift v) s
        (by omega)
      obtain ⟨h1, hg, -, -, hr⟩ :=
        ensureEntry_spec hsup ha (refers_of_mem hl) h (by simpa using hlen) ht hens
      have hpres : (slotEntry s1.mem t (ptlIndex l.shift v)).present = true := by
        rcases hr with ⟨-, hpres⟩ | hr
        · exact hpres
        · exact absurd hr.symm neg_ENOMEM_ne_zero
      have hnext := tableOf_slots_concat (hg.tableOf _ t (by simp; omega) ht) hpres
      obtain ⟨s', hrun, hle'⟩ := ih (pre ++ [l]) _ s1 (by simpa using hpre) h1 hnext (by omega)
      exact ⟨s', by rw [mapPageFrom_cons ha hta ls hens, hrun], by omega⟩

/-- One page whose tables are there. -/
theorem mapPageFrom_there (hp : Provides env.pacc env.flags price stock)
    (ha : Answers env.mapped) (v : Uintptr) {s : Machine σ} (h : WellFormed s.mem root)
    (hthere : tableOf s.mem root (path v) ≠ none) (hs : price ≤ stock s.ctx) :
    ∀ (ls pre : List Level) (t : Uintptr), pre ++ ls = upperLevels →
      tableOf s.mem root (slots pre v) = some t →
      Spends stock price s (mapPageFrom env v ls t s) := by
  intro ls
  induction ls with
  | nil =>
      intro pre t hpre ht
      rw [List.append_nil] at hpre
      rw [hpre, slots_upperLevels] at ht
      have hta := h.addr _ t (by simp [path]) ht
      obtain ⟨i, c, hnext, hle⟩ := hp.next s.ctx hs
      exact ⟨_, mapPageFrom_nil ha hta hnext, hle⟩
  | cons l ls ih =>
      intro pre t hpre ht
      have hlen := length_above hpre
      have hta := h.addr _ t (by simp; omega) ht
      -- the path to the page's table goes through this entry
      have hpres : (slotEntry s.mem t (ptlIndex l.shift v)).present = true := by
        by_contra hnot
        refine hthere ?_
        have hpath : path v = slots pre v ++ ptlIndex l.shift v :: slots ls v := by
          rw [← slots_upperLevels, ← hpre, slots_append]
          rfl
        rw [tableOf] at ht
        rw [hpath, tableOf, Radix.tableAt_append, ht, Option.bind_some, Radix.tableAt_cons,
          entryTable_of_not_present (by simpa using hnot)]
        rfl
      have hens : ensureEntry (populateEntry l.fields) env ⟨t, ptlIndex l.shift v⟩ s = .ok (0, s) :=
        ensureEntry_of_present ha hta hpres
      obtain ⟨s', hrun, hle⟩ := ih (pre ++ [l]) _ (by simpa using hpre)
        (tableOf_slots_concat ht hpres)
      exact ⟨s', by rw [mapPageFrom_cons ha hta ls hens, hrun], hle⟩

/-- Afterwards the tables of the page are there. -/
theorem mapPageFrom_leavesTable (hsup : Supplies env.pacc free hist) (ha : Answers env.mapped)
    {v : Uintptr} {s s' : Machine σ} (h : Ready free root s)
    (hrun : mapPageFrom env v upperLevels root s = .ok (0, s')) :
    tableOf s'.mem root (path v) ≠ none := by
  rcases mapPageFrom_edits hsup ha v upperLevels [] root s 0 s' rfl h rfl hrun with
    ⟨-, hedits⟩ | ⟨hr, -⟩
  · obtain ⟨i, hleaf⟩ := hedits.leafOf_mem h.wf ⟨v, List.mem_singleton_self v, rfl⟩
    intro hnone
    rw [leafOf, hnone] at hleaf
    cases hleaf
  · exact absurd rfl hr

end Walk

/-! ### Pages in turn -/

/-- The tables that mapping the pages takes at most, after a page with the path `p`: three
for every page that does not have the tables of the page before it. -/
def tablesFor : Option (List (Fin 512)) → List Uintptr → Nat
  | _, [] => 0
  | p, v :: vs => (if p = some (path v) then 0 else 3) + tablesFor (some (path v)) vs

theorem tablesFor_le (vs : List Uintptr) : ∀ p, tablesFor p vs ≤ 3 * vs.length := by
  induction vs with
  | nil => exact fun _ => Nat.zero_le _
  | cons v vs ih =>
      intro p
      have := ih (some (path v))
      rw [tablesFor, List.length_cons]
      split <;> omega

/-- Pages in one block of 2 MB have one path. -/
theorem path_eq_of_block {v w : Uintptr} (h : v.toNat / 2 ^ 21 = w.toNat / 2 ^ 21) :
    path v = path w := by
  simp only [path, List.cons.injEq, and_true, Fin.ext_iff, ptlIndex_val]
  omega

/-- Of pages in a row, the one behind `v` has tables of its own when it begins a block. -/
theorem tablesFor_row (n : Nat) : ∀ v : Uintptr, v.toNat + 4096 * (n + 1) ≤ 2 ^ 64 →
    tablesFor (some (path v)) (pagesFrom (v + PAGE_SIZE) n)
      ≤ 3 * ((v.toNat / 4096 % 512 + n) / 512) := by
  induction n with
  | zero => intro v _; exact Nat.zero_le _
  | succ n ih =>
      intro v hv
      have hnext : (v + PAGE_SIZE).toNat = v.toNat + 4096 := by
        rw [BitVec.toNat_add, show PAGE_SIZE.toNat = 4096 from rfl]
        omega
      have hend : (v + PAGE_SIZE).toNat + 4096 * (n + 1) = v.toNat + 4096 * (n + 1 + 1) := by
        rw [hnext]
        omega
      have hrest := ih (v + PAGE_SIZE) (Nat.le_trans (Nat.le_of_eq hend) hv)
      rw [hnext] at hrest
      rw [pagesFrom, tablesFor]
      by_cases hlast : v.toNat / 4096 % 512 = 511
      · -- the next page begins a block
        have htables : (if some (path v) = some (path (v + PAGE_SIZE)) then 0 else 3) ≤ 3 := by
          split <;> omega
        omega
      · -- the next page is in the block of `v`
        rw [if_pos (congrArg some (path_eq_of_block (by rw [hnext]; omega)))]
        omega

/-- So they take three tables for every block. -/
theorem tablesFor_pagesFrom_le {v : Uintptr} {n : Nat} (hv : v.toNat + 4096 * n ≤ 2 ^ 64) :
    tablesFor none (pagesFrom v n) ≤ 3 * (n / 512 + 2) := by
  cases n with
  | zero => exact Nat.zero_le _
  | succ n =>
      have hrow := tablesFor_row n v (by omega)
      rw [pagesFrom, tablesFor, if_neg (by simp)]
      omega

section Walks

variable {env : WalkEnv σ} {free : σ → PageIdx → Prop} {hist : σ → List PageIdx → Prop}
  {root : Uintptr}

/-- A list of pages, after one with the path `p`. -/
theorem mapPagesFrom_stocked (hsup : Supplies env.pacc free hist)
    (hp : Provides env.pacc env.flags price stock) (ha : Answers env.mapped) :
    ∀ (vs : List Uintptr) (p : Option (List (Fin 512))) (s : Machine σ), Ready free root s →
      (∀ q, p = some q → tableOf s.mem root q ≠ none) →
      tablesFor p vs + price * vs.length ≤ stock s.ctx →
      Spends stock (tablesFor p vs + price * vs.length) s
        (mapPagesFrom env upperLevels root vs s) := by
  intro vs
  induction vs with
  | nil => intro p s _ _ _; exact ⟨s, rfl, Nat.le_add_right _ _⟩
  | cons v vs ih =>
      intro p s h hthere hs
      rw [tablesFor, List.length_cons, Nat.mul_succ] at hs ⊢
      have hlevels : upperLevels.length = 3 := rfl
      -- the tables of the page before are there, so those on the same path cost nothing
      have hpage : Spends stock ((if p = some (path v) then 0 else 3) + price) s
          (mapPageFrom env v upperLevels root s) := by
        split
        · case isTrue heq =>
            rw [if_pos heq] at hs
            rw [Nat.zero_add]
            exact mapPageFrom_there hp ha v h.wf (hthere _ heq) (by omega) upperLevels [] root rfl
              rfl
        · case isFalse hne =>
            rw [if_neg hne] at hs
            rw [← hlevels]
            exact mapPageFrom_stocked hsup hp ha v upperLevels [] root s rfl h rfl (by omega)
      obtain ⟨s1, hrun1, hle⟩ := hpage
      have h1 := mapPageFrom_spec hsup ha v upperLevels [] root s 0 s1 rfl h rfl hrun1
      obtain ⟨s', hrun, hle'⟩ := ih (some (path v)) s1 h1.ready
        (fun q hq => Option.some.inj hq ▸ mapPageFrom_leavesTable hsup ha h hrun1) (by omega)
      exact ⟨s', by rw [mapPagesFrom_cons vs hrun1, hrun], by omega⟩

end Walks

/-- A call with frames for all the pages that it visits. -/
theorem mmMapPages_stocked {mapped : EntryPtr → Bool} {pacc : PageFrameAccessor σ}
    {free : σ → PageIdx → Prop} {hist : σ → List PageIdx → Prop} {root virt n : Uintptr} {k : Nat}
    {s : Machine σ} (hsup : Supplies pacc free hist) (hp : Provides pacc flags price stock)
    (ha : Answers mapped) (h : Ready free root s) (hvirt : virt.toNat % 4096 = 0)
    (hrefused : ¬ Refused ⟨root⟩ virt n) (hover : ¬ Overruns virt (virt + n * PAGE_SIZE))
    (hk : visited virt (virt + n * PAGE_SIZE) = k)
    (hs : tablesFor none (pagesFrom virt k) + price * k ≤ stock s.ctx) :
    Spends stock (tablesFor none (pagesFrom virt k) + price * k) s
      (mmMapPages mapped (some ⟨root⟩) (some pacc) virt n flags s) := by
  subst hk
  have hpage := and_pageMask_of_aligned hvirt
  have hlen := length_pagesFrom virt (visited virt (virt + n * PAGE_SIZE))
  rw [mmMapPages_eq hsup ha h hrefused (by rwa [hpage]), hpage]
  have hrun := @mapPagesFrom_stocked _ stock price ⟨mapped, pacc, flags⟩ _ _ _ hsup hp ha
    (pagesFrom virt (visited virt (virt + n * PAGE_SIZE))) none s h (fun q hq => by cases hq)
    (by rwa [hlen])
  rwa [hlen] at hrun

end MString
