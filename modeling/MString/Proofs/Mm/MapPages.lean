import MString.Proofs.Mm.Ranges

/-!
# `MString.Proofs.Mm.MapPages`: `mm_map_pages` as a whole

`mm_map_pages` hands one range to `map_pml4_range`, the part up to the next 512 GB
boundary: its loop over the root entries ends in a `break`. What becomes of that
range depends on the last gigabyte of the address space, where a block boundary is
`2 ^ 64` and wraps to zero.

* `mapAccepted_eq`: outside of it, the pages are mapped one by one.
* `rangeTurn_boundary`: a turn whose boundary lies before the end goes on from the
  boundary, whatever the boundary has wrapped to.
* `Overrun` is the state of the loop once it runs towards that wrap and past it;
  `Overrun.next` is its step.

`Overruns` says which calls do so: those into the last 512 GB whose range reaches
beyond `2 ^ 64 - 2 ^ 30`.
-/

set_option autoImplicit false

namespace MString

variable {σ : Type}

/-! ### What one call hands down -/

/-- The `to_addr` of `mm_map_pages`. -/
def l4ToAddr (v e : Uintptr) : Uintptr :=
  if v < MAX_VIRT_ADDRESS - L4_ENTRY_RANGE ∧ e > ((v + L4_ENTRY_RANGE) &&& L4_ADDR_MASK) then
    (v + L4_ENTRY_RANGE) &&& L4_ADDR_MASK
  else e

/-- The range runs into the last gigabyte from inside the last 512 GB. -/
def Overruns (v e : Uintptr) : Prop :=
  2 ^ 64 - 2 ^ 39 ≤ v.toNat ∧ (2 ^ 64 - 2 ^ 30 ≤ v.toNat ∨ 2 ^ 64 - 2 ^ 30 < e.toNat)

instance (v e : Uintptr) : Decidable (Overruns v e) := inferInstanceAs (Decidable (_ ∧ _))

/-- The number of pages that one call visits. -/
def visited (v e : Uintptr) : Nat :=
  if e = v then 1 else ((l4ToAddr v e).toNat - v.toNat + 4095) / 4096

/-- Rounding leaves the start of a page. -/
theorem and_pageMask_of_aligned {v : Uintptr} (hv : v.toNat % 4096 = 0) :
    v &&& PAGE_ADDR_MASK = v := by
  apply BitVec.eq_of_toNat_eq
  rw [toNat_and_pageMask]
  omega

/-- The clipping of `mm_map_pages`, as a number. -/
theorem toNat_l4ToAddr {v e : Uintptr} (hv : v.toNat % 4096 = 0) :
    (l4ToAddr v e).toNat
      = if v.toNat < 2 ^ 64 - 2 ^ 39 then min e.toNat ((v.toNat / 2 ^ 39 + 1) * 2 ^ 39)
        else e.toNat := by
  have hmax : (MAX_VIRT_ADDRESS - L4_ENTRY_RANGE).toNat = 2 ^ 64 - 2 ^ 39 - 1 := by decide
  have hrange : L4_ENTRY_RANGE.toNat = 2 ^ 39 := by decide
  have hlow : v < MAX_VIRT_ADDRESS - L4_ENTRY_RANGE ↔ v.toNat < 2 ^ 64 - 2 ^ 39 := by
    rw [BitVec.lt_def, hmax]
    omega
  unfold l4ToAddr
  by_cases h : v.toNat < 2 ^ 64 - 2 ^ 39
  · have hbound : ((v + L4_ENTRY_RANGE) &&& L4_ADDR_MASK).toNat
        = (v.toNat / 2 ^ 39 + 1) * 2 ^ 39 := by
      rw [toNat_and_L4mask, BitVec.toNat_add, hrange]
      omega
    rw [if_pos h]
    split
    · case isTrue hc =>
        have hgt := BitVec.lt_def.mp hc.2
        rw [hbound] at hgt ⊢
        omega
    · case isFalse hc =>
        have hle : ¬ (e > (v + L4_ENTRY_RANGE) &&& L4_ADDR_MASK) := fun hgt => hc ⟨hlow.mpr h, hgt⟩
        rw [gt_iff_lt, BitVec.lt_def, hbound] at hle
        omega
  · rw [if_neg h, if_neg fun hc => h (hlow.mp hc.1)]

/-- Away from the last gigabyte, the range handed down is one the walkers take
page by page. -/
theorem spans_l4ToAddr {v e : Uintptr} (hv : v.toNat % 4096 = 0) (hle : v.toNat ≤ e.toNat)
    (hover : ¬ Overruns v e) :
    Spans 39 v (l4ToAddr v e) (visited v e) := by
  have hto := toNat_l4ToAddr (e := e) hv
  have hlt := e.isLt
  unfold Overruns at hover
  unfold visited
  by_cases hev : e = v
  · subst hev
    rw [if_pos rfl]
    refine .single rfl (.inr ⟨?_, by omega⟩)
    apply BitVec.eq_of_toNat_eq
    rw [hto]
    split <;> omega
  · have hne : v.toNat ≠ e.toNat := fun h => hev (BitVec.eq_of_toNat_eq h.symm)
    rw [if_neg hev]
    split at hto
    · exact .whole hv (by omega) (by omega) (by omega) (by omega) (by omega)
    · exact .whole hv (by omega) (by omega) (by omega) (by omega) (by omega)

/-- The body of `mm_map_pages` starts at the beginning of a page. -/
theorem mapAccepted_page (env : WalkEnv σ) (pd : PageDirectory) (v e : Uintptr)
    (s : Machine σ) : mapAccepted env pd (v &&& PAGE_ADDR_MASK) e s = mapAccepted env pd v e s := by
  simp only [mapAccepted, BitVec.and_assoc, BitVec.and_self]

/-- The body of `mm_map_pages` on a page-aligned address. -/
theorem mapAccepted_aligned {env : WalkEnv σ} {root v e : Uintptr} {s : Machine σ}
    (hv : v.toNat % 4096 = 0) :
    mapAccepted env ⟨root⟩ v e s = (do
      let (r, s) ← ensureEntry (populateEntry pml4Upper.fields) env ⟨root, ptlIndex 39 v⟩ s
      if r ≠ 0 then return (-ENOMEM, s)
      let (r, s) ← mapPml4Range env ⟨root, ptlIndex 39 v⟩ v (l4ToAddr v e) s
      if r ≠ 0 then return (-ENOMEM, s)
      return (0, s)) := by
  have htoe : v + (e - v) = e := by rw [BitVec.add_comm, BitVec.sub_add_cancel]
  simp only [mapAccepted, and_pageMask_of_aligned hv, htoe]
  rfl

section Whole

variable {env : WalkEnv σ} {free : σ → PageIdx → Prop} {hist : σ → List PageIdx → Prop}
  {root : Uintptr} {s : Machine σ}

/-- The body of `mm_map_pages` maps the pages it visits one by one. -/
theorem mapAccepted_eq (hsup : Supplies env.pacc free hist) (ha : Answers env.mapped)
    (h : Ready free root s) {v e : Uintptr} (hv : v.toNat % 4096 = 0) (hle : v.toNat ≤ e.toNat)
    (hover : ¬ Overruns v e) :
    mapAccepted env ⟨root⟩ v e s
      = mapPagesFrom env upperLevels root (pagesFrom v (visited v e)) s := by
  have hspan := spans_l4ToAddr hv hle hover
  obtain ⟨k, hk⟩ : ∃ k, visited v e = k + 1 := ⟨visited v e - 1, by have := hspan.pos; omega⟩
  rw [hk] at hspan ⊢
  have hta := h.wf.tableAddr_root
  rw [mapAccepted_aligned hv, show (39 : Nat) = pml4Upper.shift from rfl]
  cases hens : ensureEntry (populateEntry pml4Upper.fields) env
      ⟨root, ptlIndex pml4Upper.shift v⟩ s with
  | error f =>
      -- Both sides start by making sure of the root entry, so a fault there is the fault of
      -- both.
      simp only [pagesFrom, upperLevels, mapPagesFrom, mapPageFrom, hens, Loop.error_bind]
  | ok x =>
      obtain ⟨r1, s1⟩ := x
      obtain ⟨h1, hg, -, -, hres⟩ := ensureEntry_spec hsup ha
        (refers_of_mem (l := pml4Upper) (by simp [upperLevels])) h (q := []) (by simp) rfl hens
      rw [pagesFrom, upperLevels, mapPagesFrom_ensure ha hta hens hres, ← pagesFrom]
      rcases hres with ⟨rfl, hpres⟩ | rfl
      · -- With the root entry in place all pages go through it.
        have hsame : ∀ w ∈ pagesFrom v (k + 1), slots [] w = [] ∧
            ptlIndex pml4Upper.shift w = ptlIndex pml4Upper.shift v :=
          fun w hw => ⟨rfl, ptlIndex_eq (hspan.sameBlock hw)⟩
        rw [@mapPagesFrom_present _ _ _ _ _ hsup ha [] _ _ rfl [] _ _ _ s1 h1 rfl hsame (by simp)
          hpres]
        have hblock := @mapsBlock_mapPml4Range _ _ _ _ root hsup ha s1 v (l4ToAddr v e) (k + 1)
          root h1 rfl hpres hspan
        simp only [bind, Except.bind, ne_eq, not_true_eq_false, if_false, hblock]
        cases hrun : mapPagesFrom env [pdp3Upper, pde2Upper]
            (slotEntry s1.mem root (ptlIndex pml4Upper.shift v)).table (pagesFrom v (k + 1)) s1 with
        | error f => rfl
        | ok y =>
            obtain ⟨r2, s2⟩ := y
            obtain ⟨gs, hgs⟩ := @mapPagesFrom_spec _ _ _ _ _ hsup ha _ [pml4Upper] rfl
              [ptlIndex pml4Upper.shift v] _ _ s1 r2 s2 h1
              (by rw [tableOf_single, entryTable_of_present hpres])
              (fun w hw => by rw [slots, List.map_singleton, (hsame w hw).2]) hrun
            rcases hgs.result with ⟨rfl, -⟩ | ⟨rfl, -⟩
            · simp only [not_true_eq_false, if_false, pure, Except.pure]
            · simp only [neg_ENOMEM_ne_zero, not_false_eq_true, if_true, pure, Except.pure]
      · -- Without it both return `-ENOMEM` at once.
        simp only [bind, Except.bind, neg_ENOMEM_ne_zero, ne_eq, not_false_eq_true, if_true,
          pure, Except.pure]

end Whole

/-! ### Ranges that run into the last gigabyte -/

section Overrun

variable {env : WalkEnv σ} {l : RangeLevel σ} {block : BlockWalker σ}

/-- The next block boundary. It wraps to zero at the end of the address space. -/
def RangeLevel.boundary (l : RangeLevel σ) (v : Uintptr) : Uintptr := (v + l.range) &&& l.mask

/-- The next block boundary, modulo the size of the address space. -/
theorem RangeLevel.Blocks.toNat_boundary (hl : l.Blocks) (v : Uintptr) :
    (l.boundary v).toNat = (v.toNat / 2 ^ l.shift + 1) * 2 ^ l.shift % 2 ^ 64 := by
  have hlt := v.isLt
  rw [RangeLevel.boundary, hl.mask, BitVec.toNat_add, hl.range]
  rcases hl.shift with h | h <;> rw [h] <;> omega

/-- A turn whose boundary lies before the end takes the rest of the block and goes
on from the boundary. -/
theorem rangeTurn_boundary {v e : Uintptr} (hlt : l.boundary v < e) (p : EntryPtr)
    (s : Machine σ) :
    rangeTurn l block env e ⟨v, e - v, p, s⟩ = (do
      let (r, s) ← ensureEntry l.populate env p s
      if r ≠ 0 then return .inr (-ENOMEM, s)
      let (r, s) ← block env p v (l.boundary v) s
      if r ≠ 0 then return .inr (-ENOMEM, s)
      return .inl ⟨l.boundary v, e - l.boundary v, p.next, s⟩) := by
  have htoe : v + (e - v) = e := by rw [BitVec.add_comm, BitVec.sub_add_cancel]
  have hto : l.toAddr v (e - v) = l.boundary v := by
    rw [RangeLevel.toAddr, htoe]
    exact if_pos hlt
  have hlen : e - v - (l.boundary v - v) = e - l.boundary v := by
    apply BitVec.eq_of_toNat_eq
    rw [BitVec.toNat_sub, BitVec.toNat_sub, BitVec.toNat_sub, BitVec.toNat_sub]
    omega
  simp only [rangeTurn, hto, hlen, hlt, if_true]

/-- The states of a loop of `map_pml4_range` that runs over the end of the address
space, in the table at `t` and towards `e`. -/
inductive Overrun (t e : Uintptr) : Uintptr → EntryPtr → Prop
  /-- Still in the table, in the last 512 GB. -/
  | inside {v : Uintptr} (top : 2 ^ 64 - 2 ^ 39 ≤ v.toNat)
      (reach : 2 ^ 64 - 2 ^ 30 ≤ v.toNat ∨ 2 ^ 64 - 2 ^ 30 < e.toNat) :
      Overrun t e v ⟨t, ptlIndex 30 v⟩
  /-- Past the table's end, with the addresses restarted from zero. -/
  | beyond {v : Uintptr} {j : Nat} (hj : j < 2 ^ 28) (hv : v.toNat = 2 ^ 30 * j) :
      Overrun t e v ⟨t, 512 + j⟩

/-- Such a loop does not end of its own: as long as its pointer is good, the next
boundary lies before `e`. -/
theorem Overrun.next {t e v : Uintptr} {p : EntryPtr} (h : Overrun t e v p)
    (he : 2 ^ 64 - 2 ^ 30 ≤ e.toNat)
    (hp : p.index < 512 ∨ TableAddr t ∧ kernelWindow p = true) :
    (pdp3Level : RangeLevel σ).boundary v < e ∧
      Overrun t e ((pdp3Level : RangeLevel σ).boundary v) p.next := by
  have hb := (blocks_pdp3Level (σ := σ)).toNat_boundary v
  rw [show (pdp3Level : RangeLevel σ).shift = 30 from rfl] at hb
  have hlt := v.isLt
  rw [BitVec.lt_def]
  cases h with
  | inside top reach =>
      have hidx := ptlIndex_val 30 v
      by_cases hv : 2 ^ 64 - 2 ^ 30 ≤ v.toNat
      · have hb0 : ((pdp3Level : RangeLevel σ).boundary v).toNat = 2 ^ 30 * 0 := by omega
        refine ⟨by omega, ?_⟩
        have hnext : (ptlIndex 30 v).val + 1 = 512 + 0 := by omega
        rw [EntryPtr.next, hnext]
        exact .beyond (by omega) hb0
      · have hidx' := ptlIndex_val 30 ((pdp3Level : RangeLevel σ).boundary v)
        refine ⟨by omega, ?_⟩
        have hnext : (ptlIndex 30 v).val + 1
            = (ptlIndex 30 ((pdp3Level : RangeLevel σ).boundary v)).val := by omega
        rw [EntryPtr.next, hnext]
        exact .inside (by omega) (by omega)
  | @beyond j hj hv =>
      -- The pointer is in the window, so it has not come full circle yet.
      obtain ⟨ht, hwin⟩ : TableAddr t ∧ kernelWindow ⟨t, 512 + j⟩ = true := by
        rcases hp with hp | hp
        · exact absurd hp (by show ¬ 512 + j < 512; omega)
        · exact hp
      have hj' : j + 1 < 2 ^ 28 := by
        have hw := ht.window
        have hkb : KERNEL_BASE.toNat = 0xffffffff80000000 := by decide
        have htlt := t.isLt
        rw [kernelWindow, decide_eq_true_eq, BitVec.le_def, EntryPtr.addr, BitVec.toNat_add,
          BitVec.toNat_ofNat, hkb] at hwin
        rw [hkb] at hw
        dsimp only at hwin
        omega
      refine ⟨by omega, ?_⟩
      exact .beyond (j := j + 1) hj' (by omega)

/-- A loop that overruns never answers success: it stops at an entry it may not
touch, or with the allocator's refusal. -/
theorem run_overruns {t e : Uintptr} (he : 2 ^ 64 - 2 ^ 30 ≤ e.toNat)
    (hmapped : ∀ p, env.mapped p = true → p.index < 512 ∨ TableAddr t ∧ kernelWindow p = true)
    {n : Nat} {v : Uintptr} {s : Machine σ} {x : Status × Machine σ}
    (h : Overrun t e v ⟨t, ptlIndex 30 v⟩)
    (hrun : Loop.run .diverges (rangeTurn pdp3Level block env e) n
      ⟨v, e - v, ⟨t, ptlIndex 30 v⟩, s⟩ = .ok x) :
    x.1 = -ENOMEM := by
  refine Loop.run_invariant
    (fun st : RangeState σ => st.length = e - st.virtAddr ∧ Overrun t e st.virtAddr st.entry)
    (fun x => x.1 = -ENOMEM) ?_ n _ x ⟨rfl, h⟩ hrun
  rintro ⟨v, len, p, s⟩ r ⟨hlen, hov⟩ hturn
  dsimp only at hlen hov
  subst hlen
  have hp : env.mapped p = true := by
    cases hm : env.mapped p with
    | true => rfl
    | false => simp [rangeTurn, ensureEntry, readEntry, hm, bind, Except.bind] at hturn
  obtain ⟨hlt, hnext⟩ := hov.next (σ := σ) he (hmapped p hp)
  rw [rangeTurn_boundary hlt] at hturn
  simp only [bind, Except.bind] at hturn
  -- Every way out of the turn is the refusal; otherwise the loop goes on.
  cases hens : ensureEntry pdp3Level.populate env p s with
  | error f => simp [hens] at hturn
  | ok y =>
      obtain ⟨r1, s1⟩ := y
      simp only [hens] at hturn
      by_cases hr1 : r1 = 0
      · simp only [hr1, ne_eq, not_true_eq_false, if_false] at hturn
        cases hblk : block env p v ((pdp3Level : RangeLevel σ).boundary v) s1 with
        | error f => simp [hblk] at hturn
        | ok z =>
            obtain ⟨r2, s2⟩ := z
            simp only [hblk] at hturn
            by_cases hr2 : r2 = 0
            · simp only [hr2, not_true_eq_false, if_false, pure, Except.pure] at hturn
              cases hturn
              exact ⟨rfl, hnext⟩
            · simp only [hr2, not_false_eq_true, if_true, pure, Except.pure] at hturn
              cases hturn
              rfl
      · simp only [hr1, ne_eq, not_false_eq_true, if_true, pure, Except.pure] at hturn
        cases hturn
        rfl

/-- The walker of the last 512 GB on a range that overruns. -/
theorem mapPml4Range_overruns {v e : Uintptr} {p : EntryPtr} {x : TlbEntry} {s : Machine σ}
    {y : Status × Machine σ} (hle : v.toNat ≤ e.toNat) (hover : Overruns v e)
    (hread : readEntry env.mapped s.mem p = .ok x)
    (hmapped : ∀ p, env.mapped p = true →
      p.index < 512 ∨ TableAddr x.table ∧ kernelWindow p = true)
    (hrun : mapPml4Range env p v e s = .ok y) : y.1 = -ENOMEM := by
  have he : 2 ^ 64 - 2 ^ 30 ≤ e.toNat := by
    have := hover.2
    omega
  rw [mapPml4Range, mapTableRange, hread] at hrun
  exact run_overruns he hmapped (.inside hover.1 hover.2) hrun

/-- A range that overruns is not clipped. -/
theorem l4ToAddr_of_overruns {v e : Uintptr} (hv : v.toNat % 4096 = 0) (h : Overruns v e) :
    l4ToAddr v e = e := by
  apply BitVec.eq_of_toNat_eq
  rw [toNat_l4ToAddr hv, if_neg]
  have := h.1
  omega

end Overrun

end MString
