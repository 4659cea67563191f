import MString.Proofs.Mm.Directories
import MString.Proofs.Mm.TopRange

/-!
# `MString.Proofs.Mm.Runaway`: a walk over the end of the address space

In the directory `fullTop` every call that overruns maps pages it was not asked for. All
page tables of the last 512 GB are there, so the walkers need no page until
`map_pml4_range` steps over the end of its table (frame 4). Behind it stands the table of
the first 512 GB (frame 5), and there the walk goes on with address zero: it maps the
512 pages of its first page table (frame 3) and fails at the next one.

* `mapPdp3Range_chunk`: a turn maps its pages as `mapPagesFrom` does from the root.
* `Intact.maps_top`: the pages up to the top are mapped, so the walk goes on behind them.
* `rangeTurn_beyond`: the turn beyond it.
* `mmMapPages_fullTop`: the call maps the pages up to `topPages`, those of the first 2 MB,
  and answers `-ENOMEM`.
-/

set_option autoImplicit false

namespace MString

/-! ### A turn, seen from the root -/

section Chunk

variable {σ : Type} {env : WalkEnv σ} {free : σ → PageIdx → Prop} {hist : σ → List PageIdx → Prop}
  {root : Uintptr} {s : Machine σ}

/-- `map_pdp3_range`, in a gigabyte that has its table. -/
theorem mapPdp3Range_chunk (hsup : Supplies env.pacc free hist) (ha : Answers env.mapped)
    (h : Ready free root s) {v stop t u : Uintptr} {k : Nat}
    (ht : tableOf s.mem root [ptlIndex 39 v] = some t)
    (hu : tableOf s.mem root [ptlIndex 39 v, ptlIndex 30 v] = some u) (hspan : Spans 30 v stop k) :
    mapPdp3Range env ⟨t, ptlIndex 30 v⟩ v stop s
      = mapPagesFrom env upperLevels root (pagesFrom v k) s := by
  have hentry : ∀ (p : List (Fin 512)) (i : Fin 512) (a b : Uintptr),
      tableOf s.mem root p = some a → tableOf s.mem root (p ++ [i]) = some b →
      (slotEntry s.mem a i).present = true ∧ (slotEntry s.mem a i).table = b := by
    intro p i a b hp hb
    rw [tableOf_concat, hp, Option.bind_some] at hb
    exact entryTable_eq_some.mp hb
  obtain ⟨hpres39, htab39⟩ := hentry [] _ _ t rfl ht
  obtain ⟨hpres30, -⟩ := hentry [ptlIndex 39 v] _ t u ht hu
  -- all pages go through the root entry, and then through that of their gigabyte
  have hsame : ∀ w ∈ pagesFrom v k, slots [] w = [] ∧
      ptlIndex pml4Upper.shift w = ptlIndex pml4Upper.shift v := fun w hw =>
    ⟨rfl, List.head_eq_of_cons_eq (@slots_eq [pml4Upper] 30 _ _ (by simp [pml4Upper])
      (hspan.sameBlock hw))⟩
  rw [show upperLevels = pml4Upper :: [pdp3Upper, pde2Upper] from rfl,
    @mapPagesFrom_present _ env free hist root hsup ha [] _ _ rfl [] root _ _ s h rfl hsame
      (by simp) hpres39]
  have hmaps : MapsBlock env free root mapPdp3Range [pml4Upper] pdp3Upper [pde2Upper] :=
    mapsBlock_mapPdp3Range hsup ha
  rw [show (slotEntry s.mem root (ptlIndex pml4Upper.shift v)).table = t from htab39]
  exact hmaps.chunk hsup ha rfl (by simp [pml4Upper, pdp3Upper]) h ht rfl (by simp) hpres30 hspan

end Chunk

/-! ### The directory -/

/-- The references of the directory, by the frame and the slot: frame 1 is the root,
frames 5, 2 and 3 serve address zero, and frame 4 the last 512 GB. -/
def fullTopChild (frame slot : Nat) : Option Nat :=
  if frame = 1 ∧ slot = 0 then some 5
  else if frame = 1 ∧ slot = 511 then some 4
  else if frame = 5 ∧ slot = 0 then some 2
  else if frame = 2 ∧ slot = 0 then some 3
  else if frame = 4 ∧ slot < 512 then some (1024 + slot)
  else if 1024 ≤ frame ∧ frame < 1536 ∧ slot < 512 then
    some (2 ^ 18 + 512 * (frame - 1024) + slot)
  else none

/-- The tables of `fullTop` lie where a directory of `fullTopChild` has them. -/
theorem references_fullTop : References fullTopChild where
  low f i c h := by
    unfold fullTopChild at h
    split_ifs at h <;> simp only [Option.some.injEq] at h <;> omega
  ne_root f i h := by
    unfold fullTopChild at h
    split_ifs at h <;> simp only [Option.some.injEq] at h <;> omega
  inj f f' i i' c h h' := by
    unfold fullTopChild at h h'
    split_ifs at h <;> simp only [Option.some.injEq] at h <;>
      split_ifs at h' <;> simp only [Option.some.injEq] at h' <;> omega

/-- The memory of the directory. -/
abbrev fullTop : Mem := directory fullTopChild

/-- The table for the last 512 GB, ... -/
def TOP_TABLE : Uintptr := frameTable 4

/-- ... and the one for the first, which stands behind it in memory. -/
def LOW_TABLE : Uintptr := frameTable 5

/-- The way down in the last 512 GB. -/
theorem descend_top (i j : Fin 512) :
    descend fullTopChild 1 [511, i] = some (1024 + i.val) ∧
    descend fullTopChild 1 [511, i, j] = some (2 ^ 18 + 512 * i.val + j.val) ∧
    ∀ l, descend fullTopChild 1 [511, i, j, l] = none := by
  have hi := i.isLt
  have hj := j.isLt
  have h1 : fullTopChild 1 (511 : Fin 512).val = some 4 := rfl
  have h4 : fullTopChild 4 i.val = some (1024 + i.val) := by simp [fullTopChild, hi]
  have h30 : fullTopChild (1024 + i.val) j.val = some (2 ^ 18 + 512 * i.val + j.val) := by
    rw [fullTopChild, if_neg (by omega), if_neg (by omega), if_neg (by omega),
      if_neg (by omega), if_neg (by omega), if_pos (by omega), Nat.add_sub_cancel_left]
  have h21 : ∀ l : Fin 512, fullTopChild (2 ^ 18 + 512 * i.val + j.val) l.val = none := by
    intro l
    rw [fullTopChild, if_neg (by omega), if_neg (by omega), if_neg (by omega),
      if_neg (by omega), if_neg (by omega), if_neg (by omega)]
  simp only [descend, h1, h4, h30, h21, Option.bind_some, Option.bind_none, implies_true, and_self]

/-- The way down to the first 2 MB, and to the next ones. -/
theorem descend_low_pages (j : Fin 512) :
    descend fullTopChild 1 [0, 0] = some 2 ∧
    descend fullTopChild 1 [0, 0, j] = (if j = 0 then some 3 else none) ∧
    ∀ l, descend fullTopChild 1 [0, 0, 0, l] = none := by
  have h2 : fullTopChild 2 j.val = if j = 0 then some 3 else none := by
    rw [fullTopChild, if_neg (by omega), if_neg (by omega), if_neg (by omega)]
    by_cases hj : j = 0
    · rw [hj]
      rfl
    · have : j.val ≠ 0 := fun h => hj (Fin.ext h)
      rw [if_neg hj, if_neg (by omega), if_neg (by omega), if_neg (by omega)]
  have h3 : ∀ l : Fin 512, fullTopChild 3 l.val = none := by
    intro l
    rw [fullTopChild, if_neg (by omega), if_neg (by omega), if_neg (by omega),
      if_neg (by omega), if_neg (by omega), if_neg (by omega)]
  have h00 : descend fullTopChild 1 [0, 0] = some 2 := rfl
  refine ⟨rfl, ?_, fun l => ?_⟩
  · rw [show ([0, 0, j] : List (Fin 512)) = [0, 0] ++ [j] from rfl, descend_concat, h00,
      Option.bind_some, h2]
  · rw [show ([0, 0, 0, l] : List (Fin 512)) = [0, 0, 0] ++ [l] from rfl, descend_concat,
      show descend fullTopChild 1 [0, 0, 0] = some 3 from rfl, Option.bind_some, h3]

/-- Nothing is mapped in the last 512 GB, ... -/
theorem translate_fullTop_top {v : Uintptr} (h : 2 ^ 64 - 2 ^ 39 ≤ v.toNat) :
    translate fullTop DIRECTORY_ROOT v = INVALID_PAGE_IDX := by
  apply translate_directory references_fullTop
  rw [path, ptlIndex_top h]
  exact (descend_top _ _).2.2 _

/-- ... and nothing at address zero. -/
theorem translate_fullTop_zero : translate fullTop DIRECTORY_ROOT 0 = INVALID_PAGE_IDX :=
  translate_directory references_fullTop (by decide +kernel)

/-! ### The walk -/

/-- The directory as the walk leaves it behind: the tables are the same. -/
structure Intact (m : Mem) : Prop where
  wf : WellFormed m DIRECTORY_ROOT
  tables : ∀ p, p.length < 4 →
    tableOf m DIRECTORY_ROOT p = (descend fullTopChild 1 p).map frameTable

/-- The tables above the pages are all there. -/
theorem intact_fullTop : Intact fullTop :=
  ⟨wellFormed_directory references_fullTop, fun p _ => tableOf_directory references_fullTop p⟩

/-- Behind the last root entry stands the table of the top. -/
theorem Intact.top {m : Mem} (h : Intact m) : tableOf m DIRECTORY_ROOT [511] = some TOP_TABLE :=
  h.tables [511] (by simp)

/-- Behind the first one that of the bottom. -/
theorem Intact.low {m : Mem} (h : Intact m) : tableOf m DIRECTORY_ROOT [0] = some LOW_TABLE :=
  h.tables [0] (by simp)

/-- The tables of the first 2 MB. -/
theorem Intact.low_pages {m : Mem} (h : Intact m) (j : Fin 512) :
    tableOf m DIRECTORY_ROOT [0, 0] = some (frameTable 2) ∧
      (tableOf m DIRECTORY_ROOT [0, 0, j] ≠ none ↔ j = 0) := by
  obtain ⟨h2, h3, -⟩ := descend_low_pages j
  rw [h.tables _ (by simp), h.tables _ (by simp), h2, h3]
  refine ⟨rfl, ?_⟩
  split <;> simp [*]

section Walk

variable {flags : PageFlags} {e : Uintptr}

/-- Pages that have their tables. -/
theorem Intact.maps {s : Machine Nat} (hs : Intact s.mem) {vs : List Uintptr}
    (htab : ∀ v ∈ vs, tableOf s.mem DIRECTORY_ROOT (path v) ≠ none) :
    ∃ s', mapPagesFrom (dryEnv flags) upperLevels DIRECTORY_ROOT vs s = .ok (0, s') ∧
      Intact s'.mem := by
  have ha : Answers (dryEnv flags).mapped := answers_kernelWindow
  obtain ⟨s', hrun, hwf, htab'⟩ := mapPagesFrom_tables ha (fun c => ⟨_, rfl⟩) vs s hs.wf htab
  exact ⟨s', hrun, hwf, fun p hp => by rw [htab' p hp, hs.tables p hp]⟩

/-- The pages up to the top have their tables, so they are mapped. -/
theorem Intact.maps_top {s : Machine Nat} (hs : Intact s.mem) {v : Uintptr}
    (hv : v.toNat % 4096 = 0) (htop : 2 ^ 64 - 2 ^ 39 ≤ v.toNat) :
    ∃ s', mapPagesFrom (dryEnv flags) upperLevels DIRECTORY_ROOT (pagesFrom v (topPages v)) s
        = .ok (0, s') ∧ Intact s'.mem :=
  hs.maps fun w hw => by
    rw [hs.tables _ (by simp [path]), path, ptlIndex_topPages hv htop hw, (descend_top _ _).2.1]
    simp

/-! ### Beyond the table -/

/-- Behind the table for the last 512 GB stands that for the first. -/
theorem readEntry_beyond (m : Mem) :
    readEntry kernelWindow m ⟨TOP_TABLE, 512⟩ = .ok (slotEntry m LOW_TABLE 0) := by
  have hwindow : kernelWindow ⟨TOP_TABLE, 512⟩ = true := by decide +kernel
  have haddr : (EntryPtr.mk TOP_TABLE 512).addr = (EntryPtr.mk LOW_TABLE 0).addr := by
    decide +kernel
  rw [readEntry, if_pos hwindow, haddr]
  rfl

/-- The first gigabyte: its 512 first pages, and one more that has no table. -/
theorem pagesFrom_low : ∃ ws, pagesFrom 0 (2 ^ 18) = pagesFrom 0 512 ++ 0x200000 :: ws := by
  have hsum : 2 ^ 18 = 512 + (261631 + 1) := rfl
  rw [hsum, pagesFrom_add]
  exact ⟨_, rfl⟩

/-- The lowest 512 pages share a page table. -/
theorem path_low {w : Uintptr} (hw : w ∈ pagesFrom 0 512) : path w = [0, 0, 0] := by
  obtain ⟨i, hi, rfl⟩ := mem_pagesFrom hw
  have hzero : (0 : Uintptr).toNat = 0 := rfl
  have hnum : ((0 : Uintptr) + BitVec.ofNat 64 (4096 * i)).toNat = 4096 * i := by
    rw [toNat_page (by omega)]
    omega
  rw [path, List.cons.injEq, List.cons.injEq, List.cons.injEq]
  refine ⟨?_, ?_, ?_, rfl⟩ <;>
  · apply Fin.ext
    rw [ptlIndex_val, hnum, show (0 : Fin 512).val = 0 from rfl]
    omega

/-- The turn beyond the table maps the first 2 MB and fails. -/
theorem rangeTurn_beyond {s : Machine Nat} (hs : Intact s.mem) (hlt : (2 ^ 30 : Nat) < e.toNat) :
    ∃ s', mapPagesFrom (dryEnv flags) upperLevels DIRECTORY_ROOT (pagesFrom 0 512) s
        = .ok (0, s') ∧
      rangeTurn pdp3Level mapPdp3Range (dryEnv flags) e ⟨0, e - 0, ⟨TOP_TABLE, 512⟩, s⟩
        = .ok (.inr (-ENOMEM, s')) := by
  have ha : Answers (dryEnv flags).mapped := answers_kernelWindow
  obtain ⟨s', hrun, hs'⟩ := @Intact.maps flags s hs (pagesFrom 0 512) fun w hw => by
    rw [path_low hw]
    exact (hs.low_pages 0).2.mpr rfl
  refine ⟨s', hrun, ?_⟩
  -- the walk goes on as if it had come from the root entry of address zero
  have hlow := hs.low
  have hentry := (hs.low_pages 0).1
  rw [show ([0, 0] : List (Fin 512)) = [0] ++ [0] from rfl, tableOf_concat, hlow,
    Option.bind_some, entryTable_eq_some] at hentry
  have hens : ensureEntry (pdp3Level : RangeLevel Nat).populate (dryEnv flags) ⟨TOP_TABLE, 512⟩ s
      = .ok (0, s) := by
    rw [ensureEntry, show (dryEnv flags).mapped = kernelWindow from rfl, readEntry_beyond,
      Loop.ok_bind, if_pos hentry.1]
    rfl
  have hwalk : mapPdp3Range (dryEnv flags) ⟨TOP_TABLE, 512⟩ 0 (2 ^ 30) s
      = mapPdp3Range (dryEnv flags) ⟨LOW_TABLE, ptlIndex 30 0⟩ 0 (2 ^ 30) s := by
    have hread := readEntry_slot ha s.mem (hs.wf.addr [0] _ (by simp) hlow) 0
    rw [mapPdp3Range, mapTableRange, mapTableRange,
      show (dryEnv flags).mapped = kernelWindow from rfl, readEntry_beyond,
      show ptlIndex 30 0 = 0 by decide +kernel]
    rw [show (dryEnv flags).mapped = kernelWindow from rfl] at hread
    rw [hread]
  have hspan : Spans 30 0 (2 ^ 30) (2 ^ 18) :=
    .whole (by decide +kernel) (by omega) (by decide +kernel) (by decide +kernel)
      (by decide +kernel) (by decide +kernel)
  have hblock := @mapPdp3Range_chunk _ (dryEnv flags) _ _ _ _ supplies_dryAccessor ha
    (ready_dry hs.wf) 0 _ _ _ _ hlow (hs.low_pages 0).1 hspan
  obtain ⟨ws, hpages⟩ := pagesFrom_low
  have hstop := mapPagesFrom_stops (refuses_dryEnv flags) ha hrun hs'.wf (x := 0x200000)
    (by
      by_contra hne
      exact absurd ((hs'.low_pages 1).2.mp hne) (by decide)) ws
  have hbound : ((pdp3Level : RangeLevel Nat).boundary 0) = 2 ^ 30 := by decide
  have hpow : (2 ^ 30 : Uintptr).toNat = 2 ^ 30 := by decide
  rw [rangeTurn_boundary (by rw [hbound, BitVec.lt_def, hpow]; exact hlt), hbound, hens,
    Loop.ok_bind]
  dsimp only
  rw [if_neg (by simp), hwalk, hblock, hpages, hstop, Loop.ok_bind]
  exact if_pos neg_ENOMEM_ne_zero

/-! ### The call -/

/-- The pages that are mapped in `fullTop` by a call for `v` that overruns. -/
def fullTopPages (v : Uintptr) : List Uintptr := pagesFrom v (topPages v) ++ pagesFrom 0 512

/-- A call that runs over visits the pages up to the top and 512 from the bottom. -/
theorem length_fullTopPages (v : Uintptr) : (fullTopPages v).length = topPages v + 512 := by
  simp [fullTopPages]

/-- These are different pages. -/
theorem nodup_fullTopPages {v : Uintptr} (hv : v.toNat % 4096 = 0)
    (htop : 2 ^ 64 - 2 ^ 39 ≤ v.toNat) : ((fullTopPages v).map pageOf).Nodup := by
  have hfit := topPages_fit hv
  rw [fullTopPages, List.map_append, List.nodup_append]
  refine ⟨nodup_topPages hv htop, nodup_pagesFrom (by decide) (by omega), ?_⟩
  intro a ha b hb
  obtain ⟨x, hx, rfl⟩ := List.mem_map.mp ha
  obtain ⟨y, hy, rfl⟩ := List.mem_map.mp hb
  obtain ⟨i, hi, rfl⟩ := mem_pagesFrom hx
  obtain ⟨j, hj, rfl⟩ := mem_pagesFrom hy
  have hzero : (0 : Uintptr).toNat = 0 := rfl
  rw [pageOf, pageOf, toNat_page (by omega), toNat_page (by omega)]
  omega

/-- A call that overruns, in `fullTop`: behind the pages up to the end of the address
space it maps the first 2 MB, and then it is out of memory. -/
theorem mmMapPages_fullTop {virt n : Uintptr} (hvirt : virt.toNat % 4096 = 0)
    (hrefused : ¬ Refused ⟨DIRECTORY_ROOT⟩ virt n)
    (hover : Overruns virt (virt + n * PAGE_SIZE)) :
    ∃ s', mapPagesFrom (dryEnv flags) upperLevels DIRECTORY_ROOT (fullTopPages virt) ⟨fullTop, 0⟩
        = .ok (0, s') ∧
      mmMapPages kernelWindow (some ⟨DIRECTORY_ROOT⟩) (some dryAccessor) virt n flags ⟨fullTop, 0⟩
        = .ok (-ENOMEM, s') := by
  have hle := le_end hrefused
  have hpage := and_pageMask_of_aligned hvirt
  have hreach := hover.2
  -- The pages up to the top are mapped, so the loop goes on behind the table ...
  obtain ⟨s1, hrun1, hs1⟩ := @Intact.maps_top flags ⟨fullTop, 0⟩ intact_fullTop virt hvirt hover.1
  obtain ⟨t, k, hk, htable, hcall⟩ := @mmMapPages_top _ _ _ DIRECTORY_ROOT dryAccessor kernelWindow
    virt n flags supplies_dryAccessor answers_kernelWindow ⟨fullTop, 0⟩
    (ready_dry intact_fullTop.wf) hrefused (by rw [hpage]; exact hover)
  rw [hpage] at htable hcall
  obtain rfl : TOP_TABLE = t := by
    have heq := htable s1 hrun1
    rw [hs1.top, Option.some.injEq] at heq
    exact heq
  -- ... where it maps the first 2 MB and fails.
  obtain ⟨s', hrun, hbeyond⟩ := @rangeTurn_beyond flags (virt + n * PAGE_SIZE) s1 hs1 (by omega)
  obtain ⟨k, rfl⟩ : ∃ k', k = k' + 1 := ⟨k - 1, by omega⟩
  refine ⟨s', ?_, ?_⟩
  · rw [fullTopPages, mapPagesFrom_append, hrun1, Loop.ok_bind]
    dsimp only
    rw [if_neg (by simp), hrun]
  · rw [hcall, show (⟨kernelWindow, dryAccessor, flags⟩ : WalkEnv Nat) = dryEnv flags from rfl,
      hrun1, Loop.ok_bind]
    dsimp only
    rw [if_neg (by simp), walkBeyond, Loop.run_exit hbeyond, Loop.ok_bind]
    exact if_pos neg_ENOMEM_ne_zero

end Walk

end MString
