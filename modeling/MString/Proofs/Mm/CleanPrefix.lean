import MString.Proofs.Mm.Outside

/-!
# `MString.Proofs.Mm.CleanPrefix`: what a call leaves behind when it is out of memory

`FailsCleanly` is what the caller of `mm_map_pages` expects of `-ENOMEM`: some first pages
of the range are mapped, to the frames that were drawn, and the others are as before.
`failsCleanly_iff` says for which ranges it is so, whatever the directory and the accessor.

* `failsCleanly_short`: the ranges that do not overrun, up to `2 ^ 36` pages.
* `failsCleanly_block`: a call that visits one block of 2 MB only. When it fails, it fails at
  its first page.
* `not_failsCleanly_overruns`: a range that overruns does not, in the directory `fullTop`.
* `not_failsCleanly_long`: nor do more than `2 ^ 36` pages beyond one block, in a directory
  with one page table. Their addresses come round again in the bits that are translated.
-/

set_option autoImplicit false

namespace MString

/-- After `-ENOMEM`, exactly `f 0` to `f (k - 1)` have been drawn, the first `k` pages are
mapped to them and the later ones translate as before. -/
def FailsCleanly (virt n : Uintptr) : Prop :=
  ∀ (σ : Type) (pacc : PageFrameAccessor σ) (free : σ → PageIdx → Prop)
    (hist : σ → List PageIdx → Prop) (f : Nat → PageIdx) (root : Uintptr) (flags : PageFlags)
    (s s' : Machine σ),
    Supplies pacc free hist → Yields hist f → hist s.ctx [] → Ready free root s →
    mmMapPages kernelWindow (some ⟨root⟩) (some pacc) virt n flags s = .ok (-ENOMEM, s') →
    ∃ k, k < n.toNat ∧ hist s'.ctx ((List.range k).map f) ∧
      (∀ i, i < k → mmPinVirtualAddress kernelWindow s'.mem ⟨root⟩
        (virt + BitVec.ofNat 64 (4096 * i)) = .ok (f i)) ∧
      ∀ i, k ≤ i → i < n.toNat → mmPinVirtualAddress kernelWindow s'.mem ⟨root⟩
          (virt + BitVec.ofNat 64 (4096 * i))
        = mmPinVirtualAddress kernelWindow s.mem ⟨root⟩ (virt + BitVec.ofNat 64 (4096 * i))

/-- The pages from `virt` to the end of its block of 2 MB. -/
def blockRest (virt : Uintptr) : Nat := 512 - virt.toNat / 4096 % 512

/-- The ranges on which a call fails cleanly: those that are refused, and those that do not
overrun and have at most `2 ^ 36` pages or no page to visit beyond the first 2 MB block. -/
def CleanRange (virt n : Uintptr) : Prop :=
  (n = 0 ∨ virt = 0 ∨ virt + n * PAGE_SIZE < virt) ∨
    ¬ Overruns virt (virt + n * PAGE_SIZE) ∧
      (n.toNat ≤ 2 ^ 36 ∨ visited virt (virt + n * PAGE_SIZE) ≤ blockRest virt)

/-- A call that was out of memory was not refused. -/
theorem not_refused_of_enomem {σ : Type} {pacc : PageFrameAccessor σ} {root virt n : Uintptr}
    {flags : PageFlags} {s s' : Machine σ}
    (hrun : mmMapPages kernelWindow (some ⟨root⟩) (some pacc) virt n flags s = .ok (-ENOMEM, s')) :
    ¬ Refused ⟨root⟩ virt n := by
  intro hr
  simp only [mmMapPages, if_pos hr, Except.ok.injEq, Prod.mk.injEq] at hrun
  exact absurd hrun.1 (by decide)

/-! ### The ranges that fail cleanly -/

/-- A list whose members are given by their places. -/
theorem eq_map_range {f : Nat → PageIdx} {gs : List PageIdx}
    (h : ∀ (i : Nat) (x : PageIdx), gs[i]? = some x → x = f i) :
    gs = (List.range gs.length).map f := by
  refine List.ext_getElem? fun i => ?_
  by_cases hi : i < gs.length
  · rw [List.getElem?_eq_getElem hi, List.getElem?_map, List.getElem?_range hi, Option.map_some,
      h i gs[i] (List.getElem?_eq_getElem hi)]
  · rw [List.getElem?_eq_none (by omega), List.getElem?_eq_none (by simpa using hi)]

/-- Of a range of at most `2 ^ 36` pages that does not run over, no more pages are visited
than it has, and these are different ones. -/
theorem visited_le {root virt n : Uintptr} (hvirt : virt.toNat % 4096 = 0)
    (hrefused : ¬ Refused ⟨root⟩ virt n) (hn : n.toNat ≤ 2 ^ 36) :
    visited virt (virt + n * PAGE_SIZE) ≤ n.toNat := by
  rw [visited_eq hvirt hrefused (by omega) fun hn0 => hrefused (.inr (.inl hn0))]
  split <;> omega

/-- A call for at most `2 ^ 36` pages that does not overrun. -/
theorem failsCleanly_short {virt n : Uintptr} (hvirt : virt.toNat % 4096 = 0)
    (hn : n.toNat ≤ 2 ^ 36) (hover : ¬ Overruns virt (virt + n * PAGE_SIZE)) :
    FailsCleanly virt n := by
  intro σ pacc free hist f root flags s s' hsup hyields hstart h hrun
  have hrefused := not_refused_of_enomem hrun
  obtain ⟨gs, hgs⟩ := mmMapPages_spec hsup answers_kernelWindow h hvirt hrefused hover hrun
  have hframes : ∀ (i : Nat) (x : PageIdx), gs[i]? = some x → x = f i := fun i x hx =>
    hyields _ _ (hgs.history [] hstart) i x (by simpa using hx)
  have hlen : gs.length < visited virt (virt + n * PAGE_SIZE) := by
    rcases hgs.result with ⟨hr, -⟩ | ⟨-, hlen⟩
    · exact absurd hr neg_ENOMEM_ne_zero
    · simpa using hlen
  have hvis := visited_le hvirt hrefused hn
  have hend := toNat_end hrefused (by omega)
  have hlt := (virt + n * PAGE_SIZE).isLt
  refine ⟨gs.length, by omega, ?_, ?_, ?_⟩
  · rw [← eq_map_range hframes]
    simpa using hgs.history [] hstart
  · intro i hi
    have hpage := hgs.mapped (nodup_pagesFrom (by omega) (by omega)) i _ _
      (getElem?_pagesFrom virt (by omega)) (List.getElem?_eq_getElem hi)
    rw [mmPinVirtualAddress_eq answers_kernelWindow hgs.ready.wf, hpage,
      hframes i _ (List.getElem?_eq_getElem hi)]
  · intro i hki hi
    rw [mmPinVirtualAddress_eq answers_kernelWindow hgs.ready.wf,
      mmPinVirtualAddress_eq answers_kernelWindow h.wf]
    congr 1
    apply hgs.frame
    intro v hv heq
    -- The pages that were mapped are the first ones, and this is a later one.
    obtain ⟨j, hj⟩ := List.mem_iff_getElem?.mp hv
    have hjk : j < gs.length := by
      have := (List.getElem?_eq_some_iff.mp hj).1
      rw [List.length_take] at this
      omega
    rw [List.getElem?_take_of_lt hjk, getElem?_pagesFrom virt (by omega)] at hj
    rw [← Option.some.inj hj] at heq
    have := pageOf_page_inj (by omega) (by omega) (by omega) (by omega) heq
    omega

/-- The pages up to the end of the block go through one page table. -/
theorem path_block {virt w : Uintptr} {k : Nat} (hk : k ≤ blockRest virt)
    (hvirt : virt.toNat % 4096 = 0) (hw : w ∈ pagesFrom virt k) : path w = path virt := by
  obtain ⟨i, hi, rfl⟩ := mem_pagesFrom hw
  have hlt := virt.isLt
  unfold blockRest at hk
  rw [path, path, List.cons.injEq, List.cons.injEq, List.cons.injEq]
  refine ⟨ptlIndex_eq ?_, ptlIndex_eq ?_, ptlIndex_eq ?_, rfl⟩ <;>
  · rw [toNat_page (by omega)]
    omega

/-- A call that stays in one block fails at its first page, where it leaves the memory with
the translations it had. -/
theorem failsCleanly_block {virt n : Uintptr} (hvirt : virt.toNat % 4096 = 0)
    (hover : ¬ Overruns virt (virt + n * PAGE_SIZE))
    (hblock : visited virt (virt + n * PAGE_SIZE) ≤ blockRest virt) : FailsCleanly virt n := by
  intro σ pacc free hist f root flags s s' hsup hyields hstart h hrun
  have hrefused := not_refused_of_enomem hrun
  have ha := answers_kernelWindow
  have hpos : n.toNat ≠ 0 := fun h0 => hrefused (.inr (.inl (BitVec.eq_of_toNat_eq h0)))
  have hmask := and_pageMask_of_aligned hvirt
  rw [mmMapPages_eq hsup ha h hrefused (by rwa [hmask]), hmask] at hrun
  have hpath : ∀ w ∈ pagesFrom virt (visited virt (virt + n * PAGE_SIZE)), path w = path virt :=
    fun w hw => path_block hblock hvirt hw
  have hvis := (spans_l4ToAddr hvirt (le_end hrefused) hover).pos
  obtain ⟨k, hk⟩ : ∃ k, visited virt (virt + n * PAGE_SIZE) = k + 1 :=
    ⟨visited virt (virt + n * PAGE_SIZE) - 1, by omega⟩
  rw [hk, pagesFrom] at hrun hpath
  -- once the page table is there, nothing is missing
  have hserved : ∀ vs (s1 : Machine σ), (∀ w ∈ vs, path w = path virt) →
      WellFormed s1.mem root → tableOf s1.mem root (path virt) ≠ none →
      mapPagesFrom ⟨kernelWindow, pacc, flags⟩ upperLevels root vs s1 ≠ .ok (-ENOMEM, s') := by
    intro vs s1 hvs hwf htab hrun
    refine absurd (@mapPagesFrom_of_tables _ ⟨kernelWindow, pacc, flags⟩ root ha vs s1 s' _ hwf
      (fun w hw => ?_) hrun) neg_ENOMEM_ne_zero
    rwa [hvs w hw]
  obtain ⟨⟨r1, s1⟩, hpage, -⟩ := Loop.exists_of_bind hrun
  have hm := @mapPageFrom_spec _ ⟨kernelWindow, pacc, flags⟩ _ _ root hsup ha virt upperLevels []
    root s r1 s1 rfl h rfl hpage
  rcases hm.result with ⟨rfl, -⟩ | ⟨rfl, hhist, htr⟩
  · rw [mapPagesFrom_cons _ hpage] at hrun
    exact absurd hrun (hserved _ s1 (fun w hw => hpath w (List.mem_cons_of_mem _ hw)) hm.ready.wf
      (@tableOf_of_mapPageFrom _ ⟨kernelWindow, pacc, flags⟩ root _ _ hsup ha _ upperLevels [] root
        s s1 rfl h rfl hpage))
  · rw [mapPagesFrom_cons_failed _ hpage neg_ENOMEM_ne_zero] at hrun
    cases hrun
    refine ⟨0, by omega, hhist [] hstart, fun i hi => absurd hi (by omega), fun i _ _ => ?_⟩
    rw [mmPinVirtualAddress_eq ha hm.ready.wf, mmPinVirtualAddress_eq ha h.wf, htr]

/-! ### The ranges that do not -/

section Drawn

variable {root virt n : Uintptr} {us : List Uintptr} {m : Mem} {s' : Machine Nat}

/-- What `FailsCleanly` says of a call that has drawn frame 0 for the pages `us`. -/
theorem FailsCleanly.drawn (hclean : FailsCleanly virt n) (hwf : WellFormed m root)
    (hdrawn : DrawnFor root us m s')
    (hcall : mmMapPages kernelWindow (some ⟨root⟩) (some dryAccessor) virt n 0 ⟨m, 0⟩
      = .ok (-ENOMEM, s')) :
    us.length < n.toNat ∧
    (∀ i, i < us.length → translate s'.mem root (virt + BitVec.ofNat 64 (4096 * i)) = 0) ∧
    ∀ i, us.length ≤ i → i < n.toNat →
      translate s'.mem root (virt + BitVec.ofNat 64 (4096 * i))
        = translate m root (virt + BitVec.ofNat 64 (4096 * i)) := by
  obtain ⟨k, hk, hhist, hfirst, hlater⟩ := hclean Nat dryAccessor _ _ (fun _ => 0) root 0
    ⟨m, 0⟩ s' supplies_dryAccessor yields_drawn rfl (ready_dry hwf) hcall
  have hcount : k = us.length := by
    have hlen := congrArg List.length hhist
    rw [List.length_map, List.length_range, List.length_replicate] at hlen
    rw [hlen, hdrawn.count]
  simp only [mmPinVirtualAddress_eq answers_kernelWindow hdrawn.wf,
    mmPinVirtualAddress_eq answers_kernelWindow hwf, Except.ok.injEq] at hfirst hlater
  rw [← hcount]
  exact ⟨hk, hfirst, hlater⟩

/-- The page `2 ^ 36` of a range is its first one again. -/
theorem not_failsCleanly_of_repeat (hn : 2 ^ 36 < n.toNat) (hwf : WellFormed m root)
    (hdrawn : DrawnFor root us m s') (hlen : us.length ≤ 2 ^ 36) (hvirt : virt ∈ us)
    (hinvalid : translate m root virt = INVALID_PAGE_IDX)
    (hcall : mmMapPages kernelWindow (some ⟨root⟩) (some dryAccessor) virt n 0 ⟨m, 0⟩
      = .ok (-ENOMEM, s')) : ¬ FailsCleanly virt n := by
  intro hclean
  have hsame : pageOf (virt + BitVec.ofNat 64 (4096 * 2 ^ 36)) = pageOf virt := by
    rw [pageOf, pageOf, BitVec.toNat_add, BitVec.toNat_ofNat]
    omega
  have hlater := (hclean.drawn hwf hdrawn hcall).2.2 (2 ^ 36) hlen hn
  rw [translate_of_pageOf_eq hsame, translate_of_pageOf_eq hsame, hdrawn.mapped virt hvirt,
    hinvalid] at hlater
  exact absurd hlater (by decide)

end Drawn

/-- A range that overruns. In `fullTop` the call has mapped a page beyond those that it has
counted for the range. -/
theorem not_failsCleanly_overruns {virt n : Uintptr} (hvirt : virt.toNat % 4096 = 0)
    (hrefused : ¬ Refused ⟨DIRECTORY_ROOT⟩ virt n) (hover : Overruns virt (virt + n * PAGE_SIZE)) :
    ¬ FailsCleanly virt n := by
  obtain ⟨s', hrun, hcall⟩ := @mmMapPages_fullTop 0 _ _ hvirt hrefused hover
  have htop := hover.1
  have hwf := intact_fullTop.wf
  have hdrawn := drawnFor_of_run hwf (nodup_fullTopPages hvirt htop) hrun
  have hlen := length_fullTopPages virt
  have hfit := topPages_fit hvirt
  have hfirst : virt ∈ fullTopPages virt := List.mem_append_left _ List.mem_cons_self
  by_cases hn : n.toNat ≤ 2 ^ 36
  · -- the page behind the last one of the first part is not mapped
    intro hclean
    obtain ⟨hk, hmapped, -⟩ := hclean.drawn hwf hdrawn hcall
    have hend := toNat_end hrefused (by omega)
    have hlt := (virt + n * PAGE_SIZE).isLt
    have hpage := hmapped (topPages virt) (by omega)
    rw [hdrawn.frame _ fun v hv => ?_, translate_fullTop_top (by rw [toNat_page (by omega)]; omega)]
      at hpage
    · exact absurd hpage (by decide)
    · rcases List.mem_append.mp hv with hv | hv
      · obtain ⟨i, hi, rfl⟩ := mem_pagesFrom hv
        intro heq
        have := pageOf_page_inj (by omega) (by omega) (by omega) (by omega) heq
        omega
      · obtain ⟨i, hi, rfl⟩ := mem_pagesFrom hv
        have hzero : (0 : Uintptr).toNat = 0 := rfl
        rw [pageOf, pageOf, toNat_page (by omega), toNat_page (by omega)]
        omega
  · exact not_failsCleanly_of_repeat (by omega) hwf hdrawn (by omega) hfirst
      (translate_fullTop_top htop) hcall

/-- The references of a directory with the one page table for `v`. -/
def pathChild (v : Uintptr) (frame slot : Nat) : Option Nat :=
  if frame = 1 ∧ slot = (ptlIndex 39 v).val then some 2
  else if frame = 2 ∧ slot = (ptlIndex 30 v).val then some 3
  else if frame = 3 ∧ slot = (ptlIndex 21 v).val then some 4
  else none

theorem references_path (v : Uintptr) : References (pathChild v) where
  low f i c h := by
    unfold pathChild at h
    split_ifs at h <;> simp only [Option.some.injEq] at h <;> omega
  ne_root f i h := by
    unfold pathChild at h
    split_ifs at h <;> simp only [Option.some.injEq] at h <;> omega
  inj f f' i i' c h h' := by
    unfold pathChild at h h'
    split_ifs at h <;> simp only [Option.some.injEq] at h <;>
      split_ifs at h' <;> simp only [Option.some.injEq] at h' <;> omega

/-- It has this page table, no mapped page, and no table for another 2 MB. -/
theorem descend_path (v w : Uintptr) :
    descend (pathChild v) 1 (path v) = some 4 ∧
    descend (pathChild v) 1 (path v ++ [ptlIndex 12 v]) = none ∧
    (ptlIndex 21 w ≠ ptlIndex 21 v → descend (pathChild v) 1 (path w) = none) := by
  have h1 : ∀ i : Fin 512, pathChild v 1 i.val = if i = ptlIndex 39 v then some 2 else none := by
    intro i
    simp [pathChild, Fin.ext_iff]
  have h2 : ∀ i : Fin 512, pathChild v 2 i.val = if i = ptlIndex 30 v then some 3 else none := by
    intro i
    simp [pathChild, Fin.ext_iff]
  have h3 : ∀ i : Fin 512, pathChild v 3 i.val = if i = ptlIndex 21 v then some 4 else none := by
    intro i
    simp [pathChild, Fin.ext_iff]
  have h4 : ∀ i : Fin 512, pathChild v 4 i.val = none := by
    intro i
    simp [pathChild]
  have hv : descend (pathChild v) 1 (path v) = some 4 := by
    simp [path, descend, h1, h2, h3]
  refine ⟨hv, by rw [descend_concat, hv, Option.bind_some, h4], fun hne => ?_⟩
  rw [path, descend, h1]
  split
  · rw [Option.bind_some, descend, h2]
    split
    · rw [Option.bind_some, descend, h3, if_neg hne, Option.bind_none]
    · rfl
  · rfl

/-- More than `2 ^ 36` pages, of which the call visits some beyond the first 2 MB block. In a
directory with the page table of this block, the call maps its pages and fails. -/
theorem not_failsCleanly_long {virt n : Uintptr} (hvirt : virt.toNat % 4096 = 0)
    (hrefused : ¬ Refused ⟨DIRECTORY_ROOT⟩ virt n)
    (hover : ¬ Overruns virt (virt + n * PAGE_SIZE)) (hn : 2 ^ 36 < n.toNat)
    (hvis : blockRest virt < visited virt (virt + n * PAGE_SIZE)) : ¬ FailsCleanly virt n := by
  have ha : Answers (dryEnv 0).mapped := answers_kernelWindow
  have hrefs := references_path virt
  have hwf := wellFormed_directory hrefs
  have hlt := virt.isLt
  have hrest : blockRest virt = 512 - virt.toNat / 4096 % 512 := rfl
  -- the pages of the block are served
  obtain ⟨s', hrun, hwf', htab⟩ := @mapPagesFrom_tables _ (dryEnv 0) DIRECTORY_ROOT ha
    (fun c => ⟨_, rfl⟩) (pagesFrom virt (blockRest virt)) ⟨directory (pathChild virt), 0⟩ hwf
    fun w hw => by
      rw [path_block (le_refl _) hvirt hw, tableOf_directory hrefs, (descend_path virt virt).1]
      simp
  have hdrawn := drawnFor_of_run hwf (nodup_pagesFrom (by omega) (by omega)) hrun
  -- and the page behind them is not
  have hnext : ptlIndex 21 (virt + BitVec.ofNat 64 (4096 * blockRest virt)) ≠ ptlIndex 21 virt := by
    rw [ne_eq, Fin.ext_iff, ptlIndex_val, ptlIndex_val, BitVec.toNat_add, BitVec.toNat_ofNat]
    omega
  obtain ⟨k, hk⟩ : ∃ k, visited virt (virt + n * PAGE_SIZE) = blockRest virt + (k + 1) :=
    ⟨visited virt (virt + n * PAGE_SIZE) - blockRest virt - 1, by omega⟩
  have hstop := mapPagesFrom_stops (refuses_dryEnv 0) ha hrun hwf'
    (x := virt + BitVec.ofNat 64 (4096 * blockRest virt))
    (by
      rw [htab _ (by simp [path]), tableOf_directory hrefs, (descend_path virt _).2.2 hnext]
      rfl)
    (pagesFrom (virt + BitVec.ofNat 64 (4096 * blockRest virt) + PAGE_SIZE) k)
  have hmask := and_pageMask_of_aligned hvirt
  have hcall : mmMapPages kernelWindow (some ⟨DIRECTORY_ROOT⟩) (some dryAccessor) virt n 0
      ⟨directory (pathChild virt), 0⟩ = .ok (-ENOMEM, s') := by
    rw [mmMapPages_eq supplies_dryAccessor answers_kernelWindow (ready_dry hwf) hrefused
      (by rwa [hmask]), hmask, hk, pagesFrom_add]
    exact hstop
  obtain ⟨j, hj⟩ : ∃ j, blockRest virt = j + 1 := ⟨blockRest virt - 1, by omega⟩
  refine not_failsCleanly_of_repeat hn hwf hdrawn (by rw [length_pagesFrom]; omega) ?_
    (translate_directory hrefs (descend_path virt virt).2.1) hcall
  rw [hj]
  exact List.mem_cons_self

/-- `mm_map_pages` fails cleanly, whatever the directory and the accessor, on these ranges
and on no other. -/
theorem failsCleanly_iff (virt n : Uintptr) (hvirt : virt.toNat % 4096 = 0) :
    FailsCleanly virt n ↔ CleanRange virt n := by
  have hroot := (wellFormed_directory references_fullTop).tableAddr_root
  constructor
  · intro hclean
    by_contra hrange
    simp only [CleanRange, ← hroot.refused_iff, not_or, not_and] at hrange
    obtain ⟨hrefused, hrest⟩ := hrange
    by_cases hover : Overruns virt (virt + n * PAGE_SIZE)
    · exact not_failsCleanly_overruns hvirt hrefused hover hclean
    · obtain ⟨hn, hvis⟩ := hrest hover
      exact not_failsCleanly_long hvirt hrefused hover (by omega) (by omega) hclean
  · rintro (hrefused | ⟨hover, hn | hblock⟩)
    · intro σ pacc free hist f root flags s s' _ _ _ h hrun
      exact absurd (h.wf.tableAddr_root.refused_iff.mpr hrefused) (not_refused_of_enomem hrun)
    · exact failsCleanly_short hvirt hn hover
    · exact failsCleanly_block hvirt hover hblock

/-- One page at `0x1000`. -/
theorem failsCleanly_one : FailsCleanly 0x1000 1 :=
  (failsCleanly_iff 0x1000 1 (by decide)).mpr (.inr ⟨by decide, .inl (by decide)⟩)

/-- Two pages around the start of the last gigabyte: both are mapped, with 512 others, when
the call runs out of memory. -/
theorem not_failsCleanly_top : ¬ FailsCleanly 0xffffffffbffff000 2 :=
  not_failsCleanly_overruns (by decide)
    (RunsOver.not_refused ⟨by decide, by decide, by decide, by decide⟩) (by decide +kernel)

end MString
