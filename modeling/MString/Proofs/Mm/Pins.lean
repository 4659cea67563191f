import Mathlib.Data.Fintype.Pigeonhole
import MString.Proofs.Mm.MapPages
import MString.Proofs.Mm.PageAccs

/-!
# `MString.Proofs.Mm.Pins`: which pages a successful call has mapped

`mmMapPages_eq` reads `mm_map_pages` as one list of pages, and
`mmMapPages_pins_iff` says when the caller got all it asked for: the call visits
the pages up to the next 512 GB boundary only, so the pages beyond it must have
been mapped before.

The bound of `2 ^ 36` pages is no assumption. `exists_not_translated` counts: all
tables stand below 2 GB, so no directory translates that many pages.
-/

set_option autoImplicit false

namespace MString

variable {σ : Type}

/-- By this history, an accessor yields the frames `f 0`, `f 1`, and so on. -/
def Yields (hist : σ → List PageIdx → Prop) (f : Nat → PageIdx) : Prop :=
  ∀ c fs, hist c fs → ∀ (i : Nat) (x : PageIdx), fs[i]? = some x → x = f i

/-! ### A directory cannot translate everything -/

/-- Two addresses with one path lie in one block of 2 MB, up to the bits that the
tables do not translate. -/
theorem block_of_path_eq {v w : Uintptr} (h : path v = path w) :
    v.toNat / 2 ^ 21 % 2 ^ 27 = w.toNat / 2 ^ 21 % 2 ^ 27 := by
  simp only [path, List.cons.injEq, and_true, Fin.ext_iff, ptlIndex_val] at h
  omega

/-- Of `2 ^ 36` pages in a row, some have no page table: they would take `2 ^ 27` of them
and there is room for `2 ^ 19`. -/
theorem exists_no_table {m : Mem} {root : Uintptr} (h : WellFormed m root) (v : Uintptr) :
    ∃ i, i < 2 ^ 36 ∧ tableOf m root (path (v + BitVec.ofNat 64 (4096 * i))) = none := by
  by_contra hall
  have hpage : ∀ j : Fin (2 ^ 27), ∃ t,
      tableOf m root (path (v + BitVec.ofNat 64 (4096 * (512 * j.val)))) = some t ∧
        TableAddr t := fun j => by
    cases ht : tableOf m root (path (v + BitVec.ofNat 64 (4096 * (512 * j.val)))) with
    | none => exact absurd ⟨512 * j.val, by have := j.isLt; omega, ht⟩ hall
    | some t => exact ⟨t, rfl, h.addr _ t (by simp [path]) ht⟩
  choose t ht haddr using hpage
  -- Two of the page tables stand in the same frame ...
  have hkb : KERNEL_BASE.toNat = 0xffffffff80000000 := by decide
  have hroom : ∀ j, ((t j).toNat - KERNEL_BASE.toNat) / 4096 < 2 ^ 19 := fun j => by
    have := (t j).isLt
    omega
  obtain ⟨a, b, hne, hab⟩ := Fintype.exists_ne_map_eq_of_card_lt
    (fun j => (⟨_, hroom j⟩ : Fin (2 ^ 19))) (by rw [Fintype.card_fin, Fintype.card_fin]; omega)
  have hta := haddr a
  have htb := haddr b
  have heq : t a = t b := by
    apply BitVec.eq_of_toNat_eq
    have hval := congrArg Fin.val hab
    have h1 := hta.window
    have h2 := htb.window
    have h3 := hta.aligned
    have h4 := htb.aligned
    dsimp only at hval
    omega
  -- ... so they are one table, at the end of two paths.
  have hshort : ∀ v, (path v).length < 4 := fun _ => by simp [path]
  have hpath := h.tree _ _ (t a) (hshort _) (hshort _) (ht a) (by rw [heq]; exact ht b)
  have hblock := block_of_path_eq hpath
  apply hne
  apply Fin.ext
  have ha := a.isLt
  have hb := b.isLt
  rw [BitVec.toNat_add, BitVec.toNat_add, BitVec.toNat_ofNat, BitVec.toNat_ofNat] at hblock
  omega

/-- So some are not translated. -/
theorem exists_not_translated {m : Mem} {root : Uintptr} (h : WellFormed m root) (v : Uintptr) :
    ∃ i, i < 2 ^ 36 ∧ translate m root (v + BitVec.ofNat 64 (4096 * i)) = INVALID_PAGE_IDX := by
  obtain ⟨i, hi, htab⟩ := exists_no_table h v
  exact ⟨i, hi, by rw [translate, htab]⟩

/-! ### A machine to call it on -/

/-- The root of the directory of `emptyDirectory`. -/
def EMPTY_ROOT : Uintptr := pframeToVirt 1

/-- An empty directory in frame 1, with the frames 2 to 4 free and an accessor that
yields the frames from 100 on. -/
def emptyDirectory : Machine (LinearPaCtx × CacheState 0) where
  mem := fun _ => .zero
  ctx := (⟨100, 200, 100⟩,
    ⟨cacheOf 0 [2, 3, 4], [2, 3, 4], cacheHolds_cacheOf (by decide) (by decide)⟩)

/-- The frames of the example are below 2 GB. -/
theorem low_emptyDirectory : ∀ pf ∈ ([2, 3, 4] : List PageIdx), LowFrame pf := by
  intro pf hpf
  simp only [List.mem_cons, List.not_mem_nil, or_false] at hpf
  rcases hpf with rfl | rfl | rfl <;> decide +kernel

/-- And its empty root is fit for a mapping. -/
theorem ready_emptyDirectory :
    Ready (fun c pf => pf ∈ c.2.pages) EMPTY_ROOT emptyDirectory where
  wf := wellFormed_of_empty (tableAddr_pframeToVirt (by decide)) fun _ => rfl
  low := low_emptyDirectory
  fresh := fun pf hpf p _ ht => by
    have hroot := (tableOf_of_empty (fun _ => rfl) ht).2
    have hone := pframeToVirt_inj (low_emptyDirectory pf hpf) (by decide) hroot
    have hmem : (1 : PageIdx) ∈ ([2, 3, 4] : List PageIdx) := hone ▸ hpf
    exact absurd hmem (by decide)

/-! ### A successful call -/

section Pins

variable {pacc : PageFrameAccessor σ} {free : σ → PageIdx → Prop}
  {hist : σ → List PageIdx → Prop} {root virt n : Uintptr} {flags : PageFlags}
  {s s' : Machine σ} {r : Status}

/-- What `mm_map_pages` refuses, for a directory in the window. The last of its tests, on
the end of the address space, never strikes. -/
theorem TableAddr.refused_iff (h : TableAddr root) :
    Refused ⟨root⟩ virt n ↔ n = 0 ∨ virt = 0 ∨ virt + n * PAGE_SIZE < virt := by
  have hmax : MAX_VIRT_ADDRESS.toNat = 2 ^ 64 - 1 := by decide
  have hkb : KERNEL_BASE.toNat = 0xffffffff80000000 := by decide
  have hw := h.window
  constructor
  · rintro (hr | hr | hr | hr | hr | hr)
    · rw [show root = 0 from hr, show (0 : Uintptr).toNat = 0 from rfl, hkb] at hw
      omega
    · exact .inl hr
    · exact .inr (.inl hr)
    · -- The address of a table is a multiple of the page size.
      refine absurd (BitVec.eq_of_toNat_eq ?_) hr
      have hmask : (~~~PAGE_ADDR_MASK : Uintptr).toNat = 2 ^ 12 - 1 := by decide
      rw [BitVec.toNat_and, hmask, Nat.and_two_pow_sub_one_eq_mod]
      exact h.aligned
    · exact .inr (.inr hr)
    · have hlt := (virt + n * PAGE_SIZE).isLt
      rw [gt_iff_lt, BitVec.lt_def, hmax] at hr
      omega
  · rintro (hr | hr | hr)
    · exact .inr (.inl hr)
    · exact .inr (.inr (.inl hr))
    · exact .inr (.inr (.inr (.inr (.inl hr))))

/-- So a range that does not wrap is accepted. -/
theorem TableAddr.not_refused (h : TableAddr root) (hvirt : virt ≠ 0) (hn : n ≠ 0)
    (hfit : virt.toNat + 4096 * n.toNat < 2 ^ 64) : ¬ Refused ⟨root⟩ virt n := by
  rw [h.refused_iff, BitVec.lt_def, BitVec.toNat_add, BitVec.toNat_mul,
    show PAGE_SIZE.toNat = 4096 from rfl]
  rintro (hr | hr | hr)
  · exact hn hr
  · exact hvirt hr
  · omega

/-- The end of the range, when the count of its bytes does not wrap. -/
theorem toNat_end (hrefused : ¬ Refused ⟨root⟩ virt n) (hn : n.toNat < 2 ^ 52) :
    (virt + n * PAGE_SIZE).toNat = virt.toNat + 4096 * n.toNat := by
  have hps : PAGE_SIZE.toNat = 4096 := rfl
  have hwrap : ¬ virt + n * PAGE_SIZE < virt := fun h =>
    hrefused (.inr (.inr (.inr (.inr (.inl h)))))
  have hlt := virt.isLt
  rw [BitVec.lt_def, BitVec.toNat_add, BitVec.toNat_mul, hps] at hwrap
  rw [BitVec.toNat_add, BitVec.toNat_mul, hps]
  omega

/-- The end of a range of whole pages from a page on is the start of a page. -/
theorem end_aligned (hvirt : virt.toNat % 4096 = 0) :
    (virt + n * PAGE_SIZE).toNat % 4096 = 0 := by
  have hps : PAGE_SIZE.toNat = 4096 := rfl
  rw [BitVec.toNat_add, BitVec.toNat_mul, hps]
  omega

/-- A call that is not refused does not wrap. -/
theorem le_end (hrefused : ¬ Refused ⟨root⟩ virt n) :
    virt.toNat ≤ (virt + n * PAGE_SIZE).toNat := by
  have hwrap : ¬ virt + n * PAGE_SIZE < virt := fun h =>
    hrefused (.inr (.inr (.inr (.inr (.inl h)))))
  rw [BitVec.lt_def] at hwrap
  omega

/-- The number of visited pages, when the count of the bytes does not wrap. -/
theorem visited_eq (hvirt : virt.toNat % 4096 = 0) (hrefused : ¬ Refused ⟨root⟩ virt n)
    (hn : n.toNat < 2 ^ 52) (hn0 : n ≠ 0) :
    visited virt (virt + n * PAGE_SIZE)
      = if virt.toNat < 2 ^ 64 - 2 ^ 39 then
          min n.toNat (((virt.toNat / 2 ^ 39 + 1) * 2 ^ 39 - virt.toNat) / 4096)
        else n.toNat := by
  have hend := toNat_end hrefused hn
  have hto := @toNat_l4ToAddr virt (virt + n * PAGE_SIZE) hvirt
  have hpos : n.toNat ≠ 0 := fun h => hn0 (BitVec.eq_of_toNat_eq h)
  have hne : virt + n * PAGE_SIZE ≠ virt := fun h => by
    have := congrArg BitVec.toNat h
    omega
  rw [visited, if_neg hne, hto]
  split <;> omega

/-- The page that a call starts in. -/
theorem page_le_end (hrefused : ¬ Refused ⟨root⟩ virt n) :
    (virt &&& PAGE_ADDR_MASK).toNat ≤ (virt + n * PAGE_SIZE).toNat := by
  have := le_end hrefused
  rw [toNat_and_pageMask]
  omega

/-- A rounded address is the start of a page. -/
theorem page_aligned (v : Uintptr) : (v &&& PAGE_ADDR_MASK).toNat % 4096 = 0 := by
  rw [toNat_and_pageMask]
  omega

/-- A call on arguments that are not refused and do not overrun maps the visited
pages one by one. -/
theorem mmMapPages_eq {mapped : EntryPtr → Bool} (hsup : Supplies pacc free hist)
    (ha : Answers mapped) (h : Ready free root s) (hrefused : ¬ Refused ⟨root⟩ virt n)
    (hover : ¬ Overruns (virt &&& PAGE_ADDR_MASK) (virt + n * PAGE_SIZE)) :
    mmMapPages mapped (some ⟨root⟩) (some pacc) virt n flags s
      = mapPagesFrom ⟨mapped, pacc, flags⟩ upperLevels root
          (pagesFrom (virt &&& PAGE_ADDR_MASK)
            (visited (virt &&& PAGE_ADDR_MASK) (virt + n * PAGE_SIZE))) s := by
  simp only [mmMapPages, if_neg hrefused]
  rw [← mapAccepted_page]
  exact @mapAccepted_eq _ ⟨mapped, pacc, flags⟩ _ _ _ _ hsup ha h _ _ (page_aligned virt)
    (page_le_end hrefused) hover

/-- What such a call leaves behind: the pages are mapped, or some of them before the
allocator refuses. -/
theorem mmMapPages_visits {mapped : EntryPtr → Bool} (hsup : Supplies pacc free hist)
    (ha : Answers mapped) (h : Ready free root s) (hrefused : ¬ Refused ⟨root⟩ virt n)
    (hover : ¬ Overruns (virt &&& PAGE_ADDR_MASK) (virt + n * PAGE_SIZE))
    (hrun : mmMapPages mapped (some ⟨root⟩) (some pacc) virt n flags s = .ok (r, s')) :
    ∃ gs, PagesMapped free hist root (pagesFrom (virt &&& PAGE_ADDR_MASK)
      (visited (virt &&& PAGE_ADDR_MASK) (virt + n * PAGE_SIZE))) s r s' gs := by
  rw [mmMapPages_eq hsup ha h hrefused hover] at hrun
  exact @mapPagesFrom_visits _ ⟨mapped, pacc, flags⟩ _ _ _ _ _ _ hsup ha _ h hrun

/-- The same for a page-aligned address. -/
theorem mmMapPages_spec {mapped : EntryPtr → Bool} (hsup : Supplies pacc free hist)
    (ha : Answers mapped) (h : Ready free root s) (hvirt : virt.toNat % 4096 = 0)
    (hrefused : ¬ Refused ⟨root⟩ virt n) (hover : ¬ Overruns virt (virt + n * PAGE_SIZE))
    (hrun : mmMapPages mapped (some ⟨root⟩) (some pacc) virt n flags s = .ok (r, s')) :
    ∃ gs, PagesMapped free hist root (pagesFrom virt (visited virt (virt + n * PAGE_SIZE)))
      s r s' gs := by
  have hpage := and_pageMask_of_aligned hvirt
  obtain ⟨gs, hgs⟩ := mmMapPages_visits hsup ha h hrefused (by rw [hpage]; exact hover) hrun
  rw [hpage] at hgs
  exact ⟨gs, hgs⟩

/-- A call that overruns does not answer success: the window ends before its range
does. -/
theorem mmMapPages_overruns (hsup : Supplies pacc free hist) (h : Ready free root s)
    (hrefused : ¬ Refused ⟨root⟩ virt n)
    (hover : Overruns (virt &&& PAGE_ADDR_MASK) (virt + n * PAGE_SIZE))
    (hrun : mmMapPages kernelWindow (some ⟨root⟩) (some pacc) virt n flags s = .ok (r, s')) :
    r = -ENOMEM := by
  have hle := page_le_end hrefused
  have hpage := page_aligned virt
  simp only [mmMapPages, if_neg hrefused] at hrun
  rw [← mapAccepted_page, mapAccepted_aligned hpage, l4ToAddr_of_overruns hpage hover] at hrun
  generalize virt &&& PAGE_ADDR_MASK = v at hle hpage hover hrun
  simp only [bind, Except.bind] at hrun
  cases hens : ensureEntry (populateEntry pml4Upper.fields) ⟨kernelWindow, pacc, flags⟩
      ⟨root, ptlIndex 39 v⟩ s with
  | error f => simp [hens] at hrun
  | ok x =>
      obtain ⟨r1, s1⟩ := x
      obtain ⟨h1, -, -, -, hres⟩ := @ensureEntry_spec _ ⟨kernelWindow, pacc, flags⟩ _ _ _ _ _ _
        hsup answers_kernelWindow _ (refers_of_mem (List.mem_cons_self : pml4Upper ∈ upperLevels))
        h [] _ _ (by simp) rfl hens
      simp only [hens] at hrun
      rcases hres with ⟨rfl, hpres⟩ | rfl
      · -- The loop starts in a table of the directory.
        have htab : tableOf s1.mem root [ptlIndex 39 v]
            = some (slotEntry s1.mem root (ptlIndex 39 v)).table := by
          rw [tableOf_single]
          exact entryTable_of_present hpres
        simp only [ne_eq, not_true_eq_false, if_false] at hrun
        cases hwalk : mapPml4Range ⟨kernelWindow, pacc, flags⟩ ⟨root, ptlIndex 39 v⟩ v
            (virt + n * PAGE_SIZE) s1 with
        | error f => simp [hwalk] at hrun
        | ok y =>
            have hy := mapPml4Range_overruns hle hover
              (readEntry_slot answers_kernelWindow _ h1.wf.tableAddr_root _)
              (fun p hp => .inr ⟨h1.wf.addr _ _ (by simp) htab, hp⟩) hwalk
            simp only [hwalk, hy, neg_ENOMEM_ne_zero, not_false_eq_true, if_true, pure,
              Except.pure] at hrun
            cases hrun
            rfl
      · -- Without a table for the root entry the call fails at once.
        simp only [neg_ENOMEM_ne_zero, ne_eq, not_false_eq_true, if_true, pure,
          Except.pure] at hrun
        cases hrun
        rfl

/-- Pages less than `2 ^ 48` bytes apart are different pages. -/
theorem pageOf_page_inj {v : Uintptr} {i j : Nat} (hi : v.toNat + 4096 * i < 2 ^ 64)
    (hj : v.toNat + 4096 * j < 2 ^ 64) (hi' : i < 2 ^ 36) (hj' : j < 2 ^ 36)
    (h : pageOf (v + BitVec.ofNat 64 (4096 * i)) = pageOf (v + BitVec.ofNat 64 (4096 * j))) :
    i = j := by
  rw [pageOf, pageOf, toNat_page hi, toNat_page hj] at h
  omega

/-- Consecutive pages are different ones, if there are not more than the address space has. -/
theorem nodup_pagesFrom {v : Uintptr} {k : Nat} (hk : v.toNat + 4096 * k ≤ 2 ^ 64)
    (hk' : k ≤ 2 ^ 36) : ((pagesFrom v k).map pageOf).Nodup := by
  rw [List.nodup_iff_getElem?_ne_getElem?]
  intro i j hij hj heq
  have hjk : j < k := by simpa using hj
  rw [List.getElem?_map, List.getElem?_map, getElem?_pagesFrom v hjk,
    getElem?_pagesFrom v (by omega)] at heq
  have := pageOf_page_inj (by omega) (by omega) (by omega) (by omega)
    (Option.some.inj heq)
  omega

/-- When `mm_map_pages` returns 0, the pages of the range are mapped to the frames of
the accessor exactly when the pages beyond the next 512 GB boundary, which the call
does not visit, have been mapped to these frames before. -/
theorem mmMapPages_pins_iff {f : Nat → PageIdx} (hsup : Supplies pacc free hist)
    (hyields : Yields hist f) (hstart : hist s.ctx []) (h : Ready free root s)
    (hf : ∀ i, i < n.toNat → f i ≠ INVALID_PAGE_IDX) (hvirt : virt.toNat % 4096 = 0)
    (hrun : mmMapPages kernelWindow (some ⟨root⟩) (some pacc) virt n flags s = .ok (0, s')) :
    (∀ i, i < n.toNat → mmPinVirtualAddress kernelWindow s'.mem ⟨root⟩
        (virt + BitVec.ofNat 64 (4096 * i)) = .ok (f i)) ↔
      n.toNat < 2 ^ 36 ∧ ∀ i, i < n.toNat →
        (virt.toNat + 4096 * i) / 2 ^ 39 ≠ virt.toNat / 2 ^ 39 →
        mmPinVirtualAddress kernelWindow s.mem ⟨root⟩
          (virt + BitVec.ofNat 64 (4096 * i)) = .ok (f i) := by
  have hrefused : ¬ Refused ⟨root⟩ virt n := fun hr => by
    simp only [mmMapPages, if_pos hr, Except.ok.injEq, Prod.mk.injEq] at hrun
    exact neg_EINVAL_ne_zero hrun.1
  have hover : ¬ Overruns virt (virt + n * PAGE_SIZE) := fun ho =>
    neg_ENOMEM_ne_zero (mmMapPages_overruns hsup h hrefused
      (by rwa [and_pageMask_of_aligned hvirt]) hrun).symm
  have hn0 : n ≠ 0 := fun hn => hrefused (.inr (.inl hn))
  obtain ⟨gs, hgs⟩ := mmMapPages_spec hsup answers_kernelWindow h hvirt hrefused hover hrun
  have hlen : gs.length = visited virt (virt + n * PAGE_SIZE) := by
    rcases hgs.result with ⟨-, hlen⟩ | ⟨hr, -⟩
    · rw [hlen, length_pagesFrom]
    · exact absurd hr.symm neg_ENOMEM_ne_zero
  have hgs' : ∀ i (_ : i < gs.length), gs[i]? = some (f i) := fun i hi => by
    rw [← hyields _ _ (hgs.history [] hstart) i gs[i] (by simp), List.getElem?_eq_getElem hi]
  simp only [mmPinVirtualAddress_eq answers_kernelWindow hgs.ready.wf,
    mmPinVirtualAddress_eq answers_kernelWindow h.wf, Except.ok.injEq]
  by_cases hn : n.toNat < 2 ^ 36
  · have hend := toNat_end hrefused (by omega)
    have hlt := (virt + n * PAGE_SIZE).isLt
    have hvis := visited_eq hvirt hrefused (by omega) hn0
    -- A page of the range is visited exactly when it lies in the first block.
    have hblock : ∀ i, i < n.toNat → (i < visited virt (virt + n * PAGE_SIZE) ↔
        (virt.toNat + 4096 * i) / 2 ^ 39 = virt.toNat / 2 ^ 39) := by
      intro i hi
      rw [hvis]
      have := virt.isLt
      split <;> omega
    have hk : visited virt (virt + n * PAGE_SIZE) ≤ n.toNat := by
      rw [hvis]
      split <;> omega
    have hnodup := @nodup_pagesFrom virt (visited virt (virt + n * PAGE_SIZE))
      (by omega) (by omega)
    have hin : ∀ i, i < visited virt (virt + n * PAGE_SIZE) →
        translate s'.mem root (virt + BitVec.ofNat 64 (4096 * i)) = f i := fun i hi =>
      hgs.mapped hnodup i _ _ (getElem?_pagesFrom virt hi) (hgs' i (by omega))
    have hout : ∀ i, i < n.toNat → ¬ i < visited virt (virt + n * PAGE_SIZE) →
        translate s'.mem root (virt + BitVec.ofNat 64 (4096 * i))
          = translate s.mem root (virt + BitVec.ofNat 64 (4096 * i)) := by
      intro i hi hik
      apply hgs.frame
      intro v hv heq
      obtain ⟨j, hj, rfl⟩ := mem_pagesFrom (List.mem_of_mem_take hv)
      have := pageOf_page_inj (by omega) (by omega) (by omega) (by omega) heq
      omega
    constructor
    · intro hall
      refine ⟨hn, fun i hi hne => ?_⟩
      rw [← hout i hi fun hik => hne ((hblock i hi).mp hik)]
      exact hall i hi
    · intro ⟨_, hbefore⟩ i hi
      by_cases hik : i < visited virt (virt + n * PAGE_SIZE)
      · exact hin i hik
      · rw [hout i hi hik]
        exact hbefore i hi fun heq => hik ((hblock i hi).mpr heq)
  · refine ⟨fun hall => ?_, fun hall => absurd hall.1 hn⟩
    obtain ⟨i, hi, htr⟩ := exists_not_translated hgs.ready.wf virt
    exact absurd ((hall i (by omega)).symm.trans htr) (hf i (by omega))

/-- One page in an empty directory. -/
theorem mmMapPages_pins_one :
    ∃ s', mmMapPages kernelWindow (some ⟨EMPTY_ROOT⟩) (some (pageaccsLinearPa (cacheAllocator 0)))
        0x1000 1 0 emptyDirectory = .ok (0, s') ∧
      ((∀ i, i < (1 : Uintptr).toNat → mmPinVirtualAddress kernelWindow s'.mem ⟨EMPTY_ROOT⟩
          (0x1000 + BitVec.ofNat 64 (4096 * i)) = .ok (100 + BitVec.ofNat 32 i)) ↔
        (1 : Uintptr).toNat < 2 ^ 36 ∧ ∀ i, i < (1 : Uintptr).toNat →
          ((0x1000 : Uintptr).toNat + 4096 * i) / 2 ^ 39 ≠ (0x1000 : Uintptr).toNat / 2 ^ 39 →
          mmPinVirtualAddress kernelWindow emptyDirectory.mem ⟨EMPTY_ROOT⟩
            (0x1000 + BitVec.ofNat 64 (4096 * i)) = .ok (100 + BitVec.ofNat 32 i)) := by
  obtain ⟨s', hrun⟩ := Loop.exists_of_map_fst (a := (0 : Status)) (x :=
    mmMapPages kernelWindow (some ⟨EMPTY_ROOT⟩) (some (pageaccsLinearPa (cacheAllocator 0)))
      0x1000 1 0 emptyDirectory) (by decide +kernel)
  refine ⟨s', hrun, mmMapPages_pins_iff (supplies_linearPa (allocates_cacheAllocator 0) 100)
    (fun c fs h => h.2) (linearHist_start rfl) ready_emptyDirectory ?_ (by decide) hrun⟩
  intro i hi
  obtain rfl : i = 0 := Nat.lt_one_iff.mp hi
  decide

/-- Two pages on either side of a 512 GB boundary: the call answers success, and the
second page is not mapped. -/
theorem mmMapPages_stops_at_boundary :
    Ready (fun c pf => pf ∈ c.2.pages) EMPTY_ROOT emptyDirectory ∧
      ∃ s', mmMapPages kernelWindow (some ⟨EMPTY_ROOT⟩)
          (some (pageaccsLinearPa (cacheAllocator 0))) 0x7ffffff000 2 0 emptyDirectory
            = .ok (0, s') ∧
      ¬ ∀ i, i < (2 : Uintptr).toNat → mmPinVirtualAddress kernelWindow s'.mem ⟨EMPTY_ROOT⟩
          (0x7ffffff000 + BitVec.ofNat 64 (4096 * i)) = .ok (100 + BitVec.ofNat 32 i) := by
  obtain ⟨⟨r, s'⟩, hrun, hrest⟩ := Loop.exists_of_bind (b := ((0 : Status), INVALID_PAGE_IDX))
    (x := mmMapPages kernelWindow (some ⟨EMPTY_ROOT⟩)
      (some (pageaccsLinearPa (cacheAllocator 0))) 0x7ffffff000 2 0 emptyDirectory)
    (f := fun x => mmPinVirtualAddress kernelWindow x.2.mem ⟨EMPTY_ROOT⟩
      (0x7ffffff000 + BitVec.ofNat 64 (4096 * 1)) >>= fun i => pure (x.1, i)) (by decide +kernel)
  obtain ⟨i, hpin, hpure⟩ := Loop.exists_of_bind hrest
  cases hpure
  refine ⟨ready_emptyDirectory, s', hrun, fun hall => ?_⟩
  have hone := hall 1 (by decide)
  rw [hpin] at hone
  exact absurd hone (by decide)

end Pins

end MString
