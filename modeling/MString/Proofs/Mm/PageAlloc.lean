import MString.Mm.PageAlloc

/-!
# `MString.Proofs.Mm.PageAlloc`: the per-CPU page cache

`CacheHolds` ties a cache to the list of its frames: the ring at its list head and
the counter. `allocPage_nil` and `allocPage_cons` say what one call does under it,
and `allocTrace_contract_iff` what a run does.

A run is fine until a call asks for a clean page from an empty cache. `alloc_page`
then hands a null pointer to `arch_clean_page` (`Unclean`).
-/

set_option autoImplicit false

namespace MString

/-- The cache of `cpu` holds the frames `qs`, each once, and counts them right. -/
structure CacheHolds (cpu : Nat) (c : PageLists) (qs : List PageIdx) : Prop where
  ring : Ring.IsRing c.links (.cachePages cpu) (qs.map .frame)
  nodup : qs.Nodup
  count : (c.caches cpu).numFreePages.toNat = qs.length

variable {cpu : Nat} {flags : PageFlags} {cleanPage : Bool} {s : Machine PageLists}
  {q : PageIdx} {qs : List PageIdx}

/-- The head of the list and its frames are all different. -/
theorem nodup_cache (hnd : qs.Nodup) :
    ((ListPtr.cachePages cpu) :: qs.map ListPtr.frame).Nodup := by
  refine List.nodup_cons.mpr ⟨by simp, ?_⟩
  exact hnd.map fun a b h => by simpa using h

/-- A cache with the frames `qs`. -/
def cacheOf (cpu : Nat) (qs : List PageIdx) : PageLists where
  links := (initListHead ⟨fun _ => none, fun _ => none⟩ (.cachePages cpu)).insertAll
    (.cachePages cpu) (.cachePages cpu) (qs.map .frame)
  caches := fun _ => ⟨BitVec.ofNat 32 qs.length, BitVec.ofNat 32 qs.length⟩

/-- The cache that is made of a list of frames holds them. -/
theorem cacheHolds_cacheOf (hnd : qs.Nodup) (hlen : qs.length < 2 ^ 32) :
    CacheHolds cpu (cacheOf cpu qs) qs where
  ring := Ring.ring_insertAll (qs.map ListPtr.frame) []
    (initListHead ⟨fun _ => none, fun _ => none⟩ (ListPtr.cachePages cpu))
    (isRing_initListHead _ _) (nodup_cache hnd)
  nodup := hnd
  count := by
    rw [cacheOf, BitVec.toNat_ofNat]
    exact Nat.mod_eq_of_lt hlen

/-- A cache holds one list of frames. -/
theorem CacheHolds.unique {c : PageLists} {ps : List PageIdx} (h : CacheHolds cpu c qs)
    (h' : CacheHolds cpu c ps) (hnil : ps = []) : qs = [] := by
  have := h'.count
  rw [hnil, h.count] at this
  simpa using this

/-- Taking a page from a cache that holds some. -/
theorem takePage_cons {c : PageLists} (h : CacheHolds cpu c (q :: qs)) :
    ∃ c', takePage cpu c = .ok (some q, c') ∧ CacheHolds cpu c' qs := by
  have hcount := h.count
  have hpos : (c.caches cpu).numFreePages > 0 := by
    rw [gt_iff_lt, BitVec.lt_def, hcount]
    simp
  have hnext := h.ring.next
  have hdel := @listDel_ring _ _ _ _ _ [] _ h.ring
  have hring := @Ring.ring_unlink _ _ _ _ _ [] _ h.ring (nodup_cache h.nodup)
  simp only [List.map_cons, List.headD_cons] at hnext
  refine ⟨⟨c.links.unlink (.frame q) (.cachePages cpu)
      ((qs.map ListPtr.frame).headD (.cachePages cpu)),
    Function.update c.caches cpu
      { c.caches cpu with numFreePages := (c.caches cpu).numFreePages - 1 }⟩, ?_, ?_⟩
  · simp only [takePage, if_pos hpos, hnext, hdel, containerOf, bind, Except.bind, pure,
      Except.pure]
    rfl
  · refine ⟨hring, (List.nodup_cons.mp h.nodup).2, ?_⟩
    simp only [Function.update_self, BitVec.toNat_sub, hcount, List.length_cons]
    have hlt := (c.caches cpu).numFreePages.isLt
    rw [hcount, List.length_cons] at hlt
    rw [show (1 : PageIdx).toNat = 1 from rfl]
    omega

/-- Taking a page from an empty cache. -/
theorem takePage_nil {c : PageLists} (h : CacheHolds cpu c []) :
    takePage cpu c = .ok (none, c) := by
  have hzero : ¬ (c.caches cpu).numFreePages > 0 := by
    rw [gt_iff_lt, BitVec.lt_def, h.count]
    simp
  rw [takePage, if_neg hzero]
  rfl

/-- A DMA page is refused before the cache is looked at. -/
theorem allocPage_dma (hdma : flags &&& PAF_DMA_PAGE ≠ 0) :
    allocPage cpu flags cleanPage s = .ok (none, s) := by
  rw [allocPage, if_pos hdma]
  rfl

/-- A page from a cache that holds some. -/
theorem allocPage_cons (hdma : flags &&& PAF_DMA_PAGE = 0)
    (h : CacheHolds cpu s.ctx (q :: qs)) :
    ∃ c', allocPage cpu flags cleanPage s
        = .ok (some q, ⟨if cleanPage then s.mem.clean q else s.mem, c'⟩) ∧
      CacheHolds cpu c' qs := by
  obtain ⟨c', htake, hc'⟩ := takePage_cons h
  refine ⟨c', ?_, hc'⟩
  simp only [allocPage, hdma, ne_eq, not_true_eq_false, if_false, htake, bind, Except.bind]
  cases cleanPage <;> rfl

/-- An empty cache has no page; a clean one is asked of the null pointer. -/
theorem allocPage_nil (hdma : flags &&& PAF_DMA_PAGE = 0) (h : CacheHolds cpu s.ctx []) :
    allocPage cpu flags cleanPage s
      = if cleanPage then .error (.pageFault PAGE_FRAME_IDX_OFFSET) else .ok (none, s) := by
  simp only [allocPage, hdma, ne_eq, not_true_eq_false, if_false, takePage_nil h, bind,
    Except.bind]
  cases cleanPage <;> rfl

/-! ### Runs -/

/-- What is asked of the run `steps` of a cache that held `qs`. -/
structure CacheContract (cpu : Nat) (qs : List PageIdx) (steps : List AllocStep) : Prop where
  /-- No frame is returned twice. -/
  once : (steps.filterMap AllocStep.result).Nodup
  /-- Every frame comes from the cache. -/
  fromCache : ∀ st ∈ steps, ∀ pf, st.result = some pf → pf ∈ qs
  /-- The counter stays the length of the list. -/
  counted : ∀ st ∈ steps, ∃ ps, CacheHolds cpu st.after.ctx ps
  /-- A call that finds the cache empty returns null and changes nothing. -/
  empty : ∀ st ∈ steps, CacheHolds cpu st.before.ctx [] → st.result = none ∧ st.after = st.before

/-- A call asks for a clean page when the `n` pages of the cache are gone. -/
def Unclean : List AllocCall → Nat → Prop
  | [], _ => False
  | call :: calls, n =>
      call.flags &&& PAF_DMA_PAGE ≠ 0 ∧ Unclean calls n ∨
        call.flags &&& PAF_DMA_PAGE = 0 ∧
          (n = 0 ∧ call.cleanPage = true ∨ Unclean calls (n - 1))

instance decidableUnclean : ∀ calls n, Decidable (Unclean calls n)
  | [], _ => isFalse id
  | call :: calls, n =>
      have := decidableUnclean calls n
      have := decidableUnclean calls (n - 1)
      inferInstanceAs (Decidable (call.flags &&& PAF_DMA_PAGE ≠ 0 ∧ Unclean calls n ∨
        call.flags &&& PAF_DMA_PAGE = 0 ∧
          (n = 0 ∧ call.cleanPage = true ∨ Unclean calls (n - 1))))

/-- A step in front of a run. -/
theorem CacheContract.cons {st : AllocStep} {steps : List AllocStep} {ps : List PageIdx}
    (h : CacheContract cpu ps steps) (hsub : ∀ pf ∈ ps, pf ∈ qs)
    (hres : ∀ pf, st.result = some pf → pf ∈ qs ∧ pf ∉ ps)
    (hafter : CacheHolds cpu st.after.ctx ps)
    (hempty : CacheHolds cpu st.before.ctx [] → st.result = none ∧ st.after = st.before) :
    CacheContract cpu qs (st :: steps) where
  once := by
    cases hr : st.result with
    | none => simpa [hr] using h.once
    | some pf =>
        simp only [List.filterMap_cons, hr, List.nodup_cons]
        refine ⟨fun hmem => ?_, h.once⟩
        obtain ⟨st', hst', hr'⟩ := List.mem_filterMap.mp hmem
        exact (hres pf hr).2 (h.fromCache st' hst' pf hr')
  fromCache := fun st' hst' pf hpf => by
    rcases List.mem_cons.mp hst' with rfl | hst'
    · exact (hres pf hpf).1
    · exact hsub pf (h.fromCache st' hst' pf hpf)
  counted := fun st' hst' => by
    rcases List.mem_cons.mp hst' with rfl | hst'
    · exact ⟨ps, hafter⟩
    · exact h.counted st' hst'
  empty := fun st' hst' => by
    rcases List.mem_cons.mp hst' with rfl | hst'
    · exact hempty
    · exact h.empty st' hst'

/-- A run with such a call ends in a page fault next to the null pointer. -/
theorem allocTrace_unclean :
    ∀ (calls : List AllocCall) (s : Machine PageLists) (qs : List PageIdx),
      CacheHolds cpu s.ctx qs → Unclean calls qs.length →
      allocTrace cpu calls s = .error (.pageFault PAGE_FRAME_IDX_OFFSET) := by
  intro calls
  induction calls with
  | nil => intro s qs _ hun; exact hun.elim
  | cons call calls ih =>
      intro s qs h hun
      rw [allocTrace]
      by_cases hdma : call.flags &&& PAF_DMA_PAGE = 0
      · -- The call that `Unclean` asks for comes here, or later with the cache still empty.
        cases qs with
        | nil =>
            simp only [Unclean, hdma, ne_eq, not_true_eq_false, false_and, false_or, true_and,
              List.length_nil, Nat.zero_sub] at hun
            rw [allocPage_nil hdma h]
            rcases hun with hclean | hun
            · rw [if_pos hclean]
              rfl
            · cases hc : call.cleanPage with
              | true => rfl
              | false =>
                  have hrest := ih s [] h hun
                  simp only [Bool.false_eq_true, if_false, hrest, bind, Except.bind]
        -- A page is handed out, and the calls behind it see one page less.
        | cons q qs =>
            simp only [Unclean, hdma, ne_eq, not_true_eq_false, false_and, false_or, true_and,
              List.length_cons, Nat.add_one_ne_zero, Nat.add_sub_cancel] at hun
            obtain ⟨c', halloc, hc'⟩ := @allocPage_cons _ _ call.cleanPage _ _ _ hdma h
            have hrest := ih ⟨if call.cleanPage then s.mem.clean q else s.mem, c'⟩ qs hc' hun
            simp only [halloc, hrest, bind, Except.bind]
      · -- A DMA request is refused before the cache is looked at.
        simp only [Unclean, ne_eq, hdma, not_false_eq_true, true_and, false_and, or_false] at hun
        have hrest := ih s qs h hun
        simp only [allocPage_dma hdma, hrest, bind, Except.bind]

/-- A run without one keeps the contract. -/
theorem allocTrace_contract :
    ∀ (calls : List AllocCall) (s : Machine PageLists) (qs : List PageIdx),
      CacheHolds cpu s.ctx qs → ¬ Unclean calls qs.length →
      ∃ steps, allocTrace cpu calls s = .ok steps ∧ CacheContract cpu qs steps := by
  intro calls
  induction calls with
  | nil => intro s qs _ _; exact ⟨[], rfl, by simp, by simp, by simp, by simp⟩
  | cons call calls ih =>
      intro s qs h hun
      rw [allocTrace]
      by_cases hdma : call.flags &&& PAF_DMA_PAGE = 0
      · cases qs with
        -- The cache is empty. The call refuses, and `Unclean` keeps it from clearing the page
        -- zero.
        | nil =>
            simp only [Unclean, hdma, ne_eq, not_true_eq_false, false_and, false_or, true_and,
              List.length_nil, Nat.zero_sub, not_or] at hun
            obtain ⟨steps, hsteps, hcon⟩ := ih s [] h hun.2
            refine ⟨⟨s, call, none, s⟩ :: steps, ?_, ?_⟩
            · rw [allocPage_nil hdma h, if_neg hun.1]
              simp only [hsteps, bind, Except.bind, pure, Except.pure]
            · exact hcon.cons (fun _ hpf => hpf) (by simp) h fun _ => ⟨rfl, rfl⟩
        -- The cache has a page, and it goes to this call.
        | cons q qs =>
            simp only [Unclean, hdma, ne_eq, not_true_eq_false, false_and, false_or, true_and,
              List.length_cons, Nat.add_one_ne_zero, Nat.add_sub_cancel] at hun
            obtain ⟨c', halloc, hc'⟩ := @allocPage_cons _ _ call.cleanPage _ _ _ hdma h
            obtain ⟨steps, hsteps, hcon⟩ :=
              ih ⟨if call.cleanPage then s.mem.clean q else s.mem, c'⟩ qs hc' hun
            refine ⟨⟨s, call, some q, ⟨if call.cleanPage then s.mem.clean q else s.mem, c'⟩⟩ ::
              steps, ?_, hcon.cons ?_ ?_ hc' ?_⟩
            · simp only [halloc, hsteps, bind, Except.bind, pure, Except.pure]
            · exact fun pf hpf => List.mem_cons_of_mem _ hpf
            · intro pf hpf
              cases hpf
              exact ⟨List.mem_cons_self, (List.nodup_cons.mp h.nodup).1⟩
            · -- A cache that holds `q` is not empty.
              intro hempty
              exact absurd (h.unique hempty rfl) (by simp)
      · simp only [Unclean, ne_eq, hdma, not_false_eq_true, true_and, false_and, or_false] at hun
        obtain ⟨steps, hsteps, hcon⟩ := ih s qs h hun
        refine ⟨⟨s, call, none, s⟩ :: steps, ?_, ?_⟩
        · simp only [allocPage_dma hdma, hsteps, bind, Except.bind, pure, Except.pure]
        · exact hcon.cons (fun _ hpf => hpf) (by simp) h fun _ => ⟨rfl, rfl⟩

/-- A run of calls returns, and keeps the contract, exactly when no call asks for a
clean page from the empty cache. -/
theorem allocTrace_contract_iff (calls : List AllocCall) (s : Machine PageLists)
    (qs : List PageIdx) (h : CacheHolds cpu s.ctx qs) :
    (∃ steps, allocTrace cpu calls s = .ok steps ∧ CacheContract cpu qs steps) ↔
      ¬ Unclean calls qs.length := by
  refine ⟨fun ⟨steps, hsteps, _⟩ hun => ?_, allocTrace_contract calls s qs h⟩
  rw [allocTrace_unclean calls s qs h hun] at hsteps
  cases hsteps

/-- Three calls on a cache of two frames. -/
theorem allocTrace_contract_two :
    (∃ steps, allocTrace 0 [⟨0, true⟩, ⟨0, false⟩, ⟨0, false⟩]
        ⟨fun _ => .zero, cacheOf 0 [7, 9]⟩ = .ok steps ∧ CacheContract 0 [7, 9] steps) ↔
      ¬ Unclean [⟨0, true⟩, ⟨0, false⟩, ⟨0, false⟩] [(7 : PageIdx), 9].length :=
  allocTrace_contract_iff _ _ _ (cacheHolds_cacheOf (by decide) (by decide))

/-- A clean page from an empty cache: the kernel loads from the null pointer. -/
theorem allocTrace_clean_empty :
    CacheHolds 0 (cacheOf 0 []) [] ∧
      ¬ ∃ steps, allocTrace 0 [⟨0, true⟩] ⟨fun _ => .zero, cacheOf 0 []⟩ = .ok steps ∧
        CacheContract 0 [] steps := by
  have h : CacheHolds 0 (cacheOf 0 []) [] := cacheHolds_cacheOf (by decide) (by decide)
  refine ⟨h, fun ⟨steps, hsteps, _⟩ => ?_⟩
  rw [allocTrace_unclean _ _ [] h (by decide)] at hsteps
  cases hsteps

end MString
