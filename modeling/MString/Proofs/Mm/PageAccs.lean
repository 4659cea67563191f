import MString.Mm.PageAccs
import MString.Proofs.Mm.MapPage
import MString.Proofs.Mm.PageAlloc

/-!
# `MString.Proofs.Mm.PageAccs`: the accessors keep their promise

`Allocates` is the contract of a page allocator. An accessor over an allocator that
keeps it `Supplies` the walkers: `supplies_linearPa` yields the frames from the
start page on.

`CacheState` bundles the lists of `alloc_page` with the frames in its cache, and
`cacheAllocator` is `alloc_page` on such states. `allocates_cacheAllocator` shows
that the kernel's own allocator keeps the contract.
-/

set_option autoImplicit false

namespace MString

variable {κ : Type}

/-- What the page-table code relies on: `alloc_page` hands out frames that are free,
cleaned when asked, and never one twice. -/
structure Allocates (alloc : PageAllocator κ) (free : κ → PageIdx → Prop) : Prop where
  some : ∀ {flags clean s pf s'}, alloc flags clean s = .ok (some pf, s') →
    free s.ctx pf ∧ s'.mem = (if clean then s.mem.clean pf else s.mem) ∧
      ∀ x, free s'.ctx x → free s.ctx x ∧ x ≠ pf
  none : ∀ {flags clean s s'}, alloc flags clean s = .ok (none, s') →
    s'.mem = s.mem ∧ ∀ x, free s'.ctx x → free s.ctx x

/-! ### The linear accessor -/

section Linear

variable {alloc : PageAllocator κ} {free : κ → PageIdx → Prop}

/-- What the linear accessor has yielded: the frames from `first` on. -/
def LinearHist (first : PageIdx) (c : LinearPaCtx × κ) (fs : List PageIdx) : Prop :=
  c.1.currPage = first + BitVec.ofNat 32 fs.length ∧
    ∀ (i : Nat) (x : PageIdx), fs[i]? = some x → x = first + BitVec.ofNat 32 i

/-- At its first frame a linear accessor has yielded nothing. -/
theorem linearHist_start {c : LinearPaCtx × κ} {first : PageIdx} (h : c.1.currPage = first) :
    LinearHist first c [] := ⟨by simp [h], by simp⟩

/-- The linear accessor supplies frames for tables when its allocator does. -/
theorem supplies_linearPa (h : Allocates alloc free) (first : PageIdx) :
    Supplies (pageaccsLinearPa alloc) (fun c => free c.2) (LinearHist first) where
  some := by
    intro flags s pf s' hrun
    cases ha : alloc flags true ⟨s.mem, s.ctx.2⟩ with
    | error e =>
        simp [pageaccsLinearPa, pageaccsAllocPageStub, ha, bind, Except.bind] at hrun
    | ok x =>
        obtain ⟨o, t⟩ := x
        simp only [pageaccsLinearPa, pageaccsAllocPageStub, ha, bind, Except.bind, pure,
          Except.pure, Except.ok.injEq, Prod.mk.injEq] at hrun
        obtain ⟨rfl, rfl⟩ := hrun
        obtain ⟨h1, h2, h3⟩ := h.some ha
        exact ⟨h1, h2, fun fs hfs => hfs, h3⟩
  none := by
    intro flags s s' hrun
    cases ha : alloc flags true ⟨s.mem, s.ctx.2⟩ with
    | error e =>
        simp [pageaccsLinearPa, pageaccsAllocPageStub, ha, bind, Except.bind] at hrun
    | ok x =>
        obtain ⟨o, t⟩ := x
        simp only [pageaccsLinearPa, pageaccsAllocPageStub, ha, bind, Except.bind, pure,
          Except.pure, Except.ok.injEq, Prod.mk.injEq] at hrun
        obtain ⟨rfl, rfl⟩ := hrun
        obtain ⟨h1, h2⟩ := h.none ha
        exact ⟨h1, fun fs hfs => hfs, h2⟩
  next := by
    intro c i c' hrun
    simp only [pageaccsLinearPa, linearPaNextFrame, Except.ok.injEq, Prod.mk.injEq] at hrun
    obtain ⟨rfl, rfl⟩ := hrun
    refine ⟨fun fs ⟨hcurr, hfs⟩ => ⟨?_, fun i x hx => ?_⟩, fun x hx => hx⟩
    · simp only [hcurr, List.length_append, List.length_singleton, BitVec.ofNat_add,
        BitVec.add_assoc]
      rfl
    -- The frame that was yielded is the last of the history.
    · rcases Nat.lt_trichotomy i fs.length with hi | rfl | hi
      · rw [List.getElem?_append_left hi] at hx
        exact hfs i x hx
      · simp at hx
        rw [← hx, hcurr]
      · rw [List.getElem?_eq_none (by simp; omega)] at hx
        cases hx

end Linear

/-! ### The kernel's allocator -/

/-- The lists of `alloc_page` together with the frames in the cache of `cpu`. -/
structure CacheState (cpu : Nat) where
  lists : PageLists
  pages : List PageIdx
  holds : CacheHolds cpu lists pages

/-- `alloc_page` on the lists of a `CacheState`. -/
theorem allocPage_cacheState {cpu : Nat} {flags : PageFlags} {cleanPage : Bool}
    {m : Mem} {c : CacheState cpu} {pf : Option PageIdx} {s' : Machine PageLists}
    (h : allocPage cpu flags cleanPage ⟨m, c.lists⟩ = .ok (pf, s')) :
    (pf = none ∧ s' = ⟨m, c.lists⟩) ∨
      ∃ q qs, pf = some q ∧ c.pages = q :: qs ∧ CacheHolds cpu s'.ctx qs ∧
        s'.mem = if cleanPage then m.clean q else m := by
  by_cases hdma : flags &&& PAF_DMA_PAGE = 0
  · cases hp : c.pages with
    | nil =>
        have hc : CacheHolds cpu c.lists [] := hp ▸ c.holds
        rw [allocPage_nil (s := ⟨m, c.lists⟩) hdma hc] at h
        cases cleanPage with
        | true => simp at h
        | false =>
            simp only [Bool.false_eq_true, if_false, Except.ok.injEq, Prod.mk.injEq] at h
            exact .inl ⟨h.1.symm, h.2.symm⟩
    | cons q qs =>
        have hc : CacheHolds cpu c.lists (q :: qs) := hp ▸ c.holds
        obtain ⟨c', hrun, hc'⟩ :=
          @allocPage_cons cpu flags cleanPage ⟨m, c.lists⟩ q qs hdma hc
        rw [hrun] at h
        cases h
        exact .inr ⟨q, qs, rfl, rfl, hc', rfl⟩
  · rw [allocPage_dma hdma] at h
    cases h
    exact .inl ⟨rfl, rfl⟩

/-- `alloc_page` as the allocator of a state that carries its invariant. -/
def cacheAllocator (cpu : Nat) : PageAllocator (CacheState cpu) := fun flags cleanPage s =>
  match h : allocPage cpu flags cleanPage ⟨s.mem, s.ctx.lists⟩ with
  | .error e => .error e
  | .ok (none, s') => .ok (none, ⟨s'.mem, s.ctx⟩)
  | .ok (some pf, s') =>
      .ok (some pf, ⟨s'.mem, s'.ctx, s.ctx.pages.tail, by
        rcases allocPage_cacheState h with ⟨hpf, -⟩ | ⟨q, qs, -, hp, hc, -⟩
        · cases hpf
        · rw [hp]
          exact hc⟩)

/-- The allocator over a cache hands out each of its pages once. -/
theorem allocates_cacheAllocator (cpu : Nat) :
    Allocates (cacheAllocator cpu) (fun c pf => pf ∈ c.pages) where
  some := by
    intro flags clean s pf s' hrun
    unfold cacheAllocator at hrun
    split at hrun
    · cases hrun
    · cases hrun
    · case h_3 pf' t h =>
        cases hrun
        -- The page that is returned was the head of the list, and it is on the list once.
        rcases allocPage_cacheState h with ⟨hpf, -⟩ | ⟨q, qs, hpf, hp, hc, hm⟩
        · cases hpf
        · cases hpf
          have hnd := s.ctx.holds.nodup
          rw [hp] at hnd
          refine ⟨by rw [hp]; simp, hm, fun x hx => ?_⟩
          have hx' : x ∈ s.ctx.pages.tail := hx
          rw [hp, List.tail_cons] at hx'
          refine ⟨by rw [hp]; simp [hx'], ?_⟩
          rintro rfl
          exact (List.nodup_cons.mp hnd).1 hx'
  none := by
    intro flags clean s s' hrun
    unfold cacheAllocator at hrun
    split at hrun
    · cases hrun
    · case h_2 t h =>
        cases hrun
        rcases allocPage_cacheState h with ⟨-, ht⟩ | ⟨q, qs, hpf, -⟩
        · -- A call that returns none changes nothing.
          rw [ht]
          exact ⟨rfl, fun x hx => hx⟩
        · cases hpf
    · cases hrun

end MString
