import MString.Proofs.Mm.Keeping
import MString.Proofs.Mm.PageTables
import MString.Proofs.Mm.SideBySide

/-!
# `MString.Proofs.Mm.AllocFlags`: mapping flags in the page allocator

`mm_map_pages` hands its flags on to `alloc_page`, which reads the bit of
`PF_KERNEL_PAGE` as `PAF_DMA_PAGE` and then has no page.

* `mmMapPages_together`: two calls that differ in their flags go on side by side as long
  as the first one is not refused a table.
* `mmMapPages_keeps`: what the accessor's callbacks keep, a call keeps.
* `codesAgree_when`: when two flag words lead to the same code.
-/

set_option autoImplicit false

namespace MString

open Lockstep

variable {σ : Type}

/-! ### Entries that lead to the same place -/

/-- Two entries that the walkers do not tell apart. -/
structure SameRef (e e' : TlbEntry) : Prop where
  present : e.present = e'.present
  low : e.base_0_19 = e'.base_0_19
  high : e.base_20_39 = e'.base_20_39

/-- Two such entries refer to one table. -/
theorem SameRef.table {e e' : TlbEntry} (h : SameRef e e') : e.table = e'.table := by
  simp only [TlbEntry.table, TlbEntry.base, h.low, h.high]

/-- Two memories with such entries everywhere. -/
def SameWalk (m m' : Mem) : Prop := ∀ a, SameRef (m a) (m' a)

/-- They stay so when one page of both is cleared. -/
theorem SameWalk.clean {m m' : Mem} (h : SameWalk m m') (pf : PageIdx) :
    SameWalk (m.clean pf) (m'.clean pf) := by
  intro x
  unfold Mem.clean
  split
  · exact ⟨rfl, rfl, rfl⟩
  · exact h x

/-- Two machines with the same context whose tables lead to the same places. -/
def SameMachine (s s' : Machine σ) : Prop := s.ctx = s'.ctx ∧ SameWalk s.mem s'.mem

/-- Two results with one status and such memories. -/
def SameEnd (x x' : Status × Machine σ) : Prop := x.1 = x'.1 ∧ SameMachine x.2 x'.2

/-- Two walks over the same accessor, whose allocators answer alike unless the first one
has no page. -/
structure Paired (esc : Prop) (env env' : WalkEnv σ) : Prop where
  mapped : env.mapped = env'.mapped
  next : env.pacc.nextFrame = env'.pacc.nextFrame
  alloc : ∀ s s', SameMachine s s' →
    Together Never (fun x => esc ∧ x.1 = none) (fun x x' => x.1 = x'.1 ∧ SameMachine x.2 x'.2)
      (env.pacc.allocPage env.flags true s) (env'.pacc.allocPage env'.flags true s')

/-- The walkers cannot tell such entries apart: they store what depends on the flags in leaves
only. -/
theorem indistinct_sameRef : Indistinct SameRef where
  present h := h.present
  table h := h.table
  pdp3 _ _ _ _ := ⟨rfl, rfl, rfl⟩
  pde2 _ _ _ _ := ⟨rfl, rfl, rfl⟩

/-- So two surroundings that differ in their flags make one pair. -/
theorem Paired.pairs {esc : Prop} {env env' : WalkEnv σ} (h : Paired esc env env') :
    Pairs SameRef Eq Never esc env env' where
  entries := indistinct_sameRef
  leaf _ := ⟨rfl, rfl, rfl⟩
  mapped := h.mapped
  next c c' hc := by
    rw [hc, h.next]
    cases env'.pacc.nextFrame c' with
    | error e => exact .error e
    | ok x => exact .ok ⟨rfl, rfl⟩
  alloc := h.alloc

/-- Two calls that differ in their flags go side by side, until one of them is refused a page
that the other gets. -/
theorem mmMapPages_together {esc : Prop} {pacc : PageFrameAccessor σ} {mapped : EntryPtr → Bool}
    {f g : PageFlags} (h : Paired esc ⟨mapped, pacc, f⟩ ⟨mapped, pacc, g⟩) (pd : PageDirectory)
    (virt n : Uintptr) (s : Machine σ) :
    Together Never (Short esc) SameEnd (mmMapPages mapped (some pd) (some pacc) virt n f s)
      (mmMapPages mapped (some pd) (some pacc) virt n g s) :=
  mmMapPages_alike h.pairs pd virt n ⟨rfl, fun _ => ⟨rfl, rfl, rfl⟩⟩

/-! ### What every walk keeps -/

/-- The accessor's callbacks keep `I`, and only with `Z` there is no page. -/
structure CallsKeep (env : WalkEnv σ) (I : σ → Prop) (Z : Prop) : Prop where
  alloc : ∀ {s o t}, env.pacc.allocPage env.flags true s = .ok (o, t) → I s.ctx →
    I t.ctx ∧ (o = none → Z)
  next : ∀ {c i c'}, env.pacc.nextFrame c = .ok (i, c') → I c → I c'

/-- A walk ends with `I`, and fails only with `Z`. -/
def Kept (I : σ → Prop) (Z : Prop) (x : Status × Machine σ) : Prop :=
  I x.2.ctx ∧ (x.1 ≠ 0 → Z)

/-- What `f` does from a state with `I`. -/
def Keeping (I : σ → Prop) (Z : Prop) (f : Machine σ → Except Fault (Status × Machine σ)) : Prop :=
  ∀ s x, I s.ctx → f s = .ok x → Kept I Z x

section Keep

variable {env : WalkEnv σ} {I : σ → Prop} {Z : Prop}

/-- Populating an entry keeps what the accessor's calls keep. -/
theorem populateEntry_keeps (h : CallsKeep env I Z) (fields : Uintptr → TlbEntry → TlbEntry)
    (p : EntryPtr) : Keeping I Z (populateEntry fields env p) := by
  intro s x hI hrun
  obtain ⟨⟨o, t⟩, halloc, hrest⟩ := Loop.exists_of_bind hrun
  obtain ⟨hI', hnone⟩ := h.alloc halloc hI
  cases o with
  | none =>
      cases hrest
      exact ⟨hI', fun _ => hnone rfl⟩
  | some pf =>
      obtain ⟨e, -, hrest⟩ := Loop.exists_of_bind hrest
      obtain ⟨m, -, hrest⟩ := Loop.exists_of_bind hrest
      cases hrest
      exact ⟨hI', fun hne => absurd rfl hne⟩

/-- So does the innermost walker, ... -/
theorem mapPde2Range_keeps (h : CallsKeep env I Z) (p : EntryPtr) (v e : Uintptr) :
    Keeping I Z (mapPde2Range env p v e) := by
  intro s x hI hrun
  obtain ⟨pde2, -, hrest⟩ := Loop.exists_of_bind hrun
  refine Loop.run_invariant (fun a => I a.2.ctx) (Kept I Z) ?_ TURNS _ _ hI hrest
  rintro ⟨va, s⟩ r hI hturn
  obtain ⟨⟨i, c⟩, hnext, hturn⟩ := Loop.exists_of_bind hturn
  obtain ⟨m, -, hturn⟩ := Loop.exists_of_bind hturn
  have hI' := h.next hnext hI
  dsimp only at hturn
  split at hturn
  · cases hturn
    exact hI'
  · cases hturn
    exact ⟨hI', fun hne => absurd rfl hne⟩

/-- ... the outermost one ... -/
theorem mapPml4Range_keeps (h : CallsKeep env I Z) (p : EntryPtr) (v e : Uintptr) :
    Keeping I Z (mapPml4Range env p v e) :=
  @mapTableRange_keeps _ _ (fun s => I s.ctx) Z pdp3Level _ (populateEntry_keeps h pdp3Fields)
    (@mapTableRange_keeps _ _ (fun s => I s.ctx) Z pde2Level _ (populateEntry_keeps h pde2Fields)
      (mapPde2Range_keeps h)) p v e

/-- ... and the body of the call. -/
theorem mapAccepted_keeps (h : CallsKeep env I Z) (pd : PageDirectory) (v e : Uintptr) :
    Keeping I Z (mapAccepted env pd v e) := by
  intro s x hI hrun
  obtain ⟨⟨r1, s1⟩, hens, hrest⟩ := Loop.exists_of_bind hrun
  have h1 := @ensureEntry_keeps _ _ (fun s => I s.ctx) Z _ _ (populateEntry_keeps h pdp3Fields _)
    _ _ hI hens
  dsimp only at hrest
  split at hrest
  · cases hrest
    exact ⟨h1.1, fun _ => h1.2 ‹_›⟩
  · obtain ⟨⟨r2, s2⟩, hrange, hrest⟩ := Loop.exists_of_bind hrest
    have h2 := mapPml4Range_keeps h _ _ _ _ _ h1.1 hrange
    dsimp only at hrest
    split at hrest
    · cases hrest
      exact ⟨h2.1, fun _ => h2.2 ‹_›⟩
    · cases hrest
      exact ⟨h2.1, fun hne => absurd rfl hne⟩

/-- So does the call, and when it is out of memory, the accessor has refused. -/
theorem mmMapPages_keeps {mapped : EntryPtr → Bool} {pacc : PageFrameAccessor σ} {f : PageFlags}
    (h : CallsKeep ⟨mapped, pacc, f⟩ I Z) {pd : PageDirectory} {virt n : Uintptr} {s s' : Machine σ}
    {r : Status} (hI : I s.ctx)
    (hrun : mmMapPages mapped (some pd) (some pacc) virt n f s = .ok (r, s')) :
    I s'.ctx ∧ (r = -ENOMEM → Z) := by
  unfold mmMapPages at hrun
  dsimp only at hrun
  split at hrun
  · cases hrun
    exact ⟨hI, fun hr => absurd hr (by decide)⟩
  · have hkept := mapAccepted_keeps h _ _ _ _ _ hI hrun
    exact ⟨hkept.1, fun hr => hkept.2 (hr ▸ neg_ENOMEM_ne_zero)⟩

end Keep

/-! ### The kernel's allocator -/

section Kernel

variable {γ : Type} {cpu : Nat} {f g : PageFlags}

/-- A request for a DMA page gets none. -/
theorem cacheAllocator_dma (hf : f &&& PAF_DMA_PAGE ≠ 0) (clean : Bool)
    (s : Machine (CacheState cpu)) : cacheAllocator cpu f clean s = .ok (none, s) := by
  have hrun := @allocPage_dma cpu f clean ⟨s.mem, s.ctx.lists⟩ hf
  unfold cacheAllocator
  split
  · case h_1 e h => rw [hrun] at h; cases h
  · case h_2 t h => rw [hrun] at h; cases h; rfl
  · case h_3 pf t h => rw [hrun] at h; cases h

/-- The allocator with its ghost list fails where `alloc_page` does ... -/
theorem cacheAllocator_error {clean : Bool} {m : Mem} {c : CacheState cpu} {e : Fault}
    (h : allocPage cpu f clean ⟨m, c.lists⟩ = .error e) :
    cacheAllocator cpu f clean ⟨m, c⟩ = .error e := by
  unfold cacheAllocator
  split
  · case h_1 e' h' => rw [h] at h'; cases h'; rfl
  · case h_2 t h' => rw [h] at h'; cases h'
  · case h_3 pf t h' => rw [h] at h'; cases h'

/-- ... and hands out what it hands out. -/
theorem cacheAllocator_some {clean : Bool} {m : Mem} {c : CacheState cpu} {pf : PageIdx}
    {t : Machine PageLists} (h : allocPage cpu f clean ⟨m, c.lists⟩ = .ok (some pf, t)) :
    ∃ holds, cacheAllocator cpu f clean ⟨m, c⟩
      = .ok (some pf, ⟨t.mem, t.ctx, c.pages.tail, holds⟩) := by
  have hholds : CacheHolds cpu t.ctx c.pages.tail := by
    rcases allocPage_cacheState h with ⟨hpf, -⟩ | ⟨q, qs, -, hp, hc, -⟩
    · cases hpf
    · rw [hp]
      exact hc
  refine ⟨hholds, ?_⟩
  unfold cacheAllocator
  split
  · case h_1 e h' => rw [h] at h'; cases h'
  · case h_2 t' h' => rw [h] at h'; cases h'
  · case h_3 pf' t' h' =>
      rw [h] at h'
      cases h'
      rfl

/-- A clean page of the cache is the one that was taken, cleared. -/
theorem allocPage_take {m : Mem} {c c' : PageLists} {q : PageIdx} (hf : f &&& PAF_DMA_PAGE = 0)
    (h : takePage cpu c = .ok (some q, c')) :
    allocPage cpu f true ⟨m, c⟩ = .ok (some q, ⟨m.clean q, c'⟩) := by
  simp only [allocPage, hf, ne_eq, not_true_eq_false, if_false, h, bind, Except.bind]
  rfl

/-- Without the bit, a clean page is there or the kernel loads from the null pointer. -/
theorem cacheAllocator_ne_none (hf : f &&& PAF_DMA_PAGE = 0) (s t : Machine (CacheState cpu)) :
    cacheAllocator cpu f true s ≠ .ok (none, t) := by
  intro hrun
  unfold cacheAllocator at hrun
  split at hrun
  · cases hrun
  · case h_2 t h =>
      rcases hp : s.ctx.pages with _ | ⟨q, qs⟩
      · rw [allocPage_nil hf (hp ▸ s.ctx.holds : CacheHolds cpu s.ctx.lists [])] at h
        cases h
      · obtain ⟨c', hok, -⟩ := @allocPage_cons cpu f true ⟨s.mem, s.ctx.lists⟩ q qs hf
          (hp ▸ s.ctx.holds : CacheHolds cpu s.ctx.lists (q :: qs))
        rw [hok] at h
        cases h
  · cases hrun

/-- Two requests for non-DMA pages are answered alike. -/
theorem cacheAllocator_same (hf : f &&& PAF_DMA_PAGE = 0) (hg : g &&& PAF_DMA_PAGE = 0)
    {s s' : Machine (CacheState cpu)} (hs : SameMachine s s') :
    Together Never (fun _ => False) (fun x x' => x.1 = x'.1 ∧ SameMachine x.2 x'.2)
      (cacheAllocator cpu f true s) (cacheAllocator cpu g true s') := by
  obtain ⟨m, c⟩ := s
  obtain ⟨m', c'⟩ := s'
  obtain ⟨hc, hm⟩ := hs
  obtain rfl : c = c' := hc
  have hholds := c.holds
  rcases hp : c.pages with _ | ⟨q, qs⟩
  · rw [hp] at hholds
    rw [cacheAllocator_error (allocPage_nil (s := ⟨m, c.lists⟩) hf hholds),
      cacheAllocator_error (allocPage_nil (s := ⟨m', c.lists⟩) hg hholds)]
    exact .error _
  · rw [hp] at hholds
    obtain ⟨c', htake, -⟩ := takePage_cons hholds
    obtain ⟨_, hrun⟩ := cacheAllocator_some (allocPage_take (m := m) hf htake)
    obtain ⟨_, hrun'⟩ := cacheAllocator_some (allocPage_take (m := m') hg htake)
    rw [hrun, hrun']
    exact .ok ⟨rfl, rfl, hm.clean q⟩

/-- The callbacks of an accessor that leaves `alloc_page` to the kernel. Its `next_frame`
may follow the allocator's lists, but does not change them. -/
structure StubCalls (cpu : Nat) (γ : Type) where
  framesLeft : γ → PageIdx
  next : CacheState cpu → γ → Except Fault (PageIdx × γ)
  reset : γ → γ

/-- An accessor whose `alloc_page` is `pageaccs_alloc_page_stub`. -/
def stubAccessor (p : StubCalls cpu γ) : PageFrameAccessor (γ × CacheState cpu) where
  framesLeft c := p.framesLeft c.1
  nextFrame c := do
    let (f, ctx) ← p.next c.2 c.1
    return (f, (ctx, c.2))
  reset c := (p.reset c.1, c.2)
  allocPage := pageaccsAllocPageStub (cacheAllocator cpu)

/-- Both accessors of `pageaccs.c` are such. -/
def linearCalls (cpu : Nat) : StubCalls cpu LinearPaCtx where
  framesLeft c := if c.currPage < c.endPage then c.currPage - c.endPage else 0
  next _ c := .ok (linearPaNextFrame c)
  reset := linearPaReset

/-- The calls of the list accessor. -/
def listCalls (cpu : Nat) : StubCalls cpu ListPaCtx where
  framesLeft c := c.pagesLeft
  next x := listPaNextFrame x.lists
  reset := listPaReset

/-- The two accessors of the kernel take their pages from `alloc_page` in the same way. -/
theorem pageaccsLinearPa_eq_stub (cpu : Nat) :
    pageaccsLinearPa (cacheAllocator cpu) = stubAccessor (linearCalls cpu) := rfl

/-- The list accessor is made of these calls and the common stub. -/
theorem pageaccsListPa_eq_stub (cpu : Nat) :
    pageaccsListPa CacheState.lists (cacheAllocator cpu)
      = stubAccessor (listCalls cpu) := rfl

variable {p : StubCalls cpu γ} {mapped : EntryPtr → Bool}

/-- Calls whose words have the same bit, or the first of which has it. -/
theorem paired_stubAccessor
    (hbits : (f &&& PAF_DMA_PAGE = 0 ↔ g &&& PAF_DMA_PAGE = 0) ∨ f &&& PAF_DMA_PAGE ≠ 0) :
    Paired (¬ (f &&& PAF_DMA_PAGE = 0 ↔ g &&& PAF_DMA_PAGE = 0))
      ⟨mapped, stubAccessor p, f⟩
      ⟨mapped, stubAccessor p, g⟩ where
  mapped := rfl
  next := rfl
  alloc s s' hs := by
    have hctx : SameMachine (⟨s.mem, s.ctx.2⟩ : Machine (CacheState cpu)) ⟨s'.mem, s'.ctx.2⟩ :=
      ⟨congrArg Prod.snd hs.1, hs.2⟩
    have hctx1 : s.ctx.1 = s'.ctx.1 := congrArg Prod.fst hs.1
    show Together _ _ _ (pageaccsAllocPageStub (cacheAllocator cpu) f true s)
      (pageaccsAllocPageStub (cacheAllocator cpu) g true s')
    unfold pageaccsAllocPageStub
    by_cases hf : f &&& PAF_DMA_PAGE = 0
    · have hg : g &&& PAF_DMA_PAGE = 0 := hbits.elim (fun h => h.mp hf) fun h => absurd hf h
      refine (cacheAllocator_same hf hg hctx).bind (fun _ hq => hq.elim) ?_
      rintro ⟨o, t⟩ ⟨o', t'⟩ ⟨ho, ht⟩
      obtain rfl : o = o' := ho
      exact .ok ⟨rfl, Prod.ext hctx1 ht.1, ht.2⟩
    · rw [cacheAllocator_dma hf, Loop.ok_bind]
      by_cases hg : g &&& PAF_DMA_PAGE = 0
      · exact .left ⟨fun h => hf (h.mpr hg), rfl⟩
      · rw [cacheAllocator_dma hg, Loop.ok_bind]
        exact .ok ⟨rfl, hs⟩

/-- With the bit, the stub gets no page. -/
theorem refuses_stubAccessor (hf : f &&& PAF_DMA_PAGE ≠ 0) :
    Refuses (σ := γ × CacheState cpu) ⟨mapped, stubAccessor p, f⟩ := by
  intro s
  show pageaccsAllocPageStub (cacheAllocator cpu) f true s = _
  rw [pageaccsAllocPageStub, cacheAllocator_dma hf]
  rfl

/-- The stub's calls, its allocator and its `next_frame` leave the cache to `alloc_page`. -/
theorem stubAccessor_alloc {o : Option PageIdx} {s t : Machine (γ × CacheState cpu)}
    (h : (stubAccessor p).allocPage f true s = .ok (o, t)) :
    ∃ u, cacheAllocator cpu f true ⟨s.mem, s.ctx.2⟩ = .ok (o, u) ∧
      t = ⟨u.mem, (s.ctx.1, u.ctx)⟩ := by
  obtain ⟨⟨o', u⟩, halloc, hret⟩ := Loop.exists_of_bind h
  cases hret
  exact ⟨u, halloc, rfl⟩

/-- Drawing a frame leaves the allocator alone. -/
theorem stubAccessor_next {c c' : γ × CacheState cpu} {i : PageIdx}
    (h : (stubAccessor p).nextFrame c = .ok (i, c')) : c'.2 = c.2 := by
  obtain ⟨⟨i', x⟩, -, hret⟩ := Loop.exists_of_bind h
  cases hret
  rfl

/-- The accessor hands out pages of the cache, each of them once. -/
theorem supplies_stubAccessor :
    Supplies (stubAccessor p) (fun c pf => pf ∈ c.2.pages)
      (fun _ _ => True) where
  some h := by
    obtain ⟨u, halloc, rfl⟩ := stubAccessor_alloc h
    obtain ⟨hfree, hmem, hrest⟩ := (allocates_cacheAllocator cpu).some halloc
    exact ⟨hfree, hmem, fun _ _ => trivial, hrest⟩
  none h := by
    obtain ⟨u, halloc, rfl⟩ := stubAccessor_alloc h
    obtain ⟨hmem, hrest⟩ := (allocates_cacheAllocator cpu).none halloc
    exact ⟨hmem, fun _ _ => trivial, hrest⟩
  next h := ⟨fun _ _ => trivial, fun _ hx => by rwa [stubAccessor_next h] at hx⟩

/-- Without the bit, no call ends for want of a page: it faults. -/
theorem mmMapPages_stub_ne (hf : f &&& PAF_DMA_PAGE = 0) {pd : PageDirectory} {virt n : Uintptr}
    {s s' : Machine (γ × CacheState cpu)} :
    mmMapPages mapped (some pd) (some (stubAccessor p)) virt n f s
      ≠ .ok (-ENOMEM, s') := by
  intro hrun
  refine (mmMapPages_keeps (I := fun _ => True) (Z := False) ⟨?_, fun _ _ => trivial⟩
    trivial hrun).2 rfl
  intro s o t halloc _
  obtain ⟨u, halloc, -⟩ := stubAccessor_alloc halloc
  refine ⟨trivial, fun ho => ?_⟩
  rw [ho] at halloc
  exact cacheAllocator_ne_none hf _ _ halloc

/-- With it, a call leaves the cache as it is. -/
theorem mmMapPages_stub_cache (hf : f &&& PAF_DMA_PAGE ≠ 0) {pd : PageDirectory} {virt n : Uintptr}
    {s s' : Machine (γ × CacheState cpu)} {r : Status}
    (hrun : mmMapPages mapped (some pd) (some (stubAccessor p)) virt n f s
      = .ok (r, s')) : s'.ctx.2 = s.ctx.2 := by
  refine (mmMapPages_keeps (I := fun c => c.2 = s.ctx.2) (Z := True) ⟨?_, ?_⟩ rfl hrun).1
  · intro s1 o t halloc hs1
    obtain ⟨u, hcall, rfl⟩ := stubAccessor_alloc halloc
    have hdma := cacheAllocator_dma hf true ⟨s1.mem, s1.ctx.2⟩
    rw [hdma] at hcall
    cases hcall
    exact ⟨hs1, fun _ => trivial⟩
  · intro c i c' hcall hc
    rw [stubAccessor_next hcall, hc]

/-! ### Two flag words -/

/-- Both words lead to the same code, and to `-ENOMEM` only with the cache used up. -/
def CodesAgree (pacc : PageFrameAccessor (γ × CacheState cpu)) (root virt n : Uintptr)
    (f g : PageFlags) (s : Machine (γ × CacheState cpu)) : Prop :=
  (mmMapPages kernelWindow (some ⟨root⟩) (some pacc) virt n f s).map Prod.fst
      = (mmMapPages kernelWindow (some ⟨root⟩) (some pacc) virt n g s).map Prod.fst ∧
    ∀ h, h = f ∨ h = g → ∀ s', mmMapPages kernelWindow (some ⟨root⟩) (some pacc) virt n h s
      = .ok (-ENOMEM, s') → s'.ctx.2.pages = []

/-- Every page that a call visits has its page table. -/
def TablesThere (m : Mem) (root virt n : Uintptr) : Prop :=
  ∀ v ∈ pagesFrom (virt &&& PAGE_ADDR_MASK)
    (visited (virt &&& PAGE_ADDR_MASK) (virt + n * PAGE_SIZE)), tableOf m root (path v) ≠ none

/-- When the words make no difference: neither asks for a kernel page, the call needs no
table, or both ask for one with an empty cache. -/
def WordsAgree (root virt n : Uintptr) (f g : PageFlags)
    (s : Machine (γ × CacheState cpu)) : Prop :=
  (f &&& PF_KERNEL_PAGE = 0 ∧ g &&& PF_KERNEL_PAGE = 0) ∨ Refused ⟨root⟩ virt n ∨
    (¬ Overruns (virt &&& PAGE_ADDR_MASK) (virt + n * PAGE_SIZE) ∧
      TablesThere s.mem root virt n) ∨
    (f &&& PF_KERNEL_PAGE ≠ 0 ∧ g &&& PF_KERNEL_PAGE ≠ 0 ∧ s.ctx.2.pages = [])

variable {root virt n : Uintptr} {s : Machine (γ × CacheState cpu)}

/-- Which of the two flags comes first does not matter. -/
theorem CodesAgree.symm {pacc : PageFrameAccessor (γ × CacheState cpu)}
    (h : CodesAgree pacc root virt n f g s) : CodesAgree pacc root virt n g f s :=
  ⟨h.1.symm, fun w hw => h.2 w hw.symm⟩

/-- Two calls of which the first one does not run out of memory. -/
theorem map_fst_of_together {esc : Prop} {x y : Except Fault (Status × Machine σ)}
    (h : Together Never (Short esc) SameEnd x y) (hx : esc → ∀ s', x ≠ .ok (-ENOMEM, s')) :
    x.map Prod.fst = y.map Prod.fst := by
  cases h with
  | error e => rfl
  | ok h => exact congrArg Except.ok h.1
  | @left a _ h =>
      obtain ⟨hesc, hr⟩ := h
      exact absurd (congrArg (fun r => Except.ok (r, a.2)) hr) (hx hesc a.2)
  | gaveUp h => exact h.elim

/-- Where all tables are there, no call runs out of memory. -/
theorem mmMapPages_tables_ne (h : Ready (fun c pf => pf ∈ c.2.pages) root s)
    (hrefused : ¬ Refused ⟨root⟩ virt n)
    (hover : ¬ Overruns (virt &&& PAGE_ADDR_MASK) (virt + n * PAGE_SIZE))
    (htab : TablesThere s.mem root virt n) (s' : Machine (γ × CacheState cpu)) :
    mmMapPages kernelWindow (some ⟨root⟩) (some (stubAccessor p)) virt n f s
      ≠ .ok (-ENOMEM, s') := by
  rw [mmMapPages_eq supplies_stubAccessor answers_kernelWindow h hrefused hover]
  intro hrun
  have hr := @mapPagesFrom_of_tables _ ⟨kernelWindow, stubAccessor p, f⟩ root answers_kernelWindow
    _ s s' _ h.wf htab hrun
  exact neg_ENOMEM_ne_zero hr

/-- Where one is missing, a call with the bit does. -/
theorem mmMapPages_refused (h : Ready (fun c pf => pf ∈ c.2.pages) root s)
    (hnext : ∀ x c, ∃ y, p.next x c = .ok y) (hf : f &&& PAF_DMA_PAGE ≠ 0)
    (hrefused : ¬ Refused ⟨root⟩ virt n)
    (hover : ¬ Overruns (virt &&& PAGE_ADDR_MASK) (virt + n * PAGE_SIZE))
    (htab : ¬ TablesThere s.mem root virt n) :
    ∃ s', mmMapPages kernelWindow (some ⟨root⟩) (some (stubAccessor p))
      virt n f s = .ok (-ENOMEM, s') := by
  rw [mmMapPages_eq supplies_stubAccessor answers_kernelWindow h hrefused hover]
  refine mapPagesFrom_refused (refuses_stubAccessor hf) answers_kernelWindow ?_ _ s h.wf ?_
  · intro c
    obtain ⟨y, hy⟩ := hnext c.2 c.1
    exact ⟨(y.1, (y.2, c.2)), by show (p.next c.2 c.1 >>= _) = _; rw [hy]; rfl⟩
  · simpa only [TablesThere, not_forall, not_not, exists_prop] using htab

/-- Arguments that are refused are so under every word. -/
theorem codesAgree_of_refused (hrefused : Refused ⟨root⟩ virt n) :
    CodesAgree (stubAccessor p) root virt n f g s := by
  have hrun : ∀ w, mmMapPages kernelWindow (some ⟨root⟩) (some (stubAccessor p)) virt n w s
      = .ok (-EINVAL, s) := fun w => by simp only [mmMapPages, if_pos hrefused]
  refine ⟨by rw [hrun, hrun], fun w _ s' hw => ?_⟩
  rw [hrun] at hw
  cases hw

/-- Where the words make no difference, the codes agree. -/
theorem codesAgree_of_wordsAgree (h : Ready (fun c pf => pf ∈ c.2.pages) root s)
    (hwords : WordsAgree root virt n f g s) :
    CodesAgree (stubAccessor p) root virt n f g s := by
  rcases hwords with ⟨hf, hg⟩ | hrefused | ⟨hover, htab⟩ | ⟨hf, hg, hnil⟩
  · -- Neither word has the bit.
    refine ⟨map_fst_of_together (mmMapPages_together
      (paired_stubAccessor (.inl ⟨fun _ => hg, fun _ => hf⟩)) _ _ _ s)
      fun _ _ => mmMapPages_stub_ne hf, ?_⟩
    rintro w (rfl | rfl) s' hrun
    · exact absurd hrun (mmMapPages_stub_ne hf)
    · exact absurd hrun (mmMapPages_stub_ne hg)
  · exact codesAgree_of_refused hrefused
  · by_cases hrefused : Refused ⟨root⟩ virt n
    · exact codesAgree_of_refused hrefused
    · have hne := fun w s' => mmMapPages_tables_ne (p := p) (f := w) h hrefused hover htab s'
      refine ⟨?_, fun w _ s' hw => absurd hw (hne w s')⟩
      by_cases hf : f &&& PAF_DMA_PAGE = 0
      · by_cases hg : g &&& PAF_DMA_PAGE = 0
        · exact map_fst_of_together (mmMapPages_together
            (paired_stubAccessor (.inl ⟨fun _ => hg, fun _ => hf⟩)) _ _ _ s) fun _ => hne f
        · exact (map_fst_of_together (mmMapPages_together
            (paired_stubAccessor (.inr hg)) _ _ _ s) fun _ => hne g).symm
      · exact map_fst_of_together (mmMapPages_together
          (paired_stubAccessor (.inr hf)) _ _ _ s) fun _ => hne f
  · refine ⟨map_fst_of_together (mmMapPages_together (paired_stubAccessor
      (.inl ⟨fun h0 => absurd h0 hf, fun h0 => absurd h0 hg⟩)) _ _ _ s) fun hesc => ?_, ?_⟩
    · exact absurd ⟨fun h0 => absurd h0 hf, fun h0 => absurd h0 hg⟩ hesc
    · rintro w (rfl | rfl) s' hrun
      · rw [mmMapPages_stub_cache hf hrun, hnil]
      · rw [mmMapPages_stub_cache hg hrun, hnil]

/-- Nor does it for the condition. -/
theorem WordsAgree.symm (h : WordsAgree root virt n f g s) : WordsAgree root virt n g f s := by
  rcases h with ⟨hf, hg⟩ | hrefused | htab | ⟨hf, hg, hnil⟩
  · exact .inl ⟨hg, hf⟩
  · exact .inr (.inl hrefused)
  · exact .inr (.inr (.inl htab))
  · exact .inr (.inr (.inr ⟨hg, hf, hnil⟩))

/-- With the bit in one word, the codes agree only where the words make no difference. -/
theorem wordsAgree_of_codesAgree (h : Ready (fun c pf => pf ∈ c.2.pages) root s)
    (hnext : ∀ x c, ∃ y, p.next x c = .ok y)
    (hover : ¬ Overruns (virt &&& PAGE_ADDR_MASK) (virt + n * PAGE_SIZE))
    (hagree : CodesAgree (stubAccessor p) root virt n f g s)
    (hf : f &&& PAF_DMA_PAGE ≠ 0) : WordsAgree root virt n f g s := by
  by_cases hrefused : Refused ⟨root⟩ virt n
  · exact .inr (.inl hrefused)
  by_cases htab : TablesThere s.mem root virt n
  · exact .inr (.inr (.inl ⟨hover, htab⟩))
  obtain ⟨s1, hrun⟩ := mmMapPages_refused (p := p) h hnext hf hrefused hover htab
  by_cases hg : g &&& PAF_DMA_PAGE = 0
  · -- Without the bit the code is another one, or there is none.
    have hcode := hagree.1
    rw [hrun] at hcode
    obtain ⟨s2, hrun2⟩ := Loop.exists_of_map_fst hcode.symm
    exact absurd hrun2 (mmMapPages_stub_ne hg)
  · have hnil := hagree.2 f (.inl rfl) s1 hrun
    rw [mmMapPages_stub_cache hf hrun] at hnil
    exact .inr (.inr (.inr ⟨hf, hg, hnil⟩))

/-- Two flag words lead to the same code where they make no difference; when the call
stays out of the last gigabyte and `next_frame` returns, only there. -/
theorem codesAgree_when (h : Ready (fun c pf => pf ∈ c.2.pages) root s) :
    (WordsAgree root virt n f g s → CodesAgree (stubAccessor p) root virt n f g s) ∧
      (¬ Overruns (virt &&& PAGE_ADDR_MASK) (virt + n * PAGE_SIZE) →
        (∀ x c, ∃ y, p.next x c = .ok y) →
        (CodesAgree (stubAccessor p) root virt n f g s ↔ WordsAgree root virt n f g s)) := by
  refine ⟨codesAgree_of_wordsAgree h, fun hover hnext => ⟨fun hagree => ?_,
    codesAgree_of_wordsAgree h⟩⟩
  by_cases hf : f &&& PAF_DMA_PAGE = 0
  · by_cases hg : g &&& PAF_DMA_PAGE = 0
    · exact .inl ⟨hf, hg⟩
    · exact (wordsAgree_of_codesAgree h hnext hover hagree.symm hg).symm
  · exact wordsAgree_of_codesAgree h hnext hover hagree hf

/-- An ordinary page and an I/O page in an empty directory. -/
theorem codesAgree_when_io : CodesAgree (pageaccsLinearPa (cacheAllocator 0)) EMPTY_ROOT 0x1000 1 0
    PF_IO_PAGE emptyDirectory := by
  rw [pageaccsLinearPa_eq_stub]
  exact (codesAgree_when ready_emptyDirectory).1 (.inl ⟨by decide, by decide⟩)

/-- A kernel page there: with frames in the cache, the call is out of memory. -/
theorem codesAgree_kernel_page :
    Ready (fun c pf => pf ∈ c.2.pages) EMPTY_ROOT emptyDirectory ∧
      emptyDirectory.ctx.2.pages ≠ [] ∧
      ¬ CodesAgree (pageaccsLinearPa (cacheAllocator 0)) EMPTY_ROOT 0x1000 1 0 PF_KERNEL_PAGE
        emptyDirectory := by
  refine ⟨ready_emptyDirectory, by decide, fun hagree => ?_⟩
  have hkernel : (mmMapPages kernelWindow (some ⟨EMPTY_ROOT⟩)
      (some (pageaccsLinearPa (cacheAllocator 0))) 0x1000 1 PF_KERNEL_PAGE emptyDirectory).map
        Prod.fst
        = .ok (-ENOMEM) := by decide +kernel
  have hplain : (mmMapPages kernelWindow (some ⟨EMPTY_ROOT⟩)
      (some (pageaccsLinearPa (cacheAllocator 0))) 0x1000 1 0 emptyDirectory).map Prod.fst
        = .ok 0 := by decide +kernel
  have heq := hagree.1
  rw [hkernel, hplain] at heq
  exact absurd (Except.ok.inj heq) (by decide)

end Kernel

end MString
