import MString.Proofs.Mm.AllocFlags
import MString.Proofs.Mm.Edits
import MString.Proofs.Mm.TopRange

/-!
# `MString.Proofs.Mm.ListFrames`: a list accessor that runs out of frames

`list_pa_next_frame` answers `INVALID_PAGE_IDX` when no page is left, and
`map_pde2_range` takes the answer for a frame.

* `mapPagesFrom_noInvalid`: a call leaves such a leaf exactly when one of the frames it
  draws is `INVALID_PAGE_IDX`.
* `supplies_listStub`: the list accessor yields as many frames as it has pages left, and
  `INVALID_PAGE_IDX` from then on.
* `mapPagesFrom_of_run`: the pages that a call takes up, if it does not go on behind the
  table of the last 512 GB (`RunsBeyond`).
* `noInvalid_when`: which calls leave no such leaf. The calls that go on are not among
  them: they draw frames for whatever stands behind their table.
-/

set_option autoImplicit false

namespace MString

variable {σ : Type}

/-! ### Leaves without a frame -/

/-- No present leaf of the directory holds `INVALID_PAGE_IDX`. -/
def NoInvalidLeaf (m : Mem) (root : Uintptr) : Prop :=
  ∀ v e, leafOf m root v = some e → e.base ≠ INVALID_PAGE_IDX

section Leaves

variable {env : WalkEnv σ} {free : σ → PageIdx → Prop} {hist : σ → List PageIdx → Prop}
  {root : Uintptr}

/-- The leaf that mapping one page leaves, when it draws the frame `i`. -/
theorem mapPageFrom_leafOf (hsup : Supplies env.pacc free hist) (ha : Answers env.mapped)
    {v : Uintptr} {s s' : Machine σ} {r : Status} (h : Ready free root s)
    (hrun : mapPageFrom env v upperLevels root s = .ok (r, s')) :
    (r = 0 ∧ ∃ i, (∀ fs, hist s.ctx fs → hist s'.ctx (fs ++ [i])) ∧
        ∀ w, leafOf s'.mem root w
          = if pageOf w = pageOf v then some (leafEntry env.flags i) else leafOf s.mem root w) ∨
      r = -ENOMEM ∧ (∀ fs, hist s.ctx fs → hist s'.ctx fs) ∧
        ∀ w, leafOf s'.mem root w = leafOf s.mem root w := by
  have hspec := mapPageFrom_spec hsup ha v upperLevels [] root s r s' rfl h rfl hrun
  have hedits := mapPageFrom_edits hsup ha v upperLevels [] root s r s' rfl h rfl hrun
  rcases hspec.result with ⟨rfl, i, hhist, htr⟩ | ⟨rfl, hhist, -⟩
  · have hedit := (hedits.resolve_right fun hne => hne.1 rfl).2
    refine .inl ⟨rfl, i, hhist, fun w => ?_⟩
    by_cases hw : pageOf w = pageOf v
    · -- The leaf is one with these flags, and the page translates to `i`.
      obtain ⟨j, hj⟩ := hedit.leafOf_mem h.wf ⟨v, List.mem_singleton_self v, hw⟩
      have hi := htr w
      rw [translate_eq_leafOf, hj, if_pos hw] at hi
      rw [if_pos hw, hj, ← hi]
      simp
    · rw [if_neg hw]
      exact hedit.leafOf_other h.wf fun u hu => by rwa [List.mem_singleton.mp hu]
  · have hedit := (hedits.resolve_left fun h0 => neg_ENOMEM_ne_zero h0.1).2
    exact .inr ⟨rfl, hhist, fun w => hedit.leafOf_other h.wf fun u hu => absurd hu (by simp)⟩

/-- How many of the pages in front have their page table. -/
def served (m : Mem) (root : Uintptr) (vs : List Uintptr) : Nat :=
  (vs.takeWhile fun v => (tableOf m root (path v)).isSome).length

/-- A page whose table is missing ends the pages that are served. -/
theorem served_cons_of_none {m : Mem} {v : Uintptr} (vs : List Uintptr)
    (h : tableOf m root (path v) = none) : served m root (v :: vs) = 0 := by
  simp [served, h]

/-- A page that has its table is served, and the count goes on with the rest. -/
theorem served_cons_of_some {m m' : Mem} {v t : Uintptr} (vs : List Uintptr)
    (h : tableOf m root (path v) = some t)
    (hsame : ∀ w, tableOf m' root (path w) = tableOf m root (path w)) :
    served m root (v :: vs) = served m' root vs + 1 := by
  simp [served, h, hsame]

/-- Without pages for tables, a page that is mapped has had its table. -/
theorem served_of_mapped (hno : Refuses env) (ha : Answers env.mapped) {v : Uintptr}
    {s s' : Machine σ} (hwf : WellFormed s.mem root)
    (hrun : mapPageFrom env v upperLevels root s = .ok (0, s')) (vs : List Uintptr) :
    served s.mem root (v :: vs) = served s'.mem root vs + 1 := by
  cases ht : tableOf s.mem root (path v) with
  | none =>
      rw [mapPageFrom_refused hno ha hwf ht upperLevels [] root rfl rfl] at hrun
      cases hrun
  | some t =>
      rw [mapPageFrom_of_tableOf ha hwf ht upperLevels [] root rfl rfl] at hrun
      exact served_cons_of_some vs ht fun _ =>
        (mapPageFrom_leaf ha hwf ht hrun).2.2 _ (by simp [path])

/-- A page that is not mapped has had none. -/
theorem served_of_refused (ha : Answers env.mapped) {v : Uintptr} {s s' : Machine σ}
    (hwf : WellFormed s.mem root)
    (hrun : mapPageFrom env v upperLevels root s = .ok (-ENOMEM, s')) (vs : List Uintptr) :
    served s.mem root (v :: vs) = 0 := by
  cases ht : tableOf s.mem root (path v) with
  | none => exact served_cons_of_none vs ht
  | some t =>
      rw [mapPageFrom_of_tableOf ha hwf ht upperLevels [] root rfl rfl] at hrun
      exact absurd (mapPageFrom_leaf ha hwf ht hrun).1 neg_ENOMEM_ne_zero

/-- A leaf that holds a frame. -/
theorem NoInvalidLeaf.map {m m' : Mem} {v : Uintptr} {i : PageIdx} {flags : PageFlags}
    (hno : NoInvalidLeaf m root) (hi : i ≠ INVALID_PAGE_IDX)
    (hleaf : ∀ w, leafOf m' root w
      = if pageOf w = pageOf v then some (leafEntry flags i) else leafOf m root w) :
    NoInvalidLeaf m' root := by
  intro w e he
  rw [hleaf w] at he
  split at he
  · rw [← Option.some.inj he, base_leafEntry]
    exact hi
  · exact hno w e he

/-- The frames that a list of pages draws, and whether one of them is no frame. -/
theorem mapPagesFrom_noInvalid (hsup : Supplies env.pacc free hist) (ha : Answers env.mapped) :
    ∀ (vs : List Uintptr) (s s' : Machine σ) (r : Status), Ready free root s →
      (vs.map pageOf).Nodup → mapPagesFrom env upperLevels root vs s = .ok (r, s') →
      ∃ gs, (∀ fs, hist s.ctx fs → hist s'.ctx (fs ++ gs)) ∧
        (r = 0 ∧ gs.length = vs.length ∨ r = -ENOMEM ∧ gs.length < vs.length) ∧
        (Refuses env → gs.length = served s.mem root vs) ∧
        (NoInvalidLeaf s.mem root → (NoInvalidLeaf s'.mem root ↔ INVALID_PAGE_IDX ∉ gs)) := by
  intro vs
  induction vs with
  | nil =>
      intro s s' r _ _ hrun
      cases hrun
      exact ⟨[], fun fs hfs => by rwa [List.append_nil], .inl ⟨rfl, rfl⟩, fun _ => rfl,
        fun hno => by simp [hno]⟩
  -- The frames of the later pages are those of the induction, behind the one that `v` takes.
  | cons v vs ih =>
      intro s s' r h hnd hrun
      rw [List.map_cons, List.nodup_cons] at hnd
      obtain ⟨⟨r1, s1⟩, hpage, hrun⟩ := Loop.exists_of_bind hrun
      have h1 := (mapPageFrom_spec hsup ha v upperLevels [] root s r1 s1 rfl h rfl hpage).ready
      rcases mapPageFrom_leafOf hsup ha h hpage with ⟨rfl, i, hhist, hleaf⟩ | ⟨rfl, hhist, hleaf⟩
      · obtain ⟨gs, hgs, hres, hserved, hiff⟩ := ih s1 s' r h1 hnd.2 hrun
        refine ⟨i :: gs, fun fs hfs => ?_, ?_, fun hno => ?_, fun hno => ?_⟩
        · rw [List.append_cons]
          exact hgs _ (hhist fs hfs)
        · rcases hres with ⟨hr, hlen⟩ | ⟨hr, hlen⟩
          · exact .inl ⟨hr, by simp [hlen]⟩
          · exact .inr ⟨hr, by simpa using hlen⟩
        · rw [served_of_mapped hno ha h.wf hpage, List.length_cons, hserved hno]
        · -- A leaf that holds a real frame leaves the question to the later pages.
          have hv := hleaf v
          rw [if_pos rfl] at hv
          by_cases hi : i = INVALID_PAGE_IDX
          · -- The leaf of `v` stays what it is now.
            obtain ⟨us, hedit, hpre, -⟩ := mapPagesFrom_edits hsup ha vs s1 r s' h1 hrun
            have hkeep := hedit.leafOf_other h1.wf (w := v) fun u hu heq =>
              hnd.1 (heq ▸ List.mem_map_of_mem (hpre.subset hu))
            rw [hv] at hkeep
            refine ⟨fun hno' => absurd hi ?_, fun hmem => absurd (by simp [hi]) hmem⟩
            simpa using hno' v _ hkeep
          · rw [hiff (hno.map hi hleaf), List.mem_cons, not_or]
            exact ⟨fun hmem => ⟨fun heq => hi heq.symm, hmem⟩, fun hmem => hmem.2⟩
      · -- The first page was refused, so the call ends before any leaf is written.
        dsimp only at hrun
        rw [if_pos neg_ENOMEM_ne_zero] at hrun
        cases hrun
        refine ⟨[], fun fs hfs => by rw [List.append_nil]; exact hhist fs hfs,
          .inr ⟨rfl, by simp⟩, fun _ => ?_, fun hno => ?_⟩
        · rw [served_of_refused ha h.wf hpage, List.length_nil]
        · simp only [NoInvalidLeaf, hleaf, List.not_mem_nil, not_false_eq_true, iff_true]
          exact hno

end Leaves

/-! ### The list accessor -/

section List

variable {cpu : Nat} {left : Nat}

/-- `page_frames_array` is not so long that it has an element `INVALID_PAGE_IDX`: no list
leads there, and no cache counts so many frames. -/
structure RealLists (c : PageLists) : Prop where
  links : ∀ p, c.links.next p ≠ some (.frame INVALID_PAGE_IDX)
  counts : ∀ k, (c.caches k).numFreePages ≠ INVALID_PAGE_IDX

/-- What a list accessor with `left` pages yields: frames, and no frame from then on. -/
structure ListHist (left : Nat) (c : ListPaCtx × CacheState cpu) (fs : List PageIdx) : Prop where
  lists : RealLists c.2.lists
  curr : c.1.curr ≠ some (.frame INVALID_PAGE_IDX)
  pagesLeft : c.1.pagesLeft.toNat = left - fs.length
  frames : ∀ (i : Nat) (x : PageIdx), fs[i]? = some x → (x = INVALID_PAGE_IDX ↔ left ≤ i)

/-- So what is read for the number of a frame is not that one. -/
theorem RealLists.containerOf_ne {c : PageLists} (h : RealLists c) {l : ListPtr} {i : PageIdx}
    (hl : l ≠ .frame INVALID_PAGE_IDX) (hi : containerOf c.caches l = .ok i) :
    i ≠ INVALID_PAGE_IDX := by
  cases l with
  | frame idx =>
      cases hi
      exact fun heq => hl (congrArg _ heq)
  | cachePages cpu =>
      cases hi
      exact h.counts cpu
  | pages z => cases hi
  | reservedPages z => cases hi

/-- Taking a page off a list makes no invalid index appear on it. -/
theorem RealLists.unlink {c : PageLists} (h : RealLists c) {x p n : ListPtr}
    (hn : c.links.next x = some n) (y : ListPtr) :
    (c.links.unlink x p n).next y ≠ some (.frame INVALID_PAGE_IDX) := by
  simp only [Ring.Links.unlink, Ring.next_setPrev, Ring.next_setNext]
  split
  · exact (Option.some_ne_none _).symm
  · split
    · rw [← hn]
      exact h.links x
    · exact h.links y

/-- Taking a page from the cache keeps that: a counter only goes down to zero. -/
theorem RealLists.takePage {c c' : PageLists} {o : Option PageIdx} (h : RealLists c)
    (htake : takePage cpu c = .ok (o, c')) : RealLists c' := by
  unfold MString.takePage at htake
  split at htake
  · case isTrue hpos =>
      split at htake
      · cases htake
      · case h_2 l hl =>
          obtain ⟨links, hdel, htake⟩ := Loop.exists_of_bind htake
          obtain ⟨page, -, htake⟩ := Loop.exists_of_bind htake
          cases htake
          constructor
          -- The links of one node are taken out.
          case links =>
            intro y
            unfold listDel at hdel
            split at hdel
            · cases hdel
            · cases hdel
            · case h_3 n q hn hq =>
                cases hdel
                exact h.unlink hn y
          case counts =>
            intro k
            dsimp only
            by_cases hk : k = cpu
            · -- The counter was positive, so it does not go below zero.
              rw [hk, Function.update_self]
              intro heq
              rw [gt_iff_lt, BitVec.lt_def, show (0 : PageIdx).toNat = 0 from rfl] at hpos
              have hlt := (c.caches cpu).numFreePages.isLt
              have hsub := congrArg BitVec.toNat heq
              rw [BitVec.toNat_sub, show (1 : PageIdx).toNat = 1 from rfl,
                show INVALID_PAGE_IDX.toNat = 2 ^ 32 - 1 from rfl] at hsub
              omega
            · rw [Function.update_of_ne hk]
              exact h.counts k
  · cases htake
    exact h

/-- A call of the allocator leaves its lists alone or takes a page. -/
theorem cacheAllocator_lists {f : PageFlags} {clean : Bool} {s t : Machine (CacheState cpu)}
    {o : Option PageIdx} (h : cacheAllocator cpu f clean s = .ok (o, t)) :
    t.ctx.lists = s.ctx.lists ∨ ∃ o', takePage cpu s.ctx.lists = .ok (o', t.ctx.lists) := by
  unfold cacheAllocator at h
  split at h
  · cases h
  · cases h
    exact .inl rfl
  · case h_3 pf u hu =>
      cases h
      refine .inr ?_
      unfold allocPage at hu
      split at hu
      · cases hu
      · obtain ⟨⟨o', c'⟩, htake, hu⟩ := Loop.exists_of_bind hu
        dsimp only at hu
        split at hu
        · obtain ⟨m, -, hu⟩ := Loop.exists_of_bind hu
          cases hu
          exact ⟨_, htake⟩
        · cases hu
          exact ⟨_, htake⟩

/-- A frame that is allocated for a table leaves the accessor's own list as it is. -/
theorem ListHist.alloc {f : PageFlags} {s t : Machine (ListPaCtx × CacheState cpu)}
    {o : Option PageIdx} {fs : List PageIdx} (h : ListHist left s.ctx fs)
    (hrun : (stubAccessor (listCalls cpu)).allocPage f true s = .ok (o, t)) :
    ListHist left t.ctx fs := by
  obtain ⟨u, halloc, rfl⟩ := stubAccessor_alloc hrun
  refine ⟨?_, h.curr, h.pagesLeft, h.frames⟩
  rcases cacheAllocator_lists halloc with hlists | ⟨o', htake⟩
  · show RealLists u.ctx.lists
    rw [hlists]
    exact h.lists
  · exact h.lists.takePage htake

/-- One call of `list_pa_next_frame`. -/
theorem ListHist.next {c c' : ListPaCtx × CacheState cpu} {i : PageIdx} {fs : List PageIdx}
    (h : ListHist left c fs)
    (hrun : (stubAccessor (listCalls cpu)).nextFrame c = .ok (i, c')) :
    ListHist left c' (fs ++ [i]) := by
  obtain ⟨⟨j, x⟩, hnext, hret⟩ := Loop.exists_of_bind hrun
  cases hret
  -- It is enough to say of the new frame whether it is the invalid one. The others are as
  -- before.
  have hlast : (i = INVALID_PAGE_IDX ↔ left ≤ fs.length) →
      ∀ (k : Nat) (y : PageIdx), (fs ++ [i])[k]? = some y → (y = INVALID_PAGE_IDX ↔ left ≤ k) := by
    intro hi k y hy
    rcases Nat.lt_trichotomy k fs.length with hk | rfl | hk
    · rw [List.getElem?_append_left hk] at hy
      exact h.frames k y hy
    · simp only [List.getElem?_concat_length, Option.some.injEq] at hy
      rw [← hy]
      exact hi
    · rw [List.getElem?_eq_none (by simp; omega)] at hy
      cases hy
  have hleft := h.pagesLeft
  change listPaNextFrame c.2.lists c.1 = .ok (i, x) at hnext
  unfold listPaNextFrame at hnext
  split at hnext
  · case isTrue hpos =>
      have hpos' : c.1.pagesLeft.toNat ≠ 0 := fun h0 => hpos (BitVec.eq_of_toNat_eq h0)
      split at hnext
      · cases hnext
      · case h_2 curr hcurr =>
          obtain ⟨f, hf, hnext⟩ := Loop.exists_of_bind hnext
          cases hnext
          refine ⟨h.lists, h.lists.links curr, ?_, hlast ⟨fun hi => ?_, fun hle => by omega⟩⟩
          · show (c.1.pagesLeft - 1).toNat = _
            rw [BitVec.toNat_sub, List.length_append, List.length_singleton,
              show (1 : PageIdx).toNat = 1 from rfl]
            omega
          · -- The frame is the one that `curr` is in.
            refine absurd hi (h.lists.containerOf_ne (fun heq => h.curr ?_) hf)
            rw [hcurr, heq]
  · case isFalse hzero =>
      -- An exhausted accessor yields the invalid index, and it stays exhausted.
      have hzero' : c.1.pagesLeft.toNat = 0 := by
        rw [not_not.mp hzero]
        rfl
      cases hnext
      refine ⟨h.lists, h.curr, ?_, hlast ⟨fun _ => by omega, fun _ => rfl⟩⟩
      show c.1.pagesLeft.toNat = _
      rw [List.length_append, List.length_singleton]
      omega

/-- The list accessor's calls supply frames as a mapping needs them. -/
theorem supplies_listStub :
    Supplies (stubAccessor (listCalls cpu)) (fun c pf => pf ∈ c.2.pages) (ListHist left) where
  some h := by
    obtain ⟨hfree, hmem, -, hrest⟩ := supplies_stubAccessor.some h
    exact ⟨hfree, hmem, fun _ hfs => hfs.alloc h, hrest⟩
  none h := by
    obtain ⟨hmem, -, hrest⟩ := supplies_stubAccessor.none h
    exact ⟨hmem, fun _ hfs => hfs.alloc h, hrest⟩
  next h := ⟨fun _ hfs => hfs.next h, (supplies_stubAccessor.next h).2⟩

/-- There is a non-frame among the frames drawn exactly when there are too many. -/
theorem ListHist.invalid_iff {c : ListPaCtx × CacheState cpu} {gs : List PageIdx}
    (h : ListHist left c gs) : INVALID_PAGE_IDX ∉ gs ↔ gs.length ≤ left := by
  constructor
  · intro hno
    by_contra hlen
    have hlt : left < gs.length := by omega
    have hget := List.getElem?_eq_getElem hlt
    exact hno ((h.frames left _ hget).mpr le_rfl ▸ List.getElem_mem hlt)
  · intro hlen hmem
    obtain ⟨i, hi⟩ := List.mem_iff_getElem?.mp hmem
    have hle := (h.frames i _ hi).mp rfl
    have := (List.getElem?_eq_some_iff.mp hi).1
    omega

/-! ### Calls with a list accessor -/

/-- The pages that one call visits are different ones. -/
theorem nodup_visited {v e : Uintptr} (hv : v.toNat % 4096 = 0) (hle : v.toNat ≤ e.toNat) :
    ((pagesFrom v (visited v e)).map pageOf).Nodup := by
  have hto := @toNat_l4ToAddr v e hv
  have hlt := e.isLt
  have hvlt := v.isLt
  unfold visited
  by_cases hev : e = v
  · rw [if_pos hev]
    exact nodup_pagesFrom (by omega) (by omega)
  · rw [if_neg hev]
    refine nodup_pagesFrom ?_ ?_
    · split at hto <;> omega
    · split at hto <;> omega

/-- The pages that a call takes up: those it visits, or, for a range that runs over, those
up to the top. -/
def reached (v e : Uintptr) : Nat := if Overruns v e then topPages v else visited v e

/-- They are different ones, too. -/
theorem nodup_reached {v e : Uintptr} (hv : v.toNat % 4096 = 0) (hle : v.toNat ≤ e.toNat) :
    ((pagesFrom v (reached v e)).map pageOf).Nodup := by
  unfold reached
  by_cases hover : Overruns v e
  · rw [if_pos hover]
    exact nodup_topPages hv hover.1
  · rw [if_neg hover]
    exact nodup_visited hv hle

/-- How many of these pages a call maps, when the page cache lasts: with `PF_KERNEL_PAGE`
it gets no page for a table and stops in front of the first page that lacks one. -/
def mappable (m : Mem) (root virt n : Uintptr) (flags : PageFlags) : Nat :=
  if flags &&& PF_KERNEL_PAGE = 0 then
    reached (virt &&& PAGE_ADDR_MASK) (virt + n * PAGE_SIZE)
  else served m root (pagesFrom (virt &&& PAGE_ADDR_MASK)
    (reached (virt &&& PAGE_ADDR_MASK) (virt + n * PAGE_SIZE)))

/-- The range runs over and all the pages up to the top are mapped, so the call goes on
behind its table. -/
def RunsBeyond (m : Mem) (root virt n : Uintptr) (flags : PageFlags) : Prop :=
  Overruns (virt &&& PAGE_ADDR_MASK) (virt + n * PAGE_SIZE) ∧
    mappable m root virt n flags = topPages (virt &&& PAGE_ADDR_MASK)

variable {root virt n : Uintptr} {flags : PageFlags} {r : Status}
  {s s' : Machine (ListPaCtx × CacheState cpu)}

/-- The list has a frame for every page that the call maps, and the call does not go on
behind its table. -/
def ListSuffices (s : Machine (ListPaCtx × CacheState cpu)) (root virt n : Uintptr)
    (flags : PageFlags) : Prop :=
  Refused ⟨root⟩ virt n ∨
    ¬ RunsBeyond s.mem root virt n flags ∧
      mappable s.mem root virt n flags ≤ s.ctx.1.pagesLeft.toNat

/-- The call leaves no leaf without a frame, and does not answer success for a list that is
too short. -/
def NoInvalidCall (s : Machine (ListPaCtx × CacheState cpu)) (root virt n : Uintptr) (r : Status)
    (m' : Mem) : Prop :=
  NoInvalidLeaf m' root ∧
    (s.ctx.1.pagesLeft.toNat < visited (virt &&& PAGE_ADDR_MASK) (virt + n * PAGE_SIZE) → r ≠ 0)

/-- A run that does not go on behind its table maps the pages it takes up one by one. -/
theorem mapPagesFrom_of_run (h : Ready (fun c pf => pf ∈ c.2.pages) root s)
    (hrefused : ¬ Refused ⟨root⟩ virt n) (hbeyond : ¬ RunsBeyond s.mem root virt n flags)
    (hrun : mmMapPages kernelWindow (some ⟨root⟩) (some (stubAccessor (listCalls cpu))) virt n
      flags s = .ok (r, s')) :
    mapPagesFrom ⟨kernelWindow, stubAccessor (listCalls cpu), flags⟩ upperLevels root
      (pagesFrom (virt &&& PAGE_ADDR_MASK)
        (reached (virt &&& PAGE_ADDR_MASK) (virt + n * PAGE_SIZE))) s = .ok (r, s') := by
  have hsup := @supplies_listStub cpu s.ctx.1.pagesLeft.toNat
  by_cases hover : Overruns (virt &&& PAGE_ADDR_MASK) (virt + n * PAGE_SIZE)
  · obtain ⟨t, k, -, -, hcall⟩ := @mmMapPages_top _ _ _ root _ _ virt n flags hsup
      answers_kernelWindow s h hrefused hover
    rw [hcall] at hrun
    obtain ⟨⟨r1, s1⟩, hmap, hrest⟩ := Loop.exists_of_bind hrun
    obtain ⟨gs, -, hres, hserved, -⟩ := @mapPagesFrom_noInvalid _
      ⟨kernelWindow, stubAccessor (listCalls cpu), flags⟩ _ _ root hsup answers_kernelWindow _ s s1
      r1 h (nodup_topPages (page_aligned virt) hover.1) hmap
    rw [reached, if_pos hover]
    rcases hres with ⟨rfl, hlen⟩ | ⟨rfl, -⟩
    · -- A call that maps all the pages up to the top goes on.
      refine absurd ⟨hover, ?_⟩ hbeyond
      rw [length_pagesFrom] at hlen
      rw [mappable, reached, if_pos hover]
      by_cases hkernel : flags &&& PF_KERNEL_PAGE = 0
      · rw [if_pos hkernel]
      · rw [if_neg hkernel, ← hserved (refuses_stubAccessor hkernel), hlen]
    · -- One that is refused a table before that ends there.
      dsimp only at hrest
      rw [if_pos neg_ENOMEM_ne_zero] at hrest
      cases hrest
      exact hmap
  · rw [mmMapPages_eq hsup answers_kernelWindow h hrefused hover] at hrun
    rw [reached, if_neg hover]
    exact hrun

/-- The calls that are not refused and do not go on behind their table. -/
theorem noInvalidCall_iff (h : Ready (fun c pf => pf ∈ c.2.pages) root s)
    (hlists : RealLists s.ctx.2.lists)
    (hcurr : s.ctx.1.curr ≠ some (.frame INVALID_PAGE_IDX)) (hno : NoInvalidLeaf s.mem root)
    (hrefused : ¬ Refused ⟨root⟩ virt n) (hbeyond : ¬ RunsBeyond s.mem root virt n flags)
    (hrun : mmMapPages kernelWindow (some ⟨root⟩)
      (some (pageaccsListPa CacheState.lists (cacheAllocator cpu))) virt n flags s
        = .ok (r, s')) :
    NoInvalidCall s root virt n r s'.mem ↔
      mappable s.mem root virt n flags ≤ s.ctx.1.pagesLeft.toNat := by
  rw [pageaccsListPa_eq_stub] at hrun
  have hstart : ListHist s.ctx.1.pagesLeft.toNat s.ctx [] :=
    ⟨hlists, hcurr, rfl, fun i x hx => by simp at hx⟩
  have hsup := @supplies_listStub cpu s.ctx.1.pagesLeft.toNat
  have hpages := mapPagesFrom_of_run h hrefused hbeyond hrun
  obtain ⟨gs, hgs, hres, hserved, hiff⟩ := @mapPagesFrom_noInvalid _
    ⟨kernelWindow, stubAccessor (listCalls cpu), flags⟩ _ _ root hsup answers_kernelWindow _ s s' r
    h (nodup_reached (page_aligned virt) (page_le_end hrefused)) hpages
  rw [length_pagesFrom] at hres
  -- A call that answers success does not run over, so the pages are those it visits.
  have hzero : r = 0 →
      gs.length = visited (virt &&& PAGE_ADDR_MASK) (virt + n * PAGE_SIZE) := by
    rintro rfl
    have hover : ¬ Overruns (virt &&& PAGE_ADDR_MASK) (virt + n * PAGE_SIZE) := fun hover =>
      neg_ENOMEM_ne_zero (mmMapPages_overruns hsup h hrefused hover hrun).symm
    have hlen := (hres.resolve_right fun hne => neg_ENOMEM_ne_zero hne.1.symm).2
    rwa [reached, if_neg hover] at hlen
  -- The frames that the call drew are invalid exactly where it drew more than the list had.
  have hframes := (hgs [] hstart).invalid_iff
  rw [List.nil_append] at hframes
  have hcall : NoInvalidCall s root virt n r s'.mem ↔
      gs.length ≤ s.ctx.1.pagesLeft.toNat := by
    rw [NoInvalidCall, hiff hno, hframes]
    exact ⟨fun hle => hle.1, fun hle => ⟨hle, fun hlt hr => by have := hzero hr; omega⟩⟩
  rw [hcall, mappable]
  by_cases hkernel : flags &&& PF_KERNEL_PAGE = 0
  · -- Without the flag the call does not run out of tables, so it maps all pages.
    rw [if_pos hkernel]
    rcases hres with ⟨-, hlen⟩ | ⟨rfl, -⟩
    · rw [hlen]
    · exact absurd hrun (mmMapPages_stub_ne hkernel)
  · -- With the flag no table is allocated, so the pages that are mapped are those that are
    -- served.
    rw [if_neg hkernel, ← hserved (refuses_stubAccessor hkernel)]

/-- A call leaves no leaf without a frame when the list has one for every page that it maps
and it does not go on behind its table; of the calls that do not go on, only these. -/
theorem noInvalid_when (h : Ready (fun c pf => pf ∈ c.2.pages) root s)
    (hlists : RealLists s.ctx.2.lists)
    (hcurr : s.ctx.1.curr ≠ some (.frame INVALID_PAGE_IDX)) (hno : NoInvalidLeaf s.mem root)
    (hrun : mmMapPages kernelWindow (some ⟨root⟩)
      (some (pageaccsListPa CacheState.lists (cacheAllocator cpu))) virt n flags s
        = .ok (r, s')) :
    (ListSuffices s root virt n flags → NoInvalidCall s root virt n r s'.mem) ∧
      (¬ RunsBeyond s.mem root virt n flags →
        (NoInvalidCall s root virt n r s'.mem ↔ ListSuffices s root virt n flags)) := by
  by_cases hrefused : Refused ⟨root⟩ virt n
  · simp only [mmMapPages, if_pos hrefused, Except.ok.injEq, Prod.mk.injEq] at hrun
    obtain ⟨rfl, rfl⟩ := hrun
    have hcall : NoInvalidCall s root virt n (-EINVAL) s.mem := ⟨hno, fun _ => neg_EINVAL_ne_zero⟩
    exact ⟨fun _ => hcall, fun _ => iff_of_true hcall (.inl hrefused)⟩
  · refine ⟨fun hsuff => ?_, fun hbeyond => ?_⟩
    · obtain ⟨hbeyond, hle⟩ := hsuff.resolve_left hrefused
      exact (noInvalidCall_iff h hlists hcurr hno hrefused hbeyond hrun).mpr hle
    · rw [noInvalidCall_iff h hlists hcurr hno hrefused hbeyond hrun, ListSuffices,
        or_iff_right hrefused, and_iff_right hbeyond]

end List

/-- The empty directory with a list accessor for a ring of one frame, frame 7. -/
def listDirectory : Machine (ListPaCtx × CacheState 0) where
  mem := fun _ => .zero
  ctx := (⟨7, some (.frame 7), 1, 1⟩,
    ⟨⟨initListHead (cacheOf 0 [2, 3, 4]).links (.frame 7), (cacheOf 0 [2, 3, 4]).caches⟩, [2, 3, 4],
      { ring := by
          refine (cacheHolds_cacheOf (by decide) (by decide)).ring.congr ?_ ?_
          · decide
          · decide
        nodup := by decide
        count := by decide }⟩)

/-- The directory of the example is fit for a mapping. -/
theorem ready_listDirectory : Ready (fun c pf => pf ∈ c.2.pages) EMPTY_ROOT listDirectory :=
  ⟨ready_emptyDirectory.wf, ready_emptyDirectory.low, ready_emptyDirectory.fresh⟩

/-- Its lists hold real frames. -/
theorem realLists_listDirectory : RealLists listDirectory.ctx.2.lists where
  links p := by
    simp only [listDirectory, initListHead, cacheOf, Ring.Links.insertAll, Ring.Links.insert,
      List.map_cons, List.map_nil, Ring.next_setPrev, Ring.next_setNext]
    split_ifs <;> decide
  counts _ := show (BitVec.ofNat 32 3 : PageIdx) ≠ INVALID_PAGE_IDX by decide

/-- And it has no leaf yet. -/
theorem noInvalidLeaf_empty : NoInvalidLeaf listDirectory.mem EMPTY_ROOT := by
  intro v e he
  unfold leafOf at he
  split at he
  · cases he
  · cases he

/-- One page and one frame for it. -/
theorem noInvalid_one :
    ∃ r s', mmMapPages kernelWindow (some ⟨EMPTY_ROOT⟩)
        (some (pageaccsListPa CacheState.lists (cacheAllocator 0))) 0x1000 1 0 listDirectory
          = .ok (r, s') ∧
      (ListSuffices listDirectory EMPTY_ROOT 0x1000 1 0 →
        NoInvalidCall listDirectory EMPTY_ROOT 0x1000 1 r s'.mem) ∧
      (NoInvalidCall listDirectory EMPTY_ROOT 0x1000 1 r s'.mem ↔
        ListSuffices listDirectory EMPTY_ROOT 0x1000 1 0) := by
  obtain ⟨s', hrun⟩ := Loop.exists_of_map_fst (a := (0 : Status)) (x :=
    mmMapPages kernelWindow (some ⟨EMPTY_ROOT⟩)
      (some (pageaccsListPa CacheState.lists (cacheAllocator 0))) 0x1000 1 0 listDirectory)
    (by decide +kernel)
  have hwhen := noInvalid_when ready_listDirectory realLists_listDirectory (by decide)
    noInvalidLeaf_empty hrun
  exact ⟨0, s', hrun, hwhen.1, hwhen.2 fun hbeyond => absurd hbeyond.1 (by decide)⟩

/-- Two pages and one frame: the call answers success. -/
theorem noInvalid_two :
    Ready (fun c pf => pf ∈ c.2.pages) EMPTY_ROOT listDirectory ∧
      NoInvalidLeaf listDirectory.mem EMPTY_ROOT ∧
      ∃ s', mmMapPages kernelWindow (some ⟨EMPTY_ROOT⟩)
          (some (pageaccsListPa CacheState.lists (cacheAllocator 0))) 0x1000 2 0
            listDirectory = .ok (0, s') ∧ ¬ NoInvalidLeaf s'.mem EMPTY_ROOT := by
  obtain ⟨⟨r, s'⟩, hrun, hrest⟩ := Loop.exists_of_bind (b := ((0 : Status), some INVALID_PAGE_IDX))
    (x := mmMapPages kernelWindow (some ⟨EMPTY_ROOT⟩)
      (some (pageaccsListPa CacheState.lists (cacheAllocator 0))) 0x1000 2 0 listDirectory)
    (f := fun x => pure (x.1, (leafOf x.2.mem EMPTY_ROOT 0x2000).map TlbEntry.base))
    (by decide +kernel)
  have hpair := Except.ok.inj hrest
  obtain ⟨rfl, hleaf⟩ := Prod.mk.inj hpair
  refine ⟨ready_listDirectory, noInvalidLeaf_empty, s', hrun, fun hno => ?_⟩
  obtain ⟨e, he, hbase⟩ := Option.map_eq_some_iff.mp hleaf
  exact hno 0x2000 e he hbase

end MString
