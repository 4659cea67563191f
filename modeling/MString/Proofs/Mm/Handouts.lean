import MString.Proofs.Mm.Iterators
import MString.Proofs.Mm.PageAccs
import MString.Proofs.Mm.SideBySide

/-!
# `MString.Proofs.Mm.Handouts`: frames that are handed out

`HandsOut` is the contract of `alloc_page` towards callers that link the frames they get:
it holds in the states that satisfy an invariant, and the allocator and its callers do not
look at each other's links. `handsOut_allocPage` shows that the kernel's allocator keeps it.

An accessor promises something in every state (`Supplies`), so the allocator is lifted to
the states that carry the invariant. `mmMapPages_lift` takes a call of `mm_map_pages` there,
and `supplies_ringPa` says that the list accessor yields a ring of frames that are handed
out.
-/

set_option autoImplicit false

namespace MString

open Lockstep

/-- From a state with `inv`, `alloc_page` hands out frames that are free, cleaned when asked,
and never one twice. It leaves the links of the other frames alone, and does not mind what
becomes of them. -/
structure HandsOut (alloc : PageAllocator PageLists) (inv : PageLists → Prop)
    (free : PageLists → PageIdx → Prop) : Prop where
  keeps : ∀ {flags clean s o s'}, inv s.ctx → alloc flags clean s = .ok (o, s') → inv s'.ctx
  some : ∀ {flags clean s pf s'}, inv s.ctx → alloc flags clean s = .ok (some pf, s') →
    free s.ctx pf ∧ s'.mem = (if clean then s.mem.clean pf else s.mem) ∧
      ∀ x, free s'.ctx x → free s.ctx x ∧ x ≠ pf
  none : ∀ {flags clean s s'}, inv s.ctx → alloc flags clean s = .ok (none, s') →
    s'.mem = s.mem ∧ ∀ x, free s'.ctx x → free s.ctx x
  links : ∀ {flags clean s o s'}, inv s.ctx → alloc flags clean s = .ok (o, s') →
    ∀ x, ¬ free s.ctx x → s'.ctx.links.next (.frame x) = s.ctx.links.next (.frame x) ∧
      s'.ctx.links.prev (.frame x) = s.ctx.links.prev (.frame x)
  relink : ∀ {c : PageLists} {links : ListHeads ListPtr}, inv c →
    (∀ l, (∀ x, l = .frame x → free c x) →
      links.next l = c.links.next l ∧ links.prev l = c.links.prev l) →
    inv ⟨links, c.caches⟩ ∧ ∀ x, free ⟨links, c.caches⟩ x → free c x

/-! ### The kernel's allocator -/

section Kernel

variable {cpu : Nat}

/-- The cache of `cpu` is intact. -/
def CacheIntact (cpu : Nat) (c : PageLists) : Prop := ∃ qs, CacheHolds cpu c qs

/-- The frame is in the cache of `cpu`. -/
def InCache (cpu : Nat) (c : PageLists) (x : PageIdx) : Prop := ∃ qs, CacheHolds cpu c qs ∧ x ∈ qs

/-- A cache holds one list. -/
theorem CacheHolds.eq {c : PageLists} {ps qs : List PageIdx} (h : CacheHolds cpu c ps)
    (h' : CacheHolds cpu c qs) : ps = qs := by
  have hmap := Ring.IsRing.unique h.ring h'.ring (by simp) (by simp)
  exact List.map_injective_iff.mpr (fun a b hab => ListPtr.frame.inj hab) hmap

/-- Its members are the pages in the cache. -/
theorem inCache_iff {c : PageLists} {qs : List PageIdx} (h : CacheHolds cpu c qs) (x : PageIdx) :
    InCache cpu c x ↔ x ∈ qs :=
  ⟨fun ⟨_, h', hx⟩ => h'.eq h ▸ hx, fun hx => ⟨qs, h, hx⟩⟩

/-- Taking a page leaves the links of the frames outside the cache alone. -/
theorem takePage_links {c c' : PageLists} {o : Option PageIdx} {qs : List PageIdx}
    (h : CacheHolds cpu c qs) (hrun : takePage cpu c = .ok (o, c')) (x : PageIdx) (hx : x ∉ qs) :
    c'.links.next (.frame x) = c.links.next (.frame x) ∧
      c'.links.prev (.frame x) = c.links.prev (.frame x) := by
  cases qs with
  | nil =>
      rw [takePage_nil h] at hrun
      cases hrun
      exact ⟨rfl, rfl⟩
  | cons q qs =>
      have hpos : (c.caches cpu).numFreePages > 0 := by
        rw [gt_iff_lt, BitVec.lt_def, h.count]
        simp
      have hnext := h.ring.next
      have hdel := @listDel_ring _ _ _ _ _ [] _ h.ring
      simp only [List.map_cons, List.headD_cons] at hnext
      simp only [takePage, if_pos hpos, hnext, hdel, containerOf, Loop.ok_bind] at hrun
      cases hrun
      have hq : ListPtr.frame x ≠ .frame q := fun he => hx (by simp [ListPtr.frame.inj he])
      have hn : ListPtr.frame x ≠ (qs.map ListPtr.frame).headD (.cachePages cpu) := by
        cases qs with
        | nil => simp
        | cons n qs => exact fun he => hx (by simp [ListPtr.frame.inj he])
      generalize (qs.map ListPtr.frame).headD (.cachePages cpu) = n at hn ⊢
      simp [Ring.Links.unlink, hq, hn]

/-- A call of `alloc_page` takes a page, or none, and cleans it when asked. -/
theorem allocPage_cases {flags : PageFlags} {clean : Bool} {s s' : Machine PageLists}
    {o : Option PageIdx} (hrun : allocPage cpu flags clean s = .ok (o, s')) :
    s'.ctx = s.ctx ∨ takePage cpu s.ctx = .ok (o, s'.ctx) := by
  unfold allocPage at hrun
  split at hrun
  · cases hrun
    exact .inl rfl
  · obtain ⟨⟨page, c⟩, htake, hrun⟩ := Loop.exists_of_bind hrun
    dsimp only at hrun
    split at hrun
    · obtain ⟨m, -, hrun⟩ := Loop.exists_of_bind hrun
      cases hrun
      exact .inr htake
    · cases hrun
      exact .inr htake

/-- `alloc_page` hands out pages of an intact cache. -/
theorem handsOut_allocPage (cpu : Nat) :
    HandsOut (allocPage cpu) (CacheIntact cpu) (InCache cpu) where
  keeps := by
    rintro flags clean s o s' ⟨qs, h⟩ hrun
    rcases allocPage_cacheState (c := ⟨s.ctx, qs, h⟩) hrun with ⟨-, rfl⟩ | ⟨q, ps, -, -, hc, -⟩
    · exact ⟨qs, h⟩
    · exact ⟨ps, hc⟩
  some := by
    rintro flags clean s pf s' ⟨qs, h⟩ hrun
    rcases allocPage_cacheState (c := ⟨s.ctx, qs, h⟩) hrun with ⟨hpf, -⟩ | ⟨q, ps, hpf, hp, hc, hm⟩
    · cases hpf
    · cases hpf
      obtain rfl : qs = pf :: ps := hp
      refine ⟨⟨_, h, List.mem_cons_self⟩, hm, fun x hx => ?_⟩
      rw [inCache_iff hc] at hx
      refine ⟨⟨_, h, List.mem_cons_of_mem _ hx⟩, ?_⟩
      rintro rfl
      exact (List.nodup_cons.mp h.nodup).1 hx
  none := by
    rintro flags clean s s' ⟨qs, h⟩ hrun
    rcases allocPage_cacheState (c := ⟨s.ctx, qs, h⟩) hrun with ⟨-, rfl⟩ | ⟨q, ps, hpf, -⟩
    · exact ⟨rfl, fun x hx => hx⟩
    · cases hpf
  links := by
    rintro flags clean s o s' ⟨qs, h⟩ hrun x hx
    rcases allocPage_cases hrun with heq | htake
    · rw [heq]
      exact ⟨rfl, rfl⟩
    · exact takePage_links h htake x fun hmem => hx ((inCache_iff h x).mpr hmem)
  relink := by
    rintro c links ⟨qs, h⟩ hagree
    -- The cache's ring has only its head and the frames in it, which no caller relinks.
    have hnode : ∀ l ∈ (ListPtr.cachePages cpu) :: qs.map ListPtr.frame,
        links.next l = c.links.next l ∧ links.prev l = c.links.prev l := by
      intro l hl
      refine hagree l ?_
      rintro x rfl
      exact (inCache_iff h x).mpr (by simpa using hl)
    have h' : CacheHolds cpu ⟨links, c.caches⟩ qs :=
      ⟨h.ring.congr (fun l hl => (hnode l hl).1) fun l hl => (hnode l hl).2, h.nodup, h.count⟩
    exact ⟨⟨qs, h'⟩, fun x hx => (inCache_iff h x).mpr ((inCache_iff h' x).mp hx)⟩

end Kernel

/-! ### States that carry the invariant -/

section Lift

variable {alloc : PageAllocator PageLists} {inv : PageLists → Prop}
  {free : PageLists → PageIdx → Prop}

/-- The allocator on the states with the invariant. -/
def HandsOut.lift (h : HandsOut alloc inv free) : PageAllocator { c // inv c } :=
  fun flags clean s =>
    match hrun : alloc flags clean ⟨s.mem, s.ctx.1⟩ with
    | .error e => .error e
    | .ok (o, t) => .ok (o, ⟨t.mem, t.ctx, h.keeps s.ctx.2 hrun⟩)

/-- With the invariant carried along, the allocator fails where it did, ... -/
theorem HandsOut.lift_error (h : HandsOut alloc inv free) {flags : PageFlags} {clean : Bool}
    {s : Machine { c // inv c }} {e : Fault}
    (hrun : alloc flags clean ⟨s.mem, s.ctx.1⟩ = .error e) :
    h.lift flags clean s = .error e := by
  unfold HandsOut.lift
  split
  · case h_1 e' h' => rw [hrun] at h'; cases h'; rfl
  · case h_2 o t h' => rw [hrun] at h'; cases h'

/-- ... answers what it did ... -/
theorem HandsOut.lift_ok (h : HandsOut alloc inv free) {flags : PageFlags} {clean : Bool}
    {s : Machine { c // inv c }} {o : Option PageIdx} {t : Machine PageLists}
    (hrun : alloc flags clean ⟨s.mem, s.ctx.1⟩ = .ok (o, t)) :
    h.lift flags clean s = .ok (o, ⟨t.mem, t.ctx, h.keeps s.ctx.2 hrun⟩) := by
  unfold HandsOut.lift
  split
  · case h_1 e' h' => rw [hrun] at h'; cases h'
  · case h_2 o' t' h' =>
      rw [hrun] at h'
      cases h'
      rfl

/-- ... and nothing else. -/
theorem HandsOut.of_lift (h : HandsOut alloc inv free) {flags : PageFlags} {clean : Bool}
    {s t : Machine { c // inv c }} {o : Option PageIdx} (hrun : h.lift flags clean s = .ok (o, t)) :
    alloc flags clean ⟨s.mem, s.ctx.1⟩ = .ok (o, ⟨t.mem, t.ctx.1⟩) := by
  unfold HandsOut.lift at hrun
  split at hrun
  · cases hrun
  · case h_2 o' t' h' =>
      cases hrun
      exact h'

/-- So it is an allocator over the states with the invariant. -/
theorem HandsOut.allocates_lift (h : HandsOut alloc inv free) :
    Allocates h.lift (fun c => free c.1) where
  some hrun := h.some (Subtype.property _) (h.of_lift hrun)
  none hrun := h.none (Subtype.property _) (h.of_lift hrun)

/-- A context with its invariant forgotten. -/
def Forgets {γ : Type} (c : γ × PageLists) (c' : γ × { c // inv c }) : Prop :=
  c.1 = c'.1 ∧ c.2 = c'.2.1

/-- The walkers keep equal entries equal. -/
theorem indistinct_eq : Indistinct Eq where
  present h := by rw [h]
  table h := by rw [h]
  pdp3 _ _ _ h := by rw [h]
  pde2 _ _ _ h := by rw [h]

/-- The two allocators behind the stub. -/
theorem stub_alike {γ : Type} (h : HandsOut alloc inv free) (f : PageFlags)
    (s : Machine (γ × PageLists)) (s' : Machine (γ × { c // inv c })) (hs : Alike Eq Forgets s s') :
    Together Never (fun x => False ∧ x.1 = none) (fun x x' => x.1 = x'.1 ∧ Alike Eq Forgets x.2 x'.2)
      (pageaccsAllocPageStub alloc f true s) (pageaccsAllocPageStub h.lift f true s') := by
  have hmem : s.mem = s'.mem := funext hs.2
  have hctx : s.ctx.2 = s'.ctx.2.1 := hs.1.2
  unfold pageaccsAllocPageStub
  rw [hmem, hctx]
  cases hrun : alloc f true ⟨s'.mem, s'.ctx.2.1⟩ with
  | error e =>
      rw [h.lift_error (s := ⟨s'.mem, s'.ctx.2⟩) hrun]
      exact .error e
  | ok x =>
      rw [h.lift_ok (s := ⟨s'.mem, s'.ctx.2⟩) hrun]
      exact .ok ⟨rfl, ⟨hs.1.1, rfl⟩, fun _ => rfl⟩

/-- The two accessors go side by side, the linear one ... -/
theorem pairs_linearPa (h : HandsOut alloc inv free) (mapped : EntryPtr → Bool) (f : PageFlags) :
    Pairs Eq Forgets Never False ⟨mapped, pageaccsLinearPa alloc, f⟩
      ⟨mapped, pageaccsLinearPa h.lift, f⟩ where
  entries := indistinct_eq
  leaf _ := rfl
  mapped := rfl
  next c c' hc := by
    obtain ⟨x, c⟩ := c
    obtain ⟨x', c'⟩ := c'
    obtain ⟨rfl, rfl⟩ : x = x' ∧ c = c'.1 := hc
    exact .ok ⟨rfl, rfl, rfl⟩
  alloc := stub_alike h f

/-- ... and that of a list. -/
theorem pairs_listPa (h : HandsOut alloc inv free) (mapped : EntryPtr → Bool) (f : PageFlags) :
    Pairs Eq Forgets Never False ⟨mapped, pageaccsListPa id alloc, f⟩
      ⟨mapped, pageaccsListPa Subtype.val h.lift, f⟩ where
  entries := indistinct_eq
  leaf _ := rfl
  mapped := rfl
  next c c' hc := by
    obtain ⟨x, c⟩ := c
    obtain ⟨x', c'⟩ := c'
    obtain ⟨rfl, rfl⟩ : x = x' ∧ c = c'.1 := hc
    show Together _ _ _ (listPaNextFrame c'.1 x >>= _) (listPaNextFrame c'.1 x >>= _)
    cases listPaNextFrame c'.1 x with
    | error e => exact .error e
    | ok y => exact .ok ⟨rfl, rfl, rfl⟩
  alloc := stub_alike h f

/-- A call of `mm_map_pages`, on the states with the invariant. -/
theorem mmMapPages_lift {γ : Type} {mapped : EntryPtr → Bool} {f : PageFlags}
    {pacc : PageFrameAccessor (γ × PageLists)} {pacc' : PageFrameAccessor (γ × { c // inv c })}
    (h : Pairs Eq Forgets Never False ⟨mapped, pacc, f⟩ ⟨mapped, pacc', f⟩) {pd : PageDirectory}
    {virt n : Uintptr} {m : Mem} {x : γ} {c : PageLists} (hc : inv c) {r : Status}
    {s' : Machine (γ × PageLists)}
    (hrun : mmMapPages mapped (some pd) (some pacc) virt n f ⟨m, (x, c)⟩ = .ok (r, s')) :
    ∃ hc', mmMapPages mapped (some pd) (some pacc') virt n f ⟨m, (x, ⟨c, hc⟩)⟩
      = .ok (r, ⟨s'.mem, (s'.ctx.1, ⟨s'.ctx.2, hc'⟩)⟩) := by
  have hs : Alike Eq Forgets ⟨m, (x, c)⟩ (⟨m, (x, ⟨c, hc⟩)⟩ : Machine (γ × { c // inv c })) :=
    ⟨⟨rfl, rfl⟩, fun _ => rfl⟩
  have htogether := mmMapPages_alike h pd virt n hs
  rw [hrun] at htogether
  generalize hy : mmMapPages mapped (some pd) (some pacc') virt n f ⟨m, (x, ⟨c, hc⟩)⟩ = y
    at htogether
  cases htogether with
  | @ok _ b hb =>
      obtain ⟨r', t⟩ := b
      obtain ⟨hr, ⟨hx, hctx⟩, hmem⟩ := hb
      obtain ⟨tm, tx, tc, htc⟩ := t
      obtain rfl : r = r' := hr
      obtain rfl : s'.mem = tm := funext hmem
      obtain rfl : s'.ctx.1 = tx := hx
      obtain rfl : s'.ctx.2 = tc := hctx
      exact ⟨htc, rfl⟩
  | left hq => exact hq.1.elim

end Lift

/-! ### Rings of frames that are handed out -/

section Ring

variable {alloc : PageAllocator PageLists} {inv : PageLists → Prop}
  {free : PageLists → PageIdx → Prop}

/-- The list accessor has yielded `fs` of the ring `ps` of frames that are not free, and no
frame from its end on. -/
structure RingHist (free : PageLists → PageIdx → Prop) (b : PageIdx) (ps : List PageIdx)
    (c : ListPaCtx × { c // inv c }) (fs : List PageIdx) : Prop where
  frames : ∀ (i : Nat) (x : PageIdx), fs[i]? = some x → x = ps.getD i INVALID_PAGE_IDX
  left : ListAt (fun c : { c // inv c } => c.1) (.frame b) c (ps.drop fs.length)
  start : b ∈ ps
  held : ∀ x ∈ ps, ¬ free c.2.1 x

/-- The allocator moves on, the ring stays. -/
theorem RingHist.allocated {b : PageIdx} {ps fs : List PageIdx} {c : ListPaCtx × { c // inv c }}
    {d : { c // inv c }} (h : RingHist free b ps c fs)
    (hlinks : ∀ x, ¬ free c.2.1 x → d.1.links.next (.frame x) = c.2.1.links.next (.frame x) ∧
      d.1.links.prev (.frame x) = c.2.1.links.prev (.frame x))
    (hfree : ∀ x, free d.1 x → free c.2.1 x) : RingHist free b ps (c.1, d) fs where
  frames := h.frames
  left := by
    have hkeep : ∀ l ∈ (ps.drop fs.length).map ListPtr.frame ++ [ListPtr.frame b],
        d.1.links.next l = c.2.1.links.next l ∧ d.1.links.prev l = c.2.1.links.prev l := by
      intro l hl
      obtain ⟨x, hx, rfl⟩ : ∃ x ∈ ps, .frame x = l := by
        rcases List.mem_append.mp hl with hl | hl
        · obtain ⟨x, hx, rfl⟩ := List.mem_map.mp hl
          exact ⟨x, List.mem_of_mem_drop hx, rfl⟩
        · exact ⟨b, h.start, (List.mem_singleton.mp hl).symm⟩
      exact hlinks x (h.held x hx)
    exact ⟨h.left.linked.congr (fun l hl => (hkeep l (List.dropLast_subset _ hl)).1)
      fun l hl => (hkeep l (List.mem_of_mem_tail hl)).2, h.left.curr, h.left.left⟩
  start := h.start
  held x hx hf := h.held x hx (hfree x hf)

/-- One call of `next_frame`. -/
theorem RingHist.next {b : PageIdx} {ps fs : List PageIdx} {c c' : ListPaCtx × { c // inv c }}
    {i : PageIdx} (h : RingHist free b ps c fs) {all : PageAllocator { c // inv c }}
    (hrun : (pageaccsListPa Subtype.val all).nextFrame c = .ok (i, c')) :
    RingHist free b ps c' (fs ++ [i]) ∧ c'.2 = c.2 := by
  -- Only the new frame has to be looked at, the others are as before.
  have hframes : i = ps.getD fs.length INVALID_PAGE_IDX →
      ∀ (k : Nat) (x : PageIdx), (fs ++ [i])[k]? = some x → x = ps.getD k INVALID_PAGE_IDX := by
    intro hi k x hx
    rcases Nat.lt_trichotomy k fs.length with hk | rfl | hk
    · rw [List.getElem?_append_left hk] at hx
      exact h.frames k x hx
    · rw [List.getElem?_concat_length, Option.some.injEq] at hx
      rw [← hx, hi]
    · rw [List.getElem?_eq_none (by simp; omega)] at hx
      cases hx
  have hdrop : ps.drop (fs ++ [i]).length = (ps.drop fs.length).drop 1 := by
    rw [List.drop_drop, List.length_append, List.length_singleton]
  have hat := h.left
  by_cases hlt : fs.length < ps.length
  · -- The call takes the first frame that is left.
    rw [List.drop_eq_getElem_cons hlt] at hat hdrop
    obtain ⟨c1, hcall, h1⟩ :=
      cursor_listPa (fun c : { c // inv c } => c.1) all (.frame b) c _ _ hat
    rw [hcall] at hrun
    have hkeep : c1.2 = c.2 := by
      obtain ⟨⟨f, x⟩, -, hret⟩ := Loop.exists_of_bind hcall
      cases hret
      rfl
    cases hrun
    refine ⟨⟨hframes ?_, by rw [hdrop]; exact h1, h.start, ?_⟩, hkeep⟩
    · rw [List.getD_eq_getElem?_getD, List.getElem?_eq_getElem hlt, Option.getD_some]
    · rw [hkeep]
      exact h.held
  · -- The ring is used up, and the call yields the invalid index.
    have hnil : ps.drop fs.length = [] := List.drop_eq_nil_of_le (by omega)
    rw [hnil] at hat hdrop
    have hzero : c.1.pagesLeft = 0 := BitVec.eq_of_toNat_eq hat.left
    have hcall : (pageaccsListPa (fun c : { c // inv c } => c.1) all).nextFrame c
        = .ok (INVALID_PAGE_IDX, c) := by
      simp [pageaccsListPa, listPaNextFrame, hzero, bind, Except.bind, pure, Except.pure]
    rw [hcall] at hrun
    cases hrun
    refine ⟨⟨hframes ?_, by rw [hdrop]; exact hat, h.start, h.held⟩, rfl⟩
    rw [List.getD_eq_getElem?_getD, List.getElem?_eq_none (by omega), Option.getD_none]

/-- What an answer of the stub says about the allocator. -/
theorem stub_ok {γ κ : Type} {all : PageAllocator κ} {flags : PageFlags}
    {s t : Machine (γ × κ)} {o : Option PageIdx}
    (h : pageaccsAllocPageStub all flags true s = .ok (o, t)) :
    ∃ u, all flags true ⟨s.mem, s.ctx.2⟩ = .ok (o, u) ∧ t = ⟨u.mem, (s.ctx.1, u.ctx)⟩ := by
  obtain ⟨⟨o', u⟩, halloc, hret⟩ := Loop.exists_of_bind h
  cases hret
  exact ⟨u, halloc, rfl⟩

/-- An accessor over a ring yields its pages, whose allocation is the allocator's. -/
theorem supplies_ringPa (h : HandsOut alloc inv free) (b : PageIdx) (ps : List PageIdx) :
    Supplies (pageaccsListPa (fun c : { c // inv c } => c.1) h.lift) (fun c => free c.2.1)
      (RingHist free b ps) where
  some hrun := by
    obtain ⟨u, halloc, rfl⟩ := stub_ok hrun
    obtain ⟨hpf, hmem, hfree⟩ := h.allocates_lift.some halloc
    exact ⟨hpf, hmem, fun fs hfs => hfs.allocated (h.links (Subtype.property _) (h.of_lift halloc))
      fun x hx => (hfree x hx).1, hfree⟩
  none hrun := by
    obtain ⟨u, halloc, rfl⟩ := stub_ok hrun
    obtain ⟨hmem, hfree⟩ := h.allocates_lift.none halloc
    exact ⟨hmem, fun fs hfs => hfs.allocated (h.links (Subtype.property _) (h.of_lift halloc))
      hfree, hfree⟩
  next hrun := by
    refine ⟨fun fs hfs => (hfs.next hrun).1, fun x hx => ?_⟩
    obtain ⟨⟨f, y⟩, -, hret⟩ := Loop.exists_of_bind hrun
    cases hret
    exact hx

/-- A ring of frames, from the reset on. -/
theorem ringHist_start {c : { c // inv c }} {b : PageIdx} {qs : List PageIdx} {left : PageIdx}
    (hring : Ring.IsRing c.1.links (.frame b) (qs.map .frame)) (hheld : ∀ x ∈ b :: qs, ¬ free c.1 x)
    (hleft : left.toNat = qs.length + 1) :
    RingHist free b (b :: qs) (listPaReset ⟨b, none, left, 0⟩, c) [] where
  frames i x hx := by simp at hx
  left := ⟨hring, rfl, hleft⟩
  start := List.mem_cons_self
  held := hheld

end Ring

end MString
