import MString.Proofs.Mm.Handouts

/-!
# `MString.Proofs.Mm.FrameBook`: where the frames of a cache go

The boot takes frames from one cache, in the order in which they are asked for. `Frames`
keeps the book: the pages that are left, and those that somebody holds. A frame that becomes
a page table leaves the book.

The counter of a cache may be ahead of what the cache has (`CacheCounts`), as it is after
`initialize_percpu_caches`. Then a cache that is used up does not say so: its list head is
taken for a frame, and the caller gets the counter for a frame number (`takePage_head`). The
book knows the frames that were on the list and no others. Where it has none left it gives
up, and says nothing about what the cache does from there on (`UsedUp`).

* `allocPage_stands`: as long as the book has frames, a call of `alloc_page` with the lists
  of the cache does what it does with the book.
* `allocates_framesAlloc`: with the book, the allocator keeps its contract in every state.
* `mmMapPages_stands`: so a call of `mm_map_pages` can be followed in the book.
-/

set_option autoImplicit false

namespace MString

open Lockstep

/-! ### A cache whose counter is ahead -/

/-- The cache of `cpu` holds the frames `qs`, each once, and counts `ahead` more. -/
structure CacheCounts (cpu ahead : Nat) (c : PageLists) (qs : List PageIdx) : Prop where
  ring : Ring.IsRing c.links (.cachePages cpu) (qs.map .frame)
  nodup : qs.Nodup
  count : (c.caches cpu).numFreePages.toNat = qs.length + ahead

section Cache

variable {cpu ahead : Nat} {c : PageLists} {q : PageIdx} {qs : List PageIdx}

/-- A cache that is not ahead is one that is ahead by nothing. -/
theorem CacheHolds.counts (h : CacheHolds cpu c qs) : CacheCounts cpu 0 c qs :=
  ⟨h.ring, h.nodup, h.count⟩

/-- A cache holds one list of frames. -/
theorem CacheCounts.eq {ps : List PageIdx} (h : CacheCounts cpu ahead c ps)
    (h' : CacheCounts cpu ahead c qs) : ps = qs := by
  have hmap := Ring.IsRing.unique h.ring h'.ring (by simp) (by simp)
  exact List.map_injective_iff.mpr (fun a b hab => ListPtr.frame.inj hab) hmap

/-- Taking a page gives the first one of the list and keeps how far the counter is ahead. -/
theorem takePage_counts (h : CacheCounts cpu ahead c (q :: qs)) :
    ∃ c', takePage cpu c = .ok (some q, c') ∧ CacheCounts cpu ahead c' qs := by
  have hcount := h.count
  rw [List.length_cons] at hcount
  have hpos : (c.caches cpu).numFreePages > 0 := by
    rw [gt_iff_lt, BitVec.lt_def, hcount]
    show 0 < _
    omega
  have hnext := h.ring.next
  have hdel := @listDel_ring _ _ _ _ _ [] _ h.ring
  have hring := @Ring.ring_unlink _ _ _ _ _ [] _ h.ring (nodup_cache h.nodup)
  simp only [List.map_cons, List.headD_cons] at hnext
  refine ⟨⟨c.links.unlink (.frame q) (.cachePages cpu)
      ((qs.map ListPtr.frame).headD (.cachePages cpu)),
    Function.update c.caches cpu
      { c.caches cpu with numFreePages := (c.caches cpu).numFreePages - 1 }⟩, ?_, ?_⟩
  · simp only [takePage, if_pos hpos, hnext, hdel, containerOf, Loop.ok_bind]
    rfl
  · refine ⟨hring, (List.nodup_cons.mp h.nodup).2, ?_⟩
    simp only [Function.update_self, BitVec.toNat_sub, hcount]
    have hlt := (c.caches cpu).numFreePages.isLt
    rw [show (1 : PageIdx).toNat = 1 from rfl]
    omega

/-- A cache that is used up and says so has no page. -/
theorem takePage_dry (h : CacheCounts cpu 0 c []) : takePage cpu c = .ok (none, c) := by
  have hzero : ¬ (c.caches cpu).numFreePages > 0 := by
    rw [gt_iff_lt, BitVec.lt_def, h.count]
    simp
  rw [takePage, if_neg hzero]
  rfl

/-- A cache that is used up and does not say so. Its list head is taken off the list for a
frame, and what stands behind it is the counter: one less than it was. -/
theorem takePage_head (h : CacheCounts cpu ahead c []) (hahead : ahead ≠ 0) :
    ∃ c', takePage cpu c = .ok (some (BitVec.ofNat 32 (ahead - 1)), c') := by
  have hcount := h.count
  rw [List.length_nil, Nat.zero_add] at hcount
  have hpos : (c.caches cpu).numFreePages > 0 := by
    rw [gt_iff_lt, BitVec.lt_def, hcount]
    exact Nat.pos_of_ne_zero hahead
  have hnext := h.ring.next
  have hprev := h.ring.prev
  simp only [List.map_nil, List.headD_nil, List.getLast_singleton] at hnext hprev
  have hidx : (c.caches cpu).numFreePages - 1 = BitVec.ofNat 32 (ahead - 1) := by
    apply BitVec.eq_of_toNat_eq
    have hlt := (c.caches cpu).numFreePages.isLt
    rw [BitVec.toNat_sub, BitVec.toNat_ofNat, show (1 : PageIdx).toNat = 1 from rfl]
    omega
  simp only [takePage, if_pos hpos, hnext, listDel, hprev, containerOf, bind, Except.bind,
    Function.update_self, hidx]
  exact ⟨_, rfl⟩

end Cache

/-! ### The book -/

/-- The pages in a cache, and those that were taken from it and are held. -/
structure Frames where
  pages : List PageIdx
  held : List PageIdx
  nodup : (held ++ pages).Nodup

section Frames

variable (c : Frames)

/-- The frames stay different when one is used up, ... -/
theorem Frames.nodup_spend : (c.held ++ c.pages.tail).Nodup :=
  c.nodup.sublist ((List.Sublist.refl _).append (List.tail_sublist _))

/-- ... and when one is kept. -/
theorem Frames.nodup_hold : ((c.held ++ c.pages.take 1) ++ c.pages.tail).Nodup := by
  have htail : c.pages.take 1 ++ c.pages.tail = c.pages := by
    rw [← List.drop_one, List.take_append_drop]
  rw [List.append_assoc, htail]
  exact c.nodup

/-- The first page becomes a table. -/
def Frames.spend : Frames := ⟨c.pages.tail, c.held, c.nodup_spend⟩

/-- The first page is held. -/
def Frames.hold : Frames := ⟨c.pages.tail, c.held ++ c.pages.take 1, c.nodup_hold⟩

/-- The frame is in the book. -/
def Frames.Lists (x : PageIdx) : Prop := x ∈ c.held ++ c.pages

/-- The first page, as long as there is one. -/
def Frames.first : Except Fault PageIdx :=
  match c.pages with
  | [] => .error .exhausted
  | q :: _ => .ok q

variable {c} {q x : PageIdx}

/-- What is listed after it was listed before, ... -/
theorem Frames.Lists.of_spend (h : c.spend.Lists x) : c.Lists x := by
  rcases List.mem_append.mp h with h | h
  · exact List.mem_append_left _ h
  · exact List.mem_append_right _ (List.mem_of_mem_tail h)

/-- ... in both cases. -/
theorem Frames.Lists.of_hold (h : c.hold.Lists x) : c.Lists x := by
  rcases List.mem_append.mp h with h | h
  · rcases List.mem_append.mp h with h | h
    · exact List.mem_append_left _ h
    · exact List.mem_append_right _ (List.mem_of_mem_take h)
  · exact List.mem_append_right _ (List.mem_of_mem_tail h)

/-- A page that is spent is gone. -/
theorem Frames.Lists.ne_spent (hq : c.pages.head? = some q) (h : c.spend.Lists x) : x ≠ q := by
  obtain ⟨qs, hqs⟩ := List.head?_eq_some_iff.mp hq
  have hnd := c.nodup
  rw [hqs] at hnd
  rintro rfl
  refine (List.nodup_cons.mp (List.nodup_middle.mp hnd)).1 ?_
  have hmem : x ∈ c.held ++ c.pages.tail := h
  rwa [hqs] at hmem

/-- The first frame is the next one of the book. -/
theorem Frames.first_ok (h : c.first = .ok q) : c.pages.head? = some q := by
  unfold Frames.first at h
  split at h
  · cases h
  · case h_2 hcons =>
      cases h
      rw [hcons]
      rfl

end Frames

/-! ### The allocator -/

/-- `alloc_page`, on the book. -/
def framesAlloc : PageAllocator Frames := fun flags cleanPage s =>
  if flags &&& PAF_DMA_PAGE ≠ 0 then .ok (none, s)
  else do
    let q ← s.ctx.first
    return (some q, ⟨if cleanPage then s.mem.clean q else s.mem, s.ctx.spend⟩)

/-- The book is used up. The cache may go on with its list head. -/
def UsedUp (e : Fault) : Prop := e = .exhausted

section Alloc

variable {boot ahead : Nat} {flags : PageFlags} {clean : Bool}

/-- The book and the cache hand out the same frame. Only where the book has none left is nothing
said about the cache. -/
theorem allocPage_stands {c : PageLists} {F : Frames} (h : CacheCounts boot ahead c F.pages)
    (flags : PageFlags) (clean : Bool) (m : Mem) :
    Together UsedUp (fun _ => False)
      (fun x x' => x.1 = x'.1 ∧ x.2.mem = x'.2.mem ∧ CacheCounts boot ahead x'.2.ctx x.2.ctx.pages)
      (framesAlloc flags clean ⟨m, F⟩) (allocPage boot flags clean ⟨m, c⟩) := by
  obtain ⟨pages, held, nodup⟩ := F
  dsimp only at h
  unfold framesAlloc
  by_cases hdma : flags &&& PAF_DMA_PAGE = 0
  case neg =>
    rw [allocPage_dma hdma, if_pos hdma]
    exact .ok ⟨rfl, rfl, h⟩
  rw [if_neg (not_not.mpr hdma), allocPage, if_neg (not_not.mpr hdma)]
  cases pages with
  | nil => exact .gaveUp rfl
  | cons q qs =>
      obtain ⟨c', htake, hc'⟩ := takePage_counts h
      rw [htake, Loop.ok_bind]
      cases clean with
      | true => exact .ok ⟨rfl, rfl, hc'⟩
      | false => exact .ok ⟨rfl, rfl, hc'⟩

/-- The book only loses frames that become tables. -/
theorem framesAlloc_cases {s s' : Machine Frames} {p : Option PageIdx}
    (h : framesAlloc flags clean s = .ok (p, s')) :
    p = none ∧ s' = s ∨ ∃ q, p = some q ∧ s.ctx.pages.head? = some q ∧
      s' = ⟨if clean then s.mem.clean q else s.mem, s.ctx.spend⟩ := by
  unfold framesAlloc at h
  split at h
  · cases h
    exact .inl ⟨rfl, rfl⟩
  · obtain ⟨q, hq, h⟩ := Loop.exists_of_bind h
    cases h
    exact .inr ⟨q, rfl, Frames.first_ok hq, rfl⟩

/-- The book is an allocator: each of its frames is handed out once. -/
theorem allocates_framesAlloc : Allocates framesAlloc Frames.Lists where
  some := by
    intro flags clean s pf s' hrun
    rcases framesAlloc_cases hrun with ⟨hpf, -⟩ | ⟨q, hpf, hq, rfl⟩
    · cases hpf
    · cases hpf
      have hmem := List.mem_of_mem_head? (Option.mem_def.mpr hq)
      exact ⟨List.mem_append_right _ hmem, rfl, fun x hx => ⟨hx.of_spend, hx.ne_spent hq⟩⟩
  none := by
    intro flags clean s s' hrun
    rcases framesAlloc_cases hrun with ⟨-, rfl⟩ | ⟨q, hpf, -⟩
    · exact ⟨rfl, fun x hx => hx⟩
    · cases hpf

/-- As long as the book lists a page, it has one. -/
theorem framesAlloc_cons (hdma : flags &&& PAF_DMA_PAGE = 0) {s : Machine Frames} {q : PageIdx}
    {qs : List PageIdx} (hq : s.ctx.pages = q :: qs) : framesAlloc flags clean s
      = .ok (some q, ⟨if clean then s.mem.clean q else s.mem, s.ctx.spend⟩) := by
  rw [framesAlloc, if_neg (not_not.mpr hdma), Frames.first, hq]
  rfl

end Alloc

/-- The frames in the book are low, and none of the directory's tables. -/
abbrev BookReady (root : Uintptr) (m : Mem) (F : Frames) : Prop :=
  Ready Frames.Lists root ⟨m, F⟩

/-! ### Calls of `mm_map_pages` -/

variable {γ : Type} {boot ahead : Nat}

/-- The book is that of the cache of `boot`. -/
def Stands (boot ahead : Nat) (c : γ × Frames) (c' : γ × PageLists) : Prop :=
  c.1 = c'.1 ∧ CacheCounts boot ahead c'.2 c.2.pages

/-- An accessor, with the book and with the lists. -/
structure SameAccessor (boot ahead : Nat) (pacc : PageFrameAccessor (γ × Frames))
    (pacc' : PageFrameAccessor (γ × PageLists)) : Prop where
  next : ∀ c c', Stands boot ahead c c' → Together UsedUp (fun _ => False)
    (fun x x' => x.1 = x'.1 ∧ Stands boot ahead x.2 x'.2) (pacc.nextFrame c) (pacc'.nextFrame c')
  alloc : pacc.allocPage = pageaccsAllocPageStub framesAlloc
  alloc' : pacc'.allocPage = pageaccsAllocPageStub (allocPage boot)

/-- The linear accessor is one over the book and over the cache. -/
theorem sameAccessor_linearPa : SameAccessor boot ahead (pageaccsLinearPa framesAlloc)
    (pageaccsLinearPa (allocPage boot)) where
  next := by
    rintro ⟨ctx, F⟩ ⟨ctx', c⟩ ⟨rfl, hc⟩
    exact .ok ⟨rfl, rfl, hc⟩
  alloc := rfl
  alloc' := rfl

/-- For an accessor that leaves `alloc_page` to the kernel, the book has pages for tables. -/
theorem provides_stub {flags : PageFlags} (hdma : flags &&& PAF_DMA_PAGE = 0)
    (s : Machine (γ × Frames)) (hs : 0 < s.ctx.2.pages.length) :
    ∃ pf s', pageaccsAllocPageStub (framesAlloc) flags true s = .ok (some pf, s') ∧
      s.ctx.2.pages.length ≤ s'.ctx.2.pages.length + 1 := by
  obtain ⟨q, qs, hqs⟩ := List.exists_cons_of_length_pos hs
  refine ⟨q, ⟨s.mem.clean q, (s.ctx.1, s.ctx.2.spend)⟩, ?_, ?_⟩
  · have halloc := @framesAlloc_cons flags true hdma ⟨s.mem, s.ctx.2⟩ q qs hqs
    rw [pageaccsAllocPageStub, halloc]
    rfl
  · show s.ctx.2.pages.length ≤ s.ctx.2.pages.tail.length + 1
    rw [hqs]
    rfl

section Calls

variable {pacc : PageFrameAccessor (γ × Frames)} {pacc' : PageFrameAccessor (γ × PageLists)}
  {flags : PageFlags}

/-- Walks over the two go side by side until the book has no frame. -/
theorem SameAccessor.pairs (h : SameAccessor boot ahead pacc pacc') (mapped : EntryPtr → Bool) :
    Pairs Eq (Stands boot ahead) UsedUp False ⟨mapped, pacc, flags⟩ ⟨mapped, pacc', flags⟩ where
  entries := indistinct_eq
  leaf _ := rfl
  mapped := rfl
  next := h.next
  alloc := by
    intro s s' hs
    obtain ⟨m, o, F⟩ := s
    obtain ⟨m', o', c⟩ := s'
    obtain ⟨⟨rfl, hc⟩, hmem⟩ :
      (o = o' ∧ CacheCounts boot ahead c F.pages) ∧ ∀ a, m a = m' a := hs
    obtain rfl : m = m' := funext hmem
    have halloc := allocPage_stands hc flags true m
    dsimp only
    rw [h.alloc, h.alloc']
    refine halloc.bind (fun _ hq => hq.elim) ?_
    rintro ⟨x, t⟩ ⟨x', t'⟩ ⟨hx, ht, hcache⟩
    exact .ok ⟨hx, ⟨rfl, hcache⟩, fun a => congrFun ht a⟩

/-- A call of `mm_map_pages` with the book, and with the cache. -/
theorem mmMapPages_stands (h : SameAccessor boot ahead pacc pacc') {mapped : EntryPtr → Bool}
    {pd : PageDirectory} {virt n : Uintptr} {m : Mem} {o : γ} {c : PageLists} {F : Frames}
    (hc : CacheCounts boot ahead c F.pages) :
    Together UsedUp (fun _ => False)
      (fun x x' => x.1 = x'.1 ∧ x.2.mem = x'.2.mem ∧ Stands boot ahead x.2.ctx x'.2.ctx)
      (mmMapPages mapped (some pd) (some pacc) virt n flags ⟨m, (o, F)⟩)
      (mmMapPages mapped (some pd) (some pacc') virt n flags ⟨m, (o, c)⟩) := by
  have hs : Alike Eq (Stands boot ahead) (⟨m, (o, F)⟩ : Machine (γ × Frames)) ⟨m, (o, c)⟩ :=
    ⟨⟨rfl, hc⟩, fun _ => rfl⟩
  have hpairs : Pairs Eq (Stands boot ahead) UsedUp False ⟨mapped, pacc, flags⟩
      ⟨mapped, pacc', flags⟩ := h.pairs mapped
  have htogether := mmMapPages_alike hpairs pd virt n hs
  generalize mmMapPages mapped (some pd) (some pacc) virt n flags _ = x at htogether ⊢
  generalize mmMapPages mapped (some pd) (some pacc') virt n flags _ = y at htogether ⊢
  cases htogether with
  | error e => exact .error e
  | ok hxy => exact .ok ⟨hxy.1, funext hxy.2.2, hxy.2.1⟩
  | left hq => exact hq.1.elim
  | gaveUp hdry => exact .gaveUp hdry

end Calls

end MString
