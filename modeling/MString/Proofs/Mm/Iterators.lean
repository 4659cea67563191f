import MString.Mm.PageAccs
import MString.Proofs.Mm.PageAlloc

/-!
# `MString.Proofs.Mm.Iterators`: the accessors as bounded iterators

An area of page frames is a list, and an accessor stands in front of what is left of it.
`Iterates` is what a client expects: `k` calls of `next_frame` yield the first `k` frames
and `frames_left` counts the others, and drawing while any are left yields the whole area.

* `nextFrames_cursor` and `drain_cursor`: both follow from what one call does.
* `iterates_listPa`: the list accessor is such an iterator over a ring of frames.
* `iterates_linearPa_iff`: the linear one yields the right frames, but `frames_left`
  subtracts the wrong way round.
-/

set_option autoImplicit false

namespace MString

variable {σ κ : Type}

/-- `k` calls of `next_frame`. -/
def nextFrames (pacc : PageFrameAccessor σ) : Nat → σ → Except Fault (List PageIdx × σ)
  | 0, c => .ok ([], c)
  | k + 1, c => do
      let (f, c) ← pacc.nextFrame c
      let (fs, c) ← nextFrames pacc k c
      return (f :: fs, c)

/-- One turn of a client that calls `next_frame` while `frames_left` is not zero. -/
def drainTurn (pacc : PageFrameAccessor σ) :
    List PageIdx × σ → Except Fault ((List PageIdx × σ) ⊕ (List PageIdx × σ))
  | (fs, c) =>
      if pacc.framesLeft c = 0 then .ok (.inr (fs, c))
      else do
        let (f, c) ← pacc.nextFrame c
        return .inl (fs ++ [f], c)

/-- Such a client. -/
def drain (pacc : PageFrameAccessor σ) (c : σ) : Except Fault (List PageIdx × σ) :=
  Loop.run .diverges (drainTurn pacc) TURNS ([], c)

/-- The context `c` iterates over the frames `fs`. -/
structure Iterates (pacc : PageFrameAccessor σ) (c : σ) (fs : List PageIdx) : Prop where
  counts : ∀ k, k ≤ fs.length → ∃ c', nextFrames pacc k c = .ok (fs.take k, c') ∧
    (pacc.framesLeft c').toNat = fs.length - k
  drains : ∃ c', drain pacc c = .ok (fs, c')

section Cursors

variable {pacc : PageFrameAccessor σ} {At : σ → List PageIdx → Prop}

/-- `At c fs` says that `fs` is left in the context `c`; a call takes the first. -/
def Cursor (pacc : PageFrameAccessor σ) (At : σ → List PageIdx → Prop) : Prop :=
  ∀ c f fs, At c (f :: fs) → ∃ c', pacc.nextFrame c = .ok (f, c') ∧ At c' fs

/-- Drawing `k` frames yields the first `k` of what the cursor has ahead, and leaves the cursor
at the others. -/
theorem nextFrames_cursor (hnext : Cursor pacc At) :
    ∀ (k : Nat) (c : σ) (fs : List PageIdx), At c fs → k ≤ fs.length →
      ∃ c', nextFrames pacc k c = .ok (fs.take k, c') ∧ At c' (fs.drop k) := by
  intro k
  induction k with
  | zero => intro c fs h _; exact ⟨c, by rw [List.take_zero]; rfl, h⟩
  | succ k ih =>
      intro c fs h hk
      cases fs with
      | nil => simp at hk
      | cons f fs =>
          obtain ⟨c1, hcall, h1⟩ := hnext c f fs h
          obtain ⟨c', hcalls, h'⟩ := ih c1 fs h1 (by simpa using hk)
          refine ⟨c', ?_, h'⟩
          rw [nextFrames, hcall, Loop.ok_bind]
          simp only [hcalls, Loop.ok_bind]
          rfl

/-- A client that draws while frames are left draws them all. -/
theorem drain_cursor (hnext : Cursor pacc At)
    (hzero : ∀ c fs, At c fs → (pacc.framesLeft c = 0 ↔ fs = [])) :
    ∀ (fs gs : List PageIdx) (c : σ) (n : Nat), At c fs → fs.length < n →
      ∃ c', Loop.run .diverges (drainTurn pacc) n (gs, c) = .ok (gs ++ fs, c') := by
  intro fs
  induction fs with
  | nil =>
      intro gs c n h hn
      obtain ⟨n, rfl⟩ : ∃ m, n = m + 1 := ⟨n - 1, by simp only [List.length_nil] at hn; omega⟩
      have hturn : drainTurn pacc (gs, c) = .ok (.inr (gs, c)) := if_pos ((hzero c [] h).mpr rfl)
      exact ⟨c, by rw [Loop.run_exit hturn, List.append_nil]⟩
  | cons f fs ih =>
      intro gs c n h hn
      obtain ⟨n, rfl⟩ : ∃ m, n = m + 1 := ⟨n - 1, by simp only [List.length_cons] at hn; omega⟩
      obtain ⟨c1, hcall, h1⟩ := hnext c f fs h
      have hleft : ¬ pacc.framesLeft c = 0 := fun h0 => by simpa using (hzero c _ h).mp h0
      have hturn : drainTurn pacc (gs, c) = .ok (.inl (gs ++ [f], c1)) := by
        simp only [drainTurn, if_neg hleft, hcall, Loop.ok_bind]
        rfl
      obtain ⟨c', hrun⟩ := ih (gs ++ [f]) c1 n h1 (by simpa using hn)
      exact ⟨c', by rw [Loop.run_continue hturn, hrun, List.append_assoc]; rfl⟩

/-- A cursor whose `frames_left` counts what is left iterates. -/
theorem iterates_of_cursor (hnext : Cursor pacc At)
    (hleft : ∀ c fs, At c fs → (pacc.framesLeft c).toNat = fs.length) {c : σ} {fs : List PageIdx}
    (h : At c fs) : Iterates pacc c fs where
  counts k hk := by
    obtain ⟨c', hrun, h'⟩ := nextFrames_cursor hnext k c fs h hk
    exact ⟨c', hrun, by rw [hleft c' _ h', List.length_drop]⟩
  drains := by
    have hlt : fs.length < TURNS := by
      have := (pacc.framesLeft c).isLt
      rw [hleft c fs h] at this
      unfold TURNS
      omega
    have hzero : ∀ c fs, At c fs → (pacc.framesLeft c = 0 ↔ fs = []) := fun c fs h => by
      rw [← BitVec.toNat_inj, hleft c fs h, ← List.length_eq_zero_iff]
      rfl
    exact drain_cursor hnext hzero fs [] c TURNS h hlt

end Cursors

/-! ### The list accessor -/

/-- The context is one for the frames `fs`, which are a ring of their own: its `head` is
one of them. -/
structure ListArea (links : ListHeads ListPtr) (c : ListPaCtx) (fs : List PageIdx) : Prop where
  ring : ∃ qs, fs = c.head :: qs ∧ Ring.IsRing links (.frame c.head) (qs.map .frame)
  nodup : fs.Nodup
  numPages : c.numPages.toNat = fs.length

/-- What is left of a list area: the frames from `curr` on, up to the ring's start. -/
structure ListAt (lists : κ → PageLists) (b : ListPtr) (c : ListPaCtx × κ)
    (fs : List PageIdx) : Prop where
  linked : Ring.Linked (lists c.2).links (fs.map .frame ++ [b])
  curr : c.1.curr = some ((fs.map ListPtr.frame).headD b)
  left : c.1.pagesLeft.toNat = fs.length

/-- The list accessor walks along its ring. -/
theorem cursor_listPa (lists : κ → PageLists) (alloc : PageAllocator κ) (b : ListPtr) :
    Cursor (pageaccsListPa lists alloc) (ListAt lists b) := by
  intro c f fs h
  have hpos : c.1.pagesLeft ≠ 0 := fun h0 => by
    have := h.left
    rw [h0] at this
    simp at this
  have hcurr : c.1.curr = some (.frame f) := h.curr
  have hnext : (lists c.2).links.next (.frame f) = some ((fs.map ListPtr.frame).headD b) ∧
      Ring.Linked (lists c.2).links (fs.map .frame ++ [b]) := by
    have hlinked := h.linked
    cases fs with
    | nil => exact ⟨(Ring.linked_cons_cons.mp hlinked).1, trivial⟩
    | cons g fs =>
        obtain ⟨h1, -, h2⟩ := Ring.linked_cons_cons.mp hlinked
        exact ⟨h1, h2⟩
  refine ⟨({ c.1 with
    curr := some ((fs.map ListPtr.frame).headD b), pagesLeft := c.1.pagesLeft - 1 }, c.2), ?_,
    hnext.2, rfl, ?_⟩
  · simp only [pageaccsListPa, listPaNextFrame, if_pos hpos, hcurr, containerOf, hnext.1,
      Loop.ok_bind]
    rfl
  · have hleft := h.left
    have hlt := c.1.pagesLeft.isLt
    rw [List.length_cons] at hleft
    rw [BitVec.toNat_sub, hleft, show (1 : PageIdx).toNat = 1 from rfl]
    omega

/-- The list accessor iterates over its ring. -/
theorem iterates_listPa (lists : κ → PageLists) (alloc : PageAllocator κ)
    {c : ListPaCtx × κ} {fs : List PageIdx} (h : ListArea (lists c.2).links c.1 fs) :
    Iterates (pageaccsListPa lists alloc) ((pageaccsListPa lists alloc).reset c) fs := by
  obtain ⟨qs, rfl, hring⟩ := h.ring
  have hstart : ListAt lists (.frame c.1.head) ((pageaccsListPa lists alloc).reset c)
      (c.1.head :: qs) := ⟨hring, rfl, h.numPages⟩
  exact iterates_of_cursor (cursor_listPa lists alloc _) (fun c fs h => h.left) hstart

/-! ### The linear accessor -/

/-- The `n` frames from `first` on. -/
def framesFrom (first : PageIdx) (n : Nat) : List PageIdx :=
  (List.range n).map fun i => first + BitVec.ofNat 32 i

/-- A run of frames is its first one and the run behind it. -/
theorem framesFrom_succ (first : PageIdx) (n : Nat) :
    framesFrom first (n + 1) = first :: framesFrom (first + 1) n := by
  rw [framesFrom, List.range_succ_eq_map, List.map_cons, List.map_map]
  refine List.cons_eq_cons.mpr ⟨BitVec.add_zero _, List.map_congr_left fun i _ => ?_⟩
  show first + BitVec.ofNat 32 (i + 1) = first + 1 + BitVec.ofNat 32 i
  rw [BitVec.ofNat_add, BitVec.add_comm (BitVec.ofNat 32 i), ← BitVec.add_assoc]
  rfl

/-- A run of `n` frames has `n` of them. -/
@[simp] theorem length_framesFrom (first : PageIdx) (n : Nat) :
    (framesFrom first n).length = n := by
  simp [framesFrom]

/-- The frames from `start_page` up to `end_page`. -/
def linearArea (c : LinearPaCtx) : List PageIdx :=
  framesFrom c.startPage (c.endPage.toNat - c.startPage.toNat)

/-- What is left of a linear area. -/
structure LinearAt (c : LinearPaCtx × κ) (fs : List PageIdx) : Prop where
  frames : fs = framesFrom c.1.currPage (c.1.endPage.toNat - c.1.currPage.toNat)
  le : c.1.currPage.toNat ≤ c.1.endPage.toNat

section Linear

variable {alloc : PageAllocator κ} {c : LinearPaCtx × κ} {fs : List PageIdx}

/-- What is ahead of a linear accessor is as long as the difference of its bounds. -/
theorem LinearAt.length (h : LinearAt c fs) :
    fs.length = c.1.endPage.toNat - c.1.currPage.toNat := by
  rw [h.frames, length_framesFrom]

/-- The linear accessor counts up to its last frame. -/
theorem cursor_linearPa (alloc : PageAllocator κ) : Cursor (pageaccsLinearPa alloc) LinearAt := by
  intro c f fs h
  have hlen := h.length
  rw [List.length_cons] at hlen
  have hle := h.le
  have hend := c.1.endPage.isLt
  have hcurr : (c.1.currPage + 1).toNat = c.1.currPage.toNat + 1 := by
    rw [BitVec.toNat_add, show (1 : PageIdx).toNat = 1 from rfl]
    omega
  have hsplit := h.frames
  rw [← hlen, framesFrom_succ] at hsplit
  obtain ⟨rfl, hfs⟩ := List.cons_eq_cons.mp hsplit
  refine ⟨({ c.1 with currPage := c.1.currPage + 1 }, c.2), rfl, ?_, ?_⟩
  · simp only [hcurr]
    rw [show c.1.endPage.toNat - (c.1.currPage.toNat + 1) = fs.length by omega]
    exact hfs
  · simp only [hcurr]
    omega

/-- `frames_left` is the negative of what is left. -/
theorem framesLeft_linearPa (h : LinearAt c fs) :
    (pageaccsLinearPa alloc).framesLeft c = -BitVec.ofNat 32 fs.length := by
  have hlen := h.length
  have hle := h.le
  have hend := c.1.endPage.isLt
  show (if c.1.currPage < c.1.endPage then c.1.currPage - c.1.endPage else 0) = _
  rw [← BitVec.toNat_inj, BitVec.toNat_neg, BitVec.toNat_ofNat]
  by_cases hlt : c.1.currPage < c.1.endPage
  · rw [if_pos hlt, BitVec.toNat_sub]
    rw [BitVec.lt_def] at hlt
    omega
  · rw [if_neg hlt, show (0 : PageIdx).toNat = 0 from rfl]
    rw [BitVec.lt_def] at hlt
    omega

/-- The difference is taken the wrong way round. Even so, it is zero exactly at the end. -/
theorem framesLeft_linearPa_eq_zero (h : LinearAt c fs) :
    (pageaccsLinearPa alloc).framesLeft c = 0 ↔ fs = [] := by
  have hlen := h.length
  have hend := c.1.endPage.isLt
  rw [framesLeft_linearPa h, ← BitVec.toNat_inj, BitVec.toNat_neg, BitVec.toNat_ofNat,
    show (0 : PageIdx).toNat = 0 from rfl, ← List.length_eq_zero_iff]
  omega

/-- A reset puts the whole area ahead. -/
theorem linearAt_reset (h : c.1.startPage ≤ c.1.endPage) :
    LinearAt ((pageaccsLinearPa alloc).reset c) (linearArea c.1) := ⟨rfl, h⟩

/-- A client of the linear accessor gets its area. -/
theorem drain_linearPa (h : LinearAt c fs) :
    ∃ c', drain (pageaccsLinearPa alloc) c = .ok (fs, c') := by
  have hlen := h.length
  have hend := c.1.endPage.isLt
  exact drain_cursor (cursor_linearPa alloc) (fun _ _ h => framesLeft_linearPa_eq_zero h) fs [] c
    TURNS h (by unfold TURNS; omega)

/-- The linear accessor iterates over an empty area only. -/
theorem iterates_linearPa_iff (h : c.1.startPage ≤ c.1.endPage) :
    Iterates (pageaccsLinearPa alloc) ((pageaccsLinearPa alloc).reset c) (linearArea c.1) ↔
      c.1.startPage = c.1.endPage := by
  have hstart := @linearAt_reset _ alloc _ h
  have hlen : (linearArea c.1).length = c.1.endPage.toNat - c.1.startPage.toNat :=
    length_framesFrom _ _
  rw [BitVec.le_def] at h
  constructor
  · intro hiter
    by_contra hne
    have hne' : c.1.startPage.toNat ≠ c.1.endPage.toNat := fun he => hne (BitVec.eq_of_toNat_eq he)
    -- In front of the last frame, one is left and `frames_left` is -1.
    have hk : (linearArea c.1).length - 1 ≤ (linearArea c.1).length := Nat.sub_le _ _
    obtain ⟨c1, hrun, hat⟩ := nextFrames_cursor (cursor_linearPa alloc) _ _ _ hstart hk
    obtain ⟨c2, hrun', hleft⟩ := hiter.counts _ hk
    rw [hrun] at hrun'
    obtain rfl : c1 = c2 := congrArg Prod.snd (Except.ok.inj hrun')
    have hone : ((linearArea c.1).drop ((linearArea c.1).length - 1)).length = 1 := by
      rw [List.length_drop]
      omega
    rw [framesLeft_linearPa hat, hone] at hleft
    rw [show (-BitVec.ofNat 32 1).toNat = 2 ^ 32 - 1 from rfl] at hleft
    omega
  · intro heq
    have hnil : linearArea c.1 = [] := by
      rw [← List.length_eq_zero_iff, hlen, heq, Nat.sub_self]
    rw [hnil] at hstart ⊢
    refine ⟨fun k hk => ?_, drain_linearPa hstart⟩
    obtain rfl : k = 0 := by simpa using hk
    exact ⟨_, rfl, by rw [(framesLeft_linearPa_eq_zero hstart).mpr rfl]; rfl⟩

end Linear

/-- The list accessor is a bounded iterator on every ring, and the linear one on empty
areas only. -/
theorem accessors_iterate (lists : κ → PageLists) (alloc : PageAllocator κ) :
    (∀ (c : ListPaCtx × κ) (fs : List PageIdx), ListArea (lists c.2).links c.1 fs →
      Iterates (pageaccsListPa lists alloc) ((pageaccsListPa lists alloc).reset c) fs) ∧
    ∀ c : LinearPaCtx × κ, c.1.startPage ≤ c.1.endPage →
      (Iterates (pageaccsLinearPa alloc) ((pageaccsLinearPa alloc).reset c) (linearArea c.1) ↔
        c.1.startPage = c.1.endPage) :=
  ⟨fun _ _ h => iterates_listPa lists alloc h, fun _ h => iterates_linearPa_iff h⟩

/-- A ring of the frames 7 and 9. -/
def twoFrames : PageLists :=
  ⟨(initListHead ⟨fun _ => none, fun _ => none⟩ (.frame 7)).insertAll
    (.frame 7) (.frame 7) [.frame 9], fun _ => ⟨0, 0⟩⟩

/-- A ring of the frames 7 and 9. -/
theorem listArea_twoFrames : ListArea twoFrames.links ⟨7, none, 2, 0⟩ [7, 9] where
  ring := ⟨[9], rfl, Ring.ring_insertAll [ListPtr.frame 9] []
    (initListHead ⟨fun _ => none, fun _ => none⟩ (ListPtr.frame 7))
    (isRing_initListHead _ _) (by decide)⟩
  nodup := by decide
  numPages := rfl

/-- Two frames of either kind. -/
theorem accessors_iterate_two :
    Iterates (pageaccsListPa id (allocPage 0))
        ((pageaccsListPa id (allocPage 0)).reset (⟨7, none, 2, 0⟩, twoFrames)) [7, 9] ∧
      (Iterates (pageaccsLinearPa (allocPage 0))
          ((pageaccsLinearPa (allocPage 0)).reset (⟨7, 9, 0⟩, twoFrames)) (linearArea ⟨7, 9, 0⟩) ↔
        (7 : PageIdx) = 9) :=
  ⟨(accessors_iterate id (allocPage 0)).1 _ _ listArea_twoFrames,
    (accessors_iterate id (allocPage 0)).2 (⟨7, 9, 0⟩, twoFrames) (by decide)⟩

/-- The linear accessor in front of one frame: `frames_left` is `2 ^ 32 - 1`. -/
theorem iterates_linearPa_one :
    ¬ Iterates (pageaccsLinearPa (allocPage 0))
      ((pageaccsLinearPa (allocPage 0)).reset (⟨7, 8, 0⟩, twoFrames)) (linearArea ⟨7, 8, 0⟩) := by
  intro h
  obtain ⟨c, hrun, hleft⟩ := h.counts 0 (Nat.zero_le _)
  obtain rfl : (pageaccsLinearPa (allocPage 0)).reset (⟨7, 8, 0⟩, twoFrames) = c :=
    congrArg Prod.snd (Except.ok.inj hrun)
  exact absurd hleft (by decide)

end MString
