import MString.Mm.PageAlloc

/-!
# `MString.Mm.PageAccs`: the page frame accessors

`mm/pageaccs.c`. An accessor's context is what its callbacks change in their `ctx`
argument, next to the state `κ` of the page allocator. Both accessors leave
`alloc_page` to the kernel's allocator.

The list accessor follows the `active_list` pointers of the frames, which lie in
the allocator's lists: `lists` reads them from its state.
-/

set_option autoImplicit false

namespace MString

/-- A kernel page allocator: what `alloc_page` is to its callers. -/
abbrev PageAllocator (κ : Type) :=
  PageFlags → Bool → Machine κ → Except Fault (Option PageIdx × Machine κ)

variable {γ κ : Type}

/-- `pageaccs_alloc_page_stub`. -/
def pageaccsAllocPageStub (alloc : PageAllocator κ) : PageAllocator (γ × κ) :=
  fun flags cleanPage s => do
    let (pf, t) ← alloc flags cleanPage ⟨s.mem, s.ctx.2⟩
    return (pf, ⟨t.mem, (s.ctx.1, t.ctx)⟩)

/-- `pageaccs_linear_pa_ctx_t`. -/
structure LinearPaCtx where
  startPage : PageIdx
  endPage : PageIdx
  currPage : PageIdx
deriving DecidableEq, Repr

/-- `linear_pa_reset`. -/
def linearPaReset (c : LinearPaCtx) : LinearPaCtx := { c with currPage := c.startPage }

/-- `linear_pa_next_frame`. -/
def linearPaNextFrame (c : LinearPaCtx) : PageIdx × LinearPaCtx :=
  (c.currPage, { c with currPage := c.currPage + 1 })

/-- `pageaccs_linear_pa`. -/
def pageaccsLinearPa (alloc : PageAllocator κ) : PageFrameAccessor (LinearPaCtx × κ) where
  framesLeft c :=
    if c.1.currPage < c.1.endPage then c.1.currPage - c.1.endPage else 0
  nextFrame c :=
    let (frame, ctx) := linearPaNextFrame c.1
    .ok (frame, (ctx, c.2))
  reset c := (linearPaReset c.1, c.2)
  allocPage := pageaccsAllocPageStub alloc

/-- `pageaccs_list_pa_ctx_t`. The `head` is a frame; `curr` is `none` when it holds
`LIST_POISON1`. -/
structure ListPaCtx where
  head : PageIdx
  curr : Option ListPtr
  numPages : PageIdx
  pagesLeft : PageIdx
deriving DecidableEq, Repr

/-- `list_pa_reset`. -/
def listPaReset (c : ListPaCtx) : ListPaCtx :=
  { c with curr := some (.frame c.head), pagesLeft := c.numPages }

/-- `list_pa_next_frame`. -/
def listPaNextFrame (lists : PageLists) (c : ListPaCtx) :
    Except Fault (PageIdx × ListPaCtx) :=
  if c.pagesLeft ≠ 0 then
    match c.curr with
    | none => .error (.pageFault LIST_POISON1)
    | some curr => do
        let f ← containerOf lists.caches curr
        return (f, { c with curr := lists.links.next curr, pagesLeft := c.pagesLeft - 1 })
  else .ok (INVALID_PAGE_IDX, c)

/-- `pageaccs_list_pa`. -/
def pageaccsListPa (lists : κ → PageLists) (alloc : PageAllocator κ) :
    PageFrameAccessor (ListPaCtx × κ) where
  framesLeft c := c.1.pagesLeft
  nextFrame c := do
    let (frame, ctx) ← listPaNextFrame (lists c.2) c.1
    return (frame, (ctx, c.2))
  reset c := (listPaReset c.1, c.2)
  allocPage := pageaccsAllocPageStub alloc

end MString
