import MString.Eza.List
import MString.Mm.Pt

/-!
# `MString.Mm.PageAlloc`: the page allocator

`mm/pagealloc.c` over the lists of `include/mm/mm.h`. Every `page_frame_t` is an
element of `page_frames_array` and is named by its index, which is its `idx`.

A frame is linked into a list by its `active_list`, so the nodes of the lists are
the frames and the heads in the zones and the per-CPU caches (`ListPtr`).

`alloc_page` believes the counter of its cache. Where the counter is ahead of the list, as
`initialize_percpu_caches` leaves it, the last node that is taken is the head of the list
itself. `container_of` makes a frame of the head too, and that frame's `idx` is the word
which stands behind the head: the counter. So the caller of the model gets the number that
the real one reads. The second such call follows the poisoned pointer of the head, into
bytes of the kernel image, and there the model ends.
-/

set_option autoImplicit false

namespace MString

/-- `memory_zone_type_t`. -/
inductive ZoneType where
  | dma
  | normal
deriving DecidableEq, Repr

/-- The list heads of the memory manager. -/
inductive ListPtr where
  /-- `page_frames_array[idx].active_list`. -/
  | frame (idx : PageIdx)
  /-- `memory_zones[zone].pages`. -/
  | pages (zone : ZoneType)
  /-- `memory_zones[zone].reserved_pages`. -/
  | reservedPages (zone : ZoneType)
  /-- `percpu_page_cache[cpu].pages`. -/
  | cachePages (cpu : Nat)
deriving DecidableEq, Repr

/-- The counters of a `percpu_page_cache_t`. `num_free_pages` stands right behind the head
`pages`. -/
structure PercpuPageCache where
  numFreePages : PageIdx
  totalPages : PageIdx
deriving DecidableEq, Repr

/-- `container_of(l, page_frame_t, active_list)->idx`, the word 16 bytes behind `l`. Behind
the head of a cache that is its counter. Behind the heads of a zone stand half a pointer and
a lock, which the model does not have. -/
def containerOf (caches : Nat → PercpuPageCache) : ListPtr → Except Fault PageIdx
  | .frame idx => .ok idx
  | .cachePages cpu => .ok (caches cpu).numFreePages
  | .pages _ | .reservedPages _ => .error .notAFrame

/-- What the page allocator keeps. -/
structure PageLists where
  links : ListHeads ListPtr
  caches : Nat → PercpuPageCache

def PAF_DMA_PAGE : PageFlags := 1

/-- Where `idx` stands in a `page_frame_t`, behind the `active_list`. -/
def PAGE_FRAME_IDX_OFFSET : Uintptr := 16

/-- `arch_clean_page`. Page zero is not mapped, so the load of `frame->idx` from a
null pointer is refused. -/
def archCleanPage (frame : Option PageIdx) (m : Mem) : Except Fault Mem :=
  match frame with
  | some pf => .ok (m.clean pf)
  | none => .error (.pageFault PAGE_FRAME_IDX_OFFSET)

/-- The part of `alloc_page` between `LOCK_CACHE` and `UNLOCK_CACHE`. The page is named by
the `idx` that its caller reads from it. -/
def takePage (cpu : Nat) (c : PageLists) : Except Fault (Option PageIdx × PageLists) :=
  if (c.caches cpu).numFreePages > 0 then
    match c.links.next (.cachePages cpu) with
    | none => .error (.pageFault (LIST_POISON1 + 8))
    | some l => do
        let links ← listDel c.links l
        let cache := { c.caches cpu with numFreePages := (c.caches cpu).numFreePages - 1 }
        let caches := Function.update c.caches cpu cache
        let page ← containerOf caches l
        return (some page, ⟨links, caches⟩)
  else return (none, c)

/-- `alloc_page` on the processor `cpu`. -/
def allocPage (cpu : Nat) (flags : PageFlags) (cleanPage : Bool) (s : Machine PageLists) :
    Except Fault (Option PageIdx × Machine PageLists) := do
  if flags &&& PAF_DMA_PAGE ≠ 0 then return (none, s)
  let (page, c) ← takePage cpu s.ctx
  if cleanPage then
    let mem ← archCleanPage page s.mem
    return (page, ⟨mem, c⟩)
  else return (page, ⟨s.mem, c⟩)

/-- One call of `alloc_page`, for runs. -/
structure AllocCall where
  flags : PageFlags
  cleanPage : Bool
deriving DecidableEq, Repr

/-- A call with the state it met, its result and the state it left. -/
structure AllocStep where
  before : Machine PageLists
  call : AllocCall
  result : Option PageIdx
  after : Machine PageLists

/-- The calls of a list in turn. -/
def allocTrace (cpu : Nat) :
    List AllocCall → Machine PageLists → Except Fault (List AllocStep)
  | [], _ => .ok []
  | call :: calls, s => do
      let (result, s') ← allocPage cpu call.flags call.cleanPage s
      let steps ← allocTrace cpu calls s'
      return ⟨s, call, result, s'⟩ :: steps

end MString
