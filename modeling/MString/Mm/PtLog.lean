import MString.Mm.Pt

/-!
# `MString.Mm.PtLog`: the walkers with a log of their stores

The functions of `Mm/Pt.lean` that store an entry, with the addresses of the entries that
were stored kept beside the context of the accessor, the last one first. They do what the
functions without the log do (`mmMapPagesLogged_forget` in `Proofs/Mm/StoreLog.lean`).

`recorded` is an accessor that keeps the frames it got from `alloc_page`.
-/

set_option autoImplicit false

namespace MString

variable {σ : Type}

/-- A context with the entries that were stored. -/
abbrev Logged (σ : Type) := σ × List Uintptr

/-- An accessor that leaves the log alone. -/
def PageFrameAccessor.logged (pacc : PageFrameAccessor σ) : PageFrameAccessor (Logged σ) where
  framesLeft c := pacc.framesLeft c.1
  nextFrame c := do
    let (i, c') ← pacc.nextFrame c.1
    return (i, (c', c.2))
  reset c := (pacc.reset c.1, c.2)
  allocPage flags clean s := do
    let (pf, s') ← pacc.allocPage flags clean ⟨s.mem, s.ctx.1⟩
    return (pf, ⟨s'.mem, (s'.ctx, s.ctx.2)⟩)

/-- An accessor that keeps what `alloc_page` has returned. -/
def PageFrameAccessor.recorded (pacc : PageFrameAccessor σ) :
    PageFrameAccessor (σ × List PageIdx) where
  framesLeft c := pacc.framesLeft c.1
  nextFrame c := do
    let (i, c') ← pacc.nextFrame c.1
    return (i, (c', c.2))
  reset c := (pacc.reset c.1, c.2)
  allocPage flags clean s := do
    let (pf, s') ← pacc.allocPage flags clean ⟨s.mem, s.ctx.1⟩
    return (pf, ⟨s'.mem, (s'.ctx, pf.toList ++ s.ctx.2)⟩)

/-- A store of an entry. -/
def writeEntryLogged (mapped : EntryPtr → Bool) (s : Machine (Logged σ)) (entry : EntryPtr)
    (e : TlbEntry) : Except Fault (Machine (Logged σ)) := do
  let mem ← writeEntry mapped s.mem entry e
  return ⟨mem, (s.ctx.1, entry.addr :: s.ctx.2)⟩

/-- `populate_entry` with its store written down. -/
def populateEntryLogged (fields : Uintptr → TlbEntry → TlbEntry) (env : WalkEnv (Logged σ))
    (entry : EntryPtr) (s : Machine (Logged σ)) :
    Except Fault (Status × Machine (Logged σ)) := do
  let (pf, s) ← env.pacc.allocPage env.flags true s
  match pf with
  | some pf =>
      let pfn : Uintptr := pf.setWidth 64
      let e ← readEntry env.mapped s.mem entry
      let s ← writeEntryLogged env.mapped s entry (fields pfn e)
      return (0, s)
  | none => return (-ENOMEM, s)

/-- A turn of the lowest loop with its store written down. -/
def pde2TurnLogged (env : WalkEnv (Logged σ)) (v endAddr : Uintptr) :
    Uintptr × Machine (Logged σ) →
      Except Fault (Uintptr × Machine (Logged σ) ⊕ Status × Machine (Logged σ))
  | (virtAddr, s) => do
      let pte : EntryPtr := ⟨v, ptlIndex 12 virtAddr⟩
      let (frameIdx, ctx) ← env.pacc.nextFrame s.ctx
      let s ← writeEntryLogged env.mapped ⟨s.mem, ctx⟩ pte (leafEntry env.flags frameIdx)
      let virtAddr := virtAddr + L1_ENTRY_RANGE
      if virtAddr < endAddr then return .inl (virtAddr, s)
      else return .inr (0, s)

/-- `map_pde2_range` with its stores written down. -/
def mapPde2RangeLogged : BlockWalker (Logged σ) := fun env pde2 virtAddr endAddr s => do
  let e ← readEntry env.mapped s.mem pde2
  Loop.run .diverges (pde2TurnLogged env e.table endAddr) TURNS (virtAddr, s)

/-- The level of the page directories, with the logging populate function. -/
def pde2LevelLogged : RangeLevel (Logged σ) :=
  ⟨L2_ENTRY_RANGE, L2_ADDR_MASK, 21, populateEntryLogged pde2Fields⟩

/-- The level of the tables above them, in the same way. -/
def pdp3LevelLogged : RangeLevel (Logged σ) :=
  ⟨L3_ENTRY_RANGE, L3_ADDR_MASK, 30, populateEntryLogged pdp3Fields⟩

/-- `map_pdp3_range` with its stores written down. -/
def mapPdp3RangeLogged : BlockWalker (Logged σ) := mapTableRange pde2LevelLogged mapPde2RangeLogged

/-- `map_pml4_range` with its stores written down. -/
def mapPml4RangeLogged : BlockWalker (Logged σ) := mapTableRange pdp3LevelLogged mapPdp3RangeLogged

/-- The body of `mm_map_pages`, over the logging walkers. -/
def mapAcceptedLogged (env : WalkEnv (Logged σ)) (pd : PageDirectory) (virtAddr endAddr : Uintptr)
    (s : Machine (Logged σ)) : Except Fault (Status × Machine (Logged σ)) := do
  let virtAddr := virtAddr &&& PAGE_ADDR_MASK
  let pml4 : EntryPtr := ⟨pd.entries, ptlIndex 39 virtAddr⟩
  let length := endAddr - virtAddr
  let (r, s) ← ensureEntry (populateEntryLogged pdp3Fields) env pml4 s
  if r ≠ 0 then return (-ENOMEM, s)
  let toAddr := virtAddr + length
  let toAddr :=
    if virtAddr < MAX_VIRT_ADDRESS - L4_ENTRY_RANGE ∧
        toAddr > ((virtAddr + L4_ENTRY_RANGE) &&& L4_ADDR_MASK) then
      (virtAddr + L4_ENTRY_RANGE) &&& L4_ADDR_MASK
    else toAddr
  let (r, s) ← mapPml4RangeLogged env pml4 virtAddr toAddr s
  if r ≠ 0 then return (-ENOMEM, s)
  return (0, s)

/-- `mm_map_pages` with all its stores written down. -/
def mmMapPagesLogged (mapped : EntryPtr → Bool) (pd : Option PageDirectory)
    (pacc : Option (PageFrameAccessor σ)) (virtAddr numPages : Uintptr) (flags : PageFlags)
    (s : Machine (Logged σ)) : Except Fault (Status × Machine (Logged σ)) :=
  match pd, pacc with
  | some pd, some pacc =>
      if Refused pd virtAddr numPages then .ok (-EINVAL, s)
      else mapAcceptedLogged ⟨mapped, pacc.logged, flags⟩ pd virtAddr
        (virtAddr + numPages * PAGE_SIZE) s
  | _, _ => .ok (-EINVAL, s)

end MString
