import MString.Lib.Loop
import MString.Mm.Page

/-!
# `MString.Mm.Pt`: the four-level table walkers

`eza/amd64/mm/pt.c`: `mm_map_pages` and the three range walkers below it, the
`populate_*_entry` functions that hang new tables, and `mm_pin_virtual_address`.

`map_pml4_range` and `map_pdp3_range` are one loop with different constants.
`mapTableRange` is that loop; each walker is it at its own level.

The walkers take frames from a `page_frame_accessor_t`. `σ` is whatever its
callbacks keep: its context and the allocator behind `alloc_page`.
-/

set_option autoImplicit false

namespace MString

def PTE_ENTRIES_PER_PAGE : Uintptr := 512

def L1_ENTRY_RANGE : Uintptr := PAGE_SIZE
def L2_ENTRY_RANGE : Uintptr := L1_ENTRY_RANGE * PTE_ENTRIES_PER_PAGE
def L3_ENTRY_RANGE : Uintptr := L2_ENTRY_RANGE * PTE_ENTRIES_PER_PAGE
def L4_ENTRY_RANGE : Uintptr := L3_ENTRY_RANGE * PTE_ENTRIES_PER_PAGE

def L2_ADDR_MASK : Uintptr := ~~~(L2_ENTRY_RANGE - 1)
def L3_ADDR_MASK : Uintptr := ~~~(L3_ENTRY_RANGE - 1)
def L4_ADDR_MASK : Uintptr := ~~~(L4_ENTRY_RANGE - 1)

/-- `INVALID_PAGE_IDX`, which `mm_pin_virtual_address` answers for an address without a page. -/
def INVALID_PAGE_IDX : PageIdx := 0xffffffff

def PF_KERNEL_PAGE : PageFlags := 0x1
def PF_IO_PAGE : PageFlags := 0x2

/-- `page_directory_t`. -/
structure PageDirectory where
  entries : Uintptr
deriving DecidableEq, Repr

/-- Memory and what the accessor's callbacks keep. -/
structure Machine (σ : Type) where
  mem : Mem
  ctx : σ

/-- `page_frame_accessor_t`. Frames are named by their index, which is all that
`pframe_number` reads of them. -/
structure PageFrameAccessor (σ : Type) where
  framesLeft : σ → PageIdx
  nextFrame : σ → Except Fault (PageIdx × σ)
  reset : σ → σ
  allocPage : PageFlags → Bool → Machine σ → Except Fault (Option PageIdx × Machine σ)

/-- What one walk is given: the pointers the MMU answers, the accessor and the
page flags. -/
structure WalkEnv (σ : Type) where
  mapped : EntryPtr → Bool
  pacc : PageFrameAccessor σ
  flags : PageFlags

variable {σ : Type}

/-! ### Populating an entry -/

/-- The common part of `populate_*_entry`: take a clean page and let `fields`
write its number into the entry. -/
def populateEntry (fields : Uintptr → TlbEntry → TlbEntry) (env : WalkEnv σ)
    (entry : EntryPtr) (s : Machine σ) : Except Fault (Status × Machine σ) := do
  let (pf, s) ← env.pacc.allocPage env.flags true s
  match pf with
  | some pf =>
      let pfn : Uintptr := pf.setWidth 64
      let e ← readEntry env.mapped s.mem entry
      let mem ← writeEntry env.mapped s.mem entry (fields pfn e)
      return (0, { s with mem := mem })
  | none => return (-ENOMEM, s)

/-- The assignments of `populate_pml4_entry` and `populate_pdp3_entry`. -/
def pdp3Fields (pfn : Uintptr) (e : TlbEntry) : TlbEntry :=
  { e with
    present := true, rw := true, us := false, pwt := false, pcd := false, a := false,
    bit6 := false, bit7 := false, bit8 := false,
    available_9_11 := 0, available_52_62 := 0, nx := false }.setBase pfn

/-- The assignments of `populate_pde2_entry`, which leaves `available_9_11`. -/
def pde2Fields (pfn : Uintptr) (e : TlbEntry) : TlbEntry :=
  { e with
    present := true, rw := true, us := false, pwt := false, pcd := false, a := false,
    bit6 := false, bit7 := false, bit8 := false,
    available_52_62 := 0, nx := false }.setBase pfn

/-- `populate_pml4_entry`. -/
def populatePml4Entry (env : WalkEnv σ) (entry : EntryPtr) (s : Machine σ) :
    Except Fault (Status × Machine σ) := populateEntry pdp3Fields env entry s

/-- `populate_pdp3_entry`. -/
def populatePdp3Entry (env : WalkEnv σ) (entry : EntryPtr) (s : Machine σ) :
    Except Fault (Status × Machine σ) := populateEntry pdp3Fields env entry s

/-- `populate_pde2_entry`. -/
def populatePde2Entry (env : WalkEnv σ) (entry : EntryPtr) (s : Machine σ) :
    Except Fault (Status × Machine σ) := populateEntry pde2Fields env entry s

/-! ### The range walkers -/

/-- The leaf entry that `map_pde2_range` writes: every field of the `pte_t`. -/
def leafEntry (flags : PageFlags) (frameIdx : PageIdx) : TlbEntry :=
  { TlbEntry.zero with
    present := true, rw := true,
    us := flags &&& PF_KERNEL_PAGE = 0,
    pcd := flags &&& PF_IO_PAGE ≠ 0,
    bit8 := true }.setBase (frameIdx.setWidth 64)

/-- One turn of the loop of `map_pde2_range`, in the page table at `v`. -/
def pde2Turn (env : WalkEnv σ) (v endAddr : Uintptr) :
    Uintptr × Machine σ → Except Fault (Uintptr × Machine σ ⊕ Status × Machine σ)
  | (virtAddr, s) => do
      let pte : EntryPtr := ⟨v, ptlIndex 12 virtAddr⟩
      let (frameIdx, ctx) ← env.pacc.nextFrame s.ctx
      let mem ← writeEntry env.mapped s.mem pte (leafEntry env.flags frameIdx)
      let virtAddr := virtAddr + L1_ENTRY_RANGE
      if virtAddr < endAddr then return .inl (virtAddr, ⟨mem, ctx⟩)
      else return .inr (0, ⟨mem, ctx⟩)

/-- `map_pde2_range`, in the page table that its entry refers to. -/
def mapPde2Range (env : WalkEnv σ) (pde2 : EntryPtr) (virtAddr endAddr : Uintptr)
    (s : Machine σ) : Except Fault (Status × Machine σ) := do
  let e ← readEntry env.mapped s.mem pde2
  Loop.run .diverges (pde2Turn env e.table endAddr) TURNS (virtAddr, s)

/-- What the loop of a table range works on: `virt_addr`, `length`, the entry
pointer and the machine. -/
structure RangeState (σ : Type) where
  virtAddr : Uintptr
  length : Uintptr
  entry : EntryPtr
  machine : Machine σ

/-- The constants of one walker: the bytes one of its entries covers, the mask of
such a block, the shift of the table index, and what populates an entry. -/
structure RangeLevel (σ : Type) where
  range : Uintptr
  mask : Uintptr
  shift : Nat
  populate : WalkEnv σ → EntryPtr → Machine σ → Except Fault (Status × Machine σ)

/-- A walker for the block under one entry. -/
abbrev BlockWalker (σ : Type) :=
  WalkEnv σ → EntryPtr → Uintptr → Uintptr → Machine σ → Except Fault (Status × Machine σ)

/-- `if( !tlb_entry_valid(e) ) populate(e)`. -/
def ensureEntry (populate : WalkEnv σ → EntryPtr → Machine σ → Except Fault (Status × Machine σ))
    (env : WalkEnv σ) (entry : EntryPtr) (s : Machine σ) : Except Fault (Status × Machine σ) := do
  let e ← readEntry env.mapped s.mem entry
  if e.present then return (0, s) else populate env entry s

/-- Where a turn at `virtAddr` stops: the end of the range, or the next block
boundary if that comes first. -/
def RangeLevel.toAddr (l : RangeLevel σ) (virtAddr length : Uintptr) : Uintptr :=
  let toAddr := virtAddr + length
  if toAddr > ((virtAddr + l.range) &&& l.mask) then (virtAddr + l.range) &&& l.mask
  else toAddr

/-- One turn of the loop of `map_pml4_range` and `map_pdp3_range`. -/
def rangeTurn (l : RangeLevel σ) (block : BlockWalker σ) (env : WalkEnv σ) (endAddr : Uintptr)
    (st : RangeState σ) : Except Fault (RangeState σ ⊕ Status × Machine σ) := do
  let (r, s) ← ensureEntry l.populate env st.entry st.machine
  if r ≠ 0 then return .inr (-ENOMEM, s)
  let toAddr := l.toAddr st.virtAddr st.length
  let length := st.length - (toAddr - st.virtAddr)
  let (r, s) ← block env st.entry st.virtAddr toAddr s
  if r ≠ 0 then return .inr (-ENOMEM, s)
  if toAddr < endAddr then return .inl ⟨toAddr, length, st.entry.next, s⟩
  else return .inr (0, s)

/-- The loop itself, started at the entry for `virt_addr` in the table that
`entry` refers to. -/
def mapTableRange (l : RangeLevel σ) (block : BlockWalker σ) (env : WalkEnv σ)
    (entry : EntryPtr) (virtAddr endAddr : Uintptr) (s : Machine σ) :
    Except Fault (Status × Machine σ) := do
  let e ← readEntry env.mapped s.mem entry
  Loop.run .diverges (rangeTurn l block env endAddr) TURNS
    ⟨virtAddr, endAddr - virtAddr, ⟨e.table, ptlIndex l.shift virtAddr⟩, s⟩

/-- The constants of `map_pdp3_range`, whose entries cover 2 MB. -/
def pde2Level : RangeLevel σ := ⟨L2_ENTRY_RANGE, L2_ADDR_MASK, 21, populatePde2Entry⟩

/-- Those of `map_pml4_range`, whose entries cover 1 GB. -/
def pdp3Level : RangeLevel σ := ⟨L3_ENTRY_RANGE, L3_ADDR_MASK, 30, populatePdp3Entry⟩

/-- `map_pdp3_range`. -/
def mapPdp3Range : BlockWalker σ := mapTableRange pde2Level mapPde2Range

/-- `map_pml4_range`. -/
def mapPml4Range : BlockWalker σ := mapTableRange pdp3Level mapPdp3Range

/-! ### The entry points -/

/-- The body of `mm_map_pages` once its arguments are accepted. Its `do` loop ends
in a `break`, so it takes one turn. -/
def mapAccepted (env : WalkEnv σ) (pd : PageDirectory) (virtAddr endAddr : Uintptr)
    (s : Machine σ) : Except Fault (Status × Machine σ) := do
  let virtAddr := virtAddr &&& PAGE_ADDR_MASK
  let pml4 : EntryPtr := ⟨pd.entries, ptlIndex 39 virtAddr⟩
  let length := endAddr - virtAddr
  let (r, s) ← ensureEntry populatePml4Entry env pml4 s
  if r ≠ 0 then return (-ENOMEM, s)
  let toAddr := virtAddr + length
  let toAddr :=
    if virtAddr < MAX_VIRT_ADDRESS - L4_ENTRY_RANGE ∧
        toAddr > ((virtAddr + L4_ENTRY_RANGE) &&& L4_ADDR_MASK) then
      (virtAddr + L4_ENTRY_RANGE) &&& L4_ADDR_MASK
    else toAddr
  let (r, s) ← mapPml4Range env pml4 virtAddr toAddr s
  if r ≠ 0 then return (-ENOMEM, s)
  return (0, s)

/-- The arguments `mm_map_pages` answers with `-EINVAL`, null pointers apart. -/
def Refused (pd : PageDirectory) (virtAddr numPages : Uintptr) : Prop :=
  pd.entries = 0 ∨ numPages = 0 ∨ virtAddr = 0 ∨ pd.entries &&& ~~~PAGE_ADDR_MASK ≠ 0 ∨
    virtAddr + numPages * PAGE_SIZE < virtAddr ∨
    virtAddr + numPages * PAGE_SIZE > MAX_VIRT_ADDRESS

instance (pd : PageDirectory) (virtAddr numPages : Uintptr) :
    Decidable (Refused pd virtAddr numPages) := by
  unfold Refused
  infer_instance

/-- `mm_map_pages`. A null directory or accessor is `none`. -/
def mmMapPages (mapped : EntryPtr → Bool) (pd : Option PageDirectory)
    (pacc : Option (PageFrameAccessor σ)) (virtAddr numPages : Uintptr) (flags : PageFlags)
    (s : Machine σ) : Except Fault (Status × Machine σ) :=
  match pd, pacc with
  | some pd, some pacc =>
      if Refused pd virtAddr numPages then .ok (-EINVAL, s)
      else mapAccepted ⟨mapped, pacc, flags⟩ pd virtAddr
        (virtAddr + numPages * PAGE_SIZE) s
  | _, _ => .ok (-EINVAL, s)

/-- `mm_pin_virtual_address`. -/
def mmPinVirtualAddress (mapped : EntryPtr → Bool) (m : Mem) (pd : PageDirectory)
    (virtAddr : Uintptr) : Except Fault PageIdx := do
  let pml4 ← readEntry mapped m ⟨pd.entries, ptlIndex 39 virtAddr⟩
  if pml4.present then
    let pdp3 ← readEntry mapped m ⟨pml4.table, ptlIndex 30 virtAddr⟩
    if pdp3.present then
      let pde2 ← readEntry mapped m ⟨pdp3.table, ptlIndex 21 virtAddr⟩
      if pde2.present then
        let pte ← readEntry mapped m ⟨pde2.table, ptlIndex 12 virtAddr⟩
        if pte.present then return pte.base
        else return INVALID_PAGE_IDX
      else return INVALID_PAGE_IDX
    else return INVALID_PAGE_IDX
  else return INVALID_PAGE_IDX

end MString
