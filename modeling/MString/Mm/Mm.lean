import MString.Mm.PageAlloc

/-!
# `MString.Mm.Mm`: building the page array

`mm/mm.c`: `build_page_array` with `detect_physical_memory`, `initialize_page_array`
and `initialize_percpu_caches`.

The records of `e820table` come from the loader. The array is static, so the records
behind the last one are zero, and there is none behind the array. `NR_CPUS` and the
address of `kdata_end`, where `page_frames_array` starts, are parameters.

What is printed is left out, and so are the locks and the `refcount` of a frame.
-/

set_option autoImplicit false

namespace MString

def KERNEL_PHYS_START : Uintptr := 0x100000
def MIN_PHYS_MEMORY_REQUIRED : Uintptr := 0x1800000

def E820MAP_E820_MAXRECORDS : Nat := 32
def E820_USABLE : BitVec 32 := 1

/-- `e820memmap_t`. -/
structure E820MemMap where
  baseAddress : Uintptr
  lengthLow : BitVec 32
  lengthHigh : BitVec 32
  type : BitVec 32
deriving DecidableEq, Repr

/-- `((uintptr_t)length_high << 32) | length_low`. -/
def E820MemMap.length (m : E820MemMap) : Uintptr :=
  (m.lengthHigh.setWidth 64 <<< 32) ||| m.lengthLow.setWidth 64

/-- `e820table` and `e820count`. -/
structure E820Table where
  entries : List E820MemMap
  fits : entries.length ≤ E820MAP_E820_MAXRECORDS

namespace E820Table

/-- `e820count`. -/
def count (t : E820Table) : Nat := t.entries.length

/-- The record `i` of the static array. -/
def entry (t : E820Table) (i : Nat) : E820MemMap := t.entries.getD i ⟨0, 0, 0, 0⟩

/-- `e820table[i]`. -/
def read (t : E820Table) (i : Nat) : Except Fault E820MemMap :=
  if i < E820MAP_E820_MAXRECORDS then .ok (t.entry i) else .error (.outOfBounds i)

end E820Table

/-- `detect_physical_memory`: `max_phys_addr`. -/
def detectPhysicalMemory (t : E820Table) : Except Fault Uintptr :=
  match t.entries.find? fun m => m.baseAddress == KERNEL_PHYS_START && m.type == 1 with
  | none =>
      .error (.panic
        "detect_physical_memory(): No valid E820 memory maps found for main physical memory area !\n")
  | some mmap =>
      let minPhysAddr : Uintptr := 0
      let maxPhysAddr := mmap.baseAddress + mmap.length
      -- The difference is the wrong way round.
      if maxPhysAddr ≤ minPhysAddr ∨ minPhysAddr - maxPhysAddr ≤ MIN_PHYS_MEMORY_REQUIRED then
        .error (.panic
          "detect_physical_memory(): Insufficient E820 memory map found for main physical memory area !\n")
      else .ok maxPhysAddr

/-- `dma_pages`: the frames of the first 16 MB. -/
def DMA_PAGES : PageIdx := 4096

/-! ### Zones -/

/-- The counters of a `memory_zone_t`. -/
structure MemoryZone where
  numTotalPages : PageIdx
  numFreePages : PageIdx
  numReservedPages : PageIdx
deriving DecidableEq, Repr

/-- What the memory manager keeps: the lists and the per-CPU caches, `memory_zones`, and
the `flags` of every `page_frame_t`. -/
structure MemoryManager where
  lists : PageLists
  zones : ZoneType → MemoryZone
  flags : PageIdx → PageFlags

def PAGE_RESERVED : PageFlags := 1 <<< 2

/-- `zone->type`. -/
def ZoneType.flags : ZoneType → PageFlags
  | .dma => 0
  | .normal => 1

/-- `initialize_zones`. -/
def initializeZones (mm : MemoryManager) : MemoryManager :=
  let init (h : ListHeads ListPtr) (zone : ZoneType) :=
    initListHead (initListHead h (.pages zone)) (.reservedPages zone)
  { mm with
    lists := { mm.lists with links := init (init mm.lists.links .dma) .normal }
    zones := fun _ => ⟨0, 0, 0⟩ }

/-! ### The page array -/

/-- `sizeof(page_frame_t)`. -/
def PAGE_FRAME_SIZE : Uintptr := 40

/-- `&page_frames_array[idx]`. -/
def pageFrameAt (pageFramesArray : Uintptr) (idx : PageIdx) : Uintptr :=
  pageFramesArray + PAGE_FRAME_SIZE * idx.setWidth 64

/-- The part of the kernel window that the boot tables map: `ptl_1` has one entry for it. -/
def BOOT_WINDOW_SIZE : Uintptr := 0x40000000

/-- An access to `page_frames_array[idx]`. `initialize_page_array` runs under the tables of
`boot.S`, before `arch_remap_memory`, and the array begins in the kernel window. Behind the
gigabyte that these tables map there is nothing, so an element that is not inside of it as
a whole faults. -/
def accessPageFrame (pageFramesArray : Uintptr) (idx : PageIdx) : Except Fault Unit :=
  let page := pageFrameAt pageFramesArray idx
  if KERNEL_BASE ≤ page ∧ page - KERNEL_BASE + PAGE_FRAME_SIZE ≤ BOOT_WINDOW_SIZE then .ok ()
  else .error (.pageFault page)

def kernelStartPage : PageIdx := (KERNEL_PHYS_START / PAGE_SIZE).setWidth 32

/-- `kernel_end_page`: the pages of the kernel image and those of the page array, each
rounded down, from the kernel's first page on. -/
def kernelEndPage (kdataEnd maxPhysAddr : Uintptr) : PageIdx :=
  ((kdataEnd - KERNEL_BASE - KERNEL_PHYS_START) / PAGE_SIZE).setWidth 32
    + (maxPhysAddr / PAGE_SIZE * PAGE_FRAME_SIZE / PAGE_SIZE).setWidth 32
    + kernelStartPage

/-- Where the loop of `initialize_page_array` stands in the memory map. -/
structure MapScan where
  e820id : Nat
  mmapBegin : Uintptr
  mmapEnd : Uintptr
  type : BitVec 32
  justLeft : Bool
deriving DecidableEq, Repr

/-- The first record, whose start is not rounded. -/
def firstMap (t : E820Table) : MapScan :=
  let mmap := t.entry 0
  ⟨0, mmap.baseAddress, (mmap.baseAddress + mmap.length) &&& PAGE_ADDR_MASK, mmap.type, false⟩

/-- Switch to the next E820 map, when the current one has just been left. -/
def nextMap (t : E820Table) (sc : MapScan) : Except Fault MapScan :=
  if sc.e820id < t.count then do
    let mmap ← t.read (sc.e820id + 1)
    return ⟨sc.e820id + 1, mmap.baseAddress &&& PAGE_ADDR_MASK,
      (mmap.baseAddress + mmap.length) &&& PAGE_ADDR_MASK, mmap.type, true⟩
  else return { sc with mmapBegin := 0, mmapEnd := 0, justLeft := true }

/-- The variables of the loop. -/
structure PageArrayState where
  scan : MapScan
  currAddr : Uintptr
  pageIdx : PageIdx
  mm : MemoryManager

/-- Locate the zone that a page belongs to. -/
def zoneOf (pageIdx : PageIdx) : ZoneType := if pageIdx < DMA_PAGES then .dma else .normal

/-- The end of the loop's body: the current page, on the list for free pages or on the
one for reserved pages. The kernel's pages are reserved in any case. -/
def initializePage (kdataEnd maxPhysAddr : Uintptr) (usable : Bool) (st : PageArrayState) :
    Except Fault PageArrayState := do
  let idx := st.pageIdx
  let zone := zoneOf idx
  let reserved := !usable ||
    decide (kernelStartPage ≤ idx ∧ idx ≤ kernelEndPage kdataEnd maxPhysAddr)
  accessPageFrame kdataEnd idx
  let links ← listAddTail (initListHead st.mm.lists.links (.frame idx)) (.frame idx)
    (if reserved then .reservedPages zone else .pages zone)
  let z := st.mm.zones zone
  let z := { z with numTotalPages := z.numTotalPages + 1 }
  let z :=
    if reserved then { z with numReservedPages := z.numReservedPages + 1 }
    else { z with numFreePages := z.numFreePages + 1 }
  return { st with
    currAddr := st.currAddr + PAGE_SIZE
    pageIdx := idx + 1
    mm :=
      { lists := { st.mm.lists with links := links }
        zones := Function.update st.mm.zones zone z
        flags := Function.update st.mm.flags idx
          (if reserved then zone.flags ||| PAGE_RESERVED else zone.flags) } }

/-- One turn of the loop of `initialize_page_array`. -/
def pageArrayTurn (t : E820Table) (kdataEnd maxPhysAddr : Uintptr) (st : PageArrayState) :
    Except Fault (PageArrayState ⊕ MemoryManager) :=
  if st.currAddr < maxPhysAddr then
    if st.scan.mmapBegin ≤ st.currAddr ∧ st.currAddr < st.scan.mmapEnd then do
      let st ← initializePage kdataEnd maxPhysAddr (st.scan.type == E820_USABLE)
        { st with scan := { st.scan with justLeft := false } }
      return .inl st
    else if st.scan.justLeft = false then do
      -- The current page is looked at again.
      let scan ← nextMap t st.scan
      return .inl { st with scan := scan }
    else do
      let st ← initializePage kdataEnd maxPhysAddr false st
      return .inl st
  else .ok (.inr st.mm)

/-- `initialize_page_array`. -/
def initializePageArray (t : E820Table) (kdataEnd maxPhysAddr : Uintptr) (mm : MemoryManager) :
    Except Fault MemoryManager :=
  Loop.run .diverges (pageArrayTurn t kdataEnd maxPhysAddr) TURNS ⟨firstMap t, 0, 0, mm⟩

/-! ### The per-CPU caches -/

/-- One turn of the loop that moves pages of `ZONE_NORMAL` to the cache of `cpu`, which
adds to `p` twice. -/
def movePagesTurn (cpu : Nat) (cpupages : PageIdx) :
    PageIdx × MemoryManager → Except Fault ((PageIdx × MemoryManager) ⊕ (PageIdx × MemoryManager))
  | (p, mm) =>
      let next := mm.lists.links.next (.pages .normal)
      if p < cpupages ∧ next ≠ some (.pages .normal) then
        match next with
        | none => .error (.pageFault (LIST_POISON1 + 8))
        | some l => do
            let links ← listDel mm.lists.links l
            let links ← listAddTail links l (.cachePages cpu)
            let z := mm.zones .normal
            let z := { z with
              numFreePages := z.numFreePages - 1, numTotalPages := z.numTotalPages - 1 }
            return .inl (p + 2, { mm with
              lists := { mm.lists with links := links }
              zones := Function.update mm.zones .normal z })
      else .ok (.inr (p, mm))

/-- The body of the loop over the caches, with `cpupages` for the caches so far. -/
def initializeCache (nrCpus : Nat) (st : PageIdx × MemoryManager) (cpu : Nat) :
    Except Fault (PageIdx × MemoryManager) := do
  let (cpupages, mm) := st
  let mm := { mm with
    lists := { mm.lists with links := initListHead mm.lists.links (.cachePages cpu) } }
  -- Take into account the last cache.
  let cpupages :=
    if cpupages + BitVec.ofNat 32 nrCpus ≥ (mm.zones .normal).numTotalPages then
      (mm.zones .normal).numTotalPages
    else cpupages
  let (p, mm) ← Loop.run .diverges (movePagesTurn cpu cpupages) TURNS (0, mm)
  return (cpupages, { mm with
    lists := { mm.lists with caches := Function.update mm.lists.caches cpu ⟨p, p⟩ } })

/-- `initialize_percpu_caches`. -/
def initializePercpuCaches (nrCpus : Nat) (mm : MemoryManager) : Except Fault MemoryManager := do
  let cpupages := (mm.zones .normal).numTotalPages / BitVec.ofNat 32 nrCpus
  let (_, mm) ← (List.range nrCpus).foldlM (initializeCache nrCpus) (cpupages, mm)
  return mm

/-- `build_page_array`. The table has less than 255 records. -/
def buildPageArray (t : E820Table) (kdataEnd : Uintptr) (nrCpus : Nat) (mm : MemoryManager) :
    Except Fault (Uintptr × MemoryManager) := do
  let maxPhysAddr ← detectPhysicalMemory t
  let mm ← initializePageArray t kdataEnd maxPhysAddr (initializeZones mm)
  let mm ← initializePercpuCaches nrCpus mm
  return (maxPhysAddr, mm)

end MString
