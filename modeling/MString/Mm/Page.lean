import MString.Types

/-!
# `MString.Mm.Page`: page constants, frames and table entries

The constants and address macros of `include/eza/amd64/page.h`, the frame
accessors of `include/mm/pagealloc.h`, and the one layout that the four entry
types of `pt.c` and `types.h` share: a 64-bit word of bit-fields.

`Mem` is what the kernel sees through the window at `KERNEL_BASE`: a table entry
for the address of each aligned word.
-/

set_option autoImplicit false

namespace MString

def PAGE_WIDTH : Nat := 12
def PAGE_SIZE : Uintptr := 0x1000
def PAGE_ADDR_MASK : Uintptr := ~~~(PAGE_SIZE - 1)

def KERNEL_BASE : Uintptr := 0xffffffff80000000
def KERNEL_OFFSET : Uintptr := 0xffff800000000000
def MAX_VIRT_ADDRESS : Uintptr := 0xffffffffffffffff

/-- `_k2p`. -/
def k2p (p : Uintptr) : Uintptr :=
  if p > KERNEL_BASE then p - KERNEL_BASE else p - KERNEL_OFFSET

/-- `p2k_code`. -/
def p2kCode (p : Uintptr) : Uintptr := p + KERNEL_BASE

/-- `pframe_to_virt`. The product is a 32-bit one. -/
def pframeToVirt (frame : PageIdx) : Uintptr :=
  KERNEL_BASE + (frame * 0x1000#32).setWidth 64

/-- `pframe_phys_addr`. -/
def pframePhysAddr (frame : PageIdx) : Uintptr := frame.setWidth 64 * PAGE_SIZE

/-- `virt_to_phys`. -/
def virtToPhys (virt : Uintptr) : Uintptr := virt - KERNEL_BASE

/-- `pframe_id_to_virt`, whose product is a 32-bit one, too. -/
def pframeIdToVirt (idx : PageIdx) : Uintptr := KERNEL_BASE + (idx * 0x1000#32).setWidth 64

/-- `virt_to_pframe_id`. -/
def virtToPframeId (virt : Uintptr) : PageIdx := ((virt - KERNEL_BASE) >>> PAGE_WIDTH).setWidth 32

/-! ### Entries -/

/-- One translation entry. The bits 6 to 8 are `reserved_6_8` in a `pml4_entry_t`
and a `pdp3_entry_t`, `x6`, `page_size`, `x8` in a `pde2_entry_t`, and `d`,
`pat`, `g` in a `pte_t`. -/
structure TlbEntry where
  present : Bool
  rw : Bool
  us : Bool
  pwt : Bool
  pcd : Bool
  a : Bool
  bit6 : Bool
  bit7 : Bool
  bit8 : Bool
  available_9_11 : BitVec 3
  base_0_19 : BitVec 20
  base_20_39 : BitVec 20
  available_52_62 : BitVec 11
  nx : Bool
deriving DecidableEq, Repr

/-- The entry of a zeroed word. -/
def TlbEntry.zero : TlbEntry :=
  ⟨false, false, false, false, false, false, false, false, false, 0, 0, 0, 0, false⟩

/-- `base_0_19 | (base_20_39 << 20)`, computed in a 32-bit `int`. -/
def TlbEntry.base (e : TlbEntry) : BitVec 32 :=
  e.base_0_19.setWidth 32 ||| (e.base_20_39.setWidth 32 <<< 20)

/-- `p2k_code((base_0_19 | (base_20_39 << 20)) << 12)`: where the walkers find
the table an entry refers to. The `int` is sign-extended to the address width. -/
def TlbEntry.table (e : TlbEntry) : Uintptr :=
  p2kCode ((e.base <<< 12).signExtend 64)

/-- The two base fields set to the page frame number `pfn`. -/
def TlbEntry.setBase (e : TlbEntry) (pfn : Uintptr) : TlbEntry :=
  { e with
    base_0_19 := (pfn &&& 0xfffff).setWidth 20
    base_20_39 := ((pfn >>> 20) &&& 0xfffff).setWidth 20 }

/-- `ptl*_index_arch`: `(vp >> shift) & 0x1ff`. -/
def ptlIndex (shift : Nat) (vp : Uintptr) : Fin 512 :=
  ⟨((vp >>> shift) &&& 0x1ff).toNat, by
    rw [BitVec.toNat_and]
    exact Nat.lt_of_le_of_lt Nat.and_le_right (by decide)⟩

/-- A pointer to an entry: the table it was computed from and the offset from the
table's start, in entries. -/
structure EntryPtr where
  table : Uintptr
  index : Nat
deriving DecidableEq, Repr

/-- The address a pointer stands for. -/
def EntryPtr.addr (p : EntryPtr) : Uintptr := p.table + BitVec.ofNat 64 (8 * p.index)

/-- `p++`. -/
def EntryPtr.next (p : EntryPtr) : EntryPtr := { p with index := p.index + 1 }

/-- The entries in memory, by address. -/
abbrev Mem := Uintptr → TlbEntry

/-- A memory with one entry changed. -/
def Mem.set (m : Mem) (a : Uintptr) (e : TlbEntry) : Mem :=
  fun x => if x = a then e else m x

/-- `arch_clean_page`: `memset(pframe_to_virt(frame), 0, PAGE_SIZE)`. -/
def Mem.clean (m : Mem) (frame : PageIdx) : Mem :=
  fun x => if x - pframeToVirt frame < PAGE_SIZE then .zero else m x

/-- A load through the pointer `p`, where `mapped` are the pointers the MMU
answers. -/
def readEntry (mapped : EntryPtr → Bool) (m : Mem) (p : EntryPtr) : Except Fault TlbEntry :=
  if mapped p then .ok (m p.addr) else .error (.pageFault p.addr)

/-- A store through the pointer `p`. -/
def writeEntry (mapped : EntryPtr → Bool) (m : Mem) (p : EntryPtr) (e : TlbEntry) :
    Except Fault Mem :=
  if mapped p then .ok (m.set p.addr e) else .error (.pageFault p.addr)

/-- The kernel window: physical memory appears from `KERNEL_BASE` to the end of
the address space. A pointer that runs past the end wraps to low addresses,
where no table lives; page zero is kept unmapped to catch exactly that. -/
def kernelWindow (p : EntryPtr) : Bool := KERNEL_BASE ≤ p.addr

end MString
