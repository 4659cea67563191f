import MString.Lib.Loop
import MString.Lib.Traced
import MString.Mm.Mm

/-!
# `MString.Eza.BootMap`: the copy of the loader's memory map

The part of `eza/amd64/boot.S` behind `mmap_valid`. It runs in 64-bit mode, but reads the
map through 32-bit registers. Memory is by virtual address: that low memory is mapped a
second time at the kernel's addresses is left out.
-/

set_option autoImplicit false

namespace MString

open ByteMemory Traced

def E820MAP_E820_RECORDSIZE : Nat := 20

/-- The registers of `mmap_loop`, and memory. -/
structure MmapRegs where
  ecx : BitVec 32
  edx : BitVec 32
  esi : BitVec 32
  rdi : Addr
  memory : Traced

/-- The address of a long of the record at `esi`. -/
def recordLong (esi : BitVec 32) (i : Nat) : Addr := (esi + BitVec.ofNat 32 (4 * i)).setWidth 64

/-- `movl 4*(i+1)(%esi), %eax; movl %eax, 4*i(%rdi)`. -/
def copyLong (esi : BitVec 32) (rdi : Addr) (t : Traced) (i : Nat) : Traced :=
  t.storeLong (rdi + BitVec.ofNat 64 (4 * i)) (loadLong t.mem (recordLong esi (i + 1)))

/-- One turn of `mmap_loop`. -/
def mmapLoop (s : MmapRegs) : Except Unit (MmapRegs ⊕ MmapRegs) :=
  if s.ecx.toInt ≤ 0 then .ok (.inr s)
  else
    -- The halves of the base and of the length, and the type.
    let memory := [0, 1, 2, 3, 4].foldl (copyLong s.esi s.rdi) s.memory
    let eax := loadLong memory.mem (recordLong s.esi 0) + 4
    .ok (.inl
      { ecx := s.ecx - eax
        edx := s.edx + 1
        esi := s.esi + eax
        rdi := s.rdi + BitVec.ofNat 64 E820MAP_E820_RECORDSIZE
        memory := memory })

/-- `mmap_valid`. The structure of the loader is at `ebx`. -/
def mmapValid (e820table : Addr) (ebx : BitVec 32) (t : Traced) : MmapRegs :=
  { ecx := loadLong t.mem ((ebx + 44).setWidth 64)
    edx := 0
    esi := loadLong t.mem ((ebx + 48).setWidth 64)
    rdi := e820table
    memory := t }

/-- `mmap_invalid`: `movl %edx, e820count`. -/
def mmapInvalid (e820count : Addr) (s : MmapRegs) : Traced := s.memory.storeLong e820count s.edx

end MString
