import MString.Mlibc.String

/-!
# `MString.Mlibc.Kbuf`: the kernel buffer

`kbuf_insert` of `mlibc/kprintf.c`. The `struct kbuffer` is an area of memory: `cur_size` in
the first quadword, `size` in the second one, and `space` behind them.
-/

set_option autoImplicit false

namespace MString

open ByteMemory

def KBUF_SIZE : Nat := 4096

/-- `&__kbuf.size`. -/
def kbufSize (kbuf : Addr) : Addr := kbuf + 8

/-- `__kbuf.space`. -/
def kbufSpace (kbuf : Addr) : Addr := kbuf + 16

/-- `kbuf_insert`, with `__kbuf` at `kbuf`. -/
def kbufInsert (kbuf s : Addr) (slen : Uintptr) (t : Traced) : Uintptr × Traced :=
  if slen > load t.mem (kbufSize kbuf) then (-1, t)
  else
    let t :=
      if slen > load t.mem (kbufSize kbuf) - load t.mem kbuf then
        (memset kbuf 0 (load t.mem kbuf) t).storeWord kbuf 0
      else t
    let t := strncpy (kbufSpace kbuf + load t.mem kbuf) s slen t
    (slen, t.storeWord kbuf (load t.mem kbuf + slen))

/-- `__kbuf` as it is linked, in an otherwise arbitrary memory. -/
def kbufStatic (kbuf : Addr) (m : Memory) : Memory :=
  store (store m kbuf 0) (kbufSize kbuf) (BitVec.ofNat 64 KBUF_SIZE)

end MString
