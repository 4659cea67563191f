import MString.Mlibc.String

/-!
# `MString.Eza.Strmem`: the memory functions of the architecture

`eza/amd64/strmem.c`: `memset`, `memcpy` and `memcmp` with string instructions. The macros
`ARCH_MEMSET`, `ARCH_MEMCPY` and `ARCH_MEMCMP`, which would put them in the place of those in
`include/mlibc/string.h`, are commented out in `memstr.h`.

The direction flag is clear, so the instructions go up through memory.
-/

set_option autoImplicit false

namespace MString

open ByteMemory

/-- `rep movsq`, with the count in `%rcx`. It leaves the addresses behind the last quadwords. -/
def repMovsq : Nat → (rdi rsi : Addr) → Memory → Addr × Addr × Memory
  | 0, rdi, rsi, m => (rdi, rsi, m)
  | rcx + 1, rdi, rsi, m => repMovsq rcx (rdi + 8) (rsi + 8) (store m rdi (load m rsi))

/-- `rep movsb`. -/
def repMovsb : Nat → (rdi rsi : Addr) → Memory → Memory
  | 0, _, _, m => m
  | rcx + 1, rdi, rsi, m => repMovsb rcx (rdi + 1) (rsi + 1) (Function.update m rdi (m rsi))

/-- `rep stosb`. -/
def repStosb (sym : Byte) : Nat → (rdi : Addr) → Memory → Memory
  | 0, _, m => m
  | rcx + 1, rdi, m => repStosb sym rcx (rdi + 1) (Function.update m rdi sym)

/-- `repe cmpsb`: what is left of the count, and the zero flag. With a count of zero no byte
is compared, and the flag is the one from before. -/
def repeCmpsb (m : Memory) : Nat → (rsi rdi : Addr) → Bool → Nat × Bool
  | 0, _, _, zf => (0, zf)
  | rcx + 1, rsi, rdi, _ =>
      if m rsi = m rdi then repeCmpsb m rcx (rsi + 1) (rdi + 1) true else (rcx, false)

/-- `arch_memcpy`: the quadwords, and then what is left over. -/
def archMemcpy (dest src : Addr) (size : Uintptr) (m : Memory) : Memory :=
  let (rdi, rsi, m) := repMovsq (size / 8).toNat dest src m
  let rcx := size &&& 7
  if rcx = 0 then m else repMovsb rcx.toNat rdi rsi m

/-- `arch_memset`. -/
def archMemset (dest : Addr) (s : Byte) (size : Uintptr) (m : Memory) : Memory :=
  repStosb s size.toNat dest m

/-- `arch_memcmp`, with the zero flag before the first comparison. The result is the count at
the first difference, cut to an `int`. -/
def archMemcmp (zf : Bool) (dest src : Addr) (size : Uintptr) (m : Memory) : Int :=
  let (rcx, zf) := repeCmpsb m size.toNat src dest zf
  let ret : Word := if zf then 0 else BitVec.ofNat 64 rcx + 1
  (ret.setWidth 32).toInt

end MString
