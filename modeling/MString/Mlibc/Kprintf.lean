import Mathlib.Logic.Function.Basic
import MString.Lib.Loop
import MString.Types

/-!
# `MString.Mlibc.Kprintf`: formatted output

`vsnprintf` of `mlibc/kprintf.c` and the functions it calls. A `char` is a `Char`, and
a `va_list` is the sequence of its 8-byte slots, of which `ap` are taken.

The pair of `dest + cs` and `dsize - cs` that every helper gets is the `Sink` here, with
`dsize` beside it. A byte of the destination is `none` until something is stored in it.
The bits of `flags` are fields; those that tell the type of a conversion are the
constructor of its `Value`.
-/

set_option autoImplicit false

namespace MString

/-- The flag bits of a format, apart from the type. -/
structure FmtFlags where
  flj : Bool := false
  fzero : Bool := false
  fsig : Bool := false
  fspace : Bool := false
  fpref : Bool := false
  dot : Bool := false
  lchar : Bool := false
  lshort : Bool := false
  llong : Bool := false
  ldlong : Bool := false
  lsizet : Bool := false
  doct : Bool := false
  ddec : Bool := false
  dhex : Bool := false
  dhexUp : Bool := false
  dunsig : Bool := false
deriving DecidableEq, Repr

/-- `flags & FMT_LMASK`. -/
def FmtFlags.lmask (f : FmtFlags) : Bool := f.lchar || f.lshort || f.llong || f.ldlong || f.lsizet

/-- `flags & FMT_FMASK`. -/
def FmtFlags.fmask (f : FmtFlags) : Bool := f.flj || f.fzero || f.fsig || f.fspace || f.fpref

/-- `struct fattrs`. -/
structure Fattrs where
  width : BitVec 32 := 0
  presiction : BitVec 32 := 0
  cinf : BitVec 32 := 0
  flags : FmtFlags := {}
deriving DecidableEq, Repr

/-- An `int` where a `size_t` is wanted. -/
def toSize (i : BitVec 32) : BitVec 64 := i.signExtend 64

/-- `(i <= n) ? 0 : i - n` for an `int` and a `size_t`. -/
def lessSize (i : BitVec 32) (n : Nat) : BitVec 32 :=
  if (toSize i).toNat ≤ n then 0 else (toSize i - BitVec.ofNat 64 n).setWidth 32

/-- Memory as the string conversion reads it, with the literal that stands for a null
pointer. -/
structure Strings where
  mem : BitVec 64 → Char
  nullText : BitVec 64
  holds : ∀ i : Fin 7, mem (nullText + BitVec.ofNat 64 i)
    = ['<', 'N', 'U', 'L', 'L', '>', '\x00'][i]

/-! ### The destination -/

/-- What was stored at `dest`, and how much. -/
structure Sink where
  cs : Nat
  dest : Nat → Option Char

/-- `__copy_byte_ip`, whose failure is the `return dsize` that follows it everywhere. -/
def copyByteIp (dsize : Nat) (c : Char) (k : Sink) : Except Sink Sink :=
  if dsize - k.cs = 0 then .error ⟨dsize, k.dest⟩
  else .ok ⟨k.cs + 1, Function.update k.dest k.cs (some c)⟩

/-- `memcpy(dest + cs, .., n); cs += n`, for a source that reads `src i` at `i`. -/
def copyBytes (src : Nat → Char) (n : Nat) (k : Sink) : Sink :=
  ⟨k.cs + n, fun i => if k.cs ≤ i ∧ i < k.cs + n then some (src (i - k.cs)) else k.dest i⟩

/-- `memset(dest + cs, c, n); cs += n`. -/
def setBytes (c : Char) (n : Nat) (k : Sink) : Sink := copyBytes (fun _ => c) n k

/-- `__make_width`. A negative width is a large `size_t`. -/
def makeWidth (dsize : Nat) (c : Char) (fa : Fattrs) (k : Sink) : Sink :=
  if fa.width = 0 ∨ (toSize fa.width).toNat > dsize - k.cs then k
  else setBytes c (toSize fa.width).toNat k

/-- `__make_width` on the side that the flag chooses. -/
def padIf (side : Bool) (dsize : Nat) (c : Char) (fa : Fattrs) (k : Sink) : Sink :=
  if side then makeWidth dsize c fa k else k

/-! ### Numbers -/

def FMT_DBUF_SIZE : Nat := 64

/-- `nums[i]`. -/
def numsAt (upper : Bool) (i : Nat) : Char :=
  (if upper then "0123456789ABCDEF" else "0123456789abcdef").toList.getD i '\x00'

/-- `base`. -/
def baseOf (f : FmtFlags) : Nat :=
  if f.doct then 8
  else if f.ddec then 10
  else if f.dhex || f.dhexUp then 16
  else 1

/-- One turn of the loop that fills `tmp_buf`, lowest digit first. -/
def tmpTurn (base : Nat) (upper : Bool) :
    Nat × List Char → Except Fault ((Nat × List Char) ⊕ List Char)
  | (d, tmpBuf) =>
      if tmpBuf.length ≥ FMT_DBUF_SIZE then .error (.outOfBounds tmpBuf.length)
      else
        let tmpBuf := tmpBuf ++ [numsAt upper (d % base)]
        if d / base ≠ 0 then .ok (.inl (d / base, tmpBuf)) else .ok (.inr tmpBuf)

/-- The digits of `d` in `tmp_buf`. -/
def tmpDigits (f : FmtFlags) (d : Nat) : Except Fault (List Char) :=
  Loop.run .diverges (tmpTurn (baseOf f) (!f.doct && !f.ddec && f.dhexUp)) TURNS (d, [])

/-- What `__digit` does to `width` and `presiction` once it knows the number of digits. -/
def digitAttrs (fa : Fattrs) (j : Nat) : Fattrs :=
  let width := lessSize fa.width j
  let presiction := lessSize fa.presiction j
  { fa with presiction, width := if width.sle presiction then 0 else width - presiction }

/-- The prefix, or the sign. `neg` is never set: it is computed from `d < 0` for an
unsigned `d`. -/
def digitPrefix (dsize : Nat) (f : FmtFlags) (k : Sink) : Except Sink Sink :=
  if f.dhex || f.dhexUp then
    if f.fpref then do
      let k ← copyByteIp dsize '0' k
      copyByteIp dsize (if f.dhexUp then 'X' else 'x') k
    else .ok k
  else if f.ddec then
    if f.fsig then copyByteIp dsize '+' k else .ok k
  else if f.doct then
    if f.fpref then copyByteIp dsize '0' k else .ok k
  else .ok k

/-- The zeros of the precision. -/
def digitZeros (dsize : Nat) (fa : Fattrs) (k : Sink) : Sink :=
  if fa.presiction.toInt > 0 ∧ fa.presiction.toNat ≤ dsize - k.cs then
    setBytes '0' fa.presiction.toNat k
  else k

/-- The digits. Their number is cut to the room, and they are copied from the last one
down. -/
def digitCopy (dsize : Nat) (tmpBuf : List Char) (k : Sink) : Sink :=
  let j := min tmpBuf.length (dsize - k.cs)
  copyBytes (fun i => tmpBuf.getD (j - 1 - i) '\x00') j k

/-- The output of `__digit`, with the digits in `tmpBuf`. -/
def digitOut (dsize : Nat) (tmpBuf : List Char) (fa : Fattrs) (k : Sink) : Except Sink Sink := do
  let k ← if fa.flags.fspace then copyByteIp dsize ' ' k else .ok k
  let k ← digitPrefix dsize fa.flags
    (padIf (!fa.flags.flj) dsize (if fa.flags.fzero then '0' else ' ') fa k)
  .ok (padIf fa.flags.flj dsize ' ' fa (digitCopy dsize tmpBuf (digitZeros dsize fa k)))

/-- An early `return` leaves the function with what it has. -/
def orReturned : Except Sink Sink → Sink
  | .error k => k
  | .ok k => k

/-- `__digit`. -/
def digit (dsize : Nat) (number : BitVec 64) (fa : Fattrs) (k : Sink) : Except Fault Sink := do
  let tmpBuf ← tmpDigits fa.flags number.toNat
  .ok (orReturned (digitOut dsize tmpBuf (digitAttrs fa tmpBuf.length) k))

/-! ### Strings and characters -/

/-- `strlen`. -/
def strlen (mem : BitVec 64 → Char) (s : BitVec 64) : Except Fault Nat :=
  Loop.run .diverges
    (fun n => if mem (s + BitVec.ofNat 64 n) = '\x00' then .ok (.inr n) else .ok (.inl (n + 1)))
    TURNS 0

/-- A precision larger than the length replaces it. -/
def strLen (fa : Fattrs) (len : Nat) : Nat :=
  if fa.presiction.toInt > 0 ∧ len < fa.presiction.toNat then fa.presiction.toNat else len

/-- `memcpy` of a string, if there is room for all of it. -/
def stringCopy (mem : BitVec 64 → Char) (dsize : Nat) (s : BitVec 64) (len : Nat) (k : Sink) :
    Sink :=
  if len ≤ dsize - k.cs then copyBytes (fun i => mem (s + BitVec.ofNat 64 i)) len k else k

/-- The output of a string conversion. -/
def stringOut (mem : BitVec 64 → Char) (dsize : Nat) (s : BitVec 64) (len : Nat) (fa : Fattrs)
    (k : Sink) : Sink :=
  let len := strLen fa len
  let fa := { fa with width := lessSize fa.width len }
  padIf fa.flags.flj dsize ' ' fa
    (stringCopy mem dsize s len (padIf (!fa.flags.flj) dsize ' ' fa k))

/-- The output of a character conversion. -/
def charOut (dsize : Nat) (c : Char) (fa : Fattrs) (k : Sink) : Except Sink Sink := do
  let fa := { fa with width := if fa.width.sle 1 then 0 else fa.width - 1 }
  let k ← copyByteIp dsize c (padIf (!fa.flags.flj) dsize ' ' fa k)
  .ok (padIf fa.flags.flj dsize ' ' fa k)

/-! ### The format -/

/-- `*(fmt + i)`. -/
def charAt (fmt : List Char) (i : Nat) : Char := fmt.getD i '\x00'

/-- `isdigit`. -/
def isdigit (c : Char) : Bool := decide ('0' ≤ c) && decide (c ≤ '9')

/-- `char2int`. -/
def char2int (c : Char) : BitVec 32 := BitVec.ofNat 32 (c.toNat - '0'.toNat)

/-- `__fields_inc`. -/
def fieldsInc (num incr : BitVec 32) : BitVec 32 := num * 10 + incr

/-- `__ident_num_size`, on the slot that `va_arg` takes. -/
def identNumSize (slot : BitVec 64) (f : FmtFlags) : BitVec 64 :=
  if f.llong then slot
  else if f.ldlong then slot
  else if f.lsizet then slot
  else if f.dunsig then (slot.setWidth 32).setWidth 64
  else (slot.setWidth 32).signExtend 64

/-- What a conversion prints. -/
inductive Value where
  | num (d : BitVec 64)
  | str (s : BitVec 64)
  | chr (c : Char)

/-- The variables of `vsnprintf`: where `fmt` points, and how many slots are taken. -/
structure KprintfState where
  fmt : Nat
  pers : Bool
  fa : Fattrs
  ap : Nat
  sink : Sink

/-- How the `switch` is left. -/
inductive Switch where
  /-- `continue`. -/
  | next (s : KprintfState)
  /-- `break`, or no case matches. -/
  | broken (s : KprintfState)
  /-- `goto BC`. -/
  | convert (s : KprintfState) (value : Value)

/-- The flag `f` at a place where only flags may have come before. -/
def flagCase (refused : Bool) (s : KprintfState) (f : FmtFlags) : Switch :=
  if s.fa.flags.lmask || s.fa.flags.dot || decide (s.fa.width.toInt > 0) || refused then .broken s
  else .next { s with pers := true, fa := { s.fa with flags := f } }

/-- `.`, and the length modifiers. -/
def takeFlags (s : KprintfState) (f : FmtFlags) : Switch :=
  .next { s with pers := true, fa := { s.fa with flags := f } }

/-- A number of the type that `f` says. -/
def numberCase (args : Nat → BitVec 64) (s : KprintfState) (f : FmtFlags) : Switch :=
  .convert { s with fa := { s.fa with flags := f }, ap := s.ap + 1 }
    (.num (identNumSize (args s.ap) f))

/-- `*`: the number is stored as a `dlong`, over the field that it is for and the next
one. -/
def starCase (args : Nat → BitVec 64) (s : KprintfState) : Switch :=
  let f := s.fa.flags
  let d := identNumSize (args s.ap) f
  if f.fmask || f.lmask then .broken s
  else if f.dot then
    if s.fa.presiction.toInt > 0 then .broken s
    else .next { s with
      pers := true, ap := s.ap + 1,
      fa := { s.fa with presiction := d.setWidth 32, cinf := (d >>> 32).setWidth 32 } }
  else if s.fa.width.toInt > 0 then .broken s
  else .next { s with
    pers := true, ap := s.ap + 1,
    fa := { s.fa with width := d.setWidth 32, presiction := (d >>> 32).setWidth 32 } }

/-- The `switch` on the character of a specification. -/
def kprintfSwitch (env : Strings) (args : Nat → BitVec 64) (fmt : List Char) (s : KprintfState) :
    Switch :=
  let f := s.fa.flags
  match charAt fmt s.fmt with
  | 'i' | 'd' => numberCase args s { f with ddec := true }
  | 'c' => .convert { s with ap := s.ap + 1 }
      (.chr (Char.ofNat ((args s.ap).toNat % 256)))
  | 's' => .convert { s with ap := s.ap + 1 }
      (.str (if args s.ap = 0 then env.nullText else args s.ap))
  | 'x' => numberCase args s { f with dhex := true, dunsig := true }
  | 'X' => numberCase args s { f with dhexUp := true, dunsig := true }
  | 'p' => numberCase args s { f with dhex := true, fpref := true, llong := true, dunsig := true }
  | 'o' => numberCase args s { f with doct := true, dunsig := true }
  | 'u' => numberCase args s { f with ddec := true, dunsig := true }
  | '#' => flagCase false s { f with fpref := true }
  | '+' => flagCase false s { f with fspace := false, fsig := true }
  | '-' => flagCase f.fspace s { f with fzero := false, flj := true }
  | '0' => flagCase false s { f with fzero := f.fzero || !f.flj }
  | ' ' => flagCase f.flj s { f with fspace := f.fspace || !f.fsig }
  | '.' => takeFlags s { f with fzero := false, dot := true }
  | 'h' =>
      if charAt fmt (s.fmt + 1) = 'h' then
        takeFlags { s with fmt := s.fmt + 1 } { f with lchar := true }
      else takeFlags s { f with lshort := true }
  | 'l' =>
      if charAt fmt (s.fmt + 1) = 'l' then
        takeFlags { s with fmt := s.fmt + 1 } { f with ldlong := true }
      else takeFlags s { f with llong := true }
  | 'z' => takeFlags s { f with lsizet := true }
  | '*' => starCase args s
  | '%' => .broken { s with fa := { s.fa with cinf := 0 } }
  | _ => .broken s

/-- Back to the `%`, which is copied. -/
def echo (dsize : Nat) (fmt : List Char) (s : KprintfState) : KprintfState ⊕ Sink :=
  let pos := ((s.fmt : Int) - s.fa.cinf.toInt).toNat
  match copyByteIp dsize (charAt fmt pos) s.sink with
  | .error k => .inr k
  | .ok k => .inl { s with fmt := pos + 1, fa := {}, sink := k }

/-- The code at `BC`. -/
def convert (env : Strings) (dsize : Nat) (s : KprintfState) :
    Value → Except Fault (KprintfState ⊕ Sink)
  | .num d => do
      let k ← digit dsize d s.fa s.sink
      if k.cs - s.sink.cs = 0 then .ok (.inr ⟨dsize, k.dest⟩)
      else .ok (.inl { s with fmt := s.fmt + 1, fa := {}, sink := k })
  | .str p => do
      let len ← strlen env.mem p
      .ok (.inl
        { s with fmt := s.fmt + 1, fa := {}, sink := stringOut env.mem dsize p len s.fa s.sink })
  | .chr c =>
      match charOut dsize c s.fa s.sink with
      | .error k => .ok (.inr k)
      | .ok k => .ok (.inl { s with fmt := s.fmt + 1, fa := {}, sink := k })

/-- What follows the `switch`. -/
def afterSwitch (env : Strings) (dsize : Nat) (fmt : List Char) :
    Switch → Except Fault (KprintfState ⊕ Sink)
  | .next s => .ok (.inl { s with fmt := s.fmt + 1 })
  | .broken s => .ok (echo dsize fmt s)
  | .convert s v => convert env dsize s v

/-- One turn of the loop over the format. -/
def vsnprintfTurn (env : Strings) (args : Nat → BitVec 64) (dsize : Nat) (fmt : List Char)
    (s : KprintfState) : Except Fault (KprintfState ⊕ Sink) :=
  let c := charAt fmt s.fmt
  if c = '\x00' then .ok (.inr s.sink)
  else if c = '%' ∧ s.pers = false then .ok (.inl { s with fmt := s.fmt + 1, pers := true })
  else if s.pers then
    let s := { s with pers := false, fa := { s.fa with cinf := s.fa.cinf + 1 } }
    if isdigit c then
      -- This `break` leaves the loop.
      if s.fa.flags.lmask then .ok (.inr s.sink)
      else
        let s := { s with pers := true }
        if s.fa.flags.dot then
          .ok (.inl { s with
            fmt := s.fmt + 1,
            fa := { s.fa with presiction := fieldsInc s.fa.presiction (char2int c) } })
        else if c > '0' then
          .ok (.inl { s with
            fmt := s.fmt + 1, fa := { s.fa with width := fieldsInc s.fa.width (char2int c) } })
        else afterSwitch env dsize fmt (kprintfSwitch env args fmt s)
    else afterSwitch env dsize fmt (kprintfSwitch env args fmt s)
  else .ok (echo dsize fmt s)

/-- More turns than the loop can take: each one stores a byte or advances `fmt`. -/
def turnBudget (dsize : Nat) (fmt : List Char) : Nat := (dsize + 1) * (fmt.length + 2)

/-- `vsnprintf`. -/
def vsnprintf (env : Strings) (args : Nat → BitVec 64) (dsize : BitVec 64) (fmt : List Char) :
    Except Fault Sink :=
  Loop.run .diverges (vsnprintfTurn env args dsize.toNat fmt) (turnBudget dsize.toNat fmt)
    ⟨0, false, {}, 0, ⟨0, fun _ => none⟩⟩

/-! ### Printing to the console -/

def TMPBUF_SIZE : Nat := 1024

/-- `vsprintf`, which knows of no end of `dest`. -/
def vsprintf (env : Strings) (args : Nat → BitVec 64) (fmt : List Char) : Except Fault Sink :=
  vsnprintf env args (((~~~0#32) >>> 1).setWidth 64) fmt

/-- What is given to `display_string`. -/
inductive Displayed where
  | nothing
  | text (s : List Char)
  /-- `tmp_buf`, from its first byte on. -/
  | tmpBuf (bytes : Nat → Char)

/-- What `vkprintf` stores from `tmp_buf` on, behind the `memset`, and what it displays. -/
structure Printed where
  dest : Nat → Option Char
  displayed : Displayed

/-- `vkprintf`. -/
def vkprintf (env : Strings) (args : Nat → BitVec 64) (isEnabled : Bool) (fmt : List Char) :
    Except Fault Printed := do
  let k ← vsprintf env args fmt
  if k.cs > TMPBUF_SIZE then .ok ⟨k.dest, .text "\nvkprintf error\n".toList⟩
  else if isEnabled then .ok ⟨k.dest, .tmpBuf fun i => (k.dest i).getD '\x00'⟩
  else .ok ⟨k.dest, .nothing⟩

end MString
