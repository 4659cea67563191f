import MString.Types

/-!
# `MString.Proofs.Mlibc.Format`: what a specification asks for

`mlibc/kprintf.h` promises that the kernel's formatting acts `just like standard printf`,
floats apart. Here is the grammar of a specification, and the field that it stands for.
Nothing here is taken from the code of `vsnprintf`. In one place the field is not the
standard's: `#` always puts its prefix in front (`NumConv.sign`).

* `Options`: what stands between the `%` and the conversion, with numerals of any length.
* `NumConv.value`, `NumConv.canonical`, `NumConv.sign`: the number that a conversion
  prints, its canonical numeral, and what stands in front of the digits.
* `NumConv.layout`, `Options.stringField`: the fields.
-/

set_option autoImplicit false

namespace MString

/-! ### The grammar -/

/-- The flags of a conversion. -/
inductive Flag where
  | minus
  | zero
  | plus
  | space
  | hash
deriving DecidableEq, Repr

/-- The character of a flag. -/
def Flag.char : Flag → Char
  | .minus => '-'
  | .zero => '0'
  | .plus => '+'
  | .space => ' '
  | .hash => '#'

/-- The length modifiers. -/
inductive LengthMod where
  | none
  | hh
  | h
  | l
  | ll
  | z
deriving DecidableEq, Repr

/-- The characters of a length modifier. -/
def LengthMod.text : LengthMod → List Char
  | .none => []
  | .hh => ['h', 'h']
  | .h => ['h']
  | .l => ['l']
  | .ll => ['l', 'l']
  | .z => ['z']

/-- The numeric conversions. -/
inductive NumConv where
  | d
  | i
  | u
  | x
  | X
  | o
  | p
deriving DecidableEq, Repr

/-- The character that names a conversion. -/
def NumConv.char : NumConv → Char
  | .d => 'd'
  | .i => 'i'
  | .u => 'u'
  | .x => 'x'
  | .X => 'X'
  | .o => 'o'
  | .p => 'p'

/-- The text of a numeral. -/
def digitChars (ds : List (Fin 10)) : List Char := ds.map fun d => Nat.digitChar d.val

/-- The number of a numeral. The empty one is zero. -/
def numeral (ds : List (Fin 10)) : Nat := ds.foldl (fun n d => 10 * n + d.val) 0

/-- A width or a precision. -/
inductive Amount where
  | digits (ds : List (Fin 10))
  | star

/-- An amount, as it is written. -/
def Amount.text : Amount → List Char
  | .digits ds => digitChars ds
  | .star => ['*']

/-- `[flags][width][.precision][length]`. Zeros in front of a width are flags, so a width
does not start with one. -/
structure Options where
  flags : List Flag := []
  width : Amount := .digits []
  precision : Option Amount := none
  length : LengthMod := .none
  width_head : ∀ ds, width ≠ .digits (0 :: ds) := by simp

namespace Options

/-- The flags, as they are written. -/
def flagsText (o : Options) : List Char := o.flags.map Flag.char

/-- The precision, with its dot. -/
def precisionText (o : Options) : List Char := o.precision.elim [] fun a => '.' :: a.text

/-- A specification that ends in `conversion`. -/
def text (o : Options) (conversion : Char) : List Char :=
  '%' :: (o.flagsText ++ (o.width.text ++ (o.precisionText ++ (o.length.text ++ [conversion]))))

/-- The options alone. -/
def body (o : Options) : List Char :=
  o.flagsText ++ (o.width.text ++ (o.precisionText ++ o.length.text))

/-- A conversion in front of other text. -/
theorem text_append (o : Options) (conversion : Char) (rest : List Char) :
    o.text conversion ++ rest = '%' :: (o.body ++ conversion :: rest) := by
  simp [text, body]

end Options

/-! ### The arguments -/

/-- How many arguments it takes. -/
def Amount.slots : Amount → Nat
  | .digits _ => 0
  | .star => 1

/-- A `*` takes an `int`. -/
def Amount.number (slot : BitVec 64) : Amount → Int
  | .digits ds => numeral ds
  | .star => (slot.setWidth 32).toInt

namespace Options

variable (o : Options) (args : Nat → BitVec 64)

/-- The width. A star takes it from the first argument. -/
def widthOf : Int := o.width.number (args 0)

/-- A negative precision counts as none. -/
def precisionOf : Option Nat :=
  match o.precision with
  | none => none
  | some a =>
      let p := a.number (args o.width.slots)
      if p < 0 then none else some p.toNat

/-- A negative width asks for the left side, too. -/
def left : Bool := decide (.minus ∈ o.flags) || decide (o.widthOf args < 0)

/-- The arguments in front of the one that is printed. -/
def starSlots : Nat := o.width.slots + o.precision.elim 0 Amount.slots

end Options

/-! ### Numbers -/

/-- The bits of the type that a length modifier names. -/
def LengthMod.bits : LengthMod → Nat
  | .none => 32
  | .hh => 8
  | .h => 16
  | .l | .ll | .z => 64

namespace NumConv

/-- The width of the type that is printed. A pointer has one of its own. -/
def bits (c : NumConv) (m : LengthMod) : Nat := if c = .p then 64 else m.bits

/-- Whether the conversion is one of a signed number. -/
def signed : NumConv → Bool
  | .d | .i => true
  | _ => false

/-- The base of its numeral. -/
def base : NumConv → Nat
  | .d | .i | .u => 10
  | .x | .X | .p => 16
  | .o => 8

/-- The argument, converted to the type that the modifier and the conversion name. -/
def value (c : NumConv) (m : LengthMod) (slot : BitVec 64) : Int :=
  if c.signed then (slot.setWidth (c.bits m)).toInt else (slot.setWidth (c.bits m)).toNat

/-- The canonical numeral of a natural number. -/
def digits (c : NumConv) (n : Nat) : List Char :=
  if c = .X then (Nat.toDigits c.base n).map Char.toUpper else Nat.toDigits c.base n

/-- The canonical numeral of an integer. -/
def canonical (c : NumConv) (v : Int) : List Char :=
  (if v < 0 then ['-'] else []) ++ c.digits v.natAbs

/-- The sign or the prefix, in front of the digits that the precision asks for. `+` wins over
a blank. The prefix of `#` stands there for every number: the standard leaves it out for zero,
and for `o` where the precision puts a zero in front anyway. -/
def sign (c : NumConv) (flags : List Flag) (v : Int) : List Char :=
  match c with
  | .d | .i =>
      if v < 0 then ['-']
      else if .plus ∈ flags then ['+']
      else if .space ∈ flags then [' ']
      else []
  | .u => []
  | .x => if .hash ∈ flags then ['0', 'x'] else []
  | .X => if .hash ∈ flags then ['0', 'X'] else []
  | .o => if .hash ∈ flags then ['0'] else []
  | .p => ['0', 'x']

/-- The field of a number. Zeros stand between the sign and the digits, blanks stand
outside. -/
def layout (c : NumConv) (o : Options) (args : Nat → BitVec 64) : List Char :=
  let v := c.value o.length (args o.starSlots)
  let sign := c.sign o.flags v
  let digits := c.digits v.natAbs
  let precision := o.precisionOf args
  let zeros := precision.getD 0 - digits.length
  let fill := (o.widthOf args).natAbs - (sign.length + zeros + digits.length)
  if o.left args then sign ++ List.replicate zeros '0' ++ digits ++ List.replicate fill ' '
  else if .zero ∈ o.flags ∧ precision = none then sign ++ List.replicate fill '0' ++ digits
  else List.replicate fill ' ' ++ sign ++ List.replicate zeros '0' ++ digits

end NumConv

/-! ### Strings -/

/-- At most as many characters as the precision says. -/
def Options.shown (o : Options) (args : Nat → BitVec 64) (text : List Char) : List Char :=
  match o.precisionOf args with
  | none => text
  | some p => text.take p

/-- The field of a string. -/
def Options.stringField (o : Options) (args : Nat → BitVec 64) (text : List Char) : List Char :=
  let shown := o.shown args text
  let blanks := List.replicate ((o.widthOf args).natAbs - shown.length) ' '
  if o.left args then shown ++ blanks else blanks ++ shown

end MString
