import MString.Mlibc.String

/-!
# `MString.Eza.Vga`: the text console

The functions of `eza/generic_api/vga.c` that write to the screen or send the cursor, and
the console of `eza/generic_api/kconsole.c` on top of them. The screen is an area of a
`Traced` memory, two bytes a cell. Of the registers of the adapter only the cursor position
is here.
-/

set_option autoImplicit false

namespace MString

open ByteMemory

/-- `vga_color_t`. -/
inductive VgaColor where
  | VC_BLACK | VC_BLUE | VC_GREEN | VC_CYAN | VC_RED | VC_MAGENTA | VC_BROWN | VC_WHITE
  | VC_LIGHT_BLUE | VC_LIGHT_GREEN | VC_LIGHT_RED | VC_LIGHT_BROWN | VC_LIGHT_GREY
deriving DecidableEq, Repr

/-- The number of a color. -/
def VgaColor.code (c : VgaColor) : BitVec 16 := BitVec.ofNat 16 c.ctorIdx

def KCONS_DEF_BG : VgaColor := .VC_BLACK
def KCONS_DEF_FG : VgaColor := .VC_WHITE

/-- `VGA_TM_BASE`. -/
def VGA_TM_BASE : Addr := 0xB8000

def BACKSPACE : BitVec 16 := 0x08
def TAB : BitVec 16 := 0x09
def SPACE : BitVec 16 := 0x20

/-- `__vga`, memory, and the cursor positions that were sent, the last one first. -/
structure Vga where
  base : Addr
  cols : BitVec 16
  rows : BitVec 16
  x : BitVec 16
  y : BitVec 16
  fg : VgaColor
  bg : VgaColor
  memory : Traced
  sent : List (BitVec 16)

/-- `vga_make_attr`. -/
def vgaMakeAttr (s : Vga) (out : BitVec 16) : BitVec 16 :=
  out ||| (s.fg.code <<< 8 ||| s.bg.code <<< 12)

/-- `vga_init`. -/
def vgaInit (s : Vga) : Vga :=
  { s with base := VGA_TM_BASE, cols := 80, rows := 25, x := 0, y := 0 }

/-- `vga_update_cursor`. The position goes out in two bytes. -/
def vgaUpdateCursor (s : Vga) : Vga := { s with sent := (s.y * s.cols + s.x - 1) :: s.sent }

/-- The address of a cell, `base + i`. -/
def cellAddr (base : Addr) (i : Word) : Addr := base + 2 * i

/-- The column wrap of `vga_scroll`. -/
def vgaWrap (s : Vga) : Vga :=
  if s.x ≥ s.cols then { s with x := (s.x - s.cols) % s.cols, y := s.y + 1 } else s

/-- `vga_scroll`. -/
def vgaScroll (s : Vga) : Vga :=
  let s := vgaWrap s
  if s.y ≥ s.rows then
    let cols := s.cols.setWidth 64
    let rows := s.rows.setWidth 64
    let lim := cols * 2 + 1
    let p := cellAddr s.base (cols * (rows - 1) * 2)
    let out := vgaMakeAttr s SPACE
    let memory := s.memory.copy (cols * (rows - 1) * 2).toNat s.base (cellAddr s.base (2 * cols))
    -- `p` points to bytes, so only the low one of `out` is stored.
    { s with y := s.rows - 2, memory := memory.fill (out.setWidth 8) lim.toNat p }
  else s

/-- `vga_putch`. -/
def vgaPutch (c : BitVec 16) (s : Vga) : Vga :=
  if c = BACKSPACE then if s.x ≠ 0 then { s with x := s.x - 1 } else s
  else if c = TAB then { s with x := s.x + 8 }
  else if c = 0x0d then { s with x := 0 }
  else if c = 0x0a then { s with x := 0, y := s.y + 1 }
  else if c < 0x20 then s
  else
    let cell := cellAddr s.base (s.cols.setWidth 64 * s.y.setWidth 64 + s.x.setWidth 64)
    vgaScroll { s with x := s.x + 1, memory := store16 cell (vgaMakeAttr s c) s.memory }

/-- `vga_cls`. -/
def vgaCls (s : Vga) : Vga :=
  let lim := s.cols.setWidth 64 * s.rows.setWidth 64 * 2
  let memory := fill16 (vgaMakeAttr s SPACE) lim.toNat s.base s.memory
  vgaUpdateCursor { s with x := 0, y := 0, memory }

/-! ### The console -/

/-- `__vga_cons`. -/
structure VgaConsole where
  isEnabled : Bool
  vga : Vga

/-- `vga_cons_enable`. The letter is the one of `vga_set_cursor_attrs`. -/
def vgaConsEnable (k : VgaConsole) : VgaConsole :=
  let s := vgaPutch 0x43 (vgaInit k.vga)
  ⟨true, vgaCls { s with bg := KCONS_DEF_BG, fg := KCONS_DEF_FG }⟩

/-- `vga_putch` for the characters of a string. A `char` is signed. -/
def putString : List Byte → Vga → Vga
  | [], s => s
  | c :: str, s => if c = 0#8 then s else putString str (vgaPutch (c.signExtend 16) s)

/-- `vga_cons_display_string`. -/
def vgaConsDisplayString (k : VgaConsole) (str : List Byte) : VgaConsole :=
  if k.isEnabled then { k with vga := vgaUpdateCursor (putString str k.vga) } else k

end MString
