import MString.Eza.Vga

/-!
# `MString.Proofs.Eza.Vga`: what the console writes and sends

Newline, tab and backspace move the cursor without a look at the screen, and only a
printable character brings it back, after it was stored. So a character is stored on the
screen when the cursor is on it, and the scroll that may follow never is: it clears a row
that is twice as far from `base` as the last one. `vga_cls` clears twice the screen, and
sends the position in front of the first cell.

* `VgaSafe`: all stores are on the screen, and so are the positions sent.
* `CharFits`, `CursorFits`, `StringsFit`: the steps that keep it.
* `consoleSafe_iff`: never with `vga_cons_enable`, and from there on when all steps fit.
-/

set_option autoImplicit false

namespace MString

open ByteMemory

/-- All cells written are on the screen, and so are the cursor positions. -/
def VgaSafe (s : Vga) : Prop :=
  (∀ a ∈ s.memory.writes, (a - s.base).toNat / 2 < s.cols.toNat * s.rows.toNat)
    ∧ ∀ w ∈ s.sent, w.toNat < s.cols.toNat * s.rows.toNat

/-- The mode that `vga_init` sets. -/
structure TextMode (s : Vga) : Prop where
  base : s.base = VGA_TM_BASE
  cols : s.cols = 80
  rows : s.rows = 25

/-- A printable character goes to a cell of the screen, and the text is not scrolled
behind it. -/
def CharFits (c : BitVec 16) (s : Vga) : Prop :=
  0x20 ≤ c → 80 * s.y.toNat + s.x.toNat < 2000 ∧ (80 ≤ s.x.toNat + 1 → s.y.toNat + 1 < 25)

/-- There is a cell in front of the cursor, and it is on the screen. -/
def CursorFits (s : Vga) : Prop := (80 * s.y.toNat + s.x.toNat + 65535) % 65536 < 2000

/-- All characters of a string, up to its terminator, and the cursor behind them. -/
def StringFits : List Byte → Vga → Prop
  | [], s => CursorFits s
  | c :: str, s =>
      if c = 0#8 then CursorFits s
      else CharFits (c.signExtend 16) s ∧ StringFits str (vgaPutch (c.signExtend 16) s)

/-- All strings, one after the other. -/
def StringsFit : List (List Byte) → VgaConsole → Prop
  | [], _ => True
  | str :: strs, k => StringFits str k.vga ∧ StringsFit strs (vgaConsDisplayString k str)

/-- A console of which nothing is traced yet. -/
def traced (k : VgaConsole) : VgaConsole :=
  { k with vga := { k.vga with memory := .start k.vga.memory.mem, sent := [] } }

/-- The console after `vga_cons_enable`. -/
def enabledConsole (k : VgaConsole) : VgaConsole := traced (vgaConsEnable k)

/-- The console after the strings. -/
def displayAll (strs : List (List Byte)) (k : VgaConsole) : VgaConsole :=
  strs.foldl vgaConsDisplayString k

/-! ### The mode stays -/

section
variable {s : Vga} {c : BitVec 16}

/-- No operation of the console leaves the text mode. The first one wraps the cursor at the end
of a row. -/
theorem TextMode.wrap (h : TextMode s) : TextMode (vgaWrap s) := by
  unfold vgaWrap
  split
  · exact ⟨h.base, h.cols, h.rows⟩
  · exact h

/-- Scrolling wraps first, and changes the cursor and the memory only. -/
theorem TextMode.scroll (h : TextMode s) : TextMode (vgaScroll s) := by
  have hw := h.wrap
  rw [vgaScroll]
  dsimp only
  split
  · exact ⟨hw.base, hw.cols, hw.rows⟩
  · exact hw

/-- A character changes the cursor and the memory, whatever branch it takes. -/
theorem TextMode.putch (h : TextMode s) : TextMode (vgaPutch c s) := by
  have hfields : ∀ {x y : BitVec 16} {memory : Traced},
      TextMode { s with x, y, memory } := ⟨h.base, h.cols, h.rows⟩
  rw [vgaPutch]
  split
  · split
    · exact hfields
    · exact h
  · split
    · exact hfields
    · split
      · exact hfields
      · split
        · exact hfields
        · split
          · exact h
          · exact TextMode.scroll hfields

/-- Sending the position changes no field of the screen. -/
theorem TextMode.updateCursor (h : TextMode s) : TextMode (vgaUpdateCursor s) :=
  ⟨h.base, h.cols, h.rows⟩

/-- A string is its characters one after another. -/
theorem TextMode.putString (h : TextMode s) (str : List Byte) : TextMode (putString str s) := by
  induction str generalizing s with
  | nil => exact h
  | cons c str ih =>
      rw [MString.putString]
      split
      · exact h
      · exact ih h.putch

/-! ### One step -/

/-- In text mode the bounds of the console are numbers. All the stores are in 4000 bytes, and
all the positions sent are below 2000. -/
theorem vgaSafe_iff (h : TextMode s) :
    VgaSafe s ↔ (∀ a ∈ s.memory.writes, (a - VGA_TM_BASE).toNat < 4000)
      ∧ ∀ w ∈ s.sent, w.toNat < 2000 := by
  have hcells : s.cols.toNat * s.rows.toNat = 2000 := by
    rw [h.cols, h.rows]
    rfl
  have hbyte : ∀ i : Nat, i / 2 < 2000 ↔ i < 4000 := fun i => Nat.div_lt_iff_lt_mul (by decide)
  simp only [VgaSafe, hcells, h.base, hbyte]

/-- Sending the position is safe exactly when the cursor fits. -/
theorem vgaSafe_updateCursor (h : TextMode s) :
    VgaSafe (vgaUpdateCursor s) ↔ VgaSafe s ∧ CursorFits s := by
  have hx := s.x.isLt
  have hy := s.y.isLt
  have hwhere : (s.y * s.cols + s.x - 1).toNat = (80 * s.y.toNat + s.x.toNat + 65535) % 65536 := by
    rw [h.cols, BitVec.toNat_sub, BitVec.toNat_add, BitVec.toNat_mul]
    show (2 ^ 16 - 1 + (s.y.toNat * 80 % 2 ^ 16 + s.x.toNat) % 2 ^ 16) % 2 ^ 16 = _
    omega
  rw [vgaSafe_iff h.updateCursor, vgaSafe_iff h, vgaUpdateCursor, List.forall_mem_cons, hwhere,
    CursorFits]
  exact ⟨fun ⟨hcells, hlast, hsent⟩ => ⟨⟨hcells, hsent⟩, hlast⟩,
    fun ⟨⟨hcells, hsent⟩, hlast⟩ => ⟨hcells, hlast, hsent⟩⟩

/-- The scroll writes far behind the screen. -/
theorem vgaSafe_scroll (h : TextMode s) :
    VgaSafe (vgaScroll s) ↔ VgaSafe s ∧ (vgaWrap s).y.toNat < 25 := by
  have hw := h.wrap
  have hsame : VgaSafe (vgaWrap s) ↔ VgaSafe s := by
    unfold vgaWrap
    split <;> exact Iff.rfl
  have hrows : (vgaWrap s).y ≥ (vgaWrap s).rows ↔ ¬ (vgaWrap s).y.toNat < 25 := by
    rw [hw.rows, ge_iff_le, BitVec.le_def, not_lt]
    exact Iff.rfl
  have hscroll := h.scroll
  by_cases hy : (vgaWrap s).y.toNat < 25
  · have heq : vgaScroll s = vgaWrap s := by
      rw [vgaScroll]
      exact if_neg (fun hge => hrows.mp hge hy)
    rw [heq, hsame]
    exact (and_iff_left hy).symm
  · refine iff_of_false (fun hsafe => ?_) (fun hsafe => hy hsafe.2)
    rw [vgaSafe_iff hscroll] at hsafe
    have hbyte := hsafe.1 (VGA_TM_BASE + BitVec.ofNat 64 7680) ?_
    · rw [Traced.toNat_offset _ (by decide)] at hbyte
      exact absurd hbyte (by decide)
    · rw [vgaScroll]
      dsimp only
      rw [if_pos (hrows.mpr hy), Traced.mem_writes_fill _ (Nat.le_of_lt (BitVec.isLt _)), hw.base,
        hw.cols, hw.rows]
      exact .inl (by decide)

/-- The address of the cell under the cursor. -/
theorem cellAddr_cursor (h : TextMode s) :
    cellAddr s.base (s.cols.setWidth 64 * s.y.setWidth 64 + s.x.setWidth 64)
      = VGA_TM_BASE + BitVec.ofNat 64 (2 * (80 * s.y.toNat + s.x.toNat)) := by
  have hx := s.x.isLt
  have hy := s.y.isLt
  rw [cellAddr, h.base, h.cols]
  congr 1
  apply BitVec.eq_of_toNat_eq
  rw [BitVec.toNat_mul, BitVec.toNat_add, BitVec.toNat_mul, BitVec.toNat_setWidth,
    BitVec.toNat_setWidth, BitVec.toNat_setWidth, BitVec.toNat_ofNat]
  show 2 * ((80 * (s.y.toNat % 2 ^ 64) % 2 ^ 64 + s.x.toNat % 2 ^ 64) % 2 ^ 64) % 2 ^ 64 = _
  omega

/-- A cell that is stored. -/
theorem forall_writes_store16 {i : Nat} (hi : i < 2 ^ 62) (w : BitVec 16) (t : Traced) :
    (∀ a ∈ (store16 (VGA_TM_BASE + BitVec.ofNat 64 (2 * i)) w t).writes,
        (a - VGA_TM_BASE).toNat < 4000)
      ↔ i < 2000 ∧ ∀ a ∈ t.writes, (a - VGA_TM_BASE).toNat < 4000 := by
  have hnext : VGA_TM_BASE + BitVec.ofNat 64 (2 * i) + 1
      = VGA_TM_BASE + BitVec.ofNat 64 (2 * i + 1) := by
    rw [add_assoc, BitVec.ofNat_add]
    rfl
  rw [store16, Traced.writes_store, Traced.writes_store, List.forall_mem_cons,
    List.forall_mem_cons, hnext, Traced.toNat_offset _ (by omega), Traced.toNat_offset _ (by omega),
    ← and_assoc]
  refine and_congr_left fun _ => ?_
  omega

/-- Where the cursor is behind a character that was stored on the screen. -/
theorem toNat_wrap_y (h : TextMode s) (hcell : 80 * s.y.toNat + s.x.toNat < 2000) (t : Traced) :
    (vgaWrap { s with x := s.x + 1, memory := t }).y.toNat < 25
      ↔ (80 ≤ s.x.toNat + 1 → s.y.toNat + 1 < 25) := by
  have hx : (s.x + 1).toNat = s.x.toNat + 1 := by
    rw [BitVec.toNat_add]
    show (s.x.toNat + 1) % 2 ^ 16 = _
    omega
  have hy : (s.y + 1).toNat = s.y.toNat + 1 := by
    rw [BitVec.toNat_add]
    show (s.y.toNat + 1) % 2 ^ 16 = _
    omega
  have hcols : s.x + 1 ≥ s.cols ↔ 80 ≤ s.x.toNat + 1 := by
    rw [h.cols, ge_iff_le, BitVec.le_def, hx]
    exact Iff.rfl
  rw [vgaWrap]
  by_cases hend : s.x + 1 ≥ s.cols
  · rw [if_pos hend]
    show (s.y + 1).toNat < 25 ↔ _
    rw [hy]
    exact ⟨fun hlt _ => hlt, fun himp => himp (hcols.mp hend)⟩
  · rw [if_neg hend]
    show s.y.toNat < 25 ↔ _
    refine iff_of_true (by omega) (fun hge => absurd (hcols.mpr hge) hend)

/-- A character is safe exactly when it fits. Only printing ones store. -/
theorem vgaSafe_putch (h : TextMode s) :
    VgaSafe (vgaPutch c s) ↔ VgaSafe s ∧ CharFits c s := by
  -- control characters move the cursor and store nothing
  have hcontrol : ∀ {x y : BitVec 16}, ¬ 0x20 ≤ c →
      (VgaSafe { s with x, y } ↔ VgaSafe s ∧ CharFits c s) := by
    intro x y hc
    exact (and_iff_left (fun h => absurd h hc)).symm
  rw [vgaPutch]
  by_cases hbs : c = BACKSPACE
  · rw [if_pos hbs]
    have hc : ¬ 0x20 ≤ c := by
      rw [hbs]
      decide
    split
    · exact hcontrol hc
    · exact hcontrol hc
  by_cases htab : c = TAB
  · rw [if_neg hbs, if_pos htab]
    exact hcontrol (by rw [htab]; decide)
  by_cases hcr : c = 0x0d
  · rw [if_neg hbs, if_neg htab, if_pos hcr]
    exact hcontrol (by rw [hcr]; decide)
  by_cases hlf : c = 0x0a
  · rw [if_neg hbs, if_neg htab, if_neg hcr, if_pos hlf]
    exact hcontrol (by rw [hlf]; decide)
  rw [if_neg hbs, if_neg htab, if_neg hcr, if_neg hlf]
  by_cases hc : c < 0x20
  · rw [if_pos hc]
    exact hcontrol (fun hge => BitVec.not_lt.mpr hge hc)
  rw [if_neg hc]
  dsimp only
  rw [cellAddr_cursor h]
  have hx := s.x.isLt
  have hy := s.y.isLt
  have hmode : ∀ {x : BitVec 16} {t : Traced}, TextMode { s with x, memory := t } :=
    ⟨h.base, h.cols, h.rows⟩
  -- a printed character needs a cell of its own, and no scroll behind it
  have hprint : CharFits c s ↔ 80 * s.y.toNat + s.x.toNat < 2000
      ∧ (80 ≤ s.x.toNat + 1 → s.y.toNat + 1 < 25) :=
    ⟨fun hfits => hfits (BitVec.not_lt.mp hc), fun hfits _ => hfits⟩
  rw [vgaSafe_scroll hmode, vgaSafe_iff hmode, vgaSafe_iff h, hprint]
  dsimp only
  rw [forall_writes_store16 (by omega)]
  constructor
  · rintro ⟨⟨⟨hcell, hold⟩, hsent⟩, hy⟩
    exact ⟨⟨hold, hsent⟩, hcell, (toNat_wrap_y h hcell _).mp hy⟩
  · rintro ⟨⟨hold, hsent⟩, hcell, hend⟩
    exact ⟨⟨⟨hcell, hold⟩, hsent⟩, (toNat_wrap_y h hcell _).mpr hend⟩

/-! ### Strings and runs -/

/-- A string with the position sent behind it is safe exactly when all of it fits. -/
theorem vgaSafe_displayString (h : TextMode s) (str : List Byte) :
    VgaSafe (vgaUpdateCursor (putString str s)) ↔ VgaSafe s ∧ StringFits str s := by
  induction str generalizing s with
  | nil => exact vgaSafe_updateCursor h
  | cons c str ih =>
      rw [putString, StringFits]
      by_cases hc : c = 0#8
      · rw [if_pos hc, if_pos hc]
        exact vgaSafe_updateCursor h
      · rw [if_neg hc, if_neg hc, ih h.putch, vgaSafe_putch h, and_assoc]

/-- A run on an enabled console. -/
theorem vgaSafe_displayAll {k : VgaConsole} (hk : k.isEnabled = true) (h : TextMode k.vga)
    (strs : List (List Byte)) :
    VgaSafe (displayAll strs k).vga ↔ VgaSafe k.vga ∧ StringsFit strs k := by
  induction strs generalizing k with
  | nil => exact (and_iff_left trivial).symm
  | cons str strs ih =>
      have hstep : vgaConsDisplayString k str
          = { k with vga := vgaUpdateCursor (putString str k.vga) } := if_pos hk
      rw [StringsFit, ← and_assoc, ← vgaSafe_displayString h str, displayAll, List.foldl_cons,
        hstep]
      exact ih hk (h.putString str).updateCursor

/-- `vga_cons_enable` leaves the console in text mode, whatever it was in before. -/
theorem textMode_enabled (k : VgaConsole) : TextMode (vgaConsEnable k).vga := by
  have hinit : TextMode (vgaInit k.vga) := ⟨rfl, rfl, rfl⟩
  have hputch : TextMode (vgaPutch 0x43 (vgaInit k.vga)) := hinit.putch
  exact ⟨hputch.base, hputch.cols, hputch.rows⟩

/-- `vga_cls` sends the position in front of the screen. -/
theorem not_vgaSafe_enabled (k : VgaConsole) : ¬ VgaSafe (vgaConsEnable k).vga := by
  intro hsafe
  have h := textMode_enabled k
  have hcols : (vgaPutch 0x43 (vgaInit k.vga)).cols = 80 := h.cols
  have hlast : (-1 : BitVec 16) ∈ (vgaConsEnable k).vga.sent := by
    show _ ∈ (0 * (vgaPutch 0x43 (vgaInit k.vga)).cols + 0 - 1) :: _
    rw [hcols]
    exact List.mem_cons_self
  exact absurd (((vgaSafe_iff h).mp hsafe).2 _ hlast) (by decide)

/-- A run on a console of which nothing is traced yet. -/
theorem vgaSafe_traced {k : VgaConsole} (hk : k.isEnabled = true) (h : TextMode k.vga)
    (strs : List (List Byte)) :
    VgaSafe (displayAll strs (traced k)).vga ↔ StringsFit strs (traced k) := by
  have hon : (traced k).isEnabled = true := hk
  have hmode : TextMode (traced k).vga := ⟨h.base, h.cols, h.rows⟩
  have hstart : VgaSafe (traced k).vga :=
    ⟨fun _ ha => absurd ha List.not_mem_nil, fun _ hw => absurd hw List.not_mem_nil⟩
  rw [vgaSafe_displayAll hon hmode]
  exact and_iff_right hstart

/-- With the stores of `vga_cons_enable` no run is safe. What is displayed from there on is
safe when all its steps fit. -/
theorem consoleSafe_iff (k : VgaConsole) (strs : List (List Byte)) :
    ¬ VgaSafe (displayAll strs (vgaConsEnable k)).vga
      ∧ (VgaSafe (displayAll strs (enabledConsole k)).vga ↔
        StringsFit strs (enabledConsole k)) := by
  have hon : (vgaConsEnable k).isEnabled = true := rfl
  have h := textMode_enabled k
  constructor
  · intro hsafe
    exact not_vgaSafe_enabled k ((vgaSafe_displayAll hon h strs).mp hsafe).1
  · exact vgaSafe_traced hon h strs

/-- Nothing is displayed on a console that was just enabled. -/
theorem not_vgaSafe_nothing :
    ¬ VgaSafe (displayAll [] (vgaConsEnable
      ⟨false, 0, 0, 0, 0, 0, .VC_BLACK, .VC_BLACK, .start fun _ => 0#8, []⟩)).vga :=
  not_vgaSafe_enabled _

end

end MString
