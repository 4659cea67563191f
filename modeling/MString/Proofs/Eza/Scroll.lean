import MString.Proofs.Eza.Vga

/-!
# `MString.Proofs.Eza.Scroll`: what `vga_scroll` does to the rows

The copy starts two rows below the top, whatever the cursor does, and takes 24 rows. So row
`r` gets row `r + 2`, row 23 gets what stands behind the screen, and the last row stays
(`screenRow_scroll`). The cursor goes to row 23. That the rows and the cursor move by the
same amount is left to chance: the rows that would show a difference must be blank.

* `ScrollMoves`: what is expected of `vga_scroll`.
* `BlankBelow`: the screens for which it keeps it (`scrollMoves_iff`).
-/

set_option autoImplicit false

namespace MString

open ByteMemory

/-- The cell in column `j` of row `r`. -/
def screenCell (base : Addr) (m : Memory) (r j : Nat) : BitVec 16 :=
  m (base + BitVec.ofNat 64 (2 * (80 * r + j) + 1)) ++ m (base + BitVec.ofNat 64 (2 * (80 * r + j)))

/-- A row of the screen, or of the memory behind it. -/
def screenRow (base : Addr) (m : Memory) (r : Nat) : Fin 80 → BitVec 16 :=
  fun j => screenCell base m r j

/-- A blank row with the current attribute. -/
def blankRow (s : Vga) : Fin 80 → BitVec 16 := fun _ => vgaMakeAttr s SPACE

/-- The rows of the screen. -/
def Vga.row (s : Vga) (r : Nat) : Fin 80 → BitVec 16 := screenRow s.base s.memory.mem r

/-- The text moves up as the cursor does, and what comes from below the screen is blank. -/
def ScrollMoves (s : Vga) : Prop :=
  ∀ r < 25, ∀ d, (vgaWrap s).y.toNat = (vgaScroll s).y.toNat + d →
    (r + d < 25 → (vgaScroll s).row r = s.row (r + d))
      ∧ (25 ≤ r + d → (vgaScroll s).row r = blankRow s)

/-- The last row and the one behind the screen are blank, and so is all that moves when the
cursor moves by more than two rows. -/
def BlankBelow (s : Vga) : Prop :=
  s.row 24 = blankRow s ∧ s.row 25 = blankRow s
    ∧ (25 < (vgaWrap s).y.toNat → ∀ r, 2 ≤ r → r < 24 → s.row r = blankRow s)

section
variable {s : Vga}

theorem wrap_fields (s : Vga) : (vgaWrap s).base = s.base ∧ (vgaWrap s).memory = s.memory
    ∧ blankRow (vgaWrap s) = blankRow s := by
  unfold vgaWrap
  split <;> exact ⟨rfl, rfl, rfl⟩

/-- The memory behind a scroll. -/
theorem scroll_eq (h : TextMode s) (hy : 25 ≤ (vgaWrap s).y.toNat) :
    (vgaScroll s).y = 23 ∧ (vgaScroll s).base = s.base
      ∧ ∃ c, (vgaScroll s).memory
        = (s.memory.copy 3840 s.base (s.base + BitVec.ofNat 64 320)).fill c 161
          (s.base + BitVec.ofNat 64 7680) := by
  have hw := h.wrap
  obtain ⟨hbase, hmem, -⟩ := wrap_fields s
  have hrows : (vgaWrap s).y ≥ (vgaWrap s).rows := by
    rw [hw.rows, ge_iff_le, BitVec.le_def]
    exact hy
  rw [vgaScroll]
  dsimp only
  rw [if_pos hrows, hw.cols, hw.rows, hbase, hmem]
  have hlen :
      ((80 : BitVec 16).setWidth 64 * ((25 : BitVec 16).setWidth 64 - 1) * 2).toNat = 3840 := by
    decide
  have hlim : ((80 : BitVec 16).setWidth 64 * 2 + 1).toNat = 161 := by decide
  have hcursor : (25 : BitVec 16) - 2 = 23 := by decide
  have hsource : cellAddr s.base (2 * (80 : BitVec 16).setWidth 64)
      = s.base + BitVec.ofNat 64 320 := rfl
  have hlast :
      cellAddr s.base ((80 : BitVec 16).setWidth 64 * ((25 : BitVec 16).setWidth 64 - 1) * 2)
        = s.base + BitVec.ofNat 64 7680 := rfl
  refine ⟨hcursor, rfl, (vgaMakeAttr (vgaWrap s) SPACE).setWidth 8, ?_⟩
  rw [hlen, hlim, hsource, hlast]

/-- The bytes of the screen behind a scroll. -/
theorem scroll_mem (h : TextMode s) (hy : 25 ≤ (vgaWrap s).y.toNat) {i : Nat} (hi : i < 4000) :
    (vgaScroll s).memory.mem (s.base + BitVec.ofNat 64 i)
      = s.memory.mem (s.base + BitVec.ofNat 64 (if i < 3840 then 320 + i else i)) := by
  obtain ⟨-, -, c, hmem⟩ := scroll_eq h hy
  have hout : ¬ (s.base + BitVec.ofNat 64 i - (s.base + BitVec.ofNat 64 7680)).toNat < 161 := by
    rw [Traced.area_offset (by decide), Traced.toNat_offset _ (by omega)]
    omega
  rw [hmem, Traced.fill_frame c (by decide) _ hout]
  by_cases hcopied : i < 3840
  · rw [if_pos hcopied]
    -- The source is ahead of the destination by two rows.
    have hsafe : ∀ i < 3840, ∀ j < i,
        s.base + BitVec.ofNat 64 j ≠ s.base + BitVec.ofNat 64 320 + BitVec.ofNat 64 i := by
      intro i hi j hj heq
      have hoff := congrArg BitVec.toNat (add_left_cancel (heq.trans (add_assoc _ _ _)))
      rw [← BitVec.ofNat_add, BitVec.toNat_ofNat, BitVec.toNat_ofNat] at hoff
      omega
    rw [Traced.copy_mem (by decide) _ _ _ hsafe i hcopied, add_assoc, ← BitVec.ofNat_add]
  · rw [if_neg hcopied, Traced.copy_frame (by decide) _ _ (by
      rw [Traced.toNat_offset _ (by omega)]
      exact hcopied)]

/-- The rows move up by two, and the last one stays. -/
theorem row_scroll (h : TextMode s) (hy : 25 ≤ (vgaWrap s).y.toNat) {r : Nat} (hr : r < 25) :
    (vgaScroll s).row r = s.row (if r < 24 then r + 2 else r) := by
  have hbase := (scroll_eq h hy).2.1
  funext j
  have hj := j.isLt
  show screenCell _ _ _ _ = screenCell _ _ _ _
  rw [screenCell, screenCell, hbase, scroll_mem h hy (by omega), scroll_mem h hy (by omega)]
  by_cases hlast : r < 24
  · rw [if_pos hlast, if_pos (by omega), if_pos (by omega)]
    congr 3
    all_goals
      congr 1
      omega
  · rw [if_neg hlast, if_neg (by omega), if_neg (by omega)]

end

/-! ### The rows by themselves -/

/-- Rows `R` of a screen and `R'` of the screen behind a scroll, with the cursor `d` rows
up. -/
theorem moves_iff {α : Type} {R R' : Nat → α} {blank : α} {d : Nat} (hd : 2 ≤ d)
    (hmove : ∀ r < 25, R' r = R (if r < 24 then r + 2 else r)) :
    (∀ r < 25, (r + d < 25 → R' r = R (r + d)) ∧ (25 ≤ r + d → R' r = blank))
      ↔ R 24 = blank ∧ R 25 = blank ∧ (2 < d → ∀ r, 2 ≤ r → r < 24 → R r = blank) := by
  constructor
  · intro h
    have h24 : R 24 = blank := (hmove 24 (by omega)).symm.trans ((h 24 (by omega)).2 (by omega))
    have h25 : R 25 = blank := (hmove 23 (by omega)).symm.trans ((h 23 (by omega)).2 (by omega))
    refine ⟨h24, h25, fun hd3 => ?_⟩
    -- From the last row upwards: each row is a later one, or blank at once.
    have hup : ∀ k r, r + k = 25 → 2 ≤ r → R r = blank := by
      intro k
      induction k using Nat.strongRecOn with
      | ind k ih =>
          intro r hrk hr
          by_cases h25' : r = 25
          · rw [h25', h25]
          by_cases h24' : r = 24
          · rw [h24', h24]
          have hrow := hmove (r - 2) (by omega)
          rw [if_pos (by omega), Nat.sub_add_cancel hr] at hrow
          by_cases hin : r - 2 + d < 25
          · have hsame := (h (r - 2) (by omega)).1 hin
            rw [← hrow, hsame]
            exact ih (25 - (r - 2 + d)) (by omega) _ (by omega) (by omega)
          · exact hrow.symm.trans ((h (r - 2) (by omega)).2 (by omega))
    exact fun r hr hr' => hup (25 - r) r (by omega) hr
  · rintro ⟨h24, h25, hrest⟩ r hr
    rw [hmove r hr]
    by_cases hd3 : 2 < d
    · have hall : ∀ r, 2 ≤ r → r < 26 → R r = blank := by
        intro r hr hr'
        by_cases h24' : r < 24
        · exact hrest hd3 r hr h24'
        · obtain rfl | rfl : r = 24 ∨ r = 25 := by omega
          · exact h24
          · exact h25
      have hmoved : R (if r < 24 then r + 2 else r) = blank := by
        split
        · exact hall _ (by omega) (by omega)
        · exact hall _ (by omega) (by omega)
      rw [hmoved]
      exact ⟨fun hin => (hall _ (by omega) (by omega)).symm, fun _ => rfl⟩
    · obtain rfl : d = 2 := by omega
      by_cases hlast : r < 23
      · rw [if_pos (by omega)]
        exact ⟨fun _ => rfl, fun hge => by omega⟩
      · refine ⟨fun hin => by omega, fun _ => ?_⟩
        obtain rfl | rfl : r = 23 ∨ r = 24 := by omega
        · exact h25
        · exact h24

/-- A scroll is right for the screens that are blank where it goes wrong. -/
theorem scrollMoves_iff {s : Vga} (h : TextMode s) (hy : 25 ≤ (vgaWrap s).y.toNat) :
    ScrollMoves s ↔ BlankBelow s := by
  have hcursor : (vgaScroll s).y.toNat = 23 := by
    rw [(scroll_eq h hy).1]
    rfl
  have hmoves := @moves_iff _ s.row (vgaScroll s).row (blankRow s) ((vgaWrap s).y.toNat - 23)
    (by omega) (fun r hr => row_scroll h hy hr)
  rw [BlankBelow, show 25 < (vgaWrap s).y.toNat ↔ 2 < (vgaWrap s).y.toNat - 23 by omega, ← hmoves,
    ScrollMoves, hcursor]
  refine forall₂_congr fun r _ => ⟨fun hall => hall _ (by omega), fun hall d hd => ?_⟩
  rwa [show d = (vgaWrap s).y.toNat - 23 by omega]

/-- A screen behind a space in the row below the last one, black on green. -/
def spacedScreen : Vga :=
  ⟨VGA_TM_BASE, 80, 25, 1, 25, .VC_BLACK, .VC_GREEN,
    .start fun a => if (a - VGA_TM_BASE).toNat < 3840 then 0x41 else 0x20, []⟩

/-- Its rows are letters down to the last one. -/
theorem spacedScreen_row {r : Nat} (hr : 24 ≤ r) (hr' : r < 26) :
    spacedScreen.row r = blankRow spacedScreen := by
  have hspace : ∀ i, 3840 ≤ i → i < 4200 →
      spacedScreen.memory.mem (spacedScreen.base + BitVec.ofNat 64 i) = 0x20 := by
    intro i hi hi'
    refine if_neg ?_
    show ¬ (VGA_TM_BASE + BitVec.ofNat 64 i - VGA_TM_BASE).toNat < 3840
    rw [Traced.toNat_offset _ (by omega)]
    omega
  funext j
  have hj := j.isLt
  show _ ++ _ = _
  rw [hspace _ (by omega) (by omega), hspace _ (by omega) (by omega)]
  rfl

theorem scrollMoves_spaced : ScrollMoves spacedScreen :=
  (scrollMoves_iff ⟨rfl, rfl, rfl⟩ (by decide)).mpr
    ⟨spacedScreen_row (by decide) (by decide), spacedScreen_row (by decide) (by decide),
      fun h => absurd h (by decide)⟩

/-- On a screen full of letters the last row stays. -/
theorem not_scrollMoves_letters :
    ¬ ScrollMoves ⟨VGA_TM_BASE, 80, 25, 1, 25, .VC_BLUE, .VC_RED, .start fun _ => 0x41, []⟩ := by
  intro hmoves
  have hmode : TextMode
      ⟨VGA_TM_BASE, 80, 25, 1, 25, .VC_BLUE, .VC_RED, .start fun _ => 0x41, []⟩ := ⟨rfl, rfl, rfl⟩
  have hbelow : 25 ≤ (vgaWrap
      ⟨VGA_TM_BASE, 80, 25, 1, 25, .VC_BLUE, .VC_RED, .start fun _ => 0x41, []⟩).y.toNat := by
    decide
  have hcursor := (scroll_eq hmode hbelow).1
  have hblank := (hmoves 24 (by decide) 2 (by rw [hcursor]; decide)).2 (by decide)
  rw [row_scroll hmode hbelow (by decide), if_neg (by decide)] at hblank
  exact absurd (congrFun hblank 0) (by decide)

end MString
