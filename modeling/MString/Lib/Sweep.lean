import Mathlib.Logic.Basic

/-!
# `MString.Lib.Sweep`: one pass over points and spans

The points `0, 1, 2, …` are taken in turn, with an index into a sequence of spans beside
them. The index moves on at a point that its span does not have, but only once: after that
it waits until a point is in its span.

* `stands_place`: where the pass stands in front of each point.
* `point_iff`: over disjoint spans in order, the pass finds a point in a span when it
  gets to the span and the span has the point.

`Reached` says which spans the pass gets to. An empty span stops it, since no point is in it.

Nothing here mentions a program.
-/

set_option autoImplicit false

namespace Sweep

/-- The span `j` goes from `lo j` up to `hi j`, which it does not have. -/
structure Spans where
  lo : Nat → Nat
  hi : Nat → Nat

variable {s : Spans}

/-- The span `j` has the point `p`. -/
def Spans.Has (s : Spans) (j p : Nat) : Prop := s.lo j ≤ p ∧ p < s.hi j

instance (j p : Nat) : Decidable (s.Has j p) := inferInstanceAs (Decidable (_ ∧ _))

/-- The index, and whether it has moved on and waits. -/
structure Place where
  span : Nat
  justLeft : Bool

/-- A point: whether it is in a span, and the place behind it. -/
def point (s : Spans) (p : Nat) (pl : Place) : Bool × Place :=
  if s.Has pl.span p then (true, ⟨pl.span, false⟩)
  else if pl.justLeft = false then
    (decide (s.Has (pl.span + 1) p), ⟨pl.span + 1, !decide (s.Has (pl.span + 1) p)⟩)
  else (false, pl)

/-- The place in front of point `p`. -/
def place (s : Spans) : Nat → Place
  | 0 => ⟨0, false⟩
  | p + 1 => (point s p (place s p)).2

/-- The pass gets to span `j`, the first one if it has the point `0`. -/
def Reached (s : Spans) : Nat → Prop
  | 0 => s.Has 0 0
  | 1 => True
  | j + 2 => Reached s (j + 1) ∧ s.lo (j + 1) < s.hi (j + 1)

/-- Every span in front of a reached one has been reached and is not empty. -/
theorem Reached.before {i : Nat} : ∀ {j : Nat}, Reached s j → 0 < i → i < j →
    Reached s i ∧ s.lo i < s.hi i
  | 0, _, _, hlt => by omega
  | 1, _, hi, hlt => by omega
  | j + 2, h, hi, hlt => by
      rcases Nat.lt_or_eq_of_le (Nat.le_of_lt_succ hlt) with hlt | rfl
      · exact Reached.before h.1 hi hlt
      · exact h

/-- Behind a span that is not empty the pass gets to the next one. -/
theorem Reached.succ {i : Nat} (h : Reached s i) (hne : s.lo i < s.hi i) : Reached s (i + 1) := by
  cases i with
  | zero => trivial
  | succ i => exact ⟨h, hne⟩

/-- Spans that are not empty are disjoint, and in order. -/
def Ordered (s : Spans) : Prop :=
  ∀ j k, j < k → s.lo j < s.hi j → s.lo k < s.hi k → s.hi j ≤ s.lo k

/-- A point is in one span only. -/
theorem Ordered.unique (h : Ordered s) {j k p : Nat} (hj : s.Has j p) (hk : s.Has k p) : j = k := by
  obtain ⟨hj1, hj2⟩ := hj
  obtain ⟨hk1, hk2⟩ := hk
  rcases Nat.lt_trichotomy j k with hlt | heq | hgt
  · have := h j k hlt (by omega) (by omega)
    omega
  · exact heq
  · have := h k j hgt (by omega) (by omega)
    omega

/-- How the pass stands in front of a point. -/
inductive Stands (s : Spans) : Nat → Place → Prop where
  | start : Stands s 0 ⟨0, false⟩
  /-- The point before was in the span. -/
  | inside {i p : Nat} (reached : Reached s i) (has : s.Has i p) : Stands s (p + 1) ⟨i, false⟩
  /-- No point so far has been in the span, and the spans before it are behind. -/
  | waiting {i p : Nat} (reached : Reached s (i + 1)) (none : ∀ q, q < p → ¬ s.Has (i + 1) q)
      (passed : ∀ j, j ≤ i → Reached s j → s.lo j < s.hi j → s.hi j ≤ p) :
      Stands s p ⟨i + 1, true⟩

/-- One point takes the pass from place to place. -/
theorem Stands.point (hord : Ordered s) {p : Nat} {pl : Place} (h : Stands s p pl) :
    Stands s (p + 1) (Sweep.point s p pl).2 := by
  cases h with
  | start =>
      unfold Sweep.point
      -- The counter starts at span 0, and at point 0 it may already go on to span 1.
      by_cases h0 : s.Has 0 0
      · rw [if_pos h0]
        exact .inside h0 h0
      · rw [if_neg h0, if_pos rfl]
        by_cases h1 : s.Has 1 0
        · simp only [h1, decide_true, Bool.not_true]
          exact .inside trivial h1
        · -- Neither span has point 0. The pass waits in front of span 1.
          simp only [h1, decide_false, Bool.not_false]
          refine .waiting trivial (fun q hq => ?_) fun j hj hr _ => ?_
          · obtain rfl : q = 0 := by omega
            exact h1
          · obtain rfl : j = 0 := by omega
            exact absurd hr h0
  | @inside i p hreached hhas =>
      unfold Sweep.point
      have hne : s.lo i < s.hi i := Nat.lt_of_le_of_lt hhas.1 hhas.2
      have hnext := hreached.succ hne
      by_cases hi : s.Has i (p + 1)
      · -- The next point is still in span `i`.
        rw [if_pos hi]
        exact .inside hreached hi
      · rw [if_neg hi, if_pos rfl]
        by_cases hi' : s.Has (i + 1) (p + 1)
        · simp only [hi', decide_true, Bool.not_true]
          exact .inside hnext hi'
        · -- Span `i` has ended, and the next one has not begun.
          simp only [hi', decide_false, Bool.not_false]
          have hend : s.hi i ≤ p + 1 := by
            have := hhas.1
            exact Nat.le_of_not_lt fun hlt => hi ⟨by omega, hlt⟩
          refine .waiting hnext (fun q hq hhas' => ?_) fun j hj _ hne' => ?_
          · -- The span behind begins where this one ends, at the earliest.
            have := hord i (i + 1) (by omega) hne (Nat.lt_of_le_of_lt hhas'.1 hhas'.2)
            have := hhas'.1
            have := hhas.2
            obtain rfl : q = p + 1 := by omega
            exact hi' hhas'
          · rcases Nat.lt_or_eq_of_le hj with hlt | rfl
            · have := hord j i hlt hne' hne
              have := hhas.1
              omega
            · omega
  | @waiting i _ hreached hnone hpassed =>
      unfold Sweep.point
      by_cases hi : s.Has (i + 1) p
      · rw [if_pos hi]
        -- A span that has begun is entered, otherwise the pass waits on.
        exact .inside hreached hi
      · rw [if_neg hi, if_neg (by simp)]
        refine .waiting hreached (fun q hq => ?_) fun j hj hr hne => ?_
        · rcases Nat.lt_or_eq_of_le (Nat.le_of_lt_succ hq) with hlt | rfl
          · exact hnone q hlt
          · exact hi
        · have := hpassed j hj hr hne
          omega

/-- The pass stands where `place` says. -/
theorem stands_place (hord : Ordered s) (p : Nat) : Stands s p (place s p) := by
  induction p with
  | zero => exact .start
  | succ p ih => exact ih.point hord

/-- The pass never stands in front of a span that has the point and has been reached,
unless it is the next one. -/
theorem Stands.not_later (hord : Ordered s) {p : Nat} {pl : Place} (h : Stands s p pl) {j : Nat}
    (hreached : Reached s j) (hhas : s.Has j p) (hnot : ¬ s.Has pl.span p) :
    pl.justLeft = false ∧ j = pl.span + 1 := by
  have hne : s.lo j < s.hi j := Nat.lt_of_le_of_lt hhas.1 hhas.2
  obtain ⟨hfrom, hto⟩ := hhas
  cases h with
  -- In front of the first point. If span 1 were passed, the point would lie before it.
  | start =>
      refine ⟨rfl, ?_⟩
      rcases Nat.lt_trichotomy j 1 with hlt | heq | hgt
      · obtain rfl : j = 0 := by omega
        exact absurd hreached hnot
      · exact heq
      · have hfirst := (hreached.before Nat.one_pos hgt).2
        have := hord 1 j hgt hfirst hne
        omega
  -- The point before was in span `i`, so `j` is the next one.
  | @inside i p hreached' hhas' =>
      refine ⟨rfl, ?_⟩
      have hne' : s.lo i < s.hi i := Nat.lt_of_le_of_lt hhas'.1 hhas'.2
      have hin := hhas'.2
      rcases Nat.lt_trichotomy j i with hlt | rfl | hgt
      · have := hord j i hlt hne hne'
        have := hhas'.1
        omega
      · exact absurd ⟨hfrom, hto⟩ hnot
      · rcases Nat.lt_or_eq_of_le (show i + 1 ≤ j from hgt) with hlt | heq
        · -- The span between the two would have to end where it begins.
          have hmid := (hreached.before (show 0 < i + 1 from Nat.succ_pos i) hlt).2
          have := hord i (i + 1) (by omega) hne' hmid
          have := hord (i + 1) j hlt hmid hne
          omega
        · exact heq.symm
  -- The pass waits for span `i + 1`, and all that are reached before it have ended.
  | @waiting i _ hreached' hnone hpassed =>
      dsimp only at hnot ⊢
      rcases Nat.lt_trichotomy j (i + 1) with hlt | rfl | hgt
      · have := hpassed j (by omega) hreached hne
        omega
      · exact absurd ⟨hfrom, hto⟩ hnot
      · -- The span that the pass waits for has its first point behind.
        have hmid := (hreached.before (show 0 < i + 1 from Nat.succ_pos i) hgt).2
        have := hord (i + 1) j hgt hmid hne
        exact absurd ⟨Nat.le_refl _, hmid⟩ (hnone (s.lo (i + 1)) (by omega))

/-- The pass finds the points of the spans that it gets to. -/
theorem point_iff (hord : Ordered s) (p j : Nat) :
    (point s p (place s p)).1 = true ∧ (point s p (place s p)).2.span = j ↔
      Reached s j ∧ s.Has j p := by
  have hstands := stands_place hord p
  generalize place s p = pl at hstands
  unfold point
  by_cases hhere : s.Has pl.span p
  · rw [if_pos hhere]
    -- A span that the pass stands in has been reached.
    have hreached : Reached s pl.span := by
      cases hstands with
      | start => exact hhere
      | inside hreached _ => exact hreached
      | waiting hreached _ _ => exact hreached
    constructor
    · rintro ⟨-, rfl⟩
      exact ⟨hreached, hhere⟩
    · rintro ⟨-, hhas⟩
      exact ⟨rfl, hord.unique hhere hhas⟩
  · rw [if_neg hhere]
    constructor
    · intro ⟨hfound, hspan⟩
      -- If the pass does not stand in a span of the point, it can only step into the next one.
      split at hfound
      · case isTrue hleft =>
          rw [if_pos hleft] at hspan
          obtain rfl : pl.span + 1 = j := hspan
          refine ⟨?_, of_decide_eq_true hfound⟩
          cases hstands with
          | start => trivial
          | inside hreached hhas =>
              exact hreached.succ (Nat.lt_of_le_of_lt hhas.1 hhas.2)
          | waiting _ _ _ => cases hleft
      · cases hfound
    · intro ⟨hreached, hhas⟩
      obtain ⟨hleft, rfl⟩ := hstands.not_later hord hreached hhas hhere
      rw [if_pos hleft]
      exact ⟨decide_eq_true hhas, rfl⟩

end Sweep
