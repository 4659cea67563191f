import Mathlib.Algebra.Group.Nat.Defs

/-!
# `MString.Lib.BitFields`: packed bit fields

A record of bit fields is a list of fields, each with its width and its value, the lowest
one first. `pack` is the number that the record is in memory, and `field` reads some bits of
a number.

* `field_pack`: a field reads back as what was packed into it, cut to its width.
* `field_add`: a field in two parts.
* `pack_append`: a record in two parts.
* `pack_lt`: a record fits in its width.

Nothing here mentions a program.
-/

set_option autoImplicit false

namespace BitFields

/-- The fields one behind the other. A value is cut to its width. -/
def pack : List (Nat × Nat) → Nat
  | [] => 0
  | (w, v) :: fs => v % 2 ^ w + 2 ^ w * pack fs

/-- How many bits the fields take. -/
def width : List (Nat × Nat) → Nat
  | [] => 0
  | (w, _) :: fs => w + width fs

/-- The `w` bits from bit `start` on. -/
def field (start w n : Nat) : Nat := n / 2 ^ start % 2 ^ w

/-- Two neighbouring fields are one. -/
theorem field_add (start w₁ w₂ n : Nat) : field start (w₁ + w₂) n
    = field start w₁ n + 2 ^ w₁ * field (start + w₁) w₂ n := by
  rw [field, field, field, Nat.pow_add, Nat.pow_add, Nat.mod_mul, Nat.div_div_eq_div_mul]

/-- The parts of a record. -/
theorem pack_append (fs gs : List (Nat × Nat)) :
    pack (fs ++ gs) = pack fs + 2 ^ width fs * pack gs := by
  induction fs with
  | nil => simp [pack, width]
  | cons f fs ih =>
      obtain ⟨w, v⟩ := f
      rw [List.cons_append, pack, pack, width, ih, Nat.mul_add, Nat.pow_add]
      simp only [Nat.mul_assoc, Nat.add_assoc]

theorem pack_lt (fs : List (Nat × Nat)) : pack fs < 2 ^ width fs := by
  induction fs with
  | nil => exact Nat.one_pos
  | cons f fs ih =>
      obtain ⟨w, v⟩ := f
      have hv := Nat.mod_lt v (Nat.two_pow_pos w)
      rw [pack, width, Nat.pow_add]
      calc v % 2 ^ w + 2 ^ w * pack fs
          < 2 ^ w + 2 ^ w * pack fs := Nat.add_lt_add_right hv _
        _ = 2 ^ w * (pack fs + 1) := by rw [Nat.mul_add, Nat.mul_one, Nat.add_comm]
        _ ≤ 2 ^ w * 2 ^ width fs := Nat.mul_le_mul_left _ ih

/-- What stands below a field does not matter for it. -/
theorem field_pack_below (fs gs : List (Nat × Nat)) (k w : Nat) :
    field (width fs + k) w (pack (fs ++ gs)) = field k w (pack gs) := by
  have hlow : pack (fs ++ gs) / 2 ^ width fs = pack gs := by
    rw [pack_append, Nat.add_mul_div_left _ _ (Nat.two_pow_pos _), Nat.div_eq_of_lt (pack_lt fs),
      Nat.zero_add]
  rw [field, field, Nat.pow_add, ← Nat.div_div_eq_div_mul, hlow]

/-- A field reads back. -/
theorem field_pack (fs : List (Nat × Nat)) (w v : Nat) (gs : List (Nat × Nat)) :
    field (width fs) w (pack (fs ++ (w, v) :: gs)) = v % 2 ^ w := by
  have h := field_pack_below fs ((w, v) :: gs) 0 w
  rw [Nat.add_zero] at h
  rw [h, field, pack, Nat.pow_zero, Nat.div_one, Nat.add_mul_mod_self_left, Nat.mod_mod]

end BitFields
