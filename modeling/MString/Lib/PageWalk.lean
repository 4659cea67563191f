import MString.Lib.BitFields

/-!
# `MString.Lib.PageWalk`: how a processor translates an address

In long mode the processor reads one entry on each of four levels of tables. An entry that
is not present ends the walk without a translation; on the two middle levels an entry may
map a large page itself. Tables are named by their physical addresses, and a memory is read
word by word.

* `walk`: the levels from one table on. `walk_absent`, `walk_large` and `walk_table` say
  what an entry does, and `walk_page` what the last one leaves.
* `translate`: the whole walk for an address, which has to be canonical.

Nothing here mentions a program.
-/

set_option autoImplicit false

namespace PageWalk

open BitFields

/-- A physical memory: the word at an address. -/
abbrev Words := Nat → Nat

structure Level where
  /-- How many bits of an address an entry of this level leaves to the levels below. -/
  shift : Nat
  /-- An entry may map a page of this size. -/
  large : Bool

def levels : List Level := [⟨39, false⟩, ⟨30, true⟩, ⟨21, true⟩, ⟨12, false⟩]

/-- Bit 0 of an entry. -/
def present (w : Nat) : Bool := field 0 1 w == 1

/-- Bit 7 of an entry. -/
def pageSize (w : Nat) : Bool := field 7 1 w == 1

/-- The address in an entry, a multiple of `2 ^ shift` below `2 ^ 52`. -/
def base (shift w : Nat) : Nat := 2 ^ shift * field shift (52 - shift) w

/-- The slot of an address in a table. -/
def index (shift va : Nat) : Nat := field shift 9 va

/-- The walk from the table at `t` on. -/
def walk (m : Words) (va : Nat) : List Level → Nat → Option Nat
  | [], page => some (page + va % 2 ^ 12)
  | l :: ls, t =>
      let w := m (t + 8 * index l.shift va)
      if present w then
        if l.large && pageSize w then some (base l.shift w + va % 2 ^ l.shift)
        else walk m va ls (base 12 w)
      else none

/-- The upper bits of an address repeat bit 47. -/
def Canonical (va : Nat) : Prop := va < 2 ^ 47 ∨ 2 ^ 64 - 2 ^ 47 ≤ va ∧ va < 2 ^ 64

instance (va : Nat) : Decidable (Canonical va) := inferInstanceAs (Decidable (_ ∨ _))

/-- The physical address of `va`, with the directory that `cr3` names. -/
def translate (m : Words) (cr3 va : Nat) : Option Nat :=
  if Canonical va then walk m va levels (base 12 cr3) else none

section Walk

variable {m : Words} {va t w : Nat} {l : Level} {ls : List Level}

@[simp] theorem walk_page : walk m va [] t = some (t + va % 2 ^ 12) := rfl

/-- A walk ends without an address at an entry that is not present. -/
theorem walk_absent (hw : m (t + 8 * index l.shift va) = w) (hp : present w = false) :
    walk m va (l :: ls) t = none := by
  simp [walk, hw, hp]

/-- It ends with one at an entry for a large page. -/
theorem walk_large (hw : m (t + 8 * index l.shift va) = w) (hp : present w = true)
    (hl : l.large = true) (hs : pageSize w = true) :
    walk m va (l :: ls) t = some (base l.shift w + va % 2 ^ l.shift) := by
  simp [walk, hw, hp, hl, hs]

/-- And it goes on in the next table at every other entry. -/
theorem walk_table (hw : m (t + 8 * index l.shift va) = w) (hp : present w = true)
    (hs : l.large = false ∨ pageSize w = false) :
    walk m va (l :: ls) t = walk m va ls (base 12 w) := by
  rcases hs with hs | hs <;> simp [walk, hw, hp, hs]

end Walk

/-- The flags below bit 12 do not change the address of a table. -/
theorem base_add {a flags : Nat} (ha : a % 2 ^ 12 = 0) (hlt : a < 2 ^ 52)
    (hflags : flags < 2 ^ 12) : base 12 (a + flags) = a := by
  unfold base field
  omega

/-- They are what they are without it. -/
theorem field_flags {a flags start : Nat} (ha : a % 2 ^ 12 = 0) (hstart : start < 12) :
    field start 1 (a + flags) = field start 1 flags := by
  have hsplit : 2 ^ 12 = 2 ^ start * (2 * 2 ^ (11 - start)) := by
    rw [← Nat.pow_succ', ← Nat.pow_add]
    congr 1
    omega
  obtain ⟨k, rfl⟩ := Nat.dvd_of_mod_eq_zero ha
  rw [field, field, hsplit, Nat.mul_assoc, Nat.mul_add_div (Nat.two_pow_pos start),
    Nat.mul_assoc, Nat.pow_one, Nat.mul_add_mod]

end PageWalk
