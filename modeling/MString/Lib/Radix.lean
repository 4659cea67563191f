import Mathlib.Data.List.Induction

/-!
# `MString.Lib.Radix`: trees of tables

A radix tree kept in memory: a table has one entry for every slot, and an entry
of an upper level may refer to a table of the next one. `child` reads that
reference off an entry. A path is the list of slots from the root; `tableAt`
follows one.

`IsTree m root d` says that no two paths of fewer than `d` slots meet in one
table. It is what makes a write to one table a local change:

* `tableAt_of_agree`: a memory that agrees on the tables of the tree, one
  table of the last level apart, has the same tables.
* `tableAt_link`: hanging a fresh empty table under an empty slot adds one path.
* `isTree_link`: and the result is a tree again.

`A` are the tables, `S` the slots and `E` the entries.
-/

set_option autoImplicit false

namespace Radix

variable {A S E : Type} (child : E → Option A)

/-- The table at the end of a path. -/
def tableAt (m : A → S → E) : A → List S → Option A
  | a, [] => some a
  | a, s :: p => (child (m a s)).bind fun b => tableAt m b p

/-- No two paths shorter than `d` end in the same table. -/
def IsTree (m : A → S → E) (root : A) (d : Nat) : Prop :=
  ∀ p q a, p.length < d → q.length < d →
    tableAt child m root p = some a → tableAt child m root q = some a → p = q

variable {child} {m m' : A → S → E} {root : A} {d : Nat}

@[simp] theorem tableAt_nil (a : A) : tableAt child m a [] = some a := rfl

@[simp] theorem tableAt_cons (a : A) (s : S) (p : List S) :
    tableAt child m a (s :: p) = (child (m a s)).bind fun b => tableAt child m b p := rfl

/-- A path in two parts. -/
theorem tableAt_append (a : A) (p q : List S) :
    tableAt child m a (p ++ q)
      = (tableAt child m a p).bind fun b => tableAt child m b q := by
  induction p generalizing a with
  | nil => simp
  | cons s p ih =>
      simp only [List.cons_append, tableAt_cons]
      cases child (m a s) with
      | none => rfl
      | some b => simpa using ih b

/-- One more slot reads one more entry. -/
theorem tableAt_concat (a : A) (p : List S) (s : S) :
    tableAt child m a (p ++ [s]) = (tableAt child m a p).bind fun b => child (m b s) := by
  rw [tableAt_append]
  cases tableAt child m a p with
  | none => rfl
  | some b => cases h : child (m b s) <;> simp [h]

/-- A path that leads somewhere leads somewhere at each of its prefixes. -/
theorem exists_prefix_table {p : List S} {s : S} {a : A}
    (h : tableAt child m root (p ++ [s]) = some a) :
    ∃ b, tableAt child m root p = some b ∧ child (m b s) = some a := by
  rw [tableAt_concat] at h
  exact Option.bind_eq_some_iff.mp h

/-- Memories with the same references in every table above the last level have
the same tables. -/
theorem tableAt_of_agree (h : ∀ p a s, p.length + 1 < d → tableAt child m root p = some a →
      child (m' a s) = child (m a s)) :
    ∀ p : List S, p.length < d → tableAt child m' root p = tableAt child m root p := by
  intro p
  induction p using List.reverseRecOn with
  | nil => intro _; rfl
  | append_singleton p s ih =>
      intro hp
      simp only [List.length_append, List.length_singleton] at hp
      rw [tableAt_concat, tableAt_concat, ih (by omega)]
      cases ha : tableAt child m root p with
      | none => rfl
      | some a => exact h p a s hp ha

/-- A tree stays one when no reference above the last level changes. -/
theorem isTree_of_agree (ht : IsTree child m root d)
    (h : ∀ p a s, p.length + 1 < d → tableAt child m root p = some a →
      child (m' a s) = child (m a s)) : IsTree child m' root d := by
  intro p q a hp hq hpa hqa
  rw [tableAt_of_agree h p hp] at hpa
  rw [tableAt_of_agree h q hq] at hqa
  exact ht p q a hp hq hpa hqa

/-- Every table lies in a set that holds the root and is closed under references. -/
theorem tableAt_closed {T : A → Prop} (hroot : T root)
    (hclosed : ∀ a s c, T a → child (m a s) = some c → T c) :
    ∀ (p : List S) (a : A), tableAt child m root p = some a → T a := by
  intro p
  induction p using List.reverseRecOn with
  | nil =>
      intro a h
      cases h
      exact hroot
  | append_singleton p s ih =>
      intro a h
      obtain ⟨b, hb, ha⟩ := exists_prefix_table h
      exact hclosed b s a (ih b hb) ha

/-- Where every table but the root is referred to from one slot only, and the root
from none, the tables form a tree. -/
theorem isTree_of_injective {T : A → Prop} (hroot : T root)
    (hclosed : ∀ a s c, T a → child (m a s) = some c → T c)
    (hinj : ∀ a a' s s' c, T a → T a' → child (m a s) = some c → child (m a' s') = some c →
      a = a' ∧ s = s')
    (hfirst : ∀ a s, T a → child (m a s) ≠ some root) : IsTree child m root d := by
  have key : ∀ (p q : List S) (a : A), tableAt child m root p = some a →
      tableAt child m root q = some a → p = q := by
    intro p
    induction p using List.reverseRecOn with
    -- The empty path leads to the root, and no other one does.
    | nil =>
        intro q a hp hq
        cases hp
        cases q using List.reverseRecOn with
        | nil => rfl
        | append_singleton q s =>
            obtain ⟨b, hb, ha⟩ := exists_prefix_table hq
            exact absurd ha (hfirst b s (tableAt_closed hroot hclosed q b hb))
    -- A longer path leads to its table through the one before, and there is only one way in.
    | append_singleton p s ih =>
        intro q a hp hq
        obtain ⟨b, hb, hba⟩ := exists_prefix_table hp
        have hTb := tableAt_closed hroot hclosed p b hb
        cases q using List.reverseRecOn with
        | nil =>
            cases hq
            exact absurd hba (hfirst b s hTb)
        | append_singleton q s' =>
            obtain ⟨b', hb', hba'⟩ := exists_prefix_table hq
            obtain ⟨rfl, rfl⟩ :=
              hinj b b' s s' a hTb (tableAt_closed hroot hclosed q b' hb') hba hba'
            rw [ih q b hb hb']
  exact fun p q a _ _ hp hq => key p q a hp hq

section Link

/-! ### Hanging a fresh table under an empty slot

`a` is the table at the path `q`, its slot `s` refers to nothing, and `b` is no
table of the tree. `m'` is `m` with the slot referring to `b` and with `b` free
of references. -/

variable {q : List S} {a b : A} {s : S}

/-- `m'` is `m` with the fresh table `b` under the slot `s` of the table at `q`. -/
structure Links (child : E → Option A) (m m' : A → S → E) (root : A) (d : Nat)
    (q : List S) (a b : A) (s : S) : Prop where
  short : q.length + 1 < d
  table : tableAt child m root q = some a
  empty : child (m a s) = none
  fresh : ∀ p, p.length < d → tableAt child m root p ≠ some b
  slot : child (m' a s) = some b
  clear : ∀ t, child (m' b t) = none
  other : ∀ p c t, p.length < d → tableAt child m root p = some c → (c, t) ≠ (a, s) →
    child (m' c t) = child (m c t)

/-- Every old path leads where it led. -/
theorem Links.old (l : Links child m m' root d q a b s) :
    ∀ (p : List S) (c : A), p.length < d → tableAt child m root p = some c →
      tableAt child m' root p = some c := by
  intro p
  induction p using List.reverseRecOn with
  | nil => intro c _ h; exact h
  | append_singleton p t ih =>
      intro c hp h
      simp only [List.length_append, List.length_singleton] at hp
      obtain ⟨e, he, hc⟩ := exists_prefix_table h
      have hne : (e, t) ≠ (a, s) := by
        rintro ⟨⟩
        rw [l.empty] at hc
        cases hc
      rw [tableAt_concat, ih e (by omega) he]
      exact (l.other p e t (by omega) he hne).trans hc

/-- Every path leads to an old table along its old path, or is the new path. -/
theorem Links.cases (l : Links child m m' root d q a b s)
    (ht : IsTree child m root d) :
    ∀ (p : List S) (c : A), p.length < d → tableAt child m' root p = some c →
      tableAt child m root p = some c ∨ (p = q ++ [s] ∧ c = b) := by
  intro p
  induction p using List.reverseRecOn with
  | nil => intro c _ h; exact .inl h
  | append_singleton p t ih =>
      intro c hp h
      simp only [List.length_append, List.length_singleton] at hp
      obtain ⟨e, he, hc⟩ := exists_prefix_table h
      rcases ih e (by omega) he with hold | ⟨-, rfl⟩
      · by_cases hst : (e, t) = (a, s)
        · cases hst
          have hpq : p = q :=
            ht p q a (by omega) (by have := l.short; omega) hold l.table
          rw [l.slot] at hc
          cases hc
          exact .inr ⟨by rw [hpq], rfl⟩
        · rw [l.other p e t (by omega) hold hst] at hc
          left
          rw [tableAt_concat, hold]
          exact hc
      · -- The fresh table refers to nothing, so no path goes on below it.
        rw [l.clear t] at hc
        cases hc

/-- Hanging a fresh table keeps the tree a tree. -/
theorem isTree_link (l : Links child m m' root d q a b s)
    (ht : IsTree child m root d) : IsTree child m' root d := by
  intro p p' c hp hp' h h'
  rcases l.cases ht p c hp h with hold | ⟨rfl, hcb⟩
  · rcases l.cases ht p' c hp' h' with hold' | ⟨-, hcb⟩
    · exact ht p p' c hp hp' hold hold'
    · exact absurd (hcb ▸ hold) (l.fresh p hp)
  · rcases l.cases ht p' c hp' h' with hold' | ⟨rfl, -⟩
    · exact absurd (hcb ▸ hold') (l.fresh p' hp')
    · rfl

end Link

end Radix
