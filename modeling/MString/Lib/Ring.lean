import Mathlib.Data.List.Nodup
import Mathlib.Logic.Function.Basic

/-!
# `MString.Lib.Ring`: circular doubly linked lists

A heap of nodes with a forward and a backward pointer each. `none` is a pointer
to no node. `Linked` says that consecutive nodes of a list point at each other,
and `IsRing l b qs` that the node `b` starts a ring with the further nodes `qs`.

* `ring_single`: a node that points at itself.
* `ring_insert`: linking a node in before `b` appends it; `ring_insertAll` does so
  for the nodes of a list.
* `ring_unlink`: taking a node out removes it.
* `IsRing.congr`: a ring sees only the pointers of its own nodes.
* `IsRing.unique`: a node starts one ring.

Nothing here mentions a program.
-/

set_option autoImplicit false

namespace Ring

/-- The pointers of a heap of nodes. -/
structure Links (ι : Type) where
  next : ι → Option ι
  prev : ι → Option ι

variable {ι : Type}

/-- Consecutive nodes point at each other. -/
def Linked (l : Links ι) : List ι → Prop
  | x :: y :: zs => l.next x = some y ∧ l.prev y = some x ∧ Linked l (y :: zs)
  | _ => True

/-- The ring that starts at `b`, with the further nodes `qs`. -/
def IsRing (l : Links ι) (b : ι) (qs : List ι) : Prop := Linked l (b :: qs ++ [b])

@[simp] theorem linked_nil (l : Links ι) : Linked l [] := trivial

@[simp] theorem linked_singleton (l : Links ι) (x : ι) : Linked l [x] := trivial

/-- A chain of two and more is linked at its front and behind it. -/
theorem linked_cons_cons {l : Links ι} {x y : ι} {zs : List ι} :
    Linked l (x :: y :: zs) ↔ l.next x = some y ∧ l.prev y = some x ∧ Linked l (y :: zs) :=
  Iff.rfl

instance decidableLinked [DecidableEq ι] (l : Links ι) : ∀ xs : List ι, Decidable (Linked l xs)
  | [] => isTrue trivial
  | [_] => isTrue trivial
  | x :: y :: zs =>
      have := decidableLinked l (y :: zs)
      inferInstanceAs (Decidable (l.next x = some y ∧ l.prev y = some x ∧ Linked l (y :: zs)))

instance [DecidableEq ι] (l : Links ι) (b : ι) (qs : List ι) : Decidable (IsRing l b qs) :=
  inferInstanceAs (Decidable (Linked l _))

/-- A list is linked when its two halves are, which share a node. -/
theorem linked_append {l : Links ι} (y : ι) (zs : List ι) :
    ∀ xs : List ι, Linked l (xs ++ y :: zs) ↔ Linked l (xs ++ [y]) ∧ Linked l (y :: zs) := by
  intro xs
  induction xs with
  | nil => simp
  | cons x xs ih =>
      cases xs with
      | nil =>
          simp only [List.nil_append, List.cons_append, linked_cons_cons, linked_singleton,
            and_true, and_assoc]
      | cons x' xs =>
          simp only [List.cons_append, linked_cons_cons] at ih ⊢
          rw [ih]
          simp only [and_assoc]

/-- The forward pointers of all nodes but the last and the backward pointers of all
nodes but the first are all that is read. -/
theorem Linked.congr {l l' : Links ι} :
    ∀ {xs : List ι}, Linked l xs → (∀ x ∈ xs.dropLast, l'.next x = l.next x) →
      (∀ x ∈ xs.tail, l'.prev x = l.prev x) → Linked l' xs := by
  intro xs
  induction xs with
  | nil => intro _ _ _; trivial
  | cons x xs ih =>
      cases xs with
      | nil => intro _ _ _; trivial
      | cons y zs =>
          intro h hnext hprev
          obtain ⟨h1, h2, h3⟩ := linked_cons_cons.mp h
          refine linked_cons_cons.mpr ⟨?_, ?_, ?_⟩
          · rw [hnext x (by simp), h1]
          · rw [hprev y (by simp), h2]
          · refine ih h3 (fun z hz => hnext z ?_) (fun z hz => hprev z ?_)
            · rw [List.dropLast_cons_cons]
              exact List.mem_cons_of_mem _ hz
            · exact List.mem_cons_of_mem _ hz

/-- Two linked lists, joined by pointers between the end `p` of one and the start `n` of
the other. -/
theorem Linked.join {l l' : Links ι} {us vs : List ι} {p n : ι} (hleft : Linked l (us ++ [p]))
    (hright : Linked l (n :: vs)) (hpn : l'.next p = some n ∧ l'.prev n = some p)
    (hnext : ∀ y ∈ us ++ (n :: vs).dropLast, l'.next y = l.next y)
    (hprev : ∀ y ∈ (us ++ [p]).tail ++ vs, l'.prev y = l.prev y) :
    Linked l' (us ++ p :: n :: vs) := by
  refine (linked_append _ _ _).mpr ⟨?_, linked_cons_cons.mpr ⟨hpn.1, hpn.2, ?_⟩⟩
  · refine hleft.congr (fun y hy => hnext y ?_) (fun y hy => hprev y (List.mem_append_left _ hy))
    rw [List.dropLast_concat] at hy
    exact List.mem_append_left _ hy
  · exact hright.congr (fun y hy => hnext y (List.mem_append_right _ hy))
      (fun y hy => hprev y (List.mem_append_right _ hy))

/-- A ring is the same in a heap that agrees on its nodes. -/
theorem IsRing.congr {l l' : Links ι} {b : ι} {qs : List ι} (h : IsRing l b qs)
    (hnext : ∀ x ∈ b :: qs, l'.next x = l.next x) (hprev : ∀ x ∈ b :: qs, l'.prev x = l.prev x) :
    IsRing l' b qs := by
  refine Linked.congr h (fun x hx => hnext x ?_) (fun x hx => hprev x ?_)
  · rwa [List.dropLast_concat] at hx
  · rw [List.cons_append, List.tail_cons, List.mem_append, List.mem_singleton] at hx
    rcases hx with hx | rfl
    · exact List.mem_cons_of_mem _ hx
    · exact List.mem_cons_self

/-- The first further node of a ring, or the ring's start. -/
theorem IsRing.next {l : Links ι} {b : ι} {qs : List ι} (h : IsRing l b qs) :
    l.next b = some (qs.headD b) := by
  cases qs with
  | nil => exact (linked_cons_cons.mp h).1
  | cons q qs => exact (linked_cons_cons.mp h).1

/-- The last node of a ring. -/
theorem IsRing.prev {l : Links ι} {b : ι} {qs : List ι} (h : IsRing l b qs) :
    l.prev b = some ((b :: qs).getLast (by simp)) := by
  have hsplit : b :: qs ++ [b]
      = (b :: qs).dropLast ++ (b :: qs).getLast (by simp) :: [b] := by
    conv_lhs => rw [← List.dropLast_append_getLast (l := b :: qs) (by simp)]
    simp
  rw [IsRing, hsplit, linked_append] at h
  exact (linked_cons_cons.mp h.2).2.1

/-- The neighbours of a node of a ring. -/
theorem IsRing.neighbours {l : Links ι} {b x : ι} {xs ys : List ι}
    (h : IsRing l b (xs ++ x :: ys)) :
    l.prev x = some ((b :: xs).getLast (by simp)) ∧ l.next x = some (ys.headD b) := by
  have hsplit : b :: (xs ++ x :: ys) ++ [b] = (b :: xs) ++ x :: (ys ++ [b]) := by simp
  rw [IsRing, hsplit, linked_append] at h
  obtain ⟨h1, h2⟩ := h
  constructor
  · have hlast : b :: xs ++ [x] = (b :: xs).dropLast ++ (b :: xs).getLast (by simp) :: [x] := by
      conv_lhs => rw [← List.dropLast_append_getLast (l := b :: xs) (by simp)]
      simp
    rw [hlast, linked_append] at h1
    exact (linked_cons_cons.mp h1.2).2.1
  · cases ys with
    | nil => exact (linked_cons_cons.mp h2).1
    | cons y ys => exact (linked_cons_cons.mp h2).1

/-- From one node on, the forward pointers lead to the end along one list only. -/
theorem Linked.unique {l : Links ι} {b : ι} :
    ∀ {xs ys : List ι} {x : ι}, Linked l (x :: xs ++ [b]) → Linked l (x :: ys ++ [b]) →
      b ∉ xs → b ∉ ys → xs = ys := by
  intro xs
  induction xs with
  | nil =>
      intro ys x h h' _ hys
      cases ys with
      | nil => rfl
      | cons y ys =>
          have hnext := (linked_cons_cons.mp h).1.symm.trans (linked_cons_cons.mp h').1
          exact absurd (by simp [Option.some.inj hnext]) hys
  | cons z xs ih =>
      intro ys x h h' hxs hys
      cases ys with
      | nil =>
          have hnext := (linked_cons_cons.mp h).1.symm.trans (linked_cons_cons.mp h').1
          exact absurd (by simp [Option.some.inj hnext]) hxs
      | cons y ys =>
          obtain ⟨h1, -, h2⟩ := linked_cons_cons.mp h
          obtain ⟨h1', -, h2'⟩ := linked_cons_cons.mp h'
          obtain rfl := Option.some.inj (h1.symm.trans h1')
          rw [ih h2 h2' (fun hb => hxs (by simp [hb])) (fun hb => hys (by simp [hb]))]

/-- A node starts one ring. -/
theorem IsRing.unique {l : Links ι} {b : ι} {ps qs : List ι} (h : IsRing l b ps)
    (h' : IsRing l b qs) (hp : b ∉ ps) (hq : b ∉ qs) : ps = qs :=
  Linked.unique h h' hp hq

/-- The other nodes of a list are neither of two that stand side by side. -/
theorem ne_of_nodup_middle {us vs : List ι} {p q : ι} (hnd : (us ++ p :: q :: vs).Nodup) :
    p ≠ q ∧ ∀ y ∈ us ++ vs, y ≠ p ∧ y ≠ q := by
  rw [List.nodup_middle, List.nodup_cons, List.nodup_middle, List.nodup_cons] at hnd
  obtain ⟨hp, hq, -⟩ := hnd
  rw [List.mem_append, List.mem_cons, not_or, not_or] at hp
  refine ⟨hp.2.1, fun y hy => ⟨?_, ?_⟩⟩
  · rintro rfl
    rcases List.mem_append.mp hy with hy | hy
    · exact hp.1 hy
    · exact hp.2.2 hy
  · rintro rfl
    exact hq hy

section Edit

variable [DecidableEq ι] {l : Links ι} {b x : ι} {qs : List ι}

/-- A heap with one forward pointer changed. -/
def Links.setNext (l : Links ι) (x : ι) (y : Option ι) : Links ι :=
  { l with next := Function.update l.next x y }

/-- A heap with one backward pointer changed. -/
def Links.setPrev (l : Links ι) (x : ι) (y : Option ι) : Links ι :=
  { l with prev := Function.update l.prev x y }

@[simp] theorem next_setNext (x y : ι) (z : Option ι) :
    (l.setNext x z).next y = if y = x then z else l.next y := by
  simp [Links.setNext, Function.update_apply]

@[simp] theorem prev_setNext (x y : ι) (z : Option ι) : (l.setNext x z).prev y = l.prev y := rfl

@[simp] theorem prev_setPrev (x y : ι) (z : Option ι) :
    (l.setPrev x z).prev y = if y = x then z else l.prev y := by
  simp [Links.setPrev, Function.update_apply]

@[simp] theorem next_setPrev (x y : ι) (z : Option ι) : (l.setPrev x z).next y = l.next y := rfl

/-- A node that points at itself is a ring. -/
theorem ring_single (l : Links ι) (b : ι) :
    IsRing ((l.setNext b (some b)).setPrev b (some b)) b [] := by
  simp [IsRing, linked_cons_cons]

/-- Link the node `x` in between `p` and `n`. -/
def Links.insert (l : Links ι) (x p n : ι) : Links ι :=
  (((l.setPrev n (some x)).setNext x (some n)).setPrev x (some p)).setNext p (some x)

/-- Linking a node in at the end of a ring. -/
theorem ring_insert (h : IsRing l b qs) (hnd : (b :: qs).Nodup) (hx : x ∉ b :: qs) :
    IsRing (l.insert x ((b :: qs).getLast (by simp)) b) b (qs ++ [x]) := by
  generalize hp : (b :: qs).getLast (by simp) = p
  obtain ⟨us, hus⟩ : ∃ us, b :: qs = us ++ [p] :=
    ⟨(b :: qs).dropLast, by rw [← hp, List.dropLast_append_getLast]⟩
  have hpb : x ≠ b := fun hxb => hx (by simp [hxb])
  have hxp : x ≠ p := fun hxp => hx (by simp [hus, hxp])
  -- The ring is `us`, then `p`, and back to `b`; the new node stands after `p`.
  rw [IsRing, hus, List.append_assoc, List.singleton_append, linked_append] at h
  rw [IsRing, ← List.cons_append, hus, List.append_assoc, List.append_assoc,
    List.singleton_append, List.singleton_append, linked_append]
  have hpus : p ∉ us := by
    rw [hus, List.nodup_append] at hnd
    exact fun hmem => hnd.2.2 p hmem p (by simp) rfl
  have hbqs : b ∉ qs := (List.nodup_cons.mp hnd).1
  have htail : (us ++ [p]).tail = qs := by rw [← hus, List.tail_cons]
  refine ⟨h.1.congr (fun y hy => ?_) (fun y hy => ?_), ?_⟩
  · rw [List.dropLast_concat] at hy
    have hyp : y ≠ p := fun he => hpus (he ▸ hy)
    have hyx : y ≠ x := fun he => hx (by rw [hus]; simp [← he, hy])
    simp [Links.insert, hyp, hyx]
  · rw [htail] at hy
    have hyb : y ≠ b := fun he => hbqs (he ▸ hy)
    have hyx : y ≠ x := fun he => hx (by simp [← he, hy])
    simp [Links.insert, hyb, hyx]
  · simp [linked_cons_cons, Links.insert, hxp, hpb.symm]

/-- Link the nodes of a list in at the end of a ring whose last node is `p`. -/
def Links.insertAll (l : Links ι) (b p : ι) : List ι → Links ι
  | [] => l
  | x :: xs => (l.insert x p b).insertAll b x xs

/-- Linking a whole list in. -/
theorem ring_insertAll :
    ∀ (xs qs : List ι) (l : Links ι), IsRing l b qs → (b :: (qs ++ xs)).Nodup →
      IsRing (l.insertAll b ((b :: qs).getLast (by simp)) xs) b (qs ++ xs) := by
  intro xs
  induction xs with
  | nil => intro qs l h _; rwa [List.append_nil]
  | cons x xs ih =>
      intro qs l h hnd
      rw [List.append_cons] at hnd ⊢
      have hpre : (b :: (qs ++ [x])).Nodup := by
        rw [← List.cons_append] at hnd
        exact (List.nodup_append.mp hnd).1
      have hx : x ∉ b :: qs := by
        rw [← List.cons_append, List.nodup_append] at hpre
        exact fun hmem => hpre.2.2 x hmem x (by simp) rfl
      have hqs : (b :: qs).Nodup := by
        rw [← List.cons_append] at hpre
        exact (List.nodup_append.mp hpre).1
      have := ih (qs ++ [x]) _ (ring_insert h hqs hx) hnd
      simpa [Links.insertAll] using this

/-- Take the node `x` out from between `p` and `n`, and leave it pointing nowhere. -/
def Links.unlink (l : Links ι) (x p n : ι) : Links ι :=
  (((l.setPrev n (some p)).setNext p (some n)).setNext x none).setPrev x none

/-- Taking a node out of a ring. -/
theorem ring_unlink {xs ys : List ι} (h : IsRing l b (xs ++ x :: ys))
    (hnd : (b :: (xs ++ x :: ys)).Nodup) :
    IsRing (l.unlink x ((b :: xs).getLast (by simp)) (ys.headD b)) b (xs ++ ys) := by
  generalize hp : (b :: xs).getLast (by simp) = p
  obtain ⟨us, hus⟩ : ∃ us, b :: xs = us ++ [p] :=
    ⟨(b :: xs).dropLast, by rw [← hp, List.dropLast_append_getLast]⟩
  obtain ⟨n, vs, hvs, hn⟩ : ∃ n vs, ys ++ [b] = n :: vs ∧ ys.headD b = n := by
    cases ys with
    | nil => exact ⟨b, [], rfl, rfl⟩
    | cons y ys => exact ⟨y, ys ++ [b], rfl, rfl⟩
  have htail : (us ++ [p]).tail = xs := by rw [← hus, List.tail_cons]
  have hdrop : (n :: vs).dropLast = ys := by rw [← hvs, List.dropLast_concat]
  -- The ring is `us`, `p`, then `x`, then `n` and `vs`, which ends in `b`.
  have hold : b :: (xs ++ x :: ys) ++ [b] = us ++ p :: x :: n :: vs := by
    rw [← List.cons_append, hus, List.append_assoc, List.append_assoc, List.cons_append,
      List.cons_append, List.nil_append, hvs]
  have hnew : b :: (xs ++ ys) ++ [b] = us ++ p :: n :: vs := by
    rw [← List.cons_append, hus, List.append_assoc, List.append_assoc, hvs]
    simp
  rw [IsRing, hold, linked_append] at h
  obtain ⟨hleft, hmid⟩ := h
  have hright : Linked l (n :: vs) :=
    (linked_cons_cons.mp (linked_cons_cons.mp hmid).2.2).2.2
  -- Forward pointers belong to the nodes from `b` on, backward pointers to those up to `b`.
  obtain ⟨hpx, hforward⟩ : p ≠ x ∧ ∀ y ∈ us ++ ys, y ≠ p ∧ y ≠ x := by
    refine ne_of_nodup_middle ?_
    rwa [← List.cons_append, hus, List.append_assoc, List.singleton_append] at hnd
  obtain ⟨hxn, hbackward⟩ : x ≠ n ∧ ∀ y ∈ xs ++ vs, y ≠ x ∧ y ≠ n := by
    refine ne_of_nodup_middle ?_
    rw [← hvs, ← List.cons_append, ← List.append_assoc]
    exact (List.perm_append_singleton b _).nodup_iff.mpr hnd
  rw [IsRing, hnew, hn]
  refine hleft.join hright ⟨?_, ?_⟩ (fun y hy => ?_) (fun y hy => ?_)
  · simp [Links.unlink, hpx]
  · simp [Links.unlink, hxn.symm]
  · rw [hdrop] at hy
    simp [Links.unlink, hforward y hy]
  · rw [htail] at hy
    simp [Links.unlink, hbackward y hy]

/-- Linking a node into one ring leaves the rings alone that have none of the nodes
whose pointers change. -/
theorem IsRing.insert_frame {p n : ι} (h : IsRing l b qs) (hx : x ∉ b :: qs) (hp : p ∉ b :: qs)
    (hn : n ∉ b :: qs) : IsRing (l.insert x p n) b qs :=
  h.congr
    (fun y hy => by
      have hyp : y ≠ p := fun he => hp (he ▸ hy)
      have hyx : y ≠ x := fun he => hx (he ▸ hy)
      simp [Links.insert, hyp, hyx])
    (fun y hy => by
      have hyn : y ≠ n := fun he => hn (he ▸ hy)
      have hyx : y ≠ x := fun he => hx (he ▸ hy)
      simp [Links.insert, hyn, hyx])

/-- The same for taking a node out. -/
theorem IsRing.unlink_frame {p n : ι} (h : IsRing l b qs) (hx : x ∉ b :: qs) (hp : p ∉ b :: qs)
    (hn : n ∉ b :: qs) : IsRing (l.unlink x p n) b qs :=
  h.congr
    (fun y hy => by
      have hyp : y ≠ p := fun he => hp (he ▸ hy)
      have hyx : y ≠ x := fun he => hx (he ▸ hy)
      simp [Links.unlink, hyp, hyx])
    (fun y hy => by
      have hyn : y ≠ n := fun he => hn (he ▸ hy)
      have hyx : y ≠ x := fun he => hx (he ▸ hy)
      simp [Links.unlink, hyn, hyx])

end Edit

end Ring
