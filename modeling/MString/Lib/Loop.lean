import Mathlib.Logic.Basic

/-!
# `MString.Lib.Loop`: loops with an early exit, run under a turn budget

A C loop that may leave from the middle of its body is a function from the
loop state to either the next state or the value the loop leaves with. `run`
turns such a body round at most `n` times and answers `stuck` when the budget
is spent. The body may also fail on its own (`Except`).

* `run_continue` / `run_exit`: what one turn does to a run.
* `run_invariant`: a property that every turn keeps holds at the exit.
* `run_total`: a loop whose turns make a measure smaller ends.
* `Path body P a b`: `b` is a state of the run from `a`, and `P` holds before it.
  `Path.exit` says where a run ends, `Path.forall_reached` and `Path.keeps` what holds in
  its states, and `Path.total` that they are in one line.
* `exists_of_bind` takes a computation in two parts, `exists_of_map_fst` finds the
  second result of one whose first is known.

Nothing here mentions a program.
-/

set_option autoImplicit false

namespace Loop

variable {ε α β : Type}

/-- Turn `body` round from the state `a`, at most `n` times. `.inl` asks for
another turn from the state it carries, `.inr` leaves the loop. -/
def run (stuck : ε) (body : α → Except ε (α ⊕ β)) : Nat → α → Except ε β
  | 0, _ => .error stuck
  | n + 1, a =>
      match body a with
      | .error e => .error e
      | .ok (.inl a') => run stuck body n a'
      | .ok (.inr b) => .ok b

variable {stuck : ε} {body : α → Except ε (α ⊕ β)}

/-- A turn that asks for another one. -/
theorem run_continue {n : Nat} {a a' : α} (h : body a = .ok (.inl a')) :
    run stuck body (n + 1) a = run stuck body n a' := by
  simp [run, h]

/-- A turn that leaves. -/
theorem run_exit {n : Nat} {a : α} {b : β} (h : body a = .ok (.inr b)) :
    run stuck body (n + 1) a = .ok b := by
  simp [run, h]

/-- A turn that fails. -/
theorem run_error {n : Nat} {a : α} {e : ε} (h : body a = .error e) :
    run stuck body (n + 1) a = .error e := by
  simp [run, h]

/-- The invariant rule. `I` holds at the head of every turn; a turn that asks
for another one keeps it and a turn that leaves gives `Q`. So a run that ends
gives `Q`. -/
theorem run_invariant (I : α → Prop) (Q : β → Prop)
    (step : ∀ a r, I a → body a = .ok r → Sum.elim I Q r) :
    ∀ (n : Nat) (a : α) (b : β), I a → run stuck body n a = .ok b → Q b := by
  intro n
  induction n with
  | zero => intro a b _ h; simp [run] at h
  | succ n ih =>
      intro a b ha h
      cases hb : body a with
      | error e => simp [run, hb] at h
      | ok r =>
          have hr := step a r ha hb
          cases r with
          | inl a' => exact ih a' b hr (by simpa [run, hb] using h)
          | inr b' =>
              have : b' = b := by simpa [run, hb] using h
              exact this ▸ hr

/-- The rule for a loop that ends. Every turn from a state with `I` returns, and one that
asks for another turn keeps `I` and makes `μ` smaller. -/
theorem run_total (I : α → Prop) (Q : β → Prop) (μ : α → Nat)
    (step : ∀ a, I a → ∃ r, body a = .ok r ∧ Sum.elim (fun a' => I a' ∧ μ a' < μ a) Q r) :
    ∀ (n : Nat) (a : α), I a → μ a < n → ∃ b, run stuck body n a = .ok b ∧ Q b := by
  intro n
  induction n with
  | zero => intro a _ h; omega
  | succ n ih =>
      intro a ha hn
      obtain ⟨r, hr, hpost⟩ := step a ha
      cases r with
      | inl a' =>
          rw [run_continue hr]
          exact ih a' hpost.1 (by have := hpost.2; omega)
      | inr b => exact ⟨b, run_exit hr, hpost⟩

/-! ### The states of a run -/

/-- `b` is a state of the run from `a`, and all states before it satisfy `P`. -/
inductive Path (body : α → Except ε (α ⊕ β)) (P : α → Prop) : α → α → Prop where
  | refl (a : α) : Path body P a a
  | turn {a a' b : α} (ha : P a) (h : body a = .ok (.inl a')) (rest : Path body P a' b) :
      Path body P a b

/-- `b` is a state of the run from `a`. -/
abbrev Reaches (body : α → Except ε (α ⊕ β)) : α → α → Prop := Path body fun _ => True

section Paths

variable {P : α → Prop} {a a' b : α} {c c' : β}

/-- One turn is a path. -/
theorem Path.single (ha : P a) (h : body a = .ok (.inl a')) : Path body P a a' :=
  .turn ha h (.refl a')

/-- Paths follow each other. -/
theorem Path.trans (hab : Path body P a a') (hbc : Path body P a' b) : Path body P a b := by
  induction hab with
  | refl => exact hbc
  | turn ha h _ ih => exact .turn ha h (ih hbc)

/-- A run goes on from each of its states. -/
theorem Path.run (hpath : Path body P a b) :
    ∀ n, run stuck body n a = .ok c → ∃ m, run stuck body m b = .ok c := by
  induction hpath with
  | refl => exact fun n h => ⟨n, h⟩
  | turn _ hturn _ ih =>
      intro n h
      cases n with
      | zero => cases h
      | succ n =>
          rw [run_continue hturn] at h
          exact ih n h

/-- A run that comes to a turn that leaves ends there. -/
theorem Path.exit {n : Nat} (hpath : Path body P a b) (hexit : body b = .ok (.inr c'))
    (h : Loop.run stuck body n a = .ok c) : c = c' := by
  obtain ⟨m, hm⟩ := hpath.run n h
  cases m with
  | zero => cases hm
  | succ m =>
      rw [run_exit hexit] at hm
      exact (Except.ok.inj hm).symm

/-- A path to a turn that leaves is a run. -/
theorem Path.exists_run (hpath : Path body P a b) (hexit : body b = .ok (.inr c)) :
    ∃ n, Loop.run stuck body n a = .ok c := by
  induction hpath with
  | refl => exact ⟨1, run_exit hexit⟩
  | turn _ hturn _ ih =>
      obtain ⟨n, hn⟩ := ih hexit
      exact ⟨n + 1, (run_continue hturn).trans hn⟩

/-- A run that ends has come to a turn that leaves. -/
theorem exists_exit_of_run {n : Nat} (h : Loop.run stuck body n a = .ok c) :
    ∃ b, Reaches body a b ∧ body b = .ok (.inr c) := by
  induction n generalizing a with
  | zero => cases h
  | succ n ih =>
      cases hbody : body a with
      | error e =>
          rw [run_error hbody] at h
          cases h
      | ok r =>
          cases r with
          | inl a' =>
              rw [run_continue hbody] at h
              obtain ⟨b, hpath, hexit⟩ := ih h
              exact ⟨b, .turn trivial hbody hpath, hexit⟩
          | inr c' =>
              rw [run_exit hbody] at h
              cases h
              exact ⟨a, .refl a, hbody⟩

/-- Of two states of one run, one is behind the other. -/
theorem Path.total (hab : Reaches body a a') (hac : Reaches body a b) :
    Reaches body a' b ∨ Reaches body b a' := by
  induction hab with
  | refl => exact .inl hac
  | turn ha hturn rest ih =>
      cases hac with
      | refl => exact .inr (.turn ha hturn rest)
      | turn _ hturn' rest' =>
          rw [hturn] at hturn'
          cases hturn'
          exact ih rest'

/-- What every turn keeps holds in all states. -/
theorem Path.keeps {I : α → Prop} (hab : Path body P a b)
    (step : ∀ a a', I a → body a = .ok (.inl a') → I a') (ha : I a) : I b := by
  induction hab with
  | refl => exact ha
  | turn _ hturn _ ih => exact ih (step _ _ ha hturn)

/-- What holds along a path and in all states behind it holds in all states. -/
theorem Path.forall_reached (hpath : Path body P a b) (hrest : ∀ s, Reaches body b s → P s) :
    ∀ s, Reaches body a s → P s := by
  induction hpath with
  | refl => exact hrest
  | turn ha hturn _ ih =>
      intro s hs
      cases hs with
      | refl => exact ha
      | turn _ hturn' hs =>
          -- The body answers once, so this is the same turn.
          rw [hturn] at hturn'
          cases hturn'
          exact ih hrest s hs

/-- Nothing is behind a turn that leaves. -/
theorem forall_reached_exit (hexit : body b = .ok (.inr c)) (hb : P b) :
    ∀ s, Reaches body b s → P s := by
  intro s hs
  cases hs with
  | refl => exact hb
  | turn _ hturn _ =>
      rw [hexit] at hturn
      cases hturn

end Paths

theorem ok_bind (a : α) (f : α → Except ε β) : Except.ok a >>= f = f a := rfl

theorem error_bind (e : ε) (f : α → Except ε β) : Except.error e >>= f = .error e := rfl

/-- A computation succeeds when both its parts do. -/
theorem bind_of_ok {x : Except ε α} {f : α → Except ε β} {a : α} {y : Except ε β}
    (hx : x = .ok a) (hf : f a = y) : x >>= f = y := by
  rw [hx, ok_bind, hf]

/-- A computation that succeeds does so in both its parts. -/
theorem exists_of_bind {x : Except ε α} {f : α → Except ε β} {b : β} (h : x >>= f = .ok b) :
    ∃ a, x = .ok a ∧ f a = .ok b := by
  cases x with
  | error e => cases h
  | ok a => exact ⟨a, rfl, h⟩

/-- The other result of a run whose first one is known. -/
theorem exists_of_map_fst {x : Except ε (α × β)} {a : α} (h : x.map Prod.fst = .ok a) :
    ∃ b, x = .ok (a, b) := by
  cases x with
  | error e => cases h
  | ok p => exact ⟨p.2, by cases h; rfl⟩

end Loop
