import MString.Lib.Loop

/-!
# `MString.Lib.Lockstep`: two runs side by side

`Together D Q R x y` relates two computations that may fail: they end with the same error,
or with results that `R` relates, unless the first one has returned a result with `Q` or
ended with an error with `D`. Then nothing is said about the second one.

* `Together.bind` composes two pairs of computations.
* `together_run` is the rule for two loops whose turns go together.
* `run_map` is the rule for a loop whose turns are the images of another one's.

Nothing here mentions a program.
-/

set_option autoImplicit false

namespace Lockstep

variable {ε α β γ δ : Type}

/-- No error excuses the second computation. -/
def Never (_ : ε) : Prop := False

/-- The two computations go on side by side, and end so. -/
inductive Together (D : ε → Prop) (Q : α → Prop) (R : α → β → Prop) :
    Except ε α → Except ε β → Prop where
  | error (e : ε) : Together D Q R (.error e) (.error e)
  | ok {a : α} {b : β} (h : R a b) : Together D Q R (.ok a) (.ok b)
  /-- The first one has returned. -/
  | left {a : α} {y : Except ε β} (h : Q a) : Together D Q R (.ok a) y
  /-- The first one has given up. -/
  | gaveUp {e : ε} {y : Except ε β} (h : D e) : Together D Q R (.error e) y

variable {D : ε → Prop} {Q : α → Prop} {R : α → β → Prop} {Q' : γ → Prop} {R' : γ → δ → Prop}

/-- Two pairs in turn. What follows the first one's early return returns early, too. -/
theorem Together.bind {x : Except ε α} {y : Except ε β} {f : α → Except ε γ}
    {g : β → Except ε δ} (h : Together D Q R x y) (hleft : ∀ a, Q a → ∃ c, f a = .ok c ∧ Q' c)
    (hok : ∀ a b, R a b → Together D Q' R' (f a) (g b)) : Together D Q' R' (x >>= f) (y >>= g) := by
  cases h with
  | error e => exact .error e
  | ok h => exact hok _ _ h
  | left h =>
      obtain ⟨c, hc, hq⟩ := hleft _ h
      rw [Loop.ok_bind, hc]
      exact .left hq
  | gaveUp h => exact .gaveUp h

/-- Two loops whose turns go together. -/
theorem together_run {stuck : ε} {body : α → Except ε (α ⊕ γ)} {body' : β → Except ε (β ⊕ δ)}
    (S : α → β → Prop)
    (step : ∀ a b, S a b →
      Together D (Sum.elim (fun _ => False) Q') (Sum.LiftRel S R') (body a) (body' b)) :
    ∀ (n : Nat) (a : α) (b : β), S a b →
      Together D Q' R' (Loop.run stuck body n a) (Loop.run stuck body' n b) := by
  intro n
  induction n with
  | zero => intro a b _; exact .error stuck
  | succ n ih =>
      intro a b hab
      -- The two turns are alike, and the cases are those of `Together`.
      have hturn := step a b hab
      generalize hx : body a = x at hturn
      generalize hy : body' b = y at hturn
      cases hturn with
      | error e =>
          rw [Loop.run_error hx, Loop.run_error hy]
          exact .error e
      | ok h =>
          -- Both bodies go on, or both are done.
          cases h with
          | inl h =>
              rw [Loop.run_continue hx, Loop.run_continue hy]
              exact ih _ _ h
          | inr h =>
              rw [Loop.run_exit hx, Loop.run_exit hy]
              exact .ok h
      -- Only the first one is done.
      | @left r _ h =>
          cases r with
          | inl a' => exact h.elim
          | inr c =>
              rw [Loop.run_exit hx]
              exact .left h
      -- The first one gave up, and so does its run.
      | gaveUp h =>
          rw [Loop.run_error hx]
          exact .gaveUp h

/-- A loop whose turns are the images of those of another one, as long as `I` holds. -/
theorem run_map {stuck : ε} {body : α → Except ε (α ⊕ γ)} {body' : β → Except ε (β ⊕ δ)}
    (I : α → Prop) (f : α → β) (g : γ → δ)
    (step : ∀ a, I a → body' (f a) = (body a).map (Sum.map f g) ∧
      ∀ a', body a = .ok (.inl a') → I a') :
    ∀ (n : Nat) (a : α), I a → Loop.run stuck body' n (f a) = (Loop.run stuck body n a).map g := by
  intro n
  induction n with
  | zero => intro a _; rfl
  | succ n ih =>
      intro a ha
      obtain ⟨hturn, hkeeps⟩ := step a ha
      cases hbody : body a with
      | error e =>
          rw [hbody] at hturn
          rw [Loop.run_error hbody, Loop.run_error hturn]
          rfl
      | ok r =>
          rw [hbody] at hturn
          cases r with
          | inl a' =>
              rw [Loop.run_continue hbody, Loop.run_continue hturn]
              exact ih a' (hkeeps a' hbody)
          | inr c =>
              rw [Loop.run_exit hbody, Loop.run_exit hturn]
              rfl

end Lockstep
