import MString.Mm.Pt

/-!
# `MString.Proofs.Mm.Keeping`: what a walk keeps

A walker is a loop over one level of tables, with a function that populates an entry and
the walker of the level below. What these two keep is kept by the loop
(`mapTableRange_keeps`). `Z` is what a failure tells.
-/

set_option autoImplicit false

namespace MString

variable {σ : Type}

/-- From a machine with `J`, `f` ends with `J`, and fails only with `Z`. -/
def MachineKeeping (J : Machine σ → Prop) (Z : Prop)
    (f : Machine σ → Except Fault (Status × Machine σ)) : Prop :=
  ∀ s x, J s → f s = .ok x → J x.2 ∧ (x.1 ≠ 0 → Z)

section Keep

variable {env : WalkEnv σ} {J : Machine σ → Prop} {Z : Prop}

theorem ensureEntry_keeps
    {populate : WalkEnv σ → EntryPtr → Machine σ → Except Fault (Status × Machine σ)}
    {p : EntryPtr} (hpop : MachineKeeping J Z (populate env p)) :
    MachineKeeping J Z (ensureEntry populate env p) := by
  intro s x hs hrun
  obtain ⟨e, -, hrest⟩ := Loop.exists_of_bind hrun
  split at hrest
  · cases hrest
    exact ⟨hs, fun hne => absurd rfl hne⟩
  · exact hpop s x hs hrest

theorem mapTableRange_keeps {l : RangeLevel σ} {block : BlockWalker σ}
    (hpop : ∀ p, MachineKeeping J Z (l.populate env p))
    (hblock : ∀ p v e, MachineKeeping J Z (block env p v e)) (p : EntryPtr) (v e : Uintptr) :
    MachineKeeping J Z (mapTableRange l block env p v e) := by
  intro s x hs hrun
  obtain ⟨t, -, hrest⟩ := Loop.exists_of_bind hrun
  refine Loop.run_invariant (fun a => J a.machine) (fun x => J x.2 ∧ (x.1 ≠ 0 → Z)) ?_ TURNS _ _
    hs hrest
  intro a r ha hturn
  obtain ⟨⟨r1, s1⟩, hens, hturn⟩ := Loop.exists_of_bind hturn
  have h1 := ensureEntry_keeps (hpop a.entry) _ _ ha hens
  dsimp only at hturn
  split at hturn
  · cases hturn
    exact ⟨h1.1, fun _ => h1.2 ‹_›⟩
  · obtain ⟨⟨r2, s2⟩, hblk, hturn⟩ := Loop.exists_of_bind hturn
    have h2 := hblock _ _ _ _ _ h1.1 hblk
    dsimp only at hturn
    split at hturn
    · cases hturn
      exact ⟨h2.1, fun _ => h2.2 ‹_›⟩
    · split at hturn
      · cases hturn
        exact h2.1
      · cases hturn
        exact ⟨h2.1, fun hne => absurd rfl hne⟩

end Keep

end MString
