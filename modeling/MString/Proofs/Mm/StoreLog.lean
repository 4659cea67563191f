import MString.Mm.PtLog
import MString.Proofs.Mm.Keeping
import MString.Proofs.Mm.SideBySide

/-!
# `MString.Proofs.Mm.StoreLog`: the log of the stores

* `mmMapPagesLogged_forget`: without its log, a logged call is the call. The two go side by
  side in the sense of `Proofs/Mm/SideBySide.lean`.
* `mmMapPagesLogged_keeps`: what the accessor's callbacks and every logged store keep holds
  after a call. Nothing is said of the directory here, so this holds of calls that run over
  the end of a table, too.
-/

set_option autoImplicit false

namespace MString

open Lockstep

variable {σ : Type}

/-! ### The call without its log -/

section Forget

variable {mapped : EntryPtr → Bool} {pacc : PageFrameAccessor σ} {flags : PageFlags}

/-- A context with a log, and the same one without. -/
def SameContext (c : Logged σ) (c' : σ) : Prop := c.1 = c'

/-- A walk with a log, and the same one without. -/
def WithoutLog (f : Machine (Logged σ) → Except Fault (Status × Machine (Logged σ)))
    (g : Machine σ → Except Fault (Status × Machine σ)) : Prop :=
  GoTogether Eq SameContext Never False f g

/-- An accessor with a log and the same one without answer alike. -/
theorem pairs_logged :
    Pairs Eq SameContext Never False ⟨mapped, pacc.logged, flags⟩ ⟨mapped, pacc, flags⟩ where
  entries := ⟨congrArg _, congrArg _, fun _ => congrArg _, fun _ => congrArg _⟩
  leaf _ := rfl
  mapped := rfl
  next c c' hc := by
    cases hc
    show Together _ _ _ (pacc.nextFrame c.1 >>= _) _
    cases pacc.nextFrame c.1 with
    | error e => exact .error e
    | ok x => exact .ok ⟨rfl, rfl⟩
  alloc s s' hs := by
    obtain ⟨m, c⟩ := s
    obtain ⟨m', c'⟩ := s'
    obtain ⟨hc, hm⟩ := hs
    cases hc
    cases funext hm
    show Together _ _ _ (pacc.allocPage flags true ⟨m, c.1⟩ >>= _) _
    cases pacc.allocPage flags true ⟨m, c.1⟩ with
    | error e => exact .error e
    | ok x => exact .ok ⟨rfl, rfl, fun _ => rfl⟩

/-- The store is the same one, and it is also written down. -/
theorem writeEntryLogged_alike {s : Machine (Logged σ)} {s' : Machine σ}
    (hs : Alike Eq SameContext s s') (p : EntryPtr) {e e' : TlbEntry} (he : e = e') :
    Together Never (fun _ => False) (fun t m => Alike Eq SameContext t ⟨m, s'.ctx⟩)
      (writeEntryLogged mapped s p e) (writeEntry mapped s'.mem p e') := by
  rw [writeEntryLogged, writeEntry, writeEntry]
  split
  · exact .ok ⟨hs.1, Alike.set hs.2 _ he⟩
  · exact .error _

/-- So is everything that is made of reads, frames and stores. -/
theorem populateEntryLogged_alike (fields : Uintptr → TlbEntry → TlbEntry) (p : EntryPtr) :
    WithoutLog (populateEntryLogged fields ⟨mapped, pacc.logged, flags⟩ p)
      (populateEntry fields ⟨mapped, pacc, flags⟩ p) := by
  intro s s' hs
  refine (pairs_logged.alloc s s' hs).bind ?_ ?_
  · rintro ⟨pf, t⟩ ⟨hesc, -⟩
    exact hesc.elim
  · rintro ⟨pf, t⟩ ⟨pf', t'⟩ ⟨hpf, ht⟩
    obtain rfl : pf = pf' := hpf
    cases pf with
    | none => exact .ok ⟨rfl, ht⟩
    | some pf =>
        refine (readEntry_alike pairs_logged ht p).bind (fun _ hq => hq.elim) ?_
        intro e e' he
        refine (writeEntryLogged_alike ht p (congrArg _ he)).bind (fun _ hq => hq.elim) ?_
        intro t m hm
        exact .ok ⟨rfl, hm⟩

/-- The lowest walker goes through the same turns. -/
theorem mapPde2RangeLogged_alike (p : EntryPtr) (v e : Uintptr) :
    WithoutLog (mapPde2RangeLogged ⟨mapped, pacc.logged, flags⟩ p v e)
      (mapPde2Range ⟨mapped, pacc, flags⟩ p v e) := by
  intro s s' hs
  refine (readEntry_alike pairs_logged hs p).bind (fun _ hq => hq.elim) ?_
  intro x x' hx
  rw [hx]
  refine together_run (fun a a' => a.1 = a'.1 ∧ Alike Eq SameContext a.2 a'.2) ?_ TURNS _ _
    ⟨rfl, hs⟩
  rintro ⟨va, s⟩ ⟨va', s'⟩ ⟨hva, hs⟩
  obtain rfl : va = va' := hva
  refine (pairs_logged.next _ _ hs.1).bind (fun _ hq => hq.elim) ?_
  rintro ⟨i, c⟩ ⟨i', c'⟩ ⟨hi, hc⟩
  obtain rfl : i = i' := hi
  have hs' : Alike Eq SameContext ⟨s.mem, c⟩ ⟨s'.mem, c'⟩ := ⟨hc, hs.2⟩
  refine (writeEntryLogged_alike hs' _ rfl).bind (fun _ hq => hq.elim) ?_
  intro t m hm
  dsimp only
  split
  · exact .ok (.inl ⟨rfl, hm⟩)
  · exact .ok (.inr ⟨rfl, hm⟩)

/-- And so do the ones above it. -/
theorem mapPml4RangeLogged_alike (p : EntryPtr) (v e : Uintptr) :
    WithoutLog (mapPml4RangeLogged ⟨mapped, pacc.logged, flags⟩ p v e)
      (mapPml4Range ⟨mapped, pacc, flags⟩ p v e) := by
  have hpde2 : LevelPairs Eq SameContext Never False ⟨mapped, pacc.logged, flags⟩ ⟨mapped, pacc, flags⟩
      pde2LevelLogged pde2Level mapPde2RangeLogged mapPde2Range :=
    ⟨rfl, rfl, rfl, populateEntryLogged_alike _, mapPde2RangeLogged_alike⟩
  have hpdp3 : LevelPairs Eq SameContext Never False ⟨mapped, pacc.logged, flags⟩ ⟨mapped, pacc, flags⟩
      pdp3LevelLogged pdp3Level mapPdp3RangeLogged mapPdp3Range :=
    ⟨rfl, rfl, rfl, populateEntryLogged_alike _, mapTableRange_alike pairs_logged hpde2⟩
  exact mapTableRange_alike pairs_logged hpdp3 p v e

/-- The loop over the root, with and without the log. -/
theorem mapAcceptedLogged_alike (pd : PageDirectory) (v e : Uintptr) :
    WithoutLog (mapAcceptedLogged ⟨mapped, pacc.logged, flags⟩ pd v e)
      (mapAccepted ⟨mapped, pacc, flags⟩ pd v e) := by
  intro s s' hs
  refine (ensureEntry_alike pairs_logged _ (populateEntryLogged_alike _ _) s s' hs).bind ?_ ?_
  · rintro ⟨r, t⟩ ⟨hesc, -⟩
    exact hesc.elim
  · rintro ⟨r, t⟩ ⟨r', t'⟩ ⟨hr, ht⟩
    obtain rfl : r = r' := hr
    dsimp only
    split
    · exact .ok ⟨rfl, ht⟩
    · refine (mapPml4RangeLogged_alike _ _ _ t t' ht).bind ?_ ?_
      · rintro ⟨r, t⟩ ⟨hesc, -⟩
        exact hesc.elim
      · rintro ⟨r, t⟩ ⟨r', t'⟩ ⟨hr, ht⟩
        obtain rfl : r = r' := hr
        dsimp only
        split
        · exact .ok ⟨rfl, ht⟩
        · exact .ok ⟨rfl, ht⟩

/-- A logged call is the call. -/
theorem mmMapPagesLogged_forget (pd : Option PageDirectory) (pacc : Option (PageFrameAccessor σ))
    (virt n : Uintptr) (s : Machine (Logged σ)) :
    mmMapPages mapped pd pacc virt n flags ⟨s.mem, s.ctx.1⟩
      = (mmMapPagesLogged mapped pd pacc virt n flags s).map
          fun x => (x.1, ⟨x.2.mem, x.2.ctx.1⟩) := by
  unfold mmMapPagesLogged mmMapPages
  cases pd with
  | none => rfl
  | some pd =>
      cases pacc with
      | none => rfl
      | some pacc =>
          dsimp only
          split
          · rfl
          · have htogether := @mapAcceptedLogged_alike _ mapped pacc flags pd virt
              (virt + n * PAGE_SIZE) s ⟨s.mem, s.ctx.1⟩ ⟨rfl, fun _ => rfl⟩
            generalize mapAcceptedLogged _ _ _ _ _ = x at htogether ⊢
            generalize mapAccepted _ _ _ _ _ = y at htogether ⊢
            cases htogether with
            | error e => rfl
            | @ok a b h =>
                obtain ⟨hr, hc, hm⟩ := h
                show Except.ok b = .ok (a.1, ⟨a.2.mem, a.2.ctx.1⟩)
                rw [hr, funext hm, show a.2.ctx.1 = b.2.ctx from hc]
            | left h => exact h.1.elim
            | gaveUp h => exact h.elim

end Forget

/-! ### What every store keeps -/

/-- What the callbacks and the logged stores of a walk keep. -/
structure KeptByStores (env : WalkEnv (Logged σ)) (J : Machine (Logged σ) → Prop) : Prop where
  alloc : ∀ {s : Machine (Logged σ)} {x : Option PageIdx × Machine (Logged σ)}, J s →
    env.pacc.allocPage env.flags true s = .ok x → J x.2
  next : ∀ {s : Machine (Logged σ)} {x : PageIdx × Logged σ}, J s →
    env.pacc.nextFrame s.ctx = .ok x → J ⟨s.mem, x.2⟩
  store : ∀ {s s' : Machine (Logged σ)} {p : EntryPtr} {e : TlbEntry}, J s →
    writeEntryLogged env.mapped s p e = .ok s' → J s'

section Keeps

variable {env : WalkEnv (Logged σ)} {J : Machine (Logged σ) → Prop} {s : Machine (Logged σ)}
  {x : Status × Machine (Logged σ)}

/-- The step of the log: what the stores keep, filling an entry keeps. -/
theorem populateEntryLogged_keeps (hJ : KeptByStores env J)
    (fields : Uintptr → TlbEntry → TlbEntry) (p : EntryPtr) :
    MachineKeeping J True (populateEntryLogged fields env p) := by
  intro s x hs hrun
  obtain ⟨⟨pf, t⟩, halloc, hrun⟩ := Loop.exists_of_bind hrun
  have ht : J t := hJ.alloc hs halloc
  cases pf with
  | none =>
      cases hrun
      exact ⟨ht, fun _ => trivial⟩
  | some pf =>
      obtain ⟨e, -, hrun⟩ := Loop.exists_of_bind hrun
      obtain ⟨t', hwrite, hrun⟩ := Loop.exists_of_bind hrun
      cases hrun
      exact ⟨hJ.store ht hwrite, fun _ => trivial⟩

/-- The lowest walker keeps it from turn to turn. -/
theorem mapPde2RangeLogged_keeps (hJ : KeptByStores env J) (p : EntryPtr) (v e : Uintptr) :
    MachineKeeping J True (mapPde2RangeLogged env p v e) := by
  intro s x hs hrun
  obtain ⟨y, -, hrun⟩ := Loop.exists_of_bind hrun
  refine ⟨Loop.run_invariant (fun a => J a.2) (fun x => J x.2) ?_ TURNS _ x hs hrun,
    fun _ => trivial⟩
  rintro ⟨va, s⟩ r hs hturn
  obtain ⟨⟨i, c⟩, hnext, hturn⟩ := Loop.exists_of_bind hturn
  obtain ⟨t, hwrite, hturn⟩ := Loop.exists_of_bind hturn
  have ht : J t := hJ.store (hJ.next hs hnext) hwrite
  dsimp only at hturn
  split at hturn
  · cases hturn
    exact ht
  · cases hturn
    exact ht

/-- And the loop over the root does. -/
theorem mapAcceptedLogged_keeps (hJ : KeptByStores env J) (pd : PageDirectory) (v e : Uintptr) :
    MachineKeeping J True (mapAcceptedLogged env pd v e) := by
  have hwalker : ∀ p v e, MachineKeeping J True (mapPml4RangeLogged env p v e) :=
    mapTableRange_keeps (populateEntryLogged_keeps hJ _)
      (mapTableRange_keeps (populateEntryLogged_keeps hJ _) (mapPde2RangeLogged_keeps hJ))
  intro s x hs hrun
  obtain ⟨⟨r1, s1⟩, hens, hrun⟩ := Loop.exists_of_bind hrun
  have h1 := ensureEntry_keeps (populateEntryLogged_keeps hJ _ _) _ _ hs hens
  dsimp only at hrun
  split at hrun
  · cases hrun
    exact ⟨h1.1, fun _ => trivial⟩
  · obtain ⟨⟨r2, s2⟩, hwalk, hrun⟩ := Loop.exists_of_bind hrun
    have h2 := hwalker _ _ _ _ _ h1.1 hwalk
    dsimp only at hrun
    split at hrun
    · cases hrun
      exact ⟨h2.1, fun _ => trivial⟩
    · cases hrun
      exact ⟨h2.1, fun _ => trivial⟩

/-- A call keeps what its accessor and its stores keep. -/
theorem mmMapPagesLogged_keeps {mapped : EntryPtr → Bool} {pd : Option PageDirectory}
    {pacc : Option (PageFrameAccessor σ)} {virt n : Uintptr} {flags : PageFlags}
    (hJ : ∀ p, pacc = some p → KeptByStores ⟨mapped, p.logged, flags⟩ J) (hs : J s)
    (hrun : mmMapPagesLogged mapped pd pacc virt n flags s = .ok x) : J x.2 := by
  unfold mmMapPagesLogged at hrun
  split at hrun
  · split at hrun
    · cases hrun
      exact hs
    · exact (mapAcceptedLogged_keeps (hJ _ rfl) _ _ _ _ _ hs hrun).1
  · cases hrun
    exact hs

end Keeps

end MString
