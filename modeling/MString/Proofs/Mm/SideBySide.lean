import MString.Lib.Lockstep
import MString.Mm.Pt

/-!
# `MString.Proofs.Mm.SideBySide`: two walks side by side

Two calls of `mm_map_pages` on machines that are alike: `E` relates their entries and `R`
what their accessors keep, which need not be of the same type. `Pairs` says what the two
accessors must have in common, and `mapAccepted_alike` that the calls then end alike, unless
the first one runs out of memory where it may, or gives up with an error that `D` excuses.

The lemmas follow the functions of `pt.c` from the inside out.
-/

set_option autoImplicit false

namespace MString

open Lockstep

variable {σ τ : Type}

/-- The walkers do not tell entries apart that `E` relates. -/
structure Indistinct (E : TlbEntry → TlbEntry → Prop) : Prop where
  present : ∀ {e e' : TlbEntry}, E e e' → e.present = e'.present
  table : ∀ {e e' : TlbEntry}, E e e' → e.table = e'.table
  pdp3 : ∀ (pfn : Uintptr) {e e' : TlbEntry}, E e e' → E (pdp3Fields pfn e) (pdp3Fields pfn e')
  pde2 : ∀ (pfn : Uintptr) {e e' : TlbEntry}, E e e' → E (pde2Fields pfn e) (pde2Fields pfn e')

/-- Related contexts over related tables. -/
def Alike (E : TlbEntry → TlbEntry → Prop) (R : σ → τ → Prop) (s : Machine σ) (s' : Machine τ) :
    Prop :=
  R s.ctx s'.ctx ∧ ∀ a, E (s.mem a) (s'.mem a)

/-- Two results with one status and machines that are alike. -/
def AlikeEnd (E : TlbEntry → TlbEntry → Prop) (R : σ → τ → Prop) (x : Status × Machine σ)
    (x' : Status × Machine τ) : Prop :=
  x.1 = x'.1 ∧ Alike E R x.2 x'.2

/-- The first call is out of memory, and may be so when `esc`. -/
def Short (esc : Prop) (x : Status × Machine σ) : Prop := esc ∧ x.1 = -ENOMEM

/-- Two walks whose accessors answer alike, unless the first allocator has no page or the
first accessor gives up. -/
structure Pairs (E : TlbEntry → TlbEntry → Prop) (R : σ → τ → Prop) (D : Fault → Prop)
    (esc : Prop) (env : WalkEnv σ) (env' : WalkEnv τ) : Prop where
  entries : Indistinct E
  leaf : ∀ i, E (leafEntry env.flags i) (leafEntry env'.flags i)
  mapped : env.mapped = env'.mapped
  next : ∀ c c', R c c' → Together D (fun _ => False) (fun x x' => x.1 = x'.1 ∧ R x.2 x'.2)
    (env.pacc.nextFrame c) (env'.pacc.nextFrame c')
  alloc : ∀ s s', Alike E R s s' →
    Together D (fun x => esc ∧ x.1 = none) (fun x x' => x.1 = x'.1 ∧ Alike E R x.2 x'.2)
      (env.pacc.allocPage env.flags true s) (env'.pacc.allocPage env'.flags true s')

/-- Two steps that end alike on machines that are alike. -/
def GoTogether (E : TlbEntry → TlbEntry → Prop) (R : σ → τ → Prop) (D : Fault → Prop)
    (esc : Prop) (f : Machine σ → Except Fault (Status × Machine σ))
    (f' : Machine τ → Except Fault (Status × Machine τ)) : Prop :=
  ∀ s s', Alike E R s s' → Together D (Short esc) (AlikeEnd E R) (f s) (f' s')

section Walks

variable {E : TlbEntry → TlbEntry → Prop} {R : σ → τ → Prop} {D : Fault → Prop} {esc : Prop}
  {env : WalkEnv σ} {env' : WalkEnv τ} {s : Machine σ} {s' : Machine τ}

/-- Like entries, stored at one place. -/
theorem Alike.set {m m' : Mem} (h : ∀ a, E (m a) (m' a)) (a : Uintptr) {e e' : TlbEntry}
    (he : E e e') : ∀ x, E (m.set a e x) (m'.set a e' x) := by
  intro x
  unfold Mem.set
  split
  · exact he
  · exact h x

/-- Reading gives like entries, ... -/
theorem readEntry_alike (h : Pairs E R D esc env env') (hs : Alike E R s s') (p : EntryPtr) :
    Together D (fun _ => False) E (readEntry env.mapped s.mem p)
      (readEntry env'.mapped s'.mem p) := by
  unfold readEntry
  rw [← h.mapped]
  split
  · exact .ok (hs.2 _)
  · exact .error _

/-- ... and writing like ones leaves like memories. -/
theorem writeEntry_alike (h : Pairs E R D esc env env') (hs : Alike E R s s') (p : EntryPtr)
    {e e' : TlbEntry} (he : E e e') :
    Together D (fun _ => False) (fun m m' => ∀ a, E (m a) (m' a))
      (writeEntry env.mapped s.mem p e) (writeEntry env'.mapped s'.mem p e') := by
  unfold writeEntry
  rw [← h.mapped]
  split
  · exact .ok (Alike.set hs.2 _ he)
  · exact .error _

/-- So an entry is populated on both sides, unless one of the accessors stops them, ... -/
theorem populateEntry_alike {fields : Uintptr → TlbEntry → TlbEntry}
    (hf : ∀ pfn {e e' : TlbEntry}, E e e' → E (fields pfn e) (fields pfn e'))
    (h : Pairs E R D esc env env') (p : EntryPtr) :
    GoTogether E R D esc (populateEntry fields env p) (populateEntry fields env' p) := by
  intro s s' hs
  refine (h.alloc s s' hs).bind ?_ ?_
  · rintro ⟨pf, t⟩ ⟨hesc, rfl⟩
    exact ⟨_, rfl, hesc, rfl⟩
  · rintro ⟨pf, t⟩ ⟨pf', t'⟩ ⟨hpf, ht⟩
    obtain rfl : pf = pf' := hpf
    cases pf with
    | none => exact .ok ⟨rfl, ht⟩
    | some pf =>
        refine (readEntry_alike h ht p).bind (fun _ hq => hq.elim) ?_
        intro e e' he
        refine (writeEntry_alike h ht p (hf _ he)).bind (fun _ hq => hq.elim) ?_
        intro m m' hm
        exact .ok ⟨rfl, ht.1, hm⟩

/-- ... and made sure of, ... -/
theorem ensureEntry_alike
    {populate : WalkEnv σ → EntryPtr → Machine σ → Except Fault (Status × Machine σ)}
    {populate' : WalkEnv τ → EntryPtr → Machine τ → Except Fault (Status × Machine τ)}
    (h : Pairs E R D esc env env') (p : EntryPtr)
    (hpop : GoTogether E R D esc (populate env p) (populate' env' p)) :
    GoTogether E R D esc (ensureEntry populate env p) (ensureEntry populate' env' p) := by
  intro s s' hs
  refine (readEntry_alike h hs p).bind (fun _ hq => hq.elim) ?_
  intro e e' he
  rw [h.entries.present he]
  split
  · exact .ok ⟨rfl, hs⟩
  · exact hpop s s' hs

/-- ... the innermost loop turns on both sides, ... -/
theorem mapPde2Range_alike (h : Pairs E R D esc env env') (p : EntryPtr) (v e : Uintptr) :
    GoTogether E R D esc (mapPde2Range env p v e) (mapPde2Range env' p v e) := by
  intro s s' hs
  refine (readEntry_alike h hs p).bind (fun _ hq => hq.elim) ?_
  intro x x' hx
  rw [h.entries.table hx]
  refine together_run (fun a a' => a.1 = a'.1 ∧ Alike E R a.2 a'.2) ?_ TURNS _ _ ⟨rfl, hs⟩
  rintro ⟨va, s⟩ ⟨va', s'⟩ ⟨hva, hs⟩
  obtain rfl : va = va' := hva
  refine (h.next _ _ hs.1).bind (fun _ hq => hq.elim) ?_
  rintro ⟨i, c⟩ ⟨i', c'⟩ ⟨hi, hc⟩
  obtain rfl : i = i' := hi
  refine (writeEntry_alike h hs _ (h.leaf i)).bind (fun _ hq => hq.elim) ?_
  intro m m' hm
  dsimp only
  split
  · exact .ok (.inl ⟨rfl, hc, hm⟩)
  · exact .ok (.inr ⟨rfl, hc, hm⟩)

/-- Two loop states at the same place. -/
def AlikeState (E : TlbEntry → TlbEntry → Prop) (R : σ → τ → Prop) (a : RangeState σ)
    (a' : RangeState τ) : Prop :=
  a.virtAddr = a'.virtAddr ∧ a.length = a'.length ∧ a.entry = a'.entry ∧
    Alike E R a.machine a'.machine

/-- One level of tables with two walkers below it. -/
structure LevelPairs (E : TlbEntry → TlbEntry → Prop) (R : σ → τ → Prop) (D : Fault → Prop)
    (esc : Prop) (env : WalkEnv σ) (env' : WalkEnv τ) (l : RangeLevel σ) (l' : RangeLevel τ)
    (block : BlockWalker σ) (block' : BlockWalker τ) : Prop where
  range : l.range = l'.range
  mask : l.mask = l'.mask
  shift : l.shift = l'.shift
  populate : ∀ p, GoTogether E R D esc (l.populate env p) (l'.populate env' p)
  block : ∀ p v e, GoTogether E R D esc (block env p v e) (block' env' p v e)

section Level

variable {l : RangeLevel σ} {l' : RangeLevel τ} {block : BlockWalker σ} {block' : BlockWalker τ}

/-- ... the others do, for like walkers, ... -/
theorem rangeTurn_alike (h : Pairs E R D esc env env')
    (hl : LevelPairs E R D esc env env' l l' block block') (e : Uintptr) (a : RangeState σ)
    (a' : RangeState τ) (ha : AlikeState E R a a') :
    Together D (Sum.elim (fun _ => False) (Short esc)) (Sum.LiftRel (AlikeState E R) (AlikeEnd E R))
      (rangeTurn l block env e a) (rangeTurn l' block' env' e a') := by
  obtain ⟨v, len, p, s⟩ := a
  obtain ⟨v', len', p', s'⟩ := a'
  obtain ⟨rfl, rfl, rfl, hs⟩ : v = v' ∧ len = len' ∧ p = p' ∧ Alike E R s s' := ha
  have hto : l.toAddr v len = l'.toAddr v len := by
    simp only [RangeLevel.toAddr, hl.range, hl.mask]
  -- The entry first, then the block below it. Where either gives up or is refused, so does the
  -- turn.
  refine (ensureEntry_alike h p (hl.populate p) s s' hs).bind ?_ ?_
  · rintro ⟨r, t⟩ ⟨hesc, rfl⟩
    exact ⟨_, rfl, hesc, rfl⟩
  · rintro ⟨r, t⟩ ⟨r', t'⟩ ⟨hr, ht⟩
    obtain rfl : r = r' := hr
    dsimp only
    rw [hto]
    split
    · exact .ok (.inr ⟨rfl, ht⟩)
    · refine (hl.block _ _ _ t t' ht).bind ?_ ?_
      · rintro ⟨r, t⟩ ⟨hesc, rfl⟩
        exact ⟨_, rfl, hesc, rfl⟩
      · rintro ⟨r, t⟩ ⟨r', t'⟩ ⟨hr, ht⟩
        obtain rfl : r = r' := hr
        dsimp only
        -- Both go on to the next entry, or both are at the end.
        split
        · exact .ok (.inr ⟨rfl, ht⟩)
        · split
          · exact .ok (.inl ⟨rfl, rfl, rfl, ht⟩)
          · exact .ok (.inr ⟨rfl, ht⟩)

/-- ... and so go their whole ranges, ... -/
theorem mapTableRange_alike (h : Pairs E R D esc env env')
    (hl : LevelPairs E R D esc env env' l l' block block') (p : EntryPtr) (v e : Uintptr) :
    GoTogether E R D esc (mapTableRange l block env p v e) (mapTableRange l' block' env' p v e) := by
  intro s s' hs
  refine (readEntry_alike h hs p).bind (fun _ hq => hq.elim) ?_
  intro x x' hx
  rw [h.entries.table hx, hl.shift]
  exact together_run (AlikeState E R) (rangeTurn_alike h hl e) TURNS _ _ ⟨rfl, rfl, rfl, hs⟩

end Level

/-- ... up to the outermost one, ... -/
theorem mapPml4Range_alike (h : Pairs E R D esc env env') (p : EntryPtr) (v e : Uintptr) :
    GoTogether E R D esc (mapPml4Range env p v e) (mapPml4Range env' p v e) := by
  have hpde2 : LevelPairs E R D esc env env' pde2Level pde2Level mapPde2Range mapPde2Range :=
    ⟨rfl, rfl, rfl, populateEntry_alike h.entries.pde2 h, mapPde2Range_alike h⟩
  have hpdp3 : LevelPairs E R D esc env env' pdp3Level pdp3Level mapPdp3Range mapPdp3Range :=
    ⟨rfl, rfl, rfl, populateEntry_alike h.entries.pdp3 h, mapTableRange_alike h hpde2⟩
  exact mapTableRange_alike h hpdp3 p v e

/-- ... the body of the call ... -/
theorem mapAccepted_alike (h : Pairs E R D esc env env') (pd : PageDirectory) (v e : Uintptr) :
    GoTogether E R D esc (mapAccepted env pd v e) (mapAccepted env' pd v e) := by
  intro s s' hs
  refine (ensureEntry_alike h _ (populateEntry_alike h.entries.pdp3 h _) s s' hs).bind ?_ ?_
  · rintro ⟨r, t⟩ ⟨hesc, rfl⟩
    exact ⟨_, rfl, hesc, rfl⟩
  · rintro ⟨r, t⟩ ⟨r', t'⟩ ⟨hr, ht⟩
    obtain rfl : r = r' := hr
    dsimp only
    split
    · exact .ok ⟨rfl, ht⟩
    · refine (mapPml4Range_alike h _ _ _ t t' ht).bind ?_ ?_
      · rintro ⟨r, t⟩ ⟨hesc, rfl⟩
        exact ⟨_, rfl, hesc, rfl⟩
      · rintro ⟨r, t⟩ ⟨r', t'⟩ ⟨hr, ht⟩
        obtain rfl : r = r' := hr
        dsimp only
        split
        · exact .ok ⟨rfl, ht⟩
        · exact .ok ⟨rfl, ht⟩

/-- ... and the call. -/
theorem mmMapPages_alike {mapped : EntryPtr → Bool} {pacc : PageFrameAccessor σ}
    {pacc' : PageFrameAccessor τ} {f g : PageFlags}
    (h : Pairs E R D esc ⟨mapped, pacc, f⟩ ⟨mapped, pacc', g⟩) (pd : PageDirectory)
    (virt n : Uintptr) (hs : Alike E R s s') :
    Together D (Short esc) (AlikeEnd E R) (mmMapPages mapped (some pd) (some pacc) virt n f s)
      (mmMapPages mapped (some pd) (some pacc') virt n g s') := by
  unfold mmMapPages
  dsimp only
  split
  · exact .ok ⟨rfl, hs⟩
  · exact mapAccepted_alike h _ _ _ s s' hs

end Walks

end MString
