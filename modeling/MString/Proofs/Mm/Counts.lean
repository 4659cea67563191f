import MString.Proofs.Mm.Pins

/-!
# `MString.Proofs.Mm.Counts`: how many frames a call takes

The walkers' control flow alone: no directory need be well formed, and memory may
hold anything. On a machine that answers only indices below 512 (`inTable`), with an
accessor and an allocator that never fail (`NeverFails`), a walker on a range of
pages ends and takes one frame for each of them (`Takes`).

`mmMapPages_takes_iff` says for which calls that is the number of pages asked for.
-/

set_option autoImplicit false

namespace MString

variable {σ : Type}

/-- A machine that answers an access when its index is below 512. -/
def inTable (p : EntryPtr) : Bool := p.index < 512

/-- An accessor and an allocator that never fail, with a count of the frames taken. -/
structure NeverFails (pacc : PageFrameAccessor σ) (drawn : σ → Nat) : Prop where
  next : ∀ c, ∃ i c', pacc.nextFrame c = .ok (i, c') ∧ drawn c' = drawn c + 1
  alloc : ∀ flags s, ∃ pf s', pacc.allocPage flags true s = .ok (some pf, s') ∧
    drawn s'.ctx = drawn s.ctx

section Counts

variable {env : WalkEnv σ} {drawn : σ → Nat}

/-- The computation ends with success and has taken `k` frames since `s`. -/
def Takes (drawn : σ → Nat) (s : Machine σ) (k : Nat)
    (x : Except Fault (Status × Machine σ)) : Prop :=
  ∃ s', x = .ok (0, s') ∧ drawn s'.ctx = drawn s.ctx + k

/-- An entry inside its table can be read. -/
theorem readEntry_inTable (hin : env.mapped = inTable) (m : Mem) {p : EntryPtr}
    (hp : p.index < 512) : readEntry env.mapped m p = .ok (m p.addr) := by
  rw [hin, readEntry, if_pos (by simpa [inTable] using hp)]

/-- And written. -/
theorem writeEntry_inTable (hin : env.mapped = inTable) (m : Mem) {p : EntryPtr}
    (hp : p.index < 512) (e : TlbEntry) :
    writeEntry env.mapped m p e = .ok (m.set p.addr e) := by
  rw [hin, writeEntry, if_pos (by simpa [inTable] using hp)]

/-- Making sure of an entry takes no frame. -/
theorem takes_ensureEntry (hin : env.mapped = inTable) (hnf : NeverFails env.pacc drawn)
    (fields : Uintptr → TlbEntry → TlbEntry) {p : EntryPtr} (hp : p.index < 512)
    (s : Machine σ) : Takes drawn s 0 (ensureEntry (populateEntry fields) env p s) := by
  rw [ensureEntry, readEntry_inTable hin _ hp, Loop.ok_bind]
  cases hpres : (s.mem p.addr).present with
  | true => exact ⟨s, rfl, rfl⟩
  | false =>
      obtain ⟨pf, s1, halloc, hdrawn⟩ := hnf.alloc env.flags s
      refine ⟨⟨s1.mem.set p.addr (fields (pf.setWidth 64) (s1.mem p.addr)), s1.ctx⟩, ?_, hdrawn⟩
      simp only [Bool.false_eq_true, if_false, populateEntry, halloc, Loop.ok_bind,
        readEntry_inTable hin _ hp, writeEntry_inTable hin _ hp, pure, Except.pure]

/-- The pages of one page table. -/
theorem takes_mapPagesFrom_nil (hin : env.mapped = inTable) (hnf : NeverFails env.pacc drawn)
    (t : Uintptr) : ∀ (vs : List Uintptr) (s : Machine σ),
      Takes drawn s vs.length (mapPagesFrom env [] t vs s) := by
  intro vs
  induction vs with
  | nil => intro s; exact ⟨s, rfl, rfl⟩
  | cons v vs ih =>
      intro s
      obtain ⟨i, c, hnext, hdrawn⟩ := hnf.next s.ctx
      obtain ⟨s', hrun, hcount⟩ :=
        ih ⟨s.mem.set (EntryPtr.mk t (ptlIndex 12 v)).addr (leafEntry env.flags i), c⟩
      refine ⟨s', ?_, ?_⟩
      · simp only [mapPagesFrom, mapPageFrom, hnext, Loop.ok_bind,
          writeEntry_inTable hin s.mem (p := ⟨t, ptlIndex 12 v⟩) (ptlIndex 12 v).isLt, pure,
          Except.pure, ne_eq, not_true_eq_false, if_false]
        exact hrun
      · rw [hcount, List.length_cons]
        show drawn c + vs.length = _
        omega

/-- A walker for blocks of `2 ^ b` bytes that takes a frame for each page. -/
def TakesAll (env : WalkEnv σ) (drawn : σ → Nat) (block : BlockWalker σ) (b : Nat) : Prop :=
  ∀ (s : Machine σ) (p : EntryPtr) (v e : Uintptr) (k : Nat), p.index < 512 → Spans b v e k →
    Takes drawn s k (block env p v e s)

/-- The walker of the lowest level takes a frame for each page of its 2 MB block. -/
theorem takesAll_mapPde2Range (hin : env.mapped = inTable) (hnf : NeverFails env.pacc drawn) :
    TakesAll env drawn mapPde2Range 21 := by
  intro s p v e k hp hspan
  rw [mapPde2Range, readEntry_inTable hin _ hp, Loop.ok_bind, run_pde2Turn_spans hspan]
  have h := takes_mapPagesFrom_nil hin hnf (s.mem p.addr).table (pagesFrom v k) s
  rwa [length_pagesFrom] at h

/-- One level up: the loop of a table range, chunk by chunk. -/
theorem takes_rangeTurn (hin : env.mapped = inTable) (hnf : NeverFails env.pacc drawn)
    {l : RangeLevel σ} (hl : l.Blocks) {fields : Uintptr → TlbEntry → TlbEntry}
    (hpop : l.populate = populateEntry fields) {block : BlockWalker σ}
    (hblock : TakesAll env drawn block l.shift) {t e : Uintptr} :
    ∀ (n k : Nat) (v : Uintptr) (s : Machine σ), k ≤ n → Spans (l.shift + 9) v e k →
      Takes drawn s k (Loop.run .diverges (rangeTurn l block env e) n
        ⟨v, e - v, ⟨t, ptlIndex l.shift v⟩, s⟩) := by
  intro n
  induction n with
  | zero =>
      intro k v s hk hspan
      have := hspan.pos
      omega
  | succ n ih =>
      intro k v s hk hspan
      -- One turn maps the chunk of `c` pages in the block of `v`.
      obtain ⟨c, hc, hrest⟩ := hl.chunk hspan
      have hidx := (ptlIndex l.shift v).isLt
      obtain ⟨s1, hens, hd1⟩ :=
        takes_ensureEntry hin hnf fields (p := ⟨t, ptlIndex l.shift v⟩) hidx s
      obtain ⟨s2, hblk, hd2⟩ := hblock s1 ⟨t, ptlIndex l.shift v⟩ v _ c hidx hc.spans
      by_cases hck : c = k
      · -- The range ends in this block.
        refine ⟨s2, ?_, by omega⟩
        apply Loop.run_exit
        simp only [rangeTurn, hpop, hens, hblk, Loop.ok_bind, ne_eq, not_true_eq_false, if_false,
          hc.last hck, pure, Except.pure]
      · -- The others are left to the later turns.
        have hlt : c < k := Nat.lt_of_le_of_ne hc.le hck
        obtain ⟨hgo, -, hspan', hnext⟩ := hc.go hlt
        have hcpos := hc.spans.pos
        obtain ⟨s3, hrun, hd3⟩ := ih (k - c) (l.toAddr v (e - v)) s2 (by omega) hspan'
        refine ⟨s3, ?_, by omega⟩
        rw [← hrun]
        apply Loop.run_continue
        simp only [rangeTurn, hpop, hens, hblk, Loop.ok_bind, ne_eq, not_true_eq_false, if_false,
          hgo, if_true, hrest hlt, EntryPtr.next, hnext, pure, Except.pure]

/-- If the walker of a level does so for its blocks, then the loop above it does so for blocks
of nine bits more. -/
theorem takesAll_mapTableRange (hin : env.mapped = inTable) (hnf : NeverFails env.pacc drawn)
    {l : RangeLevel σ} (hl : l.Blocks) {fields : Uintptr → TlbEntry → TlbEntry}
    (hpop : l.populate = populateEntry fields) {block : BlockWalker σ}
    (hblock : TakesAll env drawn block l.shift) :
    TakesAll env drawn (mapTableRange l block) (l.shift + 9) := by
  intro s p v e k hp hspan
  rw [mapTableRange, readEntry_inTable hin _ hp, Loop.ok_bind]
  refine takes_rangeTurn hin hnf hl hpop hblock TURNS k v s ?_ hspan
  have := hspan.le_turns
  unfold TURNS
  omega

/-- So the walker below the root takes a frame for each page of a block of 512 GB. -/
theorem takesAll_mapPml4Range (hin : env.mapped = inTable) (hnf : NeverFails env.pacc drawn) :
    TakesAll env drawn mapPml4Range 39 :=
  @takesAll_mapTableRange _ _ _ hin hnf _ blocks_pdp3Level pdp3Fields rfl _
    (@takesAll_mapTableRange _ _ _ hin hnf _ blocks_pde2Level pde2Fields rfl _
      (takesAll_mapPde2Range hin hnf))

/-! ### No refusal -/

/-- Whatever it does to memory, a computation that ends does so with success. -/
def Succeeds (x : Except Fault (Status × Machine σ)) : Prop := ∀ y, x = .ok y → y.1 = 0

/-- An allocator that never refuses leaves nothing for `ensureEntry` to fail with. -/
theorem succeeds_ensureEntry (hnf : NeverFails env.pacc drawn)
    (fields : Uintptr → TlbEntry → TlbEntry) (p : EntryPtr) (s : Machine σ) :
    Succeeds (ensureEntry (populateEntry fields) env p s) := by
  intro y hy
  rw [ensureEntry] at hy
  obtain ⟨x, -, hy⟩ := Loop.exists_of_bind hy
  split at hy
  · cases hy
    rfl
  · obtain ⟨pf, s1, halloc, -⟩ := hnf.alloc env.flags s
    rw [populateEntry, halloc, Loop.ok_bind] at hy
    obtain ⟨e, -, hy⟩ := Loop.exists_of_bind hy
    obtain ⟨m, -, hy⟩ := Loop.exists_of_bind hy
    cases hy
    rfl

/-- The lowest walker allocates nothing, and only ever returns 0. -/
theorem succeeds_mapPde2Range (p : EntryPtr) (v e : Uintptr) (s : Machine σ) :
    Succeeds (mapPde2Range env p v e s) := by
  intro y hy
  rw [mapPde2Range] at hy
  obtain ⟨x, -, hy⟩ := Loop.exists_of_bind hy
  refine Loop.run_invariant (fun _ => True) (fun y => y.1 = 0) ?_ _ _ y trivial hy
  intro a r _ hturn
  rw [pde2Turn] at hturn
  obtain ⟨i, -, hturn⟩ := Loop.exists_of_bind hturn
  obtain ⟨m, -, hturn⟩ := Loop.exists_of_bind hturn
  dsimp only at hturn
  split at hturn
  · cases hturn
    trivial
  · cases hturn
    rfl

/-- The walker of a table returns what the walkers below it return. -/
theorem succeeds_mapTableRange (hnf : NeverFails env.pacc drawn) {l : RangeLevel σ}
    {fields : Uintptr → TlbEntry → TlbEntry} (hpop : l.populate = populateEntry fields)
    {block : BlockWalker σ} (hblock : ∀ p v e s, Succeeds (block env p v e s))
    (p : EntryPtr) (v e : Uintptr) (s : Machine σ) :
    Succeeds (mapTableRange l block env p v e s) := by
  intro y hy
  rw [mapTableRange] at hy
  obtain ⟨x, -, hy⟩ := Loop.exists_of_bind hy
  refine Loop.run_invariant (fun _ => True) (fun y => y.1 = 0) ?_ _ _ y trivial hy
  intro a r _ hturn
  rw [rangeTurn, hpop] at hturn
  obtain ⟨x1, hens, hturn⟩ := Loop.exists_of_bind hturn
  have h1 := succeeds_ensureEntry hnf fields _ _ x1 hens
  simp only [h1, ne_eq, not_true_eq_false, if_false] at hturn
  obtain ⟨x2, hblk, hturn⟩ := Loop.exists_of_bind hturn
  have h2 := hblock _ _ _ _ x2 hblk
  simp only [h2, not_true_eq_false, if_false] at hturn
  split at hturn
  · cases hturn
    trivial
  · cases hturn
    rfl

/-- So no walk returns anything but 0. -/
theorem succeeds_mapPml4Range (hnf : NeverFails env.pacc drawn) (p : EntryPtr) (v e : Uintptr)
    (s : Machine σ) : Succeeds (mapPml4Range env p v e s) :=
  @succeeds_mapTableRange _ _ _ hnf _ pdp3Fields rfl _
    (@succeeds_mapTableRange _ _ _ hnf _ pde2Fields rfl _ succeeds_mapPde2Range) p v e s

end Counts

/-! ### The call -/

section Call

variable {pacc : PageFrameAccessor σ} {drawn : σ → Nat} {root virt n : Uintptr}
  {flags : PageFlags}

/-- A call that does not overrun takes a frame for each page it visits. -/
theorem takes_mmMapPages (hnf : NeverFails pacc drawn) (hvirt : virt.toNat % 4096 = 0)
    (hrefused : ¬ Refused ⟨root⟩ virt n) (hover : ¬ Overruns virt (virt + n * PAGE_SIZE))
    (s : Machine σ) :
    Takes drawn s (visited virt (virt + n * PAGE_SIZE))
      (mmMapPages inTable (some ⟨root⟩) (some pacc) virt n flags s) := by
  have hspan := spans_l4ToAddr hvirt (le_end hrefused) hover
  obtain ⟨s1, hens, hd1⟩ := @takes_ensureEntry _ ⟨inTable, pacc, flags⟩ _ rfl hnf
    pml4Upper.fields (p := ⟨root, ptlIndex 39 virt⟩) (ptlIndex 39 virt).isLt s
  obtain ⟨s2, hwalk, hd2⟩ := @takesAll_mapPml4Range _ ⟨inTable, pacc, flags⟩ _ rfl hnf s1
    ⟨root, ptlIndex 39 virt⟩ virt _ _ (ptlIndex 39 virt).isLt hspan
  refine ⟨s2, ?_, by omega⟩
  simp only [mmMapPages, if_neg hrefused, mapAccepted_aligned hvirt, hens, hwalk, Loop.ok_bind,
    ne_eq, not_true_eq_false, if_false, pure, Except.pure]

/-- A call that overruns does not end: it leaves its table. -/
theorem not_ok_of_overruns (hnf : NeverFails pacc drawn) (hvirt : virt.toNat % 4096 = 0)
    (hrefused : ¬ Refused ⟨root⟩ virt n) (hover : Overruns virt (virt + n * PAGE_SIZE))
    (s : Machine σ) (y : Status × Machine σ) :
    mmMapPages inTable (some ⟨root⟩) (some pacc) virt n flags s ≠ .ok y := by
  intro hy
  obtain ⟨s1, hens, -⟩ := @takes_ensureEntry _ ⟨inTable, pacc, flags⟩ _ rfl hnf
    pml4Upper.fields (p := ⟨root, ptlIndex 39 virt⟩) (ptlIndex 39 virt).isLt s
  rw [mmMapPages, if_neg hrefused, mapAccepted_aligned hvirt, l4ToAddr_of_overruns hvirt hover,
    hens, Loop.ok_bind] at hy
  simp only [ne_eq, not_true_eq_false, if_false] at hy
  obtain ⟨x, hwalk, -⟩ := Loop.exists_of_bind hy
  -- The walk can neither succeed nor be refused a page.
  have hread := @readEntry_inTable _ ⟨inTable, pacc, flags⟩ rfl s1.mem
    (p := ⟨root, ptlIndex 39 virt⟩) (ptlIndex 39 virt).isLt
  have hrefusal := mapPml4Range_overruns (le_end hrefused) hover hread
    (fun p hp => .inl (by simpa [inTable] using hp)) hwalk
  have hsuccess := succeeds_mapPml4Range hnf _ _ _ _ x hwalk
  rw [hsuccess] at hrefusal
  exact neg_ENOMEM_ne_zero hrefusal.symm

/-- An accepted call ends, stays in its tables and takes as many frames as it was
asked to map pages exactly when its range ends before the next 512 GB boundary and
before the last gigabyte of the address space. -/
theorem mmMapPages_takes_iff (hnf : NeverFails pacc drawn) (hvirt : virt.toNat % 4096 = 0)
    (hrefused : ¬ Refused ⟨root⟩ virt n) (s : Machine σ) :
    (∃ r s', mmMapPages inTable (some ⟨root⟩) (some pacc) virt n flags s = .ok (r, s') ∧
        drawn s'.ctx = drawn s.ctx + n.toNat) ↔
      virt.toNat + 4096 * n.toNat ≤ (virt.toNat / 2 ^ 39 + 1) * 2 ^ 39 ∧
        virt.toNat + 4096 * n.toNat ≤ 2 ^ 64 - 2 ^ 30 := by
  have hn0 : n ≠ 0 := fun h => hrefused (.inr (.inl h))
  have hpos : n.toNat ≠ 0 := fun h => hn0 (BitVec.eq_of_toNat_eq h)
  have hlt := virt.isLt
  have helt := (virt + n * PAGE_SIZE).isLt
  have hea := @end_aligned virt n hvirt
  have hle := le_end hrefused
  by_cases hover : Overruns virt (virt + n * PAGE_SIZE)
  · -- A call that runs over never returns, and the right side excludes it.
    refine ⟨fun ⟨r, s', hrun, _⟩ => absurd hrun (not_ok_of_overruns hnf hvirt hrefused hover s _),
      fun ⟨hblock, htop⟩ => ?_⟩
    have hend := toNat_end hrefused (by omega)
    unfold Overruns at hover
    omega
  · -- Every other call takes a frame for each page it visits. It is left to compare the visited
    -- pages with `n`.
    obtain ⟨s', hrun, hcount⟩ := @takes_mmMapPages _ _ _ _ _ _ flags hnf hvirt hrefused hover s
    have hiff : (∃ r s', mmMapPages inTable (some ⟨root⟩) (some pacc) virt n flags s
        = .ok (r, s') ∧ drawn s'.ctx = drawn s.ctx + n.toNat) ↔
        visited virt (virt + n * PAGE_SIZE) = n.toNat := by
      constructor
      · rintro ⟨r, s'', hrun', hcount'⟩
        rw [hrun] at hrun'
        cases hrun'
        omega
      · intro h
        exact ⟨0, s', hrun, by rw [hcount, h]⟩
    rw [hiff]
    unfold Overruns at hover
    by_cases hn : n.toNat < 2 ^ 52
    · have hend := toNat_end hrefused hn
      rw [visited_eq hvirt hrefused hn hn0]
      split <;> omega
    · -- The count of the bytes wraps, and fewer pages are visited.
      have hfew : visited virt (virt + n * PAGE_SIZE) < 2 ^ 52 := by
        rw [visited]
        split
        · omega
        · have := (l4ToAddr virt (virt + n * PAGE_SIZE)).isLt
          have hv0 : virt.toNat ≠ 0 := fun h =>
            hrefused (.inr (.inr (.inl (BitVec.eq_of_toNat_eq h))))
          omega
      omega

end Call

/-- An accessor that never fails and counts the frames taken. -/
def countingAccessor : PageFrameAccessor (Nat × PageIdx) where
  framesLeft _ := 0
  nextFrame c := .ok (100, (c.1 + 1, c.2))
  reset c := c
  allocPage _ cleanPage s :=
    .ok (some s.ctx.2, ⟨if cleanPage then s.mem.clean s.ctx.2 else s.mem,
      (s.ctx.1, s.ctx.2 + 1)⟩)

/-- The accessor that counts up never fails, and its counter is the number of frames drawn. -/
theorem neverFails_countingAccessor : NeverFails countingAccessor Prod.fst where
  next _ := ⟨_, _, rfl, rfl⟩
  alloc _ _ := ⟨_, _, rfl, rfl⟩

/-- Three pages in an empty directory. -/
theorem mmMapPages_takes_three :
    (∃ r s', mmMapPages inTable (some ⟨EMPTY_ROOT⟩) (some countingAccessor) 0x1000 3 0
        ⟨fun _ => .zero, (0, 2)⟩ = .ok (r, s') ∧ s'.ctx.1 = 0 + (3 : Uintptr).toNat) ↔
      (0x1000 : Uintptr).toNat + 4096 * (3 : Uintptr).toNat
          ≤ ((0x1000 : Uintptr).toNat / 2 ^ 39 + 1) * 2 ^ 39 ∧
        (0x1000 : Uintptr).toNat + 4096 * (3 : Uintptr).toNat ≤ 2 ^ 64 - 2 ^ 30 :=
  mmMapPages_takes_iff neverFails_countingAccessor (by decide) (by decide +kernel) _

/-- Two pages on either side of a 512 GB boundary take one frame. -/
theorem mmMapPages_takes_one_of_two :
    ¬ Refused ⟨EMPTY_ROOT⟩ 0x7ffffff000 2 ∧
      ¬ ∃ r s', mmMapPages inTable (some ⟨EMPTY_ROOT⟩) (some countingAccessor) 0x7ffffff000 2 0
        ⟨fun _ => .zero, (0, 2)⟩ = .ok (r, s') ∧ s'.ctx.1 = 0 + (2 : Uintptr).toNat := by
  refine ⟨by decide +kernel, fun ⟨r, s', hrun, hcount⟩ => ?_⟩
  have hone : (mmMapPages inTable (some ⟨EMPTY_ROOT⟩) (some countingAccessor) 0x7ffffff000 2 0
      ⟨fun _ => .zero, (0, 2)⟩).map (fun x => x.2.ctx.1) = .ok 1 := by decide +kernel
  rw [hrun] at hone
  have : s'.ctx.1 = 1 := Except.ok.inj hone
  rw [this] at hcount
  exact absurd hcount (by decide)

end MString
