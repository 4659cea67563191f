import MString.Proofs.Mm.MapPage

/-!
# `MString.Proofs.Mm.Ranges`: the nested loops map page by page

Each walker of `pt.c`, started on a range that stays inside one of its entries,
does what `mapPagesFrom` does with the pages of the range. `MapsBlock` states this
for one walker; `mapsBlock_mapPde2Range` is the innermost one and
`mapsBlock_mapTableRange` carries it one level up.

A range is `Spans`: either it ends where its last page ends, below the last
gigabyte, or its end does not lie above its start. The loops test at the bottom,
so a range of the second kind still maps its first page. Both kinds reach the
walkers: the second when `num_pages * PAGE_SIZE` wraps to zero, and when a block
boundary wraps to zero at the top of the address space.
-/

set_option autoImplicit false

namespace MString

variable {σ : Type}

/-! ### Ranges of pages -/

/-- `k` pages from `v` on. -/
def pagesFrom (v : Uintptr) : Nat → List Uintptr
  | 0 => []
  | k + 1 => v :: pagesFrom (v + PAGE_SIZE) k

/-- There are `k` of them. -/
@[simp] theorem length_pagesFrom (v : Uintptr) (k : Nat) : (pagesFrom v k).length = k := by
  induction k generalizing v with
  | zero => rfl
  | succ k ih => simp [pagesFrom, ih]

/-- A range in two parts. -/
theorem pagesFrom_add (v : Uintptr) (j k : Nat) :
    pagesFrom v (j + k) = pagesFrom v j ++ pagesFrom (v + BitVec.ofNat 64 (4096 * j)) k := by
  induction j generalizing v with
  | zero => simp [pagesFrom]
  | succ j ih =>
      have haddr : v + PAGE_SIZE + BitVec.ofNat 64 (4096 * j)
          = v + BitVec.ofNat 64 (4096 * (j + 1)) := by
        apply BitVec.eq_of_toNat_eq
        rw [BitVec.toNat_add, BitVec.toNat_add, BitVec.toNat_add, BitVec.toNat_ofNat,
          BitVec.toNat_ofNat, show PAGE_SIZE.toNat = 4096 from rfl]
        omega
      rw [Nat.add_right_comm, pagesFrom, pagesFrom, ih, List.cons_append, haddr]

/-- The page at a place. -/
theorem getElem?_pagesFrom (v : Uintptr) {k i : Nat} (h : i < k) :
    (pagesFrom v k)[i]? = some (v + BitVec.ofNat 64 (4096 * i)) := by
  obtain ⟨j, rfl⟩ : ∃ j, k = i + (j + 1) := ⟨k - i - 1, by omega⟩
  rw [pagesFrom_add, List.getElem?_append_right (by simp), length_pagesFrom, Nat.sub_self]
  rfl

/-- Every page has a place, ... -/
theorem mem_pagesFrom {v w : Uintptr} {k : Nat} (h : w ∈ pagesFrom v k) :
    ∃ i, i < k ∧ w = v + BitVec.ofNat 64 (4096 * i) := by
  obtain ⟨i, hw⟩ := List.mem_iff_getElem?.mp h
  have hi : i < k := by simpa using (List.getElem?_eq_some_iff.mp hw).1
  rw [getElem?_pagesFrom v hi] at hw
  exact ⟨i, hi, (Option.some.inj hw).symm⟩

/-- ... and every place a page. -/
theorem mem_pagesFrom_of_lt (v : Uintptr) {k i : Nat} (h : i < k) :
    v + BitVec.ofNat 64 (4096 * i) ∈ pagesFrom v k :=
  List.mem_iff_getElem?.mpr ⟨i, getElem?_pagesFrom v h⟩

/-- The `i`-th page, as a number, when the range does not wrap. -/
theorem toNat_page {v : Uintptr} {i : Nat} (h : v.toNat + 4096 * i < 2 ^ 64) :
    (v + BitVec.ofNat 64 (4096 * i)).toNat = v.toNat + 4096 * i := by
  rw [BitVec.toNat_add, BitVec.toNat_ofNat]
  omega

/-- A range of pages for a block of `2 ^ b` bytes, and the number of its pages. -/
inductive Spans (b : Nat) (v e : Uintptr) (k : Nat) : Prop
  /-- The range ends in its last page, in the block it starts in. -/
  | whole (aligned : v.toNat % 4096 = 0) (pos : 0 < k) (reach : e.toNat ≤ v.toNat + 4096 * k)
      (last : v.toNat + 4096 * k < e.toNat + 4096)
      (block : (e.toNat - 1) / 2 ^ b = v.toNat / 2 ^ b) (top : e.toNat + 2 ^ 30 ≤ 2 ^ 64)
  /-- The range ends at or below its start. -/
  | single (one : k = 1) (stop : e = 0 ∨ e = v ∧ v.toNat + 2 ^ 30 < 2 ^ 64)

/-- A range has a page. -/
theorem Spans.pos {b k : Nat} {v e : Uintptr} (h : Spans b v e k) : 0 < k := by
  cases h with
  | whole _ pos => exact pos
  | single one => omega

/-- It has no more than the loops can turn. -/
theorem Spans.le_turns {b k : Nat} {v e : Uintptr} (h : Spans b v e k) : k ≤ 2 ^ 52 := by
  cases h with
  | whole _ _ _ last =>
      have := e.isLt
      omega
  | single one => omega

/-- The pages of a range lie in the block. -/
theorem Spans.sameBlock {b k : Nat} {v e w : Uintptr} (h : Spans b v e k)
    (hw : w ∈ pagesFrom v k) : w.toNat / 2 ^ b = v.toNat / 2 ^ b := by
  obtain ⟨i, hi, rfl⟩ := mem_pagesFrom hw
  cases h with
  | single one =>
      obtain rfl : i = 0 := by omega
      simp
  | whole aligned pos reach last block top =>
      have hlt := e.isLt
      rw [toNat_page (by omega)]
      apply le_antisymm
      · rw [← block]
        exact Nat.div_le_div_right (by omega)
      · exact Nat.div_le_div_right (by omega)

/-- Addresses in one block take the same slots above it. -/
theorem slots_eq {ls : List Level} {b : Nat} {v w : Uintptr} (hls : ∀ l ∈ ls, b ≤ l.shift)
    (h : v.toNat / 2 ^ b = w.toNat / 2 ^ b) : slots ls v = slots ls w := by
  refine List.map_congr_left fun l hl => ptlIndex_eq ?_
  obtain ⟨d, hd⟩ := Nat.exists_eq_add_of_le (hls l hl)
  rw [hd, Nat.pow_add, ← Nat.div_div_eq_div_mul, ← Nat.div_div_eq_div_mul, h]

/-! ### The innermost loop -/

section Leaf

variable {env : WalkEnv σ} {t : Uintptr}

/-- `map_pde2_range` writes the leaves of its pages one by one. -/
theorem run_pde2Turn {e : Uintptr} :
    ∀ (k n : Nat) (v : Uintptr) (s : Machine σ), k < n →
      (∀ j, 0 < j → j ≤ k → v + BitVec.ofNat 64 (4096 * j) < e) →
      ¬ v + BitVec.ofNat 64 (4096 * (k + 1)) < e →
      Loop.run .diverges (pde2Turn env t e) n (v, s)
        = mapPagesFrom env [] t (pagesFrom v (k + 1)) s := by
  intro k
  -- The induction is on the pages behind the first; the loop stops where its pointer reaches `e`.
  induction k with
  | zero =>
      intro n v s hn _ hstop
      obtain ⟨n, rfl⟩ : ∃ n', n = n' + 1 := ⟨n - 1, by omega⟩
      simp only [pagesFrom, mapPagesFrom, mapPageFrom, Loop.run, pde2Turn, bind, Except.bind]
      cases hnext : env.pacc.nextFrame s.ctx with
      | error e' => rfl
      | ok x =>
          dsimp only
          cases hw : writeEntry env.mapped s.mem ⟨t, ptlIndex 12 v⟩ (leafEntry env.flags x.1) with
          | error e' => rfl
          | ok m =>
              have hstop' : ¬ v + L1_ENTRY_RANGE < e := hstop
              simp [hstop', pure, Except.pure]
  | succ k ih =>
      intro n v s hn hgo hstop
      obtain ⟨n, rfl⟩ : ∃ n', n = n' + 1 := ⟨n - 1, by omega⟩
      have hshift : ∀ j, v + L1_ENTRY_RANGE + BitVec.ofNat 64 (4096 * j)
          = v + BitVec.ofNat 64 (4096 * (j + 1)) := fun j => by
        apply BitVec.eq_of_toNat_eq
        simp only [BitVec.toNat_add, BitVec.toNat_ofNat, show L1_ENTRY_RANGE.toNat = 4096 from rfl]
        omega
      rw [pagesFrom]
      simp only [mapPagesFrom, mapPageFrom, Loop.run, pde2Turn, bind, Except.bind]
      cases hnext : env.pacc.nextFrame s.ctx with
      | error e' => rfl
      | ok x =>
          dsimp only
          cases hw : writeEntry env.mapped s.mem ⟨t, ptlIndex 12 v⟩ (leafEntry env.flags x.1) with
          | error e' => rfl
          | ok m =>
              have hgo' : v + L1_ENTRY_RANGE < e := hgo 1 (by omega) (by omega)
              have hrec := ih n (v + L1_ENTRY_RANGE) ⟨m, x.2⟩ (by omega)
                (fun j hj hjk => by rw [hshift]; exact hgo (j + 1) (by omega) (by omega))
                (by rw [hshift]; exact hstop)
              simp only [hgo', if_true, pure, Except.pure, ne_eq, not_true_eq_false, if_false]
              exact hrec

/-- The loop of `map_pde2_range` on a range of pages. -/
theorem run_pde2Turn_spans {v e : Uintptr} {b k : Nat} (h : Spans b v e k) (s : Machine σ) :
    Loop.run .diverges (pde2Turn env t e) TURNS (v, s)
      = mapPagesFrom env [] t (pagesFrom v k) s := by
  have hpos := h.pos
  have hle := h.le_turns
  obtain ⟨j, rfl⟩ : ∃ j, k = j + 1 := ⟨k - 1, by omega⟩
  refine run_pde2Turn j TURNS v s (by unfold TURNS; omega) (fun i hi hij => ?_) ?_
  · cases h with
    | whole aligned pos reach last block top =>
        rw [BitVec.lt_def, toNat_page (by omega)]
        omega
    | single one => omega
  · cases h with
    | whole aligned pos reach last block top =>
        rw [BitVec.lt_def, toNat_page (by omega)]
        omega
    | single one stop =>
        obtain rfl : j = 0 := by omega
        rcases stop with rfl | ⟨rfl, htop⟩
        · simp
        · rw [BitVec.lt_def, toNat_page (by omega)]
          omega

end Leaf

/-! ### One table range -/

/-- The constants of a level are those of blocks of `2 ^ shift` bytes. -/
structure RangeLevel.Blocks (l : RangeLevel σ) : Prop where
  shift : l.shift = 21 ∨ l.shift = 30
  range : l.range.toNat = 2 ^ l.shift
  mask : ∀ x : Uintptr, (x &&& l.mask).toNat = x.toNat / 2 ^ l.shift * 2 ^ l.shift

/-- So are those of `map_pdp3_range` ... -/
theorem blocks_pde2Level : (pde2Level : RangeLevel σ).Blocks :=
  ⟨.inl rfl, show L2_ENTRY_RANGE.toNat = 2 ^ 21 by decide, toNat_and_L2mask⟩

/-- ... and of `map_pml4_range`. -/
theorem blocks_pdp3Level : (pdp3Level : RangeLevel σ).Blocks :=
  ⟨.inr rfl, show L3_ENTRY_RANGE.toNat = 2 ^ 30 by decide, toNat_and_L3mask⟩

/-- Below the last gigabyte a turn stops at the end of the range or at the next
block boundary. -/
theorem RangeLevel.Blocks.toNat_toAddr {l : RangeLevel σ} (hl : l.Blocks) {v len : Uintptr}
    (htop : v.toNat + 2 ^ 30 < 2 ^ 64) (hlen : v.toNat + len.toNat < 2 ^ 64) :
    (l.toAddr v len).toNat
      = min (v.toNat + len.toNat) ((v.toNat / 2 ^ l.shift + 1) * 2 ^ l.shift) := by
  have hend : (v + len).toNat = v.toNat + len.toNat := by
    rw [BitVec.toNat_add]
    omega
  have hbound : ((v + l.range) &&& l.mask).toNat
      = (v.toNat / 2 ^ l.shift + 1) * 2 ^ l.shift := by
    rw [hl.mask, BitVec.toNat_add, hl.range]
    rcases hl.shift with h | h <;> rw [h] <;> omega
  unfold RangeLevel.toAddr
  simp only [BitVec.lt_def, gt_iff_lt, hend, hbound]
  split
  · rw [hbound]
    omega
  · rw [hend]
    omega

/-- At the end of the address space the boundary wraps to zero, and a range that
ends there is not clipped. -/
theorem toAddr_zero (l : RangeLevel σ) (v : Uintptr) : l.toAddr v (0 - v) = 0 := by
  have hz : v + (0 - v) = 0 := by
    rw [BitVec.add_comm, BitVec.sub_add_cancel]
  unfold RangeLevel.toAddr
  rw [hz]
  exact if_neg BitVec.not_lt_zero

/-- A range that ends where it starts is not clipped either. -/
theorem RangeLevel.Blocks.toAddr_self {l : RangeLevel σ} (hl : l.Blocks) {v : Uintptr}
    (htop : v.toNat + 2 ^ 30 < 2 ^ 64) : l.toAddr v (v - v) = v := by
  apply BitVec.eq_of_toNat_eq
  rw [BitVec.sub_self, hl.toNat_toAddr htop (by simpa using v.isLt)]
  have h : v.toNat < (v.toNat / 2 ^ l.shift + 1) * 2 ^ l.shift := by
    rw [Nat.mul_comm]
    exact Nat.lt_mul_div_succ _ (Nat.two_pow_pos _)
  rw [show (0#64).toNat = 0 from rfl]
  omega

/-- The part of a range that lies in the block of its first page. -/
structure Chunk (b : Nat) (v stop e : Uintptr) (c k : Nat) : Prop where
  spans : Spans b v stop c
  le : c ≤ k
  last : c = k → ¬ stop < e
  go : c < k → stop < e ∧ stop = v + BitVec.ofNat 64 (4096 * c) ∧
    Spans (b + 9) stop e (k - c) ∧ (ptlIndex b stop).val = (ptlIndex b v).val + 1

/-- The arithmetic of a chunk: `a` is the end of the range or of the first block,
whichever comes first. -/
theorem chunk_arith {b v e k a : Nat} (hb : b = 21 ∨ b = 30) (aligned : v % 4096 = 0)
    (pos : 0 < k) (last : v + 4096 * k < e + 4096)
    (block : (e - 1) / 2 ^ (b + 9) = v / 2 ^ (b + 9))
    (ha : a = min e ((v / 2 ^ b + 1) * 2 ^ b)) :
    v < a ∧ a ≤ e ∧ (a - 1) / 2 ^ b = v / 2 ^ b ∧
      (a < e → a % 4096 = 0 ∧ (e - 1) / 2 ^ (b + 9) = a / 2 ^ (b + 9) ∧
        a / 2 ^ b % 512 = v / 2 ^ b % 512 + 1) := by
  rcases hb with rfl | rfl
  · norm_num at block ha ⊢
    omega
  · norm_num at block ha ⊢
    omega

/-- One turn of a table range takes the chunk of the first block. -/
theorem RangeLevel.Blocks.chunk {l : RangeLevel σ} (hl : l.Blocks) {v e : Uintptr} {k : Nat}
    (h : Spans (l.shift + 9) v e k) :
    ∃ c, Chunk l.shift v (l.toAddr v (e - v)) e c k ∧
      (c < k → (e - v) - (l.toAddr v (e - v) - v) = e - l.toAddr v (e - v)) := by
  cases h with
  -- A single page is a turn of its own.
  | single one stop =>
      refine ⟨1, ?_, fun h => absurd h (by omega)⟩
      rcases stop with rfl | ⟨rfl, htop⟩
      · rw [toAddr_zero]
        exact ⟨.single rfl (.inl rfl), by omega, fun _ => BitVec.not_lt_zero,
          fun h => absurd h (by omega)⟩
      · rw [hl.toAddr_self htop]
        exact ⟨.single rfl (.inr ⟨rfl, htop⟩), by omega, fun _ => by simp,
          fun h => absurd h (by omega)⟩
  -- The turn goes up to the next boundary or to the end, whichever comes first.
  | whole aligned pos reach last block top =>
      have hlt := e.isLt
      have hlen : v.toNat + (e - v).toNat = e.toNat := by
        rw [BitVec.toNat_sub]
        omega
      have hto := @RangeLevel.Blocks.toNat_toAddr _ _ hl v (e - v) (by omega) (by omega)
      generalize l.toAddr v (e - v) = a at hto ⊢
      rw [hlen] at hto
      obtain ⟨hva, hae, hblock, hrest⟩ := chunk_arith hl.shift aligned pos last block hto
      refine ⟨(a.toNat - v.toNat + 4095) / 4096, ⟨?_, by omega, ?_, fun hc => ?_⟩, fun _ => ?_⟩
      · exact .whole aligned (by omega) (by omega) (by omega) hblock (by omega)
      · -- A turn that stops short of the end stops at a page boundary.
        intro hc
        rw [BitVec.lt_def]
        intro hlt
        obtain ⟨ha, -, -⟩ := hrest hlt
        omega
      · -- The rest of the range begins at the boundary, in the next entry.
        obtain ⟨ha, hblock', hidx⟩ := hrest (by omega)
        refine ⟨?_, ?_, .whole ha (by omega) (by omega) (by omega) hblock' top, ?_⟩
        · rw [BitVec.lt_def]
          omega
        · apply BitVec.eq_of_toNat_eq
          rw [toNat_page (by omega)]
          omega
        · rw [ptlIndex_val, ptlIndex_val]
          exact hidx
      · apply BitVec.eq_of_toNat_eq
        rw [BitVec.toNat_sub, BitVec.toNat_sub, BitVec.toNat_sub, BitVec.toNat_sub]
        omega

section Range

variable {env : WalkEnv σ} {free : σ → PageIdx → Prop} {hist : σ → List PageIdx → Prop}
  {root : Uintptr}

/-- A walker for the block under one entry of the level `lev`, below the levels
`pre` and above the levels `ls`, maps the pages of its range one by one. -/
def MapsBlock (env : WalkEnv σ) (free : σ → PageIdx → Prop) (root : Uintptr)
    (block : BlockWalker σ) (pre : List Level) (lev : Level) (ls : List Level) : Prop :=
  ∀ (s : Machine σ) (v e : Uintptr) (k : Nat) (t : Uintptr), Ready free root s →
    tableOf s.mem root (slots pre v) = some t →
    (slotEntry s.mem t (ptlIndex lev.shift v)).present = true → Spans lev.shift v e k →
    block env ⟨t, ptlIndex lev.shift v⟩ v e s
      = mapPagesFrom env ls (slotEntry s.mem t (ptlIndex lev.shift v)).table (pagesFrom v k) s

/-- Pages under one present entry go through that entry. -/
theorem mapPagesFrom_present (hsup : Supplies env.pacc free hist) (ha : Answers env.mapped)
    {pre ls : List Level} {lev : Level} (hpre : pre ++ lev :: ls = upperLevels)
    {q : List (Fin 512)} {t : Uintptr} {i : Fin 512} :
    ∀ (vs : List Uintptr) (s : Machine σ), Ready free root s → tableOf s.mem root q = some t →
      (∀ v ∈ vs, slots pre v = q ∧ ptlIndex lev.shift v = i) → q.length < 3 →
      (slotEntry s.mem t i).present = true →
      mapPagesFrom env (lev :: ls) t vs s
        = mapPagesFrom env ls (slotEntry s.mem t i).table vs s := by
  intro vs
  induction vs with
  | nil =>
      intro s _ _ _ _ _
      simp only [mapPagesFrom]
  | cons v vs ih =>
      intro s h ht hq hlen hpres
      obtain ⟨hv, hi⟩ := hq v (by simp)
      have hta := h.wf.addr q t (by omega) ht
      -- For one page the entry is present, so nothing is done for it.
      have hpage : mapPageFrom env v (lev :: ls) t s
          = mapPageFrom env v ls (slotEntry s.mem t i).table s := by
        rw [← hi] at hpres ⊢
        exact mapPageFrom_cons ha hta ls (ensureEntry_of_present ha hta hpres)
      cases hrun : mapPageFrom env v ls (slotEntry s.mem t i).table s with
      -- Both sides fault in the same page.
      | error e => simp only [mapPagesFrom, hpage, hrun, Loop.error_bind]
      | ok x =>
          obtain ⟨r, s1⟩ := x
          rw [hrun] at hpage
          by_cases hr : r = 0
          · -- The page was mapped below the entry, so the entry is still there.
            have hm := mapPageFrom_spec hsup ha v ls (pre ++ [lev]) _ s r s1 (by simpa using hpre)
              h (by
                rw [slots_append, hv]
                show tableOf s.mem root (q ++ [ptlIndex lev.shift v]) = _
                rw [tableOf_concat, ht, hi, Option.bind_some, entryTable_of_present hpres]) hrun
            have hkeep := hm.grows.keep q t i (by omega) ht hpres
            have hrest := ih s1 hm.ready (hm.grows.tableOf q t (by omega) ht)
              (fun w hw => hq w (by simp [hw])) hlen (by rw [hkeep]; exact hpres)
            rw [hkeep] at hrest
            rw [hr] at hpage hrun
            rw [mapPagesFrom_cons vs hpage, mapPagesFrom_cons vs hrun, hrest]
          · -- Both sides stop at a page that is refused.
            rw [mapPagesFrom_cons_failed vs hpage hr, mapPagesFrom_cons_failed vs hrun hr]

/-- Mapping pages starts by making sure of the entry of the first one. -/
theorem mapPagesFrom_ensure (ha : Answers env.mapped) {ls : List Level} {lev : Level}
    {t v : Uintptr} {vs : List Uintptr} {s s1 : Machine σ} {r : Status} (hta : TableAddr t)
    (hens : ensureEntry (populateEntry lev.fields) env ⟨t, ptlIndex lev.shift v⟩ s = .ok (r, s1))
    (hres : r = 0 ∧ (slotEntry s1.mem t (ptlIndex lev.shift v)).present = true ∨ r = -ENOMEM) :
    mapPagesFrom env (lev :: ls) t (v :: vs) s
      = if r ≠ 0 then .ok (-ENOMEM, s1) else mapPagesFrom env (lev :: ls) t (v :: vs) s1 := by
  rcases hres with ⟨rfl, hpres⟩ | rfl
  · rw [if_neg (by simp)]
    simp only [mapPagesFrom, mapPageFrom, hens, ensureEntry_of_present ha hta hpres]
  · rw [if_pos neg_ENOMEM_ne_zero]
    exact mapPagesFrom_cons_failed vs
      (mapPageFrom_cons_failed ls hens neg_ENOMEM_ne_zero) neg_ENOMEM_ne_zero

/-- If the entry of the first page cannot be looked at, the pages are not mapped. -/
theorem mapPagesFrom_ensure_error {ls : List Level} {lev : Level} {t v : Uintptr}
    {vs : List Uintptr} {s : Machine σ} {f : Fault}
    (hens : ensureEntry (populateEntry lev.fields) env ⟨t, ptlIndex lev.shift v⟩ s = .error f) :
    mapPagesFrom env (lev :: ls) t (v :: vs) s = .error f := by
  simp only [mapPagesFrom, mapPageFrom, hens, Loop.error_bind]

/-- The block walker maps the pages of one chunk. -/
theorem MapsBlock.chunk {pre ls : List Level} {lev : Level} {block : BlockWalker σ}
    (hblock : MapsBlock env free root block pre lev ls) (hsup : Supplies env.pacc free hist)
    (ha : Answers env.mapped) (hpre : pre ++ lev :: ls = upperLevels)
    (habove : ∀ x ∈ pre, lev.shift ≤ x.shift) {s : Machine σ} {t v stop : Uintptr} {c : Nat}
    {q : List (Fin 512)} (h : Ready free root s) (ht : tableOf s.mem root q = some t)
    (hq : slots pre v = q) (hlen : q.length < 3)
    (hpres : (slotEntry s.mem t (ptlIndex lev.shift v)).present = true)
    (hspan : Spans lev.shift v stop c) :
    block env ⟨t, ptlIndex lev.shift v⟩ v stop s
      = mapPagesFrom env (lev :: ls) t (pagesFrom v c) s := by
  have hsame : ∀ w ∈ pagesFrom v c,
      slots pre w = q ∧ ptlIndex lev.shift w = ptlIndex lev.shift v := fun w hw => by
    have hwv := hspan.sameBlock hw
    exact ⟨hq ▸ slots_eq habove hwv, ptlIndex_eq hwv⟩
  rw [mapPagesFrom_present hsup ha hpre _ s h ht hsame hlen hpres]
  exact hblock s v stop c t h (by rw [hq]; exact ht) hpres hspan

/-- A turn whose entry is not there. -/
theorem rangeTurn_refused {l : RangeLevel σ} {block : BlockWalker σ} {e v n : Uintptr}
    {entry : EntryPtr} {s s1 : Machine σ}
    (hens : ensureEntry l.populate env entry s = .ok (-ENOMEM, s1)) :
    rangeTurn l block env e ⟨v, n, entry, s⟩ = .ok (.inr (-ENOMEM, s1)) := by
  simp only [rangeTurn, hens, Loop.ok_bind, if_pos neg_ENOMEM_ne_zero]
  rfl

/-- A turn whose entry is there goes on as the block walker says. -/
theorem rangeTurn_ensured {l : RangeLevel σ} (block : BlockWalker σ) (e v n : Uintptr)
    {entry : EntryPtr} {s s1 : Machine σ}
    (hens : ensureEntry l.populate env entry s = .ok (0, s1)) :
    rangeTurn l block env e ⟨v, n, entry, s⟩ = (do
      let toAddr := l.toAddr v n
      let (r, s) ← block env entry v toAddr s1
      if r ≠ 0 then return .inr (-ENOMEM, s)
      if toAddr < e then return .inl ⟨toAddr, n - (toAddr - v), entry.next, s⟩
      else return .inr (0, s)) := by
  simp only [rangeTurn, hens, Loop.ok_bind, ne_eq, not_true_eq_false, if_false]

/-- The loop of one table range maps the pages of its range one by one. -/
theorem run_rangeTurn (hsup : Supplies env.pacc free hist) (ha : Answers env.mapped)
    {l : RangeLevel σ} (hl : l.Blocks) {lev : Level} (hshift : lev.shift = l.shift)
    (hpop : l.populate = populateEntry lev.fields) {pre ls : List Level}
    (hpre : pre ++ lev :: ls = upperLevels) (habove : ∀ x ∈ pre, l.shift + 9 ≤ x.shift)
    (hshort : pre.length < 3) {block : BlockWalker σ}
    (hblock : MapsBlock env free root block pre lev ls) {t e : Uintptr} {q : List (Fin 512)} :
    ∀ (n k : Nat) (v : Uintptr) (s : Machine σ), k ≤ n → Ready free root s →
      tableOf s.mem root q = some t → slots pre v = q → Spans (l.shift + 9) v e k →
      Loop.run .diverges (rangeTurn l block env e) n ⟨v, e - v, ⟨t, ptlIndex l.shift v⟩, s⟩
        = mapPagesFrom env (lev :: ls) t (pagesFrom v k) s := by
  have hlev := mem_levels hpre
  have hbelow : ∀ x ∈ pre, lev.shift ≤ x.shift := fun x hx => by
    have := habove x hx
    omega
  intro n
  -- The induction is on the turns that are left; each does one chunk of the range.
  induction n with
  | zero =>
      intro k v s hk _ _ _ hspan
      have := hspan.pos
      omega
  | succ n ih =>
      intro k v s hk h ht hq hspan
      have hlen : q.length < 3 := by rw [← hq]; simpa using hshort
      have hta := h.wf.addr q t (by omega) ht
      obtain ⟨c, hc, hrest⟩ := hl.chunk hspan
      have hcpos := hc.spans.pos
      obtain ⟨k', rfl⟩ : ∃ k', k = c + k' := ⟨k - c, by have := hc.le; omega⟩
      have hcons : ∃ vs, pagesFrom v (c + k') = v :: vs := by
        obtain ⟨c', rfl⟩ : ∃ c', c = c' + 1 := ⟨c - 1, by omega⟩
        exact ⟨_, by rw [Nat.add_right_comm, pagesFrom]⟩
      obtain ⟨vs, hcons⟩ := hcons
      cases hens : ensureEntry l.populate env ⟨t, ptlIndex l.shift v⟩ s with
      | error e' =>
          have hens' := hens
          rw [hpop, ← hshift] at hens'
          rw [Loop.run_error (by simp only [rangeTurn, hens]; rfl), hcons,
            mapPagesFrom_ensure_error hens']
      | ok x =>
          obtain ⟨r1, s1⟩ := x
          have hens' := hens
          rw [hpop, ← hshift] at hens'
          obtain ⟨h1, hg, -, -, hres⟩ :=
            ensureEntry_spec hsup ha (refers_of_mem hlev) h hlen ht hens'
          rw [hcons, mapPagesFrom_ensure ha hta hens' hres, ← hcons]
          rcases hres with ⟨rfl, hpres⟩ | rfl
          · -- The block walker does the pages of the first chunk ...
            have ht1 := hg.tableOf q t (by omega) ht
            have hchunk := hblock.chunk hsup ha hpre hbelow h1 ht1 hq hlen hpres
              (by rw [hshift]; exact hc.spans)
            have hturn := rangeTurn_ensured block e v (e - v) hens
            rw [if_neg (by simp), pagesFrom_add, mapPagesFrom_append, ← hchunk]
            rw [hshift] at hchunk ⊢
            cases hrun : block env ⟨t, ptlIndex l.shift v⟩ v (l.toAddr v (e - v)) s1 with
            | error e' =>
                rw [Loop.run_error (by rw [hturn]; simp only [hrun]; rfl)]
                rfl
            | ok y =>
                obtain ⟨r2, s2⟩ := y
                obtain ⟨gs, hj⟩ := mapPagesFrom_spec hsup ha hpre _ s1 r2 s2 h1 ht1
                  (fun w hw => hq ▸ slots_eq hbelow (by rw [hshift]; exact hc.spans.sameBlock hw))
                  (hchunk ▸ hrun)
                rcases hj.result with ⟨rfl, -⟩ | ⟨rfl, -⟩
                · -- ... and the loop goes on with the next entry, or is done.
                  by_cases hk' : k' = 0
                  · subst hk'
                    rw [Loop.run_exit (b := (0, s2)) (by
                      rw [hturn]
                      simp only [hrun, hc.last rfl]
                      rfl)]
                    rfl
                  · obtain ⟨hgo, hto, hspan', hidx⟩ := hc.go (by omega)
                    rw [Nat.add_sub_cancel_left] at hspan'
                    have hptr : (EntryPtr.mk t (ptlIndex l.shift v)).next
                        = ⟨t, ptlIndex l.shift (l.toAddr v (e - v))⟩ := by
                      simp only [EntryPtr.next, hidx]
                    have hq' : slots pre (l.toAddr v (e - v)) = q := by
                      rw [← hq]
                      refine slots_eq habove (hspan.sameBlock ?_)
                      rw [hto]
                      exact mem_pagesFrom_of_lt v (by omega)
                    have hrec := ih k' (l.toAddr v (e - v)) s2 (by omega) hj.ready
                      (hj.grows.tableOf q t (by omega) ht1) hq' hspan'
                    have hnext : rangeTurn l block env e ⟨v, e - v, ⟨t, ptlIndex l.shift v⟩, s⟩
                        = .ok (.inl ⟨l.toAddr v (e - v), e - l.toAddr v (e - v),
                          ⟨t, ptlIndex l.shift (l.toAddr v (e - v))⟩, s2⟩) := by
                      rw [hturn, ← hptr, ← hrest (by omega)]
                      simp only [hrun, Loop.ok_bind, hgo, if_true]
                      rfl
                    rw [Loop.run_continue hnext, hrec, hto]
                    rfl
                · rw [Loop.run_exit (b := (-ENOMEM, s2)) (by rw [hturn]; simp only [hrun]; rfl)]
                  rfl
          · rw [if_pos neg_ENOMEM_ne_zero, Loop.run_exit (rangeTurn_refused hens)]

/-- One level up. -/
theorem mapsBlock_mapTableRange (hsup : Supplies env.pacc free hist)
    (ha : Answers env.mapped) {l : RangeLevel σ} (hl : l.Blocks) {lev up : Level}
    (hshift : lev.shift = l.shift) (hup : up.shift = l.shift + 9)
    (hpop : l.populate = populateEntry lev.fields) {pre ls : List Level}
    (hpre : pre ++ up :: lev :: ls = upperLevels) (habove : ∀ x ∈ pre, l.shift + 9 ≤ x.shift)
    {block : BlockWalker σ} (hblock : MapsBlock env free root block (pre ++ [up]) lev ls) :
    MapsBlock env free root (mapTableRange l block) pre up (lev :: ls) := by
  intro s v e k t h ht hpres hspan
  have hshort := length_levels hpre
  simp only [List.length_cons] at hshort
  have hta := h.wf.addr _ t (by simp; omega) ht
  have ht' := tableOf_slots_concat ht hpres
  rw [mapTableRange, readEntry_slot ha _ hta]
  refine run_rangeTurn hsup ha hl hshift hpop (by simpa using hpre) ?_ (by simp; omega) hblock
    TURNS k v s ?_ h ht' rfl (by rw [← hup]; exact hspan)
  · intro x hx
    rcases List.mem_append.mp hx with hx | hx
    · exact habove x hx
    · rw [List.mem_singleton.mp hx, hup]
  · have := hspan.le_turns
    unfold TURNS
    omega

/-- The innermost walker, ... -/
theorem mapsBlock_mapPde2Range (ha : Answers env.mapped) :
    MapsBlock env free root mapPde2Range [pml4Upper, pdp3Upper] pde2Upper [] := by
  intro s v e k t h ht _ hspan
  have hta := h.wf.addr _ t (by simp) ht
  rw [mapPde2Range, readEntry_slot ha _ hta]
  exact run_pde2Turn_spans hspan s

/-- ... the one above it ... -/
theorem mapsBlock_mapPdp3Range (hsup : Supplies env.pacc free hist) (ha : Answers env.mapped) :
    MapsBlock env free root mapPdp3Range [pml4Upper] pdp3Upper [pde2Upper] :=
  mapsBlock_mapTableRange hsup ha blocks_pde2Level rfl rfl rfl rfl
    (fun x hx => by rw [List.mem_singleton.mp hx]; show 30 ≤ 39; omega) (mapsBlock_mapPde2Range ha)

/-- ... and the outermost map page by page. -/
theorem mapsBlock_mapPml4Range (hsup : Supplies env.pacc free hist) (ha : Answers env.mapped) :
    MapsBlock env free root mapPml4Range [] pml4Upper [pdp3Upper, pde2Upper] :=
  mapsBlock_mapTableRange hsup ha blocks_pdp3Level rfl rfl rfl rfl (fun x hx => by simp at hx)
    (mapsBlock_mapPdp3Range hsup ha)

end Range

end MString
