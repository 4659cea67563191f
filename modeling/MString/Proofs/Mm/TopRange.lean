import MString.Proofs.Mm.Pins

/-!
# `MString.Proofs.Mm.TopRange`: a call that runs over

In the last gigabyte of the address space the block boundary of `map_pml4_range` wraps to
zero, so a range that gets there has no end. The loop maps the pages up to the top
(`topPages`), goes on behind the table of the last 512 GB and stays there.

* `rangeTurn_top`, `run_top`: the turns inside the table map their pages one by one.
* `walkBeyond`: the turns behind it, whatever stands there.
* `mmMapPages_top`: what the call does is decided by the mapping of the pages up to the top,
  unless all of them are mapped.
-/

set_option autoImplicit false

namespace MString

variable {σ : Type}

/-! ### The pages up to the top -/

/-- In the last 512 GB the root index is 511. -/
theorem ptlIndex_top {v : Uintptr} (h : 2 ^ 64 - 2 ^ 39 ≤ v.toNat) : ptlIndex 39 v = 511 := by
  apply Fin.ext
  rw [ptlIndex_val, show (511 : Fin 512).val = 511 from rfl]
  have := v.isLt
  omega

/-- Where the gigabyte of `v` ends: the boundary of a turn of `map_pml4_range`. -/
def gigaEnd (v : Uintptr) : Uintptr := (v + L3_ENTRY_RANGE) &&& L3_ADDR_MASK

/-- The end of the last gigabyte wraps to zero. -/
theorem toNat_gigaEnd (v : Uintptr) :
    (gigaEnd v).toNat = (v.toNat / 2 ^ 30 + 1) * 2 ^ 30 % 2 ^ 64 :=
  (blocks_pdp3Level (σ := Unit)).toNat_boundary v

/-- The number of pages that the walk maps from `v` to the end of the address space. In
the last gigabyte it is one. -/
def topPages (v : Uintptr) : Nat := (2 ^ 64 - 2 ^ 30 - v.toNat) / 4096 + 1

/-- They do not wrap. -/
theorem topPages_fit {v : Uintptr} (hv : v.toNat % 4096 = 0) :
    v.toNat + 4096 * topPages v ≤ 2 ^ 64 := by
  have hlt := v.isLt
  unfold topPages
  omega

/-- So they are different pages. -/
theorem nodup_topPages {v : Uintptr} (hv : v.toNat % 4096 = 0)
    (htop : 2 ^ 64 - 2 ^ 39 ≤ v.toNat) : ((pagesFrom v (topPages v)).map pageOf).Nodup := by
  have hfit := topPages_fit hv
  exact nodup_pagesFrom hfit (by omega)

/-- The pages of one turn: the rest of the gigabyte of `v`, or the single page at `v` in
the last one. -/
structure TurnPages (v : Uintptr) (k : Nat) : Prop where
  spans : Spans 30 v (gigaEnd v) k
  last : 2 ^ 64 - 2 ^ 30 ≤ v.toNat → k = topPages v ∧ gigaEnd v = 0
  go : v.toNat < 2 ^ 64 - 2 ^ 30 →
    topPages v = k + topPages (gigaEnd v) ∧ gigaEnd v = v + BitVec.ofNat 64 (4096 * k)

/-- Every page-aligned address in the last 512 GB begins the pages of a turn. -/
theorem exists_turnPages {v : Uintptr} (hv : v.toNat % 4096 = 0)
    (htop : 2 ^ 64 - 2 ^ 39 ≤ v.toNat) : ∃ k, TurnPages v k := by
  have hb := toNat_gigaEnd v
  have hlt := v.isLt
  by_cases hv' : 2 ^ 64 - 2 ^ 30 ≤ v.toNat
  · have hzero : gigaEnd v = 0 := by
      apply BitVec.eq_of_toNat_eq
      rw [hb, show (0 : Uintptr).toNat = 0 from rfl]
      omega
    refine ⟨1, .single rfl (.inl hzero), fun _ => ⟨?_, hzero⟩, fun h => ?_⟩
    · unfold topPages
      omega
    · omega
  · refine ⟨((gigaEnd v).toNat - v.toNat) / 4096,
      .whole hv (by omega) (by omega) (by omega) (by omega) (by omega),
      fun h => absurd h hv', fun _ => ⟨?_, ?_⟩⟩
    · unfold topPages
      omega
    · apply BitVec.eq_of_toNat_eq
      rw [toNat_page (by omega)]
      omega

/-- They go through the last root entry, ... -/
theorem TurnPages.rootSlot {v : Uintptr} {k : Nat} (hk : TurnPages v k)
    (htop : 2 ^ 64 - 2 ^ 39 ≤ v.toNat) : ∀ w ∈ pagesFrom v k, slots [pml4Upper] w = [511] := by
  intro w hw
  have hsame : slots [pml4Upper] w = slots [pml4Upper] v :=
    slots_eq (by simp [pml4Upper]) (hk.spans.sameBlock hw)
  rw [hsame]
  exact congrArg (fun i => [i]) (ptlIndex_top htop)

/-- ... and so do all the pages up to the top. -/
theorem ptlIndex_topPages {v w : Uintptr} (hv : v.toNat % 4096 = 0)
    (htop : 2 ^ 64 - 2 ^ 39 ≤ v.toNat) (hw : w ∈ pagesFrom v (topPages v)) :
    ptlIndex 39 w = 511 := by
  obtain ⟨i, hi, rfl⟩ := mem_pagesFrom hw
  have hfit := topPages_fit hv
  apply ptlIndex_top
  rw [toNat_page (by omega)]
  omega

/-! ### The walk inside the table -/

section Walk

variable {env : WalkEnv σ} {free : σ → PageIdx → Prop} {hist : σ → List PageIdx → Prop}
  {root t e : Uintptr}

/-- A turn inside the table maps its pages. -/
theorem rangeTurn_top (hsup : Supplies env.pacc free hist) (ha : Answers env.mapped)
    {v : Uintptr} {k : Nat} {s : Machine σ} (h : Ready free root s)
    (ht : tableOf s.mem root [511] = some t) (htop : 2 ^ 64 - 2 ^ 39 ≤ v.toNat)
    (hk : TurnPages v k) (hlt : gigaEnd v < e) :
    rangeTurn pdp3Level mapPdp3Range env e ⟨v, e - v, ⟨t, ptlIndex 30 v⟩, s⟩ = (do
      let (r, s) ← mapPagesFrom env [pdp3Upper, pde2Upper] t (pagesFrom v k) s
      if r ≠ 0 then return .inr (r, s)
      return .inl ⟨gigaEnd v, e - gigaEnd v, ⟨t, (ptlIndex 30 v).val + 1⟩, s⟩) := by
  have hta := h.wf.addr [511] t (by simp) ht
  obtain ⟨vs, hcons⟩ : ∃ vs, pagesFrom v k = v :: vs := by
    obtain ⟨c, rfl⟩ : ∃ c, k = c + 1 := ⟨k - 1, by have := hk.spans.pos; omega⟩
    exact ⟨_, by rw [pagesFrom]⟩
  have hbound : (pdp3Level : RangeLevel σ).boundary v < e := hlt
  rw [rangeTurn_boundary hbound]
  cases hens : ensureEntry (pdp3Level : RangeLevel σ).populate env ⟨t, ptlIndex 30 v⟩ s with
  | error f =>
      rw [hcons, @mapPagesFrom_ensure_error _ env [pde2Upper] pdp3Upper t v vs s f hens]
      rfl
  | ok x =>
      obtain ⟨r1, s1⟩ := x
      obtain ⟨h1, hg, -, -, hres⟩ := ensureEntry_spec hsup ha
        (refers_of_mem (l := pdp3Upper) (by simp [upperLevels])) h (q := [511]) (by simp) ht hens
      rw [hcons, @mapPagesFrom_ensure _ env ha [pde2Upper] pdp3Upper t v vs s s1 r1 hta hens hres,
        ← hcons]
      rcases hres with ⟨rfl, hpres⟩ | rfl
      · have ht1 := hg.tableOf [511] t (by simp) ht
        have hblock := (mapsBlock_mapPdp3Range hsup ha).chunk hsup ha rfl
          (by simp [pml4Upper, pdp3Upper]) h1 ht1 (hk.rootSlot htop v (by rw [hcons]; simp)) (by simp)
          hpres hk.spans
        have hchunk : mapPdp3Range env ⟨t, ptlIndex 30 v⟩ v (gigaEnd v) s1
          = mapPagesFrom env [pdp3Upper, pde2Upper] t (pagesFrom v k) s1 := hblock
        rw [Loop.ok_bind, if_neg (by simp)]
        dsimp only
        rw [if_neg (by simp)]
        show mapPdp3Range env ⟨t, ptlIndex 30 v⟩ v (gigaEnd v) s1 >>= _ = _
        rw [hchunk]
        cases hrun : mapPagesFrom env [pdp3Upper, pde2Upper] t (pagesFrom v k) s1 with
        | error f => rfl
        | ok y =>
            obtain ⟨r2, s2⟩ := y
            obtain ⟨gs, hgs⟩ := @mapPagesFrom_spec _ env free hist root hsup ha
              [pdp3Upper, pde2Upper] [pml4Upper] rfl [511] t _ s1 r2 s2 h1 ht1 (hk.rootSlot htop) hrun
            rcases hgs.result with ⟨rfl, -⟩ | ⟨rfl, -⟩
            · rfl
            · rfl
      · rfl

/-- The walk from `v` to the end of the table: it maps the pages up to the top, and then
goes on behind. -/
theorem run_top (hsup : Supplies env.pacc free hist) (ha : Answers env.mapped)
    (he : 2 ^ 64 - 2 ^ 30 ≤ e.toNat) :
    ∀ (g n : Nat) (v : Uintptr) (s : Machine σ), Ready free root s →
      tableOf s.mem root [511] = some t → v.toNat % 4096 = 0 → 2 ^ 64 - 2 ^ 39 ≤ v.toNat →
      (2 ^ 64 - 2 ^ 30 ≤ v.toNat ∨ 2 ^ 64 - 2 ^ 30 < e.toNat) → (ptlIndex 30 v).val + g = 511 →
      Loop.run .diverges (rangeTurn pdp3Level mapPdp3Range env e) (n + (g + 1))
          ⟨v, e - v, ⟨t, ptlIndex 30 v⟩, s⟩ = (do
        let (r, s) ← mapPagesFrom env [pdp3Upper, pde2Upper] t (pagesFrom v (topPages v)) s
        if r ≠ 0 then return (r, s)
        Loop.run .diverges (rangeTurn pdp3Level mapPdp3Range env e) n
          ⟨0, e - 0, ⟨t, 512⟩, s⟩) := by
  -- The induction is on the gigabytes that are left below the last one.
  intro g
  induction g with
  | zero =>
      intro n v s h ht hv htop hreach hidx
      obtain ⟨k, hk⟩ := exists_turnPages hv htop
      have hi := ptlIndex_val 30 v
      have hvlt := v.isLt
      -- The last turn ends at address 0, which is below any end.
      obtain ⟨hcount, hzero⟩ := hk.last (by omega)
      have hlt : gigaEnd v < e := by
        rw [hzero, BitVec.lt_def, show (0 : Uintptr).toNat = 0 from rfl]
        omega
      have hturn := rangeTurn_top hsup ha h ht htop hk hlt
      rw [hcount] at hturn
      cases hrun : mapPagesFrom env [pdp3Upper, pde2Upper] t (pagesFrom v (topPages v)) s with
      | error f =>
          rw [hrun] at hturn
          exact Loop.run_error hturn
      | ok x =>
          obtain ⟨r, s1⟩ := x
          rw [hrun, Loop.ok_bind] at hturn
          rw [Loop.ok_bind]
          dsimp only at hturn ⊢
          by_cases hr : r = 0
          · rw [if_neg (not_not.mpr hr)] at hturn ⊢
            rw [Loop.run_continue hturn, hzero, show (ptlIndex 30 v).val + 1 = 512 by omega]
          · rw [if_pos hr] at hturn ⊢
            exact Loop.run_exit hturn
  | succ g ih =>
      intro n v s h ht hv htop hreach hidx
      obtain ⟨k, hk⟩ := exists_turnPages hv htop
      have hb := toNat_gigaEnd v
      have hi := ptlIndex_val 30 v
      have hi' := ptlIndex_val 30 (gigaEnd v)
      have hvlt := v.isLt
      obtain ⟨hcount, hnext⟩ := hk.go (by omega)
      have hlt : gigaEnd v < e := by
        rw [BitVec.lt_def]
        omega
      -- One turn maps the rest of this gigabyte, and the induction goes on at the next one.
      have hturn := rangeTurn_top hsup ha h ht htop hk hlt
      rw [hcount, pagesFrom_add, ← hnext, mapPagesFrom_append]
      cases hrun : mapPagesFrom env [pdp3Upper, pde2Upper] t (pagesFrom v k) s with
      | error f =>
          rw [hrun] at hturn
          exact Loop.run_error hturn
      | ok x =>
          obtain ⟨r, s1⟩ := x
          rw [hrun, Loop.ok_bind] at hturn
          rw [Loop.ok_bind]
          dsimp only at hturn ⊢
          by_cases hr : r = 0
          · rw [if_neg (not_not.mpr hr)] at hturn ⊢
            obtain ⟨gs, hgs⟩ := @mapPagesFrom_spec _ env free hist root hsup ha
              [pdp3Upper, pde2Upper] [pml4Upper] rfl [511] t _ s r s1 h ht (hk.rootSlot htop) hrun
            have hrest := ih n (gigaEnd v) s1 hgs.ready (hgs.grows.tableOf [511] t (by simp) ht)
              (by omega) (by omega) (by omega) (by omega)
            rw [← hrest, Nat.add_succ, Loop.run_continue hturn,
              show (ptlIndex 30 v).val + 1 = (ptlIndex 30 (gigaEnd v)).val by omega]
          · rw [if_pos hr] at hturn ⊢
            rw [show (pure (r, s1) : Except Fault (Status × Machine σ)) = .ok (r, s1) from rfl,
              Loop.ok_bind]
            dsimp only
            rw [if_pos hr]
            exact Loop.run_exit hturn

/-- `map_pml4_range` on such a range, with the table in place. -/
theorem mapPml4Range_top (hsup : Supplies env.pacc free hist) (ha : Answers env.mapped)
    {s : Machine σ} (h : Ready free root s) (ht : tableOf s.mem root [511] = some t)
    {v : Uintptr} (hv : v.toNat % 4096 = 0) (hle : v.toNat ≤ e.toNat) (hover : Overruns v e) :
    ∃ n, 0 < n ∧ mapPml4Range env ⟨root, (511 : Fin 512)⟩ v e s = (do
      let (r, s) ← mapPagesFrom env upperLevels root (pagesFrom v (topPages v)) s
      if r ≠ 0 then return (r, s)
      Loop.run .diverges (rangeTurn pdp3Level mapPdp3Range env e) n ⟨0, e - 0, ⟨t, 512⟩, s⟩) := by
  obtain ⟨htop, hreach⟩ := hover
  have hidx := (ptlIndex 30 v).isLt
  -- The loop has turns left when it comes to the end of the table.
  obtain ⟨k, hk⟩ : ∃ k, TURNS = k + 1 + (511 - (ptlIndex 30 v).val + 1) :=
    ⟨TURNS - (511 - (ptlIndex 30 v).val + 1) - 1, by unfold TURNS; omega⟩
  have hloop := @run_top _ env free hist root t e hsup ha (by omega) (511 - (ptlIndex 30 v).val)
    (k + 1) v s h ht hv htop hreach (by omega)
  rw [← hk] at hloop
  have hentry := ht
  rw [tableOf_single] at hentry
  obtain ⟨hpres, htable⟩ := entryTable_eq_some.mp hentry
  -- All pages go through the entry of the last 512 GB.
  have hpages := @mapPagesFrom_present _ env free hist root hsup ha [] [pdp3Upper, pde2Upper]
    pml4Upper rfl [] root 511 (pagesFrom v (topPages v)) s h rfl
    (fun w hw => ⟨rfl, ptlIndex_topPages hv htop hw⟩) (by simp) hpres
  refine ⟨k + 1, by omega, ?_⟩
  rw [mapPml4Range, mapTableRange, readEntry_slot ha _ h.wf.tableAddr_root, Loop.ok_bind,
    upperLevels, hpages, htable]
  exact hloop

/-- The way on behind the table `t` of the last 512 GB, with `n` turns left: from address
zero to the end of the range. -/
def walkBeyond (env : WalkEnv σ) (t e : Uintptr) (n : Nat) (s : Machine σ) :
    Except Fault (Status × Machine σ) := do
  let (r, s) ← Loop.run .diverges (rangeTurn pdp3Level mapPdp3Range env e) n
    ⟨0, e - 0, ⟨t, 512⟩, s⟩
  if r ≠ 0 then return (-ENOMEM, s)
  return (0, s)

/-- The body of `mm_map_pages` on a range that runs over: it maps the pages up to the top,
and goes on behind them if they are mapped. -/
theorem mapAccepted_top (hsup : Supplies env.pacc free hist) (ha : Answers env.mapped)
    {s : Machine σ} (h : Ready free root s) {v : Uintptr} (hv : v.toNat % 4096 = 0)
    (hle : v.toNat ≤ e.toNat) (hover : Overruns v e) :
    ∃ t n, 0 < n ∧
      (∀ s1, mapPagesFrom env upperLevels root (pagesFrom v (topPages v)) s = .ok (0, s1) →
        tableOf s1.mem root [511] = some t) ∧
      mapAccepted env ⟨root⟩ v e s = (do
        let (r, s) ← mapPagesFrom env upperLevels root (pagesFrom v (topPages v)) s
        if r ≠ 0 then return (-ENOMEM, s)
        walkBeyond env t e n s) := by
  have htop := hover.1
  have hidx : ptlIndex pml4Upper.shift v = 511 := ptlIndex_top htop
  have hta := h.wf.tableAddr_root
  have hpages : pagesFrom v (topPages v) = v :: pagesFrom (v + 4096) (topPages v - 1) := by
    rw [show topPages v = topPages v - 1 + 1 by unfold topPages; omega, pagesFrom]
    rfl
  rw [mapAccepted_aligned hv, l4ToAddr_of_overruns hv hover, ptlIndex_top htop]
  cases hens : ensureEntry (populateEntry pml4Upper.fields) env ⟨root, (511 : Fin 512)⟩ s with
  | error f =>
      rw [← hidx] at hens
      have hfail : mapPagesFrom env upperLevels root _ s = _ :=
        @mapPagesFrom_ensure_error _ env [pdp3Upper, pde2Upper] pml4Upper root v
          (pagesFrom (v + 4096) (topPages v - 1)) s f hens
      rw [← hpages] at hfail
      refine ⟨0, 1, by omega, fun s1 hrun => ?_, ?_⟩
      · rw [hfail] at hrun
        cases hrun
      · rw [hfail]
        rfl
  | ok x =>
      obtain ⟨r1, s1⟩ := x
      obtain ⟨h1, -, -, -, hres⟩ := ensureEntry_spec hsup ha
        (refers_of_mem (l := pml4Upper) (by simp [upperLevels])) h (q := []) (by simp) rfl hens
      rw [← hidx] at hens hres
      have hsplit : mapPagesFrom env upperLevels root _ s = _ :=
        @mapPagesFrom_ensure _ env ha [pdp3Upper, pde2Upper] pml4Upper root v
          (pagesFrom (v + 4096) (topPages v - 1)) s s1 r1 hta hens hres
      rw [← hpages] at hsplit
      rw [hsplit]
      rcases hres with ⟨rfl, hpres⟩ | rfl
      · have ht1 : tableOf s1.mem root [511] = some (slotEntry s1.mem root 511).table := by
          rw [tableOf_single]
          exact entryTable_of_present (hidx ▸ hpres)
        obtain ⟨n, hn, hwalk⟩ := mapPml4Range_top hsup ha h1 ht1 hv hle hover
        refine ⟨(slotEntry s1.mem root 511).table, n, hn, fun s2 hrun => ?_, ?_⟩
        · rw [if_neg (by simp)] at hrun
          obtain ⟨gs, hgs⟩ := mapPagesFrom_visits hsup ha h1 hrun
          exact hgs.grows.tableOf [511] _ (by simp) ht1
        · rw [if_neg (by simp), Loop.ok_bind]
          dsimp only
          rw [if_neg (by simp), hwalk,
            show [pml4Upper, pdp3Upper, pde2Upper] = upperLevels from rfl]
          cases hrun : mapPagesFrom env upperLevels root (pagesFrom v (topPages v)) s1 with
          | error f => rfl
          | ok y =>
              obtain ⟨r2, s2⟩ := y
              obtain ⟨gs, hgs⟩ := mapPagesFrom_visits hsup ha h1 hrun
              rcases hgs.result with ⟨rfl, -⟩ | ⟨rfl, -⟩
              · rfl
              · rfl
      · refine ⟨0, 1, by omega, fun s1 hrun => ?_, ?_⟩
        · rw [if_pos neg_ENOMEM_ne_zero] at hrun
          cases hrun
        · rw [if_pos neg_ENOMEM_ne_zero]
          rfl

/-- A call that runs over: it maps the pages up to the top, and goes on behind the table
of the last 512 GB if they are mapped. -/
theorem mmMapPages_top {pacc : PageFrameAccessor σ} {mapped : EntryPtr → Bool}
    {virt n : Uintptr} {flags : PageFlags} (hsup : Supplies pacc free hist) (ha : Answers mapped)
    {s : Machine σ} (h : Ready free root s) (hrefused : ¬ Refused ⟨root⟩ virt n)
    (hover : Overruns (virt &&& PAGE_ADDR_MASK) (virt + n * PAGE_SIZE)) :
    ∃ t k, 0 < k ∧
      (∀ s1, mapPagesFrom ⟨mapped, pacc, flags⟩ upperLevels root
          (pagesFrom (virt &&& PAGE_ADDR_MASK) (topPages (virt &&& PAGE_ADDR_MASK))) s
            = .ok (0, s1) → tableOf s1.mem root [511] = some t) ∧
      mmMapPages mapped (some ⟨root⟩) (some pacc) virt n flags s = (do
        let (r, s) ← mapPagesFrom ⟨mapped, pacc, flags⟩ upperLevels root
          (pagesFrom (virt &&& PAGE_ADDR_MASK) (topPages (virt &&& PAGE_ADDR_MASK))) s
        if r ≠ 0 then return (-ENOMEM, s)
        walkBeyond ⟨mapped, pacc, flags⟩ t (virt + n * PAGE_SIZE) k s) := by
  rw [mmMapPages, if_neg hrefused, ← mapAccepted_page]
  exact @mapAccepted_top _ ⟨mapped, pacc, flags⟩ _ _ _ _ hsup ha s h _ (page_aligned virt)
    (page_le_end hrefused) hover

end Walk

end MString
