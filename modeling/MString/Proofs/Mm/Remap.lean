import MString.Mm.Remap
import MString.Proofs.Mm.Counts

/-!
# `MString.Proofs.Mm.Remap`: the kernel maps its memory

`mmMapPages_delivers` says that a call of `mm_map_pages` with the linear accessor
succeeds unless the allocator runs dry, and `linearMapped_visited` what it leaves
behind: consecutive pages get consecutive frames. `verifyMapping_eq_ok` says that
the read back checks just that.

`archRemapMemory_iff` puts the two calls together. Above 1 GB of memory the second
one runs over the end of the address space.
-/

set_option autoImplicit false

namespace MString

variable {κ : Type}

/-- An allocator that hands out a page on every call, or is exhausted. -/
structure NeverRefuses (alloc : PageAllocator κ) : Prop where
  refuses : ∀ {flags clean s s'}, alloc flags clean s ≠ .ok (none, s')
  fails : ∀ {flags clean s e}, alloc flags clean s = .error e → e = .exhausted

/-! ### Reading back -/

/-- `verify_mapping` accepts a range exactly when the tables translate each page of it to its
frame. -/
theorem verifyMapping_eq_ok {mapped : EntryPtr → Bool} {m : Mem} {root : Uintptr}
    (ha : Answers mapped) (hwf : WellFormed m root) :
    ∀ (n : Nat) (ptr : Uintptr) (idx : PageIdx),
      verifyMapping mapped m ⟨root⟩ n ptr idx = .ok () ↔
        ∀ i, i < n → translate m root (ptr + BitVec.ofNat 64 (4096 * i))
          = idx + BitVec.ofNat 32 i := by
  intro n
  induction n with
  | zero => intro ptr idx; exact ⟨fun _ i hi => absurd hi (by omega), fun _ => rfl⟩
  | succ n ih =>
      intro ptr idx
      rw [verifyMapping, mmPinVirtualAddress_eq ha hwf, Loop.ok_bind]
      have hnext : ∀ i, translate m root (ptr + BitVec.ofNat 64 (4096 * (i + 1)))
            = idx + BitVec.ofNat 32 (i + 1) ↔
          translate m root (ptr + PAGE_SIZE + BitVec.ofNat 64 (4096 * i))
            = idx + 1 + BitVec.ofNat 32 i := fun i => by
        rw [show ptr + PAGE_SIZE + BitVec.ofNat 64 (4096 * i)
            = ptr + BitVec.ofNat 64 (4096 * (i + 1)) by
          apply BitVec.eq_of_toNat_eq
          rw [BitVec.toNat_add, BitVec.toNat_add, BitVec.toNat_add, BitVec.toNat_ofNat,
            BitVec.toNat_ofNat, show PAGE_SIZE.toNat = 4096 from rfl]
          omega]
        rw [show idx + 1 + BitVec.ofNat 32 i = idx + BitVec.ofNat 32 (i + 1) by
          rw [Nat.add_comm i 1, BitVec.ofNat_add, BitVec.add_assoc]
          rfl]
      -- The first page is compared here, the others by the recursion.
      by_cases hz : translate m root ptr = idx
      · rw [if_neg (by simpa using hz), ih]
        constructor
        · intro h i hi
          cases i with
          | zero => simpa using hz
          | succ i => exact (hnext i).mpr (h i (by omega))
        · exact fun h i hi => (hnext i).mp (h (i + 1) (by omega))
      · rw [if_pos hz]
        constructor
        · intro h
          cases h
        · intro h
          exact absurd (by simpa using h 0 (by omega)) hz

/-! ### One linear mapping -/

/-- An accessor with frames to yield, over an allocator that never refuses. -/
structure Delivers {σ : Type} (pacc : PageFrameAccessor σ) : Prop where
  next : ∀ {c e}, pacc.nextFrame c ≠ .error e
  refuses : ∀ {flags s s'}, pacc.allocPage flags true s ≠ .ok (none, s')
  fails : ∀ {flags s e}, pacc.allocPage flags true s = .error e → e = .exhausted

/-- A linear accessor never runs dry, so it delivers when its allocator never refuses. -/
theorem delivers_linearPa {alloc : PageAllocator κ} (h : NeverRefuses alloc) :
    Delivers (pageaccsLinearPa alloc) where
  next := fun hrun => by cases hrun
  refuses := by
    intro flags s s' hrun
    obtain ⟨x, halloc, hx⟩ := Loop.exists_of_bind hrun
    obtain ⟨pf, t⟩ := x
    cases hx
    exact h.refuses halloc
  fails := by
    intro flags s e hrun
    simp only [pageaccsLinearPa, pageaccsAllocPageStub] at hrun
    cases halloc : alloc flags true ⟨s.mem, s.ctx.2⟩ with
    | error f =>
        simp only [halloc, bind, Except.bind, Except.error.injEq] at hrun
        exact hrun ▸ h.fails halloc
    | ok x => simp [halloc, bind, Except.bind, pure, Except.pure] at hrun

section Linear

variable {σ : Type} {env : WalkEnv σ} {free : σ → PageIdx → Prop}
  {hist : σ → List PageIdx → Prop} {root : Uintptr}

/-- Success, or an exhausted allocator. -/
def DoneOrExhausted (x : Except Fault (Status × Machine σ)) : Prop :=
  x = .error .exhausted ∨ ∃ s', x = .ok (0, s')

/-- Making sure of an entry is done, or the allocator was exhausted. -/
theorem ensureEntry_delivers (hd : Delivers env.pacc) (ha : Answers env.mapped)
    (fields : Uintptr → TlbEntry → TlbEntry) {t : Uintptr} (hta : TableAddr t) (i : Fin 512)
    (s : Machine σ) : DoneOrExhausted (ensureEntry (populateEntry fields) env ⟨t, i⟩ s) := by
  rw [ensureEntry, readEntry_slot ha _ hta, Loop.ok_bind]
  cases hpres : (slotEntry s.mem t i).present with
  | true => exact .inr ⟨s, rfl⟩
  | false =>
      simp only [Bool.false_eq_true, if_false, populateEntry]
      cases halloc : env.pacc.allocPage env.flags true s with
      | error e =>
          rw [hd.fails halloc]
          exact .inl rfl
      | ok x =>
          obtain ⟨o, s1⟩ := x
          cases o with
          | none => exact absurd halloc hd.refuses
          | some pf =>
              refine .inr ⟨⟨s1.mem.set (EntryPtr.mk t i).addr
                (fields (pf.setWidth 64) (slotEntry s1.mem t i)), s1.ctx⟩, ?_⟩
              simp only [Loop.ok_bind, readEntry_slot ha _ hta, writeEntry_slot ha _ hta, pure,
                Except.pure]

/-- One page. -/
theorem mapPageFrom_delivers (hsup : Supplies env.pacc free hist) (hd : Delivers env.pacc)
    (ha : Answers env.mapped) (v : Uintptr) :
    ∀ (ls pre : List Level) (t : Uintptr) (s : Machine σ), pre ++ ls = upperLevels →
      Ready free root s → tableOf s.mem root (slots pre v) = some t →
      DoneOrExhausted (mapPageFrom env v ls t s) := by
  intro ls
  -- The induction is on the levels below the table.
  induction ls with
  | nil =>
      intro pre t s hpre h ht
      rw [List.append_nil] at hpre
      rw [hpre, slots_upperLevels] at ht
      have hta := h.wf.addr _ t (by simp [path]) ht
      cases hnext : env.pacc.nextFrame s.ctx with
      | error e => exact absurd hnext hd.next
      | ok x =>
          exact .inr ⟨_, mapPageFrom_nil ha hta hnext⟩
  | cons l ls ih =>
      intro pre t s hpre h ht
      have hlen := length_above hpre
      have hl := mem_levels hpre
      have hta := h.wf.addr _ t (by simp; omega) ht
      rcases ensureEntry_delivers hd ha l.fields hta (ptlIndex l.shift v) s with hens | ⟨s1, hens⟩
      · left
        simp only [mapPageFrom, hens, Loop.error_bind]
      · obtain ⟨h1, hg, -, -, hr⟩ :=
          ensureEntry_spec hsup ha (refers_of_mem hl) h (by simpa using hlen) ht hens
        have hpres : (slotEntry s1.mem t (ptlIndex l.shift v)).present = true := by
          rcases hr with ⟨-, hpres⟩ | hr
          · exact hpres
          · exact absurd hr.symm neg_ENOMEM_ne_zero
        have ht1 := hg.tableOf _ t (by simp; omega) ht
        have hnext := tableOf_slots_concat ht1 hpres
        rw [mapPageFrom_cons ha hta ls hens]
        exact ih (pre ++ [l]) _ s1 (by simpa using hpre) h1 hnext

/-- A list of pages. -/
theorem mapPagesFrom_delivers (hsup : Supplies env.pacc free hist) (hd : Delivers env.pacc)
    (ha : Answers env.mapped) :
    ∀ (vs : List Uintptr) (s : Machine σ), Ready free root s →
      DoneOrExhausted (mapPagesFrom env upperLevels root vs s) := by
  intro vs
  induction vs with
  | nil => intro s _; exact .inr ⟨s, rfl⟩
  | cons v vs ih =>
      intro s h
      rcases mapPageFrom_delivers hsup hd ha v upperLevels [] root s rfl h rfl with
        hpage | ⟨s1, hpage⟩
      · left
        simp only [mapPagesFrom, hpage, Loop.error_bind]
      · have h1 := mapPageFrom_spec hsup ha v upperLevels [] root s 0 s1 rfl h rfl hpage
        rw [mapPagesFrom_cons vs hpage]
        exact ih s1 h1.ready

end Linear

/-- What a linear mapping leaves behind: the pages of the range are translated to
consecutive frames, and the other pages as before. -/
structure LinearMapped (free : κ → PageIdx → Prop) (root virt : Uintptr) (n : Nat)
    (first : PageIdx) (s s' : Machine (LinearPaCtx × κ)) : Prop where
  ready : Ready (fun c => free c.2) root s'
  inside : ∀ i, i < n → translate s'.mem root (virt + BitVec.ofNat 64 (4096 * i))
    = first + BitVec.ofNat 32 i
  outside : ∀ w, (∀ i, i < n → pageOf w ≠ pageOf (virt + BitVec.ofNat 64 (4096 * i))) →
    translate s'.mem root w = translate s.mem root w

section Call

variable {alloc : PageAllocator κ} {free : κ → PageIdx → Prop} {root virt n : Uintptr}
  {flags : PageFlags} {s : Machine (LinearPaCtx × κ)}

/-- A successful call with the linear accessor maps the pages it visits. -/
theorem linearMapped_visited (halloc : Allocates alloc free) {first : PageIdx}
    (hfirst : s.ctx.1.currPage = first) (h : Ready (fun c => free c.2) root s)
    (hvirt : virt.toNat % 4096 = 0) (hrefused : ¬ Refused ⟨root⟩ virt n)
    (hover : ¬ Overruns virt (virt + n * PAGE_SIZE)) (hn : n.toNat < 2 ^ 36)
    {s' : Machine (LinearPaCtx × κ)}
    (hrun : mmMapPages kernelWindow (some ⟨root⟩) (some (pageaccsLinearPa alloc)) virt n flags s
      = .ok (0, s')) :
    LinearMapped free root virt (visited virt (virt + n * PAGE_SIZE)) first s s' := by
  obtain ⟨gs, hgs⟩ := mmMapPages_spec (supplies_linearPa halloc first) answers_kernelWindow h
    hvirt hrefused hover hrun
  -- As many frames have been drawn as there are pages.
  have hlen : gs.length = visited virt (virt + n * PAGE_SIZE) := by
    rcases hgs.result with ⟨-, hlen⟩ | ⟨hr, -⟩
    · rw [hlen, length_pagesFrom]
    · exact absurd hr.symm neg_ENOMEM_ne_zero
  have hhist : LinearHist first s'.ctx gs := by
    simpa using hgs.history [] (linearHist_start hfirst)
  have hend := toNat_end hrefused (by omega)
  have hlt := (virt + n * PAGE_SIZE).isLt
  have hvis := visited_eq hvirt hrefused (by omega) fun h0 => hrefused (.inr (.inl h0))
  -- There may be fewer pages than were asked for, where the first root entry ends.
  have hle : visited virt (virt + n * PAGE_SIZE) ≤ n.toNat := by
    rw [hvis]
    split <;> omega
  refine ⟨hgs.ready, fun i hi => ?_, fun w hw => ?_⟩
  · have hi' : i < gs.length := by omega
    rw [hgs.mapped (nodup_pagesFrom (by omega) (by omega)) i _ gs[i] (getElem?_pagesFrom virt hi)
      (List.getElem?_eq_getElem hi')]
    exact hhist.2 i gs[i] (List.getElem?_eq_getElem hi')
  · apply hgs.frame
    intro v hv
    obtain ⟨i, hi, rfl⟩ := mem_pagesFrom (List.mem_of_mem_take hv)
    exact hw i hi

/-- Without a refusal by the allocator, the call succeeds or the allocator is
exhausted. -/
theorem mmMapPages_delivers (halloc : Allocates alloc free) (hnr : NeverRefuses alloc)
    (h : Ready (fun c => free c.2) root s) (hvirt : virt.toNat % 4096 = 0)
    (hrefused : ¬ Refused ⟨root⟩ virt n) (hover : ¬ Overruns virt (virt + n * PAGE_SIZE)) :
    DoneOrExhausted
      (mmMapPages kernelWindow (some ⟨root⟩) (some (pageaccsLinearPa alloc)) virt n flags s) := by
  have hpage := and_pageMask_of_aligned hvirt
  rw [mmMapPages_eq (supplies_linearPa halloc 0) answers_kernelWindow h hrefused
    (by rwa [hpage])]
  exact @mapPagesFrom_delivers _ ⟨kernelWindow, pageaccsLinearPa alloc, flags⟩ _ _ _
    (supplies_linearPa halloc 0) (delivers_linearPa hnr) answers_kernelWindow _ s h

end Call

/-! ### The two calls -/

/-- Memory as `arch_remap_memory` finds it: an empty root in the kernel window, and
an allocator that holds low frames other than the root's. -/
structure BootMemory (free : κ → PageIdx → Prop) (kEntries : Uintptr) (s : Machine κ) : Prop where
  root : TableAddr kEntries
  empty : ∀ i, (slotEntry s.mem kEntries i).present = false
  low : ∀ pf, free s.ctx pf → LowFrame pf
  fresh : ∀ pf, free s.ctx pf → pframeToVirt pf ≠ kEntries

/-- The mappings that `arch_remap_memory` is there for. -/
structure Remapped (m : Mem) (kEntries : Uintptr) (dmaPages totalPages : PageIdx) : Prop where
  kernel : ∀ i, i < totalPages.toNat → mmPinVirtualAddress kernelWindow m ⟨kEntries⟩
    (KERNEL_BASE + BitVec.ofNat 64 (4096 * i)) = .ok (BitVec.ofNat 32 i)
  dma : ∀ i, 1 ≤ i → i < dmaPages.toNat → mmPinVirtualAddress kernelWindow m ⟨kEntries⟩
    (BitVec.ofNat 64 (4096 * i)) = .ok (BitVec.ofNat 32 i)

section Boot

variable {alloc : PageAllocator κ} {free : κ → PageIdx → Prop} {kEntries : Uintptr}
  {dmaPages totalPages : PageIdx} {s : Machine κ}

/-- An empty root is fit for a mapping, whatever the accessor's own cursor is. -/
theorem BootMemory.ready (h : BootMemory free kEntries s) (c : LinearPaCtx) :
    Ready (fun c => free c.2) kEntries ⟨s.mem, (c, s.ctx)⟩ where
  wf := wellFormed_of_empty h.root h.empty
  low := h.low
  fresh := fun pf hpf _ _ ht => h.fresh pf hpf (tableOf_of_empty h.empty ht).2

/-- And it translates no address. -/
theorem BootMemory.not_translated (h : BootMemory free kEntries s) (w : Uintptr) :
    translate s.mem kEntries w = INVALID_PAGE_IDX := by
  unfold translate
  cases ht : tableOf s.mem kEntries (path w) with
  | none => rfl
  | some t => exact absurd (tableOf_of_empty h.empty ht).1 (by simp [path])

/-- The count that the first call is given. -/
theorem dma_count (dmaPages : PageIdx) :
    ((dmaPages - 1).setWidth 64 : Uintptr).toNat = (dmaPages - 1).toNat ∧
      (dmaPages - 1).toNat = (dmaPages.toNat + 2 ^ 32 - 1) % 2 ^ 32 := by
  have hd := dmaPages.isLt
  have hsub : (dmaPages - 1).toNat = (dmaPages.toNat + 2 ^ 32 - 1) % 2 ^ 32 := by
    rw [BitVec.toNat_sub, show (1 : PageIdx).toNat = 1 from rfl]
    omega
  refine ⟨?_, hsub⟩
  rw [BitVec.toNat_setWidth]
  omega

/-- The first call is made for at least one page, unless the zone is page zero alone. -/
theorem BootMemory.dma_accepted (h : BootMemory free kEntries s) (hone : dmaPages ≠ 1) :
    ¬ Refused ⟨kEntries⟩ 0x1000 ((dmaPages - 1).setWidth 64) ∧
      ¬ Overruns 0x1000 (0x1000 + (dmaPages - 1).setWidth 64 * PAGE_SIZE) := by
  have hv : (0x1000 : Uintptr).toNat = 0x1000 := rfl
  have hd := dmaPages.isLt
  obtain ⟨hn, hsub⟩ := dma_count dmaPages
  refine ⟨h.root.not_refused (by decide) (fun h0 => ?_) (by omega), fun ho => ?_⟩
  · have hne : dmaPages.toNat ≠ 1 := fun h1 => hone (BitVec.eq_of_toNat_eq h1)
    rw [h0, show (0 : Uintptr).toNat = 0 from rfl] at hn
    omega
  · have := ho.1
    omega

/-- The first call, when it succeeds. -/
theorem dma_mapped (halloc : Allocates alloc free) (hboot : BootMemory free kEntries s)
    (hone : dmaPages ≠ 1) {t : Machine (LinearPaCtx × κ)}
    (hrun : mmMapPages kernelWindow (some ⟨kEntries⟩) (some (pageaccsLinearPa alloc)) 0x1000
      ((dmaPages - 1).setWidth 64) 0 ⟨s.mem, (linearPaReset ⟨1, totalPages, 0⟩, s.ctx)⟩
        = .ok (0, t)) :
    LinearMapped free kEntries 0x1000 (min (dmaPages - 1).toNat (2 ^ 27 - 1)) 1
      ⟨s.mem, (linearPaReset ⟨1, totalPages, 0⟩, s.ctx)⟩ t := by
  have hv : (0x1000 : Uintptr).toNat = 0x1000 := rfl
  obtain ⟨hn, hsub⟩ := dma_count dmaPages
  obtain ⟨hrefused, hover⟩ := hboot.dma_accepted hone
  have hn0 : ((dmaPages - 1).setWidth 64 : Uintptr) ≠ 0 := fun h0 => hrefused (.inr (.inl h0))
  have hmap := linearMapped_visited halloc rfl (hboot.ready _) (by decide) hrefused hover
    (by omega) hrun
  rw [visited_eq (by decide) hrefused (by omega) hn0, hn, hv] at hmap
  exact hmap

/-- The pages of the second call. -/
theorem kernel_range (htotal : totalPages.toNat ≤ 2 ^ 19) :
    ((totalPages.setWidth 64 : Uintptr)).toNat = totalPages.toNat ∧
      (KERNEL_BASE + totalPages.setWidth 64 * PAGE_SIZE).toNat
        = (KERNEL_BASE.toNat + 4096 * totalPages.toNat) % 2 ^ 64 := by
  have hps : PAGE_SIZE.toNat = 4096 := rfl
  have hn : ((totalPages.setWidth 64 : Uintptr)).toNat = totalPages.toNat := by
    rw [BitVec.toNat_setWidth]
    omega
  refine ⟨hn, ?_⟩
  rw [BitVec.toNat_add, BitVec.toNat_mul, hps, hn]
  omega

/-- The second call ends with the address space, or before. -/
theorem BootMemory.kernel_accepted (h : BootMemory free kEntries s) (hpos : 0 < totalPages.toNat)
    (hfit : totalPages.toNat ≤ 2 ^ 18) :
    ¬ Refused ⟨kEntries⟩ KERNEL_BASE (totalPages.setWidth 64) ∧
      ¬ Overruns KERNEL_BASE (KERNEL_BASE + totalPages.setWidth 64 * PAGE_SIZE) := by
  have hkb : KERNEL_BASE.toNat = 0xffffffff80000000 := by decide
  obtain ⟨hn, hend⟩ := @kernel_range totalPages (by omega)
  rw [hkb] at hend
  refine ⟨h.root.not_refused (by decide) (fun h0 => ?_) (by omega), fun ho => ?_⟩
  · rw [h0, show (0 : Uintptr).toNat = 0 from rfl] at hn
    omega
  · have := ho.2
    rw [hkb] at this
    omega

/-- The second call, when it succeeds. -/
theorem kernel_mapped (halloc : Allocates alloc free) (hboot : BootMemory free kEntries s)
    (hpos : 0 < totalPages.toNat) (hfit : totalPages.toNat ≤ 2 ^ 18)
    {t u : Machine (LinearPaCtx × κ)} (hfirst : t.ctx.1.currPage = 0)
    (h : Ready (fun c => free c.2) kEntries t)
    (hrun : mmMapPages kernelWindow (some ⟨kEntries⟩) (some (pageaccsLinearPa alloc)) KERNEL_BASE
      (totalPages.setWidth 64) 0 t = .ok (0, u)) :
    LinearMapped free kEntries KERNEL_BASE totalPages.toNat 0 t u := by
  have hkb : KERNEL_BASE.toNat = 0xffffffff80000000 := by decide
  obtain ⟨hn, -⟩ := @kernel_range totalPages (by omega)
  obtain ⟨hrefused, hover⟩ := hboot.kernel_accepted hpos hfit
  have hn0 : (totalPages.setWidth 64 : Uintptr) ≠ 0 := fun h0 => hrefused (.inr (.inl h0))
  have hmap := linearMapped_visited halloc hfirst h (by decide) hrefused hover (by omega) hrun
  -- The kernel's window lies in the last 512 GB, where no page is left out.
  rw [visited_eq (by decide) hrefused (by omega) hn0, if_neg (by rw [hkb]; omega), hn] at hmap
  exact hmap

/-- The second call fails above 1 GB of memory. -/
theorem kernel_refused (halloc : Allocates alloc free) {s : Machine (LinearPaCtx × κ)}
    (h : Ready (fun c => free c.2) kEntries s) (htotal : totalPages.toNat ≤ 2 ^ 19)
    (hbig : 2 ^ 18 < totalPages.toNat) {r : Status} {t : Machine (LinearPaCtx × κ)}
    (hrun : mmMapPages kernelWindow (some ⟨kEntries⟩) (some (pageaccsLinearPa alloc)) KERNEL_BASE
      (totalPages.setWidth 64) 0 s = .ok (r, t)) : r ≠ 0 := by
  have hkb : KERNEL_BASE.toNat = 0xffffffff80000000 := by decide
  obtain ⟨hn, hend⟩ := kernel_range htotal
  rw [hkb] at hend
  by_cases hrefused : Refused ⟨kEntries⟩ KERNEL_BASE (totalPages.setWidth 64)
  · simp only [mmMapPages, if_pos hrefused, Except.ok.injEq, Prod.mk.injEq] at hrun
    rw [← hrun.1]
    exact neg_EINVAL_ne_zero
  · have hle := le_end hrefused
    rw [hkb] at hle
    rw [mmMapPages_overruns (supplies_linearPa halloc 0) h hrefused
      (by
        rw [and_pageMask_of_aligned (by decide)]
        exact ⟨by rw [hkb]; omega, by rw [hkb]; omega⟩) hrun]
    exact neg_ENOMEM_ne_zero

/-- A run that completes has made both calls and read both mappings back. -/
theorem archRemapMemory_ok {s' : Machine κ}
    (hrun : archRemapMemory kernelWindow alloc kEntries dmaPages totalPages 0 s = .ok s') :
    ∃ t u, mmMapPages kernelWindow (some ⟨kEntries⟩) (some (pageaccsLinearPa alloc)) 0x1000
        ((dmaPages - 1).setWidth 64) 0 ⟨s.mem, (linearPaReset ⟨1, totalPages, 0⟩, s.ctx)⟩
          = .ok (0, t) ∧
      verifyMapping kernelWindow t.mem ⟨kEntries⟩ (dmaPages - 1).toNat 0x1000 1 = .ok () ∧
      mmMapPages kernelWindow (some ⟨kEntries⟩) (some (pageaccsLinearPa alloc)) KERNEL_BASE
        (totalPages.setWidth 64) 0
        ⟨t.mem, (linearPaReset { t.ctx.1 with startPage := 0 }, t.ctx.2)⟩ = .ok (0, u) := by
  rw [archRemapMemory, if_pos rfl] at hrun
  obtain ⟨⟨r1, t⟩, h1, hrun⟩ := Loop.exists_of_bind hrun
  by_cases hr1 : r1 = 0
  · subst hr1
    dsimp only at hrun
    rw [if_neg (by simp)] at hrun
    obtain ⟨⟨⟩, hv, hrun⟩ := Loop.exists_of_bind hrun
    obtain ⟨⟨r2, u⟩, h2, hrun⟩ := Loop.exists_of_bind hrun
    by_cases hr2 : r2 = 0
    · subst hr2
      exact ⟨t, u, h1, hv, h2⟩
    · dsimp only at hrun
      rw [if_pos hr2] at hrun
      cases hrun
  · dsimp only at hrun
    rw [if_pos hr1] at hrun
    cases hrun

/-- A first mapping that reads back leaves a DMA zone with a page besides page zero. -/
theorem two_le_of_verified (halloc : Allocates alloc free) (hboot : BootMemory free kEntries s)
    {t : Machine (LinearPaCtx × κ)}
    (hrun : mmMapPages kernelWindow (some ⟨kEntries⟩) (some (pageaccsLinearPa alloc)) 0x1000
      ((dmaPages - 1).setWidth 64) 0 ⟨s.mem, (linearPaReset ⟨1, totalPages, 0⟩, s.ctx)⟩
        = .ok (0, t))
    (hverify : verifyMapping kernelWindow t.mem ⟨kEntries⟩ (dmaPages - 1).toNat 0x1000 1 = .ok ()) :
    2 ≤ dmaPages.toNat ∧ Ready (fun c => free c.2) kEntries t := by
  have hv : (0x1000 : Uintptr).toNat = 0x1000 := rfl
  -- For a zone of one page the first call is a call for no pages.
  have hone : dmaPages ≠ 1 := by
    rintro rfl
    have hr : Refused ⟨kEntries⟩ 0x1000 (((1 : PageIdx) - 1).setWidth 64) := .inr (.inl rfl)
    rw [mmMapPages, if_pos hr] at hrun
    simp only [Except.ok.injEq, Prod.mk.injEq] at hrun
    exact neg_EINVAL_ne_zero hrun.1
  have hmap := dma_mapped halloc hboot hone hrun
  rw [verifyMapping_eq_ok answers_kernelWindow hmap.ready.wf] at hverify
  refine ⟨?_, hmap.ready⟩
  by_contra hlt
  have hzero : dmaPages.toNat = 0 := by
    have : dmaPages.toNat ≠ 1 := fun h => hone (BitVec.eq_of_toNat_eq h)
    omega
  obtain ⟨-, hsub⟩ := dma_count dmaPages
  -- Without a page the count wraps, and the page at 512 GB is not mapped.
  have hpage := hverify (2 ^ 27 - 1) (by omega)
  have hout : ∀ i, i < min (dmaPages - 1).toNat (2 ^ 27 - 1) →
      pageOf (0x1000 + BitVec.ofNat 64 (4096 * (2 ^ 27 - 1)))
        ≠ pageOf ((0x1000 : Uintptr) + BitVec.ofNat 64 (4096 * i)) := fun i hi heq => by
    have := pageOf_page_inj (v := 0x1000) (by rw [hv]; omega) (by rw [hv]; omega) (by omega)
      (by omega) heq
    omega
  rw [hmap.outside _ hout, hboot.not_translated] at hpage
  exact absurd hpage (by decide)

/-- The second mapping leaves the first one's pages alone. -/
theorem remapped_of_mapped (hdma : 2 ≤ dmaPages.toNat) (htotal : dmaPages.toNat ≤ totalPages.toNat)
    (hfit : totalPages.toNat ≤ 2 ^ 18) {m : Machine (LinearPaCtx × κ)}
    {t t' u : Machine (LinearPaCtx × κ)}
    (h1 : LinearMapped free kEntries 0x1000 (dmaPages - 1).toNat 1 m t)
    (h2 : LinearMapped free kEntries KERNEL_BASE totalPages.toNat 0 t' u)
    (hmem : t'.mem = t.mem) :
    Remapped u.mem kEntries dmaPages totalPages where
  -- The window was mapped last.
  kernel i hi := by
    rw [mmPinVirtualAddress_eq answers_kernelWindow h2.ready.wf, h2.inside i hi]
    exact congrArg Except.ok (BitVec.zero_add _)
  dma i hi1 hi := by
    have hkb : KERNEL_BASE.toNat = 0xffffffff80000000 := by decide
    have hv : (0x1000 : Uintptr).toNat = 0x1000 := rfl
    have hpage : (BitVec.ofNat 64 (4096 * i)).toNat = 4096 * i := by
      rw [BitVec.toNat_ofNat]
      omega
    have hprev : (0x1000 : Uintptr) + BitVec.ofNat 64 (4096 * (i - 1))
        = BitVec.ofNat 64 (4096 * i) := by
      apply BitVec.eq_of_toNat_eq
      rw [toNat_page (by rw [hv]; omega), hpage, hv]
      omega
    have hframe : (BitVec.ofNat 32 i : PageIdx) = 1 + BitVec.ofNat 32 (i - 1) := by
      apply BitVec.eq_of_toNat_eq
      rw [BitVec.toNat_add, BitVec.toNat_ofNat, BitVec.toNat_ofNat,
        show (1 : PageIdx).toNat = 1 from rfl]
      omega
    -- The pages of the DMA zone are at the bottom, so the second mapping does not reach them.
    have hout : ∀ j, j < totalPages.toNat →
        pageOf (BitVec.ofNat 64 (4096 * i)) ≠ pageOf (KERNEL_BASE + BitVec.ofNat 64 (4096 * j)) :=
      fun j hj heq => by
        rw [pageOf, pageOf, hpage, toNat_page (by rw [hkb]; omega), hkb] at heq
        omega
    obtain ⟨-, hsub⟩ := dma_count dmaPages
    have hin := h1.inside (i - 1) (by omega)
    rw [hprev] at hin
    rw [mmPinVirtualAddress_eq answers_kernelWindow h2.ready.wf, h2.outside _ hout, hmem, hframe]
    exact congrArg Except.ok hin

/-- With a page to map and at most 1 GB of memory, only the allocator can stop the run. -/
theorem archRemapMemory_completes (halloc : Allocates alloc free) (hnr : NeverRefuses alloc)
    (hboot : BootMemory free kEntries s) (hdma : 2 ≤ dmaPages.toNat)
    (htotal : dmaPages.toNat ≤ totalPages.toNat) (hfit : totalPages.toNat ≤ 2 ^ 18) :
    archRemapMemory kernelWindow alloc kEntries dmaPages totalPages 0 s = .error .exhausted ∨
      ∃ s', archRemapMemory kernelWindow alloc kEntries dmaPages totalPages 0 s = .ok s' ∧
        Remapped s'.mem kEntries dmaPages totalPages := by
  have hone : dmaPages ≠ 1 := fun h => by
    rw [h, show (1 : PageIdx).toNat = 1 from rfl] at hdma
    omega
  obtain ⟨hr1, ho1⟩ := hboot.dma_accepted hone
  rcases @mmMapPages_delivers _ _ _ _ _ _ 0 _ halloc hnr
    (hboot.ready (linearPaReset ⟨1, totalPages, 0⟩)) (by decide) hr1 ho1 with h1 | ⟨t, h1⟩
  · left
    rw [archRemapMemory, if_pos rfl]
    dsimp only
    rw [h1]
    rfl
  · have hmap := dma_mapped halloc hboot hone h1
    obtain ⟨-, hsub⟩ := dma_count dmaPages
    rw [Nat.min_eq_left (by omega)] at hmap
    have hv := (verifyMapping_eq_ok answers_kernelWindow hmap.ready.wf _ _ _).mpr hmap.inside
    -- The second call starts from the tables of the first, with the frames from zero on.
    have hready : Ready (fun c => free c.2) kEntries
        ⟨t.mem, (linearPaReset { t.ctx.1 with startPage := 0 }, t.ctx.2)⟩ :=
      ⟨hmap.ready.wf, hmap.ready.low, hmap.ready.fresh⟩
    have hpos : 0 < totalPages.toNat := by omega
    obtain ⟨hr2, ho2⟩ := hboot.kernel_accepted hpos hfit
    rcases @mmMapPages_delivers _ _ _ _ _ _ 0 _ halloc hnr hready (by decide) hr2 ho2 with
      h2 | ⟨u, h2⟩
    · left
      rw [archRemapMemory, if_pos rfl]
      dsimp only
      rw [h1, Loop.ok_bind]
      dsimp only
      rw [if_neg (by simp), hv, Loop.ok_bind, h2]
      rfl
    · have hmap2 := kernel_mapped halloc hboot hpos hfit rfl hready h2
      have hv2 := (verifyMapping_eq_ok answers_kernelWindow hmap2.ready.wf _ _ _).mpr hmap2.inside
      refine .inr ⟨⟨u.mem, u.ctx.2⟩, ?_, remapped_of_mapped hdma htotal hfit hmap hmap2 rfl⟩
      rw [archRemapMemory, if_pos rfl]
      dsimp only
      rw [h1, Loop.ok_bind]
      dsimp only
      rw [if_neg (by simp), hv, Loop.ok_bind, h2, Loop.ok_bind]
      dsimp only
      rw [if_neg (by simp), hv2]
      rfl

/-- `arch_remap_memory` completes, and has mapped the memory, exactly when there is at
most 1 GB of it and the DMA zone has a page besides page zero. -/
theorem archRemapMemory_iff (halloc : Allocates alloc free) (hnr : NeverRefuses alloc)
    (hboot : BootMemory free kEntries s)
    (htotal : KERNEL_BASE.toNat + 4096 * totalPages.toNat ≤ 2 ^ 64)
    (hdma : dmaPages.toNat ≤ totalPages.toNat)
    (hexhausted : archRemapMemory kernelWindow alloc kEntries dmaPages totalPages 0 s
      ≠ .error .exhausted) :
    (∃ s', archRemapMemory kernelWindow alloc kEntries dmaPages totalPages 0 s = .ok s' ∧
        Remapped s'.mem kEntries dmaPages totalPages) ↔
      2 ≤ dmaPages.toNat ∧ totalPages.toNat ≤ 2 ^ 18 := by
  have hkb : KERNEL_BASE.toNat = 0xffffffff80000000 := by decide
  have hsmall : totalPages.toNat ≤ 2 ^ 19 := by
    rw [hkb] at htotal
    omega
  constructor
  · rintro ⟨s', hrun, -⟩
    obtain ⟨t, u, h1, hv, h2⟩ := archRemapMemory_ok hrun
    obtain ⟨htwo, hready⟩ := two_le_of_verified halloc hboot h1 hv
    refine ⟨htwo, ?_⟩
    by_contra hbig
    have hready' : Ready (fun c => free c.2) kEntries
        ⟨t.mem, (linearPaReset { t.ctx.1 with startPage := 0 }, t.ctx.2)⟩ :=
      ⟨hready.wf, hready.low, hready.fresh⟩
    exact kernel_refused halloc hready' hsmall (by omega) h2 rfl
  · rintro ⟨htwo, hfit⟩
    exact (archRemapMemory_completes halloc hnr hboot htwo hdma hfit).resolve_left hexhausted

end Boot

/-! ### A machine to boot -/

/-- An allocator that hands out the frames up to `last` in turn. -/
def bootAllocator (last : Nat) : PageAllocator PageIdx := fun _ cleanPage s =>
  if s.ctx.toNat ≤ last then
    .ok (some s.ctx, ⟨if cleanPage then s.mem.clean s.ctx else s.mem, s.ctx + 1⟩)
  else .error .exhausted

/-- The frames that `bootAllocator` has left. -/
def BootFree (last : Nat) (next pf : PageIdx) : Prop :=
  next.toNat ≤ pf.toNat ∧ pf.toNat ≤ last

/-- The allocator hands out each frame once. The bound keeps its counter from wrapping. -/
theorem allocates_bootAllocator {last : Nat} (hlast : last < 2 ^ 32 - 1) :
    Allocates (bootAllocator last) (BootFree last) where
  some := by
    intro flags clean s pf s' hrun
    unfold bootAllocator at hrun
    split at hrun
    · rename_i hle
      cases hrun
      refine ⟨⟨Nat.le_refl _, hle⟩, rfl, fun x hx => ?_⟩
      have hnext : (s.ctx + 1).toNat = s.ctx.toNat + 1 := by
        rw [BitVec.toNat_add, show (1 : PageIdx).toNat = 1 from rfl]
        omega
      have hlt : s.ctx.toNat + 1 ≤ x.toNat := hnext ▸ hx.1
      exact ⟨⟨by omega, hx.2⟩, fun h => by rw [h] at hlt; omega⟩
    · cases hrun
  none := by
    intro flags clean s s' hrun
    unfold bootAllocator at hrun
    split at hrun <;> cases hrun

/-- At the end it is exhausted, and it never returns `NULL`. -/
theorem neverRefuses_bootAllocator (last : Nat) : NeverRefuses (bootAllocator last) where
  refuses := by
    intro flags clean s s' hrun
    unfold bootAllocator at hrun
    split at hrun <;> cases hrun
  fails := by
    intro flags clean s e hrun
    unfold bootAllocator at hrun
    split at hrun <;> cases hrun
    rfl

/-- The root in frame 1, and the frames from 2 on for the tables. -/
def bootMachine : Machine PageIdx := ⟨fun _ => .zero, 2⟩

/-- The machine is one that `arch_remap_memory` can be called on. -/
theorem bootMemory_bootMachine : BootMemory (BootFree 1000) EMPTY_ROOT bootMachine where
  root := tableAddr_pframeToVirt (by decide)
  empty := fun _ => rfl
  low := fun pf hpf => by
    have := hpf.2
    rw [LowFrame]
    omega
  fresh := fun pf hpf heq => by
    have hle := hpf.2
    have htwo : 2 ≤ pf.toNat := hpf.1
    have hone := pframeToVirt_inj (by rw [LowFrame]; omega) (by decide) heq
    rw [hone] at htwo
    exact absurd htwo (by decide)

/-- How a run of `arch_remap_memory` on the `bootMachine` ends. -/
def bootFault (dmaPages totalPages : PageIdx) : Option Fault :=
  match archRemapMemory kernelWindow (bootAllocator 1000) EMPTY_ROOT dmaPages totalPages 0
      bootMachine with
  | .ok _ => none
  | .error e => some e

/-- A run that ends in a fault shows it. -/
theorem bootFault_of_error {dmaPages totalPages : PageIdx} {e : Fault}
    (h : archRemapMemory kernelWindow (bootAllocator 1000) EMPTY_ROOT dmaPages totalPages 0
      bootMachine = .error e) : bootFault dmaPages totalPages = some e := by
  rw [bootFault, h]

/-- And a run that returns shows none. -/
theorem bootFault_of_ok {dmaPages totalPages : PageIdx} {s' : Machine PageIdx}
    (h : archRemapMemory kernelWindow (bootAllocator 1000) EMPTY_ROOT dmaPages totalPages 0
      bootMachine = .ok s') : bootFault dmaPages totalPages = none := by
  rw [bootFault, h]

/-- Three pages of memory, two of them in the DMA zone. -/
theorem archRemapMemory_three :
    (∃ s', archRemapMemory kernelWindow (bootAllocator 1000) EMPTY_ROOT 2 3 0 bootMachine
        = .ok s' ∧ Remapped s'.mem EMPTY_ROOT 2 3) ↔
      2 ≤ (2 : PageIdx).toNat ∧ (3 : PageIdx).toNat ≤ 2 ^ 18 :=
  archRemapMemory_iff (allocates_bootAllocator (by decide)) (neverRefuses_bootAllocator 1000)
    bootMemory_bootMachine (by decide +kernel) (by decide) fun h =>
      absurd (bootFault_of_error h) (by decide +kernel)

/-- 2 GB of memory: the boot ends in a panic, and not for want of frames. -/
theorem archRemapMemory_panics :
    KERNEL_BASE.toNat + 4096 * (0x80000 : PageIdx).toNat ≤ 2 ^ 64 ∧
      (16 : PageIdx).toNat ≤ (0x80000 : PageIdx).toNat ∧
      BootMemory (BootFree 1000) EMPTY_ROOT bootMachine ∧
      bootFault 16 0x80000
        = some (.panic "arch_remap_memory(): Can't remap physical pages !") ∧
      ¬ ∃ s', archRemapMemory kernelWindow (bootAllocator 1000) EMPTY_ROOT 16 0x80000 0
          bootMachine = .ok s' ∧ Remapped s'.mem EMPTY_ROOT 16 0x80000 := by
  have hpanic : bootFault 16 0x80000
      = some (.panic "arch_remap_memory(): Can't remap physical pages !") := by decide +kernel
  refine ⟨by decide +kernel, by decide, bootMemory_bootMachine, hpanic, fun ⟨s', hrun, _⟩ => ?_⟩
  have hnone := bootFault_of_ok hrun
  rw [hpanic] at hnone
  cases hnone

end MString
