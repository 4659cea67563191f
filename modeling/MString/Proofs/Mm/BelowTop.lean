import MString.Proofs.Mm.AllocFlags
import MString.Proofs.Mm.Handouts

/-!
# `MString.Proofs.Mm.BelowTop`: calls below the last gigabyte

A call of `mm_map_pages` on pages of the last 512 GB, where the kernel's stacks are, that
stays below the last gigabyte does what it is asked for: `mmMapPages_mapsTo`, and
`mapsTo_of_lift` for an accessor over an allocator that hands out frames.
-/

set_option autoImplicit false

namespace MString

/-- The `n` pages from `virt` on lie in the last 512 GB and below the last one. -/
structure BelowTop (virt n : Uintptr) : Prop where
  aligned : virt.toNat % 4096 = 0
  low : 2 ^ 64 - 2 ^ 39 ≤ virt.toNat
  high : virt.toNat + 4096 * n.toNat ≤ 2 ^ 64 - 2 ^ 30

/-- `m'` translates the `n` pages from `virt` on to the frames `f`, and the others as `m`. -/
structure MapsTo (root virt : Uintptr) (n : Nat) (f : Nat → PageIdx) (m m' : Mem) : Prop where
  pages : ∀ i, i < n → ∀ w, pageOf w = pageOf (virt + BitVec.ofNat 64 (4096 * i)) →
    translate m' root w = f i
  others : ∀ w, (∀ i, i < n → pageOf w ≠ pageOf (virt + BitVec.ofNat 64 (4096 * i))) →
    translate m' root w = translate m root w

section Below

variable {σ : Type} {mapped : EntryPtr → Bool} {pacc : PageFrameAccessor σ}
  {hist : σ → List PageIdx → Prop} {f : Nat → PageIdx} {root virt n : Uintptr} {flags : PageFlags}

/-- No call makes frames free. -/
theorem mmMapPages_frees {free : σ → PageIdx → Prop} {s s' : Machine σ} {r : Status}
    (hsup : Supplies pacc free hist)
    (hrun : mmMapPages mapped (some ⟨root⟩) (some pacc) virt n flags s = .ok (r, s')) (x : PageIdx)
    (hx : free s'.ctx x) : free s.ctx x := by
  have hkeep : CallsKeep ⟨mapped, pacc, flags⟩ (fun c => ∀ y, free c y → free s.ctx y) True :=
    { alloc := fun {u o t} halloc hI => by
        refine ⟨fun y hy => hI y ?_, fun _ => trivial⟩
        cases o with
        | none => exact (hsup.none halloc).2.2 y hy
        | some pf => exact ((hsup.some halloc).2.2.2 y hy).1
      next := fun hnext hI y hy => hI y ((hsup.next hnext).2 y hy) }
  exact (mmMapPages_keeps hkeep (fun _ hy => hy) hrun).1 x hx

/-- A call that succeeds maps what it was asked for. -/
theorem mmMapPages_mapsTo {free : σ → PageIdx → Prop} {s s' : Machine σ}
    (hsup : Supplies pacc free hist) (hyields : Yields hist f) (hstart : hist s.ctx [])
    (ha : Answers mapped) (h : Ready free root s) (hbelow : BelowTop virt n)
    (hrun : mmMapPages mapped (some ⟨root⟩) (some pacc) virt n flags s = .ok (0, s')) :
    Ready free root s' ∧ MapsTo root virt n.toNat f s.mem s'.mem := by
  have hvirt := hbelow.aligned
  have hlow := hbelow.low
  have hhigh := hbelow.high
  -- A call that returns 0 was not refused.
  have hrefused : ¬ Refused ⟨root⟩ virt n := fun hr => by
    simp only [mmMapPages, if_pos hr, Except.ok.injEq, Prod.mk.injEq] at hrun
    exact neg_EINVAL_ne_zero hrun.1
  have hend := toNat_end hrefused (by omega)
  have hn0 : n ≠ 0 := fun hn => hrefused (.inr (.inl hn))
  have hpos : n.toNat ≠ 0 := fun h0 => hn0 (BitVec.eq_of_toNat_eq h0)
  -- Below the last gigabyte it does not run over, either.
  have hover : ¬ Overruns virt (virt + n * PAGE_SIZE) := by
    unfold Overruns
    omega
  obtain ⟨gs, hgs⟩ := mmMapPages_spec hsup ha h hvirt hrefused hover hrun
  have hvis : visited virt (virt + n * PAGE_SIZE) = n.toNat := by
    rw [visited_eq hvirt hrefused (by omega) hn0, if_neg (by omega)]
  rw [hvis] at hgs
  -- Success means that every page has its frame.
  have hlen : gs.length = n.toNat := by
    rcases hgs.result with ⟨-, hlen⟩ | ⟨hr, -⟩
    · rw [hlen, length_pagesFrom]
    · exact absurd hr.symm neg_ENOMEM_ne_zero
  refine ⟨hgs.ready, fun i hi w hw => ?_, fun w hw => hgs.frame w fun v hv => ?_⟩
  · have hframe : gs[i]? = some (f i) := by
      have hi' : i < gs.length := by rwa [hlen]
      rw [← hyields _ _ (hgs.history [] hstart) i gs[i] (by simp), List.getElem?_eq_getElem hi']
    rw [translate_of_pageOf_eq hw]
    exact hgs.mapped (nodup_pagesFrom (by omega) (by omega)) i _ _ (getElem?_pagesFrom virt hi)
      hframe
  · obtain ⟨i, hi, rfl⟩ := mem_pagesFrom (List.mem_of_mem_take hv)
    exact hw i hi

end Below

/-- The same for an accessor over an allocator that hands out frames. -/
theorem mapsTo_of_lift {γ : Type} {inv : PageLists → Prop}
    {free : PageLists → PageIdx → Prop} {mapped : EntryPtr → Bool} {flags : PageFlags}
    {pacc : PageFrameAccessor (γ × PageLists)} {pacc' : PageFrameAccessor (γ × { c // inv c })}
    {hist : γ × { c // inv c } → List PageIdx → Prop} {f : Nat → PageIdx} {root virt n : Uintptr}
    (hpairs : Pairs Eq Forgets Lockstep.Never False ⟨mapped, pacc, flags⟩ ⟨mapped, pacc', flags⟩)
    (hsup : Supplies pacc' (fun c => free c.2.1) hist) (hyields : Yields hist f)
    (ha : Answers mapped) {m : Mem} {x : γ} {c : PageLists} (hc : inv c)
    (hstart : hist (x, ⟨c, hc⟩) []) (h : Ready free root ⟨m, c⟩) (hbelow : BelowTop virt n)
    {s' : Machine (γ × PageLists)}
    (hrun : mmMapPages mapped (some ⟨root⟩) (some pacc) virt n flags ⟨m, (x, c)⟩ = .ok (0, s')) :
    inv s'.ctx.2 ∧ Ready free root ⟨s'.mem, s'.ctx.2⟩ ∧ (∀ y, free s'.ctx.2 y → free c y) ∧
      MapsTo root virt n.toNat f m s'.mem := by
  obtain ⟨hc', hlift⟩ := mmMapPages_lift hpairs hc hrun
  have hready : Ready (fun c : γ × { c // inv c } => free c.2.1) root ⟨m, (x, ⟨c, hc⟩)⟩ :=
    ⟨h.wf, h.low, h.fresh⟩
  obtain ⟨hready', hmaps⟩ := mmMapPages_mapsTo hsup hyields hstart ha hready hbelow hlift
  exact ⟨hc', ⟨hready'.wf, hready'.low, hready'.fresh⟩, mmMapPages_frees hsup hlift, hmaps⟩

end MString
