import MString.Eza.IdleTasks
import MString.Proofs.Eza.NewTasks
import MString.Proofs.Mm.FrameBook
import MString.Proofs.Mm.Leaves
import MString.Proofs.Mm.Stock

/-!
# `MString.Proofs.Eza.IdleFrames`: the accessor of the idle tasks

`idle_pacc` takes the pages it maps, and the tables for them, from one cache, in the order
in which they are asked for. A page that it maps is held from then on.

* `idleFrames_maps`: after a call, the pages have leaves with the frames that it has entered
  in the book, and no frame in the book is a table.
* `idleFrames_stocked`: four frames for every page are enough.
-/

set_option autoImplicit false

namespace MString

open Lockstep

/-- `acc_next_frame`, on the book. -/
def framesNext (c : Option PageIdx × Frames) :
    Except Fault (PageIdx × Option PageIdx × Frames) :=
  match c.1 with
  | some nextFrame => .ok (nextFrame, c)
  | none => do
      let q ← c.2.first
      return (q, none, c.2.hold)

/-- `idle_pacc`, on the book. -/
def idleFrames (memTotalPages : PageIdx) : PageFrameAccessor (Option PageIdx × Frames) where
  framesLeft _ := memTotalPages
  nextFrame := framesNext
  reset c := c
  allocPage := pageaccsAllocPageStub framesAlloc

section Accessor

variable {boot ahead : Nat} {memTotalPages : PageIdx}

/-- The accessor of the idle tasks draws the frame that the lists hold next. -/
theorem accNextFrame_stands {c : Option PageIdx × Frames} {c' : Option PageIdx × PageLists}
    (h : Stands boot ahead c c') :
    Together UsedUp (fun _ => False) (fun x x' => x.1 = x'.1 ∧ Stands boot ahead x.2 x'.2)
      (framesNext c) (accNextFrame boot c') := by
  obtain ⟨o, pages, held, nodup⟩ := c
  obtain ⟨o', c⟩ := c'
  obtain ⟨rfl, hc⟩ : o = o' ∧ CacheCounts boot ahead c pages := h
  cases o with
  | some f => exact .ok ⟨rfl, rfl, hc⟩
  | none =>
      cases pages with
      | nil => exact .gaveUp rfl
      | cons q qs =>
          obtain ⟨c1, htake, hc1⟩ := takePage_counts hc
          simp only [accNextFrame, htake, Loop.ok_bind]
          exact .ok ⟨rfl, rfl, hc1⟩

/-- So the accessor over the lists stands for the one over the cache. -/
theorem sameAccessor_idlePacc : SameAccessor boot ahead (idleFrames memTotalPages)
    (idlePacc boot memTotalPages) where
  next _ _ h := accNextFrame_stands h
  alloc := rfl
  alloc' := rfl

end Accessor

/-! ### One call -/

/-- From `held` on, the accessor has yielded `fs`: new frames, or one frame again and
again. -/
def IdleHist (o : Option PageIdx) (held : List PageIdx) (c : Option PageIdx × Frames)
    (fs : List PageIdx) : Prop :=
  c.1 = o ∧ match o with
    | none => c.2.held = held ++ fs
    | some f => c.2.held = held ∧ ∀ x ∈ fs, x = f

/-- At the start no frame has been drawn. -/
theorem idleHist_start (o : Option PageIdx) (F : Frames) : IdleHist o F.held (o, F) [] := by
  cases o with
  | none => exact ⟨rfl, (List.append_nil _).symm⟩
  | some f => exact ⟨rfl, rfl, fun x hx => absurd hx (by simp)⟩

section Call

variable {memTotalPages : PageIdx} {flags : PageFlags} {o : Option PageIdx}

/-- The frames are supplied as a mapping needs them. -/
theorem supplies_idleFrames (o : Option PageIdx) (held : List PageIdx) :
    Supplies (idleFrames memTotalPages) (fun c => c.2.Lists) (IdleHist o held) where
  some := by
    intro flags s pf s' hrun
    obtain ⟨u, halloc, rfl⟩ := stub_ok hrun
    obtain ⟨hlists, hmem, hless⟩ := allocates_framesAlloc.some halloc
    refine ⟨hlists, hmem, fun fs hfs => ?_, hless⟩
    -- what is held stays
    rcases framesAlloc_cases halloc with ⟨-, rfl⟩ | ⟨q, -, -, rfl⟩
    · exact hfs
    · exact hfs
  none := by
    intro flags s s' hrun
    obtain ⟨u, halloc, rfl⟩ := stub_ok hrun
    rcases framesAlloc_cases halloc with ⟨-, rfl⟩ | ⟨q, hpf, -⟩
    · exact ⟨rfl, fun fs hfs => hfs, fun x hx => hx⟩
    · cases hpf
  next := by
    rintro ⟨o', F⟩ i c' hrun
    cases o' with
    | some f =>
        cases hrun
        refine ⟨?_, fun x hx => hx⟩
        rintro fs ⟨rfl, hheld, hfs⟩
        refine ⟨rfl, hheld, fun x hx => ?_⟩
        rcases List.mem_append.mp hx with hx | hx
        · exact hfs x hx
        · exact List.mem_singleton.mp hx
    | none =>
        obtain ⟨q, hq, hnext⟩ := Loop.exists_of_bind hrun
        have hhead := Frames.first_ok hq
        cases hnext
        refine ⟨?_, fun x hx => hx.of_hold⟩
        -- the frame that is yielded is the one that the book holds from now on
        rintro fs ⟨rfl, hheld⟩
        obtain ⟨qs, hqs⟩ := List.head?_eq_some_iff.mp hhead
        refine ⟨rfl, ?_⟩
        show F.held ++ F.pages.take 1 = held ++ (fs ++ [i])
        rw [show F.held = held ++ fs from hheld, hqs, List.append_assoc]
        rfl

/-- The book has what a call asks for. -/
theorem provides_idleFrames (hdma : flags &&& PAF_DMA_PAGE = 0) :
    Provides (idleFrames memTotalPages) flags 1 (fun c => c.2.pages.length) where
  alloc s hs := provides_stub hdma s hs
  next := by
    rintro ⟨o, F⟩ hc
    cases o with
    | some f => exact ⟨f, (some f, F), rfl, Nat.le_succ _⟩
    | none =>
        obtain ⟨q, qs, hqs⟩ : ∃ q qs, F.pages = q :: qs := List.exists_cons_of_length_pos hc
        refine ⟨q, (none, F.hold), ?_, ?_⟩
        · show framesNext (none, F) = _
          simp only [framesNext, Frames.first, hqs, Loop.ok_bind]
          rfl
        · show F.pages.length ≤ F.pages.tail.length + 1
          rw [hqs]
          rfl

variable {mapped : EntryPtr → Bool} {root virt n : Uintptr} {m : Mem} {F : Frames}

/-- A call below the last gigabyte visits the pages that it is given. -/
theorem BelowTop.accepted (hb : BelowTop virt n) (hn : n ≠ 0) (hroot : TableAddr root) :
    ¬ Refused ⟨root⟩ virt n ∧ ¬ Overruns virt (virt + n * PAGE_SIZE) ∧
      visited virt (virt + n * PAGE_SIZE) = n.toNat := by
  have hlow := hb.low
  have hhigh := hb.high
  have hvirt : virt ≠ 0 := by
    rintro rfl
    exact absurd hlow (by decide)
  have hpos : n.toNat ≠ 0 := fun h0 => hn (BitVec.eq_of_toNat_eq h0)
  have hrefused := hroot.not_refused hvirt hn (by omega)
  have hend := toNat_end hrefused (by omega)
  refine ⟨hrefused, ?_, ?_⟩
  · -- the range ends below the last block, so the walk does not run past it
    unfold Overruns
    omega
  · rw [visited_eq hb.aligned hrefused (by omega) hn, if_neg (by omega)]

/-- What a call leaves behind: leaves with the frames that it has entered in the book. -/
theorem idleFrames_maps (ha : Answers mapped) (h : BookReady root m F) (hb : BelowTop virt n)
    (hn : n ≠ 0) {s' : Machine (Option PageIdx × Frames)}
    (hrun : mmMapPages mapped (some ⟨root⟩) (some (idleFrames memTotalPages)) virt n flags
      ⟨m, (o, F)⟩ = .ok (0, s')) :
    ∃ gs, gs.length = n.toNat ∧ IdleHist o F.held s'.ctx gs ∧ BookReady root s'.mem s'.ctx.2 ∧
      (∀ x, s'.ctx.2.Lists x → F.Lists x) ∧
      LeavesTo root virt n.toNat (fun i => gs.getD i INVALID_PAGE_IDX) m s'.mem := by
  have hsup := @supplies_idleFrames memTotalPages o F.held
  have hready : Ready (fun c : Option PageIdx × Frames => c.2.Lists) root ⟨m, (o, F)⟩ :=
    ⟨h.wf, h.low, h.fresh⟩
  obtain ⟨hrefused, hover, hvisited⟩ := hb.accepted hn h.wf.tableAddr_root
  obtain ⟨gs, hgs⟩ := mmMapPages_spec hsup ha hready hb.aligned hrefused hover hrun
  have hlen : gs.length = n.toNat := by
    rcases hgs.result with ⟨-, hlen⟩ | ⟨hr, -⟩
    · rw [hlen, length_pagesFrom, hvisited]
    · exact absurd hr.symm neg_ENOMEM_ne_zero
  have hlow := hb.low
  have hhigh := hb.high
  refine ⟨gs, hlen, hgs.history [] (idleHist_start o F),
    ⟨hgs.ready.wf, hgs.ready.low, hgs.ready.fresh⟩, mmMapPages_frees hsup hrun, ?_⟩
  refine leavesTo_of_call hsup ha hready hb.aligned hrefused hover hvisited (fun i hi => ?_) hrun
  rw [hvisited] at hgs
  have hi' : i < gs.length := by rwa [hlen]
  rw [hgs.mapped (nodup_pagesFrom (by omega) (by omega)) i _ gs[i] (getElem?_pagesFrom virt hi)
    (List.getElem?_eq_getElem hi'), List.getD_eq_getElem?_getD, List.getElem?_eq_getElem hi',
    Option.getD_some]

/-- With four frames for every page, the call succeeds. -/
theorem idleFrames_stocked (ha : Answers mapped) (h : BookReady root m F) (hb : BelowTop virt n)
    (hn : n ≠ 0) (hdma : flags &&& PAF_DMA_PAGE = 0) (hs : 4 * n.toNat ≤ F.pages.length) :
    Spends (fun c => c.2.pages.length) (4 * n.toNat) ⟨m, (o, F)⟩
      (mmMapPages mapped (some ⟨root⟩) (some (idleFrames memTotalPages)) virt n flags
        ⟨m, (o, F)⟩) := by
  have hready : Ready (fun c : Option PageIdx × Frames => c.2.Lists) root ⟨m, (o, F)⟩ :=
    ⟨h.wf, h.low, h.fresh⟩
  obtain ⟨hrefused, hover, hvisited⟩ := hb.accepted hn h.wf.tableAddr_root
  have htables := tablesFor_le (pagesFrom virt n.toNat) none
  rw [length_pagesFrom] at htables
  obtain ⟨s', hrun, hle⟩ := mmMapPages_stocked
    (@supplies_idleFrames memTotalPages o F.held) (provides_idleFrames hdma) ha hready
    hb.aligned hrefused hover hvisited (Nat.le_trans (by omega) hs)
  exact ⟨s', hrun, by omega⟩

end Call

end MString
