import MString.Mm.Mm

/-!
# `MString.Proofs.Mm.PercpuCaches`: sharing out `ZONE_NORMAL`

`initialize_percpu_caches` hands the free pages of `ZONE_NORMAL` to the per-CPU caches in
turn. `rounds` is what it reckons with, in numbers.

* `run_movePages`: the loop of one cache takes one page for every two it counts.
* `initializePercpuCaches_rounds`: a run over all caches, by induction on the caches.
* `rounds_handedOut`: what that comes to in the end.
* `allShared_iff`: for how many free pages nothing is left over.
-/

set_option autoImplicit false

namespace MString

/-! ### One cache -/

/-- How many pages a cache takes that may count up to `c`, when there are `l`. -/
def takes (c l : Nat) : Nat := min ((c + 1) / 2) l

/-- A zone's counters after `m` free pages have left it. -/
def MemoryZone.without (z : MemoryZone) (m : Nat) : MemoryZone :=
  { z with
    numFreePages := z.numFreePages - BitVec.ofNat 32 m
    numTotalPages := z.numTotalPages - BitVec.ofNat 32 m }

/-- A zone without no pages is the zone. -/
theorem MemoryZone.without_zero (z : MemoryZone) : z.without 0 = z := by
  simp [MemoryZone.without]

/-- Pages are taken out one after the other, or all at once. -/
theorem MemoryZone.without_without (z : MemoryZone) (m k : Nat) :
    (z.without m).without k = z.without (m + k) := by
  simp [MemoryZone.without, BitVec.sub_sub, BitVec.ofNat_add]

/-- The list heads of a ring of frames. -/
def onList (head : ListPtr) (fs : List PageIdx) : List ListPtr := head :: fs.map .frame

/-- A head and the frames on its list are different nodes. -/
theorem nodup_onList {head : ListPtr} {fs : List PageIdx} (hnd : fs.Nodup)
    (hhead : ∀ f, head ≠ .frame f) : (onList head fs).Nodup := by
  refine List.nodup_cons.mpr ⟨fun hmem => ?_, hnd.map fun a b h => by simpa using h⟩
  obtain ⟨f, -, hf⟩ := List.mem_map.mp hmem
  exact hhead f hf.symm

/-- Two lists with different heads and no frame in common. -/
theorem apart_onList {b c : ListPtr} {fs gs : List PageIdx} (hb : ∀ f, b ≠ .frame f)
    (hc : ∀ f, c ≠ .frame f) (hbc : b ≠ c) (hdis : ∀ f ∈ fs, f ∉ gs) :
    ∀ y ∈ onList b fs, y ∉ onList c gs := by
  intro y hy hy'
  rcases List.mem_cons.mp hy with rfl | hy
  · rcases List.mem_cons.mp hy' with heq | hy'
    · exact hbc heq
    · obtain ⟨f, -, hf⟩ := List.mem_map.mp hy'
      exact hb f hf.symm
  · obtain ⟨f, hf, rfl⟩ := List.mem_map.mp hy
    rcases List.mem_cons.mp hy' with heq | hy'
    · exact hc f heq.symm
    · obtain ⟨g, hg, hgf⟩ := List.mem_map.mp hy'
      rw [ListPtr.frame.inj hgf] at hg
      exact hdis f hf hg

/-- A list head that is none of the frames. -/
theorem pages_ne_frame (z : ZoneType) (f : PageIdx) : ListPtr.pages z ≠ .frame f := nofun

/-- The head of a cache is no frame, ... -/
theorem cachePages_ne_frame (k : Nat) (f : PageIdx) : ListPtr.cachePages k ≠ .frame f := nofun

/-- ... and is on no other list. -/
theorem cachePages_notMem_onList {n : Nat} {head : ListPtr} (hhead : head ≠ .cachePages n)
    (fs : List PageIdx) : ListPtr.cachePages n ∉ onList head fs := fun hmem => by
  rcases List.mem_cons.mp hmem with heq | hmem
  · exact hhead heq.symm
  · obtain ⟨f, -, hf⟩ := List.mem_map.mp hmem
    cases hf

section Cache

variable {cpu : Nat} {c : PageIdx}

/-- What moving `m` pages to the cache of `cpu` does: they are the first of the zone's list
`fs` and come behind the pages `qs` of the cache. -/
structure Moved (cpu m : Nat) (fs qs : List PageIdx) (mm mm' : MemoryManager) : Prop where
  zone : Ring.IsRing mm'.lists.links (.pages .normal) ((fs.drop m).map .frame)
  cache : Ring.IsRing mm'.lists.links (.cachePages cpu) ((qs ++ fs.take m).map .frame)
  others : ∀ d ys, Ring.IsRing mm.lists.links d ys →
    (∀ y ∈ d :: ys, y ∉ onList (.pages .normal) fs ∧ y ∉ onList (.cachePages cpu) qs) →
    Ring.IsRing mm'.lists.links d ys
  zones : mm'.zones = Function.update mm.zones .normal ((mm.zones .normal).without m)
  caches : mm'.lists.caches = mm.lists.caches
  flags : mm'.flags = mm.flags

/-- Nothing has been moved yet. -/
theorem Moved.refl {fs qs : List PageIdx} {mm : MemoryManager}
    (hzone : Ring.IsRing mm.lists.links (.pages .normal) (fs.map .frame))
    (hcache : Ring.IsRing mm.lists.links (.cachePages cpu) (qs.map .frame)) :
    Moved cpu 0 fs qs mm mm where
  zone := hzone
  cache := by rwa [List.take_zero, List.append_nil]
  others _ _ hd _ := hd
  zones := by rw [MemoryZone.without_zero, Function.update_eq_self]
  caches := rfl
  flags := rfl

/-- Where the pages go after the first has gone. -/
theorem Moved.cons {m : Nat} {f : PageIdx} {fs qs : List PageIdx} {mm mm1 mm2 : MemoryManager}
    (h1 : Moved cpu 1 (f :: fs) qs mm mm1) (h2 : Moved cpu m fs (qs ++ [f]) mm1 mm2) :
    Moved cpu (m + 1) (f :: fs) qs mm mm2 where
  zone := h2.zone
  cache := by
    have hcache := h2.cache
    rwa [List.append_assoc] at hcache
  others d ys hd hout := by
    refine h2.others d ys (h1.others d ys hd hout) fun y hy => ?_
    obtain ⟨hzone, hcache⟩ := hout y hy
    rw [onList, List.map_cons, List.mem_cons, List.mem_cons, not_or, not_or] at hzone
    rw [onList, List.mem_cons, not_or] at hcache
    refine ⟨fun hmem => ?_, fun hmem => ?_⟩
    · rcases List.mem_cons.mp hmem with rfl | hmem
      · exact hzone.1 rfl
      · exact hzone.2.2 hmem
    · rw [onList, List.map_append, List.mem_cons, List.mem_append, List.map_singleton,
        List.mem_singleton] at hmem
      rcases hmem with rfl | hmem | rfl
      · exact hcache.1 rfl
      · exact hcache.2 hmem
      · exact hzone.2.1 rfl
  zones := by
    rw [h2.zones, h1.zones]
    simp only [Function.update_self, Function.update_idem, MemoryZone.without_without]
    rw [Nat.add_comm]
  caches := h2.caches.trans h1.caches
  flags := h2.flags.trans h1.flags

/-- A turn that finds the count reached, or no page. -/
theorem movePagesTurn_stops {p : PageIdx} {mm : MemoryManager} {fs : List PageIdx}
    (hnone : takes (c.toNat - p.toNat) fs.length = 0)
    (hzone : Ring.IsRing mm.lists.links (.pages .normal) (fs.map .frame)) :
    movePagesTurn cpu c (p, mm) = .ok (.inr (p, mm)) := by
  have hstop : ¬ (p < c ∧ mm.lists.links.next (.pages .normal) ≠ some (.pages .normal)) := by
    rintro ⟨hlt, hne⟩
    rw [BitVec.lt_def] at hlt
    unfold takes at hnone
    have hnil : fs = [] := List.length_eq_zero_iff.mp (by omega)
    rw [hzone.next, hnil] at hne
    exact hne rfl
  simp only [movePagesTurn, if_neg hstop]

/-- A turn that finds a page moves it. -/
theorem movePagesTurn_moves {p : PageIdx} {mm : MemoryManager} {f : PageIdx}
    {fs qs : List PageIdx} (hlt : p < c) (hnd : (f :: fs ++ qs).Nodup)
    (hzone : Ring.IsRing mm.lists.links (.pages .normal) ((f :: fs).map .frame))
    (hcache : Ring.IsRing mm.lists.links (.cachePages cpu) (qs.map .frame)) :
    ∃ mm1, movePagesTurn cpu c (p, mm) = .ok (.inl (p + 2, mm1)) ∧
      Moved cpu 1 (f :: fs) qs mm mm1 := by
  obtain ⟨hndf, hndq, hdis⟩ := List.nodup_append.mp hnd
  have happart : ∀ y ∈ onList (.cachePages cpu) qs, y ∉ onList (.pages .normal) (f :: fs) :=
    apart_onList (cachePages_ne_frame cpu) (pages_ne_frame .normal) nofun
      fun q hq hqf => hdis q hqf q hq rfl
  obtain ⟨l1, l2, hdel, hadd, hzone2, hcache2, hothers⟩ := listMoveTail_apart hzone hcache
    (nodup_onList hndf (pages_ne_frame .normal))
    (nodup_onList hndq (cachePages_ne_frame cpu)) happart
  have hnext : mm.lists.links.next (.pages .normal) = some (.frame f) := hzone.next
  have hgo : p < c ∧ mm.lists.links.next (.pages .normal) ≠ some (.pages .normal) :=
    ⟨hlt, by rw [hnext]; exact fun h => ListPtr.noConfusion (Option.some.inj h)⟩
  refine ⟨{ mm with
      lists := { mm.lists with links := l2 }
      zones := Function.update mm.zones .normal ((mm.zones .normal).without 1) }, ?_, hzone2, ?_,
    hothers, rfl, rfl, rfl⟩
  · unfold movePagesTurn
    dsimp only
    rw [if_pos hgo, hnext]
    dsimp only
    rw [hdel, Loop.ok_bind, hadd, Loop.ok_bind]
    rfl
  · rw [List.map_append]
    exact hcache2

/-- The loop of one cache, from the count `p` on. -/
theorem run_movePages (hc : c.toNat + 1 < 2 ^ 32) :
    ∀ (m n : Nat) (p : PageIdx) (mm : MemoryManager) (fs qs : List PageIdx),
      m = takes (c.toNat - p.toNat) fs.length → m < n → (fs ++ qs).Nodup →
      Ring.IsRing mm.lists.links (.pages .normal) (fs.map .frame) →
      Ring.IsRing mm.lists.links (.cachePages cpu) (qs.map .frame) →
      ∃ mm', Loop.run .diverges (movePagesTurn cpu c) n (p, mm)
          = .ok (p + BitVec.ofNat 32 (2 * m), mm') ∧ Moved cpu m fs qs mm mm' := by
  intro m
  -- The induction is on the pages that are still taken.
  induction m with
  | zero =>
      intro n p mm fs qs hm hn _ hzone hcache
      obtain ⟨n, rfl⟩ : ∃ k, n = k + 1 := ⟨n - 1, by omega⟩
      refine ⟨mm, ?_, .refl hzone hcache⟩
      rw [Loop.run_exit (movePagesTurn_stops hm.symm hzone)]
      simp
  | succ m ih =>
      intro n p mm fs qs hm hn hnd hzone hcache
      obtain ⟨n, rfl⟩ : ∃ k, n = k + 1 := ⟨n - 1, by omega⟩
      unfold takes at hm
      cases fs with
      | nil => simp at hm
      | cons f fs =>
          rw [List.length_cons] at hm
          have hlt : p < c := by
            rw [BitVec.lt_def]
            omega
          have hp2 : (p + 2).toNat = p.toNat + 2 := by
            rw [BitVec.toNat_add, show (2 : PageIdx).toNat = 2 from rfl]
            have := c.isLt
            rw [BitVec.lt_def] at hlt
            omega
          obtain ⟨mm1, hturn, hone⟩ := movePagesTurn_moves hlt hnd hzone hcache
          have hnd' : (fs ++ (qs ++ [f])).Nodup := by
            rw [← List.append_assoc]
            exact (List.perm_append_singleton f (fs ++ qs)).nodup_iff.mpr hnd
          obtain ⟨mm', hrun, hmoved⟩ := ih n (p + 2) mm1 fs (qs ++ [f])
            (by unfold takes; omega) (by omega) hnd' hone.zone hone.cache
          refine ⟨mm', ?_, hone.cons hmoved⟩
          rw [Loop.run_continue hturn, hrun, BitVec.add_assoc]
          congr 2
          apply BitVec.eq_of_toNat_eq
          simp
          omega

end Cache

/-! ### All caches -/

/-- What the loop over the caches reckons with: `cpupages`, the zone's `num_total_pages` and
the length of its list. -/
structure Share where
  cpupages : Nat
  total : Nat
  free : Nat

/-- One cache. -/
def Share.next (nrCpus : Nat) (s : Share) : Share :=
  let c := if s.total ≤ s.cpupages + nrCpus then s.total else s.cpupages
  ⟨c, s.total - takes c s.free, s.free - takes c s.free⟩

/-- After the first `n` caches. -/
def rounds (nrCpus total free : Nat) : Nat → Share
  | 0 => ⟨total / nrCpus, total, free⟩
  | n + 1 => (rounds nrCpus total free n).next nrCpus

/-- In the rounds, the counters only go down, and the two go down together. -/
theorem rounds_le {nrCpus total free : Nat} (hle : free ≤ total) :
    ∀ n, (rounds nrCpus total free n).cpupages ≤ total ∧
      (rounds nrCpus total free n).total ≤ total ∧
      (rounds nrCpus total free n).free ≤ (rounds nrCpus total free n).total ∧
      (rounds nrCpus total free n).free ≤ free ∧
      free - (rounds nrCpus total free n).free = total - (rounds nrCpus total free n).total := by
  intro n
  induction n with
  | zero => exact ⟨Nat.div_le_self _ _, Nat.le_refl _, hle, Nat.le_refl _, by simp [rounds]⟩
  | succ n ih =>
      rw [rounds]
      generalize rounds nrCpus total free n = s at ih ⊢
      obtain ⟨h1, h2, h3, h4, h5⟩ := ih
      have htakes : ∀ c, takes c s.free ≤ s.free := fun c => Nat.min_le_right _ _
      dsimp only [Share.next]
      have := htakes (if s.total ≤ s.cpupages + nrCpus then s.total else s.cpupages)
      refine ⟨?_, by omega, by omega, by omega, by omega⟩
      split <;> omega

/-- The state after the first `n` caches, which hold the pages `cs`. -/
structure SharedOut (nrCpus : Nat) (fs : List PageIdx) (mm : MemoryManager) (s : Share) (n : Nat)
    (c : PageIdx) (mm' : MemoryManager) (cs : Nat → List PageIdx) : Prop where
  cpupages : c.toNat = s.cpupages
  total : (mm'.zones .normal).numTotalPages.toNat = s.total
  zone : Ring.IsRing mm'.lists.links (.pages .normal) ((fs.drop (fs.length - s.free)).map .frame)
  caches : ∀ k, k < n → Ring.IsRing mm'.lists.links (.cachePages k) ((cs k).map .frame)
  whole : (List.range n).flatMap cs = fs.take (fs.length - s.free)
  counts : ∀ k, k < n → mm'.lists.caches k
    = ⟨BitVec.ofNat 32 (2 * (cs k).length), BitVec.ofNat 32 (2 * (cs k).length)⟩
  others : ∀ d ys, Ring.IsRing mm.lists.links d ys →
    (∀ y ∈ d :: ys, y ∉ onList (.pages .normal) fs ∧ ∀ k, y ≠ .cachePages k) →
    Ring.IsRing mm'.lists.links d ys
  zones : mm'.zones
    = Function.update mm.zones .normal ((mm.zones .normal).without (fs.length - s.free))
  flags : mm'.flags = mm.flags

section Caches

variable {nrCpus : Nat} {fs : List PageIdx} {mm : MemoryManager}

/-- What the next cache may count up to. -/
theorem SharedOut.nextCount {s : Share} {n : Nat} {c : PageIdx} {mm1 : MemoryManager}
    {cs : Nat → List PageIdx} (h : SharedOut nrCpus fs mm s n c mm1 cs)
    (hfit : s.cpupages + nrCpus < 2 ^ 32) :
    (if c + BitVec.ofNat 32 nrCpus ≥ (mm1.zones .normal).numTotalPages then
      (mm1.zones .normal).numTotalPages else c).toNat = (s.next nrCpus).cpupages := by
  -- The comparison that looks for the last cache.
  have hcmp : (c + BitVec.ofNat 32 nrCpus ≥ (mm1.zones .normal).numTotalPages) ↔
      s.total ≤ s.cpupages + nrCpus := by
    rw [ge_iff_le, BitVec.le_def, h.total, BitVec.toNat_add, BitVec.toNat_ofNat, h.cpupages]
    omega
  rw [Share.next]
  dsimp only
  by_cases hlast : s.total ≤ s.cpupages + nrCpus
  · rw [if_pos (hcmp.mpr hlast), if_pos hlast, h.total]
  · rw [if_neg fun hx => hlast (hcmp.mp hx), if_neg hlast, h.cpupages]

/-- The pages of the caches so far are not on the zone's list. -/
theorem SharedOut.apart {s : Share} {n k : Nat} {c : PageIdx} {mm1 : MemoryManager}
    {cs : Nat → List PageIdx} (h : SharedOut nrCpus fs mm s n c mm1 cs) (hnd : fs.Nodup)
    (hk : k < n) : ∀ f ∈ cs k, f ∉ fs.drop (fs.length - s.free) := fun f hf hf' => by
  have hmem : f ∈ fs.take (fs.length - s.free) := by
    rw [← h.whole, List.mem_flatMap]
    exact ⟨k, List.mem_range.mpr hk, hf⟩
  exact List.disjoint_take_drop hnd (Nat.le_refl _) hmem hf'

/-- One more cache. -/
theorem SharedOut.next {s : Share} {n : Nat} {c : PageIdx} {mm1 : MemoryManager}
    {cs : Nat → List PageIdx} (h : SharedOut nrCpus fs mm s n c mm1 cs) (hnd : fs.Nodup)
    (hfree : s.free ≤ fs.length) (hle : s.free ≤ s.total) (hfit : s.cpupages + nrCpus < 2 ^ 32)
    (htotal : s.total + 1 < 2 ^ 32) (hcpu : s.cpupages + 1 < 2 ^ 32) :
    ∃ c' mm' cs', initializeCache nrCpus (c, mm1) n = .ok (c', mm') ∧
      SharedOut nrCpus fs mm (s.next nrCpus) (n + 1) c' mm' cs' := by
  have hlen : (fs.drop (fs.length - s.free)).length = s.free := by
    rw [List.length_drop]
    omega
  have hcval := h.nextCount hfit
  generalize hc' : (if c + BitVec.ofNat 32 nrCpus ≥ (mm1.zones .normal).numTotalPages then
    (mm1.zones .normal).numTotalPages else c) = c' at hcval
  have hcbound : c'.toNat + 1 < 2 ^ 32 := by
    rw [hcval, Share.next]
    dsimp only
    split <;> omega
  -- The cache's list head, with the other rings as they were.
  have hinit : ∀ d ys, Ring.IsRing mm1.lists.links d ys → ListPtr.cachePages n ∉ d :: ys →
      Ring.IsRing (initListHead mm1.lists.links (.cachePages n)) d ys :=
    fun d ys hd hout => initListHead_frame hd hout
  have hzone := hinit _ _ h.zone
    (cachePages_notMem_onList (show ListPtr.pages .normal ≠ .cachePages n by simp) _)
  have hndrop : (fs.drop (fs.length - s.free)).Nodup := hnd.sublist (List.drop_sublist _ _)
  obtain ⟨mm', hrun, hmoved⟩ := @run_movePages n c' hcbound
    (takes c'.toNat s.free) TURNS 0
    { mm1 with lists := { mm1.lists with links := initListHead mm1.lists.links (.cachePages n) } }
    (fs.drop (fs.length - s.free)) [] (by rw [hlen]; rfl) (by unfold takes TURNS; omega)
    (by rwa [List.append_nil]) hzone (isRing_initListHead _ _)
  have hnext : (s.next nrCpus).free = s.free - takes c'.toNat s.free := by
    rw [hcval]
    rfl
  have htakes : takes c'.toNat s.free ≤ s.free := Nat.min_le_right _ _
  have hgone : fs.length - (s.next nrCpus).free
      = fs.length - s.free + takes c'.toNat s.free := by omega
  refine ⟨c', { mm' with lists := { mm'.lists with
      caches := Function.update mm'.lists.caches n
        ⟨0 + BitVec.ofNat 32 (2 * takes c'.toNat s.free),
          0 + BitVec.ofNat 32 (2 * takes c'.toNat s.free)⟩ } },
    Function.update cs n ((fs.drop (fs.length - s.free)).take (takes c'.toNat s.free)), ?_,
    hcval, ?_, ?_, ?_, ?_, ?_, ?_, ?_, ?_⟩
  · unfold initializeCache
    dsimp only
    rw [hc', hrun, Loop.ok_bind]
    rfl
  · -- `num_total_pages` has not run below zero.
    rw [show mm'.zones = _ from hmoved.zones, Function.update_self, MemoryZone.without]
    show (_ - _ : PageIdx).toNat = s.total - takes (s.next nrCpus).cpupages s.free
    rw [← hcval, BitVec.toNat_sub, BitVec.toNat_ofNat, h.total]
    omega
  · rw [hgone, ← List.drop_drop]
    exact hmoved.zone
  · -- The rings of the earlier caches are apart from both lists of this one.
    intro k hk
    rcases Nat.lt_succ_iff_lt_or_eq.mp hk with hk | rfl
    · rw [Function.update_of_ne (by omega)]
      have hkn : ListPtr.cachePages k ≠ .cachePages n := fun heq => by
        have := ListPtr.cachePages.inj heq
        omega
      refine hmoved.others _ _ (hinit _ _ (h.caches k hk) (cachePages_notMem_onList hkn _))
        fun y hy => ⟨?_, ?_⟩
      · exact apart_onList (cachePages_ne_frame k) (pages_ne_frame .normal) nofun
          (h.apart hnd hk) y hy
      · exact apart_onList (cachePages_ne_frame k) (cachePages_ne_frame n) hkn (by simp) y hy
    · rw [Function.update_self]
      exact hmoved.cache
  · rw [List.range_succ, List.flatMap_append, hgone, List.take_add, ← h.whole]
    congr 1
    · refine List.flatMap_congr fun k hk => ?_
      rw [Function.update_of_ne (by have := List.mem_range.mp hk; omega)]
    · rw [List.flatMap_singleton, Function.update_self]
  · intro k hk
    dsimp only
    rcases Nat.lt_succ_iff_lt_or_eq.mp hk with hk | rfl
    · rw [Function.update_of_ne (by omega), Function.update_of_ne (by omega),
        show mm'.lists.caches = mm1.lists.caches from hmoved.caches, h.counts k hk]
    · have hzero : ∀ x : PageIdx, 0 + x = x := fun x => BitVec.zero_add x
      rw [Function.update_self, Function.update_self, hzero, List.length_take, hlen,
        Nat.min_eq_left htakes]
  · intro d ys hd hout
    have hne : ListPtr.cachePages n ∉ d :: ys := fun hmem => (hout _ hmem).2 n rfl
    refine hmoved.others d ys (hinit d ys (h.others d ys hd hout) hne) fun y hy =>
      ⟨fun hmem => (hout y hy).1 ?_, ?_⟩
    · exact List.Sublist.subset (((List.drop_sublist _ fs).map ListPtr.frame).cons_cons _) hmem
    · rw [onList, List.map_nil, List.mem_singleton]
      exact (hout y hy).2 n
  · show mm'.zones = _
    rw [hmoved.zones, h.zones, hgone]
    simp only [Function.update_self, Function.update_idem, MemoryZone.without_without]
  · rw [show mm'.flags = mm1.flags from hmoved.flags, h.flags]

/-- All caches. -/
theorem initializePercpuCaches_rounds
    (hfit : (mm.zones .normal).numTotalPages.toNat + nrCpus + 1 < 2 ^ 32)
    (hring : Ring.IsRing mm.lists.links (.pages .normal) (fs.map .frame)) (hnd : fs.Nodup)
    (hle : fs.length ≤ (mm.zones .normal).numTotalPages.toNat) :
    ∃ c mm' cs, initializePercpuCaches nrCpus mm = .ok mm' ∧
      SharedOut nrCpus fs mm (rounds nrCpus (mm.zones .normal).numTotalPages.toNat fs.length nrCpus)
        nrCpus c mm' cs := by
  -- The loop from the first cache on, with what is left of the zone after each turn.
  have hsteps : ∀ n, n ≤ nrCpus → ∃ c mm' cs,
      (List.range n).foldlM (initializeCache nrCpus)
        ((mm.zones .normal).numTotalPages / BitVec.ofNat 32 nrCpus, mm) = .ok (c, mm') ∧
      SharedOut nrCpus fs mm (rounds nrCpus (mm.zones .normal).numTotalPages.toNat fs.length n)
        n c mm' cs := by
    intro n
    induction n with
    | zero =>
        intro _
        -- At the start all frames are on the zone's list.
        refine ⟨_, mm, fun _ => [], rfl, ?_, rfl, ?_, nofun, ?_, nofun,
          fun d ys hd _ => hd, ?_, rfl⟩
        · rw [BitVec.toNat_udiv, BitVec.toNat_ofNat, Nat.mod_eq_of_lt (by omega)]
          rfl
        · simpa [rounds] using hring
        · simp [rounds]
        · rw [rounds, Nat.sub_self, MemoryZone.without_zero, Function.update_eq_self]
    | succ n ih =>
        intro hn
        -- A turn is `SharedOut.next`. The bounds say that its subtractions do not wrap.
        obtain ⟨c, mm1, cs, hrun, h⟩ := ih (by omega)
        obtain ⟨h1, h2, h3, h4, -⟩ := @rounds_le nrCpus _ _ hle n
        obtain ⟨c', mm', cs', hcache, h'⟩ := h.next hnd h4 h3 (by omega) (by omega) (by omega)
        refine ⟨c', mm', cs', ?_, h'⟩
        rw [List.range_succ, List.foldlM_append, hrun]
        simp only [List.foldlM_cons, List.foldlM_nil, Loop.ok_bind, hcache]
        rfl
  obtain ⟨c, mm', cs, hrun, h⟩ := hsteps nrCpus (Nat.le_refl _)
  refine ⟨c, mm', cs, ?_, h⟩
  rw [initializePercpuCaches, hrun]
  rfl

end Caches

/-! ### How many pages are handed out -/

/-- How many pages one cache takes as long as the last one is not seen: half of its share. -/
def halfShare (nrCpus total : Nat) : Nat := (total / nrCpus + 1) / 2

/-- The first cache that is taken for the last one. -/
def lastCache (nrCpus total : Nat) : Nat :=
  (total - total / nrCpus - nrCpus + halfShare nrCpus total - 1) / halfShare nrCpus total

/-- How many pages the first `n` caches take of a zone with enough of them: half a share each,
and from the last cache on half of what is left. -/
def handedOut (nrCpus total n : Nat) : Nat :=
  if n ≤ lastCache nrCpus total then n * halfShare nrCpus total
  else total - (total - lastCache nrCpus total * halfShare nrCpus total)
    / 2 ^ (n - lastCache nrCpus total)

section HandedOut

variable {nrCpus total : Nat}

/-- Before the last cache that gets pages, a full share is left. -/
theorem before_lastCache {n : Nat} (h : n < lastCache nrCpus total) :
    n * halfShare nrCpus total + total / nrCpus + nrCpus < total := by
  unfold lastCache at h
  rcases Nat.eq_zero_or_pos (halfShare nrCpus total) with h0 | hpos
  · rw [h0, Nat.div_zero] at h
    omega
  · rw [Nat.lt_div_iff_mul_lt hpos] at h
    generalize total / nrCpus = share at h ⊢
    omega

/-- At that cache, there is not. -/
theorem at_lastCache (hpos : 0 < nrCpus) :
    total ≤ lastCache nrCpus total * halfShare nrCpus total + total / nrCpus + nrCpus := by
  rcases Nat.eq_zero_or_pos (halfShare nrCpus total) with h0 | hshare
  · -- There are fewer pages than caches.
    have hdiv : total / nrCpus = 0 := by
      unfold halfShare at h0
      generalize total / nrCpus = share at h0 ⊢
      omega
    have := Nat.lt_of_div_eq_zero hpos hdiv
    omega
  · have := Nat.lt_mul_div_succ
      (total - total / nrCpus - nrCpus + halfShare nrCpus total - 1) hshare
    rw [Nat.mul_add, Nat.mul_one, Nat.mul_comm] at this
    unfold lastCache
    omega

/-- The full shares do not exceed what there is. -/
theorem lastCache_le : lastCache nrCpus total * halfShare nrCpus total ≤ total := by
  have h := Nat.div_mul_le_self (total - total / nrCpus - nrCpus + halfShare nrCpus total - 1)
    (halfShare nrCpus total)
  rcases Nat.eq_zero_or_pos (lastCache nrCpus total) with h0 | hpos
  · rw [h0, Nat.zero_mul]
    exact Nat.zero_le _
  · have hbefore := @before_lastCache nrCpus total 0 hpos
    have hhalf : 2 * halfShare nrCpus total ≤ total / nrCpus + 1 := by
      unfold halfShare
      omega
    unfold lastCache
    generalize total / nrCpus = share at hbefore hhalf h ⊢
    omega

/-- From the last cache on, what is left is halved. -/
theorem handedOut_after {n : Nat} (h : lastCache nrCpus total ≤ n) :
    handedOut nrCpus total n = total - (total - lastCache nrCpus total * halfShare nrCpus total)
      / 2 ^ (n - lastCache nrCpus total) := by
  unfold handedOut
  split
  · case isTrue hle =>
      obtain rfl : n = lastCache nrCpus total := Nat.le_antisymm hle h
      have := @lastCache_le nrCpus total
      rw [Nat.sub_self, Nat.pow_zero, Nat.div_one]
      omega
  · rfl

/-- What one more cache takes. -/
theorem handedOut_succ (n : Nat) :
    handedOut nrCpus total (n + 1) = handedOut nrCpus total n
      + if n < lastCache nrCpus total then halfShare nrCpus total
        else (total - handedOut nrCpus total n + 1) / 2 := by
  by_cases h : n < lastCache nrCpus total
  · rw [if_pos h, handedOut, if_pos (by omega), handedOut, if_pos (by omega), Nat.succ_mul]
  · have hsucc : n + 1 - lastCache nrCpus total = n - lastCache nrCpus total + 1 := by omega
    rw [if_neg h, handedOut_after (by omega), handedOut_after (by omega), hsucc, Nat.pow_succ,
      ← Nat.div_div_eq_div_mul]
    have hle := Nat.div_le_self (total - lastCache nrCpus total * halfShare nrCpus total)
      (2 ^ (n - lastCache nrCpus total))
    generalize (total - lastCache nrCpus total * halfShare nrCpus total)
      / 2 ^ (n - lastCache nrCpus total) = left at hle ⊢
    omega

/-- The loop hands out so many pages, as long as there are any. -/
theorem rounds_handedOut {free : Nat} (hle : free ≤ total) :
    ∀ n, n ≤ nrCpus → (rounds nrCpus total free n).free = free - handedOut nrCpus total n ∧
      (handedOut nrCpus total n ≤ free →
        (rounds nrCpus total free n).total = total - handedOut nrCpus total n ∧
        (n ≤ lastCache nrCpus total → (rounds nrCpus total free n).cpupages = total / nrCpus) ∧
        (lastCache nrCpus total < n →
          (rounds nrCpus total free n).total ≤ (rounds nrCpus total free n).cpupages)) := by
  intro n
  induction n with
  | zero =>
      intro _
      have hzero : handedOut nrCpus total 0 = 0 := by simp [handedOut]
      exact ⟨by simp [rounds, hzero], fun _ => ⟨by simp [rounds, hzero], fun _ => rfl,
        fun h => absurd h (Nat.not_lt_zero _)⟩⟩
  -- A turn looks at what the turns before it have left. The cases are those of `handedOut`: the
  -- list is used up, or the next cache is the last one to be filled.
  | succ n ih =>
      intro hn
      obtain ⟨hfree, hrest⟩ := ih (by omega)
      have hsucc := @handedOut_succ nrCpus total n
      rw [rounds]
      generalize rounds nrCpus total free n = s at hfree hrest ⊢
      dsimp only [Share.next]
      by_cases hshort : handedOut nrCpus total n ≤ free
      · obtain ⟨htotal, hbefore, hafter⟩ := hrest hshort
        by_cases hlast : n < lastCache nrCpus total
        · -- The last cache is not in sight.
          have hb := before_lastCache hlast
          have hout : handedOut nrCpus total n = n * halfShare nrCpus total := if_pos (by omega)
          have hc := hbefore (by omega)
          rw [if_pos hlast] at hsucc
          rw [if_neg (by omega), hc]
          have hhalf : takes (total / nrCpus) s.free
              = min (halfShare nrCpus total) s.free := rfl
          rw [hhalf]
          exact ⟨by omega, fun hle' => ⟨by omega, fun _ => rfl, fun h => by omega⟩⟩
        · -- The cache gets all pages for its share, and counts two for each.
          have hc : s.total ≤ s.cpupages + nrCpus := by
            rcases Nat.lt_or_ge (lastCache nrCpus total) n with hlt | hge
            · have := hafter hlt
              omega
            · obtain rfl : n = lastCache nrCpus total := by omega
              have hout : handedOut nrCpus total (lastCache nrCpus total)
                  = lastCache nrCpus total * halfShare nrCpus total := if_pos (Nat.le_refl _)
              have hat := @at_lastCache nrCpus total (by omega)
              have hshare := hbefore (Nat.le_refl _)
              omega
          rw [if_neg hlast] at hsucc
          rw [if_pos hc]
          unfold takes
          exact ⟨by omega, fun hle' => ⟨by omega, fun h => by omega, fun _ => by omega⟩⟩
      · -- The list is empty.
        have hzero : s.free = 0 := by omega
        rw [hzero]
        exact ⟨by omega, fun hle' => by omega⟩

end HandedOut

/-! ### Nothing is left over -/

/-- Of the pages `fs` of the zone's list, each has gone to one cache. -/
structure AllShared (nrCpus : Nat) (fs : List PageIdx) (mm : MemoryManager) : Prop where
  empty : Ring.IsRing mm.lists.links (.pages .normal) []
  caches : ∃ cs : Nat → List PageIdx,
    (∀ k, k < nrCpus → Ring.IsRing mm.lists.links (.cachePages k) ((cs k).map .frame)) ∧
      ((List.range nrCpus).flatMap cs).Perm fs

/-- The caches take all free pages exactly when there are no more of them than is handed out.
The page array has room for fewer than `2 ^ 25` frames, so that the counters do not wrap. -/
theorem allShared_iff {nrCpus : Nat} {fs : List PageIdx} {mm : MemoryManager}
    (hfit : (mm.zones .normal).numTotalPages.toNat + nrCpus + 1 < 2 ^ 32)
    (hring : Ring.IsRing mm.lists.links (.pages .normal) (fs.map .frame)) (hnd : fs.Nodup)
    (hle : fs.length ≤ (mm.zones .normal).numTotalPages.toNat) :
    ∃ mm', initializePercpuCaches nrCpus mm = .ok mm' ∧
      (AllShared nrCpus fs mm' ↔
        fs.length ≤ handedOut nrCpus (mm.zones .normal).numTotalPages.toNat nrCpus) := by
  obtain ⟨c, mm', cs, hrun, h⟩ := initializePercpuCaches_rounds hfit hring hnd hle
  obtain ⟨hfree, -⟩ := rounds_handedOut hle nrCpus (Nat.le_refl _)
  generalize rounds nrCpus _ fs.length nrCpus = s at h hfree
  refine ⟨mm', hrun, fun hall => ?_, fun hout => ?_⟩
  · -- The list is what the caches have left of it.
    have hhead : ListPtr.pages .normal ∉ (fs.drop (fs.length - s.free)).map ListPtr.frame :=
      fun hmem => by
        obtain ⟨f, -, hf⟩ := List.mem_map.mp hmem
        cases hf
    have hnil := Ring.IsRing.unique h.zone hall.empty hhead (by simp)
    rw [List.map_eq_nil_iff, List.drop_eq_nil_iff] at hnil
    rcases Nat.eq_zero_or_pos fs.length with h0 | hpos
    · omega
    · have hs : s.free ≤ fs.length := by omega
      omega
  · have hzero : fs.length - s.free = fs.length := by omega
    refine ⟨?_, cs, h.caches, ?_⟩
    · have := h.zone
      rwa [hzero, List.drop_length] at this
    · rw [h.whole, hzero, List.take_length]

/-- A zone with the free pages `fs` and some reserved ones. -/
def normalZone (fs : List PageIdx) (reserved : PageIdx) : MemoryManager where
  lists := ⟨(initListHead ⟨fun _ => none, fun _ => none⟩ (.pages .normal)).insertAll
    (.pages .normal) (.pages .normal) (fs.map .frame), fun _ => ⟨0, 0⟩⟩
  zones := fun _ => ⟨BitVec.ofNat 32 fs.length + reserved, BitVec.ofNat 32 fs.length, reserved⟩
  flags := fun _ => 0

/-- The free list of the zone is a ring. -/
theorem isRing_normalZone {fs : List PageIdx} (hnd : fs.Nodup) (reserved : PageIdx) :
    Ring.IsRing (normalZone fs reserved).lists.links (.pages .normal) (fs.map .frame) :=
  Ring.ring_insertAll (fs.map ListPtr.frame) []
    (initListHead ⟨fun _ => none, fun _ => none⟩ (ListPtr.pages .normal))
    (isRing_initListHead _ _) (nodup_onList hnd (pages_ne_frame .normal))

/-- Five free pages and three reserved ones, for two caches. -/
theorem allShared_five :
    ∃ mm', initializePercpuCaches 2 (normalZone [4096, 4097, 4098, 4099, 4100] 3) = .ok mm' ∧
      (AllShared 2 [4096, 4097, 4098, 4099, 4100] mm' ↔
        [(4096 : PageIdx), 4097, 4098, 4099, 4100].length
          ≤ handedOut 2 ((normalZone [4096, 4097, 4098, 4099, 4100] 3).zones
            .normal).numTotalPages.toNat 2) :=
  allShared_iff (by decide) (isRing_normalZone (by decide) 3) (by decide) (by decide)

/-- Two free pages for one cache: it counts the first one twice and leaves the second. -/
theorem allShared_two : ∃ mm', initializePercpuCaches 1 (normalZone [4096, 4097] 0) = .ok mm' ∧
    ¬ AllShared 1 [4096, 4097] mm' := by
  obtain ⟨mm', hrun, hnext⟩ := Loop.exists_of_bind (b := some (ListPtr.frame 4097))
    (x := initializePercpuCaches 1 (normalZone [4096, 4097] 0))
    (f := fun mm => pure (mm.lists.links.next (.pages .normal))) (by decide +kernel)
  refine ⟨mm', hrun, fun hall => ?_⟩
  have hhead := hall.empty.next
  rw [Except.ok.inj hnext] at hhead
  exact absurd hhead (by decide)

end MString
