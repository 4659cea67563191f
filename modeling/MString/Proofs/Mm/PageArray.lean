import MString.Proofs.Mm.PercpuCaches

/-!
# `MString.Proofs.Mm.PageArray`: what `initialize_page_array` leaves behind

The loop takes one page after the other and moves through the memory map beside it.
`scanPage` is its way from one page to the next, without the page lists, and
`usablePage` what it finds for a page.

* `initializePage_sorted`: a page goes to the end of its list.
* `pageArrayTurn_steps`: a turn takes the next page or moves on in the map.
* `exists_atPage`, `InPageArrayLoop.atPage`: the states of the loop, in runs that fault too.
* `initializePageArray_sorted`: in the end, every frame is on the list it belongs to.
-/

set_option autoImplicit false

namespace MString

/-! ### The way through the memory map -/

/-- The map that the scan stands in has the address. -/
def MapScan.covers (sc : MapScan) (addr : Uintptr) : Prop :=
  sc.mmapBegin ≤ addr ∧ addr < sc.mmapEnd

instance (sc : MapScan) (addr : Uintptr) : Decidable (sc.covers addr) :=
  inferInstanceAs (Decidable (_ ∧ _))

/-- The scan with the map entered. -/
def MapScan.entered (sc : MapScan) : MapScan := { sc with justLeft := false }

/-- One page: whether it is usable, and the scan behind it. -/
def scanPage (t : E820Table) (sc : MapScan) (addr : Uintptr) : Except Fault (Bool × MapScan) :=
  if sc.covers addr then .ok (sc.type == E820_USABLE, sc.entered)
  else if sc.justLeft = false then do
    let sc ← nextMap t sc
    if sc.covers addr then return (sc.type == E820_USABLE, sc.entered)
    else return (false, sc)
  else .ok (false, sc)

/-- The address of page `p`. -/
def pageAddr (p : Nat) : Uintptr := BitVec.ofNat 64 (4096 * p)

/-- The scan in front of page `p`. -/
def scanAt (t : E820Table) : Nat → Except Fault MapScan
  | 0 => .ok (firstMap t)
  | p + 1 => do
      let sc ← scanAt t p
      let (_, sc) ← scanPage t sc (pageAddr p)
      return sc

/-- The scan finds page `p` usable. -/
def usablePage (t : E820Table) (p : Nat) : Bool :=
  match scanAt t p with
  | .ok sc =>
      match scanPage t sc (pageAddr p) with
      | .ok (usable, _) => usable
      | .error _ => false
  | .error _ => false

/-- What the scan says of the next page is whether it is usable. -/
theorem usablePage_of_scan {t : E820Table} {p : Nat} {sc sc' : MapScan} {usable : Bool}
    (hsc : scanAt t p = .ok sc) (hpage : scanPage t sc (pageAddr p) = .ok (usable, sc')) :
    usablePage t p = usable := by
  simp only [usablePage, hsc, hpage]

/-- The scan goes on behind this page. -/
theorem scanAt_succ {t : E820Table} {p : Nat} {sc sc' : MapScan} {usable : Bool}
    (hsc : scanAt t p = .ok sc) (hpage : scanPage t sc (pageAddr p) = .ok (usable, sc')) :
    scanAt t (p + 1) = .ok sc' := by
  simp only [scanAt, hsc, hpage, Loop.ok_bind]
  rfl

/-! ### The frames of a zone -/

/-- The zone of frame `p`. -/
def inZone (z : ZoneType) (p : Nat) : Bool := zoneOf (BitVec.ofNat 32 p) == z

/-- Of the frames below `n`, those of the zone `z` that are free, or not, as `k` says. -/
def framesOf (free : Nat → Bool) (k : Bool) (z : ZoneType) (n : Nat) : List PageIdx :=
  ((List.range n).filter fun p => inZone z p && (free p == k)).map (BitVec.ofNat 32)

/-- The list they are on. -/
def listHead (k : Bool) (z : ZoneType) : ListPtr := if k then .pages z else .reservedPages z

/-- A list head is no frame, ... -/
theorem listHead_ne_frame (k : Bool) (z : ZoneType) (f : PageIdx) : listHead k z ≠ .frame f := by
  cases k <;> exact nofun

/-- ... and the four heads are different. -/
theorem listHead_inj {k k' : Bool} {z z' : ZoneType} (h : listHead k z = listHead k' z') :
    k = k' ∧ z = z' := by
  cases k <;> cases k' <;> simp_all [listHead]

/-- One page more on its list, or none. -/
theorem framesOf_succ (free : Nat → Bool) (k : Bool) (z : ZoneType) (n : Nat) :
    framesOf free k z (n + 1)
      = if inZone z n && (free n == k) then framesOf free k z n ++ [BitVec.ofNat 32 n]
        else framesOf free k z n := by
  unfold framesOf
  rw [List.range_succ, List.filter_append, List.map_append]
  by_cases h : (inZone z n && (free n == k)) = true
  · rw [if_pos h, @List.filter_cons_of_pos _ (fun p => inZone z p && (free p == k)) n [] h]
    rfl
  · rw [if_neg h, @List.filter_cons_of_neg _ (fun p => inZone z p && (free p == k)) n [] h]
    simp

/-- The frames on a list, by their numbers. -/
theorem mem_framesOf {free : Nat → Bool} {k : Bool} {z : ZoneType} {n : Nat} {idx : PageIdx} :
    idx ∈ framesOf free k z n ↔
      ∃ p, p < n ∧ zoneOf (BitVec.ofNat 32 p) = z ∧ free p = k ∧ idx = BitVec.ofNat 32 p := by
  simp only [framesOf, List.mem_map, List.mem_filter, List.mem_range, Bool.and_eq_true, inZone,
    beq_iff_eq]
  constructor
  · intro ⟨p, ⟨hp, hz, hf⟩, heq⟩
    exact ⟨p, hp, hz, hf, heq.symm⟩
  · intro ⟨p, hp, hz, hf, heq⟩
    exact ⟨p, ⟨hp, hz, hf⟩, heq.symm⟩

/-- Different numbers below `2 ^ 32` are different frames. -/
theorem ofNat32_inj {p q : Nat} (hp : p < 2 ^ 32) (hq : q < 2 ^ 32)
    (h : BitVec.ofNat 32 p = BitVec.ofNat 32 q) : p = q := by
  have := congrArg BitVec.toNat h
  rwa [BitVec.toNat_ofNat, BitVec.toNat_ofNat, Nat.mod_eq_of_lt hp, Nat.mod_eq_of_lt hq] at this

/-- None of them is there twice. -/
theorem nodup_framesOf (free : Nat → Bool) (k : Bool) (z : ZoneType) {n : Nat} (hn : n ≤ 2 ^ 32) :
    (framesOf free k z n).Nodup := by
  induction n with
  | zero => exact List.nodup_nil
  | succ n ih =>
      rw [framesOf_succ]
      split
      · refine List.nodup_append.mpr ⟨ih (by omega), List.nodup_singleton _, ?_⟩
        intro a ha b hb heq
        obtain ⟨p, hp, -, -, rfl⟩ := mem_framesOf.mp ha
        rw [List.mem_singleton.mp hb] at heq
        have := ofNat32_inj (by omega) (by omega) heq
        omega
      · exact ih (by omega)

/-- A frame that is not below `n`. -/
theorem frame_not_mem {free : Nat → Bool} {k : Bool} {z : ZoneType} {n : Nat} (hn : n < 2 ^ 32) :
    ListPtr.frame (BitVec.ofNat 32 n) ∉ onList (listHead k z) (framesOf free k z n) := by
  intro hmem
  rcases List.mem_cons.mp hmem with heq | hmem
  · exact listHead_ne_frame k z _ heq.symm
  · obtain ⟨f, hf, heq⟩ := List.mem_map.mp hmem
    rw [ListPtr.frame.inj heq] at hf
    obtain ⟨p, hp, -, -, heq⟩ := mem_framesOf.mp hf
    have := ofNat32_inj hn (by omega) heq
    omega

/-- Different lists have no node in common. -/
theorem lists_apart {free : Nat → Bool} {k k' : Bool} {z z' : ZoneType} {n : Nat} (hn : n ≤ 2 ^ 32)
    (h : ¬ (k = k' ∧ z = z')) : ∀ y ∈ onList (listHead k z) (framesOf free k z n),
      y ∉ onList (listHead k' z') (framesOf free k' z' n) := by
  refine apart_onList (listHead_ne_frame k z) (listHead_ne_frame k' z')
    (fun heq => h (listHead_inj heq)) fun f hf hf' => ?_
  obtain ⟨p, hp, hz, hfree, rfl⟩ := mem_framesOf.mp hf
  obtain ⟨q, hq, hz', hfree', heq⟩ := mem_framesOf.mp hf'
  obtain rfl := ofNat32_inj (by omega) (by omega) heq
  exact h ⟨hfree.symm.trans hfree', hz.symm.trans hz'⟩

/-- The first `n` frames stand on the lists of their zones, by `free`, and are counted. -/
structure Sorted (free : Nat → Bool) (n : Nat) (mm : MemoryManager) : Prop where
  rings : ∀ k z, Ring.IsRing mm.lists.links (listHead k z) ((framesOf free k z n).map .frame)
  counts : ∀ z, mm.zones z
    = ⟨BitVec.ofNat 32 (framesOf free true z n).length
          + BitVec.ofNat 32 (framesOf free false z n).length,
        BitVec.ofNat 32 (framesOf free true z n).length,
        BitVec.ofNat 32 (framesOf free false z n).length⟩

/-- The zones start empty. -/
theorem sorted_initializeZones (free : Nat → Bool) (mm : MemoryManager) :
    Sorted free 0 (initializeZones mm) := by
  refine ⟨fun k z => ?_, fun z => rfl⟩
  show Ring.IsRing _ (listHead k z) []
  -- Each head points at itself from its own turn on.
  cases k with
  | true =>
      cases z with
      | dma =>
          refine initListHead_frame (initListHead_frame (initListHead_frame
            (isRing_initListHead _ _) ?_) ?_) ?_ <;> simp [listHead]
      | normal => exact initListHead_frame (isRing_initListHead _ _) (by simp [listHead])
  | false =>
      cases z with
      | dma =>
          refine initListHead_frame (initListHead_frame (isRing_initListHead _ _) ?_) ?_ <;>
            simp [listHead]
      | normal => exact isRing_initListHead _ _

/-! ### One page -/

/-- Frame `n` is one of the kernel's pages. -/
def kernelFrame (kdataEnd maxPhysAddr : Uintptr) (n : Nat) : Bool :=
  decide (kernelStartPage ≤ BitVec.ofNat 32 n ∧
    BitVec.ofNat 32 n ≤ kernelEndPage kdataEnd maxPhysAddr)

section Page

variable {free : Nat → Bool} {n : Nat} {mm : MemoryManager} {kdataEnd maxPhysAddr : Uintptr}

/-- Frame `n` on the end of its list. -/
theorem Sorted.add (h : Sorted free n mm) (hn : n < 2 ^ 32) :
    ∃ links, listAddTail (initListHead mm.lists.links (.frame (BitVec.ofNat 32 n)))
        (.frame (BitVec.ofNat 32 n)) (listHead (free n) (zoneOf (BitVec.ofNat 32 n))) = .ok links ∧
      ∀ k z, Ring.IsRing links (listHead k z) ((framesOf free k z (n + 1)).map .frame) := by
  have hinit : ∀ k z, Ring.IsRing
      (initListHead mm.lists.links (.frame (BitVec.ofNat 32 n))) (listHead k z)
      ((framesOf free k z n).map .frame) := fun k z =>
    initListHead_frame (h.rings k z) (frame_not_mem hn)
  obtain ⟨links, hadd, hring, hothers⟩ := listAddTail_apart
    (hinit (free n) (zoneOf (BitVec.ofNat 32 n)))
    (nodup_onList (nodup_framesOf free _ _ (by omega)) (listHead_ne_frame _ _)) (frame_not_mem hn)
  refine ⟨links, hadd, fun k z => ?_⟩
  rw [framesOf_succ]
  by_cases hsame : free n = k ∧ zoneOf (BitVec.ofNat 32 n) = z
  · obtain ⟨rfl, rfl⟩ := hsame
    rw [if_pos (by simp [inZone]), List.map_append]
    exact hring
  · have hother : ¬ ((inZone z n && (free n == k)) = true) := fun hc => by
      simp only [inZone, Bool.and_eq_true, beq_iff_eq] at hc
      exact hsame ⟨hc.2, hc.1⟩
    rw [if_neg hother]
    exact hothers _ _ (hinit k z) (frame_not_mem hn) (lists_apart (by omega) hsame)

/-- A page that the array has room for is put on its list. -/
theorem initializePage_sorted {usable : Bool} {st : PageArrayState} (h : Sorted free n st.mm)
    (hn : n < 2 ^ 32) (hidx : st.pageIdx = BitVec.ofNat 32 n)
    (hfree : free n = (usable && !kernelFrame kdataEnd maxPhysAddr n))
    (haccess : accessPageFrame kdataEnd (BitVec.ofNat 32 n) = .ok ()) :
    ∃ mm', initializePage kdataEnd maxPhysAddr usable st
        = .ok ⟨st.scan, st.currAddr + PAGE_SIZE, BitVec.ofNat 32 (n + 1), mm'⟩ ∧
      Sorted free (n + 1) mm' := by
  obtain ⟨links, hadd, hrings⟩ := h.add hn
  -- The code reserves a frame that the map does not give, or that the kernel is in.
  have hres : (!usable || decide (kernelStartPage ≤ BitVec.ofNat 32 n ∧
      BitVec.ofNat 32 n ≤ kernelEndPage kdataEnd maxPhysAddr)) = !free n := by
    rw [hfree, kernelFrame]
    cases usable <;> simp
  have hlist : (if (!free n) = true then ListPtr.reservedPages (zoneOf (BitVec.ofNat 32 n))
      else .pages (zoneOf (BitVec.ofNat 32 n)))
        = listHead (free n) (zoneOf (BitVec.ofNat 32 n)) := by
    cases free n <;> rfl
  have hnext : BitVec.ofNat 32 n + 1 = (BitVec.ofNat 32 (n + 1) : PageIdx) := by
    rw [BitVec.ofNat_add]
    rfl
  refine ⟨{ lists := { st.mm.lists with links := links }
            zones := Function.update st.mm.zones (zoneOf (BitVec.ofNat 32 n))
              (if (!free n) = true then
                { st.mm.zones (zoneOf (BitVec.ofNat 32 n)) with
                  numTotalPages := (st.mm.zones (zoneOf (BitVec.ofNat 32 n))).numTotalPages + 1
                  numReservedPages :=
                    (st.mm.zones (zoneOf (BitVec.ofNat 32 n))).numReservedPages + 1 }
              else
                { st.mm.zones (zoneOf (BitVec.ofNat 32 n)) with
                  numTotalPages := (st.mm.zones (zoneOf (BitVec.ofNat 32 n))).numTotalPages + 1
                  numFreePages := (st.mm.zones (zoneOf (BitVec.ofNat 32 n))).numFreePages + 1 })
            flags := Function.update st.mm.flags (BitVec.ofNat 32 n)
              (if (!free n) = true then (zoneOf (BitVec.ofNat 32 n)).flags ||| PAGE_RESERVED
              else (zoneOf (BitVec.ofNat 32 n)).flags) }, ?_, hrings, fun z => ?_⟩
  · unfold initializePage
    simp only [hidx, haccess, hres, hlist, hadd, Loop.ok_bind, hnext]
    rfl
  · -- Only the counters of the frame's own zone and kind change.
    dsimp only
    by_cases hz : z = zoneOf (BitVec.ofNat 32 n)
    · subst hz
      have hin : inZone (zoneOf (BitVec.ofNat 32 n)) n = true := by simp [inZone]
      rw [Function.update_self, h.counts, framesOf_succ, framesOf_succ, hin]
      cases free n <;>
        simp [BitVec.ofNat_add, BitVec.add_assoc, BitVec.add_comm (BitVec.ofNat 32 1)]
    · have hout : inZone z n = false := by
        simp only [inZone, beq_eq_false_iff_ne]
        exact fun heq => hz heq.symm
      rw [Function.update_of_ne hz, h.counts, framesOf_succ, framesOf_succ, hout]
      rfl

end Page

/-- A page that has been initialised is one the array has room for. -/
theorem access_of_initializePage {kdataEnd maxPhysAddr : Uintptr} {usable : Bool}
    {st st' : PageArrayState} (h : initializePage kdataEnd maxPhysAddr usable st = .ok st') :
    accessPageFrame kdataEnd st.pageIdx = .ok () := by
  obtain ⟨_, haccess, -⟩ := Loop.exists_of_bind h
  exact haccess

/-- The array has room for the first `n` frames: with their descriptors, it ends in the
gigabyte of the kernel window that the boot tables map. Behind that `initialize_page_array`
faults. -/
def HasRoom (kdataEnd : Uintptr) (n : Nat) : Prop :=
  n = 0 ∨ KERNEL_BASE ≤ kdataEnd ∧
    kdataEnd.toNat + 40 * n ≤ KERNEL_BASE.toNat + BOOT_WINDOW_SIZE.toNat

/-- The boot tables map one gigabyte. -/
theorem toNat_BOOT_WINDOW_SIZE : BOOT_WINDOW_SIZE.toNat = 2 ^ 30 := by decide

/-- A gigabyte has room for less than `2 ^ 25` descriptors, so a frame's number is far from
the end of a `page_idx_t`. -/
theorem HasRoom.lt {kdataEnd : Uintptr} {n : Nat} (h : HasRoom kdataEnd n) : n < 2 ^ 25 := by
  rcases h with rfl | ⟨hbase, hfits⟩
  · omega
  · rw [BitVec.le_def] at hbase
    rw [toNat_BOOT_WINDOW_SIZE] at hfits
    omega

/-- Where there is room for many pages, there is room for fewer. -/
theorem HasRoom.mono {kdataEnd : Uintptr} {n k : Nat} (h : HasRoom kdataEnd n) (hk : k ≤ n) :
    HasRoom kdataEnd k := by
  rcases h with rfl | ⟨hbase, hfits⟩
  · exact .inl (by omega)
  · exact .inr ⟨hbase, by omega⟩

/-- The next frame of the array. When there is room for the first `n`, the access to number
`n` goes through exactly when there is room for it too. -/
theorem accessPageFrame_iff {kdataEnd : Uintptr} {n : Nat} (h : HasRoom kdataEnd n) :
    accessPageFrame kdataEnd (BitVec.ofNat 32 n) = .ok () ↔ HasRoom kdataEnd (n + 1) := by
  have hn := h.lt
  have hkb : KERNEL_BASE.toNat = 0xffffffff80000000 := by decide
  have hlt := kdataEnd.isLt
  -- The structures are 40 bytes each, and their addresses may wrap.
  have hpage : (pageFrameAt kdataEnd (BitVec.ofNat 32 n)).toNat
      = (kdataEnd.toNat + 40 * n) % 2 ^ 64 := by
    rw [pageFrameAt, BitVec.toNat_add, BitVec.toNat_mul, BitVec.toNat_setWidth, BitVec.toNat_ofNat,
      show PAGE_FRAME_SIZE.toNat = 40 from rfl, Nat.mod_eq_of_lt (show n < 2 ^ 32 by omega),
      Nat.mod_eq_of_lt (show n < 2 ^ 64 by omega),
      Nat.mod_eq_of_lt (show 40 * n < 2 ^ 64 by omega)]
  have hend : (pageFrameAt kdataEnd (BitVec.ofNat 32 n) - KERNEL_BASE + PAGE_FRAME_SIZE).toNat
      = ((kdataEnd.toNat + 40 * n) % 2 ^ 64 + 0x80000000 + 40) % 2 ^ 64 := by
    rw [BitVec.toNat_add, BitVec.toNat_sub, hpage, hkb, show PAGE_FRAME_SIZE.toNat = 40 from rfl]
    omega
  -- What is tested of the structure `n` is that its last byte is in the window, and so are
  -- those of the structures before it.
  have hcond : (KERNEL_BASE ≤ pageFrameAt kdataEnd (BitVec.ofNat 32 n) ∧
      pageFrameAt kdataEnd (BitVec.ofNat 32 n) - KERNEL_BASE + PAGE_FRAME_SIZE
        ≤ BOOT_WINDOW_SIZE) ↔
      HasRoom kdataEnd (n + 1) := by
    rw [BitVec.le_def, BitVec.le_def, hpage, hend, hkb, HasRoom, BitVec.le_def, hkb,
      toNat_BOOT_WINDOW_SIZE]
    rcases h with rfl | ⟨hbase, hfits⟩
    · omega
    · rw [BitVec.le_def, hkb] at hbase
      rw [hkb, toNat_BOOT_WINDOW_SIZE] at hfits
      omega
  unfold accessPageFrame
  dsimp only
  by_cases hroom : HasRoom kdataEnd (n + 1)
  · rw [if_pos (hcond.mpr hroom)]
    exact iff_of_true rfl hroom
  · rw [if_neg fun hc => hroom (hcond.mp hc)]
    exact iff_of_false nofun hroom

/-! ### The loop -/

/-- The frames that the loop initialises: those that begin below `max_phys_addr`. -/
def pageCount (maxPhysAddr : Uintptr) : Nat := (maxPhysAddr.toNat + 4095) / 4096

/-- Frame `n` is for the allocator: the scan finds it usable, and it is none of the kernel's. -/
def freeFrame (t : E820Table) (kdataEnd maxPhysAddr : Uintptr) (n : Nat) : Bool :=
  usablePage t n && !kernelFrame kdataEnd maxPhysAddr n

/-- The loop in front of page `n`, where the scan may have moved on to the next map already. -/
structure AtPage (t : E820Table) (kdataEnd maxPhysAddr : Uintptr) (n : Nat)
    (st : PageArrayState) : Prop where
  sorted : Sorted (freeFrame t kdataEnd maxPhysAddr) n st.mm
  idx : st.pageIdx = BitVec.ofNat 32 n
  addr : st.currAddr = pageAddr n
  scan : ∃ sc, scanAt t n = .ok sc ∧ (st.scan = sc ∨
    ¬ sc.covers (pageAddr n) ∧ sc.justLeft = false ∧ nextMap t sc = .ok st.scan)
  room : HasRoom kdataEnd n
  below : n ≤ pageCount maxPhysAddr

/-- The pages below the end of memory are those that are counted. -/
theorem pageAddr_lt {maxPhysAddr : Uintptr} {n : Nat} (hn : n < 2 ^ 25) :
    pageAddr n < maxPhysAddr ↔ n < pageCount maxPhysAddr := by
  rw [BitVec.lt_def, pageAddr, BitVec.toNat_ofNat, pageCount]
  omega

/-- The address of the next page. -/
theorem pageAddr_succ (n : Nat) : pageAddr n + PAGE_SIZE = pageAddr (n + 1) := by
  rw [pageAddr, pageAddr, Nat.mul_add, BitVec.ofNat_add]
  rfl

/-- A scan that goes to the next record has just left one. -/
theorem justLeft_of_nextMap {t : E820Table} {sc sc' : MapScan} (h : nextMap t sc = .ok sc') :
    sc'.justLeft = true := by
  unfold nextMap at h
  split at h
  · obtain ⟨m, -, h⟩ := Loop.exists_of_bind h
    cases h
    rfl
  · cases h
    rfl

section Loop

variable {t : E820Table} {kdataEnd maxPhysAddr : Uintptr} {n : Nat} {st : PageArrayState}

/-- The scan of a page that the map covers, be it the next one. -/
theorem AtPage.scanPage_covered (h : AtPage t kdataEnd maxPhysAddr n st)
    (hcov : st.scan.covers (pageAddr n)) : ∃ sc, scanAt t n = .ok sc ∧
      scanPage t sc (pageAddr n) = .ok (st.scan.type == E820_USABLE, st.scan.entered) := by
  obtain ⟨sc, hsc, heq | ⟨hout, hleft, hnext⟩⟩ := h.scan
  · refine ⟨sc, hsc, ?_⟩
    rw [heq] at hcov ⊢
    rw [scanPage, if_pos hcov]
  · refine ⟨sc, hsc, ?_⟩
    rw [scanPage, if_neg hout, if_pos hleft, hnext, Loop.ok_bind, if_pos hcov]
    rfl

/-- The scan of a page in a gap. -/
theorem AtPage.scanPage_gap (h : AtPage t kdataEnd maxPhysAddr n st)
    (hcov : ¬ st.scan.covers (pageAddr n)) (hleft : st.scan.justLeft = true) :
    ∃ sc, scanAt t n = .ok sc ∧ scanPage t sc (pageAddr n) = .ok (false, st.scan) := by
  obtain ⟨sc, hsc, heq | ⟨hout, hleft', hnext⟩⟩ := h.scan
  · refine ⟨sc, hsc, ?_⟩
    rw [heq] at hcov hleft ⊢
    rw [scanPage, if_neg hcov, if_neg (by simp [hleft])]
  · refine ⟨sc, hsc, ?_⟩
    rw [scanPage, if_neg hout, if_pos hleft', hnext, Loop.ok_bind, if_neg hcov]
    rfl

/-- A page with the scan's answer for it. -/
theorem AtPage.page (h : AtPage t kdataEnd maxPhysAddr n st) {sc sc' : MapScan} {usable : Bool}
    (hsc : scanAt t n = .ok sc) (hpage : scanPage t sc (pageAddr n) = .ok (usable, sc'))
    (hlt : n < pageCount maxPhysAddr) {st' : PageArrayState}
    (hrun : initializePage kdataEnd maxPhysAddr usable { st with scan := sc' } = .ok st') :
    AtPage t kdataEnd maxPhysAddr (n + 1) st' := by
  have haccess := access_of_initializePage hrun
  rw [show ({ st with scan := sc' } : PageArrayState).pageIdx = _ from h.idx] at haccess
  have hn := h.room.lt
  have hfree : freeFrame t kdataEnd maxPhysAddr n
      = (usable && !kernelFrame kdataEnd maxPhysAddr n) := by
    rw [freeFrame, usablePage_of_scan hsc hpage]
  obtain ⟨mm', hok, hsorted⟩ := @initializePage_sorted _ n kdataEnd maxPhysAddr usable
    { st with scan := sc' } h.sorted (by omega) h.idx hfree haccess
  rw [hok] at hrun
  cases hrun
  exact ⟨hsorted, rfl, by rw [h.addr, pageAddr_succ], ⟨sc', scanAt_succ hsc hpage, .inl rfl⟩,
    (accessPageFrame_iff h.room).mp haccess, hlt⟩

/-- A turn takes the page, moves on in the map, or is behind the last page. -/
theorem pageArrayTurn_steps (h : AtPage t kdataEnd maxPhysAddr n st)
    {r : PageArrayState ⊕ MemoryManager} (hturn : pageArrayTurn t kdataEnd maxPhysAddr st = .ok r) :
    Sum.elim
      (fun st' => n < pageCount maxPhysAddr ∧ (AtPage t kdataEnd maxPhysAddr (n + 1) st' ∨
        AtPage t kdataEnd maxPhysAddr n st' ∧ st.scan.justLeft = false ∧ st'.scan.justLeft = true))
      (fun mm' => n = pageCount maxPhysAddr ∧ mm' = st.mm) r := by
  unfold pageArrayTurn at hturn
  split at hturn
  · case isTrue hlt =>
      rw [h.addr, pageAddr_lt h.room.lt] at hlt
      split at hturn
      · case isTrue hcov =>
          rw [h.addr] at hcov
          obtain ⟨sc, hsc, hpage⟩ := h.scanPage_covered hcov
          obtain ⟨st', hinit, hret⟩ := Loop.exists_of_bind hturn
          cases hret
          exact ⟨hlt, .inl (h.page hsc hpage hlt hinit)⟩
      · case isFalse hcov =>
          rw [h.addr] at hcov
          split at hturn
          · case isTrue hleft =>
              -- The scan has not moved on for this page yet.
              obtain ⟨scan, hnext, hret⟩ := Loop.exists_of_bind hturn
              cases hret
              have hscan : scanAt t n = .ok st.scan := by
                obtain ⟨sc, hsc, heq | ⟨-, -, hnext'⟩⟩ := h.scan
                · rw [heq]
                  exact hsc
                · rw [justLeft_of_nextMap hnext'] at hleft
                  cases hleft
              exact ⟨hlt, .inr ⟨⟨h.sorted, h.idx, h.addr,
                ⟨st.scan, hscan, .inr ⟨hcov, hleft, hnext⟩⟩, h.room, h.below⟩, hleft,
                justLeft_of_nextMap hnext⟩⟩
          · case isFalse hleft =>
              obtain ⟨sc, hsc, hpage⟩ := h.scanPage_gap hcov (by simpa using hleft)
              obtain ⟨st', hinit, hret⟩ := Loop.exists_of_bind hturn
              cases hret
              exact ⟨hlt, .inl (h.page hsc hpage hlt hinit)⟩
  · case isFalse hge =>
      rw [h.addr, pageAddr_lt h.room.lt] at hge
      cases hturn
      exact ⟨by have := h.below; omega, rfl⟩

/-- At the first page, the invariant holds. -/
theorem atPage_start (mm : MemoryManager) :
    AtPage t kdataEnd maxPhysAddr 0 ⟨firstMap t, 0, 0, initializeZones mm⟩ :=
  ⟨sorted_initializeZones _ mm, rfl, rfl, ⟨_, rfl, .inl rfl⟩, .inl rfl, Nat.zero_le _⟩

/-- When the loop ends, all frames below `max_phys_addr` are on their lists. -/
theorem initializePageArray_sorted {mm mm' : MemoryManager}
    (hrun : initializePageArray t kdataEnd maxPhysAddr (initializeZones mm) = .ok mm') :
    Sorted (freeFrame t kdataEnd maxPhysAddr) (pageCount maxPhysAddr) mm' ∧
      HasRoom kdataEnd (pageCount maxPhysAddr) ∧
      ∃ sc, scanAt t (pageCount maxPhysAddr) = .ok sc := by
  refine Loop.run_invariant (fun st => ∃ n, AtPage t kdataEnd maxPhysAddr n st)
    (fun mm' => Sorted (freeFrame t kdataEnd maxPhysAddr) (pageCount maxPhysAddr) mm' ∧
      HasRoom kdataEnd (pageCount maxPhysAddr) ∧ ∃ sc, scanAt t (pageCount maxPhysAddr) = .ok sc)
    ?_ TURNS _ mm' ⟨0, atPage_start mm⟩ hrun
  intro st r ⟨n, h⟩ hturn
  have hstep := pageArrayTurn_steps h hturn
  cases r with
  | inl st' =>
      rcases hstep.2 with h' | ⟨h', -⟩
      · exact ⟨n + 1, h'⟩
      · exact ⟨n, h'⟩
  | inr mm' =>
      obtain ⟨rfl, rfl⟩ := hstep
      obtain ⟨sc, hsc, -⟩ := h.scan
      exact ⟨h.sorted, h.room, sc, hsc⟩

/-- The scan gets to the pages in front of one that it gets to. -/
theorem scanAt_of_le {k : Nat} {sc : MapScan} (hsc : scanAt t n = .ok sc) (hk : k ≤ n) :
    ∃ sc', scanAt t k = .ok sc' := by
  induction n generalizing sc with
  | zero =>
      obtain rfl : k = 0 := by omega
      exact ⟨sc, hsc⟩
  | succ n ih =>
      rcases Nat.lt_or_eq_of_le hk with hlt | rfl
      · obtain ⟨sc1, hsc1, -⟩ := Loop.exists_of_bind hsc
        exact ih hsc1 (by omega)
      · exact ⟨sc, hsc⟩

/-- A table that does not fill the array has a record to move on to. -/
theorem nextMap_total (hcount : t.count < E820MAP_E820_MAXRECORDS) (sc : MapScan) :
    ∃ sc', nextMap t sc = .ok sc' := by
  unfold nextMap
  split
  · case isTrue hlt =>
      rw [E820Table.read, if_pos (Nat.lt_of_le_of_lt hlt hcount)]
      exact ⟨_, rfl⟩
  · exact ⟨_, rfl⟩

/-- So the scan gets to every page. -/
theorem scanAt_total (hcount : t.count < E820MAP_E820_MAXRECORDS) (p : Nat) :
    ∃ sc, scanAt t p = .ok sc := by
  induction p with
  | zero => exact ⟨_, rfl⟩
  | succ p ih =>
      obtain ⟨sc, hsc⟩ := ih
      have hpage : ∃ r, scanPage t sc (pageAddr p) = .ok r := by
        unfold scanPage
        split
        · exact ⟨_, rfl⟩
        · split
          · obtain ⟨sc', hnext⟩ := nextMap_total hcount sc
            rw [hnext, Loop.ok_bind]
            split <;> exact ⟨_, rfl⟩
          · exact ⟨_, rfl⟩
      obtain ⟨⟨usable, sc'⟩, hpage⟩ := hpage
      exact ⟨sc', scanAt_succ hsc hpage⟩

/-- With room for the next frame, and a record for the scan to move on to, the turn in front
of a page returns. -/
theorem pageArrayTurn_total (h : AtPage t kdataEnd maxPhysAddr n st)
    (hroom : n < pageCount maxPhysAddr → HasRoom kdataEnd (n + 1))
    (hscan : n < pageCount maxPhysAddr → ∃ sc, scanAt t (n + 1) = .ok sc) :
    ∃ r, pageArrayTurn t kdataEnd maxPhysAddr st = .ok r := by
  have hinit : n < pageCount maxPhysAddr → ∀ (sc sc' : MapScan) (usable : Bool),
      scanAt t n = .ok sc → scanPage t sc (pageAddr n) = .ok (usable, sc') →
      ∃ st', initializePage kdataEnd maxPhysAddr usable { st with scan := sc' } = .ok st' := by
    intro hlt sc sc' usable hsc hpage
    have hn := h.room.lt
    have haccess := (accessPageFrame_iff h.room).mpr (hroom hlt)
    have hfree : freeFrame t kdataEnd maxPhysAddr n
        = (usable && !kernelFrame kdataEnd maxPhysAddr n) := by
      rw [freeFrame, usablePage_of_scan hsc hpage]
    obtain ⟨mm', hok, -⟩ := @initializePage_sorted _ n kdataEnd maxPhysAddr usable
      { st with scan := sc' } h.sorted (by omega) h.idx hfree haccess
    exact ⟨_, hok⟩
  unfold pageArrayTurn
  split
  · case isTrue hlt =>
      rw [h.addr, pageAddr_lt h.room.lt] at hlt
      split
      · case isTrue hcov =>
          rw [h.addr] at hcov
          obtain ⟨sc0, hsc0, hpage⟩ := h.scanPage_covered hcov
          obtain ⟨st', hst'⟩ := hinit hlt _ _ _ hsc0 hpage
          exact ⟨.inl st', Loop.bind_of_ok hst' rfl⟩
      · case isFalse hcov =>
          rw [h.addr] at hcov
          split
          · case isTrue hleft =>
              -- The scan behind this page exists, so there is a record to move on to.
              obtain ⟨sc0, hsc0, heq | ⟨-, -, hnext⟩⟩ := h.scan
              · obtain ⟨sc', hsc'⟩ := hscan hlt
                obtain ⟨sc1, hsc1, hrest⟩ := Loop.exists_of_bind hsc'
                obtain rfl : sc0 = sc1 := Except.ok.inj (hsc0.symm.trans hsc1)
                obtain ⟨⟨u, sc2⟩, hpage, -⟩ := Loop.exists_of_bind hrest
                rw [heq] at hcov hleft ⊢
                have hcov' : ¬ sc0.covers (pageAddr n) := hcov
                rw [scanPage, if_neg hcov', if_pos hleft] at hpage
                obtain ⟨scan, hnext, -⟩ := Loop.exists_of_bind hpage
                exact ⟨_, Loop.bind_of_ok hnext rfl⟩
              · rw [justLeft_of_nextMap hnext] at hleft
                cases hleft
          · case isFalse hleft =>
              obtain ⟨sc0, hsc0, hpage⟩ := h.scanPage_gap hcov (by simpa using hleft)
              obtain ⟨st', hst'⟩ := hinit hlt _ _ _ hsc0 hpage
              exact ⟨.inl st', Loop.bind_of_ok hst' rfl⟩
  · exact ⟨_, rfl⟩

/-! ### The states of the loop -/

/-- `st` is a state of the loop of `initialize_page_array`: it comes up in a run, which need
not be one that returns. -/
def InPageArrayLoop (t : E820Table) (kdataEnd maxPhysAddr : Uintptr) (mm : MemoryManager)
    (st : PageArrayState) : Prop :=
  Loop.Reaches (pageArrayTurn t kdataEnd maxPhysAddr) ⟨firstMap t, 0, 0, initializeZones mm⟩ st

/-- Every state of the loop is in front of some page. -/
theorem InPageArrayLoop.atPage {mm : MemoryManager}
    (h : InPageArrayLoop t kdataEnd maxPhysAddr mm st) :
    ∃ n, AtPage t kdataEnd maxPhysAddr n st := by
  have hstep : ∀ st st', (∃ n, AtPage t kdataEnd maxPhysAddr n st) →
      pageArrayTurn t kdataEnd maxPhysAddr st = .ok (.inl st') →
      ∃ n, AtPage t kdataEnd maxPhysAddr n st' := by
    intro st st' ⟨n, hn⟩ hturn
    rcases (pageArrayTurn_steps hn hturn).2 with h' | ⟨h', -⟩
    · exact ⟨n + 1, h'⟩
    · exact ⟨n, h'⟩
  exact Loop.Path.keeps (I := fun st => ∃ n, AtPage t kdataEnd maxPhysAddr n st) h hstep
    ⟨0, atPage_start mm⟩

/-- What the loop returns is what its last state has. -/
theorem inPageArrayLoop_of_run {mm mm' : MemoryManager}
    (hrun : initializePageArray t kdataEnd maxPhysAddr (initializeZones mm) = .ok mm') :
    ∃ st, InPageArrayLoop t kdataEnd maxPhysAddr mm st ∧ st.mm = mm' := by
  obtain ⟨st, hst, hexit⟩ := Loop.exists_exit_of_run hrun
  have hat : InPageArrayLoop t kdataEnd maxPhysAddr mm st := hst
  obtain ⟨n, hn⟩ := hat.atPage
  exact ⟨st, hat, (pageArrayTurn_steps hn hexit).2.symm⟩

/-- A page that there is room for is one that the loop gets behind, whatever follows it. -/
theorem exists_atPage (mm : MemoryManager) (hroom : HasRoom kdataEnd n)
    (hcount : n ≤ pageCount maxPhysAddr) (hscan : ∀ p, p ≤ n → ∃ sc, scanAt t p = .ok sc) :
    ∃ st, InPageArrayLoop t kdataEnd maxPhysAddr mm st ∧ AtPage t kdataEnd maxPhysAddr n st := by
  induction n with
  | zero => exact ⟨_, .refl _, atPage_start mm⟩
  | succ n ih =>
      obtain ⟨st, hreach, hat⟩ := ih (hroom.mono (Nat.le_succ n)) (Nat.le_of_succ_le hcount)
        fun p hp => hscan p (Nat.le_succ_of_le hp)
      have hturn : ∀ st', AtPage t kdataEnd maxPhysAddr n st' →
          ∃ st'', pageArrayTurn t kdataEnd maxPhysAddr st' = .ok (.inl st'') ∧
            (AtPage t kdataEnd maxPhysAddr (n + 1) st'' ∨ AtPage t kdataEnd maxPhysAddr n st'' ∧
              st'.scan.justLeft = false ∧ st''.scan.justLeft = true) := by
        intro st' h'
        obtain ⟨r, hr⟩ := pageArrayTurn_total h' (fun _ => hroom) fun _ => hscan _ (Nat.le_refl _)
        have hstep := pageArrayTurn_steps h' hr
        cases r with
        | inl st'' => exact ⟨st'', hr, hstep.2⟩
        | inr mm' => exact absurd hstep.1 (by omega)
      obtain ⟨st1, hr1, hdone | ⟨hsame, -, hleft⟩⟩ := hturn st hat
      · exact ⟨st1, hreach.trans (.single trivial hr1), hdone⟩
      -- The first turn went to the next record, so the second one takes the page.
      · obtain ⟨st2, hr2, hdone | ⟨-, hleft', -⟩⟩ := hturn st1 hsame
        · exact ⟨st2, (hreach.trans (.single trivial hr1)).trans (.single trivial hr2), hdone⟩
        · rw [hleft] at hleft'
          cases hleft'

/-- Each page costs a turn, and one more where the scan leaves a map. -/
def turnsLeft (maxPhysAddr : Uintptr) (st : PageArrayState) : Nat :=
  2 * (pageCount maxPhysAddr - st.pageIdx.toNat) + if st.scan.justLeft = false then 1 else 0

/-- Then the loop ends. -/
theorem initializePageArray_total (hroom : HasRoom kdataEnd (pageCount maxPhysAddr)) {sc : MapScan}
    (hsc : scanAt t (pageCount maxPhysAddr) = .ok sc) (mm : MemoryManager) :
    ∃ mm', initializePageArray t kdataEnd maxPhysAddr (initializeZones mm) = .ok mm' := by
  have hcount := hroom.lt
  have hturns : ∀ st, (∃ n, AtPage t kdataEnd maxPhysAddr n st) →
      ∃ r, pageArrayTurn t kdataEnd maxPhysAddr st = .ok r ∧
        Sum.elim (fun st' => (∃ n, AtPage t kdataEnd maxPhysAddr n st') ∧
          turnsLeft maxPhysAddr st' < turnsLeft maxPhysAddr st) (fun _ => True) r := by
    intro st ⟨n, h⟩
    obtain ⟨r, hturn⟩ := pageArrayTurn_total h (fun hlt => hroom.mono hlt)
      fun hlt => scanAt_of_le hsc hlt
    refine ⟨r, hturn, ?_⟩
    have hstep := pageArrayTurn_steps h hturn
    cases r with
    | inr mm' => trivial
    | inl st' =>
        obtain ⟨hlt, hnext⟩ := hstep
        have hidx : st.pageIdx.toNat = n := by
          rw [h.idx, BitVec.toNat_ofNat]
          exact Nat.mod_eq_of_lt (by omega)
        -- The page is done, or the scan has moved on for it.
        rcases hnext with h' | ⟨h', hleft, hleft'⟩
        · have hidx' : st'.pageIdx.toNat = n + 1 := by
            rw [h'.idx, BitVec.toNat_ofNat]
            exact Nat.mod_eq_of_lt (by omega)
          refine ⟨⟨n + 1, h'⟩, ?_⟩
          rw [turnsLeft, turnsLeft, hidx, hidx']
          split <;> split <;> omega
        · have hidx' : st'.pageIdx.toNat = n := by
            rw [h'.idx, BitVec.toNat_ofNat]
            exact Nat.mod_eq_of_lt (by omega)
          refine ⟨⟨n, h'⟩, ?_⟩
          rw [turnsLeft, turnsLeft, hidx, hidx', if_pos hleft, if_neg (by simp [hleft'])]
          omega
  have hstart : turnsLeft maxPhysAddr ⟨firstMap t, 0, 0, initializeZones mm⟩ < TURNS := by
    show 2 * (pageCount maxPhysAddr - 0) + (if _ then 1 else 0) < TURNS
    unfold TURNS
    split <;> omega
  obtain ⟨mm', hrun, -⟩ :=
    Loop.run_total _ _ (turnsLeft maxPhysAddr) hturns TURNS _ ⟨0, atPage_start mm⟩ hstart
  exact ⟨mm', hrun⟩

end Loop

/-! ### The free lists -/

/-- Both free lists are rings, and have only frames with `P`. -/
def FreeLists (mm : MemoryManager) (P : PageIdx → Prop) : Prop :=
  ∀ z, ∃ fs : List PageIdx, Ring.IsRing mm.lists.links (.pages z) (fs.map .frame) ∧
    ∀ idx ∈ fs, P idx

/-- The frame is on the free list of the zone. -/
def OnFreeList (mm : MemoryManager) (z : ZoneType) (idx : PageIdx) : Prop :=
  ∃ fs : List PageIdx, Ring.IsRing mm.lists.links (.pages z) (fs.map .frame) ∧ idx ∈ fs

/-- A list head has one list of frames. -/
theorem frames_unique {links : ListHeads ListPtr} {head : ListPtr} {fs gs : List PageIdx}
    (hfs : Ring.IsRing links head (fs.map .frame)) (hgs : Ring.IsRing links head (gs.map .frame))
    (hhead : ∀ f, head ≠ .frame f) : fs = gs := by
  have hnot : ∀ l : List PageIdx, head ∉ l.map .frame := by
    intro l hmem
    obtain ⟨f, -, heq⟩ := List.mem_map.mp hmem
    exact hhead f heq.symm
  exact List.map_injective_iff.mpr (fun _ _ => ListPtr.frame.inj) (hfs.unique hgs (hnot _) (hnot _))

section FreeLists

variable {free : Nat → Bool} {n : Nat} {mm : MemoryManager}

/-- The free lists hold the free pages. -/
theorem Sorted.freeLists_iff (h : Sorted free n mm) (P : PageIdx → Prop) :
    FreeLists mm P ↔ ∀ p, p < n → free p = true → P (BitVec.ofNat 32 p) := by
  constructor
  · intro hlists p hp hfree
    obtain ⟨fs, hring, hall⟩ := hlists (zoneOf (BitVec.ofNat 32 p))
    refine hall _ ?_
    rw [frames_unique hring (h.rings true _) (pages_ne_frame _)]
    exact mem_framesOf.mpr ⟨p, hp, rfl, hfree, rfl⟩
  · intro hall z
    refine ⟨_, h.rings true z, fun idx hidx => ?_⟩
    obtain ⟨p, hp, -, hfree, rfl⟩ := mem_framesOf.mp hidx
    exact hall p hp hfree

/-- A page is on the free list of its zone exactly when it is free. -/
theorem Sorted.onFreeList_iff (h : Sorted free n mm) {p : Nat} (hn : n ≤ 2 ^ 32) (hp : p < n) :
    OnFreeList mm (zoneOf (BitVec.ofNat 32 p)) (BitVec.ofNat 32 p) ↔ free p = true := by
  constructor
  · intro ⟨fs, hring, hmem⟩
    rw [frames_unique hring (h.rings true _) (pages_ne_frame _)] at hmem
    obtain ⟨q, hq, -, hfree, heq⟩ := mem_framesOf.mp hmem
    obtain rfl := ofNat32_inj (by omega) (by omega) heq
    exact hfree
  · intro hfree
    exact ⟨_, h.rings true _, mem_framesOf.mpr ⟨p, hp, rfl, hfree, rfl⟩⟩

end FreeLists

end MString
