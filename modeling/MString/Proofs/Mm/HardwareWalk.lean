import MString.Mm.Mmu
import MString.Proofs.Mm.Histories

/-!
# `MString.Proofs.Mm.HardwareWalk`: the processor reads what the walkers wrote

The walkers build their tables out of bit fields and find them through the kernel's window;
the processor reads quadwords of physical memory. Both sides agree as long as the entries
stay within what both understand: no upper entry maps a large page, every table is in low
memory, and no base is longer than a frame number (`Readable`).

* `Edits.readable`: every store keeps the directory readable.
* `translate_physicalWords`: in a readable directory the processor's walk ends at the leaf.
* `mmPin_agrees`: after any calls of `mm_map_pages`, `mm_pin_virtual_address` answers what
  the processor does.
-/

set_option autoImplicit false

namespace MString

open PageWalk

/-- The base of the entry is a 32-bit frame number. -/
def FitsBase (e : TlbEntry) : Prop := e.base_20_39.toNat < 2 ^ 12

/-- A frame number fits the base of an entry. -/
theorem fitsBase_setBase (e : TlbEntry) (pf : PageIdx) : FitsBase (e.setBase (pf.setWidth 64)) := by
  have hlt := pf.isLt
  show (((pf.setWidth 64 >>> 20 : Uintptr) &&& 0xfffff).setWidth 20).toNat < 2 ^ 12
  rw [BitVec.toNat_setWidth, BitVec.toNat_and, BitVec.toNat_ushiftRight, BitVec.toNat_setWidth,
    Nat.shiftRight_eq_div_pow]
  have hle : pf.toNat % 2 ^ 64 / 2 ^ 20 &&& (0xfffff : Uintptr).toNat
      ≤ pf.toNat % 2 ^ 64 / 2 ^ 20 := Nat.and_le_left
  have hmod := Nat.mod_le (pf.toNat % 2 ^ 64 / 2 ^ 20 &&& (0xfffff : Uintptr).toNat) (2 ^ 20)
  omega

/-- The processor finds the frame that the walkers read. -/
theorem base_word_of_fits {e : TlbEntry} (h : FitsBase e) :
    base 12 e.word = 4096 * e.base.toNat := by
  unfold FitsBase at h
  have hlow := e.base_0_19.isLt
  have hsum : e.base.toNat = e.base_0_19.toNat + 2 ^ 20 * e.base_20_39.toNat := by
    have hor := Nat.shiftLeft_add_eq_or_of_lt hlow e.base_20_39.toNat
    rw [Nat.shiftLeft_eq] at hor
    rw [TlbEntry.base, BitVec.toNat_or, BitVec.toNat_shiftLeft, BitVec.toNat_setWidth,
      BitVec.toNat_setWidth, Nat.shiftLeft_eq, Nat.mod_eq_of_lt (a := e.base_0_19.toNat) (by omega),
      Nat.mod_eq_of_lt (a := e.base_20_39.toNat) (by omega), Nat.mod_eq_of_lt (by omega),
      Nat.or_comm, ← hor]
    omega
  rw [base_word, hsum]
  rfl

/-- An upper entry that both sides take for a reference to the same table. -/
structure SmallReference (e : TlbEntry) : Prop where
  small : e.bit7 = false
  low : LowFrame e.base
  fits : FitsBase e

/-- An entry for a table in a low frame is a reference to it, for the processor, too. -/
theorem smallReference_fields {l : Level} (h : l ∈ upperLevels) {pf : PageIdx} (hlow : LowFrame pf)
    (e : TlbEntry) : SmallReference (l.fields (pf.setWidth 64) e) := by
  have hbase := (refers_of_mem h).base pf e
  refine ⟨?_, by rw [hbase]; exact hlow, ?_⟩
  · simp only [upperLevels, List.mem_cons, List.not_mem_nil, or_false] at h
    rcases h with rfl | rfl | rfl <;> rfl
  · simp only [upperLevels, List.mem_cons, List.not_mem_nil, or_false] at h
    rcases h with rfl | rfl | rfl <;> exact fitsBase_setBase _ pf

/-- All present entries are within what the processor and the walkers both understand. -/
structure Readable (m : Mem) (root : Uintptr) : Prop where
  upper : ∀ p t i, p.length < 3 → tableOf m root p = some t → (slotEntry m t i).present = true →
    SmallReference (slotEntry m t i)
  leaf : ∀ v e, leafOf m root v = some e → FitsBase e

/-- An empty root can be read. -/
theorem readable_of_empty {m : Mem} {root : Uintptr}
    (hempty : ∀ i, (slotEntry m root i).present = false) : Readable m root where
  upper := by
    intro p t i _ ht hpres
    rw [(tableOf_of_empty hempty ht).2, hempty i] at hpres
    cases hpres
  leaf := by
    intro v e hleaf
    have hnone : tableOf m root (path v) = none := by
      cases ht : tableOf m root (path v) with
      | none => rfl
      | some t => exact absurd (tableOf_of_empty hempty ht).1 (by simp [path])
    rw [leafOf, hnone] at hleaf
    cases hleaf

/-- Every store of a call keeps the directory readable. -/
theorem Edits.readable {flags : PageFlags} {root : Uintptr} {vs : List Uintptr} {m m' : Mem}
    (h : Edits flags root vs m m') (hwf : WellFormed m root) (hread : Readable m root) :
    Readable m' root := by
  constructor
  case upper =>
    induction h with
    | refl => exact hread.upper
    | link before short table empty low fresh level ih =>
        exact (before.wellFormed hwf).upper_link short table empty low fresh
          ((refers_of_mem level).entryTable low _) SmallReference (ih hwf hread)
          (smallReference_fields level low _)
    | leaf before table ih =>
        exact (before.wellFormed hwf).upper_setLeaf rfl table SmallReference (ih hwf hread)
  case leaf =>
    intro v e hleaf
    by_cases hv : ∃ u ∈ vs, pageOf v = pageOf u
    · obtain ⟨j, hj⟩ := h.leafOf_mem hwf hv
      rw [hj] at hleaf
      cases hleaf
      exact fitsBase_setBase _ j
    · rw [h.leafOf_other hwf fun u hu heq => hv ⟨u, hu, heq⟩] at hleaf
      exact hread.leaf v e hleaf

/-! ### The processor's walk -/

/-- Where a table of the window stands in physical memory. -/
def physAddr (t : Uintptr) : Nat := t.toNat - KERNEL_BASE.toNat

section Walk

variable {m : Mem} {root v t : Uintptr}

/-- A slot of a table, read by its physical address. -/
theorem physicalWords_slot (ht : TableAddr t) (shift : Nat) :
    physicalWords m (physAddr t + 8 * index shift v.toNat)
      = (slotEntry m t (ptlIndex shift v)).word := by
  have hval : (ptlIndex shift v).val = index shift v.toNat := ptlIndex_val shift v
  have hkb : KERNEL_BASE.toNat = 0xffffffff80000000 := by decide
  have haddr : p2kCode (BitVec.ofNat 64 (physAddr t + 8 * index shift v.toNat))
      = (EntryPtr.mk t (ptlIndex shift v)).addr := by
    have hwindow := ht.window
    have hi := (ptlIndex shift v).isLt
    have hlt := t.isLt
    have haligned := ht.aligned
    apply BitVec.eq_of_toNat_eq
    rw [ht.toNat_addr, hval, p2kCode, BitVec.toNat_add, BitVec.toNat_ofNat, physAddr, hkb]
    rw [hkb] at hwindow
    omega
  rw [physicalWords, haddr]
  rfl

/-- The walk from a table of an upper level goes where the path of the address goes. -/
theorem walk_upper (hwf : WellFormed m root) (hread : Readable m root) {p : List (Fin 512)}
    (hp : p.length < 3) (ht : tableOf m root p = some t) (l : PageWalk.Level)
    (ls : List PageWalk.Level) :
    walk (physicalWords m) v.toNat (l :: ls) (physAddr t)
      = (tableOf m root (p ++ [ptlIndex l.shift v])).bind
          fun u => walk (physicalWords m) v.toNat ls (physAddr u) := by
  have hword := @physicalWords_slot m v t (hwf.addr p t (by omega) ht) l.shift
  rw [tableOf_concat, ht, Option.bind_some]
  cases hpres : (slotEntry m t (ptlIndex l.shift v)).present with
  | false =>
      rw [walk_absent hword (by rw [present_word, hpres]), entryTable_of_not_present hpres]
      rfl
  | true =>
      have href := hread.upper p t _ hp ht hpres
      have hbase := base_word_of_fits href.fits
      have htable := toNat_pframeToVirt href.low
      rw [walk_table hword (by rw [present_word, hpres])
        (.inr (by rw [pageSize_word, href.small])), entryTable_of_present hpres, Option.bind_some,
        table_of_base href.low, physAddr, htable, hbase, Nat.add_sub_cancel_left]

/-- Several levels. -/
theorem walk_path (hwf : WellFormed m root) (hread : Readable m root)
    (rest : List PageWalk.Level) : ∀ (ls : List PageWalk.Level) (p : List (Fin 512)) (t : Uintptr),
      p.length + ls.length ≤ 3 → tableOf m root p = some t →
      walk (physicalWords m) v.toNat (ls ++ rest) (physAddr t)
        = (tableOf m root (p ++ ls.map fun l => ptlIndex l.shift v)).bind
            fun u => walk (physicalWords m) v.toNat rest (physAddr u) := by
  intro ls
  induction ls with
  | nil =>
      intro p t _ ht
      rw [List.map_nil, List.append_nil, ht, Option.bind_some, List.nil_append]
  | cons l ls ih =>
      intro p t hlen ht
      rw [List.length_cons] at hlen
      rw [List.cons_append, walk_upper hwf hread (by omega) ht, List.map_cons,
        List.append_cons p (ptlIndex l.shift v) (ls.map fun l => ptlIndex l.shift v)]
      cases hnext : tableOf m root (p ++ [ptlIndex l.shift v]) with
      | none =>
          -- no table, and none below it
          have hnone : tableOf m root ((p ++ [ptlIndex l.shift v])
              ++ ls.map fun l => ptlIndex l.shift v) = none := by
            rw [tableOf, Radix.tableAt_append]
            rw [tableOf] at hnext
            rw [hnext]
            rfl
          rw [hnone]
          rfl
      | some u =>
          rw [Option.bind_some]
          exact ih _ u (by rw [List.length_append, List.length_singleton]; omega) hnext

/-- The last level. -/
theorem walk_last (ht : TableAddr t) :
    walk (physicalWords m) v.toNat [⟨12, false⟩] (physAddr t)
      = if (slotEntry m t (ptlIndex 12 v)).present then
          some (base 12 (slotEntry m t (ptlIndex 12 v)).word + v.toNat % 4096) else none := by
  have hword := @physicalWords_slot m v t ht 12
  rw [walk]
  dsimp only
  rw [hword, present_word]
  rfl

/-- In a readable directory the processor's walk ends at the leaf. -/
theorem walk_physicalWords (hwf : WellFormed m root) (hread : Readable m root) :
    walk (physicalWords m) v.toNat levels (physAddr root)
      = (leafOf m root v).map fun e => 4096 * e.base.toNat + v.toNat % 4096 := by
  have hupper := @walk_path m root v hwf hread [⟨12, false⟩]
    [⟨39, false⟩, ⟨30, true⟩, ⟨21, true⟩] [] root (by decide) rfl
  rw [levels]
  refine hupper.trans ?_
  show (tableOf m root (path v)).bind _ = _
  have hleaf := hread.leaf v
  unfold leafOf at hleaf ⊢
  cases ht : tableOf m root (path v) with
  | none => rfl
  | some t =>
      simp only [ht] at hleaf ⊢
      rw [Option.bind_some, walk_last (hwf.addr _ t (by simp [path]) ht)]
      cases hpres : (slotEntry m t (ptlIndex 12 v)).present with
      | false => rfl
      | true =>
          have hfits := hleaf _ (if_pos hpres)
          rw [if_pos rfl, if_pos rfl, base_word_of_fits hfits]
          rfl

/-- The same with the directory that `load_cr3` has loaded. -/
theorem translate_physicalWords (hwf : WellFormed m root) (hread : Readable m root)
    (hroot : root ≠ KERNEL_BASE) (pcd pwt : BitVec 8) :
    PageWalk.translate (physicalWords m) (loadCr3 (k2p root) pcd pwt).toNat v.toNat
      = if Canonical v.toNat then
          (leafOf m root v).map fun e => 4096 * e.base.toNat + v.toNat % 4096
        else none := by
  have hkb : KERNEL_BASE.toNat = 0xffffffff80000000 := by decide
  have hwindow := hwf.tableAddr_root.window
  have haligned := hwf.tableAddr_root.aligned
  have hlt := root.isLt
  have hphys : (k2p root).toNat = physAddr root := by
    have hgt : root > KERNEL_BASE := by
      rw [gt_iff_lt, BitVec.lt_def]
      exact Nat.lt_of_le_of_ne hwindow fun heq => hroot (BitVec.eq_of_toNat_eq heq.symm)
    rw [k2p, if_pos hgt, BitVec.toNat_sub, physAddr, hkb]
    rw [hkb] at hwindow
    omega
  have hbase := base_loadCr3 (k2p root) pcd pwt (by rw [hphys, physAddr, hkb]; omega)
    (by rw [hphys, physAddr, hkb]; omega)
  rw [PageWalk.translate, hbase, hphys, walk_physicalWords hwf hread]

end Walk

/-! ### Any sequence of calls -/

/-- After any calls of `mm_map_pages` on a directory that was empty once,
`mm_pin_virtual_address` answers the frame that the processor finds with this directory,
and the invalid one for an address that has none. The frame `INVALID_PAGE_IDX` itself is
the one that it cannot tell from no frame. -/
theorem mmPin_agrees {root : Uintptr} {m m' : Mem} (hroot : TableAddr root)
    (hbase : root ≠ KERNEL_BASE) (hempty : ∀ i, (slotEntry m root i).present = false)
    (hrun : MapRun root (Steady root) m m') (v : Uintptr) (hv : Canonical v.toNat)
    (pcd pwt : BitVec 8) (f : PageIdx) :
    mmPinVirtualAddress kernelWindow m' ⟨root⟩ v = .ok f ↔
      PageWalk.translate (physicalWords m') (loadCr3 (k2p root) pcd pwt).toNat v.toNat
          = some ((pframePhysAddr f).toNat + v.toNat % 4096)
        ∨ f = INVALID_PAGE_IDX
          ∧ PageWalk.translate (physicalWords m') (loadCr3 (k2p root) pcd pwt).toNat v.toNat
            = none := by
  -- Every call keeps the tables well formed and readable for the processor.
  obtain ⟨hwf, hread⟩ := hrun.invariant
    (fun m => WellFormed m root ∧ Readable m root)
    (fun m virt n flags r m' hI hok hstep => by
      obtain ⟨us, hedits, -, -⟩ := hstep.edits hI.1 hok
      exact ⟨hedits.wellFormed hI.1, hedits.readable hI.1 hI.2⟩)
    ⟨wellFormed_of_empty hroot hempty, readable_of_empty hempty⟩
  have hphys : ∀ g : PageIdx, (pframePhysAddr g).toNat = 4096 * g.toNat := by
    intro g
    have hg := g.isLt
    rw [pframePhysAddr, BitVec.toNat_mul, BitVec.toNat_setWidth,
      show PAGE_SIZE.toNat = 4096 from rfl]
    omega
  -- Both sides are the leaf of `v`. What is left is that its frame number fits.
  rw [mmPinVirtualAddress_eq answers_kernelWindow hwf, translate_eq_leafOf,
    translate_physicalWords hwf hread hbase, if_pos hv, Except.ok.injEq, hphys]
  cases hleaf : leafOf m' root v with
  | none => simp [eq_comm]
  | some e =>
      simp only [Option.map_some, Option.some_inj, reduceCtorEq, and_false, or_false]
      rw [← BitVec.toNat_inj]
      omega

/-- One page at `0x1000`. -/
theorem mmPin_agrees_one : ∃ m', MapRun EMPTY_ROOT (Steady EMPTY_ROOT) emptyDirectory.mem m' ∧
    (mmPinVirtualAddress kernelWindow m' ⟨EMPTY_ROOT⟩ 0x1234 = .ok 100 ↔
      PageWalk.translate (physicalWords m') (loadCr3 (k2p EMPTY_ROOT) 1 1).toNat
          (0x1234 : Uintptr).toNat
          = some ((pframePhysAddr 100).toNat + (0x1234 : Uintptr).toNat % 4096)
        ∨ (100 : PageIdx) = INVALID_PAGE_IDX
          ∧ PageWalk.translate (physicalWords m') (loadCr3 (k2p EMPTY_ROOT) 1 1).toNat
            (0x1234 : Uintptr).toNat = none) := by
  obtain ⟨s', hrun⟩ := Loop.exists_of_map_fst (a := (0 : Status)) (x :=
    mmMapPages kernelWindow (some ⟨EMPTY_ROOT⟩) (some (pageaccsLinearPa (cacheAllocator 0)))
      0x1000 1 0 emptyDirectory) (by decide +kernel)
  have hone : MapRun EMPTY_ROOT (Steady EMPTY_ROOT) emptyDirectory.mem s'.mem :=
    .step .refl (mapStep_emptyDirectory hrun) (.inr (by decide))
  exact ⟨s'.mem, hone, mmPin_agrees (tableAddr_pframeToVirt (by decide)) (by decide)
    (fun _ => rfl) hone 0x1234 (by decide) 1 1 100⟩

end MString
