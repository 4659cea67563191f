import MString.Proofs.Mm.PageTables

/-!
# `MString.Proofs.Mm.Directories`: directories given by their references

`directory child` is a memory with page tables and no mapped page: the frame `f` is a
table, and its slot `i` refers to the frame `child f i`. The root is frame 1. When no
frame is referred to twice (`References`), the tables form a tree, and a path leads
where `descend` says.

`dryAccessor` yields frame 0 for every page and has no page for a table. A call on such
a directory maps pages until it comes to one whose page table is missing, and the
accessor counts them.

* `tableOf_directory`, `translate_directory`: what a directory holds.
* `wellFormed_directory`, `ready_directory`: it is one that `mm_map_pages` can work on.
* `supplies_dryAccessor`: the frames that have been drawn.
-/

set_option autoImplicit false

namespace MString

/-! ### The memory -/

/-- The address of the table in a frame. -/
def frameTable (frame : Nat) : Uintptr := pframeToVirt (BitVec.ofNat 32 frame)

/-- A present entry for a frame. -/
def refTo (frame : Nat) : TlbEntry :=
  { TlbEntry.zero with present := true }.setBase ((BitVec.ofNat 32 frame).setWidth 64)

/-- The memory in which the slot `i` of frame `f` refers to the frame `child f i`. -/
def directory (child : Nat → Nat → Option Nat) : Mem := fun a =>
  match child ((a - KERNEL_BASE).toNat / 4096) ((a - KERNEL_BASE).toNat % 4096 / 8) with
  | some frame => refTo frame
  | none => .zero

/-- The frame at the end of a path that starts in the frame `f`. -/
def descend (child : Nat → Nat → Option Nat) : Nat → List (Fin 512) → Option Nat
  | f, [] => some f
  | f, i :: p => (child f i.val).bind fun c => descend child c p

/-- The root of a directory. -/
def DIRECTORY_ROOT : Uintptr := frameTable 1

/-- References to low frames, and never two to one frame. -/
structure References (child : Nat → Nat → Option Nat) : Prop where
  low : ∀ f i c, child f i = some c → c < 2 ^ 19
  ne_root : ∀ f i, child f i ≠ some 1
  inj : ∀ f f' i i' c, child f i = some c → child f' i' = some c → f = f' ∧ i = i'

/-- The first `2 ^ 19` frames lie below 2 GB, ... -/
theorem lowFrame_ofNat {frame : Nat} (h : frame < 2 ^ 19) : LowFrame (BitVec.ofNat 32 frame) := by
  rw [LowFrame, BitVec.toNat_ofNat]
  omega

/-- ... their numbers fit an index ... -/
theorem toNat_frame {frame : Nat} (h : frame < 2 ^ 19) :
    (BitVec.ofNat 32 frame).toNat = frame := by
  rw [BitVec.toNat_ofNat]
  omega

/-- ... and they may hold tables. -/
theorem tableAddr_frameTable {frame : Nat} (h : frame < 2 ^ 19) : TableAddr (frameTable frame) :=
  tableAddr_pframeToVirt (lowFrame_ofNat h)

/-- Different frames have different addresses. -/
theorem frameTable_inj {a b : Nat} (ha : a < 2 ^ 19) (hb : b < 2 ^ 19)
    (h : frameTable a = frameTable b) : a = b := by
  have := congrArg BitVec.toNat (pframeToVirt_inj (lowFrame_ofNat ha) (lowFrame_ofNat hb) h)
  rwa [toNat_frame ha, toNat_frame hb] at this

section Tables

variable {child : Nat → Nat → Option Nat}

/-- The slots of a table of the directory. -/
theorem slotEntry_directory {frame : Nat} (hf : frame < 2 ^ 19) (i : Fin 512) :
    slotEntry (directory child) (frameTable frame) i
      = match child frame i.val with
        | some c => refTo c
        | none => .zero := by
  have hlow := lowFrame_ofNat hf
  have hoff : ((EntryPtr.mk (frameTable frame) i).addr - KERNEL_BASE).toNat
      = 4096 * frame + 8 * i.val := by
    have hkb : KERNEL_BASE.toNat = 0xffffffff80000000 := by decide
    rw [BitVec.toNat_sub, (tableAddr_frameTable hf).toNat_addr, frameTable,
      toNat_pframeToVirt hlow, toNat_frame hf, hkb]
    have := i.isLt
    omega
  have hi := i.isLt
  rw [slotEntry, directory, hoff, show (4096 * frame + 8 * i.val) / 4096 = frame by omega,
    show (4096 * frame + 8 * i.val) % 4096 / 8 = i.val by omega]

/-- Its references. -/
theorem entryTable_directory (hc : References child) {frame : Nat} (hf : frame < 2 ^ 19)
    (i : Fin 512) : entryTable (slotEntry (directory child) (frameTable frame) i)
      = (child frame i.val).map frameTable := by
  rw [slotEntry_directory hf]
  cases h : child frame i.val with
  | none => exact entryTable_of_not_present rfl
  | some c =>
      rw [Option.map_some, ← show (refTo c).table = frameTable c from
        table_setBase _ (lowFrame_ofNat (hc.low _ _ _ h))]
      exact entryTable_of_present rfl

/-- A path of the directory. -/
theorem tableAt_directory (hc : References child) :
    ∀ (p : List (Fin 512)) (frame : Nat), frame < 2 ^ 19 →
      Radix.tableAt entryTable (slotEntry (directory child)) (frameTable frame) p
        = (descend child frame p).map frameTable := by
  intro p
  induction p with
  | nil => exact fun _ _ => rfl
  | cons i p ih =>
      intro frame hf
      rw [Radix.tableAt_cons, entryTable_directory hc hf, descend]
      cases h : child frame i.val with
      | none => rfl
      | some c => exact ih c (hc.low _ _ _ h)

/-- So a path from the root leads to the table in the frame where `descend` ends. -/
theorem tableOf_directory (hc : References child) (p : List (Fin 512)) :
    tableOf (directory child) DIRECTORY_ROOT p = (descend child 1 p).map frameTable :=
  tableAt_directory hc p 1 (by omega)

/-- One step more. -/
theorem descend_concat (f : Nat) (p : List (Fin 512)) (i : Fin 512) :
    descend child f (p ++ [i]) = (descend child f p).bind fun c => child c i.val := by
  induction p generalizing f with
  | nil => simp [descend]
  | cons j p ih =>
      cases h : child f j.val with
      | none => simp [descend, h]
      | some c => simp [descend, h, ih]

/-- All frames on the way are low. -/
theorem descend_low (hc : References child) {p : List (Fin 512)} {f c : Nat} (hf : f < 2 ^ 19)
    (h : descend child f p = some c) : c < 2 ^ 19 := by
  induction p generalizing f with
  | nil =>
      cases h
      exact hf
  | cons i p ih =>
      obtain ⟨g, hg, hrest⟩ := Option.bind_eq_some_iff.mp h
      exact ih (hc.low _ _ _ hg) hrest

/-- Where a path of four slots leads nowhere, nothing is mapped. -/
theorem translate_directory (hc : References child) {v : Uintptr}
    (h : descend child 1 (path v ++ [ptlIndex 12 v]) = none) :
    translate (directory child) DIRECTORY_ROOT v = INVALID_PAGE_IDX := by
  rw [translate, tableOf_directory hc]
  rw [descend_concat] at h
  cases hp : descend child 1 (path v) with
  | none => rfl
  | some c =>
      rw [hp, Option.bind_some] at h
      rw [Option.map_some]
      dsimp only
      rw [slotEntry_directory (descend_low hc (by omega) hp), h]
      rfl

/-- As no frame is referred to twice, the tables form a tree. -/
theorem wellFormed_directory (hc : References child) :
    WellFormed (directory child) DIRECTORY_ROOT := by
  -- the frames below 2 GB are closed under references
  let T : Uintptr → Prop := fun t => ∃ frame, frame < 2 ^ 19 ∧ t = frameTable frame
  have hroot : T DIRECTORY_ROOT := ⟨1, by omega, rfl⟩
  have hsome : ∀ frame i c, frame < 2 ^ 19 →
      entryTable (slotEntry (directory child) (frameTable frame) i) = some c →
      ∃ g, child frame (i : Fin 512).val = some g ∧ g < 2 ^ 19 ∧ c = frameTable g := by
    intro frame i c hf h
    rw [entryTable_directory hc hf, Option.map_eq_some_iff] at h
    obtain ⟨g, hg, rfl⟩ := h
    exact ⟨g, hg, hc.low _ _ _ hg, rfl⟩
  have hclosed : ∀ t i c, T t → entryTable (slotEntry (directory child) t i) = some c → T c := by
    rintro t i c ⟨frame, hf, rfl⟩ h
    obtain ⟨g, -, hg, rfl⟩ := hsome frame i c hf h
    exact ⟨g, hg, rfl⟩
  refine ⟨fun p t _ h => ?_, Radix.isTree_of_injective hroot hclosed ?_ ?_⟩
  · obtain ⟨frame, hf, rfl⟩ := Radix.tableAt_closed hroot hclosed p t h
    exact tableAddr_frameTable hf
  · rintro t t' i i' c ⟨frame, hf, rfl⟩ ⟨frame', hf', rfl⟩ h h'
    obtain ⟨g, hg, hglt, rfl⟩ := hsome frame i c hf h
    obtain ⟨g', hg', hglt', heq⟩ := hsome frame' i' _ hf' h'
    obtain rfl := frameTable_inj hglt hglt' heq
    obtain ⟨rfl, hi⟩ := hc.inj _ _ _ _ _ hg hg'
    exact ⟨rfl, Fin.ext hi⟩
  · rintro t i ⟨frame, hf, rfl⟩ h
    obtain ⟨g, hg, hglt, heq⟩ := hsome frame i _ hf h
    obtain rfl := frameTable_inj (by omega) hglt heq
    exact hc.ne_root _ _ hg

end Tables

/-! ### An accessor without pages -/

/-- Frame 0 for every page, and no page for a table. The context counts the frames. -/
def dryAccessor : PageFrameAccessor Nat where
  framesLeft _ := 0
  nextFrame drawn := .ok (0, drawn + 1)
  reset drawn := drawn
  allocPage _ _ s := .ok (none, s)

/-- The frames that `dryAccessor` has yielded. -/
def Drawn (drawn : Nat) (fs : List PageIdx) : Prop := fs = List.replicate drawn 0

/-- It never hands out a page, and `Drawn` is its history. -/
theorem supplies_dryAccessor : Supplies dryAccessor (fun _ _ => False) Drawn where
  some h := by cases h
  none h := by
    cases h
    exact ⟨rfl, fun _ hfs => hfs, fun _ hx => hx⟩
  next h := by
    cases h
    refine ⟨fun fs hfs => ?_, fun _ hx => hx⟩
    rw [Drawn, hfs, List.replicate_succ']

/-- All of its frames are frame 0. -/
theorem yields_drawn : Yields Drawn fun _ => 0 := by
  intro drawn fs hfs i x hx
  rw [hfs] at hx
  exact List.eq_of_mem_replicate (List.mem_of_getElem? hx)

/-- The surroundings of a walk with this accessor. -/
def dryEnv (flags : PageFlags) : WalkEnv Nat := ⟨kernelWindow, dryAccessor, flags⟩

/-- It has no page for any flags. -/
theorem refuses_dryEnv (flags : PageFlags) : Refuses (dryEnv flags) := fun _ => rfl

/-- So a call with it asks for nothing but a well-formed directory. -/
theorem ready_dry {root : Uintptr} {s : Machine Nat} (h : WellFormed s.mem root) :
    Ready (fun _ _ => False) root s :=
  ⟨h, fun _ hx => hx.elim, fun _ hx => hx.elim⟩

/-- What a run of pages leaves behind: `dryAccessor` has counted them, they are mapped to
frame 0, and the other pages are as before. -/
structure DrawnFor (root : Uintptr) (us : List Uintptr) (m : Mem) (s' : Machine Nat) : Prop where
  wf : WellFormed s'.mem root
  count : s'.ctx = us.length
  mapped : ∀ v ∈ us, translate s'.mem root v = 0
  frame : ∀ w, (∀ v ∈ us, pageOf w ≠ pageOf v) → translate s'.mem root w = translate m root w

/-- A run that succeeds leaves this behind. -/
theorem drawnFor_of_run {root : Uintptr} {flags : PageFlags} {us : List Uintptr} {m : Mem}
    {s' : Machine Nat} (hwf : WellFormed m root) (hnodup : (us.map pageOf).Nodup)
    (hrun : mapPagesFrom (dryEnv flags) upperLevels root us ⟨m, 0⟩ = .ok (0, s')) :
    DrawnFor root us m s' := by
  obtain ⟨gs, hgs⟩ := @mapPagesFrom_visits _ (dryEnv flags) _ _ _ _ _ _ supplies_dryAccessor
    answers_kernelWindow _ (ready_dry hwf) hrun
  have hdrawn : gs = List.replicate s'.ctx 0 := hgs.history [] rfl
  have hlen : gs.length = us.length := by
    rcases hgs.result with ⟨-, hlen⟩ | ⟨hr, -⟩
    · exact hlen
    · exact absurd hr.symm neg_ENOMEM_ne_zero
  have hcount : s'.ctx = us.length := by rw [← hlen, hdrawn, List.length_replicate]
  refine ⟨hgs.ready.wf, hcount, fun v hv => ?_, fun w hw => hgs.frame w fun v hv =>
    hw v (List.mem_of_mem_take hv)⟩
  obtain ⟨i, hi⟩ := List.mem_iff_getElem?.mp hv
  have hlt := (List.getElem?_eq_some_iff.mp hi).1
  exact hgs.mapped hnodup i v 0 hi (by
    rw [hdrawn, List.getElem?_replicate, if_pos (by omega)])

end MString
