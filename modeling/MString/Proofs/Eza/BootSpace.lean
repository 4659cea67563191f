import MString.Proofs.Eza.IdleTasks
import MString.Proofs.Mm.DirectorySwitch

/-!
# `MString.Proofs.Eza.BootSpace`: the address space that the boot leaves behind

`arch_remap_memory` fills the kernel's directory, and `initialize_scheduler` adds the pages
of the idle tasks below the kernel's window.

* `BootAddress`: where the kernel finds physical memory afterwards.
* `BootLeaves.translate_iff`: the processor finds it there, and nowhere else.
-/

set_option autoImplicit false

namespace MString

/-- The kernel's window up to the end of memory, the first 16 MB at their own addresses but
for page zero, and the pages of the idle tasks. -/
inductive BootAddress (dma total : Nat) (tasks : List (PageIdx × List PageIdx)) (v : Uintptr) :
    Nat → Prop
  | kernel (hlow : KERNEL_BASE.toNat ≤ v.toNat)
      (hhigh : v.toNat < KERNEL_BASE.toNat + 4096 * total) :
      BootAddress dma total tasks v (v.toNat - KERNEL_BASE.toNat)
  | dma (hlow : 4096 ≤ v.toNat) (hhigh : v.toNat < 4096 * dma) :
      BootAddress dma total tasks v v.toNat
  | struct (cpu : Nat) (t : PageIdx × List PageIdx) (ht : tasks[cpu]? = some t)
      (hpage : InPage (taskStructPage (stackOf (BitVec.ofNat 32 cpu))) 0 v) :
      BootAddress dma total tasks v (4096 * t.1.toNat + v.toNat % 4096)
  | stack (cpu i : Nat) (t : PageIdx × List PageIdx) (f : PageIdx) (ht : tasks[cpu]? = some t)
      (hf : t.2[i]? = some f) (hpage : InPage (stackOf (BitVec.ofNat 32 cpu)).lowAddress i v) :
      BootAddress dma total tasks v (4096 * f.toNat + v.toNat % 4096)

/-- The leaves of the directory: those that `arch_remap_memory` has left in `m₀`, and those
of the idle tasks. -/
structure BootLeaves (root : Uintptr) (dmaPages totalPages : PageIdx)
    (tasks : List (PageIdx × List PageIdx)) (m₀ m : Mem) : Prop where
  remap : RemapLeaves root dmaPages totalPages m₀
  fit : totalPages.toNat ≤ 2 ^ 18
  dma : dmaPages.toNat ≤ totalPages.toNat
  few : tasks.length ≤ BITMAP_ENTRIES_COUNT
  length : ∀ (cpu : Nat) (t : PageIdx × List PageIdx), tasks[cpu]? = some t →
    t.2.length = KERNEL_STACK_PAGES
  slot : ∀ (cpu : Nat) (t : PageIdx × List PageIdx), tasks[cpu]? = some t →
    SlotHas root m cpu t.1 t.2
  others : ∀ w, (∀ cpu, cpu < tasks.length → ¬ OfSlot cpu w) →
    leafOf m root w = leafOf m₀ root w

/-- The slots lie below the kernel's window, and far above the first 16 MB. -/
theorem OfSlot.bounds {k : Nat} {w : Uintptr} (h : OfSlot k w) (hk : k < BITMAP_ENTRIES_COUNT) :
    2 ^ 35 ≤ pageOf w ∧ pageOf w < 2 ^ 36 - 2 ^ 19 := by
  have hcount : BITMAP_ENTRIES_COUNT = 507 := by decide
  have hpages : KERNEL_STACK_PAGES = 4 := rfl
  rcases h with h | ⟨i, hi, h⟩
  · rw [h]
    unfold slotPage slotBase
    omega
  · rw [h]
    unfold slotPage slotBase
    omega

section Leaves

variable {root : Uintptr} {dmaPages totalPages : PageIdx} {tasks : List (PageIdx × List PageIdx)}
  {m₀ m : Mem} {v : Uintptr} {pa : Nat}

theorem pageOf_of_window {i : Nat} (hi : i < 2 ^ 18) :
    pageOf (KERNEL_BASE + BitVec.ofNat 64 (4096 * i)) = 2 ^ 36 - 2 ^ 19 + i := by
  have hkb : KERNEL_BASE.toNat = 0xffffffff80000000 := by decide
  rw [pageOf, toNat_page (by rw [hkb]; omega), hkb]
  omega

theorem BootLeaves.lt (h : BootLeaves root dmaPages totalPages tasks m₀ m) {cpu : Nat}
    {t : PageIdx × List PageIdx} (ht : tasks[cpu]? = some t) : cpu < BITMAP_ENTRIES_COUNT :=
  Nat.lt_of_lt_of_le (List.getElem?_eq_some_iff.mp ht).1 h.few

/-- An address outside of the slots has the leaf that `arch_remap_memory` gave it. -/
theorem BootLeaves.leafOf_outside (h : BootLeaves root dmaPages totalPages tasks m₀ m)
    (hpage : pageOf v < 2 ^ 35 ∨ 2 ^ 36 - 2 ^ 19 ≤ pageOf v) :
    leafOf m root v = leafOf m₀ root v := by
  refine h.others v fun cpu hcpu hslot => ?_
  have hbounds := hslot.bounds (Nat.lt_of_lt_of_le hcpu h.few)
  omega

/-- What is at an address of the kernel has a leaf for it. -/
theorem BootLeaves.leaf_of_address (h : BootLeaves root dmaPages totalPages tasks m₀ m)
    (ha : BootAddress dmaPages.toNat totalPages.toNat tasks v pa) :
    PageWalk.Canonical v.toNat ∧
      ∃ e, leafOf m root v = some e ∧ 4096 * e.base.toNat + v.toNat % 4096 = pa := by
  have hkb : KERNEL_BASE.toNat = 0xffffffff80000000 := by decide
  have hcount : BITMAP_ENTRIES_COUNT = 507 := by decide
  have hfit := h.fit
  have hdma := h.dma
  have hv := v.isLt
  unfold PageWalk.Canonical
  cases ha with
  | kernel hlow hhigh =>
      -- page `i` of the window is frame `i`
      rw [hkb] at hlow hhigh
      have hi : (v.toNat - 0xffffffff80000000) / 4096 < totalPages.toNat := by omega
      have hpage : pageOf v = 2 ^ 36 - 2 ^ 19 + (v.toNat - 0xffffffff80000000) / 4096 := by
        rw [pageOf]
        omega
      obtain ⟨e, he, hbase⟩ := h.remap.kernel _ hi v
        (by rw [hpage, pageOf_of_window (by omega)])
      refine ⟨by omega, e, by rw [h.leafOf_outside (by omega), he], ?_⟩
      rw [hbase, BitVec.toNat_ofNat, hkb]
      omega
  | dma hlow hhigh =>
      -- the number of the page is that of the frame
      have hpage : pageOf v = v.toNat / 4096 := by
        rw [pageOf]
        omega
      obtain ⟨e, he, hbase⟩ := h.remap.dma (v.toNat / 4096) (by omega) (by omega) v hpage
      refine ⟨by omega, e, by rw [h.leafOf_outside (by omega), he], ?_⟩
      rw [hbase, BitVec.toNat_ofNat]
      omega
  | struct cpu t ht hpage =>
      have hlt := h.lt ht
      obtain ⟨e, he, hbase⟩ := (h.slot cpu t ht).struct v (pageOf_of_struct hlt hpage)
      obtain ⟨hlow, hhigh⟩ := hpage
      rw [toNat_taskStructPage hlt] at hlow hhigh
      unfold slotBase at hlow hhigh
      exact ⟨by omega, e, he, by rw [hbase]⟩
  | stack cpu i t f ht hf hpage =>
      have hlt := h.lt ht
      obtain ⟨e, he, hbase⟩ := (h.slot cpu t ht).stack i f hf v (pageOf_of_stack hlt hpage)
      obtain ⟨hlow, hhigh⟩ := hpage
      rw [(toNat_stackOf hlt).1] at hlow hhigh
      have hi := (List.getElem?_eq_some_iff.mp hf).1
      rw [h.length cpu t ht, show KERNEL_STACK_PAGES = 4 from rfl] at hi
      unfold slotBase at hlow hhigh
      exact ⟨by omega, e, he, by rw [hbase]⟩

/-- Whatever has a leaf is an address of the kernel. -/
theorem BootLeaves.exists_address (h : BootLeaves root dmaPages totalPages tasks m₀ m)
    (hcan : PageWalk.Canonical v.toNat) (hleaf : leafOf m root v ≠ none) :
    ∃ pa, BootAddress dmaPages.toNat totalPages.toNat tasks v pa := by
  have hkb : KERNEL_BASE.toNat = 0xffffffff80000000 := by decide
  have hfit := h.fit
  by_cases hslot : ∃ cpu, cpu < tasks.length ∧ OfSlot cpu v
  case pos =>
    obtain ⟨cpu, hcpu, hof⟩ := hslot
    have ht : tasks[cpu]? = some tasks[cpu] := List.getElem?_eq_getElem hcpu
    rcases hof.ofTask (h.lt ht) hcan with ⟨i, hi, hpage⟩ | hpage
    · have hlen := h.length cpu _ ht
      have hf : i < tasks[cpu].2.length := by omega
      exact ⟨_, .stack cpu i _ _ ht (List.getElem?_eq_getElem hf) hpage⟩
    · exact ⟨_, .struct cpu _ ht hpage⟩
  -- outside of the slots nothing has changed
  rw [h.others v fun cpu hcpu hof => hslot ⟨cpu, hcpu, hof⟩] at hleaf
  by_cases hk : 0xffffffff80000000 ≤ v.toNat
      ∧ v.toNat < 0xffffffff80000000 + 4096 * totalPages.toNat
  case pos => exact ⟨_, .kernel (by rw [hkb]; exact hk.1) (by rw [hkb]; exact hk.2)⟩
  by_cases hd : 4096 ≤ v.toNat ∧ v.toNat < 4096 * dmaPages.toNat
  case pos => exact ⟨_, .dma hd.1 hd.2⟩
  -- such an address had no leaf before
  unfold PageWalk.Canonical at hcan
  refine absurd (h.remap.others v (fun i hi => ?_) ?_) hleaf
  · rw [pageOf_of_window (by omega), pageOf]
    omega
  · rw [pageOf]
    omega

/-- The processor finds physical memory at the addresses of the kernel, and nowhere else. -/
theorem BootLeaves.translate_iff (h : BootLeaves root dmaPages totalPages tasks m₀ m)
    (hwf : WellFormed m root) (hread : Readable m root) (hroot : root ≠ KERNEL_BASE) :
    PageWalk.translate (physicalWords m) (loadCr3 (k2p root) 1 1).toNat v.toNat = some pa
      ↔ BootAddress dmaPages.toNat totalPages.toNat tasks v pa := by
  have hfrom : ∀ pa, BootAddress dmaPages.toNat totalPages.toNat tasks v pa →
      PageWalk.translate (physicalWords m) (loadCr3 (k2p root) 1 1).toNat v.toNat = some pa := by
    intro pa ha
    obtain ⟨hcan, e, he, hpa⟩ := h.leaf_of_address ha
    rw [translate_physicalWords hwf hread hroot, if_pos hcan, he, Option.map_some, hpa]
  refine ⟨fun htranslate => ?_, hfrom pa⟩
  have hcan : PageWalk.Canonical v.toNat := by
    by_contra hnot
    rw [translate_physicalWords hwf hread hroot, if_neg hnot] at htranslate
    cases htranslate
  have hleaf : leafOf m root v ≠ none := by
    intro hnone
    rw [translate_physicalWords hwf hread hroot, if_pos hcan, hnone] at htranslate
    cases htranslate
  -- it translates to one place only
  obtain ⟨pa', ha⟩ := h.exists_address hcan hleaf
  have hsame := (hfrom pa' ha).symm.trans htranslate
  rwa [Option.some.inj hsame] at ha

end Leaves

end MString
