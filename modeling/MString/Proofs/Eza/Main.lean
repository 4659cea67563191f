import MString.Eza.Main
import MString.Proofs.Eza.BootSpace
import MString.Proofs.Eza.ThreadRuns
import MString.Proofs.Mm.BootFrames
import MString.Proofs.Mm.RemapRuns

/-!
# `MString.Proofs.Eza.Main`: the boot of the first processor

`mainRoutine` in one piece: `build_page_array` puts frames into the cache of the boot
processor, `arch_remap_memory` takes its tables from it, and `initialize_scheduler` the task
structs, the stacks, and tables for them.

* `remap_cached`: `arch_remap_memory` with that cache.
* `mainRoutine_boots`: when the cache counts enough frames, the whole boot comes to its end
  exactly when there are stacks for all processors, and then leaves a kernel behind that is
  `Booted`: its address space, its idle tasks, and what the first `kernel_thread` relies on.
-/

set_option autoImplicit false

namespace MString

/-! ### The stages -/

section Remap

variable {ahead : Nat} {root : Uintptr} {dmaPages totalPages : PageIdx} {mem : Mem}
  {c : PageLists} {pages : List PageIdx} {m : Machine PageLists}

/-- `arch_remap_memory` comes to its end with enough frames in the cache, and this is what it
leaves to the scheduler. -/
theorem remap_cached (h : CacheCounts 0 ahead c pages)
    (hboot : BootMemory Frames.Lists root ⟨mem, ⟨pages, [], h.nodup⟩⟩)
    (htwo : 2 ≤ dmaPages.toNat) (hdma : dmaPages.toNat ≤ totalPages.toNat)
    (hfit : totalPages.toNat ≤ 2 ^ 18) (hs : remapFrames dmaPages totalPages ≤ pages.length) :
    ∃ m F, archRemapMemory kernelWindow (allocPage 0) root dmaPages totalPages 0 ⟨mem, c⟩ = .ok m ∧
      F.held = [] ∧ Cached 0 ahead root F m ∧ (∀ x ∈ F.pages, x ∈ pages) ∧
      RemapLeaves root dmaPages totalPages m.mem ∧
      pages.length ≤ F.pages.length + remapFrames dmaPages totalPages := by
  have hstands := @archRemapMemory_stands ahead root dmaPages totalPages 0 kernelWindow mem c
    ⟨pages, [], h.nodup⟩ h
  obtain ⟨⟨m1, F⟩, hbook, hle⟩ := @archRemapMemory_stocked root dmaPages totalPages _ hboot htwo
    hdma hfit hs
  obtain ⟨-, hleaves, hready, hlists⟩ :=
    remap_leaves allocates_framesAlloc hboot (by omega) hdma hbook
  rw [hbook] at hstands
  generalize archRemapMemory kernelWindow (allocPage 0) root dmaPages totalPages 0 ⟨mem, c⟩ = x
    at hstands ⊢
  cases hstands with
  | left hq => exact hq.elim
  | @ok _ m hm =>
      obtain ⟨m2, c'⟩ := m
      obtain ⟨hmem, hcounts⟩ := hm
      obtain rfl : m1 = m2 := hmem
      -- the tables have left the book, and what is in the cache opens a new one
      have hin : ∀ x ∈ F.pages, F.Lists x := fun x hx => List.mem_append_right _ hx
      have hbookReady : BookReady root m1 ⟨F.pages, [], hcounts.nodup⟩ :=
        ⟨hready.wf, fun x hx => hready.low x (hin x hx), fun x hx => hready.fresh x (hin x hx)⟩
      exact ⟨_, ⟨F.pages, [], hcounts.nodup⟩, rfl, rfl, ⟨hcounts, hbookReady⟩,
        fun x hx => hlists x (hin x hx), hleaves, hle⟩

end Remap

/-! ### The zones -/

/-- `ZONE_DMA` has the frames of the first 16 MB. -/
theorem length_framesOf_dma (free : Nat → Bool) {n : Nat} (hn : n ≤ 2 ^ 32) :
    (framesOf free true .dma n).length + (framesOf free false .dma n).length = min 4096 n := by
  induction n with
  | zero => rfl
  | succ n ih =>
      have hrest := ih (by omega)
      have hzone := zoneOf_dma_iff (show n < 2 ^ 32 by omega)
      rw [framesOf_succ, framesOf_succ]
      by_cases hdma : n < 4096
      · have hin : inZone .dma n = true := by
          rw [inZone, hzone.mpr hdma]
          rfl
        rw [hin]
        cases free n <;> simp <;> omega
      · have hout : inZone .dma n = false := by
          rw [inZone, beq_eq_false_iff_ne]
          exact mt hzone.mp hdma
        rw [hout]
        simp only [Bool.false_and, Bool.false_eq_true, if_false]
        omega

section Boot

variable {env : TaskEnv} {t : E820Table} {kdataEnd maxPhysAddr : Uintptr} {nrCpus : Nat}
  {words : Nat → BitVec 64} {mm mm' : MemoryManager} {s : IdleState}

/-- So its counter says. -/
theorem dmaPages_of_run (hcpus : nrCpus < 2 ^ 31)
    (hrun : buildPageArray t kdataEnd nrCpus mm = .ok (maxPhysAddr, mm')) :
    (mm'.zones .dma).numTotalPages.toNat = min 4096 (pageCount maxPhysAddr) := by
  obtain ⟨mm1, s, c, cs, hsorted, hcount, -, -, hshared⟩ := sharedOut_of_run hcpus hrun
  have hlen := length_framesOf_dma (freeFrame t kdataEnd maxPhysAddr)
    (show pageCount maxPhysAddr ≤ 2 ^ 32 by omega)
  rw [hshared.zones, Function.update_of_ne (by decide), hsorted.counts .dma, BitVec.toNat_add,
    BitVec.toNat_ofNat, BitVec.toNat_ofNat]
  omega

/-- `setup_memory_swks` counts whole pages. Below 16 TB the count fits its type. -/
theorem toNat_setupMemorySwks (hmem : maxPhysAddr.toNat < 2 ^ 44) :
    (setupMemorySwks maxPhysAddr).toNat = maxPhysAddr.toNat / 4096 := by
  rw [setupMemorySwks, BitVec.toNat_setWidth, BitVec.toNat_udiv,
    show PAGE_SIZE.toNat = 4096 from rfl]
  omega

/-! ### The whole boot -/

/-- The kernel's directory before the boot: an empty table in the kernel's image. -/
structure BootDirectory (env : TaskEnv) (kdataEnd : Uintptr) (mem : Mem) : Prop where
  window : env.mapped = kernelWindow
  root : TableAddr env.kernelPtDirectory.entries
  low : KERNEL_BASE.toNat + KERNEL_PHYS_START.toNat ≤ env.kernelPtDirectory.entries.toNat
  high : env.kernelPtDirectory.entries.toNat < kdataEnd.toNat
  empty : ∀ i, (slotEntry mem env.kernelPtDirectory.entries i).present = false

/-- The root of the boot directory is not in the first page of the window. -/
theorem BootDirectory.ne_base {mem : Mem} (h : BootDirectory env kdataEnd mem) :
    env.kernelPtDirectory.entries ≠ KERNEL_BASE := by
  intro heq
  have hlow := h.low
  rw [heq, show KERNEL_PHYS_START.toNat = 0x100000 from rfl] at hlow
  omega

/-- Frames that may be allocated are low, and none is the directory. -/
theorem BootDirectory.bootMemory {mem : Mem} {F : Frames} (h : BootDirectory env kdataEnd mem)
    (hmem : maxPhysAddr.toNat ≤ 2 ^ 31)
    (hF : ∀ x, F.Lists x → Allocatable t kdataEnd maxPhysAddr x) :
    BootMemory Frames.Lists env.kernelPtDirectory.entries ⟨mem, F⟩ where
  root := h.root
  empty := h.empty
  low := fun pf hpf => by
    have hlt := (hF pf hpf).2.1
    unfold pageCount at hlt
    rw [LowFrame]
    omega
  fresh := fun pf hpf heq => by
    obtain ⟨-, hlt, hbytes⟩ := hF pf hpf
    unfold pageCount at hlt
    have hvirt := @toNat_pframeToVirt pf (by rw [LowFrame]; omega)
    rw [heq] at hvirt
    have hlow := h.low
    have hhigh := h.high
    -- the frame would lie in the image, before the array
    refine (hbytes (4096 * pf.toNat) (by omega)).2 ⟨by omega, ?_⟩
    unfold arrayEnd
    omega

/-- What the boot leaves behind, on a machine with memory up to `maxPhysAddr`. -/
structure Booted (env : TaskEnv) (t : E820Table) (kdataEnd maxPhysAddr : Uintptr) (nrCpus : Nat)
    (s : MainState) : Prop where
  /-- Every processor has an idle task. Of the frames that the tasks have and those that are
  left in the cache, no two are the same, all are allocatable, and none is a table. -/
  tasks : ∃ ch1 tasks left ahead, tasks.length = nrCpus ∧
    (∀ cpu u, tasks[cpu]? = some u → IdleTask env s.idle cpu u.1 u.2) ∧
    CacheCounts 0 ahead s.idle.kernel.machine.ctx left ∧ (ch1 :: taskHeld tasks ++ left).Nodup ∧
    (∀ x ∈ ch1 :: taskHeld tasks ++ left, Allocatable t kdataEnd maxPhysAddr x ∧
      ∀ p, p.length < 4 →
        tableOf s.idle.kernel.machine.mem env.kernelPtDirectory.entries p
          ≠ some (pframeToVirt x)) ∧
    ∀ (v : Uintptr) (pa : Nat),
      PageWalk.translate (physicalWords s.idle.kernel.machine.mem)
          (loadCr3 (k2p env.kernelPtDirectory.entries) 1 1).toNat v.toNat = some pa
        ↔ BootAddress (min 4096 (maxPhysAddr.toNat / 4096)) (maxPhysAddr.toNat / 4096) tasks v pa
  /-- The boot goes on with the stack of the first idle task. -/
  rsp : s.rsp = (stackOf 0).highAddress - 512
  /-- So the threads of this kernel can be created and switched. -/
  first : ∀ sys : ThreadSystem, sys.kernel = s.idle.kernel → sys.tasks.running.val < nrCpus →
    sys.tasks.Fresh → (∀ u, ¬ sys.tasks.prepared u) → FirstThread sys

/-- The frames that the boot takes at most. -/
def bootDemand (maxPhysAddr : Uintptr) (nrCpus : Nat) : Nat :=
  3 * (min 4096 (maxPhysAddr.toNat / 4096) / 512 + 2) + 3 * (maxPhysAddr.toNat / 4096 / 512 + 2)
    + (1 + 21 * nrCpus)

/-- `main_routine` behind `build_page_array`. -/
theorem mainRoutine_eq (hbuild : buildPageArray t kdataEnd nrCpus mm = .ok (maxPhysAddr, mm')) :
    mainRoutine env t kdataEnd nrCpus words mm s
      = (archRemapMemory env.mapped (allocPage 0) env.kernelPtDirectory.entries
          (mm'.zones .dma).numTotalPages (setupMemorySwks maxPhysAddr) 0
          ⟨s.kernel.machine.mem, mm'.lists⟩ >>= fun m =>
        initializeScheduler env 0 (setupMemorySwks maxPhysAddr) nrCpus words
            { s with kernel := { s.kernel with machine := m } } >>= fun s =>
          match s.idleTasks 0 with
          | none => .error (.pageFault HIGH_ADDRESS_OFFSET)
          | some ts => return ⟨setupMemorySwks maxPhysAddr, s,
              (s.kernel.task ts).kernelStack.highAddress - 512⟩) := by
  rw [mainRoutine, archPmmInit, hbuild, Loop.ok_bind]
  dsimp only
  cases archRemapMemory env.mapped (allocPage 0) env.kernelPtDirectory.entries
    (mm'.zones .dma).numTotalPages (setupMemorySwks maxPhysAddr) 0
    ⟨s.kernel.machine.mem, mm'.lists⟩ with
  | error e => rfl
  | ok m => rfl

/-- The loop over the processors leaves what `arch_remap_memory` has mapped. -/
theorem IdlesKept.bootLeaves {dmaPages totalPages : PageIdx} {ahead : Nat} {F₀ F : Frames}
    {s₀ s' : IdleState} {tasks : List (PageIdx × List PageIdx)} {m₀ : Mem}
    (h : IdlesKept env 0 ahead F₀ s₀ tasks F s')
    (hleaves : RemapLeaves env.kernelPtDirectory.entries dmaPages totalPages m₀)
    (hfit : totalPages.toNat ≤ 2 ^ 18) (hdma : dmaPages.toNat ≤ totalPages.toNat)
    (hleaf : ∀ w, leafOf s₀.kernel.machine.mem env.kernelPtDirectory.entries w
      = leafOf m₀ env.kernelPtDirectory.entries w) :
    BootLeaves env.kernelPtDirectory.entries dmaPages totalPages tasks m₀
      s'.kernel.machine.mem := by
  constructor
  case remap => exact hleaves
  case fit => exact hfit
  case dma => exact hdma
  case few =>
    -- a stack for every task
    have := h.handed.free
    omega
  case length => exact fun cpu u hu => (h.task cpu u hu).length
  case slot => exact fun cpu u hu => (h.task cpu u hu).has
  case others => exact fun w hw => (h.others w hw).trans (hleaf w)

/-- The first processor has a task to go on with. -/
theorem IdlesKept.exists_first {ahead : Nat} {F₀ F : Frames} {s₀ s' : IdleState}
    {tasks : List (PageIdx × List PageIdx)} (ha : Answers env.mapped)
    (h : IdlesKept env 0 ahead F₀ s₀ tasks F s') (hpos : 0 < tasks.length) :
    ∃ ts fs, IdleTask env s' 0 ts fs :=
  ⟨_, _, h.idleTask ha (List.getElem?_eq_getElem hpos)⟩

/-- What the scheduler's start leaves behind, after `arch_remap_memory`. -/
theorem booted_of_kept {dmaPages totalPages : PageIdx} {ahead : Nat} {F : Frames}
    {k : TaskState} {s' : IdleState} {ch1 : PageIdx} {tasks : List (PageIdx × List PageIdx)}
    {F' : Frames} {s₀ : IdleState} {ts : PageIdx} {fs : List PageIdx}
    (hd : BootDirectory env kdataEnd s.kernel.machine.mem)
    (hdma : dmaPages.toNat = min 4096 (maxPhysAddr.toNat / 4096))
    (htotal : totalPages.toNat = maxPhysAddr.toNat / 4096) (hfit : totalPages.toNat ≤ 2 ^ 18)
    (hheld : F.held = []) (hpages : ∀ x ∈ F.pages, Allocatable t kdataEnd maxPhysAddr x)
    (hleaves : RemapLeaves env.kernelPtDirectory.entries dmaPages totalPages k.machine.mem)
    (hlen : tasks.length = nrCpus) (hkept : IdlesKept env 0 ahead F.hold s₀ tasks F' s')
    (hheld' : F'.held = F.held ++ ch1 :: taskHeld tasks) (hlists : ∀ x, F'.Lists x → F.Lists x)
    (hleaf : ∀ w, leafOf s₀.kernel.machine.mem env.kernelPtDirectory.entries w
      = leafOf k.machine.mem env.kernelPtDirectory.entries w)
    (hread : Readable k.machine.mem env.kernelPtDirectory.entries →
      Readable s₀.kernel.machine.mem env.kernelPtDirectory.entries)
    (hidle : IdleTask env s' 0 ts fs) :
    Booted env t kdataEnd maxPhysAddr nrCpus
      ⟨totalPages, s', (s'.kernel.task ts).kernelStack.highAddress - 512⟩ := by
  have ha : Answers env.mapped := hd.window ▸ answers_kernelWindow
  have hbook : F'.held ++ F'.pages = ch1 :: taskHeld tasks ++ F'.pages := by
    rw [hheld', hheld]
    rfl
  -- The directory at the end has the leaves of `arch_remap_memory` and those of the idle tasks.
  have hspace := hkept.bootLeaves hleaves hfit (by omega) hleaf
  have hreadable := hkept.readable (hread hleaves.readable)
  constructor
  case tasks =>
    refine ⟨ch1, tasks, F'.pages, ahead, hlen, fun cpu u hu => hkept.idleTask ha hu,
      hkept.cached.counts, ?_, fun x hx => ?_, fun v pa => ?_⟩
    · rw [← hbook]
      exact F'.nodup
    · -- the book has no other frames than the cache had
      rw [← hbook] at hx
      refine ⟨hpages x ?_, hkept.cached.ready.fresh x hx⟩
      have hin := hlists x hx
      rwa [Frames.Lists, hheld, List.nil_append] at hin
    · rw [← hdma, ← htotal]
      exact hspace.translate_iff hkept.cached.ready.wf hreadable hd.ne_base
  case rsp =>
    show (s'.kernel.task ts).kernelStack.highAddress - 512 = _
    rw [TaskState.task, hidle.data]
    rfl
  -- As many stacks have been handed out as there are processors.
  case first =>
    intro sys hsys hrunning hfresh hnone
    have hhanded := hkept.handed
    rw [hlen] at hhanded
    exact ⟨⟨nrCpus, hsys ▸ hhanded, hrunning⟩, hfresh, hnone⟩

/-- The boot, for at most 1 GB of memory and a cache of the first processor that counts twice
the frames that are taken at most: it comes to its end exactly when there are stacks for all
processors, and it leaves a kernel behind that is `Booted`. -/
theorem mainRoutine_boots (ht : t.SortedDisjoint)
    (haligned : ∀ m ∈ t.entries, 4096 ∣ m.baseAddress.toNat)
    (hkernel : 4096 ∣ kdataEnd.toNat - KERNEL_BASE.toNat) (hmax : 4096 ∣ maxPhysAddr.toNat)
    (hmem : maxPhysAddr.toNat ≤ 2 ^ 30) (hpos : 0 < nrCpus) (hcpus : nrCpus < 2 ^ 31)
    (hd : BootDirectory env kdataEnd s.kernel.machine.mem)
    (hbuild : buildPageArray t kdataEnd nrCpus mm = .ok (maxPhysAddr, mm'))
    (hdemand : 2 * bootDemand maxPhysAddr nrCpus ≤ (mm'.lists.caches 0).numFreePages.toNat) :
    ((∃ r, mainRoutine env t kdataEnd nrCpus words mm s = .ok r) ↔
      nrCpus ≤ BITMAP_ENTRIES_COUNT) ∧
    ∀ r, mainRoutine env t kdataEnd nrCpus words mm s = .ok r →
      Booted env t kdataEnd maxPhysAddr nrCpus r := by
  obtain ⟨mm1, qs, harray, hstock, hsub⟩ := stocked_of_boot hcpus hbuild
  have hcache := hstock.cache hpos
  -- the frames in the cache are those that the page array has found to be free
  have hpages : ∀ x ∈ qs 0, Allocatable t kdataEnd maxPhysAddr x := fun x hx =>
    allocatable_of_free ht haligned hkernel hmax harray x (hsub 0 x hx)
  have hboot := @BootDirectory.bootMemory env t _ maxPhysAddr _ ⟨qs 0, [], hcache.nodup⟩ hd
    (by omega) hpages
  have hdma := dmaPages_of_run hcpus hbuild
  have hcount : pageCount maxPhysAddr = maxPhysAddr.toNat / 4096 := by
    unfold pageCount
    omega
  rw [hcount] at hdma
  have htotal := toNat_setupMemorySwks (show maxPhysAddr.toNat < 2 ^ 44 by omega)
  have hcounts := hcache.count
  unfold bootDemand at hdemand
  -- some frame is there, and it begins at 16 MB or behind
  have hlarge : 4096 < maxPhysAddr.toNat / 4096 := by
    obtain ⟨x, hx⟩ := List.exists_mem_of_length_pos (show 0 < (qs 0).length by omega)
    obtain ⟨hlow, hhigh, -⟩ := hpages x hx
    omega
  rw [mainRoutine_eq hbuild, hd.window]
  generalize (mm'.zones .dma).numTotalPages = dmaPages at hdma ⊢
  generalize setupMemorySwks maxPhysAddr = totalPages at htotal ⊢
  obtain ⟨m, F, hremap, hheld, hcached, hin, hleaves, hleft⟩ := @remap_cached _ _ dmaPages
    totalPages _ _ _ hcache hboot (by omega) (by omega) (by omega) (by unfold remapFrames; omega)
  unfold remapFrames at hleft
  have ha : Answers env.mapped := hd.window ▸ answers_kernelWindow
  rw [hremap, Loop.ok_bind]
  by_cases hfew : nrCpus ≤ BITMAP_ENTRIES_COUNT
  · obtain ⟨s', ch1, tasks, F', s₀, hsched, hlen, hkept, hheld', hlists, hleaf, hread⟩ :=
      @initializeScheduler_kept env 0 _ nrCpus totalPages words
        { s with kernel := { s.kernel with machine := m } } F ha hcached hfew (by omega)
    -- the load of `idle_tasks[0]`
    obtain ⟨ts, fs, hidle⟩ := hkept.exists_first ha (by omega)
    rw [hsched, Loop.ok_bind, hidle.registered]
    refine ⟨⟨fun _ => hfew, fun _ => ⟨_, rfl⟩⟩, fun r hret => ?_⟩
    obtain rfl := (Except.ok.inj hret).symm
    exact booted_of_kept hd hdma htotal (by omega) hheld (fun x hx => hpages x (hin x hx)) hleaves
      hlen hkept hheld' hlists hleaf hread hidle
  · -- the stacks do not suffice, and `initialize_scheduler` panics
    have hfails := @not_initializeScheduler env 0 _ nrCpus totalPages words
      { s with kernel := { s.kernel with machine := m } } F ha hcached (by omega) (by omega)
    refine ⟨⟨?_, fun h => absurd h hfew⟩, ?_⟩
    · rintro ⟨r, hrun⟩
      obtain ⟨s', hsched, -⟩ := Loop.exists_of_bind hrun
      exact absurd ⟨s', hsched⟩ hfails
    · intro r hrun
      obtain ⟨s', hsched, -⟩ := Loop.exists_of_bind hrun
      exact absurd ⟨s', hsched⟩ hfails

end Boot

/-! ### One boot -/

/-- A directory in the kernel's image. -/
def bootEnv : TaskEnv := { smallEnv with kernelPtDirectory := ⟨pframeToVirt 0x110⟩ }

/-- The directory of the example is one to boot with. -/
theorem bootDirectory_idleBoot :
    BootDirectory bootEnv (KERNEL_BASE + 0x200000) idleBoot.kernel.machine.mem where
  window := rfl
  root := tableAddr_pframeToVirt (by decide)
  low := by decide
  high := by decide
  empty := fun _ => rfl

/-- The boot of a machine of 32 MB with one processor. -/
theorem mainRoutine_boots_small :
    ∃ r, mainRoutine bootEnv smallMap (KERNEL_BASE + 0x200000) 1 (fun _ => 0) (normalZone [] 0)
        idleBoot = .ok r ∧
      Booted bootEnv smallMap (KERNEL_BASE + 0x200000) 0x2000000 1 r := by
  obtain ⟨mm', hbuild⟩ := buildPageArray_small
  have hdemand : 2 * bootDemand 0x2000000 1 ≤ (mm'.lists.caches 0).numFreePages.toNat :=
    Nat.le_trans length_framesOf_small (numFreePages_single hbuild)
  obtain ⟨hends, hbooted⟩ := @mainRoutine_boots bootEnv smallMap (KERNEL_BASE + 0x200000) 0x2000000
    1 (fun _ => 0) _ _ idleBoot (E820Table.sortedDisjoint_of_ends (by decide)) (by decide)
    (by decide) (by decide) (by decide) (by decide) (by decide) bootDirectory_idleBoot hbuild
    hdemand
  obtain ⟨r, hr⟩ := hends.mpr (by decide)
  exact ⟨r, hr, hbooted r hr⟩

end MString
