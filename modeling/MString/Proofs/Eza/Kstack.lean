import MString.Eza.Kstack
import MString.Proofs.Eza.Bits

/-!
# `MString.Proofs.Eza.Kstack`: kernel stacks

The allocator hands out the numbers 0, 1, 2, and so on: `Handed k` is its state after
`k` of them, and `allocateKernelStack_lt` and `allocateKernelStack_full` are what one
call does there.

* `kernelStacks_apart`: the stacks lie in slots of their own, and every stack pointer
  into a stack leads to the page of its task.
* `kstackRun_books_iff`: the counters agree with the live stacks as long as none is
  released, since `free_kernel_stack` gives nothing back.
-/

set_option autoImplicit false

namespace MString

/-- The context after the first `k` stacks have been handed out. -/
structure Handed (k : Nat) (ctx : KernelStackContext) : Prop where
  total : ctx.totalItems.toNat = BITMAP_ENTRIES_COUNT
  free : ctx.freeItems.toNat + k = BITMAP_ENTRIES_COUNT
  bits : ∀ i, i < 64 * BITMAP_ENTRIES_COUNT → bitAt ctx.bitmap i = decide (k ≤ i)

/-- At the start, no identifier is handed out. -/
theorem handed_start (page : Nat → BitVec 64) :
    Handed 0 (initializeStackAllocatorContext page) where
  total := show (BitVec.ofNat 32 BITMAP_ENTRIES_COUNT).toNat = _ by decide
  free := show (BitVec.ofNat 32 BITMAP_ENTRIES_COUNT).toNat + 0 = _ by decide
  bits := fun i hi => by
    have hword : i / 64 < BITMAP_ENTRIES_COUNT := by omega
    have hmod : i % 64 < 64 := Nat.mod_lt _ (by omega)
    have hones : (BITMAP_INIT_PATTERN).getLsbD (i % 64) = true := by
      rw [BITMAP_INIT_PATTERN, BitVec.getLsbD_not]
      simp [hmod]
    simpa [initializeStackAllocatorContext, initializeBitmap, bitAt, hword] using hones

section Allocate

variable {k : Nat} {ctx : KernelStackContext}

/-- While stacks are left, the next number is handed out. -/
theorem allocateKernelStack_lt (h : Handed k ctx) (hk : k < BITMAP_ENTRIES_COUNT)
    (stack : KernelStack) :
    ∃ ctx', allocateKernelStack ctx stack = (0, stackOf (BitVec.ofNat 32 k), ctx') ∧
      Handed (k + 1) ctx' := by
  have hcount : BITMAP_ENTRIES_COUNT = 507 := by decide
  have hfree := h.free
  have hpos : ctx.freeItems > 0 := by
    rw [gt_iff_lt, BitVec.lt_def, show (0 : BitVec 32).toNat = 0 from rfl]
    omega
  have hwords : (BitVec.ofNat 64 BITMAP_ENTRIES_COUNT).toNat = BITMAP_ENTRIES_COUNT := by decide
  -- the bits below `k` are taken, so `k` is the least one set
  have hfind : findFirstBitMem64 ctx.bitmap (BitVec.ofNat 64 BITMAP_ENTRIES_COUNT)
      = BitVec.ofNat 32 k := by
    refine findFirstBitMem64_eq (by decide) ?_ (by omega) fun j hj => ?_
    · rw [h.bits k (by omega)]
      simp
    · rw [h.bits j (by omega)]
      simpa using hj
  have hk32 : (BitVec.ofNat 32 k).toNat = k := by
    rw [BitVec.toNat_ofNat]
    omega
  have hvalid : BitVec.ofNat 32 k ≠ INVALID_BIT_INDEX := fun heq => by
    have hnat := congrArg BitVec.toNat heq
    rw [hk32, show INVALID_BIT_INDEX.toNat = 4294967295 by decide] at hnat
    omega
  refine ⟨{ ctx with
      freeItems := ctx.freeItems - 1
      bitmap := resetBitMem64 ctx.bitmap (BitVec.ofNat 32 k) }, ?_, h.total, ?_, fun i hi => ?_⟩
  · simp only [allocateKernelStack, if_pos hpos, hfind, ne_eq, hvalid, not_false_eq_true, if_true]
  · show (ctx.freeItems - 1).toNat + (k + 1) = _
    rw [BitVec.toNat_sub, show (1 : BitVec 32).toNat = 1 from rfl]
    omega
  · show bitAt (resetBitMem64 ctx.bitmap (BitVec.ofNat 32 k)) i = _
    rw [bitAt_resetBitMem64, h.bits i hi, hk32]
    by_cases hki : k ≤ i
    · by_cases heq : i = k
      · simp [heq]
      · have hlt : k + 1 ≤ i := by omega
        simp [hki, heq, hlt]
    · have hlt : ¬ k + 1 ≤ i := by omega
      simp [hki, hlt]

/-- With all stacks handed out, the call fails and changes nothing. -/
theorem allocateKernelStack_full (h : Handed BITMAP_ENTRIES_COUNT ctx) (stack : KernelStack) :
    allocateKernelStack ctx stack = (-ENOENT,
      { stack with highAddress := KERNEL_INVALID_ADDRESS, id := INVALID_STACK_ID }, ctx) := by
  have hfree := h.free
  have hzero : ¬ ctx.freeItems > 0 := by
    rw [gt_iff_lt, BitVec.lt_def, show (0 : BitVec 32).toNat = 0 from rfl]
    omega
  simp only [allocateKernelStack, if_neg hzero]

end Allocate

/-! ### Slots -/

/-- The stacks that a sequence of calls hands out. -/
def allocateStacks : List KernelStack → KernelStackContext → List KernelStack
  | [], _ => []
  | stack :: rest, ctx =>
      let (r, st, ctx) := allocateKernelStack ctx stack
      if r = 0 then st :: allocateStacks rest ctx else allocateStacks rest ctx

/-- They are numbered in order. -/
theorem getElem?_allocateStacks :
    ∀ (calls : List KernelStack) (k : Nat) (ctx : KernelStackContext), Handed k ctx →
      k ≤ BITMAP_ENTRIES_COUNT → ∀ i st, (allocateStacks calls ctx)[i]? = some st →
      st = stackOf (BitVec.ofNat 32 (k + i)) ∧ k + i < BITMAP_ENTRIES_COUNT := by
  intro calls
  induction calls with
  | nil => intro k ctx _ _ i st hst; simp [allocateStacks] at hst
  | cons stack calls ih =>
      intro k ctx h hk i st hst
      rw [allocateStacks] at hst
      by_cases hlt : k < BITMAP_ENTRIES_COUNT
      · obtain ⟨ctx', hrun, h'⟩ := allocateKernelStack_lt h hlt stack
        simp only [hrun, if_true] at hst
        cases i with
        | zero =>
            rw [List.getElem?_cons_zero, Option.some.injEq] at hst
            exact ⟨hst.symm, hlt⟩
        | succ i =>
            have hrec := ih (k + 1) ctx' h' hlt i st hst
            rwa [Nat.add_right_comm] at hrec
      · obtain rfl : k = BITMAP_ENTRIES_COUNT := by omega
        simp only [allocateKernelStack_full h] at hst
        rw [if_neg (by decide)] at hst
        exact ih _ ctx h hk i st hst

/-- The stack mask rounds an address down to 32 KB. -/
theorem toNat_and_stackMask (x : Uintptr) :
    (x &&& KERNEL_STACK_MASK).toNat = x.toNat / 2 ^ 15 * 2 ^ 15 := by
  rw [show KERNEL_STACK_MASK = ~~~(BitVec.ofNat 64 (2 ^ 15 - 1)) by decide, toNat_and_blockMask]

/-- The `k`-th slot below `KERNEL_BASE`. -/
def slotBase (k : Nat) : Nat := 0xffffffff80000000 - 2 ^ 15 * (k + 1)

/-- A stack is as large as its size says. -/
theorem lowAddress_stackOf (idx : BitIdx) :
    (stackOf idx).lowAddress = (stackOf idx).highAddress - KERNEL_STACK_SIZE := by
  simp only [stackOf]

/-- Its top is one gap below the top of its slot. -/
theorem highAddress_stackOf (idx : BitIdx) : (stackOf idx).highAddress
    = STARTING_KERNEL_STACK_ADDRESS - (idx * KERNEL_STACK_STEP.setWidth 32).setWidth 64
      - KERNEL_STACK_GAP := by
  simp only [stackOf]

/-- Where the `k`-th stack lies. -/
theorem toNat_stackOf {k : Nat} (hk : k < BITMAP_ENTRIES_COUNT) :
    (stackOf (BitVec.ofNat 32 k)).lowAddress.toNat = slotBase k + 3 * 4096 ∧
      (stackOf (BitVec.ofNat 32 k)).highAddress.toNat = slotBase k + 7 * 4096 := by
  have hcount : BITMAP_ENTRIES_COUNT = 507 := by decide
  have hprod : ((BitVec.ofNat 32 k * KERNEL_STACK_STEP.setWidth 32).setWidth 64 : Uintptr).toNat
      = 2 ^ 15 * k := by
    rw [BitVec.toNat_setWidth, BitVec.toNat_mul, BitVec.toNat_ofNat,
      show (KERNEL_STACK_STEP.setWidth 32).toNat = 2 ^ 15 by decide]
    omega
  have hbase : STARTING_KERNEL_STACK_ADDRESS.toNat = 0xffffffff80000000 := by decide
  have hgap : KERNEL_STACK_GAP.toNat = 4096 := by decide
  have hsize : KERNEL_STACK_SIZE.toNat = 4 * 4096 := by decide
  have hhigh : (stackOf (BitVec.ofNat 32 k)).highAddress.toNat = slotBase k + 7 * 4096 := by
    rw [highAddress_stackOf, BitVec.toNat_sub, BitVec.toNat_sub, hprod, hbase, hgap]
    unfold slotBase
    omega
  refine ⟨?_, hhigh⟩
  rw [lowAddress_stackOf, BitVec.toNat_sub, hhigh, hsize]
  unfold slotBase
  omega

/-- Slots do not overlap. -/
theorem slotBase_lt {i j : Nat} (hij : i < j) (hj : j < BITMAP_ENTRIES_COUNT) :
    slotBase j + 2 ^ 15 ≤ slotBase i := by
  have hcount : BITMAP_ENTRIES_COUNT = 507 := by decide
  unfold slotBase
  omega

/-- They start at multiples of 32 KB. -/
theorem slotBase_mod {k : Nat} (hk : k < BITMAP_ENTRIES_COUNT) : slotBase k % 2 ^ 15 = 0 := by
  have hcount : BITMAP_ENTRIES_COUNT = 507 := by decide
  unfold slotBase
  omega

/-- The task of the `k`-th stack has the page at the bottom of the stack's slot. -/
theorem toNat_taskStructPage {k : Nat} (hk : k < BITMAP_ENTRIES_COUNT) :
    (taskStructPage (stackOf (BitVec.ofNat 32 k))).toNat = slotBase k := by
  have hmod := slotBase_mod hk
  rw [taskStructPage, toNat_and_stackMask, (toNat_stackOf hk).1]
  omega

/-- A stack lies in the slot that starts at the page of its task: that page, the stack,
and the gap above it. -/
structure InSlot (stack : KernelStack) : Prop where
  aligned : (taskStructPage stack).toNat % KERNEL_STACK_STEP.toNat = 0
  page : (taskStructPage stack).toNat + PAGE_SIZE.toNat ≤ stack.lowAddress.toNat
  size : stack.lowAddress.toNat + KERNEL_STACK_SIZE.toNat = stack.highAddress.toNat
  gap : stack.highAddress.toNat + KERNEL_STACK_GAP.toNat
    ≤ (taskStructPage stack).toNat + KERNEL_STACK_STEP.toNat

/-- A stack lies in its slot. -/
theorem inSlot_stackOf {k : Nat} (hk : k < BITMAP_ENTRIES_COUNT) :
    InSlot (stackOf (BitVec.ofNat 32 k)) := by
  have hstep : KERNEL_STACK_STEP.toNat = 2 ^ 15 := by decide
  have hpage : PAGE_SIZE.toNat = 4096 := by decide
  have hsize : KERNEL_STACK_SIZE.toNat = 4 * 4096 := by decide
  have hgap : KERNEL_STACK_GAP.toNat = 4096 := by decide
  have hbase := toNat_taskStructPage hk
  obtain ⟨hlow, hhigh⟩ := toNat_stackOf hk
  constructor
  · rw [hbase, hstep, slotBase_mod hk]
  · omega
  · omega
  · omega

/-- The address ranges of two stacks have no byte in common. -/
def Apart (a b : KernelStack) : Prop :=
  a.highAddress.toNat ≤ b.lowAddress.toNat ∨ b.highAddress.toNat ≤ a.lowAddress.toNat

/-- Every stack pointer into a stack, its inclusive top too, leads to its task's page. -/
theorem and_stackMask_stackOf {k : Nat} (hk : k < BITMAP_ENTRIES_COUNT) {rsp : Uintptr}
    (hlow : (stackOf (BitVec.ofNat 32 k)).lowAddress ≤ rsp)
    (hhigh : rsp ≤ (stackOf (BitVec.ofNat 32 k)).highAddress) :
    rsp &&& KERNEL_STACK_MASK = taskStructPage (stackOf (BitVec.ofNat 32 k)) := by
  rw [BitVec.le_def] at hlow hhigh
  obtain ⟨hl, hh⟩ := toNat_stackOf hk
  have hmod := slotBase_mod hk
  apply BitVec.eq_of_toNat_eq
  rw [toNat_and_stackMask, toNat_taskStructPage hk]
  omega

/-- The `i`-th stack that a sequence of calls hands out lies in a slot of its own, every
stack pointer into it leads to the page of its task, and no stack overlaps that page. -/
theorem kernelStacks_apart (page : Nat → BitVec 64) (calls : List KernelStack) (i : Nat)
    (a : KernelStack)
    (ha : (allocateStacks calls (initializeStackAllocatorContext page))[i]? = some a) :
    InSlot a ∧
      (∀ rsp, a.lowAddress ≤ rsp → rsp ≤ a.highAddress →
        archSystemSchedData rsp = taskStructPage a ∧
          archCurrentTask rsp = taskStructPage a + TASK_OFFSET) ∧
      ∀ j b, (allocateStacks calls (initializeStackAllocatorContext page))[j]? = some b →
        ((taskStructPage a).toNat + PAGE_SIZE.toNat ≤ b.lowAddress.toNat ∨
            b.highAddress.toNat ≤ (taskStructPage a).toNat) ∧
          (i ≠ j → Apart a b ∧ taskStructPage a ≠ taskStructPage b) := by
  have hnumber := getElem?_allocateStacks calls 0 _ (handed_start page) (Nat.zero_le _)
  obtain ⟨rfl, hi⟩ := hnumber i a ha
  rw [Nat.zero_add] at hi ⊢
  refine ⟨inSlot_stackOf hi, fun rsp hlow hhigh => ?_, fun j b hb => ?_⟩
  · have hmask := and_stackMask_stackOf hi hlow hhigh
    exact ⟨by rw [archSystemSchedData, hmask], by rw [archCurrentTask, hmask]⟩
  · obtain ⟨rfl, hj⟩ := hnumber j b hb
    rw [Nat.zero_add] at hj ⊢
    obtain ⟨hli, hhi⟩ := toNat_stackOf hi
    obtain ⟨hlj, hhj⟩ := toNat_stackOf hj
    have hpi := toNat_taskStructPage hi
    have hpj := toNat_taskStructPage hj
    have hpage : PAGE_SIZE.toNat = 4096 := by decide
    -- slots are in the order of their numbers
    rcases lt_trichotomy i j with hij | rfl | hij
    · have hslots := slotBase_lt hij hj
      refine ⟨by omega, fun _ => ⟨?_, fun heq => ?_⟩⟩
      · unfold Apart
        omega
      · have hnat := congrArg BitVec.toNat heq
        omega
    · exact ⟨by omega, fun hne => absurd rfl hne⟩
    · have hslots := slotBase_lt hij hi
      refine ⟨by omega, fun _ => ⟨?_, fun heq => ?_⟩⟩
      · unfold Apart
        omega
      · have hnat := congrArg BitVec.toNat heq
        omega

/-- A stack that has not been handed out. -/
def noStack : KernelStack := ⟨0, 0, 0⟩

/-- The second of three stacks. -/
theorem kernelStacks_apart_three :
    InSlot (stackOf 1) ∧
      (∀ rsp, (stackOf 1).lowAddress ≤ rsp → rsp ≤ (stackOf 1).highAddress →
        archSystemSchedData rsp = taskStructPage (stackOf 1) ∧
          archCurrentTask rsp = taskStructPage (stackOf 1) + TASK_OFFSET) ∧
      ∀ j b, (allocateStacks [noStack, noStack, noStack]
          (initializeStackAllocatorContext fun _ => 0))[j]? = some b →
        ((taskStructPage (stackOf 1)).toNat + PAGE_SIZE.toNat ≤ b.lowAddress.toNat ∨
            b.highAddress.toNat ≤ (taskStructPage (stackOf 1)).toNat) ∧
          (1 ≠ j → Apart (stackOf 1) b ∧ taskStructPage (stackOf 1) ≠ taskStructPage b) :=
  kernelStacks_apart (fun _ => 0) [noStack, noStack, noStack] 1 (stackOf 1) (by decide +kernel)

/-! ### Runs with releases -/

/-- A call of the allocator. -/
inductive KstackOp where
  | alloc (stack : KernelStack)
  | free (id : BitIdx)
deriving DecidableEq

/-- The context, and the numbers of the stacks that are handed out and not released. -/
structure KstackState where
  ctx : KernelStackContext
  live : List BitIdx

/-- The allocator after its initialisation, with no stack in use. -/
def kstackStart (page : Nat → BitVec 64) : KstackState :=
  ⟨initializeStackAllocatorContext page, []⟩

/-- One call, and which stacks are in use after it. -/
def kstackStep (s : KstackState) : KstackOp → KstackState
  | .alloc stack =>
      let (r, st, ctx) := allocateKernelStack s.ctx stack
      ⟨ctx, if r = 0 then st.id :: s.live else s.live⟩
  | .free id => ⟨(freeKernelStack id s.ctx).2, s.live.erase id⟩

/-- The calls of a list in turn. -/
def kstackRun (ops : List KstackOp) (s : KstackState) : KstackState := ops.foldl kstackStep s

/-- A run in two parts. -/
theorem kstackRun_append (before after : List KstackOp) (s : KstackState) :
    kstackRun (before ++ after) s = kstackRun after (kstackRun before s) :=
  List.foldl_append

/-- The calls release live stacks only. -/
def FreesLive : List KstackOp → KstackState → Prop
  | [], _ => True
  | .alloc stack :: ops, s => FreesLive ops (kstackStep s (.alloc stack))
  | .free id :: ops, s => id ∈ s.live ∧ FreesLive ops (kstackStep s (.free id))

/-- How many bits of a chunk's bitmap are set. -/
def setBits (bitmap : Nat → BitVec 64) : Nat :=
  (List.range (64 * BITMAP_ENTRIES_COUNT)).countP (bitAt bitmap)

/-- The counters and the bitmap agree with the live stacks. -/
structure Books (s : KstackState) : Prop where
  conserved : s.ctx.freeItems.toNat + s.live.length = s.ctx.totalItems.toNat
  bits : s.ctx.freeItems.toNat ≤ setBits s.ctx.bitmap
  fresh : ∀ stack st ctx, allocateKernelStack s.ctx stack = (0, st, ctx) → st.id ∉ s.live
  fails : ∀ stack, (allocateKernelStack s.ctx stack).1 ≠ 0 ↔
    s.live.length = s.ctx.totalItems.toNat

/-- What holds while nothing is released: the live stacks are the first `k`. -/
structure Unreleased (k : Nat) (s : KstackState) : Prop where
  handed : Handed k s.ctx
  count : s.live.length = k
  small : ∀ id ∈ s.live, id.toNat < k

/-- At the start nothing has been allocated. -/
theorem unreleased_start (page : Nat → BitVec 64) : Unreleased 0 (kstackStart page) where
  handed := handed_start page
  count := rfl
  small := fun _ hid => absurd hid List.not_mem_nil

/-- The number of a stack fits an identifier. -/
theorem toNat_stackNumber {k : Nat} (hk : k < BITMAP_ENTRIES_COUNT) :
    (BitVec.ofNat 32 k).toNat = k := by
  have hcount : BITMAP_ENTRIES_COUNT = 507 := by decide
  rw [BitVec.toNat_ofNat]
  omega

/-- An allocation keeps it. -/
theorem unreleased_alloc {k : Nat} {s : KstackState} (h : Unreleased k s) (stack : KernelStack) :
    ∃ k', Unreleased k' (kstackStep s (.alloc stack)) := by
  have hfree := h.handed.free
  by_cases hk : k < BITMAP_ENTRIES_COUNT
  · obtain ⟨ctx', hrun, h'⟩ := allocateKernelStack_lt h.handed hk stack
    refine ⟨k + 1, ?_⟩
    simp only [kstackStep, hrun, if_true]
    refine ⟨h', by simp [h.count], fun id hid => ?_⟩
    rcases List.mem_cons.mp hid with rfl | hid
    · show (BitVec.ofNat 32 k).toNat < k + 1
      rw [toNat_stackNumber hk]
      omega
    · exact Nat.lt_succ_of_lt (h.small id hid)
  · obtain rfl : k = BITMAP_ENTRIES_COUNT := by omega
    refine ⟨BITMAP_ENTRIES_COUNT, ?_⟩
    simp only [kstackStep, allocateKernelStack_full h.handed]
    rw [if_neg (by decide)]
    exact h

/-- In a run without releases, the identifiers in use are the first ones. -/
theorem unreleased_run (ops : List KstackOp) (hops : ∀ id, .free id ∉ ops) :
    ∀ k s, Unreleased k s → ∃ k', Unreleased k' (kstackRun ops s) := by
  induction ops with
  | nil => exact fun k s h => ⟨k, h⟩
  | cons op ops ih =>
      intro k s h
      cases op with
      | alloc stack =>
          obtain ⟨k', h'⟩ := unreleased_alloc h stack
          exact ih (fun id hid => hops id (List.mem_cons_of_mem _ hid)) k' _ h'
      | free id => exact absurd List.mem_cons_self (hops id)

/-- How many of the first `n` numbers are `k` or more. -/
theorem countP_ge (k n : Nat) : (List.range n).countP (fun i => decide (k ≤ i)) = n - k := by
  induction n with
  | zero => simp
  | succ n ih =>
      rw [List.range_succ, List.countP_append, ih, List.countP_singleton]
      by_cases hkn : k ≤ n
      · simp [hkn]
        omega
      · simp [hkn]
        omega

/-- It keeps the books. -/
theorem books_of_unreleased {k : Nat} {s : KstackState} (h : Unreleased k s) : Books s := by
  have hcount : BITMAP_ENTRIES_COUNT = 507 := by decide
  have hfree := h.handed.free
  have htotal := h.handed.total
  have hlen := h.count
  refine ⟨by omega, ?_, fun stack st ctx hrun hmem => ?_, fun stack => ?_⟩
  · -- The bits from `k` on are set.
    have hbits : setBits s.ctx.bitmap = 64 * BITMAP_ENTRIES_COUNT - k := by
      rw [setBits, ← countP_ge]
      refine List.countP_congr fun i hi => ?_
      rw [h.handed.bits i (List.mem_range.mp hi)]
    omega
  · -- The next stack is number `k`, and those that live have smaller numbers.
    by_cases hk : k < BITMAP_ENTRIES_COUNT
    · obtain ⟨ctx', hrun', -⟩ := allocateKernelStack_lt h.handed hk stack
      obtain rfl : stackOf (BitVec.ofNat 32 k) = st := by
        rw [hrun'] at hrun
        exact (Prod.mk.inj (Prod.mk.inj hrun).2).1
      have hsmall : (BitVec.ofNat 32 k).toNat < k := h.small _ hmem
      rw [toNat_stackNumber hk] at hsmall
      omega
    · obtain rfl : k = BITMAP_ENTRIES_COUNT := by omega
      rw [allocateKernelStack_full h.handed] at hrun
      exact absurd (Prod.mk.inj hrun).1 (by decide)
  · -- An allocation fails exactly when all the stacks have been handed out.
    by_cases hk : k < BITMAP_ENTRIES_COUNT
    · obtain ⟨ctx', hrun', -⟩ := allocateKernelStack_lt h.handed hk stack
      rw [hrun']
      simp only [ne_eq, not_true, false_iff]
      omega
    · obtain rfl : k = BITMAP_ENTRIES_COUNT := by omega
      rw [allocateKernelStack_full h.handed]
      exact ⟨fun _ => hlen.trans htotal.symm, fun _ => show -ENOENT ≠ 0 by decide⟩

/-- Where a run frees live stacks only, the one that it frees is live. -/
theorem live_of_freesLive (id : BitIdx) (after : List KstackOp) :
    ∀ (before : List KstackOp) (s : KstackState),
      FreesLive (before ++ .free id :: after) s → id ∈ (kstackRun before s).live := by
  intro before
  induction before with
  | nil => exact fun s h => h.1
  | cons op before ih =>
      intro s h
      cases op with
      | alloc stack => exact ih _ h
      | free id' => exact ih _ h.2

/-- In a run that releases live stacks only, the books are right in every state reached
exactly if nothing is released. -/
theorem kstackRun_books_iff (page : Nat → BitVec 64) (ops : List KstackOp)
    (hlive : FreesLive ops (kstackStart page)) :
    (∀ before, before <+: ops → Books (kstackRun before (kstackStart page))) ↔
      ∀ id, KstackOp.free id ∉ ops := by
  constructor
  · intro hbooks id hid
    obtain ⟨before, after, rfl⟩ := List.append_of_mem hid
    have hmem := live_of_freesLive id after before _ hlive
    have hbefore := hbooks before (List.prefix_append _ _)
    have hafter := hbooks (before ++ [.free id]) ⟨after, by simp⟩
    rw [kstackRun_append] at hafter
    -- the context is the one before the release, with one stack less alive
    have hpos := List.length_pos_of_mem hmem
    have hlen : ((kstackRun before (kstackStart page)).live.erase id).length
        = (kstackRun before (kstackStart page)).live.length - 1 := List.length_erase_of_mem hmem
    have hsame : (kstackRun before (kstackStart page)).ctx.freeItems.toNat
        + ((kstackRun before (kstackStart page)).live.erase id).length
        = (kstackRun before (kstackStart page)).ctx.totalItems.toNat := hafter.conserved
    have hconserved := hbefore.conserved
    omega
  · intro hfree before hpre
    obtain ⟨k, h⟩ := unreleased_run before (fun id hid => hfree id (hpre.subset hid)) 0 _
      (unreleased_start page)
    exact books_of_unreleased h

/-- Two allocations and no release. -/
theorem kstackRun_books_two :
    (∀ before, before <+: [KstackOp.alloc noStack, .alloc noStack] →
        Books (kstackRun before (kstackStart fun _ => 0))) ↔
      ∀ id, KstackOp.free id ∉ [KstackOp.alloc noStack, .alloc noStack] :=
  kstackRun_books_iff (fun _ => 0) [.alloc noStack, .alloc noStack] trivial

/-- A stack is handed out and released: no stack is live, and one is still missing. -/
theorem kstackRun_release_leaks :
    FreesLive [.alloc noStack, .free 0] (kstackStart fun _ => 0) ∧
      ¬ Books (kstackRun [.alloc noStack, .free 0] (kstackStart fun _ => 0)) := by
  have hlive : (kstackRun [.alloc noStack] (kstackStart fun _ => 0)).live = [0] := by
    decide +kernel
  have hafter : (kstackRun [.alloc noStack, .free 0] (kstackStart fun _ => 0)).live = [] := by
    decide +kernel
  have hcounts : (kstackRun [.alloc noStack, .free 0] (kstackStart fun _ => 0)).ctx.freeItems
      ≠ (kstackRun [.alloc noStack, .free 0] (kstackStart fun _ => 0)).ctx.totalItems := by
    decide +kernel
  refine ⟨⟨?_, trivial⟩, fun hbooks => hcounts (BitVec.eq_of_toNat_eq ?_)⟩
  · show (0 : BitIdx) ∈ (kstackRun [.alloc noStack] (kstackStart fun _ => 0)).live
    rw [hlive]
    exact List.mem_singleton_self 0
  · have hconserved := hbooks.conserved
    rwa [hafter, List.length_nil, Nat.add_zero] at hconserved

end MString
