import MString.Lib.Lockstep
import MString.Proofs.Mm.BuddyInit

/-!
# `MString.Proofs.Mm.BuddyInvalid`: releases of what is not live

A release learns the layer from the index alone. It goes down from the highest block that
starts at the index, through separated blocks, to one that is free, where it stops, or to
one that is neither, which it takes for a live block. A part of a free block and a part of
a live one look the same: not free and not separated.

* `releaseTurn_withPn`: a buddy whose `pn` is no power of two works like the one of the
  next power of two below.
* `release_free`: the release of a free block by its first index does nothing.
* `release_inside`: the release of an index inside a block marks a part of it free.
* `CallRun`: allocations and releases, of any index, that are clean.
* `invalidRelease_leavesBitmaps`: which releases of what is not live do nothing.
-/

set_option autoImplicit false

namespace MString

open HeapTree Bbuddy Lockstep

/-! ### Smallest blocks of another number -/

/-- The same bitmaps, with another `pn`. -/
def Bbuddy.withPn (b : Bbuddy) (pn : Nat) : Bbuddy := { b with pn := pn }

/-- A result with another `pn`. -/
def underPn {α : Type} (pn : Nat) (r : Bbuddy × α) : Bbuddy × α := (r.1.withPn pn, r.2)

section WithPn

variable {b : Bbuddy} {pn M L align num : Nat}

/-- `pn` does not enter an allocation. -/
theorem allocTurn_withPn (a : Bbuddy × Nat × Nat) :
    allocTurn (underPn pn a) = (allocTurn a).map (Sum.map (underPn pn) (underPn pn)) := by
  obtain ⟨b, align, m⟩ := a
  -- Of `pn` the scans know nothing. So the cases below are those of the turn, and each is the
  -- same for both.
  have hwords : scanWords (b.withPn pn) (align / 32) = scanWords b (align / 32) := rfl
  have hsmall : scanSmall (b.withPn pn) align = scanSmall b align := rfl
  have hbits : ∀ q, scanBits ((b.withPn pn).nbmp q) = scanBits (b.nbmp q) := fun q => rfl
  show allocTurn (b.withPn pn, align, m) = _
  simp only [allocTurn, hwords, hsmall, hbits]
  split
  · split
    · rfl
    · split
      · rfl
      · by_cases hm : m = 0
        · rw [if_pos hm, if_pos hm]
          rfl
        · rw [if_neg hm, if_neg hm]
          rfl
  · split
    · by_cases hm : m = 0
      · rw [if_pos hm, if_pos hm]
        rfl
      · rw [if_neg hm, if_neg hm]
        rfl
    · by_cases htop : align * 2 < 2
      · rw [if_pos htop, if_pos htop]
        rfl
      · rw [if_neg htop, if_neg htop]
        rfl

/-- Allocating does not look at `pn`, ... -/
theorem bbuddyBlockAlloc_withPn :
    bbuddyBlockAlloc (b.withPn pn) align = (bbuddyBlockAlloc b align).map (underPn pn) := by
  unfold bbuddyBlockAlloc
  exact run_map (fun _ => True) (underPn pn) (underPn pn)
    (fun a _ => ⟨allocTurn_withPn a, fun _ _ => trivial⟩) TURNS (b, align, 0) trivial

/-- ... nor does a turn of joining ... -/
theorem splitUpTurn_withPn (a : Bbuddy × Nat × Nat) :
    splitUpTurn (underPn pn a)
      = (splitUpTurn a).map (Sum.map (underPn pn) fun b => b.withPn pn) := by
  obtain ⟨b, align, num⟩ := a
  have hfree : ∀ q, (b.withPn pn).nbmp q = b.nbmp q := fun q => rfl
  show splitUpTurn (b.withPn pn, align, num) = _
  simp only [splitUpTurn, hfree]
  generalize (if num % 2 = 1 then nIndx align num - 1 else nIndx align num + 1) = n
  by_cases hbit : (b.nbmp (bbuddyIndexp align num)).getLsbD n = true
  · rw [if_pos hbit, if_pos hbit]
    by_cases hdeep : align / 2 > 1
    · rw [if_pos hdeep, if_pos hdeep]
      rfl
    · rw [if_neg hdeep, if_neg hdeep]
      rfl
  · rw [if_neg hbit, if_neg hbit]
    rfl

/-- ... or all of them. -/
theorem bbuddySplitUp_withPn :
    bbuddySplitUp (b.withPn pn) align num
      = (bbuddySplitUp b align num).map fun b => b.withPn pn := by
  unfold bbuddySplitUp
  exact run_map (fun _ => True) (underPn pn) (fun b : Bbuddy => b.withPn pn)
    (fun a _ => ⟨splitUpTurn_withPn a, fun _ _ => trivial⟩) TURNS (b, align, num) trivial

/-- `pn` enters a release of an index inside the buddy only as the number of layers. -/
theorem releaseTurn_withPn (hpn : pn ≠ 0) (hM : M = 2 ^ pn.log2) (hbpn : b.pn = M) {i : Nat}
    (hnum : num < M) (hat : i ≠ 0 → num < 2 ^ i ∧ i ≤ pn.log2) :
    releaseTurn (underPn pn (b, num, i))
        = (releaseTurn (b, num, i)).map (Sum.map (underPn pn) (underPn pn)) ∧
      ∀ a, releaseTurn (b, num, i) = .ok (.inl a) →
        a.1 = b ∧ a.2.1 < 2 ^ a.2.2 ∧ a.2.2 ≠ 0 ∧ a.2.2 ≤ pn.log2 := by
  have hlow : M ≤ pn := by
    rw [hM]
    exact Nat.log2_self_le hpn
  have hlayers : layersOf (b.withPn pn).pn = pn.log2 + 1 := if_neg hpn
  have hlayers0 : layersOf b.pn = pn.log2 + 1 := by
    rw [hbpn, hM, layersOf, if_neg (by have := Nat.two_pow_pos pn.log2; omega), Nat.log2_two_pow]
  have hin : ¬ num > (b.withPn pn).pn := by
    show ¬ num > pn
    omega
  have hin0 : ¬ num > b.pn := by omega
  -- The first turn begins in the smallest layer, and a later one where the last one stopped.
  obtain ⟨q, k, hstart, hq, hk⟩ : ∃ q k,
      (if i = 0 then startLayer (pn.log2 + 1 - 1) num else (num, i)) = (q, k) ∧ q < 2 ^ k ∧
        k ≤ pn.log2 := by
    by_cases hi : i = 0
    · obtain ⟨q, k, d, hq, hL, hqd, -⟩ := startLayer_above pn.log2 num
      refine ⟨q, k, by rw [if_pos hi, Nat.add_sub_cancel, hq], ?_, by omega⟩
      rw [hqd, hM, hL, Nat.pow_add] at hnum
      exact Nat.lt_of_mul_lt_mul_right hnum
    · exact ⟨num, i, if_neg hi, (hat hi).1, (hat hi).2⟩
  show releaseTurn (b.withPn pn, num, i) = _ ∧ _
  simp only [releaseTurn, if_neg hin, if_neg hin0, hlayers, hlayers0, hstart]
  have hfree : ∀ q, (b.withPn pn).nbmp q = b.nbmp q := fun q => rfl
  have hwhole : ∀ q, (b.withPn pn).pbmp q = b.pbmp q := fun q => rfl
  simp only [hfree, hwhole]
  -- Both read the same two bits, so they take the same branch.
  generalize (b.nbmp (bbuddyIndexp (2 ^ k) q)).getLsbD (nIndx (2 ^ k) q) = f
  generalize (b.pbmp (bbuddyIndexp (2 ^ k) q)).getLsbD (nIndx (2 ^ k) q) = w
  cases f with
  | true => exact ⟨rfl, fun a h => by cases h⟩
  | false =>
      cases w with
      | true =>
          have hup := @bbuddySplitUp_withPn (b.markNbmp (bbuddyIndexp (2 ^ k) q) (nIndx (2 ^ k) q))
            pn (2 ^ k) q
          have hmark : (b.withPn pn).markNbmp (bbuddyIndexp (2 ^ k) q) (nIndx (2 ^ k) q)
            = (b.markNbmp (bbuddyIndexp (2 ^ k) q) (nIndx (2 ^ k) q)).withPn pn := rfl
          rw [hmark, hup]
          cases bbuddySplitUp (b.markNbmp (bbuddyIndexp (2 ^ k) q) (nIndx (2 ^ k) q)) (2 ^ k) q with
          | error e => exact ⟨rfl, fun a h => by cases h⟩
          | ok b' => exact ⟨rfl, fun a h => by cases h⟩
      | false =>
          by_cases hdeep : k + 1 ≥ pn.log2 + 1
          · simp only [if_pos hdeep]
            exact ⟨rfl, fun a h => by cases h⟩
          · simp only [if_neg hdeep]
            refine ⟨rfl, fun a h => ?_⟩
            cases h
            have hpow : 2 ^ (k + 1) = 2 ^ k * 2 := Nat.pow_succ 2 k
            exact ⟨rfl, by dsimp only; omega, by dsimp only; omega, by dsimp only; omega⟩

/-- Releasing does, but of a valid index it asks no more than the size of the smallest layer. -/
theorem bbuddyBlockRelease_withPn (hpn : pn ≠ 0) (hM : M = 2 ^ pn.log2) (hbpn : b.pn = M)
    (hnum : num < M) :
    bbuddyBlockRelease (b.withPn pn) num = (bbuddyBlockRelease b num).map (underPn pn) := by
  unfold bbuddyBlockRelease
  refine run_map
    (fun a : Bbuddy × Nat × Nat => a.1.pn = M ∧ a.2.1 < M ∧
      (a.2.2 ≠ 0 → a.2.1 < 2 ^ a.2.2 ∧ a.2.2 ≤ pn.log2))
    (underPn pn) (underPn pn) (fun a ha => ?_) TURNS (b, num, 0) ⟨hbpn, hnum, fun h => absurd rfl h⟩
  obtain ⟨b, num, i⟩ := a
  obtain ⟨hturn, hkeeps⟩ := releaseTurn_withPn hpn hM ha.1 ha.2.1 ha.2.2
  refine ⟨hturn, fun a' h => ?_⟩
  obtain ⟨hb, hlt, -, hle⟩ := hkeeps a' h
  have hpow : 2 ^ a'.2.2 ≤ M := by
    rw [hM]
    exact Nat.pow_le_pow_right (by omega) hle
  exact ⟨hb ▸ ha.1, by omega, fun _ => ⟨hlt, hle⟩⟩

end WithPn

/-! ### A release that finds a free block, and one inside another block -/

section Invalid

variable {M L k i q num n : Nat} {S : Set Nat} {b : Bbuddy}

/-- Releasing a free block does nothing. -/
theorem releaseTurn_free (hnum : num ≤ b.pn) (hat : releaseAt b num i = (q, k)) (hk : k ≤ 6)
    (hq : q < 2 ^ k) (hfree : b.freeAt (2 ^ k + q) = true) :
    releaseTurn (b, num, i) = .ok (.inr (b, 0)) := by
  obtain ⟨hp, hn⟩ := node_index hk hq
  unfold releaseAt at hat
  rw [freeAt] at hfree
  simp only [releaseTurn, if_neg (Nat.not_lt.mpr hnum), hat, hp, hn, hfree]
  rfl

/-- Calls that come across separated blocks only stop at a free one. -/
theorem release_stops (hM : b.pn = 2 ^ L) (hL : k + n ≤ L) (hL6 : L ≤ 6) (hq : q < 2 ^ k)
    (hsplit : ∀ d, d < n → b.freeAt ((2 ^ k + q) * 2 ^ d) = false ∧
      b.wholeAt ((2 ^ k + q) * 2 ^ d) = false)
    (hfree : b.freeAt ((2 ^ k + q) * 2 ^ n) = true)
    (hnum : num ≤ b.pn) (hat : releaseAt b num i = (q, k)) (fuel : Nat) :
    Loop.run .diverges releaseTurn (fuel + (n + 1)) (b, num, i) = .ok (b, 0) := by
  induction n generalizing k q num i fuel with
  | zero =>
      simp only [Nat.pow_zero, Nat.mul_one] at hfree
      exact Loop.run_exit (releaseTurn_free hnum hat (by omega) hq hfree)
  | succ n ih =>
      obtain ⟨hused, hhere⟩ := hsplit 0 (by omega)
      simp only [Nat.pow_zero, Nat.mul_one] at hused hhere
      have hlayers : layersOf b.pn = L + 1 := by
        rw [hM, layersOf, if_neg (by have := Nat.two_pow_pos L; omega), Nat.log2_two_pow]
      have hturn := releaseTurn_deep hnum hat (by omega) hq hused hhere (by omega)
      have hnode : ∀ d, (2 ^ (k + 1) + q * 2) * 2 ^ d = (2 ^ k + q) * 2 ^ (d + 1) := fun d => by
        rw [Nat.pow_succ, Nat.pow_succ', ← Nat.add_mul, Nat.mul_assoc]
      have hpow : 2 ^ (k + 1) = 2 ^ k * 2 := Nat.pow_succ 2 k
      have hle : 2 ^ (k + 1) ≤ 2 ^ L := Nat.pow_le_pow_right (by omega) (by omega)
      rw [show fuel + (n + 1 + 1) = fuel + (n + 1) + 1 by omega, Loop.run_continue hturn]
      refine ih (k := k + 1) (q := q * 2) (by omega) (by omega) (fun d hd => ?_) ?_
        (show q * 2 ≤ b.pn by omega) (by simp [releaseAt]) fuel
      · rw [hnode]
        exact hsplit (d + 1) (by omega)
      · rw [hnode]
        exact hfree

/-- The release of a free block by its first index. -/
theorem release_free (hb : BuddyBooks M S b) (hM : M = 2 ^ L) (hk : k ≤ L) (hnum : num < 2 ^ k)
    (hfree : Free S (2 ^ k + num)) : bbuddyBlockRelease b (num * (M / 2 ^ k)) = .ok (b, 0) := by
  have hL : L ≤ 6 := hb.small.layers_le hM
  obtain ⟨q, i, n, rfl, rfl, hq, htop, hindex, hat⟩ := release_start hb.small hM hk hnum
  have hnode : 2 ^ (i + n) + q * 2 ^ n = (2 ^ i + q) * 2 ^ n := by
    rw [Nat.pow_add, ← Nat.add_mul]
  have hpos : 0 < 2 ^ i := Nat.two_pow_pos i
  have hlt : (2 ^ i + q) * 2 ^ n < 2 * M := by
    have hpow : 2 ^ (i + n) ≤ M := hM ▸ Nat.pow_le_pow_right (by omega) hk
    omega
  rw [hnode] at hfree
  have hrun := release_stops (n := n) (hb.small.pn.trans hM) hk hL hq (fun d hd => ?_)
    ((hb.free _ (Nat.mul_pos (by omega) (Nat.two_pow_pos n)) hlt).mpr hfree) hindex hat
      (TURNS - (n + 1))
  · rwa [Nat.sub_add_cancel (by unfold TURNS; omega)] at hrun
  · -- The blocks on the way down to it are split.
    have hheads : Heads ((2 ^ i + q) * 2 ^ d) ((2 ^ i + q) * 2 ^ n) :=
      ⟨n - d, by rw [Nat.mul_assoc, ← Nat.pow_add, Nat.add_sub_cancel' (Nat.le_of_lt hd)]⟩
    have hdpos : 1 ≤ (2 ^ i + q) * 2 ^ d := Nat.mul_pos (by omega) (Nat.two_pow_pos d)
    have hle := hheads.anc.le
    have hne : (2 ^ i + q) * 2 ^ d ≠ (2 ^ i + q) * 2 ^ n := fun h => by
      have := Nat.eq_of_mul_eq_mul_left (by omega) h
      exact absurd (Nat.pow_right_injective (Nat.le_refl 2) this) (by omega)
    have hsplit := hfree.split_above hheads.anc hdpos hne
    constructor
    · rw [Bool.eq_false_iff]
      intro h
      exact ((hb.free _ hdpos (by omega)).mp h).1.not_split hsplit
    · rw [Bool.eq_false_iff]
      intro h
      exact (hb.whole _ hdpos (by omega)).mp h hsplit

/-- A block that is free or in use. -/
def Held (S : Set Nat) (x : Nat) : Prop := Free S x ∨ x ∈ S ∧ Clear (S \ {x}) x

/-- What lies strictly inside such a block is neither free nor split. -/
theorem Held.inside {x y : Nat} (hx : Held S x) (hxy : Anc x y) (hne : x ≠ y) (hx1 : 1 ≤ x) :
    ¬ Free S y ∧ ¬ Split S y := by
  have hhalf : Anc x (y / 2) := hxy.half hne
  have hle := hhalf.le
  rcases hx with hfree | ⟨hmem, hclear⟩
  · refine ⟨fun hy => ?_, (hfree.1.mono hxy).not_split⟩
    exact hy.2.elim (by omega) fun h => h (hfree.1.mono hhalf)
  · refine ⟨fun hy => hy.1 x hmem (.inl hxy), ?_⟩
    rintro ⟨l, hl, hyl, -⟩
    have hxl := hxy.trans hyl
    refine hclear l ⟨hl, ?_⟩ (.inr hxl)
    rintro rfl
    exact hne (hxy.antisymm hyl)

/-- A release of an index inside a block that does not start there marks a part of the
block free. -/
theorem release_inside (hb : BuddyBooks M S b) (hM : M = 2 ^ L) (hnum : num < M) {x : Nat}
    (hx1 : 1 ≤ x) (hx : Held S x) (hxnum : Anc x (M + num)) (hhead : ¬ Heads x (M + num)) :
    ∃ b' g, bbuddyBlockRelease b num = .ok (b', 0) ∧ 1 ≤ g ∧ g < 2 * M ∧
      b.freeAt g = false ∧ b'.freeAt g = true := by
  have hL : L ≤ 6 := hb.small.layers_le hM
  have hunit : num * (M / 2 ^ L) = num := by
    rw [hM, Nat.div_self (Nat.two_pow_pos L), Nat.mul_one]
  obtain ⟨q, i, n, hLi, hqn, hq, htop, hindex, hat⟩ :=
    release_start hb.small hM (Nat.le_refl L) (hM ▸ hnum)
  rw [hunit] at hindex hat
  have hstart : M + num = (2 ^ i + q) * 2 ^ n := by
    rw [hM, hLi, hqn, Nat.pow_add, ← Nat.add_mul]
  have hheads : Heads (2 ^ i + q) (M + num) := ⟨n, hstart⟩
  have hpos : 0 < 2 ^ i := Nat.two_pow_pos i
  -- The release starts strictly inside of the block.
  have habove : Anc x (2 ^ i + q) := (anc_total hxnum hheads.anc).resolve_right fun h =>
    hhead (hheads.of_between h hxnum)
  have hne : x ≠ 2 ^ i + q := fun h => hhead (h ▸ hheads)
  obtain ⟨hfree, hsplit⟩ := hx.inside habove hne hx1
  have hlt : 2 ^ i + q < 2 * M := by
    have := hheads.anc.le
    omega
  have hused : b.freeAt (2 ^ i + q) = false := by
    rw [Bool.eq_false_iff]
    exact fun h => hfree ((hb.free _ (by omega) hlt).mp h)
  have hwhole := (hb.whole _ (by omega) hlt).mpr hsplit
  have hi1 : 1 ≤ i := by
    by_contra hi0
    have := habove.le
    obtain rfl : i = 0 := by omega
    omega
  -- Its sibling is inside, too, so there is nothing to join it with.
  have hsib : b.freeAt (sibling (2 ^ i + q)) = false := by
    have hparent : Anc x (sibling (2 ^ i + q) / 2) := by
      rw [sibling_half]
      exact habove.half hne
    have hxs : Anc x (sibling (2 ^ i + q)) := hparent.trans (anc_half _)
    have hle := hparent.le
    have hsne : x ≠ sibling (2 ^ i + q) := by omega
    rw [Bool.eq_false_iff]
    intro h
    have hslt : sibling (2 ^ i + q) < 2 * M := by
      unfold sibling
      split <;> omega
    exact (hx.inside hxs hsne hx1).1 ((hb.free _ (by omega) hslt).mp h)
  have hmarked : (b.markNbmp ((2 ^ i + q) / 32) ((2 ^ i + q) % 32)).freeAt (sibling (2 ^ i + q))
      = false := by
    rw [freeAt_markNbmp, hsib, decide_eq_false sibling_ne.symm]
    rfl
  have hup : bbuddySplitUp _ (2 ^ i) q = .ok _ :=
    Loop.run_exit (splitUpTurn_stay hi1 (by omega) hq hmarked)
  have hturn := releaseTurn_give hindex hat (by omega) hq hused hwhole hup
  refine ⟨_, 2 ^ i + q, Loop.run_exit hturn, by omega, hlt, hused, ?_⟩
  rw [freeAt_markNbmp, decide_eq_true rfl, Bool.or_true]

end Invalid

/-! ### Runs -/

/-- The blocks of the smallest layer. -/
def smallestLayer (maxPart : Nat) : Nat := 2 ^ maxPart.log2

/-- A call of the allocator, with any index. -/
inductive BuddyCall where
  | alloc (align : Nat)
  | release (num : Nat)

/-- The layer is one of the buddy's. Any index may be released. -/
def BuddyCall.Allowed (maxPart : Nat) : BuddyCall → Prop
  | .alloc align => (∃ i, align = 2 ^ i) ∧ align ≤ maxPart
  | .release _ => True

/-- The live block that starts at an index. -/
def liveAt (maxPart : Nat) (live : List BuddyBlock) (num : Nat) : Option BuddyBlock :=
  live.find? fun B => B.first (smallestLayer maxPart) == num

/-- One call, and what is live after it. -/
def buddyCall (maxPart : Nat) (s : Bbuddy × List BuddyBlock) :
    BuddyCall → Except Fault (Bbuddy × List BuddyBlock)
  | .alloc align => buddyStep (smallestLayer maxPart) s (.alloc align)
  | .release num => do
      let (b, _) ← bbuddyBlockRelease s.1 num
      .ok (b, match liveAt maxPart s.2 num with
        | some B => s.2.erase B
        | none => s.2)

/-- `bbuddy_init` sets both bitmaps up. -/
def MiddleSize (maxPart : Nat) : Prop := 32 ≤ maxPart ∧ maxPart < 96

/-- The index is refused, or a free block starts there. -/
def HarmlessIndex (maxPart : Nat) (b : Bbuddy) (num : Nat) : Prop :=
  maxPart < num ∨ MiddleSize maxPart ∧ ∃ F : BuddyBlock, F.Valid maxPart ∧ freeBit b F = true ∧
    F.first (smallestLayer maxPart) = num

/-- The release of a live block sweeps no flag of a block that stays separated, and the
one of anything else has a harmless index. -/
def CleanCall (maxPart : Nat) (s : Bbuddy × List BuddyBlock) : BuddyCall → Prop
  | .alloc _ => MiddleSize maxPart
  | .release num =>
      match liveAt maxPart s.2 num with
      | some B => MiddleSize maxPart ∧
          CleanRelease (smallestLayer maxPart) (nodesOf (s.2.erase B)) B.node
      | none => HarmlessIndex maxPart s.1 num

/-- Calls in any order, all of which are clean. -/
inductive CallRun (maxPart : Nat) (b : Bbuddy) : Bbuddy × List BuddyBlock → Prop
  | refl : CallRun maxPart b (b, [])
  | step {s s' : Bbuddy × List BuddyBlock} {c : BuddyCall} (before : CallRun maxPart b s)
      (hop : c.Allowed maxPart) (hok : CleanCall maxPart s c)
      (call : buddyCall maxPart s c = .ok s') :
      CallRun maxPart b s'

/-- A release changes neither bitmap. -/
def LeavesBitmaps (b : Bbuddy) (num : Nat) : Prop :=
  ∃ b' r, bbuddyBlockRelease b num = .ok (b', r) ∧
    ∀ i, b'.pbmp i = b.pbmp i ∧ b'.nbmp i = b.nbmp i

section Runs

variable {maxPart num : Nat} {words : Nat → BitVec 32} {b b0 : Bbuddy}
  {s s' : Bbuddy × List BuddyBlock} {c : BuddyCall} {live : List BuddyBlock}

/-- The smallest layer has 32 or 64 blocks. -/
theorem smallestLayer_cases (h : MiddleSize maxPart) :
    smallestLayer maxPart = 32 ∨ smallestLayer maxPart = 64 := by
  obtain ⟨hlow, hhigh⟩ := h
  unfold smallestLayer
  by_cases h64 : maxPart < 64
  · rw [(Nat.log2_eq_iff (by omega)).mpr (show 2 ^ 5 ≤ maxPart ∧ maxPart < 2 ^ (5 + 1) by omega)]
    exact .inl rfl
  · rw [(Nat.log2_eq_iff (by omega)).mpr (show 2 ^ 6 ≤ maxPart ∧ maxPart < 2 ^ (6 + 1) by omega)]
    exact .inr rfl

/-- The blocks of the two sizes are the same. -/
theorem valid_smallestLayer {B : BuddyBlock} (hpos : maxPart ≠ 0) :
    B.Valid (smallestLayer maxPart) ↔ B.Valid maxPart := by
  have hlayer : ∀ i, 2 ^ i ≤ smallestLayer maxPart ↔ 2 ^ i ≤ maxPart := fun i => by
    rw [smallestLayer, Nat.pow_le_pow_iff_right (by omega), Nat.le_log2 hpos]
  constructor
  · rintro ⟨i, hi, hle, hnum⟩
    exact ⟨i, hi, (hlayer i).mp hle, hnum⟩
  · rintro ⟨i, hi, hle, hnum⟩
    exact ⟨i, hi, (hlayer i).mpr hle, hnum⟩

/-- The first unit of a block is one of the smallest layer. -/
theorem BuddyBlock.Valid.first_lt {M L : Nat} {B : BuddyBlock} (hM : M = 2 ^ L) (hB : B.Valid M) :
    B.first M < M := by
  obtain ⟨i, hi, hle, hnum⟩ := hB
  have hiL : i ≤ L := by rwa [hM, Nat.pow_le_pow_iff_right (by omega)] at hle
  rw [BuddyBlock.first, hi, hM, Nat.pow_div hiL (by omega)]
  calc B.num * 2 ^ (L - i) < 2 ^ i * 2 ^ (L - i) :=
        Nat.mul_lt_mul_of_pos_right hnum (Nat.two_pow_pos _)
    _ = 2 ^ L := by rw [← Nat.pow_add, Nat.add_sub_cancel' hiL]

/-- An index above `pn` is refused. -/
theorem release_refused (h : b.pn < num) : bbuddyBlockRelease b num = .ok (b, EINVALIDINDX) :=
  Loop.run_exit (if_pos h)

/-- The bitmaps are those of a buddy with a power of two of smallest blocks that keeps
exact books. -/
structure BooksKept (maxPart : Nat) (s : Bbuddy × List BuddyBlock) : Prop where
  pn : s.1.pn = maxPart
  tracked : MiddleSize maxPart →
    ∃ b0 : Bbuddy, s.1 = b0.withPn maxPart ∧ Tracked (smallestLayer maxPart) (b0, s.2)
  idle : ¬ MiddleSize maxPart → s.2 = []

/-- At the start, the books are empty. -/
theorem booksKept_init (hinit : bbuddyInit (some words) maxPart = some b) :
    BooksKept maxPart (b, []) where
  pn := bbuddyInit_pn hinit
  tracked hsize := by
    obtain ⟨hat, hpn, hflags⟩ := init_flags hsize.1 hsize.2 hinit
    have hM := smallestLayer_cases hsize
    have hlog : smallestLayer maxPart ≤ maxPart ∧ maxPart < 2 * smallestLayer maxPart := by
      have hlt := @Nat.lt_log2_self maxPart
      have hle := Nat.log2_self_le (show maxPart ≠ 0 by have := hsize.1; omega)
      rw [Nat.pow_succ] at hlt
      unfold smallestLayer
      omega
    have hhigh := hsize.2
    refine ⟨b.withPn (smallestLayer maxPart), ?_, tracked_of_flags ⟨hM, rfl, ?_⟩ hflags⟩
    · rw [← hpn]
      rfl
    · show b.nbmpAt = _
      omega
  idle _ := rfl

/-- A block that starts at the index stops the release. -/
theorem Tracked.release_free {M L : Nat} (ht : Tracked M (b, live)) (hM : M = 2 ^ L)
    {F : BuddyBlock} (hF : F.Valid M) (hfree : freeBit b F = true) :
    bbuddyBlockRelease b (F.first M) = .ok (b, 0) := by
  rw [freeBit_eq ht.books.small.size hF, ht.books.free _ hF.node_pos hF.node_lt] at hfree
  obtain ⟨k, hk, hle, hnum⟩ := hF
  rw [hM, Nat.pow_le_pow_iff_right (by omega)] at hle
  rw [BuddyBlock.node, hk] at hfree
  rw [BuddyBlock.first, hk]
  exact MString.release_free ht.books hM hle hnum hfree

/-- Every unit is in a block that is free or live. -/
theorem Tracked.exists_held {M L : Nat} (ht : Tracked M (b, live)) (hM : M = 2 ^ L)
    (hnum : num < M) :
    ∃ B : BuddyBlock, B.Valid M ∧ Held (nodesOf live) B.node ∧ Anc B.node (M + num) ∧
      (freeBit b B = true ∨ B ∈ live) := by
  by_cases hclear : Clear (nodesOf live) (M + num)
  · obtain ⟨f, hf, hfree⟩ := exists_free_of_clear hclear (by omega)
    have hle := hf.le
    have hf1 : 1 ≤ f := by
      rcases Nat.eq_zero_or_pos f with rfl | hpos
      · exact hfree.2.elim (by omega) fun h => absurd hfree.1 h
      · exact hpos
    obtain ⟨B, hB, rfl⟩ := exists_block hM hf1 (by omega)
    refine ⟨B, hB, .inl hfree, hf, .inl ?_⟩
    rw [freeBit_eq ht.books.small.size hB, ht.books.free _ hf1 hB.node_lt]
    exact hfree
  · simp only [Clear, not_forall, not_not] at hclear
    obtain ⟨l, ⟨B, hB, rfl⟩, hm⟩ := hclear
    have hvalid := ht.valid B hB
    have hlt := hvalid.node_lt
    obtain ⟨hnodes, hrest, -⟩ := ht.erase hB
    refine ⟨B, hvalid, .inr ⟨⟨B, hB, rfl⟩, fun l hl => ?_⟩, ?_, .inr hB⟩
    · have hmem : l ∈ insert B.node (nodesOf (live.erase B)) := hnodes ▸ hl.1
      exact hrest l (hmem.resolve_left hl.2)
    · -- The leaf has nothing below it.
      refine hm.elim id fun h => ?_
      rw [h.eq_of_lt (by omega)]
      exact anc_refl _

/-- A harmless release leaves the buddy alone. -/
theorem BooksKept.harmless (hs : BooksKept maxPart s) (h : HarmlessIndex maxPart s.1 num) :
    ∃ r, bbuddyBlockRelease s.1 num = .ok (s.1, r) := by
  rcases h with hout | ⟨hsize, F, hF, hfree, rfl⟩
  · rw [← hs.pn] at hout
    exact ⟨_, release_refused hout⟩
  · obtain ⟨b0, hb0, htracked⟩ := hs.tracked hsize
    have hpos : maxPart ≠ 0 := by have := hsize.1; omega
    have hFM := (valid_smallestLayer hpos).mpr hF
    rw [hb0] at hfree
    have hrun := htracked.release_free rfl hFM hfree
    have hpn : b0.pn = smallestLayer maxPart := htracked.books.small.pn
    have hlt : F.first (smallestLayer maxPart) < smallestLayer maxPart := hFM.first_lt rfl
    rw [hb0, bbuddyBlockRelease_withPn hpos rfl hpn hlt, hrun]
    exact ⟨0, rfl⟩

/-- The release of an index inside of a block marks a part of that block free. -/
theorem BooksKept.inside (hs : BooksKept maxPart s) (hsize : MiddleSize maxPart)
    (hlow : num < smallestLayer maxPart)
    (hinvalid : ∀ B ∈ s.2, B.first (smallestLayer maxPart) ≠ num)
    (hnot : ¬ HarmlessIndex maxPart s.1 num) : ¬ LeavesBitmaps s.1 num := by
  obtain ⟨b0, hb0, htracked⟩ := hs.tracked hsize
  have hpos : maxPart ≠ 0 := by have := hsize.1; omega
  obtain ⟨B, hB, hheld, hanc, hcase⟩ := htracked.exists_held rfl hlow
  have hhead : ¬ Heads B.node (smallestLayer maxPart + num) := fun h => by
    have hfirst := (hB.heads_iff rfl hlow).mp h
    rcases hcase with hfree | hlive
    · refine hnot (.inr ⟨hsize, B, (valid_smallestLayer hpos).mp hB, ?_, hfirst⟩)
      rw [hb0]
      exact hfree
    · exact hinvalid B hlive hfirst
  obtain ⟨b', g, hrun, -, -, hbefore, hafter⟩ :=
    release_inside htracked.books rfl hlow hB.node_pos hheld hanc hhead
  rintro ⟨b'', r, hcall, hsame⟩
  have hpn : b0.pn = smallestLayer maxPart := htracked.books.small.pn
  have hrun' : bbuddyBlockRelease b0 num = .ok (b', 0) := hrun
  rw [hb0, bbuddyBlockRelease_withPn hpos rfl hpn hlow, hrun'] at hcall
  obtain ⟨rfl, -⟩ := Prod.mk.inj (Except.ok.inj hcall)
  have hword : b'.nbmp (g / 32) = b0.nbmp (g / 32) := by
    have := (hsame (g / 32)).2
    rwa [hb0] at this
  rw [freeAt, hword] at hafter
  exact absurd (hbefore.symm.trans hafter) (by decide)

/-- `pn` does not enter the steps on live blocks. -/
theorem buddyStep_withPn {pn M : Nat} (hpn : pn ≠ 0) (hM : M = 2 ^ pn.log2) (hb0 : b0.pn = M)
    (op : BuddyOp) (hlow : ∀ B, op = .release B → B.first M < M) :
    buddyStep M (b0.withPn pn, live) op = (buddyStep M (b0, live) op).map (underPn pn) := by
  cases op with
  | alloc align =>
      simp only [buddyStep, bbuddyBlockAlloc_withPn]
      cases bbuddyBlockAlloc b0 align <;> rfl
  | release B =>
      simp only [buddyStep, bbuddyBlockRelease_withPn hpn hM hb0 (hlow B rfl)]
      cases bbuddyBlockRelease b0 (B.first M) <;> rfl

/-- A step on live blocks that is clean. -/
theorem BooksKept.tracked_step {op : BuddyOp} (hs : BooksKept maxPart s)
    (hsize : MiddleSize maxPart) (hop : op.Allowed (smallestLayer maxPart) s.2)
    (hclean : CleanStep (smallestLayer maxPart) s.2 op)
    (hcall : buddyStep (smallestLayer maxPart) s op = .ok s') : BooksKept maxPart s' := by
  obtain ⟨b0, hb0, htracked⟩ := hs.tracked hsize
  have hpos : maxPart ≠ 0 := by have := hsize.1; omega
  have hpn : b0.pn = smallestLayer maxPart := htracked.books.small.pn
  have hlow : ∀ B, op = .release B → B.first (smallestLayer maxPart) < smallestLayer maxPart := by
    rintro B rfl
    exact (htracked.valid B hop).first_lt rfl
  have hM : smallestLayer maxPart = 2 ^ maxPart.log2 := rfl
  obtain ⟨s0, hstep, hnext⟩ := Tracked.step hM htracked hop hclean
  obtain ⟨b, live⟩ := s
  obtain rfl : b = b0.withPn maxPart := hb0
  rw [buddyStep_withPn hpos hM hpn op hlow, hstep] at hcall
  obtain rfl := Except.ok.inj hcall
  exact ⟨rfl, fun _ => ⟨s0.1, rfl, hnext⟩, fun h => absurd hsize h⟩

/-- The step lemma. -/
theorem BooksKept.step (hs : BooksKept maxPart s) (hop : c.Allowed maxPart)
    (hok : CleanCall maxPart s c) (call : buddyCall maxPart s c = .ok s') :
    BooksKept maxPart s' := by
  cases c with
  | alloc align =>
      have hsize : MiddleSize maxPart := hok
      have hpos : maxPart ≠ 0 := by have := hsize.1; omega
      obtain ⟨⟨i, rfl⟩, hle⟩ := hop
      have hlayer : 2 ^ i ≤ smallestLayer maxPart :=
        Nat.pow_le_pow_right (by omega) ((Nat.le_log2 hpos).mpr hle)
      have hop : BuddyOp.Allowed (smallestLayer maxPart) s.2 (.alloc (2 ^ i)) := ⟨⟨i, rfl⟩, hlayer⟩
      exact hs.tracked_step hsize hop
        ⟨smallestLayer_cases hsize, fun B h => by cases h⟩ call
  | release num =>
      -- A release of a live block is one of the calls of a run; any other one changes nothing.
      cases hlive : liveAt maxPart s.2 num with
      | some B =>
          simp only [CleanCall, hlive] at hok
          have hmem : B ∈ s.2 := List.mem_of_find?_eq_some hlive
          have hfirst : B.first (smallestLayer maxPart) = num := by
            simpa using List.find?_some hlive
          have hcall : buddyStep (smallestLayer maxPart) s (.release B) = .ok s' := by
            rw [buddyStep, hfirst]
            simpa only [buddyCall, hlive] using call
          have hop : BuddyOp.Allowed (smallestLayer maxPart) s.2 (.release B) := hmem
          exact hs.tracked_step hok.1 hop
            ⟨smallestLayer_cases hok.1, fun C h => by cases h; exact hok.2⟩ hcall
      | none =>
          simp only [CleanCall, hlive] at hok
          obtain ⟨r, hrun⟩ := hs.harmless hok
          simp only [buddyCall, hlive, hrun, Loop.ok_bind] at call
          rw [← Except.ok.inj call]
          exact hs

/-- The run lemma. -/
theorem CallRun.booksKept (hinit : bbuddyInit (some words) maxPart = some b)
    (hrun : CallRun maxPart b s) : BooksKept maxPart s := by
  induction hrun with
  | refl => exact booksKept_init hinit
  | step before hop hok call ih => exact ih.step hop hok call

/-- In every state that clean calls reach, the release of an index at which no live block
starts changes neither bitmap if the index is harmless, and below the number of smallest
blocks only then. -/
theorem invalidRelease_leavesBitmaps (hinit : bbuddyInit (some words) maxPart = some b)
    (hrun : CallRun maxPart b s) (hinvalid : ∀ B ∈ s.2, B.first (smallestLayer maxPart) ≠ num) :
    (HarmlessIndex maxPart s.1 num → LeavesBitmaps s.1 num) ∧
      (MiddleSize maxPart → num < smallestLayer maxPart → LeavesBitmaps s.1 num →
        HarmlessIndex maxPart s.1 num) := by
  have hs := hrun.booksKept hinit
  constructor
  · intro h
    obtain ⟨r, hcall⟩ := hs.harmless h
    exact ⟨s.1, r, hcall, fun _ => ⟨rfl, rfl⟩⟩
  · intro hsize hlow hleaves
    by_contra hnot
    exact hs.inside hsize hlow hinvalid hnot hleaves

end Runs

/-- The whole area is allocated, released, and released again, on a buddy of 40 smallest
blocks. -/
theorem invalidRelease_leavesBitmaps_again :
    ∃ s, CallRun 40 (freshBuddy 40) s ∧ s.2 = [] ∧ LeavesBitmaps s.1 0 := by
  have hrun : (do
      let s1 ← buddyCall 40 (freshBuddy 40, []) (.alloc 1)
      let s2 ← buddyCall 40 s1 (.release 0)
      .ok (s1.2, s2.2, freeBit s2.1 ⟨1, 0⟩) : Except Fault _) = .ok ([⟨1, 0⟩], [], true) := by
    decide +kernel
  obtain ⟨s1, h1, hrun⟩ := Loop.exists_of_bind hrun
  obtain ⟨s2, h2, hrun⟩ := Loop.exists_of_bind hrun
  simp only [Except.ok.injEq, Prod.mk.injEq] at hrun
  obtain ⟨hlive1, hlive2, hroot⟩ := hrun
  have hsize : MiddleSize 40 := ⟨by decide, by decide⟩
  have hat : liveAt 40 s1.2 0 = some ⟨1, 0⟩ := by rw [hlive1]; rfl
  have hclean : CleanCall 40 s1 (.release 0) := by
    simp only [CleanCall, hat]
    refine ⟨hsize, fun g hg h1 => ?_⟩
    have : g ≤ 1 := hg.le
    omega
  have hone : BuddyCall.Allowed 40 (.alloc 1) := ⟨⟨0, rfl⟩, by decide⟩
  have hany : BuddyCall.Allowed 40 (.release 0) := trivial
  have hall : CallRun 40 (freshBuddy 40) s2 :=
    .step (.step .refl hone hsize h1) hany hclean h2
  have hinit : bbuddyInit (some fun _ => 0) 40 = some (freshBuddy 40) := rfl
  have hharmless : HarmlessIndex 40 s2.1 0 :=
    .inr ⟨hsize, ⟨1, 0⟩, ⟨0, rfl, by decide, by decide⟩, hroot, rfl⟩
  exact ⟨s2, hall, hlive2,
    (invalidRelease_leavesBitmaps hinit hall (by simp [hlive2])).1 hharmless⟩

/-- The whole area is live, and the release of index 8 frees the second block of layer 4
inside it. -/
theorem release_inside_live : ∃ b, bbuddyBlockAlloc (freshBuddy 32) 1 = .ok (b, 0) ∧
    ¬ LeavesBitmaps b 8 := by
  have hrun : (do
      let (b, r) ← bbuddyBlockAlloc (freshBuddy 32) 1
      let (b', _) ← bbuddyBlockRelease b 8
      .ok (r, freeBit b ⟨4, 1⟩, freeBit b' ⟨4, 1⟩) : Except Fault _) = .ok (0, false, true) := by
    decide +kernel
  obtain ⟨⟨b, r⟩, halloc, hrun⟩ := Loop.exists_of_bind hrun
  obtain ⟨⟨b', r'⟩, hrelease, hrun⟩ := Loop.exists_of_bind hrun
  simp only [Except.ok.injEq, Prod.mk.injEq] at hrun
  obtain ⟨rfl, hbefore, hafter⟩ := hrun
  refine ⟨b, halloc, ?_⟩
  rintro ⟨b'', r'', hcall, hsame⟩
  rw [hrelease] at hcall
  obtain ⟨rfl, -⟩ := Prod.mk.inj (Except.ok.inj hcall)
  rw [freeBit, (hsame _).2, ← freeBit, hbefore] at hafter
  cases hafter

end MString
