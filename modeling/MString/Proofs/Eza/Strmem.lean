import MString.Eza.Strmem
import MString.Lib.ChunkCopy
import MString.Proofs.Mlibc.Copies
import MString.Proofs.Mlibc.Strings

/-!
# `MString.Proofs.Eza.Strmem`: if the macros were switched on

The functions of the architecture against those of `include/mlibc/string.h`.

* `archMemset_eq`: `memset` leaves the same memory.
* `archMemcpy_agrees_iff`: `memcpy` does but at a distance below 8, where the first quadword
  is read before bytes in it are written.
* `archMemcpy_copies_iff`: when it is a copy at all.
* `archMemcmp_zero_iff`: when `memcmp` finds no difference.
* `archStrmem_laws`: all of it.
-/

set_option autoImplicit false

namespace MString

open ByteMemory

/-- What `memcpy` of the library leaves in memory is a copy from the bottom up. -/
theorem mem_memcpy (dst src : Addr) (n : Uintptr) (t : Traced) :
    (memcpy dst src n t).mem = copyUp n.toNat dst src t.mem := mem_copy _ _ _ _

/-! ### `memcpy` -/

section Memcpy

variable {dst src : Addr} {size : Uintptr} {m : Memory}

/-- The quadwords are chunks of eight bytes. -/
theorem repMovsq_eq (k : Nat) : ∀ (rdi rsi : Addr) (m : Memory),
    repMovsq k rdi rsi m = (rdi + BitVec.ofNat 64 (8 * k), rsi + BitVec.ofNat 64 (8 * k),
      copyChunks 8 k rdi rsi m) := by
  induction k with
  | zero => intro rdi rsi m; simp [repMovsq, copyChunks]
  | succ k ih =>
      intro rdi rsi m
      have hstep : ∀ a : Addr, a + 8 + BitVec.ofNat 64 (8 * k)
          = a + BitVec.ofNat 64 (8 * (k + 1)) := fun a => by
        rw [add_assoc]
        exact congrArg (a + ·) (eight_add k)
      have hchunk : store m rdi (load m rsi) = write m rdi (read m rsi 8) := by
        rw [store, load, bytesOf_ofBytes]
      rw [repMovsq, ih, hstep, hstep, hchunk]
      rfl

/-- `rep movsb` is that copy, too. -/
theorem repMovsb_eq (n : Nat) : ∀ (rdi rsi : Addr) (m : Memory),
    repMovsb n rdi rsi m = copyUp n rdi rsi m := by
  induction n with
  | zero => intros; rfl
  | succ n ih =>
      intro rdi rsi m
      rw [repMovsb, ih, copyUp_succ]

/-- `arch_memcpy` copies quadwords, and the bytes that are left over behind them. -/
theorem archMemcpy_eq (dst src : Addr) (size : Uintptr) (m : Memory) :
    archMemcpy dst src size m
      = copyUp (size.toNat % 8) (dst + BitVec.ofNat 64 (8 * (size.toNat / 8)))
          (src + BitVec.ofNat 64 (8 * (size.toNat / 8)))
          (copyChunks 8 (size.toNat / 8) dst src m) := by
  have hquot : (size / 8).toNat = size.toNat / 8 := BitVec.toNat_udiv
  have hrest : (size &&& 7).toNat = size.toNat % 8 := by
    rw [BitVec.toNat_and]
    exact Nat.and_two_pow_sub_one_eq_mod _ 3
  rw [archMemcpy, hquot, repMovsq_eq]
  dsimp only
  split
  · case isTrue h0 =>
      have hzero : size.toNat % 8 = 0 := by
        rw [← hrest, h0]
        rfl
      rw [hzero, copyUp_zero]
  · rw [repMovsb_eq, hrest]

/-- At any distance but a small one, this is the copy byte by byte. -/
theorem archMemcpy_eq_copyUp (hd : size.toNat < 8 ∨ dst = src ∨ 8 ≤ (dst - src).toNat) :
    archMemcpy dst src size m = copyUp size.toNat dst src m := by
  rw [archMemcpy_eq]
  rcases hd with hsmall | hd
  · rw [show size.toNat / 8 = 0 by omega, show size.toNat % 8 = size.toNat by omega]
    simp [copyChunks]
  · rw [copyChunks_eq_copyUp (by decide) _ hd, ← copyUp_append, Nat.div_add_mod]

/-- The first eight bytes, and the others. -/
theorem archMemcpy_succ (hsize : 8 ≤ size.toNat) :
    archMemcpy dst src size m
      = archMemcpy (dst + 8) (src + 8) (size - 8) (write m dst (read m src 8)) := by
  have hsub : (size - 8).toNat = size.toNat - 8 := BitVec.toNat_sub_of_le (by
    rw [BitVec.le_def]
    exact hsize)
  have hstep : ∀ a : Addr, a + 8 + BitVec.ofNat 64 (8 * (size.toNat / 8 - 1))
      = a + BitVec.ofNat 64 (8 * (size.toNat / 8)) := fun a => by
    rw [add_assoc, show size.toNat / 8 = size.toNat / 8 - 1 + 1 by omega]
    exact congrArg (a + ·) (eight_add _)
  rw [archMemcpy_eq, archMemcpy_eq, hsub, show (size.toNat - 8) / 8 = size.toNat / 8 - 1 by omega,
    show (size.toNat - 8) % 8 = size.toNat % 8 by omega, hstep, hstep]
  rw [show size.toNat / 8 = size.toNat / 8 - 1 + 1 by omega, copyChunks]
  rfl

/-- Nothing behind the area is written. -/
theorem archMemcpy_frame {x : Addr} (hx : ¬ (x - dst).toNat < size.toNat) :
    archMemcpy dst src size m x = m x := by
  have hlt := size.isLt
  have hsplit := Nat.div_add_mod size.toNat 8
  have hrest : ¬ (x - (dst + BitVec.ofNat 64 (8 * (size.toNat / 8)))).toNat
      < size.toNat % 8 := by
    rw [Traced.area_offset (by omega)]
    omega
  rw [archMemcpy_eq, copyUp_frame (by omega) hrest, copyChunks_frame (by omega) (by omega)]

/-- The bytes of the first quadword are all read before any is written. -/
theorem archMemcpy_head (hsize : 8 ≤ size.toNat) {i : Nat} (hi : i < 8) :
    archMemcpy dst src size m (dst + BitVec.ofNat 64 i) = m (src + BitVec.ofNat 64 i) := by
  have hlt := size.isLt
  have hsub : (size - 8).toNat = size.toNat - 8 := BitVec.toNat_sub_of_le (by
    rw [BitVec.le_def]
    exact hsize)
  have hout : ¬ (dst + BitVec.ofNat 64 i - (dst + 8)).toNat < (size - 8).toNat := by
    show ¬ (dst + BitVec.ofNat 64 i - (dst + BitVec.ofNat 64 8)).toNat < (size - 8).toNat
    rw [hsub, Traced.area_offset (by omega), Traced.toNat_offset dst (by omega)]
    omega
  rw [archMemcpy_succ hsize, archMemcpy_frame hout]
  exact (copiedTo_chunk (by decide)).copied i hi

/-- The first byte. -/
theorem archMemcpy_first (hsize : 0 < size.toNat) : archMemcpy dst src size m dst = m src := by
  have hlt := size.isLt
  by_cases h8 : 8 ≤ size.toNat
  · simpa using @archMemcpy_head dst src size m h8 0 (by decide)
  · have hout : ¬ (dst - (dst + 1)).toNat < size.toNat - 1 := by
      rw [sub_add_cancel_left]
      simp
      omega
    rw [archMemcpy_eq_copyUp (.inl (by omega)), show size.toNat = size.toNat - 1 + 1 by omega,
      copyUp_succ, copyUp_frame (by omega) hout, Function.update_self]

/-- Two different addresses have a positive distance. -/
theorem toNat_sub_pos (hne : dst ≠ src) : 0 < (dst - src).toNat := by
  refine Nat.pos_of_ne_zero fun h0 => hne ?_
  rw [dst_eq dst src, h0]
  simp

/-- At a distance below 8, the second part starts with a byte that the first quadword has
overwritten. -/
theorem archMemcpy_second (hsize : 8 < size.toNat) (hne : dst ≠ src)
    (hd : (dst - src).toNat < 8) :
    archMemcpy dst src size m (dst + 8) = m (src + BitVec.ofNat 64 (8 - (dst - src).toNat)) := by
  have hback : src + 8 = dst + BitVec.ofNat 64 (8 - (dst - src).toNat) := by
    have h8 : (8 : Addr) = BitVec.ofNat 64 (dst - src).toNat
        + BitVec.ofNat 64 (8 - (dst - src).toNat) := by
      rw [← BitVec.ofNat_add, Nat.add_sub_cancel' (Nat.le_of_lt hd)]
      rfl
    rw [h8, ← add_assoc, ← dst_eq]
  have hsub : (size - 8).toNat = size.toNat - 8 := BitVec.toNat_sub_of_le (by
    rw [BitVec.le_def]
    exact Nat.le_of_lt hsize)
  have hpos := toNat_sub_pos hne
  rw [archMemcpy_succ (Nat.le_of_lt hsize), archMemcpy_first (by omega), hback]
  exact (copiedTo_chunk (by decide)).copied _ (by omega)

/-- A memory with one byte. -/
def oneByte (a : Addr) : Memory := fun x => if x = a then 1 else 0

/-- Where the two areas start at different addresses, the source has no byte of its start at
the distance between them. -/
theorem oneByte_dst (hne : dst ≠ src) : oneByte src dst = 0 := if_neg hne

/-- `arch_memcpy` leaves the memory that `memcpy` leaves, whatever it held before, exactly at
these lengths and distances. -/
theorem archMemcpy_agrees_iff :
    (∀ m, archMemcpy dst src size m = copyUp size.toNat dst src m)
      ↔ size.toNat < 8 ∨ dst = src ∨ 8 ≤ (dst - src).toNat := by
  constructor
  · intro hagree
    by_contra hnear
    push Not at hnear
    obtain ⟨hsize, hne, hd⟩ := hnear
    have hlt := size.isLt
    -- the byte at the distance is the first one again, or its own
    have hbytes := @copyUp_overrun size.toNat dst src (oneByte src) (by omega) (by omega) hne
    have hwords := @archMemcpy_head dst src size (oneByte src) hsize _ hd
    rw [hagree, hbytes, ← dst_eq, oneByte_dst hne] at hwords
    exact absurd hwords (by simp [oneByte])
  · exact fun hd m => archMemcpy_eq_copyUp hd

/-- `memcpy` copies, whatever memory held before, exactly when no byte of the source is
written before it is read. -/
theorem copyUp_copies_iff :
    (∀ m, CopiedTo size.toNat dst src m (copyUp size.toNat dst src m))
      ↔ dst = src ∨ size.toNat ≤ (dst - src).toNat := by
  have hlt := size.isLt
  constructor
  · intro hcopies
    by_contra hnear
    push Not at hnear
    obtain ⟨hne, hd⟩ := hnear
    have hbytes := @copyUp_overrun size.toNat dst src (oneByte src) (by omega) hd hne
    rw [(hcopies _).copied _ hd, ← dst_eq, oneByte_dst hne] at hbytes
    exact absurd hbytes (by simp [oneByte])
  · exact fun hd m => copiedTo_copyUp (by omega) hd

/-- One quadword is copied at any distance. -/
theorem archMemcpy_copies_iff :
    (∀ m, CopiedTo size.toNat dst src m (archMemcpy dst src size m))
      ↔ dst = src ∨ size.toNat ≤ (dst - src).toNat ∨ size = 8 := by
  have hlt := size.isLt
  constructor
  · intro hcopies
    by_contra hnear
    push Not at hnear
    obtain ⟨hne, hd, h8⟩ := hnear
    by_cases hfar : size.toNat < 8 ∨ 8 ≤ (dst - src).toNat
    · -- the copy byte by byte, which runs into itself
      have hcopies' : ∀ m, CopiedTo size.toNat dst src m (copyUp size.toNat dst src m) := by
        intro m
        rw [← archMemcpy_eq_copyUp (hfar.imp id .inr)]
        exact hcopies m
      rcases copyUp_copies_iff.mp hcopies' with heq | hle
      · exact hne heq
      · omega
    · -- the second part starts with a byte that the first quadword has overwritten
      push Not at hfar
      obtain ⟨hsize, hnear⟩ := hfar
      have hmore : 8 < size.toNat := by
        refine Nat.lt_of_le_of_ne hsize fun heq => h8 (BitVec.eq_of_toNat_eq heq.symm)
      have hsecond := @archMemcpy_second dst src size
        (oneByte (src + BitVec.ofNat 64 (8 - (dst - src).toNat))) hmore hne hnear
      have hcopied := (hcopies (oneByte (src + BitVec.ofNat 64 (8 - (dst - src).toNat)))).copied 8
        hmore
      have hsame := hsecond.symm.trans hcopied
      rw [oneByte, if_pos rfl, oneByte, if_neg] at hsame
      · cases hsame
      · intro heq
        have hval := congrArg BitVec.toNat (add_left_cancel heq)
        rw [BitVec.toNat_ofNat, BitVec.toNat_ofNat] at hval
        have hpos := toNat_sub_pos hne
        omega
  · -- Conversely, everything but the last case is a copy byte by byte.
    rintro (heq | hd | rfl) m
    · rw [archMemcpy_eq_copyUp (.inr (.inl heq))]
      exact copiedTo_copyUp (by omega) (.inl heq)
    · by_cases hsmall : size.toNat < 8
      · rw [archMemcpy_eq_copyUp (.inl hsmall)]
        exact copiedTo_copyUp (by omega) (.inr hd)
      · rw [archMemcpy_eq_copyUp (.inr (.inr (by omega)))]
        exact copiedTo_copyUp (by omega) (.inr hd)
    · -- Eight bytes are one quadword, which is loaded before it is stored.
      exact ⟨fun i hi => archMemcpy_head (by decide) hi, fun x hx => archMemcpy_frame hx⟩

end Memcpy

/-! ### `memset` and `memcmp` -/

/-- `rep stosb` is a fill. -/
theorem repStosb_eq (c : Byte) (n : Nat) : ∀ (rdi : Addr) (t : Traced),
    repStosb c n rdi t.mem = (t.fill c n rdi).mem := by
  induction n with
  | zero => intros; rfl
  | succ n ih =>
      intro rdi t
      rw [repStosb, Traced.fill, ← ih]
      rfl

/-- `arch_memset` leaves the memory that `memset` of the library leaves. -/
theorem archMemset_eq (dest : Addr) (c : BitVec 32) (size : Uintptr) (t : Traced) :
    archMemset dest (c.setWidth 8) size t.mem = (memset dest c size t).mem := by
  rw [archMemset, repStosb_eq, memset_eq]

section Memcmp

variable {m : Memory} {src dst : Addr} {size : Uintptr}

/-- The first of `n` offsets at which two areas differ. -/
def firstDifference (m : Memory) (a b : Addr) (n : Nat) : Option Nat :=
  (List.range n).find? fun i => m (a + BitVec.ofNat 64 i) != m (b + BitVec.ofNat 64 i)

/-- The first difference is at the first byte, or one further than that of the rest. -/
theorem firstDifference_succ (m : Memory) (a b : Addr) (n : Nat) :
    firstDifference m a b (n + 1)
      = if m a = m b then (firstDifference m (a + 1) (b + 1) n).map (· + 1) else some 0 := by
  rw [firstDifference, List.range_succ_eq_map, List.find?_cons]
  by_cases h : m a = m b
  · have hnext : ((fun i => m (a + BitVec.ofNat 64 i) != m (b + BitVec.ofNat 64 i)) ∘ Nat.succ)
        = fun i => m (a + 1 + BitVec.ofNat 64 i) != m (b + 1 + BitVec.ofNat 64 i) := by
      funext i
      rw [Function.comp_apply, Traced.succ_offset, Traced.succ_offset]
    rw [if_pos h]
    simp only [BitVec.add_zero, BitVec.ofNat_eq_ofNat, h, bne_self_eq_false, List.find?_map, hnext]
    rfl
  · have hne : (m a != m b) = true := bne_iff_ne.mpr h
    rw [if_neg h]
    simp [hne]

/-- The count that `repe cmpsb` leaves. -/
theorem repeCmpsb_eq (m : Memory) (n : Nat) : ∀ (rsi rdi : Addr) (zf : Bool),
    repeCmpsb m n rsi rdi zf = match firstDifference m rsi rdi n with
      | some i => (n - 1 - i, false)
      | none => (0, zf || decide (0 < n)) := by
  induction n with
  | zero => intro rsi rdi zf; simp [repeCmpsb, firstDifference]
  | succ n ih =>
      intro rsi rdi zf
      rw [repeCmpsb, firstDifference_succ]
      split
      · rw [ih]
        cases firstDifference m (rsi + 1) (rdi + 1) n with
        | none => simp
        | some i => simp; omega
      · simp

/-- The result is zero for areas that are the same, unless they are empty and the zero flag
is not set, and for a first difference at a multiple of 4 GB before the end. -/
theorem archMemcmp_zero_iff (zf : Bool) :
    archMemcmp zf dst src size m = 0 ↔ match firstDifference m src dst size.toNat with
      | some i => 2 ^ 32 ∣ size.toNat - i
      | none => zf = true ∨ size ≠ 0 := by
  have hzero : ∀ w : Word, (w.setWidth 32).toInt = 0 ↔ 2 ^ 32 ∣ w.toNat := by
    intro w
    rw [← BitVec.toInt_zero (w := 32), BitVec.toInt_inj, ← BitVec.toNat_inj, BitVec.toNat_setWidth]
    exact (Nat.dvd_iff_mod_eq_zero).symm
  have hlt := size.isLt
  rw [archMemcmp, repeCmpsb_eq]
  cases hfirst : firstDifference m src dst size.toNat with
  -- No difference: the last comparison has set the flag, or there was none and it is as it was.
  | none =>
      have hpos : 0 < size.toNat ↔ size ≠ 0 := by
        rw [Nat.pos_iff_ne_zero, ne_eq, ne_eq, ← BitVec.toNat_inj]
        rfl
      dsimp only
      rw [hzero]
      by_cases hz : zf = true ∨ size ≠ 0
      · have hflag : (zf || decide (0 < size.toNat)) = true := by
          rw [Bool.or_eq_true, decide_eq_true_iff, hpos]
          exact hz
        rw [hflag, if_pos rfl, iff_true_right hz]
        exact Nat.dvd_zero _
      · have hflag : (zf || decide (0 < size.toNat)) = false := by
          rw [Bool.eq_false_iff, ne_eq, Bool.or_eq_true, decide_eq_true_iff, hpos]
          exact hz
        rw [hflag, if_neg (by simp), iff_false_right hz]
        decide
  -- What comes back is the number of bytes from the difference on, cut to an `int`.
  | some i =>
      have hi : i < size.toNat := by
        have hmem := List.mem_of_find?_eq_some hfirst
        exact List.mem_range.mp hmem
      have hcount : (BitVec.ofNat 64 (size.toNat - 1 - i) + 1 : Word).toNat = size.toNat - i := by
        rw [BitVec.toNat_add, BitVec.toNat_ofNat]
        show (_ + 1) % 2 ^ 64 = _
        omega
      dsimp only
      rw [if_neg (by simp), hzero, hcount]

/-- `memcmp` answers zero exactly when there is no difference. -/
theorem memcmp_zero_iff :
    memcmp (charsAt m dst) (charsAt m src) size = 0
      ↔ firstDifference m src dst size.toNat = none := by
  have hzero : ∀ k : Nat, (0 : BitVec 64) + BitVec.ofNat 64 k = BitVec.ofNat 64 k :=
    fun k => BitVec.zero_add _
  cases hfirst : firstDifference m src dst size.toNat with
  | none =>
      rw [firstDifference, List.find?_eq_none] at hfirst
      refine iff_of_true (strncmpFrom_same fun k hk => ?_) rfl
      have hsame := hfirst k (List.mem_range.mpr hk)
      rw [Bool.not_eq_true, bne_eq_false_iff_eq] at hsame
      rw [hzero]
      exact hsame.symm
  | some i =>
      obtain ⟨hdiff, hi, hbefore⟩ := List.find?_range_eq_some.mp hfirst
      refine iff_of_false (fun h => ?_) (by simp)
      have hrun := @strncmpFrom_differ (charsAt m dst) (charsAt m src) 0 size.toNat i
        (fun k hk => by
          have hsame := hbefore k hk
          rw [Bool.not_eq_true', bne_eq_false_iff_eq] at hsame
          rw [hzero]
          exact hsame.symm)
        (by
          rw [hzero]
          exact (bne_iff_ne.mp hdiff).symm)
        (List.mem_range.mp hi)
      rw [memcmp, hrun, hzero, sub_eq_zero, BitVec.toInt_inj] at h
      exact bne_iff_ne.mp hdiff h.symm

end Memcmp

/-- What would change with `ARCH_MEMSET`, `ARCH_MEMCPY` and `ARCH_MEMCMP` defined. `memset`
stays the same. `memcpy` leaves the same memory, whatever it held before, exactly outside the
distances from 1 to 7 for areas of eight bytes or more, and it copies where it copied before,
and eight bytes always. `memcmp` is zero for areas that are the same, unless they are empty
and the zero flag is clear, and also where the first difference is a multiple of 4 GB before
the end. -/
theorem archStrmem_laws (dst src : Addr) (size : Uintptr) :
    (∀ c t, archMemset dst (c.setWidth 8) size t.mem = (memset dst c size t).mem) ∧
    ((∀ t, archMemcpy dst src size t.mem = (memcpy dst src size t).mem)
      ↔ size.toNat < 8 ∨ dst = src ∨ 8 ≤ (dst - src).toNat) ∧
    ((∀ t, CopiedTo size.toNat dst src t.mem (memcpy dst src size t).mem)
      ↔ dst = src ∨ size.toNat ≤ (dst - src).toNat) ∧
    ((∀ m, CopiedTo size.toNat dst src m (archMemcpy dst src size m))
      ↔ dst = src ∨ size.toNat ≤ (dst - src).toNat ∨ size = 8) ∧
    ∀ zf m, archMemcmp zf dst src size m = 0 ↔
      memcmp (charsAt m dst) (charsAt m src) size = 0 ∧ (zf = true ∨ size ≠ 0) ∨
        ∃ i, firstDifference m src dst size.toNat = some i ∧ 2 ^ 32 ∣ size.toNat - i := by
  refine ⟨fun c t => archMemset_eq dst c size t, ?_, ?_, archMemcpy_copies_iff, fun zf m => ?_⟩
  · rw [← archMemcpy_agrees_iff]
    refine ⟨fun h m => ?_, fun h t => ?_⟩
    · -- The two memories are compared for any writes before, so no writes will do.
      have hagree := h (.start m)
      rw [mem_memcpy] at hagree
      exact hagree
    · rw [mem_memcpy, h]
  · rw [← copyUp_copies_iff]
    refine ⟨fun h m => ?_, fun h t => ?_⟩
    · have hcopied := h (.start m)
      rw [mem_memcpy] at hcopied
      exact hcopied
    · rw [mem_memcpy]
      exact h t.mem
  · rw [archMemcmp_zero_iff, memcmp_zero_iff]
    cases firstDifference m src dst size.toNat with
    | none => simp
    | some i => simp

end MString
