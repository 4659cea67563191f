import MString.Lib.Traced

/-!
# `MString.Lib.ChunkCopy`: copies in chunks

A copy that goes up through memory and reads `w` bytes before it writes them is not always
the copy byte by byte: that one writes a byte before it reads the next one. What matters is
the distance from the source up to the destination, taken round the top of the address
space.

* `copyUp`: byte by byte; `copyChunks`: in chunks.
* `chunk_eq_copyUp`, `copyChunks_eq_copyUp`: they agree from the distance `w` on, and
  at no distance.
* `copyUp_overrun`: at a smaller distance than the length, the copy runs into itself.
* `CopiedTo`: what a copy is for.

Nothing here mentions a program.
-/

set_option autoImplicit false

namespace ByteMemory

/-- `n` bytes, one after the other. -/
def copyUp (n : Nat) (dst src : Addr) (m : Memory) : Memory :=
  (Traced.copy n dst src (.start m)).mem

/-- `k` chunks of `w` bytes. -/
def copyChunks (w : Nat) : Nat → (dst src : Addr) → Memory → Memory
  | 0, _, _, m => m
  | k + 1, dst, src, m =>
      copyChunks w k (dst + BitVec.ofNat 64 w) (src + BitVec.ofNat 64 w)
        (write m dst (read m src w))

/-- The destination holds what the source held, and nothing else has changed. -/
structure CopiedTo (n : Nat) (dst src : Addr) (m m' : Memory) : Prop where
  copied : ∀ i, i < n → m' (dst + BitVec.ofNat 64 i) = m (src + BitVec.ofNat 64 i)
  frame : ∀ x, ¬ (x - dst).toNat < n → m' x = m x

variable {n w k : Nat} {dst src : Addr} {m : Memory}

/-- The copy does not depend on what was touched before it. -/
theorem mem_copy (n : Nat) : ∀ (dst src : Addr) (t : Traced),
    (Traced.copy n dst src t).mem = copyUp n dst src t.mem := by
  have hcongr : ∀ (n : Nat) (dst src : Addr) (t t' : Traced), t.mem = t'.mem →
      (Traced.copy n dst src t).mem = (Traced.copy n dst src t').mem := by
    intro n
    induction n with
    | zero => exact fun _ _ _ _ h => h
    | succ n ih =>
        intro dst src t t' h
        refine ih _ _ _ _ ?_
        rw [Traced.mem_store, Traced.mem_store, Traced.mem_read, Traced.mem_read, h]
  exact fun dst src t => hcongr n dst src t _ rfl

@[simp] theorem copyUp_zero : copyUp 0 dst src m = m := rfl

/-- The lowest byte goes first. -/
theorem copyUp_succ (n : Nat) (dst src : Addr) (m : Memory) :
    copyUp (n + 1) dst src m
      = copyUp n (dst + 1) (src + 1) (Function.update m dst (m src)) := by
  rw [copyUp, Traced.copy, mem_copy]
  rfl

/-- A copy is the copy of a front part and then of the rest. -/
theorem copyUp_append (a b : Nat) : ∀ (dst src : Addr) (m : Memory),
    copyUp (a + b) dst src m
      = copyUp b (dst + BitVec.ofNat 64 a) (src + BitVec.ofNat 64 a)
          (copyUp a dst src m) := by
  induction a with
  | zero => intro dst src m; simp
  | succ a ih =>
      intro dst src m
      rw [Nat.add_right_comm, copyUp_succ, ih, Traced.succ_offset, Traced.succ_offset,
        copyUp_succ]

/-- Bytes outside the destination stay. -/
theorem copyUp_frame (hn : n ≤ 2 ^ 64) {x : Addr} (hx : ¬ (x - dst).toNat < n) :
    copyUp n dst src m x = m x :=
  Traced.copy_frame hn src (.start m) hx

/-- The distance as the offset at which the destination starts. -/
theorem dst_eq (dst src : Addr) : dst = src + BitVec.ofNat 64 (dst - src).toNat :=
  Traced.eq_offset src dst

/-- A copy that reaches no byte of the source before it has read it. -/
theorem copiedTo_copyUp (hn : n ≤ 2 ^ 64) (hd : dst = src ∨ n ≤ (dst - src).toNat) :
    CopiedTo n dst src m (copyUp n dst src m) where
  copied := by
    refine Traced.copy_mem hn dst src (.start m) fun i hi j hj heq => ?_
    -- a byte that is written first is `i - j` below the one that is read
    have hlt : (dst - src).toNat = i - j := by
      have hdist : dst - src = BitVec.ofNat 64 i - BitVec.ofNat 64 j := by
        rw [sub_eq_sub_iff_add_eq_add, add_comm (BitVec.ofNat 64 i), heq]
      rw [hdist, BitVec.toNat_sub, BitVec.toNat_ofNat, BitVec.toNat_ofNat]
      omega
    rcases hd with rfl | hd
    · rw [BitVec.sub_self, BitVec.toNat_zero] at hlt
      omega
    · omega
  frame := fun _ hx => copyUp_frame hn hx

/-- There is only one memory after a copy. -/
theorem CopiedTo.unique {m' m'' : Memory} (h : CopiedTo n dst src m m')
    (h' : CopiedTo n dst src m m'') : m' = m'' := by
  funext x
  by_cases hx : (x - dst).toNat < n
  · rw [Traced.eq_offset dst x, h.copied _ hx, h'.copied _ hx]
  · rw [h.frame x hx, h'.frame x hx]

/-- One chunk is always copied. -/
theorem copiedTo_chunk (hw : w ≤ 2 ^ 64) : CopiedTo w dst src m (write m dst (read m src w)) where
  copied := fun i hi => congrFun (read_write (m := m) (a := dst) (read m src w) hw) ⟨i, hi⟩
  frame := fun _ hx => dif_neg hx

/-- A copy of one chunk is a copy byte by byte, when the destination is the source or does not
start inside of it. -/
theorem chunk_eq_copyUp (hw : w ≤ 2 ^ 64) (hd : dst = src ∨ w ≤ (dst - src).toNat) :
    write m dst (read m src w) = copyUp w dst src m :=
  (copiedTo_chunk hw).unique (copiedTo_copyUp hw hd)

/-- From the distance of a chunk on, the chunks make no difference. -/
theorem copyChunks_eq_copyUp (hw : w ≤ 2 ^ 64) (k : Nat) :
    ∀ {dst src : Addr} {m : Memory}, dst = src ∨ w ≤ (dst - src).toNat →
      copyChunks w k dst src m = copyUp (w * k) dst src m := by
  induction k with
  | zero => intros; rfl
  | succ k ih =>
      intro dst src m hd
      rw [copyChunks, ih, chunk_eq_copyUp hw hd, Nat.mul_succ, Nat.add_comm,
        copyUp_append]
      rw [add_sub_add_right_eq_sub, add_left_inj]
      exact hd

/-- Chunks leave the bytes outside the destination alone, as bytes do. -/
theorem copyChunks_frame {x : Addr} : ∀ {k : Nat} {dst src : Addr} {m : Memory},
    w * k ≤ 2 ^ 64 → ¬ (x - dst).toNat < w * k → copyChunks w k dst src m x = m x := by
  intro k
  induction k with
  | zero => intros; rfl
  | succ k ih =>
      intro dst src m hk hx
      rw [Nat.mul_succ] at hk hx
      have hrest : ¬ (x - (dst + BitVec.ofNat 64 w)).toNat < w * k := by
        rw [Traced.area_offset (by omega)]
        omega
      rw [copyChunks, ih (by omega) hrest]
      exact dif_neg (by omega)

/-- At a smaller distance than the length, the byte at that distance is the first one
again. -/
theorem copyUp_overrun (hn : n ≤ 2 ^ 64) (hd : (dst - src).toNat < n) (hne : dst ≠ src) :
    copyUp n dst src m (dst + BitVec.ofNat 64 (dst - src).toNat) = m src := by
  generalize hdist : (dst - src).toNat = d at hd ⊢
  have hdst : dst = src + BitVec.ofNat 64 d := by
    rw [← hdist]
    exact dst_eq dst src
  have hpos : 0 < d := by
    rcases Nat.eq_zero_or_pos d with rfl | hpos
    · exact absurd (by simpa using hdst) hne
    · exact hpos
  -- the bytes before it, then it, then the others
  rw [show n = d + (1 + (n - d - 1)) by omega, copyUp_append, copyUp_append]
  have hout : ¬ (dst + BitVec.ofNat 64 d - (dst + BitVec.ofNat 64 d + BitVec.ofNat 64 1)).toNat
      < n - d - 1 := by
    rw [Traced.area_offset (by omega), BitVec.sub_self, BitVec.toNat_zero]
    omega
  rw [copyUp_frame (by omega) hout, copyUp_succ, copyUp_zero, Function.update_self, ← hdst]
  have hfirst := (copiedTo_copyUp (n := d) (m := m) (by omega)
    (.inr (show d ≤ (dst - src).toNat by omega))).copied 0 hpos
  simpa using hfirst

end ByteMemory
