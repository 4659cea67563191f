import MString.Proofs.Mlibc.Strings

/-!
# `MString.Proofs.Mlibc.Copies`: `memset`, `strncpy` and `strncat`

`memset` sets the bytes of its area and no others, whichever way it takes
(`memset_eq`). `strncpy` copies `n` bytes, whatever they are, and stores a terminator
behind them, that is at `dst[n]` (`strncpy_writes_end`): it never keeps to the `n` bytes of
its destination. `strncat` does the same behind the string at `dst`, where there is room for
the terminator; it is right as long as the source has `n` characters, also when the two
strings overlap.
-/

set_option autoImplicit false

namespace MString

open ByteMemory

/-- The bytes from a pointer into memory on. -/
def charsAt (m : Memory) (p : Addr) : Chars := fun i => m (p + i)

/-- What is expected of `strncpy` from the string `a` at `src`. -/
structure StrncpyLaws (m : Memory) (dst src : Addr) (n : Uintptr) (a : List Byte) : Prop where
  writes : ∀ x ∈ (strncpy dst src n (.start m)).writes, (x - dst).toNat < n.toNat
  reads : ∀ x ∈ (strncpy dst src n (.start m)).reads, (x - src).toNat ≤ a.length
  copied : ∀ i (hi : i < a.length), i < n.toNat →
    (strncpy dst src n (.start m)).mem (dst + BitVec.ofNat 64 i) = a[i]

/-- The memory `t` behind a `strncat` of the string `a` to the string `b` at `dst`. -/
structure Appended (dst : Addr) (n : Uintptr) (a b : List Byte) (t : Traced) : Prop where
  copied : ∀ i (hi : i < a.length), i < n.toNat →
    t.mem (dst + BitVec.ofNat 64 (b.length + i)) = a[i]
  terminator : t.mem (dst + BitVec.ofNat 64 (b.length + min n.toNat a.length)) = 0#8
  writes : ∀ x ∈ t.writes, (x - (dst + BitVec.ofNat 64 b.length)).toNat ≤ min n.toNat a.length

/-- What is expected of `strncpy` and of `strncat`. -/
def CopyLaws (m : Memory) (dst src : Addr) (n : Uintptr) (a b : List Byte) : Prop :=
  StrncpyLaws m dst src n a ∧ ∃ t, strncat dst src n (.start m) = .ok t ∧ Appended dst n a b t

/-! ### `memset` -/

section
variable {p q : Addr} {c : Byte} {n : Nat} {t : Traced}

/-- A fill is the fill of a front part and then of the rest. -/
theorem fill_append (c : Byte) (k n : Nat) (p : Addr) (t : Traced) :
    t.fill c (k + n) p = (t.fill c k p).fill c n (p + BitVec.ofNat 64 k) := by
  induction k generalizing p t with
  | zero => simp [Traced.fill]
  | succ k ih =>
      rw [Nat.succ_add, Traced.fill, Traced.fill, ih, Traced.succ_offset]

/-- Halfwords of two equal bytes. -/
theorem fill16_eq (w : BitVec 16) (hlow : w.setWidth 8 = c) (hhigh : (w >>> 8).setWidth 8 = c)
    (k : Nat) (p : Addr) (t : Traced) : fill16 w k p t = t.fill c (2 * k) p := by
  induction k generalizing p t with
  | zero => rfl
  | succ k ih =>
      rw [fill16, ih, Nat.mul_succ, Nat.add_comm (2 * k) 2, fill_append, store16, hlow, hhigh]
      rfl

/-- `c & 0xff` is the low byte of `c`, as an `int`. -/
theorem and_mask (c : BitVec 32) : c &&& 0xff#32 = (c.setWidth 8).setWidth 32 := by
  apply BitVec.eq_of_toNat_eq
  have h := Nat.and_two_pow_sub_one_eq_mod c.toNat 8
  simp at h ⊢
  omega

/-- The halfword that `memset` makes of a byte holds it in its low half. -/
theorem pair_low (b : Byte) :
    ((b.setWidth 32 ||| b.setWidth 32 <<< 8).setWidth 16).setWidth 8 = b := by
  ext i hi
  simp

/-- And in its high half. -/
theorem pair_high (b : Byte) :
    (((b.setWidth 32 ||| b.setWidth 32 <<< 8).setWidth 16) >>> 8).setWidth 8 = b := by
  ext i hi
  simp
  grind

/-- The branch of `memset` that sets bytes. -/
def memsetBytes (s : Addr) (c : BitVec 32) (n : Uintptr) (t : Traced) : Traced :=
  t.fill (c.setWidth 8) n.toNat s

/-- The branch that sets halfwords, and the last byte. -/
def memsetHalfwords (s : Addr) (c : BitVec 32) (n : Uintptr) (t : Traced) : Traced :=
  let tmp := ((c &&& 0xff#32) ||| (c &&& 0xff#32) <<< 8).setWidth 16
  let t := fill16 tmp (n >>> 1).toNat s t
  if n &&& 1 ≠ 0 then t.store (s + 2#64 * (n >>> 1)) (c.setWidth 8) else t

/-- `memset` looks at the lowest bit of the address and takes one of the two branches. -/
theorem memset_branches (s : Addr) (c : BitVec 32) (n : Uintptr) (t : Traced) :
    memset s c n t = if s &&& 1 ≠ 0 then memsetBytes s c n t else memsetHalfwords s c n t := rfl

/-- The two branches do the same, store by store, at any address. -/
theorem memsetHalfwords_eq (s : Addr) (c : BitVec 32) (n : Uintptr) (t : Traced) :
    memsetHalfwords s c n t = memsetBytes s c n t := by
  have hlt := n.isLt
  have hhalf : (n >>> 1).toNat = n.toNat / 2 := by
    rw [BitVec.toNat_ushiftRight, Nat.shiftRight_one]
  have hodd : n &&& 1 ≠ 0 ↔ n.toNat % 2 = 1 := by
    rw [Ne, ← BitVec.toNat_inj, BitVec.toNat_and]
    show ¬ n.toNat &&& 1 = 0 ↔ _
    rw [Nat.and_one_is_mod]
    omega
  rw [memsetHalfwords, memsetBytes, and_mask, fill16_eq _ (pair_low _) (pair_high _), hhalf]
  split
  · -- The byte that is left over stands behind the halfwords.
    rename_i h
    have hlast : 2#64 * (n >>> 1) = BitVec.ofNat 64 (2 * (n.toNat / 2)) := by
      apply BitVec.eq_of_toNat_eq
      rw [BitVec.toNat_mul, hhalf, BitVec.toNat_ofNat]
      rfl
    rw [hodd] at h
    conv =>
      rhs
      rw [show n.toNat = 2 * (n.toNat / 2) + 1 by omega, fill_append]
    rw [hlast]
    rfl
  · rename_i h
    rw [hodd] at h
    rw [show 2 * (n.toNat / 2) = n.toNat by omega]

/-- `memset` sets `n` bytes to the low byte of `c`, at any address. -/
theorem memset_eq (s : Addr) (c : BitVec 32) (n : Uintptr) (t : Traced) :
    memset s c n t = t.fill (c.setWidth 8) n.toNat s := by
  rw [memset_branches, memsetHalfwords_eq, ite_self]
  rfl

/-- From `t` to `t'`, the bytes from `s` on are set, and no others are touched. -/
structure BytesSet (s : Addr) (c : BitVec 32) (n : Uintptr) (t t' : Traced) : Prop where
  inside : ∀ i < n.toNat, t'.mem (s + BitVec.ofNat 64 i) = c.setWidth 8
  outside : ∀ x, (∀ i < n.toNat, x ≠ s + BitVec.ofNat 64 i) → t'.mem x = t.mem x
  writes : ∀ x, x ∈ t'.writes ↔ (∃ i < n.toNat, x = s + BitVec.ofNat 64 i) ∨ x ∈ t.writes

/-- What is expected of `memset` and of its two branches, both of them at any address: the
bytes are set, and of two memories of which one is the other one moved, the same is true
behind it, wherever `s` was moved to. -/
structure MemsetLaws (s : Addr) (c : BitVec 32) (n : Uintptr) (t : Traced) : Prop where
  bytes : BytesSet s c n t (memsetBytes s c n t)
  halfwords : BytesSet s c n t (memsetHalfwords s c n t)
  either : BytesSet s c n t (memset s c n t)
  shifted : ∀ (s' : Addr) (t' : Traced), (∀ x, t'.mem (s' + x) = t.mem (s + x)) →
    ∀ x, (memset s' c n t').mem (s' + x) = (memset s c n t).mem (s + x)

/-- The `n` bytes from `s` on are the addresses at a distance below `n` from `s`, also where the
addresses wrap. -/
theorem exists_offset {s x : Addr} {n : Uintptr} :
    (∃ i < n.toNat, x = s + BitVec.ofNat 64 i) ↔ (x - s).toNat < n.toNat := by
  constructor
  · rintro ⟨i, hi, rfl⟩
    rwa [Traced.toNat_offset s (Nat.lt_trans hi n.isLt)]
  · exact fun h => ⟨_, h, Traced.eq_offset s x⟩

/-- The loop over bytes sets the bytes from `s` on and nothing else. -/
theorem bytesSet_memsetBytes (s : Addr) (c : BitVec 32) (n : Uintptr) (t : Traced) :
    BytesSet s c n t (memsetBytes s c n t) where
  inside i hi := by
    refine Traced.fill_mem _ (Nat.le_of_lt n.isLt) s t _ ?_
    rwa [Traced.toNat_offset s (Nat.lt_trans hi n.isLt)]
  outside x hx := by
    refine Traced.fill_frame _ (Nat.le_of_lt n.isLt) t fun h => ?_
    obtain ⟨i, hi, heq⟩ := exists_offset.mpr h
    exact hx i hi heq
  writes x := by
    rw [memsetBytes, Traced.mem_writes_fill _ (Nat.le_of_lt n.isLt), exists_offset]

/-- `memset` and its branches set the bytes at every address, even or odd. -/
theorem memset_laws (s : Addr) (c : BitVec 32) (n : Uintptr) (t : Traced) : MemsetLaws s c n t where
  bytes := bytesSet_memsetBytes s c n t
  halfwords := memsetHalfwords_eq s c n t ▸ bytesSet_memsetBytes s c n t
  either := memset_eq s c n t ▸ bytesSet_memsetBytes s c n t
  shifted s' t' hmem x := by
    have hin := bytesSet_memsetBytes s c n t
    have hin' := bytesSet_memsetBytes s' c n t'
    have hoffset : x = BitVec.ofNat 64 x.toNat := by rw [BitVec.ofNat_toNat, BitVec.setWidth_eq]
    rw [memset_eq, memset_eq]
    by_cases hx : x.toNat < n.toNat
    · rw [hoffset]
      exact (hin'.inside _ hx).trans (hin.inside _ hx).symm
    · have hout : ∀ (a : Addr) (i : Nat), i < n.toNat → a + x ≠ a + BitVec.ofNat 64 i := by
        intro a i hi heq
        have hnat := congrArg BitVec.toNat (add_left_cancel heq)
        rw [BitVec.toNat_ofNat, Nat.mod_eq_of_lt (Nat.lt_trans hi n.isLt)] at hnat
        omega
      exact ((hin'.outside _ (hout s')).trans (hmem x)).trans (hin.outside _ (hout s)).symm

end

/-! ### `strncpy` -/

section
variable {m : Memory} {dst src : Addr} {n : Uintptr} {a b : List Byte}

/-- The address behind `n` bytes is at distance `n`. -/
theorem toNat_behind (dst : Addr) (n : Uintptr) : (dst + n - dst).toNat = n.toNat := by
  rw [add_sub_cancel_left]

/-- The terminator goes behind the `n` bytes. -/
theorem strncpy_writes_end (m : Memory) (dst src : Addr) (n : Uintptr) :
    dst + n ∈ (strncpy dst src n (.start m)).writes := by
  rw [strncpy, Traced.writes_store]
  exact List.mem_cons_self

/-- The terminator is stored one byte behind the field, whatever the arguments are. So `strncpy`
is right on no input. -/
theorem not_strncpyLaws (m : Memory) (dst src : Addr) (n : Uintptr) (a : List Byte) :
    ¬ StrncpyLaws m dst src n a := by
  intro h
  have hend := h.writes _ (strncpy_writes_end m dst src n)
  rw [toNat_behind] at hend
  exact Nat.lt_irrefl _ hend

/-! ### `strncat` -/

/-- The first loop comes to the terminator of the destination. -/
theorem run_endTurn {i : BitVec 64} (hb : StringAt (charsAt m dst) i b) {t : Traced}
    (ht : t.mem = m) {k : Nat} (hk : b.length < k) :
    ∃ t', Loop.run .diverges endTurn k (dst + i, t) = .ok (dst + (i + BitVec.ofNat 64 b.length), t')
      ∧ t'.mem = m ∧ t'.writes = t.writes := by
  obtain ⟨k, rfl⟩ := Nat.exists_eq_add_one_of_ne_zero (Nat.ne_zero_of_lt hk)
  -- on the text that is still in front of the terminator
  induction b generalizing i t k with
  | nil =>
      have hend : m (dst + i) = 0#8 := hb
      refine ⟨t.read (dst + i), ?_, ht, rfl⟩
      apply Loop.run_exit
      rw [endTurn, Traced.mem_read, ht, if_neg (fun h => h hend)]
      simp
  | cons x b ih =>
      have hne : m (dst + i) ≠ 0#8 := fun h => hb.2.1 (hb.1.symm.trans h)
      have hlt := Nat.lt_of_succ_lt_succ hk
      obtain ⟨k, rfl⟩ := Nat.exists_eq_add_one_of_ne_zero (Nat.ne_zero_of_lt hlt)
      have hturn : endTurn (dst + i, t) = .ok (.inl (dst + (i + 1), t.read (dst + i))) := by
        rw [endTurn, Traced.mem_read, ht, if_pos hne, add_assoc]
      obtain ⟨t', hrun, hmem, hwrites⟩ := ih hb.2.2 (t := t.read (dst + i)) ht k hlt
      refine ⟨t', ?_, hmem, hwrites⟩
      rw [Loop.run_continue hturn, hrun, Traced.succ_offset, List.length_cons]

/-- `strncat` copies behind the destination. -/
theorem strncat_eq (hb : StringAt (charsAt m dst) 0 b) (src : Addr) (n : Uintptr) :
    ∃ t, t.mem = m ∧ t.writes = [] ∧ strncat dst src n (.start m)
      = .ok (strncpy (dst + BitVec.ofNat 64 b.length) src n t) := by
  obtain ⟨t, hrun, hmem, hwrites⟩ := run_endTurn hb (t := .start m) rfl
    (show b.length < TURNS from hb.length_lt)
  rw [add_zero, zero_add] at hrun
  refine ⟨t, hmem, hwrites, ?_⟩
  rw [strncat, hrun]
  rfl

/-- Distances from an address add up. -/
theorem offset_append (dst : Addr) (k i : Nat) :
    dst + BitVec.ofNat 64 (k + i) = dst + BitVec.ofNat 64 k + BitVec.ofNat 64 i := by
  rw [BitVec.ofNat_add, add_assoc]

/-- The copy is right while the source lasts. The destination ends at a NUL, which no
character of the source that is still to be read can be. -/
theorem strncpy_appended {t : Traced} (ha : StringAt (charsAt m src) 0 a)
    (hb : StringAt (charsAt m dst) 0 b) (ht : t.mem = m) (hw : t.writes = [])
    (hn : n.toNat ≤ a.length) :
    Appended dst n a b (strncpy (dst + BitVec.ofNat 64 b.length) src n t) := by
  have hlt := n.isLt
  have hend : m (dst + BitVec.ofNat 64 b.length) = 0#8 := by
    have hz := hb.terminator
    rwa [zero_add] at hz
  have hchar : ∀ i (hi : i < a.length), m (src + BitVec.ofNat 64 i) = a[i] ∧ a[i] ≠ 0#8 := by
    intro i hi
    have h := ha.getElem i hi
    rwa [zero_add] at h
  -- The copy is forward and the two may overlap: no source byte is overwritten before it is read,
  -- because the first byte written replaces the terminator, and no copied byte is a terminator.
  have hsafe : ∀ i < n.toNat, ∀ j < i,
      dst + BitVec.ofNat 64 b.length + BitVec.ofNat 64 j ≠ src + BitVec.ofNat 64 i := by
    intro i hi j hj h
    have hsame : dst + BitVec.ofNat 64 b.length = src + BitVec.ofNat 64 (i - j) := by
      rw [← add_left_inj (BitVec.ofNat 64 j), h, ← offset_append]
      congr 2
      omega
    have hz := hchar (i - j) (by omega)
    rw [← hsame, hend] at hz
    exact hz.2 hz.1.symm
  constructor
  · intro i hi hin
    have hne : dst + BitVec.ofNat 64 b.length + BitVec.ofNat 64 i
        ≠ dst + BitVec.ofNat 64 b.length + n := by
      intro h
      have hi' := congrArg BitVec.toNat (add_left_cancel h)
      rw [BitVec.toNat_ofNat, Nat.mod_eq_of_lt (by omega)] at hi'
      omega
    rw [offset_append, strncpy, Traced.store_frame _ _ hne,
      Traced.copy_mem (Nat.le_of_lt hlt) _ _ _ hsafe i hin, ht, (hchar i hi).1]
  · rw [Nat.min_eq_left hn, offset_append, BitVec.ofNat_toNat, BitVec.setWidth_eq, strncpy,
      Traced.mem_store, Function.update_self]
  · intro x hx
    rw [strncpy, Traced.writes_store, List.mem_cons, Traced.mem_writes_copy (Nat.le_of_lt hlt),
      hw] at hx
    rw [Nat.min_eq_left hn]
    rcases hx with rfl | hx | hx
    · rw [toNat_behind]
    · exact Nat.le_of_lt hx
    · cases hx

/-- `strncat` is right for the sources that have `n` characters. -/
theorem strncat_appended_iff (ha : StringAt (charsAt m src) 0 a) (hb : StringAt (charsAt m dst) 0 b)
    (n : Uintptr) :
    (∃ t, strncat dst src n (.start m) = .ok t ∧ Appended dst n a b t) ↔ n.toNat ≤ a.length := by
  obtain ⟨t, ht, hw, heq⟩ := strncat_eq hb src n
  constructor
  · rintro ⟨t', ht', happ⟩
    rw [heq, Except.ok.injEq] at ht'
    subst ht'
    have hend := happ.writes _ (by rw [strncpy, Traced.writes_store]; exact List.mem_cons_self)
    rw [toNat_behind] at hend
    omega
  · exact fun hn => ⟨_, heq, strncpy_appended ha hb ht hw hn⟩

/-- `strncpy` always stores behind the `n` bytes. `strncat` is right for the sources that
have `n` characters. -/
theorem not_copyLaws (ha : StringAt (charsAt m src) 0 a) (hb : StringAt (charsAt m dst) 0 b)
    (n : Uintptr) :
    ¬ CopyLaws m dst src n a b
      ∧ ((∃ t, strncat dst src n (.start m) = .ok t ∧ Appended dst n a b t)
        ↔ n.toNat ≤ a.length) :=
  ⟨fun h => not_strncpyLaws m dst src n a h.1, strncat_appended_iff ha hb n⟩

/-- A memory with `"abc"` at 8 and `"de"` at 32. -/
def twoTexts : Memory := fun x =>
  if x = 8 then 97#8 else if x = 9 then 98#8 else if x = 10 then 99#8
  else if x = 32 then 100#8 else if x = 33 then 101#8 else 0#8

/-- Two characters of `"abc"` behind `"de"`. -/
theorem not_copyLaws_texts :
    ¬ CopyLaws twoTexts 32 8 2 [97#8, 98#8, 99#8] [100#8, 101#8]
      ∧ ((∃ t, strncat 32 8 2 (.start twoTexts) = .ok t ∧
          Appended 32 2 [97#8, 98#8, 99#8] [100#8, 101#8] t)
        ↔ (2 : Uintptr).toNat ≤ [97#8, 98#8, 99#8].length) := by
  have hsrc : StringAt (charsAt twoTexts 8) 0 [97#8, 98#8, 99#8] :=
    ⟨rfl, by decide, rfl, by decide, rfl, by decide, rfl⟩
  have hdst : StringAt (charsAt twoTexts 32) 0 [100#8, 101#8] :=
    ⟨rfl, by decide, rfl, by decide, rfl⟩
  exact not_copyLaws hsrc hdst 2

/-- One character of `"a"` makes `strncpy` store two bytes. -/
theorem not_copyLaws_letter : ¬ CopyLaws (fun x => if x = 8 then 97#8 else 0#8) 0 8 1 [97#8] [] :=
  fun h => absurd (h.1.writes 1 (strncpy_writes_end _ 0 8 1)) (by decide)

end

end MString
