import MString.Mlibc.Kbuf
import MString.Proofs.Mlibc.Copies

/-!
# `MString.Proofs.Mlibc.Kbuf`: runs of `kbuf_insert`

A call that does not fill the buffer is right (`insert_append`). One that fills it to the
last byte stores the terminator of `strncpy` behind `space`. And one that starts again
clears `cur_size` bytes from the start of the structure, not of `space`: as long as these
are no more than the 8 bytes of `cur_size` nothing is lost, from 9 on `size` is damaged.

* `InsertLaws`: what is expected of a call.
* `InsertFits`: the calls that keep it.
* `InsertsSafe`, `InsertsFit`: the same for the calls of a run (`insertsSafe_iff`).
-/

set_option autoImplicit false

namespace MString

open ByteMemory

/-- The address is in `__kbuf`. -/
def InKbuf (kbuf x : Addr) : Prop := (x - kbuf).toNat < 16 + KBUF_SIZE

instance (kbuf x : Addr) : Decidable (InKbuf kbuf x) := by
  unfold InKbuf
  infer_instance

/-- A call: what the rest of memory holds then, and the two arguments. The string is not a
part of the buffer. -/
structure Insert (kbuf : Addr) where
  outside : Memory
  s : Addr
  slen : Uintptr
  apart : slen.toNat ≤ KBUF_SIZE → ∀ i < slen.toNat, ¬ InKbuf kbuf (s + BitVec.ofNat 64 i)

/-- Memory at the call. -/
def Insert.memory {kbuf : Addr} (c : Insert kbuf) (m : Memory) : Memory :=
  fun x => if InKbuf kbuf x then m x else c.outside x

/-- What the call returns, and the memory behind it. -/
def Insert.run {kbuf : Addr} (c : Insert kbuf) (m : Memory) : Uintptr × Traced :=
  kbufInsert kbuf c.s c.slen (.start (c.memory m))

/-- What is expected of a call. -/
structure InsertLaws {kbuf : Addr} (c : Insert kbuf) (m : Memory) : Prop where
  size : load (c.run m).2.mem (kbufSize kbuf) = BitVec.ofNat 64 KBUF_SIZE
  cur : (load (c.run m).2.mem kbuf).toNat ≤ KBUF_SIZE
  /-- Nothing but `space` and `cur_size` is written. -/
  writes : ∀ x ∈ (c.run m).2.writes,
    (x - kbufSpace kbuf).toNat < KBUF_SIZE ∨ (x - kbuf).toNat < 8
  result : c.slen.toNat ≤ KBUF_SIZE → (c.run m).1 = c.slen
  /-- The inserted bytes end at `cur_size`. -/
  inserted : c.slen.toNat ≤ KBUF_SIZE → c.slen.toNat ≤ (load (c.run m).2.mem kbuf).toNat ∧
    ∀ i < c.slen.toNat,
      (c.run m).2.mem (kbufSpace kbuf
        + BitVec.ofNat 64 ((load (c.run m).2.mem kbuf).toNat - c.slen.toNat + i))
        = c.memory m (c.s + BitVec.ofNat 64 i)

/-- The string is refused, or it does not fill the buffer, or the buffer starts again with
no more than 8 bytes in it and the string does not fill it. -/
def InsertFits {kbuf : Addr} (c : Insert kbuf) (m : Memory) : Prop :=
  KBUF_SIZE < c.slen.toNat
    ∨ (load m kbuf).toNat + c.slen.toNat < KBUF_SIZE
    ∨ KBUF_SIZE < (load m kbuf).toNat + c.slen.toNat ∧ (load m kbuf).toNat ≤ 8
      ∧ c.slen.toNat < KBUF_SIZE

/-- All calls of a run are right. -/
def InsertsSafe {kbuf : Addr} : List (Insert kbuf) → Memory → Prop
  | [], _ => True
  | c :: cs, m => InsertLaws c m ∧ InsertsSafe cs (c.run m).2.mem

/-- All calls of a run fit. -/
def InsertsFit {kbuf : Addr} : List (Insert kbuf) → Memory → Prop
  | [], _ => True
  | c :: cs, m => InsertFits c m ∧ InsertsFit cs (c.run m).2.mem

/-! ### Behind the check for room -/

/-- The second half of `kbuf_insert`. -/
def kbufAppend (kbuf s : Addr) (slen : Uintptr) (t : Traced) : Traced :=
  let t := strncpy (kbufSpace kbuf + load t.mem kbuf) s slen t
  t.storeWord kbuf (load t.mem kbuf + slen)

section
variable {kbuf s : Addr} {slen : Uintptr} {t : Traced} {n : Nat}

/-- The text starts behind the two words of the header. -/
theorem kbufSpace_eq (kbuf : Addr) (w : Word) :
    kbufSpace kbuf + w = kbuf + BitVec.ofNat 64 (16 + w.toNat) := by
  rw [kbufSpace, add_assoc, BitVec.ofNat_add, BitVec.ofNat_toNat, BitVec.setWidth_eq]
  rfl

/-- The bytes behind the first 16 go to `strncpy`, the first 8 to `cur_size`. -/
theorem mem_writes_kbufAppend (hcur : (load t.mem kbuf).toNat = n)
    (hroom : n + slen.toNat ≤ KBUF_SIZE) (x : Addr) :
    x ∈ (kbufAppend kbuf s slen t).writes ↔ (x - kbuf).toNat < 8
      ∨ (16 + n ≤ (x - kbuf).toNat ∧ (x - kbuf).toNat ≤ 16 + n + slen.toNat) ∨ x ∈ t.writes := by
  have hlt := slen.isLt
  have hsize : KBUF_SIZE = 4096 := rfl
  have hend : x = kbuf + BitVec.ofNat 64 (16 + n) + slen
      ↔ (x - kbuf).toNat = 16 + n + slen.toNat := by
    have hat : kbuf + BitVec.ofNat 64 (16 + n) + slen
        = kbuf + BitVec.ofNat 64 (16 + n + slen.toNat) := by
      rw [offset_append kbuf (16 + n) slen.toNat, BitVec.ofNat_toNat, BitVec.setWidth_eq]
    rw [hat]
    constructor
    · rintro rfl
      rw [Traced.toNat_offset _ (by omega)]
    · intro hx
      rw [← hx]
      exact Traced.eq_offset kbuf x
  rw [kbufAppend, Traced.mem_writes_storeWord, strncpy, Traced.writes_store, List.mem_cons,
    Traced.mem_writes_copy (Nat.le_of_lt hlt), kbufSpace_eq, hcur, hend,
    Traced.area_offset (by omega)]
  refine or_congr_right ?_
  rw [← or_assoc]
  refine or_congr_left ?_
  omega

/-- `strncpy` leaves what is in front of its area alone. -/
theorem strncpy_frame (hroom : n + slen.toNat ≤ KBUF_SIZE) (s : Addr) (t : Traced) {x : Addr}
    (hx : (x - kbuf).toNat < 16 + n) :
    (strncpy (kbuf + BitVec.ofNat 64 (16 + n)) s slen t).mem x = t.mem x := by
  have hlt := slen.isLt
  have hsize : KBUF_SIZE = 4096 := rfl
  have hend : x ≠ kbuf + BitVec.ofNat 64 (16 + n) + slen := by
    rintro rfl
    have hoff : kbuf + BitVec.ofNat 64 (16 + n) + slen - kbuf
        = BitVec.ofNat 64 (16 + n) + slen := by
      rw [add_assoc, add_sub_cancel_left]
    rw [hoff, BitVec.toNat_add, BitVec.toNat_ofNat] at hx
    omega
  have hout : ¬ (x - (kbuf + BitVec.ofNat 64 (16 + n))).toNat < slen.toNat := by
    rw [Traced.area_offset (by omega)]
    omega
  rw [strncpy, Traced.store_frame _ _ hend, Traced.copy_frame (Nat.le_of_lt hlt) _ _ hout]

/-- The header is not touched by the copy. -/
theorem load_strncpy (hroom : n + slen.toNat ≤ KBUF_SIZE) (s : Addr) (t : Traced) {k : Nat}
    (hk : k ≤ 8) :
    load (strncpy (kbuf + BitVec.ofNat 64 (16 + n)) s slen t).mem (kbuf + BitVec.ofNat 64 k)
      = load t.mem (kbuf + BitVec.ofNat 64 k) := by
  apply load_congr
  intro x hx
  apply strncpy_frame hroom
  rw [Traced.area_offset (by omega)] at hx
  omega

/-- A store to the first word leaves the rest alone. -/
theorem store_frame_kbuf {m : Memory} {w : Word} {x : Addr} (hx : 8 ≤ (x - kbuf).toNat) :
    store m kbuf w x = m x :=
  dif_neg (by omega)

/-- A store to `cur_size` leaves `size` alone. -/
theorem load_size_store (m : Memory) (w : Word) :
    load (store m kbuf w) (kbufSize kbuf) = load m (kbufSize kbuf) := by
  apply load_congr
  intro x hx
  rw [kbufSize, show (8 : BitVec 64) = BitVec.ofNat 64 8 from rfl,
    Traced.area_offset (by omega)] at hx
  exact store_frame_kbuf hx.1

/-- What the second half leaves in memory. -/
theorem kbufAppend_mem (hcur : (load t.mem kbuf).toNat = n)
    (hroom : n + slen.toNat ≤ KBUF_SIZE)
    (hsrc : ∀ i < slen.toNat, ¬ InKbuf kbuf (s + BitVec.ofNat 64 i)) :
    (load (kbufAppend kbuf s slen t).mem kbuf).toNat = n + slen.toNat
      ∧ load (kbufAppend kbuf s slen t).mem (kbufSize kbuf) = load t.mem (kbufSize kbuf)
      ∧ ∀ i < slen.toNat, (kbufAppend kbuf s slen t).mem (kbufSpace kbuf + BitVec.ofNat 64 (n + i))
          = t.mem (s + BitVec.ofNat 64 i) := by
  have hlt := slen.isLt
  have hsize : KBUF_SIZE = 4096 := rfl
  have hdst : kbufSpace kbuf + load t.mem kbuf = kbuf + BitVec.ofNat 64 (16 + n) := by
    rw [kbufSpace_eq, hcur]
  have hload : load (strncpy (kbufSpace kbuf + load t.mem kbuf) s slen t).mem kbuf
      = load t.mem kbuf := by
    have h := @load_strncpy kbuf slen n hroom s t 0 (Nat.zero_le _)
    rw [hdst]
    simpa using h
  refine ⟨?_, ?_, fun i hi => ?_⟩
  · show (load (store _ kbuf _) kbuf).toNat = _
    rw [load_store, hload, BitVec.toNat_add, hcur, Nat.mod_eq_of_lt (by omega)]
  · show load (store _ kbuf _) (kbufSize kbuf) = _
    rw [load_size_store, hdst]
    exact load_strncpy hroom s t (Nat.le_refl 8)
  · have hpos : kbufSpace kbuf + BitVec.ofNat 64 (n + i)
        = kbuf + BitVec.ofNat 64 (16 + n) + BitVec.ofNat 64 i := by
      rw [kbufSpace_eq, BitVec.toNat_ofNat, Nat.mod_eq_of_lt (by omega), ← offset_append]
      congr 2
      omega
    have hoff : (kbuf + BitVec.ofNat 64 (16 + n) + BitVec.ofNat 64 i - kbuf).toNat
        = 16 + n + i := by
      rw [← offset_append, Traced.toNat_offset _ (by omega)]
    -- The source is outside of the structure, so it is never overwritten.
    have hsafe : ∀ i < slen.toNat, ∀ j < i, kbuf + BitVec.ofNat 64 (16 + n) + BitVec.ofNat 64 j
        ≠ s + BitVec.ofNat 64 i := by
      intro i hi j hj heq
      refine hsrc i hi ?_
      rw [← heq, InKbuf, ← offset_append, Traced.toNat_offset _ (by omega)]
      omega
    have hne : kbuf + BitVec.ofNat 64 (16 + n) + BitVec.ofNat 64 i
        ≠ kbuf + BitVec.ofNat 64 (16 + n) + slen := by
      intro heq
      have hi' := congrArg BitVec.toNat (add_left_cancel heq)
      rw [BitVec.toNat_ofNat, Nat.mod_eq_of_lt (by omega)] at hi'
      omega
    show store _ kbuf _ _ = _
    rw [hpos, store_frame_kbuf (by omega), hdst, strncpy, Traced.store_frame _ _ hne,
      Traced.copy_mem (Nat.le_of_lt hlt) _ _ _ hsafe i hi]

/-! ### The three ways through `kbuf_insert` -/

/-- `__kbuf` when it starts again. -/
def kbufRestart (kbuf : Addr) (t : Traced) : Traced :=
  (memset kbuf 0 (load t.mem kbuf) t).storeWord kbuf 0

/-- A text that is longer than the buffer is refused. -/
theorem kbufInsert_refused (hsize : load t.mem (kbufSize kbuf) = BitVec.ofNat 64 KBUF_SIZE)
    (hlong : KBUF_SIZE < slen.toNat) : kbufInsert kbuf s slen t = (-1, t) := by
  rw [kbufInsert, hsize, if_pos (by rwa [gt_iff_lt, BitVec.lt_def])]

/-- One that fits behind the others is appended. -/
theorem kbufInsert_append (hsize : load t.mem (kbufSize kbuf) = BitVec.ofNat 64 KBUF_SIZE)
    (hroom : (load t.mem kbuf).toNat + slen.toNat ≤ KBUF_SIZE) :
    kbufInsert kbuf s slen t = (slen, kbufAppend kbuf s slen t) := by
  have hfull : KBUF_SIZE = 4096 := rfl
  have hfree : (BitVec.ofNat 64 KBUF_SIZE - load t.mem kbuf).toNat
      = KBUF_SIZE - (load t.mem kbuf).toNat :=
    BitVec.toNat_sub_of_le (by
      rw [BitVec.le_def]
      show _ ≤ KBUF_SIZE
      omega)
  have hshort : ¬ slen > BitVec.ofNat 64 KBUF_SIZE := by
    rw [gt_iff_lt, BitVec.lt_def]
    show ¬ KBUF_SIZE < _
    omega
  have hfits : ¬ slen > BitVec.ofNat 64 KBUF_SIZE - load t.mem kbuf := by
    rw [gt_iff_lt, BitVec.lt_def, hfree]
    omega
  rw [kbufInsert, hsize, if_neg hshort]
  dsimp only
  rw [if_neg hfits]
  rfl

/-- One that does not is stored at the start, and the old text is wiped. -/
theorem kbufInsert_restart (hsize : load t.mem (kbufSize kbuf) = BitVec.ofNat 64 KBUF_SIZE)
    (hcur : (load t.mem kbuf).toNat ≤ KBUF_SIZE) (hshort : slen.toNat ≤ KBUF_SIZE)
    (hfull : KBUF_SIZE < (load t.mem kbuf).toNat + slen.toNat) :
    kbufInsert kbuf s slen t = (slen, kbufAppend kbuf s slen (kbufRestart kbuf t)) := by
  have hfree : (BitVec.ofNat 64 KBUF_SIZE - load t.mem kbuf).toNat
      = KBUF_SIZE - (load t.mem kbuf).toNat := BitVec.toNat_sub_of_le hcur
  have hshort' : ¬ slen > BitVec.ofNat 64 KBUF_SIZE := by
    rw [gt_iff_lt, BitVec.lt_def]
    exact Nat.not_lt.mpr hshort
  have hover : slen > BitVec.ofNat 64 KBUF_SIZE - load t.mem kbuf := by
    rw [gt_iff_lt, BitVec.lt_def, hfree]
    omega
  rw [kbufInsert, hsize, if_neg hshort']
  dsimp only
  rw [if_pos hover]
  rfl

/-- The wiping goes over the header: it clears as many bytes from the start of the buffer as it
held. -/
theorem mem_writes_kbufRestart (x : Addr) :
    x ∈ (kbufRestart kbuf t).writes ↔ (x - kbuf).toNat < 8
      ∨ (x - kbuf).toNat < (load t.mem kbuf).toNat ∨ x ∈ t.writes := by
  rw [kbufRestart, Traced.mem_writes_storeWord, memset_eq,
    Traced.mem_writes_fill _ (Nat.le_of_lt (load t.mem kbuf).isLt)]

/-- After it, the buffer is empty. -/
theorem load_kbufRestart : load (kbufRestart kbuf t).mem kbuf = 0 := load_store 0

/-- The restart changes nothing behind the bytes it clears. -/
theorem kbufRestart_frame {x : Addr} (hx : 8 ≤ (x - kbuf).toNat)
    (hcur : (load t.mem kbuf).toNat ≤ (x - kbuf).toNat) :
    (kbufRestart kbuf t).mem x = t.mem x := by
  show store _ kbuf _ x = _
  rw [store_frame_kbuf hx, memset_eq,
    Traced.fill_frame _ (Nat.le_of_lt (load t.mem kbuf).isLt) _ (by omega)]

end

/-! ### One call -/

section
variable {kbuf : Addr} {c : Insert kbuf} {m : Memory}

/-- Inside of the buffer, the caller's text does not show. -/
theorem memory_of_inKbuf {x : Addr} (hx : InKbuf kbuf x) : c.memory m x = m x := if_pos hx

/-- So the words of the header are those of the buffer, ... -/
theorem load_memory {k : Nat} (hk : k ≤ 8) :
    load (c.memory m) (kbuf + BitVec.ofNat 64 k) = load m (kbuf + BitVec.ofNat 64 k) := by
  apply load_congr
  intro x hx
  rw [Traced.area_offset (by omega)] at hx
  apply memory_of_inKbuf
  rw [InKbuf]
  omega

/-- ... the count ... -/
theorem load_memory_cur : load (c.memory m) kbuf = load m kbuf := by
  simpa using @load_memory kbuf c m 0 (Nat.zero_le _)

/-- ... and the size. -/
theorem load_memory_size : load (c.memory m) (kbufSize kbuf) = load m (kbufSize kbuf) :=
  load_memory (Nat.le_refl 8)

/-- A call that ends with a copy to `n`, and writes nothing but the header before. -/
theorem insertLaws_append {t : Traced} {n : Nat}
    (hrun : c.run m = (c.slen, kbufAppend kbuf c.s c.slen t))
    (hcur : (load t.mem kbuf).toNat = n) (hroom : n + c.slen.toNat < KBUF_SIZE)
    (hsize : load t.mem (kbufSize kbuf) = BitVec.ofNat 64 KBUF_SIZE)
    (hwrites : ∀ x ∈ t.writes, (x - kbuf).toNat < 8)
    (hsource : ∀ x, ¬ InKbuf kbuf x → t.mem x = c.memory m x) : InsertLaws c m := by
  -- The text is shorter than the buffer and lies outside, so it is copied as it is.
  have hshort : c.slen.toNat ≤ KBUF_SIZE := by omega
  have hsrc := c.apart hshort
  obtain ⟨hcur', hsize', hbytes⟩ := kbufAppend_mem hcur (Nat.le_of_lt hroom) hsrc
  have hmem : (c.run m).2 = kbufAppend kbuf c.s c.slen t := by rw [hrun]
  exact
    { size := by rw [hmem, hsize', hsize]
      cur := by rw [hmem, hcur']; omega
      writes := by
        -- The stores are those of the text, of `cur`, and of the caller before.
        intro x hx
        rw [hmem, mem_writes_kbufAppend hcur (Nat.le_of_lt hroom)] at hx
        rw [kbufSpace, show (16 : BitVec 64) = BitVec.ofNat 64 16 from rfl,
          Traced.area_offset (by decide)]
        rcases hx with hx | hx | hx
        · exact .inr hx
        · left
          omega
        · exact .inr (hwrites x hx)
      result := fun _ => by rw [hrun]
      inserted := by
        intro _
        rw [hmem, hcur']
        refine ⟨Nat.le_add_left _ _, fun i hi => ?_⟩
        rw [Nat.add_sub_cancel, hbytes i hi, hsource _ (hsrc i hi)] }

/-- A byte that a call must not write. -/
theorem not_insertLaws {k : Nat} (hk : 8 ≤ k) (hk' : k < 16 ∨ 16 + KBUF_SIZE ≤ k) (hlt : k < 2 ^ 64)
    (h : kbuf + BitVec.ofNat 64 k ∈ (c.run m).2.writes) : ¬ InsertLaws c m := by
  intro hlaws
  have hx := hlaws.writes _ h
  rw [kbufSpace, show (16 : BitVec 64) = BitVec.ofNat 64 16 from rfl,
    Traced.area_offset (by decide), Traced.toNat_offset _ hlt] at hx
  omega

/-- A string longer than the buffer is refused, and nothing is written. -/
theorem insertLaws_refused (hsize : load m (kbufSize kbuf) = BitVec.ofNat 64 KBUF_SIZE)
    (hcur : (load m kbuf).toNat ≤ KBUF_SIZE) (hlong : KBUF_SIZE < c.slen.toNat) :
    InsertLaws c m := by
  have hsize' : load (Traced.start (c.memory m)).mem (kbufSize kbuf) = BitVec.ofNat 64 KBUF_SIZE :=
    load_memory_size.trans hsize
  have hrun : c.run m = (-1, .start (c.memory m)) := kbufInsert_refused hsize' hlong
  exact
    { size := by rw [hrun]; exact hsize'
      cur := by rw [hrun]; show (load (c.memory m) kbuf).toNat ≤ _; rwa [load_memory_cur]
      writes := by rw [hrun]; exact fun x hx => absurd hx List.not_mem_nil
      result := fun h => by omega
      inserted := fun h => by omega }

/-- A call that ends with a copy to `n` is right when the copy does not fill the buffer:
the terminator is stored behind the copy. -/
theorem insertLaws_append_iff {t : Traced} {n : Nat}
    (hrun : c.run m = (c.slen, kbufAppend kbuf c.s c.slen t))
    (hcur : (load t.mem kbuf).toNat = n) (hroom : n + c.slen.toNat ≤ KBUF_SIZE)
    (hsize : load t.mem (kbufSize kbuf) = BitVec.ofNat 64 KBUF_SIZE)
    (hwrites : ∀ x ∈ t.writes, (x - kbuf).toNat < 8)
    (hsource : ∀ x, ¬ InKbuf kbuf x → t.mem x = c.memory m x) :
    InsertLaws c m ↔ n + c.slen.toNat < KBUF_SIZE := by
  have hfull : KBUF_SIZE = 4096 := rfl
  constructor
  · intro hlaws
    by_contra hexact
    refine not_insertLaws (k := 16 + KBUF_SIZE) (by omega) (by omega) (by omega) ?_ hlaws
    rw [hrun, mem_writes_kbufAppend hcur hroom, Traced.toNat_offset _ (by omega)]
    omega
  · exact fun hlt => insertLaws_append hrun hcur hlt hsize hwrites hsource

/-- A restart with no more than 8 bytes in the buffer clears nothing but `cur_size`. -/
theorem insertLaws_restart_iff (hsize : load m (kbufSize kbuf) = BitVec.ofNat 64 KBUF_SIZE)
    (hrun : c.run m = (c.slen, kbufAppend kbuf c.s c.slen (kbufRestart kbuf (.start (c.memory m)))))
    (hshort : c.slen.toNat ≤ KBUF_SIZE) (hsmall : (load m kbuf).toNat ≤ 8) :
    InsertLaws c m ↔ c.slen.toNat < KBUF_SIZE := by
  have hload : load (Traced.start (c.memory m)).mem kbuf = load m kbuf := load_memory_cur
  have hn : (load (kbufRestart kbuf (.start (c.memory m))).mem kbuf).toNat = 0 := by
    rw [load_kbufRestart]
    rfl
  rw [← Nat.zero_add c.slen.toNat]
  refine insertLaws_append_iff hrun hn (by omega) ?_ ?_ ?_
  · have hsize' : load (c.memory m) (kbufSize kbuf) = BitVec.ofNat 64 KBUF_SIZE :=
      load_memory_size.trans hsize
    rw [← hsize']
    apply load_congr
    intro x hx
    rw [kbufSize, show (8 : BitVec 64) = BitVec.ofNat 64 8 from rfl,
      Traced.area_offset (by decide)] at hx
    exact kbufRestart_frame hx.1 (by rw [hload]; omega)
  · intro x hx
    rw [mem_writes_kbufRestart, hload] at hx
    rcases hx with hx | hx | hx
    · exact hx
    · omega
    · exact absurd hx List.not_mem_nil
  · intro x hx
    rw [InKbuf] at hx
    exact kbufRestart_frame (by omega) (by rw [hload]; omega)

/-- A restart with more in the buffer clears the first byte of `size`. -/
theorem not_insertLaws_restart
    (hrun : c.run m = (c.slen, kbufAppend kbuf c.s c.slen (kbufRestart kbuf (.start (c.memory m)))))
    (hshort : c.slen.toNat ≤ KBUF_SIZE) (hlarge : 8 < (load m kbuf).toNat) :
    ¬ InsertLaws c m := by
  have hload : load (Traced.start (c.memory m)).mem kbuf = load m kbuf := load_memory_cur
  have hn : (load (kbufRestart kbuf (.start (c.memory m))).mem kbuf).toNat = 0 := by
    rw [load_kbufRestart]
    rfl
  refine not_insertLaws (k := 8) (by omega) (by omega) (by omega) ?_
  rw [hrun, mem_writes_kbufAppend hn (by omega), mem_writes_kbufRestart, hload,
    Traced.toNat_offset _ (by omega)]
  omega

/-- One call, exactly. As long as no more than 8 bytes are wiped, they are those of the count,
which is cleared anyway. -/
theorem insertLaws_iff (hsize : load m (kbufSize kbuf) = BitVec.ofNat 64 KBUF_SIZE)
    (hcur : (load m kbuf).toNat ≤ KBUF_SIZE) : InsertLaws c m ↔ InsertFits c m := by
  have hsize' : load (Traced.start (c.memory m)).mem (kbufSize kbuf) = BitVec.ofNat 64 KBUF_SIZE :=
    load_memory_size.trans hsize
  have hload : load (Traced.start (c.memory m)).mem kbuf = load m kbuf := load_memory_cur
  rw [InsertFits]
  by_cases hlong : KBUF_SIZE < c.slen.toNat
  · exact iff_of_true (insertLaws_refused hsize hcur hlong) (.inl hlong)
  by_cases hroom : (load m kbuf).toNat + c.slen.toNat ≤ KBUF_SIZE
  · have hrun : c.run m = (c.slen, kbufAppend kbuf c.s c.slen (.start (c.memory m))) :=
      kbufInsert_append hsize' (by rwa [hload])
    rw [insertLaws_append_iff hrun (congrArg BitVec.toNat hload) hroom hsize'
      (fun x hx => absurd hx List.not_mem_nil) (fun x _ => rfl)]
    omega
  · have hrun : c.run m
        = (c.slen, kbufAppend kbuf c.s c.slen (kbufRestart kbuf (.start (c.memory m)))) :=
      kbufInsert_restart hsize' (by rwa [hload]) (by omega) (by rw [hload]; omega)
    by_cases hsmall : (load m kbuf).toNat ≤ 8
    · rw [insertLaws_restart_iff hsize hrun (by omega) hsmall]
      omega
    · exact iff_of_false (not_insertLaws_restart hrun (by omega) (by omega)) (by omega)

/-! ### Runs -/

/-- The calls of a run are right as long as they fit. -/
theorem insertsSafe_iff_of_size (cs : List (Insert kbuf))
    (hsize : load m (kbufSize kbuf) = BitVec.ofNat 64 KBUF_SIZE)
    (hcur : (load m kbuf).toNat ≤ KBUF_SIZE) : InsertsSafe cs m ↔ InsertsFit cs m := by
  induction cs generalizing m with
  | nil => exact Iff.rfl
  | cons c cs ih =>
      rw [InsertsSafe, InsertsFit, insertLaws_iff hsize hcur]
      refine and_congr_right fun hfits => ?_
      have hlaws := (insertLaws_iff hsize hcur).mpr hfits
      exact ih hlaws.size hlaws.cur

/-- The static buffer is empty. -/
theorem load_kbufStatic (kbuf : Addr) (m : Memory) : load (kbufStatic kbuf m) kbuf = 0 := by
  rw [← @load_store m kbuf 0]
  apply load_congr
  intro x hx
  refine dif_neg ?_
  rw [kbufSize, show (8 : BitVec 64) = BitVec.ofNat 64 8 from rfl, Traced.area_offset (by decide)]
  omega

/-- From the buffer as it is linked, for any sequence of calls. -/
theorem insertsSafe_iff (kbuf : Addr) (m : Memory) (cs : List (Insert kbuf)) :
    InsertsSafe cs (kbufStatic kbuf m) ↔ InsertsFit cs (kbufStatic kbuf m) :=
  insertsSafe_iff_of_size cs (load_store _) (by rw [load_kbufStatic]; decide)

/-- A string of 4096 bytes, 64 KB behind the buffer. -/
def insertWhole : Insert 0 where
  outside _ := 0#8
  s := 0x10000
  slen := 4096
  apart _ i hi := by
    have hi' : i < 4096 := hi
    have hat : (0x10000 : BitVec 64) + BitVec.ofNat 64 i = 0 + BitVec.ofNat 64 (0x10000 + i) := by
      rw [zero_add, BitVec.ofNat_add]
      rfl
    have hsize : KBUF_SIZE = 4096 := rfl
    rw [InKbuf, hat, Traced.toNat_offset _ (by omega)]
    omega

/-- A string that fills the buffer, as the first one. -/
theorem not_insertsSafe_whole : ¬ InsertsSafe [insertWhole] (kbufStatic 0 fun _ => 0#8) := by
  intro h
  have hcur : (load (kbufStatic 0 fun _ => 0#8) 0).toNat = 0 := by
    rw [load_kbufStatic]
    rfl
  have hsize : load (kbufStatic 0 fun _ => 0#8) (kbufSize 0) = BitVec.ofNat 64 KBUF_SIZE :=
    load_store _
  have hfits := (insertLaws_iff hsize (by rw [hcur]; decide)).mp h.1
  rw [InsertFits, hcur] at hfits
  exact absurd hfits (by decide)

end

end MString
