import Mathlib.Data.BitVec
import Mathlib.Tactic.FinCases

/-!
# `MString.Lib.ByteMemory`: a flat memory of bytes

Memory is a function from 64-bit addresses to bytes. An area is named by its
first address `a` and its length `n`, and `x` lies in it when `(x - a).toNat < n`:
the distance is taken round the top of the address space, so no lemma here asks
that an area does not wrap.

* `Agree a n m m'`: the two memories hold the same bytes in the area. A store
  agrees with the memory before it on every area it misses (`agree_write`), and a
  load sees only its own area (`read_congr`, `load_congr`).
* `load` and `store` are the 64-bit accesses, least significant byte first; `ofWords`
  spells a memory out that is given by words.
* `Holds m a ws`: the quadwords `ws` stand one above the other from `a` on, as on
  a stack.

Nothing here mentions a program.
-/

set_option autoImplicit false

namespace ByteMemory

abbrev Addr := BitVec 64
abbrev Byte := BitVec 8
abbrev Word := BitVec 64
abbrev Memory := Addr → Byte

/-- `n` bytes of data stored from `a` on. -/
def write {n : Nat} (m : Memory) (a : Addr) (data : Fin n → Byte) : Memory :=
  fun x => if h : (x - a).toNat < n then data ⟨(x - a).toNat, h⟩ else m x

/-- The `n` bytes from `a` on. -/
def read (m : Memory) (a : Addr) (n : Nat) : Fin n → Byte :=
  fun i => m (a + BitVec.ofNat 64 i)

/-- The bytes of a quadword, least significant first. -/
def bytesOf (w : Word) : Fin 8 → Byte :=
  fun i => w.extractLsb' (8 * i) 8

/-- The quadword with the given bytes. -/
def ofBytes (b : Fin 8 → Byte) : Word :=
  b 7 ++ b 6 ++ b 5 ++ b 4 ++ b 3 ++ b 2 ++ b 1 ++ b 0

/-- `movq a, %r`. -/
def load (m : Memory) (a : Addr) : Word := ofBytes (read m a 8)

/-- `movq %r, a`. -/
def store (m : Memory) (a : Addr) (w : Word) : Memory := write m a (bytesOf w)

/-- A word is made of its bytes, ... -/
theorem ofBytes_bytesOf (w : Word) : ofBytes (bytesOf w) = w := by
  apply BitVec.eq_of_getLsbD_eq
  intro i hi
  simp only [ofBytes, bytesOf, BitVec.getLsbD_append, BitVec.getLsbD_extractLsb']
  grind

/-- ... and bytes make a word that has them. -/
theorem bytesOf_ofBytes (b : Fin 8 → Byte) : bytesOf (ofBytes b) = b := by
  funext i
  apply BitVec.eq_of_getLsbD_eq
  intro j hj
  simp only [ofBytes, bytesOf, BitVec.getLsbD_append, BitVec.getLsbD_extractLsb']
  fin_cases i <;> simp <;> grind

/-- A byte of a quadword in memory. -/
theorem byte_of_load (m : Memory) (a : Addr) (i : Fin 8) :
    m (a + BitVec.ofNat 64 i) = bytesOf (load m a) i := by
  rw [load, bytesOf_ofBytes, read]

/-- The bytes of a memory that is given by its words at the multiples of 8. -/
def ofWords (w : Addr → Word) : Memory :=
  fun x => bytesOf (w (x - BitVec.ofNat 64 (x.toNat % 8))) ⟨x.toNat % 8, Nat.mod_lt _ (by decide)⟩

/-- In a memory made of words, an aligned load finds the word. -/
theorem load_ofWords (w : Addr → Word) {a : Addr} (ha : a.toNat % 8 = 0) :
    load (ofWords w) a = w a := by
  have hbyte : ∀ i : Fin 8, ofWords w (a + BitVec.ofNat 64 i) = bytesOf (w a) i := by
    intro i
    have hi : (a + BitVec.ofNat 64 i).toNat % 8 = i := by
      rw [BitVec.toNat_add, BitVec.toNat_ofNat]
      omega
    rw [ofWords]
    simp only [hi, add_sub_cancel_right]
  rw [load, show read (ofWords w) a 8 = bytesOf (w a) from funext hbyte, ofBytes_bytesOf]

/-! ### Areas -/

/-- The memories hold the same `n` bytes from `a` on. -/
def Agree (a : Addr) (n : Nat) (m m' : Memory) : Prop :=
  ∀ x : Addr, (x - a).toNat < n → m' x = m x

variable {m m' m'' : Memory} {a b : Addr} {n k : Nat}

/-- A memory agrees with itself, ... -/
theorem Agree.refl : Agree a n m m := fun _ _ => rfl

/-- ... and agreement is passed on. -/
theorem Agree.trans (h : Agree a n m m') (h' : Agree a n m' m'') : Agree a n m m'' :=
  fun x hx => (h' x hx).trans (h x hx)

/-- The distance from `a` goes through `b`. -/
theorem toNat_sub_le (x a b : Addr) : (x - a).toNat ≤ (x - b).toNat + (b - a).toNat := by
  rw [← sub_add_sub_cancel x b a, BitVec.toNat_add]
  exact Nat.mod_le _ _

/-- Agreement on an area is agreement on every area inside it. -/
theorem Agree.sub (h : Agree a n m m') (hb : (b - a).toNat + k ≤ n) : Agree b k m m' := by
  intro x hx
  apply h x
  have hle := toNat_sub_le x a b
  omega

/-- Where two memories agree, they do so on a first part. -/
theorem Agree.take (h : Agree a n m m') (hk : k ≤ n) : Agree a k m m' :=
  fun x hx => h x (Nat.lt_of_lt_of_le hx hk)

/-- The area `d` further up. -/
theorem Agree.up (h : Agree a n m m') (d : Word) (hd : d.toNat + k ≤ n) : Agree (a + d) k m m' :=
  h.sub (by rw [add_sub_cancel_left]; exact hd)

/-- Agreement from the end of an area on, round to its start, is agreement outside of
it. -/
theorem Agree.outside (h : Agree b (2 ^ 64 - n) m m') (hb : (b - a).toNat = n) {x : Addr}
    (hx : ¬ (x - a).toNat < n) : m' x = m x := by
  apply h
  rw [← sub_sub_sub_cancel_right x b a, BitVec.toNat_sub]
  omega

/-- Memories that agree on an area read alike there, ... -/
theorem read_congr (h : Agree a n m m') : read m' a n = read m a n := by
  funext i
  apply h
  rw [add_sub_cancel_left, BitVec.toNat_ofNat]
  exact Nat.lt_of_le_of_lt (Nat.mod_le _ _) i.isLt

/-- ... and load alike. -/
theorem load_congr (h : Agree a 8 m m') : load m' a = load m a := by
  rw [load, load, read_congr h]

/-- A store leaves an area alone that ends before it and that it does not reach
round the top of the address space. -/
theorem agree_write (data : Fin k → Byte) (hn : n ≤ (b - a).toNat)
    (hk : (b - a).toNat + k ≤ 2 ^ 64) : Agree a n m (write m b data) := by
  intro x hx
  rw [write, dif_neg]
  rw [← sub_sub_sub_cancel_right x b a, BitVec.toNat_sub]
  omega

/-- What was written is read back. -/
theorem read_write (data : Fin n → Byte) (hn : n ≤ 2 ^ 64) :
    read (write m a data) a n = data := by
  funext i
  have hi : (a + BitVec.ofNat 64 i - a).toNat = i := by
    rw [add_sub_cancel_left, BitVec.toNat_ofNat]
    exact Nat.mod_eq_of_lt (by omega)
  rw [read, write, dif_pos (by omega)]
  exact congrArg data (Fin.ext hi)

/-- A word that was stored is loaded back. -/
@[simp] theorem load_store (w : Word) : load (store m a w) a = w := by
  rw [load, store, read_write _ (by omega), ofBytes_bytesOf]

/-- A store below `a` leaves everything from `a` on alone. -/
theorem agree_store_below (m : Memory) (a : Addr) (w : Word) :
    Agree a (2 ^ 64 - 8) m (store m (a - 8) w) := by
  apply agree_write <;> simp

/-! ### Quadwords one above the other -/

/-- The quadwords `ws` stand from `a` on, the first at `a`. -/
def Holds (m : Memory) : Addr → List Word → Prop
  | _, [] => True
  | a, w :: ws => load m a = w ∧ Holds m (a + 8) ws

/-- Words stay where the memory does. -/
theorem Holds.of_agree {ws : List Word} (h : Holds m a ws) (hm : Agree a (8 * ws.length) m m') :
    Holds m' a ws := by
  induction ws generalizing a with
  | nil => trivial
  | cons w ws ih =>
      rw [List.length_cons] at hm
      refine ⟨?_, ih h.2 (hm.up 8 (by simp; omega))⟩
      rw [load_congr (hm.take (by omega))]
      exact h.1

/-- One more quadword further. -/
theorem eight_add (n : Nat) : 8#64 + BitVec.ofNat 64 (8 * n) = BitVec.ofNat 64 (8 * (n + 1)) := by
  rw [Nat.mul_succ, Nat.add_comm, BitVec.ofNat_add]

/-- Two rows of words, one behind the other. -/
theorem holds_append {ws vs : List Word} :
    Holds m a (ws ++ vs) ↔ Holds m a ws ∧ Holds m (a + BitVec.ofNat 64 (8 * ws.length)) vs := by
  induction ws generalizing a with
  | nil => simp [Holds]
  | cons w ws ih =>
      have hnext : a + 8 + BitVec.ofNat 64 (8 * ws.length)
          = a + BitVec.ofNat 64 (8 * (w :: ws).length) := by
        rw [add_assoc, List.length_cons]
        exact congrArg (a + ·) (eight_add ws.length)
      rw [List.cons_append, Holds, Holds, ih, hnext, and_assoc]

/-- The quadword number `i` stands `8 * i` bytes up. -/
theorem holds_iff {ws : List Word} :
    Holds m a ws ↔ ∀ (i : Nat) (h : i < ws.length), load m (a + BitVec.ofNat 64 (8 * i))
      = ws[i] := by
  induction ws generalizing a with
  | nil => simp [Holds]
  | cons w ws ih =>
      have hnext : ∀ i : Nat, a + 8 + BitVec.ofNat 64 (8 * i) = a + BitVec.ofNat 64 (8 * (i + 1)) :=
        fun i => by rw [add_assoc]; exact congrArg (a + ·) (eight_add i)
      rw [Holds, ih]
      constructor
      · rintro ⟨hw, hws⟩ i hi
        cases i with
        | zero => simpa using hw
        | succ i =>
            rw [← hnext]
            exact hws i (by simpa using hi)
      · intro h
        have h0 := h 0 (Nat.zero_lt_succ _)
        rw [Nat.mul_zero, BitVec.add_zero] at h0
        refine ⟨h0, fun i hi => ?_⟩
        rw [hnext]
        exact h (i + 1) (Nat.succ_lt_succ hi)

end ByteMemory
