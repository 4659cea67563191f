import MString.Mlibc.String

/-!
# `MString.Proofs.Mlibc.Strings`: strings in memory, and their order

`StringAt s i a` says that the NUL-terminated string `a` stands at the offset `i` of `s`.
The address space bounds its length, so no lemma here asks for a bound.

`strcmp` computes `compareText` (`strcmp_eq`), which is never 0: two equal strings are
compared as -1. Of the laws of an order only transitivity is left (`compareText_trans`);
the others hold for strings that differ. `strncmp` does not look for the terminator.
Where the strings differ it stops there (`strncmp_differ`), and where one of them is the
beginning of the other it compares the terminator with a character that may be negative.

* `StrcmpLaws`: what is expected of the two functions.
* `DifferWithin`: the strings for which they keep it (`strcmpLaws_iff`).
-/

set_option autoImplicit false

namespace MString

open ByteMemory

/-- The characters `a`, none of them NUL, and a NUL behind them. -/
def StringAt (s : Chars) : BitVec 64 → List Byte → Prop
  | i, [] => s i = 0#8
  | i, x :: a => s i = x ∧ x ≠ 0#8 ∧ StringAt s (i + 1) a

/-- A string on its own. -/
def textChars (a : List Byte) : Chars := fun i => a.getD i.toNat 0#8

section
variable {s : Chars} {i : BitVec 64} {a : List Byte}

/-- The bytes of a string, none of them zero, ... -/
theorem StringAt.getElem (h : StringAt s i a) (k : Nat) (hk : k < a.length) :
    s (i + BitVec.ofNat 64 k) = a[k] ∧ a[k] ≠ 0#8 := by
  induction a generalizing i k with
  | nil => exact absurd hk (Nat.not_lt_zero k)
  | cons x a ih =>
      cases k with
      | zero => simpa using ⟨h.1, h.2.1⟩
      | succ k =>
          rw [← Traced.succ_offset]
          exact ih h.2.2 k (Nat.lt_of_succ_lt_succ hk)

/-- ... the zero behind them ... -/
theorem StringAt.terminator (h : StringAt s i a) : s (i + BitVec.ofNat 64 a.length) = 0#8 := by
  induction a generalizing i with
  | nil => simpa [StringAt] using h
  | cons x a ih =>
      rw [List.length_cons, ← Traced.succ_offset]
      exact ih h.2.2

/-- ... and so no zero among them. -/
theorem StringAt.zero_notMem (h : StringAt s i a) : 0#8 ∉ a := by
  intro hmem
  obtain ⟨k, hk, hzero⟩ := List.mem_iff_getElem.mp hmem
  exact (h.getElem k hk).2 hzero

/-- A longer string would hold its own terminator. -/
theorem StringAt.length_lt (h : StringAt s i a) : a.length < 2 ^ 64 := by
  by_contra hlong
  have hk : a.length % 2 ^ 64 < a.length := by omega
  have hsame : BitVec.ofNat 64 (a.length % 2 ^ 64) = BitVec.ofNat 64 a.length :=
    BitVec.eq_of_toNat_eq (by rw [BitVec.toNat_ofNat, BitVec.toNat_ofNat, Nat.mod_mod])
  have hchar := h.getElem _ hk
  rw [hsame, h.terminator] at hchar
  exact hchar.2 hchar.1.symm

/-- What stands behind the first `k` characters. -/
theorem StringAt.drop (h : StringAt s i a) {k : Nat} (hk : k ≤ a.length) :
    StringAt s (i + BitVec.ofNat 64 k) (a.drop k) := by
  induction a generalizing i k with
  | nil => simpa [Nat.le_zero.mp hk] using h
  | cons x a ih =>
      cases k with
      | zero => simpa using h
      | succ k =>
          rw [← Traced.succ_offset]
          exact ih h.2.2 (Nat.le_of_succ_le_succ hk)

/-- A string is given by these bytes and this zero. -/
theorem stringAt_iff :
    StringAt s i a ↔ (∀ k (hk : k < a.length), s (i + BitVec.ofNat 64 k) = a[k] ∧ a[k] ≠ 0#8)
      ∧ s (i + BitVec.ofNat 64 a.length) = 0#8 := by
  constructor
  · exact fun h => ⟨h.getElem, h.terminator⟩
  · rintro ⟨hchars, hend⟩
    induction a generalizing i with
    | nil => simpa [StringAt] using hend
    | cons x a ih =>
        have hx := hchars 0 (Nat.zero_lt_succ _)
        refine ⟨by simpa using hx.1, by simpa using hx.2, ih ?_ ?_⟩
        · intro k hk
          rw [Traced.succ_offset]
          exact hchars (k + 1) (Nat.succ_lt_succ hk)
        · rw [Traced.succ_offset]
          exact hend

/-- The characters of a text stand at the start of their memory. -/
theorem stringAt_textChars (hnul : 0#8 ∉ a) (hlen : a.length < 2 ^ 64) :
    StringAt (textChars a) 0 a := by
  rw [stringAt_iff]
  constructor
  · intro k hk
    have hoff : (BitVec.ofNat 64 k).toNat = k := by
      rw [BitVec.toNat_ofNat, Nat.mod_eq_of_lt (by omega)]
    refine ⟨?_, fun h0 => hnul (h0 ▸ List.getElem_mem hk)⟩
    rw [zero_add, textChars, hoff, List.getD_eq_getElem?_getD, List.getElem?_eq_getElem hk,
      Option.getD_some]
  · have hoff : (BitVec.ofNat 64 a.length).toNat = a.length := by
      rw [BitVec.toNat_ofNat, Nat.mod_eq_of_lt hlen]
    rw [zero_add, textChars, hoff, List.getD_eq_getElem?_getD,
      List.getElem?_eq_none (Nat.le_refl _), Option.getD_none]

end

/-! ### What `strcmp` computes -/

/-- The result of `strcmp` for two strings. -/
def compareText : List Byte → List Byte → Int
  | [], _ => -1
  | _ :: _, [] => 1
  | x :: a, y :: b => if x ≠ y then x.toInt - y.toInt else compareText a b

/-- The loop of `strcmp` walks over two strings until they differ or the first one ends. -/
theorem run_strcmpTurn {s1 s2 : Chars} {i : BitVec 64} {a b : List Byte} (ha : StringAt s1 i a)
    (hb : StringAt s2 i b) {n : Nat} (hn : a.length < n) :
    Loop.run .diverges (strcmpTurn s1 s2) n i = .ok (compareText a b) := by
  induction a generalizing i b n with
  | nil =>
      obtain ⟨n, rfl⟩ := Nat.exists_eq_add_one_of_ne_zero (Nat.ne_zero_of_lt hn)
      have h1 : s1 i = 0#8 := ha
      apply Loop.run_exit
      rw [strcmpTurn, if_neg (fun h => h.1 h1), if_pos h1, compareText]
  | cons x a ih =>
      obtain ⟨n, rfl⟩ := Nat.exists_eq_add_one_of_ne_zero (Nat.ne_zero_of_lt hn)
      have h1 : s1 i ≠ 0#8 := ha.1 ▸ ha.2.1
      cases b with
      | nil =>
          have h2 : s2 i = 0#8 := hb
          apply Loop.run_exit
          rw [strcmpTurn, if_neg (fun h => h.2 h2), if_neg h1, if_pos h2, compareText]
      | cons y b =>
          have h2 : s2 i ≠ 0#8 := hb.1 ▸ hb.2.1
          rw [compareText, ← ha.1, ← hb.1]
          by_cases hxy : s1 i ≠ s2 i
          · rw [if_pos hxy]
            apply Loop.run_exit
            rw [strcmpTurn, if_pos ⟨h1, h2⟩, if_pos hxy]
          · have hturn : strcmpTurn s1 s2 i = .ok (.inl (i + 1)) := by
              rw [strcmpTurn, if_pos ⟨h1, h2⟩, if_neg hxy]
            rw [if_neg hxy, Loop.run_continue hturn]
            exact ih ha.2.2 hb.2.2 (Nat.lt_of_succ_lt_succ hn)

/-- So it computes `compareText`. -/
theorem strcmp_eq {s1 s2 : Chars} {a b : List Byte} (ha : StringAt s1 0 a)
    (hb : StringAt s2 0 b) : strcmp s1 s2 = .ok (compareText a b) :=
  run_strcmpTurn ha hb ha.length_lt

/-! ### The order -/

section
variable {x y : Byte} {a b c p l l' : List Byte}

/-- At the first difference, the answer is the difference of the two bytes. -/
theorem compareText_differ (hxy : x ≠ y) :
    compareText (p ++ x :: l) (p ++ y :: l') = x.toInt - y.toInt := by
  induction p with
  | nil => exact if_pos hxy
  | cons z p ih => exact (if_neg (fun h => h rfl)).trans ih

/-- A string compared with itself gives -1. -/
theorem compareText_self (a : List Byte) : compareText a a = -1 := by
  induction a with
  | nil => rfl
  | cons x a ih => exact (if_neg (fun h => h rfl)).trans ih

/-- So does a beginning with a longer string. -/
theorem compareText_beginning (a : List Byte) : compareText a (a ++ x :: l) = -1 := by
  induction a with
  | nil => rfl
  | cons y a ih => exact (if_neg (fun h => h rfl)).trans ih

/-- The other way round it is 1. -/
theorem compareText_longer (a : List Byte) : compareText (a ++ x :: l) a = 1 := by
  induction a with
  | nil => rfl
  | cons y a ih => exact (if_neg (fun h => h rfl)).trans ih

/-- The difference of two different bytes is not zero. -/
theorem toInt_sub_ne_zero (hxy : x ≠ y) : x.toInt - y.toInt ≠ 0 :=
  fun h => hxy (BitVec.eq_of_toInt_eq (by omega))

/-- Two strings that differ do so at a character, or one of them is the beginning of the
other. -/
theorem differ_cases (h : a ≠ b) :
    (∃ p x y l l', x ≠ y ∧ a = p ++ x :: l ∧ b = p ++ y :: l')
      ∨ (∃ x l, b = a ++ x :: l) ∨ (∃ x l, a = b ++ x :: l) := by
  induction a generalizing b with
  | nil =>
      cases b with
      | nil => exact absurd rfl h
      | cons y b => exact .inr (.inl ⟨y, b, rfl⟩)
  | cons x a ih =>
      cases b with
      | nil => exact .inr (.inr ⟨x, a, rfl⟩)
      | cons y b =>
          by_cases hxy : x = y
          · subst hxy
            have hab : a ≠ b := fun hab => h (hab ▸ rfl)
            rcases ih hab with ⟨p, u, v, l, l', huv, rfl, rfl⟩ | ⟨u, l, rfl⟩ | ⟨u, l, rfl⟩
            · exact .inl ⟨x :: p, u, v, l, l', huv, rfl, rfl⟩
            · exact .inr (.inl ⟨u, l, rfl⟩)
            · exact .inr (.inr ⟨u, l, rfl⟩)
          · exact .inl ⟨[], x, y, a, b, hxy, rfl, rfl⟩

/-- So the answer is never zero. -/
theorem compareText_ne_zero (a b : List Byte) : compareText a b ≠ 0 := by
  by_cases h : a = b
  · rw [h, compareText_self]
    decide
  · rcases differ_cases h with ⟨p, x, y, l, l', hxy, rfl, rfl⟩ | ⟨x, l, rfl⟩ | ⟨x, l, rfl⟩
    · rw [compareText_differ hxy]
      exact toInt_sub_ne_zero hxy
    · rw [compareText_beginning]
      decide
    · rw [compareText_longer]
      decide

/-- The other way round the sign is the other one, for two strings that differ. -/
theorem compareText_swap (h : a ≠ b) :
    (compareText a b).sign = -(compareText b a).sign := by
  rcases differ_cases h with ⟨p, x, y, l, l', hxy, rfl, rfl⟩ | ⟨x, l, rfl⟩ | ⟨x, l, rfl⟩
  · rw [compareText_differ hxy, compareText_differ hxy.symm, ← Int.sign_neg, neg_sub]
  · rw [compareText_beginning, compareText_longer]
    decide
  · rw [compareText_longer, compareText_beginning]
    decide

/-- The answers that are not positive form chains. -/
theorem compareText_trans (hab : compareText a b ≤ 0) (hbc : compareText b c ≤ 0) :
    compareText a c ≤ 0 := by
  induction a generalizing b c with
  | nil => exact (by decide : (-1 : Int) ≤ 0)
  | cons x a ih =>
      cases b with
      | nil => exact absurd hab (by decide : ¬ (1 : Int) ≤ 0)
      | cons y b =>
          cases c with
          | nil => exact absurd hbc (by decide : ¬ (1 : Int) ≤ 0)
          | cons z c =>
              simp only [compareText] at hab hbc ⊢
              -- The first place where the outer two differ is the earlier one of the
              -- places where the inner one differs from them.
              by_cases hxy : x = y
              · by_cases hyz : y = z
                · rw [if_neg (fun h => h hxy)] at hab
                  rw [if_neg (fun h => h hyz)] at hbc
                  rw [if_neg (fun h => h (hxy.trans hyz))]
                  exact ih hab hbc
                · rw [if_pos hyz] at hbc
                  rw [hxy, if_pos hyz]
                  exact hbc
              · rw [if_pos hxy] at hab
                by_cases hyz : y = z
                · rw [← hyz, if_pos hxy]
                  exact hab
                · rw [if_pos hyz] at hbc
                  have hne := toInt_sub_ne_zero hxy
                  have hxz : x ≠ z := by
                    rintro rfl
                    omega
                  rw [if_pos hxz]
                  omega

end

/-! ### `strncmp` -/

section
variable {s1 s2 : Chars} {i : BitVec 64} {n d : Nat}

/-- The loop stops at the first difference, and reads nothing behind it. -/
theorem strncmpFrom_differ
    (hsame : ∀ k < d, s1 (i + BitVec.ofNat 64 k) = s2 (i + BitVec.ofNat 64 k))
    (hd : s1 (i + BitVec.ofNat 64 d) ≠ s2 (i + BitVec.ofNat 64 d)) (hn : d < n) :
    strncmpFrom s1 s2 n i
      = ((s1 (i + BitVec.ofNat 64 d)).toInt - (s2 (i + BitVec.ofNat 64 d)).toInt,
          (List.range (d + 1)).map fun k => i + BitVec.ofNat 64 k) := by
  induction n generalizing i d with
  | zero => exact absurd hn (Nat.not_lt_zero d)
  | succ n ih =>
      cases d with
      | zero =>
          have hi : s1 i ≠ s2 i := by simpa using hd
          simp [strncmpFrom, hi]
      | succ d =>
          have hi : s1 i = s2 i := by simpa using hsame 0 (Nat.zero_lt_succ d)
          rw [← Traced.succ_offset] at hd ⊢
          have hrest := ih (fun k hk => by
            rw [Traced.succ_offset]
            exact hsame (k + 1) (Nat.succ_lt_succ hk)) hd (Nat.lt_of_succ_lt_succ hn)
          have hoffsets : (List.range (d + 2)).map (fun k => i + BitVec.ofNat 64 k)
              = i :: (List.range (d + 1)).map (fun k => i + 1 + BitVec.ofNat 64 k) := by
            rw [List.range_succ_eq_map, List.map_cons, List.map_map]
            refine congrArg₂ List.cons (by simp) (List.map_congr_left fun k _ => ?_)
            exact (Traced.succ_offset i k).symm
          rw [strncmpFrom, if_neg (fun h => h hi), hrest, hoffsets]

/-- `strncmp` of equal bytes is zero. -/
theorem strncmpFrom_same
    (hsame : ∀ k < n, s1 (i + BitVec.ofNat 64 k) = s2 (i + BitVec.ofNat 64 k)) :
    (strncmpFrom s1 s2 n i).1 = 0 := by
  induction n generalizing i with
  | zero => rfl
  | succ n ih =>
      have hi : s1 i = s2 i := by simpa using hsame 0 (Nat.zero_lt_succ n)
      rw [strncmpFrom, if_neg (fun h => h hi)]
      refine ih fun k hk => ?_
      rw [Traced.succ_offset]
      exact hsame (k + 1) (Nat.succ_lt_succ hk)

end

/-! ### What the functions keep -/

/-- What is expected of `strcmp` and `strncmp`, for the strings `a`, `b` and `c` at `s1`,
`s2` and `s3`. -/
structure StrcmpLaws (s1 s2 s3 : Chars) (a b : List Byte) (n : Uintptr) : Prop where
  eq_iff : strcmp s1 s2 = .ok 0 ↔ a = b
  swap : ∃ u v, strcmp s1 s2 = .ok u ∧ strcmp s2 s1 = .ok v ∧ u.sign = -v.sign
  trans : ∀ u v, strcmp s1 s2 = .ok u → strcmp s2 s3 = .ok v → u ≤ 0 → v ≤ 0 →
    ∃ w, strcmp s1 s3 = .ok w ∧ w ≤ 0
  /-- `strncmp` is `strcmp` for the first `n` characters. -/
  sign : ∃ w, strcmp (textChars (a.take n.toNat)) (textChars (b.take n.toNat)) = .ok w
    ∧ (strncmp s1 s2 n).1.sign = w.sign
  /-- `strncmp` reads nothing behind a terminator. -/
  reads : ∀ i ∈ (strncmp s1 s2 n).2, i.toNat ≤ a.length ∧ i.toNat ≤ b.length

/-- The strings differ within the first `n` characters, and where one of them ends there
the other goes on with an ASCII character. -/
structure DifferWithin (a b : List Byte) (n : Nat) : Prop where
  differ : a.take n ≠ b.take n
  ascii : ∀ x l, b.take n = a.take n ++ x :: l ∨ a.take n = b.take n ++ x :: l → x.toNat < 128

section
variable {s1 s2 s3 : Chars} {a b c : List Byte} {n : Nat}

/-- The byte of a string at an offset, the terminator included. -/
theorem StringAt.getD (h : StringAt s1 0 a) {k : Nat} (hk : k ≤ a.length) :
    s1 (BitVec.ofNat 64 k) = a.getD k 0#8 := by
  rw [List.getD_eq_getElem?_getD]
  rcases Nat.lt_or_eq_of_le hk with hlt | rfl
  · have hchar := (h.getElem k hlt).1
    rw [zero_add] at hchar
    rw [hchar, List.getElem?_eq_getElem hlt, Option.getD_some]
  · have hend := h.terminator
    rw [zero_add] at hend
    rw [hend, List.getElem?_eq_none (Nat.le_refl _), Option.getD_none]

/-- Two strings that have the first `d` characters in common, and then differ. -/
theorem strncmp_differ (ha : StringAt s1 0 a) (hb : StringAt s2 0 b) {d : Nat} {n : Uintptr}
    (hda : d ≤ a.length) (hdb : d ≤ b.length) (hsame : a.take d = b.take d)
    (hdiff : a.getD d 0#8 ≠ b.getD d 0#8) (hn : d < n.toNat) :
    (strncmp s1 s2 n).1 = (a.getD d 0#8).toInt - (b.getD d 0#8).toInt
      ∧ ∀ i ∈ (strncmp s1 s2 n).2, i.toNat ≤ a.length ∧ i.toNat ≤ b.length := by
  have hsame' : ∀ k < d, s1 (0 + BitVec.ofNat 64 k) = s2 (0 + BitVec.ofNat 64 k) := by
    intro k hk
    have hget : (a.take d)[k]? = (b.take d)[k]? := by rw [hsame]
    rw [List.getElem?_take_of_lt hk, List.getElem?_take_of_lt hk] at hget
    rw [zero_add, ha.getD (by omega), hb.getD (by omega), List.getD_eq_getElem?_getD, hget,
      List.getD_eq_getElem?_getD]
  have hdiff' : s1 (0 + BitVec.ofNat 64 d) ≠ s2 (0 + BitVec.ofNat 64 d) := by
    rw [zero_add, ha.getD hda, hb.getD hdb]
    exact hdiff
  rw [strncmp, strncmpFrom_differ hsame' hdiff' hn]
  refine ⟨by rw [zero_add, ha.getD hda, hb.getD hdb], fun i hi => ?_⟩
  obtain ⟨k, hk, rfl⟩ := List.mem_map.mp hi
  have hkd : k ≤ d := Nat.le_of_lt_succ (List.mem_range.mp hk)
  rw [zero_add, BitVec.toNat_ofNat]
  have hmod := Nat.mod_le k (2 ^ 64)
  omega

/-- A byte is positive as a signed number below 128. -/
theorem toInt_pos_iff {x : Byte} (hx : x ≠ 0#8) : 0 < x.toInt ↔ x.toNat < 128 := by
  have hne : x.toNat ≠ 0 := fun h => hx (BitVec.eq_of_toNat_eq h)
  have hlt := x.isLt
  rw [BitVec.toInt_eq_toNat_cond]
  split <;> omega

/-- The beginning `p` of the first `n` characters is the beginning of the string. -/
theorem take_of_take {p l : List Byte} {x : Byte} (h : a.take n = p ++ x :: l) :
    p.length < n ∧ p.length < a.length ∧ a.take p.length = p ∧ a.getD p.length 0#8 = x := by
  have hlen : (a.take n).length = p.length + 1 + l.length := by
    rw [h, List.length_append, List.length_cons]
    omega
  rw [List.length_take] at hlen
  have hn : p.length < n := by omega
  refine ⟨hn, by omega, ?_, ?_⟩
  · have htake := congrArg (List.take p.length) h
    rwa [List.take_take, Nat.min_eq_left (Nat.le_of_lt hn), List.take_left] at htake
  · have hget : (a.take n)[p.length]? = some x := by
      rw [h, List.getElem?_append_right (Nat.le_refl _), Nat.sub_self]
      rfl
    rw [List.getElem?_take_of_lt hn] at hget
    rw [List.getD_eq_getElem?_getD, hget, Option.getD_some]

/-- Where the other string goes on, this one ends. -/
theorem take_eq_of_shorter {l : List Byte} {x : Byte} (h : b.take n = a.take n ++ x :: l) :
    a.take n = a := by
  have hlen := congrArg List.length h
  rw [List.length_append, List.length_cons, List.length_take, List.length_take] at hlen
  exact List.take_of_length_le (by omega)

/-- The place where two strings differ does not depend on their order. -/
theorem DifferWithin.symm (h : DifferWithin a b n) : DifferWithin b a n where
  differ := h.differ.symm
  ascii x l hx := h.ascii x l hx.symm

/-- The other string goes on with `x`. -/
theorem differWithin_beginning {l : List Byte} {x : Byte} (h : b.take n = a.take n ++ x :: l) :
    DifferWithin a b n ↔ x.toNat < 128 := by
  refine ⟨fun hd => hd.ascii x l (.inl h), fun hlt => ⟨?_, ?_⟩⟩
  · intro hab
    rw [hab] at h
    simpa using congrArg List.length h
  · rintro z t (hz | hz)
    · rw [h] at hz
      exact (List.cons.inj (List.append_cancel_left hz)).1 ▸ hlt
    · have hlen := congrArg List.length hz
      rw [h] at hlen
      simp at hlen

/-- The other way round. -/
theorem strncmpFrom_swap (s1 s2 : Chars) (n : Nat) (i : BitVec 64) :
    strncmpFrom s2 s1 n i = (-(strncmpFrom s1 s2 n i).1, (strncmpFrom s1 s2 n i).2) := by
  induction n generalizing i with
  | zero => rfl
  | succ n ih =>
      rw [strncmpFrom, strncmpFrom]
      by_cases h : s1 i = s2 i
      · rw [if_neg (fun hne => hne h.symm), if_neg (fun hne => hne h), ih]
      · rw [if_pos (fun heq => h heq.symm), if_pos h, neg_sub]

/-- Where one string ends inside of the first `n` bytes, the answer is the next byte of the
other one, negated. Nothing behind the end of either string is read. -/
theorem strncmp_beginning (ha : StringAt s1 0 a) (hb : StringAt s2 0 b) {n : Uintptr}
    {l : List Byte} {x : Byte} (h : b.take n.toNat = a.take n.toNat ++ x :: l) :
    (strncmp s1 s2 n).1 = -x.toInt ∧ x ≠ 0#8
      ∧ ∀ i ∈ (strncmp s1 s2 n).2, i.toNat ≤ a.length ∧ i.toNat ≤ b.length := by
  rw [take_eq_of_shorter h] at h
  obtain ⟨hn, hdb, hpb, hxb⟩ := take_of_take h
  have hx : x ≠ 0#8 := by
    rintro rfl
    exact hb.zero_notMem (List.mem_of_mem_take (h ▸ List.mem_append_right a List.mem_cons_self))
  have hend : a.getD a.length 0#8 = 0#8 := by
    rw [List.getD_eq_getElem?_getD, List.getElem?_eq_none (Nat.le_refl _), Option.getD_none]
  have hcmp := strncmp_differ ha hb (Nat.le_refl _) (Nat.le_of_lt hdb)
    (by rw [List.take_length, hpb]) (by rw [hend, hxb]; exact hx.symm) hn
  rw [hend, hxb] at hcmp
  exact ⟨hcmp.1.trans (zero_sub _), hx, hcmp.2⟩

/-- What `strncmp` does for strings that differ within the first `n` characters. -/
theorem strncmp_spec (ha : StringAt s1 0 a) (hb : StringAt s2 0 b) {n : Uintptr}
    (hne : a.take n.toNat ≠ b.take n.toNat) :
    ((strncmp s1 s2 n).1.sign = (compareText (a.take n.toNat) (b.take n.toNat)).sign
        ↔ DifferWithin a b n.toNat)
      ∧ ∀ i ∈ (strncmp s1 s2 n).2, i.toNat ≤ a.length ∧ i.toNat ≤ b.length := by
  rcases differ_cases hne with ⟨p, x, y, l, l', hxy, hA, hB⟩ | ⟨x, l, hB⟩ | ⟨x, l, hA⟩
  · obtain ⟨hn, hda, hpa, hxa⟩ := take_of_take hA
    obtain ⟨-, hdb, hpb, hyb⟩ := take_of_take hB
    have h := strncmp_differ ha hb (Nat.le_of_lt hda) (Nat.le_of_lt hdb) (hpa.trans hpb.symm)
      (by rw [hxa, hyb]; exact hxy) hn
    rw [hxa, hyb] at h
    refine ⟨?_, h.2⟩
    rw [h.1, hA, hB, compareText_differ hxy]
    refine iff_of_true rfl ⟨hne, ?_⟩
    -- Neither of the two is the beginning of the other.
    rintro z t (hz | hz)
    · rw [hA, hB, List.append_assoc] at hz
      exact absurd (List.cons.inj (List.append_cancel_left hz)).1.symm hxy
    · rw [hA, hB, List.append_assoc] at hz
      exact absurd (List.cons.inj (List.append_cancel_left hz)).1 hxy
  · obtain ⟨hval, hx, hreads⟩ := strncmp_beginning ha hb hB
    refine ⟨?_, hreads⟩
    rw [differWithin_beginning hB, ← toInt_pos_iff hx, hval, hB, compareText_beginning,
      show (-1 : Int).sign = -1 from rfl, Int.sign_eq_neg_one_iff_neg, neg_neg_iff_pos]
  · obtain ⟨hval, hx, hreads⟩ := strncmp_beginning hb ha hA
    have hswap : strncmp s1 s2 n = (-(strncmp s2 s1 n).1, (strncmp s2 s1 n).2) :=
      strncmpFrom_swap s2 s1 n.toNat 0
    rw [hswap]
    refine ⟨?_, fun i hi => (hreads i hi).symm⟩
    rw [show DifferWithin a b n.toNat ↔ DifferWithin b a n.toNat from ⟨.symm, .symm⟩,
      differWithin_beginning hA, ← toInt_pos_iff hx, hval, neg_neg, hA, compareText_longer,
      show (1 : Int).sign = 1 from rfl, Int.sign_eq_one_iff_pos]

/-- For two strings with the same first `n` characters there is no difference to find. -/
theorem strncmp_same (ha : StringAt s1 0 a) (hb : StringAt s2 0 b) {n : Uintptr} (hab : a ≠ b)
    (hsame : a.take n.toNat = b.take n.toNat) : (strncmp s1 s2 n).1 = 0 := by
  have hlen : ∀ {a b : List Byte}, a ≠ b → a.take n.toNat = b.take n.toNat →
      n.toNat ≤ a.length := by
    intro a b hab hsame
    by_contra hshort
    rw [List.take_of_length_le (by omega)] at hsame
    refine hab (hsame.trans (List.take_of_length_le ?_))
    have h := congrArg List.length hsame
    rw [List.length_take] at h
    omega
  have hna := hlen hab hsame
  have hnb := hlen hab.symm hsame.symm
  refine strncmpFrom_same fun k hk => ?_
  have hget : (a.take n.toNat)[k]? = (b.take n.toNat)[k]? := by rw [hsame]
  rw [List.getElem?_take_of_lt hk, List.getElem?_take_of_lt hk] at hget
  rw [zero_add, ha.getD (by omega), hb.getD (by omega), List.getD_eq_getElem?_getD, hget,
    List.getD_eq_getElem?_getD]

/-- The value of `strcmp` for the first `n` characters. -/
theorem strcmp_take (ha : StringAt s1 0 a) (hb : StringAt s2 0 b) (n : Nat) :
    strcmp (textChars (a.take n)) (textChars (b.take n))
      = .ok (compareText (a.take n) (b.take n)) := by
  have htake : ∀ {s : Chars} {a : List Byte}, StringAt s 0 a →
      StringAt (textChars (a.take n)) 0 (a.take n) := fun h =>
    stringAt_textChars (fun hmem => h.zero_notMem (List.mem_of_mem_take hmem))
      (Nat.lt_of_le_of_lt (List.length_take_le' n _) h.length_lt)
  exact strcmp_eq (htake ha) (htake hb)

/-- The laws hold for the strings that differ where they are compared. -/
theorem strcmpLaws_iff (ha : StringAt s1 0 a) (hb : StringAt s2 0 b) (hc : StringAt s3 0 c)
    (n : Uintptr) : StrcmpLaws s1 s2 s3 a b n ↔ DifferWithin a b n.toNat := by
  constructor
  · intro h
    -- `strcmp` never answers zero, so two equal texts break the first law.
    have hab : a ≠ b := by
      intro hab
      have hzero := h.eq_iff.mpr hab
      rw [strcmp_eq ha hb, Except.ok.injEq] at hzero
      exact compareText_ne_zero a b hzero
    obtain ⟨w, hw, hsign⟩ := h.sign
    rw [strcmp_take ha hb, Except.ok.injEq] at hw
    subst hw
    -- For texts that begin alike `strncmp` answers zero, and `strcmp` of their beginnings does
      -- not.
    by_cases hsame : a.take n.toNat = b.take n.toNat
    · rw [strncmp_same ha hb hab hsame, hsame, compareText_self] at hsign
      exact absurd hsign (by decide)
    · exact (strncmp_spec ha hb hsame).1.mp hsign
  · intro h
    have hab : a ≠ b := fun hab => h.differ (hab ▸ rfl)
    -- On texts that differ within `n` characters the two functions find the same difference.
    exact
      { eq_iff := by
          rw [strcmp_eq ha hb, Except.ok.injEq]
          exact iff_of_false (compareText_ne_zero a b) hab
        swap := ⟨_, _, strcmp_eq ha hb, strcmp_eq hb ha, compareText_swap hab⟩
        trans := by
          intro u v hu hv hu0 hv0
          rw [strcmp_eq ha hb, Except.ok.injEq] at hu
          rw [strcmp_eq hb hc, Except.ok.injEq] at hv
          subst hu hv
          exact ⟨_, strcmp_eq ha hc, compareText_trans hu0 hv0⟩
        sign := ⟨_, strcmp_take ha hb n.toNat, (strncmp_spec ha hb h.differ).1.mpr h⟩
        reads := (strncmp_spec ha hb h.differ).2 }

/-- `"abca"` and `"abda"`, of which three characters are compared, and `"ab"`. -/
theorem strcmpLaws_words :
    StrcmpLaws (textChars [97#8, 98#8, 99#8, 97#8]) (textChars [97#8, 98#8, 100#8, 97#8])
        (textChars [97#8, 98#8]) [97#8, 98#8, 99#8, 97#8] [97#8, 98#8, 100#8, 97#8] 3
      ↔ DifferWithin [97#8, 98#8, 99#8, 97#8] [97#8, 98#8, 100#8, 97#8] 3 :=
  strcmpLaws_iff (stringAt_textChars (by decide) (by decide))
    (stringAt_textChars (by decide) (by decide))
    (stringAt_textChars (a := [97#8, 98#8]) (by decide) (by decide)) 3

/-- Equal strings are compared as -1. -/
theorem not_strcmpLaws_equal :
    ¬ StrcmpLaws (textChars [97#8]) (textChars [97#8]) (textChars [97#8]) [97#8] [97#8] 1 := by
  intro h
  have ha : StringAt (textChars [97#8]) 0 [97#8] := stringAt_textChars (by decide) (by decide)
  have hzero := h.eq_iff.mpr rfl
  rw [strcmp_eq ha ha] at hzero
  exact absurd hzero (by decide)

end

end MString
