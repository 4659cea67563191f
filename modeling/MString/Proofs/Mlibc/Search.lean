import MString.Proofs.Mlibc.Strings

/-!
# `MString.Proofs.Mlibc.Search`: `strchr`, `strrchr` and `strstr`

`strchr` finds the first character (`strchr_eq`). `strrchr` looks for the first one as
well, walks over those that follow it and goes one further: it answers with the second
position behind the first run of the character (`strrchr_eq`). `strstr` tries one place
only, the first character of the haystack with which the needle begins, and answers with
the position behind the character at which the needle fails there.

* `Least` and `Greatest`: the position that is asked for.
* `Searches`: what is expected of the three functions.
* `RunThenLast`, `FoundBehind`: for which characters and needles they keep it
  (`searches_iff`).
-/

set_option autoImplicit false

namespace MString

open ByteMemory

/-- The answer is the least position with `P`, and null when there is none. -/
def Least (P : Nat → Prop) : Option (BitVec 64) → Prop
  | none => ∀ k, ¬ P k
  | some i => P i.toNat ∧ ∀ k < i.toNat, ¬ P k

/-- The answer is the greatest position with `P`, and null when there is none. -/
def Greatest (P : Nat → Prop) : Option (BitVec 64) → Prop
  | none => ∀ k, ¬ P k
  | some i => P i.toNat ∧ ∀ k, i.toNat < k → ¬ P k

/-- The character `c` stands at the position `k` of `h`. -/
def CharHere (c : Byte) (h : List Byte) (k : Nat) : Prop := h[k]? = some c

/-- The needle `n` stands at the position `k` of `h`. -/
def NeedleHere (n h : List Byte) (k : Nat) : Prop := k ≤ h.length ∧ n <+: h.drop k

/-- What is expected of the three functions. -/
structure Searches (haystack needle : Chars) (c : Byte) (h n : List Byte) : Prop where
  strstr : ∃ r, strstr haystack needle = .ok r ∧ Least (NeedleHere n h) r
  strchr : ∃ r, strchr haystack (c.signExtend 32) = .ok r ∧ Least (CharHere c h) r
  strrchr : ∃ r, strrchr haystack (c.signExtend 32) = .ok r ∧ Greatest (CharHere c h) r

/-- The character does not occur, or its last occurrence is the second position behind its
first run. -/
def RunThenLast (c : Byte) (h : List Byte) : Prop :=
  c ∉ h ∨ ∃ p k d l, h = p ++ List.replicate (k + 1) c ++ d :: c :: l ∧ c ∉ p ∧ d ≠ c ∧ c ∉ l

/-- The needles for which the one place that is tried is enough. -/
inductive FoundBehind : List Byte → List Byte → Prop
  /-- No place is tried. -/
  | missing {h n : List Byte} {x : Byte} (hx : x ∉ h) : FoundBehind h (x :: n)
  /-- The haystack ends before the needle does. -/
  | ends {p q n : List Byte} {x y : Byte} (hx : x ∉ p) :
      FoundBehind (p ++ x :: q) (x :: q ++ y :: n)
  /-- The needle fails at its last character or at the last one of the haystack, and it is
  nowhere else. -/
  | nowhere {p u q n : List Byte} {x y z : Byte} (hx : x ∉ p) (hyz : y ≠ z) (hend : q = [] ∨ n = [])
      (hno : ∀ k, ¬ NeedleHere (x :: u ++ z :: n) (p ++ x :: u ++ y :: q) k) :
      FoundBehind (p ++ x :: u ++ y :: q) (x :: u ++ z :: n)
  /-- The needle fails elsewhere, and its first occurrence is right behind. -/
  | behind {p u q n : List Byte} {x y z : Byte} (hx : x ∉ p) (hyz : y ≠ z) (hq : q ≠ [])
      (hn : n ≠ []) (hhere : x :: u ++ z :: n <+: q)
      (hno : ∀ k < (p ++ x :: u).length + 1,
        ¬ NeedleHere (x :: u ++ z :: n) (p ++ x :: u ++ y :: q) k) :
      FoundBehind (p ++ x :: u ++ y :: q) (x :: u ++ z :: n)

/-! ### Positions -/

/-- The places of a character behind a part without it. -/
theorem charHere_append {c : Byte} {p l : List Byte} {k : Nat} (hp : c ∉ p) :
    CharHere c (p ++ l) k ↔ p.length ≤ k ∧ CharHere c l (k - p.length) := by
  rw [CharHere, CharHere]
  by_cases hk : k < p.length
  · rw [List.getElem?_append_left hk]
    refine iff_of_false (fun hc => hp (List.mem_of_getElem? hc)) (fun h => ?_)
    omega
  · rw [List.getElem?_append_right (by omega)]
    exact ⟨fun h => ⟨by omega, h⟩, fun h => h.2⟩

/-- The first occurrence of a character. -/
theorem exists_first {c : Byte} {h : List Byte} (hc : c ∈ h) :
    ∃ p l, h = p ++ c :: l ∧ c ∉ p := by
  obtain ⟨p, l, rfl, hp⟩ := List.eq_append_cons_of_mem hc
  exact ⟨p, l, rfl, hp⟩

/-! ### The scanning loops -/

section
variable {s : Chars} {i : BitVec 64} {a p l : List Byte}

/-- The rest of a string is a string. -/
theorem StringAt.behind (h : StringAt s i (p ++ l)) :
    StringAt s (i + BitVec.ofNat 64 p.length) l := by
  have hdrop := h.drop (k := p.length) (by simp)
  rwa [List.drop_left] at hdrop

/-- A string that starts with the zero is empty. -/
theorem StringAt.eq_zero_iff (h : StringAt s i a) : s i = 0#8 ↔ a = [] := by
  cases a with
  | nil => exact iff_of_true h rfl
  | cons x a => exact iff_of_false (h.1 ▸ h.2.1) (List.cons_ne_nil x a)

/-- The place behind a first part, as a number. -/
theorem toNat_ofNat_length (h : StringAt s 0 (p ++ l)) :
    (BitVec.ofNat 64 p.length).toNat = p.length := by
  have hlen := h.length_lt
  rw [List.length_append] at hlen
  rw [BitVec.toNat_ofNat, Nat.mod_eq_of_lt (by omega)]

/-- The place behind the character that follows. -/
theorem toNat_ofNat_succ {y : Byte} (h : StringAt s 0 (p ++ y :: l)) :
    (BitVec.ofNat 64 (p.length + 1)).toNat = p.length + 1 := by
  have hlen := h.length_lt
  rw [List.length_append, List.length_cons] at hlen
  rw [BitVec.toNat_ofNat, Nat.mod_eq_of_lt (by omega)]

/-- The functions compare characters as ints, which does not bring two of them together. -/
theorem signExtend_eq_iff (x y : Byte) : x.signExtend 32 = y.signExtend 32 ↔ x = y := by
  refine ⟨fun h => BitVec.eq_of_toInt_eq ?_, fun h => h ▸ rfl⟩
  rw [← BitVec.toInt_signExtend_of_le (v := 32) (by omega), h,
    BitVec.toInt_signExtend_of_le (by omega)]

/-- A loop that walks to the first character with `stop`, or to the end. -/
theorem run_scan {turn : BitVec 64 → Except Fault (BitVec 64 ⊕ BitVec 64)} {stop : Byte → Prop}
    [DecidablePred stop]
    (hturn : ∀ j, turn j = if s j ≠ 0#8 ∧ ¬ stop (s j) then .ok (.inl (j + 1)) else .ok (.inr j))
    (h : StringAt s i (p ++ l)) (hp : ∀ y ∈ p, ¬ stop y) (hl : ∀ y ∈ l.head?, stop y) {n : Nat}
    (hn : p.length < n) :
    Loop.run .diverges turn n i = .ok (i + BitVec.ofNat 64 p.length) := by
  obtain ⟨n, rfl⟩ := Nat.exists_eq_add_one_of_ne_zero (Nat.ne_zero_of_lt hn)
  induction p generalizing i n with
  | nil =>
      have hstop : ¬ (s i ≠ 0#8 ∧ ¬ stop (s i)) := by
        rintro ⟨hne, hno⟩
        cases l with
        | nil => exact hne h
        | cons y l => exact hno (h.1 ▸ hl y rfl)
      apply Loop.run_exit
      rw [hturn, if_neg hstop]
      simp
  | cons x p ih =>
      have hgo : s i ≠ 0#8 ∧ ¬ stop (s i) := by
        rw [h.1]
        exact ⟨h.2.1, hp x List.mem_cons_self⟩
      have hlt := Nat.lt_of_succ_lt_succ hn
      obtain ⟨n, rfl⟩ := Nat.exists_eq_add_one_of_ne_zero (Nat.ne_zero_of_lt hlt)
      rw [Loop.run_continue (by rw [hturn, if_pos hgo]),
        ih h.2.2 (fun y hy => hp y (List.mem_cons_of_mem x hy)) n hlt, Traced.succ_offset,
        List.length_cons]

/-- The searching loop stops at the first place of the character, or at the end. -/
theorem run_findTurn (c : Byte) (h : StringAt s 0 (p ++ l)) (hp : c ∉ p)
    (hl : ∀ y ∈ l.head?, y = c) :
    Loop.run .diverges (findTurn s (c.signExtend 32)) TURNS 0
      = .ok (BitVec.ofNat 64 p.length) := by
  have hlen := h.length_lt
  rw [List.length_append] at hlen
  have hgo : ∀ y ∈ p, ¬ y.signExtend 32 = c.signExtend 32 := by
    intro y hy hyc
    exact hp ((signExtend_eq_iff y c).mp hyc ▸ hy)
  have hstop : ∀ y ∈ l.head?, y.signExtend 32 = c.signExtend 32 :=
    fun y hy => congrArg (BitVec.signExtend 32) (hl y hy)
  have hrun : Loop.run .diverges (findTurn s (c.signExtend 32)) TURNS 0
      = .ok (0 + BitVec.ofNat 64 p.length) :=
    run_scan (fun j => rfl) h hgo hstop (by unfold TURNS; omega)
  rwa [zero_add] at hrun

/-- The skipping loop passes a row of the character and one place more. -/
theorem run_skipTurn (c : Byte) {k n : Nat} (h : StringAt s i (List.replicate k c ++ l))
    (hl : ∀ y ∈ l.head?, y ≠ c) (hc : c ≠ 0#8) (hn : k < n) :
    Loop.run .diverges (skipTurn s (c.signExtend 32)) n i
      = .ok (i + BitVec.ofNat 64 k + 1) := by
  obtain ⟨n, rfl⟩ := Nat.exists_eq_add_one_of_ne_zero (Nat.ne_zero_of_lt hn)
  induction k generalizing i n with
  | zero =>
      have hne : s i ≠ c := by
        cases l with
        | nil => exact fun h0 => hc (h0.symm.trans h)
        | cons y l => exact fun h0 => hl y rfl (h.1.symm.trans h0)
      apply Loop.run_exit
      rw [skipTurn, if_neg (fun h0 => hne ((signExtend_eq_iff _ _).mp h0))]
      simp
  | succ k ih =>
      have hlt := Nat.lt_of_succ_lt_succ hn
      obtain ⟨n, rfl⟩ := Nat.exists_eq_add_one_of_ne_zero (Nat.ne_zero_of_lt hlt)
      rw [List.replicate_succ, List.cons_append] at h
      have hturn : skipTurn s (c.signExtend 32) i = .ok (.inl (i + 1)) := by
        rw [skipTurn, if_pos ((signExtend_eq_iff _ _).mpr h.1)]
      rw [Loop.run_continue hturn, ih h.2.2 n hlt, Traced.succ_offset]

end

/-! ### `strchr` and `strrchr` -/

section
variable {s : Chars} {h p l : List Byte} {c : Byte}

/-- `strchr` finds no character that is not there ... -/
theorem strchr_missing (hs : StringAt s 0 h) (hc : c ∉ h) :
    strchr s (c.signExtend 32) = .ok none := by
  rw [← List.append_nil h] at hs
  have hrun := run_findTurn c hs hc (by simp)
  have hend : s (BitVec.ofNat 64 h.length) = 0#8 := by
    have hz := hs.behind
    rwa [zero_add] at hz
  rw [strchr, hrun, Loop.ok_bind, if_pos hend]

/-- ... and the first place of one that is. -/
theorem strchr_first (hs : StringAt s 0 (p ++ c :: l)) (hp : c ∉ p) :
    strchr s (c.signExtend 32) = .ok (some (BitVec.ofNat 64 p.length)) := by
  have hrun := run_findTurn c hs hp (by simp)
  have hchar : s (BitVec.ofNat 64 p.length) ≠ 0#8 := by
    have hz := hs.behind
    rw [zero_add] at hz
    exact fun h0 => hz.2.1 (hz.1.symm.trans h0)
  rw [strchr, hrun, Loop.ok_bind, if_neg hchar]

/-- `strchr` finds the first occurrence. -/
theorem strchr_least (hs : StringAt s 0 h) (c : Byte) :
    ∃ r, strchr s (c.signExtend 32) = .ok r ∧ Least (CharHere c h) r := by
  by_cases hc : c ∈ h
  · obtain ⟨p, l, rfl, hp⟩ := exists_first hc
    refine ⟨_, strchr_first hs hp, ?_⟩
    rw [Least, toNat_ofNat_length hs, charHere_append hp]
    refine ⟨⟨Nat.le_refl _, by simp [CharHere]⟩, fun k hk hhere => ?_⟩
    rw [charHere_append hp] at hhere
    omega
  · exact ⟨none, strchr_missing hs hc, fun k hk => hc (List.mem_of_getElem? hk)⟩

/-- `strrchr` finds no character that is not there. -/
theorem strrchr_missing (hs : StringAt s 0 h) (hc : c ∉ h) :
    strrchr s (c.signExtend 32) = .ok none := by
  rw [← List.append_nil h] at hs
  have hrun := run_findTurn c hs hc (by simp)
  have hend : s (BitVec.ofNat 64 h.length) = 0#8 := by
    have hz := hs.behind
    rwa [zero_add] at hz
  rw [strrchr, hrun, Loop.ok_bind, if_pos hend]

/-- `strrchr` answers with the second position behind the first run. -/
theorem strrchr_run {k : Nat} (hs : StringAt s 0 (p ++ List.replicate (k + 1) c ++ l))
    (hp : c ∉ p) (hl : ∀ y ∈ l.head?, y ≠ c) :
    strrchr s (c.signExtend 32) = .ok (some (BitVec.ofNat 64 (p.length + k + 2))) := by
  have hlen := hs.length_lt
  rw [List.append_assoc] at hs
  have hfind := run_findTurn c hs hp (by simp [List.replicate_succ])
  have hrest := hs.behind
  rw [zero_add] at hrest
  have hc : c ≠ 0#8 := fun h0 => hs.zero_notMem (by simp [← h0])
  have hchar : s (BitVec.ofNat 64 p.length) ≠ 0#8 := by
    rw [List.replicate_succ, List.cons_append] at hrest
    exact fun h0 => hc (hrest.1.symm.trans h0)
  have hskip := run_skipTurn c hrest hl hc (n := TURNS) (by
    simp only [List.length_append, List.length_replicate] at hlen
    unfold TURNS
    omega)
  have hpos : BitVec.ofNat 64 p.length + BitVec.ofNat 64 (k + 1) + 1
      = BitVec.ofNat 64 (p.length + k + 2) := by
    rw [← BitVec.ofNat_add, show (1 : BitVec 64) = BitVec.ofNat 64 1 from rfl, ← BitVec.ofNat_add]
    rfl
  rw [strrchr, hfind, Loop.ok_bind, if_neg hchar, hskip, Loop.ok_bind, hpos]

/-- The first run of a character. -/
theorem exists_run (hc : c ∈ h) :
    ∃ p k l, h = p ++ List.replicate (k + 1) c ++ l ∧ c ∉ p ∧ ∀ y ∈ l.head?, y ≠ c := by
  have hrun : ∀ l : List Byte, ∃ k l', l = List.replicate k c ++ l' ∧ ∀ y ∈ l'.head?, y ≠ c := by
    intro l
    induction l with
    | nil => exact ⟨0, [], rfl, by simp⟩
    | cons x l ih =>
        by_cases hx : x = c
        · obtain ⟨k, l', rfl, hl'⟩ := ih
          exact ⟨k + 1, l', by rw [hx, List.replicate_succ, List.cons_append], hl'⟩
        · exact ⟨0, x :: l, rfl, by simpa using hx⟩
  obtain ⟨p, l, rfl, hp⟩ := exists_first hc
  obtain ⟨k, l', rfl, hl'⟩ := hrun l
  exact ⟨p, k, l', by simp [List.replicate_succ], hp, hl'⟩

/-- The character stands in its first run and behind it. -/
theorem charHere_run {k i : Nat} (hi : p.length + k + 1 ≤ i) :
    CharHere c (p ++ List.replicate (k + 1) c ++ l) i ↔ l[i - (p.length + k + 1)]? = some c := by
  have hlen : (p ++ List.replicate (k + 1) c).length = p.length + k + 1 := by
    rw [List.length_append, List.length_replicate, Nat.add_assoc]
  rw [CharHere, List.getElem?_append_right (by omega), hlen]

/-- It finds the last place of one exactly when this is the second position behind the first run
of the character. -/
theorem strrchr_greatest_iff (hs : StringAt s 0 h) (c : Byte) :
    (∃ r, strrchr s (c.signExtend 32) = .ok r ∧ Greatest (CharHere c h) r) ↔ RunThenLast c h := by
  constructor
  · rintro ⟨r, hr, hgreatest⟩
    by_cases hc : c ∈ h
    swap
    · exact .inl hc
    obtain ⟨p, k, l, rfl, hp, hl⟩ := exists_run hc
    have hlen := hs.length_lt
    simp only [List.length_append, List.length_replicate] at hlen
    rw [strrchr_run hs hp hl, Except.ok.injEq] at hr
    subst hr
    obtain ⟨hhere, hlast⟩ := hgreatest
    rw [BitVec.toNat_ofNat] at hhere hlast
    -- The last character of the run is no later than the answer, so that this did not wrap.
    have hrun : CharHere c (p ++ List.replicate (k + 1) c ++ l) (p.length + k) := by
      rw [List.append_assoc, charHere_append hp]
      refine ⟨Nat.le_add_right _ _, ?_⟩
      rw [CharHere, Nat.add_sub_cancel_left, List.getElem?_append_left (by simp)]
      simp
    have hle : p.length + k ≤ (p.length + k + 2) % 2 ^ 64 := by
      by_contra hlt
      exact hlast _ (by omega) hrun
    have hpos : (p.length + k + 2) % 2 ^ 64 = p.length + k + 2 := by omega
    rw [hpos] at hhere hlast
    rw [charHere_run (by omega), show p.length + k + 2 - (p.length + k + 1) = 1 by omega] at hhere
    cases l with
    | nil => simp at hhere
    | cons d l =>
        cases l with
        | nil => simp at hhere
        | cons x l =>
            obtain rfl : x = c := by simpa using hhere
            refine .inr ⟨p, k, d, l, rfl, hp, hl d rfl, fun hmem => ?_⟩
            obtain ⟨j, hj⟩ := List.getElem?_of_mem hmem
            refine hlast (p.length + k + 3 + j) (by omega) ?_
            rw [charHere_run (by omega),
              show p.length + k + 3 + j - (p.length + k + 1) = j + 2 by omega]
            exact hj
  · rintro (hc | ⟨p, k, d, l, rfl, hp, hd, hcl⟩)
    · exact ⟨none, strrchr_missing hs hc, fun k hk => hc (List.mem_of_getElem? hk)⟩
    · have hlen := hs.length_lt
      simp only [List.length_append, List.length_replicate, List.length_cons] at hlen
      refine ⟨_, strrchr_run hs hp (by simpa using hd), ?_⟩
      rw [Greatest, BitVec.toNat_ofNat, Nat.mod_eq_of_lt (by omega)]
      constructor
      · rw [charHere_run (by omega), show p.length + k + 2 - (p.length + k + 1) = 1 by omega]
        rfl
      · intro i hi hhere
        rw [charHere_run (by omega)] at hhere
        obtain ⟨j, hj⟩ := Nat.exists_eq_add_of_le (show p.length + k + 3 ≤ i from hi)
        rw [show i - (p.length + k + 1) = j + 2 by omega] at hhere
        exact hcl (List.mem_of_getElem? hhere)

end

/-! ### `strstr` -/

section
variable {haystack needle : Chars} {h n p q r u : List Byte} {x y : Byte} {i j : BitVec 64}

/-- The outer loop of `strstr` stops at the first place of the needle's first character, or at
the end. -/
theorem run_headTurn (hs : StringAt haystack 0 (p ++ q)) (hp : needle 0 ∉ p)
    (hq : ∀ y ∈ q.head?, y = needle 0) :
    Loop.run .diverges (headTurn haystack needle) TURNS 0 = .ok (BitVec.ofNat 64 p.length) := by
  have hlen := hs.length_lt
  rw [List.length_append] at hlen
  have hgo : ∀ y ∈ p, ¬ y = needle 0 := by
    intro y hy hyx
    exact hp (hyx ▸ hy)
  have hrun : Loop.run .diverges (headTurn haystack needle) TURNS 0
      = .ok (0 + BitVec.ofNat 64 p.length) :=
    run_scan (fun j => rfl) hs hgo hq (by unfold TURNS; omega)
  rwa [zero_add] at hrun

/-- The second loop walks over what the two have in common. -/
theorem run_matchTurn (hs : StringAt haystack i (u ++ q)) (hn : StringAt needle j (u ++ r))
    (k : Nat) :
    Loop.run .diverges (matchTurn haystack needle) (k + u.length) (i, j)
      = Loop.run .diverges (matchTurn haystack needle) k
          (i + BitVec.ofNat 64 u.length, j + BitVec.ofNat 64 u.length) := by
  induction u generalizing i j with
  | nil => simp
  | cons x u ih =>
      have hx : haystack i ≠ 0#8 := hs.1 ▸ hs.2.1
      have hturn : matchTurn haystack needle (i, j) = .ok (.inl (i + 1, j + 1)) := by
        rw [matchTurn, if_pos ⟨hx, hx⟩, if_pos (hs.1.trans hn.1.symm)]
      rw [List.length_cons, ← Nat.add_assoc, Loop.run_continue hturn, ih hs.2.2 hn.2.2,
        Traced.succ_offset, Traced.succ_offset]

/-- The second loop at the end of the haystack. -/
theorem matchTurn_end (hs : haystack i = 0#8) :
    matchTurn haystack needle (i, j) = .ok (.inr (i, j)) := by
  rw [matchTurn, if_neg (fun h => h.1 hs)]

/-- The second loop where the two differ. -/
theorem matchTurn_differ (hs : haystack i ≠ 0#8) (hne : haystack i ≠ needle j) :
    matchTurn haystack needle (i, j) = .ok (.inr (i + 1, j + 1)) := by
  rw [matchTurn, if_pos ⟨hs, hs⟩, if_neg hne]

/-- Without such a place, there is no needle. -/
theorem strstr_missing (hs : StringAt haystack 0 h) (hx : needle 0 ∉ h) :
    strstr haystack needle = .ok none := by
  rw [← List.append_nil h] at hs
  have hhead := run_headTurn hs hx (by simp)
  have hend : haystack (BitVec.ofNat 64 h.length) = 0#8 := by
    have hz := hs.behind
    rwa [zero_add] at hz
  have hmatch : Loop.run .diverges (matchTurn haystack needle) TURNS
      (BitVec.ofNat 64 h.length, 0) = .ok (BitVec.ofNat 64 h.length, 0) :=
    Loop.run_exit (matchTurn_end hend)
  rw [strstr, hhead, Loop.ok_bind, hmatch, Loop.ok_bind]
  exact congrArg Except.ok (if_pos (.inl hend))

/-- The two loops up to the place where the needle ends to match. -/
theorem run_common (hs : StringAt haystack 0 (p ++ x :: u ++ q))
    (hn : StringAt needle 0 (x :: u ++ r)) (hp : x ∉ p) :
    Loop.run .diverges (headTurn haystack needle) TURNS 0 = .ok (BitVec.ofNat 64 p.length)
      ∧ ∃ k, Loop.run .diverges (matchTurn haystack needle) TURNS (BitVec.ofNat 64 p.length, 0)
        = Loop.run .diverges (matchTurn haystack needle) (k + 1)
            (BitVec.ofNat 64 (p ++ x :: u).length, BitVec.ofNat 64 (x :: u).length) := by
  have hlen := hs.length_lt
  rw [List.length_append, List.length_append] at hlen
  have hx : needle 0 = x := hn.1
  rw [List.append_assoc] at hs
  have hrest := hs.behind
  rw [zero_add] at hrest
  refine ⟨run_headTurn hs (hx ▸ hp) (by simpa using hx.symm), TURNS - (x :: u).length - 1, ?_⟩
  have hk : TURNS = TURNS - (x :: u).length - 1 + 1 + (x :: u).length := by
    unfold TURNS
    omega
  conv =>
    lhs
    rw [hk]
  rw [run_matchTurn hrest hn, ← BitVec.ofNat_add, ← List.length_append, zero_add]

/-- The haystack ends first. -/
theorem strstr_ends (hs : StringAt haystack 0 (p ++ x :: u))
    (hn : StringAt needle 0 (x :: u ++ r)) (hp : x ∉ p) : strstr haystack needle = .ok none := by
  rw [← List.append_nil (p ++ x :: u)] at hs
  obtain ⟨hhead, k, hmatch⟩ := run_common hs hn hp
  have hend : haystack (BitVec.ofNat 64 (p ++ x :: u).length) = 0#8 := by
    have hz := hs.behind
    rwa [zero_add] at hz
  rw [strstr, hhead, Loop.ok_bind, hmatch, Loop.run_exit (matchTurn_end hend), Loop.ok_bind]
  exact congrArg Except.ok (if_pos (.inl hend))

/-- The needle fails at `y`, or ends there. -/
theorem strstr_fails (hs : StringAt haystack 0 (p ++ x :: u ++ y :: q))
    (hn : StringAt needle 0 (x :: u ++ r)) (hp : x ∉ p) (hy : ∀ z ∈ r.head?, z ≠ y) :
    strstr haystack needle
      = .ok (if haystack (BitVec.ofNat 64 ((p ++ x :: u).length + 1)) = 0#8
            ∨ needle (BitVec.ofNat 64 ((x :: u).length + 1)) = 0#8 then none
          else some (BitVec.ofNat 64 ((p ++ x :: u).length + 1))) := by
  obtain ⟨hhead, k, hmatch⟩ := run_common hs hn hp
  have hsy := hs.behind
  have hnr := hn.behind
  rw [zero_add] at hsy hnr
  have hne : haystack (BitVec.ofNat 64 (p ++ x :: u).length)
      ≠ needle (BitVec.ofNat 64 (x :: u).length) := by
    rw [hsy.1]
    cases r with
    | nil => exact fun h0 => hsy.2.1 (h0.trans hnr)
    | cons z r => exact fun h0 => hy z rfl (hnr.1.symm.trans h0.symm)
  have hsucc : ∀ a : Nat, BitVec.ofNat 64 a + 1 = BitVec.ofNat 64 (a + 1) :=
    fun a => (BitVec.ofNat_add a 1).symm
  have hturn := matchTurn_differ (by rw [hsy.1]; exact hsy.2.1) hne
  rw [hsucc, hsucc] at hturn
  rw [strstr, hhead, Loop.ok_bind, hmatch, Loop.run_exit hturn, Loop.ok_bind]

/-- The needle fails at `y` before it ends: where the answer comes from. -/
theorem strstr_differ {z : Byte} (hs : StringAt haystack 0 (p ++ x :: u ++ y :: q))
    (hn : StringAt needle 0 (x :: u ++ z :: r)) (hp : x ∉ p) (hyz : y ≠ z) :
    strstr haystack needle
      = .ok (if q = [] ∨ r = [] then none
          else some (BitVec.ofNat 64 ((p ++ x :: u).length + 1))) := by
  have hsq := hs.behind.2.2
  have hnr := hn.behind.2.2
  rw [zero_add, show ∀ a : Nat, BitVec.ofNat 64 a + 1 = BitVec.ofNat 64 (a + 1) from
    fun a => (BitVec.ofNat_add a 1).symm] at hsq hnr
  rw [strstr_fails hs hn hp (by simpa using hyz.symm)]
  refine congrArg Except.ok (if_congr ?_ rfl rfl)
  exact or_congr hsq.eq_zero_iff hnr.eq_zero_iff

/-- Where the needle stands there is its first character. -/
theorem needleHere_head {k : Nat} (h : NeedleHere (x :: n) q k) : q[k]? = some x := by
  obtain ⟨t, ht⟩ := h.2
  have hget := congrArg List.head? ht
  rw [List.head?_drop] at hget
  exact hget.symm

/-- A longer needle stands in front of the first character it begins with. -/
theorem not_needleHere_ends {z : Byte} (hp : x ∉ p) (k : Nat) :
    ¬ NeedleHere (x :: u ++ z :: r) (p ++ x :: u) k := by
  intro h
  have hhead : (p ++ x :: u)[k]? = some x := needleHere_head h
  have hlen := h.2.length_le
  simp only [List.length_drop, List.length_append, List.length_cons] at hlen
  rw [List.getElem?_append_left (by omega)] at hhead
  exact hp (List.mem_of_getElem? hhead)

/-- What is left behind a first part and one more character. -/
theorem drop_behind : (p ++ x :: u ++ y :: q).drop ((p ++ x :: u).length + 1) = q := by
  rw [List.drop_append, List.drop_eq_nil_of_le (Nat.le_succ _), List.nil_append,
    Nat.add_sub_cancel_left]
  rfl

/-- Where the answer is right, the needle is one of those that are found. -/
theorem foundBehind_of_least {a : Option (BitVec 64)} (hs : StringAt haystack 0 h)
    (hn : StringAt needle 0 n) (ha : strstr haystack needle = .ok a)
    (hleast : Least (NeedleHere n h) a) : FoundBehind h n := by
  cases n with
  | nil =>
      have hend : needle 0 = 0#8 := hn
      rw [strstr_missing hs (hend ▸ hs.zero_notMem), Except.ok.injEq] at ha
      subst ha
      exact absurd ⟨Nat.zero_le _, List.nil_prefix⟩ (hleast 0)
  | cons x n =>
      by_cases hx : x ∈ h
      swap
      · exact .missing hx
      obtain ⟨p, l, rfl, hp⟩ := exists_first hx
      -- The needle stands at its first try when it is a beginning of what is there.
      have htried : x :: n <+: x :: l → NeedleHere (x :: n) (p ++ x :: l) p.length := by
        intro hpre
        exact ⟨by simp, by rwa [List.drop_left]⟩
      by_cases hln : l = n
      · subst hln
        rw [strstr_ends hs (r := []) (by rwa [List.append_nil]) hp, Except.ok.injEq] at ha
        subst ha
        exact absurd (htried (List.prefix_refl _)) (hleast _)
      rcases differ_cases hln with ⟨u, y, z, q, r, hyz, rfl, rfl⟩ | ⟨z, r, rfl⟩ | ⟨y, q, rfl⟩
      · have hs' : StringAt haystack 0 (p ++ x :: u ++ y :: q) := by simpa using hs
        rw [strstr_differ hs' hn hp hyz, Except.ok.injEq] at ha
        rw [show p ++ x :: (u ++ y :: q) = p ++ x :: u ++ y :: q by simp] at hleast ⊢
        by_cases hend : q = [] ∨ r = []
        · rw [if_pos hend] at ha
          subst ha
          exact .nowhere hp hyz hend hleast
        · rw [if_neg hend] at ha
          subst ha
          rw [not_or] at hend
          rw [Least, toNat_ofNat_succ hs'] at hleast
          have hhere := hleast.1.2
          rw [drop_behind] at hhere
          exact .behind hp hyz hend.1 hend.2 hhere hleast.2
      · exact .ends hp
      · have hs' : StringAt haystack 0 (p ++ x :: n ++ y :: q) := by simpa using hs
        rw [strstr_fails (r := []) hs' (by rwa [List.append_nil]) hp (by simp),
          Except.ok.injEq] at ha
        have hhere := htried (List.prefix_append (x :: n) (y :: q))
        split at ha
        · subst ha
          exact absurd hhere (hleast _)
        · subst ha
          refine absurd hhere (hleast.2 _ ?_)
          rw [toNat_ofNat_succ hs', List.length_append, List.length_cons]
          omega

/-- Where the needle stands in the right places, `strstr` finds the first of them. -/
theorem least_of_foundBehind (hs : StringAt haystack 0 h) (hn : StringAt needle 0 n)
    (hfound : FoundBehind h n) :
    ∃ r, strstr haystack needle = .ok r ∧ Least (NeedleHere n h) r := by
  cases hfound with
  | missing hx =>
      refine ⟨none, strstr_missing hs (hn.1 ▸ hx), fun k hk => hx ?_⟩
      exact List.mem_of_getElem? (needleHere_head hk)
  | ends hx => exact ⟨none, strstr_ends hs hn hx, not_needleHere_ends hx⟩
  | nowhere hx hyz hend hno =>
      exact ⟨none, by rw [strstr_differ hs hn hx hyz, if_pos hend], hno⟩
  | behind hx hyz hq hr hhere hno =>
      refine ⟨_, by rw [strstr_differ hs hn hx hyz, if_neg (by simp [hq, hr])], ?_⟩
      rw [Least, toNat_ofNat_succ hs]
      exact ⟨⟨by simp only [List.length_append, List.length_cons]; omega, by rwa [drop_behind]⟩,
        hno⟩

/-- `strstr` finds the needles for which its one try is enough. -/
theorem strstr_least_iff (hs : StringAt haystack 0 h) (hn : StringAt needle 0 n) :
    (∃ r, strstr haystack needle = .ok r ∧ Least (NeedleHere n h) r) ↔ FoundBehind h n :=
  ⟨fun hleast => hleast.elim fun _ ha => foundBehind_of_least hs hn ha.1 ha.2,
    least_of_foundBehind hs hn⟩

/-- The three functions find what they are asked for in these cases. -/
theorem searches_iff (hs : StringAt haystack 0 h) (hn : StringAt needle 0 n) (c : Byte) :
    Searches haystack needle c h n ↔ FoundBehind h n ∧ RunThenLast c h := by
  rw [← strstr_least_iff hs hn, ← strrchr_greatest_iff hs c]
  exact ⟨fun hall => ⟨hall.strstr, hall.strrchr⟩,
    fun hall => ⟨hall.1, strchr_least hs c, hall.2⟩⟩

/-- `"ab"` in `"aabcab"`, and the last `"a"`. -/
theorem searches_repeated :
    Searches (textChars [97#8, 97#8, 98#8, 99#8, 97#8, 98#8]) (textChars [97#8, 98#8]) 97#8
        [97#8, 97#8, 98#8, 99#8, 97#8, 98#8] [97#8, 98#8]
      ↔ FoundBehind [97#8, 97#8, 98#8, 99#8, 97#8, 98#8] [97#8, 98#8]
        ∧ RunThenLast 97#8 [97#8, 97#8, 98#8, 99#8, 97#8, 98#8] :=
  searches_iff (stringAt_textChars (by decide) (by decide))
    (stringAt_textChars (by decide) (by decide)) 97#8

/-- `"ab"` in `"ab"` is not found. -/
theorem not_searches_whole :
    ¬ Searches (textChars [97#8, 98#8]) (textChars [97#8, 98#8]) 98#8
      [97#8, 98#8] [97#8, 98#8] := by
  intro h
  have hs : StringAt (textChars [97#8, 98#8]) 0 ([] ++ 97#8 :: [98#8]) :=
    stringAt_textChars (by decide) (by decide)
  obtain ⟨a, ha, hleast⟩ := h.strstr
  rw [strstr_ends hs (r := []) hs (by simp), Except.ok.injEq] at ha
  subst ha
  exact hleast 0 ⟨Nat.zero_le _, List.prefix_refl _⟩

end

end MString
