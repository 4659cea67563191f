import Mathlib.Algebra.Group.Nat.Defs
import Mathlib.Data.Set.Insert
import Mathlib.Tactic.Common

/-!
# `MString.Lib.HeapTree`: blocks of a binary tree in heap numbering

The root is 1 and the children of `h` are `2 * h` and `2 * h + 1`. A set of nodes
`S` stands for blocks in use.

* `Anc`: a node above another one or equal to it; `anc_total`: two nodes above a
  third one lie above each other. `Heads`: a node above that has the same left end.
* `Free S h`: `h` is a greatest node that meets no block in use. Taking `h` away
  (`free_insert`), and handing half of it out (`free_insert_child`).
* `Split S h`: a block in use lies below `h`; how it changes along the same steps
  (`split_insert_free`, `split_insert_child`).
* `free_sibling`: the other half of a clear node is free exactly when their parent
  is clear.

Nothing here mentions a program.
-/

set_option autoImplicit false

namespace HeapTree

/-- `g` is `h` or lies above it. -/
def Anc (g h : Nat) : Prop := ∃ k, h / 2 ^ k = g

/-- One of the nodes lies above the other one. -/
def Meets (g h : Nat) : Prop := Anc g h ∨ Anc h g

/-! ### The order of the nodes -/

/-- A node is its own ancestor, ... -/
theorem anc_refl (h : Nat) : Anc h h := ⟨0, by simp⟩

/-- ... and half of its number is its parent. -/
theorem anc_half (h : Nat) : Anc (h / 2) h := ⟨1, by simp⟩

/-- Ancestors of an ancestor. -/
theorem Anc.trans {a b c : Nat} : Anc a b → Anc b c → Anc a c := by
  rintro ⟨k, rfl⟩ ⟨l, rfl⟩
  exact ⟨l + k, by rw [Nat.pow_add, Nat.div_div_eq_div_mul]⟩

/-- An ancestor has no greater number. -/
theorem Anc.le {a b : Nat} : Anc a b → a ≤ b := by
  rintro ⟨k, rfl⟩
  exact Nat.div_le_self _ _

/-- Two nodes that are each other's ancestors are one. -/
theorem Anc.antisymm {a b : Nat} (hab : Anc a b) (hba : Anc b a) : a = b :=
  Nat.le_antisymm hab.le hba.le

/-- The nodes above `h` other than `h` are those above its parent. -/
theorem anc_iff_half {g h : Nat} : Anc g h ↔ g = h ∨ Anc g (h / 2) := by
  constructor
  · rintro ⟨k, rfl⟩
    cases k with
    | zero => exact .inl (by simp)
    | succ k => exact .inr ⟨k, by rw [Nat.div_div_eq_div_mul, Nat.pow_succ, Nat.mul_comm]⟩
  · rintro (rfl | hg)
    · exact anc_refl g
    · exact hg.trans (anc_half h)

/-- Every other ancestor is one of the parent. -/
theorem Anc.half {g h : Nat} (hgh : Anc g h) (hne : g ≠ h) : Anc g (h / 2) :=
  (anc_iff_half.mp hgh).resolve_left hne

/-- Two nodes of one layer, one above the other. -/
theorem Anc.eq_of_lt {g h : Nat} (hgh : Anc g h) (hlt : h < g * 2) : g = h := by
  by_contra hne
  have := (hgh.half hne).le
  omega

/-- The ancestors of a node are in one line. -/
theorem anc_total {a b h : Nat} : Anc a h → Anc b h → Anc a b ∨ Anc b a := by
  rintro ⟨k, rfl⟩ ⟨l, rfl⟩
  rcases Nat.le_total k l with hkl | hkl
  · exact .inr ⟨l - k, by rw [Nat.div_div_eq_div_mul, ← Nat.pow_add]; congr 2; omega⟩
  · exact .inl ⟨k - l, by rw [Nat.div_div_eq_div_mul, ← Nat.pow_add]; congr 2; omega⟩

/-- The root lies above every node. -/
theorem anc_one {h : Nat} (hpos : 1 ≤ h) : Anc 1 h := by
  induction h using Nat.strongRecOn with
  | ind h ih =>
      by_cases hone : h = 1
      · exact hone ▸ anc_refl 1
      · exact (ih (h / 2) (by omega) (by omega)).trans (anc_half h)

/-- A node below `p` is `p` or lies below one of its children. -/
theorem Anc.child {p h : Nat} (hph : Anc p h) (hne : p ≠ h) :
    ∃ c, c / 2 = p ∧ Anc c h := by
  obtain ⟨k, rfl⟩ := hph
  cases k with
  | zero => simp at hne
  | succ k => exact ⟨h / 2 ^ k, by rw [Nat.div_div_eq_div_mul, Nat.pow_succ], ⟨k, rfl⟩⟩

/-- A node has more than one block in a layer below its own. -/
theorem exists_below_ne {i h m : Nat} (hge : 2 ^ i ≤ h) (hlt : h < 2 ^ i * 2) (hm : 1 ≤ m)
    (g : Nat) : ∃ c, 2 ^ (i + m) ≤ c ∧ c < 2 ^ (i + m) * 2 ∧ Anc h c ∧ c ≠ g := by
  have htwo : 2 ^ 1 ≤ 2 ^ m := Nat.pow_le_pow_right Nat.zero_lt_two hm
  have hbelow : ∀ e < 2, 2 ^ (i + m) ≤ h * 2 ^ m + e ∧ h * 2 ^ m + e < 2 ^ (i + m) * 2 ∧
      Anc h (h * 2 ^ m + e) := by
    intro e he
    have hfirst : 2 ^ i * 2 ^ m ≤ h * 2 ^ m := Nat.mul_le_mul_right _ hge
    have hlast : (h + 1) * 2 ^ m ≤ 2 ^ i * 2 * 2 ^ m := Nat.mul_le_mul_right _ hlt
    rw [Nat.add_mul, Nat.one_mul, Nat.mul_right_comm] at hlast
    rw [Nat.pow_add]
    refine ⟨by omega, by omega, m, ?_⟩
    rw [Nat.mul_comm, Nat.mul_add_div (by omega), Nat.div_eq_of_lt (by omega), Nat.add_zero]
  by_cases heq : h * 2 ^ m + 0 = g
  · obtain ⟨hge', hlt', hanc⟩ := hbelow 1 (by omega)
    exact ⟨_, hge', hlt', hanc, by omega⟩
  · obtain ⟨hge', hlt', hanc⟩ := hbelow 0 (by omega)
    exact ⟨_, hge', hlt', hanc, heq⟩

/-- `g` lies above `h` and starts where it does, or is `h`. -/
def Heads (g h : Nat) : Prop := ∃ d, h = g * 2 ^ d

/-- A node is the head of its own subtree. -/
theorem heads_refl (h : Nat) : Heads h h := ⟨0, by simp⟩

/-- A head is an ancestor: the one that is reached by first children only. -/
theorem Heads.anc {g h : Nat} : Heads g h → Anc g h := by
  rintro ⟨d, rfl⟩
  exact ⟨d, Nat.mul_div_cancel _ (Nat.two_pow_pos d)⟩

/-- Of two nodes with the same left end one heads the other. -/
theorem Heads.total {y g h : Nat} (hg : Heads y g) (hh : Heads y h) : Heads g h ∨ Heads h g := by
  obtain ⟨d, rfl⟩ := hg
  obtain ⟨e, rfl⟩ := hh
  rcases Nat.le_total d e with hde | hed
  · exact .inl ⟨e - d, by rw [Nat.mul_assoc, ← Nat.pow_add, Nat.add_sub_cancel' hde]⟩
  · exact .inr ⟨d - e, by rw [Nat.mul_assoc, ← Nat.pow_add, Nat.add_sub_cancel' hed]⟩

/-- Of two nodes that head a third one heads the other. -/
theorem Heads.comparable {g h x : Nat} (hg : Heads g x) (hh : Heads h x) :
    Heads g h ∨ Heads h g := by
  obtain ⟨d, rfl⟩ := hg
  obtain ⟨e, he⟩ := hh
  rcases Nat.le_total d e with hde | hed
  · rw [show e = e - d + d by omega, Nat.pow_add, ← Nat.mul_assoc] at he
    exact .inr ⟨e - d, Nat.eq_of_mul_eq_mul_right (Nat.two_pow_pos d) he⟩
  · rw [show d = d - e + e by omega, Nat.pow_add, ← Nat.mul_assoc] at he
    exact .inl ⟨d - e, (Nat.eq_of_mul_eq_mul_right (Nat.two_pow_pos e) he).symm⟩

/-- The left half of a node heads what the node heads. -/
theorem Heads.left {g h : Nat} (hg : Heads g h) (hne : g ≠ h) : Heads (g * 2) h := by
  obtain ⟨d, rfl⟩ := hg
  cases d with
  | zero => simp at hne
  | succ d => exact ⟨d, by rw [Nat.pow_succ', Nat.mul_assoc]⟩

/-- A left half, seen from a node that heads it. -/
theorem Heads.even {g h : Nat} (hg : Heads g h) (hne : g ≠ h) : h % 2 = 0 := by
  obtain ⟨d, rfl⟩ := hg
  cases d with
  | zero => simp at hne
  | succ d => rw [Nat.pow_succ, ← Nat.mul_assoc, Nat.mul_mod_left]

/-- A right half heads what a node strictly above it does not head. -/
theorem Heads.of_odd {g h r : Nat} (hg : Heads g h) (hr : Anc r h) (hodd : r % 2 = 1) :
    Anc r g := by
  obtain ⟨d, rfl⟩ := hg
  obtain ⟨k, rfl⟩ := hr
  by_cases hkd : k < d
  · exfalso
    have : g * 2 ^ d / 2 ^ k = g * 2 ^ (d - k - 1) * 2 := by
      rw [show d = (d - k - 1) + 1 + k by omega, Nat.pow_add, ← Nat.mul_assoc,
        Nat.mul_div_cancel _ (Nat.two_pow_pos k), Nat.pow_succ, ← Nat.mul_assoc]
      congr 3
      omega
    omega
  · refine ⟨k - d, ?_⟩
    rw [show k = d + (k - d) by omega, Nat.pow_add, ← Nat.div_div_eq_div_mul,
      Nat.mul_div_cancel _ (Nat.two_pow_pos d)]
    congr 2
    omega

/-- A node between `h` and one that heads `h` heads it, too. -/
theorem Heads.of_between {g x h : Nat} (hg : Heads g h) (hgx : Anc g x) (hxh : Anc x h) :
    Heads x h := by
  obtain ⟨d, rfl⟩ := hg
  obtain ⟨k, rfl⟩ := hxh
  by_cases hkd : k ≤ d
  · refine ⟨k, ?_⟩
    rw [show d = d - k + k by omega, Nat.pow_add, ← Nat.mul_assoc,
      Nat.mul_div_cancel _ (Nat.two_pow_pos k)]
  · -- Then it lies above `g` as well.
    have habove : g * 2 ^ d / 2 ^ k = g / 2 ^ (k - d) := by
      rw [show k = d + (k - d) by omega, Nat.pow_add, ← Nat.div_div_eq_div_mul,
        Nat.mul_div_cancel _ (Nat.two_pow_pos d), Nat.add_sub_cancel_left]
    rw [habove] at hgx ⊢
    rw [← hgx.antisymm ⟨k - d, rfl⟩]
    exact ⟨d, rfl⟩

/-- Two subtrees meet each other. -/
theorem Meets.symm {g h : Nat} (hm : Meets g h) : Meets h g := Or.symm hm

/-- What meets a node meets all the nodes above it. -/
theorem Meets.mono {g h a : Nat} (hm : Meets g h) (ha : Anc a h) : Meets g a := by
  cases hm with
  | inl hgh => exact anc_total hgh ha
  | inr hhg => exact .inr (ha.trans hhg)

/-- Two children of one node do not meet. -/
theorem not_meets_sibling {c c' : Nat} (hne : c ≠ c') (hhalf : c / 2 = c' / 2)
    (hpos : 0 < c / 2) : ¬ Meets c c' := by
  rintro (h | h)
  · have := (h.half hne).le
    omega
  · have := (h.half hne.symm).le
    omega

/-! ### Blocks in use -/

/-- No block in use meets `h`. -/
def Clear (S : Set Nat) (h : Nat) : Prop := ∀ l ∈ S, ¬ Meets l h

/-- A block in use lies below `h`. -/
def Split (S : Set Nat) (h : Nat) : Prop := ∃ l ∈ S, Anc h l ∧ l ≠ h

/-- A greatest node that meets no block in use. -/
def Free (S : Set Nat) (h : Nat) : Prop := Clear S h ∧ (h = 1 ∨ ¬ Clear S (h / 2))

variable {S : Set Nat}

/-- Below a clear node all is clear. -/
theorem Clear.mono {a h : Nat} (hc : Clear S a) (ha : Anc a h) : Clear S h :=
  fun l hl hm => hc l hl (hm.mono ha)

/-- A node stays clear when the new one is in another part of the tree. -/
theorem clear_insert {g h : Nat} : Clear (insert g S) h ↔ ¬ Meets g h ∧ Clear S h := by
  simp [Clear]

/-- A clear node is not cut. -/
theorem Clear.not_split {h : Nat} (hc : Clear S h) : ¬ Split S h := by
  rintro ⟨l, hl, hhl, -⟩
  exact hc l hl (.inr hhl)

/-- A new node cuts the nodes above it. -/
theorem split_insert {g h : Nat} :
    Split (insert g S) h ↔ (Anc h g ∧ g ≠ h) ∨ Split S h := by
  simp [Split]

/-- A node that meets neither a child nor what it is the child of. -/
theorem not_meets_of_child {c p x : Nat} (hp : c / 2 = p) (h : ¬ Meets p x) : ¬ Meets c x := by
  have hpc : Anc p c := hp ▸ anc_half c
  intro hm
  cases hm with
  | inl hcx => exact h (.inl (hpc.trans hcx))
  | inr hxc =>
      cases anc_total hpc hxc with
      | inl hpx => exact h (.inl hpx)
      | inr hxp => exact h (.inr hxp)

/-- A node whose parent meets `g` and that does not meet `g` itself lies beside a part
of the way down to `g`. -/
theorem Meets.of_half {g x : Nat} (hm : Meets g (x / 2)) (hx : ¬ Meets g x) :
    Anc (x / 2) g ∧ x / 2 ≠ g := by
  cases hm with
  | inl hgx => exact absurd (.inl (hgx.trans (anc_half x))) hx
  | inr hxg =>
      refine ⟨hxg, fun heq => hx (.inl ?_)⟩
      exact heq ▸ anc_half x

/-- A free node, seen with its own block in use and without. -/
theorem free_insert {f x : Nat} (hf : Free S f) (hf1 : 1 ≤ f) (hx1 : 1 ≤ x) :
    Free S x ↔ x = f ∨ Free (insert f S) x := by
  obtain ⟨hclear, hfree⟩ := hf
  constructor
  · intro hx
    by_cases hxf : x = f
    · exact .inl hxf
    · have hmeet : ¬ Meets f x := by
        rintro (h | h)
        · have hhalf := h.half (Ne.symm hxf)
          cases hx.2 with
          | inl hone =>
              have := h.le
              omega
          | inr hnot => exact hnot (hclear.mono hhalf)
        · have hhalf := h.half hxf
          cases hfree with
          | inl hone =>
              have := h.le
              omega
          | inr hnot => exact hnot (hx.1.mono hhalf)
      refine .inr ⟨clear_insert.mpr ⟨hmeet, hx.1⟩, hx.2.imp id fun hnot hc => hnot ?_⟩
      exact (clear_insert.mp hc).2
  · rintro (rfl | ⟨hx, htop⟩)
    · exact ⟨hclear, hfree⟩
    · obtain ⟨hmeet, hxclear⟩ := clear_insert.mp hx
      refine ⟨hxclear, htop.imp id fun hnot hc => hnot (clear_insert.mpr ⟨fun hm => ?_, hc⟩)⟩
      -- `f` lies below the sibling of `x`, so its parent is clear with that of `x`.
      obtain ⟨hanc, hne⟩ := hm.of_half hmeet
      cases hfree with
      | inl hone => exact hmeet (.inl (hone ▸ anc_one hx1))
      | inr hnot => exact hnot (hc.mono (hanc.half hne))

/-- Handing out a half of the clear node `p` leaves the other half free and changes
nothing else. -/
theorem free_insert_child {c c' p x : Nat} (hp : Clear S p) (hp1 : 1 ≤ p) (hc : c / 2 = p)
    (hc' : c' / 2 = p) (hne : c ≠ c') (hx1 : 1 ≤ x) :
    Free (insert c S) x ↔ Free (insert p S) x ∨ x = c' := by
  have hsib : ¬ Meets c c' := not_meets_sibling hne (hc.trans hc'.symm) (by omega)
  have hpc : Anc p c := hc ▸ anc_half c
  have hpc' : Anc p c' := hc' ▸ anc_half c'
  constructor
  · -- A free node meets no leaf and its parent does, or it is the root.
    rintro ⟨hx, htop⟩
    obtain ⟨hcx, hxclear⟩ := clear_insert.mp hx
    by_cases hpx : Meets p x
    · -- Below `p` and beside `c`: in the other half.
      refine .inr ?_
      have hbelow : Anc p x := by
        cases hpx with
        | inl h => exact h
        | inr h => exact absurd (.inr (h.trans hpc)) hcx
      have hpne : p ≠ x := by
        rintro rfl
        exact hcx (.inr hpc)
      obtain ⟨d, hd, hdx⟩ := hbelow.child hpne
      have hdc' : d = c' := by
        have : d ≠ c := by
          rintro rfl
          exact hcx (.inl hdx)
        omega
      subst hdc'
      by_contra hxd
      have hdhalf := hdx.half (Ne.symm hxd)
      cases htop with
      | inl hone =>
          have := hbelow.le
          omega
      | inr hnot =>
          refine hnot (clear_insert.mpr ⟨fun hm => ?_, hp.mono (hpc'.trans hdhalf)⟩)
          exact hsib (hm.mono hdhalf)
    · refine .inl ⟨clear_insert.mpr ⟨hpx, hxclear⟩, htop.imp id fun hnot hcl => hnot ?_⟩
      obtain ⟨hphalf, hclear⟩ := clear_insert.mp hcl
      exact clear_insert.mpr ⟨not_meets_of_child hc hphalf, hclear⟩
  · -- Both kinds of nodes are clear of `c`, and their parents still meet a leaf.
    rintro (⟨hx, htop⟩ | rfl)
    · obtain ⟨hpx, hxclear⟩ := clear_insert.mp hx
      refine ⟨clear_insert.mpr ⟨not_meets_of_child hc hpx, hxclear⟩, htop.imp id fun hnot hcl => ?_⟩
      obtain ⟨hchalf, hclear⟩ := clear_insert.mp hcl
      refine hnot (clear_insert.mpr ⟨fun hm => ?_, hclear⟩)
      exact hchalf (.inr ((hm.of_half hpx).1.trans hpc))
    · refine ⟨clear_insert.mpr ⟨hsib, hp.mono hpc'⟩, .inr fun hcl => ?_⟩
      exact (clear_insert.mp hcl).1 (.inr (hc'.symm ▸ hpc))

/-- The other half of a clear node. -/
theorem free_sibling {g s : Nat} (hg : Clear S g) (hg1 : 1 ≤ g / 2) (hs : s / 2 = g / 2)
    (hne : g ≠ s) : Free (insert g S) s ↔ Clear S (g / 2) := by
  have hsib : ¬ Meets g s := not_meets_sibling hne hs.symm (by omega)
  constructor
  · rintro ⟨hclear, -⟩ l hl hm
    have hsl := (clear_insert.mp hclear).2 l hl
    have hgl := hg l hl
    cases hm with
    | inl hlp => exact hgl (.inl (hlp.trans (anc_half g)))
    | inr hpl =>
        by_cases heq : g / 2 = l
        · exact hgl (.inl (heq ▸ anc_half g))
        · obtain ⟨d, hd, hdl⟩ := hpl.child heq
          have : d = g ∨ d = s := by omega
          rcases this with rfl | rfl
          · exact hgl (.inr hdl)
          · exact hsl (.inr hdl)
  · intro hclear
    refine ⟨clear_insert.mpr ⟨hsib, hclear.mono (hs ▸ anc_half s)⟩, .inr fun hcl => ?_⟩
    exact (clear_insert.mp hcl).1 (.inr (hs.symm ▸ anc_half g))

/-- Seen from above, a child is as good as its parent. It cuts the parent in addition. -/
theorem split_insert_child {c p x : Nat} (hc : c / 2 = p) (hp1 : 1 ≤ p) :
    Split (insert c S) x ↔ Split (insert p S) x ∨ x = p := by
  have hanc : (Anc x c ∧ c ≠ x) ↔ Anc x p := by
    rw [anc_iff_half, hc]
    constructor
    · rintro ⟨h | h, hne⟩
      · exact absurd h.symm hne
      · exact h
    · intro h
      refine ⟨.inr h, ?_⟩
      rintro rfl
      have := h.le
      omega
  rw [split_insert, split_insert, hanc]
  constructor
  · rintro (h | h)
    · by_cases heq : x = p
      · exact .inr heq
      · exact .inl (.inl ⟨h, Ne.symm heq⟩)
    · exact .inl (.inr h)
  · rintro ((⟨h, -⟩ | h) | rfl)
    · exact .inl h
    · exact .inr h
    · exact .inl (anc_refl x)

/-- Above a free node there is a block in use already. -/
theorem split_insert_free {f x : Nat} (hf : Free S f) (hx1 : 1 ≤ x) :
    Split (insert f S) x ↔ Split S x := by
  rw [split_insert]
  refine ⟨fun h => h.elim (fun ⟨hxf, hne⟩ => ?_) id, .inr⟩
  have hhalf := hxf.half (Ne.symm hne)
  cases hf.2 with
  | inl hone =>
      have := hxf.le
      omega
  | inr hnot =>
      obtain ⟨l, hl, hm⟩ : ∃ l ∈ S, Meets l (f / 2) := by
        simpa [Clear] using hnot
      have hbelow : Anc (f / 2) l := by
        cases hm with
        | inl h => exact absurd (.inl (h.trans (anc_half f))) (hf.1 l hl)
        | inr h => exact h
      refine ⟨l, hl, hhalf.trans hbelow, ?_⟩
      rintro rfl
      exact hf.1 l hl (.inl hxf)

/-- What lies strictly above a free node is split. -/
theorem Free.split_above {a f : Nat} (hf : Free S f) (ha : Anc a f) (ha1 : 1 ≤ a) (hne : a ≠ f) :
    Split S a := by
  have hle := ha.le
  have hhalf : ¬ Clear S (f / 2) := hf.2.resolve_left (by omega)
  have haf := ha.half hne
  simp only [Clear, not_forall, not_not] at hhalf
  obtain ⟨l, hl, hm⟩ := hhalf
  have hnot : ¬ Anc l (f / 2) := fun hlf => hf.1 l hl (.inl (hlf.trans (anc_half f)))
  have hbelow : Anc (f / 2) l := hm.resolve_left hnot
  refine ⟨l, hl, haf.trans hbelow, ?_⟩
  rintro rfl
  exact hnot haf

/-- A clear node lies below a free one. -/
theorem exists_free_of_clear {h : Nat} (hc : Clear S h) (h1 : 1 ≤ h) : ∃ f, Anc f h ∧ Free S f := by
  induction h using Nat.strongRecOn with
  | ind h ih =>
      by_cases htop : h = 1 ∨ ¬ Clear S (h / 2)
      · exact ⟨h, anc_refl h, hc, htop⟩
      · obtain ⟨hne, hhalf⟩ := not_or.mp htop
        obtain ⟨f, hf, hfree⟩ := ih (h / 2) (by omega) (not_not.mp hhalf) (by omega)
        exact ⟨f, hf.trans (anc_half h), hfree⟩

/-- The parents of two nodes, one above the other. -/
theorem Anc.halves {g h : Nat} (hgh : Anc g h) : Anc (g / 2) (h / 2) := by
  obtain ⟨k, rfl⟩ := hgh
  exact ⟨k, by rw [Nat.div_div_eq_div_mul, Nat.div_div_eq_div_mul, Nat.mul_comm]⟩

/-- A node that was taken is not free, ... -/
theorem not_free_insert_self {g : Nat} : ¬ Free (insert g S) g :=
  fun h => (clear_insert.mp h.1).1 (.inl (anc_refl g))

/-- ... nor is one below it ... -/
theorem not_free_insert_below {g x : Nat} (h : Anc g x) : ¬ Free (insert g S) x :=
  fun hf => (clear_insert.mp hf.1).1 (.inl h)

/-- ... and it is not cut. -/
theorem not_split_insert_self {g : Nat} (hg : Clear S g) : ¬ Split (insert g S) g := by
  rw [split_insert]
  rintro (⟨-, hne⟩ | h)
  · exact hne rfl
  · exact hg.not_split h

/-- Nothing is in use. -/
theorem free_empty {x : Nat} : Free ∅ x ↔ x = 1 := by
  simp [Free, Clear]

/-- In an empty tree no node is cut. -/
theorem not_split_empty {x : Nat} : ¬ Split ∅ x := by
  simp [Split]

end HeapTree
