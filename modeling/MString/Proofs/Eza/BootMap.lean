import MString.Eza.BootMap

/-!
# `MString.Proofs.Eza.BootMap`: what the boot code makes of the memory map

The store of the count is a long, and `e820count` is a byte, so three bytes behind it are
written on every machine (`not_mapCopied`). The loop in front of it has no bound: it goes on
until the lengths of the records are used up, and a record may have the length 0.

* `recordAt`: the records the map has, found by their lengths.
* `MapTurn`: where the loop is after `k` turns (`MapTurn.next`, `mapTurn_path`).
* `MapCopied`: what is expected of the copy.
* `tableKept_iff`: the loop by itself ends inside the table exactly on the maps that end
  after at most `E820MAP_E820_MAXRECORDS` records.
-/

set_option autoImplicit false

namespace MString

open ByteMemory Traced

/-! ### The map -/

/-- The address and what is left of the map behind a record. -/
def nextRecord (m : Memory) (p : BitVec 32 × BitVec 32) : BitVec 32 × BitVec 32 :=
  let eax := loadLong m (recordLong p.1 0) + 4
  (p.1 + eax, p.2 - eax)

/-- The address of record `k`, and what is left of the map in front of it. -/
def recordAt (m : Memory) (ebx : BitVec 32) (k : Nat) : BitVec 32 × BitVec 32 :=
  (nextRecord m)^[k]
    (loadLong m ((ebx + 48).setWidth 64), loadLong m ((ebx + 44).setWidth 64))

/-- The map has a record `k`. -/
def HasRecord (m : Memory) (ebx : BitVec 32) (k : Nat) : Prop :=
  ∀ j ≤ k, 0 < (recordAt m ebx j).2.toInt

/-- The map has `k` records. -/
def MapLength (m : Memory) (ebx : BitVec 32) (k : Nat) : Prop :=
  (∀ j < k, HasRecord m ebx j) ∧ (recordAt m ebx k).2.toInt ≤ 0

/-- The records that fit in the table are apart from it. -/
def RecordsApart (e820table : Addr) (m : Memory) (ebx : BitVec 32) : Prop :=
  ∀ k < E820MAP_E820_MAXRECORDS, HasRecord m ebx k → ∀ i < 6, ∀ x : Addr,
    (x - recordLong (recordAt m ebx k).1 i).toNat < 4 →
      E820MAP_E820_RECORDSIZE * E820MAP_E820_MAXRECORDS ≤ (x - e820table).toNat

/-! ### What is expected -/

/-- Entry `k` of the table is record `k` of the map. -/
def HoldsRecord (e820table : Addr) (m : Memory) (ebx : BitVec 32) (t : Traced) (k : Nat) : Prop :=
  ∀ i < 5, loadLong t.mem (e820table + BitVec.ofNat 64 (4 * (5 * k + i)))
    = loadLong m (recordLong (recordAt m ebx k).1 (i + 1))

/-- The loop has written inside the table. From a map apart from the table it has all
records, and the count is their number. -/
def TableKept (e820table e820count : Addr) (m : Memory) (ebx : BitVec 32) (s : MmapRegs) : Prop :=
  (∀ a ∈ s.memory.writes,
      (a - e820table).toNat < E820MAP_E820_RECORDSIZE * E820MAP_E820_MAXRECORDS)
    ∧ (RecordsApart e820table m ebx → ∃ n, MapLength m ebx n
        ∧ (∀ k < n, HoldsRecord e820table m ebx s.memory k)
        ∧ (mmapInvalid e820count s).mem e820count = BitVec.ofNat 8 n)

/-- The store of the count is a store to `e820count`. -/
def CountKept (e820count : Addr) (s : MmapRegs) : Prop :=
  ∀ a ∈ (mmapInvalid e820count { s with memory := .start s.memory.mem }).writes, a = e820count

/-- The loop ends in the state `s`. -/
def MapEnds (e820table : Addr) (m : Memory) (ebx : BitVec 32) (s : MmapRegs) : Prop :=
  ∃ n, Loop.run () mmapLoop n (mmapValid e820table ebx (.start m)) = .ok s

/-- What is expected of the copy. -/
def MapCopied (e820table e820count : Addr) (m : Memory) (ebx : BitVec 32) : Prop :=
  ∃ s, MapEnds e820table m ebx s ∧ TableKept e820table e820count m ebx s ∧ CountKept e820count s

/-- The count is stored with four bytes. -/
theorem not_countKept (e820count : Addr) (s : MmapRegs) : ¬ CountKept e820count s := by
  intro hkept
  have hnext : (e820count + 1 - e820count).toNat < 4 := by
    rw [add_sub_cancel_left]
    decide
  have heq := hkept (e820count + 1) ((mem_writes_storeLong _ _ _ _).mpr (.inl hnext))
  exact absurd (add_eq_left.mp heq) (by decide)

/-- The copy of the memory map goes wrong in every memory. The store of the count is too wide
for it. -/
theorem not_mapCopied (e820table e820count : Addr) (m : Memory) (ebx : BitVec 32) :
    ¬ MapCopied e820table e820count m ebx :=
  fun ⟨s, _, _, hcount⟩ => not_countKept e820count s hcount

/-! ### One record -/

section
variable {esi : BitVec 32} {rdi : Addr} {n : Nat}

/-- The copies of a record, the last one apart. -/
theorem foldl_range_succ (t : Traced) :
    (List.range (n + 1)).foldl (copyLong esi rdi) t
      = copyLong esi rdi ((List.range n).foldl (copyLong esi rdi) t) n := by
  rw [List.range_succ, List.foldl_append]
  rfl

/-- The longs that are written. -/
theorem mem_writes_copyLongs (hn : n ≤ 5) (t : Traced) (x : Addr) :
    x ∈ ((List.range n).foldl (copyLong esi rdi) t).writes
      ↔ (x - rdi).toNat < 4 * n ∨ x ∈ t.writes := by
  induction n with
  | zero => simp
  | succ n ih =>
      rw [foldl_range_succ, copyLong, mem_writes_storeLong, ih (by omega),
        area_offset (by omega), ← or_assoc]
      exact or_congr_left (by omega)

/-- They touch the bytes of the record only. -/
theorem copyLongs_frame (hn : n ≤ 5) (t : Traced) {x : Addr} (hx : ¬ (x - rdi).toNat < 4 * n) :
    ((List.range n).foldl (copyLong esi rdi) t).mem x = t.mem x := by
  induction n with
  | zero => rfl
  | succ n ih =>
      rw [foldl_range_succ, copyLong, storeLong_frame _ _ (by rw [area_offset (by omega)]; omega),
        ih (by omega) (by omega)]

/-- The longs of a record that is apart from where it is copied to. -/
theorem loadLong_copyLongs (hn : n ≤ 5) (t : Traced)
    (hapart : ∀ i < 6, ∀ x : Addr, (x - recordLong esi i).toNat < 4 → 20 ≤ (x - rdi).toNat) :
    ∀ i < n,
      loadLong ((List.range n).foldl (copyLong esi rdi) t).mem (rdi + BitVec.ofNat 64 (4 * i))
        = loadLong t.mem (recordLong esi (i + 1)) := by
  induction n with
  | zero => exact fun i hi => absurd hi (by omega)
  | succ n ih =>
      intro i hi
      rw [foldl_range_succ, copyLong]
      by_cases hlast : i = n
      · rw [hlast, loadLong_storeLong]
        exact loadLong_congr fun x hx => copyLongs_frame (by omega) t (by
          have := hapart (n + 1) (by omega) x hx
          omega)
      · rw [← ih (by omega) i (by omega)]
        refine loadLong_congr fun x hx => storeLong_frame _ _ ?_
        rw [area_offset (by omega)] at hx ⊢
        omega

end

/-! ### The loop -/

/-- The loop in front of record `k`. -/
structure MapTurn (e820table : Addr) (m : Memory) (ebx : BitVec 32) (k : Nat) (s : MmapRegs) :
    Prop where
  regs : (s.esi, s.ecx) = recordAt m ebx k
  edx : s.edx = BitVec.ofNat 32 k
  rdi : s.rdi = e820table + BitVec.ofNat 64 (20 * k)
  writes : ∀ x, x ∈ s.memory.writes ↔ (x - e820table).toNat < 20 * k
  frame : ∀ x, ¬ (x - e820table).toNat < 20 * k → s.memory.mem x = m x
  holds : ∀ j < k, HoldsRecord e820table m ebx s.memory j

section
variable {e820table : Addr} {m : Memory} {ebx : BitVec 32} {k : Nat} {s : MmapRegs}

/-- The first turn starts at the map's first record. -/
theorem mapTurn_start : MapTurn e820table m ebx 0 (mmapValid e820table ebx (.start m)) where
  regs := rfl
  edx := rfl
  rdi := (add_zero _).symm
  writes := fun _ => iff_of_false List.not_mem_nil (Nat.not_lt_zero _)
  frame := fun _ _ => rfl
  holds := fun j hj => absurd hj (Nat.not_lt_zero j)

/-- The records of the map follow each other by their sizes. -/
theorem recordAt_succ (m : Memory) (ebx : BitVec 32) (k : Nat) :
    recordAt m ebx (k + 1) = nextRecord m (recordAt m ebx k) :=
  Function.iterate_succ_apply' _ _ _

/-- What a turn that goes on does to memory and to the registers. -/
theorem mmapLoop_eq (hmore : 0 < s.ecx.toInt) :
    ∃ s', mmapLoop s = .ok (.inl s')
      ∧ s'.memory = (List.range 5).foldl (copyLong s.esi s.rdi) s.memory
      ∧ s'.edx = s.edx + 1 ∧ s'.rdi = s.rdi + BitVec.ofNat 64 20
      ∧ s'.esi = s.esi + (loadLong s'.memory.mem (recordLong s.esi 0) + 4)
      ∧ s'.ecx = s.ecx - (loadLong s'.memory.mem (recordLong s.esi 0) + 4) := by
  rw [mmapLoop, if_neg (by omega)]
  exact ⟨_, rfl, rfl, rfl, rfl, rfl, rfl⟩

/-- A turn copies a record. -/
theorem MapTurn.next (h : MapTurn e820table m ebx k s) (hk : k < 32) (hrec : HasRecord m ebx k)
    (hapart : RecordsApart e820table m ebx) :
    ∃ s', mmapLoop s = .ok (.inl s') ∧ MapTurn e820table m ebx (k + 1) s' := by
  have hesi : s.esi = (recordAt m ebx k).1 := congrArg Prod.fst h.regs
  have hecx : s.ecx = (recordAt m ebx k).2 := congrArg Prod.snd h.regs
  obtain ⟨s', hturn, hmem, hedx, hrdi, hesi', hecx'⟩ :=
    mmapLoop_eq (show 0 < s.ecx.toInt by rw [hecx]; exact hrec k le_rfl)
  -- The bytes of the record are outside the table.
  have hout : ∀ i < 6, ∀ x : Addr, (x - recordLong s.esi i).toNat < 4 →
      640 ≤ (x - e820table).toNat := by
    rw [hesi]
    exact hapart k hk hrec
  have harea : ∀ x, (x - s.rdi).toNat < 20 ↔
      20 * k ≤ (x - e820table).toNat ∧ (x - e820table).toNat < 20 * k + 20 := by
    intro x
    rw [h.rdi]
    exact area_offset (by omega) _ _
  have hframe : ∀ x, ¬ (x - s.rdi).toNat < 20 → s'.memory.mem x = s.memory.mem x := by
    intro x hx
    rw [hmem]
    exact copyLongs_frame (by omega) _ hx
  have hsource : ∀ i < 6, loadLong s.memory.mem (recordLong s.esi i)
      = loadLong m (recordLong s.esi i) :=
    fun i hi => loadLong_congr fun x hx => h.frame x (by have := hout i hi x hx; omega)
  have hsize : loadLong s'.memory.mem (recordLong s.esi 0) = loadLong m (recordLong s.esi 0) := by
    rw [← hsource 0 (by omega)]
    refine loadLong_congr fun x hx => hframe x ?_
    have := hout 0 (by omega) x hx
    rw [harea]
    omega
  refine ⟨s', hturn, ?_, ?_, ?_, ?_, ?_, ?_⟩
  · rw [hesi', hecx', hsize, recordAt_succ, ← h.regs]
    rfl
  · rw [hedx, h.edx, BitVec.ofNat_add]
    rfl
  · rw [hrdi, h.rdi, add_assoc, ← BitVec.ofNat_add, Nat.mul_succ]
  · intro x
    rw [hmem, mem_writes_copyLongs (by omega), h.writes, harea]
    omega
  · intro x hx
    rw [hframe x (by rw [harea]; omega)]
    exact h.frame x (by omega)
  · intro j hj i hi
    by_cases hlast : j = k
    · have hslot : e820table + BitVec.ofNat 64 (4 * (5 * k + i))
          = s.rdi + BitVec.ofNat 64 (4 * i) := by
        rw [h.rdi, add_assoc, ← BitVec.ofNat_add]
        congr 2
        omega
      rw [hlast, hslot, hmem, loadLong_copyLongs le_rfl _ (fun i hi x hx => by
        have := hout i hi x hx
        have := harea x
        omega) i hi, hsource (i + 1) (by omega), hesi]
    · rw [← h.holds j (by omega) i hi]
      refine loadLong_congr fun x hx => hframe x ?_
      rw [area_offset (by omega)] at hx
      rw [harea]
      omega

/-- The loop comes to each record the table has room for. -/
theorem mapTurn_path (hapart : RecordsApart e820table m ebx) (hk : k ≤ 32)
    (hrec : ∀ j < k, HasRecord m ebx j) :
    ∃ s, Loop.Reaches mmapLoop (mmapValid e820table ebx (.start m)) s
      ∧ MapTurn e820table m ebx k s := by
  induction k with
  | zero => exact ⟨_, .refl _, mapTurn_start⟩
  | succ k ih =>
      obtain ⟨s, hpath, hs⟩ := ih (by omega) (fun j hj => hrec j (by omega))
      obtain ⟨s', hturn, hs'⟩ := hs.next (by omega) (hrec k (by omega)) hapart
      exact ⟨s', hpath.trans (.single trivial hturn), hs'⟩

/-- A byte that was written stays so. -/
theorem mem_writes_loop {n : Nat} {s s' : MmapRegs} {a : Addr} (ha : a ∈ s.memory.writes)
    (hrun : Loop.run () mmapLoop n s = .ok s') : a ∈ s'.memory.writes := by
  refine Loop.run_invariant (fun s => a ∈ s.memory.writes) (fun s => a ∈ s.memory.writes) ?_
    n s s' ha hrun
  intro s r hs hbody
  by_cases hmore : 0 < s.ecx.toInt
  · obtain ⟨s', hturn, hmem, -⟩ := mmapLoop_eq hmore
    rw [hturn] at hbody
    cases hbody
    show a ∈ s'.memory.writes
    rw [hmem, mem_writes_copyLongs (by omega)]
    exact .inr hs
  · rw [mmapLoop, if_pos (by omega)] at hbody
    cases hbody
    exact hs

/-- The map has an end within `n` records exactly when the rest of the map is used up by one of
them. -/
theorem mapLength_iff {n : Nat} :
    (∃ k ≤ n, MapLength m ebx k) ↔ ∃ k ≤ n, (recordAt m ebx k).2.toInt ≤ 0 := by
  classical
  constructor
  · rintro ⟨k, hk, hlen⟩
    exact ⟨k, hk, hlen.2⟩
  · rintro ⟨k, hk, hend⟩
    have hex : ∃ k, (recordAt m ebx k).2.toInt ≤ 0 := ⟨k, hend⟩
    refine ⟨Nat.find hex, (Nat.find_min' hex hend).trans hk, fun j hj i hi => ?_, Nat.find_spec hex⟩
    have := Nat.find_min hex (show i < Nat.find hex by omega)
    omega

/-- The loop ends inside the table when the map does. -/
theorem tableKept_iff (e820count : Addr) (hapart : RecordsApart e820table m ebx) :
    (∃ s, MapEnds e820table m ebx s ∧ TableKept e820table e820count m ebx s)
      ↔ ∃ k ≤ E820MAP_E820_MAXRECORDS, MapLength m ebx k := by
  constructor
  · rintro ⟨s, ⟨n, hrun⟩, hin, -⟩
    by_contra hlong
    -- There is a record that the table has no room for.
    have hall : ∀ k ≤ 32, 0 < (recordAt m ebx k).2.toInt := by
      intro k hk
      by_contra hend
      exact hlong (mapLength_iff.mpr ⟨k, hk, by omega⟩)
    obtain ⟨s32, hpath, hs32⟩ := mapTurn_path hapart le_rfl (fun j hj i hi => hall i (by omega))
    have hecx : s32.ecx = (recordAt m ebx 32).2 := congrArg Prod.snd hs32.regs
    obtain ⟨s33, hturn, hmem, -⟩ := mmapLoop_eq (by rw [hecx]; exact hall 32 le_rfl)
    have hbehind : e820table + BitVec.ofNat 64 640 ∈ s33.memory.writes := by
      rw [hmem, mem_writes_copyLongs le_rfl, hs32.rdi]
      refine .inl ?_
      rw [sub_self]
      decide
    obtain ⟨n', hrun'⟩ := (hpath.trans (.single trivial hturn)).run n hrun
    have hlt := hin _ (mem_writes_loop hbehind hrun')
    rw [toNat_offset _ (by decide)] at hlt
    exact absurd hlt (by decide)
  · rintro ⟨k, hk, hlen⟩
    obtain ⟨s, hpath, hs⟩ := mapTurn_path hapart hk hlen.1
    have hecx : s.ecx = (recordAt m ebx k).2 := congrArg Prod.snd hs.regs
    have hexit : mmapLoop s = .ok (.inr s) := if_pos (by rw [hecx]; exact hlen.2)
    refine ⟨s, hpath.exists_run hexit, fun a ha => ?_, fun _ => ⟨k, hlen, hs.holds, ?_⟩⟩
    · have := (hs.writes a).mp ha
      show _ < 640
      change k ≤ 32 at hk
      omega
    · rw [mmapInvalid, hs.edx, storeLong_self]
      apply BitVec.eq_of_toNat_eq
      rw [BitVec.extractLsb'_toNat, BitVec.toNat_ofNat, BitVec.toNat_ofNat, Nat.shiftRight_zero]
      omega

end

/-- The copy as a whole is never what is expected, for the store of the count. What comes
before it is for maps that end in time. -/
theorem mapCopied_iff (e820table e820count : Addr) (m : Memory) (ebx : BitVec 32) :
    ¬ MapCopied e820table e820count m ebx
      ∧ (RecordsApart e820table m ebx →
        ((∃ s, MapEnds e820table m ebx s ∧ TableKept e820table e820count m ebx s)
          ↔ ∃ k ≤ E820MAP_E820_MAXRECORDS, MapLength m ebx k)) :=
  ⟨not_mapCopied e820table e820count m ebx, tableKept_iff e820count⟩

/-- The structure of the loader at `0x100`, with a map of one record of 24 bytes at
`0x1000`. -/
def oneRecord : Memory := fun a =>
  if a = 0x12c then 24 else if a = 0x131 then 0x10 else if a = 0x1000 then 20 else 0

theorem not_mapCopied_oneRecord :
    MapLength oneRecord 0x100 1
      ∧ ¬ MapCopied 0xffffffff80200000 0xffffffff80200280 oneRecord 0x100 := by
  refine ⟨⟨fun j hj i hi => ?_, by decide⟩, not_mapCopied _ _ _ _⟩
  obtain rfl : i = 0 := by omega
  decide

end MString
