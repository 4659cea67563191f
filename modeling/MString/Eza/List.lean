import MString.Lib.Loop
import MString.Lib.Ring
import MString.Types

/-!
# `MString.Eza.List`: kernel lists

`include/eza/list.h`. The list heads live in a heap of nodes (`Ring.Links`). A
`next` of `none` is `LIST_POISON1` and a `prev` of `none` is `LIST_POISON2`, which
`list_del` leaves behind and the MMU refuses. `next` stands at offset 0 of a list
head and `prev` at offset 8.
-/

set_option autoImplicit false

namespace MString

def LIST_POISON1 : Uintptr := 0x00100100
def LIST_POISON2 : Uintptr := 0x00200200

/-- The list heads in memory. -/
abbrev ListHeads (ι : Type) := Ring.Links ι

variable {ι : Type} [DecidableEq ι]

/-- `init_list_head`. -/
def initListHead (h : ListHeads ι) (list : ι) : ListHeads ι :=
  (h.setNext list (some list)).setPrev list (some list)

/-- `__list_add`, when its two neighbours are list heads. -/
def listAddBetween (h : ListHeads ι) (new prev next : ι) : ListHeads ι := h.insert new prev next

/-- `list_add`. -/
def listAdd (h : ListHeads ι) (new head : ι) : Except Fault (ListHeads ι) :=
  match h.next head with
  | some next => .ok (listAddBetween h new head next)
  | none => .error (.pageFault (LIST_POISON1 + 8))

/-- `list_add_tail`. -/
def listAddTail (h : ListHeads ι) (new head : ι) : Except Fault (ListHeads ι) :=
  match h.prev head with
  | some prev => .ok (listAddBetween h new prev head)
  | none => .error (.pageFault LIST_POISON2)

/-- `list_del`. -/
def listDel (h : ListHeads ι) (entry : ι) : Except Fault (ListHeads ι) :=
  match h.next entry, h.prev entry with
  | none, _ => .error (.pageFault (LIST_POISON1 + 8))
  | some _, none => .error (.pageFault LIST_POISON2)
  | some next, some prev => .ok (h.unlink entry prev next)

section ForEach

variable {α : Type}

/-- One turn of `list_for_each_entry`: `body` runs on the entry at `pos`, in a state
whose list heads are `links`, and the loop moves on along the pointer it left. -/
def forEachTurn (links : α → ListHeads ι) (head : ι) (body : ι → α → Except Fault α) :
    ι × α → Except Fault (ι × α ⊕ α)
  | (pos, s) =>
      if pos = head then .ok (.inr s)
      else do
        let s ← body pos s
        match (links s).next pos with
        | some pos => return .inl (pos, s)
        | none => .error (.pageFault LIST_POISON1)

/-- `list_for_each_entry`. -/
def listForEachEntry (links : α → ListHeads ι) (head : ι) (body : ι → α → Except Fault α)
    (s : α) : Except Fault α :=
  match (links s).next head with
  | some pos => Loop.run .diverges (forEachTurn links head body) TURNS (pos, s)
  | none => .error (.pageFault LIST_POISON1)

end ForEach

/-! ### On rings -/

section Rings

variable {α : Type} {h : ListHeads ι} {head x : ι} {qs : List ι}

/-- `init_list_head` makes an empty ring. -/
theorem isRing_initListHead (h : ListHeads ι) (list : ι) :
    Ring.IsRing (initListHead h list) list [] :=
  Ring.ring_single h list

/-- `list_add_tail` appends to a ring. -/
theorem listAddTail_ring (hr : Ring.IsRing h head qs) :
    listAddTail h x head = .ok (h.insert x ((head :: qs).getLast (by simp)) head) := by
  rw [listAddTail, hr.prev]
  rfl

/-- `list_del` takes a node out of a ring. -/
theorem listDel_ring {xs ys : List ι} (hr : Ring.IsRing h head (xs ++ x :: ys)) :
    listDel h x = .ok (h.unlink x ((head :: xs).getLast (by simp)) (ys.headD head)) := by
  rw [listDel, hr.neighbours.1, hr.neighbours.2]

/-- `init_list_head` leaves the rings of other nodes alone. -/
theorem initListHead_frame (hr : Ring.IsRing h head qs) (hx : x ∉ head :: qs) :
    Ring.IsRing (initListHead h x) head qs := by
  refine hr.congr (fun y hy => ?_) fun y hy => ?_
  · have hyx : y ≠ x := fun he => hx (he ▸ hy)
    simp [initListHead, hyx]
  · have hyx : y ≠ x := fun he => hx (he ▸ hy)
    simp [initListHead, hyx]

/-- `list_add_tail` of a node of no ring, for the ring itself and for the others. -/
theorem listAddTail_apart (hr : Ring.IsRing h head qs) (hnd : (head :: qs).Nodup)
    (hx : x ∉ head :: qs) :
    ∃ h', listAddTail h x head = .ok h' ∧ Ring.IsRing h' head (qs ++ [x]) ∧
      ∀ b ys, Ring.IsRing h b ys → x ∉ b :: ys → (∀ y ∈ head :: qs, y ∉ b :: ys) →
        Ring.IsRing h' b ys :=
  ⟨_, listAddTail_ring hr, Ring.ring_insert hr hnd hx, fun _ _ hb hxb hapart =>
    hb.insert_frame hxb (hapart _ (List.getLast_mem _)) (hapart head List.mem_cons_self)⟩

/-- The first node of one ring goes to the end of another one. -/
theorem listMoveTail_apart {b : ι} {xs : List ι} (hb : Ring.IsRing h b (x :: xs))
    (hr : Ring.IsRing h head qs) (hndb : (b :: x :: xs).Nodup) (hnd : (head :: qs).Nodup)
    (hapart : ∀ y ∈ head :: qs, y ∉ b :: x :: xs) :
    ∃ h1 h', listDel h x = .ok h1 ∧ listAddTail h1 x head = .ok h' ∧ Ring.IsRing h' b xs ∧
      Ring.IsRing h' head (qs ++ [x]) ∧
      ∀ d ys, Ring.IsRing h d ys → (∀ y ∈ d :: ys, y ∉ b :: x :: xs ∧ y ∉ head :: qs) →
        Ring.IsRing h' d ys := by
  have hdel := @listDel_ring _ _ _ _ _ [] _ hb
  have hb1 := @Ring.ring_unlink _ _ _ _ _ [] _ hb hndb
  rw [List.nil_append] at hb1
  have hlast : ∀ d ys, (∀ y ∈ b :: x :: xs, y ∉ d :: ys) → Ring.IsRing h d ys →
      Ring.IsRing (h.unlink x b (xs.headD b)) d ys := fun d ys hout hd => by
    refine hd.unlink_frame (hout x (by simp)) (hout b (by simp)) (hout _ ?_)
    cases xs <;> simp
  have hxr : x ∉ head :: qs := fun hx => hapart x hx (by simp)
  have hr1 := hlast head qs (fun y hy hyq => hapart y hyq hy) hr
  obtain ⟨h', hadd, hr', hframe⟩ := listAddTail_apart hr1 hnd hxr
  refine ⟨_, h', hdel, hadd, ?_, hr', fun d ys hd hout => ?_⟩
  · refine hframe b xs hb1 (fun hx => ?_) fun y hy hyb => hapart y hy ?_
    · rw [List.nodup_cons, List.nodup_cons] at hndb
      rcases List.mem_cons.mp hx with rfl | hx
      · exact hndb.1 List.mem_cons_self
      · exact hndb.2.1 hx
    · rcases List.mem_cons.mp hyb with rfl | hyb
      · exact List.mem_cons_self
      · exact List.mem_cons_of_mem _ (List.mem_cons_of_mem _ hyb)
  · exact hframe d ys (hlast d ys (fun y hy hyd => (hout y hyd).1 hy) hd)
      (fun hx => (hout x hx).1 (by simp)) fun y hy hyd => (hout y hyd).2 hy

variable {links : α → ListHeads ι} {body : ι → α → Except Fault α}

/-- The body keeps `I`, and the list heads, at every node of a list. -/
def Passes (links : α → ListHeads ι) (body : ι → α → Except Fault α) (I : α → Prop)
    (qs : List ι) : Prop :=
  ∀ x ∈ qs, ∀ s s', I s → body x s = .ok s' → I s' ∧ links s' = links s

variable {I : α → Prop}

/-- The loop passes the nodes in front of `y` whose list heads the body leaves alone. -/
theorem run_forEachTurn (y : ι) (n : Nat) :
    ∀ (us : List ι) (pos : ι) (s : α), Ring.Linked h (pos :: us ++ [y]) → head ∉ pos :: us →
      links s = h → I s → Passes links body I (pos :: us) →
      Loop.run .diverges (forEachTurn links head body) (n + (us.length + 1)) (pos, s)
        = ((pos :: us).foldlM (fun s x => body x s) s) >>= fun s =>
            Loop.run .diverges (forEachTurn links head body) n (y, s) := by
  intro us
  induction us with
  | nil =>
      intro pos s hlink hhead hs hI hbody
      have hne : pos ≠ head := fun he => hhead (by simp [he])
      -- The node behind the last one is `y`.
      have hnext := (Ring.linked_cons_cons.mp hlink).1
      simp only [List.foldlM_cons, List.foldlM_nil, List.length_nil, Nat.zero_add]
      cases hrun : body pos s with
      | error e => exact Loop.run_error (by simp [forEachTurn, hne, hrun, bind, Except.bind])
      | ok s' =>
          obtain ⟨hI', hkeep⟩ := hbody pos (by simp) s s' hI hrun
          refine Loop.run_continue ?_
          simp only [forEachTurn, hne, if_false, hrun, Loop.ok_bind, hkeep, hs, hnext]
          rfl
  | cons z us ih =>
      intro pos s hlink hhead hs hI hbody
      have hne : pos ≠ head := fun he => hhead (by simp [he])
      obtain ⟨hnext, -, hrest⟩ := Ring.linked_cons_cons.mp hlink
      rw [List.foldlM_cons]
      cases hrun : body pos s with
      | error e => exact Loop.run_error (by simp [forEachTurn, hne, hrun, bind, Except.bind])
      | ok s' =>
          -- The body leaves the links alone, so the rest of the list is still there for the
          -- later turns.
          obtain ⟨hI', hkeep⟩ := hbody pos (by simp) s s' hI hrun
          have htail := ih z s' hrest (fun hm => hhead (List.mem_cons_of_mem _ hm))
            (hkeep.trans hs) hI' fun x hx => hbody x (List.mem_cons_of_mem _ hx)
          rw [List.length_cons, ← Nat.add_assoc, Loop.ok_bind, ← htail]
          refine Loop.run_continue ?_
          simp only [forEachTurn, hne, if_false, hrun, Loop.ok_bind, hkeep, hs, hnext]
          rfl

/-- `list_for_each_entry` runs its body on the nodes of a ring in turn, when the body
leaves their list heads alone. -/
theorem listForEachEntry_ring {s : α} (hr : Ring.IsRing (links s) head qs) (hhead : head ∉ qs)
    (hlen : qs.length < TURNS) (hI : I s) (hbody : Passes links body I qs) :
    listForEachEntry links head body s = qs.foldlM (fun s x => body x s) s := by
  have hexit : ∀ (n : Nat) (s : α),
      Loop.run .diverges (forEachTurn links head body) (n + 1) (head, s) = .ok s := fun n s =>
    Loop.run_exit (by simp [forEachTurn])
  rw [listForEachEntry, hr.next]
  cases qs with
  | nil =>
      obtain ⟨n, hn⟩ : ∃ n, TURNS = n + 1 := ⟨TURNS - 1, by omega⟩
      show Loop.run _ _ TURNS (head, s) = _
      rw [hn, hexit]
      rfl
  | cons q qs =>
      obtain ⟨n, hn⟩ : ∃ n, TURNS = n + 1 + (qs.length + 1) :=
        ⟨TURNS - (qs.length + 2), by simp only [List.length_cons] at hlen; omega⟩
      have hlink := (Ring.linked_cons_cons.mp hr).2.2
      show Loop.run _ _ TURNS (q, s) = _
      rw [hn, run_forEachTurn head (n + 1) qs q s hlink hhead rfl hI hbody]
      cases (q :: qs).foldlM (fun s x => body x s) s with
      | error e => rfl
      | ok s' => exact hexit n s'

/-- It stops with a fault at the first node whose list head the body has poisoned. -/
theorem listForEachEntry_poisoned {us vs : List ι} {y : ι} {s s1 s2 : α}
    (hr : Ring.IsRing (links s) head (us ++ y :: vs)) (hhead : head ∉ us ++ y :: vs)
    (hlen : us.length + 1 < TURNS) (hI : I s) (hbody : Passes links body I us)
    (hus : us.foldlM (fun s x => body x s) s = .ok s1) (hy : body y s1 = .ok s2)
    (hpoison : (links s2).next y = none) :
    listForEachEntry links head body s = .error (.pageFault LIST_POISON1) := by
  have hne : y ≠ head := fun he => hhead (by simp [he])
  -- The turn at `y` reads the poison and faults.
  have hstop : ∀ n, Loop.run .diverges (forEachTurn links head body) (n + 1) (y, s1)
      = .error (.pageFault LIST_POISON1) := fun n =>
    Loop.run_error (by simp [forEachTurn, hne, hy, hpoison, bind, Except.bind])
  rw [listForEachEntry, hr.next]
  cases us with
  | nil =>
      obtain ⟨n, hn⟩ : ∃ n, TURNS = n + 1 := ⟨TURNS - 1, by omega⟩
      cases hus
      show Loop.run _ _ TURNS (y, s) = _
      rw [hn, hstop]
  | cons u us =>
      obtain ⟨n, hn⟩ : ∃ n, TURNS = n + 1 + (us.length + 1) :=
        ⟨TURNS - (us.length + 2), by simp only [List.length_cons] at hlen; omega⟩
      have hlink : Ring.Linked (links s) (u :: us ++ [y]) := by
        have hall : Ring.Linked (links s) (head :: u :: us ++ y :: (vs ++ [head])) := by
          simpa [Ring.IsRing] using hr
        exact (Ring.linked_cons_cons.mp ((Ring.linked_append _ _ _).mp hall).1).2.2
      show Loop.run _ _ TURNS (u, s) = _
      rw [hn, run_forEachTurn y (n + 1) us u s hlink (fun hm => hhead (by
        rw [List.mem_append]
        exact .inl hm)) rfl hI hbody, hus]
      exact hstop n

end Rings

end MString
