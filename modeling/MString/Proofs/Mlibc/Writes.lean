import MString.Proofs.Mlibc.Kprintf

/-!
# `MString.Proofs.Mlibc.Writes`: a conversion as a sequence of writes

Every conversion stores its field in several writes, and each helper looks at the room
again. `Writes g ws` says what a computation `g` that stores `ws`, one after the other,
makes of the room: all of them if they fit, and, if the destination gets full between two
of them, those that fit.

* `CutsBetween room ws`: the room ends between two writes, or behind the last one.
* `Writes.bind`: two computations in sequence.
* `writes_digit`, `writes_string`, `writes_char`: the conversions.
-/

set_option autoImplicit false

namespace MString

open Sink

/-- The room ends between two of the writes, or behind the last one. -/
def CutsBetween : Nat → List (List Char) → Prop
  | _, [] => True
  | room, w :: ws => room = 0 ∨ w.length ≤ room ∧ CutsBetween (room - w.length) ws

instance (room : Nat) (ws : List (List Char)) : Decidable (CutsBetween room ws) :=
  match room, ws with
  | _, [] => .isTrue trivial
  | room, w :: ws =>
      have := instDecidableCutsBetween (room - w.length) ws
      inferInstanceAs (Decidable (room = 0 ∨ w.length ≤ room ∧ CutsBetween (room - w.length) ws))

section Cuts

variable {room : Nat} {ws ws' : List (List Char)}

/-- Nothing is written where there is no room. -/
theorem cutsBetween_zero (ws : List (List Char)) : CutsBetween 0 ws := by
  cases ws with
  | nil => trivial
  | cons w ws => exact .inl rfl

/-- When the room cuts two lists of writes between writes, it cuts the first so, ... -/
theorem CutsBetween.left (h : CutsBetween room (ws ++ ws')) : CutsBetween room ws := by
  induction ws generalizing room with
  | nil => trivial
  | cons w ws ih => exact h.imp_right fun hw => ⟨hw.1, ih hw.2⟩

/-- ... and the room that is left cuts the second so. -/
theorem CutsBetween.right (h : CutsBetween room (ws ++ ws')) :
    CutsBetween (room - ws.flatten.length) ws' := by
  induction ws generalizing room with
  | nil => exact h
  | cons w ws ih =>
      rw [List.flatten_cons, List.length_append, ← Nat.sub_sub]
      rcases h with rfl | ⟨-, h⟩
      · simp only [Nat.zero_sub]
        exact cutsBetween_zero ws'
      · exact ih h

end Cuts

/-- The computation stores `ws`, one after the other, as far as there is room. -/
structure Writes (g : Nat → Sink → Except Sink Sink) (ws : List (List Char)) : Prop where
  emits : ∀ dsize out, out.length ≤ dsize → Emits dsize out (g dsize (ofList out))
  fits : ∀ dsize out, out.length + ws.flatten.length ≤ dsize →
    g dsize (ofList out) = .ok (ofList (out ++ ws.flatten))
  /-- With room up to the end of a write, it stores up to there, and with more room it
  stores the same and more. -/
  cut : ∀ dsize out, out.length ≤ dsize → dsize < out.length + ws.flatten.length →
    CutsBetween (dsize - out.length) ws →
    ∃ q, (out ++ q).length = dsize ∧ orReturned (g dsize (ofList out)) = ofList (out ++ q) ∧
      ∀ dsize', dsize ≤ dsize' → ∃ p, (out ++ q ++ p).length ≤ dsize' ∧
        orReturned (g dsize' (ofList out)) = ofList (out ++ q ++ p)

/-- A conversion that returns early has added a text that fits. -/
theorem Emits.orReturned {dsize : Nat} {out : List Char} {r : Except Sink Sink}
    (h : Emits dsize out r) :
    ∃ p, (out ++ p).length ≤ dsize ∧ MString.orReturned r = ofList (out ++ p) := by
  obtain ⟨p, hp, rfl | ⟨rfl, -⟩⟩ := h
  · exact ⟨p, hp, rfl⟩
  · exact ⟨p, hp, rfl⟩

/-- Nothing is stored in a full destination. -/
theorem Emits.full {dsize : Nat} {out : List Char} {r : Except Sink Sink} (h : Emits dsize out r)
    (hfull : out.length = dsize) : MString.orReturned r = ofList out := by
  obtain ⟨p, hp, hr⟩ := h.orReturned
  rw [List.length_append] at hp
  obtain rfl : p = [] := List.length_eq_zero_iff.mp (by omega)
  rwa [List.append_nil] at hr

section Composition

variable {g h : Nat → Sink → Except Sink Sink} {ws ws' : List (List Char)} {w : List Char}
    {c : Char}

/-- No write. -/
theorem writes_nil : Writes (fun _ k => .ok k) [] where
  emits _ _ hlen := emits_nil hlen
  fits _ out _ := by simp
  cut dsize out hlen hover _ := by
    simp only [List.flatten_nil, List.length_nil] at hover
    omega

/-- A write that is made only if there is room for all of it. -/
theorem writes_of_text {f : Nat → Sink → Sink} {text : Nat → List Char}
    (hf : ∀ dsize out, f dsize (ofList out) = ofList (out ++ text (dsize - out.length)))
    (hlen : ∀ room, (text room).length ≤ room) (hfits : ∀ room, w.length ≤ room → text room = w) :
    Writes (fun dsize k => .ok (f dsize k)) [w] where
  emits dsize out hout := by
    have htext := hlen (dsize - out.length)
    rw [hf]
    exact emits_ok (by rw [List.length_append]; omega)
  fits dsize out hout := by
    rw [List.flatten_singleton] at hout ⊢
    rw [hf, hfits _ (by omega)]
  cut dsize out hout hover hcut := by
    rw [List.flatten_singleton] at hover
    have hzero : dsize - out.length = 0 := by
      rcases hcut with hzero | ⟨hle, -⟩
      · exact hzero
      · omega
    have hnil : text 0 = [] := List.length_eq_zero_iff.mp (Nat.le_zero.mp (hlen 0))
    refine ⟨[], by simp; omega, ?_, fun dsize' hdsize' => ⟨text (dsize' - out.length), ?_, ?_⟩⟩
    · show f dsize (ofList out) = _
      rw [hf, hzero, hnil]
    · have htext' := hlen (dsize' - out.length)
      simp only [List.append_nil, List.length_append]
      omega
    · show f dsize' (ofList out) = _
      rw [hf, List.append_nil]

/-- One character is one write. -/
theorem writes_copyByteIp : Writes (fun dsize k => copyByteIp dsize c k) [[c]] where
  emits _ _ hlen := emits_copyByteIp hlen
  fits dsize out hlen := by
    simp only [List.flatten_singleton, List.length_singleton] at hlen ⊢
    exact copyByteIp_ofList (by omega)
  cut dsize out hlen hover _ := by
    simp only [List.flatten_singleton, List.length_singleton] at hover
    have hfull : out.length = dsize := by omega
    refine ⟨[], by simpa using hfull, ?_, fun dsize' hdsize' => ?_⟩
    · rw [copyByteIp_full hfull, List.append_nil]
      rfl
    · obtain ⟨p, hp, hr⟩ := (emits_copyByteIp (c := c)
        (show out.length ≤ dsize' by omega)).orReturned
      rw [List.append_nil]
      exact ⟨p, hp, hr⟩

/-- A choice between two. -/
theorem Writes.ite {b : Bool} (hg : Writes g ws) (hh : Writes h ws') :
    Writes (fun dsize k => if b then g dsize k else h dsize k) (if b then ws else ws') := by
  cases b with
  | true => exact hg
  | false => exact hh

/-- One after the other. -/
theorem Writes.bind (hg : Writes g ws) (hh : Writes h ws') :
    Writes (fun dsize k => g dsize k >>= h dsize) (ws ++ ws') where
  emits dsize out hlen := (hg.emits dsize out hlen).bind fun p hp => hh.emits dsize _ hp
  fits dsize out hlen := by
    rw [List.flatten_append, List.length_append] at hlen
    rw [hg.fits dsize out (by omega), Loop.ok_bind,
      hh.fits dsize _ (by rw [List.length_append]; omega), List.flatten_append, List.append_assoc]
  cut dsize out hlen hover hcut := by
    rw [List.flatten_append, List.length_append] at hover
    by_cases hfits : out.length + ws.flatten.length ≤ dsize
    · -- The first part fits, and the second one is cut.
      have hlen' : (out ++ ws.flatten).length ≤ dsize := by rwa [List.length_append]
      obtain ⟨q, hq, hfull, hmore⟩ := hh.cut dsize (out ++ ws.flatten) hlen'
        (by rw [List.length_append]; omega)
        (by rw [List.length_append, ← Nat.sub_sub]; exact hcut.right)
      refine ⟨ws.flatten ++ q, by rwa [← List.append_assoc], ?_, fun dsize' hdsize' => ?_⟩
      · rw [hg.fits dsize out hfits, Loop.ok_bind, ← List.append_assoc]
        exact hfull
      · -- The larger destination has room for the first part as well, so it goes on in the
        -- second one.
        obtain ⟨p, hp, hr⟩ := hmore dsize' hdsize'
        rw [hg.fits dsize' out (by omega), Loop.ok_bind, ← List.append_assoc]
        exact ⟨p, hp, hr⟩
    · -- The first part fills the destination.
      obtain ⟨q, hq, hfull, hmore⟩ := hg.cut dsize out hlen (by omega) hcut.left
      refine ⟨q, hq, ?_, fun dsize' hdsize' => ?_⟩
      · cases hr : g dsize (ofList out) with
        | error k =>
            rw [hr] at hfull
            exact hfull
        | ok k =>
            rw [hr] at hfull
            obtain rfl : k = ofList (out ++ q) := hfull
            exact (hh.emits dsize _ (by omega)).full hq
      · -- What the second function writes there comes behind what the first one has written.
        obtain ⟨p, hp, hr⟩ := hmore dsize' hdsize'
        cases hr' : g dsize' (ofList out) with
        | error k =>
            rw [hr'] at hr
            exact ⟨p, hp, hr⟩
        | ok k =>
            rw [hr'] at hr
            obtain rfl : k = ofList (out ++ q ++ p) := hr
            obtain ⟨p', hp', hr'⟩ := (hh.emits dsize' _ hp).orReturned
            rw [List.append_assoc (out ++ q)] at hp' hr'
            exact ⟨p ++ p', hp', hr'⟩

/-! ### The conversions -/

/-- Everything but the limit of a computation is fixed. -/
theorem Writes.of_eq {g' : Nat → Sink → Except Sink Sink} (hg : Writes g ws)
    (heq : ∀ dsize k, g' dsize k = g dsize k) (hws : ws = ws') : Writes g' ws' := by
  obtain rfl : g' = g := funext fun dsize => funext (heq dsize)
  exact hws ▸ hg

/-- The padding of one side. -/
def padding (side : Bool) (c : Char) (n : Nat) : List Char :=
  if side then List.replicate n c else []

/-- Padding is one write. -/
theorem writes_padIf (side : Bool) (fa : Fattrs) :
    Writes (fun dsize k => .ok (padIf side dsize c fa k))
      [padding side c (toSize fa.width).toNat] := by
  refine writes_of_text (fun dsize out => padIf_ofList side fa)
    (fun room => length_padText side room fa) fun room hroom => ?_
  cases side with
  | true =>
      rw [padding, if_pos rfl, List.length_replicate] at hroom
      exact if_pos hroom
  | false => rfl

/-- The prefix, or the sign. -/
def signText (f : FmtFlags) : List Char :=
  if f.dhex || f.dhexUp then
    if f.fpref then ['0', if f.dhexUp then 'X' else 'x'] else []
  else if f.ddec then
    if f.fsig then ['+'] else []
  else if f.doct then
    if f.fpref then ['0'] else []
  else []

/-- The prefix is one write for each character. -/
theorem writes_digitPrefix (f : FmtFlags) :
    Writes (fun dsize k => digitPrefix dsize f k) ((signText f).map fun c => [c]) := by
  have hhex := (writes_copyByteIp (c := '0')).bind
    (writes_copyByteIp (c := if f.dhexUp then 'X' else 'x'))
  have hdec := (writes_copyByteIp (c := '+')).ite (b := f.fsig) writes_nil
  have hoct := (writes_copyByteIp (c := '0')).ite (b := f.fpref) writes_nil
  refine ((hhex.ite (b := f.fpref) writes_nil).ite (b := f.dhex || f.dhexUp)
    (hdec.ite (b := f.ddec) (hoct.ite (b := f.doct) writes_nil))).of_eq (fun dsize k => rfl) ?_
  unfold signText
  split
  · split
    · rfl
    · rfl
  · split
    · split
      · rfl
      · rfl
    · split
      · split
        · rfl
        · rfl
      · rfl

/-- The zeros of the precision. -/
def zeroText (fa : Fattrs) : List Char :=
  List.replicate (if fa.presiction.toInt > 0 then fa.presiction.toNat else 0) '0'

/-- The zeros of a precision are one write. -/
theorem writes_digitZeros (fa : Fattrs) :
    Writes (fun dsize k => .ok (digitZeros dsize fa k)) [zeroText fa] := by
  refine writes_of_text (fun dsize out => digitZeros_ofList fa)
    (fun room => length_zerosText room fa) fun room hroom => ?_
  unfold zeroText at hroom ⊢
  unfold zerosText
  rw [List.length_replicate] at hroom
  by_cases hpos : fa.presiction.toInt > 0
  · rw [if_pos hpos] at hroom
    rw [if_pos ⟨hpos, hroom⟩, if_pos hpos]
  · rw [if_neg (fun h => hpos h.1), if_neg hpos]
    rfl

/-- The digits are one write. -/
theorem writes_digitCopy (tmpBuf : List Char) :
    Writes (fun dsize k => .ok (digitCopy dsize tmpBuf k)) [tmpBuf.reverse] := by
  refine @writes_of_text _ _ (fun room => digitsText room tmpBuf)
    (fun dsize out => digitCopy_ofList tmpBuf) (fun room => ?_) fun room hroom => ?_
  · rw [length_digitsText]
    exact Nat.min_le_left ..
  · rw [List.length_reverse] at hroom
    rw [digitsText, List.take_of_length_le hroom]

/-- The writes of a number with the digits `tmpBuf`, lowest first. -/
def digitWrites (tmpBuf : List Char) (fa : Fattrs) : List (List Char) :=
  (if fa.flags.fspace then [[' ']] else []) ++
    ([padding (!fa.flags.flj) (if fa.flags.fzero then '0' else ' ') (toSize fa.width).toNat] ++
      ((signText fa.flags).map (fun c => [c]) ++
        ([zeroText fa] ++ ([tmpBuf.reverse]
          ++ [padding fa.flags.flj ' ' (toSize fa.width).toNat]))))

/-- So a number is written in these pieces, ... -/
theorem writes_digitOut (tmpBuf : List Char) (fa : Fattrs) :
    Writes (fun dsize k => digitOut dsize tmpBuf fa k) (digitWrites tmpBuf fa) := by
  have hblank := (writes_copyByteIp (c := ' ')).ite (b := fa.flags.fspace) writes_nil
  have hpad := writes_padIf (c := if fa.flags.fzero then '0' else ' ') (!fa.flags.flj) fa
  have htail := (writes_digitZeros fa).bind
    ((writes_digitCopy tmpBuf).bind (writes_padIf (c := ' ') fa.flags.flj fa))
  refine (hblank.bind (hpad.bind ((writes_digitPrefix fa.flags).bind htail))).of_eq
    (fun dsize k => ?_) rfl
  unfold digitOut
  cases fa.flags.fspace
  all_goals rfl

/-- The writes of a string of which `len` characters are copied. -/
def stringWrites (mem : BitVec 64 → Char) (s : BitVec 64) (len : Nat) (fa : Fattrs) :
    List (List Char) :=
  let blanks := (toSize (lessSize fa.width len)).toNat
  [padding (!fa.flags.flj) ' ' blanks, (List.range len).map fun i => mem (s + BitVec.ofNat 64 i),
    padding fa.flags.flj ' ' blanks]

/-- ... a string in these ... -/
theorem writes_stringOut (mem : BitVec 64 → Char) (s : BitVec 64) (len : Nat) (fa : Fattrs) :
    Writes (fun dsize k => .ok (stringOut mem dsize s len fa k))
      (stringWrites mem s (strLen fa len) fa) := by
  have hcopy : Writes (fun dsize k => .ok (stringCopy mem dsize s (strLen fa len) k))
      [(List.range (strLen fa len)).map fun i => mem (s + BitVec.ofNat 64 i)] := by
    refine writes_of_text (fun dsize out => stringCopy_ofList mem s _)
      (fun room => length_stringText room mem s _) fun room hroom => ?_
    rw [List.length_map, List.length_range] at hroom
    exact if_pos hroom
  exact ((writes_padIf (c := ' ') (!fa.flags.flj)
    { fa with width := lessSize fa.width (strLen fa len) }).bind
      (hcopy.bind (writes_padIf (c := ' ') fa.flags.flj
        { fa with width := lessSize fa.width (strLen fa len) }))).of_eq (fun _ _ => rfl) rfl

/-- The writes of a character. -/
def charWrites (c : Char) (fa : Fattrs) : List (List Char) :=
  let blanks := (toSize (if fa.width.sle 1 then 0 else fa.width - 1)).toNat
  [padding (!fa.flags.flj) ' ' blanks, [c], padding fa.flags.flj ' ' blanks]

/-- ... and a character in these. -/
theorem writes_charOut (c : Char) (fa : Fattrs) :
    Writes (fun dsize k => charOut dsize c fa k) (charWrites c fa) :=
  ((writes_padIf (c := ' ') (!fa.flags.flj)
    { fa with width := if fa.width.sle 1 then 0 else fa.width - 1 }).bind
      (writes_copyByteIp.bind (writes_padIf (c := ' ') fa.flags.flj
        { fa with width := if fa.width.sle 1 then 0 else fa.width - 1 }))).of_eq (fun _ _ => rfl)
          rfl

end Composition

end MString
