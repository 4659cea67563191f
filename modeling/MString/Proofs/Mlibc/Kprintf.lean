import Mathlib.Data.List.Basic
import Mathlib.Data.Nat.Digits.Lemmas
import MString.Mlibc.Kprintf

/-!
# `MString.Proofs.Mlibc.Kprintf`: what formatting stores

`Sink.ofList out` is a destination that got the bytes `out`, from its start on and
without a gap. Every helper appends to such a destination.

* `copyByteIp_ofList`, `copyBytes_ofList`, `makeWidth_ofList`: what the helpers append.
* `tmpDigits_eq`: the digits of a number, lowest first.
* `Emits`: a computation that appends within `dsize` bytes and returns early only when
  these are full; `Emits.bind` composes two of them.
* `digit_ofList`, `stringOut_ofList`, `emits_charOut`: what the conversions append.
-/

set_option autoImplicit false

namespace MString

namespace Sink

/-- The bytes `out` at the start of the destination, and nothing after them. -/
def ofList (out : List Char) : Sink := ⟨out.length, fun i => out[i]?⟩

/-- The count of a sink is the number of its characters. -/
@[simp] theorem cs_ofList (out : List Char) : (ofList out).cs = out.length := rfl

end Sink

open Sink

/-- A sink is given by its characters. -/
theorem Sink.eq_ofList {k : Sink} {out : List Char} (hcs : k.cs = out.length)
    (hdest : ∀ i, k.dest i = out[i]?) : k = ofList out := by
  cases k
  simp only at hcs hdest
  rw [ofList, hcs, funext hdest]

/-- And they by it. -/
theorem Sink.ofList_injective {out out' : List Char} (h : ofList out = ofList out') : out = out' :=
  List.ext_getElem? fun i => congrFun (congrArg dest h) i

/-! ### What the helpers append -/

section Helpers

variable {dsize : Nat} {out : List Char} {c : Char}

/-- With room left, one character is added. -/
theorem copyByteIp_ofList (h : out.length < dsize) :
    copyByteIp dsize c (ofList out) = .ok (ofList (out ++ [c])) := by
  have hroom : ¬ dsize - (ofList out).cs = 0 := by
    rw [cs_ofList]
    omega
  rw [copyByteIp, if_neg hroom]
  congr 1
  refine Sink.eq_ofList (by simp) fun i => ?_
  simp only [Function.update_apply, cs_ofList, List.getElem?_append]
  by_cases hold : i < out.length
  · rw [if_pos hold, if_neg (by omega)]
    rfl
  · rw [if_neg hold]
    by_cases heq : i = out.length
    · simp [heq]
    · rw [if_neg heq, List.getElem?_eq_none (by simp only [List.length_singleton]; omega)]
      exact List.getElem?_eq_none (by omega)

/-- With none, the sink is left as it is and the conversion returns. -/
theorem copyByteIp_full (h : out.length = dsize) :
    copyByteIp dsize c (ofList out) = .error (ofList out) := by
  simp [copyByteIp, ofList, h]

/-- `memcpy` adds its bytes ... -/
theorem copyBytes_ofList (src : Nat → Char) (n : Nat) :
    copyBytes src n (ofList out) = ofList (out ++ (List.range n).map src) := by
  refine Sink.eq_ofList (by simp [copyBytes]) fun i => ?_
  have hdest : (copyBytes src n (ofList out)).dest i
      = if out.length ≤ i ∧ i < out.length + n then some (src (i - out.length)) else out[i]? := rfl
  rw [hdest, List.getElem?_append]
  by_cases hold : i < out.length
  · rw [if_neg (by omega), if_pos hold]
  · rw [if_neg hold]
    by_cases hnew : i < out.length + n
    · have hlt : i - out.length < n := by omega
      rw [if_pos ⟨by omega, hnew⟩]
      simp [hlt]
    · rw [if_neg (by omega), List.getElem?_eq_none (by omega), List.getElem?_eq_none]
      simp only [List.length_map, List.length_range]
      omega

/-- ... and `memset` copies of one character. -/
theorem setBytes_ofList (n : Nat) :
    setBytes c n (ofList out) = ofList (out ++ List.replicate n c) := by
  rw [setBytes, copyBytes_ofList, List.map_const', List.length_range]

/-- The padding that fits into `room`. -/
def widthText (room : Nat) (c : Char) (fa : Fattrs) : List Char :=
  if (toSize fa.width).toNat ≤ room then List.replicate (toSize fa.width).toNat c else []

/-- The padding of one side. -/
def padText (side : Bool) (room : Nat) (c : Char) (fa : Fattrs) : List Char :=
  if side then widthText room c fa else []

/-- The zeros that fit into `room`. -/
def zerosText (room : Nat) (fa : Fattrs) : List Char :=
  if fa.presiction.toInt > 0 ∧ fa.presiction.toNat ≤ room then
    List.replicate fa.presiction.toNat '0'
  else []

/-- The digits that fit into `room`: the low ones. -/
def digitsText (room : Nat) (tmpBuf : List Char) : List Char := (tmpBuf.take room).reverse

/-- The string, if it fits into `room`. -/
def stringText (room : Nat) (mem : BitVec 64 → Char) (s : BitVec 64) (len : Nat) : List Char :=
  if len ≤ room then (List.range len).map fun i => mem (s + BitVec.ofNat 64 i) else []

/-- Padding stays inside of the room, ... -/
theorem length_padText (side : Bool) (room : Nat) (fa : Fattrs) :
    (padText side room c fa).length ≤ room := by
  unfold padText widthText
  split
  · split
    · simpa using by assumption
    · simp
  · simp

/-- ... and so do the zeros of the precision, ... -/
theorem length_zerosText (room : Nat) (fa : Fattrs) : (zerosText room fa).length ≤ room := by
  unfold zerosText
  split
  · simpa using (by assumption : _ ∧ _).2
  · simp

/-- ... the digits ... -/
theorem length_digitsText (room : Nat) (tmpBuf : List Char) :
    (digitsText room tmpBuf).length = min room tmpBuf.length := by
  simp [digitsText]

/-- ... and the characters of a string. -/
theorem length_stringText (room : Nat) (mem : BitVec 64 → Char) (s : BitVec 64) (len : Nat) :
    (stringText room mem s len).length ≤ room := by
  unfold stringText
  split
  · simpa using by assumption
  · simp

/-- `make_width` adds the padding that fits. -/
theorem makeWidth_ofList (fa : Fattrs) :
    makeWidth dsize c fa (ofList out) = ofList (out ++ widthText (dsize - out.length) c fa) := by
  unfold makeWidth widthText
  by_cases hzero : fa.width = 0
  · have hsize : (toSize 0).toNat = 0 := by decide
    rw [if_pos (.inl hzero), hzero, hsize]
    simp
  · by_cases hlarge : (toSize fa.width).toNat ≤ dsize - out.length
    · have hfits : ¬ (fa.width = 0 ∨ (toSize fa.width).toNat > dsize - (ofList out).cs) := by
        rw [cs_ofList]
        simp only [not_or, not_lt]
        exact ⟨hzero, hlarge⟩
      rw [if_neg hfits, if_pos hlarge, setBytes_ofList]
    · have hover : (toSize fa.width).toNat > dsize - (ofList out).cs := by
        rw [cs_ofList]
        omega
      rw [if_pos (.inr hover), if_neg hlarge, List.append_nil]

/-- So it does on the side where it is asked for. -/
theorem padIf_ofList (side : Bool) (fa : Fattrs) :
    padIf side dsize c fa (ofList out)
      = ofList (out ++ padText side (dsize - out.length) c fa) := by
  cases side with
  | true => exact makeWidth_ofList fa
  | false => simp [padIf, padText]

/-- The zeros of the precision that fit are added. -/
theorem digitZeros_ofList (fa : Fattrs) :
    digitZeros dsize fa (ofList out) = ofList (out ++ zerosText (dsize - out.length) fa) := by
  unfold digitZeros zerosText
  by_cases h : fa.presiction.toInt > 0 ∧ fa.presiction.toNat ≤ dsize - out.length
  · rw [if_pos h, ← setBytes_ofList]
    exact if_pos h
  · rw [if_neg h, List.append_nil]
    exact if_neg h

/-- Copying the first `j` characters from the last one down. -/
theorem map_range_getD (tmpBuf : List Char) {j : Nat} (hj : j ≤ tmpBuf.length) :
    ((List.range j).map fun i => tmpBuf.getD (j - 1 - i) '\x00') = (tmpBuf.take j).reverse := by
  refine List.ext_getElem (by simp [hj]) fun i h1 h2 => ?_
  simp only [List.length_map, List.length_range] at h1
  simp only [List.getElem_map, List.getElem_range, List.getElem_reverse, List.length_take,
    List.getElem_take, List.getD_eq_getElem?_getD]
  rw [List.getElem?_eq_getElem (by omega)]
  simp only [Option.getD_some, Nat.min_eq_left hj]

/-- The digits that fit are added, the last one of the buffer first. -/
theorem digitCopy_ofList (tmpBuf : List Char) :
    digitCopy dsize tmpBuf (ofList out)
      = ofList (out ++ digitsText (dsize - out.length) tmpBuf) := by
  have htake : tmpBuf.take (min tmpBuf.length (dsize - out.length))
      = tmpBuf.take (dsize - out.length) := by
    rw [List.take_eq_take_iff]
    omega
  have hcopy : digitCopy dsize tmpBuf (ofList out)
      = copyBytes (fun i => tmpBuf.getD (min tmpBuf.length (dsize - out.length) - 1 - i) '\x00')
          (min tmpBuf.length (dsize - out.length)) (ofList out) := rfl
  rw [hcopy, copyBytes_ofList, map_range_getD tmpBuf (Nat.min_le_left _ _), htake, digitsText]

/-- The characters of a string that fit are added. -/
theorem stringCopy_ofList (mem : BitVec 64 → Char) (s : BitVec 64) (len : Nat) :
    stringCopy mem dsize s len (ofList out)
      = ofList (out ++ stringText (dsize - out.length) mem s len) := by
  unfold stringCopy stringText
  by_cases h : len ≤ dsize - out.length
  · rw [if_pos h, ← copyBytes_ofList]
    exact if_pos h
  · rw [if_neg h, List.append_nil]
    exact if_neg h

end Helpers

/-! ### Numbers -/

/-- The digits of a number, lowest first. Zero has one. -/
def digitsOf (base d : Nat) : List Nat := if d = 0 then [0] else Nat.digits base d

/-- One turn of the division gives the last digit. -/
theorem digitsOf_step {base d : Nat} (hb : 2 ≤ base) :
    digitsOf base d = d % base :: if d / base = 0 then [] else digitsOf base (d / base) := by
  unfold digitsOf
  by_cases hd : d = 0
  · simp [hd]
  · rw [if_neg hd, Nat.digits_def' (by omega) (by omega)]
    by_cases hq : d / base = 0
    · simp [hq]
    · simp [hq]

/-- A number below `base ^ n` has at most `n` digits. -/
theorem length_digitsOf {base d n : Nat} (hb : 2 ≤ base) (hn : 1 ≤ n) (hd : d < base ^ n) :
    (digitsOf base d).length ≤ n := by
  unfold digitsOf
  split
  · simpa using hn
  · exact (Nat.digits_length_le_iff hb d).mpr hd

/-- The loop that fills `tmp_buf`. -/
theorem run_tmpTurn {base : Nat} {upper : Bool} (hb : 2 ≤ base) :
    ∀ (n d : Nat) (tmpBuf : List Char), (digitsOf base d).length ≤ n →
      tmpBuf.length + (digitsOf base d).length ≤ FMT_DBUF_SIZE →
      Loop.run .diverges (tmpTurn base upper) n (d, tmpBuf)
        = .ok (tmpBuf ++ (digitsOf base d).map (numsAt upper)) := by
  intro n
  induction n with
  | zero =>
      intro d tmpBuf hn _
      rw [digitsOf_step hb] at hn
      simp at hn
  | succ n ih =>
      intro d tmpBuf hn hbuf
      rw [digitsOf_step hb] at hn hbuf ⊢
      simp only [List.length_cons] at hn hbuf
      have hroom : ¬ tmpBuf.length ≥ FMT_DBUF_SIZE := by omega
      by_cases hq : d / base = 0
      · rw [if_pos hq]
        exact Loop.run_exit (by simp [tmpTurn, hroom, hq])
      · rw [if_neg hq] at hn hbuf ⊢
        have hturn : tmpTurn base upper (d, tmpBuf)
            = .ok (.inl (d / base, tmpBuf ++ [numsAt upper (d % base)])) := by
          simp [tmpTurn, hroom, hq]
        rw [Loop.run_continue hturn, ih _ _ (by omega)
          (by simp only [List.length_append, List.length_singleton]; omega)]
        simp

/-- `tmp_buf` is large enough for every base and every number. -/
theorem tmpDigits_eq {f : FmtFlags} {d : Nat} (hbase : 8 ≤ baseOf f) (hd : d < 2 ^ 64) :
    tmpDigits f d
      = .ok ((digitsOf (baseOf f) d).map (numsAt (!f.doct && !f.ddec && f.dhexUp))) := by
  have hpow : d < baseOf f ^ 22 := by
    calc d < 2 ^ 64 := hd
      _ ≤ 8 ^ 22 := by decide
      _ ≤ baseOf f ^ 22 := Nat.pow_le_pow_left hbase 22
  have hlen := length_digitsOf (by omega) (by omega) hpow
  have hrun := @run_tmpTurn (baseOf f) (!f.doct && !f.ddec && f.dhexUp) (by omega)
    TURNS d [] (by unfold TURNS; omega) (by simp only [List.length_nil, FMT_DBUF_SIZE]; omega)
  exact hrun

/-! ### Appending within a limit -/

/-- The computation appends to `out` at most up to `dsize` bytes, and returns early only
when these are full. -/
def Emits (dsize : Nat) (out : List Char) (r : Except Sink Sink) : Prop :=
  ∃ p, (out ++ p).length ≤ dsize ∧
    (r = .ok (ofList (out ++ p)) ∨ r = .error (ofList (out ++ p)) ∧ (out ++ p).length = dsize)

section Emitting

variable {dsize : Nat} {out : List Char} {c : Char}

/-- What has been added and fits. -/
theorem emits_ok {p : List Char} (h : (out ++ p).length ≤ dsize) :
    Emits dsize out (.ok (ofList (out ++ p))) := ⟨p, h, .inl rfl⟩

/-- Nothing has been added. -/
theorem emits_nil (h : out.length ≤ dsize) : Emits dsize out (.ok (ofList out)) :=
  ⟨[], by simpa using h, .inl (by simp)⟩

/-- A single character is added, or the sink is full. -/
theorem emits_copyByteIp (h : out.length ≤ dsize) :
    Emits dsize out (copyByteIp dsize c (ofList out)) := by
  by_cases hroom : out.length < dsize
  · exact ⟨[c], by simp; omega, .inl (copyByteIp_ofList hroom)⟩
  · have hfull : out.length = dsize := by omega
    exact ⟨[], by simp [hfull], .inr ⟨by simpa using copyByteIp_full hfull, by simpa using hfull⟩⟩

/-- What comes after the bytes `p` comes after what `p` was appended to. -/
theorem Emits.of_append {p : List Char} {r : Except Sink Sink} (h : Emits dsize (out ++ p) r) :
    Emits dsize out r := by
  obtain ⟨q, hq, hr⟩ := h
  rw [List.append_assoc] at hq hr
  exact ⟨p ++ q, hq, hr⟩

/-- Two steps that add, one after the other. -/
theorem Emits.bind {r : Except Sink Sink} {f : Sink → Except Sink Sink} (h : Emits dsize out r)
    (hf : ∀ p, (out ++ p).length ≤ dsize → Emits dsize (out ++ p) (f (ofList (out ++ p)))) :
    Emits dsize out (r >>= f) := by
  obtain ⟨p, hp, rfl | ⟨rfl, hfull⟩⟩ := h
  · exact (hf p hp).of_append
  · exact ⟨p, hp, .inr ⟨rfl, hfull⟩⟩

/-- One of two steps that add. -/
theorem emits_ite {b : Prop} [Decidable b] {r r' : Except Sink Sink} (h : Emits dsize out r)
    (h' : Emits dsize out r') : Emits dsize out (if b then r else r') := by
  split
  · exact h
  · exact h'

/-- The prefix of a number is added as far as it fits. -/
theorem emits_digitPrefix (f : FmtFlags) (h : out.length ≤ dsize) :
    Emits dsize out (digitPrefix dsize f (ofList out)) := by
  unfold digitPrefix
  refine emits_ite (emits_ite ?_ (emits_nil h)) (emits_ite ?_ (emits_ite ?_ (emits_nil h)))
  · exact (emits_copyByteIp h).bind fun p hp => emits_copyByteIp hp
  · exact emits_ite (emits_copyByteIp h) (emits_nil h)
  · exact emits_ite (emits_copyByteIp h) (emits_nil h)

/-- With its padding, the text stays inside of the buffer. -/
theorem length_append_padText {side : Bool} {fa : Fattrs} (h : out.length ≤ dsize) :
    (out ++ padText side (dsize - out.length) c fa).length ≤ dsize := by
  have hpad := length_padText (c := c) side (dsize - out.length) fa
  rw [List.length_append]
  omega

/-- `__digit` up to the prefix. -/
theorem emits_digitHead (fa : Fattrs) (h : out.length ≤ dsize) :
    Emits dsize out ((if fa.flags.fspace then copyByteIp dsize ' ' (ofList out)
      else .ok (ofList out)) >>= fun k =>
        digitPrefix dsize fa.flags (padIf (!fa.flags.flj) dsize c fa k)) := by
  refine (emits_ite (emits_copyByteIp h) (emits_nil h)).bind fun p hp => ?_
  rw [padIf_ofList]
  exact (emits_digitPrefix fa.flags (length_append_padText hp)).of_append

/-- `__digit` from the zeros on: it stores something if there is room. -/
theorem digitTail_ofList {tmpBuf : List Char} (fa : Fattrs) (hbuf : tmpBuf ≠ [])
    (h : out.length ≤ dsize) :
    ∃ p, padIf fa.flags.flj dsize c fa (digitCopy dsize tmpBuf (digitZeros dsize fa (ofList out)))
        = ofList (out ++ p) ∧
      (out ++ p).length ≤ dsize ∧ (p = [] → out.length = dsize) := by
  have hzeros := length_zerosText (dsize - out.length) fa
  have hdigits := length_digitsText
    (dsize - (out ++ zerosText (dsize - out.length) fa).length) tmpBuf
  have hpos : 0 < tmpBuf.length := List.length_pos_iff.mpr hbuf
  rw [digitZeros_ofList, digitCopy_ofList, padIf_ofList]
  generalize zerosText (dsize - out.length) fa = zeros at hzeros hdigits ⊢
  generalize digitsText (dsize - (out ++ zeros).length) tmpBuf = digits at hdigits ⊢
  rw [List.length_append] at hdigits
  have hroom : (out ++ zeros ++ digits).length ≤ dsize := by
    simp only [List.length_append]
    omega
  have hpad := @length_append_padText _ _ c fa.flags.flj fa hroom
  generalize padText fa.flags.flj _ c fa = pad at hpad ⊢
  simp only [List.append_assoc] at hpad ⊢
  refine ⟨zeros ++ (digits ++ pad), rfl, hpad, fun hnil => ?_⟩
  rw [← List.append_assoc] at hnil
  have hz : zeros = [] := (List.append_eq_nil_iff.mp (List.append_eq_nil_iff.mp hnil).1).1
  have hd : digits = [] := (List.append_eq_nil_iff.mp (List.append_eq_nil_iff.mp hnil).1).2
  rw [hz, hd] at hdigits
  simp only [List.length_nil] at hdigits
  omega

/-- `__digit` stores something if there is room. -/
theorem digitOut_ofList {tmpBuf : List Char} (fa : Fattrs) (hbuf : tmpBuf ≠ [])
    (h : out.length ≤ dsize) :
    ∃ p, orReturned (digitOut dsize tmpBuf fa (ofList out)) = ofList (out ++ p) ∧
      (out ++ p).length ≤ dsize ∧ (p = [] → out.length = dsize) := by
  have hsplit : digitOut dsize tmpBuf fa (ofList out)
      = ((if fa.flags.fspace then copyByteIp dsize ' ' (ofList out) else .ok (ofList out)) >>=
          fun k => digitPrefix dsize fa.flags
            (padIf (!fa.flags.flj) dsize (if fa.flags.fzero then '0' else ' ') fa k)) >>=
          fun k => .ok (padIf fa.flags.flj dsize ' ' fa
            (digitCopy dsize tmpBuf (digitZeros dsize fa k))) := by
    rw [bind_assoc]
    unfold digitOut
    cases fa.flags.fspace
    all_goals rfl
  obtain ⟨p, hp, hhead | ⟨hhead, hfull⟩⟩ :=
    emits_digitHead (c := if fa.flags.fzero then '0' else ' ') fa h
  · rw [hsplit, hhead]
    obtain ⟨q, htail, hq, hnil⟩ := digitTail_ofList (c := ' ') fa hbuf hp
    rw [List.append_assoc] at htail hq
    refine ⟨p ++ q, htail, hq, fun hpq => ?_⟩
    obtain ⟨rfl, rfl⟩ := List.append_eq_nil_iff.mp hpq
    simpa using hnil rfl
  · rw [hsplit, hhead]
    exact ⟨p, rfl, hp, fun hnil => by simpa [hnil] using hfull⟩

/-- `__digit` appends, and stores something if there is room. -/
theorem digit_ofList (number : BitVec 64) (fa : Fattrs) (hbase : 8 ≤ baseOf fa.flags)
    (h : out.length ≤ dsize) :
    ∃ p, digit dsize number fa (ofList out) = .ok (ofList (out ++ p)) ∧
      (out ++ p).length ≤ dsize ∧ (p = [] → out.length = dsize) := by
  have hdigits := tmpDigits_eq hbase number.isLt
  generalize hbuf : (digitsOf (baseOf fa.flags) number.toNat).map _ = tmpBuf at hdigits
  have hne : tmpBuf ≠ [] := by
    rw [← hbuf, digitsOf_step (by omega)]
    simp
  obtain ⟨p, hout, hp⟩ := digitOut_ofList (digitAttrs fa tmpBuf.length) hne h
  refine ⟨p, ?_, hp⟩
  rw [digit, hdigits, Loop.ok_bind, hout]

/-! ### Strings and characters -/

/-- A string adds a text that fits. -/
theorem stringOut_ofList (mem : BitVec 64 → Char) (s : BitVec 64) (len : Nat) (fa : Fattrs)
    (h : out.length ≤ dsize) :
    ∃ p, stringOut mem dsize s len fa (ofList out) = ofList (out ++ p) ∧
      (out ++ p).length ≤ dsize := by
  unfold stringOut
  simp only [padIf_ofList, stringCopy_ofList]
  generalize ({ fa with width := lessSize fa.width (strLen fa len) } : Fattrs) = fa'
  have hleft := @length_append_padText _ _ ' ' (!fa.flags.flj) fa' h
  generalize padText (!fa.flags.flj) _ ' ' fa' = left at hleft ⊢
  have hstring := length_stringText (dsize - (out ++ left).length) mem s (strLen fa len)
  generalize stringText _ mem s (strLen fa len) = text at hstring ⊢
  have hroom : (out ++ left ++ text).length ≤ dsize := by
    rw [List.length_append]
    omega
  have hright := @length_append_padText _ _ ' ' fa.flags.flj fa' hroom
  generalize padText fa.flags.flj _ ' ' fa' = right at hright ⊢
  simp only [List.append_assoc] at hright ⊢
  exact ⟨left ++ (text ++ right), rfl, hright⟩

/-- So does a character. -/
theorem emits_charOut (fa : Fattrs) (h : out.length ≤ dsize) :
    Emits dsize out (charOut dsize c fa (ofList out)) := by
  unfold charOut
  simp only [padIf_ofList]
  refine Emits.of_append ((emits_copyByteIp (length_append_padText h)).bind fun p hp => ?_)
  rw [padIf_ofList]
  exact emits_ok (length_append_padText hp)

end Emitting

end MString
