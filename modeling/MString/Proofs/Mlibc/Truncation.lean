import MString.Proofs.Mlibc.Fields
import MString.Proofs.Mlibc.Numerals

/-!
# `MString.Proofs.Mlibc.Truncation`: the same format with less room

Two runs of `vsnprintf` on the same format and arguments, the first one with less room.
They go side by side while there is room for both. A conversion for which the room of the
first one ends between two of its writes leaves a full destination, and nothing is stored
in it any more.

* `turn_cases`: what a turn does that depends on the room.
* `CutsCleanly`: the room of a conversion does not end inside one of its writes.
* `vsnprintf_truncates`: then the smaller output is the beginning of the larger one.
-/

set_option autoImplicit false

namespace MString

open Sink

/-- What has been stored behind a turn. -/
def sinkOf : KprintfState ⊕ Sink → Sink := Sum.elim KprintfState.sink id

/-- The conversion that a state comes to, if it comes to one. -/
def Converts (env : Strings) (args : Nat → BitVec 64) (fmt : List Char) (s s' : KprintfState)
    (v : Value) : Prop :=
  s.pers = true ∧
    kprintfSwitch env args fmt { s with pers := false, fa := s.fa.counted 1 } = .convert s' v

/-- The writes of a conversion. -/
def conversionWrites (env : Strings) (fa : Fattrs) : Value → Except Fault (List (List Char))
  | .num d => .ok (numberWrites fa d)
  | .str p => do
      let len ← strlen env.mem p
      .ok (stringWrites env.mem p (strLen fa len) fa)
  | .chr c => .ok (charWrites c fa)

/-- The conversion that a state comes to has room for all its writes, or up to the end of
one of them. -/
def CutsCleanly (env : Strings) (args : Nat → BitVec 64) (dsize : Nat) (fmt : List Char)
    (s : KprintfState) : Prop :=
  ∀ s' v, Converts env args fmt s s' v → ∀ ws, conversionWrites env s'.fa v = .ok ws →
    CutsBetween (dsize - s.sink.cs) ws

section Turns

variable {env : Strings} {args : Nat → BitVec 64} {fmt : List Char} {s s' : KprintfState}
  {v : Value}

/-- A decimal digit is the character of a number below ten. -/
theorem exists_digitChar {c : Char} (h : isdigit c = true) :
    ∃ d : Fin 10, c = Nat.digitChar d.val := by
  simp only [isdigit, Bool.and_eq_true, decide_eq_true_eq] at h
  have hlow : 48 ≤ c.toNat := h.1
  have hhigh : c.toNat ≤ 57 := h.2
  have hc := Char.ofNat_toNat c
  generalize c.toNat = n at hlow hhigh hc
  refine ⟨⟨n - 48, by omega⟩, ?_⟩
  rw [← hc]
  interval_cases n <;> rfl

/-- What follows the `switch` is the same for every room, an echo, or a conversion. -/
theorem afterSwitch_cases (env : Strings) (fmt : List Char) (w : Switch) (hkeeps : w.Keeps s) :
    (∃ r, sinkOf r = s.sink ∧ ∀ dsize, afterSwitch env dsize fmt w = .ok r) ∨
    (∃ s', s'.sink = s.sink ∧ ∀ dsize, afterSwitch env dsize fmt w = .ok (echo dsize fmt s')) ∨
    ∃ s' v, w = .convert s' v := by
  cases w with
  | next s' => exact .inl ⟨.inl { s' with fmt := s'.fmt + 1 }, hkeeps.1, fun _ => rfl⟩
  | broken s' => exact .inr (.inl ⟨s', hkeeps, fun _ => rfl⟩)
  | convert s' v => exact .inr (.inr ⟨s', v, rfl⟩)

/-- A turn is the same for every room, an echo, or a conversion. -/
theorem turn_cases (env : Strings) (args : Nat → BitVec 64) (fmt : List Char) (s : KprintfState) :
    (∃ r, sinkOf r = s.sink ∧ ∀ dsize, vsnprintfTurn env args dsize fmt s = .ok r) ∨
    (∃ s', s'.sink = s.sink ∧
      ∀ dsize, vsnprintfTurn env args dsize fmt s = .ok (echo dsize fmt s')) ∨
    ∃ s' v, Converts env args fmt s s' v ∧ (Switch.convert s' v).Keeps s ∧
      ∀ dsize, vsnprintfTurn env args dsize fmt s = convert env dsize s' v := by
  obtain ⟨pos, pers, fa, ap, k⟩ := s
  by_cases hnul : charAt fmt pos = '\x00'
  · -- The end of the format returns, whatever the size is.
    exact .inl ⟨.inr k, rfl, fun dsize => by simp [vsnprintfTurn, hnul]⟩
  cases pers with
  | false =>
      by_cases hpercent : charAt fmt pos = '%'
      · exact .inl ⟨_, rfl, fun dsize => turn_percent hpercent⟩
      · -- An ordinary character is echoed.
        exact .inr (.inl ⟨⟨pos, false, fa, ap, k⟩, rfl, fun dsize => by
          simp [vsnprintfTurn, hnul, hpercent]⟩)
  | true =>
      by_cases hdigit : isdigit (charAt fmt pos) = true
      · by_cases hlmask : fa.flags.lmask = true
        · -- A digit behind a length modifier ends the run.
          exact .inl ⟨.inr k, rfl, fun dsize => by simp [vsnprintfTurn, hnul, hdigit, hlmask]⟩
        rw [Bool.not_eq_true] at hlmask
        obtain ⟨d, hd⟩ := exists_digitChar hdigit
        by_cases hdot : fa.flags.dot = true
        · exact .inl ⟨_, rfl, fun dsize => turn_precision hd hlmask hdot⟩
        rw [Bool.not_eq_true] at hdot
        by_cases hzero : d = 0
        · -- A zero in front of the width is a flag, behind its first digit it is refused.
          subst hzero
          have hturn := fun dsize => @turn_flag_switch env args dsize fmt pos ap fa k .zero hd
            fun _ => ⟨hlmask, hdot⟩
          have hkeeps := @flagCase_keeps ⟨pos, true, fa.counted 1, ap, k⟩
            (Flag.zero.apply fa.flags) (Flag.zero.refused fa.flags)
          rcases afterSwitch_cases env fmt _ hkeeps with h | h | ⟨s', v, hw⟩
          · obtain ⟨r, hr, hafter⟩ := h
            exact .inl ⟨r, hr, fun dsize => (hturn dsize).trans (hafter dsize)⟩
          · obtain ⟨s', hs', hafter⟩ := h
            exact .inr (.inl ⟨s', hs', fun dsize => (hturn dsize).trans (hafter dsize)⟩)
          · unfold flagCase at hw
            split at hw
            all_goals cases hw
        · exact .inl ⟨_, rfl, fun dsize => turn_width hzero hd hlmask hdot⟩
      · rw [Bool.not_eq_true] at hdigit
        have hturn := fun dsize => @turn_switch_char env args dsize fmt pos ap fa k _ rfl hnul
          hdigit
        have hkeeps := kprintfSwitch_keeps env args fmt ⟨pos, false, fa.counted 1, ap, k⟩
        -- Any other character goes to the switch, which does not know the size. What it hands
        -- to `convert` is the only thing that prints.
        rcases afterSwitch_cases env fmt _ hkeeps with h | h | ⟨s', v, hw⟩
        · obtain ⟨r, hr, hafter⟩ := h
          exact .inl ⟨r, hr, fun dsize => (hturn dsize).trans (hafter dsize)⟩
        · obtain ⟨s', hs', hafter⟩ := h
          exact .inr (.inl ⟨s', hs', fun dsize => (hturn dsize).trans (hafter dsize)⟩)
        · rw [hw] at hkeeps
          refine .inr (.inr ⟨s', v, ⟨rfl, hw⟩, hkeeps, fun dsize => ?_⟩)
          rw [hturn dsize, hw]
          rfl

/-- Two turns with different room: they end alike, or the first one leaves a full
destination and the second one goes on from there. -/
def AlikeTurns (dsize dsize' : Nat) (r r' : KprintfState ⊕ Sink) : Prop :=
  (r = r' ∧ ∃ out, sinkOf r = ofList out ∧ out.length ≤ dsize) ∨
    ∃ out p, sinkOf r = ofList out ∧ out.length = dsize ∧ sinkOf r' = ofList (out ++ p) ∧
      (out ++ p).length ≤ dsize'

variable {dsize dsize' : Nat} {out : List Char}

/-- A turn that has gone on has filled the field up to where it stands. -/
theorem sinkOf_of_progress {r : KprintfState ⊕ Sink} (h : Progress dsize fmt out s r) :
    Filled dsize out (sinkOf r) := by
  cases r with
  | inl s' => exact h.1
  | inr k => exact h

/-- Nothing is stored in a full destination. -/
theorem alike_of_full (env : Strings) (args : Nat → BitVec 64) (fmt : List Char)
    (hs : s.sink = ofList out) (hfull : out.length = dsize) (hle : dsize ≤ dsize') :
    ∃ r r', vsnprintfTurn env args dsize fmt s = .ok r ∧
      vsnprintfTurn env args dsize' fmt s = .ok r' ∧ AlikeTurns dsize dsize' r r' := by
  obtain ⟨r, hr, hprogress⟩ := @vsnprintfTurn_total dsize fmt s out env args hs (by omega)
  obtain ⟨r', hr', hprogress'⟩ := @vsnprintfTurn_total dsize' fmt s out env args hs (by omega)
  obtain ⟨p, hp, hlen⟩ := sinkOf_of_progress hprogress
  obtain ⟨p', hp', hlen'⟩ := sinkOf_of_progress hprogress'
  rw [List.length_append] at hlen
  obtain rfl : p = [] := List.length_eq_zero_iff.mp (by omega)
  rw [List.append_nil] at hp
  exact ⟨r, r', hr, hr', .inr ⟨out, p', hp, hfull, hp', hlen'⟩⟩

/-- A number is converted when its digits have gone to the sink. -/
theorem convert_num_sink {d : BitVec 64} {q : List Char} (hbase : 8 ≤ baseOf s'.fa.flags)
    (hs : s'.sink = ofList out) (hq : q ≠ [])
    (hout : orReturned (digitOut dsize (numberBuf s'.fa.flags d.toNat)
      (digitAttrs s'.fa (numberBuf s'.fa.flags d.toNat).length) (ofList out)) = ofList (out ++ q)) :
    convert env dsize s' (.num d)
      = .ok (.inl { s' with fmt := s'.fmt + 1, fa := {}, sink := ofList (out ++ q) }) := by
  have hdigit : digit dsize d s'.fa s'.sink = .ok (ofList (out ++ q)) := by
    rw [digit_eq d s'.fa hbase, hs, hout]
  have hpos := List.length_pos_iff.mpr hq
  have hgrown : ¬ (ofList (out ++ q)).cs - s'.sink.cs = 0 := by
    rw [hs, cs_ofList, cs_ofList, List.length_append]
    omega
  unfold convert
  dsimp only
  rw [hdigit, Loop.ok_bind, if_neg hgrown]

/-- What is written into some room is written into more, or the room fills up in between
two writes and the rest follows. -/
theorem convert_num_alike {d : BitVec 64} (hkeeps : (Switch.convert s' (.num d)).Keeps s)
    (hs : s.sink = ofList out) (hroom : out.length < dsize) (hle : dsize ≤ dsize')
    (hcut : CutsBetween (dsize - out.length) (numberWrites s'.fa d)) :
    ∃ r r', convert env dsize s' (.num d) = .ok r ∧ convert env dsize' s' (.num d) = .ok r' ∧
      AlikeTurns dsize dsize' r r' := by
  obtain ⟨hsink, -, hbase⟩ := hkeeps
  rw [hs] at hsink
  have hwrites := writes_digitOut (numberBuf s'.fa.flags d.toNat)
    (digitAttrs s'.fa (numberBuf s'.fa.flags d.toNat).length)
  by_cases hfits : out.length + (numberWrites s'.fa d).flatten.length ≤ dsize
  · refine ⟨_, _, convert_num d hbase hsink hfits, convert_num d hbase hsink (by omega),
      .inl ⟨rfl, _, rfl, ?_⟩⟩
    rwa [List.length_append]
  · obtain ⟨q, hq, hfull, hmore⟩ := hwrites.cut dsize out (by omega)
      (by exact Nat.lt_of_not_le hfits) hcut
    obtain ⟨p, hp, hlonger⟩ := hmore dsize' hle
    -- A number that stored nothing would end the run.
    have hne : q ≠ [] := by
      rintro rfl
      rw [List.append_nil] at hq
      omega
    rw [List.append_assoc] at hlonger
    refine ⟨_, _, convert_num_sink hbase hsink hne hfull,
      convert_num_sink hbase hsink ?_ hlonger,
      .inr ⟨out ++ q, p, rfl, hq, by simp [sinkOf], hp⟩⟩
    exact fun h => hne (List.append_eq_nil_iff.mp h).1

/-- A string is converted alike for two sizes, when the smaller one does not cut through a
write. -/
theorem convert_str_alike {b : BitVec 64} (hkeeps : (Switch.convert s' (.str b)).Keeps s)
    (hs : s.sink = ofList out) (hroom : out.length < dsize) (hle : dsize ≤ dsize')
    {len : Nat} (hlen : strlen env.mem b = .ok len)
    (hcut : CutsBetween (dsize - out.length) (stringWrites env.mem b (strLen s'.fa len) s'.fa)) :
    ∃ r r', convert env dsize s' (.str b) = .ok r ∧ convert env dsize' s' (.str b) = .ok r' ∧
      AlikeTurns dsize dsize' r r' := by
  obtain ⟨hsink, -⟩ := hkeeps
  rw [hs] at hsink
  have hwrites := writes_stringOut env.mem b len s'.fa
  have hconvert : ∀ n, convert env n s' (.str b) = .ok (.inl { s' with
      fmt := s'.fmt + 1, fa := {}, sink := stringOut env.mem n b len s'.fa (ofList out) }) := by
    intro n
    unfold convert
    dsimp only
    rw [hlen, Loop.ok_bind, hsink]
  rw [hconvert, hconvert]
  refine ⟨_, _, rfl, rfl, ?_⟩
  by_cases hfits :
      out.length + (stringWrites env.mem b (strLen s'.fa len) s'.fa).flatten.length ≤ dsize
  · have h := Except.ok.inj (hwrites.fits dsize out hfits)
    have h' := Except.ok.inj (hwrites.fits dsize' out (by omega))
    rw [h, h']
    refine .inl ⟨rfl, _, rfl, ?_⟩
    rwa [List.length_append]
  · obtain ⟨q, hq, hfull, hmore⟩ := hwrites.cut dsize out (by omega) (Nat.lt_of_not_le hfits) hcut
    obtain ⟨p, hp, hlonger⟩ := hmore dsize' hle
    exact .inr ⟨out ++ q, p, hfull, hq, hlonger, hp⟩

/-- So is a character. -/
theorem convert_chr_alike {c : Char} (hkeeps : (Switch.convert s' (.chr c)).Keeps s)
    (hs : s.sink = ofList out) (hroom : out.length < dsize) (hle : dsize ≤ dsize')
    (hcut : CutsBetween (dsize - out.length) (charWrites c s'.fa)) :
    ∃ r r', convert env dsize s' (.chr c) = .ok r ∧ convert env dsize' s' (.chr c) = .ok r' ∧
      AlikeTurns dsize dsize' r r' := by
  obtain ⟨hsink, -⟩ := hkeeps
  rw [hs] at hsink
  have hwrites := writes_charOut c s'.fa
  -- For any size, the turn goes on when the character has been printed, and else ends with what
  -- fits.
  have hconvert : ∀ n, ∃ r, convert env n s' (.chr c) = .ok r ∧
      sinkOf r = orReturned (charOut n c s'.fa (ofList out)) ∧
      (∀ k, charOut n c s'.fa (ofList out) = .ok k →
        r = .inl { s' with fmt := s'.fmt + 1, fa := {}, sink := k }) := by
    intro n
    unfold convert
    dsimp only
    rw [hsink]
    cases charOut n c s'.fa (ofList out) with
    | error k => exact ⟨_, rfl, rfl, fun k h => nomatch h⟩
    | ok k => exact ⟨_, rfl, rfl, fun k' h => by rw [Except.ok.inj h]⟩
  obtain ⟨r, hr, hsinkOf, hok⟩ := hconvert dsize
  obtain ⟨r', hr', hsinkOf', hok'⟩ := hconvert dsize'
  refine ⟨r, r', hr, hr', ?_⟩
  by_cases hfits : out.length + (charWrites c s'.fa).flatten.length ≤ dsize
  · rw [hok _ (hwrites.fits dsize out hfits), hok' _ (hwrites.fits dsize' out (by omega))]
    refine .inl ⟨rfl, _, rfl, ?_⟩
    rwa [List.length_append]
  · -- The smaller destination is full at the cut, and the larger one goes on from there.
    obtain ⟨q, hq, hfull, hmore⟩ := hwrites.cut dsize out (by omega) (Nat.lt_of_not_le hfits) hcut
    obtain ⟨p, hp, hlonger⟩ := hmore dsize' hle
    exact .inr ⟨out ++ q, p, hsinkOf.trans hfull, hq, hsinkOf'.trans hlonger, hp⟩

/-- A conversion with some room in both. -/
theorem convert_alike (hkeeps : (Switch.convert s' v).Keeps s) (hs : s.sink = ofList out)
    (hroom : out.length < dsize) (hle : dsize ≤ dsize')
    (hcut : ∀ ws, conversionWrites env s'.fa v = .ok ws → CutsBetween (dsize - out.length) ws) :
    ∃ r r', convert env dsize s' v = .ok r ∧ convert env dsize' s' v = .ok r' ∧
      AlikeTurns dsize dsize' r r' := by
  cases v with
  | num d => exact convert_num_alike hkeeps hs hroom hle (hcut _ rfl)
  | str b =>
      obtain ⟨len, hlen⟩ := strlen_total env b
      refine convert_str_alike hkeeps hs hroom hle hlen (hcut _ ?_)
      rw [conversionWrites, hlen]
      rfl
  | chr c => exact convert_chr_alike hkeeps hs hroom hle (hcut _ rfl)

/-- The two turns from one state. -/
theorem turn_alike (hs : s.sink = ofList out) (hlen : out.length ≤ dsize) (hle : dsize ≤ dsize')
    (hcut : CutsCleanly env args dsize fmt s) :
    ∃ r r', vsnprintfTurn env args dsize fmt s = .ok r ∧
      vsnprintfTurn env args dsize' fmt s = .ok r' ∧ AlikeTurns dsize dsize' r r' := by
  by_cases hfull : out.length = dsize
  · exact alike_of_full env args fmt hs hfull hle
  have hroom : out.length < dsize := by omega
  rcases turn_cases env args fmt s with h | h | ⟨s', v, hconverts, hkeeps, hturn⟩
  · obtain ⟨r, hr, hturn⟩ := h
    exact ⟨r, r, hturn dsize, hturn dsize', .inl ⟨rfl, out, hr.trans hs, hlen⟩⟩
  · obtain ⟨s', hs', hturn⟩ := h
    have hecho : ∀ n, out.length < n → echo n fmt s' = echo dsize fmt s' := by
      intro n hn
      unfold echo
      dsimp only
      rw [hs', hs, copyByteIp_ofList hn, copyByteIp_ofList hroom]
    refine ⟨_, _, hturn dsize, hturn dsize', .inl ⟨(hecho dsize' (by omega)).symm, ?_⟩⟩
    unfold echo
    dsimp only
    rw [hs', hs, copyByteIp_ofList hroom]
    exact ⟨_, rfl, by simpa using hroom⟩
  · rw [hturn, hturn]
    have hcs : s.sink.cs = out.length := by rw [hs, cs_ofList]
    exact convert_alike hkeeps hs hroom hle fun ws hws => hcs ▸ hcut s' v hconverts ws hws

end Turns

/-! ### Two runs -/

section Runs

variable {env : Strings} {args : Nat → BitVec 64} {fmt out : List Char} {dsize dsize' : Nat}

/-- A run from a full destination stores nothing. -/
theorem run_full {n : Nat} {s : KprintfState} {k : Sink} (hs : s.sink = ofList out)
    (hfull : out.length = dsize)
    (hrun : Loop.run .diverges (vsnprintfTurn env args dsize fmt) n s = .ok k) :
    k = ofList out := by
  obtain ⟨p, hp, hlen⟩ := run_filled (hs ▸ filled_self (by omega)) hrun
  rw [List.length_append] at hlen
  obtain rfl : p = [] := List.length_eq_zero_iff.mp (by omega)
  rwa [List.append_nil] at hp

/-- The run with less room ends with the beginning of what the other one ends with. -/
theorem run_truncates (hle : dsize ≤ dsize') : ∀ (n m : Nat) (s : KprintfState) (out : List Char)
    (k k' : Sink), s.sink = ofList out → out.length ≤ dsize →
    (∀ s', Loop.Reaches (vsnprintfTurn env args dsize fmt) s s' →
      CutsCleanly env args dsize fmt s') →
    Loop.run .diverges (vsnprintfTurn env args dsize fmt) n s = .ok k →
    Loop.run .diverges (vsnprintfTurn env args dsize' fmt) m s = .ok k' →
    ∃ out', k' = ofList out' ∧ k = ofList (out'.take dsize) := by
  intro n
  induction n with
  -- The induction is on the turns of the shorter field. Both runs take the same turns until it
  -- is full.
  | zero => intro m s out k k' _ _ _ hrun _; cases hrun
  | succ n ih =>
      intro m s out k k' hs hlen hcut hrun hrun'
      cases m with
      | zero => cases hrun'
      | succ m =>
          obtain ⟨r, r', hr, hr', halike⟩ := turn_alike hs hlen hle (hcut s (.refl s))
          rcases halike with ⟨rfl, out₁, hout₁, hlen₁⟩ | ⟨out₁, p, hout₁, hfull, hmore, hlen'⟩
          · -- Both turns are the same.
            cases r with
            | inl s₁ =>
                rw [Loop.run_continue hr] at hrun
                rw [Loop.run_continue hr'] at hrun'
                exact ih m s₁ out₁ k k' hout₁ hlen₁
                  (fun s' hs' => hcut s' (.turn trivial hr hs')) hrun hrun'
            | inr k₁ =>
                rw [Loop.run_exit hr] at hrun
                rw [Loop.run_exit hr'] at hrun'
                obtain rfl := Except.ok.inj hrun
                obtain rfl := Except.ok.inj hrun'
                exact ⟨out₁, hout₁, by rwa [List.take_of_length_le hlen₁]⟩
          · -- The first destination is full, and the second run only appends.
            have hk : k = ofList out₁ := by
              cases r with
              | inl s₁ =>
                  rw [Loop.run_continue hr] at hrun
                  exact run_full hout₁ hfull hrun
              | inr k₁ =>
                  rw [Loop.run_exit hr] at hrun
                  exact (Except.ok.inj hrun).symm.trans hout₁
            have hk' : Filled dsize' (out₁ ++ p) k' := by
              cases r' with
              | inl s₁ =>
                  rw [Loop.run_continue hr'] at hrun'
                  have hs₁ : s₁.sink = ofList (out₁ ++ p) := hmore
                  exact run_filled (hs₁ ▸ filled_self hlen') hrun'
              | inr k₁ =>
                  rw [Loop.run_exit hr'] at hrun'
                  obtain rfl := Except.ok.inj hrun'
                  have hk₁ : k₁ = ofList (out₁ ++ p) := hmore
                  exact hk₁ ▸ filled_self hlen'
            obtain ⟨rest, hrest, -⟩ := hk'
            refine ⟨_, hrest, ?_⟩
            rw [hk, List.append_assoc, ← hfull, List.take_left]

end Runs

/-- With less room, `vsnprintf` writes the beginning of what it writes with more. -/
def Truncates (env : Strings) (args : Nat → BitVec 64) (fmt : List Char)
    (dsize dsize' : BitVec 64) : Prop :=
  ∃ out, vsnprintf env args dsize' fmt = .ok (ofList out) ∧
    vsnprintf env args dsize fmt = .ok (ofList (out.take dsize.toNat))

/-- In a run whose conversions are all cut cleanly, limiting the buffer truncates the
output. -/
theorem vsnprintf_truncates (env : Strings) (args : Nat → BitVec 64) (fmt : List Char)
    {dsize dsize' : BitVec 64} (hle : dsize.toNat ≤ dsize'.toNat)
    (hcut : ∀ s, Loop.Reaches (vsnprintfTurn env args dsize.toNat fmt) kprintfStart s →
      CutsCleanly env args dsize.toNat fmt s) : Truncates env args fmt dsize dsize' := by
  obtain ⟨out, hrun, -⟩ := vsnprintf_total env args dsize fmt
  obtain ⟨out', hrun', -⟩ := vsnprintf_total env args dsize' fmt
  obtain ⟨all, hall, htake⟩ := run_truncates hle _ _ kprintfStart [] _ _ rfl (Nat.zero_le _) hcut
    hrun hrun'
  exact ⟨all, hall ▸ hrun', htake ▸ hrun⟩

/-- `%3c` with room for the two blanks. -/
theorem vsnprintf_truncates_blanks :
    Truncates literalOnly (fun _ => 65) ['%', '3', 'c'] 2 8 := by
  refine vsnprintf_truncates literalOnly (fun _ => 65) ['%', '3', 'c'] (by decide) ?_
  have hflat : ∀ s : KprintfState, s.pers = false →
      CutsCleanly literalOnly (fun _ => 65) 2 ['%', '3', 'c'] s := by
    intro s hs s' v hconverts
    exact absurd (hs.symm.trans hconverts.1) (by decide)
  have hchar : kprintfSwitch literalOnly (fun _ => 65) ['%', '3', 'c']
      ⟨2, false, ({ width := 3, cinf := 1 } : Fattrs).counted 1, 0, ofList []⟩
      = .convert ⟨2, false, ({ width := 3, cinf := 1 } : Fattrs).counted 1, 1, ofList []⟩
        (.chr 'A') :=
    switch_chr rfl
  have hpath : Loop.Path (vsnprintfTurn literalOnly (fun _ => 65) 2 ['%', '3', 'c'])
      (CutsCleanly literalOnly (fun _ => 65) 2 ['%', '3', 'c']) kprintfStart
      ⟨2, true, { width := 3, cinf := 1 }, 0, ofList []⟩ := by
    refine .turn (hflat _ rfl) (turn_percent rfl)
      (.single ?_ (turn_width (by decide : (3 : Fin 10) ≠ 0) rfl rfl rfl))
    intro s' v hconverts
    cases hconverts.2
  -- There the room ends behind the blanks, and the character stops the run.
  have hexit : ∃ k, vsnprintfTurn literalOnly (fun _ => 65) 2 ['%', '3', 'c']
      ⟨2, true, { width := 3, cinf := 1 }, 0, ofList []⟩ = .ok (.inr k) :=
    ⟨_, (turn_chr rfl).trans rfl⟩
  obtain ⟨k, hexit⟩ := hexit
  refine hpath.forall_reached (Loop.forall_reached_exit hexit ?_)
  intro s' v hconverts ws hws
  obtain ⟨rfl, rfl⟩ := Switch.convert.inj (hchar.symm.trans hconverts.2)
  obtain rfl := Except.ok.inj hws
  decide

/-- `%d` of 12 with room for one digit prints the last one. -/
theorem not_truncates_digit : ¬ Truncates literalOnly (fun _ => 12) ['%', 'd'] 1 8 := by
  intro ⟨out, hlong, hshort⟩
  have hlast : (vsnprintf literalOnly (fun _ => 12) 1 ['%', 'd']).map (fun k => k.dest 0)
      = .ok (some '2') := by decide +kernel
  have hfirst : (vsnprintf literalOnly (fun _ => 12) 8 ['%', 'd']).map (fun k => k.dest 0)
      = .ok (some '1') := by decide +kernel
  rw [hshort] at hlast
  rw [hlong] at hfirst
  have hone : out[0]? = some '1' := Except.ok.inj hfirst
  have htwo : (out.take 1)[0]? = some '2' := Except.ok.inj hlast
  rw [List.getElem?_take_of_lt Nat.one_pos, hone] at htwo
  exact absurd htwo (by decide)

end MString
