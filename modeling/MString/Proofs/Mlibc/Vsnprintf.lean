import MString.Proofs.Mlibc.Kprintf

/-!
# `MString.Proofs.Mlibc.Vsnprintf`: the bounds of formatted output

`vsnprintf` stores the bytes below its result and no others, and its result is at most
`dsize`.

* `strlen_total`: every string ends, if only in the text for a null pointer.
* `kprintfSwitch_keeps`: the `switch` stores nothing, and a number gets a base.
* `vsnprintfTurn_total`: a turn stores a byte or advances in the format.
* `run_filled`: a run appends to what is stored.
* `vsnprintf_fills`: the loop ends, with the destination filled from its start on.
-/

set_option autoImplicit false

namespace MString

open Sink

/-- The memory has a NUL, so `strlen` returns. -/
theorem strlen_total (env : Strings) (s : BitVec 64) : ∃ len, strlen env.mem s = .ok len := by
  have hplace : s + BitVec.ofNat 64 (env.nullText + 6#64 - s).toNat = env.nullText + 6#64 := by
    rw [BitVec.ofNat_toNat, BitVec.setWidth_eq, BitVec.add_comm, BitVec.sub_add_cancel]
  have hnul : env.mem (s + BitVec.ofNat 64 (env.nullText + 6#64 - s).toNat) = '\x00' := by
    rw [hplace]
    exact env.holds 6
  have hfar := (env.nullText + 6#64 - s).isLt
  generalize (env.nullText + 6#64 - s).toNat = last at hnul hfar
  have hturn : ∀ n, n ≤ last → ∃ r, (if env.mem (s + BitVec.ofNat 64 n) = '\x00'
      then .ok (.inr n) else .ok (.inl (n + 1)) : Except Fault (Nat ⊕ Nat)) = .ok r ∧
      Sum.elim (fun n' => n' ≤ last ∧ last - n' < last - n) (fun _ => True) r := by
    intro n hn
    by_cases hc : env.mem (s + BitVec.ofNat 64 n) = '\x00'
    · exact ⟨.inr n, if_pos hc, trivial⟩
    · have hne : n ≠ last := fun heq => hc (heq ▸ hnul)
      refine ⟨.inl (n + 1), if_neg hc, ?_⟩
      simp only [Sum.elim_inl]
      omega
  obtain ⟨len, hlen, -⟩ := @Loop.run_total _ _ _ Fault.diverges _ _ _ (fun n => last - n) hturn
    TURNS 0 (Nat.zero_le _) (by simpa [TURNS] using hfar)
  exact ⟨len, hlen⟩

/-! ### The switch -/

/-- The `switch` stores nothing, moves forward in the format only, and a number gets a
base that `__digit` knows. -/
def Switch.Keeps (s : KprintfState) : Switch → Prop
  | .next s' => s'.sink = s.sink ∧ s.fmt ≤ s'.fmt
  | .broken s' => s'.sink = s.sink
  | .convert s' (.num _) => s'.sink = s.sink ∧ s'.fmt = s.fmt ∧ 8 ≤ baseOf s'.fa.flags
  | .convert s' _ => s'.sink = s.sink ∧ s'.fmt = s.fmt

/-- What the switch keeps depends on the sink and the place in the format only. -/
theorem Switch.Keeps.of_eq {s s' : KprintfState} {w : Switch} (h : w.Keeps s')
    (hsink : s'.sink = s.sink) (hfmt : s'.fmt = s.fmt) : w.Keeps s := by
  unfold Switch.Keeps at h ⊢
  rwa [← hsink, ← hfmt]

section Switching

variable {args : Nat → BitVec 64} {s : KprintfState} {f : FmtFlags}

/-- A numeric conversion keeps both, ... -/
theorem numberCase_keeps (h : f.doct ∨ f.ddec ∨ f.dhex ∨ f.dhexUp) :
    (numberCase args s f).Keeps s := by
  refine ⟨rfl, rfl, ?_⟩
  show 8 ≤ baseOf f
  unfold baseOf
  split
  · decide
  · split
    · decide
    · have hhex : (f.dhex || f.dhexUp) = true := by simp_all
      rw [if_pos hhex]
      decide

/-- ... a flag does ... -/
theorem flagCase_keeps (refused : Bool) : (flagCase refused s f).Keeps s := by
  unfold flagCase
  split
  · rfl
  · exact ⟨rfl, Nat.le_refl _⟩

/-- ... and a star. -/
theorem starCase_keeps : (starCase args s).Keeps s := by
  unfold starCase
  dsimp only
  split
  · rfl
  · split
    · split
      · rfl
      · exact ⟨rfl, Nat.le_refl _⟩
    · split
      · rfl
      · exact ⟨rfl, Nat.le_refl _⟩

/-- So all cases of the switch do. -/
theorem kprintfSwitch_keeps (env : Strings) (args : Nat → BitVec 64) (fmt : List Char)
    (s : KprintfState) : (kprintfSwitch env args fmt s).Keeps s := by
  unfold kprintfSwitch
  dsimp only
  split
  all_goals first
    | exact numberCase_keeps (by simp)
    | exact flagCase_keeps _
    | exact starCase_keeps
    | exact ⟨rfl, rfl⟩
    | exact ⟨rfl, Nat.le_refl _⟩
    | rfl
    | skip
  -- `h` and `l`, which may be two letters.
  all_goals
    split
    · exact ⟨rfl, Nat.le_succ _⟩
    · exact ⟨rfl, Nat.le_refl _⟩

end Switching

/-! ### The loop -/

/-- The destination is filled from its start on, with `out` and what follows it, and not
beyond `dsize`. -/
def Filled (dsize : Nat) (out : List Char) (k : Sink) : Prop :=
  ∃ p, k = ofList (out ++ p) ∧ (out ++ p).length ≤ dsize

/-- What has been written stays when more is added. -/
theorem Filled.of_append {dsize : Nat} {out p : List Char} {k : Sink}
    (h : Filled dsize (out ++ p) k) : Filled dsize out k := by
  obtain ⟨q, hk, hlen⟩ := h
  rw [List.append_assoc] at hk hlen
  exact ⟨p ++ q, hk, hlen⟩

/-- A text fills the start of the buffer. -/
theorem filled_self {dsize : Nat} {out : List Char} (hlen : out.length ≤ dsize) :
    Filled dsize out (ofList out) := by
  refine ⟨[], ?_, ?_⟩
  · rw [List.append_nil]
  · rwa [List.append_nil]

/-- What is left to do: bytes to store, and characters to read before the next byte. -/
def toGo (dsize : Nat) (fmt : List Char) (s : KprintfState) : Nat :=
  (dsize - s.sink.cs) * (fmt.length + 2) + (fmt.length + 1 - s.fmt)

/-- A turn that asks for another one got on. -/
def Progress (dsize : Nat) (fmt out : List Char) (s : KprintfState) :
    KprintfState ⊕ Sink → Prop :=
  Sum.elim (fun s' => Filled dsize out s'.sink ∧ toGo dsize fmt s' < toGo dsize fmt s)
    (Filled dsize out)

section Turns

variable {dsize : Nat} {fmt : List Char} {s s' : KprintfState} {out p : List Char}

/-- A character that is no NUL is inside of the format. -/
theorem lt_length_of_charAt {i : Nat} (h : charAt fmt i ≠ '\x00') : i < fmt.length := by
  by_contra hge
  exact h (by rw [charAt, List.getD_eq_getElem?_getD, List.getElem?_eq_none (by omega),
    Option.getD_none])

/-- Getting on in the format. -/
theorem progress_fmt (hs : s.sink = ofList out) (hc : charAt fmt s.fmt ≠ '\x00')
    (hfmt : s.fmt < s'.fmt) (hs' : s'.sink = ofList (out ++ p)) (hp : (out ++ p).length ≤ dsize) :
    Progress dsize fmt out s (.inl s') := by
  refine ⟨⟨p, hs', hp⟩, ?_⟩
  have hlt := lt_length_of_charAt hc
  have hroom : (dsize - s'.sink.cs) * (fmt.length + 2)
      ≤ (dsize - s.sink.cs) * (fmt.length + 2) := by
    refine Nat.mul_le_mul_right _ ?_
    rw [hs, hs', cs_ofList, cs_ofList, List.length_append]
    omega
  unfold toGo
  omega

/-- Getting on in the destination. -/
theorem progress_sink (hs : s.sink = ofList out) (hp : p ≠ [])
    (hs' : s'.sink = ofList (out ++ p)) (hlen : (out ++ p).length ≤ dsize) :
    Progress dsize fmt out s (.inl s') := by
  refine ⟨⟨p, hs', hlen⟩, ?_⟩
  have hpos : 0 < p.length := List.length_pos_iff.mpr hp
  have hroom : (dsize - s'.sink.cs + 1) * (fmt.length + 2)
      ≤ (dsize - s.sink.cs) * (fmt.length + 2) := by
    refine Nat.mul_le_mul_right _ ?_
    rw [List.length_append] at hlen
    rw [hs, hs', cs_ofList, cs_ofList, List.length_append]
    omega
  rw [Nat.add_mul, Nat.one_mul] at hroom
  unfold toGo
  omega

/-- Leaving the loop is progress, ... -/
theorem progress_exit (hlen : out.length ≤ dsize) : Progress dsize fmt out s (.inr (ofList out)) :=
  filled_self hlen

/-- ... and so is copying a character, ... -/
theorem echo_progress (hs : s'.sink = s.sink) (hout : s.sink = ofList out)
    (hlen : out.length ≤ dsize) : Progress dsize fmt out s (echo dsize fmt s') := by
  unfold echo
  dsimp only
  rw [hs, hout]
  by_cases hroom : out.length < dsize
  · rw [copyByteIp_ofList hroom]
    exact progress_sink hout (by simp) rfl (by simpa using hroom)
  · rw [copyByteIp_full (by omega)]
    exact progress_exit hlen

/-- ... writing an argument ... -/
theorem convert_progress {env : Strings} {v : Value} (hkeeps : (Switch.convert s' v).Keeps s)
    (hc : charAt fmt s.fmt ≠ '\x00') (hout : s.sink = ofList out) (hlen : out.length ≤ dsize) :
    ∃ r, convert env dsize s' v = .ok r ∧ Progress dsize fmt out s r := by
  cases v with
  | num d =>
      obtain ⟨hsink, hfmt, hbase⟩ := hkeeps
      obtain ⟨p, hdigit, hp, hnil⟩ := digit_ofList d s'.fa hbase hlen
      unfold convert
      dsimp only
      rw [hsink, hout, hdigit, Loop.ok_bind]
      -- a number that stores nothing ends the loop, with the buffer full
      by_cases hp0 : p = []
      · have hfull := hnil hp0
        subst hp0
        simp only [List.append_nil, Nat.sub_self, if_pos]
        have hsink : (⟨dsize, (ofList out).dest⟩ : Sink) = ofList out := by rw [← hfull]; rfl
        rw [hsink]
        exact ⟨_, rfl, progress_exit hlen⟩
      · have hgrown : ¬ (ofList (out ++ p)).cs - (ofList out).cs = 0 := by
          have hpos : 0 < p.length := List.length_pos_iff.mpr hp0
          simp only [cs_ofList, List.length_append]
          omega
        rw [if_neg hgrown]
        exact ⟨_, rfl, progress_sink hout hp0 rfl hp⟩
  | str b =>
      obtain ⟨hsink, hfmt⟩ := hkeeps
      obtain ⟨len, hstrlen⟩ := strlen_total env b
      obtain ⟨p, hstring, hp⟩ := stringOut_ofList env.mem b len s'.fa hlen
      unfold convert
      dsimp only
      rw [hsink, hout, hstrlen, Loop.ok_bind, hstring]
      exact ⟨_, rfl, progress_fmt hout hc (by simp [hfmt]) rfl hp⟩
  | chr c =>
      obtain ⟨hsink, hfmt⟩ := hkeeps
      unfold convert
      dsimp only
      rw [hsink, hout]
      obtain ⟨p, hp, hchar | ⟨hchar, -⟩⟩ := emits_charOut (c := c) s'.fa hlen
      · rw [hchar]
        exact ⟨_, rfl, progress_fmt hout hc (by simp [hfmt]) rfl hp⟩
      · rw [hchar]
        exact ⟨_, rfl, p, rfl, hp⟩

/-- ... and all that follows the switch. -/
theorem afterSwitch_progress {env : Strings} {w : Switch} (hkeeps : w.Keeps s)
    (hc : charAt fmt s.fmt ≠ '\x00') (hout : s.sink = ofList out) (hlen : out.length ≤ dsize) :
    ∃ r, afterSwitch env dsize fmt w = .ok r ∧ Progress dsize fmt out s r := by
  cases w with
  | next s' =>
      have hsink : s'.sink = ofList (out ++ []) := by rw [hkeeps.1, hout, List.append_nil]
      exact ⟨_, rfl, progress_fmt hout hc (Nat.lt_succ_of_le hkeeps.2) hsink (by simpa using hlen)⟩
  | broken s' => exact ⟨_, rfl, echo_progress hkeeps hout hlen⟩
  | convert s' v => exact convert_progress hkeeps hc hout hlen

/-- Every turn ends, stores at the end of what is stored, and gets on. -/
theorem vsnprintfTurn_total (env : Strings) (args : Nat → BitVec 64) (hout : s.sink = ofList out)
    (hlen : out.length ≤ dsize) :
    ∃ r, vsnprintfTurn env args dsize fmt s = .ok r ∧ Progress dsize fmt out s r := by
  have hsame : s.sink = ofList (out ++ []) := by rw [hout, List.append_nil]
  have hlen' : (out ++ []).length ≤ dsize := by rwa [List.append_nil]
  unfold vsnprintfTurn
  dsimp only
  by_cases hc : charAt fmt s.fmt = '\x00'
  · rw [if_pos hc, hout]
    exact ⟨_, rfl, progress_exit hlen⟩
  · rw [if_neg hc]
    split
    · exact ⟨_, rfl, progress_fmt hout hc (Nat.lt_succ_self _) hsame hlen'⟩
    · have hswitch : ∀ s', s'.sink = s.sink → s'.fmt = s.fmt →
          ∃ r, afterSwitch env dsize fmt (kprintfSwitch env args fmt s') = .ok r ∧
            Progress dsize fmt out s r := fun s' hsink hfmt =>
        afterSwitch_progress ((kprintfSwitch_keeps env args fmt s').of_eq hsink hfmt) hc hout hlen
      split
      · split
        · split
          · exact ⟨_, rfl, hout ▸ progress_exit hlen⟩
          · split
            · exact ⟨_, rfl, progress_fmt hout hc (Nat.lt_succ_self _) hsame hlen'⟩
            · split
              · exact ⟨_, rfl, progress_fmt hout hc (Nat.lt_succ_self _) hsame hlen'⟩
              · exact hswitch _ rfl rfl
        · exact hswitch _ rfl rfl
      · exact ⟨_, rfl, echo_progress rfl hout hlen⟩

/-- The same from a destination that holds more than `out`. -/
theorem vsnprintfTurn_filled (env : Strings) (args : Nat → BitVec 64)
    (hs : Filled dsize out s.sink) :
    ∃ r, vsnprintfTurn env args dsize fmt s = .ok r ∧ Progress dsize fmt out s r := by
  obtain ⟨p, hp, hlen⟩ := hs
  obtain ⟨r, hr, hprogress⟩ := @vsnprintfTurn_total _ fmt _ _ env args hp hlen
  refine ⟨r, hr, ?_⟩
  cases r with
  | inl s' => exact ⟨hprogress.1.of_append, hprogress.2⟩
  | inr k => exact Filled.of_append hprogress

/-- So do the states of a run. -/
theorem filled_reached {env : Strings} {args : Nat → BitVec 64}
    (hpath : Loop.Reaches (vsnprintfTurn env args dsize fmt) s s') (hs : Filled dsize out s.sink) :
    Filled dsize out s'.sink := by
  refine hpath.keeps (I := fun s => Filled dsize out s.sink) (fun s s' hs hturn => ?_) hs
  obtain ⟨r, hr, hprogress⟩ := vsnprintfTurn_filled env args hs
  rw [hturn] at hr
  obtain rfl := Except.ok.inj hr
  exact hprogress.1

/-- A run only appends. -/
theorem run_filled {env : Strings} {args : Nat → BitVec 64} {n : Nat} {k : Sink}
    (hs : Filled dsize out s.sink)
    (hrun : Loop.run .diverges (vsnprintfTurn env args dsize fmt) n s = .ok k) :
    Filled dsize out k := by
  refine Loop.run_invariant (fun s => Filled dsize out s.sink) (Filled dsize out) ?_ n s k hs hrun
  intro s r hs hr
  obtain ⟨r', hr', hprogress⟩ := vsnprintfTurn_filled env args hs
  rw [hr] at hr'
  obtain rfl := Except.ok.inj hr'
  cases r with
  | inl s' => exact hprogress.1
  | inr k => exact hprogress

end Turns

/-- `vsnprintf` returns what it stored from the start on, at most `dsize` bytes. -/
theorem vsnprintf_total (env : Strings) (args : Nat → BitVec 64) (dsize : BitVec 64)
    (fmt : List Char) :
    ∃ out, vsnprintf env args dsize fmt = .ok (ofList out) ∧ out.length ≤ dsize.toNat := by
  have hstart : Filled dsize.toNat [] ⟨0, fun _ => none⟩ := ⟨[], rfl, Nat.zero_le _⟩
  obtain ⟨k, hrun, out, hk, hlen⟩ := @Loop.run_total _ _ _ Fault.diverges _
    (fun s => Filled dsize.toNat [] s.sink) (Filled dsize.toNat []) (toGo dsize.toNat fmt)
    (fun s hs => vsnprintfTurn_filled env args hs)
    (turnBudget dsize.toNat fmt) ⟨0, false, {}, 0, ⟨0, fun _ => none⟩⟩ hstart
    (by simp only [toGo, turnBudget, Nat.sub_zero, Nat.add_mul]; omega)
  rw [List.nil_append] at hk hlen
  exact ⟨out, hk ▸ hrun, hlen⟩

/-- `vsnprintf` returns, and what it stored is exactly the bytes below its result, which
is at most `dsize`. -/
theorem vsnprintf_fills (env : Strings) (args : Nat → BitVec 64) (dsize : BitVec 64)
    (fmt : List Char) :
    ∃ k, vsnprintf env args dsize fmt = .ok k ∧ k.cs ≤ dsize.toNat ∧
      ∀ i, (k.dest i).isSome ↔ i < k.cs := by
  obtain ⟨out, hrun, hlen⟩ := vsnprintf_total env args dsize fmt
  refine ⟨_, hrun, hlen, fun i => ?_⟩
  show out[i]?.isSome = true ↔ i < out.length
  simp

end MString
