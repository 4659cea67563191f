import MString.Proofs.Mlibc.Items
import MString.Proofs.Mlibc.StringFields

/-!
# `MString.Proofs.Mlibc.Formats`: whole formats

When `vsnprintf` goes over the items of a format one by one, prints each of them as it
should, and is behind it then.

* `Item.output`, `Item.slots`, `outputFrom`: what the items print.
* `FollowsFormat`: from the place in front of an item the loop comes to the place behind
  it, where it is in the state that it began in.
* `Item.Fits`: the condition for one item, and `reaches_item`: the way over it.
* `followsFormat_of_fits`: the whole format.
-/

set_option autoImplicit false

namespace MString

open Sink

/-! ### What the items print -/

/-- The string at an address. -/
def Strings.textAt (env : Strings) (s : BitVec 64) : List Char :=
  match strlen env.mem s with
  | .ok n => (List.range n).map fun i => env.mem (s + BitVec.ofNat 64 i)
  | .error _ => []

/-- `strlen` finds the first NUL. -/
theorem strlen_spec {mem : BitVec 64 → Char} {s : BitVec 64} {n : Nat} (h : strlen mem s = .ok n) :
    (∀ i < n, mem (s + BitVec.ofNat 64 i) ≠ '\x00') ∧ mem (s + BitVec.ofNat 64 n) = '\x00' := by
  refine Loop.run_invariant (fun n => ∀ i < n, mem (s + BitVec.ofNat 64 i) ≠ '\x00')
    (fun n => (∀ i < n, mem (s + BitVec.ofNat 64 i) ≠ '\x00') ∧
      mem (s + BitVec.ofNat 64 n) = '\x00') ?_ _ 0 n (fun i hi => absurd hi (Nat.not_lt_zero i)) h
  intro n r hn hr
  by_cases hc : mem (s + BitVec.ofNat 64 n) = '\x00'
  · rw [if_pos hc] at hr
    obtain rfl := Except.ok.inj hr
    exact ⟨hn, hc⟩
  · rw [if_neg hc] at hr
    obtain rfl := Except.ok.inj hr
    intro i hi
    rcases Nat.lt_succ_iff_lt_or_eq.mp hi with hi | rfl
    · exact hn i hi
    · exact hc

/-- The text that a pointer leads to stands there. -/
theorem textAt_spec (env : Strings) (s : BitVec 64) : TextAt env.mem s (env.textAt s) := by
  obtain ⟨n, hn⟩ := strlen_total env s
  obtain ⟨hbefore, hnul⟩ := strlen_spec hn
  have htext : env.textAt s = (List.range n).map fun i => env.mem (s + BitVec.ofNat 64 i) := by
    rw [Strings.textAt, hn]
  rw [htext]
  refine ⟨fun i hi => ?_, fun hmem => ?_, ?_⟩
  · rw [List.get_eq_getElem, List.getElem_map, List.getElem_range]
  · obtain ⟨i, hi, hchar⟩ := List.mem_map.mp hmem
    exact hbefore i (List.mem_range.mp hi) hchar
  · rw [List.length_map, List.length_range]
    exact hnul

/-- The field of a character, for which a precision means nothing. -/
def Options.charField (o : Options) (args : Nat → BitVec 64) (c : Char) : List Char :=
  ({ o with precision := none } : Options).stringField args [c]

/-- What an item prints, with the arguments that are left. -/
def Item.output (env : Strings) (args : Nat → BitVec 64) : Item → List Char
  | .literal c => [c]
  | .percent => ['%']
  | .spec o (.num c) => c.layout o args
  | .spec o .str => o.stringField args (env.textAt (o.stringAt env args))
  | .spec o .chr => o.charField args (Char.ofNat ((args o.starSlots).toNat % 256))
  | .malformed o => '%' :: o.body

/-- How many arguments it takes. -/
def Item.slots : Item → Nat
  | .spec o _ => o.starSlots + 1
  | _ => 0

/-- The arguments from the one at `ap` on. -/
def argsFrom (args : Nat → BitVec 64) (ap : Nat) : Nat → BitVec 64 := fun i => args (ap + i)

/-- What items print whose arguments begin at `ap`. -/
def outputFrom (env : Strings) (args : Nat → BitVec 64) : Nat → List Item → List Char
  | _, [] => []
  | ap, it :: rest => it.output env (argsFrom args ap) ++ outputFrom env args (ap + it.slots) rest

/-- The arguments that items take. -/
def slotsOf (its : List Item) : Nat := (its.map Item.slots).sum

/-- The state behind items: their characters have been read, their arguments taken, and
their output printed. -/
def stateBehind (env : Strings) (args : Nat → BitVec 64) (its : List Item) : KprintfState :=
  ⟨(its.flatMap Item.text).length, false, {}, slotsOf its, ofList (outputFrom env args 0 its)⟩

/-- With room for the output, the loop goes over the items one after the other, and the
output is theirs. -/
def FollowsFormat (env : Strings) (args : Nat → BitVec 64) (fmt : List Char) : Prop :=
  ∀ dsize : BitVec 64, (outputFrom env args 0 (items fmt)).length ≤ dsize.toNat →
    (∀ pre it post, items fmt = pre ++ it :: post →
      Loop.Reaches (vsnprintfTurn env args dsize.toNat fmt) (stateBehind env args pre)
        (stateBehind env args (pre ++ [it]))) ∧
      vsnprintf env args dsize fmt = .ok (ofList (outputFrom env args 0 (items fmt)))

/-! ### The condition -/

/-- What a conversion needs, when its options are read as they are meant. -/
def Conversion.Fits (env : Strings) (o : Options) (args : Nat → BitVec 64) : Conversion → Prop
  | .num c =>
      (∀ a, o.precision = some a →
        0 ≤ a.number (args o.width.slots) ∧ a.number (args o.width.slots) < 2 ^ 31) ∧
      c.Kept o.length (args o.starSlots) ∧ c.SignFits o.flags ∧
      (c.sign o.flags 0 = [] ∨ (o.widthOf args).natAbs ≤ max ((o.precisionOf args).getD 0)
        (c.digits (c.value o.length (args o.starSlots)).natAbs).length)
  | .str => ∀ p, o.precisionOf args = some p → p = (env.textAt (o.stringAt env args)).length
  | .chr => True

/-- When a malformed specification is echoed: a blank and a `-` are among its flags, or a
`*` stands behind flags, or a character follows that the loop refuses, at once or behind
points and `z` that come a second time, and no `*` and no modifier of two letters has spoiled
the counter. -/
inductive Options.Echoes (o : Options) (args : Nat → BitVec 64) (rest : List Char) : Prop where
  | flag (h : ¬ FlagsTaken {} o.flags)
  | width (hflags : FlagsTaken {} o.flags) (hwidth : o.width = .star) (hne : o.flags ≠ [])
  | precision (hflags : FlagsTaken {} o.flags) (hdigits : ∀ ds, o.width = .digits ds → 0 ∉ ds)
      (hwidth : o.width = .star → o.flags = []) (hprecision : o.precision = some .star)
      (hne : ∃ f ∈ o.flags, f ≠ .zero)
  | next {x : Char} {tail : List Char} (hrest : rest = x :: tail) (htaken : o.Taken args)
      (hwidth : o.width ≠ .star) (hprecision : o.precision ≠ some .star)
      (hlength : o.length.text.length ≤ 1) (hx : o.Refuses x)
  | repeated {cs : List Char} {x : Char} {tail : List Char} (hrest : rest = cs ++ x :: tail)
      (hcs : ∀ c ∈ cs, c = '.' ∨ c = 'z') (hsmall : o.body.length + cs.length + 1 < 2 ^ 31)
      (htaken : o.Taken args) (hwidth : o.width ≠ .star) (hprecision : o.precision ≠ some .star)
      (hlength : o.length.text.length ≤ 1) (hdigit : isdigit x = false) (hother : x ∉ specChars)

/-- The condition for an item in front of `rest`. -/
def Item.Fits (env : Strings) (args : Nat → BitVec 64) (rest : List Char) : Item → Prop
  | .literal _ => True
  | .percent => True
  | .spec o conv => o.Taken args ∧ (∀ ds, o.width = .digits ds → numeral ds < 2 ^ 31) ∧
      conv.Fits env o args
  | .malformed o => o.body.length + 2 < 2 ^ 31 ∧ o.Echoes args rest

/-- All items fit where they stand. -/
def FitsFrom (env : Strings) (args : Nat → BitVec 64) : Nat → List Item → Prop
  | _, [] => True
  | ap, it :: rest =>
      it.Fits env (argsFrom args ap) (rest.flatMap Item.text) ∧
        FitsFrom env args (ap + it.slots) rest

/-! ### The way over an item -/

section Ways

variable {env : Strings} {args : Nat → BitVec 64} {dsize : Nat} {fmt rest out : List Char}
  {pos ap : Nat} {o : Options}

/-- The pieces that a character conversion writes, put together. -/
theorem flatten_charWrites (c : Char) (hnonneg : 0 ≤ o.widthOf args)
    (hsmall : o.widthOf args < 2 ^ 31) :
    (charWrites c (o.fattrs args 0)).flatten = o.charField args c := by
  have hwidth : (o.fattrs args 0).width = BitVec.ofNat 32 (o.widthOf args).natAbs := by
    show BitVec.ofInt 32 (o.widthOf args) = _
    rw [show o.widthOf args = ((o.widthOf args).natAbs : Int) by omega]
    exact BitVec.ofInt_natCast ..
  have hflj : (o.fattrs args 0).flags.flj = decide (.minus ∈ o.flags) := o.attrs_bits.1
  have hleft : ({ o with precision := none } : Options).left args = decide (.minus ∈ o.flags) := by
    show (decide (.minus ∈ o.flags) || decide (o.widthOf args < 0)) = _
    rw [decide_eq_false (show ¬ o.widthOf args < 0 by omega), Bool.or_false]
  have hblanks : (toSize (if (o.fattrs args 0).width.sle 1 then 0
      else (o.fattrs args 0).width - 1)).toNat = (o.widthOf args).natAbs - 1 := by
    rw [hwidth]
    generalize hw : (o.widthOf args).natAbs = w
    have hlt : w < 2 ^ 31 := by omega
    -- the char takes one column, so a width of at most one adds no blank
    by_cases hle : w ≤ 1
    · have hsle : (BitVec.ofNat 32 w).sle 1 = true := by
        rw [BitVec.sle_eq_decide, toInt_ofNat hlt, decide_eq_true_iff]
        show (w : Int) ≤ 1
        omega
      rw [if_pos hsle, show w - 1 = 0 by omega]
      decide
    · have hsle : ¬ (BitVec.ofNat 32 w).sle 1 = true := by
        rw [BitVec.sle_eq_decide, toInt_ofNat hlt, decide_eq_true_iff]
        show ¬ (w : Int) ≤ 1
        omega
      have hsub : BitVec.ofNat 32 w - 1 = BitVec.ofNat 32 (w - 1) := by
        apply BitVec.eq_of_toNat_eq
        simp only [BitVec.toNat_sub, BitVec.toNat_ofNat, show (1 : BitVec 32).toNat = 1 from rfl]
        omega
      rw [if_neg hsle, hsub, toNat_toSize (by omega)]
  unfold charWrites Options.charField Options.stringField
  dsimp only
  rw [hblanks, hflj, hleft]
  show _ = if decide (.minus ∈ o.flags) = true
    then [c] ++ List.replicate ((o.widthOf args).natAbs - 1) ' '
    else List.replicate ((o.widthOf args).natAbs - 1) ' ' ++ [c]
  by_cases hminus : Flag.minus ∈ o.flags
  · simp [hminus, padding]
  · simp [hminus, padding]

/-- `%%`: the second one clears the counter, so it is copied itself. -/
theorem reaches_percent (h : Here fmt pos ('%' :: '%' :: rest)) (hroom : out.length < dsize) :
    Loop.Reaches (vsnprintfTurn env args dsize fmt) ⟨pos, false, {}, ap, ofList out⟩
      ⟨pos + 2, false, {}, ap, ofList (out ++ ['%'])⟩ := by
  have hstart := @turn_percent env args dsize fmt pos ap {} (ofList out) h.charAt
  have hswitch :
      kprintfSwitch env args fmt ⟨pos + 1, false, ({} : Fattrs).counted 1, ap, ofList out⟩
        = .broken ⟨pos + 1, false, {}, ap, ofList out⟩ := by
    unfold kprintfSwitch
    rw [show charAt fmt (KprintfState.mk (pos + 1) false _ ap (ofList out)).fmt = '%'
      from h.next.charAt]
    rfl
  have hturn := @turn_switch_char env args dsize fmt (pos + 1) ap {} (ofList out) '%' h.next.charAt
    (by decide) (by decide)
  rw [hswitch] at hturn
  have hecho := @echo_percent dsize fmt out (pos + 1) 0 ap false {} h.next.charAt (by decide) rfl
    hroom
  exact .turn trivial hstart (.single trivial (hturn.trans (congrArg Except.ok hecho)))

/-- A numeric conversion that fits is laid out, ... -/
theorem reaches_number {c : NumConv} (h : Here fmt pos (o.text c.char ++ rest))
    (hfits : (Item.spec o (.num c)).Fits env (argsFrom args ap) rest)
    (hroom : out.length + (c.layout o (argsFrom args ap)).length ≤ dsize) :
    Loop.Reaches (vsnprintfTurn env args dsize fmt) ⟨pos, false, {}, ap, ofList out⟩
      ⟨pos + (o.text c.char).length, false, {}, ap + (o.starSlots + 1),
        ofList (out ++ c.layout o (argsFrom args ap))⟩ := by
  obtain ⟨htaken, hdigits, hprecision, hkept, hsign, hfield⟩ := hfits
  have hamounts : o.Amounts (argsFrom args ap) :=
    ⟨o.widthOf_bounds hdigits fun hw => (htaken.widthStar hw).2, hprecision⟩
  have hvalue := (value_eq_iff o c _).mpr hkept
  rw [← hvalue, Int.natAbs_natCast] at hfield
  have htext := (flatten_numberWrites_eq hamounts).trans
    (codeText_eq_layout hamounts hvalue hsign hfield)
  have hpath := @path_number env args dsize fmt rest out pos ap (fun _ => True) o c
    (fun _ _ => trivial) h htaken (fun _ _ _ _ _ _ _ => trivial) (fun _ _ => trivial)
  rw [show (fun i => args (ap + i)) = argsFrom args ap from rfl, htext] at hpath
  exact hpath hroom

/-- ... a string ... -/
theorem reaches_string (h : Here fmt pos (o.text 's' ++ rest))
    (hfits : (Item.spec o .str).Fits env (argsFrom args ap) rest)
    (hroom : out.length + ((Item.spec o .str).output env (argsFrom args ap)).length ≤ dsize) :
    Loop.Reaches (vsnprintfTurn env args dsize fmt) ⟨pos, false, {}, ap, ofList out⟩
      ⟨pos + (o.text 's').length, false, {}, ap + (o.starSlots + 1),
        ofList (out ++ (Item.spec o .str).output env (argsFrom args ap))⟩ := by
  obtain ⟨htaken, hdigits, hprecision⟩ := hfits
  have hwidth := o.widthOf_bounds hdigits fun hw => (htaken.widthStar hw).2
  have htext := textAt_spec env (o.stringAt env (argsFrom args ap))
  have hshown : o.shown (argsFrom args ap) (env.textAt (o.stringAt env (argsFrom args ap)))
      = env.textAt (o.stringAt env (argsFrom args ap)) := shown_of_precision hprecision
  have hfield := (flatten_stringWrites env.mem (o.stringAt env (argsFrom args ap))
      (env.textAt (o.stringAt env (argsFrom args ap))).length hwidth.1 hwidth.2).trans
    (stringField_eq_codeString env.mem _ htext hwidth.1 hshown).symm
  have hlen := strLen_of_precision fun p hp => Nat.le_of_eq (hprecision p hp)
  have hpath := @path_string env args dsize fmt rest out pos ap (fun _ => True) o _
    (fun _ _ => trivial) h htaken (fun _ _ _ _ _ _ _ => trivial) (fun _ _ => trivial)
    htext.strlen
  rw [show (fun i => args (ap + i)) = argsFrom args ap from rfl, hlen, hfield] at hpath
  exact hpath hroom

/-- ... and a character. -/
theorem reaches_char (h : Here fmt pos (o.text 'c' ++ rest))
    (hfits : (Item.spec o .chr).Fits env (argsFrom args ap) rest)
    (hroom : out.length + ((Item.spec o .chr).output env (argsFrom args ap)).length ≤ dsize) :
    Loop.Reaches (vsnprintfTurn env args dsize fmt) ⟨pos, false, {}, ap, ofList out⟩
      ⟨pos + (o.text 'c').length, false, {}, ap + (o.starSlots + 1),
        ofList (out ++ (Item.spec o .chr).output env (argsFrom args ap))⟩ := by
  obtain ⟨htaken, hdigits, -⟩ := hfits
  have hwidth := o.widthOf_bounds hdigits fun hw => (htaken.widthStar hw).2
  have htext := flatten_charWrites
    (Char.ofNat ((args (ap + o.starSlots)).toNat % 256)) hwidth.1 hwidth.2
  have hpath := @path_char env args dsize fmt rest out pos ap (fun _ => True) o
    (fun _ _ => trivial) h htaken (fun _ _ _ _ _ _ _ => trivial) (fun _ _ => trivial)
  rw [show (fun i => args (ap + i)) = argsFrom args ap from rfl, htext] at hpath
  exact hpath hroom

/-- A malformed specification: the `%` is printed, and the loop goes on behind it. -/
theorem Options.Echoes.echoed (h : Here fmt pos ('%' :: (o.body ++ rest)))
    (hnul : '\x00' ∉ rest) (hlen : o.body.length + 2 < 2 ^ 31)
    (hechoes : o.Echoes (argsFrom args ap) rest) (hroom : out.length < dsize) :
    Echoed env args dsize fmt pos ap out := by
  have hbody : o.flags.length + o.width.text.length ≤ o.body.length := by
    have hflags : o.flagsText.length = o.flags.length := List.length_map ..
    simp only [Options.body, List.length_append, hflags]
    omega
  cases hechoes with
  | flag hflags => exact echoed_flag h hroom (by omega) hflags
  | width hflags hwidth hne => exact echoed_star h hroom (by omega) hflags hwidth hne
  | precision hflags hdigits hwidth hprecision hne =>
      exact echoed_precision h hroom (by omega) hflags hdigits hwidth hprecision
        (by rw [hprecision]; exact fmask_dot hne)
  | next hrest htaken hwidth hprecision hlength hx =>
      subst hrest
      exact echoed_next h hroom (by omega) htaken hwidth hprecision hlength hx
        (fun hx => hnul (by rw [hx]; exact .head _))
  | repeated hrest hcs hsmall htaken hwidth hprecision hlength hdigit hother =>
      subst hrest
      exact echoed_repeated h hroom hsmall htaken hwidth hprecision hlength hcs hdigit hother
        (fun hx => hnul (by rw [hx]; exact List.mem_append_right _ (.head _)))

/-- No character of the options begins a specification. -/
theorem percent_notMem_body (o : Options) : '%' ∉ o.body := by
  have hflags : '%' ∉ o.flagsText := by
    intro hmem
    obtain ⟨f, -, hf⟩ := List.mem_map.mp hmem
    cases f <;> exact absurd hf (by decide)
  have hamount : ∀ a : Amount, '%' ∉ a.text := by
    intro a hmem
    cases a with
    | digits ds =>
        obtain ⟨d, -, hd⟩ := List.mem_map.mp hmem
        revert d
        decide
    | star => exact absurd hmem (by decide)
  have hprecision : '%' ∉ o.precisionText := by
    unfold Options.precisionText
    cases o.precision with
    | none => exact List.not_mem_nil
    | some a => exact List.not_mem_cons_of_ne_of_not_mem (by decide) (hamount a)
  have hlength : '%' ∉ o.length.text := by cases o.length <;> decide
  simp only [Options.body, List.mem_append, not_or]
  exact ⟨hflags, hamount _, hprecision, hlength⟩

/-- A conversion without its character is echoed. -/
theorem reaches_malformed (h : Here fmt pos ('%' :: (o.body ++ rest)))
    (hnul : '\x00' ∉ '%' :: (o.body ++ rest))
    (hfits : (Item.malformed o).Fits env (argsFrom args ap) rest)
    (hroom : out.length + ('%' :: o.body).length ≤ dsize) :
    Loop.Reaches (vsnprintfTurn env args dsize fmt) ⟨pos, false, {}, ap, ofList out⟩
      ⟨pos + ('%' :: o.body).length, false, {}, ap, ofList (out ++ '%' :: o.body)⟩ := by
  rw [List.mem_cons, List.mem_append, not_or, not_or] at hnul
  rw [List.length_cons] at hroom ⊢
  have hecho : Echoed env args dsize fmt pos ap out :=
    hfits.2.echoed h hnul.2.2 hfits.1 (by omega)
  have hroom' : (out ++ ['%']).length + o.body.length ≤ dsize := by
    rw [List.length_append, List.length_singleton]
    omega
  -- What stands behind the `%` is then copied like any other text.
  have hbody := (@path_literals env args dsize fmt rest (out ++ ['%']) (pos + 1) ap
    (fun _ => True) o.body (fun _ => trivial) (percent_notMem_body o) hnul.2.1 h.next hroom').1
  rw [List.append_assoc, List.singleton_append] at hbody
  rw [Nat.add_comm o.body.length, ← Nat.add_assoc]
  exact hecho.trans hbody

/-- One item, from the place in front of it to the place behind it. -/
theorem reaches_item {it : Item} (h : Here fmt pos (it.text ++ rest)) (hpercent : it ≠ .literal '%')
    (hnul : '\x00' ∉ it.text ++ rest) (hfits : it.Fits env (argsFrom args ap) rest)
    (hroom : out.length + (it.output env (argsFrom args ap)).length ≤ dsize) :
    Loop.Reaches (vsnprintfTurn env args dsize fmt) ⟨pos, false, {}, ap, ofList out⟩
      ⟨pos + it.text.length, false, {}, ap + it.slots,
        ofList (out ++ it.output env (argsFrom args ap))⟩ := by
  cases it with
  | literal c =>
      have hc : c ≠ '%' := fun hc => hpercent (by rw [hc])
      have hturn := @turn_literal env args dsize fmt out pos ap c h.charAt hc
        (fun hc => hnul (by rw [hc]; exact .head _)) hroom
      exact .single trivial hturn
  | percent => exact reaches_percent h hroom
  | malformed o => exact reaches_malformed h hnul hfits hroom
  | spec o conv =>
      cases conv with
      | num c => exact reaches_number h hfits hroom
      | str => exact reaches_string h hfits hroom
      | chr => exact reaches_char h hfits hroom

end Ways

/-! ### The whole format -/

section Formats

variable {env : Strings} {args : Nat → BitVec 64} {dsize : BitVec 64} {fmt : List Char}

/-- A `%` is no item of its own. -/
theorem literal_notMem_items (fmt : List Char) : .literal '%' ∉ items fmt := by
  induction h : fmt.length using Nat.strongRecOn generalizing fmt with
  | ind n ih =>
      subst h
      rcases items_cases fmt with ⟨-, hitems⟩ | ⟨c, rest, hc, rfl, hitems⟩ | ⟨rest, rfl, hitems⟩
        | ⟨o, conv, rest, rfl, hitems⟩ | ⟨o, rest, rfl, hitems⟩
      · rw [hitems]
        exact List.not_mem_nil
      all_goals
        have hrest := ih rest.length
          (by simp only [Options.text, List.length_cons, List.length_append]; omega) rest rfl
        rw [hitems, List.mem_cons, not_or]
        refine ⟨fun heq => ?_, hrest⟩
      · exact hc (Item.literal.inj heq).symm
      all_goals cases heq

/-- The arguments that the parts of a format take. -/
theorem slotsOf_cons (it : Item) (its : List Item) :
    slotsOf (it :: its) = it.slots + slotsOf its := by
  rw [slotsOf, List.map_cons, List.sum_cons, slotsOf]

/-- The output of a format in two parts. The second starts with the arguments that the first has
left. -/
theorem outputFrom_append (ap : Nat) (xs ys : List Item) :
    outputFrom env args ap (xs ++ ys)
      = outputFrom env args ap xs ++ outputFrom env args (ap + slotsOf xs) ys := by
  induction xs generalizing ap with
  | nil => rfl
  | cons x xs ih =>
      rw [List.cons_append, outputFrom, outputFrom, ih, List.append_assoc, slotsOf_cons,
        Nat.add_assoc]

/-- Every part of a format that fits does. -/
theorem FitsFrom.item {ap : Nat} {pre post : List Item} {it : Item}
    (h : FitsFrom env args ap (pre ++ it :: post)) :
    it.Fits env (argsFrom args (ap + slotsOf pre)) (post.flatMap Item.text) := by
  induction pre generalizing ap with
  | nil => exact h.1
  | cons x pre ih =>
      have hit := ih h.2
      rwa [slotsOf_cons, ← Nat.add_assoc]

/-- The output with one part more, ... -/
theorem outputFrom_concat (pre : List Item) (it : Item) :
    outputFrom env args 0 (pre ++ [it])
      = outputFrom env args 0 pre ++ it.output env (argsFrom args (slotsOf pre)) := by
  rw [outputFrom_append, outputFrom, outputFrom, List.append_nil, Nat.zero_add]

/-- ... and the state behind it. -/
theorem stateBehind_concat (pre : List Item) (it : Item) :
    stateBehind env args (pre ++ [it])
      = ⟨(pre.flatMap Item.text).length + it.text.length, false, {}, slotsOf pre + it.slots,
          ofList (outputFrom env args 0 pre ++ it.output env (argsFrom args (slotsOf pre)))⟩ := by
  rw [stateBehind, outputFrom_concat, slotsOf, slotsOf, List.flatMap_append, List.length_append,
    List.map_append, List.sum_append]
  simp only [List.flatMap_singleton, List.map_singleton, List.sum_singleton]

/-- What is left of the format behind items. -/
theorem here_behind {pre post : List Item} (h : items fmt = pre ++ post) :
    Here fmt (pre.flatMap Item.text).length (post.flatMap Item.text) := by
  have htext := text_items fmt
  rw [h, List.flatMap_append] at htext
  rw [Here, ← htext, List.drop_left]

/-- The step from item to item. -/
theorem reaches_next (hnul : '\x00' ∉ fmt) (hfits : FitsFrom env args 0 (items fmt))
    (hroom : (outputFrom env args 0 (items fmt)).length ≤ dsize.toNat) {pre post : List Item}
    {it : Item} (h : items fmt = pre ++ it :: post) :
    Loop.Reaches (vsnprintfTurn env args dsize.toNat fmt) (stateBehind env args pre)
      (stateBehind env args (pre ++ [it])) := by
  have hhere := here_behind h
  have hmem : it ∈ items fmt := by
    rw [h]
    exact List.mem_append_right _ (.head _)
  have hrest : '\x00' ∉ it.text ++ post.flatMap Item.text := by
    intro hmem
    rw [← text_items fmt, h, List.flatMap_append] at hnul
    exact hnul (List.mem_append_right _ hmem)
  rw [h, List.append_cons, outputFrom_append, outputFrom_concat, List.length_append,
    List.length_append] at hroom
  rw [h] at hfits
  have hit := hfits.item
  rw [Nat.zero_add] at hit
  rw [stateBehind_concat]
  exact reaches_item hhere (fun heq => literal_notMem_items fmt (heq ▸ hmem)) hrest hit (by omega)

/-- The run over the first items. -/
theorem reaches_behind (hnul : '\x00' ∉ fmt) (hfits : FitsFrom env args 0 (items fmt))
    (hroom : (outputFrom env args 0 (items fmt)).length ≤ dsize.toNat) (post : List Item) :
    ∀ pre, items fmt = pre ++ post →
      Loop.Reaches (vsnprintfTurn env args dsize.toNat fmt) kprintfStart
        (stateBehind env args pre) →
      Loop.Reaches (vsnprintfTurn env args dsize.toNat fmt) kprintfStart
        (stateBehind env args (items fmt)) := by
  induction post with
  | nil =>
      intro pre h hpre
      rwa [h, List.append_nil]
  | cons it post ih =>
      intro pre h hpre
      exact ih (pre ++ [it]) (by rw [h, List.append_cons])
        (hpre.trans (reaches_next hnul hfits hroom h))

/-- A format whose items fit is followed. -/
theorem followsFormat_of_fits (hnul : '\x00' ∉ fmt) (hfits : FitsFrom env args 0 (items fmt)) :
    FollowsFormat env args fmt := by
  intro dsize hroom
  refine ⟨fun pre it post h => reaches_next hnul hfits hroom h, ?_⟩
  have hpath := reaches_behind hnul hfits hroom (items fmt) [] rfl (.refl _)
  exact vsnprintf_of_path hpath (here_behind (List.append_nil _).symm)

/-- From the place in front of an item the loop does not come to two places with
different texts. -/
theorem append_of_reached {s s' : KprintfState} {a b c : List Char} {n : Nat}
    {t : KprintfState} (hs : Loop.Reaches (vsnprintfTurn env args n fmt) t s)
    (hs' : Loop.Reaches (vsnprintfTurn env args n fmt) t s') (ha : s.sink = ofList (a ++ b))
    (hb : s'.sink = ofList (a ++ c)) (hblen : (a ++ b).length ≤ n) (hclen : (a ++ c).length ≤ n) :
    (∃ p, c = b ++ p) ∨ ∃ p, b = c ++ p := by
  rcases hs.total hs' with hpath | hpath
  · obtain ⟨p, hp, -⟩ := filled_reached hpath (ha ▸ filled_self hblen)
    rw [hb, List.append_assoc] at hp
    exact .inl ⟨p, List.append_cancel_left (Sink.ofList_injective hp)⟩
  · obtain ⟨p, hp, -⟩ := filled_reached hpath (hb ▸ filled_self hclen)
    rw [ha, List.append_assoc] at hp
    exact .inr ⟨p, List.append_cancel_left (Sink.ofList_injective hp)⟩

/-- In a format that is followed, no specification leads back to its `%`. -/
theorem parsed_of_followsFormat (hsize : (outputFrom env args 0 (items fmt)).length < 2 ^ 64)
    (h : FollowsFormat env args fmt) {pre post : List Item} {o : Options} {conv : Conversion}
    (hitems : items fmt = pre ++ .spec o conv :: post) (hsmall : o.Small) {x : Char}
    (hhead : ((Item.spec o conv).output env (argsFrom args (slotsOf pre))).head? = some x)
    (hx : x ≠ '%') : o.Parsed := by
  have hall : (BitVec.allOnes 64).toNat = 2 ^ 64 - 1 := by decide
  have hnext := (h (BitVec.allOnes 64) (by omega)).1 pre _ post hitems
  have hhere : Here fmt (pre.flatMap Item.text).length
      (o.text conv.char ++ post.flatMap Item.text) := here_behind hitems
  rw [o.text_append] at hhere
  obtain ⟨tail, htail⟩ := List.head?_eq_some_iff.mp hhead
  rw [stateBehind_concat, htail] at hnext
  have hroom : (outputFrom env args 0 pre).length + (x :: tail).length
      ≤ (BitVec.allOnes 64).toNat := by
    rw [hitems, List.append_cons, outputFrom_append, outputFrom_concat, htail, List.length_append,
      List.length_append] at hsize
    omega
  rw [List.length_cons] at hroom
  refine @Options.Small.parsed env args o (BitVec.allOnes 64).toNat fmt _
    (outputFrom env args 0 pre) _ (slotsOf pre) hsmall hhere (by omega) ?_
  intro ⟨pers, ap, hgiven⟩
  have hlines := append_of_reached hgiven hnext rfl rfl
    (by rw [List.length_append, List.length_singleton]; omega)
    (by rw [List.length_append, List.length_cons]; omega)
  rcases hlines with ⟨p, hp⟩ | ⟨p, hp⟩
  · exact hx (List.cons.inj hp).1
  · exact hx (List.cons.inj hp).1.symm

/-- A number is printed with at least one character, which is no `%`. -/
theorem head_layout (c : NumConv) (o : Options) (args : Nat → BitVec 64) :
    ∃ x, (c.layout o args).head? = some x ∧ x ≠ '%' := by
  have hdigits : 0 < (c.digits (c.value o.length (args o.starSlots)).natAbs).length := by
    unfold NumConv.digits
    split
    · rw [List.length_map]
      exact Nat.length_toDigits_pos
    · exact Nat.length_toDigits_pos
  have hlen := length_layout c o args
  cases hl : c.layout o args with
  | nil =>
      rw [hl, List.length_nil] at hlen
      omega
  | cons x tail =>
      refine ⟨x, rfl, fun hx => percent_notMem_layout c o args ?_⟩
      rw [hl, hx]
      exact .head _

/-- A format whose items fit is followed, and in a format that is followed all options of
numbers are read to their end. -/
theorem followsFormat_fits (hnul : '\x00' ∉ fmt) :
    (FitsFrom env args 0 (items fmt) → FollowsFormat env args fmt) ∧
      ((outputFrom env args 0 (items fmt)).length < 2 ^ 64 → FollowsFormat env args fmt →
        ∀ pre o c post, items fmt = pre ++ .spec o (.num c) :: post → o.Small → o.Parsed) := by
  refine ⟨followsFormat_of_fits hnul, fun hsize h pre o c post hitems hsmall => ?_⟩
  obtain ⟨x, hhead, hx⟩ := head_layout c o (argsFrom args (slotsOf pre))
  exact parsed_of_followsFormat hsize h hitems hsmall hhead hx

/-- `%5d%%x` is followed. -/
theorem followsFormat_fits_five :
    FollowsFormat literalOnly (fun _ => 7) ['%', '5', 'd', '%', '%', 'x'] := by
  have hitems : items ['%', '5', 'd', '%', '%', 'x']
      = [.spec { width := .digits [5] } (.num .d), .percent, .literal 'x'] := by
    have hspec := @items_spec ['%', '%', 'x'] { width := .digits [5] } (.num .d)
    rw [items_percent, items_literal (by decide), items_nil] at hspec
    exact hspec
  refine (followsFormat_fits (by decide)).1 ?_
  rw [hitems]
  refine ⟨⟨⟨trivial, ?_, (fun hw => nomatch hw), (fun hp => nomatch hp)⟩, ?_,
    (fun a ha => nomatch ha), by decide, trivial, .inl rfl⟩, trivial, trivial, trivial⟩
  all_goals
    intro ds hds
    obtain rfl := Amount.digits.inj hds
    decide

/-- `%10d` is not: the zero leads back to the `%` again and again. -/
theorem not_followsFormat_ten : ¬ FollowsFormat literalOnly (fun _ => 42) ['%', '1', '0', 'd'] := by
  intro h
  have hitems : items ['%', '1', '0', 'd'] = [.spec { width := .digits [1, 0] } (.num .d)] := by
    have hspec := @items_spec [] { width := .digits [1, 0] } (.num .d)
    rw [items_nil] at hspec
    exact hspec
  have hspec := (h 16 (by rw [hitems]; decide)).2
  rw [hitems] at hspec
  have hgiven :
      Given literalOnly (fun _ => 42) (16 : BitVec 64).toNat ['%', '1', '0', 'd'] 0 0 [] :=
    @refused_zero literalOnly (fun _ => 42) _ _ ['d'] [] 0 0 { width := .digits [1, 0] } [1, 0]
      (here_zero _) (by decide) (by decide) trivial rfl (by decide) (by decide)
  exact not_given (by decide) hspec (by decide) hgiven

end Formats

end MString
