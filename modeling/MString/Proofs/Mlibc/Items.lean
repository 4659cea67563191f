import MString.Proofs.Mlibc.Format

/-!
# `MString.Proofs.Mlibc.Items`: the items of a format

A format, read from left to right: single characters, `%%`, specifications, and malformed
ones. A malformed specification is a `%` with all the options behind it, when the next
character neither belongs to them nor is a conversion.

* `readOptions`: the options that a text begins with, as many as there are.
* `readOptions_body`: what has been written is read back.
* `items`, `items_cases`: the items of a format.
* `text_items`: every character of the format belongs to one item.
-/

set_option autoImplicit false

namespace MString

/-! ### Characters -/

/-- The flag that a character stands for. -/
def Flag.ofChar : Char → Option Flag
  | '-' => some .minus
  | '0' => some .zero
  | '+' => some .plus
  | ' ' => some .space
  | '#' => some .hash
  | _ => none

/-- What has been read as a flag is its character, ... -/
theorem Flag.char_of_ofChar {c : Char} {f : Flag} (h : ofChar c = some f) : f.char = c := by
  unfold ofChar at h
  split at h
  all_goals cases h
  all_goals rfl

/-- ... and the character of a flag is read as it. -/
theorem Flag.ofChar_char (f : Flag) : ofChar f.char = some f := by
  cases f
  all_goals rfl

/-- The digit that a character stands for. -/
def digitOf (c : Char) : Option (Fin 10) :=
  (List.finRange 10).find? fun d => Nat.digitChar d.val = c

/-- What has been read as a digit is its character, ... -/
theorem digitChar_of_digitOf {c : Char} {d : Fin 10} (h : digitOf c = some d) :
    Nat.digitChar d.val = c := by
  simpa using List.find?_some h

/-- ... and the character of a digit is read as it. -/
theorem digitOf_digitChar (d : Fin 10) : digitOf (Nat.digitChar d.val) = some d := by
  revert d
  decide

/-- All conversions but `%%`. -/
inductive Conversion where
  | num (c : NumConv)
  | str
  | chr
deriving DecidableEq, Repr

namespace Conversion

/-- The character that ends the conversion. -/
def char : Conversion → Char
  | .num c => c.char
  | .str => 's'
  | .chr => 'c'

/-- The conversion that a character ends. -/
def ofChar : Char → Option Conversion
  | 'd' => some (.num .d)
  | 'i' => some (.num .i)
  | 'u' => some (.num .u)
  | 'x' => some (.num .x)
  | 'X' => some (.num .X)
  | 'o' => some (.num .o)
  | 'p' => some (.num .p)
  | 's' => some .str
  | 'c' => some .chr
  | _ => none

/-- What has been read as a conversion is its character, ... -/
theorem char_of_ofChar {c : Char} {conv : Conversion} (h : ofChar c = some conv) :
    conv.char = c := by
  unfold ofChar at h
  split at h
  all_goals cases h
  all_goals rfl

/-- ... and the character of a conversion is read as it. -/
theorem ofChar_char (conv : Conversion) : ofChar conv.char = some conv := by
  cases conv with
  | num c => cases c <;> rfl
  | str => rfl
  | chr => rfl

end Conversion

/-! ### Options -/

/-- What the first characters stand for, up to one that stands for nothing. -/
def readWhile {α : Type} (f : Char → Option α) : List Char → List α × List Char
  | [] => ([], [])
  | c :: rest =>
      match f c with
      | none => ([], c :: rest)
      | some a => (a :: (readWhile f rest).1, (readWhile f rest).2)

section ReadWhile

variable {α : Type} {f : Char → Option α} {g : α → Char}

/-- Reading as long as one can, and writing what was read, gives the text back. -/
theorem text_readWhile (hf : ∀ c a, f c = some a → g a = c) (s : List Char) :
    (readWhile f s).1.map g ++ (readWhile f s).2 = s := by
  induction s with
  | nil => rfl
  | cons c rest ih =>
      unfold readWhile
      cases hc : f c with
      | none => rfl
      | some a => rw [List.map_cons, List.cons_append, ih, hf c a hc]

/-- It reads as much as it can. -/
theorem head_readWhile (f : Char → Option α) (s : List Char) :
    ∀ c ∈ (readWhile f s).2.head?, f c = none := by
  induction s with
  | nil => exact fun c hc => nomatch hc
  | cons c rest ih =>
      unfold readWhile
      cases hc : f c with
      | none =>
          intro x hx
          obtain rfl : c = x := Option.some.inj hx
          exact hc
      | some a => exact ih

/-- A list of characters that can all be read is read up to the first one that cannot. -/
theorem readWhile_append (hg : ∀ a, f (g a) = some a) {rest : List Char}
    (hrest : ∀ c ∈ rest.head?, f c = none) (l : List α) :
    readWhile f (l.map g ++ rest) = (l, rest) := by
  induction l with
  | nil =>
      cases rest with
      | nil => rfl
      | cons c rest => simp only [List.map_nil, List.nil_append, readWhile, hrest c rfl]
  | cons a l ih =>
      rw [List.map_cons, List.cons_append]
      simp only [readWhile, hg, ih]

end ReadWhile

/-- A width or a precision: a star, or as many digits as there are. -/
def readAmount : List Char → Amount × List Char
  | '*' :: rest => (.star, rest)
  | s => (.digits (readWhile digitOf s).1, (readWhile digitOf s).2)

/-- It is written as it was read, ... -/
theorem text_readAmount (s : List Char) : (readAmount s).1.text ++ (readAmount s).2 = s := by
  unfold readAmount
  split
  · rfl
  · exact text_readWhile (fun _ _ => digitChar_of_digitOf) s

/-- Where an amount ends. -/
def Amount.EndsAt (rest : List Char) : Amount → Prop
  | .digits ds => (∀ c ∈ rest.head?, digitOf c = none) ∧ (ds = [] → ∀ c ∈ rest.head?, c ≠ '*')
  | .star => True

/-- ... and read as it was written, where no digit and no star follows. -/
theorem readAmount_append {a : Amount} {rest : List Char} (h : a.EndsAt rest) :
    readAmount (a.text ++ rest) = (a, rest) := by
  cases a with
  | star => rfl
  | digits ds =>
      have hread := readWhile_append digitOf_digitChar h.1 ds
      have hstar : ∀ s, digitChars ds ++ rest ≠ '*' :: s := by
        intro s heq
        cases ds with
        | nil =>
            have hrest : rest = '*' :: s := heq
            exact h.2 rfl '*' (by rw [hrest]; rfl) rfl
        | cons d ds =>
            have hd : Nat.digitChar d.val = '*' := (List.cons.inj heq).1
            clear heq hread h
            revert d
            decide
      unfold readAmount
      split
      · exact absurd ‹_› (hstar _)
      · exact congrArg (fun r => (Amount.digits r.1, r.2)) hread

/-- The precision behind a dot, when there is a dot. -/
def readPrecision : List Char → Option Amount × List Char
  | '.' :: rest => (some (readAmount rest).1, (readAmount rest).2)
  | s => (none, s)

/-- It is written as it was read. -/
theorem text_readPrecision (s : List Char) :
    ((readPrecision s).1.elim [] fun a => '.' :: a.text) ++ (readPrecision s).2 = s := by
  unfold readPrecision
  split
  · exact congrArg ('.' :: ·) (text_readAmount _)
  · rfl

/-- The longest length modifier that the text starts with. -/
def readLength : List Char → LengthMod × List Char
  | 'h' :: 'h' :: rest => (.hh, rest)
  | 'h' :: rest => (.h, rest)
  | 'l' :: 'l' :: rest => (.ll, rest)
  | 'l' :: rest => (.l, rest)
  | 'z' :: rest => (.z, rest)
  | s => (.none, s)

/-- It is written as it was read, ... -/
theorem text_readLength (s : List Char) : (readLength s).1.text ++ (readLength s).2 = s := by
  unfold readLength
  split
  all_goals rfl

/-- ... and read as it was written, in front of a character that does not make it longer. -/
theorem readLength_append (m : LengthMod) {rest : List Char}
    (hrest : ∀ c ∈ rest.head?, c ≠ 'h' ∧ c ≠ 'l' ∧ c ≠ 'z') :
    readLength (m.text ++ rest) = (m, rest) := by
  cases rest with
  | nil => cases m <;> rfl
  | cons c rest =>
      obtain ⟨hh, hl, hz⟩ := hrest c rfl
      cases m <;> simp [LengthMod.text, readLength, hh, hl, hz]

/-- The zeros in front of a width are flags. -/
theorem readAmount_head {s : List Char} (h : ∀ c ∈ s.head?, Flag.ofChar c = none)
    (ds : List (Fin 10)) : (readAmount s).1 ≠ .digits (0 :: ds) := by
  intro heq
  have htext := text_readAmount s
  rw [heq] at htext
  have hzero := h '0' (by rw [← htext]; rfl)
  cases hzero

/-- Behind the flags no zero is left for the width to begin with. -/
theorem readAmount_flags (s : List Char) (ds : List (Fin 10)) :
    (readAmount (readWhile Flag.ofChar s).2).1 ≠ .digits (0 :: ds) :=
  readAmount_head (head_readWhile Flag.ofChar s) ds

/-- The options that a text begins with, and what follows them. -/
def readOptions (s : List Char) : Options × List Char :=
  let flags := readWhile Flag.ofChar s
  let width := readAmount flags.2
  let precision := readPrecision width.2
  let length := readLength precision.2
  ({ flags := flags.1, width := width.1, precision := precision.1, length := length.1
     width_head := readAmount_flags s }, length.2)

/-- All options of a conversion are written as they were read. -/
theorem text_readOptions (s : List Char) : (readOptions s).1.body ++ (readOptions s).2 = s := by
  have hflags := text_readWhile (fun _ _ => Flag.char_of_ofChar) s
  have hwidth := text_readAmount (readWhile Flag.ofChar s).2
  have hprecision := text_readPrecision (readAmount (readWhile Flag.ofChar s).2).2
  have hlength := text_readLength (readPrecision (readAmount (readWhile Flag.ofChar s).2).2).2
  rw [← hlength] at hprecision
  rw [← hprecision] at hwidth
  rw [← hwidth] at hflags
  simp only [Options.body, Options.flagsText, Options.precisionText, List.append_assoc]
  exact hflags

/-- The character of a conversion is none that an option could start with. -/
theorem Conversion.char_ends (conv : Conversion) :
    (conv.char ≠ 'h' ∧ conv.char ≠ 'l' ∧ conv.char ≠ 'z') ∧
      digitOf conv.char = none ∧ conv.char ≠ '*' ∧ conv.char ≠ '.' ∧
        Flag.ofChar conv.char = none := by
  cases conv with
  | num c => cases c <;> decide
  | str => decide
  | chr => decide

/-- Behind the amounts comes a letter. -/
theorem head_length (m : LengthMod) (conv : Conversion) (rest : List Char) :
    ∀ c ∈ (m.text ++ conv.char :: rest).head?,
      digitOf c = none ∧ c ≠ '*' ∧ c ≠ '.' ∧ Flag.ofChar c = none := by
  intro c hc
  cases m with
  | none =>
      obtain rfl : conv.char = c := Option.some.inj hc
      exact conv.char_ends.2
  | _ =>
      cases hc
      decide

/-- A precision is read back in front of any text that does not start with an option. -/
theorem readPrecision_append (o : Options) {t : List Char}
    (ht : ∀ c ∈ t.head?, digitOf c = none ∧ c ≠ '*' ∧ c ≠ '.' ∧ Flag.ofChar c = none) :
    readPrecision (o.precisionText ++ t) = (o.precision, t) := by
  unfold Options.precisionText
  cases o.precision with
  | none =>
      show readPrecision t = (none, t)
      unfold readPrecision
      split
      · exact absurd rfl (ht '.' rfl).2.2.1
      · rfl
  | some a =>
      have hread : readAmount (a.text ++ t) = (a, t) := readAmount_append (by
        cases a with
        | digits ds => exact ⟨fun c hc => (ht c hc).1, fun _ c hc => (ht c hc).2.1⟩
        | star => trivial)
      exact congrArg (fun r => (some r.1, r.2)) hread

/-- Behind a width comes a point or a letter. -/
theorem head_precision (o : Options) {t : List Char}
    (ht : ∀ c ∈ t.head?, digitOf c = none ∧ c ≠ '*' ∧ c ≠ '.' ∧ Flag.ofChar c = none) :
    ∀ c ∈ (o.precisionText ++ t).head?, digitOf c = none ∧ c ≠ '*' ∧ Flag.ofChar c = none := by
  intro c hc
  unfold Options.precisionText at hc
  cases hp : o.precision with
  | none =>
      rw [hp] at hc
      exact ⟨(ht c hc).1, (ht c hc).2.1, (ht c hc).2.2.2⟩
  | some a =>
      rw [hp] at hc
      cases hc
      decide

/-- The first digit of a width is no zero, so the flags end in front of it. -/
theorem head_width (o : Options) {t : List Char} (ht : ∀ c ∈ t.head?, Flag.ofChar c = none) :
    ∀ c ∈ (o.width.text ++ t).head?, Flag.ofChar c = none := by
  intro c hc
  cases hw : o.width with
  | star =>
      rw [hw] at hc
      cases hc
      rfl
  | digits ds =>
      rw [hw] at hc
      cases ds with
      | nil => exact ht c hc
      | cons d ds =>
          have hd : d ≠ 0 := fun hd => o.width_head ds (by rw [hw, hd])
          obtain rfl : Nat.digitChar d.val = c := Option.some.inj hc
          clear hc hw
          revert d
          decide

/-- Options in front of a conversion are read back. -/
theorem readOptions_body (o : Options) (conv : Conversion) (rest : List Char) :
    readOptions (o.body ++ conv.char :: rest) = (o, conv.char :: rest) := by
  have hlength := @readLength_append o.length (conv.char :: rest) fun c hc => by
    obtain rfl : conv.char = c := Option.some.inj hc
    exact conv.char_ends.1
  have htail := head_length o.length conv rest
  have hbody : o.body ++ conv.char :: rest = o.flags.map Flag.char
      ++ (o.width.text ++ (o.precisionText ++ (o.length.text ++ conv.char :: rest))) := by
    simp [Options.body, Options.flagsText]
  rw [hbody]
  generalize o.length.text ++ conv.char :: rest = t at hlength htail
  have hprecision := readPrecision_append o htail
  have hbehind := head_precision o htail
  generalize o.precisionText ++ t = t' at hprecision hbehind
  have hwidth : readAmount (o.width.text ++ t') = (o.width, t') := readAmount_append (by
    cases o.width with
    | digits ds => exact ⟨fun c hc => (hbehind c hc).1, fun _ c hc => (hbehind c hc).2.1⟩
    | star => trivial)
  have hfirst := head_width o fun c hc => (hbehind c hc).2.2
  have hflags := readWhile_append Flag.ofChar_char hfirst o.flags
  simp only [readOptions, hflags, hwidth, hprecision, hlength]

/-! ### Items -/

/-- The parts of a format. -/
inductive Item where
  | literal (c : Char)
  /-- `%%`. -/
  | percent
  | spec (o : Options) (conv : Conversion)
  | malformed (o : Options)

/-- A part, as the format has it. -/
def Item.text : Item → List Char
  | .literal c => [c]
  | .percent => ['%', '%']
  | .spec o conv => o.text conv.char
  | .malformed o => '%' :: o.body

/-- The rest behind the options is no longer than the text. -/
theorem length_readOptions (s : List Char) : (readOptions s).2.length ≤ s.length := by
  have hlen := congrArg List.length (text_readOptions s)
  rw [List.length_append] at hlen
  omega

/-- The items of a format. -/
def items : List Char → List Item
  | [] => []
  | c :: rest =>
      if c ≠ '%' then .literal c :: items rest
      else if rest.head? = some '%' then .percent :: items rest.tail
      else
        match (readOptions rest).2.head?.bind Conversion.ofChar with
        | some conv => .spec (readOptions rest).1 conv :: items (readOptions rest).2.tail
        | none => .malformed (readOptions rest).1 :: items (readOptions rest).2
termination_by s => s.length
decreasing_by
  all_goals
    have hlen := length_readOptions rest
    simp only [List.length_tail, List.length_cons]
    omega

section Items

variable {fmt rest : List Char} {c : Char}

/-- An empty format has no parts. -/
theorem items_nil : items [] = [] := by
  rw [items]

/-- A character that is no per cent sign is a part of its own. -/
theorem items_literal (hc : c ≠ '%') : items (c :: rest) = .literal c :: items rest := by
  rw [items, if_pos hc]

/-- Two per cent signs are one part. -/
theorem items_percent : items ('%' :: '%' :: rest) = .percent :: items rest := by
  rw [items, if_neg (by decide), if_pos (show ('%' :: rest).head? = some '%' from rfl)]
  rfl

/-- A specification is read as one. -/
theorem items_spec (o : Options) (conv : Conversion) :
    items (o.text conv.char ++ rest) = .spec o conv :: items rest := by
  have hread := readOptions_body o conv rest
  have hhead : (o.body ++ conv.char :: rest).head? ≠ some '%' := by
    intro hhead
    obtain ⟨t, ht⟩ := List.head?_eq_some_iff.mp hhead
    -- There are no options in front of a `%`, and it is no conversion.
    have hnone : (readOptions ('%' :: t)).2 = '%' :: t := rfl
    rw [← ht, hread, ht] at hnone
    have hchar : conv.char = '%' := (List.cons.inj hnone).1
    have hof := conv.ofChar_char
    rw [hchar] at hof
    cases hof
  rw [o.text_append, items, if_neg (by decide), if_neg hhead, hread]
  simp only [List.head?_cons, Option.bind_some, Conversion.ofChar_char, List.tail_cons]

/-- What a format begins with. -/
theorem items_cases (fmt : List Char) :
    (fmt = [] ∧ items fmt = []) ∨
    (∃ c rest, c ≠ '%' ∧ fmt = c :: rest ∧ items fmt = .literal c :: items rest) ∨
    (∃ rest, fmt = '%' :: '%' :: rest ∧ items fmt = .percent :: items rest) ∨
    (∃ o conv rest, fmt = o.text (Conversion.char conv) ++ rest ∧
      items fmt = .spec o conv :: items rest) ∨
    ∃ o rest, fmt = '%' :: (Options.body o ++ rest) ∧ items fmt = .malformed o :: items rest := by
  cases fmt with
  | nil => exact .inl ⟨rfl, items_nil⟩
  | cons c rest =>
      by_cases hc : c = '%'
      · subst hc
        -- `%%` is one item.
        by_cases hpercent : rest.head? = some '%'
        · obtain ⟨rest, rfl⟩ := List.head?_eq_some_iff.mp hpercent
          exact .inr (.inr (.inl ⟨rest, rfl, items_percent⟩))
        · -- Behind any other `%` come options, and what follows them decides.
          have htext := text_readOptions rest
          have hitems : items ('%' :: rest)
              = match (readOptions rest).2.head?.bind Conversion.ofChar with
                | some conv => .spec (readOptions rest).1 conv :: items (readOptions rest).2.tail
                | none => .malformed (readOptions rest).1 :: items (readOptions rest).2 := by
            rw [items, if_neg (by decide), if_neg hpercent]
          cases hbind : (readOptions rest).2.head?.bind Conversion.ofChar with
          | none =>
              rw [hbind] at hitems
              -- No conversion follows.
              exact .inr (.inr (.inr (.inr ⟨_, _, by rw [htext], hitems⟩)))
          | some conv =>
              rw [hbind] at hitems
              obtain ⟨x, hx, hconv⟩ := Option.bind_eq_some_iff.mp hbind
              obtain ⟨tail, htail⟩ := List.head?_eq_some_iff.mp hx
              rw [htail, List.tail_cons] at hitems
              refine .inr (.inr (.inr (.inl ⟨_, conv, tail, ?_, hitems⟩)))
              rw [Options.text_append, Conversion.char_of_ofChar hconv, ← htail, htext]
      · exact .inr (.inl ⟨c, rest, hc, rfl, items_literal hc⟩)

/-- Every character of a format belongs to one item. -/
theorem text_items (fmt : List Char) : (items fmt).flatMap Item.text = fmt := by
  induction h : fmt.length using Nat.strongRecOn generalizing fmt with
  | ind n ih =>
      subst h
      rcases items_cases fmt with ⟨rfl, hitems⟩ | ⟨c, rest, -, rfl, hitems⟩ | ⟨rest, rfl, hitems⟩
        | ⟨o, conv, rest, rfl, hitems⟩ | ⟨o, rest, rfl, hitems⟩
      · rw [hitems]
        rfl
      all_goals
        rw [hitems, List.flatMap_cons, ih rest.length
          (by simp only [Options.text, List.length_cons, List.length_append]; omega) rest rfl]
        simp [Item.text]

end Items

end MString
