import MString.Proofs.Mlibc.Numerals
import MString.Proofs.Mlibc.Refusals

/-!
# `MString.Proofs.Mlibc.Layout`: the fields of numbers

When a numeric conversion with any flags, width and precision prints the field that
`printf` lays out.

* `applyFlags_bits`: the bits of a list of flags.
* `codeText_eq_layout`, `fits_of_codeText_eq`: when the text of the code is the layout.
* `StarKeeps`: reading a `*` stores nothing but the field that it is for.
* `printsLayout_iff`: the exact condition.
-/

set_option autoImplicit false

namespace MString

open Sink

/-! ### The flags -/

/-- `-` wins over `0`, and `+` over a blank. -/
theorem applyFlags_bits (fs : List Flag) (f : FmtFlags) :
    (applyFlags f fs).flj = (f.flj || decide (.minus ∈ fs)) ∧
    (applyFlags f fs).fsig = (f.fsig || decide (.plus ∈ fs)) ∧
    (applyFlags f fs).fpref = (f.fpref || decide (.hash ∈ fs)) ∧
    (applyFlags f fs).fzero
      = (!decide (.minus ∈ fs) && (f.fzero || (decide (.zero ∈ fs) && !f.flj))) ∧
    (applyFlags f fs).fspace
      = (!decide (.plus ∈ fs) && (f.fspace || (decide (.space ∈ fs) && !f.fsig))) := by
  induction fs generalizing f with
  | nil => simp [applyFlags]
  | cons x fs ih =>
      obtain ⟨h1, h2, h3, h4, h5⟩ := ih (x.apply f)
      have hcons : applyFlags f (x :: fs) = applyFlags (x.apply f) fs := rfl
      rw [hcons, h1, h2, h3, h4, h5]
      cases x
      all_goals
        simp only [Flag.apply, List.mem_cons, reduceCtorEq, false_or, true_or, decide_true,
          Bool.or_true, Bool.true_and, Bool.not_true, Bool.and_false, Bool.false_and,
          Bool.or_false, and_true, true_and]
        grind

/-- The flags that the parser keeps, each by the flag characters. A minus drops the zeros, and a
plus the blank. -/
theorem Options.attrs_bits (o : Options) :
    o.attrs.flj = decide (.minus ∈ o.flags) ∧ o.attrs.fsig = decide (.plus ∈ o.flags) ∧
    o.attrs.fpref = decide (.hash ∈ o.flags) ∧
    o.attrs.fzero
      = (!decide (.minus ∈ o.flags) && decide (.zero ∈ o.flags) && o.precision.isNone) ∧
    o.attrs.fspace = (!decide (.plus ∈ o.flags) && decide (.space ∈ o.flags)) := by
  obtain ⟨h1, h2, h3, h4, h5⟩ := applyFlags_bits o.flags {}
  unfold Options.attrs
  cases o.precision
  all_goals
    cases o.length
    all_goals simp [LengthMod.apply, dotFlags, h1, h2, h3, h4, h5]

/-- The conversion leaves the flags alone, but a pointer always has its prefix. -/
theorem NumConv.apply_bits (c : NumConv) (f : FmtFlags) :
    (c.apply f).flj = f.flj ∧ (c.apply f).fsig = f.fsig ∧ (c.apply f).fzero = f.fzero ∧
    (c.apply f).fspace = f.fspace ∧ (c.apply f).fpref = (f.fpref || decide (c = .p)) := by
  cases c <;> simp [NumConv.apply]

/-! ### The signs -/

/-- Where the code prints no sign that the conversion does not have. -/
def NumConv.SignFits : NumConv → List Flag → Prop
  | .d, _ | .i, _ => True
  | .u, flags => .plus ∉ flags ∧ .space ∉ flags
  | _, flags => .space ∈ flags → .plus ∈ flags

/-- What the code prints in front of the padding and behind it. -/
def NumConv.codeSign (c : NumConv) (flags : List Flag) : List Char × List Char :=
  (if .plus ∉ flags ∧ .space ∈ flags then [' '] else [],
    match c with
    | .d | .i | .u => if .plus ∈ flags then ['+'] else []
    | _ => c.sign flags 0)

section Signs

variable {c : NumConv} {o : Options}

/-- The blank in front of a number is the first part of the code's sign. -/
theorem space_eq_codeSign : (if (c.apply o.attrs).fspace then [' '] else [])
    = (c.codeSign o.flags).1 := by
  rw [(c.apply_bits _).2.2.2.1, o.attrs_bits.2.2.2.2]
  simp [NumConv.codeSign]

/-- The plus and the prefix are the second part. -/
theorem signText_eq_codeSign : signText (c.apply o.attrs) = (c.codeSign o.flags).2 := by
  have htype := o.untyped_attrs
  obtain ⟨-, hfsig, hfpref, -, -⟩ := o.attrs_bits
  generalize o.attrs = f at htype hfsig hfpref
  cases c
  all_goals
    simp [signText, NumConv.apply, NumConv.codeSign, NumConv.sign, htype.dhex, htype.dhexUp,
      htype.ddec, htype.doct, hfsig, hfpref]

/-- The two parts are the sign, if they fit. -/
theorem codeSign_append {flags : List Flag} (h : c.SignFits flags) :
    (c.codeSign flags).1 ++ (c.codeSign flags).2 = c.sign flags 0 := by
  cases c
  all_goals
    by_cases hplus : Flag.plus ∈ flags
    all_goals
      by_cases hspace : Flag.space ∈ flags
      all_goals simp_all [NumConv.SignFits, NumConv.codeSign, NumConv.sign]

/-- Too much is printed if they do not fit. -/
theorem length_sign_le {flags : List Flag} :
    (c.sign flags 0).length ≤ (c.codeSign flags).1.length + (c.codeSign flags).2.length ∧
      ((c.codeSign flags).1.length + (c.codeSign flags).2.length = (c.sign flags 0).length →
        c.SignFits flags) := by
  cases c
  all_goals
    by_cases hplus : Flag.plus ∈ flags
    all_goals
      by_cases hspace : Flag.space ∈ flags
      all_goals simp_all [NumConv.SignFits, NumConv.codeSign, NumConv.sign]

end Signs

/-! ### The text of the code -/

/-- Reading a `*` changes the field that it is for, and counts the character. -/
def StarKeeps (env : Strings) (args : Nat → BitVec 64) (dsize : Nat) (fmt : List Char)
    (s : KprintfState) : Prop :=
  charAt fmt s.fmt = '*' →
    ∀ s', vsnprintfTurn env args dsize fmt s = .ok (.inl s') → s'.ap = s.ap + 1 →
      s'.fa = if s.fa.flags.dot
        then { s.fa with cinf := s.fa.cinf + 1, presiction := s'.fa.presiction }
        else { s.fa with cinf := s.fa.cinf + 1, width := s'.fa.width }

/-- The options that are read as they are meant: no flag is refused, a width is a numeral
without a zero or a `*` without flags whose argument is not negative, and a precision is a
numeral. -/
structure Options.Read (o : Options) (args : Nat → BitVec 64) : Prop where
  flags : FlagsTaken {} o.flags
  width : ∀ ds, o.width = .digits ds → 0 ∉ ds ∧ numeral ds < 2 ^ 31
  widthStar : o.width = .star → o.flags = [] ∧ 0 ≤ o.widthOf args
  precision : ∀ a, o.precision = some a → ∃ ds, a = .digits ds ∧ numeral ds < 2 ^ 31

/-- The amounts are what an `int` holds that is not negative. -/
structure Options.Amounts (o : Options) (args : Nat → BitVec 64) : Prop where
  width : 0 ≤ o.widthOf args ∧ o.widthOf args < 2 ^ 31
  precision : ∀ a, o.precision = some a →
    0 ≤ a.number (args o.width.slots) ∧ a.number (args o.width.slots) < 2 ^ 31

section Code

variable {env : Strings} {args : Nat → BitVec 64} {dsize : BitVec 64} {c : NumConv} {o : Options}

/-- Options that are read are not refused. -/
theorem Options.Read.taken (h : o.Read args) : o.Taken args where
  flags := h.flags
  width ds hds := (h.width ds hds).1
  widthStar := h.widthStar
  precisionStar hp := by
    obtain ⟨ds, hds, -⟩ := h.precision _ hp
    cases hds

/-- An `int` holds a width and a precision that are numerals below `2 ^ 31` or arguments. -/
theorem Amount.number_lt {a : Amount} (slot : BitVec 64)
    (h : ∀ ds, a = .digits ds → numeral ds < 2 ^ 31) : a.number slot < 2 ^ 31 := by
  cases a with
  | digits ds =>
      have hsmall := h ds rfl
      show (numeral ds : Int) < 2 ^ 31
      omega
  | star => exact BitVec.toInt_lt

/-- A number that is written out is not negative. -/
theorem Amount.number_digits_nonneg (ds : List (Fin 10)) (slot : BitVec 64) :
    0 ≤ (Amount.digits ds).number slot := Int.natCast_nonneg _

/-- The width fits an `int`, when its digits or its argument do. -/
theorem Options.widthOf_bounds (hdigits : ∀ ds, o.width = .digits ds → numeral ds < 2 ^ 31)
    (hstar : o.width = .star → 0 ≤ o.widthOf args) :
    0 ≤ o.widthOf args ∧ o.widthOf args < 2 ^ 31 := by
  refine ⟨?_, Amount.number_lt _ hdigits⟩
  cases hw : o.width with
  | digits ds =>
      rw [Options.widthOf, hw]
      exact Amount.number_digits_nonneg ds _
  | star => exact hstar hw

/-- So do both amounts of options that are read. -/
theorem Options.Read.amounts (h : o.Read args) : o.Amounts args where
  width := o.widthOf_bounds (fun ds hds => (h.width ds hds).2) fun hw => (h.widthStar hw).2
  precision a ha := by
    obtain ⟨ds, rfl, hsmall⟩ := h.precision a ha
    refine ⟨Amount.number_digits_nonneg ds _, Amount.number_lt _ fun ds' hds => ?_⟩
    obtain rfl := Amount.digits.inj hds
    exact hsmall

/-- The width, as a natural number. -/
theorem Options.Amounts.widthOf (h : o.Amounts args) :
    o.widthOf args = ((o.widthOf args).natAbs : Int) ∧ (o.widthOf args).natAbs < 2 ^ 31 := by
  have hwidth := h.width
  omega

/-- The precision, as the parser has it in 32 bits. -/
theorem Options.Amounts.precisionOf (h : o.Amounts args) :
    (o.precision.elim 0 fun a => BitVec.ofInt 32 (a.number (args o.width.slots)))
        = BitVec.ofNat 32 ((o.precisionOf args).getD 0) ∧
      (o.precisionOf args).getD 0 < 2 ^ 31 ∧ (o.precisionOf args).isNone = o.precision.isNone := by
  cases hp : o.precision with
  | none => simp [Options.precisionOf, hp]
  | some a =>
      obtain ⟨hnonneg, hsmall⟩ := h.precision a hp
      have hof : o.precisionOf args = some (a.number (args o.width.slots)).toNat := by
        simp [Options.precisionOf, hp, Int.not_lt.mpr hnonneg]
      rw [hof]
      refine ⟨?_, by simp only [Option.getD_some]; omega, rfl⟩
      show BitVec.ofInt 32 (a.number (args o.width.slots)) = _
      rw [Option.getD_some, ← BitVec.ofInt_natCast, Int.toNat_of_nonneg hnonneg]

/-- What the code prints for a number. -/
def codeText (c : NumConv) (o : Options) (args : Nat → BitVec 64) : List Char :=
  fieldText (c.apply o.attrs) (o.widthOf args).natAbs ((o.precisionOf args).getD 0)
    (c.digits (o.number c args).toNat)

/-- The pieces of a number, put together, are the code's text. -/
theorem flatten_numberWrites_eq (h : o.Amounts args) :
    (numberWrites (o.numberAttrs c args) (o.number c args)).flatten = codeText c o args := by
  have hw : (o.numberAttrs c args).width = BitVec.ofNat 32 (o.widthOf args).natAbs := by
    show BitVec.ofInt 32 (o.widthOf args) = _
    rw [h.widthOf.1]
    exact BitVec.ofInt_natCast ..
  rw [flatten_numberWrites h.widthOf.2 h.precisionOf.2.1 hw h.precisionOf.1]
  show fieldText (c.apply o.attrs) _ _ (numberBuf (c.apply o.attrs) _).reverse = _
  rw [numberBuf_eq c o.untyped_attrs, codeText]

/-- The `*` of a width that is read as it is meant. -/
theorem starKeeps_width {fmt : List Char} {pos : Nat} {fa : Fattrs} {k : Sink} {n : Nat}
    (hchar : charAt fmt pos = '*') (hflags : fa.flags = {}) (hfirst : fa.OnlyFlags)
    (hp : fa.presiction = 0) (hnonneg : 0 ≤ ((args 0).setWidth 32).toInt) :
    StarKeeps env args n fmt ⟨pos, true, fa, 0, k⟩ := by
  obtain ⟨w, p, count, f⟩ := fa
  obtain rfl : p = 0 := hp
  obtain rfl : f = {} := hflags
  intro _ s' hs' _
  have hturn := @turn_star_width env args n fmt pos 0 ⟨w, 0, count, {}⟩ k hchar rfl hfirst
  rw [starNumber_high _ rfl rfl, if_neg (Int.not_lt.mpr hnonneg)] at hturn
  rw [hturn] at hs'
  obtain rfl := Sum.inl.inj (Except.ok.inj hs')
  rfl

/-- With room for it, `vsnprintf` prints this text of a single numeric conversion, and reading a
star stores nothing but its own field. -/
theorem vsnprintf_number (h : o.Read args) (hroom : (codeText c o args).length ≤ dsize.toNat) :
    vsnprintf env args dsize (o.text c.char) = .ok (ofList (codeText c o args)) ∧
      ∀ s, Loop.Reaches (vsnprintfTurn env args dsize.toNat (o.text c.char)) kprintfStart s →
        StarKeeps env args dsize.toNat (o.text c.char) s := by
  have hpath := @path_number env args dsize.toNat (o.text c.char) [] [] 0 0
    (StarKeeps env args dsize.toNat (o.text c.char)) o c (fun s hs hs' => absurd hs' hs)
    (here_text o c.char) (by rw [args_zero]; exact h.taken)
    (fun hw pos fa hchar hflags hfirst hp => by
      have hnonneg := (h.widthStar hw).2
      rw [Options.widthOf, hw] at hnonneg
      exact starKeeps_width hchar hflags hfirst hp hnonneg)
    (fun hp => by
      obtain ⟨ds, hds, -⟩ := h.precision _ hp
      cases hds)
    (by rw [args_zero, flatten_numberWrites_eq h.amounts]; simpa using hroom)
  rw [args_zero, flatten_numberWrites_eq h.amounts, List.nil_append] at hpath
  have hend := here_end o c.char
  refine ⟨vsnprintf_of_path hpath hend, hpath.forall_reached ?_⟩
  exact Loop.forall_reached_exit (turn_end hend) fun hs => by
    rw [hend.charAt_end] at hs
    exact absurd hs (by decide)

end Code

/-! ### The text and the layout -/

section Texts

variable {args : Nat → BitVec 64} {c : NumConv} {o : Options}

/-- The code's text by its parts: the sign, the padding on its side, the zeros and the digits.
-/
theorem codeText_eq (c : NumConv) (o : Options) (args : Nat → BitVec 64) :
    let digits := c.digits (o.number c args).toNat
    let zeros := (o.precisionOf args).getD 0 - digits.length
    let fill := (o.widthOf args).natAbs - digits.length - zeros
    codeText c o args = (c.codeSign o.flags).1 ++
      (padding (!decide (.minus ∈ o.flags))
        (if !decide (.minus ∈ o.flags) && decide (.zero ∈ o.flags) && o.precision.isNone
          then '0' else ' ') fill ++
      ((c.codeSign o.flags).2 ++ (List.replicate zeros '0' ++
        (digits ++ padding (decide (.minus ∈ o.flags)) ' ' fill)))) := by
  obtain ⟨hflj, -, -, hfzero, -⟩ := o.attrs_bits
  obtain ⟨hflj', -, hfzero', -, -⟩ := c.apply_bits o.attrs
  dsimp only
  rw [← space_eq_codeSign, ← signText_eq_codeSign, codeText, fieldText, hflj', hflj, hfzero',
    hfzero]

/-- Its length. The blank, the plus and the prefix come on top of the width. -/
theorem length_codeText (c : NumConv) (o : Options) (args : Nat → BitVec 64) :
    (codeText c o args).length =
      (c.codeSign o.flags).1.length + (c.codeSign o.flags).2.length +
        max (o.widthOf args).natAbs
          (max ((o.precisionOf args).getD 0) (c.digits (o.number c args).toNat).length) := by
  rw [codeText_eq]
  by_cases hminus : Flag.minus ∈ o.flags
  all_goals
    simp only [hminus, decide_true, decide_false, padding, Bool.not_true, Bool.not_false,
      Bool.false_eq_true, if_true, if_false, List.length_append, List.length_replicate,
      List.length_nil]
    omega

/-- The length of the field that was asked for. Here the sign is within the width. -/
theorem length_layout (c : NumConv) (o : Options) (args : Nat → BitVec 64) :
    (c.layout o args).length =
      max (o.widthOf args).natAbs
        ((c.sign o.flags (c.value o.length (args o.starSlots))).length +
          max ((o.precisionOf args).getD 0)
            (c.digits (c.value o.length (args o.starSlots)).natAbs).length) := by
  unfold NumConv.layout
  dsimp only
  split
  · simp only [List.length_append, List.length_replicate]
    omega
  · split
    · rename_i hnone
      rw [hnone.2]
      simp only [List.length_append, List.length_replicate, Option.getD_none]
      omega
    · simp only [List.length_append, List.length_replicate]
      omega

/-- The sign of a number that is not negative does not depend on the number. -/
theorem NumConv.sign_of_nonneg (c : NumConv) (flags : List Flag) {v : Int} (hv : 0 ≤ v) :
    c.sign flags v = c.sign flags 0 := by
  unfold NumConv.sign
  cases c <;> simp [Int.not_lt.mpr hv]

/-- The code lays the field out as it should when the number is right, the sign fits, and
there is no sign or no padding. -/
theorem codeText_eq_layout (h : o.Amounts args)
    (hvalue : ((o.number c args).toNat : Int) = c.value o.length (args o.starSlots))
    (hsign : c.SignFits o.flags)
    (hroom : c.sign o.flags 0 = [] ∨ (o.widthOf args).natAbs ≤
      max ((o.precisionOf args).getD 0) (c.digits (o.number c args).toNat).length) :
    codeText c o args = c.layout o args := by
  -- The code has the sign in two pieces, one in front of the padding and one behind it.
  have happend := codeSign_append hsign
  have hleft : o.left args = decide (.minus ∈ o.flags) := by
    have hnonneg := h.widthOf.1
    rw [Options.left, decide_eq_false (show ¬ o.widthOf args < 0 by omega), Bool.or_false]
  have hnone := h.precisionOf.2.2
  rw [codeText_eq]
  unfold NumConv.layout
  dsimp only
  rw [← hvalue, c.sign_of_nonneg o.flags (Int.natCast_nonneg _), Int.natAbs_natCast, hleft,
    ← happend, ← hnone]
  generalize c.digits (o.number c args).toNat = digits at hroom ⊢
  generalize (o.widthOf args).natAbs = width at hroom ⊢
  generalize c.codeSign o.flags = sign at happend ⊢
  rcases hroom with hnil | hle
  · -- Without a sign it does not matter where the padding stands.
    rw [← happend] at hnil
    obtain ⟨hpre, hpost⟩ := List.append_eq_nil_iff.mp hnil
    rw [hpre, hpost]
    cases hp : o.precisionOf args with
    | none =>
        by_cases hminus : Flag.minus ∈ o.flags
        · simp [hminus, padding]
        · by_cases hzero : Flag.zero ∈ o.flags
          · simp [hminus, hzero, padding]
          · simp [hminus, hzero, padding]
    | some p =>
        by_cases hminus : Flag.minus ∈ o.flags
        · simp [hminus, padding, Nat.sub_sub, Nat.add_comm]
        · simp [hminus, padding, Nat.sub_sub, Nat.add_comm]
  · -- Without padding it does not matter, either.
    generalize hzeros : (o.precisionOf args).getD 0 - digits.length = zeros
    have hfill : width - digits.length - zeros = 0 := by omega
    have hfill' : width - ((sign.1 ++ sign.2).length + zeros + digits.length) = 0 := by omega
    rw [hfill, hfill']
    cases hp : o.precisionOf args with
    | none =>
        rw [hp] at hzeros
        obtain rfl : zeros = 0 := by rw [← hzeros]; simp
        by_cases hminus : Flag.minus ∈ o.flags
        · simp [hminus, padding]
        · simp [hminus, padding]
    | some p =>
        by_cases hminus : Flag.minus ∈ o.flags
        · simp [hminus, padding]
        · simp [hminus, padding]

/-- Reading a field back: what stands in front of the digits adds nothing, and what stands
behind them is no digit. -/
theorem readNumber_field {b : Nat} {front text back : List Char}
    (hfront : ∀ x ∈ front, digitValue x = none ∨ digitValue x = some 0)
    (hback : ∀ x ∈ back, digitValue x = none) :
    readNumber b (front ++ (text ++ back)) = readNumber b text := by
  have hzeros : ∀ front : List Char,
      (∀ x ∈ front, digitValue x = none ∨ digitValue x = some 0) →
      (front.filterMap digitValue).foldl (fun n d => b * n + d) 0 = 0 := by
    intro front
    induction front with
    | nil => exact fun _ => rfl
    | cons x front ih =>
        intro hfront
        have hrest := ih fun y hy => hfront y (.tail _ hy)
        rcases hfront x (.head _) with hx | hx
        · rwa [List.filterMap_cons_none hx]
        · rw [List.filterMap_cons_some hx]
          exact hrest
  have hnone : back.filterMap digitValue = [] := List.filterMap_eq_nil_iff.mpr hback
  rw [readNumber, List.filterMap_append, List.filterMap_append, hnone, List.append_nil,
    List.foldl_append, hzeros front hfront, readNumber]

/-- The characters of the signs that the code prints. -/
def signChars : List Char := [' ', '+', '0', 'x', 'X']

/-- The code's sign is made of the sign characters. -/
theorem codeSign_subset (c : NumConv) (flags : List Flag) :
    (c.codeSign flags).1 ++ (c.codeSign flags).2 ⊆ signChars := by
  rw [List.append_subset]
  constructor
  · show (if .plus ∉ flags ∧ .space ∈ flags then [' '] else []) ⊆ signChars
    split <;> decide
  · cases c
    all_goals
      simp only [NumConv.codeSign, NumConv.sign]
      first
        | decide
        | split <;> decide

/-- No sign or prefix spells a number. -/
theorem signChars_spec : ∀ x ∈ signChars,
    (digitValue x = none ∨ digitValue x = some 0) ∧ x ≠ '-' ∧ x ≠ '%' := by
  intro x hx
  simp only [signChars, List.mem_cons, List.not_mem_nil, or_false] at hx
  rcases hx with rfl | rfl | rfl | rfl | rfl
  all_goals decide

/-- So is padding with one of them. -/
theorem padding_subset {side : Bool} {x : Char} (hx : x ∈ signChars) (n : Nat) :
    padding side x n ⊆ signChars := by
  cases side with
  | true => exact fun y hy => (List.eq_of_mem_replicate hy) ▸ hx
  | false => exact List.nil_subset _

/-- Neither a `-` nor a `%` is in what the code prints, and its number can be read back. -/
theorem codeText_chars (c : NumConv) (o : Options) (args : Nat → BitVec 64) :
    '-' ∉ codeText c o args ∧
      readNumber c.base (codeText c o args) = (o.number c args).toNat := by
  have hsign := List.append_subset.mp (codeSign_subset c o.flags)
  rw [codeText_eq]
  generalize hdigits : c.digits (o.number c args).toNat = digits
  generalize (o.precisionOf args).getD 0 - digits.length = zeros
  generalize (o.widthOf args).natAbs - digits.length - zeros = fill
  have hpad : padding (!decide (.minus ∈ o.flags)) (if !decide (.minus ∈ o.flags) &&
      decide (.zero ∈ o.flags) && o.precision.isNone then '0' else ' ') fill ⊆ signChars := by
    refine padding_subset ?_ fill
    split <;> decide
  have hzeros : List.replicate zeros '0' ⊆ signChars :=
    fun x hx => (List.eq_of_mem_replicate hx) ▸ (by decide)
  have hback : ∀ x ∈ padding (decide (.minus ∈ o.flags)) ' ' fill, x = ' ' := by
    intro x hx
    unfold padding at hx
    split at hx
    · exact List.eq_of_mem_replicate hx
    · exact absurd hx List.not_mem_nil
  generalize padding (decide (.minus ∈ o.flags)) ' ' fill = back at hback ⊢
  generalize padding _ _ fill = pad at hpad ⊢
  -- What stands in front of the digits holds no minus and no digit but zeros; behind them there
  -- are blanks only.
  have hfront : (c.codeSign o.flags).1 ++ (pad ++ ((c.codeSign o.flags).2 ++
      List.replicate zeros '0')) ⊆ signChars :=
    List.append_subset.mpr ⟨hsign.1, List.append_subset.mpr ⟨hpad,
      List.append_subset.mpr ⟨hsign.2, hzeros⟩⟩⟩
  have hassoc : (c.codeSign o.flags).1 ++ (pad ++ ((c.codeSign o.flags).2 ++
      (List.replicate zeros '0' ++ (digits ++ back))))
      = ((c.codeSign o.flags).1 ++ (pad ++ ((c.codeSign o.flags).2 ++
        List.replicate zeros '0'))) ++ (digits ++ back) := by simp only [List.append_assoc]
  rw [hassoc]
  generalize (c.codeSign o.flags).1 ++ (pad ++ ((c.codeSign o.flags).2 ++
    List.replicate zeros '0')) = front at hfront
  constructor
  · intro hmem
    rcases List.mem_append.mp hmem with hmem | hmem
    · exact (signChars_spec _ (hfront hmem)).2.1 rfl
    · rcases List.mem_append.mp hmem with hmem | hmem
      · rw [← hdigits] at hmem
        have hdigit := isSome_of_mem_digits c _ '-' hmem
        exact absurd hdigit (by decide)
      · exact absurd (hback _ hmem) (by decide)
  · rw [readNumber_field (fun x hx => (signChars_spec x (hfront hx)).1)
      (fun x hx => by rw [hback x hx]; decide), ← hdigits, readNumber_digits]

/-- The field that was asked for, around its digits: the sign is in front, and nothing else but
blanks and zeros is added. -/
theorem layout_parts (c : NumConv) (o : Options) (args : Nat → BitVec 64) :
    ∃ front back, c.layout o args
        = front ++ (c.digits (c.value o.length (args o.starSlots)).natAbs ++ back) ∧
      c.sign o.flags (c.value o.length (args o.starSlots)) ⊆ front ∧
      front ⊆ c.sign o.flags (c.value o.length (args o.starSlots)) ++ [' ', '0'] ∧
      back ⊆ [' '] := by
  have hfill : ∀ (x : Char) (n : Nat), x ∈ [' ', '0'] → List.replicate n x ⊆ [' ', '0'] :=
    fun x n hx y hy => (List.eq_of_mem_replicate hy) ▸ hx
  have hblank : ∀ n : Nat, List.replicate n ' ' ⊆ [' '] :=
    fun n y hy => List.mem_singleton.mpr (List.eq_of_mem_replicate hy)
  unfold NumConv.layout
  dsimp only
  generalize c.sign o.flags _ = sign
  generalize c.digits _ = digits
  generalize (o.precisionOf args).getD 0 - digits.length = zeros
  generalize (o.widthOf args).natAbs - (sign.length + zeros + digits.length) = fill
  split
  · -- Adjusted to the left: the blanks come behind.
    refine ⟨sign ++ List.replicate zeros '0', List.replicate fill ' ',
      by simp only [List.append_assoc], List.subset_append_left .., ?_, hblank fill⟩
    exact List.append_subset.mpr ⟨List.subset_append_left ..,
      List.Subset.trans (hfill '0' zeros (by decide)) (List.subset_append_right ..)⟩
  · split
    · -- Padded with zeros: they come between the sign and the digits.
      refine ⟨sign ++ List.replicate fill '0', [],
        by simp only [List.append_assoc, List.append_nil], List.subset_append_left .., ?_,
        List.nil_subset _⟩
      exact List.append_subset.mpr ⟨List.subset_append_left ..,
        List.Subset.trans (hfill '0' fill (by decide)) (List.subset_append_right ..)⟩
    · -- Otherwise the blanks come in front of all.
      refine ⟨List.replicate fill ' ' ++ (sign ++ List.replicate zeros '0'), [],
        by simp only [List.append_assoc, List.append_nil],
        List.Subset.trans (List.subset_append_left ..) (List.subset_append_right ..), ?_,
        List.nil_subset _⟩
      exact List.append_subset.mpr
        ⟨List.Subset.trans (hfill ' ' fill (by decide)) (List.subset_append_right ..),
        List.append_subset.mpr ⟨List.subset_append_left ..,
          List.Subset.trans (hfill '0' zeros (by decide)) (List.subset_append_right ..)⟩⟩

/-- The sign that was asked for is made of a minus and the sign characters, ... -/
theorem sign_subset (c : NumConv) (flags : List Flag) (v : Int) :
    c.sign flags v ⊆ '-' :: signChars := by
  cases c
  all_goals
    simp only [NumConv.sign]
    first
      | decide
      | (split
         · decide
         · split
           · decide
           · split <;> decide)
      | split <;> decide

/-- ... and of these alone for a number that is not negative. -/
theorem sign_subset_of_nonneg (c : NumConv) (flags : List Flag) : c.sign flags 0 ⊆ signChars := by
  cases c
  all_goals
    simp only [NumConv.sign, Int.lt_irrefl, if_false]
    first
      | decide
      | (split
         · decide
         · split <;> decide)
      | split <;> decide

/-- A negative number has its `-`. -/
theorem minus_mem_sign {c : NumConv} {m : LengthMod} {slot : BitVec 64} (flags : List Flag)
    (hneg : c.value m slot < 0) : '-' ∈ c.sign flags (c.value m slot) := by
  have hsigned : c.signed = true := by
    by_contra hunsigned
    rw [NumConv.value, if_neg hunsigned] at hneg
    omega
  cases c with
  | d => simp [NumConv.sign, hneg]
  | i => simp [NumConv.sign, hneg]
  | _ => exact absurd hsigned (by decide)

/-- No character of a layout begins a specification. -/
theorem percent_notMem_layout (c : NumConv) (o : Options) (args : Nat → BitVec 64) :
    '%' ∉ c.layout o args := by
  obtain ⟨front, back, hparts, -, hfront, hback⟩ := layout_parts c o args
  rw [hparts]
  intro hmem
  rcases List.mem_append.mp hmem with hmem | hmem
  · rcases List.mem_append.mp (hfront hmem) with hmem | hmem
    · exact absurd (sign_subset c _ _ hmem) (by decide)
    · exact absurd hmem (by decide)
  · rcases List.mem_append.mp hmem with hmem | hmem
    · exact absurd (isSome_of_mem_digits c _ '%' hmem) (by decide)
    · exact absurd (hback hmem) (by decide)

/-- The code lays the field out as it should in no other case. -/
theorem fits_of_codeText_eq (h : codeText c o args = c.layout o args) :
    ((o.number c args).toNat : Int) = c.value o.length (args o.starSlots) ∧
      c.SignFits o.flags ∧ (c.sign o.flags 0 = [] ∨ (o.widthOf args).natAbs ≤
        max ((o.precisionOf args).getD 0) (c.digits (o.number c args).toNat).length) := by
  obtain ⟨hminus, hread⟩ := codeText_chars c o args
  have hlength := congrArg List.length h
  obtain ⟨front, back, hparts, hsign, hfront, hback⟩ := layout_parts c o args
  rw [h, hparts] at hminus hread
  rw [length_codeText, length_layout] at hlength
  have hnonneg : 0 ≤ c.value o.length (args o.starSlots) := by
    by_contra hneg
    exact hminus (List.mem_append_left _ (hsign (minus_mem_sign o.flags (by omega))))
  rw [c.sign_of_nonneg o.flags hnonneg] at hfront hlength
  -- The digits of the layout spell its number, and the two texts are equal.
  have hzeros : ∀ x ∈ front, digitValue x = none ∨ digitValue x = some 0 := by
    intro x hx
    rcases List.mem_append.mp (hfront hx) with hx | hx
    · exact (signChars_spec x (sign_subset_of_nonneg c o.flags hx)).1
    · exact (signChars_spec x (List.Subset.trans (by decide : [' ', '0'] ⊆ signChars)
        (List.Subset.refl _) hx)).1
  have hblanks : ∀ x ∈ back, digitValue x = none := by
    intro x hx
    rw [List.mem_singleton.mp (hback hx)]
    decide
  rw [readNumber_field hzeros hblanks, readNumber_digits] at hread
  have hvalue : ((o.number c args).toNat : Int) = c.value o.length (args o.starSlots) := by omega
  obtain ⟨hle, hfits⟩ := @length_sign_le c o.flags
  rw [hread] at hlength
  refine ⟨hvalue, hfits (by omega), ?_⟩
  by_cases hnil : (c.sign o.flags 0).length = 0
  · exact .inl (List.length_eq_zero_iff.mp hnil)
  · exact .inr (by omega)

end Texts

/-! ### When the field is laid out -/

/-- With enough room, the specification prints the field that `printf` lays out, and every
`*` that is read changes only the field that it is for. -/
def PrintsLayout (env : Strings) (args : Nat → BitVec 64) (o : Options) (c : NumConv) : Prop :=
  ∀ dsize : BitVec 64, (c.layout o args).length ≤ dsize.toNat →
    vsnprintf env args dsize (o.text c.char) = .ok (ofList (c.layout o args)) ∧
      ∀ s, Loop.Reaches (vsnprintfTurn env args dsize.toNat (o.text c.char)) kprintfStart s →
        StarKeeps env args dsize.toNat (o.text c.char) s

/-- When it does: the options are read as they are meant, the number is the one that the
conversion names, no sign is printed that it does not have, and there is no sign or no
padding. -/
structure NumConv.LaidOut (c : NumConv) (o : Options) (args : Nat → BitVec 64) : Prop where
  read : o.Read args
  kept : c.Kept o.length (args o.starSlots)
  sign : c.SignFits o.flags
  room : c.sign o.flags 0 = [] ∨ (o.widthOf args).natAbs ≤
    max ((o.precisionOf args).getD 0)
      (c.digits (c.value o.length (args o.starSlots)).natAbs).length

/-- The text and its numerals are such that no `int` of the code overflows. -/
structure Options.Small (o : Options) : Prop where
  text : o.flags.length + o.width.text.length + 2 < 2 ^ 31
  width : ∀ ds, o.width = .digits ds → numeral ds < 2 ^ 31
  precision : ∀ ds, o.precision = some (.digits ds) → numeral ds < 2 ^ 31

/-- The options that the loop reads to their end, as far as the text tells. -/
structure Options.Parsed (o : Options) : Prop where
  flags : FlagsTaken {} o.flags
  width : ∀ ds, o.width = .digits ds → 0 ∉ ds
  widthStar : o.width = .star → o.flags = []
  precisionStar : o.precision = some .star → ∀ f ∈ o.flags, f = .zero

/-- The mark of a flag that is no zero outlasts a dot. -/
theorem fmask_dot {fs : List Flag} (hne : ∃ f ∈ fs, f ≠ .zero) :
    (dotFlags (applyFlags {} fs) (some .star)).fmask = true := by
  obtain ⟨f, hf, hzero⟩ := hne
  obtain ⟨hflj, hfsig, hfpref, -, hfspace⟩ := applyFlags_bits fs {}
  by_cases hplus : Flag.plus ∈ fs
  · simp [dotFlags, FmtFlags.fmask, hfsig, hplus]
  · cases f with
    | zero => exact absurd rfl hzero
    | plus => exact absurd hf hplus
    | minus => simp [dotFlags, FmtFlags.fmask, hflj, hf]
    | hash => simp [dotFlags, FmtFlags.fmask, hfpref, hf]
    | space => simp [dotFlags, FmtFlags.fmask, hfspace, hf, hplus]

/-- Options that do not lead back to the `%` are read to their end. -/
theorem Options.Small.parsed {env : Strings} {args : Nat → BitVec 64} {o : Options} {dsize : Nat}
    {fmt rest out : List Char} {pos ap : Nat} (hsmall : o.Small)
    (h : Here fmt pos ('%' :: (o.body ++ rest))) (hroom : out.length < dsize)
    (hgiven : ¬ Given env args dsize fmt pos ap out) : o.Parsed := by
  have htext := hsmall.text
  have hflags : FlagsTaken {} o.flags := by
    by_contra hrefused
    exact hgiven (echoed_flag h hroom (by omega) hrefused).given
  have hdigits : ∀ ds, o.width = .digits ds → 0 ∉ ds := by
    intro ds hds hzero
    have hlen : o.width.text.length = ds.length := by
      rw [hds]
      exact List.length_map ..
    exact hgiven (refused_zero h hroom (by omega) hflags hds hzero (hsmall.width ds hds))
  have hstar : o.width = .star → o.flags = [] := by
    intro hw
    by_contra hne
    exact hgiven (echoed_star h hroom (by omega) hflags hw hne).given
  refine ⟨hflags, hdigits, hstar, fun hp => ?_⟩
  by_contra hall
  have hmask := fmask_dot (show ∃ f ∈ o.flags, f ≠ .zero by simpa using hall)
  exact hgiven (echoed_precision h hroom htext hflags hdigits hstar hp (by rwa [hp])).given

section Layouts

variable {env : Strings} {args : Nat → BitVec 64} {c : NumConv} {o : Options}

/-- The condition is enough. -/
theorem printsLayout_of_laidOut (h : c.LaidOut o args) : PrintsLayout env args o c := by
  have hvalue := (value_eq_iff o c args).mpr h.kept
  have hroom := h.room
  rw [← hvalue, Int.natAbs_natCast] at hroom
  have htext := codeText_eq_layout h.read.amounts hvalue h.sign hroom
  intro dsize hdsize
  rw [← htext] at hdsize ⊢
  exact vsnprintf_number h.read hdsize

/-- An `int` is at most `2 ^ 31` away from zero. -/
theorem natAbs_int_le (x : BitVec 32) : x.toInt.natAbs ≤ 2 ^ 31 := by
  have hlt := x.isLt
  rw [BitVec.toInt_eq_toNat_cond]
  split <;> omega

/-- So is an amount that is written out or taken from an argument. -/
theorem Amount.natAbs_number_le {a : Amount} (slot : BitVec 64)
    (h : ∀ ds, a = .digits ds → numeral ds < 2 ^ 31) : (a.number slot).natAbs ≤ 2 ^ 31 := by
  cases a with
  | digits ds => exact Nat.le_of_lt (h ds rfl)
  | star => exact natAbs_int_le _

/-- A layout has room. -/
theorem length_layout_le (h : o.Small) : (c.layout o args).length ≤ (BitVec.allOnes 64).toNat := by
  have hwidth : (o.widthOf args).natAbs ≤ 2 ^ 31 := Amount.natAbs_number_le _ h.width
  have hprecision : (o.precisionOf args).getD 0 ≤ 2 ^ 31 := by
    cases hp : o.precision with
    | none => simp [Options.precisionOf, hp]
    | some a =>
        have hle := @Amount.natAbs_number_le a (args o.width.slots) fun ds hds =>
          h.precision ds (by rw [hp, hds])
        simp only [Options.precisionOf, hp]
        split
        · simp
        · simp only [Option.getD_some]
          omega
  have hdigits := length_digits_le c (abs_value_lt c o.length (args o.starSlots))
  have hsign : (c.sign o.flags (c.value o.length (args o.starSlots))).length ≤ 2 := by
    unfold NumConv.sign
    cases c
    all_goals
      simp only
      first
        | decide
        | (split <;> (try split) <;> (try split) <;> decide)
  have hall : (BitVec.allOnes 64).toNat = 2 ^ 64 - 1 := by decide
  rw [length_layout, hall]
  omega

/-- A negative `*` for the width changes the precision. -/
theorem not_starKeeps_negative {dsize : Nat} (hflags : o.flags = []) (hwidth : o.width = .star)
    (hneg : o.widthOf args < 0) :
    ∃ s, Loop.Reaches (vsnprintfTurn env args dsize (o.text c.char)) kprintfStart s ∧
      ¬ StarKeeps env args dsize (o.text c.char) s := by
  have hfmt : Here (o.text c.char) 0
      ('%' :: '*' :: (o.precisionText ++ (o.length.text ++ [c.char]))) := by
    have htext : o.text c.char
        = '%' :: '*' :: (o.precisionText ++ (o.length.text ++ [c.char])) := by
      simp [Options.text, Options.flagsText, hflags, hwidth, Amount.text]
    rw [htext]
    exact here_zero _
  have hstart := @turn_percent env args dsize _ 0 0 {} (ofList []) hfmt.charAt
  refine ⟨⟨1, true, {}, 0, ofList []⟩, .single trivial hstart, fun hkeeps => ?_⟩
  have hturn := @turn_star_width env args dsize _ 1 0 {} (ofList []) hfmt.next.charAt rfl
    ⟨rfl, rfl, by decide⟩
  rw [Options.widthOf, hwidth] at hneg
  have hsign : ((args 0).setWidth 32).toInt < 0 := hneg
  rw [starNumber_high _ rfl rfl, if_pos hsign] at hturn
  have hfa := hkeeps hfmt.next.charAt _ hturn rfl
  exact absurd (congrArg Fattrs.presiction hfa) (by simp)

/-- A `*` for the precision changes the counter of the characters. -/
theorem not_starKeeps_precision {dsize : Nat} (hsmall : o.Small) (hflags : FlagsTaken {} o.flags)
    (hdigits : ∀ ds, o.width = .digits ds → 0 ∉ ds)
    (hwidth : o.width = .star → o.flags = [] ∧ 0 ≤ o.widthOf args)
    (hprecision : o.precision = some .star)
    (hfmask : (dotFlags (applyFlags {} o.flags) o.precision).fmask = false) :
    ∃ s, Loop.Reaches (vsnprintfTurn env args dsize (o.text c.char)) kprintfStart s ∧
      ¬ StarKeeps env args dsize (o.text c.char) s := by
  have hfront := @path_front env args dsize (o.text c.char) [c.char] 0 0 (ofList [])
    (fun _ => True) o (fun _ _ => trivial) (here_body o c.char) hflags hdigits
    (by rw [args_zero]; exact hwidth) (fun _ _ _ _ _ _ _ => trivial)
  have hbehind := (here_body o c.char).behind_width
  rw [Options.precisionText, hprecision] at hbehind
  rw [hprecision] at hfmask
  have htext := hsmall.text
  have hflen : o.flagsText.length = o.flags.length := List.length_map ..
  rw [hflen] at hfront hbehind
  generalize o.flags.length + o.width.text.length = n at hfront hbehind htext
  have hdot := @turn_dot env args dsize (o.text c.char) (0 + 1 + n) (0 + o.width.slots)
    { ({} : Fattrs).counted n with
      width := BitVec.ofInt 32 (o.widthOf fun i => args (0 + i))
      flags := applyFlags {} o.flags } (ofList []) hbehind.charAt
  refine ⟨_, hfront.trans (.single trivial hdot), fun hkeeps => ?_⟩
  have hturn := @turn_star_precision env args dsize (o.text c.char) (0 + 1 + n + 1)
    (0 + o.width.slots)
    { (({ ({} : Fattrs).counted n with
        width := BitVec.ofInt 32 (o.widthOf fun i => args (0 + i))
        flags := applyFlags {} o.flags } : Fattrs).counted 1) with
      flags := dotFlags (applyFlags {} o.flags) (some .star) } (ofList []) hbehind.next.charAt
    hfmask (applyFlags_lmask {} o.flags) rfl (show ¬ (0 : BitVec 32).toInt > 0 by decide)
  have hfa := congrArg Fattrs.cinf (hkeeps hbehind.next.charAt _ hturn rfl)
  -- The other half of the number is 0 or -1, and the counter was neither.
  have hhigh := @starNumber_high (dotFlags (applyFlags {} o.flags) (some .star))
    (args (0 + o.width.slots)) (applyFlags_lmask {} o.flags) (applyFlags_dunsig {} o.flags)
  have hcount : (identNumSize (args (0 + o.width.slots))
      (dotFlags (applyFlags {} o.flags) (some .star)) >>> 32).setWidth 32
      = 0 + BitVec.ofNat 32 n + BitVec.ofNat 32 1 + 1 := hfa
  rw [hhigh] at hcount
  have hnat := congrArg BitVec.toNat hcount
  simp only [BitVec.toNat_add, BitVec.toNat_ofNat] at hnat
  split at hnat
  · simp at hnat
    omega
  · simp at hnat
    omega

/-- The condition is necessary for conversions whose amounts are small. -/
theorem laidOut_of_printsLayout (hsmall : o.Small) (h : PrintsLayout env args o c) :
    c.LaidOut o args := by
  obtain ⟨hprints, hkeeps⟩ := h (BitVec.allOnes 64) (length_layout_le hsmall)
  have hall : (BitVec.allOnes 64).toNat = 2 ^ 64 - 1 := by decide
  have hroom : ([] : List Char).length < (BitVec.allOnes 64).toNat := by rw [hall]; decide
  have hhead : (c.layout o args).head? ≠ some '%' :=
    fun hhead => percent_notMem_layout c o args (List.mem_of_head? hhead)
  have hgiven := not_given (by rw [hall]; decide) hprints hhead
  have hparsed := hsmall.parsed (here_body o c.char) hroom hgiven
  have hstar : o.width = .star → o.flags = [] ∧ 0 ≤ o.widthOf args := by
    intro hw
    refine ⟨hparsed.widthStar hw, ?_⟩
    by_contra hneg
    obtain ⟨s, hs, hnot⟩ := @not_starKeeps_negative env args c o _ (hparsed.widthStar hw) hw
      (by omega)
    exact hnot (hkeeps s hs)
  have hprecision : ∀ a, o.precision = some a → ∃ ds, a = .digits ds ∧ numeral ds < 2 ^ 31 := by
    intro a ha
    cases a with
    | digits ds => exact ⟨ds, rfl, hsmall.precision ds ha⟩
    | star =>
        have hfmask : (dotFlags (applyFlags {} o.flags) o.precision).fmask = false := by
          rw [ha]
          exact fmask_zeros o.flags {} (hparsed.precisionStar ha) rfl rfl rfl rfl
        obtain ⟨s, hs, hnot⟩ := @not_starKeeps_precision env args c o _ hsmall hparsed.flags
          hparsed.width hstar ha hfmask
        exact absurd (hkeeps s hs) hnot
  have hread : o.Read args :=
    ⟨hparsed.flags, fun ds hds => ⟨hparsed.width ds hds, hsmall.width ds hds⟩, hstar, hprecision⟩
  -- The code prints its own text, too, so the two are equal.
  have hcodeLen : (codeText c o args).length ≤ (BitVec.allOnes 64).toNat := by
    have hw := hread.amounts.widthOf.2
    have hp := hread.amounts.precisionOf.2.1
    have hd := length_digits_le c (o.number c args).isLt
    have hsign : (c.codeSign o.flags).1.length + (c.codeSign o.flags).2.length ≤ 3 := by
      unfold NumConv.codeSign NumConv.sign
      cases c
      all_goals
        simp only
        first
          | (split <;> split <;> decide)
          | (split <;> decide)
    rw [length_codeText, hall]
    omega
  have hcode := (@vsnprintf_number env args _ c o hread hcodeLen).1
  rw [hprints] at hcode
  have hfits := fits_of_codeText_eq (Sink.ofList_injective (Except.ok.inj hcode)).symm
  refine ⟨hread, (value_eq_iff o c args).mp hfits.1, hfits.2.1, ?_⟩
  rw [← hfits.1, Int.natAbs_natCast]
  exact hfits.2.2

/-- The fields are laid out as they should be under the condition, whatever the options
are, and, where no `int` overflows, under no other. -/
theorem printsLayout_iff :
    (c.LaidOut o args → PrintsLayout env args o c) ∧
      (o.Small → PrintsLayout env args o c → c.LaidOut o args) :=
  ⟨printsLayout_of_laidOut, laidOut_of_printsLayout⟩

end Layouts

/-- `%#3.4x` and `%*d` are laid out, `%5.*d` is not. -/
theorem printsLayout_iff_three :
    PrintsLayout literalOnly (fun _ => 255)
        { flags := [.hash], width := .digits [3], precision := some (.digits [4]) } .x ∧
      PrintsLayout literalOnly (fun _ => 7) { width := .star } .d ∧
      ¬ PrintsLayout literalOnly (fun _ => 7)
        { width := .digits [5], precision := some .star } .d := by
  refine ⟨printsLayout_iff.1 ⟨⟨⟨rfl, trivial⟩, ?_, ?_, ?_⟩, by decide, ?_, .inr (by decide)⟩,
    printsLayout_iff.1 ⟨⟨trivial, ?_, fun _ => ⟨rfl, by decide⟩, ?_⟩, by decide, trivial, .inl rfl⟩,
    fun h => ?_⟩
  · intro ds hds
    obtain rfl := Amount.digits.inj hds
    decide
  · exact fun hw => nomatch hw
  · intro a ha
    exact ⟨[4], (Option.some.inj ha).symm, by decide⟩
  · exact fun hspace => absurd hspace (by decide)
  · exact fun ds hds => nomatch hds
  · exact fun a ha => nomatch ha
  · have hlaid := printsLayout_iff.2 ⟨by decide, fun ds hds => ?_, (fun ds hds => by cases hds)⟩ h
    · obtain ⟨ds, hds, -⟩ := hlaid.read.precision .star rfl
      cases hds
    · obtain rfl := Amount.digits.inj hds
      decide

/-- `%+5d` of 42 prints six characters: the sign is not taken off the width. -/
theorem not_printsLayout_plus :
    ¬ PrintsLayout literalOnly (fun _ => 42) { flags := [.plus], width := .digits [5] } .d := by
  intro h
  have hspec := (h 16 (by decide)).1
  have hread : ({ flags := [.plus], width := .digits [5] } : Options).Read (fun _ => 42) := by
    refine ⟨⟨rfl, trivial⟩, fun ds hds => ?_, (fun hw => nomatch hw), (fun a ha => nomatch ha)⟩
    obtain rfl := Amount.digits.inj hds
    decide
  have hcode := (@vsnprintf_number literalOnly (fun _ => 42) 16 .d _ hread (by decide)).1
  rw [hspec] at hcode
  exact absurd (Sink.ofList_injective (Except.ok.inj hcode)) (by decide)

end MString
