import MString.Proofs.Mlibc.Numerals

/-!
# `MString.Proofs.Mlibc.Vkprintf`: the buffer of `vkprintf`

`vsprintf` passes 2^31 - 1 down as the size of the destination, and `vkprintf` looks at the
result only when everything is stored. So `tmp_buf` is safe for the texts that fit, and a
text that fills it is displayed without a terminator.

* `VkprintfLaws`: what is expected of `vkprintf`.
* `FitsTmpBuf`: the texts for which it keeps it (`vkprintfLaws_iff`).
-/

set_option autoImplicit false

namespace MString

open Sink

/-- Only `tmp_buf` is written, and it holds a terminator when something is displayed. -/
def VkprintfLaws (env : Strings) (args : Nat → BitVec 64) (isEnabled : Bool) (fmt : List Char) :
    Prop :=
  ∃ r, vkprintf env args isEnabled fmt = .ok r
    ∧ (∀ i, r.dest i ≠ none → i < TMPBUF_SIZE)
    ∧ (r.displayed ≠ .nothing → ∃ i < TMPBUF_SIZE, (r.dest i).getD '\x00' = '\x00')

/-- The text of the format is shorter than the buffer, or it fills it and either has a NUL in
it or is not displayed. -/
def FitsTmpBuf (env : Strings) (args : Nat → BitVec 64) (isEnabled : Bool) (fmt : List Char) :
    Prop :=
  ∃ out, vsprintf env args fmt = .ok (ofList out) ∧
    (out.length < TMPBUF_SIZE
      ∨ out.length = TMPBUF_SIZE ∧ (isEnabled = false ∨ '\x00' ∈ out))

section
variable {env : Strings} {args : Nat → BitVec 64} {isEnabled : Bool} {fmt out : List Char}

theorem vkprintf_eq (h : vsprintf env args fmt = .ok (ofList out)) :
    vkprintf env args isEnabled fmt =
      if out.length > TMPBUF_SIZE then
        .ok ⟨fun i => out[i]?, .text "\nvkprintf error\n".toList⟩
      else if isEnabled then .ok ⟨fun i => out[i]?, .tmpBuf fun i => out[i]?.getD '\x00'⟩
      else .ok ⟨fun i => out[i]?, .nothing⟩ := by
  rw [vkprintf, h]
  rfl

/-- The bytes of `out` are inside the buffer when it is no longer than the buffer. -/
theorem stores_inside_iff :
    (∀ i, out[i]? ≠ none → i < TMPBUF_SIZE) ↔ out.length ≤ TMPBUF_SIZE := by
  constructor
  · intro h
    by_contra hlong
    have hlast := h TMPBUF_SIZE (by rw [List.getElem?_eq_getElem (by omega)]; simp)
    exact Nat.lt_irrefl _ hlast
  · intro h i hi
    have hlt : i < out.length := by
      by_contra hge
      exact hi (List.getElem?_eq_none (by omega))
    omega

/-- The rest of the buffer was cleared. -/
theorem terminated_iff (hlen : out.length ≤ TMPBUF_SIZE) :
    (∃ i < TMPBUF_SIZE, out[i]?.getD '\x00' = '\x00')
      ↔ out.length < TMPBUF_SIZE ∨ '\x00' ∈ out := by
  constructor
  · rintro ⟨i, hi, hnul⟩
    by_cases hlt : i < out.length
    · right
      rw [List.getElem?_eq_getElem hlt, Option.getD_some] at hnul
      exact hnul ▸ List.getElem_mem hlt
    · left
      omega
  · rintro (hshort | hmem)
    · exact ⟨out.length, hshort, by simp⟩
    · obtain ⟨i, hi, hget⟩ := List.mem_iff_getElem.mp hmem
      exact ⟨i, by omega, by rw [List.getElem?_eq_getElem hi, Option.getD_some, hget]⟩

/-- `vkprintf` keeps its laws exactly for the texts that fit `tmp_buf`. As `vsprintf` has no
bound of its own, the condition is one on the text that the format and its arguments print. -/
theorem vkprintfLaws_iff (env : Strings) (args : Nat → BitVec 64) (isEnabled : Bool)
    (fmt : List Char) :
    VkprintfLaws env args isEnabled fmt ↔ FitsTmpBuf env args isEnabled fmt := by
  obtain ⟨out, hout, -⟩ := vsnprintf_total env args (((~~~0#32) >>> 1).setWidth 64) fmt
  have hfits : FitsTmpBuf env args isEnabled fmt ↔ out.length < TMPBUF_SIZE
      ∨ out.length = TMPBUF_SIZE ∧ (isEnabled = false ∨ '\x00' ∈ out) := by
    constructor
    · rintro ⟨out', hout', h⟩
      rw [show vsprintf env args fmt = .ok (ofList out) from hout, Except.ok.injEq] at hout'
      rwa [ofList_injective hout']
    · exact fun h => ⟨out, hout, h⟩
  -- `vkprintf` always returns, so its laws are about that one result
  have hrun : ∀ r, vkprintf env args isEnabled fmt = .ok r → (VkprintfLaws env args isEnabled fmt
      ↔ (∀ i, r.dest i ≠ none → i < TMPBUF_SIZE)
        ∧ (r.displayed ≠ .nothing → ∃ i < TMPBUF_SIZE, (r.dest i).getD '\x00' = '\x00')) := by
    intro r hr
    constructor
    · rintro ⟨r', hr', h⟩
      rw [hr, Except.ok.injEq] at hr'
      exact hr' ▸ h
    · exact fun h => ⟨r, hr, h⟩
  have heq := @vkprintf_eq env args isEnabled fmt out hout
  rw [hfits]
  -- a text longer than the buffer is stored behind it, whether or not the console is on
  by_cases hlong : out.length > TMPBUF_SIZE
  · rw [if_pos hlong] at heq
    rw [hrun _ heq]
    refine iff_of_false (fun h => ?_) (by omega)
    exact absurd (stores_inside_iff.mp h.1) (by omega)
  · rw [if_neg hlong] at heq
    cases isEnabled with
    | true =>
        rw [if_pos rfl] at heq
        rw [hrun _ heq]
        have hterm := terminated_iff (Nat.le_of_not_lt hlong)
        constructor
        · intro h
          have hnul := hterm.mp (h.2 (by simp))
          rcases hnul with hshort | hmem
          · exact .inl hshort
          · rcases Nat.lt_or_eq_of_le (Nat.le_of_not_lt hlong) with hshort | hfull
            · exact .inl hshort
            · exact .inr ⟨hfull, .inr hmem⟩
        · intro h
          refine ⟨stores_inside_iff.mpr (Nat.le_of_not_lt hlong), fun _ => hterm.mpr ?_⟩
          rcases h with hshort | ⟨-, hen | hmem⟩
          · exact .inl hshort
          · cases hen
          · exact .inr hmem
    | false =>
        rw [if_neg (by simp)] at heq
        rw [hrun _ heq]
        refine iff_of_true
          ⟨stores_inside_iff.mpr (Nat.le_of_not_lt hlong), fun h => absurd rfl h⟩ ?_
        rcases Nat.lt_or_eq_of_le (Nat.le_of_not_lt hlong) with hshort | hfull
        · exact .inl hshort
        · exact .inr ⟨hfull, .inl rfl⟩

/-- A line of 1025 characters. -/
theorem not_vkprintfLaws_line :
    ¬ VkprintfLaws literalOnly (fun _ => 0) true (List.replicate 1025 'x') := by
  rintro ⟨r, hr, hinside, -⟩
  have hx : ∀ c ∈ List.replicate 1025 'x', c = 'x' := fun c hc => List.eq_of_mem_replicate hc
  have hout : vsprintf literalOnly (fun _ => 0) (List.replicate 1025 'x')
      = .ok (ofList (List.replicate 1025 'x')) := by
    refine vsnprintf_literals _ _ (fun h => ?_) (fun h => ?_)
      (by rw [List.length_replicate]; decide)
    · exact absurd (hx _ h) (by decide)
    · exact absurd (hx _ h) (by decide)
  have hlong : (List.replicate 1025 'x').length > TMPBUF_SIZE := by
    rw [List.length_replicate]
    decide
  rw [vkprintf_eq hout, if_pos hlong, Except.ok.injEq] at hr
  subst hr
  exact absurd (stores_inside_iff.mp hinside) (by omega)

end

end MString
