import MString.Proofs.Mm.Histories
import MString.Proofs.Mm.Runaway

/-!
# `MString.Proofs.Mm.Outside`: what a call leaves alone

`mm_map_pages` keeps the translation of every address outside its range, on success
and on failure, unless the range runs over the end of the address space
(`RunsOver`). `keepsOutside_iff` is the equivalence; its other half is the walk of
`Proofs/Mm/Runaway.lean`.

The tables translate the bits 12 to 47 of an address. `Outside` tells addresses
apart by these bits, so it also speaks of addresses that no processor takes.
-/

set_option autoImplicit false

namespace MString

/-- The address `a` is in no page of the range. -/
def Outside (virt n a : Uintptr) : Prop :=
  ∀ i, i < n.toNat → pageOf a ≠ pageOf (virt + BitVec.ofNat 64 (4096 * i))

/-- Whatever `mm_map_pages` returns, it has kept the translation of the addresses
outside of the range. -/
def KeepsOutside (virt n : Uintptr) : Prop :=
  ∀ (σ : Type) (pacc : PageFrameAccessor σ) (free : σ → PageIdx → Prop) (root : Uintptr)
    (flags : PageFlags) (s s' : Machine σ) (r : Status),
    Supplies pacc free (fun _ _ => True) → Ready free root s →
    mmMapPages kernelWindow (some ⟨root⟩) (some pacc) virt n flags s = .ok (r, s') →
    ∀ a, Outside virt n a →
      mmPinVirtualAddress kernelWindow s'.mem ⟨root⟩ a
        = mmPinVirtualAddress kernelWindow s.mem ⟨root⟩ a

/-- The range lies in the last 512 GB and reaches into the last gigabyte. -/
def RunsOver (virt n : Uintptr) : Prop :=
  n ≠ 0 ∧ 2 ^ 64 - 2 ^ 39 ≤ virt.toNat ∧ 2 ^ 64 - 2 ^ 30 < virt.toNat + 4096 * n.toNat ∧
    virt.toNat + 4096 * n.toNat < 2 ^ 64

/-- A range of all `2 ^ 36` pages has nothing outside. -/
theorem not_outside_of_large {virt n a : Uintptr} (hn : 2 ^ 36 ≤ n.toNat) :
    ¬ Outside virt n a := by
  intro hout
  have hlt := virt.isLt
  refine hout ((pageOf a + 2 ^ 36 - pageOf virt) % 2 ^ 36) (by omega) ?_
  have hv : pageOf virt < 2 ^ 36 := Nat.mod_lt _ (by omega)
  have ha : pageOf a < 2 ^ 36 := Nat.mod_lt _ (by omega)
  rw [show pageOf (virt + BitVec.ofNat 64 (4096 * ((pageOf a + 2 ^ 36 - pageOf virt) % 2 ^ 36)))
      = (virt.toNat + 4096 * ((pageOf a + 2 ^ 36 - pageOf virt) % 2 ^ 36)) % 2 ^ 64 / 2 ^ 12
        % 2 ^ 36 by
    rw [pageOf, BitVec.toNat_add, BitVec.toNat_ofNat]
    omega]
  have hvirt : pageOf virt = virt.toNat / 2 ^ 12 % 2 ^ 36 := rfl
  omega

/-- A range that does not run over is one the walkers take page by page. -/
theorem not_overruns_of {root virt n : Uintptr} (hrefused : ¬ Refused ⟨root⟩ virt n)
    (hn : n.toNat < 2 ^ 52) (hover : ¬ RunsOver virt n) :
    ¬ Overruns virt (virt + n * PAGE_SIZE) := by
  have hn0 : n ≠ 0 := fun h => hrefused (.inr (.inl h))
  have hpos : n.toNat ≠ 0 := fun h => hn0 (BitVec.eq_of_toNat_eq h)
  have hend := toNat_end hrefused (by omega)
  have hlt := (virt + n * PAGE_SIZE).isLt
  intro ho
  unfold Overruns at ho
  exact hover ⟨hn0, ho.1, by omega, by omega⟩

/-- The frame property of the calls that do not run over. -/
theorem keepsOutside {virt n : Uintptr} (hvirt : virt.toNat % 4096 = 0)
    (hover : ¬ RunsOver virt n) : KeepsOutside virt n := by
  intro σ pacc free root flags s s' r hsup h hrun a hout
  by_cases hrefused : Refused ⟨root⟩ virt n
  · simp only [mmMapPages, if_pos hrefused, Except.ok.injEq, Prod.mk.injEq] at hrun
    rw [hrun.2]
  · have hn : n.toNat < 2 ^ 36 := by
      by_contra hn
      exact not_outside_of_large (by omega) hout
    obtain ⟨gs, hgs⟩ := mmMapPages_spec hsup answers_kernelWindow h hvirt hrefused
      (not_overruns_of hrefused (by omega) hover) hrun
    rw [mmPinVirtualAddress_eq answers_kernelWindow hgs.ready.wf,
      mmPinVirtualAddress_eq answers_kernelWindow h.wf]
    congr 1
    apply hgs.frame
    intro v hv
    -- The pages that were visited are pages of the range.
    obtain ⟨i, hi, rfl⟩ := mem_pagesFrom (List.mem_of_mem_take hv)
    refine hout i ?_
    have hvis := visited_eq hvirt hrefused (by omega) (fun h0 => hrefused (.inr (.inl h0)))
    rw [hvis] at hi
    split at hi <;> omega

/-! ### The calls that run over -/

section RunsOver

variable {virt n : Uintptr} {flags : PageFlags}

theorem RunsOver.not_refused (h : RunsOver virt n) : ¬ Refused ⟨DIRECTORY_ROOT⟩ virt n := by
  obtain ⟨hn0, htop, -, hfit⟩ := h
  refine intact_fullTop.wf.tableAddr_root.not_refused (fun hvirt => ?_) hn0 hfit
  rw [hvirt] at htop
  exact absurd htop (by decide)

theorem RunsOver.overruns (h : RunsOver virt n) : Overruns virt (virt + n * PAGE_SIZE) := by
  have hrefused := h.not_refused
  obtain ⟨hn0, htop, hreach, hfit⟩ := h
  have hend := toNat_end hrefused (by omega)
  have hpos : n.toNat ≠ 0 := fun h0 => hn0 (BitVec.eq_of_toNat_eq h0)
  exact ⟨htop, by omega⟩

/-- The frame property fails for the calls that run over: in `fullTop` they map address
zero. -/
theorem not_keepsOutside (hvirt : virt.toNat % 4096 = 0) (h : RunsOver virt n) :
    ¬ KeepsOutside virt n := by
  intro hkeep
  obtain ⟨s', hrun, hcall⟩ := @mmMapPages_fullTop 0 _ _ hvirt h.not_refused h.overruns
  have hwf := intact_fullTop.wf
  have hdrawn := drawnFor_of_run hwf (nodup_fullTopPages hvirt h.2.1) hrun
  have hout : Outside virt n 0 := by
    intro i hi heq
    obtain ⟨-, htop, -, hfit⟩ := h
    rw [pageOf, pageOf, toNat_page (by omega), show (0 : Uintptr).toNat = 0 from rfl] at heq
    omega
  have hzero : (0 : Uintptr) ∈ fullTopPages virt :=
    List.mem_append_right _ (mem_pagesFrom_of_lt 0 (i := 0) (by omega))
  have hsame := hkeep Nat dryAccessor (fun _ _ => False) DIRECTORY_ROOT 0 _ _ _
    supplies_dryAccessor.forget (ready_dry hwf) hcall 0 hout
  rw [mmPinVirtualAddress_eq answers_kernelWindow hdrawn.wf,
    mmPinVirtualAddress_eq answers_kernelWindow hwf, hdrawn.mapped 0 hzero,
    translate_fullTop_zero] at hsame
  exact absurd hsame (by decide)

end RunsOver

/-- `mm_map_pages` keeps what lies outside its range exactly when the range does not
run over the end of the address space. -/
theorem keepsOutside_iff (virt n : Uintptr) (hvirt : virt.toNat % 4096 = 0) :
    KeepsOutside virt n ↔ ¬ RunsOver virt n :=
  ⟨fun hkeep hover => not_keepsOutside hvirt hover hkeep, keepsOutside hvirt⟩

/-- One page at `0x1000`. -/
theorem keepsOutside_one : KeepsOutside 0x1000 1 ↔ ¬ RunsOver 0x1000 1 :=
  keepsOutside_iff 0x1000 1 (by decide)

/-- Two pages around the start of the last gigabyte. -/
theorem not_keepsOutside_top : ¬ KeepsOutside 0xffffffffbffff000 2 :=
  not_keepsOutside (by decide) ⟨by decide, by decide, by decide, by decide⟩

end MString
