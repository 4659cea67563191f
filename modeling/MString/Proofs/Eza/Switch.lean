import MString.Proofs.Eza.Context

/-!
# `MString.Proofs.Eza.Switch`: a task sleeps and wakes up

`Parked` says what `arch_hw_activate_task` leaves of a task that has called it in the
state `c`: the stack below the call, and the stack pointer in the `arch_context_t`.

* `archHwActivateTask_parks`: the call parks the caller, writes nothing outside of its
  stack and its context, and goes on where the other task's stack pointer says.
* `archActivateTask_wakes`: activating a parked task goes on after its call, with the
  registers, the FX state and the stack pointer it had there.
-/

set_option autoImplicit false

namespace MString

open Amd64 ByteMemory

/-- The stack pointer of a task that sleeps, for a call at the stack pointer `s`: the
return address, `rax`, the saved state and the label are below `s`. -/
def sleepBottom (s : Word) : Word := saveBottom (s - 16) - 8

/-- How many bytes stand between. -/
def sleepSize (s : Word) : Nat := savedSize (s - 16) + 24

theorem toNat_sub_sleepBottom (s : Word) : (s - sleepBottom s).toNat = sleepSize s := by
  have hlt := savedSize_lt (s - 16)
  have hsum : s - sleepBottom s = (s - 16 - saveBottom (s - 16)) + 24 := by
    rw [sleepBottom]
    ring
  have h24 : (24 : Word).toNat = 24 := rfl
  rw [hsum, BitVec.toNat_add, toNat_sub_saveBottom, sleepSize, h24]
  omega

/-- What stands on the stack of a task that has called `arch_hw_activate_task` in the
state `c`, with the return address `next`. -/
structure Asleep (env : ContextEnv) (m : Memory) (c : Cpu) (next : Word) : Prop where
  label : load m (sleepBottom (c.reg .rsp)) = env.returnFromSleep
  saved : SavedAll m (c.set .rsp (c.reg .rsp - 16))
  rax : load m (c.reg .rsp - 16) = c.reg .rax
  next : load m (c.reg .rsp - 8) = next

theorem Asleep.of_agree {env : ContextEnv} {m m' : Memory} {c : Cpu} {next : Word}
    (h : Asleep env m c next)
    (hm : Agree (sleepBottom (c.reg .rsp)) (sleepSize (c.reg .rsp)) m m') :
    Asleep env m' c next := by
  have hlt := savedSize_lt (c.reg .rsp - 16)
  have hsize := toNat_sub_sleepBottom (c.reg .rsp)
  rw [sleepSize] at hm hsize
  have h8 : (8 : Word).toNat = 8 := rfl
  have h16 : (16 : Word).toNat = 16 := rfl
  -- What was saved lies in a row above the bottom, and each part is inside the bytes that
  -- agree.
  have hbelow : ∀ k : Word, k.toNat ≤ 24 →
      (c.reg .rsp - k - sleepBottom (c.reg .rsp)).toNat
        = savedSize (c.reg .rsp - 16) + 24 - k.toNat := by
    intro k hk
    rw [sub_right_comm, BitVec.toNat_sub, hsize]
    omega
  refine ⟨?_, ?_, ?_, ?_⟩
  · rw [load_congr (hm.take (by omega))]
    exact h.label
  · refine h.saved.of_agree (hm.sub ?_)
    have hdist : saveBottom (c.reg .rsp - 16) - sleepBottom (c.reg .rsp) = 8 := by
      rw [sleepBottom]
      ring
    have hsp : (c.set .rsp (c.reg .rsp - 16)).reg .rsp = c.reg .rsp - 16 := by simp
    rw [hsp, hdist, h8]
    omega
  · rw [load_congr (hm.sub (by rw [hbelow 16 (by decide), h16]; omega))]
    exact h.rax
  · rw [load_congr (hm.sub (by rw [hbelow 8 (by decide), h8]; omega))]
    exact h.next

/-- The return address and `rax` go on the stack first. -/
theorem push_call (target next : Word) (c : Cpu) :
    ∃ m, (call target next c).push (c.reg .rax)
        = { c.set .rsp (c.reg .rsp - 16) with rip := target, mem := m }
      ∧ load m (c.reg .rsp - 16) = c.reg .rax
      ∧ load m (c.reg .rsp - 8) = next
      ∧ Agree (c.reg .rsp) (2 ^ 64 - 16) c.mem m := by
  have heq := c.pushAll_eq [next, c.reg .rax]
  have hlen : 8 * [next, c.reg .rax].length ≤ 2 ^ 64 := by
    rw [List.length_cons, List.length_singleton]
    decide
  have hholds := c.holds_pushAll [next, c.reg .rax] hlen
  have hagree := c.agree_pushAll [next, c.reg .rax] hlen
  have hsp : (c.pushAll [next, c.reg .rax]).reg .rsp = c.reg .rsp - 16 := by
    rw [heq]
    simp
  rw [hsp] at hholds
  refine ⟨(c.pushAll [next, c.reg .rax]).mem, ?_, hholds.1, ?_, hagree⟩
  · show { c.pushAll [next, c.reg .rax] with rip := target } = _
    rw [heq]
    rfl
  · rw [show c.reg .rsp - 8 = c.reg .rsp - 16 + 8 by ring]
    exact hholds.2.1

/-- The saving half puts the task to sleep. -/
theorem exec_sleepPath (env : ContextEnv) (target next : Word) (c : Cpu) :
    ∃ reg rflags m, exec (sleepPath env) (call target next c)
        = some { c with reg, rflags, rip := target, mem := m }
      ∧ reg .rsp = sleepBottom (c.reg .rsp)
      ∧ (∀ r, r ≠ .rsp → r ≠ .r8 → r ≠ .r9 → reg r = c.reg r)
      ∧ Asleep env m c next
      ∧ Agree (c.reg .rsp) (2 ^ 64 - sleepSize (c.reg .rsp)) c.mem m := by
  obtain ⟨m₁, heq₁, hrax, hnext, hagree₁⟩ := push_call target next c
  let c₁ : Cpu := { c.set .rsp (c.reg .rsp - 16) with rip := target, mem := m₁ }
  have hsp₁ : c₁.reg .rsp = c.reg .rsp - 16 := by simp [c₁]
  have hexec₁ : exec [.pushq .rax] (call target next c) = some c₁ := congrArg some heq₁
  obtain ⟨reg₂, rflags, m₂, hexec₂, hsp₂, hregs₂, hsaved, hagree₂⟩ := exec_saveAll c₁
  rw [hsp₁] at hsp₂ hagree₂
  have hlt := savedSize_lt (c.reg .rsp - 16)
  have hdist := toNat_sub_saveBottom (c.reg .rsp - 16)
  have h8 : (8 : Word).toNat = 8 := rfl
  have h16 : (16 : Word).toNat = 16 := rfl
  -- the address to come back to is pushed below all that `SAVE_ALL` saved
  let m₃ := store m₂ (reg₂ .rsp - 8) env.returnFromSleep
  have hpush : Agree (saveBottom (c.reg .rsp - 16)) (2 ^ 64 - 8) m₂ m₃ :=
    hsp₂ ▸ agree_store_below m₂ (reg₂ .rsp) env.returnFromSleep
  have hbelow : Agree (c.reg .rsp - 16) (2 ^ 64 - (savedSize (c.reg .rsp - 16) + 8)) m₁ m₃ :=
    (hagree₂.take (by omega)).trans (hpush.sub (by rw [hdist]; omega))
  refine ⟨Function.update reg₂ .rsp (reg₂ .rsp - 8), rflags, m₃, ?_, ?_, ?_, ⟨?_, ?_, ?_, ?_⟩, ?_⟩
  · show exec ([.pushq .rax] ++ (saveAll ++ [.pushqImm env.returnFromSleep])) _ = _
    rw [exec_append_some hexec₁, exec_append_some hexec₂]
    rfl
  · rw [Function.update_self, hsp₂, sleepBottom]
  · intro r hr hr8 hr9
    rw [Function.update_of_ne hr, hregs₂ r hr hr8 hr9]
    simp [c₁, hr]
  · rw [sleepBottom, ← hsp₂]
    exact load_store _
  · have hsp : (c.set .rsp (c.reg .rsp - 16)).reg .rsp = c.reg .rsp - 16 := hsp₁
    refine SavedAll.of_agree ⟨hsaved.delta, hsaved.fx, hsaved.gprs⟩ ?_
    rw [hsp]
    exact hpush.take (by omega)
  · rw [load_congr (hbelow.take (by omega)), hrax]
  · rw [show c.reg .rsp - 8 = c.reg .rsp - 16 + 8 by ring] at hnext ⊢
    rw [load_congr (hbelow.up 8 (by rw [h8]; omega)), hnext]
  · rw [sleepSize]
    refine (hagree₁.take (by omega)).trans (hbelow.sub ?_)
    rw [sub_sub_cancel, h16]
    omega

/-- Loading the directory costs `rax` and the flags, whether it is loaded already or
not. -/
theorem switchCr3_eq (c : Cpu) :
    ∃ rflags, switchCr3 c
      = some { c.set .rax (c.reg .rdi) with cr3 := c.reg .rdi, rflags } := by
  let f := subFlags c.rflags c.cr3 (c.reg .rdi)
  have hzf : f.getLsbD ZF = (c.cr3 - c.reg .rdi == 0) := getLsbD_status_ZF _ _ _ _ _
  have hcmp : exec [.movFromCr3 .rax, .cmpq .rdi .rax] c
      = some { c.set .rax c.cr3 with rflags := f } := by
    simp [exec, step, f]
    rfl
  refine ⟨f, ?_⟩
  rw [switchCr3, hcmp]
  show (if f.getLsbD ZF then _ else _) = _
  rw [hzf]
  by_cases heq : c.cr3 = c.reg .rdi
  · rw [if_pos (by rw [heq, sub_self]; rfl), ← heq]
    rfl
  · have hne : ¬ (c.cr3 - c.reg .rdi == 0) = true := by
      rw [beq_iff_eq, sub_eq_zero]
      exact heq
    rw [if_neg hne]
    simp [exec, step, Cpu.set]

/-- Going to sleep. The slot at `rdx` is no part of the stack below the call. -/
theorem archHwActivateTask_parks (env : ContextEnv) (target next : Word) (c : Cpu)
    (hslot : ∀ x : Addr, (x - c.reg .rdx).toNat < 8 →
      ¬ (x - sleepBottom (c.reg .rsp)).toNat < sleepSize (c.reg .rsp)) :
    ∃ c', archHwActivateTask env (call target next c) = some c'
      ∧ c'.reg .rsp = c.reg .rsi + 8
      ∧ c'.rip = load c'.mem (c.reg .rsi)
      ∧ Asleep env c'.mem c next
      ∧ load c'.mem (c.reg .rdx) = sleepBottom (c.reg .rsp)
      ∧ ∀ x : Addr, ¬ (x - sleepBottom (c.reg .rsp)).toNat < sleepSize (c.reg .rsp) →
          ¬ (x - c.reg .rdx).toNat < 8 → c'.mem x = c.mem x := by
  obtain ⟨reg₁, rflags₁, m₁, hexec₁, hsp₁, hregs₁, hasleep, hagree⟩ :=
    exec_sleepPath env target next c
  let c₁ : Cpu := { c with reg := reg₁, rflags := rflags₁, rip := target, mem := m₁ }
  obtain ⟨rflags₂, hexec₂⟩ := switchCr3_eq c₁
  have hrdx : reg₁ .rdx = c.reg .rdx := hregs₁ .rdx (by decide) (by decide) (by decide)
  have hrsi : reg₁ .rsi = c.reg .rsi := hregs₁ .rsi (by decide) (by decide) (by decide)
  -- the slot of the old stack pointer is outside of what was saved
  let m₂ := store m₁ (c.reg .rdx) (sleepBottom (c.reg .rsp))
  have hstore : ∀ x : Addr, ¬ (x - c.reg .rdx).toNat < 8 → m₂ x = m₁ x :=
    fun x hx => dif_neg hx
  let c₃ : Cpu := { (c₁.set .rax (c₁.reg .rdi)).set .rsp (c.reg .rsi) with
    cr3 := c₁.reg .rdi, rflags := rflags₂, mem := m₂ }
  refine ⟨ret c₃, ?_, ?_, ?_, ?_, ?_, ?_⟩
  · rw [archHwActivateTask, hexec₁]
    show (switchCr3 c₁ >>= _) = _
    rw [hexec₂]
    have hrdx' : (c₁.set .rax (c₁.reg .rdi)).reg .rdx = c.reg .rdx := by simp [c₁, hrdx]
    have hrsi' : (c₁.set .rax (c₁.reg .rdi)).reg .rsi = c.reg .rsi := by simp [c₁, hrsi]
    have hsp' : (c₁.set .rax (c₁.reg .rdi)).reg .rsp = sleepBottom (c.reg .rsp) := by
      simp [c₁, hsp₁]
    let c₂ : Cpu := { c₁.set .rax (c₁.reg .rdi) with cr3 := c₁.reg .rdi, rflags := rflags₂ }
    have hexec₃ : exec [.store .rsp .rdx, .movq .rsi .rsp] c₂ = some c₃ := by
      simp only [exec, step, Option.bind_some, c₂, hrdx', hrsi', hsp']
      rfl
    show (exec [.store .rsp .rdx, .movq .rsi .rsp] c₂ >>= fun c => some (ret c)) = _
    rw [hexec₃]
    rfl
  · simp [ret, c₃]
  · rfl
  · refine hasleep.of_agree fun x hx => hstore x fun hx' => hslot x hx' hx
  · exact load_store _
  · intro x hx hx'
    exact (hstore x hx').trans (hagree.outside (toNat_sub_sleepBottom _) hx)

/-- Waking up, from the address above the label. -/
theorem returnFromSleep_wakes {env : ContextEnv} {c c₀ : Cpu} {next : Word}
    (hsp : c.reg .rsp = saveBottom (c₀.reg .rsp - 16)) (h : Asleep env c.mem c₀ next) :
    ∃ c', returnFromSleep c = some c' ∧ c'.reg = c₀.reg ∧ c'.fx = c₀.fx ∧ c'.rip = next := by
  -- What was saved is the state of the sleeper with two words pushed, `rax` and the address it
  -- goes on at.
  let saved : Cpu := c₀.set .rsp (c₀.reg .rsp - 16)
  have hsaved : saved.reg .rsp = c₀.reg .rsp - 16 := by simp [saved]
  obtain ⟨reg, rflags, hexec, hregs, -⟩ := exec_restoreAll (hsaved ▸ hsp) h.saved
  let c₁ : Cpu := { c with reg, rflags, fx := saved.fx }
  have hsp₁ : c₁.reg .rsp = c₀.reg .rsp - 16 := (hregs .rsp (by decide)).trans hsaved
  have htop : c₁.top = c₀.reg .rax := by
    rw [Cpu.top, hsp₁]
    exact h.rax
  -- `rax` is popped last, and interrupts are allowed again.
  let c₂ : Cpu := { (c₁.set .rsp (c₁.reg .rsp + 8)).set .rax c₁.top with
    rflags := setFlag c₁.rflags IF true }
  have hsp₂ : c₂.reg .rsp = c₀.reg .rsp - 8 := by
    show c₁.reg .rsp + 8 = _
    rw [hsp₁]
    ring
  refine ⟨ret c₂, ?_, ?_, rfl, ?_⟩
  · rw [returnFromSleep, hexec]
    rfl
  · -- So every register is what it was, and the stack pointer is back where it started.
    funext r
    by_cases hr : r = .rsp
    · rw [hr]
      simp [ret, hsp₂]
    · by_cases hrax : r = .rax
      · rw [hrax]
        simp [ret, c₂, htop]
      · simp [ret, c₂, hr, hrax, c₁, hregs r hrax, saved]
  · show c₂.top = next
    rw [Cpu.top, hsp₂]
    exact h.next

/-- No half of a switch that loads a context writes to memory. -/
theorem resume_mem {env : ContextEnv} {c c' : Cpu} (h : resume env c = some c') :
    c'.mem = c.mem := by
  rw [resume] at h
  split at h
  · obtain ⟨c₁, hrestore, h⟩ := Option.bind_eq_some_iff.mp h
    obtain ⟨c₂, hpop, h⟩ := Option.bind_eq_some_iff.mp h
    cases h
    exact (exec_mem (by decide) hpop).trans (exec_mem (by decide) hrestore)
  · split at h
    · obtain ⟨c₁, hrestore, h⟩ := Option.bind_eq_some_iff.mp h
      have hmem : c₁.mem = c.mem := @exec_mem restoreAll (by decide) _ _ hrestore
      rw [iretq] at h
      split at h
      · cases h
        exact hmem
      · cases h
    · cases h

section Activate

variable {env : ContextEnv} {own other : Addr} {next : Word} {c : Cpu}

/-- The slot of the caller's context is no part of the stack below the call. -/
def SlotApart (own : Addr) (c : Cpu) : Prop :=
  ∀ x : Addr, (x - (own + CONTEXT_RSP)).toNat < 8 →
    ¬ (x - sleepBottom (c.reg .rsp)).toNat < sleepSize (c.reg .rsp)

/-- The saving half of a switch, with the arguments of `arch_activate_task`. -/
theorem archHwActivateTask_args (hslot : SlotApart own c) :
    ∃ c₁, archHwActivateTask env (call env.archHwActivateTask next (activateArgs own other c))
        = some c₁
      ∧ c₁.reg .rsp = load c.mem (other + CONTEXT_RSP) + 8
      ∧ c₁.rip = load c₁.mem (load c.mem (other + CONTEXT_RSP))
      ∧ Asleep env c₁.mem (activateArgs own other c) next
      ∧ load c₁.mem (own + CONTEXT_RSP) = sleepBottom (c.reg .rsp)
      ∧ ∀ x : Addr, ¬ (x - sleepBottom (c.reg .rsp)).toNat < sleepSize (c.reg .rsp) →
          ¬ (x - (own + CONTEXT_RSP)).toNat < 8 → c₁.mem x = c.mem x := by
  have hrsp : (activateArgs own other c).reg .rsp = c.reg .rsp := by simp [activateArgs]
  have hrdx : (activateArgs own other c).reg .rdx = own + CONTEXT_RSP := by simp [activateArgs]
  have hrsi : (activateArgs own other c).reg .rsi = load c.mem (other + CONTEXT_RSP) := by
    simp [activateArgs]
  have hparks := archHwActivateTask_parks env env.archHwActivateTask next
    (activateArgs own other c)
  rw [hrsp, hrdx, hrsi] at hparks
  exact hparks hslot

/-- A switch parks the caller, whoever it goes to. -/
theorem archActivateTask_parks (hslot : SlotApart own c) {c' : Cpu}
    (h : archActivateTask env own other next c = some c') :
    Asleep env c'.mem (activateArgs own other c) next
      ∧ load c'.mem (own + CONTEXT_RSP) = sleepBottom (c.reg .rsp)
      ∧ ∀ x : Addr, ¬ (x - sleepBottom (c.reg .rsp)).toNat < sleepSize (c.reg .rsp) →
          ¬ (x - (own + CONTEXT_RSP)).toNat < 8 → c'.mem x = c.mem x := by
  obtain ⟨c₁, hhw, -, -, hparks⟩ := @archHwActivateTask_args env own other next c hslot
  rw [archActivateTask, hhw] at h
  rw [resume_mem h]
  exact hparks

/-- Activating a parked task goes on after its call. The caller's stack and slot are no
part of the other's. -/
theorem archActivateTask_wakes (hslot : SlotApart own c) {c₀ : Cpu} {next₀ : Word}
    (hrsp : load c.mem (other + CONTEXT_RSP) = sleepBottom (c₀.reg .rsp))
    (hasleep : Asleep env c.mem c₀ next₀)
    (hapart : ∀ x : Addr, (x - sleepBottom (c₀.reg .rsp)).toNat < sleepSize (c₀.reg .rsp) →
      ¬ (x - sleepBottom (c.reg .rsp)).toNat < sleepSize (c.reg .rsp)
        ∧ ¬ (x - (own + CONTEXT_RSP)).toNat < 8) :
    ∃ c', archActivateTask env own other next c = some c'
      ∧ c'.reg = c₀.reg ∧ c'.fx = c₀.fx ∧ c'.rip = next₀ := by
  obtain ⟨c₁, hhw, hsp₁, hrip₁, -, -, hout⟩ := @archHwActivateTask_args env own other next c hslot
  have hasleep₁ : Asleep env c₁.mem c₀ next₀ :=
    hasleep.of_agree fun x hx => hout x (hapart x hx).1 (hapart x hx).2
  rw [hrsp] at hsp₁ hrip₁
  have hrip : c₁.rip = env.returnFromSleep := hrip₁.trans hasleep₁.label
  have hsp : c₁.reg .rsp = saveBottom (c₀.reg .rsp - 16) := by
    rw [hsp₁, sleepBottom, sub_add_cancel]
  obtain ⟨c', hwake, hreg, hfx, hnext⟩ := returnFromSleep_wakes hsp hasleep₁
  refine ⟨c', ?_, hreg, hfx, hnext⟩
  rw [archActivateTask, hhw]
  show resume env c₁ = _
  rw [resume, if_pos hrip, hwake]

end Activate

end MString
