import TagSoc.Bench

/-!
# The state machines under arbitrary inputs

A halt stops the main machine but neither of the two CSR sequencers: they can
start, finish and start again while the main machine stands in the state that
starts them. `Safe` is the invariant of the three that survives this. A sequencer
is at work only in the states that start it or wait for it, and the instruction
word that selects between the two does not change there. Nothing is assumed of
the inputs.
-/
namespace TagSoc.Cpu
open Clocked

/-- The cases of the system state that enter a trap. -/
def SystemKind.raises : SystemKind → Bool
  | .ecall | .ebreak | .invalid => true
  | .wfi | .mret | .csr => false

/-- The states in which the trap sequencer may be at work. -/
def State.awaitsTrap (s : State) : Bool :=
  s.state == .trap || s.state == .decode || s.state == .system && (systemKind s.dec).raises

/-- The states in which the return sequencer may be at work. -/
def State.awaitsMret (s : State) : Bool :=
  s.state == .mret || s.state == .system && systemKind s.dec == .mret

structure Safe (s : State) : Prop where
  zero : s.regs.regfile 0#5 = 0#32
  used : s.state.unused = false
  trap_dead : s.trapState ≠ .dead
  trap : s.handlingTrap = true → s.awaitsTrap = true
  mret : s.handlingMret = true → s.awaitsMret = true

variable {v : BitVec 32} {s : State} {i : Inputs}

/-! ## One clock -/

/-- The instruction word changes in the fetch states only. -/
theorem step_dec (h : s.state ≠ .fetch) (h' : s.state ≠ .fetchMore) :
    (s.step v i).dec = s.dec := by
  simp [State.dec, State.parcels, State.step, h, h']

theorem control_trapOccured_iff : (s.control i).trapOccured = true ↔
    s.state = .decode ∧ s.takesInterrupt i = true ∨
      s.state = .system ∧ (systemKind s.dec).raises = true := by
  cases hs : s.state <;> simp [State.control, hs, controlUpdatePc_eq, State.controlFetch,
    State.controlDecode, State.controlLoad1, State.controlStore1, State.controlStore2,
    State.controlSystem]
  cases systemKind s.dec <;> simp [State.controlRaise, SystemKind.raises]

theorem control_mretOccured_iff : (s.control i).mretOccured = true ↔
    s.state = .system ∧ systemKind s.dec = .mret := by
  cases hs : s.state <;> simp [State.control, hs, controlUpdatePc_eq, State.controlFetch,
    State.controlDecode, State.controlLoad1, State.controlStore1, State.controlStore2,
    State.controlSystem]
  cases systemKind s.dec <;> simp [State.controlRaise]

/-- A sequencer stays where it may be if the main machine stays. -/
theorem awaitsTrap_kept (h : s.awaitsTrap = true) (hs : (s.step v i).state = s.state) :
    (s.step v i).awaitsTrap = true := by
  have hdec : (s.step v i).dec = s.dec := by
    apply step_dec <;> rintro hfetch <;> simp [State.awaitsTrap, hfetch] at h
  simpa only [State.awaitsTrap, hs, hdec] using h

theorem awaitsMret_kept (h : s.awaitsMret = true) (hs : (s.step v i).state = s.state) :
    (s.step v i).awaitsMret = true := by
  have hdec : (s.step v i).dec = s.dec := by
    apply step_dec <;> rintro hfetch <;> simp [State.awaitsMret, hfetch] at h
  simpa only [State.awaitsMret, hs, hdec] using h

theorem Safe.step_trap (h : Safe s) (ht : (s.step v i).handlingTrap = true) :
    (s.step v i).awaitsTrap = true := by
  obtain ⟨hr, hold | hocc⟩ := handlingTrap_of_step ht
  · exact awaitsTrap_kept (h.trap hold) (step_state_of_busy hr (by simp [State.busy, hold]))
  · cases hb : s.busy i with
    | true =>
        refine awaitsTrap_kept ?_ (step_state_of_busy hr hb)
        rcases control_trapOccured_iff.mp hocc with ⟨hs, -⟩ | ⟨hs, hk⟩
        · simp [State.awaitsTrap, hs]
        · simp [State.awaitsTrap, hs, hk]
    | false =>
        have hnext := step_state_of_not_busy (v := v) hr hb
        simp [State.awaitsTrap, hnext, (control_trapOccured hocc).2]

theorem Safe.step_mret (h : Safe s) (hm : (s.step v i).handlingMret = true) :
    (s.step v i).awaitsMret = true := by
  obtain ⟨hr, hold | hocc⟩ := handlingMret_of_step hm
  · exact awaitsMret_kept (h.mret hold) (step_state_of_busy hr (by simp [State.busy, hold]))
  · cases hb : s.busy i with
    | true =>
        refine awaitsMret_kept ?_ (step_state_of_busy hr hb)
        obtain ⟨hs, hk⟩ := control_mretOccured_iff.mp hocc
        simp [State.awaitsMret, hs, hk]
    | false =>
        have hnext := step_state_of_not_busy (v := v) hr hb
        simp [State.awaitsMret, hnext, (control_mretOccured hocc).2]

theorem Safe.step (h : Safe s) : Safe (s.step v i) where
  zero := step_zero h.zero
  used := step_used h.used
  trap_dead := step_trap_dead h.trap_dead
  trap := h.step_trap
  mret := h.step_mret

/-- The first clock after a reset. -/
theorem safe_of_reset (h : s.regs.regfile 0#5 = 0#32) (hr : i.rst = true) :
    Safe (s.step v i) where
  zero := step_zero h
  used := by rw [step_state_of_rst hr]; rfl
  trap_dead := by simp [State.step, hr]
  trap ht := by simp [State.step, State.handlingTrap, hr] at ht
  mret hm := by simp [State.step, State.handlingMret, hr] at hm

/-! ## Every state -/

/-- The states that start or await one sequencer do not do so for the other. -/
theorem Safe.exclusive (h : Safe s) : ¬ (s.handlingTrap = true ∧ s.handlingMret = true) := by
  rintro ⟨ht, hm⟩
  have htrap := h.trap ht
  have hmret := h.mret hm
  revert htrap hmret
  cases hs : s.state <;> simp [State.awaitsTrap, State.awaitsMret, hs]
  cases systemKind s.dec <;> simp [SystemKind.raises]

theorem Safe.frozen (hr : i.rst = false) (h : s.handlingTrap = true ∨ s.handlingMret = true) :
    (s.step v i).state = s.state := by
  apply step_state_of_busy hr
  rcases h with h | h <;> simp [State.busy, h]

/-- In every state from the first reset on, whatever the inputs are: the main
machine is in none of the states 12, 16, 17 and 19, the trap sequencer is not
dead, the two sequencers are not both at work, the main machine stands while one
of them is, and `x0` is zero. -/
theorem control_machines_safe {r : Run (State.step v)}
    (hzero : (r.state 0).regs.regfile 0#5 = 0#32) (hr : (r.input 0).rst = true) {t : ℕ}
    (ht : 0 < t) :
    ((r.state t).state ≠ .dead ∧ (r.state t).state ≠ .mretUpdateMstatus ∧
      (r.state t).state ≠ .mretReadEpc ∧ (r.state t).state ≠ .misalignedAddr) ∧
    (r.state t).trapState ≠ .dead ∧
    ¬ ((r.state t).handlingTrap = true ∧ (r.state t).handlingMret = true) ∧
    ((r.state t).handlingTrap = true ∨ (r.state t).handlingMret = true →
      (r.input t).rst = false → (r.state (t + 1)).state = (r.state t).state) ∧
    (r.state t).regs.regfile 0#5 = 0#32 := by
  have hfirst : Safe (r.state 1) := by
    rw [r.next]
    exact safe_of_reset hzero hr
  have h := r.invariant hfirst (fun _ _ h => h.step) t ht
  refine ⟨?_, h.trap_dead, h.exclusive, fun hwork hr => ?_, h.zero⟩
  · have hused := h.used
    refine ⟨?_, ?_, ?_, ?_⟩ <;> rintro hs <;> simp [hs, MainState.unused] at hused
  · rw [r.next]
    exact Safe.frozen hr hwork

/-- A memory that answers at once with an `ecall`; the machine is halted from
clock 8 on. -/
def haltedEcall : Run (State.step 0x1000#32) :=
  Run.closed _ (fun t s => ⟨t == 0, s.bus.cyc, 0x73#32, true, true, false, decide (8 ≤ t),
    false, false⟩) (restState (fun _ => 0#32) 0#32)

/-- The trap sequencer at work while the main machine is halted in the system
state. -/
theorem control_machines_safe_halted :
    (haltedEcall.state 9).state = .system ∧ (haltedEcall.state 9).handlingTrap = true ∧
      (haltedEcall.state 10).state = (haltedEcall.state 9).state := by
  have hsafe := control_machines_safe (r := haltedEcall) rfl rfl (t := 9) (by decide)
  have hwork : (haltedEcall.state 9).handlingTrap = true := by decide +kernel
  exact ⟨by decide +kernel, hwork, hsafe.2.2.2.1 (Or.inl hwork) rfl⟩

end TagSoc.Cpu
