import TagSoc.BitSlices
import TagSoc.Cpu
import TagSoc.Clocked

/-!
# What holds in every state of the processor

The main machine shares its submodules, so a run is understood through who may
be busy when: the bus only in the states that wait for it, the ALU only after
an execute clock, the CSR block and the two sequencers only in the states that
let them finish. `Coherent` records this together with the facts the datapath
relies on in every state; it survives every clock without an external halt,
resets included.
-/
namespace TagSoc.Cpu
open Alu Decoder CpuBus Csr

/-! ## Which states wait for what -/

namespace MainState

/-- The states entered with a bus request outstanding. The reset state is one
of them, since a reset does not withdraw a request. -/
def usesBus : MainState → Bool
  | .fetch | .fetchMore | .load2 | .store2 | .reset => true
  | _ => false

def usesAlu : MainState → Bool
  | .postExec | .trap => true
  | _ => false

def usesCsr : MainState → Bool
  | .store2 | .updatePc | .csr1 | .trap | .mret => true
  | _ => false

/-- The states that last exactly one clock. -/
def ready (m : MainState) : Bool := !(m.usesBus || m.usesAlu || m.usesCsr)

/-- From the first bus request for an instruction to its decode clock. -/
def fetching : MainState → Bool
  | .fetch | .prepairUnalignedFetch | .fetchMore | .decode => true
  | _ => false

/-- The states no transition leads to. -/
def unused : MainState → Bool
  | .dead | .misalignedAddr | .mretUpdateMstatus | .mretReadEpc => true
  | _ => false

end MainState

/-- The two submodules without a reset input, the register file and the bus. -/
structure Startable (s : State) : Prop where
  zero : s.regs.regfile 0#5 = 0#32
  cyc : s.bus.cyc = s.bus.busy
  stb : s.bus.stb = s.bus.busy
  bus_we : s.bus.we = true → s.bus.busy = true

structure Coherent (s : State) : Prop extends Startable s where
  alu : s.alu.busy = true → s.state.usesAlu = true
  bus : s.bus.busy = true → s.state.usesBus = true
  csr : s.csr.busy = true → s.state.usesCsr = true
  trap : s.handlingTrap = true → s.state = .trap
  mret : s.handlingMret = true → s.state = .mret
  csr_we : s.csr.we = true → s.csr.busy = true
  writeback : s.writebackFromBus = true → s.state = .updatePc
  branch_pc : s.branchPcFromAlu = true → s.state = .updatePc
  next_addr : s.nextAddrFromCsr = true → s.state = .updatePc
  trap_reset : s.trapState = .reset → s.state = .reset
  trap_dead : s.trapState ≠ .dead
  mret_reset : s.mretState = .reset → s.state = .reset
  used : s.state.unused = false
  even : BitSlices.IsEven s.pc

section
variable {v : BitVec 32} {s : State} {i : Inputs}

/-! ## The combinational block -/

@[simp] theorem updateNextPc_even (s : State) : BitSlices.IsEven s.updateNextPc := by
  unfold State.updateNextPc
  split_ifs <;> simp

/-- The misaligned-target trap of the update state is unreachable. -/
theorem controlUpdatePc_eq (s : State) (i : Inputs) :
    s.controlUpdatePc i =
      { nextState := if i.externalSinglestep || s.testFinished then .cpuIdle else .preFetch
        updatePc := true
        nextPc := s.updateNextPc
        muxRegInputSel :=
          if s.dec.writebackFromAlu then .alu
          else if s.dec.writebackFromImm then s.dec.muxRegInputSel
          else .bus
        regWe := (s.writebackFromBus || s.dec.writebackFromImm || s.dec.writebackFromAlu) &&
          s.execDone } := by
  simp [State.controlUpdatePc]

section system

/-- The system state never touches the bus, the ALU, the registers or `pc`. -/
theorem controlSystem_quiet (s : State) :
    s.controlSystem.busEn = false ∧ s.controlSystem.aluEn = false ∧
      s.controlSystem.regWe = false ∧ s.controlSystem.updatePc = false ∧
      s.controlSystem.nextWritebackFromBus = false ∧
      s.controlSystem.nextBranchPcFromAlu = false ∧ s.controlSystem.nextPcFromCsr = false := by
  unfold State.controlSystem
  cases systemKind s.dec <;> simp [State.controlRaise]

/-- Where the system state leads. -/
theorem controlSystem_next (s : State) :
    (s.controlSystem.trapOccured = true → s.controlSystem.nextState = .trap) ∧
      (s.controlSystem.mretOccured = true → s.controlSystem.nextState = .mret) ∧
      (s.controlSystem.csrEn = true → s.controlSystem.nextState.usesCsr = true) ∧
      s.controlSystem.nextState.unused = false := by
  unfold State.controlSystem
  cases systemKind s.dec <;> simp [State.controlRaise, MainState.usesCsr, MainState.unused]

end system

/-- What the decoder guarantees about the word in the parcel registers. -/
theorem dec_legal (s : State) : s.dec.toControl.legal = true := control_legal s.parcels

theorem execNextState_used (s : State) :
    (State.execNextState s.dec.execNextStage).unused = false := by
  have h := dec_legal s
  unfold Control.legal at h
  revert h
  cases s.dec.execNextStage <;> simp [State.execNextState, MainState.unused]

/-- Multi-cycle operations only occur where the next state waits for the ALU. -/
theorem execNextState_usesAlu (s : State) (h : s.dec.aluOper ≠ .add) :
    (State.execNextState s.dec.execNextStage).usesAlu = true := by
  have hl := dec_legal s
  unfold Control.legal at hl
  revert hl
  cases s.dec.execNextStage <;> simp [State.execNextState, MainState.usesAlu, h]

section table

attribute [local simp] State.control MainState.ready MainState.usesBus MainState.usesAlu
  MainState.usesCsr MainState.unused State.controlFetch State.controlDecode State.controlLoad1
  State.controlStore1 State.controlStore2 controlUpdatePc_eq controlSystem_quiet

theorem control_busEn (h : (s.control i).busEn = true) :
    s.state.ready = true ∧ (s.control i).nextState.usesBus = true := by
  revert h
  cases hs : s.state <;> simp [hs]

/-- A CSR request leads to a state that waits for it, and is itself only made
from a waiting state by a store. -/
theorem control_csrEn (hu : s.state.unused = false) (h : (s.control i).csrEn = true) :
    (s.state.ready = true ∨ s.state = .store2) ∧ (s.control i).nextState.usesCsr = true := by
  have hsys := (controlSystem_next s).2.2.1
  revert h hu
  cases hs : s.state <;> simp_all

theorem control_trapOccured (h : (s.control i).trapOccured = true) :
    s.state.ready = true ∧ (s.control i).nextState = .trap := by
  have hsys := (controlSystem_next s).1
  revert h
  cases hs : s.state <;> simp_all

theorem control_mretOccured (h : (s.control i).mretOccured = true) :
    s.state.ready = true ∧ (s.control i).nextState = .mret := by
  have hsys := (controlSystem_next s).2.1
  revert h
  cases hs : s.state <;> simp_all

theorem control_used (hu : s.state.unused = false) : (s.control i).nextState.unused = false := by
  have hsys := (controlSystem_next s).2.2.2
  have hexec := execNextState_used s
  revert hu
  cases hs : s.state <;> simp_all <;> split_ifs <;> simp

theorem control_writeback (h : (s.control i).nextWritebackFromBus = true) :
    (s.control i).nextState = .updatePc := by
  revert h
  cases hs : s.state <;> simp [hs]

/-- The branch flag is clocked without regard to `busy`, so the state that sets
it must be one that never waits. -/
theorem control_branchPc (h : (s.control i).nextBranchPcFromAlu = true) :
    s.state.ready = true ∧ (s.control i).nextState = .updatePc := by
  revert h
  cases hs : s.state <;> simp [hs]

theorem control_nextPcFromCsr (h : (s.control i).nextPcFromCsr = true)
    (hu : s.state.unused = false) : (s.control i).nextState = .updatePc := by
  revert h hu
  cases hs : s.state <;> simp [hs]

theorem control_nextPc (h : (s.control i).updatePc = true) :
    BitSlices.IsEven (s.control i).nextPc := by
  revert h
  cases hs : s.state <;> simp [hs]

/-- Only an execute clock starts an operation other than an addition. -/
theorem aluIn_ne_add (hen : (s.aluIn i).en = true) (hop : (s.aluIn i).aluop ≠ .add) :
    s.state.ready = true ∧ (s.control i).nextState.usesAlu = true := by
  have hexec := execNextState_usesAlu s
  revert hen hop
  cases hs : s.state <;> simp_all [State.aluIn, State.executing]

end table

/-! ## Preservation -/

theorem step_zero (h : s.regs.regfile 0#5 = 0#32) : (s.step v i).regs.regfile 0#5 = 0#32 := by
  simp only [State.step, Registers.State.step]
  split_ifs <;> simp [h]

theorem Startable.step (h : Startable s) : Startable (s.step v i) where
  zero := step_zero h.zero
  cyc := by
    cases ha : (s.busIn i).ack <;> simp [State.step, CpuBus.State.step, h.cyc, ha]
  stb := by
    cases ha : (s.busIn i).ack <;> simp [State.step, CpuBus.State.step, h.stb, ha]
  bus_we := by
    have hw := h.bus_we
    cases ha : i.ack <;> cases he : (s.control i).busEn <;>
      simp_all [State.step, CpuBus.State.step, State.busIn]

/-- Without a halt the main machine waits only in the states that may wait. -/
theorem Coherent.not_busy (h : Coherent s) (hh : i.externalHalt = false)
    (hr : s.state.ready = true) : s.busy i = false := by
  have ha := h.alu
  have hb := h.bus
  have hc := h.csr
  have ht := h.trap
  have hm := h.mret
  revert hr ha hb hc ht hm
  cases hs : s.state <;> simp_all [State.busy, MainState.ready, MainState.usesBus,
    MainState.usesAlu, MainState.usesCsr]

section step

theorem step_pc : (s.step v i).pc = if i.rst then v
    else if (s.control i).updatePc && !s.busy i then (s.control i).nextPc else s.pc := rfl

theorem step_state (hr : i.rst = false) :
    (s.step v i).state = if s.busy i then s.state else (s.control i).nextState := by
  simp [State.step, hr]

theorem step_state_of_busy (hr : i.rst = false) (hb : s.busy i = true) :
    (s.step v i).state = s.state := by
  simp [step_state hr, hb]

theorem step_state_of_not_busy (hr : i.rst = false) (hb : s.busy i = false) :
    (s.step v i).state = (s.control i).nextState := by
  simp [step_state hr, hb]

theorem step_state_of_rst (hr : i.rst = true) : (s.step v i).state = .reset := by
  simp [State.step, hr]

theorem step_used (h : s.state.unused = false) : (s.step v i).state.unused = false := by
  cases hr : i.rst with
  | true => rw [step_state_of_rst hr]; rfl
  | false =>
      rw [step_state hr]
      split_ifs
      · exact h
      · exact control_used h

theorem step_trap_dead (h : s.trapState ≠ .dead) : (s.step v i).trapState ≠ .dead := by
  simp only [State.step]
  split_ifs
  · simp
  · exact h
  · cases hq : s.trapState <;> simp_all [State.nextTrapState] <;> split_ifs <;> simp

/-- A sequencer at work was at work before, or this clock started it. -/
theorem handlingTrap_of_step (ht : (s.step v i).handlingTrap = true) :
    i.rst = false ∧ (s.handlingTrap = true ∨ (s.control i).trapOccured = true) := by
  revert ht
  cases hr : i.rst <;> cases hq : s.trapState <;> cases hc : s.csr.busy <;>
    simp [State.step, State.handlingTrap, State.nextTrapState, hr, hq, hc]

theorem handlingMret_of_step (hm : (s.step v i).handlingMret = true) :
    i.rst = false ∧ (s.handlingMret = true ∨ (s.control i).mretOccured = true) := by
  revert hm
  cases hr : i.rst <;> cases hq : s.mretState <;> cases hc : s.csr.busy <;>
    simp [State.step, State.handlingMret, State.nextMretState, hr, hq, hc]

variable (h : Coherent s) (hh : i.externalHalt = false)
include h hh

theorem Coherent.step_alu (hb : (s.step v i).alu.busy = true) :
    (s.step v i).state.usesAlu = true := by
  obtain ⟨hr, hbusy | ⟨hen, hop⟩⟩ := busy_of_step_busy hb
  · rw [step_state_of_busy hr (by simp [State.busy, hbusy])]
    exact h.alu hbusy
  · obtain ⟨hready, hnext⟩ := aluIn_ne_add hen hop
    rwa [step_state_of_not_busy hr (h.not_busy hh hready)]

theorem Coherent.step_bus (hb : (s.step v i).bus.busy = true) :
    (s.step v i).state.usesBus = true := by
  cases hr : i.rst with
  | true => rw [step_state_of_rst hr]; rfl
  | false =>
      by_cases hen : (s.control i).busEn = true
      · obtain ⟨hready, hnext⟩ := control_busEn hen
        rwa [step_state_of_not_busy hr (h.not_busy hh hready)]
      · have hbusy : s.bus.busy = true := by
          revert hb
          simp [State.step, CpuBus.State.step, State.busIn, hen]
        rw [step_state_of_busy hr (by simp [State.busy, hbusy])]
        exact h.bus hbusy

theorem Coherent.step_csr (hb : (s.step v i).csr.busy = true) :
    (s.step v i).state.usesCsr = true := by
  obtain ⟨hr, -, hen⟩ := en_of_step_busy hb
  by_cases ht : s.handlingTrap = true
  · rw [step_state_of_busy hr (by simp [State.busy, ht]), h.trap ht]
    rfl
  by_cases hm : s.handlingMret = true
  · rw [step_state_of_busy hr (by simp [State.busy, hm]), h.mret hm]
    rfl
  have hen : (s.control i).csrEn = true := by
    simpa [State.csrIn, State.csrRequest, ht, hm] using hen
  obtain ⟨hready | hstore, hnext⟩ := control_csrEn h.used hen
  · rwa [step_state_of_not_busy hr (h.not_busy hh hready)]
  · rw [step_state hr]
    split_ifs
    · rw [hstore]; rfl
    · exact hnext

theorem Coherent.step_trap (ht : (s.step v i).handlingTrap = true) :
    (s.step v i).state = .trap := by
  obtain ⟨hr, hold | hocc⟩ := handlingTrap_of_step ht
  · rw [step_state_of_busy hr (by simp [State.busy, hold])]
    exact h.trap hold
  · obtain ⟨hready, hnext⟩ := control_trapOccured hocc
    rwa [step_state_of_not_busy hr (h.not_busy hh hready)]

theorem Coherent.step_mret (hm : (s.step v i).handlingMret = true) :
    (s.step v i).state = .mret := by
  obtain ⟨hr, hold | hocc⟩ := handlingMret_of_step hm
  · rw [step_state_of_busy hr (by simp [State.busy, hold])]
    exact h.mret hold
  · obtain ⟨hready, hnext⟩ := control_mretOccured hocc
    rwa [step_state_of_not_busy hr (h.not_busy hh hready)]

omit hh in
theorem Coherent.step_writeback (hw : (s.step v i).writebackFromBus = true) :
    (s.step v i).state = .updatePc := by
  cases hr : i.rst with
  | true => simp [State.step, hr] at hw
  | false =>
      cases hb : s.busy i with
      | true =>
          rw [step_state_of_busy hr hb]
          exact h.writeback (by simpa [State.step, hr, hb] using hw)
      | false =>
          rw [step_state_of_not_busy hr hb]
          exact control_writeback (by simpa [State.step, hr, hb] using hw)

theorem Coherent.step_branch_pc (hw : (s.step v i).branchPcFromAlu = true) :
    (s.step v i).state = .updatePc := by
  cases hr : i.rst with
  | true => simp [State.step, hr] at hw
  | false =>
      obtain ⟨hready, hnext⟩ := control_branchPc (s := s) (i := i)
        (by simpa [State.step, hr] using hw)
      rwa [step_state_of_not_busy hr (h.not_busy hh hready)]

omit hh in
theorem Coherent.step_next_addr (hw : (s.step v i).nextAddrFromCsr = true) :
    (s.step v i).state = .updatePc := by
  cases hr : i.rst with
  | true => simp [State.step, hr] at hw
  | false =>
      cases hb : s.busy i with
      | true =>
          rw [step_state_of_busy hr hb]
          exact h.next_addr (by simpa [State.step, hr, hb] using hw)
      | false =>
          rw [step_state_of_not_busy hr hb]
          exact control_nextPcFromCsr (by simpa [State.step, hr, hb] using hw) h.used

omit hh in
/-- In the reset state the CSR block is free, so the sequencers leave their
reset states at the first clock. -/
theorem Coherent.step_resets :
    ((s.step v i).trapState = .reset → (s.step v i).state = .reset) ∧
      ((s.step v i).mretState = .reset → (s.step v i).state = .reset) := by
  cases hr : i.rst with
  | true => simp [State.step, hr]
  | false =>
      cases hc : s.csr.busy with
      | false =>
          constructor
          · cases hq : s.trapState <;>
              simp [State.step, hr, hc, State.nextTrapState, hq] <;> split_ifs <;> simp
          · cases hq : s.mretState <;>
              simp [State.step, hr, hc, State.nextMretState, hq]
            split_ifs <;> simp
      | true =>
          have hu := h.csr hc
          have hne : s.state ≠ .reset := by
            rintro hreset
            simp [hreset, MainState.usesCsr] at hu
          constructor
          · exact fun hq => absurd (h.trap_reset (by simpa [State.step, hr, hc] using hq)) hne
          · exact fun hq => absurd (h.mret_reset (by simpa [State.step, hr, hc] using hq)) hne

/-- One clock preserves coherence, whatever the bus answers. -/
theorem Coherent.step (hv : i.rst = true → BitSlices.IsEven v) : Coherent (s.step v i) where
  toStartable := h.toStartable.step
  alu := h.step_alu hh
  bus := h.step_bus hh
  csr := h.step_csr hh
  trap := h.step_trap hh
  mret := h.step_mret hh
  csr_we := by
    have hw := h.csr_we
    revert hw
    cases hr : i.rst <;> cases hb : s.csr.busy <;> cases he : (s.csrIn i).en <;>
      simp_all [State.step, Csr.State.step, State.csrIn]
  writeback := h.step_writeback
  branch_pc := h.step_branch_pc hh
  next_addr := h.step_next_addr
  trap_reset := h.step_resets.1
  trap_dead := step_trap_dead h.trap_dead
  mret_reset := h.step_resets.2
  used := step_used h.used
  even := by
    rw [step_pc]
    split_ifs with hr hu
    · exact hv hr
    · exact control_nextPc (by simp_all)
    · exact h.even

end step

end

end TagSoc.Cpu
