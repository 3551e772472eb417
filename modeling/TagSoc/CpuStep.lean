import TagSoc.CpuInvariant
import TagSoc.AluRuns

/-!
# The processor, one clock at a time

For every main state one equation that gives the whole next state of a coherent
processor in an undisturbed clock: no reset, no halt, and no acknowledge
without a request. Later proofs rewrite with these equations and never unfold
the combinational block again.
-/
namespace TagSoc.Cpu
open Alu Decoder CpuBus Csr

structure Undisturbed (s : State) (i : Inputs) : Prop where
  rst : i.rst = false
  halt : i.externalHalt = false
  ack : i.ack = true → s.bus.cyc = true

section
variable {v : BitVec 32} {s : State} {i : Inputs}

/-! ## What coherence says in a given state -/

theorem Coherent.flags (h : Coherent s) (hs : s.state ≠ .updatePc) :
    s.writebackFromBus = false ∧ s.branchPcFromAlu = false ∧ s.nextAddrFromCsr = false := by
  refine ⟨?_, ?_, ?_⟩
  · exact Bool.eq_false_iff.mpr fun hw => hs (h.writeback hw)
  · exact Bool.eq_false_iff.mpr fun hw => hs (h.branch_pc hw)
  · exact Bool.eq_false_iff.mpr fun hw => hs (h.next_addr hw)

theorem Coherent.trap_idle (h : Coherent s) (hs : s.state ≠ .trap) (hr : s.state ≠ .reset) :
    s.trapState = .idle := by
  have h₁ := h.trap
  have h₂ := h.trap_reset
  cases hq : s.trapState <;> simp_all [State.handlingTrap]

theorem Coherent.mret_idle (h : Coherent s) (hs : s.state ≠ .mret) (hr : s.state ≠ .reset) :
    s.mretState = .idle := by
  have h₁ := h.mret
  have h₂ := h.mret_reset
  cases hq : s.mretState <;> simp_all [State.handlingMret]

theorem Coherent.bus_free (h : Coherent s) (hs : s.state.usesBus = false) :
    s.bus.busy = false :=
  Bool.eq_false_iff.mpr fun hb => by simp [h.bus hb] at hs

theorem Coherent.alu_free (h : Coherent s) (hs : s.state.usesAlu = false) :
    s.alu.busy = false :=
  Bool.eq_false_iff.mpr fun hb => by simp [h.alu hb] at hs

theorem Coherent.csr_free (h : Coherent s) (hs : s.state.usesCsr = false) :
    s.csr.busy = false :=
  Bool.eq_false_iff.mpr fun hb => by simp [h.csr hb] at hs

theorem Coherent.csr_we_free (h : Coherent s) (hs : s.state.usesCsr = false) :
    s.csr.we = false :=
  Bool.eq_false_iff.mpr fun hw => by simpa [h.csr_free hs] using h.csr_we hw

theorem Undisturbed.no_ack (u : Undisturbed s i) (h : Coherent s)
    (hs : s.state.usesBus = false) : i.ack = false := by
  refine Bool.eq_false_iff.mpr fun ha => ?_
  have hc := u.ack ha
  rw [h.cyc, h.bus_free hs] at hc
  exact Bool.false_ne_true hc

namespace MainState

/-- The states in which no sequencer runs and no write-back flag is set. -/
def plain : MainState → Bool
  | .updatePc | .trap | .mret | .reset => false
  | _ => true

end MainState

theorem Coherent.plain (h : Coherent s) (hs : s.state.plain = true) :
    s.writebackFromBus = false ∧ s.branchPcFromAlu = false ∧ s.nextAddrFromCsr = false ∧
      s.trapState = .idle ∧ s.mretState = .idle := by
  have hne : s.state ≠ .updatePc ∧ s.state ≠ .trap ∧ s.state ≠ .mret ∧ s.state ≠ .reset := by
    revert hs
    cases s.state <;> simp [MainState.plain]
  obtain ⟨hu, ht, hm, hr⟩ := hne
  obtain ⟨h₁, h₂, h₃⟩ := h.flags hu
  exact ⟨h₁, h₂, h₃, h.trap_idle ht hr, h.mret_idle hm hr⟩

theorem Coherent.ready (h : Coherent s) (u : Undisturbed s i) (hs : s.state.ready = true) :
    s.busy i = false ∧ i.ack = false ∧ s.alu.busy = false ∧ s.bus.busy = false ∧
      s.csr.busy = false := by
  have hfree : s.state.usesBus = false ∧ s.state.usesAlu = false ∧ s.state.usesCsr = false := by
    revert hs
    cases s.state <;> simp [MainState.ready, MainState.usesBus, MainState.usesAlu, MainState.usesCsr]
  exact ⟨h.not_busy u.halt hs, u.no_ack h hfree.1, h.alu_free hfree.2.1, h.bus_free hfree.1,
    h.csr_free hfree.2.2⟩

/-- The machine never writes a link register after the execute clock. -/
theorem writeReg_imp (s : State) : s.dec.nextPcFromAlu = false → s.dec.writeReg = false := by
  have hl := dec_legal s
  unfold Control.legal at hl
  revert hl
  cases s.dec.execNextStage <;> cases s.dec.nextPcFromAlu <;> simp +contextual

/-! ## Names for what the states compute -/

namespace State

def fetchLow (s : State) : BitVec 16 :=
  if s.pc.getLsbD 1 then s.bus.buffer.extractLsb' 16 16 else s.bus.buffer.extractLsb' 0 16

def fetchHigh (s : State) : BitVec 16 :=
  if s.pc.getLsbD 1 then 0#16 else s.bus.buffer.extractLsb' 16 16

/-- The instruction length the ALU adds while a fetch is under way. -/
def fetchLen (s : State) : BitVec 32 :=
  if s.pc.getLsbD 1 then 2#32 else if s.bus.buffer.extractLsb' 0 2 = 3#2 then 4#32 else 2#32

def aluAdd (s : State) (a b : BitVec 32) : Alu.State :=
  s.alu.step { en := true, reset := false, dataS1 := a, dataS2 := b, aluop := .add }

/-- The ALU inputs in the execute states. -/
def execAlu (s : State) (en : Bool) : Alu.Inputs where
  en := en
  reset := false
  dataS1 := s.aluDataS1 s.dec.muxAluS1Sel
  dataS2 := s.aluDataS2 s.dec.muxAluS2Sel
  aluop := s.dec.aluOper

/-- The word that the update state writes back. -/
def writebackData (s : State) : BitVec 32 :=
  s.regDatain (if s.dec.writebackFromAlu then .alu
    else if s.dec.writebackFromImm then s.dec.muxRegInputSel else .bus)

def writebackEn (s : State) : Bool :=
  (s.writebackFromBus || s.dec.writebackFromImm || s.dec.writebackFromAlu) && s.execDone

def writeRd (s : State) (data : BitVec 32) : Registers.State :=
  { s.regs with regfile := Registers.RegFile.write s.regs.regfile s.dec.rd data }

def readRegs (s : State) : Registers.State :=
  { s.regs with regval1 := s.regs.regfile s.dec.rs1, regval2 := s.regs.regfile s.dec.rs2 }

def writeMcause (cause : BitVec 32) : Csr.Request :=
  { en := true, we := true, addr := msrMcause, data := cause }

/-- The CSR access of a store to one of the compare registers. -/
def clearMip (s : State) : Csr.Request :=
  { en := true, we := true, addr := msrMip
    data := s.csr.dataOut.extractLsb' 8 24 ++ 0#1 ++ s.csr.dataOut.extractLsb' 0 7 }

end State

theorem aluAdd_result (h : s.alu.busy = false) (a b : BitVec 32) :
    (s.aluAdd a b).result = a + b := (Alu.step_add s.alu h a b).2

variable (h : Coherent s) (u : Undisturbed s i)
include h u

attribute [local simp] State.step State.control State.aluIn State.busIn State.regsIn State.csrIn
  State.csrRequest State.handlingTrap State.handlingMret State.nextTrapState State.nextMretState
  State.executing State.busy State.aluDataS1 State.aluDataS2 State.busAddr State.regDatain
  Csr.State.rest Csr.State.clock State.aluAdd Alu.step_idle

/-! ## Fetching -/

/-- The first clocks after a reset; a request may still be outstanding. -/
theorem step_reset (hs : s.state = .reset) :
    s.step v i =
      { s with
        state := if s.bus.busy then .reset else .preFetch
        trapState := .idle
        mretState := .idle
        bus := s.bus.wait i.ack i.dat
        csr := s.csr.rest } := by
  have hf := h.flags (by simp [hs])
  have ha := h.alu_free (by rw [hs]; rfl)
  have hc := h.csr_free (by rw [hs]; rfl)
  have ht : s.trapState = .reset ∨ s.trapState = .idle := by
    have := h.trap
    cases hq : s.trapState <;> simp_all [State.handlingTrap]
  have hm : s.mretState = .reset ∨ s.mretState = .idle := by
    have := h.mret
    cases hq : s.mretState <;> simp_all [State.handlingMret]
  ext1 <;> rcases ht with ht | ht <;> rcases hm with hm | hm <;>
    simp [hs, u.rst, u.halt, hf, ha, hc, ht, hm]

theorem step_preFetch (hs : s.state = .preFetch) :
    s.step v i =
      { s with
        state := .fetch
        bus := s.bus.request .readw s.pc s.regs.regval2
        checkTags := s.csr.tagsIfEn
        execDone := false
        csr := s.csr.rest } := by
  have hr := h.ready u (by rw [hs]; rfl)
  have hp := h.plain (by rw [hs]; rfl)
  ext1 <;> simp [hs, u.rst, u.halt, hr, hp]

theorem step_fetch (hs : s.state = .fetch) :
    s.step v i =
      { s with
        state := if s.bus.busy then .fetch
          else if s.pc.getLsbD 1 ∧ s.bus.buffer.extractLsb' 16 2 = 3#2 then .prepairUnalignedFetch
          else .decode
        parcelLow := s.fetchLow
        parcelHigh := s.fetchHigh
        alu := s.aluAdd s.pc s.fetchLen
        bus := s.bus.wait i.ack i.dat
        csr := s.csr.rest } := by
  have hp := h.plain (by rw [hs]; rfl)
  have ha := h.alu_free (by rw [hs]; rfl)
  have hc := h.csr_free (by rw [hs]; rfl)
  ext1
  case alu =>
    simp only [State.step, State.aluIn, State.control, hs, State.controlFetch, State.aluAdd,
      State.fetchLen, State.executing, u.rst]
    split_ifs <;> simp_all
  all_goals simp [hs, u.rst, u.halt, hp, ha, hc, State.controlFetch, State.fetchLow, State.fetchHigh]

theorem step_prepairUnalignedFetch (hs : s.state = .prepairUnalignedFetch) :
    s.step v i =
      { s with
        state := .fetchMore
        bus := s.bus.request .readw s.alu.result s.regs.regval2
        csr := s.csr.rest } := by
  have hr := h.ready u (by rw [hs]; rfl)
  have hp := h.plain (by rw [hs]; rfl)
  ext1 <;> simp [hs, u.rst, u.halt, hr, hp]

theorem step_fetchMore (hs : s.state = .fetchMore) :
    s.step v i =
      { s with
        state := if s.bus.busy then .fetchMore else .decode
        parcelHigh := s.bus.buffer.extractLsb' 0 16
        alu := s.aluAdd s.pc 4#32
        bus := s.bus.wait i.ack i.dat
        csr := s.csr.rest } := by
  have hp := h.plain (by rw [hs]; rfl)
  have ha := h.alu_free (by rw [hs]; rfl)
  have hc := h.csr_free (by rw [hs]; rfl)
  ext1 <;> simp [hs, u.rst, u.halt, hp, ha, hc]

/-! ## Decoding -/

theorem step_decode (hs : s.state = .decode) (hi : s.takesInterrupt i = false) :
    s.step v i =
      { s with
        state := .exec
        pcnext := s.alu.result
        regs := s.readRegs
        csr := s.csr.rest } := by
  have hr := h.ready u (by rw [hs]; rfl)
  have hp := h.plain (by rw [hs]; rfl)
  ext1 <;> simp [hs, u.rst, u.halt, hr, hp, hi, State.controlDecode, State.readRegs]

theorem step_decode_interrupt (hs : s.state = .decode) (hi : s.takesInterrupt i = true) :
    s.step v i =
      { s with
        state := .trap
        trapState := .loadStatus
        pcnext := s.alu.result
        regs := s.readRegs
        csr := s.csr.clock (State.writeMcause (s.interruptCause i)) } := by
  have hr := h.ready u (by rw [hs]; rfl)
  have hp := h.plain (by rw [hs]; rfl)
  ext1 <;> simp [hs, u.rst, u.halt, hr, hp, hi, State.controlDecode, State.readRegs, State.writeMcause]

/-! ## Executing -/

theorem step_exec (hs : s.state = .exec) :
    s.step v i =
      { s with
        state := State.execNextState s.dec.execNextStage
        execDone := true
        alu := s.alu.step (s.execAlu true)
        regs := if s.dec.nextPcFromAlu && s.dec.writeReg then s.writeRd s.alu.result else s.regs
        csr := s.csr.rest } := by
  have hr := h.ready u (by rw [hs]; rfl)
  have hp := h.plain (by rw [hs]; rfl)
  ext1
  case regs => cases hn : s.dec.nextPcFromAlu <;> simp [hs, hn, State.writeRd]
  all_goals simp [hs, u.rst, u.halt, hr, hp, State.execAlu]

theorem step_postExec (hs : s.state = .postExec) :
    s.step v i =
      { s with
        state := if s.alu.busy then .postExec else .updatePc
        alu := s.alu.step (s.execAlu false)
        csr := s.csr.rest } := by
  have hp := h.plain (by rw [hs]; rfl)
  have hb := h.bus_free (by rw [hs]; rfl)
  have hc := h.csr_free (by rw [hs]; rfl)
  have ha := u.no_ack h (by rw [hs]; rfl)
  have hw := writeReg_imp s
  ext1
  case regs => cases hn : s.dec.nextPcFromAlu <;> simp [hs, hn, hw]
  all_goals simp [hs, u.rst, u.halt, hp, hb, hc, ha, State.execAlu]

theorem step_branch2 (hs : s.state = .branch2) :
    s.step v i =
      { s with
        state := .updatePc
        alu := s.aluAdd s.pc s.dec.imm
        branchPcFromAlu := s.branch
        csr := s.csr.rest } := by
  have hr := h.ready u (by rw [hs]; rfl)
  have hp := h.plain (by rw [hs]; rfl)
  ext1 <;> simp [hs, u.rst, u.halt, hr, hp]

/-! ## Memory accesses -/

theorem step_load1 (hs : s.state = .load1) :
    s.step v i =
      { s with
        state := .load2
        bus := s.bus.request (State.loadBusOp s.dec.funct3) s.alu.result s.regs.regval2
        checkTags := s.controlLoad1.nextCheckTags
        csr := s.csr.rest } := by
  have hr := h.ready u (by rw [hs]; rfl)
  have hp := h.plain (by rw [hs]; rfl)
  ext1 <;> simp [hs, u.rst, u.halt, hr, hp, State.controlLoad1]

theorem step_load2 (hs : s.state = .load2) :
    s.step v i =
      { s with
        state := if s.bus.busy then .load2 else .updatePc
        writebackFromBus := !s.bus.busy
        bus := s.bus.wait i.ack i.dat
        csr := s.csr.rest } := by
  have hp := h.plain (by rw [hs]; rfl)
  have ha := h.alu_free (by rw [hs]; rfl)
  have hc := h.csr_free (by rw [hs]; rfl)
  ext1 <;> simp [hs, u.rst, u.halt, hp, ha, hc]

theorem step_store1 (hs : s.state = .store1) :
    s.step v i =
      { s with
        state := .store2
        bus := s.bus.request (State.storeBusOp s.dec.funct3) s.alu.result s.regs.regval2
        checkTags := s.controlStore1.nextCheckTags
        csr := s.csr.clock { en := true, addr := msrMip } } := by
  have hr := h.ready u (by rw [hs]; rfl)
  have hp := h.plain (by rw [hs]; rfl)
  ext1 <;> simp [hs, u.rst, u.halt, hr, hp, State.controlStore1]

theorem step_store2 (hs : s.state = .store2) :
    s.step v i =
      { s with
        state := if s.bus.busy || s.csr.busy then .store2 else .updatePc
        bus := s.bus.wait i.ack i.dat
        csr := s.csr.clock (if i.clearMipTimer then s.clearMip else {}) } := by
  have hp := h.plain (by rw [hs]; rfl)
  have ha := h.alu_free (by rw [hs]; rfl)
  ext1
  case csr => cases hc : i.clearMipTimer <;> simp [hs, u.rst, hp, hc, State.controlStore2, State.clearMip]
  all_goals simp [hs, u.rst, u.halt, hp, ha, State.controlStore2]

/-! ## System instructions -/

theorem step_system_raise (hs : s.state = .system) (cause : BitVec 32) (fin : Bool)
    (hk : s.controlSystem = State.controlRaise cause fin) :
    s.step v i =
      { s with
        state := .trap
        trapState := .loadStatus
        testFinished := s.testFinished || fin
        csr := s.csr.clock (State.writeMcause cause) } := by
  have hr := h.ready u (by rw [hs]; rfl)
  have hp := h.plain (by rw [hs]; rfl)
  ext1
  case testFinished => cases ht : s.testFinished <;> simp [hs, u.rst, hk, State.controlRaise, ht]
  all_goals simp [hs, u.rst, u.halt, hr, hp, hk, State.controlRaise, State.writeMcause]

theorem step_system_wfi (hs : s.state = .system) (hk : systemKind s.dec = .wfi) :
    s.step v i = { s with state := .updatePc, csr := s.csr.rest } := by
  have hr := h.ready u (by rw [hs]; rfl)
  have hp := h.plain (by rw [hs]; rfl)
  ext1 <;> simp [hs, u.rst, u.halt, hr, hp, State.controlSystem, hk]

theorem step_system_mret (hs : s.state = .system) (hk : systemKind s.dec = .mret) :
    s.step v i =
      { s with
        state := .mret
        mretState := .storeStatus
        csr := s.csr.clock { en := true, addr := msrMstatus } } := by
  have hr := h.ready u (by rw [hs]; rfl)
  have hp := h.plain (by rw [hs]; rfl)
  ext1 <;> simp [hs, u.rst, u.halt, hr, hp, State.controlSystem, hk]

theorem step_system_csr (hs : s.state = .system) (hk : systemKind s.dec = .csr) :
    s.step v i =
      { s with
        state := .csr1
        csr := s.csr.clock { en := true, addr := s.dec.imm.extractLsb' 0 12 } } := by
  have hr := h.ready u (by rw [hs]; rfl)
  have hp := h.plain (by rw [hs]; rfl)
  ext1 <;> simp [hs, u.rst, u.halt, hr, hp, State.controlSystem, hk]

/-- The destination is written in both clocks of this state; the first of them
may write a stale word. -/
theorem step_csr1 (hs : s.state = .csr1) :
    s.step v i =
      { s with
        state := if s.csr.busy then .csr1 else .csr2
        regs := s.writeRd s.csr.dataOut
        csr := s.csr.rest } := by
  have hp := h.plain (by rw [hs]; rfl)
  have ha := h.alu_free (by rw [hs]; rfl)
  have hb := h.bus_free (by rw [hs]; rfl)
  have hk := u.no_ack h (by rw [hs]; rfl)
  ext1 <;> simp [hs, u.rst, u.halt, hp, ha, hb, hk, State.writeRd]

theorem step_csr2 (hs : s.state = .csr2) :
    s.step v i =
      { s with
        state := .updatePc
        csr := s.csr.clock
          { en := true, we := true, addr := s.dec.imm.extractLsb' 0 12, data := s.csrWriteData } } := by
  have hr := h.ready u (by rw [hs]; rfl)
  have hp := h.plain (by rw [hs]; rfl)
  ext1 <;> simp [hs, u.rst, u.halt, hr, hp]

/-! ## The sequencers -/

theorem step_trap_handling (hs : s.state = .trap) (ht : s.handlingTrap = true)
    (ha : s.alu.busy = false) :
    s.step v i =
      { s with
        trapState := if s.csr.busy then s.trapState else s.nextTrapState i false
        csr := s.csr.clock s.trapCsr } := by
  have hf := h.flags (by simp [hs])
  have hm := h.mret_idle (by simp [hs]) (by simp [hs])
  have hk := u.no_ack h (by rw [hs]; rfl)
  have hbusy : s.busy i = true := by simp [-State.handlingTrap, ht]
  ext1 <;> simp [-State.busy, -State.handlingTrap, -State.nextTrapState, hs, u.rst, hf, hm, hk,
    hbusy, ht, ha]

/-- The sequencer is done, its last access is not. -/
theorem step_trap_wait (hs : s.state = .trap) (ht : s.trapState = .idle)
    (ha : s.alu.busy = false) (hc : s.csr.busy = true) :
    s.step v i = { s with csr := s.csr.rest } := by
  have hf := h.flags (by simp [hs])
  have hm := h.mret_idle (by simp [hs]) (by simp [hs])
  have hb := h.bus_free (by rw [hs]; rfl)
  have hk := u.no_ack h (by rw [hs]; rfl)
  ext1 <;> simp [hs, u.rst, u.halt, hf, hm, hb, hk, ht, ha, hc]

theorem step_trap_done (hs : s.state = .trap) (ht : s.trapState = .idle)
    (ha : s.alu.busy = false) (hc : s.csr.busy = false) :
    s.step v i =
      { s with state := .updatePc, nextAddrFromCsr := true, csr := s.csr.rest } := by
  have hf := h.flags (by simp [hs])
  have hm := h.mret_idle (by simp [hs]) (by simp [hs])
  have hb := h.bus_free (by rw [hs]; rfl)
  have hk := u.no_ack h (by rw [hs]; rfl)
  ext1 <;> simp [hs, u.rst, u.halt, hf, hm, hb, hk, ht, ha, hc]

/-- The ALU is still at a shift, a multiplication or a division that it was
given in the execute clock; from here its operation is an addition. -/
theorem step_trap_stuck (hs : s.state = .trap) (ht : s.trapState = .idle)
    (ha : s.alu.busy = true) :
    s.step v i =
      { s with
        alu := s.alu.step
          { en := false, reset := false, dataS1 := s.regs.regval1, dataS2 := s.regs.regval2
            aluop := .add }
        csr := s.csr.rest } := by
  have hf := h.flags (by simp [hs])
  have hm := h.mret_idle (by simp [hs]) (by simp [hs])
  have hk := u.no_ack h (by rw [hs]; rfl)
  ext1 <;> simp [hs, u.rst, u.halt, hf, hm, hk, ht, ha]

theorem step_mret_handling (hs : s.state = .mret) (hm : s.handlingMret = true) :
    s.step v i =
      { s with
        mretState := if s.csr.busy then s.mretState else s.nextMretState false
        csr := s.csr.clock s.mretCsr } := by
  have hf := h.flags (by simp [hs])
  have ht := h.trap_idle (by simp [hs]) (by simp [hs])
  have ha := h.alu_free (by rw [hs]; rfl)
  have hk := u.no_ack h (by rw [hs]; rfl)
  have hbusy : s.busy i = true := by simp [-State.handlingMret, hm]
  ext1 <;> simp [-State.busy, -State.handlingMret, -State.nextMretState, hs, u.rst, hf, ht, hk,
    hbusy, hm, ha]

theorem step_mret_wait (hs : s.state = .mret) (hm : s.mretState = .idle)
    (hc : s.csr.busy = true) : s.step v i = { s with csr := s.csr.rest } := by
  have hf := h.flags (by simp [hs])
  have ht := h.trap_idle (by simp [hs]) (by simp [hs])
  have ha := h.alu_free (by rw [hs]; rfl)
  have hb := h.bus_free (by rw [hs]; rfl)
  have hk := u.no_ack h (by rw [hs]; rfl)
  ext1 <;> simp [hs, u.rst, u.halt, hf, ht, hb, hk, hm, ha, hc]

theorem step_mret_done (hs : s.state = .mret) (hm : s.mretState = .idle)
    (hc : s.csr.busy = false) :
    s.step v i =
      { s with state := .updatePc, nextAddrFromCsr := true, csr := s.csr.rest } := by
  have hf := h.flags (by simp [hs])
  have ht := h.trap_idle (by simp [hs]) (by simp [hs])
  have ha := h.alu_free (by rw [hs]; rfl)
  have hb := h.bus_free (by rw [hs]; rfl)
  have hk := u.no_ack h (by rw [hs]; rfl)
  ext1 <;> simp [hs, u.rst, u.halt, hf, ht, hb, hk, hm, ha, hc]

/-! ## Updating the program counter -/

theorem step_updatePc (hs : s.state = .updatePc) (hc : s.csr.busy = false) :
    s.step v i =
      { s with
        state := if i.externalSinglestep || s.testFinished then .cpuIdle else .preFetch
        pc := s.updateNextPc
        regs := if s.writebackEn then s.writeRd s.writebackData else s.regs
        writebackFromBus := false
        branchPcFromAlu := false
        nextAddrFromCsr := false
        csr := s.csr.rest } := by
  have ht := h.trap_idle (by simp [hs]) (by simp [hs])
  have hm := h.mret_idle (by simp [hs]) (by simp [hs])
  have ha := h.alu_free (by rw [hs]; rfl)
  have hb := h.bus_free (by rw [hs]; rfl)
  have hk := u.no_ack h (by rw [hs]; rfl)
  ext1
  case regs =>
    simp [-State.regDatain, hs, controlUpdatePc_eq, State.writebackEn, State.writebackData, State.writeRd]
  all_goals simp [hs, u.rst, u.halt, ht, hm, hb, hk, ha, hc, controlUpdatePc_eq]

/-- While the CSR block finishes a write the update state is repeated; the
write-back is then made more than once, with the same word. -/
theorem step_updatePc_busy (hs : s.state = .updatePc) (hc : s.csr.busy = true) :
    s.step v i =
      { s with
        regs := if s.writebackEn then s.writeRd s.writebackData else s.regs
        branchPcFromAlu := false
        csr := s.csr.rest } := by
  have ht := h.trap_idle (by simp [hs]) (by simp [hs])
  have hm := h.mret_idle (by simp [hs]) (by simp [hs])
  have ha := h.alu_free (by rw [hs]; rfl)
  have hb := h.bus_free (by rw [hs]; rfl)
  have hk := u.no_ack h (by rw [hs]; rfl)
  ext1
  case regs =>
    simp [-State.regDatain, hs, controlUpdatePc_eq, State.writebackEn, State.writebackData, State.writeRd]
  all_goals simp [hs, u.rst, u.halt, ht, hm, hb, hk, ha, hc, controlUpdatePc_eq]

theorem step_cpuIdle (hs : s.state = .cpuIdle) :
    s.step v i =
      { s with
        state := if i.externalDoStep then .preFetch else .cpuIdle
        csr := s.csr.rest } := by
  have hr := h.ready u (by rw [hs]; rfl)
  have hp := h.plain (by rw [hs]; rfl)
  ext1 <;> simp [hs, u.rst, u.halt, hr, hp]

end

/-! ## The order of the states -/

section
variable {v : BitVec 32} {s : State} {i : Inputs}

/-- The states that may follow, once nothing is busy. -/
def MainState.successors : MainState → List MainState
  | .reset => [.preFetch]
  | .preFetch => [.fetch]
  | .fetch => [.prepairUnalignedFetch, .decode]
  | .prepairUnalignedFetch => [.fetchMore]
  | .fetchMore => [.decode]
  | .decode => [.exec, .trap]
  | .exec => [.postExec, .load1, .store1, .branch2, .system, .trap]
  | .load1 => [.load2]
  | .store1 => [.store2]
  | .system => [.trap, .mret, .csr1, .updatePc]
  | .csr1 => [.csr2]
  | .postExec | .branch2 | .load2 | .store2 | .csr2 | .trap | .mret => [.updatePc]
  | .updatePc => [.preFetch, .cpuIdle]
  | .cpuIdle => [.preFetch, .cpuIdle]
  | .dead | .misalignedAddr | .mretUpdateMstatus | .mretReadEpc => []

theorem Coherent.nextState_mem (h : Coherent s) :
    (s.control i).nextState ∈ s.state.successors := by
  have hused := h.used
  have hnext : (State.execNextState s.dec.execNextStage).unused = false := execNextState_used s
  unfold State.control
  cases hs : s.state <;> rw [hs] at hused <;> simp only [MainState.successors]
  case dead | misalignedAddr | mretUpdateMstatus | mretReadEpc => exact absurd hused (by decide)
  case exec =>
    revert hnext
    cases s.dec.execNextStage <;> simp [State.execNextState, MainState.unused]
  case system =>
    unfold State.controlSystem
    cases systemKind s.dec <;> simp [State.controlRaise]
  case updatePc =>
    rw [controlUpdatePc_eq]
    dsimp only
    split_ifs <;> simp
  case fetch =>
    unfold State.controlFetch
    dsimp only
    split_ifs <;> simp
  case decode =>
    unfold State.controlDecode
    dsimp only
    split_ifs <;> simp
  case cpuIdle => split_ifs <;> simp
  all_goals simp [State.controlLoad1, State.controlStore1, State.controlStore2]

/-- The state stays or is followed by one of its successors. -/
theorem Coherent.step_state_mem (h : Coherent s) (hr : i.rst = false) :
    (s.step v i).state = s.state ∨ (s.step v i).state ∈ s.state.successors := by
  rw [step_state hr]
  split_ifs
  · exact Or.inl rfl
  · exact Or.inr h.nextState_mem

end

end TagSoc.Cpu
