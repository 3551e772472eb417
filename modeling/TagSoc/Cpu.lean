import TagSoc.Decoder
import TagSoc.CpuBus
import TagSoc.Registers
import TagSoc.Csr

/-!
# The processor

`cpu.v`: a main state machine, and beside it two small machines that run the
CSR accesses of a trap entry and of `mret` while the main one is held. All
three share one CSR port, one ALU result register and one register write port.
`control` is the combinational block of the main machine, `State.step` one
rising clock edge of the whole module.

Left out, since nothing in the module reads them: `prev_pc`, `insn_counter`,
`csr_op_type`, the decoder enable, and the observation-only outputs.
-/
namespace TagSoc.Cpu
open Alu Decoder CpuBus Csr

inductive MainState where
  | reset | fetch | decode | exec | store2 | load2 | branch2 | trap | system | updatePc
  | csr1 | dead | preFetch | store1 | load1 | mretUpdateMstatus | mretReadEpc | postExec
  | misalignedAddr | csr2 | mret | fetchMore | prepairUnalignedFetch | cpuIdle
deriving Repr, DecidableEq

inductive MretState where
  | reset | idle | storeStatus | loadEpc
deriving Repr, DecidableEq

inductive TrapState where
  | reset | idle | loadStatus | storeStatus | storeEpc | storeTval | loadTvec | loadMip
  | storeMip | dead
deriving Repr, DecidableEq

inductive MuxBusAddr where
  | alu | pc
deriving Repr, DecidableEq

def causeInstructionMisaligned : BitVec 32 := 0x00000000#32
def causeInvalidInstruction : BitVec 32 := 0x00000002#32
def causeBreak : BitVec 32 := 0x00000003#32
def causeEcall : BitVec 32 := 0x0000000b#32
def causeTimerInterrupt : BitVec 32 := 0x80000007#32
def causeTagMismatch : BitVec 32 := 0x80000010#32

@[ext]
structure State where
  state : MainState
  pc : BitVec 32
  pcnext : BitVec 32
  parcelLow : BitVec 16
  parcelHigh : BitVec 16
  writebackFromBus : Bool
  branchPcFromAlu : Bool
  nextAddrFromCsr : Bool
  checkTags : Bool
  execDone : Bool
  testFinished : Bool
  mretState : MretState
  trapState : TrapState
  alu : Alu.State
  bus : CpuBus.State
  regs : Registers.State
  csr : Csr.State

structure Inputs where
  rst : Bool
  ack : Bool
  dat : BitVec 32
  timerInterrupt : Bool
  tagsInterrupt : Bool
  clearMipTimer : Bool
  externalHalt : Bool
  externalSinglestep : Bool
  externalDoStep : Bool
deriving Repr, DecidableEq

namespace State

/-! ## Wires -/

def parcels (s : State) : BitVec 32 := s.parcelHigh ++ s.parcelLow

def dec (s : State) : Decoded := decode s.parcels

def handlingMret (s : State) : Bool :=
  !(s.mretState == .reset || s.mretState == .idle)

def handlingTrap (s : State) : Bool :=
  !(s.trapState == .reset || s.trapState == .idle)

def interruptOccured (s : State) (i : Inputs) : Bool :=
  (i.timerInterrupt && s.csr.irqTimerEn) || i.tagsInterrupt

def busy (s : State) (i : Inputs) : Bool :=
  s.alu.busy || s.bus.busy || s.csr.busy || s.handlingTrap || s.handlingMret || i.externalHalt

/-- Whether the comparison latched by the ALU satisfies the branch mask. -/
def branch (s : State) : Bool :=
  (s.dec.branchmask &&& (BitVec.ofBool (!s.alu.ltu) ++ BitVec.ofBool s.alu.ltu ++
    BitVec.ofBool (!s.alu.lt) ++ BitVec.ofBool s.alu.lt ++
    BitVec.ofBool (!s.alu.eq) ++ BitVec.ofBool s.alu.eq)) != 0#6

/-! ## The two CSR sequencers -/

def mretCsr (s : State) : Csr.Request :=
  match s.mretState with
  | .storeStatus =>
      { en := true, we := true, addr := msrMstatus
        data := s.csr.dataOut.extractLsb' 4 28 ++ s.csr.dataOut.extractLsb' 7 1 ++
          s.csr.dataOut.extractLsb' 0 3 }
  | .loadEpc => { en := true, addr := msrMepc }
  | _ => {}

def nextMretState (s : State) (mretOccured : Bool) : MretState :=
  match s.mretState with
  | .reset => .idle
  | .idle => if mretOccured then .storeStatus else .idle
  | .storeStatus => .loadEpc
  | .loadEpc => .idle

def trapCsr (s : State) : Csr.Request :=
  match s.trapState with
  | .loadStatus => { en := true, addr := msrMstatus }
  | .storeStatus =>
      { en := true, we := true, addr := msrMstatus
        data := s.csr.dataOut.extractLsb' 8 24 ++ s.csr.dataOut.extractLsb' 3 1 ++
          s.csr.dataOut.extractLsb' 4 3 ++ 0#1 ++ s.csr.dataOut.extractLsb' 0 3 }
  | .storeEpc => { en := true, we := true, addr := msrMepc, data := s.pc }
  | .storeTval => { en := true, we := true, addr := msrMtval, data := s.pc }
  | .loadMip => { en := true, addr := msrMip }
  | .storeMip =>
      { en := true, we := true, addr := msrMip
        data := s.csr.dataOut.extractLsb' 8 24 ++ 1#1 ++ s.csr.dataOut.extractLsb' 0 7 }
  | .loadTvec => { en := true, addr := msrMtvec }
  | _ => {}

def nextTrapState (s : State) (i : Inputs) (trapOccured : Bool) : TrapState :=
  match s.trapState with
  | .reset => .idle
  | .idle => if trapOccured then .loadStatus else .idle
  | .loadStatus => .storeStatus
  | .storeStatus => .storeEpc
  | .storeEpc => .storeTval
  | .storeTval => if i.timerInterrupt && s.csr.irqTimerEn then .loadMip else .loadTvec
  | .loadMip => .storeMip
  | .storeMip => .loadTvec
  | .loadTvec => .idle
  | .dead => .dead

end State

/-! ## The main machine -/

/-- The signals of the combinational block, with the values it assigns first. -/
structure Control where
  nextState : MainState
  nextExecDone : Bool := false
  nextCheckTags : Bool := false
  trapOccured : Bool := false
  mretOccured : Bool := false
  nextPcFromCsr : Bool := false
  updatePc : Bool := false
  busEn : Bool := false
  aluEn : Bool := false
  nextPcnext : BitVec 32 := 0#32
  aluOp : AluOp := .add
  regWe : Bool := false
  regRe : Bool := false
  busOp : BusOp := .readw
  muxBusAddrSel : MuxBusAddr := .alu
  nextWritebackFromBus : Bool := false
  nextPc : BitVec 32 := 0#32
  muxRegInputSel : MuxRegInput := .alu
  nextBranchPcFromAlu : Bool := false
  muxAluS2Sel : MuxAluDat2 := .regval2
  muxAluS1Sel : MuxAluDat1 := .regval1
  csrEn : Bool := false
  csrWe : Bool := false
  csrAddr : BitVec 12 := 0#12
  csrDataIn : BitVec 32 := 0#32
  nextTestFinished : Bool := false

/-- The cases of the system state. -/
inductive SystemKind where
  | ecall | ebreak | wfi | mret | csr | invalid
deriving Repr, DecidableEq

def systemKind (d : Decoded) : SystemKind :=
  if d.funct3 = funcEcallEbreak then
    let code := d.imm.extractLsb' 0 12
    if code = systemEcall then .ecall
    else if code = systemEbreak then .ebreak
    else if code = systemWfi then .wfi
    else if code = systemMret then .mret
    else .invalid
  else if d.funct3 = funcCsrrw ∨ d.funct3 = funcCsrrwi ∨ d.funct3 = funcCsrrsi ∨
      d.funct3 = funcCsrrs ∨ d.funct3 = funcCsrrci ∨ d.funct3 = funcCsrrc then .csr
  else .invalid

namespace State

/-- The tag check asked for by an ordinary load or store. -/
def dataCheckTags (s : State) : Bool :=
  if s.csr.tagsSkipSpEn then (if s.dec.rs1 = 2#5 then false else s.csr.tagsEn)
  else s.csr.tagsEn

/-- `next_pc` in the update state. `next_pc_from_csr` is low there. -/
def updateNextPc (s : State) : BitVec 32 :=
  if s.nextAddrFromCsr then s.csr.dataOut &&& ~~~1#32
  else if s.dec.nextPcFromAlu || s.branchPcFromAlu then s.alu.result &&& ~~~1#32
  else s.pcnext &&& ~~~1#32

def controlUpdatePc (s : State) (i : Inputs) : Control :=
  let addrMisaligned := s.updateNextPc.getLsbD 0
  { nextState :=
      if i.externalSinglestep || s.testFinished then .cpuIdle
      else if addrMisaligned then .trap
      else .preFetch
    updatePc := true
    nextPc := s.updateNextPc
    muxRegInputSel :=
      if s.dec.writebackFromAlu then .alu
      else if s.dec.writebackFromImm then s.dec.muxRegInputSel
      else .bus
    regWe := (s.writebackFromBus || s.dec.writebackFromImm || s.dec.writebackFromAlu) &&
      s.execDone
    trapOccured := addrMisaligned
    csrEn := addrMisaligned
    csrWe := addrMisaligned
    csrAddr := if addrMisaligned then msrMcause else 0#12
    csrDataIn := if addrMisaligned then causeInstructionMisaligned else 0#32 }

/-- Both fetch alignments compute the address of the next instruction. -/
def controlFetch (s : State) : Control where
  nextState :=
    if s.pc.getLsbD 1 ∧ s.bus.buffer.extractLsb' 16 2 = 3#2 then .prepairUnalignedFetch
    else .decode
  aluEn := true
  muxAluS1Sel := .pc
  muxAluS2Sel :=
    if s.pc.getLsbD 1 then .instlen16
    else if s.bus.buffer.extractLsb' 0 2 = 3#2 then .instlen32
    else .instlen16

/-- The cause presented when an interrupt is taken. -/
def interruptCause (s : State) (i : Inputs) : BitVec 32 :=
  if i.tagsInterrupt && s.csr.tagsEn then causeTagMismatch
  else if i.timerInterrupt then causeTimerInterrupt
  else 0#32

/-- Interrupts are taken here and nowhere else. -/
def takesInterrupt (s : State) (i : Inputs) : Bool := s.interruptOccured i && s.csr.irqEn

def controlDecode (s : State) (i : Inputs) : Control where
  nextState := if s.takesInterrupt i then .trap else .exec
  regRe := true
  nextPcnext := s.alu.result
  trapOccured := s.takesInterrupt i
  csrEn := s.takesInterrupt i
  csrWe := s.takesInterrupt i
  csrAddr := if s.takesInterrupt i then msrMcause else 0#12
  csrDataIn := if s.takesInterrupt i then s.interruptCause i else 0#32

def execNextState : ExecStage → MainState
  | .toFetch => .postExec
  | .toLoad => .load1
  | .toStore => .store1
  | .toBranch => .branch2
  | .toSystem => .system
  | .toTrap => .trap
  | .toDead => .dead

def loadBusOp (f : BitVec 3) : BusOp :=
  if f = funcLb then .readb else if f = funcLh then .readh else if f = funcLw then .readw
  else if f = funcLbu then .readbu else if f = funcLt then .readt else .readhu

def controlLoad1 (s : State) : Control where
  nextState := .load2
  busEn := true
  busOp := loadBusOp s.dec.funct3
  nextCheckTags := if s.dec.funct3 = funcLt then false else s.dataCheckTags

def storeBusOp (f : BitVec 3) : BusOp :=
  if f = funcSb then .writeb else if f = funcSh then .writeh
  else if f = funcSt then .writet else .writew

def controlStore1 (s : State) : Control where
  nextState := .store2
  busEn := true
  busOp := storeBusOp s.dec.funct3
  nextCheckTags := if s.dec.funct3 = funcSt then false else s.dataCheckTags
  csrEn := true
  csrAddr := msrMip

def controlStore2 (s : State) (i : Inputs) : Control where
  nextState := .updatePc
  csrEn := i.clearMipTimer
  csrWe := i.clearMipTimer
  csrAddr := if i.clearMipTimer then msrMip else 0#12
  csrDataIn :=
    if i.clearMipTimer then
      s.csr.dataOut.extractLsb' 8 24 ++ 0#1 ++ s.csr.dataOut.extractLsb' 0 7
    else 0#32

/-- The signals that start the trap sequencer with a given cause. -/
def controlRaise (cause : BitVec 32) (finished : Bool) : Control where
  nextState := .trap
  trapOccured := true
  csrEn := true
  csrWe := true
  csrAddr := msrMcause
  csrDataIn := cause
  nextTestFinished := finished

def controlSystem (s : State) : Control :=
  match systemKind s.dec with
  | .ecall => controlRaise causeEcall (s.regs.flags 2#5)
  | .ebreak => controlRaise causeBreak false
  | .wfi => { nextState := .updatePc }
  | .mret => { nextState := .mret, mretOccured := true, csrEn := true, csrAddr := msrMstatus }
  | .csr => { nextState := .csr1, csrEn := true, csrAddr := s.dec.imm.extractLsb' 0 12 }
  | .invalid => controlRaise causeInvalidInstruction false

/-- The word a CSR instruction writes back. -/
def csrWriteData (s : State) : BitVec 32 :=
  let f := s.dec.funct3
  if f = funcCsrrw then s.regs.regval1
  else if f = funcCsrrwi then 0#27 ++ s.dec.rs1
  else if f = funcCsrrsi then (0#27 ++ s.dec.rs1) ||| s.csr.dataOut
  else if f = funcCsrrs then s.regs.regval1 ||| s.csr.dataOut
  else if f = funcCsrrci then ~~~(0#27 ++ s.dec.rs1) &&& s.csr.dataOut
  else if f = funcCsrrc then ~~~s.regs.regval1 &&& s.csr.dataOut
  else 0xB0010BAD#32

def control (s : State) (i : Inputs) : Control :=
  match s.state with
  | .reset => { nextState := .preFetch }
  | .updatePc => s.controlUpdatePc i
  | .prepairUnalignedFetch =>
      { nextState := .fetchMore, busEn := true, nextCheckTags := s.csr.tagsIfEn }
  | .preFetch =>
      { nextState := .fetch, muxBusAddrSel := .pc, busEn := true
        nextCheckTags := s.csr.tagsIfEn }
  | .fetchMore =>
      { nextState := .decode, aluEn := true, muxAluS1Sel := .pc, muxAluS2Sel := .instlen32 }
  | .fetch => s.controlFetch
  | .decode => s.controlDecode i
  | .exec =>
      { nextState := execNextState s.dec.execNextStage
        nextExecDone := true
        aluEn := true
        regWe := if s.dec.nextPcFromAlu then s.dec.writeReg else false }
  | .postExec =>
      { nextState := .updatePc
        regWe := if s.dec.nextPcFromAlu then false else s.dec.writeReg }
  | .load1 => s.controlLoad1
  | .load2 => { nextState := .updatePc, nextWritebackFromBus := true }
  | .store1 => s.controlStore1
  | .store2 => s.controlStore2 i
  | .branch2 =>
      { nextState := .updatePc
        aluEn := true, muxAluS1Sel := .pc, muxAluS2Sel := .imm
        nextBranchPcFromAlu := s.branch }
  | .system => s.controlSystem
  | .csr1 => { nextState := .csr2, muxRegInputSel := .msr, regWe := true }
  | .csr2 =>
      { nextState := .updatePc
        csrEn := true, csrWe := true, csrAddr := s.dec.imm.extractLsb' 0 12
        csrDataIn := s.csrWriteData }
  | .trap => { nextState := .updatePc, nextPcFromCsr := true }
  | .mret => { nextState := .updatePc, nextPcFromCsr := true }
  | .mretUpdateMstatus =>
      { nextState := .mretReadEpc, csrEn := true, csrAddr := msrMstatus
        csrDataIn := s.csr.dataOut.extractLsb' 4 28 ++ s.csr.dataOut.extractLsb' 7 1 ++
          s.csr.dataOut.extractLsb' 0 3 }
  | .mretReadEpc =>
      { nextState := .updatePc, csrEn := true, csrAddr := msrMepc, nextPcFromCsr := true }
  | .cpuIdle => { nextState := if i.externalDoStep then .preFetch else .cpuIdle }
  | .dead | .misalignedAddr => { nextState := .dead }

/-! ## Submodule inputs -/

def aluDataS1 (s : State) : MuxAluDat1 → BitVec 32
  | .regval1 => s.regs.regval1
  | .pc => s.pc

def aluDataS2 (s : State) : MuxAluDat2 → BitVec 32
  | .regval2 => s.regs.regval2
  | .imm => s.dec.imm
  | .instlen16 => 2#32
  | .instlen32 => 4#32

def busAddr (s : State) : MuxBusAddr → BitVec 32
  | .alu => s.alu.result
  | .pc => s.pc

def regDatain (s : State) : MuxRegInput → BitVec 32
  | .alu => s.alu.result
  | .bus => s.bus.buffer
  | .imm => s.dec.imm
  | .msr => s.csr.dataOut

/-- In the execute states the decoder drives the ALU, elsewhere the machine. -/
def executing (s : State) : Bool := s.state == .exec || s.state == .postExec

def aluIn (s : State) (i : Inputs) : Alu.Inputs :=
  let c := s.control i
  { en := c.aluEn
    reset := i.rst
    dataS1 := s.aluDataS1 (if s.executing then s.dec.muxAluS1Sel else c.muxAluS1Sel)
    dataS2 := s.aluDataS2 (if s.executing then s.dec.muxAluS2Sel else c.muxAluS2Sel)
    aluop := if s.executing then s.dec.aluOper else c.aluOp }

def busIn (s : State) (i : Inputs) : CpuBus.Inputs :=
  let c := s.control i
  { en := c.busEn
    op := c.busOp
    addr := s.busAddr c.muxBusAddrSel
    data := s.regs.regval2
    ack := i.ack
    dat := i.dat }

def regsIn (s : State) (i : Inputs) : Registers.Inputs :=
  let c := s.control i
  { data := s.regDatain c.muxRegInputSel
    rs1 := s.dec.rs1
    rs2 := s.dec.rs2
    rd := s.dec.rd
    re := c.regRe
    we := c.regWe }

/-- The CSR port: the sequencers have precedence over the main machine. -/
def csrRequest (s : State) (i : Inputs) : Csr.Request :=
  let c := s.control i
  if s.handlingTrap then s.trapCsr
  else if s.handlingMret then s.mretCsr
  else { en := c.csrEn, we := c.csrWe, addr := c.csrAddr, data := c.csrDataIn }

def csrIn (s : State) (i : Inputs) : Csr.Inputs := { s.csrRequest i with rst := i.rst }

/-- One rising edge. Only the main state, `pc`, `pcnext`, `writeback_from_bus`
and `next_addr_from_csr` wait for `busy`; the sequencers wait for the CSR block
alone and everything else is clocked freely. -/
def step (vectorReset : BitVec 32) (s : State) (i : Inputs) : State :=
  let c := s.control i
  let busy := s.busy i
  { state := if i.rst then .reset else if busy then s.state else c.nextState
    pc := if i.rst then vectorReset else if c.updatePc && !busy then c.nextPc else s.pc
    pcnext := if i.rst then 0#32
      else if s.state = .decode ∧ busy = false then c.nextPcnext else s.pcnext
    parcelLow := if i.rst then s.parcelLow
      else if s.state = .fetch then
        (if s.pc.getLsbD 1 then s.bus.buffer.extractLsb' 16 16 else s.bus.buffer.extractLsb' 0 16)
      else s.parcelLow
    parcelHigh := if i.rst then s.parcelHigh
      else if s.state = .fetch then
        (if s.pc.getLsbD 1 then 0#16 else s.bus.buffer.extractLsb' 16 16)
      else if s.state = .fetchMore then s.bus.buffer.extractLsb' 0 16
      else s.parcelHigh
    writebackFromBus := if i.rst then false
      else if busy then s.writebackFromBus else c.nextWritebackFromBus
    branchPcFromAlu := if i.rst then false else c.nextBranchPcFromAlu
    nextAddrFromCsr := if i.rst then false
      else if busy then s.nextAddrFromCsr else c.nextPcFromCsr
    checkTags := if i.rst then false
      else if s.state = .preFetch ∨ s.state = .load1 ∨ s.state = .store1 then c.nextCheckTags
      else s.checkTags
    execDone := if i.rst then false
      else if s.state = .preFetch ∨ s.state = .exec then c.nextExecDone else s.execDone
    testFinished := if i.rst then false
      else if s.testFinished then s.testFinished else c.nextTestFinished
    mretState := if i.rst then .reset
      else if s.csr.busy then s.mretState else s.nextMretState c.mretOccured
    trapState := if i.rst then .reset
      else if s.csr.busy then s.trapState else s.nextTrapState i c.trapOccured
    alu := s.alu.step (s.aluIn i)
    bus := s.bus.step (s.busIn i)
    regs := s.regs.step (s.regsIn i)
    csr := s.csr.step (s.csrIn i) }

end State

end TagSoc.Cpu
