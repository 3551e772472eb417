import Mathlib.Data.BitVec

/-!
# Timer, serial port and external master

`wb_timer.v`, `wb_uart.v` (the synthesised variant: `SIMULATION_RUN` is not
defined, so the divider register exists) and `wb_ext.v`. The receive line of
the serial port is not connected to anything in the source.
-/
namespace TagSoc

namespace WbTimer

structure State where
  mtime : BitVec 64
  mtimecmp : BitVec 64
  tgtClk : BitVec 64
  clkCnt : BitVec 64
  mtimeAlwEn : BitVec 64
  irq : Bool
  ack : Bool
deriving Repr, DecidableEq

structure Inputs where
  rst : Bool
  addr : BitVec 32
  data : BitVec 32
  we : Bool
  cyc : Bool
deriving Repr, DecidableEq

def mtimeLo : BitVec 3 := 0#3
def mtimeHi : BitVec 3 := 1#3
def mtimecmpLo : BitVec 3 := 2#3
def mtimecmpHi : BitVec 3 := 3#3
def tgtClkLo : BitVec 3 := 4#3
def tgtClkHi : BitVec 3 := 5#3
def mtimeAeLo : BitVec 3 := 6#3
def mtimeAeHi : BitVec 3 := 7#3

def Inputs.reg (i : Inputs) : BitVec 3 := i.addr.extractLsb' 2 3

def lo (x : BitVec 64) : BitVec 32 := x.extractLsb' 0 32
def hi (x : BitVec 64) : BitVec 32 := x.extractLsb' 32 32
def setLo (x : BitVec 64) (d : BitVec 32) : BitVec 64 := hi x ++ d
def setHi (x : BitVec 64) (d : BitVec 32) : BitVec 64 := d ++ lo x

/-- `timer_mtimecmp_accessed_o`, with the precedence the source has: the upper
register is reported on every address match, requested or not. -/
def Inputs.mtimecmpAccessed (i : Inputs) : Bool :=
  (i.cyc && i.we && i.reg == mtimecmpLo) || i.reg == mtimecmpHi

def State.dataOut (s : State) (i : Inputs) : BitVec 32 :=
  if i.reg = mtimeLo then lo s.mtime
  else if i.reg = mtimeHi then hi s.mtime
  else if i.reg = mtimecmpLo then lo s.mtimecmp
  else if i.reg = mtimecmpHi then hi s.mtimecmp
  else if i.reg = tgtClkLo then lo s.tgtClk
  else if i.reg = tgtClkHi then hi s.tgtClk
  else if i.reg = mtimeAeLo then lo s.mtimeAlwEn
  else hi s.mtimeAlwEn

def State.timerEnabled (s : State) : Bool := s.tgtClk != 0#64

/-- The clock divider and the counter it feeds, in a clock that writes neither. -/
def State.tick (s : State) : State :=
  if s.timerEnabled then
    if s.tgtClk ≤ s.clkCnt then { s with clkCnt := 1#64, mtime := s.mtime + 1#64 }
    else { s with clkCnt := s.clkCnt + 1#64 }
  else s

def State.write (s : State) (i : Inputs) : State :=
  if i.reg = mtimeLo ∨ i.reg = mtimeHi then
    { s with
      mtime := if i.reg = mtimeLo then setLo s.mtime i.data else setHi s.mtime i.data
      clkCnt := if s.timerEnabled then s.clkCnt + 1#64 else s.clkCnt }
  else
    { s.tick with
      mtimecmp := if i.reg = mtimecmpLo then setLo s.mtimecmp i.data
        else if i.reg = mtimecmpHi then setHi s.mtimecmp i.data else s.mtimecmp
      tgtClk := if i.reg = tgtClkLo then setLo s.tgtClk i.data
        else if i.reg = tgtClkHi then setHi s.tgtClk i.data else s.tgtClk }

def State.step (s : State) (i : Inputs) : State :=
  if i.rst then
    { mtime := 0#64, mtimecmp := 0#64, tgtClk := 0#64, ack := false, irq := false
      mtimeAlwEn := 0#64, clkCnt := 1#64 }
  else
    { (if i.cyc && i.we then s.write i else s.tick) with
      irq := s.mtimecmp ≤ s.mtime
      mtimeAlwEn := s.mtimeAlwEn + 1#64
      ack := i.cyc && !s.ack }

end WbTimer

namespace WbUart

structure State where
  ack : Bool
  dataOut : BitVec 32
  cfgDivider : BitVec 32
  txStarted : Bool
  sendPattern : BitVec 10
  sendBitcnt : BitVec 4
  sendDivcnt : BitVec 32
  inProg : Bool
  finished : Bool
deriving Repr, DecidableEq

structure Inputs where
  rst : Bool
  addr : BitVec 32
  data : BitVec 32
  we : Bool
  cyc : Bool
  stb : Bool
deriving Repr, DecidableEq

def uartAddrDivider : BitVec 2 := 0#2
def uartAddrDataToTransmit : BitVec 2 := 1#2
def uartAddrSanity : BitVec 2 := 2#2
def uartSanityValue : BitVec 32 := 0xA17EB0B0#32

def Inputs.regSel (i : Inputs) : BitVec 2 := i.addr.extractLsb' 2 2

/-- `wb_ack_o`. -/
def State.ackOut (s : State) (i : Inputs) : Bool := s.ack && i.cyc

/-- `uart_tx_o`. -/
def State.tx (s : State) : Bool := s.sendPattern.getLsbD 0

/-- The bus side. Reading the transmit or the sanity register raises no
acknowledge. -/
def State.busSide (s : State) (i : Inputs) : State :=
  if i.cyc && i.stb then
    if i.regSel = uartAddrDivider then
      { s with
        ack := true
        cfgDivider := if i.we then i.data else s.cfgDivider
        dataOut := if i.we then s.dataOut else s.cfgDivider }
    else if i.regSel = uartAddrSanity then
      { s with dataOut := if i.we then s.dataOut else uartSanityValue }
    else if i.regSel = uartAddrDataToTransmit then
      if i.we then
        { s with txStarted := !s.finished, ack := if s.finished then true else s.ack }
      else s
    else { s with ack := true }
  else { s with ack := false, dataOut := 0#32, txStarted := false }

def State.step (s : State) (i : Inputs) : State :=
  if i.rst then
    { ack := false, cfgDivider := 1#32, dataOut := 0#32, txStarted := false
      sendPattern := ~~~0#10, sendBitcnt := 0#4, sendDivcnt := 0#32
      inProg := false, finished := false }
  else
    let load : Bool := s.txStarted && s.sendBitcnt == 0#4
    let shift : Bool := s.sendDivcnt > s.cfgDivider && s.sendBitcnt != 0#4
    let last : Bool := s.inProg && s.sendBitcnt == 1#4
    { s.busSide i with
      sendPattern := if load then 1#1 ++ i.data.extractLsb' 0 8 ++ 0#1
        else if shift then 1#1 ++ s.sendPattern.extractLsb' 1 9 else s.sendPattern
      sendBitcnt := if load then 10#4 else if shift then s.sendBitcnt - 1#4 else s.sendBitcnt
      sendDivcnt := if load || shift then 0#32 else s.sendDivcnt + 1#32
      inProg := if last then false else if load then true else s.inProg
      finished := last }

end WbUart

namespace WbExt

structure State where
  tranStarted : Bool
  tranFinished : Bool
  data : BitVec 32
  dataSel : BitVec 4
  wbWe : Bool
deriving Repr, DecidableEq

structure Inputs where
  rst : Bool
  tranSize : BitVec 2
  tranWe : Bool
  tranStart : Bool
  tranClearReady : Bool
  ack : Bool
  wbData : BitVec 32
deriving Repr, DecidableEq

def tranSel (size : BitVec 2) : BitVec 4 :=
  if size = 0#2 then 0b0001#4 else if size = 1#2 then 0b0011#4 else 0b1111#4

def State.step (s : State) (i : Inputs) : State :=
  if i.rst then
    { tranStarted := false, tranFinished := false, dataSel := 0#4, data := 0xC0017A1E#32
      wbWe := false }
  else
    let start : Bool := i.tranStart && !s.tranStarted
    let done : Bool := s.tranStarted && i.ack
    { tranStarted := if done then false else if start then true else s.tranStarted
      dataSel := if start then tranSel i.tranSize else s.dataSel
      wbWe := if done then false else if start then i.tranWe else s.wbWe
      tranFinished := if i.tranClearReady then false else if done then true else s.tranFinished
      data := if done then (if s.wbWe then s.data else i.wbData) else s.data }

end WbExt

end TagSoc
