import TagSoc.Cpu
import TagSoc.WbRam
import TagSoc.Peripherals

/-!
# The system

`wb_mux.v` and `soc.v`. The two masters (the processor and the external port)
share one bus; the selector chooses whose request lines the slaves see. Bits
27:26 of the address choose the slave, bits 31:28 are the tag and take no part
in the choice. Addresses with no slave are acknowledged by the multiplexer
itself. The responses go to both masters alike.
-/
namespace TagSoc.Soc

/-! ## The bus multiplexer -/

/-- The request lines of a master. -/
structure Master where
  addr : BitVec 32
  data : BitVec 32
  we : Bool
  sel : BitVec 4
  stb : Bool
  cyc : Bool
deriving Repr, DecidableEq

def wbAccessRam : BitVec 2 := 0#2
def wbAccessTimer : BitVec 2 := 1#2
def wbAccessUart : BitVec 2 := 2#2
def wbWrongData : BitVec 32 := 0xDEADBEAF#32

/-- `wb_periph_select`. -/
def periphSelect (addr : BitVec 32) : BitVec 2 := addr.extractLsb' 26 2

def Master.accessRam (m : Master) : Bool := periphSelect m.addr == wbAccessRam
def Master.accessTimer (m : Master) : Bool := periphSelect m.addr == wbAccessTimer
def Master.accessUart (m : Master) : Bool := periphSelect m.addr == wbAccessUart

/-! ## Composition -/

structure State (g : ℕ) where
  cpu : Cpu.State
  ram : WbRam.State g
  timer : WbTimer.State
  uart : WbUart.State
  ext : WbExt.State
  muxAck : Bool

structure Inputs where
  cpuRst : Bool
  rst : Bool
  busMaster : Bool
  extTranAddr : BitVec 32
  extTranData : BitVec 32
  extTranSize : BitVec 2
  extTranStart : Bool
  extTranWrite : Bool
  extTranClear : Bool
  extCpuHalt : Bool
  extCpuSinglestep : Bool
  extCpuDoStep : Bool
deriving Repr, DecidableEq

def cpuResetAddr : BitVec 32 := 4096#32

variable {g : ℕ}

namespace State

def cpuMaster (s : State g) : Master where
  addr := s.cpu.bus.adr
  data := s.cpu.bus.dat
  we := s.cpu.bus.we
  sel := s.cpu.bus.sel
  stb := s.cpu.bus.stb
  cyc := s.cpu.bus.cyc

def extMaster (s : State g) (i : Inputs) : Master where
  addr := i.extTranAddr
  data := i.extTranData
  we := s.ext.wbWe
  sel := s.ext.dataSel
  stb := s.ext.tranStarted
  cyc := s.ext.tranStarted

def master (s : State g) (i : Inputs) : Master :=
  if i.busMaster then s.extMaster i else s.cpuMaster

def timerIn (s : State g) (i : Inputs) : WbTimer.Inputs :=
  let m := s.master i
  { rst := i.rst, addr := m.addr, data := m.data, we := m.we, cyc := m.cyc && m.accessTimer }

def ramIn (s : State g) (i : Inputs) : WbRam.Inputs :=
  let m := s.master i
  { rst := i.rst, addr := m.addr, data := m.data, sel := m.sel, we := m.we
    cyc := m.cyc && m.accessRam, stb := m.stb && m.accessRam
    checkTags := s.cpu.checkTags, clearMismatch := s.cpu.csr.tagsIrqClear }

def uartIn (s : State g) (i : Inputs) : WbUart.Inputs :=
  let m := s.master i
  { rst := i.rst, addr := m.addr, data := m.data, we := m.we
    cyc := m.cyc && m.accessUart, stb := m.stb && m.accessUart }

/-- `wb_cpu_ack_o`. -/
def cpuAck (s : State g) (i : Inputs) : Bool :=
  let m := s.master i
  if m.accessTimer then s.timer.ack
  else if m.accessRam then s.ram.ack
  else if m.accessUart then s.uart.ackOut (s.uartIn i)
  else s.muxAck

/-- `wb_ext_ack_o`: unlike the processor, the external master gets no answer
where there is no slave. -/
def extAck (s : State g) (i : Inputs) : Bool :=
  let m := s.master i
  if m.accessTimer then s.timer.ack
  else if m.accessRam then s.ram.ack
  else if m.accessUart then s.uart.ackOut (s.uartIn i)
  else false

/-- `wb_cpu_data_o` and `wb_ext_data_o`. -/
def masterData (s : State g) (i : Inputs) : BitVec 32 :=
  let m := s.master i
  if m.accessTimer then s.timer.dataOut (s.timerIn i)
  else if m.accessRam then s.ram.dataOut (s.ramIn i)
  else if m.accessUart then s.uart.dataOut
  else wbWrongData

def cpuIn (s : State g) (i : Inputs) : Cpu.Inputs where
  rst := i.cpuRst
  ack := s.cpuAck i
  dat := s.masterData i
  timerInterrupt := s.timer.irq
  tagsInterrupt := s.ram.irq
  clearMipTimer := (s.timerIn i).mtimecmpAccessed
  externalHalt := i.extCpuHalt
  externalSinglestep := i.extCpuSinglestep
  externalDoStep := i.extCpuDoStep

def extIn (s : State g) (i : Inputs) : WbExt.Inputs where
  rst := i.rst
  tranSize := i.extTranSize
  tranWe := i.extTranWrite
  tranStart := i.extTranStart
  tranClearReady := i.extTranClear
  ack := s.extAck i
  wbData := s.masterData i

def step (s : State g) (i : Inputs) : State g where
  cpu := s.cpu.step cpuResetAddr (s.cpuIn i)
  ram := s.ram.step (s.ramIn i)
  timer := s.timer.step (s.timerIn i)
  uart := s.uart.step (s.uartIn i)
  ext := s.ext.step (s.extIn i)
  muxAck := if i.rst then false else (s.master i).stb && !s.muxAck

end State

end TagSoc.Soc
