import TagSoc.Soc
import TagSoc.RamRun

/-!
# One transaction of the external port

`wb_ext` with the bus to itself: the selector points at it and the slaves are out of
reset, whatever the processor does. A word transaction to the memory passes through
three stages, one clock each; one to an address without a slave stays in the second,
and the address lines go straight from the pins to the bus in all of them.
-/
namespace TagSoc.Soc
open WbRam

variable {g : ℕ} {s : State g} {i : Inputs} {write : Bool} {a : BitVec 32}

/-- The external master has the bus. -/
structure Inputs.External (i : Inputs) : Prop where
  rst : i.rst = false
  master : i.busMaster = true

/-- No transaction, and the memory has nothing to do. -/
structure PortRests (s : State g) : Prop where
  started : s.ext.tranStarted = false
  state : s.ram.state = .idle
  ack : s.ram.ack = false
  ramWe : s.ram.ramWeR = false
  tagWe : s.ram.tagWeR = false

/-- A word transaction that no slave has seen yet. -/
structure PortAsks (s : State g) (write : Bool) : Prop where
  started : s.ext.tranStarted = true
  sel : s.ext.dataSel = wbSelWord
  we : s.ext.wbWe = write
  state : s.ram.state = .idle
  ack : s.ram.ack = false
  ramWe : s.ram.ramWeR = false
  tagWe : s.ram.tagWeR = false

/-- The memory answers a word transaction to the address `a`. -/
structure PortAnswered (s : State g) (write : Bool) (a : BitVec 32) : Prop where
  started : s.ext.tranStarted = true
  sel : s.ext.dataSel = wbSelWord
  we : s.ext.wbWe = write
  state : s.ram.state = .stop
  ack : s.ram.ack = true
  ramWe : s.ram.ramWeR = write
  tagWe : s.ram.tagWeR = false
  dataOut : s.ram.ram.dataOut = s.ram.contents.words (wordAddr g a)

/-- What a clock in which nothing is acknowledged leaves of the port and the memory. -/
structure PortKept (s s' : State g) (i : Inputs) : Prop where
  contents : s'.ram.contents = s.ram.contents
  data : s'.ext.data = s.ext.data
  finished : s'.ext.tranFinished = (!i.extTranClear && s.ext.tranFinished)

theorem master_external (h : i.External) : s.master i = s.extMaster i := by
  rw [State.master, h.master, if_pos rfl]

theorem ramIn_external (h : i.External) :
    s.ramIn i = ⟨false, i.extTranAddr, i.extTranData, s.ext.dataSel, s.ext.wbWe,
      s.ext.tranStarted && (s.extMaster i).accessRam,
      s.ext.tranStarted && (s.extMaster i).accessRam, s.cpu.checkTags,
      s.cpu.csr.tagsIrqClear⟩ := by
  rw [State.ramIn, master_external h, h.rst]
  rfl

/-- The memory keeps its contents in a clock without a write enable. -/
theorem contents_of_no_write (hr : s.ram.ramWeR = false) (ht : s.ram.tagWeR = false) :
    (s.step i).ram.contents = s.ram.contents := by
  simp [State.step, WbRam.State.contents, WbRam.State.step, GenericRam.State.step, hr, ht]

/-- A processor that is halted in its first state stays there. -/
theorem parked_step (h : s.cpu.state = .reset) (hh : i.extCpuHalt = true) :
    (s.step i).cpu.state = .reset := by
  have hb : s.cpu.busy (s.cpuIn i) = true := by
    simp [Cpu.State.busy, State.cpuIn, hh]
  cases hr : (s.cpuIn i).rst <;> simp [State.step, Cpu.State.step, hr, hb, h]

theorem PortRests.kept (h : PortRests s) (hi : i.External) : PortKept s (s.step i) i where
  contents := contents_of_no_write h.ramWe h.tagWe
  data := by simp [State.step, WbExt.State.step, State.extIn, hi.rst, h.started]
  finished := by
    cases hc : i.extTranClear <;>
      simp [State.step, WbExt.State.step, State.extIn, hi.rst, h.started, hc]

/-- The memory sees no request. -/
theorem PortRests.ram_step (h : PortRests s) (hi : i.External) :
    (s.step i).ram.state = .idle ∧ (s.step i).ram.ack = false ∧
      (s.step i).ram.ramWeR = false ∧ (s.step i).ram.tagWeR = false := by
  simp [State.step, ramIn_external hi, h.started, WbRam.State.step, WbRam.State.control, h.state,
    WbRam.Inputs.tagAccessed, WbRam.Inputs.ramAccessed]

theorem PortRests.step (h : PortRests s) (hi : i.External) (hs : i.extTranStart = false) :
    PortRests (s.step i) := by
  obtain ⟨h₁, h₂, h₃, h₄⟩ := h.ram_step hi
  refine ⟨?_, h₁, h₂, h₃, h₄⟩
  simp [State.step, WbExt.State.step, State.extIn, hi.rst, h.started, hs]

theorem PortRests.start (h : PortRests s) (hi : i.External) (hs : i.extTranStart = true)
    (hsize : i.extTranSize = 3#2) : PortAsks (s.step i) i.extTranWrite := by
  obtain ⟨h₁, h₂, h₃, h₄⟩ := h.ram_step hi
  constructor
  case state => exact h₁
  case ack => exact h₂
  case ramWe => exact h₃
  case tagWe => exact h₄
  all_goals simp [State.step, WbExt.State.step, State.extIn, hi.rst, h.started, hs, hsize,
    WbExt.tranSel, wbSelWord]

/-- Without an acknowledge the port waits. -/
theorem PortAsks.ext_step (h : PortAsks s write) (hi : i.External) (ha : s.extAck i = false) :
    (s.step i).ext = { s.ext with tranFinished := !i.extTranClear && s.ext.tranFinished } := by
  cases hc : i.extTranClear <;>
    simp [State.step, WbExt.State.step, State.extIn, hi.rst, h.started, ha, hc]

theorem PortAsks.kept (h : PortAsks s write) (hi : i.External) (ha : s.extAck i = false) :
    PortKept s (s.step i) i where
  contents := contents_of_no_write h.ramWe h.tagWe
  data := by rw [h.ext_step hi ha]
  finished := by rw [h.ext_step hi ha]

theorem extAck_ram (hi : i.External) (ha : periphSelect i.extTranAddr = wbAccessRam) :
    s.extAck i = s.ram.ack := by
  simp [State.extAck, master_external hi, State.extMaster, Master.accessTimer, Master.accessRam, ha,
    wbAccessRam, wbAccessTimer]

/-- No slave at the addresses with both region bits set. -/
def wbAccessNone : BitVec 2 := 3#2

theorem extAck_none (hi : i.External) (ha : periphSelect i.extTranAddr = wbAccessNone) :
    s.extAck i = false := by
  simp [State.extAck, master_external hi, State.extMaster, Master.accessTimer, Master.accessRam,
    Master.accessUart, ha, wbAccessNone, wbAccessRam, wbAccessTimer, wbAccessUart]

theorem PortAsks.answer (h : PortAsks s write) (hi : i.External)
    (ha : periphSelect i.extTranAddr = wbAccessRam) :
    PortAnswered (s.step i) write i.extTranAddr ∧ PortKept s (s.step i) i := by
  have hno : s.extAck i = false := (extAck_ram hi ha).trans h.ack
  have hacc : (s.extMaster i).accessRam = true := by
    simp [State.extMaster, Master.accessRam, ha]
  have hkept := h.kept hi hno
  refine ⟨?_, hkept⟩
  constructor
  case started => rw [h.ext_step hi hno]; exact h.started
  case sel => rw [h.ext_step hi hno]; exact h.sel
  case we => rw [h.ext_step hi hno]; exact h.we
  case dataOut =>
    rw [hkept.contents]
    simp [State.step, ramIn_external hi, WbRam.State.step, WbRam.State.contents]
  all_goals
    simp [State.step, ramIn_external hi, h.started, h.sel, h.we, hacc, WbRam.State.step,
      WbRam.State.control, h.state, WbRam.Inputs.tagAccessed, WbRam.Inputs.ramAccessed,
      WbRam.Inputs.accessTag, WbRam.Inputs.accessLoadStore, WbRam.Inputs.accessByte,
      WbRam.Inputs.accessHalf, WbRam.Inputs.accessWord, WbRam.Inputs.doneInOneTick, wbSelWord,
      wbSelTag, wbSelByte, wbSelHalf]

/-- Where there is no slave the transaction stays as it is. -/
theorem PortAsks.step_none (h : PortAsks s write) (hi : i.External)
    (ha : periphSelect i.extTranAddr = wbAccessNone) :
    PortAsks (s.step i) write ∧ PortKept s (s.step i) i := by
  have hno := extAck_none (s := s) hi ha
  have hacc : (s.extMaster i).accessRam = false := by
    simp [State.extMaster, Master.accessRam, ha, wbAccessNone, wbAccessRam]
  refine ⟨?_, h.kept hi hno⟩
  constructor
  case started => rw [h.ext_step hi hno]; exact h.started
  case sel => rw [h.ext_step hi hno]; exact h.sel
  case we => rw [h.ext_step hi hno]; exact h.we
  all_goals
    simp [State.step, ramIn_external hi, h.started, hacc, WbRam.State.step, WbRam.State.control,
      h.state, WbRam.Inputs.tagAccessed, WbRam.Inputs.ramAccessed]

/-- The contents after a word transaction. -/
def afterWord (c : Contents g) (write : Bool) (a x : BitVec 32) : Contents g :=
  if write then c.write wbSelWord a x else c

theorem PortAnswered.finish (h : PortAnswered s write a) (hi : i.External)
    (haddr : i.extTranAddr = a) (ha : periphSelect a = wbAccessRam) :
    PortRests (s.step i) ∧
      (s.step i).ram.contents = afterWord s.ram.contents write a i.extTranData ∧
      (s.step i).ext.data = (if write then s.ext.data else s.ram.contents.words (wordAddr g a)) ∧
      (s.step i).ext.tranFinished = !i.extTranClear := by
  subst haddr
  have hack : s.extAck i = true := (extAck_ram hi ha).trans h.ack
  have hacc : (s.extMaster i).accessRam = true := by
    simp [State.extMaster, Master.accessRam, ha]
  refine ⟨?_, ?_, ?_, ?_⟩
  · constructor
    case started => simp [State.step, WbExt.State.step, State.extIn, hi.rst, h.started, hack]
    all_goals simp [State.step, ramIn_external hi, WbRam.State.step, WbRam.State.control, h.state]
  · have hlt := (wordAddr g i.extTranAddr).isLt
    cases write <;>
      simp [State.step, ramIn_external hi, WbRam.State.contents, WbRam.State.step,
        GenericRam.State.step, h.ramWe, h.tagWe, afterWord, Contents.write, h.sel,
        dataToWrite, hlt, wbSelWord, wbSelTag, wbSelByte, wbSelHalf]
  · have hdata : s.masterData i = s.ram.contents.words (wordAddr g i.extTranAddr) := by
      rw [← h.dataOut]
      simp [State.masterData, master_external hi, State.extMaster, Master.accessTimer,
        Master.accessRam, ha, ramIn_external hi, WbRam.State.dataOut, h.started, h.sel,
        WbRam.Inputs.ramAccessed, WbRam.Inputs.accessLoadStore, WbRam.Inputs.accessByte,
        WbRam.Inputs.accessHalf, WbRam.Inputs.accessWord, wbSelWord, wbSelByte, wbSelHalf,
        wbAccessRam, wbAccessTimer]
    simp [State.step, WbExt.State.step, State.extIn, hi.rst, h.started, hack, h.we, hdata]
  · cases hc : i.extTranClear <;>
      simp [State.step, WbExt.State.step, State.extIn, hi.rst, h.started, hack, hc]

end TagSoc.Soc
