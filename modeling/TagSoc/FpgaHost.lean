import TagSoc.Fpga
import TagSoc.ImageLoader
import TagSoc.Returns

/-!
# The host's program

`dut_wrapper/fpga.py`: the class through which the host resets the system, fills its
memory and steps its processor, all of it by accesses to the registers of the bridge.
It keeps a copy of the control register, which every look at that register replaces.
An assertion that does not hold ends the program.

A rule for each kind of access: what holds of the registers and the system before it and
after it, whatever its timing.
-/
namespace TagSoc.Fpga
open Soc WbRam Programs

/-! ## The program -/

/-- The bridge, the copy of its control register, and how long each of the next
accesses will take. `history` is what the host has driven so far. -/
structure Host (g : ℕ) where
  fpga : State g
  controlReg : BitVec 16
  times : ℕ → Timing
  history : List Pins

/-- An assertion that does not hold, or an exception of the image loader. -/
inductive Failure where
  | assertion
  | image (e : ImageLoader.Error)
deriving Repr, DecidableEq

abbrev H (g : ℕ) := StateT (Host g) (Except Failure)

variable {g : ℕ}

def Host.drive (h : Host g) (ps : List Pins) : Host g :=
  { h with
    fpga := h.fpga.run ps
    times := fun n => h.times (n + 1)
    history := h.history ++ ps }

def transfer (a : Access) : H g (BitVec 16) := fun h =>
  .ok ((h.fpga.access a (h.times 0)).1, h.drive (a.clocks (h.times 0)))

def readShort (addr : BitVec 25) : H g (BitVec 16) := transfer (.read addr)

def writeShort (addr : BitVec 25) (x : BitVec 16) : H g Unit := do
  let _ ← transfer (.write addr x)

/-- The reset line takes the given level, for one clock or more. -/
def setReset (level : Bool) : H g Unit := fun h =>
  .ok ((), h.drive (List.replicate (1 + (h.times 0).gap) { idle with reset := level }))

def sleep : H g Unit := fun h =>
  .ok ((), h.drive (List.replicate (h.times 0).gap idle))

def assert (b : Bool) : H g Unit := if b then pure () else throw .assertion

def registerSanity : BitVec 25 := 0x0#25
def registerAddrLow : BitVec 25 := 0x2#25
def registerAddrHigh : BitVec 25 := 0x4#25
def registerDataInLow : BitVec 25 := 0x6#25
def registerDataInHigh : BitVec 25 := 0x8#25
def registerControl : BitVec 25 := 0xa#25
def registerDataOutLow : BitVec 25 := 0xc#25
def registerDataOutHigh : BitVec 25 := 0xe#25
def registerCpuPcLow : BitVec 25 := 0x10#25
def registerCpuPcHigh : BitVec 25 := 0x12#25
def registerCpuState : BitVec 25 := 0x14#25
def registerSocMemSizeLow : BitVec 25 := 0x16#25
def registerSocMemSizeHigh : BitVec 25 := 0x18#25
def registerInsnBytesLow : BitVec 25 := 0x1a#25
def registerInsnBytesHigh : BitVec 25 := 0x1c#25
def saneConstant : BitVec 16 := 0x50FE#16
def stateCpuIdle : BitVec 16 := 24#16
def stateCpuMask : BitVec 16 := 0x1f#16
def stateCpuTagsIrqMask : BitVec 16 := 0x80#16
def stateCpuTimerIrqMask : BitVec 16 := 0x40#16

/-! The copy of the control register. -/

def updateControlRegister : H g Unit := do
  writeShort registerControl (← get).controlReg

def setBit (x : BitVec 16) (k : ℕ) : BitVec 16 := x ||| 1#16 <<< k

def setControlBit (k : ℕ) : H g Unit :=
  modify fun h => { h with controlReg := setBit h.controlReg k }

def clearControlBit (k : ℕ) : H g Unit :=
  modify fun h => { h with controlReg := clearBit h.controlReg k }

def checkControlBit (k : ℕ) : H g Bool := do
  let x ← readShort registerControl
  modify fun h => { h with controlReg := x }
  pure (x.getLsbD k)

/-! Registers of thirty-two bits. -/

/-- `(high << 16) | low`. -/
def joined (high low : BitVec 16) : BitVec 32 := high.setWidth 32 <<< 16 ||| low.setWidth 32

def readPair (low high : BitVec 25) : H g (BitVec 32) := do
  let l ← readShort low
  let h ← readShort high
  pure (joined h l)

def writePair (low high : BitVec 25) (x : BitVec 32) : H g Unit := do
  writeShort low (x.extractLsb' 0 16)
  writeShort high (x.extractLsb' 16 16)
  assert (x == (← readPair low high))

def setAddress (address : BitVec 32) : H g Unit :=
  writePair registerAddrLow registerAddrHigh address

def setDataIn (data : BitVec 32) : H g Unit :=
  writePair registerDataInLow registerDataInHigh data

def getDataOut : H g (BitVec 32) := readPair registerDataOutLow registerDataOutHigh
def getCpuPc : H g (BitVec 32) := readPair registerCpuPcLow registerCpuPcHigh
def getSocRamSize : H g (BitVec 32) := readPair registerSocMemSizeLow registerSocMemSizeHigh
def getPrevInsnBytes : H g (BitVec 32) := readPair registerInsnBytesLow registerInsnBytesHigh

/-! Transactions. -/

def prepareForWriteTransaction : H g Unit := setControlBit controlTranWe

def startTransaction : H g Unit := do
  setControlBit controlTranStart
  updateControlRegister

def checkTransactionFinished : H g Bool := checkControlBit controlTranReady

def clearTransactionFinished : H g Unit := do
  clearControlBit controlTranWe
  setControlBit controlTranClean
  updateControlRegister
  clearControlBit controlTranClean
  updateControlRegister

/-- The loop that waits for the end of a transaction. -/
def finished : ℕ → H g Bool
  | 0 => pure false
  | n + 1 => do
      if ← checkTransactionFinished then pure true else finished n

def readWordRam (address : BitVec 32) : H g (BitVec 32) := do
  setAddress address
  startTransaction
  if ← finished 10 then
    clearTransactionFinished
    getDataOut
  else pure 0#32

def writeWordRam (address data : BitVec 32) : H g Bool := do
  setAddress address
  setDataIn data
  prepareForWriteTransaction
  startTransaction
  if ← finished 10 then
    clearTransactionFinished
    pure true
  else pure false

/-! Sessions. -/

def fpgaInit : H g Unit := do
  setReset false
  setReset true

def checkSanity : H g Bool := do
  let x ← readShort registerSanity
  assert (x == saneConstant)
  pure (x == saneConstant)

def haltSoc : H g Unit := do
  setControlBit controlCpuHalt
  clearControlBit controlSocReset
  setControlBit controlBusMaster
  setControlBit controlTranSizeLow
  setControlBit controlTranSizeHigh
  updateControlRegister

def runSoc (singleStep : Bool) : H g Unit := do
  clearControlBit controlCpuHalt
  setControlBit controlCpuReset
  clearControlBit controlBusMaster
  updateControlRegister
  clearControlBit controlCpuReset
  clearControlBit controlSocReset
  if singleStep then setControlBit controlCpuSinglestep
  updateControlRegister

/-! The processor. -/

def getCpuState : H g (BitVec 16 × BitVec 16 × BitVec 16) := do
  let data ← readShort registerCpuState
  pure (data &&& stateCpuMask, data &&& stateCpuTagsIrqMask, data &&& stateCpuTimerIrqMask)

/-- The answer of `get_cpu_status`. -/
structure CpuStatus where
  pc : BitVec 32
  state : BitVec 16
  tags : BitVec 16
  timer : BitVec 16
  prevInsnBytes : BitVec 32
deriving Repr, DecidableEq

def getCpuStatus (halt : Bool) : H g CpuStatus := do
  if halt then
    setControlBit controlCpuHalt
    updateControlRegister
  let (state, tags, timer) ← getCpuState
  let pc ← getCpuPc
  let prev ← getPrevInsnBytes
  if halt then
    clearControlBit controlCpuHalt
    updateControlRegister
  pure ⟨pc, state, tags, timer, prev⟩

def cpuIsIdle : H g Bool := do
  pure ((← getCpuStatus false).state == stateCpuIdle)

/-- The loop of `do_step`. -/
def awaitIdle : ℕ → H g Bool
  | 0 => pure false
  | n + 1 => do
      if ← cpuIsIdle then pure true
      else
        sleep
        awaitIdle n

def doStep : H g Unit := do
  assert (← checkControlBit controlCpuSinglestep)
  assert (← awaitIdle 10)
  setControlBit controlCpuDoStep
  updateControlRegister

/-! `ImageLoader.load_image`, with the bridge as the memory. -/

def ofExcept {α : Type} : Except ImageLoader.Error α → H g α
  | .ok a => pure a
  | .error e => throw (.image e)

/-- The halves of the data are converted to `uint16_t` at the call. -/
def writeNumber (address : ℕ) (data : ℤ) : H g Bool :=
  if 0 ≤ data ∧ data < 2 ^ 32 then writeWordRam (BitVec.ofNat 32 address) (BitVec.ofInt 32 data)
  else throw (.image .overflowError)

def writeWords : ℕ → List ℤ → H g Unit
  | _, [] => pure ()
  | address, word :: words => do
      let _ ← writeNumber address word
      writeWords (address + 4) words

def readWords (ramSize : ℕ) : H g (List ℤ) :=
  (List.range ((ramSize + 3) / 4)).mapM fun k => do
    pure ((← readWordRam (BitVec.ofNat 32 (4 * k))).toNat : ℤ)

/-- The address is the one that the loader takes for the lowest. -/
def loadImage (lines : List HexText.Text) : H g ℤ := do
  let ramSize ← getSocRamSize
  let scan ← ofExcept ((lines.map HexText.strip).foldlM ImageLoader.Scan.line
    (.initial ramSize.toNat))
  let wordsToWrite ← ofExcept (ImageLoader.pack scan.bytesToWrite)
  writeWords 0 wordsToWrite
  let wordsToRead ← readWords ramSize.toNat
  assert (wordsToWrite == wordsToRead)
  pure scan.minAddress

/-! ## Clocks and registers -/

/-- What the clocks without an access keep. -/
def Steady (P : Core g → Prop) : Prop := ∀ c, P c → P (tick c)

theorem Steady.ticks {P : Core g → Prop} (hP : Steady P) {c : Core g} (h : P c) (n : ℕ) :
    P (tick^[n] c) := by
  induction n with
  | zero => exact h
  | succ n ih =>
      rw [← tick_ticks]
      exact hP _ ih

/-- The bridge waits for an access, its registers and the system are as `P` says, and the
copy of the control register is `y`. -/
structure At (P : Core g → Prop) (y : BitVec 16) (h : Host g) : Prop where
  ready : Ready h.fpga
  core : P h.fpga.core
  copy : h.controlReg = y

section accesses
variable {P R Q : Core g → Prop} {h : Host g} {y : BitVec 16}

theorem At.readShort (hp : At P y h) (hPQ : ∀ c, P c → Q (tick c)) (hQ : Steady Q)
    {addr : BitVec 25} {k : BitVec 4} (hk : addr.extractLsb' 1 4 = k) :
    Returns (readShort addr) h fun v h' => At Q y h' ∧ ∃ c, Q c ∧ v = toCpu c.1 c.2 k := by
  subst hk
  obtain ⟨hv, hr, hc⟩ := hp.ready.read addr (h.times 0)
  refine Returns.of_eq (p := Fpga.readShort addr) rfl
    ⟨⟨?_, ?_, hp.copy⟩, tick^[2] h.fpga.core, ?_, hv⟩
  · change Ready (h.fpga.run _)
    rwa [run_clocks]
  · change Q (h.fpga.run _).core
    rw [run_clocks, hc, show 5 + (h.times 0).hold + (h.times 0).gap =
      4 + (h.times 0).hold + (h.times 0).gap + 1 by omega, Function.iterate_succ_apply]
    exact hQ.ticks (hPQ _ hp.core) _
  · exact hQ _ (hPQ _ hp.core)

/-- A write is made between clocks that keep `R` and clocks that keep `Q`. -/
theorem At.writeShort (hp : At P y h) (hPR : ∀ c, P c → R (tick c)) (hR : Steady R)
    (hQ : Steady Q)
    {addr : BitVec 25} {k : BitVec 4} (hk : addr.extractLsb' 1 4 = k) {x : BitVec 16}
    (hw : ∀ c, R c → Q (tick (tick (tickWrite c k x)))) :
    Returns (writeShort addr x) h fun _ h' => At Q y h' := by
  subst hk
  obtain ⟨hr, hc⟩ := hp.ready.write addr x (h.times 0)
  refine Returns.of_eq (p := Fpga.writeShort addr x) rfl ⟨?_, ?_, hp.copy⟩
  · change Ready (h.fpga.run _)
    rwa [run_clocks]
  · change Q (h.fpga.run _).core
    rw [run_clocks, hc, show 2 + (h.times 0).hold + (h.times 0).gap =
      (h.times 0).hold + (h.times 0).gap + 1 + 1 by omega, Function.iterate_succ_apply,
      Function.iterate_succ_apply]
    exact hQ.ticks (hw _ (hR _ (hPR _ hp.core))) _

theorem At.setControlBit (hp : At P y h) (k : ℕ) :
    Returns (setControlBit k) h fun _ h' => At P (setBit y k) h' :=
  Returns.modify ⟨hp.ready, hp.core, congrArg (setBit · k) hp.copy⟩

theorem At.clearControlBit (hp : At P y h) (k : ℕ) :
    Returns (clearControlBit k) h fun _ h' => At P (clearBit y k) h' :=
  Returns.modify ⟨hp.ready, hp.core, congrArg (clearBit · k) hp.copy⟩

theorem At.updateControlRegister (hp : At P y h) (hPR : ∀ c, P c → R (tick c)) (hR : Steady R)
    (hQ : Steady Q) (hw : ∀ c, R c → Q (tick (tick (tickWrite c regControl y)))) :
    Returns updateControlRegister h fun _ h' => At Q y h' := by
  refine Returns.bind (Returns.get (Q := fun a b => a = h ∧ b = h) ⟨rfl, rfl⟩) ?_
  rintro a b ⟨rfl, rfl⟩
  rw [hp.copy]
  exact hp.writeShort hPR hR hQ (by decide) hw

theorem At.assert {b : Bool} (hp : At P y h) (hb : b = true) :
    Returns (assert b) h fun _ h' => At P y h' := by
  rw [Fpga.assert, if_pos hb]
  exact Returns.pure hp

end accesses

/-! ## The control register -/

theorem getLsbD_setBit (x : BitVec 16) {k : ℕ} (hk : k < 16) (j : ℕ) :
    (setBit x k).getLsbD j = (x.getLsbD j || j == k) := by
  by_cases hj : j < 16
  · rcases Nat.lt_trichotomy j k with h | h | h
    · simp [setBit, hj, h, h.ne]
    · subst h
      simp [setBit, hj]
    · have hne : j - k ≠ 0 := by omega
      simp [setBit, hj, Nat.not_lt.mpr h.le, h.ne', hne]
  · have hne : j ≠ k := by omega
    simp [setBit, BitVec.getLsbD_of_ge x j (by omega), hj, hne]

theorem clearBit_setBit {x : BitVec 16} {k : ℕ} (hk : k < 16) (h : x.getLsbD k = false) :
    clearBit (setBit x k) k = x := by
  apply BitVec.eq_of_getLsbD_eq
  intro j hj
  rw [getLsbD_clearBit, getLsbD_setBit x hk]
  by_cases hjk : j = k
  · rw [hjk, h, bne_self_eq_false, Bool.and_false]
  · rw [bne, beq_false_of_ne hjk, Bool.or_false, Bool.not_false, Bool.and_true]

/-- The external master has the bus, the processor is halted, and no command is given. -/
structure Calm (x : BitVec 16) : Prop where
  rst : x.getLsbD controlSocReset = false
  halt : x.getLsbD controlCpuHalt = true
  master : x.getLsbD controlBusMaster = true
  start : x.getLsbD controlTranStart = false
  step : x.getLsbD controlCpuDoStep = false

/-- Transactions are of words. -/
structure Plain (x : BitVec 16) : Prop extends Calm x where
  clean : x.getLsbD controlTranClean = false
  sizeLow : x.getLsbD controlTranSizeLow = true
  sizeHigh : x.getLsbD controlTranSizeHigh = true

section registers
variable {r new : Regs} {k : BitVec 4} {x : BitVec 16}

theorem takeBackCommands_calm (hs : (r regControl).getLsbD controlTranStart = false)
    (hd : (r regControl).getLsbD controlCpuDoStep = false) : takeBackCommands r new = new := by
  simp only [takeBackCommands, takeBack, hs, hd, Bool.false_eq_true, if_false,
    Regs.set_get]

/-- A bit that is set before and after a write would be taken back. -/
theorem writeReg_calm (h : Calm (r regControl)) (hk : k.toNat < 9)
    (hclean : (r regControl).getLsbD controlTranClean = true →
      (Regs.set r k x regControl).getLsbD controlTranClean = false) :
    takeBackCommands r (writeReg r k x) = Regs.set r k x := by
  rw [takeBackCommands_calm h.start h.step, writeReg, if_pos hk]
  simp only [takeBack, h.start, h.step, Bool.false_eq_true, if_false]
  split_ifs with hc
  · rw [clearBit_of_not (hclean hc), Regs.set_get]
  · rw [Regs.set_get]

theorem external_of_calm (h : Calm (r regControl)) : (socInputs r).External :=
  ⟨h.rst, h.master⟩

end registers

/-! ## The port behind the registers -/

/-- The address and the data that the registers hold. -/
def Regs.addr (r : Regs) : BitVec 32 := r regHighAddr ++ r regLowAddr
def Regs.dataIn (r : Regs) : BitVec 32 := r regHighDataIn ++ r regLowDataIn

/-- No transaction is under way. The processor has not left its first state. -/
structure Rest (r : Regs) (m : Contents g) (d : BitVec 32) (f : Bool) (c : Core g) : Prop where
  regs : c.1 = r
  port : PortRests c.2
  contents : c.2.ram.contents = m
  data : c.2.ext.data = d
  finished : c.2.ext.tranFinished = f
  parked : c.2.cpu.state = .reset

/-- A transaction waits for a slave. -/
structure Waits (r : Regs) (write : Bool) (m : Contents g) (d : BitVec 32) (f : Bool)
    (c : Core g) : Prop where
  regs : c.1 = r
  port : PortAsks c.2 write
  contents : c.2.ram.contents = m
  data : c.2.ext.data = d
  finished : c.2.ext.tranFinished = f
  parked : c.2.cpu.state = .reset

section clocks
variable {r : Regs} {m : Contents g} {d : BitVec 32} {f we : Bool} {c : Core g} {k : BitVec 4}
  {x : BitVec 16}

theorem tick_regs (h : Calm (c.1 regControl)) : (tick c).1 = c.1 :=
  takeBackCommands_calm h.start h.step

theorem Rest.tick (hr : Calm (r regControl)) (h : Rest r m d f c) :
    Rest r m d (!(r regControl).getLsbD controlTranClean && f) (tick c) := by
  obtain ⟨rfl, hport, hm, hd, hf, hcpu⟩ := h
  have hext := external_of_calm hr
  have hkept := hport.kept hext
  exact ⟨tick_regs hr, hport.step hext hr.start, hkept.contents.trans hm, hkept.data.trans hd,
    by rw [← hf]; exact hkept.finished, parked_step hcpu hr.halt⟩

theorem Rest.steady (hr : Calm (r regControl))
    (hf : (r regControl).getLsbD controlTranClean = true → f = false) :
    Steady (Rest (g := g) r m d f) := by
  intro c h
  have hnext := h.tick hr
  cases hc : (r regControl).getLsbD controlTranClean with
  | false => simpa [hc] using hnext
  | true => simpa [hc, hf hc] using hnext

theorem Waits.steady (hr : Calm (r regControl))
    (hclean : (r regControl).getLsbD controlTranClean = false)
    (ha : periphSelect r.addr = wbAccessNone) : Steady (Waits (g := g) r we m d f) := by
  intro c h
  obtain ⟨rfl, hport, hm, hd, hf, hcpu⟩ := h
  obtain ⟨hasks, hkept⟩ := hport.step_none (external_of_calm hr) ha
  have hfin := hkept.finished
  rw [show (socInputs c.1).extTranClear = false from hclean] at hfin
  exact ⟨tick_regs hr, hasks, hkept.contents.trans hm, hkept.data.trans hd,
    hfin.trans (by rw [hf]; rfl), parked_step hcpu hr.halt⟩

/-- The memory answers in the second clock. -/
theorem Waits.finish (hr : Calm (r regControl))
    (hclean : (r regControl).getLsbD controlTranClean = false)
    (ha : periphSelect r.addr = wbAccessRam) (h : Waits r we m d f c) :
    Rest r (afterWord m we r.addr r.dataIn)
      (if we then d else m.words (wordAddr g r.addr)) true (Fpga.tick (Fpga.tick c)) := by
  obtain ⟨rfl, hport, hm, hd, hf, hcpu⟩ := h
  have hext := external_of_calm hr
  obtain ⟨hans, hkept⟩ := hport.answer hext ha
  have hregs := tick_regs hr
  have hdone := hans.finish (i := socInputs (Fpga.tick c).1) (by rw [hregs]; exact hext)
    (by rw [hregs]) ha
  obtain ⟨h₁, h₂, h₃, h₄⟩ := hdone
  refine ⟨?_, h₁, ?_, ?_, ?_, ?_⟩
  · rw [tick_regs (by rw [hregs]; exact hr), hregs]
  · refine h₂.trans ?_
    rw [hkept.contents, hm, hregs]
    rfl
  · refine h₃.trans ?_
    rw [hkept.contents, hkept.data, hm, hd]
    rfl
  · refine h₄.trans ?_
    rw [hregs, show (socInputs c.1).extTranClear = false from hclean]
    rfl
  · exact parked_step (parked_step hcpu hr.halt) (by rw [hregs]; exact hr.halt)

theorem Rest.write (hr : Calm (r regControl)) (hk : k.toNat < 9)
    (hclean : (r regControl).getLsbD controlTranClean = true →
      (Regs.set r k x regControl).getLsbD controlTranClean = false)
    (h : Rest r m d f c) :
    Rest (Regs.set r k x) m d (!(r regControl).getLsbD controlTranClean && f)
      (tickWrite c k x) := by
  obtain ⟨-, hport, hm, hd, hf, hcpu⟩ := h.tick hr
  obtain rfl := h.regs
  exact ⟨writeReg_calm hr hk hclean, hport, hm, hd, hf, hcpu⟩

theorem Waits.write (hr : Calm (r regControl))
    (hclean : (r regControl).getLsbD controlTranClean = false)
    (ha : periphSelect r.addr = wbAccessNone) (hk : k.toNat < 9) (h : Waits r we m d f c) :
    Waits (Regs.set r k x) we m d f (tickWrite c k x) := by
  obtain ⟨-, hport, hm, hd, hf, hcpu⟩ := Waits.steady hr hclean ha c h
  obtain rfl := h.regs
  exact ⟨writeReg_calm hr hk (fun hc => absurd (hclean.symm.trans hc) Bool.false_ne_true), hport,
    hm, hd, hf, hcpu⟩

/-- The clock in which the start bit of a plain control word is up. -/
theorem Rest.start (hx : Plain x)
    (h : Rest (Regs.set r regControl (setBit x controlTranStart)) m d f c) :
    Waits (Regs.set r regControl x) (x.getLsbD controlTranWe) m d f (Fpga.tick c) := by
  obtain ⟨hregs, hport, hm, hd, hf, hcpu⟩ := h
  have hctl : c.1 regControl = setBit x controlTranStart := by rw [hregs, Regs.set_self]
  have hbit : ∀ j, (c.1 regControl).getLsbD j = (x.getLsbD j || j == controlTranStart) := by
    intro j
    rw [hctl, getLsbD_setBit x (by decide)]
  have hext : (socInputs c.1).External :=
    ⟨(hbit _).trans (by rw [hx.rst]; rfl), (hbit _).trans (by rw [hx.master]; rfl)⟩
  have hkept := hport.kept hext
  have hstart : (socInputs c.1).extTranStart = true := (hbit _).trans (by rw [hx.start]; rfl)
  have hwe : (socInputs c.1).extTranWrite = x.getLsbD controlTranWe :=
    (hbit _).trans (Bool.or_false _)
  have hclear : (socInputs c.1).extTranClear = false := (hbit _).trans (by rw [hx.clean]; rfl)
  have hsize : (socInputs c.1).extTranSize = 3#2 := by
    simp only [socInputs, hbit, hx.sizeLow, hx.sizeHigh]
    rfl
  have hasks := hport.start hext hstart hsize
  rw [hwe] at hasks
  have hhalt : (socInputs c.1).extCpuHalt = true := (hbit _).trans (by rw [hx.halt]; rfl)
  refine ⟨?_, hasks, hkept.contents.trans hm, hkept.data.trans hd, ?_, parked_step hcpu hhalt⟩
  · have hstep : (c.1 regControl).getLsbD controlCpuDoStep = false :=
      (hbit _).trans (by rw [hx.step]; rfl)
    change takeBackCommands c.1 c.1 = _
    simp only [takeBackCommands, takeBack, show (c.1 regControl).getLsbD controlTranStart = true from
      hstart, hstep, Bool.false_eq_true, if_false, if_true]
    rw [hctl, clearBit_setBit (by decide) hx.start, hregs, Regs.set_set]
  · rw [← hf]
    exact hkept.finished.trans (by rw [hclear]; rfl)

end clocks

/-! ## What the registers show -/

/-- The registers that hold what was written to them. -/
def storage : List (BitVec 4) := [regSanity, regLowAddr, regHighAddr, regLowDataIn, regHighDataIn]

theorem toCpu_storage {k : BitVec 4} (hk : k ∈ storage) (r : Regs) (soc : Soc.State g) :
    toCpu r soc k = r k := by
  simp only [storage, List.mem_cons, List.not_mem_nil, or_false] at hk
  rcases hk with rfl | rfl | rfl | rfl | rfl <;> rfl

/-- The control register as it is read: the ready bit is the port's. -/
def controlValue (x : BitVec 16) (f : Bool) : BitVec 16 :=
  x.extractLsb' 7 9 ++ BitVec.ofBool f ++ x.extractLsb' 0 6

theorem toCpu_control (r : Regs) (soc : Soc.State g) :
    toCpu r soc regControl = controlValue (r regControl) soc.ext.tranFinished := rfl

theorem getLsbD_controlValue (x : BitVec 16) (f : Bool) (j : ℕ) :
    (controlValue x f).getLsbD j = if j = controlTranReady then f else x.getLsbD j := by
  rw [controlValue, BitVec.getLsbD_append, BitVec.getLsbD_append, BitVec.getLsbD_extractLsb',
    BitVec.getLsbD_extractLsb', BitVec.getLsbD_ofBool, Nat.zero_add]
  rcases Nat.lt_trichotomy j controlTranReady with h | h | h
  · have h6 : j < 6 := h
    simp [h6, h.ne]
  · subst h
    rfl
  · have h6 : 6 < j := h
    have hne : j - 6 ≠ 0 := by omega
    rw [if_neg h.ne', if_neg (by omega), if_neg (by omega), show 7 + (j - 6 - 1) = j by omega]
    by_cases hj : j < 16
    · rw [decide_eq_true (by omega), Bool.true_and]
    · rw [decide_eq_false (by omega), BitVec.getLsbD_of_ge x j (by omega), Bool.false_and]

theorem Plain.controlValue {x : BitVec 16} (h : Plain x) (f : Bool) : Plain (controlValue x f) := by
  obtain ⟨⟨h₁, h₂, h₃, h₄, h₅⟩, h₆, h₇, h₈⟩ := h
  constructor
  case toCalm => constructor <;> rwa [getLsbD_controlValue, if_neg (by decide)]
  all_goals rwa [getLsbD_controlValue, if_neg (by decide)]

theorem joined_halves (x : BitVec 32) :
    joined (x.extractLsb' 16 16) (x.extractLsb' 0 16) = x := by
  apply BitVec.eq_of_getLsbD_eq
  intro j hj
  rw [joined, BitVec.getLsbD_or, BitVec.getLsbD_shiftLeft, BitVec.getLsbD_setWidth,
    BitVec.getLsbD_setWidth, BitVec.getLsbD_extractLsb', BitVec.getLsbD_extractLsb', Nat.zero_add]
  by_cases h : j < 16
  · simp [h, hj]
  · have hlt : j - 16 < 16 ∧ j - 16 < 32 := by omega
    simp [h, hj, hlt, show 16 + (j - 16) = j by omega]

theorem append_halves (x : BitVec 32) : x.extractLsb' 16 16 ++ x.extractLsb' 0 16 = x := by
  apply BitVec.eq_of_getLsbD_eq
  intro j hj
  rw [BitVec.getLsbD_append, BitVec.getLsbD_extractLsb', BitVec.getLsbD_extractLsb', Nat.zero_add]
  by_cases h : j < 16
  · simp [h]
  · simp [h, show 16 + (j - 16) = j by omega, show j - 16 < 16 by omega]

section pairs
variable {P Q R : Core g → Prop} {h : Host g} {y : BitVec 16} {low high : BitVec 25}
  {k j : BitVec 4} (h₁ : low.extractLsb' 1 4 = k) (h₂ : high.extractLsb' 1 4 = j)
include h₁ h₂

theorem At.readPair (hp : At P y h) (hP : Steady P) {x : BitVec 32}
    (hv : ∀ c, P c → toCpu c.1 c.2 k = x.extractLsb' 0 16 ∧ toCpu c.1 c.2 j = x.extractLsb' 16 16) :
    Returns (readPair low high) h fun v h' => v = x ∧ At P y h' := by
  refine (hp.readShort hP hP h₁).bind ?_
  rintro l s₁ ⟨hp₁, c₁, hc₁, rfl⟩
  refine (hp₁.readShort hP hP h₂).bind ?_
  rintro u s₂ ⟨hp₂, c₂, hc₂, rfl⟩
  refine Returns.pure ⟨?_, hp₂⟩
  rw [(hv c₁ hc₁).1, (hv c₂ hc₂).2, joined_halves]

/-- The assertion in it holds where both registers can be read back. -/
theorem At.writePair (hp : At P y h) (hP : Steady P) (hQ : Steady Q) (hR : Steady R) {x : BitVec 32}
    (hw₁ : ∀ c, P c → Q (tick (tick (tickWrite c k (x.extractLsb' 0 16)))))
    (hw₂ : ∀ c, Q c → R (tick (tick (tickWrite c j (x.extractLsb' 16 16)))))
    (hv : ∀ c, R c → toCpu c.1 c.2 k = x.extractLsb' 0 16 ∧ toCpu c.1 c.2 j = x.extractLsb' 16 16) :
    Returns (writePair low high x) h fun _ h' => At R y h' := by
  refine (hp.writeShort hP hP hQ h₁ hw₁).bind fun _ s₁ hp₁ => ?_
  refine (hp₁.writeShort hQ hQ hR h₂ hw₂).bind fun _ s₂ hp₂ => ?_
  refine (hp₂.readPair h₁ h₂ hR hv).bind ?_
  rintro v s₃ ⟨rfl, hp₃⟩
  exact hp₃.assert (by simp)

end pairs

end TagSoc.Fpga
