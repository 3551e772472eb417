import TagSoc.StepAlike
import TagSoc.UartRun

/-!
# A system in single steps and one that runs freely

The slaves see the same requests, so they give the same answers, with two
exceptions: the timer counts the clocks, and the serial port answers a store to its
transmit register when the byte is sent. `Alike.step` is the clock that both take.
-/
namespace TagSoc.WbRam

variable {g : ℕ}

/-- The memories are equal but for what an idle one shows on its read ports. -/
def Alike (a b : State g) : Prop :=
  ∃ d e, b = { a with ram := ⟨a.ram.mem, d⟩, tag := ⟨a.tag.mem, e⟩ } ∧
    (a.state ≠ .idle → d = a.ram.dataOut ∧ e = a.tag.dataOut)

theorem Alike.refl (a : State g) : Alike a a :=
  ⟨a.ram.dataOut, a.tag.dataOut, rfl, fun _ => ⟨rfl, rfl⟩⟩

section
variable {a b : State g} {i : Inputs}

theorem Alike.step (h : Alike a b) (hs : Serving a i) : b.step i = a.step i := by
  obtain ⟨d, e, rfl, hout⟩ := h
  by_cases hidle : a.state = .idle
  · have hram := hs.ramWe
    have htag := hs.tagWe
    rw [hs.idle hidle] at hram htag
    simp [State.step, State.control, hidle, hram, htag, GenericRam.State.step]
  · obtain ⟨rfl, rfl⟩ := hout hidle
    rfl

/-- A clock without a request changes what is shown on the read ports only. -/
theorem rest_step (hs : Serving a i) (hidle : a.state = .idle) (hno : i.requests = false)
    (hmis : a.tagMismatch = false) (hr : i.rst = false) (hc : i.clearMismatch = false) :
    ∃ d e, a.step i = { a with ram := ⟨a.ram.mem, d⟩, tag := ⟨a.tag.mem, e⟩ } := by
  have hno' : i.ramAccessed = false ∧ i.tagAccessed = false := by
    simpa [Inputs.requests] using hno
  have hram := hs.ramWe
  have htag := hs.tagWe
  rw [hs.idle hidle] at hram htag
  refine ⟨a.ram.mem (wordAddr g i.addr), a.tag.mem (granuleAddr g i.addr), ?_⟩
  simp [State.step, State.control, hidle, hr, hno', hmis, hc, hram, htag, hs.idle hidle,
    GenericRam.State.step]

/-- Either of the two may be idle for some clocks. -/
theorem Alike.rest (h : Alike a b) (hidle : a.state = .idle) (d : BitVec 32) (e : BitVec 4) :
    Alike { a with ram := ⟨a.ram.mem, d⟩, tag := ⟨a.tag.mem, e⟩ } b ∧
      Alike a { b with ram := ⟨b.ram.mem, d⟩, tag := ⟨b.tag.mem, e⟩ } := by
  obtain ⟨d', e', rfl, -⟩ := h
  exact ⟨⟨d', e', rfl, fun hne => absurd hidle hne⟩, ⟨d, e, rfl, fun hne => absurd hidle hne⟩⟩

end

end TagSoc.WbRam

namespace TagSoc.WbTimer

theorem step_ack {s : State} {i : Inputs} (hr : i.rst = false) :
    (s.step i).ack = (i.cyc && !s.ack) := by
  simp [State.step, hr]

end TagSoc.WbTimer

namespace TagSoc.WbUart

section
variable {a b : State} {i : Inputs}

/-- The bus sees these three registers only. -/
theorem step_bus (hr : i.rst = false) : (a.step i).ack = (a.busSide i).ack ∧
    (a.step i).dataOut = (a.busSide i).dataOut ∧
    (a.step i).cfgDivider = (a.busSide i).cfgDivider := by
  simp [State.step, hr]

theorem busSide_cfgDivider (h : b.cfgDivider = a.cfgDivider) :
    (b.busSide i).cfgDivider = (a.busSide i).cfgDivider := by
  simp only [State.busSide]
  split_ifs <;> simp [h]

theorem busSide_dataOut (h : b.cfgDivider = a.cfgDivider)
    (hd : (i.cyc && i.stb) = true → b.dataOut = a.dataOut) :
    (b.busSide i).dataOut = (a.busSide i).dataOut := by
  simp only [State.busSide]
  split_ifs with hacc <;> simp [h, hd, hacc]

theorem busSide_ack (h : (i.cyc && i.stb) = true →
    b.ack = a.ack ∧ (i.regSel = uartAddrDataToTransmit → i.we = false)) :
    (b.busSide i).ack = (a.busSide i).ack := by
  unfold State.busSide
  by_cases hacc : (i.cyc && i.stb) = true
  · obtain ⟨hack, hno⟩ := h hacc
    rw [if_pos hacc, if_pos hacc]
    by_cases ht : i.regSel = uartAddrDataToTransmit
    · simp [ht, hno ht, hack, uartAddrDataToTransmit, uartAddrDivider, uartAddrSanity]
    · rw [if_neg ht, if_neg ht]
      split_ifs <;> first | rfl | exact hack
  · rw [if_neg hacc, if_neg hacc]

end

end TagSoc.WbUart

namespace TagSoc.Soc
open Clocked Cpu

variable {g : ℕ}

/-! ## The two systems -/

/-- The processor stores to the transmit register of the serial port. -/
def State.transmits (s : State g) : Bool :=
  s.cpu.bus.cyc && s.cpu.bus.we && s.cpuMaster.accessUart &&
    s.cpu.bus.adr.extractLsb' 2 2 == WbUart.uartAddrDataToTransmit

theorem transmits_congr {s t : State g} (h : s.cpu.bus = t.cpu.bus) :
    s.transmits = t.transmits := by
  simp [State.transmits, State.cpuMaster, h]

/-- Nothing is at the address of the request. -/
def State.unmapped (s : State g) : Bool :=
  !s.cpuMaster.accessTimer && !s.cpuMaster.accessRam && !s.cpuMaster.accessUart

/-- The system `t` runs freely and does what `s` does in single steps. The timer and
the shift side of the serial port are left out. -/
structure Alike (s t : State g) : Prop where
  cpu : Cpu.Alike s.cpu t.cpu
  ram : WbRam.Alike s.ram t.ram
  timer : t.timer.ack = s.timer.ack
  mux : s.cpu.bus.stb = true → s.unmapped = true → t.muxAck = s.muxAck
  divider : t.uart.cfgDivider = s.uart.cfgDivider
  data : s.cpu.bus.cyc = true → s.cpuMaster.accessUart = true → t.uart.dataOut = s.uart.dataOut
  ack : s.cpu.bus.cyc = true → s.cpuMaster.accessUart = true → s.transmits = false →
    t.uart.ack = s.uart.ack

theorem Alike.refl (s : State g) : Alike s s where
  cpu := .same s.cpu.csr.rnd s.cpu.bus.buffer fun _ => rfl
  ram := .refl s.ram
  timer := rfl
  mux _ _ := rfl
  divider := rfl
  data _ _ := rfl
  ack _ _ _ := rfl

/-- The processor has the bus and runs, and nothing is reset. -/
structure Inputs.Plain (i : Inputs) : Prop where
  master : i.busMaster = false
  rst : i.rst = false
  cpuRst : i.cpuRst = false
  halt : i.extCpuHalt = false

/-- An answered request is taken off the bus. -/
theorem Wired.bus_answered {s : State g} {i : Inputs} (w : Wired s i) (hc : s.cpu.bus.cyc = true)
    (ha : s.cpuAck i = true) : (s.step i).cpu.bus.cyc = false := by
  have hb : s.cpu.bus.busy = true := w.flow.cyc ▸ hc
  have hack : (s.cpuIn i).ack = true := ha
  have hstep := w.flow.bus_of_busy (v := cpuResetAddr) (i := s.cpuIn i) hb
  rw [hack] at hstep
  rw [step_cpu, hstep]
  rfl

/-- A store to the transmit register that is not there in the next clock, while there is still a
request, was not there before. -/
theorem Wired.not_transmits_before {s : State g} {i : Inputs} (w : Wired s i)
    (hc : s.cpu.bus.cyc = true) (hc' : (s.step i).cpu.bus.cyc = true)
    (hno : (s.step i).transmits = false) : s.transmits = false := by
  refine Bool.eq_false_iff.mpr fun htr => ?_
  cases ha : s.cpuAck i with
  | false =>
      rw [transmits_congr (w.bus_held hc ha), htr] at hno
      exact absurd hno (by decide)
  | true =>
      rw [w.bus_answered hc ha] at hc'
      exact absurd hc' (by decide)

section inputs
variable {s t : State g} {i j : Inputs} (h : Alike s t) (hi : i.Plain) (hj : j.Plain)
include h

theorem Alike.master : t.cpuMaster = s.cpuMaster := by
  obtain ⟨hbus, -⟩ := h.cpu.lines
  rw [State.cpuMaster, hbus]
  rfl

theorem Alike.transmits : t.transmits = s.transmits := by
  obtain ⟨hbus, -⟩ := h.cpu.lines
  unfold State.transmits
  rw [h.master, hbus]

include hi hj

theorem Alike.ramIn : t.ramIn j = s.ramIn i := by
  obtain ⟨hbus, hcheck, hclear, -⟩ := h.cpu.lines
  rw [ramIn_eq hi.master, ramIn_eq hj.master, hi.rst, hj.rst, h.master, hcheck, hclear, hbus]

theorem Alike.timerIn : t.timerIn j = s.timerIn i := by
  simp only [State.timerIn, master_eq hi.master, master_eq hj.master, hi.rst, hj.rst, h.master]

theorem Alike.uartIn : t.uartIn j = s.uartIn i := by
  simp only [State.uartIn, master_eq hi.master, master_eq hj.master, hi.rst, hj.rst, h.master]

/-- A request gets the same answer, unless it waits for the end of a byte. -/
theorem Alike.cpuAck (ws : Wired s i) (wt : Wired t j)
    (htx : s.transmits = true → t.uart.ack = s.uart.ack) : t.cpuAck j = s.cpuAck i := by
  have hmaster := h.master
  obtain ⟨d, e, hram, -⟩ := h.ram
  have hcyc : t.cpu.bus.cyc = s.cpu.bus.cyc := by rw [h.cpu.lines.1]
  simp only [State.cpuAck, master_eq hi.master, master_eq hj.master, hmaster]
  split_ifs with h₁ h₂ h₃
  · exact h.timer
  · rw [hram]
  · rw [h.uartIn hi hj]
    cases hc : s.cpu.bus.cyc with
    | false =>
        simp [WbUart.State.ackOut, State.uartIn, master_eq hi.master, State.cpuMaster, hc]
    | true =>
        have hack : t.uart.ack = s.uart.ack := by
          cases ht : s.transmits with
          | false => exact h.ack hc h₃ ht
          | true => exact htx ht
        rw [WbUart.State.ackOut, WbUart.State.ackOut, hack]
  · -- no slave: the multiplexer answers, and only to a request
    have hno : s.cpuMaster.accessTimer = false ∧ s.cpuMaster.accessRam = false ∧
        s.cpuMaster.accessUart = false := by
      simp only [Bool.not_eq_true] at h₁ h₂ h₃
      exact ⟨h₁, h₂, h₃⟩
    cases hc : s.cpu.bus.cyc with
    | true =>
        refine h.mux ?_ (by simp [State.unmapped, hno])
        rw [ws.flow.stb, ← ws.flow.cyc, hc]
    | false =>
        have hs : s.muxAck = false := Bool.eq_false_iff.mpr fun ha => by
          simpa [hc] using ws.mux ha hno.1 hno.2.1 hno.2.2
        have ht : t.muxAck = false := Bool.eq_false_iff.mpr fun ha => by
          have hcyc' := wt.mux ha (by rw [hmaster]; exact hno.1) (by rw [hmaster]; exact hno.2.1)
            (by rw [hmaster]; exact hno.2.2)
          simp [hcyc, hc] at hcyc'
        rw [hs, ht]

/-- What is read is the same, but for the timer. -/
theorem Alike.masterData (ws : Wired s i) (hack : s.cpuAck i = true)
    (htimer : s.cpuMaster.accessTimer = false) : t.masterData j = s.masterData i := by
  have hmaster := h.master
  have hcyc := ws.ack_cyc hi.master hack
  simp only [State.masterData, master_eq hi.master, master_eq hj.master, hmaster, htimer]
  rw [if_neg Bool.false_ne_true, if_neg Bool.false_ne_true]
  split_ifs with h₂ h₃
  · have hram : s.ram.ack = true := by rwa [cpuAck_of_ram hi.master h₂] at hack
    obtain ⟨d, e, heq, hout⟩ := h.ram
    obtain ⟨rfl, rfl⟩ := hout fun hidle => by simp [ws.serving.idle hidle] at hram
    rw [h.ramIn hi hj, heq]
  · exact h.data hcyc h₃
  · rfl

end inputs

/-- The program does not ask for the time in this clock: neither the random source nor
the timer is read, and no timer interrupt is pending. -/
structure Timeless (s : State g) : Prop where
  rnd : s.cpu.readsRnd = false
  read : s.cpu.bus.cyc = true → s.cpuMaster.accessTimer = true → s.cpu.bus.we = true
  pending : (s.timer.irq && s.cpu.csr.irqTimerEn) = false

/-- An interrupt is taken in this clock and the timer is written down as its cause. With no timer
interrupt pending it is the interrupt of the tags, taken while the tags are off: the cause is
then told from the line of the timer, enabled or not. -/
def State.blamesTimer (s : State g) (i : Inputs) : Bool :=
  s.cpu.state == .decode && s.cpu.takesInterrupt (s.cpuIn i) &&
    s.cpu.interruptCause (s.cpuIn i) == causeTimerInterrupt

theorem State.timer_quiet {s : State g} {i : Inputs} (h : s.blamesTimer i = false)
    (hs : s.cpu.state = .decode) (ht : s.cpu.takesInterrupt (s.cpuIn i) = true)
    (hen : (s.ram.irq && s.cpu.csr.tagsEn) = false) : s.timer.irq = false := by
  refine Bool.eq_false_iff.mpr fun hirq => ?_
  have h₁ : ((s.cpuIn i).tagsInterrupt && s.cpu.csr.tagsEn) = false := hen
  have h₂ : (s.cpuIn i).timerInterrupt = true := hirq
  have hcause : s.cpu.interruptCause (s.cpuIn i) = causeTimerInterrupt := by
    rw [Cpu.State.interruptCause, h₁, h₂]
    rfl
  simp [State.blamesTimer, hs, ht, hcause] at h

section lockstep
variable {s t : State g} {i j : Inputs} (h : Alike s t) (hi : i.Plain) (hj : j.Plain)
  (ws : Wired s i) (wt : Wired t j) (hs : Timeless s) (ht : Timeless t)
  (hbs : s.blamesTimer i = false) (hbt : t.blamesTimer j = false)
  (hidle : s.cpu.state ≠ .cpuIdle) (htx : s.transmits = true → t.uart.ack = s.uart.ack)
include h hi hj ws wt hs ht hbs hbt hidle htx

theorem Alike.inputs : InputsAlike s.cpu (s.cpuIn i) (t.cpuIn j) := by
  obtain ⟨d, e, hram, -⟩ := h.ram
  obtain ⟨hbus, hcheck, hclear, htimer, htags, hirq, hbusy⟩ := h.cpu.lines
  have hirqline : t.ram.irq = s.ram.irq := by rw [hram]
  have hstate := h.cpu.state_eq hidle
  constructor
  case ack => exact h.cpuAck hi hj ws wt htx
  case dat =>
    intro hack hstate
    have hacc : s.cpuAck i = true := hack
    refine h.masterData hi hj ws hacc (Bool.eq_false_iff.mpr fun hacc' => ?_)
    rcases ws.we (hs.read (ws.ack_cyc hi.master hacc) hacc') with hst | hst <;>
      rcases hstate with h | h | h <;> exact absurd (hst.symm.trans h) (by decide)
  case mip => exact congrArg WbTimer.Inputs.mtimecmpAccessed (h.timerIn hi hj)
  case tags => exact hirqline
  case timer =>
    refine ⟨hs.pending, ?_⟩
    rw [← htimer]
    exact ht.pending
  case cause =>
    intro hd htakes
    by_cases hen : (s.ram.irq && s.cpu.csr.tagsEn) = true
    · exact Or.inl hen
    · right
      have hen' : (s.ram.irq && s.cpu.csr.tagsEn) = false := by simpa using hen
      have htakes' : t.cpu.takesInterrupt (t.cpuIn j) = true := by
        have h₁ : ((t.cpuIn j).timerInterrupt && t.cpu.csr.irqTimerEn) = false := ht.pending
        have h₂ : ((s.cpuIn i).timerInterrupt && s.cpu.csr.irqTimerEn) = false := hs.pending
        have h₃ : (t.cpuIn j).tagsInterrupt = (s.cpuIn i).tagsInterrupt := hirqline
        rw [Cpu.State.takesInterrupt, Cpu.State.interruptOccured, h₁, h₃, hirq]
        rw [Cpu.State.takesInterrupt, Cpu.State.interruptOccured, h₂] at htakes
        exact htakes
      have hquiet := State.timer_quiet hbs hd htakes hen'
      have hquiet' := State.timer_quiet hbt (hstate.trans hd) htakes'
        (by rw [hirqline, htags]; exact hen')
      exact hquiet'.trans hquiet.symm

omit wt hs ht hbs hbt hidle htx in
theorem Alike.step_slaves (hc : Cpu.Alike (s.step i).cpu (t.step j).cpu) :
    Alike (s.step i) (t.step j) := by
  have hmaster := h.master
  have hstb : t.cpu.bus.stb = s.cpu.bus.stb := by rw [h.cpu.lines.1]
  have hram : (t.step j).ram = (s.step i).ram := by
    rw [step_ram, step_ram, h.ramIn hi hj]
    exact h.ram.step ws.serving
  have hrst : (s.uartIn i).rst = false := hi.rst
  have hlines : ((s.uartIn i).cyc && (s.uartIn i).stb) = true →
      s.cpu.bus.cyc = true ∧ s.cpuMaster.accessUart = true := by
    intro hacc
    simp only [State.uartIn, master_eq hi.master, Bool.and_eq_true] at hacc
    exact hacc.1
  have huart : (s.step i).uart = s.uart.step (s.uartIn i) := rfl
  have huart' : (t.step j).uart = t.uart.step (s.uartIn i) := by
    rw [← h.uartIn hi hj]
    rfl
  constructor
  case cpu => exact hc
  case ram =>
    rw [hram]
    exact .refl _
  case timer =>
    have hin : (s.timerIn i).rst = false := hi.rst
    have htimer : (t.step j).timer = t.timer.step (s.timerIn i) := by
      rw [← h.timerIn hi hj]
      rfl
    rw [htimer, WbTimer.step_ack hin, h.timer]
    exact (WbTimer.step_ack hin).symm
  case mux =>
    intro hstb' hun
    simp only [State.step, hi.rst, hj.rst, master_eq hi.master, master_eq hj.master, hmaster]
    by_cases hb : s.cpu.bus.stb = true
    · have hadr := ws.adr_kept (by rw [← ws.flow.stb]; exact hb)
      have hold : s.unmapped = true := by
        simpa [State.unmapped, State.cpuMaster, Master.accessTimer, Master.accessRam,
          Master.accessUart, hadr] using hun
      rw [h.mux hb hold]
    · have hlow : s.cpuMaster.stb = false := by simpa [State.cpuMaster] using hb
      rw [hlow]
      rfl
  case divider =>
    rw [huart, huart', (WbUart.step_bus hrst).2.2, (WbUart.step_bus hrst).2.2]
    exact WbUart.busSide_cfgDivider h.divider
  case data =>
    intro _ _
    rw [huart, huart', (WbUart.step_bus hrst).2.1, (WbUart.step_bus hrst).2.1]
    exact WbUart.busSide_dataOut h.divider fun hacc => h.data (hlines hacc).1 (hlines hacc).2
  case ack =>
    intro hcyc _ hno
    rw [huart, huart', (WbUart.step_bus hrst).1, (WbUart.step_bus hrst).1]
    refine WbUart.busSide_ack fun hacc => ?_
    obtain ⟨hc₀, hu₀⟩ := hlines hacc
    have hold := ws.not_transmits_before hc₀ hcyc hno
    refine ⟨h.ack hc₀ hu₀ hold, fun hsel => ?_⟩
    refine Bool.eq_false_iff.mpr fun hwe => ?_
    have hsel' : s.cpu.bus.adr.extractLsb' 2 2 = WbUart.uartAddrDataToTransmit := by
      simpa [State.uartIn, master_eq hi.master, State.cpuMaster, WbUart.Inputs.regSel] using hsel
    have hwe' : s.cpu.bus.we = true := by
      simpa [State.uartIn, master_eq hi.master, State.cpuMaster] using hwe
    simp [State.transmits, hc₀, hwe', hu₀, hsel'] at hold

/-- One clock of both. -/
theorem Alike.step (ha : Addressed s.cpu) (hjump : s.cpu.jumpsToRnd = false)
    (hi₁ : i.extCpuSinglestep = true) (hj₁ : j.extCpuSinglestep = false) :
    Alike (s.step i) (t.step j) :=
  h.step_slaves hi hj ws <|
    h.cpu.step ws.flow.toCoherent wt.flow.toCoherent (ws.undisturbed hi.master hi.halt hi.cpuRst)
      (wt.undisturbed hj.master hj.halt hj.cpuRst) (h.inputs hi hj ws wt hs ht hbs hbt hidle htx) ha
      hs.rnd hjump hi₁ hj₁ hidle

end lockstep

/-! ## Clocks that one of them takes alone -/

/-- What a clock leaves as it is in which the processor waits, either for a step or
for the end of a byte. -/
structure Stands (s s' : State g) : Prop where
  bus : s'.cpu.bus = s.cpu.bus
  quiet : s.cpu.bus.cyc = false ∧ s.cpu.bus.stb = false ∨ s.transmits = true
  idle : s.ram.state = .idle
  ram : ∃ d e, s'.ram = { s.ram with ram := ⟨s.ram.ram.mem, d⟩, tag := ⟨s.ram.tag.mem, e⟩ }
  timer : s'.timer.ack = s.timer.ack
  divider : s'.uart.cfgDivider = s.uart.cfgDivider
  data : s.transmits = true → s'.uart.dataOut = s.uart.dataOut

theorem accessUart_of_transmits {s : State g} (h : s.transmits = true) :
    s.cpu.bus.cyc = true ∧ s.cpu.bus.we = true ∧ s.cpuMaster.accessUart = true ∧
      s.cpu.bus.adr.extractLsb' 2 2 = WbUart.uartAddrDataToTransmit := by
  simpa [State.transmits, and_assoc] using h

section stands
variable {s s' t : State g}

theorem Alike.stand_left (h : Alike s t) (hr : Stands s s') (hc : Cpu.Alike s'.cpu t.cpu) :
    Alike s' t := by
  obtain ⟨d, e, hram⟩ := hr.ram
  have hmaster : s'.cpuMaster = s.cpuMaster := by rw [State.cpuMaster, hr.bus]; rfl
  have htr : s'.transmits = s.transmits := transmits_congr hr.bus
  constructor
  case cpu => exact hc
  case ram =>
    rw [hram]
    exact (h.ram.rest hr.idle d e).1
  case timer => exact h.timer.trans hr.timer.symm
  case divider => exact h.divider.trans hr.divider.symm
  all_goals rw [hr.bus]
  case mux =>
    intro hstb hun
    rcases hr.quiet with hq | hq
    · exact absurd (hq.2.symm.trans hstb) Bool.false_ne_true
    · simp [State.unmapped, hmaster, (accessUart_of_transmits hq).2.2.1] at hun
  case data =>
    intro hcyc hu
    rcases hr.quiet with hq | hq
    · exact absurd (hq.1.symm.trans hcyc) Bool.false_ne_true
    · exact (h.data hcyc (hmaster ▸ hu)).trans (hr.data hq).symm
  case ack =>
    intro hcyc _ hno
    rcases hr.quiet with hq | hq
    · exact absurd (hq.1.symm.trans hcyc) Bool.false_ne_true
    · exact absurd (hno.symm.trans (htr.trans hq)) Bool.false_ne_true

theorem Alike.stand_right {t' : State g} (h : Alike s t) (hr : Stands t t')
    (hc : Cpu.Alike s.cpu t'.cpu) : Alike s t' := by
  obtain ⟨d, e, hram⟩ := hr.ram
  obtain ⟨hbus, -⟩ := h.cpu.lines
  have htr := h.transmits
  have hlines : s.cpu.bus.cyc = t.cpu.bus.cyc ∧ s.cpu.bus.stb = t.cpu.bus.stb := by
    rw [hbus]
    exact ⟨rfl, rfl⟩
  have hidle : s.ram.state = .idle := by
    obtain ⟨d, e, heq, -⟩ := h.ram
    rw [← hr.idle, heq]
  constructor
  case cpu => exact hc
  case ram =>
    rw [hram]
    exact (h.ram.rest hidle d e).2
  case timer => exact hr.timer.trans h.timer
  case divider => exact hr.divider.trans h.divider
  case mux =>
    intro hstb hun
    rcases hr.quiet with hq | hq
    · exact absurd (hq.2.symm.trans (hlines.2 ▸ hstb)) Bool.false_ne_true
    · simp [State.unmapped, (accessUart_of_transmits (htr ▸ hq)).2.2.1] at hun
  case data =>
    intro hcyc hu
    rcases hr.quiet with hq | hq
    · exact absurd (hq.1.symm.trans (hlines.1 ▸ hcyc)) Bool.false_ne_true
    · exact (hr.data hq).trans (h.data hcyc hu)
  case ack =>
    intro hcyc _ hno
    rcases hr.quiet with hq | hq
    · exact absurd (hq.1.symm.trans (hlines.1 ▸ hcyc)) Bool.false_ne_true
    · exact absurd (hno.symm.trans (htr.symm.trans hq)) Bool.false_ne_true

/-- The serial port alone is asked. -/
theorem Wired.stores {i : Inputs} (w : Wired s i) (hm : i.busMaster = false)
    (h : s.transmits = true) : s.cpuMaster.accessTimer = false ∧ s.cpuMaster.accessRam = false ∧
      (s.uartIn i).Stores s.cpu.bus.dat := by
  obtain ⟨hc, hw, hu, hsel⟩ := accessUart_of_transmits h
  have hper : periphSelect s.cpu.bus.adr = wbAccessUart := by
    simpa [Master.accessUart, State.cpuMaster] using hu
  have hstb : s.cpu.bus.stb = true := w.flow.stb.trans (w.flow.cyc.symm.trans hc)
  refine ⟨?_, ?_, ?_⟩
  · simp [Master.accessTimer, State.cpuMaster, hper, wbAccessTimer, wbAccessUart]
  · simp [Master.accessRam, State.cpuMaster, hper, wbAccessRam, wbAccessUart]
  · simp [WbUart.Inputs.Stores, State.uartIn, master_eq hm, hu, WbUart.Inputs.regSel]
    exact ⟨hc, hstb, hw, hsel, rfl⟩

/-- The slaves in such a clock. -/
theorem Wired.stands {i : Inputs} (w : Wired s i) (hi : i.Plain) (hrest : RamRests s)
    (hq : s.cpu.bus.cyc = false ∧ s.cpu.bus.stb = false ∨ s.transmits = true)
    (hclear : s.cpu.csr.tagsIrqClear = false) (hbus : (s.step i).cpu.bus = s.cpu.bus) :
    Stands s (s.step i) := by
  have hrst : (s.uartIn i).rst = false := hi.rst
  have huart : (s.step i).uart = s.uart.step (s.uartIn i) := rfl
  have hslave : s.transmits = true → s.cpuMaster.accessTimer = false ∧
      s.cpuMaster.accessRam = false ∧ (s.uartIn i).Stores s.cpu.bus.dat :=
    fun h => w.stores hi.master h
  have htimer : (s.timerIn i).cyc = false := by
    simp only [State.timerIn, master_eq hi.master]
    rcases hq with hq | hq
    · simp [State.cpuMaster, hq.1]
    · simp [(hslave hq).1]
  constructor
  case bus => exact hbus
  case quiet => exact hq
  case idle => exact hrest.state
  case ram =>
    refine WbRam.rest_step w.serving hrest.state ?_ hrest.mismatch hi.rst hclear
    refine Bool.eq_false_iff.mpr fun hreq => ?_
    obtain ⟨hc, hr⟩ := cyc_of_requests hi.master hreq
    rcases hq with hq | hq
    · exact absurd (hq.1.symm.trans hc) Bool.false_ne_true
    · exact absurd ((hslave hq).2.1.symm.trans hr) Bool.false_ne_true
  case timer =>
    have hold : s.timer.ack = false := Bool.eq_false_iff.mpr fun ha => by
      obtain ⟨hc, ht⟩ := w.timer ha
      simp [State.timerIn, master_eq hi.master, State.cpuMaster, hc] at htimer
      exact absurd (htimer.symm.trans ht) Bool.false_ne_true
    have hnew : (s.step i).timer.ack = ((s.timerIn i).cyc && !s.timer.ack) :=
      WbTimer.step_ack hi.rst
    rw [hnew, htimer, hold]
    rfl
  case divider =>
    rw [huart, (WbUart.step_bus hrst).2.2]
    rcases hq with hq | hq
    · rw [WbUart.busSide_idle (by
        simp [State.uartIn, master_eq hi.master, State.cpuMaster, hq.1])]
    · rw [WbUart.busSide_stores (hslave hq).2.2]
  case data =>
    intro ht
    rw [huart, (WbUart.step_bus hrst).2.1, WbUart.busSide_stores (hslave ht).2.2]

end stands

end TagSoc.Soc
