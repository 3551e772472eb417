import TagSoc.RamRun
import TagSoc.Soc
import TagSoc.ExecRun

/-!
# The system in a run

The processor is the bus master and is not halted. `Wired` ties it to the
slaves: an acknowledge on the shared lines is always the answer to the request
that is still there, and the memory's three-clock tag pipeline only moves in
states in which the processor does not look at its outcome. It holds from the
first reset on, through later resets of the processor or of the slaves.
-/
namespace TagSoc.Cpu
open CpuBus

variable {v : BitVec 32} {s : State} {i : Inputs}

/-! ## The processor's side of the bus -/

/-- A request is not replaced before it is answered. -/
theorem Coherent.bus_of_busy (h : Coherent s) (hb : s.bus.busy = true) :
    (s.step v i).bus = s.bus.wait i.ack i.dat := by
  have hen : (s.control i).busEn = false := by
    refine Bool.eq_false_iff.mpr fun hen => ?_
    have hfree := h.bus_free (s := s) (by
      have hr := (control_busEn hen).1
      revert hr
      cases s.state <;> simp [MainState.ready, MainState.usesBus])
    simp [hfree] at hb
  simp [State.step, State.busIn, hen]

/-- The states that may have a write request outstanding. -/
theorem Coherent.step_bus_we (h : Coherent s) (hh : i.externalHalt = false)
    (hwe : s.bus.we = true → s.state = .store2 ∨ s.state = .reset)
    (hw : (s.step v i).bus.we = true) :
    (s.step v i).state = .store2 ∨ (s.step v i).state = .reset := by
  cases hr : i.rst with
  | true => exact Or.inr (step_state_of_rst hr)
  | false =>
      by_cases hb : s.bus.busy = true
      · have hold : s.bus.we = true := by
          rw [h.bus_of_busy hb] at hw
          revert hw
          cases i.ack <;> simp [CpuBus.State.accept]
        rw [step_state_of_busy hr (by simp [State.busy, hb])]
        exact hwe hold
      · -- the request was made in this clock, by the only state that writes
        have hfree : s.bus.we = false := Bool.eq_false_iff.mpr fun hw => hb (h.bus_we hw)
        have hreq : (s.control i).busEn = true ∧ (s.control i).busOp.write = true := by
          revert hw
          cases ha : i.ack <;> cases he : (s.control i).busEn <;>
            simp [State.step, State.busIn, CpuBus.State.step, ha, he, hfree]
        have hst : s.state = .store1 := by
          have hload : ∀ f, (State.loadBusOp f).write = false := by decide
          revert hreq
          cases hs : s.state <;> simp [State.control, hs, BusOp.write, State.controlFetch,
            State.controlDecode, State.controlLoad1, State.controlStore2, controlUpdatePc_eq,
            controlSystem_quiet]
          exact hload _
        left
        rw [step_state_of_not_busy hr (h.not_busy hh (by rw [hst]; rfl))]
        simp [State.control, hst, State.controlStore1]

/-- Only a reset leads to the reset state. -/
theorem Coherent.of_step_reset (h : Coherent s) (hr : i.rst = false)
    (hs : (s.step v i).state = .reset) : s.state = .reset := by
  have hmem := h.step_state_mem (v := v) hr
  rw [hs] at hmem
  revert hmem
  cases s.state <;> simp [MainState.successors]

/-- Only a CSR instruction presents the acknowledge bit to the `tags` address. -/
theorem csr2_of_irqClear (h : Coherent s) (ha : (s.csrRequest i).addr = Csr.msrMtags)
    (hd : (s.csrRequest i).data.getLsbD 1 = true) : s.state = .csr2 := by
  unfold State.csrRequest at ha hd
  split_ifs at ha hd with ht hm
  · unfold State.trapCsr at ha
    cases hq : s.trapState <;> rw [hq] at ha <;> exact absurd ha (by simp [Csr.msrMtags,
      Csr.msrMstatus, Csr.msrMepc, Csr.msrMtval, Csr.msrMip, Csr.msrMtvec])
  · unfold State.mretCsr at ha
    cases hq : s.mretState <;> rw [hq] at ha <;> exact absurd ha (by simp [Csr.msrMtags,
      Csr.msrMstatus, Csr.msrMepc])
  · have hused := h.used
    unfold State.control at ha hd
    cases hs : s.state <;> rw [hs] at hused ha hd
    case system =>
      revert ha hd
      simp only [State.controlSystem]
      cases systemKind s.dec <;> simp [State.controlRaise, Csr.msrMcause, Csr.msrMtags]
    case decode =>
      revert ha
      simp only [State.controlDecode]
      split_ifs <;> simp [Csr.msrMcause, Csr.msrMtags]
    case store2 =>
      revert ha
      simp only [State.controlStore2]
      split_ifs <;> simp [Csr.msrMip, Csr.msrMtags]
    case store1 => exact absurd ha (by simp [State.controlStore1, Csr.msrMip, Csr.msrMtags])
    case updatePc => exact absurd ha (by simp [controlUpdatePc_eq, Csr.msrMtags])
    case dead | misalignedAddr | mretUpdateMstatus | mretReadEpc => exact absurd hused (by decide)
    all_goals exact absurd ha (by simp [Csr.msrMtags, State.controlFetch, State.controlLoad1])

end TagSoc.Cpu

namespace TagSoc.Soc
open Clocked Cpu

variable {g : ℕ}

/-! ## The invariant -/

/-- The states in which the outcome of a tag comparison may be on its way to
the interrupt line. -/
def judging (m : MainState) : Bool := m.usesBus || m == .updatePc

structure Wired (s : State g) (i : Inputs) : Prop where
  flow : Flow s.cpu
  serving : WbRam.Serving s.ram (s.ramIn i)
  timer : s.timer.ack = true → s.cpu.bus.cyc = true ∧ s.cpuMaster.accessTimer = true
  mux : s.muxAck = true → s.cpuMaster.accessTimer = false → s.cpuMaster.accessRam = false →
    s.cpuMaster.accessUart = false → s.cpu.bus.cyc = true
  we : s.cpu.bus.we = true → s.cpu.state = .store2 ∨ s.cpu.state = .reset
  writing : s.ram.state = .writeWord → s.cpu.bus.we = true
  stop : s.ram.state = .stop → s.ram.ack = false → s.cpu.state = .store2 ∨ s.cpu.state = .reset
  mismatch : s.ram.tagMismatch = true → judging s.cpu.state = true
  reset : s.cpu.state = .reset → s.cpu.checkTags = false
  clear : s.cpu.csr.tagsIrqClear = true → s.cpu.state = .updatePc

section step
variable {s : State g} {i j : Inputs}

theorem step_cpu : (s.step i).cpu = s.cpu.step cpuResetAddr (s.cpuIn i) := rfl

theorem step_ram : (s.step i).ram = s.ram.step (s.ramIn i) := rfl

theorem master_eq (hm : i.busMaster = false) : s.master i = s.cpuMaster := by
  simp [State.master, hm]

/-- What the memory sees of the processor. -/
theorem ramIn_eq (hm : i.busMaster = false) :
    s.ramIn i =
      { rst := i.rst, addr := s.cpu.bus.adr, data := s.cpu.bus.dat, sel := s.cpu.bus.sel
        we := s.cpu.bus.we, cyc := s.cpu.bus.cyc && s.cpuMaster.accessRam
        stb := s.cpu.bus.stb && s.cpuMaster.accessRam, checkTags := s.cpu.checkTags
        clearMismatch := s.cpu.csr.tagsIrqClear } := by
  simp [State.ramIn, master_eq hm, State.cpuMaster]

theorem cyc_of_requests (hm : i.busMaster = false) (h : (s.ramIn i).requests = true) :
    s.cpu.bus.cyc = true ∧ s.cpuMaster.accessRam = true := by
  rw [ramIn_eq hm] at h
  revert h
  simp only [WbRam.Inputs.requests, WbRam.Inputs.ramAccessed, WbRam.Inputs.tagAccessed]
  cases s.cpu.bus.cyc <;> cases s.cpuMaster.accessRam <;> simp

theorem accessTimer_of_ram {m : Master} (h : m.accessRam = true) : m.accessTimer = false := by
  have h' : periphSelect m.addr = wbAccessRam := by simpa [Master.accessRam] using h
  simp [Master.accessTimer, h', wbAccessRam, wbAccessTimer]

theorem cpuAck_of_ram (hm : i.busMaster = false) (h : s.cpuMaster.accessRam = true) :
    s.cpuAck i = s.ram.ack := by
  simp [State.cpuAck, master_eq hm, accessTimer_of_ram h, h]

theorem cpuAck_of_timer (hm : i.busMaster = false) (h : s.cpuMaster.accessTimer = true) :
    s.cpuAck i = s.timer.ack := by
  simp [State.cpuAck, master_eq hm, h]

theorem Wired.ack_cyc (w : Wired s i) (hm : i.busMaster = false) (ha : s.cpuAck i = true) :
    s.cpu.bus.cyc = true := by
  by_cases ht : s.cpuMaster.accessTimer = true
  · rw [cpuAck_of_timer hm ht] at ha
    exact (w.timer ha).1
  by_cases hr : s.cpuMaster.accessRam = true
  · rw [cpuAck_of_ram hm hr] at ha
    exact (cyc_of_requests hm (w.serving.request ha)).1
  simp only [State.cpuAck, master_eq hm, if_neg ht, if_neg hr] at ha
  split_ifs at ha with hu
  · revert ha
    simp only [WbUart.State.ackOut, State.uartIn, master_eq hm, State.cpuMaster]
    simp +contextual
  · exact w.mux ha (by simpa using ht) (by simpa using hr) (by simpa using hu)

/-- The processor's inputs disturb it no further than by a reset. -/
theorem Wired.undisturbed (w : Wired s i) (hm : i.busMaster = false)
    (hh : i.extCpuHalt = false) (hr : i.cpuRst = false) : Undisturbed s.cpu (s.cpuIn i) :=
  ⟨hr, hh, w.ack_cyc hm⟩

/-- An unanswered request stays as it is. -/
theorem Wired.bus_held (w : Wired s i) (hc : s.cpu.bus.cyc = true) (ha : s.cpuAck i = false) :
    (s.step i).cpu.bus = s.cpu.bus := by
  have hb : s.cpu.bus.busy = true := w.flow.cyc ▸ hc
  have hstep := w.flow.bus_of_busy (v := cpuResetAddr) (i := s.cpuIn i) hb
  have hack : (s.cpuIn i).ack = false := ha
  rw [hack, CpuBus.State.wait_false] at hstep
  exact hstep

/-- A request keeps its address, also in the clock of its answer. -/
theorem Wired.adr_kept (w : Wired s i) (hb : s.cpu.bus.busy = true) :
    (s.step i).cpu.bus.adr = s.cpu.bus.adr :=
  (congrArg CpuBus.State.adr (w.flow.bus_of_busy (v := cpuResetAddr) (i := s.cpuIn i) hb)).trans
    (CpuBus.State.wait_adr _ _ _)

/-! ## One clock -/

section fields
variable (w : Wired s i) (hm : i.busMaster = false)
include w hm

theorem Wired.step_serving (hj : j.busMaster = false) :
    WbRam.Serving (s.step i).ram ((s.step i).ramIn j) := by
  refine w.serving.step fun _ hreq hack => ?_
  obtain ⟨hc, hram⟩ := cyc_of_requests hm hreq
  have hbus := w.bus_held hc ((cpuAck_of_ram hm hram).trans hack)
  simp [ramIn_eq hm, ramIn_eq hj, WbRam.Inputs.lines, State.cpuMaster, Master.accessRam, hbus]

theorem Wired.step_timer (h : (s.step i).timer.ack = true) :
    (s.step i).cpu.bus.cyc = true ∧ (s.step i).cpuMaster.accessTimer = true := by
  have hreq : (s.cpu.bus.cyc = true ∧ s.cpuMaster.accessTimer = true) ∧ s.timer.ack = false := by
    revert h
    simp only [State.step, WbTimer.State.step, State.timerIn, master_eq hm]
    split_ifs <;> simp [State.cpuMaster]
  obtain ⟨⟨hc, ht⟩, hack⟩ := hreq
  have hbus := w.bus_held hc ((cpuAck_of_timer hm ht).trans hack)
  refine ⟨by rw [hbus, hc], ?_⟩
  simpa [State.cpuMaster, Master.accessTimer, hbus] using ht

/-- The multiplexer's own acknowledge toggles during every request; it counts
only where no slave is selected. -/
theorem Wired.step_mux (h : (s.step i).muxAck = true)
    (ht : (s.step i).cpuMaster.accessTimer = false) (hr : (s.step i).cpuMaster.accessRam = false)
    (hu : (s.step i).cpuMaster.accessUart = false) : (s.step i).cpu.bus.cyc = true := by
  obtain ⟨hstb, hack⟩ : s.cpu.bus.stb = true ∧ s.muxAck = false := by
    revert h
    simp only [State.step, master_eq hm]
    split_ifs <;> simp [State.cpuMaster]
  have hb : s.cpu.bus.busy = true := w.flow.stb ▸ hstb
  have hadr := w.adr_kept hb
  have hno : s.cpuAck i = false := by
    simp only [State.cpuMaster, Master.accessTimer, Master.accessRam, Master.accessUart, hadr]
      at ht hr hu
    simp [State.cpuAck, master_eq hm, State.cpuMaster, Master.accessTimer, Master.accessRam,
      Master.accessUart, ht, hr, hu, hack]
  rw [w.bus_held (w.flow.cyc ▸ hb) hno]
  exact w.flow.cyc ▸ hb

theorem Wired.step_writing (h : (s.step i).ram.state = .writeWord) :
    (s.step i).cpu.bus.we = true := by
  obtain ⟨hidle, hreq, hwe⟩ := w.serving.of_step_writeWord h
  obtain ⟨hc, hram⟩ := cyc_of_requests hm hreq
  rw [w.bus_held hc ((cpuAck_of_ram hm hram).trans (w.serving.idle hidle))]
  simpa [ramIn_eq hm] using hwe

end fields

theorem Wired.step_stop (w : Wired s i) (hs : (s.step i).ram.state = .stop)
    (ha : (s.step i).ram.ack = false) :
    (s.step i).cpu.state = .store2 ∨ (s.step i).cpu.state = .reset := by
  have hwe := w.writing (w.serving.of_step_stop hs ha)
  cases hr : i.cpuRst with
  | true => exact Or.inr (step_state_of_rst (i := s.cpuIn i) hr)
  | false =>
      have hbusy : s.cpu.busy (s.cpuIn i) = true := by simp [Cpu.State.busy, w.flow.bus_we hwe]
      have hst : (s.step i).cpu.state = s.cpu.state := step_state_of_busy (i := s.cpuIn i) hr hbusy
      rw [hst]
      exact w.we hwe

/-- The comparison is made in the clock of the acknowledge, or one clock later
for a store of less than a word; the processor is still waiting then. -/
theorem Wired.step_mismatch (w : Wired s i) (hm : i.busMaster = false)
    (hh : i.extCpuHalt = false) (h : (s.step i).ram.tagMismatch = true) :
    judging (s.step i).cpu.state = true := by
  cases hr : i.cpuRst with
  | true =>
      have hst : (s.step i).cpu.state = .reset := step_state_of_rst (i := s.cpuIn i) hr
      rw [hst]
      rfl
  | false =>
      obtain ⟨hs, hcheck⟩ := WbRam.of_step_mismatch h
      have u := w.undisturbed hm hh hr
      cases ha : s.ram.ack with
      | true =>
          have hb : s.cpu.bus.busy = true :=
            w.flow.cyc ▸ (cyc_of_requests hm (w.serving.request ha)).1
          have hst : (s.step i).cpu.state = s.cpu.state :=
            step_state_of_busy (i := s.cpuIn i) hr (by simp [Cpu.State.busy, hb])
          rw [hst, judging, w.flow.bus hb, Bool.true_or]
      | false =>
          rcases w.stop hs ha with hst | hst
          · have hstep := step_store2 (v := cpuResetAddr) w.flow.toCoherent u hst
            rw [step_cpu, hstep]
            dsimp only
            split_ifs <;> rfl
          · have hno := w.reset hst
            rw [ramIn_eq hm] at hcheck
            exact absurd (hno.symm.trans hcheck) Bool.false_ne_true

theorem Wired.step_reset (w : Wired s i) (hs : (s.step i).cpu.state = .reset) :
    (s.step i).cpu.checkTags = false := by
  rw [step_cpu] at hs ⊢
  cases hr : i.cpuRst with
  | true => simp [Cpu.State.step, State.cpuIn, hr]
  | false =>
      have hold := w.flow.of_step_reset (i := s.cpuIn i) hr hs
      simp [Cpu.State.step, State.cpuIn, hr, hold, w.reset hold]

/-- The acknowledge line rises only after the write of a CSR instruction. -/
theorem Wired.csr2_of_clear (w : Wired s i) (h : (s.step i).cpu.csr.tagsIrqClear = true) :
    i.cpuRst = false ∧ s.cpu.state = .csr2 := by
  cases hr : i.cpuRst with
  | true =>
      refine absurd h (Bool.eq_false_iff.mp ?_)
      simp [State.step, Cpu.State.step, Csr.State.step, Cpu.State.csrIn, State.cpuIn, hr]
  | false =>
      rw [step_cpu, Cpu.step_csr_eq (i := s.cpuIn i) hr] at h
      simp only [Csr.State.clock, Csr.State.step, Bool.false_eq_true, if_false] at h
      split_ifs at h with haddr
      exact ⟨rfl, csr2_of_irqClear w.flow.toCoherent (by simpa using haddr) h⟩

theorem Wired.step_clear (w : Wired s i) (hh : i.extCpuHalt = false)
    (h : (s.step i).cpu.csr.tagsIrqClear = true) : (s.step i).cpu.state = .updatePc := by
  obtain ⟨hr, hst⟩ := w.csr2_of_clear h
  have hready := w.flow.not_busy (i := s.cpuIn i) hh (by rw [hst]; rfl)
  rw [step_cpu, step_state_of_not_busy hr hready]
  simp [Cpu.State.control, hst]

theorem Wired.step (w : Wired s i) (hm : i.busMaster = false) (hj : j.busMaster = false)
    (hh : i.extCpuHalt = false) : Wired (s.step i) j where
  flow := by
    rw [step_cpu]
    cases hr : i.cpuRst with
    | true => exact w.flow.toStartable.flow hr (by decide)
    | false => exact w.flow.step (w.undisturbed hm hh hr)
  serving := w.step_serving hm hj
  timer := w.step_timer hm
  mux := w.step_mux hm
  we := w.flow.step_bus_we (i := s.cpuIn i) hh w.we
  writing := w.step_writing hm
  stop := w.step_stop
  mismatch := w.step_mismatch hm hh
  reset := w.step_reset
  clear := w.step_clear hh

/-- The clock that resets both halves of the system establishes everything. -/
theorem wired_of_reset (h : Startable s.cpu) (hc : i.cpuRst = true) (hr : i.rst = true) :
    Wired (s.step i) j := by
  have hst : (s.step i).cpu.state = .reset := step_state_of_rst (i := s.cpuIn i) hc
  have hram : (s.ramIn i).rst = true := hr
  constructor
  case flow => exact h.flow hc (by decide)
  case serving => apply WbRam.serving_of_quiet <;> simp [State.step, WbRam.State.step, hram]
  case we | stop => simp [hst]
  case reset | clear | timer | mux | writing | mismatch =>
    simp [State.step, Cpu.State.step, WbTimer.State.step, WbRam.State.step, State.timerIn,
      State.ramIn, State.cpuIn, Csr.State.step, Cpu.State.csrIn, hc, hr]

end step

/-! ## Runs -/

/-- A run from power-on. The first clock resets the processor and the slaves;
later ones may reset either. -/
structure Powered (r : Run (State.step (g := g))) : Prop where
  power : Startable (r.state 0).cpu
  cpuRst : (r.input 0).cpuRst = true
  rst : (r.input 0).rst = true
  halt : ∀ t, (r.input t).extCpuHalt = false
  master : ∀ t, (r.input t).busMaster = false

theorem Powered.wired {r : Run (State.step (g := g))} (h : Powered r) {t : ℕ} (ht : 0 < t) :
    Wired (r.state t) (r.input t) := by
  induction t, ht using Nat.le_induction with
  | base =>
      rw [r.next]
      exact wired_of_reset h.power h.cpuRst h.rst
  | succ t ht ih =>
      rw [r.next]
      exact ih.step (h.master t) (h.master _) (h.halt t)

/-- What is left of a run from power-on after its last reset: every state that
is reachable is a state of such a run, with all that can still follow it. -/
structure Reached (r : Run (State.step (g := g))) : Prop where
  past : ∃ (r₀ : Run (State.step (g := g))) (t : ℕ), Powered r₀ ∧ 0 < t ∧ r = r₀.drop t
  cpuRst : ∀ t, (r.input t).cpuRst = false
  rst : ∀ t, (r.input t).rst = false

/-- The processor's share of a run. -/
def cpuRun (r : Run (State.step (g := g))) : Run (Cpu.State.step cpuResetAddr) where
  state t := (r.state t).cpu
  input t := (r.state t).cpuIn (r.input t)
  next t := by rw [r.next]; rfl

theorem next_cpu (r : Run (State.step (g := g))) (t : ℕ) :
    (r.state (t + 1)).cpu = (r.state t).cpu.step cpuResetAddr ((r.state t).cpuIn (r.input t)) := by
  rw [r.next]
  rfl

section reached
variable {r : Run (State.step (g := g))} (h : Reached r)
include h

theorem Reached.wired (t : ℕ) : Wired (r.state t) (r.input t) := by
  obtain ⟨r₀, t₀, hp, ht, rfl⟩ := h.past
  exact hp.wired (by omega)

theorem Reached.master (t : ℕ) : (r.input t).busMaster = false := by
  obtain ⟨r₀, t₀, hp, ht, rfl⟩ := h.past
  exact hp.master _

theorem Reached.halt (t : ℕ) : (r.input t).extCpuHalt = false := by
  obtain ⟨r₀, t₀, hp, ht, rfl⟩ := h.past
  exact hp.halt _

theorem Reached.coherent (t : ℕ) : Coherent (r.state t).cpu := (h.wired t).flow.toCoherent

theorem Reached.undisturbed (t : ℕ) :
    Undisturbed (r.state t).cpu ((r.state t).cpuIn (r.input t)) :=
  (h.wired t).undisturbed (h.master t) (h.halt t) (h.cpuRst t)

end reached

/-! ## The memory while the bus is free -/

section rest
variable {s : State g} {i : Inputs}

/-- No request, no comparison under way. -/
structure RamRests (s : State g) : Prop where
  state : s.ram.state = .idle
  ack : s.ram.ack = false
  mismatch : s.ram.tagMismatch = false

theorem Wired.ramRests (w : Wired s i) (hm : i.busMaster = false)
    (hs : judging s.cpu.state = false) : RamRests s := by
  have hbus : s.cpu.state.usesBus = false := by
    revert hs
    simp +contextual [judging]
  have hcyc : s.cpu.bus.cyc = false := w.flow.cyc.trans (w.flow.bus_free hbus)
  have hack : s.ram.ack = false := Bool.eq_false_iff.mpr fun ha => by
    simpa [hcyc] using (cyc_of_requests hm (w.serving.request ha)).1
  refine ⟨?_, hack, Bool.eq_false_iff.mpr fun hmis => by simp [w.mismatch hmis] at hs⟩
  cases hst : s.ram.state with
  | idle => rfl
  | writeWord => exact absurd (w.serving.writing hst) (by simp [hack])
  | writeTag => exact absurd hst w.serving.used
  | stop =>
      rcases w.stop hst hack with hc | hc <;> rw [hc] at hbus <;> exact absurd hbus (by decide)

theorem Wired.not_requests (w : Wired s i) (hm : i.busMaster = false)
    (hbus : s.cpu.bus.busy = false) : (s.ramIn i).requests = false :=
  Bool.eq_false_iff.mpr fun hreq => by
    simpa [w.flow.cyc, hbus] using (cyc_of_requests hm hreq).1

/-- Without a request it stays idle, and what is left of a comparison goes on to
the interrupt line. -/
theorem Wired.ram_idle_step (w : Wired s i) (hr : i.rst = false) (hs : s.ram.state = .idle)
    (hno : (s.ramIn i).requests = false) :
    RamRests (s.step i) ∧ (s.step i).ram.contents = s.ram.contents ∧
      (s.step i).ram.irq = (!s.cpu.csr.tagsIrqClear && (s.ram.tagMismatch || s.ram.irq)) := by
  have hno' : (s.ramIn i).ramAccessed = false ∧ (s.ramIn i).tagAccessed = false := by
    simpa [WbRam.Inputs.requests] using hno
  have hrst : (s.ramIn i).rst = false := hr
  have hclear : (s.ramIn i).clearMismatch = s.cpu.csr.tagsIrqClear := rfl
  refine ⟨?_, ?_, ?_⟩
  · constructor <;> simp [step_ram, WbRam.State.step, WbRam.State.control, hrst, hs, hno']
  · rw [step_ram, w.serving.contents_step, w.serving.idle hs]
    simp
  · rw [step_ram, WbRam.step_irq hrst, hclear]

/-- It stays at rest, and only the acknowledge bit of the `tags` register
reaches the interrupt line. -/
theorem Wired.ramRests_step (w : Wired s i) (hm : i.busMaster = false) (hr : i.rst = false)
    (hrest : RamRests s) (hbus : s.cpu.bus.busy = false) :
    RamRests (s.step i) ∧ (s.step i).ram.contents = s.ram.contents ∧
      (s.step i).ram.irq = (!s.cpu.csr.tagsIrqClear && s.ram.irq) := by
  have hstep := w.ram_idle_step hr hrest.state (w.not_requests hm hbus)
  rwa [hrest.mismatch, Bool.false_or] at hstep

end rest

/-- While the memory has no request and nothing is acknowledged. -/
theorem Reached.ram_quiet {r : Run (State.step (g := g))} (h : Reached r) {t n : ℕ} (hn : t ≤ n)
    (hrest : RamRests (r.state t))
    (hno : ∀ k, t ≤ k → k < n → ((r.state k).ramIn (r.input k)).requests = false)
    (hclear : ∀ k, t ≤ k → k < n → (r.state k).cpu.csr.tagsIrqClear = false) :
    RamRests (r.state n) ∧ (r.state n).ram.contents = (r.state t).ram.contents ∧
      (r.state n).ram.irq = (r.state t).ram.irq := by
  induction n, hn using Nat.le_induction with
  | base => exact ⟨hrest, rfl, rfl⟩
  | succ n hn ih =>
      obtain ⟨h₁, h₂, h₃⟩ := ih (fun k hk hlt => hno k hk (by omega))
        (fun k hk hlt => hclear k hk (by omega))
      obtain ⟨g₁, g₂, g₃⟩ := (h.wired n).ram_idle_step (h.rst n) h₁.state (hno n hn (by omega))
      rw [← r.next n] at g₁ g₂ g₃
      rw [hclear n hn (by omega), h₁.mismatch, Bool.false_or] at g₃
      exact ⟨g₁, g₂.trans h₂, g₃.trans h₃⟩

/-! ## Booting a program

A memory of eight words and two granules; the reset vector points at its first
word. -/

section boot
variable (regs : Registers.RegFile) (file : BitVec 4 → BitVec 32) (words : List (BitVec 32))
  (tags : BitVec 1 → BitVec 4)

def powerOn : State 1 where
  cpu :=
    let s := restState regs 0#32
    { s with state := .reset, csr := { s.csr with ram := ⟨file, 0#32⟩ } }
  ram := ⟨.idle, false, false, false, false, false, ⟨fun a => words.getD a.toNat 0#32, 0#32⟩,
    ⟨tags, 0#4⟩⟩
  timer := ⟨0#64, 0#64, 0#64, 0#64, 0#64, false, false⟩
  uart := ⟨false, 0#32, 0#32, false, 0#10, 0#4, 0#32, false, false⟩
  ext := ⟨false, false, 0#32, 0#4, false⟩
  muxAck := false

/-- A reset in the first clock and nothing from outside after it. -/
def bootInputs (t : ℕ) : Inputs :=
  ⟨t == 0, t == 0, false, 0#32, 0#32, 0#2, false, false, false, false, false, false⟩

def boot : Run (State.step (g := 1)) :=
  Run.closed _ (fun t _ => bootInputs t) (powerOn regs file words tags)

theorem boot_powered (h0 : regs 0#5 = 0#32) : Powered (boot regs file words tags) where
  power := ⟨h0, rfl, rfl, fun h => absurd h Bool.false_ne_true⟩
  cpuRst := rfl
  rst := rfl
  halt _ := rfl
  master _ := rfl

/-- The run after its reset. -/
def booted : Run (State.step (g := 1)) := (boot regs file words tags).drop 1

theorem booted_reached (h0 : regs 0#5 = 0#32) : Reached (booted regs file words tags) where
  past := ⟨_, 1, boot_powered regs file words tags h0, Nat.one_pos, rfl⟩
  cpuRst t := by
    change (1 + t == 0) = false
    simp
  rst t := by
    change (1 + t == 0) = false
    simp

end boot

end TagSoc.Soc
