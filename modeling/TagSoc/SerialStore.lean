import TagSoc.SocAlike
import TagSoc.BusProgress

/-!
# A store that waits for the serial port

A store to the transmit register is answered when the byte is sent, and how many
clocks that takes depends on what the port did before. Until then nothing else in the
system moves (`Calm`). With the largest divider the counter of the port never passes
it and the store is not answered at all (`Calm.divider`), so an answer to one of two
such stores means that the other is answered as well (`Reached.transmit_answered`).
-/
namespace TagSoc.WbUart

variable {s : State} {i : Inputs}

/-- The bit counter arrives at the stop bit of a byte that is being sent. -/
def State.last (s : State) : Bool := s.inProg && s.sendBitcnt == 1#4

theorem step_finished (hr : i.rst = false) : (s.step i).finished = s.last := by
  simp [State.step, State.last, hr]

def maxDivider : BitVec 32 := 0xFFFFFFFF#32

/-- With the largest divider nothing is shifted. -/
theorem step_last (hr : i.rst = false) (hd : s.cfgDivider = maxDivider) :
    (s.step i).last = false := by
  have hshift : ¬ s.cfgDivider < s.sendDivcnt := by
    have := s.sendDivcnt.isLt
    rw [hd, maxDivider, BitVec.lt_def, BitVec.toNat_ofNat]
    omega
  cases hp : s.inProg <;> by_cases h₁ : s.sendBitcnt = 1#4 <;> by_cases h₀ : s.sendBitcnt = 0#4 <;>
    cases ht : s.txStarted <;> simp [State.last, State.step, hr, hshift, hp, h₁, h₀, ht]

end TagSoc.WbUart

namespace TagSoc.Soc
open Clocked Cpu

variable {g : ℕ}

/-- The port is not at the end of a byte, unless a request was dropped by a reset or the
divider was changed a moment ago. -/
def Stalls (s : State g) : Prop :=
  s.cpu.state = .reset ∨ (s.cpu.state = .store2 ∧ s.transmits = false) ∨
    (s.uart.last = false ∧ (s.uart.finished = true → s.cpu.state = .updatePc ∨
      s.cpu.state = .preFetch) ∧ (s.transmits = true → s.uart.ack = false))

structure Calm (s : State g) : Prop where
  addressed : Addressed s.cpu
  idle : s.cpu.state = .cpuIdle → s.cpu.csr.Still
  we : s.cpu.state = .store2 → s.transmits = true → s.cpu.csr.we = false
  still : s.cpu.state = .store2 → s.transmits = true → s.cpu.csr.busy = false → s.cpu.csr.Still
  first : s.cpu.state = .store2 → s.transmits = true → s.cpu.csr.busy = true → s.uart.ack = false
  ram : s.cpu.state = .store2 → s.transmits = true → RamRests s
  divider : s.uart.cfgDivider = WbUart.maxDivider → Stalls s

section step
variable {s : State g} {i : Inputs}

theorem ramRests_of_rst (hr : i.rst = true) : RamRests (s.step i) := by
  have hrst : (s.ramIn i).rst = true := hr
  constructor <;> simp [step_ram, WbRam.State.step, hrst]

theorem mtimecmp_of_transmits (hm : i.busMaster = false) (h : s.transmits = true) :
    (s.cpuIn i).clearMipTimer = false := by
  obtain ⟨-, -, -, hsel⟩ := accessUart_of_transmits h
  have hreg : (s.cpu.bus.adr.extractLsb' 2 3).extractLsb' 0 2 = 1#2 := by
    rwa [BitSlices.extractLsb'_extractLsb' _ 2 3 0 2 (by decide)]
  have hne : ∀ q : BitVec 3, q.extractLsb' 0 2 = 1#2 → q ≠ WbTimer.mtimecmpLo ∧
      q ≠ WbTimer.mtimecmpHi := by decide
  simp [State.cpuIn, WbTimer.Inputs.mtimecmpAccessed, WbTimer.Inputs.reg, State.timerIn,
    master_eq hm, State.cpuMaster, hne _ hreg]

/-- A store that is seen was there before, unless the bus was free. -/
theorem Wired.transmits_before (w : Wired s i) (h : (s.step i).transmits = true) :
    s.cpu.bus.cyc = false ∨ s.transmits = true := by
  cases hc : s.cpu.bus.cyc with
  | false => exact Or.inl rfl
  | true =>
      right
      cases ha : s.cpuAck i with
      | true =>
          have hfree := w.bus_answered hc ha
          exact absurd (hfree.symm.trans (accessUart_of_transmits h).1) Bool.false_ne_true
      | false => rwa [transmits_congr (w.bus_held hc ha)] at h

/-- The two ways into `store2`. -/
theorem Wired.of_step_store2 (w : Wired s i) (hm : i.busMaster = false)
    (hh : i.extCpuHalt = false) (hr : i.cpuRst = false) (hs : (s.step i).cpu.state = .store2)
    (ht : (s.step i).transmits = true) :
    (s.cpu.state = .store1 ∧ s.cpu.bus.cyc = false) ∨
      (s.cpu.state = .store2 ∧ s.transmits = true) := by
  have u := w.undisturbed hm hh hr
  have hmem := w.flow.toCoherent.step_state_mem (v := cpuResetAddr) u.rst
  rw [← step_cpu, hs] at hmem
  have hold : s.cpu.state = .store1 ∨ s.cpu.state = .store2 := by
    revert hmem
    cases s.cpu.state <;> simp [MainState.successors]
  rcases hold with hold | hold
  · exact Or.inl ⟨hold, w.flow.cyc.trans (w.flow.bus_free (by rw [hold]; rfl))⟩
  · refine Or.inr ⟨hold, (w.transmits_before ht).resolve_left fun hc => ?_⟩
    -- no request is made here
    have hack : (s.cpuIn i).ack = false := Bool.eq_false_iff.mpr fun ha => by
      simpa [hc] using w.ack_cyc hm ha
    have hbus : (s.step i).cpu.bus = s.cpu.bus := by
      rw [step_cpu, step_store2 w.flow.toCoherent u hold, hack]
      rfl
    rw [transmits_congr hbus] at ht
    exact absurd (hc.symm.trans (accessUart_of_transmits ht).1) Bool.false_ne_true

/-- The parts that speak of a store, in its first clock and later. -/
theorem Calm.step_store (h : Calm s) (w : Wired s i) (hm : i.busMaster = false)
    (hh : i.extCpuHalt = false) (hr : i.cpuRst = false) (hs : (s.step i).cpu.state = .store2)
    (ht : (s.step i).transmits = true) :
    (s.step i).cpu.csr.we = false ∧
      ((s.step i).cpu.csr.busy = false → (s.step i).cpu.csr.Still) ∧
      ((s.step i).cpu.csr.busy = true → (s.step i).uart.ack = false) ∧ RamRests (s.step i) := by
  have u := w.undisturbed hm hh hr
  have hx := w.flow.toCoherent
  have hrest : RamRests s → (s.ramIn i).requests = false → RamRests (s.step i) := by
    intro hrest hno
    cases hrst : i.rst with
    | true => exact ramRests_of_rst hrst
    | false => exact (w.ram_idle_step hrst hrest.state hno).1
  rcases w.of_step_store2 hm hh hr hs ht with ⟨hold, hc⟩ | ⟨hold, htr⟩
  · have hb : s.cpu.csr.busy = false := hx.csr_free (by rw [hold]; rfl)
    have hcsr : (s.step i).cpu.csr = s.cpu.csr.clock { en := true, addr := Csr.msrMip } := by
      rw [step_cpu, step_store1 hx u hold]
    rw [hcsr]
    refine ⟨?_, ?_, ?_, ?_⟩
    · simp [Csr.State.clock, Csr.State.step, hb]
    · simp [hb]
    · intro _
      have hu : (s.uartIn i).cyc = false := by
        simp [State.uartIn, master_eq hm, State.cpuMaster, hc]
      have hstep : (s.step i).uart = s.uart.step (s.uartIn i) := rfl
      rw [hstep, WbUart.State.step, WbUart.busSide_idle hu]
      split_ifs <;> rfl
    · refine hrest (w.ramRests hm (by rw [hold]; rfl)) (w.not_requests hm ?_)
      rw [← w.flow.cyc, hc]
  · have hcsr : (s.step i).cpu.csr = s.cpu.csr.rest := by
      rw [step_cpu, step_store2 hx u hold, mtimecmp_of_transmits hm htr]
      rfl
    have hwe := h.we hold htr
    rw [hcsr]
    refine ⟨?_, ?_, ?_, ?_⟩
    · simp [Csr.State.rest, Csr.State.clock, Csr.State.step, hwe]
    · intro _
      exact Csr.still_of_not_we hwe
    · simp
    · refine hrest (h.ram hold htr) (Bool.eq_false_iff.mpr fun hreq => ?_)
      have hram := (cyc_of_requests hm hreq).2
      exact absurd ((w.stores hm htr).2.1.symm.trans hram) Bool.false_ne_true

theorem Calm.step_idle (h : Calm s) (w : Wired s i) (hm : i.busMaster = false)
    (hh : i.extCpuHalt = false) (hr : i.cpuRst = false) (hs : (s.step i).cpu.state = .cpuIdle) :
    (s.step i).cpu.csr.Still := by
  have u := w.undisturbed hm hh hr
  have hx := w.flow.toCoherent
  have hmem := hx.step_state_mem (v := cpuResetAddr) u.rst
  rw [← step_cpu, hs] at hmem
  have hold : s.cpu.state = .updatePc ∨ s.cpu.state = .cpuIdle := by
    revert hmem
    cases s.cpu.state <;> simp [MainState.successors]
  rcases hold with hold | hold
  · cases hb : s.cpu.csr.busy with
    | true =>
        rw [step_cpu, step_updatePc_busy hx u hold hb] at hs
        exact absurd (hold.symm.trans hs) (by decide)
    | false =>
        have hwe : s.cpu.csr.we = false := Bool.eq_false_iff.mpr fun hw => by
          simpa [hb] using hx.csr_we hw
        rw [step_cpu, step_updatePc hx u hold hb]
        exact Csr.still_of_not_we hwe
  · rw [step_cpu, step_cpuIdle hx u hold]
    exact (h.idle hold).rest

/-- A clock that writes the divider. -/
theorem Wired.stalls_of_write (w : Wired s i) (hr : i.cpuRst = false)
    (hc : s.cpu.bus.cyc = true) (hw : s.cpu.bus.we = true) (ht : s.transmits = false) :
    Stalls (s.step i) := by
  have hb : s.cpu.bus.busy = true := w.flow.cyc ▸ hc
  have hst : (s.step i).cpu.state = s.cpu.state :=
    step_state_of_busy (i := s.cpuIn i) hr (by simp [Cpu.State.busy, hb])
  rcases w.we hw with hs | hs
  · refine Or.inr (Or.inl ⟨hst.trans hs, Bool.eq_false_iff.mpr fun ht' => ?_⟩)
    rcases w.transmits_before ht' with h | h
    · exact absurd (h.symm.trans hc) Bool.false_ne_true
    · exact absurd (ht.symm.trans h) Bool.false_ne_true
  · exact Or.inl (hst.trans hs)

/-- With the largest divider and no reset. -/
theorem Wired.stalls_step (w : Wired s i) (hm : i.busMaster = false) (hh : i.extCpuHalt = false)
    (hr : i.cpuRst = false) (hrst : i.rst = false) (hd : s.uart.cfgDivider = WbUart.maxDivider)
    (h : Stalls s) : Stalls (s.step i) := by
  have u := w.undisturbed hm hh hr
  have hx := w.flow.toCoherent
  have hin : (s.uartIn i).rst = false := hrst
  have hlast : (s.step i).uart.last = false := WbUart.step_last hin hd
  have hfin : (s.step i).uart.finished = s.uart.last := WbUart.step_finished hin
  have hfree : (s.step i).cpu.state.usesBus = false → (s.step i).transmits = false := by
    intro hs
    have hbus := (w.step hm hm hh).flow.bus_free hs
    refine Bool.eq_false_iff.mpr fun ht => ?_
    rw [(w.step hm hm hh).flow.cyc.symm.trans (accessUart_of_transmits ht).1] at hbus
    exact absurd hbus (by decide)
  rcases h with hs | ⟨hs, ht⟩ | ⟨hl, hf, ha⟩
  · have hst : (s.step i).cpu.state = if s.cpu.bus.busy then .reset else .preFetch := by
      rw [step_cpu, Cpu.step_reset hx u hs]
    split_ifs at hst
    · exact Or.inl hst
    · refine Or.inr (Or.inr ⟨hlast, fun _ => Or.inr hst, fun ht => ?_⟩)
      exact absurd ((hfree (by rw [hst]; rfl)).symm.trans ht) Bool.false_ne_true
  · have hst : (s.step i).cpu.state =
        if s.cpu.bus.busy || s.cpu.csr.busy then .store2 else .updatePc := by
      rw [step_cpu, step_store2 hx u hs]
    split_ifs at hst
    · refine Or.inr (Or.inl ⟨hst, Bool.eq_false_iff.mpr fun ht' => ?_⟩)
      rcases w.of_step_store2 hm hh hr hst ht' with ⟨h₁, -⟩ | ⟨-, h₂⟩
      · exact absurd (hs.symm.trans h₁) (by decide)
      · exact absurd (ht.symm.trans h₂) Bool.false_ne_true
    · refine Or.inr (Or.inr ⟨hlast, fun _ => Or.inl hst, fun ht' => ?_⟩)
      exact absurd ((hfree (by rw [hst]; rfl)).symm.trans ht') Bool.false_ne_true
  · refine Or.inr (Or.inr ⟨hlast, fun h => ?_, fun ht => ?_⟩)
    · exact absurd (hl.symm.trans (hfin.symm.trans h)) Bool.false_ne_true
    · have hstep : (s.step i).uart.ack = (s.uart.busSide (s.uartIn i)).ack :=
        (WbUart.step_bus hin).1
      rw [hstep]
      rcases w.transmits_before ht with hc | htr
      · rw [WbUart.busSide_idle (by simp [State.uartIn, master_eq hm, State.cpuMaster, hc])]
      · have hfin : s.uart.finished = false := Bool.eq_false_iff.mpr fun h => by
          rcases hf h with h₁ | h₁ <;>
            rcases w.we (accessUart_of_transmits htr).2.1 with h₂ | h₂ <;>
            exact absurd (h₁.symm.trans h₂) (by decide)
        rw [WbUart.busSide_stores (w.stores hm htr).2.2, hfin]
        exact ha htr

theorem divider_kept (hm : i.busMaster = false) (w : Wired s i)
    (h : ¬ (s.cpu.bus.cyc = true ∧ s.cpu.bus.we = true ∧ s.transmits = false)) :
    (s.uart.busSide (s.uartIn i)).cfgDivider = s.uart.cfgDivider := by
  cases ht : s.transmits with
  | true => rw [WbUart.busSide_stores (w.stores hm ht).2.2]
  | false =>
      cases hc : s.cpu.bus.cyc with
      | false =>
          rw [WbUart.busSide_idle (by simp [State.uartIn, master_eq hm, State.cpuMaster, hc])]
      | true =>
          have hwe : (s.uartIn i).we = false := by
            simpa [State.uartIn, master_eq hm, State.cpuMaster, hc, ht] using h
          simp only [WbUart.State.busSide, hwe, Bool.false_eq_true, if_false]
          split_ifs <;> rfl

theorem Calm.step_divider (h : Calm s) (w : Wired s i) (hm : i.busMaster = false)
    (hh : i.extCpuHalt = false) (hr : i.cpuRst = false)
    (hd : (s.step i).uart.cfgDivider = WbUart.maxDivider) : Stalls (s.step i) := by
  cases hrst : i.rst with
  | true =>
      have hin : (s.uartIn i).rst = true := hrst
      have hone : (s.step i).uart.cfgDivider = 1#32 := by
        simp [State.step, WbUart.State.step, hin]
      exact absurd (hone.symm.trans hd) (by decide)
  | false =>
      have hin : (s.uartIn i).rst = false := hrst
      have hstep : (s.step i).uart.cfgDivider = (s.uart.busSide (s.uartIn i)).cfgDivider :=
        (WbUart.step_bus hin).2.2
      by_cases hw : s.cpu.bus.cyc = true ∧ s.cpu.bus.we = true ∧ s.transmits = false
      · exact w.stalls_of_write hr hw.1 hw.2.1 hw.2.2
      · have hold : s.uart.cfgDivider = WbUart.maxDivider := by
          rw [← divider_kept hm w hw, ← hstep, hd]
        exact w.stalls_step hm hh hr hrst hold (h.divider hold)

theorem calm_of_rst (hr : i.cpuRst = true) : Calm (s.step i) := by
  have hst : (s.step i).cpu.state = .reset := step_state_of_rst (i := s.cpuIn i) hr
  have hseq : (s.step i).cpu.trapState = .reset ∧ (s.step i).cpu.mretState = .reset := by
    simp [State.step, Cpu.State.step, State.cpuIn, hr]
  constructor
  case addressed =>
    constructor <;> simp [State.ownsCsr, State.handlingTrap, State.handlingMret, hst, hseq]
  case divider => exact fun _ => Or.inl hst
  all_goals simp [hst]

theorem Calm.step (h : Calm s) (w : Wired s i) (hm : i.busMaster = false)
    (hh : i.extCpuHalt = false) : Calm (s.step i) := by
  cases hr : i.cpuRst with
  | true => exact calm_of_rst hr
  | false =>
      have hstore := fun hs ht => h.step_store w hm hh hr hs ht
      exact {
        addressed := h.addressed.step w.flow.toCoherent (w.undisturbed hm hh hr)
        idle := h.step_idle w hm hh hr
        we := fun hs ht => (hstore hs ht).1
        still := fun hs ht => (hstore hs ht).2.1
        first := fun hs ht => (hstore hs ht).2.2.1
        ram := fun hs ht => (hstore hs ht).2.2.2
        divider := h.step_divider w hm hh hr }

end step

/-! ## Runs -/

theorem Powered.calm {r : Run (State.step (g := g))} (h : Powered r) {t : ℕ} (ht : 0 < t) :
    Calm (r.state t) := by
  induction t, ht using Nat.le_induction with
  | base =>
      rw [r.next]
      exact calm_of_rst h.cpuRst
  | succ t ht ih =>
      rw [r.next]
      exact ih.step (h.wired ht) (h.master t) (h.halt t)

theorem Reached.calm {r : Run (State.step (g := g))} (h : Reached r) (t : ℕ) :
    Calm (r.state t) := by
  obtain ⟨r₀, t₀, hp, ht, rfl⟩ := h.past
  exact hp.calm (by omega)

theorem Reached.plain {r : Run (State.step (g := g))} (h : Reached r) (t : ℕ) :
    (r.input t).Plain :=
  ⟨h.master t, h.rst t, h.cpuRst t, h.halt t⟩

/-- The serial port's share of a run. -/
def uartRun (r : Run (State.step (g := g))) : Run WbUart.State.step where
  state t := (r.state t).uart
  input t := (r.state t).uartIn (r.input t)
  next t := by rw [r.next]; rfl

section waiting
variable {r : Run (State.step (g := g))} (h : Reached r) {t : ℕ}
include h

/-- A store that has got no answer is still there. -/
theorem Reached.transmit_stays (hs : (r.state t).cpu.state = .store2)
    (ht : (r.state t).transmits = true) (ha : (r.state t).uart.ack = false) :
    (r.state (t + 1)).cpu.state = .store2 ∧ (r.state (t + 1)).transmits = true ∧
      (r.state (t + 1)).cpu.bus = (r.state t).cpu.bus := by
  have w := h.wired t
  obtain ⟨hc, -, hu, -⟩ := accessUart_of_transmits ht
  obtain ⟨htimer, hram, -⟩ := w.stores (h.master t) ht
  have hack : (r.state t).cpuAck (r.input t) = false := by
    simp [State.cpuAck, master_eq (h.master t), htimer, hram, hu, WbUart.State.ackOut, ha]
  have hbus := w.bus_held hc hack
  have hb : (r.state t).cpu.bus.busy = true := w.flow.cyc ▸ hc
  rw [r.next]
  refine ⟨?_, (transmits_congr hbus).trans ht, hbus⟩
  rw [step_cpu, step_state_of_busy (i := (r.state t).cpuIn (r.input t)) (h.cpuRst t)
    (by simp [Cpu.State.busy, hb]), hs]

/-- The answer comes, with any divider but the largest. -/
theorem Reached.transmit_answered (hs : (r.state t).cpu.state = .store2)
    (ht : (r.state t).transmits = true) (hd : (r.state t).uart.cfgDivider ≠ WbUart.maxDivider) :
    ∃ n, t ≤ n ∧ (r.state n).uart.ack = true ∧ ∀ k, t ≤ k → k < n →
      (r.state k).uart.ack = false := by
  have hex : ∃ n, t ≤ n ∧ (r.state n).uart.ack = true := by
    by_contra hnone
    have hno : ∀ n, t ≤ n → (r.state n).uart.ack = false := fun n hn =>
      Bool.eq_false_iff.mpr fun ha => hnone ⟨n, hn, ha⟩
    -- then the request is held for ever, and the port answers it
    have hstays : ∀ n, t ≤ n → (r.state n).cpu.state = .store2 ∧
        (r.state n).transmits = true ∧ (r.state n).cpu.bus = (r.state t).cpu.bus := by
      intro n hn
      induction n, hn using Nat.le_induction with
      | base => exact ⟨hs, ht, rfl⟩
      | succ n hn ih =>
          obtain ⟨h₁, h₂, h₃⟩ := h.transmit_stays ih.1 ih.2.1 (hno n hn)
          exact ⟨h₁, h₂, h₃.trans ih.2.2⟩
    have hlt : ((uartRun r).state t).cfgDivider.toNat < 2 ^ 32 - 1 := by
      have hmax : (r.state t).uart.cfgDivider.toNat ≠ 2 ^ 32 - 1 := fun h =>
        hd (BitVec.eq_of_toNat_eq h)
      have := (r.state t).uart.cfgDivider.isLt
      change (r.state t).uart.cfgDivider.toNat < 2 ^ 32 - 1
      omega
    obtain ⟨n, hn, ha⟩ := WbUart.store_answered (r := uartRun r) (t := t)
      (x := (r.state t).cpu.bus.dat) (fun n _ => h.rst n) (fun n hn => by
        have hst := ((h.wired n).stores (h.master n) (hstays n hn).2.1).2.2
        rwa [(hstays n hn).2.2] at hst) hlt
    exact absurd ((hno n hn).symm.trans ha) Bool.false_ne_true
  refine ⟨Nat.find hex, (Nat.find_spec hex).1, (Nat.find_spec hex).2, fun k hk hlt => ?_⟩
  exact Bool.eq_false_iff.mpr fun ha => Nat.find_min hex hlt ⟨hk, ha⟩

end waiting

end TagSoc.Soc
