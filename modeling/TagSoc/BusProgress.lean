import TagSoc.SharedBus
import TagSoc.UartRun

/-!
# A held request is answered

The processor has no time-out, so a slave that does not answer stops it. Memory,
timer and multiplexer answer within a few clocks from any state, the serial port
once the byte is sent. Two of its registers never answer: a read of the transmit
register and any access to the sanity register (`held_request_answered_iff`).
-/
namespace TagSoc.WbUart
open Clocked

/-! ## A byte is sent from any state -/

section
variable {r : Run State.step} {t : ℕ} {x : BitVec 32} {d : ℕ}
  (hr : ∀ n, t ≤ n → (r.input n).rst = false) (hx : ∀ n, t ≤ n → (r.input n).Stores x)
include hr hx

theorem divider_kept (hd : (r.state t).cfgDivider.toNat = d) {n : ℕ} (hn : t ≤ n) :
    (r.state n).cfgDivider.toNat = d := by
  refine r.invariant (P := fun s => s.cfgDivider.toNat = d) hd (fun n hn h => ?_) n hn
  simp [State.step, hr n hn, busSide_stores (hx n hn), h]

/-- While bits are left to send the counter passes the divider, and the next
shift comes. -/
theorem shift_comes (hd : (r.state t).cfgDivider.toNat = d) (hlt : d < 2 ^ 32 - 1) {n : ℕ}
    (hn : t ≤ n) (hb : (r.state n).sendBitcnt ≠ 0#4)
    (hp : (r.state n).inProg = true → (r.state n).sendBitcnt ≠ 1#4) :
    ∃ m, n ≤ m ∧ (r.state m).sendBitcnt.toNat + 1 = (r.state n).sendBitcnt.toNat ∧
      (r.state m).inProg = (r.state n).inProg := by
  have hdiv := divider_kept hr hx hd hn
  have hlast : ((r.state n).inProg && (r.state n).sendBitcnt == 1#4) = false := by
    cases h : (r.state n).inProg with
    | false => rfl
    | true => simpa using hp h
  -- induction on the clocks that the counter still needs
  obtain ⟨k, hk⟩ : ∃ k, d + 1 - (r.state n).sendDivcnt.toNat = k := ⟨_, rfl⟩
  induction k generalizing n with
  | zero =>
      have hshift : (r.state n).cfgDivider < (r.state n).sendDivcnt := by
        rw [BitVec.lt_def]
        omega
      have hbit : (r.state (n + 1)).sendBitcnt = (r.state n).sendBitcnt - 1#4 := by
        simp [r.next, State.step, hr n hn, hb, hshift]
      have hpos : (r.state n).sendBitcnt.toNat ≠ 0 := fun h => hb (BitVec.eq_of_toNat_eq h)
      refine ⟨n + 1, Nat.le_succ n, ?_, ?_⟩
      · rw [hbit, BitVec.toNat_sub, BitVec.toNat_ofNat]
        omega
      · simp [r.next, State.step, hr n hn, hb, hlast]
  | succ k ih =>
      have hshift : ¬ (r.state n).cfgDivider < (r.state n).sendDivcnt := by
        rw [BitVec.lt_def]
        omega
      have hinc : ((r.state n).sendDivcnt + 1#32).toNat = (r.state n).sendDivcnt.toNat + 1 := by
        rw [BitVec.toNat_add, BitVec.toNat_ofNat]
        omega
      have hcnt : (r.state (n + 1)).sendDivcnt = (r.state n).sendDivcnt + 1#32 := by
        simp [r.next, State.step, hr n hn, hb, hshift]
      have hbit : (r.state (n + 1)).sendBitcnt = (r.state n).sendBitcnt := by
        simp [r.next, State.step, hr n hn, hb, hshift]
      have hprog : (r.state (n + 1)).inProg = (r.state n).inProg := by
        simp [r.next, State.step, hr n hn, hb, hlast]
      obtain ⟨m, hm, hbit', hprog'⟩ := ih (n := n + 1) (by omega) (by rwa [hbit])
        (by rwa [hbit, hprog]) (divider_kept hr hx hd (by omega)) (by rwa [hbit, hprog])
        (by rw [hcnt, hinc]; omega)
      exact ⟨m, by omega, hbit'.trans (by rw [hbit]), hprog'.trans hprog⟩

/-- A transmission comes to its stop bit. -/
theorem stop_comes (hd : (r.state t).cfgDivider.toNat = d) (hlt : d < 2 ^ 32 - 1) {b n : ℕ}
    (hn : t ≤ n) (hp : (r.state n).inProg = true) (hb : (r.state n).sendBitcnt.toNat = b + 1) :
    ∃ m, n ≤ m ∧ (r.state m).inProg = true ∧ (r.state m).sendBitcnt = 1#4 := by
  induction b generalizing n with
  | zero => exact ⟨n, le_rfl, hp, BitVec.eq_of_toNat_eq hb⟩
  | succ b ih =>
      have hone : (r.state n).sendBitcnt ≠ 1#4 := fun h => by simp [h] at hb
      obtain ⟨m, hm, hbit, hprog⟩ := shift_comes hr hx hd hlt hn
        (fun h => by simp [h] at hb) fun _ => hone
      obtain ⟨m', hm', hdone⟩ := ih (n := m) (by omega) (hprog.trans hp) (by omega)
      exact ⟨m', by omega, hdone⟩

/-- A stop bit that has given its pulse comes to its end. -/
theorem end_comes (hd : (r.state t).cfgDivider.toNat = d) (hlt : d < 2 ^ 32 - 1) {b n : ℕ}
    (hn : t ≤ n) (hp : (r.state n).inProg = false) (hb : (r.state n).sendBitcnt.toNat = b) :
    ∃ m, n ≤ m ∧ (r.state m).sendBitcnt = 0#4 := by
  induction b generalizing n with
  | zero => exact ⟨n, le_rfl, BitVec.eq_of_toNat_eq hb⟩
  | succ b ih =>
      obtain ⟨m, hm, hbit, hprog⟩ := shift_comes hr hx hd hlt hn (fun h => by simp [h] at hb)
        fun h => absurd (hp.symm.trans h) Bool.false_ne_true
      obtain ⟨m', hm', hdone⟩ := ih (n := m) (by omega) (hprog.trans hp) (by omega)
      exact ⟨m', by omega, hdone⟩

theorem ack_of_stop {n : ℕ} (hn : t ≤ n) (hp : (r.state n).inProg = true)
    (hb : (r.state n).sendBitcnt = 1#4) : (r.state (n + 2)).ack = true := by
  have hfin : (r.state (n + 1)).finished = true := by
    simp [r.next, State.step, hr n hn, hp, hb]
  simp [r.next (n + 1), State.step, hr (n + 1) (by omega), busSide_stores (hx (n + 1) (by omega)),
    hfin]

/-- With the shift side free the byte is loaded, unless the request is answered
by a pulse of the byte before. -/
theorem load_comes {n : ℕ} (hn : t ≤ n) (hb : (r.state n).sendBitcnt = 0#4) :
    ∃ m, n ≤ m ∧ ((r.state m).ack = true ∨
      (r.state m).inProg = true ∧ (r.state m).sendBitcnt = 10#4) := by
  have hload : ∀ n, t ≤ n → (r.state n).sendBitcnt = 0#4 → (r.state n).txStarted = true →
      (r.state (n + 1)).inProg = true ∧ (r.state (n + 1)).sendBitcnt = 10#4 := by
    intro n hn hb hs
    constructor <;> simp [r.next, State.step, hr n hn, hb, hs]
  cases hs : (r.state n).txStarted with
  | true => exact ⟨n + 1, Nat.le_succ n, Or.inr (hload n hn hb hs)⟩
  | false =>
      have hbus := busSide_stores (s := r.state n) (hx n hn)
      cases hf : (r.state n).finished with
      | true =>
          refine ⟨n + 1, Nat.le_succ n, Or.inl ?_⟩
          simp [r.next, State.step, hr n hn, hbus, hf]
      | false =>
          refine ⟨n + 2, by omega, Or.inr (hload (n + 1) (by omega) ?_ ?_)⟩
          · simp [r.next, State.step, hr n hn, hb, hs]
          · simp [r.next, State.step, hr n hn, hbus, hf]

theorem store_answered (hlt : (r.state t).cfgDivider.toNat < 2 ^ 32 - 1) :
    ∃ n, t ≤ n ∧ (r.state n).ack = true := by
  have hsend : ∀ n, t ≤ n → (r.state n).inProg = true → (r.state n).sendBitcnt ≠ 0#4 →
      ∃ m, t ≤ m ∧ (r.state m).ack = true := by
    intro n hn hp hb
    have hpos : (r.state n).sendBitcnt.toNat ≠ 0 := fun h => hb (BitVec.eq_of_toNat_eq h)
    obtain ⟨m, hm, hp, hb⟩ := stop_comes hr hx rfl hlt hn hp
      (b := (r.state n).sendBitcnt.toNat - 1) (by omega)
    exact ⟨m + 2, by omega, ack_of_stop hr hx (by omega) hp hb⟩
  have hfree : ∀ n, t ≤ n → (r.state n).sendBitcnt = 0#4 →
      ∃ m, t ≤ m ∧ (r.state m).ack = true := by
    intro n hn hb
    obtain ⟨m, hm, ha | ⟨hp, hb⟩⟩ := load_comes hr hx hn hb
    · exact ⟨m, by omega, ha⟩
    · exact hsend m (by omega) hp (by rw [hb]; decide)
  by_cases hb : (r.state t).sendBitcnt = 0#4
  · exact hfree t le_rfl hb
  cases hp : (r.state t).inProg with
  | true => exact hsend t le_rfl hp hb
  | false =>
      obtain ⟨m, hm, hb⟩ := end_comes hr hx rfl hlt le_rfl hp rfl
      exact hfree m hm hb

end

end TagSoc.WbUart

namespace TagSoc.SharedBus
open Clocked Soc

variable {g : ℕ}

/-! ## The slaves -/

/-- The request that no slave answers: any access to the sanity register of the
serial port and a read of its transmit register. -/
def Unanswered (s : State g) : Prop :=
  periphSelect s.cpu.adr = wbAccessUart ∧ s.uart.ack = false ∧
    (s.cpu.adr.extractLsb' 2 2 = WbUart.uartAddrSanity ∨
      s.cpu.adr.extractLsb' 2 2 = WbUart.uartAddrDataToTransmit ∧ s.cpu.we = false)

/-- The select lines of a request name a size, and the memory is not in the state
that no transition leads to. -/
structure Sound (s : State g) : Prop extends Inv s where
  sel : s.cpu.cyc = true → ∃ op : CpuBus.BusOp, s.cpu.sel = op.memSel
  ram : s.ram.state ≠ .writeTag

theorem Sound.step {s : State g} {i : Inputs} (h : Sound s) : Sound (s.step i) where
  toInv := h.toInv.step
  sel := by
    intro hc
    cases ha : s.cpuAck i with
    | true => simp [State.step, CpuBus.State.step, ha] at hc
    | false =>
        cases he : i.cpuEn with
        | true => exact ⟨i.cpuOp, by simp [State.step, CpuBus.State.step, ha, he]⟩
        | false =>
            obtain ⟨op, hop⟩ := h.sel (by simpa [State.step, CpuBus.State.step, ha, he] using hc)
            exact ⟨op, by simp [State.step, CpuBus.State.step, ha, he, hop]⟩
  ram := by
    have hram := h.ram
    simp only [State.step, WbRam.State.step, WbRam.State.control]
    cases hs : s.ram.state <;> simp_all <;> split_ifs <;> simp

theorem Started.sound {r : Run (State.step (g := g))} (h : Started r) {t : ℕ} (ht : 0 < t) :
    Sound (r.state t) := by
  have hfirst : Sound (r.state 1) := by
    refine ⟨h.inv Nat.one_pos, ?_, ?_⟩
    · intro hc
      rw [r.next] at hc ⊢
      cases ha : (r.state 0).cpuAck (r.input 0) with
      | true => simp [State.step, CpuBus.State.step, ha] at hc
      | false =>
          have he : (r.input 0).cpuEn = true := by
            simpa [State.step, CpuBus.State.step, ha, h.cyc] using hc
          exact ⟨(r.input 0).cpuOp, by simp [State.step, CpuBus.State.step, ha, he]⟩
    · simp [r.next, State.step, WbRam.State.step, State.ramIn, h.rst]
  exact r.invariant hfirst (fun _ _ hn => hn.step) t ht

/-- The serial port in the run of the bus. -/
def uartRun (r : Run (State.step (g := g))) : Run WbUart.State.step where
  state n := (r.state n).uart
  input n := (r.state n).uartIn (r.input n)
  next n := by
    rw [r.next]
    rfl

/-- The processor waits with the request `m` from clock `t` on and is never
answered. -/
structure Stuck (r : Run (State.step (g := g))) (t : ℕ) (m : Master) : Prop where
  rst : ∀ n, t ≤ n → (r.input n).rst = false
  lines : ∀ n, t ≤ n → (r.state n).master (r.input n) = m
  ack : ∀ n, t ≤ n → (r.state n).cpuAck (r.input n) = false

section stuck
variable {r : Run (State.step (g := g))} {t : ℕ} {m : Master} (h : Stuck r t m)
include h

theorem Stuck.not_timer (hc : m.cyc = true) : m.accessTimer = false := by
  refine Bool.eq_false_iff.mpr fun hm => ?_
  have hlow : ∀ n, t ≤ n → (r.state n).timer.ack = false := fun n hn => by
    simpa [State.cpuAck, h.lines n hn, hm] using h.ack n hn
  have hack : (r.state (t + 1)).timer.ack = true := by
    simp [r.next, State.step, WbTimer.State.step, State.timerIn, h.rst t le_rfl, h.lines t le_rfl,
      hc, hm, hlow t le_rfl]
  exact Bool.false_ne_true ((hlow (t + 1) (Nat.le_succ t)).symm.trans hack)

theorem Stuck.not_unmapped (hc : m.stb = true) :
    m.accessTimer = true ∨ m.accessRam = true ∨ m.accessUart = true := by
  by_contra hm
  simp only [not_or, Bool.not_eq_true] at hm
  have hlow : ∀ n, t ≤ n → (r.state n).muxAck = false := fun n hn => by
    simpa [State.cpuAck, h.lines n hn, hm] using h.ack n hn
  have hack : (r.state (t + 1)).muxAck = true := by
    simp [r.next, State.step, h.rst t le_rfl, h.lines t le_rfl, hc, hlow t le_rfl]
  exact Bool.false_ne_true ((hlow (t + 1) (Nat.le_succ t)).symm.trans hack)

/-- The memory is idle within two clocks and answers in the next. -/
theorem Stuck.not_ram (hc : m.cyc = true ∧ m.stb = true) {op : CpuBus.BusOp}
    (hsel : m.sel = op.memSel) (hs : (r.state t).ram.state ≠ .writeTag)
    (htimer : m.accessTimer = false) : m.accessRam = false := by
  refine Bool.eq_false_iff.mpr fun hm => ?_
  have hlow : ∀ n, t ≤ n → (r.state n).ram.ack = false := fun n hn => by
    simpa [State.cpuAck, h.lines n hn, hm, htimer] using h.ack n hn
  have hnot : ∀ n, t ≤ n → (r.state n).ram.state ≠ .idle := by
    intro n hn hidle
    have hack : (r.state (n + 1)).ram.ack = true := by
      cases op <;> simp [r.next, State.step, WbRam.State.step, WbRam.State.control, hidle,
        State.ramIn, h.rst n hn, h.lines n hn, WbRam.Inputs.tagAccessed, WbRam.Inputs.ramAccessed,
        WbRam.Inputs.accessTag, WbRam.Inputs.accessLoadStore, WbRam.Inputs.accessByte,
        WbRam.Inputs.accessHalf, WbRam.Inputs.accessWord, hc, hm, hsel, CpuBus.BusOp.memSel,
        WbRam.wbSelTag, WbRam.wbSelByte, WbRam.wbSelHalf, WbRam.wbSelWord]
    exact Bool.false_ne_true ((hlow (n + 1) (by omega)).symm.trans hack)
  have hstop : ∀ n, t ≤ n → (r.state n).ram.state ≠ .stop := by
    intro n hn hstop
    refine hnot (n + 1) (by omega) ?_
    simp [r.next, State.step, WbRam.State.step, WbRam.State.control, hstop, State.ramIn,
      h.rst n hn]
  cases hq : (r.state t).ram.state with
  | idle => exact hnot t le_rfl hq
  | stop => exact hstop t le_rfl hq
  | writeTag => exact hs hq
  | writeWord =>
      refine hstop (t + 1) (Nat.le_succ t) ?_
      simp [r.next, State.step, WbRam.State.step, WbRam.State.control, hq, State.ramIn,
        h.rst t le_rfl]

theorem Stuck.unanswered (hc : m.cyc = true ∧ m.stb = true) (hu : m.accessUart = true)
    (hother : m.accessTimer = false ∧ m.accessRam = false)
    (hd : (r.state t).uart.cfgDivider.toNat < 2 ^ 32 - 1) :
    (r.state t).uart.ack = false ∧ (m.addr.extractLsb' 2 2 = WbUart.uartAddrSanity ∨
      m.addr.extractLsb' 2 2 = WbUart.uartAddrDataToTransmit ∧ m.we = false) := by
  have hin : ∀ n, t ≤ n → (r.state n).uartIn (r.input n) =
      ⟨false, m.addr, m.data, m.we, true, true⟩ := fun n hn => by
    simp [State.uartIn, h.lines n hn, h.rst n hn, hc, hu]
  have hlow : ∀ n, t ≤ n → (r.state n).uart.ack = false := fun n hn => by
    have hack := h.ack n hn
    simpa [State.cpuAck, h.lines n hn, hother, hu, WbUart.State.ackOut, hin n hn] using hack
  refine ⟨hlow t le_rfl, ?_⟩
  have hnext : (r.state (t + 1)).uart =
      (r.state t).uart.step ⟨false, m.addr, m.data, m.we, true, true⟩ := by
    rw [r.next, ← hin t le_rfl]
    rfl
  have hlow' := hlow (t + 1) (Nat.le_succ t)
  rcases (by decide : ∀ x : BitVec 2, x = WbUart.uartAddrDivider ∨ x = WbUart.uartAddrSanity ∨
      x = WbUart.uartAddrDataToTransmit ∨ x = 3#2) (m.addr.extractLsb' 2 2) with
    hsel | hsel | hsel | hsel
  · simp [hnext, WbUart.State.step, WbUart.State.busSide, WbUart.Inputs.regSel, hsel] at hlow'
  · exact Or.inl hsel
  · refine Or.inr ⟨hsel, Bool.eq_false_iff.mpr fun hw => ?_⟩
    obtain ⟨n, hn, hack⟩ := WbUart.store_answered (r := uartRun r) (t := t) (x := m.data)
      (fun n hn => congrArg WbUart.Inputs.rst (hin n hn))
      (fun n hn => by
        change ((r.state n).uartIn (r.input n)).Stores m.data
        rw [hin n hn]
        exact ⟨rfl, rfl, hw, hsel, rfl⟩) hd
    exact Bool.false_ne_true ((hlow n hn).symm.trans hack)
  · simp [hnext, WbUart.State.step, WbUart.State.busSide, WbUart.Inputs.regSel, hsel,
      WbUart.uartAddrDivider, WbUart.uartAddrSanity, WbUart.uartAddrDataToTransmit] at hlow'

end stuck

/-! ## Held requests -/

/-- The processor is selected and waits, from clock `t` until it is answered. -/
def Holds (r : Run (State.step (g := g))) (t : ℕ) : Prop :=
  ∀ n, t ≤ n → (∀ k, t ≤ k → k < n → (r.state k).cpuAck (r.input k) = false) →
    (r.input n).rst = false ∧ (r.input n).busMaster = false ∧ (r.input n).cpuEn = false

section
variable {r : Run (State.step (g := g))} {t : ℕ} (hold : Holds r t)
include hold

theorem Holds.lines {n : ℕ} (hn : t ≤ n)
    (hno : ∀ k, t ≤ k → k < n → (r.state k).cpuAck (r.input k) = false) :
    (r.state n).cpuMaster = (r.state t).cpuMaster := by
  induction n, hn using Nat.le_induction with
  | base => rfl
  | succ n hn ih =>
      have hbefore : ∀ k, t ≤ k → k < n → (r.state k).cpuAck (r.input k) = false :=
        fun k h₁ h₂ => hno k h₁ (by omega)
      rw [r.next, cpuMaster_kept (hold n hn hbefore).2.2 (hno n hn (Nat.lt_succ_self n)),
        ih hbefore]

theorem Holds.master {n : ℕ} (hn : t ≤ n)
    (hno : ∀ k, t ≤ k → k < n → (r.state k).cpuAck (r.input k) = false) :
    (r.state n).master (r.input n) = (r.state t).cpuMaster := by
  rw [State.master, (hold n hn hno).2.1, ← hold.lines hn hno]
  rfl

theorem Holds.answered (hs : Sound (r.state t)) (hc : (r.state t).cpu.cyc = true)
    (hd : (r.state t).uart.cfgDivider.toNat < 2 ^ 32 - 1) (hu : ¬ Unanswered (r.state t)) :
    ∃ n, t ≤ n ∧ (r.state n).cpuAck (r.input n) = true := by
  by_contra hnever
  have hno : ∀ n, t ≤ n → (r.state n).cpuAck (r.input n) = false := fun n hn =>
    Bool.eq_false_iff.mpr fun ha => hnever ⟨n, hn, ha⟩
  have hstuck : Stuck r t (r.state t).cpuMaster :=
    ⟨fun n hn => (hold n hn fun k hk _ => hno k hk).1,
      fun n hn => hold.master hn fun k hk _ => hno k hk, hno⟩
  have hcyc : (r.state t).cpuMaster.cyc = true ∧ (r.state t).cpuMaster.stb = true :=
    ⟨hc, hs.stb.trans hc⟩
  obtain ⟨op, hop⟩ := hs.sel hc
  have htimer := hstuck.not_timer hcyc.1
  have hram := hstuck.not_ram hcyc hop hs.ram htimer
  have huart := hstuck.not_unmapped hcyc.2
  rw [htimer, hram] at huart
  have huart : (r.state t).cpuMaster.accessUart = true := by simpa using huart
  obtain ⟨hack, hreg⟩ := hstuck.unanswered hcyc huart ⟨htimer, hram⟩ hd
  exact hu ⟨by simpa [Master.accessUart, State.cpuMaster] using huart, hack, hreg⟩

/-- The acknowledge register of the serial port stays as it is. -/
theorem Holds.unanswered (hc : (r.state t).cpu.cyc = true ∧ (r.state t).cpu.stb = true)
    (hu : Unanswered (r.state t)) {n : ℕ} (hn : t ≤ n) :
    (r.state n).cpuAck (r.input n) = false := by
  obtain ⟨hregion, hack, hreg⟩ := hu
  have hwait : ∀ n, t ≤ n → (∀ k, t ≤ k → k < n → (r.state k).cpuAck (r.input k) = false) →
      (r.state n).uart.ack = false → (r.state n).cpuAck (r.input n) = false := by
    intro n hn hno hlow
    have hmaster := hold.master hn hno
    simp [State.cpuAck, hmaster, State.cpuMaster, Master.accessTimer, Master.accessRam,
      Master.accessUart, hregion, wbAccessTimer, wbAccessRam, wbAccessUart,
      WbUart.State.ackOut, hlow]
  -- no answer so far and none in the register
  have hall : ∀ n, t ≤ n → (∀ k, t ≤ k → k < n → (r.state k).cpuAck (r.input k) = false) ∧
      (r.state n).uart.ack = false := by
    intro n hn
    induction n, hn using Nat.le_induction with
    | base => exact ⟨fun k h₁ h₂ => absurd h₁ (Nat.not_le.mpr h₂), hack⟩
    | succ n hn ih =>
        obtain ⟨hno, hlow⟩ := ih
        refine ⟨fun k h₁ h₂ => ?_, ?_⟩
        · rcases Nat.lt_succ_iff_lt_or_eq.mp h₂ with h₂ | rfl
          · exact hno k h₁ h₂
          · exact hwait k h₁ hno hlow
        · have hin : (r.state n).uartIn (r.input n) = ⟨false, (r.state t).cpu.adr,
              (r.state t).cpu.dat, (r.state t).cpu.we, true, true⟩ := by
            simp [State.uartIn, hold.master hn hno, (hold n hn hno).1, State.cpuMaster,
              Master.accessUart, hregion, hc]
          simp only [r.next, State.step, hin, WbUart.State.step, WbUart.State.busSide,
            WbUart.Inputs.regSel]
          rcases hreg with hreg | ⟨hreg, hw⟩
          · simp [hreg, hlow, WbUart.uartAddrDivider, WbUart.uartAddrSanity]
          · simp [hreg, hw, hlow, WbUart.uartAddrDivider, WbUart.uartAddrSanity,
              WbUart.uartAddrDataToTransmit]
  obtain ⟨hno, hlow⟩ := hall n hn
  exact hwait n hn hno hlow

end

/-- A request that the processor holds is answered, from every state after the
reset, exactly if it is not one of those for which the serial port has no
answer. -/
theorem held_request_answered_iff {r : Run (State.step (g := g))} (h : Started r) {t : ℕ}
    (ht : 0 < t) (hc : (r.state t).cpu.cyc = true) (hold : Holds r t)
    (hd : (r.state t).uart.cfgDivider.toNat < 2 ^ 32 - 1) :
    (∃ n, t ≤ n ∧ (r.state n).cpuAck (r.input n) = true) ↔ ¬ Unanswered (r.state t) := by
  have hs := h.sound ht
  constructor
  · rintro ⟨n, hn, ha⟩ hu
    rw [hold.unanswered ⟨hc, hs.stb.trans hc⟩ hu hn] at ha
    cases ha
  · exact hold.answered hs hc hd

/-- A reset, then one request of the processor. -/
def oneRequest (op : CpuBus.BusOp) (addr : BitVec 32) : Run (State.step (g := 0)) :=
  Run.closed _
    (fun t _ =>
      { rst := t == 0, busMaster := false
        cpuEn := t == 1, cpuOp := op, cpuAddr := addr, cpuData := 0x41#32
        extAddr := 0#32, extData := 0#32, extSize := 0#2, extWe := false
        extStart := false, extClear := false, checkTags := false, clearMismatch := false })
    { cpu := ⟨.readw, 0#32, false, 0#32, 0#32, 0#4, false, false, false⟩
      ext := ⟨false, false, 0#32, 0#4, false⟩
      ram := ⟨.idle, false, false, false, false, false, ⟨fun _ => 0#32, 0#32⟩, ⟨fun _ => 0#4, 0#4⟩⟩
      timer := ⟨0#64, 0#64, 0#64, 0#64, 0#64, false, false⟩
      uart := ⟨false, 0#32, 0#32, false, 0#10, 0#4, 0#32, false, false⟩
      muxAck := false }

theorem oneRequest_started (op : CpuBus.BusOp) (addr : BitVec 32) :
    Started (oneRequest op addr) := ⟨rfl, rfl, rfl⟩

theorem oneRequest_holds (op : CpuBus.BusOp) (addr : BitVec 32) : Holds (oneRequest op addr) 2 :=
  fun n hn _ => ⟨beq_false_of_ne (by omega), rfl, beq_false_of_ne (by omega)⟩

/-- A store to the transmit register. -/
theorem held_request_answered_transmit :
    ∃ n, 2 ≤ n ∧ ((oneRequest .writew 0x08000004#32).state n).cpuAck
      ((oneRequest .writew 0x08000004#32).input n) = true := by
  have hiff := held_request_answered_iff (oneRequest_started .writew 0x08000004#32) (t := 2)
    (by decide) (by decide) (oneRequest_holds _ _) (by decide)
  exact hiff.mpr fun hu => absurd hu.2.2 (by decide)

/-- A read of the sanity register. -/
theorem sanity_read_hangs :
    Started (oneRequest .readw 0x08000008#32) ∧
      ((oneRequest .readw 0x08000008#32).state 2).cpu.cyc = true ∧
      Holds (oneRequest .readw 0x08000008#32) 2 ∧
      ((oneRequest .readw 0x08000008#32).state 2).uart.cfgDivider.toNat < 2 ^ 32 - 1 ∧
      ∀ n, 2 ≤ n → ((oneRequest .readw 0x08000008#32).state n).cpuAck
        ((oneRequest .readw 0x08000008#32).input n) = false := by
  have hold := oneRequest_holds .readw 0x08000008#32
  refine ⟨oneRequest_started _ _, by decide, hold, by decide, fun n hn => ?_⟩
  exact hold.unanswered ⟨by decide, by decide⟩ ⟨by decide, by decide, Or.inl (by decide)⟩ hn

end TagSoc.SharedBus
