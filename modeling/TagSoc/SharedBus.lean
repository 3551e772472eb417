import Mathlib.Tactic.IntervalCases
import TagSoc.Clocked
import TagSoc.Soc

/-!
# Two masters on one bus

The bus of `soc.v` without the processor behind it: `wb_cpu_bus`, `wb_ext`, the
multiplexer and the three slaves, with the signals of the processor as inputs.
Every run of the system is a run of it (`sharedRun`). The slaves answer one clock
after they have seen a request; the multiplexer shows the answer to both masters,
whichever is selected then.
-/
namespace TagSoc.SharedBus
open Clocked Soc

structure State (g : ℕ) where
  cpu : CpuBus.State
  ext : WbExt.State
  ram : WbRam.State g
  timer : WbTimer.State
  uart : WbUart.State
  muxAck : Bool

structure Inputs where
  rst : Bool
  busMaster : Bool
  cpuEn : Bool
  cpuOp : CpuBus.BusOp
  cpuAddr : BitVec 32
  cpuData : BitVec 32
  extAddr : BitVec 32
  extData : BitVec 32
  extSize : BitVec 2
  extWe : Bool
  extStart : Bool
  extClear : Bool
  checkTags : Bool
  clearMismatch : Bool
deriving Repr, DecidableEq

variable {g : ℕ}

namespace State

def cpuMaster (s : State g) : Master :=
  ⟨s.cpu.adr, s.cpu.dat, s.cpu.we, s.cpu.sel, s.cpu.stb, s.cpu.cyc⟩

def extMaster (s : State g) (i : Inputs) : Master :=
  ⟨i.extAddr, i.extData, s.ext.wbWe, s.ext.dataSel, s.ext.tranStarted, s.ext.tranStarted⟩

def master (s : State g) (i : Inputs) : Master :=
  if i.busMaster then s.extMaster i else s.cpuMaster

def timerIn (s : State g) (i : Inputs) : WbTimer.Inputs :=
  let m := s.master i
  { rst := i.rst, addr := m.addr, data := m.data, we := m.we, cyc := m.cyc && m.accessTimer }

def ramIn (s : State g) (i : Inputs) : WbRam.Inputs :=
  let m := s.master i
  { rst := i.rst, addr := m.addr, data := m.data, sel := m.sel, we := m.we
    cyc := m.cyc && m.accessRam, stb := m.stb && m.accessRam
    checkTags := i.checkTags, clearMismatch := i.clearMismatch }

def uartIn (s : State g) (i : Inputs) : WbUart.Inputs :=
  let m := s.master i
  { rst := i.rst, addr := m.addr, data := m.data, we := m.we
    cyc := m.cyc && m.accessUart, stb := m.stb && m.accessUart }

def cpuAck (s : State g) (i : Inputs) : Bool :=
  let m := s.master i
  if m.accessTimer then s.timer.ack
  else if m.accessRam then s.ram.ack
  else if m.accessUart then s.uart.ackOut (s.uartIn i)
  else s.muxAck

def extAck (s : State g) (i : Inputs) : Bool :=
  let m := s.master i
  if m.accessTimer then s.timer.ack
  else if m.accessRam then s.ram.ack
  else if m.accessUart then s.uart.ackOut (s.uartIn i)
  else false

def masterData (s : State g) (i : Inputs) : BitVec 32 :=
  let m := s.master i
  if m.accessTimer then s.timer.dataOut (s.timerIn i)
  else if m.accessRam then s.ram.dataOut (s.ramIn i)
  else if m.accessUart then s.uart.dataOut
  else wbWrongData

def step (s : State g) (i : Inputs) : State g where
  cpu := s.cpu.step ⟨i.cpuEn, i.cpuOp, i.cpuAddr, i.cpuData, s.cpuAck i, s.masterData i⟩
  ext := s.ext.step ⟨i.rst, i.extSize, i.extWe, i.extStart, i.extClear, s.extAck i,
    s.masterData i⟩
  ram := s.ram.step (s.ramIn i)
  timer := s.timer.step (s.timerIn i)
  uart := s.uart.step (s.uartIn i)
  muxAck := if i.rst then false else (s.master i).stb && !s.muxAck

end State

/-! ## In the system -/

section soc

def shared (s : Soc.State g) : State g :=
  ⟨s.cpu.bus, s.ext, s.ram, s.timer, s.uart, s.muxAck⟩

def sharedIn (s : Soc.State g) (i : Soc.Inputs) : Inputs :=
  let b := s.cpu.busIn (s.cpuIn i)
  { rst := i.rst, busMaster := i.busMaster
    cpuEn := b.en, cpuOp := b.op, cpuAddr := b.addr, cpuData := b.data
    extAddr := i.extTranAddr, extData := i.extTranData, extSize := i.extTranSize
    extWe := i.extTranWrite, extStart := i.extTranStart, extClear := i.extTranClear
    checkTags := s.cpu.checkTags, clearMismatch := s.cpu.csr.tagsIrqClear }

/-- The bus of a run of the system. -/
def sharedRun (r : Run (Soc.State.step (g := g))) : Run (State.step (g := g)) where
  state t := shared (r.state t)
  input t := sharedIn (r.state t) (r.input t)
  next t := by
    rw [r.next]
    rfl

end soc

/-! ## Answers -/

structure Inv (s : State g) : Prop where
  stb : s.cpu.stb = s.cpu.cyc
  ack : s.ram.ack = true → s.ram.state ≠ .idle

theorem accessTimer_of_ram {m : Master} (h : m.accessRam = true) : m.accessTimer = false := by
  simp only [Master.accessRam, Master.accessTimer, beq_iff_eq] at h ⊢
  rw [h]
  decide

theorem access_of_uart {m : Master} (h : m.accessUart = true) :
    m.accessTimer = false ∧ m.accessRam = false := by
  simp only [Master.accessUart, Master.accessTimer, Master.accessRam, beq_iff_eq] at h ⊢
  rw [h]
  decide

section step
variable {s : State g} {i j : Inputs}

theorem master_stb (h : Inv s) : (s.master i).stb = (s.master i).cyc := by
  unfold State.master
  split_ifs
  · rfl
  · exact h.stb

/-- The memory answers a request that it sees while it is idle. -/
theorem ram_ack_step (ha : (s.step i).ram.ack = true) :
    i.rst = false ∧ (s.master i).cyc = true ∧ (s.master i).accessRam = true ∧
      s.ram.state = .idle := by
  revert ha
  cases hr : i.rst <;> cases hc : (s.master i).cyc <;> cases hm : (s.master i).accessRam <;>
    cases hs : s.ram.state <;>
    simp [State.step, WbRam.State.step, WbRam.State.control, WbRam.Inputs.tagAccessed,
      WbRam.Inputs.ramAccessed, State.ramIn, hr, hc, hm, hs]

theorem timer_ack_step (ha : (s.step i).timer.ack = true) :
    i.rst = false ∧ (s.master i).cyc = true ∧ (s.master i).accessTimer = true ∧
      s.timer.ack = false := by
  revert ha
  cases hr : i.rst <;> simp [State.step, WbTimer.State.step, State.timerIn, hr]
  tauto

theorem uart_ack_step (ha : (s.step i).uart.ack = true) :
    i.rst = false ∧ (s.master i).cyc = true := by
  revert ha
  cases hr : i.rst <;> cases hc : (s.master i).cyc <;>
    simp [State.step, WbUart.State.step, WbUart.State.busSide, State.uartIn, hr, hc]

theorem mux_ack_step (ha : (s.step i).muxAck = true) :
    i.rst = false ∧ (s.master i).stb = true := by
  revert ha
  cases hr : i.rst <;> simp [State.step, hr]
  tauto

theorem Inv.step (h : Inv s) : Inv (s.step i) where
  stb := by
    cases ha : s.cpuAck i <;> simp [State.step, CpuBus.State.step, h.stb, ha]
  ack ha := by
    obtain ⟨hr, -, -, hs⟩ := ram_ack_step ha
    revert ha
    simp only [State.step, WbRam.State.step, WbRam.State.control, hr, hs]
    split_ifs <;> simp

theorem cpuAck_of_extAck (h : s.extAck i = true) : s.cpuAck i = true := by
  revert h
  simp only [State.extAck, State.cpuAck]
  split_ifs <;> simp

/-- An answer belongs to a request of the clock before. -/
theorem requested (ha : (s.step i).cpuAck j = true) :
    i.rst = false ∧ ((s.master i).cyc = true ∨ (s.master i).stb = true) := by
  unfold State.cpuAck at ha
  dsimp only at ha
  split_ifs at ha
  · exact ⟨(timer_ack_step ha).1, Or.inl (timer_ack_step ha).2.1⟩
  · exact ⟨(ram_ack_step ha).1, Or.inl (ram_ack_step ha).2.1⟩
  · have hack : (s.step i).uart.ack = true := by simp_all [WbUart.State.ackOut]
    exact ⟨(uart_ack_step hack).1, Or.inl (uart_ack_step hack).2⟩
  · exact ⟨(mux_ack_step ha).1, Or.inr (mux_ack_step ha).2⟩

theorem Inv.requested (h : Inv s) (ha : (s.step i).cpuAck j = true) :
    (s.master i).cyc = true := by
  have hreq := (SharedBus.requested ha).2
  rwa [master_stb h, or_self] at hreq

/-- A request that no slave answers is still there in the next clock. -/
theorem cpu_kept (hc : s.cpu.cyc = true) (ha : s.cpuAck i = false) :
    (s.step i).cpu.cyc = true := by
  simp [State.step, CpuBus.State.step, hc, ha]

theorem ext_kept (hc : s.ext.tranStarted = true) (hr : i.rst = false) (ha : s.extAck i = false) :
    (s.step i).ext.tranStarted = true := by
  simp [State.step, WbExt.State.step, hc, hr, ha]

theorem cpu_cyc_step (hc : s.cpu.cyc = false) (he : i.cpuEn = false) :
    (s.step i).cpu.cyc = false := by
  simp [State.step, CpuBus.State.step, hc, he]

theorem ext_tran_step (hc : s.ext.tranStarted = false) (he : i.extStart = false) :
    (s.step i).ext.tranStarted = false := by
  cases hr : i.rst <;> simp [State.step, WbExt.State.step, hc, he, hr]

/-- The request lines of the processor while it waits. -/
theorem cpuMaster_kept (he : i.cpuEn = false) (ha : s.cpuAck i = false) :
    (s.step i).cpuMaster = s.cpuMaster := by
  simp [State.step, State.cpuMaster, CpuBus.State.step, he, ha]

end step

/-! ## Taking turns -/

/-- A master that has a request, or starts one, is the selected one. The
processor starts one only when it has none, and not in a clock in which the
acknowledge of the multiplexer itself is up. -/
structure TakingTurns (s : State g) (i : Inputs) : Prop where
  cpu : s.cpu.cyc = true ∨ i.cpuEn = true → i.busMaster = false
  ext : s.ext.tranStarted = true ∨ i.extStart = true → i.busMaster = true
  once : i.cpuEn = true → s.cpu.cyc = false
  quiet : i.cpuEn = true → s.muxAck = false

/-- A master that sees an acknowledge in clock `t + 1` is selected then and has a request,
which is the one that the slaves saw in clock `t`. -/
structure OwnAnswer (r : Run (State.step (g := g))) (t : ℕ) : Prop where
  cpu : (r.state (t + 1)).cpuAck (r.input (t + 1)) = true →
    (r.input (t + 1)).busMaster = false ∧ (r.state (t + 1)).cpu.cyc = true ∧
      (r.input t).busMaster = false ∧ (r.state t).cpu.cyc = true ∧
      (r.state (t + 1)).cpuMaster = (r.state t).cpuMaster
  ext : (r.state (t + 1)).extAck (r.input (t + 1)) = true →
    (r.input (t + 1)).busMaster = true ∧ (r.state (t + 1)).ext.tranStarted = true ∧
      (r.input t).busMaster = true ∧ (r.state t).ext.tranStarted = true

/-- No acknowledge is shown to a master that does not wait for it. As both masters are shown
that of a slave, the slave that is addressed has none; the one of the multiplexer is for the
processor. -/
structure Private (s : State g) (i : Inputs) : Prop where
  timer : (s.master i).accessTimer = true → s.timer.ack = false
  ram : (s.master i).accessRam = true → s.ram.ack = false
  uart : (s.master i).accessUart = true → s.uart.ackOut (s.uartIn i) = false
  unmapped : (s.master i).accessTimer = false → (s.master i).accessRam = false →
    (s.master i).accessUart = false → s.muxAck = true → i.busMaster = false ∧ s.cpu.cyc = true

/-- A master that has or starts a request gets the answer to this request only, and the processor
keeps the word that it got while it stays selected and starts no other request. -/
structure OwnCompletion (r : Run (State.step (g := g))) (t : ℕ) : Prop where
  cpu : (r.state (t + 1)).cpu.cyc = true ∨ (r.input (t + 1)).cpuEn = true →
    (r.state (t + 1)).cpuAck (r.input (t + 1)) = true →
    (r.input (t + 1)).busMaster = false ∧ (r.state (t + 1)).cpu.cyc = true ∧
      (r.input t).busMaster = false ∧ (r.state t).cpu.cyc = true ∧
      (r.state (t + 1)).cpuMaster = (r.state t).cpuMaster
  ext : (r.state (t + 1)).ext.tranStarted = true →
    (r.state (t + 1)).extAck (r.input (t + 1)) = true →
    (r.input (t + 1)).busMaster = true ∧ (r.input t).busMaster = true ∧
      (r.state t).ext.tranStarted = true
  kept : (r.state (t + 1)).cpu.cyc = true → (r.state (t + 1)).cpuAck (r.input (t + 1)) = true →
    ∀ n, t + 2 ≤ n →
      (∀ k, t + 2 ≤ k → k < n → (r.input k).busMaster = false ∧ (r.input k).cpuEn = false) →
      (r.state n).cpu.buffer = (r.state (t + 2)).cpu.buffer

section run
variable {r : Run (State.step (g := g))} (hturn : ∀ t, TakingTurns (r.state t) (r.input t))
  {t : ℕ}
include hturn

/-- An unanswered request keeps the bus. -/
theorem waits (hc : ((r.state t).master (r.input t)).cyc = true) (hr : (r.input t).rst = false)
    (ha : (r.state t).cpuAck (r.input t) = false)
    (hfree : (r.state (t + 1)).cpu.cyc = false) : (r.input (t + 1)).busMaster = true := by
  unfold State.master at hc
  split_ifs at hc with hm
  · have hext : (r.state t).extAck (r.input t) = false :=
      Bool.eq_false_iff.mpr fun h => by rw [cpuAck_of_extAck h] at ha; cases ha
    have hkept := ext_kept hc hr hext
    rw [← r.next] at hkept
    exact (hturn (t + 1)).ext (Or.inl hkept)
  · have hkept := cpu_kept hc ha
    rw [← r.next, hfree] at hkept
    cases hkept

/-- The processor finds no answer when it starts a request. -/
theorem no_answer_at_start (hinv : Inv (r.state t)) (hen : (r.input (t + 1)).cpuEn = true) :
    (r.state (t + 1)).cpuAck (r.input (t + 1)) = false := by
  have hfree := (hturn (t + 1)).once hen
  have hsel := (hturn (t + 1)).cpu (Or.inr hen)
  refine Bool.eq_false_iff.mpr fun ha => ?_
  have hwait : (r.input t).rst = false → ((r.state t).master (r.input t)).cyc = true →
      (r.state t).cpuAck (r.input t) = true := by
    intro hr hc
    refine Bool.not_eq_false _ |>.mp fun hack => ?_
    have hother := waits hturn hc hr hack hfree
    rw [hsel] at hother
    cases hother
  unfold State.cpuAck at ha
  dsimp only at ha
  split_ifs at ha with htimer hram huart
  · rw [r.next] at ha
    obtain ⟨hr, hc, hregion, hack⟩ := timer_ack_step ha
    have hlow := hwait hr hc
    simp [State.cpuAck, hregion, hack] at hlow
  · rw [r.next] at ha
    obtain ⟨hr, hc, hregion, hidle⟩ := ram_ack_step ha
    have hlow := hwait hr hc
    have hother := accessTimer_of_ram hregion
    simp only [State.cpuAck, hother, hregion, Bool.false_eq_true, if_false, if_true] at hlow
    exact hinv.ack hlow hidle
  · simp [WbUart.State.ackOut, State.uartIn, State.master, hsel, State.cpuMaster, hfree] at ha
  · exact Bool.false_ne_true (((hturn (t + 1)).quiet hen).symm.trans ha)

theorem own_answer_cpu (hinv : Inv (r.state t)) (hc : (r.state (t + 1)).cpu.cyc = true)
    (ha : (r.state (t + 1)).cpuAck (r.input (t + 1)) = true) :
    (r.input t).busMaster = false ∧ (r.state t).cpu.cyc = true ∧
      (r.state (t + 1)).cpuMaster = (r.state t).cpuMaster := by
  have hsel : (r.input t).busMaster = false := by
    refine Bool.eq_false_iff.mpr fun hm => ?_
    -- the processor had no request while the other master was selected
    have hno : ¬ ((r.state t).cpu.cyc = true ∨ (r.input t).cpuEn = true) :=
      fun h => Bool.false_ne_true (((hturn t).cpu h).symm.trans hm)
    rw [not_or, Bool.not_eq_true, Bool.not_eq_true] at hno
    have hfree := cpu_cyc_step hno.1 hno.2
    rw [← r.next, hc] at hfree
    cases hfree
  have hcyc : (r.state t).cpu.cyc = true := by
    rw [r.next] at ha
    simpa [State.master, hsel, State.cpuMaster] using hinv.requested ha
  have hen : (r.input t).cpuEn = false := by
    refine Bool.eq_false_iff.mpr fun he => ?_
    exact Bool.false_ne_true (((hturn t).once he).symm.trans hcyc)
  have hack : (r.state t).cpuAck (r.input t) = false := by
    refine Bool.eq_false_iff.mpr fun hack => ?_
    rw [r.next] at hc
    simp [State.step, CpuBus.State.step, hack] at hc
  exact ⟨hsel, hcyc, by rw [r.next, cpuMaster_kept hen hack]⟩

theorem own_answer_ext (hinv : Inv (r.state t)) (hc : (r.state (t + 1)).ext.tranStarted = true)
    (ha : (r.state (t + 1)).extAck (r.input (t + 1)) = true) :
    (r.input t).busMaster = true ∧ (r.state t).ext.tranStarted = true := by
  have hsel : (r.input t).busMaster = true := by
    refine Bool.not_eq_false _ |>.mp fun hm => ?_
    have hno : ¬ ((r.state t).ext.tranStarted = true ∨ (r.input t).extStart = true) :=
      fun h => Bool.false_ne_true (hm.symm.trans ((hturn t).ext h))
    rw [not_or, Bool.not_eq_true, Bool.not_eq_true] at hno
    have hfree := ext_tran_step hno.1 hno.2
    rw [← r.next, hc] at hfree
    cases hfree
  have hack := cpuAck_of_extAck ha
  rw [r.next] at hack
  exact ⟨hsel, by simpa [State.master, hsel, State.extMaster] using hinv.requested hack⟩

/-- The clock after an answer: the register that showed it is low again. -/
theorem answered_low (hinv : Inv (r.state t)) (hc : (r.state t).cpu.cyc = true)
    (ha : (r.state t).cpuAck (r.input t) = true) (hsel : (r.input (t + 1)).busMaster = false) :
    (r.state (t + 1)).cpu.cyc = false ∧ (r.state (t + 1)).cpuAck (r.input (t + 1)) = false := by
  have hnow := (hturn t).cpu (Or.inl hc)
  have hen : (r.input t).cpuEn = false := Bool.eq_false_iff.mpr fun he =>
    Bool.false_ne_true (((hturn t).once he).symm.trans hc)
  have hfree : (r.state (t + 1)).cpu.cyc = false := by
    rw [r.next]
    simp [State.step, CpuBus.State.step, ha]
  have hadr : (r.state (t + 1)).cpu.adr = (r.state t).cpu.adr := by
    rw [r.next]
    simp [State.step, CpuBus.State.step, hen]
  have haddr : ((r.state (t + 1)).master (r.input (t + 1))).addr =
      ((r.state t).master (r.input t)).addr := by
    simp [State.master, hsel, hnow, State.cpuMaster, hadr]
  -- both answers are of one slave
  have htimer : ((r.state (t + 1)).master (r.input (t + 1))).accessTimer =
      ((r.state t).master (r.input t)).accessTimer := by
    rw [Master.accessTimer, Master.accessTimer, haddr]
  have hram : ((r.state (t + 1)).master (r.input (t + 1))).accessRam =
      ((r.state t).master (r.input t)).accessRam := by
    rw [Master.accessRam, Master.accessRam, haddr]
  have huart : ((r.state (t + 1)).master (r.input (t + 1))).accessUart =
      ((r.state t).master (r.input t)).accessUart := by
    rw [Master.accessUart, Master.accessUart, haddr]
  refine ⟨hfree, Bool.eq_false_iff.mpr fun ha' => ?_⟩
  unfold State.cpuAck at ha ha'
  dsimp only at ha ha'
  rw [htimer, hram, huart] at ha'
  split_ifs at ha' with h₁ h₂ h₃
  · rw [if_pos h₁] at ha
    rw [r.next] at ha'
    exact Bool.false_ne_true ((timer_ack_step ha').2.2.2.symm.trans ha)
  · rw [if_neg h₁, if_pos h₂] at ha
    rw [r.next] at ha'
    exact hinv.ack ha (ram_ack_step ha').2.2.2
  · simp [WbUart.State.ackOut, State.uartIn, State.master, hsel, State.cpuMaster, hfree] at ha'
  · rw [if_neg h₁, if_neg h₂, if_neg h₃] at ha
    rw [r.next] at ha'
    simp [State.step, ha] at ha'

/-- The word stays where it is. -/
theorem buffer_kept (hinv : ∀ k, t ≤ k → Inv (r.state k)) (hc : (r.state t).cpu.cyc = true)
    (ha : (r.state t).cpuAck (r.input t) = true) {n : ℕ} (hn : t + 1 ≤ n)
    (hsel : ∀ k, t + 1 ≤ k → k < n → (r.input k).busMaster = false ∧ (r.input k).cpuEn = false) :
    (r.state n).cpu.buffer = (r.state (t + 1)).cpu.buffer := by
  -- without a request, and without an answer that is still shown
  have hidle : ∀ k, t + 1 ≤ k → k < n → (r.state k).cpu.cyc = false ∧
      (r.state k).cpuAck (r.input k) = false := by
    intro k hk
    induction k, hk using Nat.le_induction with
    | base =>
        intro hlt
        exact answered_low hturn (hinv t le_rfl) hc ha (hsel _ le_rfl hlt).1
    | succ k hk ih =>
        intro hlt
        obtain ⟨hfree, -⟩ := ih (by omega)
        obtain ⟨hm, he⟩ := hsel k hk (by omega)
        refine ⟨by rw [r.next]; exact cpu_cyc_step hfree he, Bool.eq_false_iff.mpr fun ha' => ?_⟩
        rw [r.next] at ha'
        have hreq := (hinv k (by omega)).requested ha'
        simp [State.master, hm, State.cpuMaster, hfree] at hreq
  induction n, hn using Nat.le_induction with
  | base => rfl
  | succ n hn ih =>
      rw [← ih (fun k h₁ h₂ => hsel k h₁ (by omega)) fun k h₁ h₂ => hidle k h₁ (by omega), r.next]
      simp [State.step, CpuBus.State.step, (hidle n hn (by omega)).2]

end run

section shown
variable {s : State g} {i : Inputs}

/-- What the external port is shown, the processor is shown as well. -/
theorem Private.extAck (h : Private s i) : s.extAck i = false := by
  unfold State.extAck
  dsimp only
  split_ifs with h₁ h₂ h₃
  · exact h.timer h₁
  · exact h.ram h₂
  · exact h.uart h₃
  · rfl

theorem Private.cpuAck (h : Private s i) (ha : s.cpuAck i = true) :
    i.busMaster = false ∧ s.cpu.cyc = true := by
  unfold State.cpuAck at ha
  dsimp only at ha
  split_ifs at ha with h₁ h₂ h₃
  · exact absurd ((h.timer h₁).symm.trans ha) Bool.false_ne_true
  · exact absurd ((h.ram h₂).symm.trans ha) Bool.false_ne_true
  · exact absurd ((h.uart h₃).symm.trans ha) Bool.false_ne_true
  · simp only [Bool.not_eq_true] at h₁ h₂ h₃
    exact h.unmapped h₁ h₂ h₃ ha

theorem private_of_acks (hext : s.extAck i = false)
    (hcpu : s.cpuAck i = true → i.busMaster = false ∧ s.cpu.cyc = true) : Private s i where
  timer h := by simpa [State.extAck, h] using hext
  ram h := by simpa [State.extAck, h, accessTimer_of_ram h] using hext
  uart h := by simpa [State.extAck, h, access_of_uart h] using hext
  unmapped h₁ h₂ h₃ h := hcpu (by simp [State.cpuAck, h₁, h₂, h₃, h])

end shown

/-- In no run are both masters shown an answer that is their own. -/
theorem OwnAnswer.private {r : Run (State.step (g := g))} {t : ℕ} (h : OwnAnswer r t) :
    Private (r.state (t + 1)) (r.input (t + 1)) := by
  refine private_of_acks (Bool.eq_false_iff.mpr fun ha => ?_) fun ha => ⟨(h.cpu ha).1, (h.cpu ha).2.1⟩
  exact Bool.false_ne_true ((h.cpu (cpuAck_of_extAck ha)).1.symm.trans (h.ext ha).1)

/-- The first clock is a reset; the registers of `wb_cpu_bus`, which it does not
reach, start without a request. -/
structure Started (r : Run (State.step (g := g))) : Prop where
  rst : (r.input 0).rst = true
  cyc : (r.state 0).cpu.cyc = false
  stb : (r.state 0).cpu.stb = false

theorem Started.inv {r : Run (State.step (g := g))} (h : Started r) {t : ℕ} (ht : 0 < t) :
    Inv (r.state t) := by
  have hfirst : Inv (r.state 1) := by
    rw [r.next]
    constructor
    · cases ha : (r.state 0).cpuAck (r.input 0) <;>
        simp [State.step, CpuBus.State.step, h.cyc, h.stb, ha]
    · intro ha
      exact absurd (ram_ack_step ha).1 (by simp [h.rst])
  exact r.invariant hfirst (fun _ _ hn => hn.step) t ht

/-- The reset leaves no answer. -/
theorem Started.no_answer {r : Run (State.step (g := g))} (h : Started r) :
    (r.state 1).cpuAck (r.input 1) = false := by
  refine Bool.eq_false_iff.mpr fun ha => ?_
  rw [r.next] at ha
  exact Bool.false_ne_true ((requested ha).1.symm.trans h.rst)

theorem own_completion {r : Run (State.step (g := g))} (h : Started r)
    (hturn : ∀ t, TakingTurns (r.state t) (r.input t)) (t : ℕ) : OwnCompletion r t := by
  have hpos : (r.state (t + 1)).cpuAck (r.input (t + 1)) = true → 0 < t := by
    intro ha
    refine Nat.pos_of_ne_zero fun hzero => ?_
    subst hzero
    exact Bool.false_ne_true (h.no_answer.symm.trans ha)
  constructor
  case cpu =>
    intro hreq ha
    have hinv := h.inv (hpos ha)
    rcases hreq with hc | hen
    · exact ⟨(hturn (t + 1)).cpu (Or.inl hc), hc, own_answer_cpu hturn hinv hc ha⟩
    · rw [no_answer_at_start hturn hinv hen] at ha
      cases ha
  case ext =>
    intro hc ha
    have hinv := h.inv (hpos (cpuAck_of_extAck ha))
    exact ⟨(hturn (t + 1)).ext (Or.inl hc), own_answer_ext hturn hinv hc ha⟩
  case kept =>
    intro hc ha n hn hsel
    exact buffer_kept hturn (fun k hk => h.inv (by omega)) hc ha hn hsel

/-- The processor reads address 0 from clock 1 on; the external port starts to
read address 16 in clock `start` and is selected from clock `switch` on. -/
def twoReads (switch start : ℕ) : Run (State.step (g := 1)) :=
  Run.closed _
    (fun t _ =>
      { rst := t == 0, busMaster := decide (switch ≤ t)
        cpuEn := t == 1, cpuOp := .readw, cpuAddr := 0#32, cpuData := 0#32
        extAddr := 16#32, extData := 0#32, extSize := 2#2, extWe := false
        extStart := t == start, extClear := false
        checkTags := false, clearMismatch := false })
    { cpu := ⟨.readw, 0#32, false, 0#32, 0#32, 0#4, false, false, false⟩
      ext := ⟨false, false, 0#32, 0#4, false⟩
      ram := ⟨.idle, false, false, false, false, false,
        ⟨fun a => if a = 4#3 then 0x22#32 else 0x11#32, 0#32⟩, ⟨fun _ => 0#4, 0#4⟩⟩
      timer := ⟨0#64, 0#64, 0#64, 0#64, 0#64, false, false⟩
      uart := ⟨false, 0#32, 0#32, false, 0#10, 0#4, 0#32, false, false⟩
      muxAck := false }

theorem twoReads_started (switch start : ℕ) : Started (twoReads switch start) := ⟨rfl, rfl, rfl⟩

theorem twoReads_turns (t : ℕ) :
    TakingTurns ((twoReads 5 6).state t) ((twoReads 5 6).input t) := by
  have hcpu : ∀ n, 5 ≤ n → ((twoReads 5 6).state n).cpu.cyc = false := by
    refine (twoReads 5 6).invariant (P := fun s => s.cpu.cyc = false) (by decide) ?_
    intro n hn hc
    exact cpu_cyc_step hc (beq_false_of_ne (by omega))
  have hen : ((twoReads 5 6).input t).cpuEn = true → t = 1 := fun h => by
    simpa [twoReads, Run.closed] using h
  constructor
  · intro h
    refine decide_eq_false fun ht => ?_
    rcases h with h | h
    · rw [hcpu t ht] at h
      cases h
    · rw [hen h] at ht
      omega
  · intro h
    refine decide_eq_true (Nat.le_of_not_lt fun ht => ?_)
    interval_cases t <;> exact absurd h (by decide)
  · intro h
    obtain rfl := hen h
    decide
  · intro h
    obtain rfl := hen h
    decide

end TagSoc.SharedBus
