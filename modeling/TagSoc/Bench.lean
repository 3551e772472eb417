import TagSoc.CpuStep
import TagSoc.Datapath

/-!
# The processor on a bus

The processor together with a Wishbone slave, as one run: `Slave` is the
handshake the slave owes (an acknowledge only for a request, every request
acknowledged after finitely many clocks, the data of a read in the clock of
its acknowledge, one write per acknowledged write request). Nothing is assumed
about how many clocks an answer takes.

The two transactions, a read and a write of unknown length, are proved once
here; every instruction uses them.
-/
namespace TagSoc.Cpu
open Clocked Decoder CpuBus Datapath

variable {M : Type*} {v : BitVec 32}

structure Slave (D : Device M) (r : Run (State.step v)) (mem : ℕ → M) : Prop where
  ack_cyc : ∀ t, (r.input t).ack = true →
    (r.state t).bus.cyc = true ∧ (r.state t).bus.stb = true
  answers : ∀ t, (r.state t).bus.cyc = true → (r.state t).bus.stb = true →
    ∃ n, t ≤ n ∧ (r.input n).ack = true
  read : ∀ t, (r.input t).ack = true → (r.state t).bus.we = false →
    (r.input t).dat = D.read (mem t) (r.state t).bus.sel (r.state t).bus.adr
  write : ∀ t, mem (t + 1) =
    if (r.input t).ack = true ∧ (r.state t).bus.we = true then
      D.write (mem t) (r.state t).bus.sel (r.state t).bus.adr (r.state t).bus.dat
    else mem t

/-- Neither reset nor halted. -/
structure Running (r : Run (State.step v)) : Prop where
  rst : ∀ t, (r.input t).rst = false
  halt : ∀ t, (r.input t).externalHalt = false

/-- No interrupt request and no single-stepping. -/
structure Quiet (r : Run (State.step v)) : Prop where
  timer : ∀ t, (r.input t).timerInterrupt = false
  tags : ∀ t, (r.input t).tagsInterrupt = false
  singlestep : ∀ t, (r.input t).externalSinglestep = false

/-- The registers, the program counter and the memory. -/
def arch (r : Run (State.step v)) (mem : ℕ → M) (t : ℕ) : Rv32.State M where
  regs := (r.state t).regs.regfile
  pc := (r.state t).pc
  mem := mem t

/-- The state in which an instruction starts. -/
structure Boundary (s : State) : Prop where
  state : s.state = .preFetch
  coherent : Coherent s
  running : s.testFinished = false

section
variable {D : Device M} {r : Run (State.step v)} {mem : ℕ → M}

theorem Running.coherent (hr : Running r) (h0 : Coherent (r.state 0)) (t : ℕ) :
    Coherent (r.state t) := by
  refine r.invariant (P := Coherent) h0 (fun n _ hn => ?_) t (Nat.zero_le t)
  exact hn.step (hr.halt n) (fun h => by simp [hr.rst n] at h)

theorem Slave.undisturbed (hs : Slave D r mem) (hr : Running r) (t : ℕ) :
    Undisturbed (r.state t) (r.input t) where
  rst := hr.rst t
  halt := hr.halt t
  ack := fun h => (hs.ack_cyc t h).1

theorem Slave.mem_of_not_we (hs : Slave D r mem) {t : ℕ} (h : (r.state t).bus.we = false) :
    mem (t + 1) = mem t := by
  simp [hs.write t, h]

theorem Slave.mem_of_ready (hs : Slave D r mem) {t : ℕ} (hc : Coherent (r.state t))
    (h : (r.state t).state.usesBus = false) : mem (t + 1) = mem t := by
  refine hs.mem_of_not_we (Bool.eq_false_iff.mpr fun hw => ?_)
  simpa [hc.bus_free h] using hc.bus_we hw

/-- The memory is constant while the machine is in states without a request. -/
theorem Slave.mem_const (hs : Slave D r mem) (hc : ∀ t, Coherent (r.state t)) {t n : ℕ}
    (hn : t ≤ n) (h : ∀ k, t ≤ k → k < n → (r.state k).state.usesBus = false) :
    mem n = mem t := by
  induction n, hn using Nat.le_induction with
  | base => rfl
  | succ n hn ih =>
      rw [hs.mem_of_ready (hc n) (h n hn (Nat.lt_succ_self n))]
      exact ih fun k hk hlt => h k hk (Nat.lt_succ_of_lt hlt)

/-- A read transaction. In the waiting state `m` everything that `keep` shows
is held until the acknowledge, and the buffer then has the word the slave
returned for the memory as it was when the wait began. -/
theorem Slave.read_wait {β : Type*} {R : ℕ → Prop} {m : MainState} (hs : Slave D r mem)
    (op : BusOp) (addr : BitVec 32) (keep : State → β) (hr : Running r)
    (hc : ∀ t, Coherent (r.state t))
    (hR : ∀ t, (r.state t).state = m → R t)
    (hwait : ∀ s i, Coherent s → Undisturbed s i → s.state = m → s.bus.busy = true →
      (s.step v i).state = m ∧ (s.step v i).bus = s.bus.wait i.ack i.dat ∧
        keep (s.step v i) = keep s)
    {t : ℕ} (hm : (r.state t).state = m)
    (hbusy : (r.state t).bus.busy = true) (hop : (r.state t).bus.op = op)
    (hsel : (r.state t).bus.sel = op.memSel) (hadr : (r.state t).bus.adr = addr)
    (hwe : (r.state t).bus.we = false) :
    Until R (fun n => (r.state n).state = m ∧ (r.state n).bus.busy = false ∧
      (r.state n).bus.buffer = loaded D (mem t) op addr ∧
      keep (r.state n) = keep (r.state t) ∧ mem n = mem t) t := by
  have hans : ∃ n, t ≤ n ∧ (r.input n).ack = true :=
    hs.answers t (by rw [(hc t).cyc, hbusy]) (by rw [(hc t).stb, hbusy])
  -- the request lines and the memory are constant while the answer is outstanding
  refine Until.wait (W := fun n => (r.state n).state = m ∧ (r.state n).bus = (r.state t).bus ∧
    keep (r.state n) = keep (r.state t) ∧ mem n = mem t) ⟨hm, rfl, rfl, rfl⟩ hans
    (fun n _ hW => hR n hW.1) ?_ ?_
  · rintro n - ⟨hm', hbus, hkeep, hmem⟩ hack
    obtain ⟨h₁, h₂, h₃⟩ := hwait _ _ (hc n) (hs.undisturbed hr n) hm' (by rw [hbus, hbusy])
    rw [← r.next n] at h₁ h₂ h₃
    have hmem' : mem (n + 1) = mem n := hs.mem_of_not_we (by rw [hbus, hwe])
    refine ⟨h₁, ?_, h₃.trans hkeep, hmem'.trans hmem⟩
    rw [h₂, hbus, Bool.eq_false_iff.mpr hack, CpuBus.State.wait_false]
  · rintro n - ⟨hm', hbus, hkeep, hmem⟩ hack
    obtain ⟨h₁, h₂, h₃⟩ := hwait _ _ (hc n) (hs.undisturbed hr n) hm' (by rw [hbus, hbusy])
    rw [← r.next n] at h₁ h₂ h₃
    have hmem' : mem (n + 1) = mem n := hs.mem_of_not_we (by rw [hbus, hwe])
    have hdat := hs.read n hack (by rw [hbus, hwe])
    refine ⟨h₁, ?_, ?_, h₃.trans hkeep, hmem'.trans hmem⟩
    · rw [h₂, hack]; rfl
    · rw [h₂, hack, CpuBus.State.wait_true, CpuBus.State.accept, hdat, hmem, hbus, hop, hsel,
        hadr]
      rfl

/-- A write transaction. -/
theorem Slave.write_wait {β : Type*} {R : ℕ → Prop} {m : MainState} (hs : Slave D r mem)
    (keep : State → β) (hr : Running r) (hc : ∀ t, Coherent (r.state t))
    (hR : ∀ t, (r.state t).state = m → R t)
    (hwait : ∀ s i, Coherent s → Undisturbed s i → s.state = m → s.bus.busy = true →
      (s.step v i).state = m ∧ (s.step v i).bus = s.bus.wait i.ack i.dat ∧
        keep (s.step v i) = keep s)
    {t : ℕ} (hm : (r.state t).state = m) (hbusy : (r.state t).bus.busy = true)
    (hwe : (r.state t).bus.we = true) :
    Until R (fun n => (r.state n).state = m ∧ (r.state n).bus.busy = false ∧
      keep (r.state n) = keep (r.state t) ∧
      mem n = D.write (mem t) (r.state t).bus.sel (r.state t).bus.adr (r.state t).bus.dat) t := by
  have hans : ∃ n, t ≤ n ∧ (r.input n).ack = true :=
    hs.answers t (by rw [(hc t).cyc, hbusy]) (by rw [(hc t).stb, hbusy])
  refine Until.wait (W := fun n => (r.state n).state = m ∧ (r.state n).bus = (r.state t).bus ∧
    keep (r.state n) = keep (r.state t) ∧ mem n = mem t) ⟨hm, rfl, rfl, rfl⟩ hans
    (fun n _ hW => hR n hW.1) ?_ ?_
  · rintro n - ⟨hm', hbus, hkeep, hmem⟩ hack
    obtain ⟨h₁, h₂, h₃⟩ := hwait _ _ (hc n) (hs.undisturbed hr n) hm' (by rw [hbus, hbusy])
    rw [← r.next n] at h₁ h₂ h₃
    refine ⟨h₁, ?_, h₃.trans hkeep, ?_⟩
    · rw [h₂, hbus, Bool.eq_false_iff.mpr hack, CpuBus.State.wait_false]
    · rw [hs.write n, if_neg (fun h => hack h.1), hmem]
  · rintro n - ⟨hm', hbus, hkeep, hmem⟩ hack
    obtain ⟨h₁, h₂, h₃⟩ := hwait _ _ (hc n) (hs.undisturbed hr n) hm' (by rw [hbus, hbusy])
    rw [← r.next n] at h₁ h₂ h₃
    refine ⟨h₁, ?_, h₃.trans hkeep, ?_⟩
    · rw [h₂, hack]; rfl
    · rw [hs.write n, if_pos ⟨hack, by rw [hbus, hwe]⟩, hmem, hbus]

end

/-! ## A slave for every pattern of wait states

The handshake can be kept with any delays: a slave that answers in the clocks
`ready` names, whatever they are, satisfies the contract as long as there is
always another such clock. -/

section closed
variable (D : Device M) (ready : ℕ → Bool) (i : Inputs)

def answer (t : ℕ) (s : State) (m : M) : Inputs :=
  { i with
    ack := ready t && s.bus.cyc && s.bus.stb
    dat := D.read m s.bus.sel s.bus.adr }

def benchState (v : BitVec 32) (s₀ : State) (m₀ : M) : ℕ → State × M
  | 0 => (s₀, m₀)
  | t + 1 =>
      let p := benchState v s₀ m₀ t
      (p.1.step v (answer D ready i t p.1 p.2),
        if (answer D ready i t p.1 p.2).ack = true ∧ p.1.bus.we = true then
          D.write p.2 p.1.bus.sel p.1.bus.adr p.1.bus.dat
        else p.2)

def benchRun (v : BitVec 32) (s₀ : State) (m₀ : M) : Run (State.step v) where
  state t := (benchState D ready i v s₀ m₀ t).1
  input t := answer D ready i t (benchState D ready i v s₀ m₀ t).1 (benchState D ready i v s₀ m₀ t).2
  next _ := rfl

def benchMem (v : BitVec 32) (s₀ : State) (m₀ : M) (t : ℕ) : M :=
  (benchState D ready i v s₀ m₀ t).2

/-- A request stays on the bus until it is acknowledged. -/
theorem request_held {s : State} {i : Inputs} (hcyc : s.bus.cyc = true) (hstb : s.bus.stb = true)
    (hack : i.ack = false) :
    (s.step v i).bus.cyc = true ∧ (s.step v i).bus.stb = true := by
  simp [State.step, CpuBus.State.step, State.busIn, hcyc, hstb, hack]

theorem benchRun_slave (hready : ∀ t, ∃ n, t ≤ n ∧ ready n = true) (s₀ : State) (m₀ : M) :
    Slave D (benchRun D ready i v s₀ m₀) (benchMem D ready i v s₀ m₀) where
  ack_cyc t h := by
    simp only [benchRun, answer, Bool.and_eq_true] at h ⊢
    exact ⟨h.1.2, h.2⟩
  answers t hcyc hstb := by
    obtain ⟨n, hn, hr⟩ := hready t
    by_contra hno
    -- without an answer the request is still there in the next ready clock
    have hheld : ∀ k, t ≤ k → ((benchRun D ready i v s₀ m₀).state k).bus.cyc = true ∧
        ((benchRun D ready i v s₀ m₀).state k).bus.stb = true := by
      intro k hk
      induction k, hk using Nat.le_induction with
      | base => exact ⟨hcyc, hstb⟩
      | succ k hk ih =>
          rw [(benchRun D ready i v s₀ m₀).next k]
          exact request_held ih.1 ih.2 (Bool.eq_false_iff.mpr fun h => hno ⟨k, hk, h⟩)
    refine hno ⟨n, hn, ?_⟩
    have h := hheld n hn
    simp only [benchRun, answer] at h ⊢
    simp [hr, h]
  read t _ _ := rfl
  write t := rfl

end closed

/-- A processor at rest in front of an instruction. -/
def restState (regs : Registers.RegFile) (pc : BitVec 32) : State where
  state := .preFetch
  pc := pc
  pcnext := 0#32
  parcelLow := 0#16
  parcelHigh := 0#16
  writebackFromBus := false
  branchPcFromAlu := false
  nextAddrFromCsr := false
  checkTags := false
  execDone := false
  testFinished := false
  mretState := .idle
  trapState := .idle
  alu := ⟨0#32, false, 0#5, 0#64, 0#32, 0#6, 0#64, 0#64, 0#6, false, false, false⟩
  bus := ⟨.readw, 0#32, false, 0#32, 0#32, 0#4, false, false, false⟩
  regs := ⟨regs, 0#32, 0#32⟩
  csr := ⟨0#32, false, false, false, false, false, false, false, false, 0#12, 0#32,
    ⟨fun _ => 0#32, 0#32⟩⟩

theorem restState_boundary {regs : Registers.RegFile} {pc : BitVec 32} (h0 : regs 0#5 = 0#32)
    (he : BitSlices.IsEven pc) : Boundary (restState regs pc) where
  state := rfl
  running := rfl
  coherent := by
    constructor
    case toStartable => exact ⟨h0, rfl, rfl, by simp [restState]⟩
    case even => exact he
    all_goals simp [restState, State.handlingTrap, State.handlingMret, MainState.unused]

end TagSoc.Cpu
