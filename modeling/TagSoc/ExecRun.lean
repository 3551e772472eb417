import TagSoc.FetchRun
import TagSoc.Flow

/-!
# Up to the execute clock

Fetching and decoding change nothing that software can see: the registers, the
memory and the CSRs are kept clock by clock, and the execute state starts with
the operands read from the register file as it was at the boundary. `exec_run`
says so for an instruction that is not interrupted; the proofs about system and
illegal instructions start from there.
-/
namespace TagSoc.Cpu
open Clocked Decoder CpuBus Csr Datapath

variable {M : Type*} {v : BitVec 32}

/-- Between two instructions. -/
def State.atBoundary (s : State) : Bool := s.state == .preFetch || s.state == .cpuIdle

/-- At clock `n` the machine is between two instructions for the first time
after clock `t`. -/
def NextBoundary (r : Run (State.step v)) (t n : ℕ) : Prop :=
  t < n ∧ (r.state n).atBoundary = true ∧ ∀ k, t < k → k < n → (r.state k).atBoundary = false

theorem NextBoundary.unique {r : Run (State.step v)} {t n m : ℕ} (hn : NextBoundary r t n)
    (hm : NextBoundary r t m) : n = m := by
  rcases Nat.lt_trichotomy n m with h | h | h
  · exact absurd hn.2.1 (by simp [hm.2.2 n hn.1 h])
  · exact h
  · exact absurd hm.2.1 (by simp [hn.2.2 m hm.1 h])

/-- The instruction that starts at clock `t` is executed: no interrupt is taken
in its place. -/
def Uninterrupted (r : Run (State.step v)) (t : ℕ) : Prop :=
  ∀ k, t < k → (∀ j, t < j → j ≤ k → (r.state j).atBoundary = false) →
    (r.state k).state = .decode → (r.state k).takesInterrupt (r.input k) = false

theorem Quiet.uninterrupted {r : Run (State.step v)} (hq : Quiet r) (t : ℕ) :
    Uninterrupted r t := by
  intro k _ _ _
  simp [State.takesInterrupt, State.interruptOccured, hq.timer k, hq.tags k]

theorem Coherent.csr_we_boundary {s : State} (h : Coherent s) (hs : s.atBoundary = true) :
    s.csr.we = false := by
  refine h.csr_we_free ?_
  rcases by simpa [State.atBoundary] using hs with h | h <;> rw [h] <;> rfl

namespace MainState

/-- The states up to the decode clock. -/
def early (m : MainState) : Bool := m == .preFetch || m.fetching

theorem early_of_fetching {m : MainState} (h : m.fetching = true) : m.early = true := by
  simp [early, h]

end MainState

theorem atBoundary_of_fetching {s : State} (h : s.state.fetching = true) :
    s.atBoundary = false := by
  unfold State.atBoundary
  revert h
  cases s.state <;> simp [MainState.fetching]

/-! ## A parked machine -/

/-- It is started again by a step request and has not changed. -/
theorem resume_run {r : Run (State.step v)} (hc : ∀ t, Coherent (r.state t))
    (hu : ∀ t, Undisturbed (r.state t) (r.input t)) {t : ℕ} (hs : (r.state t).atBoundary = true)
    (hgo : (r.state t).state = .cpuIdle → ∃ n, t ≤ n ∧ (r.input n).externalDoStep = true) :
    Until (fun k => (r.state k).state = .cpuIdle)
      (fun n => (r.state n).state = .preFetch ∧ (r.state n).pc = (r.state t).pc ∧
        (r.state n).regs = (r.state t).regs ∧ Kept (r.state t).csr (r.state n).csr) t := by
  have hcase : (r.state t).state = .preFetch ∨ (r.state t).state = .cpuIdle := by
    simpa [State.atBoundary] using hs
  rcases hcase with hs | hs
  · exact Until.now ⟨hs, rfl, rfl, Kept.refl _⟩
  · refine Until.wait (W := fun n => (r.state n).state = .cpuIdle ∧
      (r.state n).pc = (r.state t).pc ∧ (r.state n).regs = (r.state t).regs ∧
      Kept (r.state t).csr (r.state n).csr)
      ⟨hs, rfl, rfl, Kept.refl _⟩ (hgo hs) (fun n _ h => h.1) ?_ ?_
    · rintro n - ⟨hn, hpc, hregs, hkept⟩ hno
      rw [r.next, step_cpuIdle (hc n) (hu n) hn]
      exact ⟨by simp [hno], hpc, hregs, hkept.trans (kept_rest _ (hc n).csr_we)⟩
    · rintro n - ⟨hn, hpc, hregs, hkept⟩ hgo
      rw [r.next, step_cpuIdle (hc n) (hu n) hn]
      exact ⟨by simp [hgo], hpc, hregs, hkept.trans (kept_rest _ (hc n).csr_we)⟩

/-! ## One clock -/

section
variable {s : State} {i : Inputs} (h : Coherent s) (u : Undisturbed s i)
  (hs : s.state.early = true) (hno : s.state = .decode → s.takesInterrupt i = false)
include h u hs hno

theorem step_early :
    (s.step v i).regs.regfile = s.regs.regfile ∧ (s.step v i).pc = s.pc ∧
      (s.step v i).csr = s.csr.rest ∧ (s.bus.we = false → (s.step v i).bus.we = false) := by
  have hwait : s.bus.we = false → (s.bus.wait i.ack i.dat).we = false := by
    intro hw
    cases i.ack
    · exact hw
    · rfl
  cases hm : s.state <;> rw [hm] at hs
  case preFetch => rw [step_preFetch h u hm]; exact ⟨rfl, rfl, rfl, fun _ => rfl⟩
  case fetch => rw [step_fetch h u hm]; exact ⟨rfl, rfl, rfl, hwait⟩
  case prepairUnalignedFetch =>
    rw [step_prepairUnalignedFetch h u hm]
    exact ⟨rfl, rfl, rfl, fun _ => rfl⟩
  case fetchMore => rw [step_fetchMore h u hm]; exact ⟨rfl, rfl, rfl, hwait⟩
  case decode => rw [step_decode h u hm (hno hm)]; exact ⟨rfl, rfl, rfl, id⟩
  all_goals exact absurd hs (by decide)

end

/-! ## The whole way -/

/-- What the execute state at clock `e` finds, for the instruction `w` that
started at clock `t`. -/
structure ReachedExec (r : Run (State.step v)) (mem : ℕ → M) (t e : ℕ) (w : BitVec 32) : Prop where
  state : (r.state e).state = .exec
  word : (r.state e).parcels = w
  pc : (r.state e).pc = (r.state t).pc
  next : (r.state e).pcnext = (r.state t).pc + Datapath.instrLen w
  finished : (r.state e).testFinished = (r.state t).testFinished
  regval1 : (r.state e).regs.regval1 = (r.state t).regs.regfile (decode w).rs1
  regval2 : (r.state e).regs.regval2 = (r.state t).regs.regfile (decode w).rs2
  csr : Kept (r.state t).csr (r.state e).csr
  path : ∀ k, t < k → k < e → (r.state k).state.fetching = true
  frame : ∀ k, t ≤ k → k ≤ e →
    (r.state k).regs.regfile = (r.state t).regs.regfile ∧ mem k = mem t

/-- The operands of the execute state are those the decoder selects. -/
theorem ReachedExec.operands {r : Run (State.step v)} {mem : ℕ → M} {t e : ℕ} {w : BitVec 32}
    (h : ReachedExec r mem t e w) :
    (r.state e).dec = decode w ∧
      (r.state e).aluDataS1 (decode w).muxAluS1Sel =
        dataS1 (decode w) ⟨(r.state t).regs.regfile, (r.state t).pc, ()⟩ ∧
      (r.state e).aluDataS2 (decode w).muxAluS2Sel =
        dataS2 (decode w) ⟨(r.state t).regs.regfile, (r.state t).pc, ()⟩ := by
  have hdec : (r.state e).dec = decode w := by rw [State.dec, h.word]
  refine ⟨hdec, ?_, ?_⟩
  · cases hsel : (decode w).muxAluS1Sel <;> simp [State.aluDataS1, dataS1, hsel, h.regval1, h.pc]
  · cases hsel : (decode w).muxAluS2Sel <;> simp [State.aluDataS2, dataS2, hsel, h.regval2, hdec]

section run
variable {D : Device M} {r : Run (State.step v)} {mem : ℕ → M}
  (hs : Slave D r mem) (hr : Running r) (hc : ∀ t, Coherent (r.state t))
include hs hr hc

/-- The invariant of the early states, along a stretch of them. -/
theorem early_run {t n : ℕ} (hn : t ≤ n) (ht : (r.state t).bus.we = false)
    (hpath : ∀ k, t ≤ k → k < n → (r.state k).state.early = true ∧
      ((r.state k).state = .decode → (r.state k).takesInterrupt (r.input k) = false)) :
    (r.state n).regs.regfile = (r.state t).regs.regfile ∧ (r.state n).pc = (r.state t).pc ∧
      Kept (r.state t).csr (r.state n).csr ∧ (r.state n).bus.we = false ∧ mem n = mem t := by
  induction n, hn using Nat.le_induction with
  | base => exact ⟨rfl, rfl, Kept.refl _, ht, rfl⟩
  | succ n hn ih =>
      obtain ⟨h₁, h₂, h₃, h₄, h₅⟩ := ih fun k hk hlt => hpath k hk (Nat.lt_succ_of_lt hlt)
      obtain ⟨hearly, hno⟩ := hpath n hn (Nat.lt_succ_self n)
      obtain ⟨g₁, g₂, g₃, g₄⟩ := step_early (v := v) (hc n) (hs.undisturbed hr n) hearly hno
      rw [← r.next n] at g₁ g₂ g₃ g₄
      refine ⟨g₁.trans h₁, g₂.trans h₂, ?_, g₄ h₄, (hs.mem_of_not_we h₄).trans h₅⟩
      rw [g₃]
      exact h₃.trans (kept_rest _ (hc n).csr_we)

/-- From the boundary to the execute state. -/
theorem exec_run {t : ℕ} (ht : (r.state t).state = .preFetch) (hno : Uninterrupted r t) :
    ∃ e, t < e ∧ ReachedExec r mem t e (fetched D (arch r mem t)) := by
  obtain ⟨d, hd, hdec, hpath⟩ := fetch_run hs hr hc ht
  have hwe : (r.state t).bus.we = false :=
    Bool.eq_false_iff.mpr fun hw => by
      simpa [(hc t).bus_free (by rw [ht]; rfl)] using (hc t).bus_we hw
  have hinner : ∀ k, t < k → k ≤ d → (r.state k).state.fetching = true := by
    intro k hk hkd
    rcases Nat.eq_or_lt_of_le hkd with rfl | hlt
    · rw [hdec.state]; rfl
    · exact hpath k hk hlt
  have hearly : ∀ k, t ≤ k → k < d + 1 → (r.state k).state.early = true ∧
      ((r.state k).state = .decode → (r.state k).takesInterrupt (r.input k) = false) := by
    intro k hk hkd
    rcases Nat.eq_or_lt_of_le hk with rfl | hk
    · exact ⟨by rw [ht]; rfl, fun h => by simp [ht] at h⟩
    · refine ⟨MainState.early_of_fetching (hinner k hk (by omega)), ?_⟩
      exact hno k hk fun j hj hjk => atBoundary_of_fetching (hinner j hj (by omega))
  have hrun : ∀ k, t ≤ k → k ≤ d + 1 → _ := fun k hk hkd =>
    early_run hs hr hc hk hwe fun j hj hjk => hearly j hj (by omega)
  have hstep := step_decode (v := v) (hc d) (hs.undisturbed hr d) hdec.state
    ((hearly d (by omega) (by omega)).2 hdec.state)
  rw [← r.next d] at hstep
  have hword : (r.state d).dec = decode (fetched D (arch r mem t)) := by
    rw [State.dec, hdec.parcels]
  have hregs := (hrun d (by omega) (by omega)).1
  refine ⟨d + 1, by omega, ?_⟩
  constructor
  case state => rw [hstep]
  case word => rw [hstep]; exact hdec.parcels
  case pc => exact (hrun (d + 1) (by omega) le_rfl).2.1
  case next => rw [hstep]; exact hdec.next
  case finished => rw [hstep]; exact hdec.finished
  case regval1 => rw [hstep, State.readRegs, hword, ← hregs]
  case regval2 => rw [hstep, State.readRegs, hword, ← hregs]
  case csr => exact (hrun (d + 1) (by omega) le_rfl).2.2.1
  case path => exact fun k hk hkd => hinner k hk (by omega)
  case frame =>
    intro k hk hkd
    obtain ⟨h₁, -, -, -, h₂⟩ := hrun k hk hkd
    exact ⟨h₁, h₂⟩

end run

theorem restState_flow {regs : Registers.RegFile} {pc : BitVec 32} (h0 : regs 0#5 = 0#32)
    (he : BitSlices.IsEven pc) : Flow (restState regs pc) where
  toCoherent := (restState_boundary h0 he).coherent
  toInFlight := InFlight.of_blank rfl
  toEnables := ⟨fun h => absurd h Bool.false_ne_true, fun h => absurd h Bool.false_ne_true⟩

end TagSoc.Cpu
