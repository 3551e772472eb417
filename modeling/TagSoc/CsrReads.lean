import TagSoc.Zicsr
import TagSoc.SocRun

/-!
# Reading a CSR

Every CSR instruction writes back, also one that the instruction set counts as
a read. Writing the old word back is harmless as long as nothing else listens:
the copies of the control bits follow the write, and so does the acknowledge of
a tag violation. `csr_read_unchanged_iff` says when a read leaves everything as
it was, and from which instructions an acknowledge can come.
-/
namespace TagSoc.Cpu
open Clocked Decoder CpuBus Csr

section
variable {v : BitVec 32} {s : State} {i : Inputs}

/-! ## The operands of a CSR instruction -/

/-- How the two states are entered. -/
theorem control_csr :
    ((s.control i).nextState = .csr1 → s.state = .system ∧ systemKind s.dec = .csr) ∧
      ((s.control i).nextState = .csr2 → s.state = .csr1) := by
  cases hs : s.state <;> simp [State.control, hs, State.controlFetch, State.controlDecode,
    State.controlLoad1, State.controlStore1, State.controlStore2, controlUpdatePc_eq]
  case exec => cases s.dec.execNextStage <;> simp [State.execNextState]
  case system =>
    unfold State.controlSystem
    cases systemKind s.dec <;> simp [State.controlRaise]
  all_goals split_ifs <;> simp

/-- What the last two states of a CSR instruction work with: the operand was
read in the decode clock, and the port shows the stored word. -/
structure CsrOperands (s : State) : Prop where
  source : s.state.decoded = true → s.dec.rs1 = 0#5 → s.regs.regval1 = 0#32
  addr : s.state = .csr1 ∨ s.state = .csr2 →
    s.csr.we = false ∧ s.csr.index = csrIndex s.csrAddr
  port : s.state = .csr1 ∧ s.csr.busy = false ∨ s.state = .csr2 → csrIndex s.csrAddr ≠ mRnd →
    s.csr.dataOut = s.csr.settled (csrIndex s.csrAddr)

theorem csrOperands_of_rst (hr : i.rst = true) : CsrOperands (s.step v i) := by
  have hs := step_state_of_rst (v := v) (s := s) hr
  constructor <;> simp [hs, MainState.decoded]

/-- The operand registers are loaded in the decode clock and in no other. -/
theorem step_regval1 (hs : s.state ≠ .decode) :
    (s.step v i).regs.regval1 = s.regs.regval1 := by
  have hre : (s.control i).regRe = false := by
    unfold State.control
    cases hst : s.state <;> simp only
    case decode => exact absurd hst hs
    case updatePc => rw [controlUpdatePc_eq]
    case system =>
      unfold State.controlSystem
      cases systemKind s.dec <;> rfl
    all_goals rfl
  simp [State.step, State.regsIn, Registers.State.step, hre]

section step
variable (h : Coherent s) (u : Undisturbed s i)
include h u

/-- A state after the decode clock comes from the decode clock or from another
such state, and with the same instruction. -/
theorem decoded_of_step (hs : (s.step v i).state.decoded = true) :
    (s.state = .decode ∨ s.state.decoded = true) ∧ (s.step v i).parcels = s.parcels := by
  have hprev : s.state = .decode ∨ s.state.decoded = true := by
    rw [step_state u.rst] at hs
    split_ifs at hs with hb
    · exact Or.inr hs
    · have hused := h.used
      revert hs hused
      cases hst : s.state <;>
        simp [State.control, hst, MainState.decoded, MainState.unused, State.controlFetch]
      all_goals split_ifs <;> simp
  refine ⟨hprev, ?_⟩
  have hne : s.state ≠ .fetch ∧ s.state ≠ .fetchMore := by
    rcases hprev with hp | hp <;> revert hp <;> cases s.state <;> simp [MainState.decoded]
  simp [State.step, State.parcels, u.rst, hne]

theorem CsrOperands.step_source (hf : CsrOperands s) (hs : (s.step v i).state.decoded = true)
    (hz : (s.step v i).dec.rs1 = 0#5) : (s.step v i).regs.regval1 = 0#32 := by
  obtain ⟨hprev, hpar⟩ := decoded_of_step h u hs
  have hdec : (s.step v i).dec = s.dec := by rw [State.dec, hpar, State.dec]
  rw [hdec] at hz
  by_cases hd : s.state = .decode
  · have hread : (s.step v i).regs = s.readRegs := by
      cases hi : s.takesInterrupt i with
      | true => rw [step_decode_interrupt h u hd hi]
      | false => rw [step_decode h u hd hi]
    rw [hread, State.readRegs, hz]
    exact h.zero
  · rw [step_regval1 hd]
    exact hf.source (hprev.resolve_left hd) hz

/-- The word is on the port after the second clock. -/
theorem CsrOperands.step_of_csr1 (hf : CsrOperands s) (hs : s.state = .csr1) :
    (s.step v i).csr.we = false ∧ (s.step v i).csr.index = csrIndex (s.step v i).csrAddr ∧
      (csrIndex (s.step v i).csrAddr ≠ mRnd →
        (s.step v i).csr.dataOut = (s.step v i).csr.settled (csrIndex (s.step v i).csrAddr)) := by
  obtain ⟨hw, hi⟩ := hf.addr (Or.inl hs)
  rw [step_csr1 h u hs]
  refine ⟨rest_we _ hw, hi, fun hr => ?_⟩
  have hr' : s.csr.index ≠ mRnd := hi ▸ hr
  exact (rest_dataOut _ hw hr').trans (by rw [hi, rest_settled _ hw]; rfl)

theorem CsrOperands.step (hf : CsrOperands s) : CsrOperands (s.step v i) := by
  have hfrom : (s.step v i).state = .csr1 ∨ (s.step v i).state = .csr2 →
      s.state = .csr1 ∨ s.state = .system ∧ systemKind s.dec = .csr ∧
        (s.step v i).state = .csr1 := by
    intro hs
    have hnext := step_state (v := v) (s := s) u.rst
    by_cases hb : s.busy i = true
    · rw [if_pos hb] at hnext
      rw [hnext] at hs
      rcases hs with hs | hs
      · exact Or.inl hs
      · exact absurd hb (by simp [h.not_busy u.halt (by rw [hs]; rfl)])
    · rw [if_neg hb] at hnext
      rcases hs with hs | hs
      · have hsys := control_csr.1 (hnext.symm.trans hs)
        exact Or.inr ⟨hsys.1, hsys.2, hs⟩
      · exact Or.inl (control_csr.2 (hnext.symm.trans hs))
  constructor
  case source => exact hf.step_source h u
  case addr =>
    intro hs
    rcases hfrom hs with hold | ⟨hold, hk, -⟩
    · obtain ⟨hw, hi, -⟩ := hf.step_of_csr1 (v := v) h u hold
      exact ⟨hw, hi⟩
    · have hb := h.csr_free (by rw [hold]; rfl)
      rw [step_system_csr h u hold hk]
      exact ⟨by simp [Csr.State.clock, Csr.State.step, hb], rfl⟩
  case port =>
    intro hs
    rcases hfrom (hs.imp And.left id) with hold | ⟨hold, hk, hst⟩
    · exact (hf.step_of_csr1 (v := v) h u hold).2.2
    · -- in the first of the two clocks the handshake is busy
      have hb := h.csr_free (by rw [hold]; rfl)
      have hbusy : (s.step v i).csr.busy = true := by
        rw [step_system_csr h u hold hk]
        simp [hb]
      rcases hs with ⟨-, hfree⟩ | hs
      · exact absurd (hfree.symm.trans hbusy) Bool.false_ne_true
      · exact absurd (hst.symm.trans hs) (by decide)

end step

end

/-! ## From the decode clock to the system clock -/

section run
variable {v : BitVec 32} {r : Run (State.step v)} (hc : ∀ n, Coherent (r.state n))
  (hu : ∀ n, Undisturbed (r.state n) (r.input n)) {d : ℕ}
include hc hu

theorem system_of_decode (hs : (r.state d).state = .decode)
    (hi : (r.state d).takesInterrupt (r.input d) = false)
    (hd : (r.state d).dec.execNextStage = .toSystem) :
    (r.state (d + 1)).state = .exec ∧ (r.state (d + 1)).csr = (r.state d).csr.rest ∧
      (r.state (d + 2)).state = .system ∧ (r.state (d + 2)).csr = (r.state d).csr.rest.rest ∧
      (r.state (d + 2)).dec = (r.state d).dec ∧
      (r.state (d + 2)).regs.regval1 = (r.state d).regs.regfile (r.state d).dec.rs1 := by
  have h₁ := step_decode (v := v) (hc d) (hu d) hs hi
  rw [← r.next d] at h₁
  have hst : (r.state (d + 1)).state = .exec := by rw [h₁]
  have hdec : (r.state (d + 1)).dec = (r.state d).dec := by rw [h₁]; rfl
  have h₂ := step_exec (v := v) (hc (d + 1)) (hu (d + 1)) hst
  rw [← r.next (d + 1), hdec, hd, (toSystem_quiet hd).1] at h₂
  refine ⟨hst, by rw [h₁], by rw [h₂]; rfl, by rw [h₂, h₁], ?_, ?_⟩
  · rw [h₂]
    exact hdec
  · rw [h₂, h₁]
    rfl

end run

/-! ## What the CSR block makes of a write -/

/-- The acknowledge line in the clock after the write. -/
theorem csrWritten_irqClear {s : State} (new : BitVec 32) :
    (s.csrWritten new).tagsIrqClear = (s.csrAddr == msrMtags && new.getLsbD 1) := by
  cases ha : s.csrAddr == msrMtags <;>
    simp [State.csrWritten, Csr.State.clock, Csr.State.step, ha]

/-- The copies after the write. -/
theorem csrWritten_copies {s : State} (new : BitVec 32) :
    let c := (s.csrWritten new).rest.rest
    c.irqEn = (if s.csrAddr = msrMstatus then new.getLsbD 3 else s.csr.irqEn) ∧
      c.irqTimerEn = (if s.csrAddr = msrMie then new.getLsbD 7 else s.csr.irqTimerEn) ∧
      c.tagsEn = (if s.csrAddr = msrMtags then new.getLsbD 0 else s.csr.tagsEn) ∧
      c.tagsIfEn = (if s.csrAddr = msrMtags then new.getLsbD 2 else s.csr.tagsIfEn) ∧
      c.tagsSkipSpEn = (if s.csrAddr = msrMtags then new.getLsbD 3 else s.csr.tagsSkipSpEn) := by
  simp [State.csrWritten, State.csrHeld, State.csrRead, Csr.State.rest, Csr.State.clock,
    Csr.State.step]

/-- The source operand of a CSR instruction. -/
def State.csrSource (s : State) : BitVec 32 :=
  if s.dec.funct3 = funcCsrrwi ∨ s.dec.funct3 = funcCsrrsi ∨ s.dec.funct3 = funcCsrrci then
    0#27 ++ s.dec.rs1
  else s.regs.regval1

/-- A bit of the new word comes from the source, or it was in the old word and
the instruction is one that keeps bits. -/
theorem csrWriteData_getLsbD {s : State} (h : s.csrWriteData.getLsbD 1 = true) :
    s.csrSource.getLsbD 1 = true ∨
      s.csr.dataOut.getLsbD 1 = true ∧ s.dec.funct3 ≠ funcCsrrw ∧ s.dec.funct3 ≠ funcCsrrwi := by
  rw [csrWriteData_eq, csrNew] at h
  unfold State.csrSource
  split_ifs at h with h₁ h₂ h₃ h₄ h₅ h₆
  · rw [if_neg (by rw [h₁]; decide)]
    exact Or.inl h
  · rw [if_pos (Or.inl h₂)]
    exact Or.inl h
  · rw [if_pos (Or.inr (Or.inl h₃))]
    rw [BitVec.getLsbD_or, Bool.or_eq_true] at h
    exact h.imp_right fun hold => ⟨hold, h₁, h₂⟩
  · rw [if_neg (by rw [h₄]; decide)]
    rw [BitVec.getLsbD_or, Bool.or_eq_true] at h
    exact h.imp_right fun hold => ⟨hold, h₁, h₂⟩
  · rw [BitVec.getLsbD_and, Bool.and_eq_true] at h
    exact Or.inr ⟨h.2, h₁, h₂⟩
  · rw [BitVec.getLsbD_and, Bool.and_eq_true] at h
    exact Or.inr ⟨h.2, h₁, h₂⟩
  · exact absurd h (by decide)

/-- A word that is written back where it came from. -/
theorem writeWord_same {m : BitVec 4 → BitVec 32} {addr : BitVec 12} {x : BitVec 32}
    (h : csrIndex addr ≠ mRnd → x = m (csrIndex addr)) : writeWord m addr x = m := by
  unfold writeWord
  split_ifs with hlt
  · rw [h fun hr => by rw [hr] at hlt; exact absurd hlt (by decide)]
    exact Function.update_eq_self _ _
  · rfl

/-! ## A CSR instruction from its decode clock on -/

/-- The CSR block after an instruction that wrote `new`. -/
structure Wrote (addr : BitVec 12) (new : BitVec 32) (c c' : Csr.State) : Prop where
  stored : c'.settled = writeWord c.settled addr new
  irqEn : c'.irqEn = if addr = msrMstatus then new.getLsbD 3 else c.irqEn
  irqTimerEn : c'.irqTimerEn = if addr = msrMie then new.getLsbD 7 else c.irqTimerEn
  tagsEn : c'.tagsEn = if addr = msrMtags then new.getLsbD 0 else c.tagsEn
  tagsIfEn : c'.tagsIfEn = if addr = msrMtags then new.getLsbD 2 else c.tagsIfEn
  tagsSkipSpEn : c'.tagsSkipSpEn = if addr = msrMtags then new.getLsbD 3 else c.tagsSkipSpEn

section run
variable {v : BitVec 32} {r : Run (State.step v)} (hc : ∀ n, Coherent (r.state n))
  (hu : ∀ n, Undisturbed (r.state n) (r.input n)) {d : ℕ}
include hc hu

/-- The clocks of a CSR instruction from its decode clock on: none is at a boundary, uses the
bus, or updates the program counter too early. -/
theorem csr_path {x : Zicsr.CsrInstr} (hs : (r.state d).state = .decode)
    (hst₁ : (r.state (d + 1)).state = .exec) (hst₂ : (r.state (d + 2)).state = .system)
    (hdec : Zicsr.Decodes x (r.state (d + 2)).dec) :
    NextBoundary r d (d + 8) ∧ (∀ k, d ≤ k → k < d + 8 → (r.state k).bus.busy = false) ∧
      ∀ k, d ≤ k → k < d + 6 → (r.state k).state ≠ .updatePc := by
  have hc' : ∀ n, d + 2 ≤ n → Coherent (r.state n) := fun n _ => hc n
  have hu' : ∀ n, d + 2 ≤ n → Undisturbed (r.state n) (r.input n) := fun n _ => hu n
  have hquiet : ∀ k, d + 2 ≤ k → k < d + 8 → _ := fun k h₁ h₂ =>
    csr_quiet hc' hu' hst₂ hdec.kind hdec.stage h₁ h₂
  refine ⟨⟨by omega, ?_, ?_⟩, ?_, ?_⟩
  · rw [State.atBoundary, csr_run hc' hu' hst₂ hdec.kind hdec.stage]
    dsimp only
    split_ifs <;> rfl
  · intro k hk₁ hk₂
    rcases (by omega : k = d + 1 ∨ d + 2 ≤ k) with rfl | hk
    · rw [State.atBoundary, hst₁]; rfl
    · exact (hquiet k hk hk₂).2.2
  · intro k hk₁ hk₂
    refine (hc k).bus_free ?_
    rcases (by omega : k = d ∨ k = d + 1 ∨ d + 2 ≤ k) with rfl | rfl | hk
    · rw [hs]; rfl
    · rw [hst₁]; rfl
    · exact (hquiet k hk hk₂).2.1
  · intro k hk₁ hk₂
    rcases (by omega : k = d ∨ k = d + 1 ∨ k = d + 2 ∨ k = d + 3 ∨ k = d + 4 ∨ k = d + 5) with
      rfl | rfl | rfl | rfl | rfl | rfl
    · simp [hs]
    · simp [hst₁]
    · simp [hst₂]
    · simp [csr_clock1 hc' hu' hst₂ hdec.kind]
    · simp [csr_clock2 hc' hu' hst₂ hdec.kind]
    · simp [csr_clock3 hc' hu' hst₂ hdec.kind]

theorem csr_from_decode {x : Zicsr.CsrInstr} (hs : (r.state d).state = .decode)
    (hi : (r.state d).takesInterrupt (r.input d) = false) (hx : (r.state d).parcels = x.encode) :
    NextBoundary r d (d + 8) ∧ (∀ k, d ≤ k → k < d + 8 → (r.state k).bus.busy = false) ∧
      (∀ k, d ≤ k → k < d + 6 → (r.state k).state ≠ .updatePc) ∧
      ∃ old, (csrIndex x.csr ≠ mRnd → old = (r.state d).csr.settled (csrIndex x.csr)) ∧
        Wrote x.csr (x.new (r.state d).regs.regfile old) (r.state d).csr (r.state (d + 8)).csr ∧
        (r.state (d + 6)).csr.tagsIrqClear =
          (x.csr == msrMtags && (x.new (r.state d).regs.regfile old).getLsbD 1) ∧
        (r.state (d + 7)).csr.tagsIrqClear = false := by
  have hdec : Zicsr.Decodes x (r.state d).dec := by
    rw [State.dec, hx]
    exact Zicsr.decode_encode x
  obtain ⟨hst₁, hcsr₁, hst₂, hcsr₂, hdec₂, hval⟩ := system_of_decode hc hu hs hi hdec.stage
  rw [← hdec₂] at hdec
  have haddr : (r.state (d + 2)).csrAddr = x.csr := hdec.csr
  have hc' : ∀ n, d + 2 ≤ n → Coherent (r.state n) := fun n _ => hc n
  have hu' : ∀ n, d + 2 ≤ n → Undisturbed (r.state n) (r.input n) := fun n _ => hu n
  have hrun := csr_run hc' hu' hst₂ hdec.kind hdec.stage
  have hwrite := csr_clock4 hc' hu' hst₂ hdec.kind
  have hlast := csr_clock5 hc' hu' hst₂ hdec.kind hdec.stage
  have hfree := (hc (d + 2)).csr_free (by rw [hst₂]; rfl)
  have hcw := (hc (d + 2)).csr_we_free (by rw [hst₂]; rfl)
  have hcw₀ := (hc d).csr_we_free (by rw [hs]; rfl)
  have hfile : (r.state (d + 2)).csr.settled = (r.state d).csr.settled := by
    rw [hcsr₂, rest_settled _ (rest_we _ hcw₀), rest_settled _ hcw₀]
  have hnew : csrNew (r.state (d + 2)).dec.funct3 (r.state (d + 2)).dec.rs1
      (r.state (d + 2)).regs.regval1 (r.state (d + 2)).csrHeld.dataOut =
      x.new (r.state d).regs.regfile (r.state (d + 2)).csrHeld.dataOut := by
    rw [hval, ← hdec₂, hdec.funct3, hdec.rs1, Zicsr.csrNew_eq]
  rw [hnew] at hrun hwrite
  have hcopies := csrWritten_copies (s := r.state (d + 2))
    (x.new (r.state d).regs.regfile (r.state (d + 2)).csrHeld.dataOut)
  rw [haddr, hcsr₂] at hcopies
  obtain ⟨hnext, hbus, hpc⟩ := csr_path hc hu hs hst₁ hst₂ hdec
  refine ⟨hnext, hbus, hpc, (r.state (d + 2)).csrHeld.dataOut, ?_, ?_, ?_, ?_⟩
  · intro hrnd
    rw [(csr_port hfree hcw (by rw [haddr]; exact hrnd)).2, haddr, hfile]
  · obtain ⟨h₁, h₂, h₃, h₄, h₅⟩ := hcopies
    constructor
    case stored => rw [hrun, csrWritten_settled hfree hcw, haddr, hfile]
    all_goals
      rw [hrun]
      assumption
  · rw [hwrite, ← haddr]
    exact csrWritten_irqClear _
  · rw [hlast]
    rfl

end run

end TagSoc.Cpu

namespace TagSoc.Soc
open Clocked Cpu Csr Decoder Zicsr

variable {g : ℕ}

theorem Powered.operands {r : Run (State.step (g := g))} (h : Powered r) {t : ℕ} (ht : 0 < t) :
    CsrOperands (r.state t).cpu := by
  induction t, ht using Nat.le_induction with
  | base =>
      rw [r.next]
      exact csrOperands_of_rst h.cpuRst
  | succ t ht ih =>
      rw [r.next, step_cpu]
      cases hr : (r.input t).cpuRst with
      | true => exact csrOperands_of_rst hr
      | false =>
          have w := h.wired ht
          exact ih.step w.flow.toCoherent (w.undisturbed (h.master t) (h.halt t) hr)

theorem Reached.operands {r : Run (State.step (g := g))} (h : Reached r) (t : ℕ) :
    CsrOperands (r.state t).cpu := by
  obtain ⟨r₀, t₀, hp, ht, rfl⟩ := h.past
  exact hp.operands (by omega)

/-! ## Reads -/

/-- Everything a read should leave alone. -/
structure Unchanged (s s' : State g) : Prop where
  stored : s'.cpu.csr.settled = s.cpu.csr.settled
  irqEn : s'.cpu.csr.irqEn = s.cpu.csr.irqEn
  irqTimerEn : s'.cpu.csr.irqTimerEn = s.cpu.csr.irqTimerEn
  tagsEn : s'.cpu.csr.tagsEn = s.cpu.csr.tagsEn
  tagsIfEn : s'.cpu.csr.tagsIfEn = s.cpu.csr.tagsIfEn
  tagsSkipSpEn : s'.cpu.csr.tagsSkipSpEn = s.cpu.csr.tagsSkipSpEn
  pending : s'.ram.irq = s.ram.irq

/-- The register can be written back with its own word: its copies agree with
it, and if it has the acknowledge bit set, nothing is pending. -/
structure ReadSafe (s : State g) (addr : BitVec 12) : Prop where
  status : addr = msrMstatus → s.cpu.csr.irqEn = (s.cpu.csr.settled mStatus).getLsbD 3
  timer : addr = msrMie → s.cpu.csr.irqTimerEn = (s.cpu.csr.settled mIe).getLsbD 7
  tags : addr = msrMtags → s.cpu.csr.tagsEn = (s.cpu.csr.settled mTags).getLsbD 0 ∧
    s.cpu.csr.tagsIfEn = (s.cpu.csr.settled mTags).getLsbD 2 ∧
    s.cpu.csr.tagsSkipSpEn = (s.cpu.csr.settled mTags).getLsbD 3
  ack : addr = msrMtags → (s.cpu.csr.settled mTags).getLsbD 1 = true → s.ram.irq = false

/-- An instruction that does not write forms the old word. -/
theorem new_of_not_writes {x : CsrInstr} (hx : ¬ x.writes) {regs : Registers.RegFile}
    (h0 : regs 0#5 = 0#32) (old : Word) : x.new regs old = old := by
  obtain ⟨hrw, hrwi, hrs1⟩ : x.op ≠ .csrrw ∧ x.op ≠ .csrrwi ∧ x.rs1 = 0#5 := by
    simpa [CsrInstr.writes, not_or] using hx
  have hsrc : x.source regs = 0#32 := by
    unfold CsrInstr.source
    cases x.op <;> simp [hrs1, h0]
  unfold CsrInstr.new
  cases hop : x.op
  case csrrw => exact absurd hop hrw
  case csrrwi => exact absurd hop hrwi
  case csrrs | csrrsi => simp [hsrc]
  case csrrc | csrrci =>
    dsimp only
    rw [hsrc]
    exact BitVec.and_allOnes

/-- Writing the old word back changes a copy exactly if the copy disagreed. -/
theorem unchanged_iff {s s' : State g} {addr : BitVec 12} {old : Word}
    (hold : csrIndex addr ≠ mRnd → old = s.cpu.csr.settled (csrIndex addr))
    (hw : Wrote addr old s.cpu.csr s'.cpu.csr)
    (hp : s'.ram.irq = (!(addr == msrMtags && old.getLsbD 1) && s.ram.irq)) :
    Unchanged s s' ↔ ReadSafe s addr := by
  have hstatus : addr = msrMstatus → old = s.cpu.csr.settled mStatus := by
    rintro rfl
    exact hold (by decide)
  have htimer : addr = msrMie → old = s.cpu.csr.settled mIe := by
    rintro rfl
    exact hold (by decide)
  have htags : addr = msrMtags → old = s.cpu.csr.settled mTags := by
    rintro rfl
    exact hold (by decide)
  have hcopy : ∀ {p : Prop} [Decidable p] {a b : Bool}, ((if p then b else a) = a) ↔ (p → a = b) := by
    intro p _ a b
    rw [ite_eq_right_iff]
    exact forall_congr' fun _ => eq_comm
  constructor
  · intro hu
    have h₁ := hu.irqEn
    have h₂ := hu.irqTimerEn
    have h₃ := hu.tagsEn
    have h₄ := hu.tagsIfEn
    have h₅ := hu.tagsSkipSpEn
    rw [hw.irqEn, hcopy] at h₁
    rw [hw.irqTimerEn, hcopy] at h₂
    rw [hw.tagsEn, hcopy] at h₃
    rw [hw.tagsIfEn, hcopy] at h₄
    rw [hw.tagsSkipSpEn, hcopy] at h₅
    constructor
    case status => exact fun ha => hstatus ha ▸ h₁ ha
    case timer => exact fun ha => htimer ha ▸ h₂ ha
    case tags => exact fun ha => htags ha ▸ ⟨h₃ ha, h₄ ha, h₅ ha⟩
    case ack =>
      intro ha hbit
      rw [← hu.pending, hp, htags ha, hbit, ha]
      rfl
  · intro hsafe
    constructor
    case stored => exact hw.stored.trans (writeWord_same hold)
    case irqEn => rw [hw.irqEn, hcopy]; exact fun ha => hstatus ha ▸ hsafe.status ha
    case irqTimerEn => rw [hw.irqTimerEn, hcopy]; exact fun ha => htimer ha ▸ hsafe.timer ha
    case tagsEn => rw [hw.tagsEn, hcopy]; exact fun ha => htags ha ▸ (hsafe.tags ha).1
    case tagsIfEn => rw [hw.tagsIfEn, hcopy]; exact fun ha => htags ha ▸ (hsafe.tags ha).2.1
    case tagsSkipSpEn => rw [hw.tagsSkipSpEn, hcopy]; exact fun ha => htags ha ▸ (hsafe.tags ha).2.2
    case pending =>
      rw [hp]
      by_cases ha : addr = msrMtags ∧ old.getLsbD 1 = true
      · rw [hsafe.ack ha.1 (htags ha.1 ▸ ha.2), Bool.and_false]
      · have hno : (addr == msrMtags && old.getLsbD 1) = false := by simpa using ha
        rw [hno, Bool.not_false, Bool.true_and]

section
variable {r : Run (State.step (g := g))} (h : Reached r)
include h

/-- What any CSR instruction does to the block and to the pending violation. -/
theorem csr_effect {d : ℕ} {x : CsrInstr} (hs : (r.state d).cpu.state = .decode)
    (hi : (r.state d).cpu.takesInterrupt ((r.state d).cpuIn (r.input d)) = false)
    (hx : (r.state d).cpu.parcels = x.encode) :
    NextBoundary (cpuRun r) d (d + 8) ∧
      ∃ old, (csrIndex x.csr ≠ mRnd → old = (r.state d).cpu.csr.settled (csrIndex x.csr)) ∧
        Wrote x.csr (x.new (r.state d).cpu.regs.regfile old) (r.state d).cpu.csr
          (r.state (d + 8)).cpu.csr ∧
        (r.state (d + 8)).ram.irq = (!(x.csr == msrMtags &&
          (x.new (r.state d).cpu.regs.regfile old).getLsbD 1) && (r.state d).ram.irq) := by
  obtain ⟨hnext, hbus, hpath, old, hold, hwrote, hclear, hclear'⟩ :=
    csr_from_decode (r := cpuRun r) h.coherent h.undisturbed hs hi hx
  -- the memory is at rest, and the acknowledge line moves only once
  have hrest := (h.wired d).ramRests (h.master d) (by rw [hs]; rfl)
  obtain ⟨hrest₆, -, hirq₆⟩ := h.ram_quiet (by omega : d ≤ d + 6) hrest
    (fun k h₁ h₂ => (h.wired k).not_requests (h.master k) (hbus k h₁ (by omega)))
    (fun k h₁ h₂ => Bool.eq_false_iff.mpr fun hk => hpath k h₁ h₂ ((h.wired k).clear hk))
  obtain ⟨hrest₇, -, hirq₇⟩ := (h.wired (d + 6)).ramRests_step (h.master _) (h.rst _) hrest₆
    (hbus _ (by omega) (by omega))
  obtain ⟨-, -, hirq₈⟩ := (h.wired (d + 7)).ramRests_step (h.master _) (h.rst _)
    (r.next (d + 6) ▸ hrest₇) (hbus _ (by omega) (by omega))
  rw [← r.next] at hirq₇ hirq₈
  refine ⟨hnext, old, hold, hwrote, ?_⟩
  rw [hirq₈, show (r.state (d + 7)).cpu.csr.tagsIrqClear = false from hclear', hirq₇,
    show (r.state (d + 6)).cpu.csr.tagsIrqClear = _ from hclear, hirq₆]
  rfl

theorem csr_read {d : ℕ} {x : CsrInstr} (hs : (r.state d).cpu.state = .decode)
    (hi : (r.state d).cpu.takesInterrupt ((r.state d).cpuIn (r.input d)) = false)
    (hx : (r.state d).cpu.parcels = x.encode) (hw : ¬ x.writes) :
    NextBoundary (cpuRun r) d (d + 8) ∧
      (Unchanged (r.state d) (r.state (d + 8)) ↔ ReadSafe (r.state d) x.csr) := by
  obtain ⟨hnext, old, hold, hwrote, hirq⟩ := csr_effect h hs hi hx
  rw [new_of_not_writes hw (h.wired d).flow.zero] at hwrote hirq
  exact ⟨hnext, unchanged_iff hold hwrote hirq⟩

end

/-! ## Acknowledges -/

/-- An instruction that keeps bits of the `tags` register finds the acknowledge
bit clear in it. -/
def AckSafe (s : State g) : Prop :=
  s.cpu.state = .csr2 → s.cpu.csrAddr = msrMtags → s.cpu.dec.funct3 ≠ funcCsrrw →
    s.cpu.dec.funct3 ≠ funcCsrrwi → (s.cpu.csr.settled mTags).getLsbD 1 = false

theorem irqClear_source {s : State g} {i : Inputs} (w : Wired s i) (ho : CsrOperands s.cpu)
    (hr : i.cpuRst = false) (hsafe : AckSafe s)
    (hclear : (s.step i).cpu.csr.tagsIrqClear = true) :
    s.cpu.state = .csr2 ∧ s.cpu.csrAddr = msrMtags ∧ s.cpu.csrSource.getLsbD 1 = true := by
  obtain ⟨-, hst⟩ := w.csr2_of_clear hclear
  rw [step_cpu, Cpu.step_csr_eq (i := s.cpuIn i) hr] at hclear
  simp only [Csr.State.clock, Csr.State.step, Bool.false_eq_true, if_false] at hclear
  split_ifs at hclear with haddr
  have hplain := w.flow.plain (by rw [hst]; rfl)
  have hreq : s.cpu.csrRequest (s.cpuIn i) =
      { en := true, we := true, addr := s.cpu.csrAddr, data := s.cpu.csrWriteData } := by
    simp [Cpu.State.csrRequest, Cpu.State.handlingTrap, Cpu.State.handlingMret, hplain,
      Cpu.State.control, hst, Cpu.State.csrAddr]
  rw [hreq] at haddr hclear
  have ha : s.cpu.csrAddr = msrMtags := by simpa using haddr
  refine ⟨hst, ha, (csrWriteData_getLsbD hclear).resolve_right ?_⟩
  rintro ⟨hold, hne, hne'⟩
  have hport := ho.port (Or.inr hst) (by rw [ha]; decide)
  rw [hport, ha] at hold
  exact absurd (hsafe hst ha hne hne') (by rw [show mTags = csrIndex msrMtags from rfl, hold]; decide)

/-- A pending violation goes away only through the acknowledge line. -/
theorem irqClear_of_falling {s : State g} {i : Inputs} (hr : i.rst = false)
    (h : s.ram.irq = true) (h' : (s.step i).ram.irq = false) : s.cpu.csr.tagsIrqClear = true := by
  have hrst : (s.ramIn i).rst = false := hr
  by_contra hno
  have hclear : (s.ramIn i).clearMismatch = false := Bool.eq_false_iff.mpr hno
  simp [step_ram, WbRam.State.step, hrst, hclear, h] at h'

/-- An instruction that only reads a CSR leaves the stored words, their copies
and the pending violation alone exactly if the register can be written back
with its own word; and where no bit-keeping instruction finds the acknowledge
bit in the `tags` register, a pending violation is acknowledged only by an
instruction whose source operand has that bit. -/
theorem csr_read_unchanged_iff {r : Run (State.step (g := g))} (h : Reached r) :
    (∀ (d : ℕ) (x : CsrInstr), (r.state d).cpu.state = .decode →
      (r.state d).cpu.takesInterrupt ((r.state d).cpuIn (r.input d)) = false →
      (r.state d).cpu.parcels = x.encode → ¬ x.writes →
      ∃ n, NextBoundary (cpuRun r) d n ∧
        (Unchanged (r.state d) (r.state n) ↔ ReadSafe (r.state d) x.csr)) ∧
    ∀ k, AckSafe (r.state k) → (r.state (k + 1)).ram.irq = true →
      (r.state (k + 2)).ram.irq = false →
      (r.state k).cpu.state = .csr2 ∧ (r.state k).cpu.csrAddr = msrMtags ∧
        (r.state k).cpu.csrSource.getLsbD 1 = true := by
  refine ⟨fun d x hs hi hx hw => ⟨d + 8, csr_read h hs hi hx hw⟩, fun k hsafe hirq hfall => ?_⟩
  rw [r.next (k + 1)] at hfall
  have hclear := irqClear_of_falling (h.rst (k + 1)) hirq hfall
  rw [r.next k] at hclear
  exact irqClear_source (h.wired k) (h.operands k) (h.cpuRst k) hsafe hclear

/-- `csrwi tags, 4`, `csrwi tags, 2` and `csrr x1, tags` over a memory whose tags
are all one: the fetch of the second instruction is a violation, the second
instruction acknowledges it, and the third changes nothing. -/
def acknowledged : Run (State.step (g := 1)) :=
  booted (fun _ => 0#32) (fun _ => 0#32) [0x34525073#32, 0x34515073#32, 0x345020F3#32] fun _ => 1#4

theorem csr_read_after_acknowledge :
    (∃ n, NextBoundary (cpuRun acknowledged) 29 n ∧
      Unchanged (acknowledged.state 29) (acknowledged.state n)) ∧
    (acknowledged.state 22).cpu.state = .csr2 ∧ (acknowledged.state 22).cpu.csrAddr = msrMtags ∧
      (acknowledged.state 22).cpu.csrSource.getLsbD 1 = true := by
  obtain ⟨hread, hack⟩ := csr_read_unchanged_iff (r := acknowledged) (booted_reached _ _ _ _ rfl)
  refine ⟨?_, hack 22 ?_ (by decide +kernel) (by decide +kernel)⟩
  · obtain ⟨n, hn, hiff⟩ := hread 29 ⟨.csrrs, 1#5, 0#5, 0x345#12⟩ (by decide +kernel)
      (by decide +kernel) (by decide +kernel) (by decide)
    refine ⟨n, hn, hiff.mpr ⟨?_, ?_, ?_, ?_⟩⟩
    · exact fun ha => absurd ha (by decide)
    · exact fun ha => absurd ha (by decide)
    · exact fun _ => by decide +kernel
    · exact fun _ _ => by decide +kernel
  · exact fun _ _ _ hne => absurd (by decide +kernel) hne

/-- `csrwi tags, 6` and `csrr x1, tags`: the read acknowledges the violation of
its own fetch. -/
def unnoticed : Run (State.step (g := 1)) :=
  booted (fun _ => 0#32) (fun _ => 0#32) [0x34535073#32, 0x345020F3#32] fun _ => 1#4

theorem csr_read_acknowledges :
    let x : CsrInstr := ⟨.csrrs, 1#5, 0#5, 0x345#12⟩
    Reached unnoticed ∧ (unnoticed.state 17).cpu.state = .decode ∧
      (unnoticed.state 17).cpu.takesInterrupt
        ((unnoticed.state 17).cpuIn (unnoticed.input 17)) = false ∧
      (unnoticed.state 17).cpu.parcels = x.encode ∧ ¬ x.writes ∧
      NextBoundary (cpuRun unnoticed) 17 25 ∧ (unnoticed.state 17).ram.irq = true ∧
      (unnoticed.state 25).ram.irq = false := by
  intro x
  have hr : Reached unnoticed := booted_reached _ _ _ _ rfl
  have hs : (unnoticed.state 17).cpu.state = .decode := by decide +kernel
  have hi : (unnoticed.state 17).cpu.takesInterrupt
      ((unnoticed.state 17).cpuIn (unnoticed.input 17)) = false := by decide +kernel
  have hx : (unnoticed.state 17).cpu.parcels = x.encode :=
    Eq.trans (b := 0x345020F3#32) (by decide +kernel) (by decide)
  have hbit : ((unnoticed.state 17).cpu.csr.settled mTags).getLsbD 1 = true := by decide +kernel
  obtain ⟨hnext, old, hold, -, hirq⟩ := csr_effect hr hs hi hx
  refine ⟨hr, hs, hi, hx, by decide, hnext, by decide +kernel, ?_⟩
  rw [hirq, new_of_not_writes (by decide) (hr.wired 17).flow.zero, hold (by decide)]
  simp only [show csrIndex x.csr = mTags from rfl, hbit]
  rfl

end TagSoc.Soc
