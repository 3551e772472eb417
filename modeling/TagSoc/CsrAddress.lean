import TagSoc.Flow

/-!
# What the CSR block shows

The block keeps the address of the last request and shows the word behind it, so
what a state uses is what some earlier state has asked for. The store states and the
two sequencers ask for registers of their own; a CSR instruction asks for the one that
it names. The random source, whose word counts clocks, is shown to a CSR instruction
only, with one exception (`State.jumpsToRnd`).
-/
namespace TagSoc.Csr

theorem index_ite_ne {p : Prop} [Decidable p] {a b : BitVec 4} (ha : a ≠ mRnd) (hb : b ≠ mRnd) :
    (if p then a else b) ≠ mRnd := by
  split_ifs <;> assumption

theorem eq_mrnd_of_index {a : BitVec 12} (h : csrIndex a = mRnd) : a = msrMrnd := by
  by_contra hne
  revert h
  unfold csrIndex
  rw [if_neg hne]
  repeat' apply index_ite_ne
  all_goals decide

end TagSoc.Csr

namespace TagSoc.Cpu
open Decoder Csr

variable {v : BitVec 32}

/-- The word shown by the CSR block is used, and was asked for by the machine itself. -/
def State.ownsCsr (x : State) : Bool := x.state == .store2 || x.handlingTrap || x.handlingMret

/-- The next address is the word of the random source. The decoder sends some illegal
words from `exec` to `trap` without starting the sequencer; what the CSR block shows
is then left from an earlier access. -/
def State.jumpsToRnd (x : State) : Bool :=
  x.state == .updatePc && x.nextAddrFromCsr && x.csr.index == mRnd

/-- A CSR instruction reads the random source. -/
def State.readsRnd (x : State) : Bool :=
  (x.state == .csr1 || x.state == .csr2) && x.dec.imm.extractLsb' 0 12 == msrMrnd &&
    !(x.dec.rd == 0#5 && (x.dec.funct3 == funcCsrrw || x.dec.funct3 == funcCsrrwi))

/-- What the address kept in the CSR block is. -/
structure Addressed (x : State) : Prop where
  own : x.ownsCsr = true → x.csr.index ≠ mRnd
  instr : x.state = .csr1 ∨ x.state = .csr2 → x.csr.storedAddr = x.dec.imm.extractLsb' 0 12

section addressed
variable {x : State} {i : Inputs}

theorem Addressed.of_idle (hs : x.state ≠ .store2 ∧ x.state ≠ .csr1 ∧ x.state ≠ .csr2)
    (ht : x.trapState = .idle) (hm : x.mretState = .idle) : Addressed x := by
  constructor
  · simp [State.ownsCsr, State.handlingTrap, State.handlingMret, hs, ht, hm]
  · exact fun h => (h.elim hs.2.1 hs.2.2).elim

theorem trapCsr_addr (x : State) : csrIndex x.trapCsr.addr ≠ mRnd := by
  unfold State.trapCsr
  cases x.trapState <;> dsimp only <;> decide

theorem mretCsr_addr (x : State) : csrIndex x.mretCsr.addr ≠ mRnd := by
  unfold State.mretCsr
  cases x.mretState <;> dsimp only <;> decide

theorem trapCsr_idle (h : x.handlingTrap = false) : x.trapCsr = {} := by
  revert h
  unfold State.handlingTrap State.trapCsr
  cases x.trapState <;> simp

theorem mretCsr_idle (h : x.handlingMret = false) : x.mretCsr = {} := by
  revert h
  unfold State.handlingMret State.mretCsr
  cases x.mretState <;> simp

theorem index_clock {c : Csr.State} {q : Request} (h : c.index ≠ mRnd)
    (hq : csrIndex q.addr ≠ mRnd) : (c.clock q).index ≠ mRnd := by
  rw [Csr.State.index, clock_storedAddr]
  split_ifs
  · exact hq
  · exact h

theorem index_asked {c : Csr.State} {q : Request} (he : q.en = true)
    (hq : csrIndex q.addr ≠ mRnd) : (c.clock q).index ≠ mRnd := by
  rw [Csr.State.index, clock_storedAddr, if_pos he]
  exact hq

theorem handlingTrap_step (h : x.handlingTrap = false) (ho : (x.control i).trapOccured = false) :
    (x.step v i).handlingTrap = false := by
  revert h
  simp only [State.handlingTrap, State.step, State.nextTrapState, ho]
  cases i.rst <;> cases x.csr.busy <;> cases x.trapState <;> simp

theorem handlingMret_step (h : x.handlingMret = false) (ho : (x.control i).mretOccured = false) :
    (x.step v i).handlingMret = false := by
  revert h
  simp only [State.handlingMret, State.step, State.nextMretState, ho]
  cases i.rst <;> cases x.csr.busy <;> cases x.mretState <;> simp

/-- The sequencers ask for registers of their own. -/
theorem Addressed.step_sequencer (h : Addressed x) (u : Undisturbed x i)
    (hs : x.state = .trap ∨ x.state = .mret) : Addressed (x.step v i) := by
  have hstate : ¬ ((x.step v i).state = .csr1 ∨ (x.step v i).state = .csr2) ∧
      (x.step v i).state ≠ .store2 := by
    rw [step_state u.rst]
    split_ifs <;> rcases hs with hs | hs <;> simp [State.control, hs]
  refine ⟨fun hown => ?_, fun h => absurd h hstate.1⟩
  -- neither starts in these states, so it was running before
  have hold : x.handlingTrap = true ∨ x.handlingMret = true := by
    by_contra hno
    obtain ⟨h₁, h₂⟩ : x.handlingTrap = false ∧ x.handlingMret = false := by simpa using hno
    have ht : (x.step v i).handlingTrap = false := handlingTrap_step h₁ (by
      rcases hs with hs | hs <;> simp [State.control, hs])
    have hm : (x.step v i).handlingMret = false := handlingMret_step h₂ (by
      rcases hs with hs | hs <;> simp [State.control, hs])
    simp [State.ownsCsr, hstate.2, ht, hm] at hown
  rw [step_csr_eq u.rst, State.csrRequest]
  refine index_clock (h.own (by rcases hold with h | h <;> simp [State.ownsCsr, h])) ?_
  split_ifs with h₁ h₂
  · exact trapCsr_addr x
  · exact mretCsr_addr x
  · simp [h₁, h₂] at hold

/-- A state that starts no sequencer and does not go on to the ones that use the block. -/
theorem Addressed.step_quiet (u : Undisturbed x i) (ht : x.trapState = .idle)
    (hm : x.mretState = .idle) (hocc : (x.control i).trapOccured = false ∧
      (x.control i).mretOccured = false)
    (hs : x.state ≠ .store2 ∧ x.state ≠ .csr1 ∧ x.state ≠ .csr2)
    (hnext : (x.control i).nextState ≠ .store2 ∧ (x.control i).nextState ≠ .csr1 ∧
      (x.control i).nextState ≠ .csr2) : Addressed (x.step v i) := by
  refine .of_idle ?_ ?_ ?_
  · rw [step_state u.rst]
    split_ifs
    · exact hs
    · exact hnext
  · simp [State.step, State.nextTrapState, u.rst, ht, hocc.1]
  · simp [State.step, State.nextMretState, u.rst, hm, hocc.2]

theorem Addressed.step_system (hx : Coherent x) (u : Undisturbed x i) (hs : x.state = .system)
    (ht : x.trapState = .idle) (hm : x.mretState = .idle) : Addressed (x.step v i) := by
  cases hk : systemKind x.dec with
  | wfi =>
      rw [step_system_wfi hx u hs hk]
      exact .of_idle (by simp) ht hm
  | mret =>
      rw [step_system_mret hx u hs hk]
      exact ⟨fun _ => index_asked rfl (show csrIndex msrMstatus ≠ mRnd by decide), by simp⟩
  | csr =>
      rw [step_system_csr hx u hs hk]
      refine ⟨?_, fun _ => rfl⟩
      simp [State.ownsCsr, State.handlingTrap, State.handlingMret, ht, hm]
  | ecall | ebreak | invalid =>
      rw [step_system_raise hx u hs _ _ (by rw [State.controlSystem, hk])]
      exact ⟨fun _ => index_asked rfl (show csrIndex msrMcause ≠ mRnd by decide), by simp⟩

theorem Addressed.step (h : Addressed x) (hx : Coherent x) (u : Undisturbed x i) :
    Addressed (x.step v i) := by
  have hused := hx.used
  have hseq : x.state ≠ .trap → x.state ≠ .mret → x.state ≠ .reset →
      x.trapState = .idle ∧ x.mretState = .idle :=
    fun h₁ h₂ h₃ => ⟨hx.trap_idle h₁ h₃, hx.mret_idle h₂ h₃⟩
  cases hs : x.state <;> rw [hs] at hused hseq
  case dead | misalignedAddr | mretUpdateMstatus | mretReadEpc => exact absurd hused (by decide)
  case trap => exact h.step_sequencer u (Or.inl hs)
  case mret => exact h.step_sequencer u (Or.inr hs)
  case reset =>
    rw [step_reset hx u hs]
    refine .of_idle ?_ rfl rfl
    dsimp only
    split_ifs <;> simp
  all_goals obtain ⟨ht, hm⟩ := hseq (by simp) (by simp) (by simp)
  case store1 =>
    rw [step_store1 hx u hs]
    exact ⟨fun _ => index_asked rfl (show csrIndex msrMip ≠ mRnd by decide), by simp⟩
  case store2 =>
    have hold := h.own (by simp [State.ownsCsr, hs])
    have hclear : csrIndex x.clearMip.addr ≠ mRnd := show csrIndex msrMip ≠ mRnd by decide
    rw [step_store2 hx u hs]
    constructor
    · refine fun _ => index_clock hold ?_
      split_ifs
      · exact hclear
      · decide
    · dsimp only
      split_ifs <;> simp
  case system => exact .step_system hx u hs ht hm
  case decode =>
    cases htk : x.takesInterrupt i with
    | false =>
        rw [step_decode hx u hs htk]
        exact .of_idle (by simp) ht hm
    | true =>
        rw [step_decode_interrupt hx u hs htk]
        exact ⟨fun _ => index_asked rfl (show csrIndex msrMcause ≠ mRnd by decide), by simp⟩
  case csr1 =>
    rw [step_csr1 hx u hs]
    refine ⟨?_, fun _ => h.instr (Or.inl hs)⟩
    simp only [State.ownsCsr, State.handlingTrap, State.handlingMret, ht, hm]
    split_ifs <;> simp
  case csr2 =>
    rw [step_csr2 hx u hs]
    exact .of_idle (by simp) ht hm
  case exec =>
    refine .step_quiet u ht hm (by simp [State.control, hs]) (by simp [hs]) ?_
    cases hx : x.dec.execNextStage <;> simp [State.control, hs, State.execNextState, hx]
  all_goals refine .step_quiet u ht hm ?_ (by simp [hs]) ?_
  all_goals simp only [State.control, hs, controlUpdatePc_eq, State.controlFetch,
    State.controlLoad1]
  all_goals try split_ifs
  all_goals simp

/-- A CSR instruction that names the random source and does not read it. -/
theorem Addressed.not_read (h : Addressed x) (hrnd : x.readsRnd = false)
    (hs : x.state = .csr1 ∨ x.state = .csr2) (hi : x.csr.index = mRnd) :
    x.dec.rd = 0#5 ∧ (x.dec.funct3 = funcCsrrw ∨ x.dec.funct3 = funcCsrrwi) := by
  have haddr : x.dec.imm.extractLsb' 0 12 = msrMrnd := by
    rw [Csr.State.index, h.instr hs] at hi
    exact eq_mrnd_of_index hi
  have hst : (x.state == .csr1 || x.state == .csr2) = true := by
    rcases hs with hs | hs <;> simp [hs]
  have hno : (x.dec.rd == 0#5 && (x.dec.funct3 == funcCsrrw || x.dec.funct3 == funcCsrrwi)) =
      true := by
    simpa only [State.readsRnd, hst, haddr, beq_self_eq_true, Bool.true_and, Bool.not_eq_false']
      using hrnd
  simpa only [Bool.and_eq_true, Bool.or_eq_true, beq_iff_eq] using hno

end addressed

end TagSoc.Cpu
