import TagSoc.Bench
import TagSoc.Flow
import Mathlib.Tactic.IntervalCases

/-!
# Trap entry

A trap starts in a decode or system clock that writes `mcause`; the trap
sequencer then makes four to six accesses, each held for two clocks, and the
main machine waits for it and takes its next address from the last one.
`Sequenced` follows the sequencer from access to access; `TrapEntered` is what
the whole entry does to the machine.
-/
namespace TagSoc.Cpu
open Clocked Decoder CpuBus Csr Datapath

variable {v : BitVec 32}

/-! ## The sequencer -/

/-- `mip` with the timer bit set. -/
def trapPending (x : BitVec 32) : BitVec 32 := x.extractLsb' 8 24 ++ 1#1 ++ x.extractLsb' 0 7

theorem trapPending_getLsbD (x : BitVec 32) (k : ℕ) :
    (trapPending x).getLsbD k = if k = 7 then true else x.getLsbD k := by
  by_cases hk : k < 32
  · simp only [trapPending, BitVec.getLsbD_append, BitVec.getLsbD_extractLsb']
    interval_cases k <;> simp
  · rw [BitVec.getLsbD_of_ge _ _ (by omega), if_neg (by omega),
      BitVec.getLsbD_of_ge _ _ (by omega)]

def TrapState.active : TrapState → Bool
  | .loadStatus | .storeStatus | .storeEpc | .storeTval | .loadMip | .storeMip | .loadTvec => true
  | _ => false

theorem trapCsr_en {s : State} (h : s.trapState.active = true) : s.trapCsr.en = true := by
  unfold State.trapCsr
  cases hq : s.trapState <;> rw [hq] at h <;> first | rfl | exact absurd h (by decide)

theorem trapCsr_enables (s : State) : (s.csr.clock s.trapCsr).enables = s.csr.enables := by
  refine clock_enables _ _ fun hw => ?_
  rcases trapCsr_we hw with ⟨-, -, ha⟩ | hm
  · rw [ha]
    decide
  · constructor <;> rintro ha <;> rw [ha] at hm <;> exact absurd hm (by decide)

/-- The sequencer looks at the timer in this clock. -/
def State.samplesTimer (s : State) : Bool := s.trapState == .storeTval && !s.csr.busy

/-- The machine `s₀` with the sequencer and the CSR block moved on. -/
def State.sequenced (s₀ : State) (q : TrapState) (c : Csr.State) : State :=
  { s₀ with trapState := q, csr := c }

section run
variable {r : Run (State.step v)} (hf : ∀ t, Flow (r.state t))
  (hu : ∀ t, Undisturbed (r.state t) (r.input t))
include hf hu

/-- Both sequencers end alike: their last access is a read, and the machine
takes its next address from the port two clocks later. -/
theorem leave_run {t : ℕ} {addr : BitVec 12} {m : BitVec 4 → BitVec 32}
    (hs : (r.state t).state = .trap ∧ (r.state t).trapState = .idle ∨
      (r.state t).state = .mret ∧ (r.state t).mretState = .idle)
    (ha : (r.state t).alu.busy = false) (hacc : Access (r.state t).csr addr false m)
    (hne : csrIndex addr ≠ mRnd)
    (hquiet : (((r.state t).dec.writebackFromImm || (r.state t).dec.writebackFromAlu) &&
      (r.state t).execDone) = false) :
    (r.state (t + 1)).state = (r.state t).state ∧ (r.state (t + 2)).state = .updatePc ∧
      ∃ c : Csr.State, c.ram.mem = m ∧ c.irqEn = (r.state t).csr.irqEn ∧
        c.enables = (r.state t).csr.enables ∧
        r.state (t + 3) =
          { r.state t with
            state := if (r.input (t + 2)).externalSinglestep || (r.state t).testFinished
              then .cpuIdle else .preFetch
            pc := m (csrIndex addr) &&& ~~~1#32
            csr := c } := by
  obtain ⟨hw₁, hm₁, hidx⟩ := hacc.rest
  have hflags := (hf t).flags (by rcases hs with ⟨hs, -⟩ | ⟨hs, -⟩ <;> simp [hs])
  have h₁ : r.state (t + 1) = { r.state t with csr := (r.state t).csr.rest } := by
    rw [r.next]
    rcases hs with ⟨hs, hq⟩ | ⟨hs, hq⟩
    · exact step_trap_wait (hf t).toCoherent (hu t) hs hq ha hacc.busy
    · exact step_mret_wait (hf t).toCoherent (hu t) hs hq hacc.busy
  have h₂ : r.state (t + 2) = { r.state t with
      state := .updatePc, nextAddrFromCsr := true, csr := (r.state t).csr.rest.rest } := by
    have hc := (hf (t + 1)).toCoherent
    have hut := hu (t + 1)
    rw [r.next (t + 1)]
    rw [h₁] at hc hut ⊢
    rcases hs with ⟨hs, hq⟩ | ⟨hs, hq⟩
    · exact step_trap_done hc hut hs hq ha (rest_busy _)
    · exact step_mret_done hc hut hs hq (rest_busy _)
  -- the address was latched two clocks ago, so the word is there
  have hdata : (r.state t).csr.rest.rest.dataOut = m (csrIndex addr) := by
    rw [rest_dataOut _ hw₁ (by rw [hidx]; exact hne), hidx, hm₁]
  have hsettled : (r.state t).csr.rest.rest.settled = m := (rest_settled _ hw₁).trans hm₁
  refine ⟨by rw [h₁], by rw [h₂], (r.state t).csr.rest.rest.rest, hsettled, rfl, rfl, ?_⟩
  have hc := (hf (t + 2)).toCoherent
  have hut := hu (t + 2)
  rw [r.next (t + 2)]
  rw [h₂] at hc hut ⊢
  rw [step_updatePc hc hut rfl (rest_busy _)]
  have hwb : State.writebackEn { r.state t with
      state := .updatePc, nextAddrFromCsr := true, csr := (r.state t).csr.rest.rest } = false := by
    simp only [State.writebackEn, hflags.1, Bool.false_or]
    exact hquiet
  rw [hwb]
  simp only [State.updateNextPc, hflags, hdata, if_true, Bool.false_eq_true, if_false]

theorem step_sequenced {s₀ : State} {t : ℕ} {q : TrapState} {c : Csr.State}
    (h : r.state t = s₀.sequenced q c) (h₀ : s₀.state = .trap) (ha : s₀.alu.busy = false)
    (hq : q.active = true) :
    r.state (t + 1) = s₀.sequenced
      (if c.busy then q else (r.state t).nextTrapState (r.input t) false)
      (c.clock (r.state t).trapCsr) := by
  have hc := (hf t).toCoherent
  have hut := hu t
  have hact : (s₀.sequenced q c).handlingTrap = true := by
    revert hq
    cases q <;> simp [TrapState.active, State.sequenced, State.handlingTrap]
  rw [r.next]
  rw [h] at hc hut ⊢
  exact step_trap_handling hc hut h₀ hact ha

/-- One access of the sequencer: two clocks in one of its states. -/
theorem sequenced_pair {s₀ : State} {t : ℕ} {q : TrapState} {c : Csr.State}
    {addr : BitVec 12} {we : Bool} {m : BitVec 4 → BitVec 32}
    (h : r.state t = s₀.sequenced q c) (hacc : Access c addr we m)
    (h₀ : s₀.state = .trap) (ha : s₀.alu.busy = false) (hq : q.active = true) :
    ∃ c₁, r.state (t + 1) = s₀.sequenced q c₁ ∧ c₁ = c.clock (s₀.sequenced q c).trapCsr ∧
      r.state (t + 2) = s₀.sequenced
        ((s₀.sequenced q c₁).nextTrapState (r.input (t + 1)) false)
        (c₁.clock (s₀.sequenced q c₁).trapCsr) ∧
      Access (c₁.clock (s₀.sequenced q c₁).trapCsr) (s₀.sequenced q c₁).trapCsr.addr
        (s₀.sequenced q c₁).trapCsr.we ((s₀.sequenced q c₁).trapCsr.effect m) ∧
      (c₁.clock (s₀.sequenced q c₁).trapCsr).enables = c.enables := by
  have h₁ := step_sequenced hf hu h h₀ ha hq
  rw [if_pos hacc.busy, h] at h₁
  have h₂ := step_sequenced hf hu h₁ h₀ ha hq
  rw [(hacc.finish _).1, if_neg Bool.false_ne_true, h₁] at h₂
  refine ⟨_, h₁, rfl, h₂, hacc.pair (trapCsr_en hq), ?_⟩
  exact (trapCsr_enables (s₀.sequenced q _)).trans (trapCsr_enables (s₀.sequenced q c))

/-- At clock `t` the sequencer enters state `q` with an access to `addr` in
flight that will leave the file at `m`. -/
def SequencedAt (r : Run (State.step v)) (s₀ : State) (t : ℕ) (q : TrapState) (addr : BitVec 12)
    (we : Bool) (m : BitVec 4 → BitVec 32) : Prop :=
  ∃ c, r.state t = s₀.sequenced q c ∧ Access c addr we m ∧ c.enables = s₀.csr.enables

section states
variable {s₀ : State} (h₀ : s₀.state = .trap) (ha : s₀.alu.busy = false) {t : ℕ}
  {addr : BitVec 12} {we : Bool} {m : BitVec 4 → BitVec 32}
include h₀ ha

theorem sequenced_loadStatus (h : SequencedAt r s₀ t .loadStatus addr we m) :
    SequencedAt r s₀ (t + 2) .storeStatus msrMstatus false m := by
  obtain ⟨c, h, hacc, hen⟩ := h
  obtain ⟨c₁, -, -, h₂, hacc₂, hen₂⟩ := sequenced_pair hf hu h hacc h₀ ha rfl
  exact ⟨_, h₂, hacc₂, hen₂.trans hen⟩

/-- The word just read is on the port when the request is taken. -/
theorem sequenced_storeStatus (h : SequencedAt r s₀ t .storeStatus msrMstatus false m) :
    SequencedAt r s₀ (t + 2) .storeEpc msrMstatus true
      (writeWord m msrMstatus (trapStatus (m mStatus))) := by
  obtain ⟨c, h, hacc, hen⟩ := h
  obtain ⟨c₁, -, hc₁, h₂, hacc₂, hen₂⟩ := sequenced_pair hf hu h hacc h₀ ha rfl
  have hd : c₁.dataOut = m mStatus := by
    rw [hc₁]
    exact hacc.read rfl (by decide)
  rw [← hd]
  exact ⟨_, h₂, hacc₂, hen₂.trans hen⟩

theorem sequenced_storeEpc (h : SequencedAt r s₀ t .storeEpc addr we m) :
    SequencedAt r s₀ (t + 2) .storeTval msrMepc true (writeWord m msrMepc s₀.pc) := by
  obtain ⟨c, h, hacc, hen⟩ := h
  obtain ⟨c₁, -, -, h₂, hacc₂, hen₂⟩ := sequenced_pair hf hu h hacc h₀ ha rfl
  exact ⟨_, h₂, hacc₂, hen₂.trans hen⟩

/-- The timer is looked at once, in the second clock of this state. -/
theorem sequenced_storeTval (h : SequencedAt r s₀ t .storeTval addr we m) :
    SequencedAt r s₀ (t + 2)
      (if (r.input (t + 1)).timerInterrupt && s₀.csr.irqTimerEn then .loadMip else .loadTvec)
      msrMtval true (writeWord m msrMtval s₀.pc) := by
  obtain ⟨c, h, hacc, hen⟩ := h
  obtain ⟨c₁, -, hc₁, h₂, hacc₂, hen₂⟩ := sequenced_pair hf hu h hacc h₀ ha rfl
  have htimer : c₁.irqTimerEn = s₀.csr.irqTimerEn := by
    rw [hc₁]
    exact congrArg Prod.fst ((trapCsr_enables (s₀.sequenced .storeTval c)).trans hen)
  rw [← htimer]
  exact ⟨_, h₂, hacc₂, hen₂.trans hen⟩

theorem sequenced_samples (h : SequencedAt r s₀ t .storeTval addr we m) :
    (r.state (t + 1)).samplesTimer = true := by
  obtain ⟨c, h, hacc, -⟩ := h
  obtain ⟨c₁, h₁, hc₁, -⟩ := sequenced_pair hf hu h hacc h₀ ha rfl
  have hfree : c₁.busy = false := by
    rw [hc₁]
    exact (hacc.finish _).1
  simp [State.samplesTimer, h₁, State.sequenced, hfree]

theorem sequenced_loadMip (h : SequencedAt r s₀ t .loadMip addr we m) :
    SequencedAt r s₀ (t + 2) .storeMip msrMip false m := by
  obtain ⟨c, h, hacc, hen⟩ := h
  obtain ⟨c₁, -, -, h₂, hacc₂, hen₂⟩ := sequenced_pair hf hu h hacc h₀ ha rfl
  exact ⟨_, h₂, hacc₂, hen₂.trans hen⟩

theorem sequenced_storeMip (h : SequencedAt r s₀ t .storeMip msrMip false m) :
    SequencedAt r s₀ (t + 2) .loadTvec msrMip true
      (writeWord m msrMip (trapPending (m mIp))) := by
  obtain ⟨c, h, hacc, hen⟩ := h
  obtain ⟨c₁, -, hc₁, h₂, hacc₂, hen₂⟩ := sequenced_pair hf hu h hacc h₀ ha rfl
  have hd : c₁.dataOut = m mIp := by
    rw [hc₁]
    exact hacc.read rfl (by decide)
  rw [← hd]
  exact ⟨_, h₂, hacc₂, hen₂.trans hen⟩

theorem sequenced_loadTvec (h : SequencedAt r s₀ t .loadTvec addr we m) :
    SequencedAt r s₀ (t + 2) .idle msrMtvec false m := by
  obtain ⟨c, h, hacc, hen⟩ := h
  obtain ⟨c₁, -, -, h₂, hacc₂, hen₂⟩ := sequenced_pair hf hu h hacc h₀ ha rfl
  exact ⟨_, h₂, hacc₂, hen₂.trans hen⟩

end states

end run

/-! ## The whole entry -/

/-- The clock that starts a trap, from `s` to `s₀`. -/
structure TrapStarted (s s₀ : State) (cause : BitVec 32) : Prop where
  state : s₀.state = .trap
  sequencer : s₀.trapState = .loadStatus
  alu : s₀.alu.busy = false
  pc : s₀.pc = s.pc
  regs : s₀.regs.regfile = s.regs.regfile
  access : Access s₀.csr msrMcause true (writeWord s.csr.ram.mem msrMcause cause)
  enables : s₀.csr.enables = s.csr.enables
  quiet : ((s₀.dec.writebackFromImm || s₀.dec.writebackFromAlu) && s₀.execDone) = false

theorem writeMcause_access {s : State} (cause : BitVec 32) (hb : s.csr.busy = false)
    (hw : s.csr.we = false) :
    Access (s.csr.clock (State.writeMcause cause)) msrMcause true
        (writeWord s.csr.ram.mem msrMcause cause) ∧
      (s.csr.clock (State.writeMcause cause)).enables = s.csr.enables := by
  have h := access_of_free (r := State.writeMcause cause) hb hw rfl
  rw [settled_of_not_we _ hw] at h
  have hne : msrMcause ≠ msrMie ∧ msrMcause ≠ msrMtags := by decide
  exact ⟨h, clock_enables _ _ fun _ => hne⟩

theorem raise_of_trapOccured {s : State} (h : s.controlSystem.trapOccured = true) :
    ∃ cause fin, s.controlSystem = State.controlRaise cause fin := by
  unfold State.controlSystem at h ⊢
  cases hk : systemKind s.dec <;> rw [hk] at h
  case ecall | ebreak | invalid => exact ⟨_, _, rfl⟩
  all_goals exact absurd h Bool.false_ne_true

/-- Traps start in two states. -/
theorem trapOccured_cases {s : State} {i : Inputs} (h : Coherent s)
    (ht : (s.control i).trapOccured = true) :
    s.state = .decode ∧ s.takesInterrupt i = true ∨
      s.state = .system ∧ s.controlSystem.trapOccured = true := by
  have hused := h.used
  unfold State.control at ht
  cases hs : s.state <;> rw [hs] at hused ht <;> simp only at ht
  case decode => exact Or.inl ⟨rfl, ht⟩
  case system => exact Or.inr ⟨rfl, ht⟩
  case updatePc => simp [controlUpdatePc_eq] at ht
  all_goals exact absurd ht Bool.false_ne_true

theorem trap_started {s : State} {i : Inputs} (h : Flow s) (u : Undisturbed s i)
    (ht : (s.control i).trapOccured = true) :
    TrapStarted s (s.step v i) (s.control i).csrDataIn := by
  rcases trapOccured_cases h.toCoherent ht with ⟨hs, hi⟩ | ⟨hs, hk⟩
  · have hb := h.csr_free (by rw [hs]; rfl)
    have hw := h.csr_we_free (by rw [hs]; rfl)
    obtain ⟨hacc, hen⟩ := writeMcause_access (s.interruptCause i) hb hw
    have hcause : (s.control i).csrDataIn = s.interruptCause i := by
      simp [State.control, hs, State.controlDecode, hi]
    rw [step_decode_interrupt h.toCoherent u hs hi, hcause]
    exact ⟨rfl, rfl, h.alu_free (by rw [hs]; rfl), rfl, rfl, hacc, hen, by
      rw [h.fetching (by rw [hs]; rfl), Bool.and_false]⟩
  · have hb := h.csr_free (by rw [hs]; rfl)
    have hw := h.csr_we_free (by rw [hs]; rfl)
    obtain ⟨cause, fin, hk⟩ := raise_of_trapOccured hk
    obtain ⟨hacc, hen⟩ := writeMcause_access cause hb hw
    have hcause : (s.control i).csrDataIn = cause := by
      simp [State.control, hs, hk, State.controlRaise]
    rw [step_system_raise h.toCoherent u hs cause fin hk, hcause]
    exact ⟨rfl, rfl, h.alu_free (by rw [hs]; rfl), rfl, rfl, hacc, hen,
      h.system_quiet (by rw [hs]; rfl)⟩

/-- The file after the accesses of the sequencer. -/
def entryFile (m : BitVec 4 → BitVec 32) (cause pc : BitVec 32) (pending : Bool) :
    BitVec 4 → BitVec 32 :=
  let m₁ := writeWord m msrMcause cause
  let m₂ := writeWord m₁ msrMstatus (trapStatus (m₁ mStatus))
  let m₃ := writeWord (writeWord m₂ msrMepc pc) msrMtval pc
  if pending then writeWord m₃ msrMip (trapPending (m₃ mIp)) else m₃

theorem entryFile_apply (m : BitVec 4 → BitVec 32) (cause pc : BitVec 32) (pending : Bool)
    (k : BitVec 4) :
    entryFile m cause pc pending k =
      if k = mCause then cause
      else if k = mEpc ∨ k = mTval then pc
      else if k = mStatus then trapStatus (m mStatus)
      else if k = mIp ∧ pending = true then trapPending (m mIp)
      else m k := by
  have hw : ∀ (f : BitVec 4 → BitVec 32) (x : BitVec 32),
      writeWord f msrMcause x = Function.update f mCause x ∧
      writeWord f msrMstatus x = Function.update f mStatus x ∧
      writeWord f msrMepc x = Function.update f mEpc x ∧
      writeWord f msrMtval x = Function.update f mTval x ∧
      writeWord f msrMip x = Function.update f mIp x := fun _ _ => ⟨rfl, rfl, rfl, rfl, rfl⟩
  cases pending <;> simp only [entryFile, hw, Function.update_apply, mCause, mEpc, mTval, mStatus,
    mIp, if_true, if_false, Bool.false_eq_true] <;> split_ifs <;> simp_all

/-- What a trap does to the machine, from the clock that starts it to the first
clock of the handler. -/
structure TrapEntered (s s' : State) (cause : BitVec 32) (pending : Bool) : Prop where
  state : s'.state = .preFetch ∨ s'.state = .cpuIdle
  pc : s'.pc = s.csr.ram.mem mTvec &&& ~~~1#32
  regs : s'.regs.regfile = s.regs.regfile
  mcause : s'.csr.ram.mem mCause = cause
  mepc : s'.csr.ram.mem mEpc = s.pc
  mtval : s'.csr.ram.mem mTval = s.pc
  mstatus : ∀ b, (s'.csr.ram.mem mStatus).getLsbD b =
    if b = 3 then false
    else if b = 7 then (s.csr.ram.mem mStatus).getLsbD 3
    else (s.csr.ram.mem mStatus).getLsbD b
  mip : ∀ b, (s'.csr.ram.mem mIp).getLsbD b =
    if b = 7 ∧ pending = true then true else (s.csr.ram.mem mIp).getLsbD b
  others : ∀ k, k ∉ [mCause, mEpc, mTval, mStatus, mIp] → s'.csr.ram.mem k = s.csr.ram.mem k
  irqEn : s'.csr.irqEn = false
  enables : s'.csr.enables = s.csr.enables

section run
variable {r : Run (State.step v)} (hf : ∀ t, Flow (r.state t))
  (hu : ∀ t, Undisturbed (r.state t) (r.input t))
include hf hu

/-- The main machine while a trap is entered. -/
def Entering (r : Run (State.step v)) (k : ℕ) : Prop :=
  (r.state k).state = .trap ∨ (r.state k).state = .updatePc

theorem SequencedAt.until {s₀ : State} {t : ℕ} {q : TrapState} {addr : BitVec 12} {we : Bool}
    {m : BitVec 4 → BitVec 32} {Q : ℕ → Prop} (h₀ : s₀.state = .trap)
    (ha : s₀.alu.busy = false) (hq : q.active = true) (h : SequencedAt r s₀ t q addr we m)
    (hnext : Until (Entering r) Q (t + 2)) : Until (Entering r) Q t := by
  obtain ⟨c, h, hacc, -⟩ := h
  obtain ⟨c₁, h₁, -⟩ := sequenced_pair hf hu h hacc h₀ ha hq
  refine Until.next (Or.inl ?_) (Until.next (Or.inl ?_) hnext)
  · rw [h]; exact h₀
  · rw [h₁]; exact h₀

/-- The handler's first clock, given the file the sequencer has left. -/
theorem TrapStarted.entered {s : State} {t' : ℕ} {cause : BitVec 32} {s₀ : State}
    (hst : TrapStarted s s₀ cause) (pending : Bool)
    (h : SequencedAt r s₀ t' .idle msrMtvec false
      (entryFile s.csr.ram.mem cause s.pc pending)) :
    Until (Entering r) (fun n => TrapEntered s (r.state n) cause pending) t' := by
  obtain ⟨c', h, hacc, hen'⟩ := h
  have h₀ : (r.state t').state = .trap := by
    rw [h]
    exact hst.state
  obtain ⟨h₁, h₂, c, hmem, -, hen, h₃⟩ := leave_run hf hu (Or.inl ⟨h₀, by rw [h]; rfl⟩)
    (by rw [h]; exact hst.alu) (by rw [h]; exact hacc) (by decide) (by rw [h]; exact hst.quiet)
  rw [h₀] at h₁
  refine Until.next (Or.inl h₀) (Until.next (Or.inl h₁) (Until.next (Or.inr h₂) (Until.now ?_)))
  have hfile : ∀ k, (r.state (t' + 3)).csr.ram.mem k = entryFile s.csr.ram.mem cause s.pc pending k := by
    intro k
    rw [h₃]
    exact congrFun hmem k
  have hstate : (r.state (t' + 3)).state = .preFetch ∨ (r.state (t' + 3)).state = .cpuIdle := by
    rw [h₃]
    dsimp only
    split_ifs <;> simp
  constructor
  case state => exact hstate
  case pc =>
    rw [h₃, entryFile_apply]
    rfl
  case regs => rw [h₃, h]; exact hst.regs
  case mcause => rw [hfile, entryFile_apply]; rfl
  case mepc => rw [hfile, entryFile_apply]; rfl
  case mtval => rw [hfile, entryFile_apply]; rfl
  case mstatus =>
    intro b
    rw [hfile, entryFile_apply]
    exact trapStatus_getLsbD _ b
  case mip =>
    intro b
    rw [hfile, entryFile_apply]
    cases pending with
    | false => simp only [Bool.false_eq_true, and_false, if_false]; rfl
    | true => simp only [and_true]; exact trapPending_getLsbD _ b
  case others =>
    intro k hk
    simp only [List.mem_cons, List.not_mem_nil, or_false, not_or] at hk
    obtain ⟨hk₁, hk₂, hk₃, hk₄, hk₅⟩ := hk
    simp [hfile, entryFile_apply, hk₁, hk₂, hk₃, hk₄, hk₅]
  case irqEn =>
    -- the enable cannot be high while the stored bit is low
    have hfree : (r.state (t' + 3)).state.usesCsr = false ∧ (r.state (t' + 3)).state ≠ .mret ∧
        (r.state (t' + 3)).state ≠ .reset := by
      rcases hstate with hs | hs <;> simp [hs, MainState.usesCsr]
    have hmret := (hf (t' + 3)).mret_idle hfree.2.1 hfree.2.2
    refine Bool.eq_false_iff.mpr fun hon => ?_
    rcases (hf (t' + 3)).irq hon with ⟨hm, -⟩ | hbit
    · rw [hmret] at hm
      exact absurd hm (by decide)
    · rw [settled_of_not_we _ ((hf (t' + 3)).csr_we_free hfree.1), hfile, entryFile_apply] at hbit
      have hzero := trapStatus_getLsbD (s.csr.ram.mem mStatus) 3
      rw [if_pos rfl] at hzero
      exact absurd (hzero.symm.trans hbit) Bool.false_ne_true
  case enables =>
    rw [h₃, ← hst.enables, ← hen']
    rw [h] at hen
    exact hen

/-- From the clock that starts a trap to the first clock of the handler; the
timer is looked at in one clock in between. -/
theorem trap_run {t : ℕ} (ht : ((r.state t).control (r.input t)).trapOccured = true) :
    ∃ k, t < k ∧ (r.state k).samplesTimer = true ∧ Until (Entering r) (fun n => k < n ∧
      TrapEntered (r.state t) (r.state n) ((r.state t).control (r.input t)).csrDataIn
        ((r.input k).timerInterrupt && (r.state t).csr.irqTimerEn)) (t + 1) := by
  have hst : TrapStarted (r.state t) (r.state (t + 1))
      ((r.state t).control (r.input t)).csrDataIn := by
    rw [r.next]
    exact trap_started (hf t) (hu t) ht
  have h₀ := hst.state
  have ha := hst.alu
  have htimer : (r.state (t + 1)).csr.irqTimerEn = (r.state t).csr.irqTimerEn :=
    congrArg Prod.fst hst.enables
  -- the accesses in turn, two clocks each
  have q₁ : SequencedAt r (r.state (t + 1)) (t + 1) .loadStatus msrMcause true _ :=
    ⟨(r.state (t + 1)).csr, by rw [State.sequenced, ← hst.sequencer], hst.access, rfl⟩
  have q₂ := sequenced_loadStatus hf hu h₀ ha q₁
  have q₃ := sequenced_storeStatus hf hu h₀ ha q₂
  have q₄ := sequenced_storeEpc hf hu h₀ ha q₃
  have q₅ := sequenced_storeTval hf hu h₀ ha q₄
  have hsample := sequenced_samples hf hu h₀ ha q₄
  rw [htimer, show t + 1 + 2 + 2 + 2 + 1 = t + 8 by omega] at q₅
  refine ⟨t + 8, by omega, hsample, ?_⟩
  refine q₁.until hf hu h₀ ha rfl (q₂.until hf hu h₀ ha rfl (q₃.until hf hu h₀ ha rfl
    (q₄.until hf hu h₀ ha rfl ?_)))
  cases hp : (r.input (t + 8)).timerInterrupt && (r.state t).csr.irqTimerEn with
  | true =>
      rw [hp, if_pos rfl] at q₅
      have q₆ := sequenced_loadMip hf hu h₀ ha q₅
      have q₇ := sequenced_storeMip hf hu h₀ ha q₆
      have q₈ := sequenced_loadTvec hf hu h₀ ha q₇
      rw [hst.pc] at q₈
      refine q₅.until hf hu h₀ ha rfl (q₆.until hf hu h₀ ha rfl (q₇.until hf hu h₀ ha rfl ?_))
      refine (hst.entered hf hu true q₈).mono (fun _ _ h => h) ?_
      exact fun n hn h => ⟨by omega, h⟩
  | false =>
      rw [hp, if_neg Bool.false_ne_true] at q₅
      have q₆ := sequenced_loadTvec hf hu h₀ ha q₅
      rw [hst.pc] at q₆
      refine q₅.until hf hu h₀ ha rfl ?_
      refine (hst.entered hf hu false q₆).mono (fun _ _ h => h) ?_
      exact fun n hn h => ⟨by omega, h⟩

omit hf in
/-- The random number source runs on, trap or not. -/
theorem rnd_run (n : ℕ) : (r.state n).csr.rnd = lfsrNext^[n] (r.state 0).csr.rnd := by
  induction n with
  | zero => rfl
  | succ n ih =>
      rw [Function.iterate_succ_apply', ← ih, r.next, step_csr_eq (hu n).rst, clock_rnd]

end run

/-- Trap entry. A trap started in any state of the machine, with any registers,
CSRs and memory behind the bus, reaches the handler: `mcause` has the cause that
was presented, `mepc` and `mtval` the address of the instruction, `mstatus` and
`mip` change as given, and no other register, CSR or memory word does. -/
theorem trap_entry {M : Type*} {D : Device M} {r : Run (State.step v)} {mem : ℕ → M}
    (hs : Slave D r mem) (hr : Running r) (h0 : Flow (r.state 0))
    (ht : ((r.state 0).control (r.input 0)).trapOccured = true) :
    ∃ n k, 0 < k ∧ k < n ∧
      (∀ j, 0 < j → j < n → (r.state j).state ≠ .preFetch ∧ (r.state j).state ≠ .cpuIdle) ∧
      TrapEntered (r.state 0) (r.state n) ((r.state 0).control (r.input 0)).csrDataIn
        ((r.input k).timerInterrupt && (r.state 0).csr.irqTimerEn) ∧
      (r.state n).csr.rnd = lfsrNext^[n] (r.state 0).csr.rnd ∧
      mem n = mem 0 := by
  have hu := hs.undisturbed hr
  have hf := Running.flow hu h0
  obtain ⟨k, hk, -, n, hn, ⟨hkn, hentered⟩, hpath⟩ := trap_run hf hu ht
  refine ⟨n, k, hk, hkn, ?_, hentered, rnd_run hu n, ?_⟩
  · intro j hj hjn
    rcases hpath j hj hjn with h | h <;> simp [h]
  · refine hs.mem_const (fun t => (hf t).toCoherent) (Nat.zero_le n) fun j _ hjn => ?_
    rcases Nat.eq_zero_or_pos j with rfl | hj
    · rcases trapOccured_cases (hf 0).toCoherent ht with ⟨h, -⟩ | ⟨h, -⟩ <;> rw [h] <;> rfl
    · rcases hpath j hj hjn with h | h <;> rw [h] <;> rfl

/-- A two-byte instruction at `0x100` about to be decoded, interrupts and the
timer enabled, the handler at `0x200`. -/
def decodingState : State :=
  let s := restState (fun _ => 0#32) 0x100#32
  { s with
    state := .decode
    alu := { s.alu with result := 0x102#32 }
    csr := { s.csr with
      irqEn := true
      irqTimerEn := true
      ram := ⟨fun k => if k = mStatus then 0x8#32 else if k = mIe then 0x80#32
        else if k = mTvec then 0x201#32 else 0#32, 0#32⟩ } }

theorem decodingState_flow : Flow decodingState where
  toCoherent := by
    constructor
    case toStartable => exact ⟨rfl, rfl, rfl, by decide⟩
    all_goals decide
  toInFlight :=
    ⟨fun _ => rfl, by decide, by decide, fun _ => by decide, by decide, fun _ h => nomatch h⟩
  toEnables := ⟨fun _ => Or.inr (by decide), fun _ => by decide⟩

/-- The timer fires: the pending bit of `mip` is set as well. -/
theorem trap_entry_timer :
    let D : Device Unit := ⟨fun _ _ _ => 0#32, fun m _ _ _ => m⟩
    let i : Inputs := ⟨false, false, 0#32, true, false, false, false, false, false⟩
    let r := benchRun D (fun _ => true) i 0#32 decodingState ()
    ∃ n, 0 < n ∧ (r.state n).pc = 0x200#32 ∧ (r.state n).csr.ram.mem mCause = 0x80000007#32 ∧
      (r.state n).csr.ram.mem mEpc = 0x100#32 ∧
      ((r.state n).csr.ram.mem mStatus).getLsbD 7 = true ∧
      ((r.state n).csr.ram.mem mIp).getLsbD 7 = true := by
  intro D i r
  obtain ⟨n, k, hk, hkn, -, h, -, -⟩ := trap_entry (v := 0#32)
    (benchRun_slave D (fun _ => true) i (fun t => ⟨t, le_rfl, rfl⟩) decodingState ())
    ⟨fun _ => rfl, fun _ => rfl⟩ decodingState_flow (by decide)
  refine ⟨n, hk.trans hkn, h.pc.trans (by decide), ?_, h.mepc, ?_, ?_⟩
  · rw [h.mcause]
    decide
  · rw [h.mstatus]
    decide
  · rw [h.mip]
    rfl

end TagSoc.Cpu
