import TagSoc.TrapRun
import TagSoc.ExecRun

/-!
# Return from a trap

`mret` reads `mstatus`, stores it with the enable moved back from bit 7 to
bit 3, and continues at `mepc`. Together with the trap entry this gives the
round trip: a handler that is a single `mret` leaves no trace outside the CSRs
that describe the trap, and no other instruction is executed on the way.
-/
namespace TagSoc.Cpu
open Clocked Decoder CpuBus Csr Datapath BitSlices

variable {v : BitVec 32}

/-- `mstatus` on return: the enable moves back from bit 7 to bit 3. -/
def mretStatus (x : BitVec 32) : BitVec 32 :=
  x.extractLsb' 4 28 ++ x.extractLsb' 7 1 ++ x.extractLsb' 0 3

theorem mretStatus_getLsbD (x : BitVec 32) (k : ℕ) :
    (mretStatus x).getLsbD k = if k = 3 then x.getLsbD 7 else x.getLsbD k := by
  by_cases hk : k < 32
  · simp only [mretStatus, BitVec.getLsbD_append, BitVec.getLsbD_extractLsb']
    interval_cases k <;> simp
  · rw [BitVec.getLsbD_of_ge _ _ (by omega), if_neg (by omega),
      BitVec.getLsbD_of_ge _ _ (by omega)]

/-! ## The sequencer -/

/-- The machine `s₀` with the sequencer and the CSR block moved on. -/
def State.returning (s₀ : State) (q : MretState) (c : Csr.State) : State :=
  { s₀ with mretState := q, csr := c }

def MretState.active : MretState → Bool
  | .storeStatus | .loadEpc => true
  | _ => false

theorem mretCsr_en {s : State} (h : s.mretState.active = true) : s.mretCsr.en = true := by
  unfold State.mretCsr
  cases hq : s.mretState <;> rw [hq] at h <;> first | rfl | exact absurd h (by decide)

section run
variable {r : Run (State.step v)} (hf : ∀ t, Flow (r.state t))
  (hu : ∀ t, Undisturbed (r.state t) (r.input t))
include hf hu

theorem step_returning {s₀ : State} {t : ℕ} {q : MretState} {c : Csr.State}
    (h : r.state t = s₀.returning q c) (h₀ : s₀.state = .mret) (hq : q.active = true) :
    r.state (t + 1) = s₀.returning
      (if c.busy then q else (r.state t).nextMretState false) (c.clock (r.state t).mretCsr) := by
  have hc := (hf t).toCoherent
  have hut := hu t
  have hact : (s₀.returning q c).handlingMret = true := by
    revert hq
    cases q <;> simp [MretState.active, State.returning, State.handlingMret]
  rw [r.next]
  rw [h] at hc hut ⊢
  exact step_mret_handling hc hut h₀ hact

/-- One access of the sequencer: two clocks in one of its states. -/
theorem returning_pair {s₀ : State} {t : ℕ} {q : MretState} {c : Csr.State}
    {addr : BitVec 12} {we : Bool} {m : BitVec 4 → BitVec 32}
    (h : r.state t = s₀.returning q c) (hacc : Access c addr we m) (h₀ : s₀.state = .mret)
    (hq : q.active = true) :
    ∃ c₁, r.state (t + 1) = s₀.returning q c₁ ∧ c₁ = c.clock (s₀.returning q c).mretCsr ∧
      r.state (t + 2) = s₀.returning ((s₀.returning q c₁).nextMretState false)
        (c₁.clock (s₀.returning q c₁).mretCsr) ∧
      Access (c₁.clock (s₀.returning q c₁).mretCsr) (s₀.returning q c₁).mretCsr.addr
        (s₀.returning q c₁).mretCsr.we ((s₀.returning q c₁).mretCsr.effect m) := by
  have h₁ := step_returning hf hu h h₀ hq
  rw [if_pos hacc.busy, h] at h₁
  have h₂ := step_returning hf hu h₁ h₀ hq
  rw [(hacc.finish _).1, if_neg Bool.false_ne_true, h₁] at h₂
  exact ⟨_, h₁, rfl, h₂, hacc.pair (mretCsr_en hq)⟩

/-- The main machine while `mret` runs. -/
def Returning (r : Run (State.step v)) (k : ℕ) : Prop :=
  (r.state k).state = .mret ∨ (r.state k).state = .updatePc

/-- What `mret` does to the machine, from its system clock on. -/
structure Returned (s s' : State) : Prop where
  state : s'.state = .preFetch ∨ s'.state = .cpuIdle
  pc : s'.pc = s.csr.ram.mem mEpc &&& ~~~1#32
  regs : s'.regs.regfile = s.regs.regfile
  mstatus : ∀ b, (s'.csr.ram.mem mStatus).getLsbD b =
    if b = 3 then (s.csr.ram.mem mStatus).getLsbD 7 else (s.csr.ram.mem mStatus).getLsbD b
  others : ∀ k, k ≠ mStatus → s'.csr.ram.mem k = s.csr.ram.mem k
  irqEn : s'.csr.irqEn = (s.csr.ram.mem mStatus).getLsbD 7

/-- The first access stores `mstatus`; the enable follows it at once. -/
theorem returning_storeStatus {s₀ : State} {t : ℕ} {c : Csr.State} {m : BitVec 4 → BitVec 32}
    (h : r.state t = s₀.returning .storeStatus c) (hacc : Access c msrMstatus false m)
    (h₀ : s₀.state = .mret) :
    (r.state (t + 1)).state = .mret ∧
      ∃ c', r.state (t + 2) = s₀.returning .loadEpc c' ∧
        Access c' msrMstatus true (writeWord m msrMstatus (mretStatus (m mStatus))) ∧
        c'.irqEn = (m mStatus).getLsbD 7 := by
  obtain ⟨c₁, h₁, hc₁, h₂, hacc₂⟩ := returning_pair hf hu h hacc h₀ rfl
  have hd : c₁.dataOut = m mStatus := by
    rw [hc₁]
    exact hacc.read rfl (by decide)
  refine ⟨by rw [h₁]; exact h₀, _, h₂, ?_, ?_⟩
  · rw [← hd]
    exact hacc₂
  · have hbit := mretStatus_getLsbD (m mStatus) 3
    rw [if_pos rfl, ← hd] at hbit
    rw [← hd]
    exact hbit

theorem returning_loadEpc {s₀ : State} {t : ℕ} {c : Csr.State} {addr : BitVec 12} {we : Bool}
    {m : BitVec 4 → BitVec 32} (h : r.state t = s₀.returning .loadEpc c) (hacc : Access c addr we m)
    (h₀ : s₀.state = .mret) :
    (r.state (t + 1)).state = .mret ∧
      ∃ c', r.state (t + 2) = s₀.returning .idle c' ∧ Access c' msrMepc false m ∧
        c'.irqEn = c.irqEn := by
  obtain ⟨c₁, h₁, hc₁, h₂, hacc₂⟩ := returning_pair hf hu h hacc h₀ rfl
  refine ⟨by rw [h₁]; exact h₀, _, h₂, hacc₂, ?_⟩
  rw [hc₁]
  rfl

theorem mret_run {t : ℕ} (hs : (r.state t).state = .system)
    (hk : systemKind (r.state t).dec = .mret) :
    Until (Returning r) (fun n => Returned (r.state t) (r.state n)) (t + 1) := by
  have hc := (hf t).toCoherent
  have hw := hc.csr_we_free (by rw [hs]; rfl)
  have hstep := step_system_mret (v := v) hc (hu t) hs hk
  rw [← r.next t] at hstep
  have hacc : Access (r.state (t + 1)).csr msrMstatus false (r.state t).csr.ram.mem := by
    rw [hstep, ← settled_of_not_we _ hw]
    exact access_of_free (r := { en := true, addr := msrMstatus }) (hc.csr_free (by rw [hs]; rfl))
      hw rfl
  have h₀ : (r.state (t + 1)).state = .mret := by rw [hstep]
  have h₁ : r.state (t + 1) = (r.state (t + 1)).returning .storeStatus (r.state (t + 1)).csr := by
    have hq : (r.state (t + 1)).mretState = .storeStatus := by rw [hstep]
    rw [State.returning, ← hq]
  obtain ⟨h₂, c₃, h₃, hacc₃, hirq₃⟩ := returning_storeStatus hf hu h₁ hacc h₀
  obtain ⟨h₄, c₅, h₅, hacc₅, hirq₅⟩ := returning_loadEpc hf hu h₃ hacc₃ h₀
  have hs₅ : (r.state (t + 5)).state = .mret := by rw [h₅]; exact h₀
  obtain ⟨h₆, h₇, c, hmem, hirq, -, h₈⟩ := leave_run hf hu (t := t + 5)
    (Or.inr ⟨hs₅, by rw [h₅]; rfl⟩) ((hf _).alu_free (by rw [hs₅]; rfl)) (by rw [h₅]; exact hacc₅)
    (by decide) ((hf _).system_quiet (by rw [hs₅]; rfl))
  have hfinal : Returned (r.state t) (r.state (t + 8)) := by
    have hfile : ∀ k, (r.state (t + 8)).csr.ram.mem k = writeWord (r.state t).csr.ram.mem msrMstatus
        (mretStatus ((r.state t).csr.ram.mem mStatus)) k := by
      intro k
      rw [h₈]
      exact congrFun hmem k
    constructor
    case state =>
      rw [h₈]
      dsimp only
      split_ifs <;> simp
    case pc =>
      rw [h₈, writeWord_of_ne (by decide)]
      rfl
    case regs => rw [h₈, h₅, State.returning, hstep]
    case mstatus =>
      intro b
      rw [hfile, ← csrIndex_mstatus, writeWord_self (by decide)]
      exact mretStatus_getLsbD _ b
    case others => exact fun k hk => by rw [hfile, writeWord_of_ne (by simpa using hk)]
    case irqEn =>
      rw [h₈]
      dsimp only
      rw [hirq, h₅]
      exact hirq₅.trans hirq₃
  exact Until.next (Or.inl h₀) <| Until.next (Or.inl h₂) <|
    Until.next (Or.inl (by rw [h₃]; exact h₀)) <| Until.next (Or.inl h₄) <|
    Until.next (Or.inl hs₅) <| Until.next (Or.inl (h₆.trans hs₅)) <|
    Until.next (Or.inr h₇) <| Until.now hfinal

/-! ## Waiting and fetching leave the CSRs alone -/

/-- The states that make no CSR request as long as interrupts are off. -/
def MainState.passive : MainState → Bool
  | .preFetch | .fetch | .prepairUnalignedFetch | .fetchMore | .decode | .exec | .cpuIdle => true
  | _ => false

omit hf hu in
theorem MainState.passive_of_fetching {m : MainState} (h : m.fetching = true) :
    m.passive = true := by
  revert h
  cases m <;> simp [fetching, passive]

omit hf hu in
theorem csrRequest_passive {s : State} {i : Inputs} (h : Coherent s) (hs : s.state.passive = true)
    (hirq : s.csr.irqEn = false) : s.csrRequest i = {} := by
  have hp := h.plain (by revert hs; cases s.state <;> simp [MainState.passive, MainState.plain])
  have hno : s.takesInterrupt i = false := by simp [State.takesInterrupt, hirq]
  revert hs
  cases hs : s.state <;>
    simp [MainState.passive, State.csrRequest, State.handlingTrap, State.handlingMret, hp,
      State.control, hs, State.controlFetch, State.controlDecode, hno]

theorem passive_run {t n : ℕ} (hn : t ≤ n) (hirq : (r.state t).csr.irqEn = false)
    (hpath : ∀ k, t ≤ k → k < n → (r.state k).state.passive = true) :
    (r.state n).csr.settled = (r.state t).csr.settled ∧ (r.state n).csr.irqEn = false := by
  induction n, hn using Nat.le_induction with
  | base => exact ⟨rfl, hirq⟩
  | succ n hn ih =>
      obtain ⟨hm, hoff⟩ := ih fun k hk hlt => hpath k hk (Nat.lt_succ_of_lt hlt)
      have hreq := csrRequest_passive (i := r.input n) (hf n).toCoherent
        (hpath n hn (Nat.lt_succ_self n)) hoff
      rw [r.next, step_csr_eq (hu n).rst, hreq, clock_settled _ _ (hf n).csr_we, ← hm]
      exact ⟨by simp, by simpa using hoff⟩

end run

/-! ## The instruction as a whole -/

def mretWord : BitVec 32 := 0x30200073#32

theorem mretWord_decode : (decode mretWord).execNextStage = .toSystem ∧
    (decode mretWord).nextPcFromAlu = false ∧ systemKind (decode mretWord) = .mret := by decide

section bench
variable {M : Type*} {D : Device M} {r : Run (State.step v)} {mem : ℕ → M}

/-- What the system clock `d + 2` of an `mret` finds that was decoded at clock `d`. -/
structure MretReached (r : Run (State.step v)) (mem : ℕ → M) (t d : ℕ) : Prop where
  fetch : ∀ k, t < k → k < d → (r.state k).state.fetching = true
  decode : (r.state d).state = .decode
  exec : (r.state (d + 1)).state = .exec
  system : (r.state (d + 2)).state = .system
  kind : systemKind (r.state (d + 2)).dec = .mret
  pc : (r.state (d + 1)).pc = (r.state t).pc
  regs : (r.state (d + 2)).regs.regfile = (r.state t).regs.regfile
  file : (r.state (d + 2)).csr.ram.mem = (r.state t).csr.ram.mem
  mem : mem d = mem t

/-- From the pre-fetch state to the system state, with interrupts off. -/
theorem mret_reaches (hs : Slave D r mem) (hr : Running r) (hf : ∀ t, Flow (r.state t)) {t : ℕ}
    (ht : (r.state t).state = .preFetch) (hirq : (r.state t).csr.irqEn = false)
    (hw : fetched D (arch r mem t) = mretWord) : ∃ d, t < d ∧ MretReached r mem t d := by
  have hu := hs.undisturbed hr
  have hc : ∀ t, Coherent (r.state t) := fun t => (hf t).toCoherent
  obtain ⟨d, hd, hdec, hpath⟩ := fetch_run hs hr hc ht
  rw [hw] at hdec
  have hpassive : ∀ k, t ≤ k → k < d → (r.state k).state.passive = true := by
    intro k hk hkd
    rcases Nat.eq_or_lt_of_le hk with rfl | hk
    · rw [ht]; rfl
    · exact MainState.passive_of_fetching (hpath k hk hkd)
  obtain ⟨-, hoff⟩ := passive_run hf hu (by omega) hirq hpassive
  -- decode: interrupts are off
  have hno : (r.state d).takesInterrupt (r.input d) = false := by simp [State.takesInterrupt, hoff]
  have hstep := step_decode (v := v) (hc d) (hu d) hdec.state hno
  rw [← r.next d] at hstep
  have hword : (r.state (d + 1)).dec = decode mretWord := by
    rw [hstep, State.dec]
    exact congrArg decode hdec.parcels
  have hexec : (r.state (d + 1)).state = .exec := by rw [hstep]
  -- execute: on to the system state
  have hstep' := step_exec (v := v) (hc (d + 1)) (hu (d + 1)) hexec
  rw [← r.next (d + 1), hword, mretWord_decode.1, mretWord_decode.2.1] at hstep'
  have hsys : (r.state (d + 2)).state = .system := by rw [hstep']; rfl
  refine ⟨d, by omega, hpath, hdec.state, hexec, hsys, ?_, ?_, ?_, ?_,
    congrArg Rv32.State.mem hdec.arch⟩
  · have hsame : (r.state (d + 2)).dec = (r.state (d + 1)).dec := by rw [hstep']; rfl
    rw [hsame, hword]
    exact mretWord_decode.2.2
  · rw [hstep]
    exact congrArg Rv32.State.pc hdec.arch
  · rw [hstep', hstep]
    exact congrArg Rv32.State.regs hdec.arch
  · have hp : ∀ k, t ≤ k → k < d + 2 → (r.state k).state.passive = true := by
      intro k hk hkd
      rcases (by omega : k < d ∨ k = d ∨ k = d + 1) with h | rfl | rfl
      · exact hpassive k hk h
      · rw [hdec.state]; rfl
      · rw [hexec]; rfl
    have h := (passive_run hf hu (by omega) hirq hp).1
    rwa [settled_of_not_we _ ((hf (d + 2)).csr_we_free (by rw [hsys]; rfl)),
      settled_of_not_we _ ((hf t).csr_we_free (by rw [ht]; rfl))] at h

/-- From the pre-fetch state of an `mret`, with interrupts off, to the next
instruction; the execute clock `e` is the only one. -/
theorem mret_instruction (hs : Slave D r mem) (hr : Running r) (hf : ∀ t, Flow (r.state t)) {t : ℕ}
    (ht : (r.state t).state = .preFetch) (hirq : (r.state t).csr.irqEn = false)
    (hw : fetched D (arch r mem t) = mretWord) :
    ∃ e n, t < e ∧ e < n ∧ (r.state e).pc = (r.state t).pc ∧
      (∀ k, t ≤ k → k < n → (r.state k).state = .exec → k = e) ∧
      Returned (r.state t) (r.state n) ∧ mem n = mem t := by
  have hc : ∀ t, Coherent (r.state t) := fun t => (hf t).toCoherent
  obtain ⟨d, hd, h⟩ := mret_reaches hs hr hf ht hirq hw
  obtain ⟨n, hn, hret, hpath⟩ := mret_run hf (hs.undisturbed hr) h.system h.kind
  refine ⟨d + 1, n, by omega, by omega, h.pc, ?_, ?_, ?_⟩
  · intro k hk hkn hke
    by_contra hne
    rcases (by omega : k = t ∨ t < k ∧ k < d ∨ k = d ∨ k = d + 2 ∨ d + 2 < k) with
      rfl | ⟨hk₁, hk₂⟩ | rfl | rfl | hlate
    · simp [ht] at hke
    · have hfe := h.fetch k hk₁ hk₂
      simp [hke, MainState.fetching] at hfe
    · simp [h.decode] at hke
    · simp [h.system] at hke
    · rcases hpath k hlate hkn with h' | h' <;> simp [h'] at hke
  · exact {
      state := hret.state
      pc := by rw [hret.pc, h.file]
      regs := hret.regs.trans h.regs
      mstatus := by rw [← h.file]; exact hret.mstatus
      others := by rw [← h.file]; exact hret.others
      irqEn := by rw [hret.irqEn, h.file] }
  · refine Eq.trans (hs.mem_const hc (by omega) fun k hk hkn => ?_) h.mem
    rcases (by omega : k = d ∨ k = d + 1 ∨ k = d + 2 ∨ d + 2 < k) with rfl | rfl | rfl | hlate
    · rw [h.decode]; rfl
    · rw [h.exec]; rfl
    · rw [h.system]; rfl
    · rcases hpath k hlate hkn with h' | h' <;> rw [h'] <;> rfl

/-- The round trip. An interrupt taken at any instruction, with a handler that
is a single `mret`, comes back to that instruction: program counter, registers,
memory, interrupt enable and every bit of `mstatus` but bit 7 are as before, and
the only execute clock on the way is that of the `mret`. A machine that is
being single-stepped must be given its steps. -/
theorem mret_undoes_interrupt (hs : Slave D r mem) (hr : Running r) (h0 : Flow (r.state 0))
    (hd : (r.state 0).state = .decode)
    (hi : (r.state 0).takesInterrupt (r.input 0) = true)
    (hgo : ∀ t, (r.state t).state = .cpuIdle → ∃ n, t ≤ n ∧ (r.input n).externalDoStep = true)
    (hh : fetched D { arch r mem 0 with pc := (r.state 0).csr.ram.mem mTvec &&& ~~~1#32 } =
      mretWord) :
    ∃ e n, 0 < e ∧ e < n ∧ ((r.state n).state = .preFetch ∨ (r.state n).state = .cpuIdle) ∧
      arch r mem n = arch r mem 0 ∧ (r.state n).csr.irqEn = (r.state 0).csr.irqEn ∧
      (∀ b, b ≠ 7 → ((r.state n).csr.ram.mem mStatus).getLsbD b =
        ((r.state 0).csr.ram.mem mStatus).getLsbD b) ∧
      (∀ k, 0 < k → k < n → (r.state k).state = .exec → k = e) ∧
      (r.state e).pc = (r.state 0).csr.ram.mem mTvec &&& ~~~1#32 := by
  have hu := hs.undisturbed hr
  have hf := Running.flow hu h0
  have hc : ∀ t, Coherent (r.state t) := fun t => (hf t).toCoherent
  have hen : (r.state 0).csr.irqEn = true := by
    simp only [State.takesInterrupt, Bool.and_eq_true] at hi
    exact hi.2
  have htrap : ((r.state 0).control (r.input 0)).trapOccured = true := by
    simpa [State.control, hd, State.controlDecode] using hi
  obtain ⟨k, -, -, p, hp, ⟨-, hentered⟩, hpath⟩ := trap_run hf hu htrap
  -- the machine may be parked before the first instruction of the handler
  obtain ⟨q, hq, ⟨hpre, hpc, hregs, hkept⟩, hidle⟩ :=
    resume_run hc hu (by simpa [State.atBoundary] using hentered.state) (hgo p)
  have hoff : (r.state q).csr.irqEn = false := hkept.irqEn.trans hentered.irqEn
  have hmem : mem q = mem 0 := by
    refine hs.mem_const hc (Nat.zero_le q) fun k _ hkq => ?_
    rcases (by omega : k = 0 ∨ 1 ≤ k ∧ k < p ∨ p ≤ k) with rfl | ⟨h, h'⟩ | h
    · rw [hd]; rfl
    · rcases hpath k h h' with h'' | h'' <;> rw [h''] <;> rfl
    · rw [hidle k h hkq]; rfl
  have hfile : (r.state q).csr.ram.mem = (r.state p).csr.ram.mem := by
    have hfree : (r.state p).state.usesCsr = false := by
      rcases hentered.state with h | h <;> rw [h] <;> rfl
    have hfile := hkept.settled
    rwa [settled_of_not_we _ ((hf q).csr_we_free (by rw [hpre]; rfl)),
      settled_of_not_we _ ((hf p).csr_we_free hfree)] at hfile
  have harch : arch r mem q =
      { arch r mem 0 with pc := (r.state 0).csr.ram.mem mTvec &&& ~~~1#32 } := by
    simp only [arch, hmem, hpc, hentered.pc, hregs, hentered.regs]
  obtain ⟨e, n, hqe, hen', hpce, honly, hret, hmemn⟩ :=
    mret_instruction hs hr hf hpre hoff (by rw [harch]; exact hh)
  -- the enable and the stored bit agree, so bit 7 of the saved word is set
  have hbit : ((r.state 0).csr.ram.mem mStatus).getLsbD 3 = true := by
    rw [← settled_of_not_we _ ((hf 0).csr_we_free (by rw [hd]; rfl))]
    refine ((hf 0).irq hen).resolve_left fun hm => ?_
    rw [(hf 0).mret_idle (by simp [hd]) (by simp [hd])] at hm
    exact absurd hm.1 (by decide)
  refine ⟨e, n, by omega, hen', hret.state, ?_, ?_, ?_, ?_, ?_⟩
  · have hback : (r.state n).pc = (r.state 0).pc := by
      rw [hret.pc, hfile, hentered.mepc]
      exact and_not_one (hf 0).even
    simp only [arch, hback, hret.regs, hregs, hentered.regs, hmemn, hmem]
  · rw [hret.irqEn, hfile, hentered.mstatus, hen]
    exact hbit
  · intro b hb
    have hsaved : ((r.state p).csr.ram.mem mStatus).getLsbD 7 =
        ((r.state 0).csr.ram.mem mStatus).getLsbD 3 := hentered.mstatus 7
    rw [hret.mstatus, hfile, hsaved, hentered.mstatus b]
    by_cases h3 : b = 3
    · rw [if_pos h3, h3]
    · rw [if_neg h3, if_neg h3, if_neg hb]
  · intro k hk hkn hke
    rcases (by omega : k < p ∨ p ≤ k ∧ k < q ∨ q ≤ k) with h | ⟨h, h'⟩ | h
    · rcases hpath k hk h with h' | h' <;> simp [h'] at hke
    · simp [hidle k h h'] at hke
    · exact honly k h hkn hke
  · rw [hpce, hpc, hentered.pc]

/-- An `mret` in every word, on the machine of `decodingState`: the interrupt at
`0x100` goes through the handler at `0x200` and back. -/
theorem mret_undoes_timer_interrupt :
    let D : Device Unit := ⟨fun _ _ _ => mretWord, fun m _ _ _ => m⟩
    let i : Inputs := ⟨false, false, 0#32, true, false, false, false, false, true⟩
    let r := benchRun D (fun _ => true) i 0#32 decodingState ()
    ∃ n, 0 < n ∧ (r.state n).pc = 0x100#32 ∧ (r.state n).csr.irqEn = true ∧
      ((r.state n).csr.ram.mem mStatus).getLsbD 3 = true := by
  intro D i r
  have hslave := benchRun_slave (v := 0#32) D (fun _ => true) i (fun t => ⟨t, le_rfl, rfl⟩)
    decodingState ()
  obtain ⟨e, n, he, hen, -, harch, hirq, hbits, -, -⟩ := mret_undoes_interrupt hslave
    ⟨fun _ => rfl, fun _ => rfl⟩ decodingState_flow rfl (by decide) (fun t _ => ⟨t, le_rfl, rfl⟩)
    (by decide)
  exact ⟨n, he.trans hen, congrArg Rv32.State.pc harch, hirq, (hbits 3 (by decide)).trans (by decide)⟩

end bench

end TagSoc.Cpu
