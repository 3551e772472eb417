import TagSoc.Machine

/-!
# Between two instructions

After the decode clock an instruction stays in the states of its stage until the next
boundary; its word does not change on the way. What the CSR block sees in these states
is said here once for all of them: the words and the control bits are kept, except that
a store may clear the pending bit of the timer.
-/
namespace TagSoc.Cpu
open Clocked Decoder CpuBus Csr Datapath

/-! ## The states of an instruction -/

/-- The states from the execute clock on. -/
def MainState.inPhase (st : ExecStage) (m : MainState) : Bool :=
  m == .exec || m == .updatePc ||
    match st with
    | .toFetch => m == .postExec
    | .toLoad => m == .load1 || m == .load2
    | .toStore => m == .store1 || m == .store2
    | .toBranch => m == .branch2
    | .toSystem => m == .system || m == .csr1 || m == .csr2 || m == .trap || m == .mret
    | .toTrap => m == .trap
    | .toDead => false

/-- A state past the execute clock is followed by one of the same stage or by a boundary. -/
theorem MainState.inPhase_successors (st : ExecStage) (m : MainState) (hm : m.inPhase st = true)
    (hx : m ≠ .exec) :
    m.successors.all (fun m' => m' == .preFetch || m' == .cpuIdle || m'.inPhase st) = true := by
  cases m <;> simp [successors, inPhase] at hm hx ⊢ <;> cases st <;> simp_all

theorem MainState.decoded_successors (m : MainState) (hm : m.decoded = true) :
    m.successors.all (fun m' => m' == .preFetch || m' == .cpuIdle || m'.decoded) = true := by
  cases m <;> first | rfl | exact absurd hm (by decide)

section step
variable {v : BitVec 32} {s : State} {i : Inputs}

theorem step_parcels (hr : i.rst = false) (h₁ : s.state ≠ .fetch) (h₂ : s.state ≠ .fetchMore) :
    (s.step v i).parcels = s.parcels := by
  simp [State.step, State.parcels, hr, h₁, h₂]

/-- Only an `ecall` ends the test. -/
theorem step_testFinished (hr : i.rst = false) (hs : s.state ≠ .system) :
    (s.step v i).testFinished = s.testFinished := by
  have hno : (s.control i).nextTestFinished = false := by
    unfold State.control
    cases hm : s.state <;> simp [State.controlFetch, State.controlDecode,
      State.controlLoad1, State.controlStore1, State.controlStore2, controlUpdatePc_eq]
    exact absurd hm hs
  simp [State.step, hr, hno]

/-- The machine parks only where it is told to. -/
theorem not_idle_step (h : Coherent s) (hr : i.rst = false) (hs : i.externalSinglestep = false)
    (hf : s.testFinished = false) (hi : s.state ≠ .cpuIdle) : (s.step v i).state ≠ .cpuIdle := by
  intro hidle
  rw [step_state hr] at hidle
  split_ifs at hidle with hb
  · exact hi hidle
  · have hused := h.used
    unfold State.control at hidle
    cases hm : s.state <;> rw [hm] at hidle hused <;> simp only at hidle
    case updatePc => simp [controlUpdatePc_eq, hs, hf] at hidle
    case cpuIdle => exact hi hm
    case system =>
      revert hidle
      unfold State.controlSystem
      cases systemKind s.dec <;> simp [State.controlRaise]
    case exec =>
      revert hidle
      cases s.dec.execNextStage <;> simp [State.execNextState]
    case fetch =>
      revert hidle
      unfold State.controlFetch
      dsimp only
      split_ifs <;> simp
    case decode =>
      revert hidle
      unfold State.controlDecode
      dsimp only
      split_ifs <;> simp
    all_goals simp [State.controlLoad1, State.controlStore1, State.controlStore2] at hidle

variable (h : Coherent s) (u : Undisturbed s i)
include h u

/-- One clock of an instruction: it goes on, or a boundary is reached. -/
theorem phase_step (hp : s.state.inPhase s.dec.execNextStage = true) :
    (s.step v i).parcels = s.parcels ∧ ((s.step v i).atBoundary = true ∨
      (s.step v i).state.inPhase s.dec.execNextStage = true) := by
  have hkeep : (s.step v i).parcels = s.parcels := by
    refine step_parcels u.rst ?_ ?_ <;> intro hm <;> rw [hm] at hp <;> revert hp <;>
      cases s.dec.execNextStage <;> decide
  refine ⟨hkeep, ?_⟩
  rcases h.step_state_mem (v := v) u.rst with heq | hmem
  · rw [heq]
    exact Or.inr hp
  · rw [State.atBoundary]
    by_cases hx : s.state = .exec
    · -- the stage chooses the state after the execute clock
      rw [step_exec h u hx]
      right
      cases hst : s.dec.execNextStage <;> simp [State.execNextState, MainState.inPhase]
      have hused := execNextState_used s
      rw [hst] at hused
      exact absurd hused (by decide)
    · have hnext := List.all_eq_true.mp (MainState.inPhase_successors _ _ hp hx) _ hmem
      simpa [or_assoc] using hnext

omit h in
/-- The control bits apart from the interrupt enable are written by CSR instructions only. -/
theorem step_enables (hs : s.state ≠ .csr2) : (s.step v i).csr.enables = s.csr.enables := by
  rw [step_csr_eq u.rst]
  refine clock_enables _ _ fun hw => ?_
  have hother : mirrored (s.csrRequest i).addr = true → (s.csrRequest i).addr = msrMstatus := by
    unfold State.csrRequest at hw ⊢
    split_ifs at hw ⊢ with ht hm
    · exact fun hmir => ((trapCsr_we hw).resolve_right (by simp [hmir])).2.2
    · exact fun _ => (mretCsr_we hw).2
    · intro hmir
      have hwe : (s.control i).csrWe = true := hw
      exfalso
      revert hmir hwe
      unfold State.control
      cases hm : s.state <;> simp [State.controlFetch, State.controlDecode, State.controlLoad1,
        State.controlStore1, State.controlStore2, controlUpdatePc_eq, mirrored, msrMcause, msrMip,
        msrMstatus, msrMie, msrMtags]
      case csr2 => exact absurd hm hs
      case decode => cases s.takesInterrupt i <;> simp
      case store2 => cases i.clearMipTimer <;> simp
      case system =>
        unfold State.controlSystem
        cases systemKind s.dec <;> simp [State.controlRaise, msrMcause]
  constructor <;> intro ha <;> rw [ha] at hother <;> exact absurd (hother rfl) (by decide)

/-- The stages that leave the CSR block alone. -/
theorem phase_rest (hp : s.state.inPhase s.dec.execNextStage = true)
    (hst : s.dec.execNextStage = .toFetch ∨ s.dec.execNextStage = .toLoad ∨
      s.dec.execNextStage = .toBranch) : (s.step v i).csr = s.csr.rest := by
  have hcases : s.state = .exec ∨ s.state = .updatePc ∨ s.state = .postExec ∨ s.state = .load1 ∨
      s.state = .load2 ∨ s.state = .branch2 := by
    rcases hst with hst | hst | hst <;> rw [hst] at hp <;> revert hp <;> cases s.state <;> decide
  rcases hcases with hs | hs | hs | hs | hs | hs
  · rw [step_exec h u hs]
  · cases hb : s.csr.busy with
    | true => rw [step_updatePc_busy h u hs hb]
    | false => rw [step_updatePc h u hs hb]
  · rw [step_postExec h u hs]
  · rw [step_load1 h u hs]
  · rw [step_load2 h u hs]
  · rw [step_branch2 h u hs]

end step

/-! ## The pending bit under a store -/

open Machine.State (clearPending)

theorem writeWord_writeWord (m : BitVec 4 → BitVec 32) (addr : BitVec 12) (x y : BitVec 32) :
    writeWord (writeWord m addr x) addr y = writeWord m addr y := by
  unfold writeWord
  split_ifs
  · exact Function.update_idem _ _ _
  · rfl

theorem clearPending_clearPending (x : BitVec 32) :
    clearPending (clearPending x) = clearPending x := by
  apply BitVec.eq_of_getLsbD_eq
  intro k hk
  simp only [clearPending, BitVec.getLsbD_append, BitVec.getLsbD_extractLsb']
  interval_cases k <;> simp

/-- The file with the pending bit cleared, or as it was. -/
def clearedFile (m : BitVec 4 → BitVec 32) (b : Bool) : BitVec 4 → BitVec 32 :=
  if b then writeWord m msrMip (clearPending (m mIp)) else m

theorem clearedFile_mip (m : BitVec 4 → BitVec 32) (b : Bool) :
    clearPending (clearedFile m b mIp) = clearPending (m mIp) := by
  cases b with
  | false => rfl
  | true =>
      rw [clearedFile, if_pos rfl, ← csrIndex_mip, writeWord_self (by decide),
        clearPending_clearPending]

/-- The CSR block `c` while a store waits that found it at `c₀`; `b` says whether the
bit has been cleared. -/
structure MipPort (c₀ c : Csr.State) (b : Bool) : Prop where
  settled : c.settled = clearedFile c₀.settled b
  addr : c.storedAddr = msrMip
  we : c.we = true → c.busy = true
  word : clearPending (c.ram.mem mIp) = clearPending (c₀.settled mIp)
  port : c.busy = false → clearPending c.dataOut = clearPending (c₀.settled mIp)
  irqEn : c.irqEn = c₀.irqEn
  enables : c.enables = c₀.enables

theorem MipPort.start {c₀ : Csr.State} (hb : c₀.busy = false) (hw : c₀.we = false) :
    MipPort c₀ (c₀.clock { en := true, addr := msrMip }) false := by
  have hacc := access_of_free (r := { en := true, addr := msrMip }) hb hw rfl
  constructor
  case settled => exact hacc.settled
  case addr => exact hacc.addr
  case we => exact fun _ => hacc.busy
  case word => rfl
  case port => exact fun hfree => absurd (hacc.busy.symm.trans hfree) (by decide)
  case irqEn => rfl
  case enables => rfl

/-- One clock, with or without the request to clear the bit, which is taken if the handshake is
free. -/
theorem MipPort.clock {c₀ c : Csr.State} {b : Bool} (h : MipPort c₀ c b) (clear : Bool) :
    MipPort c₀ (c.clock (if clear then
      { en := true, we := true, addr := msrMip, data := clearPending c.dataOut } else {}))
      (b || (!c.busy && clear)) := by
  have hidx : c.index = mIp := by rw [Csr.State.index, h.addr]; rfl
  have hword : clearPending (c.settled mIp) = clearPending (c₀.settled mIp) := by
    rw [h.settled, clearedFile_mip]
  generalize hreq : (if clear = true then
    ({ en := true, we := true, addr := msrMip, data := clearPending c.dataOut } : Csr.Request)
    else {}) = q
  have haddr : (c.clock q).storedAddr = msrMip := by
    rw [clock_storedAddr, ← hreq]
    cases clear <;> simp [h.addr]
  have hport : clearPending (c.clock q).dataOut = clearPending (c₀.settled mIp) := by
    rw [← h.word, Csr.State.dataOut, Csr.State.index, haddr, if_neg (by decide)]
    show clearPending (c.ram.mem c.index) = _
    rw [hidx]
  have hmirror : (c.clock q).irqEn = c₀.irqEn ∧ (c.clock q).enables = c₀.enables := by
    rw [← h.irqEn, ← h.enables, ← hreq]
    cases clear <;> exact ⟨rfl, rfl⟩
  have hcw : (c.clock q).we = true → (c.clock q).busy = true := by
    rw [clock_we c q h.we, clock_busy]
    simp +contextual
  refine ⟨?_, haddr, hcw, hword, fun _ => hport, hmirror.1, hmirror.2⟩
  rw [clock_settled c q h.we, ← hreq]
  cases hb : c.busy with
  | true => simpa using h.settled
  | false =>
      cases clear with
      | false => simpa using h.settled
      | true =>
          rw [h.settled]
          simp only [Bool.not_false, Bool.and_self, if_true, Bool.or_true, h.port hb]
          cases b with
          | false => rfl
          | true => simp only [clearedFile, if_true, writeWord_writeWord]

/-- The request to clear the bit would be taken in this clock. -/
def State.samplesClear (s : State) : Bool := s.state == .store2 && !s.csr.busy

/-- The bit has been cleared between the two clocks. -/
def ClearedIn {v : BitVec 32} (r : Run (State.step v)) (t n : ℕ) : Prop :=
  ∃ k, t < k ∧ k < n ∧ (r.state k).samplesClear = true ∧ (r.input k).clearMipTimer = true

theorem clearedIn_succ {v : BitVec 32} {r : Run (State.step v)} {t n : ℕ} (hn : t < n) :
    ClearedIn r t (n + 1) ↔ ClearedIn r t n ∨
      ((r.state n).samplesClear && (r.input n).clearMipTimer) = true := by
  rw [Bool.and_eq_true]
  constructor
  · rintro ⟨k, hk, hkn, hc⟩
    rcases Nat.eq_or_lt_of_le (Nat.lt_succ_iff.mp hkn) with rfl | hlt
    · exact Or.inr hc
    · exact Or.inl ⟨k, hk, hlt, hc⟩
  · rintro (⟨k, hk, hkn, hc⟩ | hc)
    · exact ⟨k, hk, by omega, hc⟩
    · exact ⟨n, hn, by omega, hc⟩

/-! ## From the execute clock to the boundary -/

section run
variable {v : BitVec 32} {r : Run (State.step v)} (hc : ∀ t, Coherent (r.state t))
  (hu : ∀ t, Undisturbed (r.state t) (r.input t)) (hq : Unstepped r) {e n : ℕ}
  (hx : (r.state e).state = .exec) (hf : (r.state e).testFinished = false)
  (hpath : ∀ k, e ≤ k → k < n → (r.state k).state ≠ .preFetch)
include hc hu hq hx hf hpath

/-- The stage and its states are kept, and the test goes on. -/
theorem phase_run (hsys : (r.state e).dec.execNextStage ≠ .toSystem) {k : ℕ} (hk : e ≤ k)
    (hkn : k < n) :
    (r.state k).dec.execNextStage = (r.state e).dec.execNextStage ∧
      (r.state k).state.inPhase (r.state e).dec.execNextStage = true ∧
      (r.state k).testFinished = false := by
  induction k, hk using Nat.le_induction with
  | base => exact ⟨rfl, by rw [hx]; rfl, hf⟩
  | succ k hk ih =>
      obtain ⟨hdec, hin, hrun⟩ := ih (by omega)
      have hne : (r.state k).state ≠ .cpuIdle ∧ (r.state k).state ≠ .system := by
        constructor <;> intro hm <;> rw [hm] at hin <;> revert hin hsys <;>
          cases (r.state e).dec.execNextStage <;> decide
      obtain ⟨hpar, hnext⟩ := phase_step (v := v) (hc k) (hu k) (by rw [hdec]; exact hin)
      have hidle := not_idle_step (v := v) (hc k) (hu k).rst (hq k) hrun hne.1
      rw [← r.next k, hdec] at hnext
      rw [← r.next k] at hpar hidle
      refine ⟨?_, ?_, ?_⟩
      · rw [State.dec, hpar]
        exact hdec
      · refine hnext.resolve_left fun hb => ?_
        rcases by simpa [State.atBoundary] using hb with h | h
        · exact hpath (k + 1) (by omega) hkn h
        · exact hidle h
      · rw [r.next, step_testFinished (hu k).rst hne.2]
        exact hrun

theorem kept_run (hst : (r.state e).dec.execNextStage = .toFetch ∨
    (r.state e).dec.execNextStage = .toLoad ∨ (r.state e).dec.execNextStage = .toBranch) {k : ℕ}
    (hk : e ≤ k) (hkn : k ≤ n) : Kept (r.state e).csr (r.state k).csr := by
  induction k, hk using Nat.le_induction with
  | base => exact Kept.refl _
  | succ k hk ih =>
      obtain ⟨hdec, hin, -⟩ := phase_run hc hu hq hx hf hpath
        (by rcases hst with h | h | h <;> rw [h] <;> decide) hk hkn
      rw [r.next, phase_rest (hc k) (hu k) (by rw [hdec]; exact hin) (by rw [hdec]; exact hst)]
      exact (ih (by omega)).trans (kept_rest _ (hc k).csr_we)

omit hf hpath hq in
/-- The clocks of a store up to the one that has made its request. -/
theorem store_start (hst : (r.state e).dec.execNextStage = .toStore) :
    (r.state (e + 1)).state = .store1 ∧ (r.state (e + 2)).state = .store2 ∧
      MipPort (r.state (e + 1)).csr (r.state (e + 2)).csr false ∧
      Kept (r.state e).csr (r.state (e + 1)).csr := by
  have h₁ := step_exec (v := v) (hc e) (hu e) hx
  rw [← r.next e, hst] at h₁
  have hs₁ : (r.state (e + 1)).state = .store1 := by rw [h₁]; rfl
  have h₂ := step_store1 (v := v) (hc (e + 1)) (hu (e + 1)) hs₁
  rw [← r.next (e + 1)] at h₂
  refine ⟨hs₁, by rw [h₂], ?_, ?_⟩
  · rw [h₂]
    exact MipPort.start ((hc (e + 1)).csr_free (by rw [hs₁]; rfl))
      ((hc (e + 1)).csr_we_free (by rw [hs₁]; rfl))
  · rw [h₁]
    exact kept_rest _ (hc e).csr_we

omit hq hx hf hpath in
theorem store_clock {k : ℕ} (hin : (r.state k).state = .store2 ∨ (r.state k).state = .updatePc) :
    (r.state (k + 1)).csr = (r.state k).csr.clock
      (if (r.state k).state == .store2 && (r.input k).clearMipTimer then
        { en := true, we := true, addr := msrMip, data := clearPending (r.state k).csr.dataOut }
        else {}) := by
  rw [r.next]
  rcases hin with hs | hs
  · rw [step_store2 (hc k) (hu k) hs, hs]
    rfl
  · rw [hs]
    cases hb : (r.state k).csr.busy with
    | true => rw [step_updatePc_busy (hc k) (hu k) hs hb]; rfl
    | false => rw [step_updatePc (hc k) (hu k) hs hb]; rfl

/-- The CSR block under a store, up to the boundary. -/
theorem store_run (hst : (r.state e).dec.execNextStage = .toStore) {k : ℕ} (hk : e + 2 ≤ k)
    (hkn : k ≤ n) :
    (k < n → (r.state k).state = .store2 ∨ (r.state k).state = .updatePc) ∧
      ∃ b, MipPort (r.state (e + 1)).csr (r.state k).csr b ∧ (b = true ↔ ClearedIn r e k) := by
  induction k, hk using Nat.le_induction with
  | base =>
      obtain ⟨h₁, h₂, h₃, -⟩ := store_start hc hu hx hst
      refine ⟨fun _ => Or.inl h₂, false, h₃, fun h => absurd h Bool.false_ne_true, ?_⟩
      rintro ⟨j, hj, hjk, hsample, -⟩
      obtain rfl : j = e + 1 := by omega
      simp [State.samplesClear, h₁] at hsample
  | succ k hk ih =>
      obtain ⟨hstate, b, hport, hseen⟩ := ih (by omega)
      have hin := hstate (by omega)
      constructor
      · intro hlt
        obtain ⟨-, hphase, -⟩ := phase_run hc hu hq hx hf hpath (by rw [hst]; decide)
          (show e ≤ k + 1 by omega) hlt
        rw [hst] at hphase
        have hmem := (hc k).step_state_mem (v := v) (hu k).rst
        rw [← r.next k] at hmem
        rcases hin with hs | hs <;> rw [hs] at hmem
        · simpa [MainState.successors] using hmem
        · rcases by simpa [MainState.successors] using hmem with h | h | h
          · exact Or.inr h
          · exact absurd h (hpath (k + 1) (by omega) hlt)
          · rw [h] at hphase
            exact absurd hphase (by decide)
      · have hport' := hport.clock ((r.state k).state == .store2 && (r.input k).clearMipTimer)
        rw [← store_clock hc hu hin] at hport'
        refine ⟨_, hport', ?_⟩
        rw [clearedIn_succ (by omega), Bool.or_eq_true, hseen, State.samplesClear]
        refine or_congr_right ?_
        cases (r.state k).csr.busy <;> simp

/-- What a plain instruction makes of the CSR block. -/
theorem plain_csr (hen : e + 2 ≤ n) (hst : plainStage (r.state e).dec.execNextStage = true) :
    ∃ clear : Bool, (clear = true ↔ ClearedIn r e n) ∧
      (r.state n).csr.settled = clearedFile (r.state e).csr.settled
        ((r.state e).dec.execNextStage == .toStore && clear) ∧
      (r.state n).csr.irqEn = (r.state e).csr.irqEn ∧
      (r.state n).csr.enables = (r.state e).csr.enables := by
  cases hcase : (r.state e).dec.execNextStage <;> rw [hcase] at hst
  case toStore =>
    obtain ⟨-, b, hport, hseen⟩ := store_run hc hu hq hx hf hpath hcase hen le_rfl
    obtain ⟨-, -, -, hkept⟩ := store_start hc hu hx hcase
    refine ⟨b, hseen, ?_, hport.irqEn.trans hkept.irqEn, hport.enables.trans hkept.enables⟩
    rw [hport.settled, hkept.settled]
    rfl
  case toFetch | toLoad | toBranch =>
    have hkept := kept_run hc hu hq hx hf hpath (by simp [hcase]) (show e ≤ n by omega) le_rfl
    classical
    refine ⟨decide (ClearedIn r e n), decide_eq_true_iff, ?_, hkept.irqEn, hkept.enables⟩
    exact hkept.settled
  all_goals exact absurd hst (by decide)

end run

/-! ## Inside an instruction -/

section inside
variable {v : BitVec 32}

/-- What every clock inside an instruction hands to the next one. -/
theorem inside_run {r : Run (State.step v)} {P : State → Prop} {c k : ℕ} (h0 : P (r.state c))
    (hstep : ∀ j, c ≤ j → P (r.state j) →
      (r.state (j + 1)).atBoundary = true ∨ P (r.state (j + 1)))
    (hk : c ≤ k) (hin : ∀ j, c < j → j ≤ k → (r.state j).atBoundary = false) :
    P (r.state k) := by
  induction k, hk using Nat.le_induction with
  | base => exact h0
  | succ k hk ih =>
      have hP := ih fun j hj hjk => hin j hj (by omega)
      exact (hstep k hk hP).resolve_left (ne_true_of_eq_false (hin (k + 1) (by omega) le_rfl))

/-- The clock in which the word on the CSR port is used, as the old word of a CSR instruction or as
the next address. -/
def State.samplesPort (s : State) : Bool :=
  !s.csr.busy && (s.state == .csr1 || s.state == .updatePc && s.nextAddrFromCsr)

/-- The port has been used, as the old word. -/
def State.PastPort (s : State) : Prop :=
  (s.state = .csr2 ∨ s.state = .updatePc) ∧ s.nextAddrFromCsr = false

/-- The trap sequencer has looked at the timer. -/
def State.PastTimer (s : State) : Prop :=
  (s.state = .trap ∨ s.state = .updatePc) ∧ (s.trapState = .loadMip ∨ s.trapState = .storeMip ∨
    s.trapState = .loadTvec ∨ s.trapState = .idle)

section step
variable {s : State} {i : Inputs} (h : Coherent s) (u : Undisturbed s i)
include h u

theorem updatePc_step (hs : s.state = .updatePc) :
    (s.step v i).atBoundary = true ∨
      (s.step v i).state = .updatePc ∧ (s.step v i).nextAddrFromCsr = s.nextAddrFromCsr := by
  cases hb : s.csr.busy with
  | true =>
      rw [step_updatePc_busy h u hs hb]
      exact Or.inr ⟨hs, rfl⟩
  | false =>
      rw [step_updatePc h u hs hb, State.atBoundary]
      left
      dsimp only
      split_ifs <;> rfl

theorem PastPort.step (hp : s.PastPort) :
    (s.step v i).atBoundary = true ∨ (s.step v i).PastPort := by
  obtain ⟨hs | hs, hn⟩ := hp
  · rw [step_csr2 h u hs]
    exact Or.inr ⟨Or.inr rfl, hn⟩
  · refine (updatePc_step h u hs).imp_right ?_
    rintro ⟨hs', hn'⟩
    exact ⟨Or.inr hs', hn'.trans hn⟩

theorem pastPort_of_samples (hp : s.samplesPort = true) :
    (s.step v i).atBoundary = true ∨ (s.step v i).PastPort := by
  simp only [State.samplesPort, Bool.and_eq_true, Bool.not_eq_true', Bool.or_eq_true,
    beq_iff_eq] at hp
  obtain ⟨hb, hs | ⟨hs, -⟩⟩ := hp
  · have hflags := h.plain (by rw [hs]; rfl)
    rw [step_csr1 h u hs, hb]
    exact Or.inr ⟨Or.inl rfl, hflags.2.2.1⟩
  · rw [step_updatePc h u hs hb, State.atBoundary]
    left
    dsimp only
    split_ifs <;> rfl

/-- The sequencer takes its next step without a new trap. -/
theorem step_trapState (hs : s.state = .trap ∨ s.state = .updatePc) :
    (s.step v i).trapState = if s.csr.busy then s.trapState else s.nextTrapState i false := by
  have hno : (s.control i).trapOccured = false := Bool.eq_false_iff.mpr fun ht => by
    rcases trapOccured_cases h ht with ⟨hd, -⟩ | ⟨hd, -⟩ <;> rcases hs with hs | hs <;>
      exact absurd (hd.symm.trans hs) (by decide)
  simp [State.step, u.rst, hno]

theorem entering_step (hs : s.state = .trap ∨ s.state = .updatePc) :
    (s.step v i).atBoundary = true ∨ (s.step v i).state = .trap ∨
      (s.step v i).state = .updatePc := by
  rcases hs with hs | hs
  · rcases h.step_state_mem (v := v) u.rst with heq | hmem
    · exact Or.inr (Or.inl (heq.trans hs))
    · rw [hs] at hmem
      exact Or.inr (Or.inr (by simpa [MainState.successors] using hmem))
  · exact (updatePc_step h u hs).imp_right fun hs' => Or.inr hs'.1

theorem PastTimer.step (hp : s.PastTimer) :
    (s.step v i).atBoundary = true ∨ (s.step v i).PastTimer := by
  obtain ⟨hs, hq⟩ := hp
  refine (entering_step h u hs).imp_right fun hs' => ⟨hs', ?_⟩
  rw [step_trapState h u hs]
  split_ifs
  · exact hq
  · rcases hq with hq | hq | hq | hq <;> simp [State.nextTrapState, hq]

theorem pastTimer_of_samples (hp : s.samplesTimer = true) :
    (s.step v i).atBoundary = true ∨ (s.step v i).PastTimer := by
  simp only [State.samplesTimer, Bool.and_eq_true, Bool.not_eq_true', beq_iff_eq] at hp
  obtain ⟨hq, hb⟩ := hp
  have hs : s.state = .trap := h.trap (by simp [State.handlingTrap, hq])
  refine (entering_step h u (Or.inl hs)).imp_right fun hs' => ⟨hs', ?_⟩
  rw [step_trapState h u (Or.inl hs), hb, if_neg Bool.false_ne_true]
  simp only [State.nextTrapState, hq]
  split_ifs <;> simp

end step

variable {r : Run (State.step v)} (hc : ∀ t, Coherent (r.state t))
  (hu : ∀ t, Undisturbed (r.state t) (r.input t)) {j k : ℕ} (hjk : j < k)
  (hin : ∀ m, j < m → m ≤ k → (r.state m).atBoundary = false)
include hc hu hjk hin

/-- An instruction uses the port once. -/
theorem port_once (hj : (r.state j).samplesPort = true) : (r.state k).samplesPort = false := by
  have hfirst : (r.state (j + 1)).PastPort := by
    have h := pastPort_of_samples (v := v) (hc j) (hu j) hj
    rw [← r.next] at h
    exact h.resolve_left (ne_true_of_eq_false (hin (j + 1) (by omega) hjk))
  have hlast : (r.state k).PastPort := by
    refine inside_run hfirst (fun m _ hm => ?_) hjk fun m hm hmk => hin m (by omega) hmk
    rw [r.next]
    exact PastPort.step (hc m) (hu m) hm
  obtain ⟨hs | hs, hn⟩ := hlast <;> simp [State.samplesPort, hs, hn]

/-- A trap looks at the timer once. -/
theorem timer_once (hj : (r.state j).samplesTimer = true) : (r.state k).samplesTimer = false := by
  have hfirst : (r.state (j + 1)).PastTimer := by
    have h := pastTimer_of_samples (v := v) (hc j) (hu j) hj
    rw [← r.next] at h
    exact h.resolve_left (ne_true_of_eq_false (hin (j + 1) (by omega) hjk))
  have hlast : (r.state k).PastTimer := by
    refine inside_run hfirst (fun m _ hm => ?_) hjk fun m hm hmk => hin m (by omega) hmk
    rw [r.next]
    exact PastTimer.step (hc m) (hu m) hm
  obtain ⟨-, hq | hq | hq | hq⟩ := hlast <;> simp [State.samplesTimer, hq]

end inside

/-! ## Which clock decodes -/

section decode
variable {v : BitVec 32} {r : Run (State.step v)} (hc : ∀ t, Coherent (r.state t))
  (hu : ∀ t, Undisturbed (r.state t) (r.input t))
include hc hu

/-- After the decode clock no other one comes before the boundary. -/
theorem decoded_run {d k : ℕ} (hd : (r.state d).state = .decode) (hk : d < k)
    (hpath : ∀ j, d < j → j ≤ k → (r.state j).atBoundary = false) :
    (r.state k).state.decoded = true := by
  induction k, hk using Nat.le_induction with
  | base =>
      have hmem := (hc d).nextState_mem (i := r.input d)
      rw [hd] at hmem
      rw [Nat.succ_eq_add_one, r.next, step_state_of_not_busy (hu d).rst
        ((hc d).not_busy (hu d).halt (by rw [hd]; rfl))]
      rcases by simpa [MainState.successors] using hmem with h | h <;> rw [h] <;> rfl
  | succ k hk ih =>
      have hdec := ih fun j hj hjk => hpath j hj (by omega)
      have hb := hpath (k + 1) (by omega) le_rfl
      have hmem := (hc k).step_state_mem (v := v) (hu k).rst
      rw [← r.next k] at hmem
      rcases hmem with h | h
      · rwa [h]
      · have hnext := List.all_eq_true.mp (MainState.decoded_successors _ hdec) _ h
        simpa [State.atBoundary] using (Bool.or_eq_true_iff.mp hnext).resolve_left
          (ne_true_of_eq_false hb)

end decode

end TagSoc.Cpu
