import TagSoc.ExecRun

/-!
# CSR instructions

A CSR instruction reads the register in its system clock, writes the old word
to the destination twice (the first time a stale one), forms the new word from
what the port shows and writes it back, always, whether or not the instruction
set says that it writes. `csr_run` follows the six clocks. Seen as a register
file the block then behaves as a set of independent variables, for whole
sequences of instructions.
-/
namespace TagSoc.Cpu
open Clocked Alu Decoder CpuBus Csr Datapath Registers

variable {v : BitVec 32}

/-! ## The six clocks -/

namespace State

/-- The address a CSR instruction names. -/
def csrAddr (s : State) : BitVec 12 := s.dec.imm.extractLsb' 0 12

/-- The CSR block in the five clocks after the system clock of a CSR
instruction; `new` is the word it writes. -/
def csrRead (s : State) : Csr.State := s.csr.clock { en := true, addr := s.csrAddr }

def csrHeld (s : State) : Csr.State := s.csrRead.rest.rest

def csrWritten (s : State) (new : BitVec 32) : Csr.State :=
  s.csrHeld.clock { en := true, we := true, addr := s.csrAddr, data := new }

end State

/-- The new word, from the source operand and the word on the port. -/
def csrNew (f : BitVec 3) (rs1 : BitVec 5) (x old : BitVec 32) : BitVec 32 :=
  if f = funcCsrrw then x
  else if f = funcCsrrwi then 0#27 ++ rs1
  else if f = funcCsrrsi then (0#27 ++ rs1) ||| old
  else if f = funcCsrrs then x ||| old
  else if f = funcCsrrci then ~~~(0#27 ++ rs1) &&& old
  else if f = funcCsrrc then ~~~x &&& old
  else 0xB0010BAD#32

theorem csrWriteData_eq (s : State) :
    s.csrWriteData = csrNew s.dec.funct3 s.dec.rs1 s.regs.regval1 s.csr.dataOut := rfl

/-- A system instruction asks for nothing but its own stage. -/
theorem toSystem_quiet {s : State} (hd : s.dec.execNextStage = .toSystem) :
    s.dec.nextPcFromAlu = false ∧ s.dec.writebackFromImm = false ∧
      s.dec.writebackFromAlu = false := by
  have hl := dec_legal s
  rw [Decoder.Control.legal, hd] at hl
  simp only [Bool.and_eq_true, Bool.not_eq_true'] at hl
  exact ⟨hl.1.1.1.1, hl.1.1.1.2, hl.1.1.2⟩

section run
variable {r : Run (State.step v)} {t : ℕ} (hc : ∀ n, t ≤ n → Coherent (r.state n))
  (hu : ∀ n, t ≤ n → Undisturbed (r.state n) (r.input n))
  (hs : (r.state t).state = .system) (hk : systemKind (r.state t).dec = .csr)
include hc hu hs hk

theorem csr_clock1 :
    r.state (t + 1) = { r.state t with state := .csr1, csr := (r.state t).csrRead } := by
  rw [r.next, step_system_csr (hc t le_rfl) (hu t le_rfl) hs hk]
  rfl

/-- The first write to the destination, with a stale word. -/
theorem csr_clock2 :
    r.state (t + 2) = { r.state t with
      state := .csr1
      regs := (r.state t).writeRd (r.state t).csrRead.dataOut
      csr := (r.state t).csrRead.rest } := by
  have h₁ := csr_clock1 hc hu hs hk
  have hc₁ := hc (t + 1) (by omega)
  have hu₁ := hu (t + 1) (by omega)
  have hb := (hc t le_rfl).csr_free (by rw [hs]; rfl)
  rw [r.next (t + 1)]
  rw [h₁] at hc₁ hu₁ ⊢
  rw [step_csr1 hc₁ hu₁ rfl]
  simp only [State.csrRead, clock_busy, hb, Bool.not_false, Bool.and_self, if_true]
  rfl

/-- The second one, with the word that was asked for. -/
theorem csr_clock3 :
    r.state (t + 3) = { r.state t with
      state := .csr2
      regs := (r.state t).writeRd (r.state t).csrRead.rest.dataOut
      csr := (r.state t).csrHeld } := by
  have h₂ := csr_clock2 hc hu hs hk
  have hc₂ := hc (t + 2) (by omega)
  have hu₂ := hu (t + 2) (by omega)
  rw [r.next (t + 2)]
  rw [h₂] at hc₂ hu₂ ⊢
  rw [step_csr1 hc₂ hu₂ rfl]
  simp only [rest_busy, Bool.false_eq_true, if_false, State.writeRd]
  congr 2
  exact write_write _ _ _ _

theorem csr_clock4 :
    r.state (t + 4) = { r.state t with
      state := .updatePc
      regs := (r.state t).writeRd (r.state t).csrRead.rest.dataOut
      csr := (r.state t).csrWritten (csrNew (r.state t).dec.funct3 (r.state t).dec.rs1
        (r.state t).regs.regval1 (r.state t).csrHeld.dataOut) } := by
  have h₃ := csr_clock3 hc hu hs hk
  have hc₃ := hc (t + 3) (by omega)
  have hu₃ := hu (t + 3) (by omega)
  rw [r.next (t + 3)]
  rw [h₃] at hc₃ hu₃ ⊢
  rw [step_csr2 hc₃ hu₃ rfl, csrWriteData_eq]
  rfl

variable (hd : (r.state t).dec.execNextStage = .toSystem)
include hd

/-- In the update state there is nothing to write back and no other address. -/
theorem csr_update :
    (r.state (t + 4)).writebackEn = false ∧ (r.state (t + 4)).branchPcFromAlu = false ∧
      (r.state (t + 4)).updateNextPc = (r.state t).pcnext &&& ~~~1#32 := by
  have hflags := (hc t le_rfl).plain (by rw [hs]; rfl)
  obtain ⟨hj, hi, ha⟩ := toSystem_quiet hd
  have h₄ := csr_clock4 hc hu hs hk
  have hdec : (r.state (t + 4)).dec = (r.state t).dec := by rw [h₄]; rfl
  refine ⟨?_, by rw [h₄]; exact hflags.2.1, ?_⟩
  · rw [State.writebackEn, hdec, hi, ha, h₄]
    simp [hflags.1]
  · rw [State.updateNextPc, hdec, hj, h₄]
    simp [hflags]

theorem csr_clock5 :
    r.state (t + 5) = { r.state (t + 4) with csr := (r.state (t + 4)).csr.rest } := by
  have h₄ := csr_clock4 hc hu hs hk
  obtain ⟨hwb, hbr, -⟩ := csr_update hc hu hs hk hd
  have hfree : (r.state t).csrHeld.busy = false := rest_busy _
  have hb : (r.state (t + 4)).csr.busy = true := by
    rw [h₄]
    simp [State.csrWritten, hfree]
  rw [r.next (t + 4), step_updatePc_busy (hc (t + 4) (by omega)) (hu (t + 4) (by omega))
    (by rw [h₄]) hb, hwb, if_neg Bool.false_ne_true, ← hbr]

/-- The whole instruction, from its system clock to the next boundary. -/
theorem csr_run :
    r.state (t + 6) = { r.state t with
      state := if (r.input (t + 5)).externalSinglestep || (r.state t).testFinished
        then .cpuIdle else .preFetch
      pc := (r.state t).pcnext &&& ~~~1#32
      regs := (r.state t).writeRd (r.state t).csrRead.rest.dataOut
      csr := ((r.state t).csrWritten (csrNew (r.state t).dec.funct3 (r.state t).dec.rs1
        (r.state t).regs.regval1 (r.state t).csrHeld.dataOut)).rest.rest } := by
  have h₄ := csr_clock4 hc hu hs hk
  have h₅ := csr_clock5 hc hu hs hk hd
  have hflags := (hc t le_rfl).plain (by rw [hs]; rfl)
  obtain ⟨hwb, -, hnext⟩ := csr_update hc hu hs hk hd
  have hwb₅ : (r.state (t + 5)).writebackEn = false := by
    rw [h₅]
    exact hwb
  have hnext₅ : (r.state (t + 5)).updateNextPc = (r.state t).pcnext &&& ~~~1#32 := by
    rw [← hnext, h₅]
    have haddr : (r.state (t + 4)).nextAddrFromCsr = false := by
      rw [h₄]
      exact hflags.2.2.1
    simp only [State.updateNextPc, haddr]
    rfl
  rw [r.next (t + 5), step_updatePc (hc (t + 5) (by omega)) (hu (t + 5) (by omega))
    (by rw [h₅, h₄]) (by rw [h₅]; exact rest_busy _), hwb₅, hnext₅, h₅, h₄]
  simp only [hflags, Bool.false_eq_true, if_false]

/-- Nothing is raised on the way. -/
theorem csr_quiet {k : ℕ} (hk₁ : t ≤ k) (hk₂ : k < t + 6) :
    ((r.state k).control (r.input k)).trapOccured = false ∧ (r.state k).state.usesBus = false ∧
      (r.state k).atBoundary = false := by
  have h₃ := csr_clock3 hc hu hs hk
  have h₄ := csr_clock4 hc hu hs hk
  rw [State.atBoundary]
  rcases (by omega : k = t ∨ k = t + 1 ∨ k = t + 2 ∨ k = t + 3 ∨ k = t + 4 ∨ k = t + 5) with
    rfl | rfl | rfl | rfl | rfl | rfl
  · refine ⟨?_, by rw [hs]; rfl, by rw [hs]; rfl⟩
    simp [State.control, hs, State.controlSystem, hk]
  · rw [csr_clock1 hc hu hs hk]
    exact ⟨rfl, rfl, rfl⟩
  · rw [csr_clock2 hc hu hs hk]
    exact ⟨rfl, rfl, rfl⟩
  · rw [h₃]
    exact ⟨rfl, rfl, rfl⟩
  · rw [h₄]
    refine ⟨?_, rfl, rfl⟩
    simp [State.control, controlUpdatePc_eq]
  · rw [csr_clock5 hc hu hs hk hd, h₄]
    refine ⟨?_, rfl, rfl⟩
    simp [State.control, controlUpdatePc_eq]

end run

/-! ## As accesses to a register file -/

section file
variable {s : State} (hb : s.csr.busy = false) (hw : s.csr.we = false)
include hb hw

theorem csrRead_access : Access s.csrRead s.csrAddr false s.csr.settled :=
  access_of_free hb hw rfl

theorem csrHeld_free : s.csrHeld.busy = false ∧ s.csrHeld.we = false ∧
    s.csrHeld.settled = s.csr.settled := by
  obtain ⟨hw₁, hm₁, -⟩ := (csrRead_access hb hw).rest
  exact ⟨rest_busy _, rest_we _ hw₁, (rest_settled _ hw₁).trans hm₁⟩

/-- The word for the destination and the word the new one is formed from. -/
theorem csr_port (hr : csrIndex s.csrAddr ≠ mRnd) :
    s.csrRead.rest.dataOut = s.csr.settled (csrIndex s.csrAddr) ∧
      s.csrHeld.dataOut = s.csr.settled (csrIndex s.csrAddr) := by
  have hacc := csrRead_access hb hw
  obtain ⟨hw₁, hm₁, hi₁⟩ := hacc.rest
  refine ⟨hacc.read hi₁ hr, ?_⟩
  rw [State.csrHeld, rest_dataOut _ hw₁ (by rw [hi₁]; exact hr), hi₁, hm₁]

theorem csrWritten_settled (new : BitVec 32) :
    (s.csrWritten new).rest.rest.settled = writeWord s.csr.settled s.csrAddr new := by
  obtain ⟨hb₁, hw₁, hm₁⟩ := csrHeld_free hb hw
  have hacc : Access (s.csrWritten new) s.csrAddr true (writeWord s.csrHeld.settled s.csrAddr new) :=
    access_of_free hb₁ hw₁ rfl
  obtain ⟨hw₂, hm₂, -⟩ := hacc.rest
  rw [rest_settled _ hw₂, hm₂, hm₁]

end file

/-! ## From the boundary to the system clock -/

/-- What the system state at clock `m` finds, for the system instruction `w`
that started at clock `t`. -/
structure ReachedSystem {M : Type*} (r : Run (State.step v)) (mem : ℕ → M) (t m : ℕ)
    (w : BitVec 32) : Prop where
  state : (r.state m).state = .system
  dec : (r.state m).dec = decode w
  next : (r.state m).pcnext = (r.state t).pc + Datapath.instrLen w
  regval1 : (r.state m).regs.regval1 = (r.state t).regs.regfile (decode w).rs1
  csr : Kept (r.state t).csr (r.state m).csr
  frame : ∀ k, t ≤ k → k ≤ m → (r.state k).regs.regfile = (r.state t).regs.regfile ∧ mem k = mem t
  path : ∀ k, t ≤ k → k < m → ((r.state k).control (r.input k)).trapOccured = false ∧
    (t < k → (r.state k).atBoundary = false)

theorem trapOccured_of_early {s : State} {i : Inputs}
    (hs : s.state.early = true ∨ s.state = .exec)
    (hno : s.state = .decode → s.takesInterrupt i = false) :
    (s.control i).trapOccured = false := by
  unfold State.control
  cases hm : s.state <;> rw [hm] at hs
  case decode => exact hno hm
  all_goals first | rfl | exact absurd hs (by decide)

theorem system_run {M : Type*} {D : Device M} {r : Run (State.step v)} {mem : ℕ → M}
    (hs : Slave D r mem) (hr : Running r) (hc : ∀ t, Coherent (r.state t)) {t : ℕ}
    (ht : (r.state t).state = .preFetch) (hno : Uninterrupted r t)
    (hw : (decode (fetched D (arch r mem t))).execNextStage = .toSystem) :
    ∃ m, t < m ∧ ReachedSystem r mem t m (fetched D (arch r mem t)) := by
  obtain ⟨e, he, hx⟩ := exec_run hs hr hc ht hno
  have hu := hs.undisturbed hr
  have hdec : (r.state e).dec = decode (fetched D (arch r mem t)) := by rw [State.dec, hx.word]
  rw [← hdec] at hw
  have hstep := step_exec (v := v) (hc e) (hu e) hx.state
  rw [← r.next e, hw, (toSystem_quiet hw).1] at hstep
  have hsame : (r.state (e + 1)).dec = (r.state e).dec := by rw [hstep]; rfl
  refine ⟨e + 1, by omega, ?_⟩
  constructor
  case state => rw [hstep]; rfl
  case dec => rw [hsame, hdec]
  case next => rw [hstep]; exact hx.next
  case regval1 => rw [hstep]; exact hx.regval1
  case csr =>
    rw [hstep]
    exact hx.csr.trans (kept_rest _ (hc e).csr_we)
  case frame =>
    intro k hk hke
    rcases Nat.eq_or_lt_of_le hke with rfl | hlt
    · obtain ⟨h₁, h₂⟩ := hx.frame e (by omega) le_rfl
      refine ⟨?_, ?_⟩
      · rw [hstep]
        exact h₁
      · rw [hs.mem_of_ready (hc e) (by rw [hx.state]; rfl)]
        exact h₂
    · exact hx.frame k hk (by omega)
  case path =>
    intro k hk hke
    have hcase : (r.state k).state.early = true ∨ (r.state k).state = .exec := by
      rcases (by omega : k = t ∨ t < k ∧ k < e ∨ k = e) with rfl | ⟨h₁, h₂⟩ | rfl
      · exact Or.inl (by rw [ht]; rfl)
      · exact Or.inl (MainState.early_of_fetching (hx.path k h₁ h₂))
      · exact Or.inr hx.state
    have hbound : ∀ j, t < j → j ≤ e → (r.state j).atBoundary = false := by
      intro j hj hje
      rcases Nat.eq_or_lt_of_le hje with rfl | hlt
      · rw [State.atBoundary, hx.state]; rfl
      · exact atBoundary_of_fetching (hx.path j hj hlt)
    refine ⟨trapOccured_of_early hcase fun hd => ?_, fun htk => hbound k htk (by omega)⟩
    have htk : t < k := by
      refine Nat.lt_of_le_of_ne hk fun h => ?_
      rw [← h, ht] at hd
      exact absurd hd (by decide)
    exact hno k htk (fun j hj hjk => hbound j hj (by omega)) hd

/-- A CSR instruction, from one boundary to the next. -/
theorem csr_boundary {M : Type*} {D : Device M} {r : Run (State.step v)} {mem : ℕ → M}
    (hs : Slave D r mem) (hr : Running r) (hc : ∀ t, Coherent (r.state t)) {t m : ℕ}
    {w : BitVec 32} (htm : t < m) (h : ReachedSystem r mem t m w)
    (hd : (decode w).execNextStage = .toSystem) (hk : systemKind (decode w) = .csr) :
    NextBoundary r t (m + 6) ∧ mem (m + 6) = mem t ∧
      ∀ k, t ≤ k → k < m + 6 → ((r.state k).control (r.input k)).trapOccured = false := by
  have hu := hs.undisturbed hr
  rw [← h.dec] at hd hk
  have hquiet : ∀ k, m ≤ k → k < m + 6 → _ := fun k h₁ h₂ =>
    csr_quiet (fun n _ => hc n) (fun n _ => hu n) h.state hk hd h₁ h₂
  refine ⟨⟨by omega, ?_, fun k hk₁ hk₂ => ?_⟩, ?_, fun k hk₁ hk₂ => ?_⟩
  · rw [State.atBoundary, csr_run (fun n _ => hc n) (fun n _ => hu n) h.state hk hd]
    dsimp only
    split_ifs <;> rfl
  · rcases Nat.lt_or_ge k m with hlt | hge
    · exact (h.path k (by omega) hlt).2 hk₁
    · exact (hquiet k hge hk₂).2.2
  · rw [hs.mem_const hc (by omega : m ≤ m + 6) fun k h₁ h₂ => (hquiet k h₁ h₂).2.1]
    exact (h.frame m (by omega) le_rfl).2
  · rcases Nat.lt_or_ge k m with hlt | hge
    · exact (h.path k hk₁ hlt).1
    · exact (hquiet k hge hk₂).1

end TagSoc.Cpu
