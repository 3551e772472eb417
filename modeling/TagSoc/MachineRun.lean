import TagSoc.Phases
import TagSoc.Refinement

/-!
# The processor carries out the machine's steps

Every run of the processor, on any bus slave, with any wait states and any pattern of
interrupt requests, goes from boundary to boundary as the instruction-level machine
does. The step lemma is proved for each kind of instruction from the run of its states;
the run lemma is the induction over the boundaries.
-/
namespace TagSoc.Cpu
open Clocked Decoder CpuBus Csr Datapath Registers Machine

variable {M : Type*} {v : BitVec 32}

/-! ## What the machine sees -/

def switches (c : Csr.State) : Switches :=
  ⟨c.irqEn, c.irqTimerEn, c.tagsEn, c.tagsIfEn, c.tagsSkipSpEn⟩

theorem switches_eq {c c' : Csr.State} (h₁ : c'.irqEn = c.irqEn) (h₂ : c'.enables = c.enables) :
    switches c' = switches c := by
  simp only [Csr.State.enables, Prod.mk.injEq] at h₂
  obtain ⟨g₁, g₂, g₃, g₄⟩ := h₂
  simp only [switches, h₁, g₁, g₂, g₃, g₄]

/-- The processor at a boundary. -/
def view (r : Run (State.step v)) (mem : ℕ → M) (t : ℕ) : Machine.State M where
  toState := arch r mem t
  csr := (r.state t).csr.ram.mem
  en := switches (r.state t).csr
  finished := (r.state t).testFinished

theorem view_eq {r : Run (State.step v)} {mem : ℕ → M} {n : ℕ} {s : Machine.State M}
    (hregs : (r.state n).regs.regfile = s.regs) (hpc : (r.state n).pc = s.pc) (hmem : mem n = s.mem)
    (hcsr : (r.state n).csr.ram.mem = s.csr) (hen : switches (r.state n).csr = s.en)
    (hfin : (r.state n).testFinished = s.finished) : view r mem n = s := by
  simp only [view, arch, hregs, hpc, hmem, hcsr, hen, hfin]

/-- The lines are what the wires said between the two clocks, each in the clock in which the
processor looks at it. -/
structure Seen (r : Run (State.step v)) (t n : ℕ) (l : Lines) : Prop where
  decode : ∃ d, t < d ∧ d < n ∧ (r.state d).state = .decode ∧
    l.irqTimer = (r.input d).timerInterrupt ∧ l.irqTags = (r.input d).tagsInterrupt
  timer : l.timer = true ↔ ∃ k, t < k ∧ k < n ∧ (r.state k).samplesTimer = true ∧
    (r.input k).timerInterrupt = true
  port : ∀ k, t < k → k < n → (r.state k).samplesPort = true → l.port = (r.state k).csr.dataOut
  clear : l.clear = true ↔ ClearedIn r t n

section seen
variable {r : Run (State.step v)} {t n : ℕ} {l : Lines}

theorem NextBoundary.inside_lt (hn : NextBoundary r t n) {c : ℕ}
    (hin : ∀ k, t < k → k ≤ c → (r.state k).atBoundary = false) : c < n := by
  by_contra hle
  exact Bool.false_ne_true ((hin n hn.1 (by omega)).symm.trans hn.2.1)

variable (hc : ∀ t, Coherent (r.state t)) (hu : ∀ t, Undisturbed (r.state t) (r.input t))
  (hn : NextBoundary r t n)
include hc hu hn

/-- There are such lines, as the port is used once at most. -/
theorem exists_seen {d : ℕ} (htd : t < d) (hdn : d < n) (hd : (r.state d).state = .decode) :
    ∃ l, Seen r t n l := by
  classical
  obtain ⟨port, hport⟩ : ∃ port, ∀ k, t < k → k < n → (r.state k).samplesPort = true →
      port = (r.state k).csr.dataOut := by
    by_cases hk : ∃ k, t < k ∧ k < n ∧ (r.state k).samplesPort = true
    · obtain ⟨k, hk, hkn, hsample⟩ := hk
      refine ⟨(r.state k).csr.dataOut, fun j hj hjn hsample' => ?_⟩
      rcases Nat.lt_trichotomy j k with hlt | rfl | hgt
      · have hno := port_once hc hu hlt (fun m _ hmk => hn.2.2 m (by omega) (by omega)) hsample'
        exact absurd (hno.symm.trans hsample) Bool.false_ne_true
      · rfl
      · have hno := port_once hc hu hgt (fun m _ hmk => hn.2.2 m (by omega) (by omega)) hsample
        exact absurd (hno.symm.trans hsample') Bool.false_ne_true
    · exact ⟨0#32, fun k h₁ h₂ h₃ => absurd ⟨k, h₁, h₂, h₃⟩ hk⟩
  exact ⟨⟨(r.input d).timerInterrupt, (r.input d).tagsInterrupt,
    decide (∃ k, t < k ∧ k < n ∧ (r.state k).samplesTimer = true ∧
      (r.input k).timerInterrupt = true), port, decide (ClearedIn r t n)⟩,
    ⟨d, htd, hdn, hd, rfl, rfl⟩, decide_eq_true_iff, hport, decide_eq_true_iff⟩

/-- The timer's line in the one clock in which a trap looks at it. -/
theorem Seen.timer_eq (hl : Seen r t n l) {k : ℕ} (hk : t < k) (hkn : k < n)
    (hsample : (r.state k).samplesTimer = true) : l.timer = (r.input k).timerInterrupt := by
  refine Bool.eq_iff_iff.mpr (hl.timer.trans ⟨?_, fun h => ⟨k, hk, hkn, hsample, h⟩⟩)
  rintro ⟨j, hj, hjn, hsample', hline⟩
  rcases Nat.lt_trichotomy j k with hlt | rfl | hgt
  · have hno := timer_once hc hu hlt (fun m _ hmk => hn.2.2 m (by omega) (by omega)) hsample'
    exact absurd (hno.symm.trans hsample) Bool.false_ne_true
  · exact hline
  · have hno := timer_once hc hu hgt (fun m _ hmk => hn.2.2 m (by omega) (by omega)) hsample
    exact absurd (hno.symm.trans hsample') Bool.false_ne_true

/-- The interrupt lines in the one decode clock. -/
theorem Seen.irq_eq (hl : Seen r t n l) {d : ℕ} (htd : t < d)
    (hd : (r.state d).state = .decode) (honce : ∀ k, t < k → k < d → (r.state k).state ≠ .decode) :
    l.irqTimer = (r.input d).timerInterrupt ∧ l.irqTags = (r.input d).tagsInterrupt := by
  obtain ⟨k, hk, hkn, hs, hlines⟩ := hl.decode
  rcases Nat.lt_trichotomy k d with hlt | rfl | hgt
  · exact absurd hs (honce k hk hlt)
  · exact hlines
  · have hdec := decoded_run hc hu hd hgt fun j hj hjk => hn.2.2 j (by omega) (by omega)
    rw [hs] at hdec
    exact absurd hdec (by decide)

end seen

/-- Clock `c` of an instruction that started at clock `t` and has changed nothing yet. -/
structure Unchanged (r : Run (State.step v)) (mem : ℕ → M) (t c : ℕ) : Prop where
  later : t < c
  inside : ∀ k, t < k → k ≤ c → (r.state k).atBoundary = false
  regs : (r.state c).regs.regfile = (r.state t).regs.regfile
  pc : (r.state c).pc = (r.state t).pc
  mem : mem c = mem t
  file : (r.state c).csr.ram.mem = (r.state t).csr.ram.mem
  switches : switches (r.state c).csr = switches (r.state t).csr
  finished : (r.state c).testFinished = (r.state t).testFinished

/-- The boundary is the first clock behind `c` that is one. -/
theorem Unchanged.nextBoundary {r : Run (State.step v)} {mem : ℕ → M} {t c n : ℕ}
    (h : Unchanged r mem t c) (hcn : c < n) (hn : (r.state n).atBoundary = true)
    (hinside : ∀ j, c < j → j < n → (r.state j).atBoundary = false) : NextBoundary r t n := by
  refine ⟨h.later.trans hcn, hn, fun j hj hjn => ?_⟩
  rcases Nat.lt_or_ge c j with hlt | hge
  · exact hinside j hlt hjn
  · exact h.inside j hj hge

/-- What the system clock finds. -/
structure SystemClock (r : Run (State.step v)) (mem : ℕ → M) (t c : ℕ) (w : BitVec 32) : Prop
    extends Unchanged r mem t c where
  state : (r.state c).state = .system
  word : (r.state c).parcels = w
  next : (r.state c).pcnext = (r.state t).pc + Datapath.instrLen w
  operand : (r.state c).regs.regval1 = (r.state t).regs.regfile (decode w).rs1

/-! ## The file that a trap leaves -/

theorem TrapEntered.file {s s' : State} {cause : BitVec 32} {pending : Bool}
    (h : TrapEntered s s' cause pending) :
    s'.csr.ram.mem = entryFile s.csr.ram.mem cause s.pc pending := by
  funext k
  rw [entryFile_apply]
  split_ifs with h₁ h₂ h₃ h₄
  · rw [h₁]; exact h.mcause
  · rcases h₂ with rfl | rfl
    · exact h.mepc
    · exact h.mtval
  · rw [h₃]
    exact BitVec.eq_of_getLsbD_eq fun b _ => (h.mstatus b).trans (trapStatus_getLsbD _ b).symm
  · rw [h₄.1]
    refine BitVec.eq_of_getLsbD_eq fun b _ => ?_
    rw [h.mip b, trapPending_getLsbD]
    simp only [h₄.2, and_true]
  · by_cases hip : k = mIp
    · rw [hip]
      refine BitVec.eq_of_getLsbD_eq fun b _ => ?_
      rw [h.mip b, if_neg]
      exact fun hb => h₄ ⟨hip, hb.2⟩
    · refine h.others k ?_
      rw [not_or] at h₂
      simp [h₁, h₂, h₃, hip]

theorem Returned.file {s s' : State} (h : Returned s s') :
    s'.csr.ram.mem = writeWord s.csr.ram.mem msrMstatus (mretStatus (s.csr.ram.mem mStatus)) := by
  funext k
  by_cases hk : k = mStatus
  · rw [hk, ← csrIndex_mstatus, writeWord_self (by decide), csrIndex_mstatus]
    exact BitVec.eq_of_getLsbD_eq fun b _ => (h.mstatus b).trans (mretStatus_getLsbD _ b).symm
  · rw [h.others k hk, writeWord_of_ne (by simpa using hk)]

/-! ## Up to the clock that decides -/

section run
variable {D : Device M} {r : Run (State.step v)} {mem : ℕ → M}
  (hs : Slave D r mem) (hr : Running r) (hf : ∀ t, Flow (r.state t)) {t : ℕ}
  (ht : (r.state t).state = .preFetch)
include hs hr hf

omit hs hr in
/-- The words of the CSR block in two clocks that do not use it. -/
theorem file_of_kept {c : ℕ} (hk : Kept (r.state t).csr (r.state c).csr)
    (h₁ : (r.state t).state.usesCsr = false) (h₂ : (r.state c).state.usesCsr = false) :
    (r.state c).csr.ram.mem = (r.state t).csr.ram.mem := by
  rw [← settled_of_not_we _ ((hf c).csr_we_free h₂), hk.settled,
    settled_of_not_we _ ((hf t).csr_we_free h₁)]

include ht

/-- The decode clock, and that there is only one. -/
theorem decode_clock : ∃ d, Unchanged r mem t d ∧ (r.state d).state = .decode ∧
    (∀ k, t < k → k < d → (r.state k).state ≠ .decode) ∧
    (r.state d).parcels = fetched D (arch r mem t) := by
  have hc : ∀ t, Coherent (r.state t) := fun t => (hf t).toCoherent
  have hu := hs.undisturbed hr
  obtain ⟨d, htd, hd, hpath⟩ := fetch_run hs hr hc ht
  have hinner : ∀ k, t < k → k ≤ d → (r.state k).atBoundary = false := by
    intro k hk hkd
    rcases Nat.eq_or_lt_of_le hkd with rfl | hlt
    · rw [State.atBoundary, hd.state]; rfl
    · exact atBoundary_of_fetching (hpath k hk hlt)
  have honce : ∀ k, t < k → k < d → (r.state k).state ≠ .decode := by
    intro k hk hkd hdec
    have h := decoded_run hc hu hdec hkd fun j hj hjd => hinner j (by omega) hjd
    rw [hd.state] at h
    exact absurd h (by decide)
  have hwe : (r.state t).bus.we = false :=
    Bool.eq_false_iff.mpr fun hw => by
      simpa [(hc t).bus_free (by rw [ht]; rfl)] using (hc t).bus_we hw
  obtain ⟨h₁, h₂, h₃, -, h₅⟩ := early_run hs hr hc (show t ≤ d by omega) hwe fun k hk hkd => by
    rcases Nat.eq_or_lt_of_le hk with rfl | hk
    · exact ⟨by rw [ht]; rfl, fun h => by simp [ht] at h⟩
    · exact ⟨MainState.early_of_fetching (hpath k hk hkd), fun h => absurd h (honce k hk hkd)⟩
  refine ⟨d, ?_, hd.state, honce, hd.parcels⟩
  exact ⟨htd, hinner, h₁, h₂, h₅,
    file_of_kept hf h₃ (by rw [ht]; rfl) (by rw [hd.state]; rfl),
    switches_eq h₃.irqEn h₃.enables, hd.finished⟩

omit ht in
theorem uninterrupted_of_decode {d : ℕ} (h : Unchanged r mem t d)
    (hd : (r.state d).state = .decode)
    (honce : ∀ k, t < k → k < d → (r.state k).state ≠ .decode)
    (hno : (r.state d).takesInterrupt (r.input d) = false) : Uninterrupted r t := by
  intro k hk hin hdec
  rcases Nat.lt_trichotomy k d with hlt | rfl | hgt
  · exact absurd hdec (honce k hk hlt)
  · exact hno
  · have h' := decoded_run (fun t => (hf t).toCoherent) (hs.undisturbed hr) hd hgt
      fun j hj hjk => hin j (h.later.trans hj) hjk
    rw [hdec] at h'
    exact absurd h' (by decide)

omit hs hr in
/-- The execute clock. -/
theorem ReachedExec.unchanged {e : ℕ} {w : BitVec 32} (hte : t < e)
    (hx : ReachedExec r mem t e w) : Unchanged r mem t e := by
  obtain ⟨h₁, h₂⟩ := hx.frame e hte.le le_rfl
  refine ⟨hte, fun k hk hke => ?_, h₁, hx.pc, h₂, ?_, ?_, hx.finished⟩
  · rcases Nat.eq_or_lt_of_le hke with rfl | hlt
    · rw [State.atBoundary, hx.state]; rfl
    · exact atBoundary_of_fetching (hx.path k hk hlt)
  · exact file_of_kept hf hx.csr (by rw [ht]; rfl) (by rw [hx.state]; rfl)
  · exact switches_eq hx.csr.irqEn hx.csr.enables

theorem ReachedExec.system {e : ℕ} {w : BitVec 32} (hte : t < e) (hx : ReachedExec r mem t e w)
    (hst : (decode w).execNextStage = .toSystem) : SystemClock r mem t (e + 1) w := by
  have hun := hx.unchanged hf ht hte
  have hc := (hf e).toCoherent
  have hdec : (r.state e).dec = decode w := by rw [State.dec, hx.word]
  have hstep := step_exec (v := v) hc (hs.undisturbed hr e) hx.state
  rw [← hdec] at hst
  rw [← r.next e, hst, (toSystem_quiet hst).1] at hstep
  have hstate : (r.state (e + 1)).state = .system := by rw [hstep]; rfl
  have hkept : Kept (r.state t).csr (r.state (e + 1)).csr := by
    rw [hstep]
    exact hx.csr.trans (kept_rest _ hc.csr_we)
  constructor
  case toUnchanged =>
    refine ⟨by omega, fun k hk hke => ?_, ?_, ?_, ?_, ?_, ?_, ?_⟩
    · rcases Nat.eq_or_lt_of_le hke with rfl | hlt
      · rw [State.atBoundary, hstate]; rfl
      · exact hun.inside k hk (by omega)
    · rw [hstep]; exact hun.regs
    · rw [hstep]; exact hun.pc
    · rw [hs.mem_of_ready hc (by rw [hx.state]; rfl)]; exact hun.mem
    · exact file_of_kept hf hkept (by rw [ht]; rfl) (by rw [hstate]; rfl)
    · exact switches_eq hkept.irqEn hkept.enables
    · rw [hstep]; exact hun.finished
  case state => exact hstate
  case word => rw [hstep]; exact hx.word
  case next => rw [hstep]; exact hx.next
  case operand => rw [hstep]; exact hx.regval1

/-! ## Traps -/

omit hs hr hf ht in
theorem finished_run (hu : ∀ t, Undisturbed (r.state t) (r.input t)) {a b : ℕ} (hab : a ≤ b)
    (hpath : ∀ k, a ≤ k → k < b → (r.state k).state ≠ .system) :
    (r.state b).testFinished = (r.state a).testFinished := by
  induction b, hab using Nat.le_induction with
  | base => rfl
  | succ b hab ih =>
      rw [r.next, step_testFinished (hu b).rst (hpath b hab (Nat.lt_succ_self b))]
      exact ih fun k hk hkb => hpath k hk (by omega)

omit ht in
theorem trap_step {c : ℕ} (h : Unchanged r mem t c)
    (htrap : ((r.state c).control (r.input c)).trapOccured = true) :
    ∃ n k, NextBoundary r t n ∧ t < k ∧ k < n ∧ (r.state k).samplesTimer = true ∧ view r mem n =
      { (view r mem t).enterTrap ((r.state c).control (r.input c)).csrDataIn
          (r.input k).timerInterrupt with finished := (r.state (c + 1)).testFinished } := by
  have hu := hs.undisturbed hr
  obtain ⟨k, hck, hsample, n, hn, ⟨hkn, hent⟩, hpath⟩ := trap_run hf hu htrap
  have hboundary : (r.state n).atBoundary = true := by
    rw [State.atBoundary]
    rcases hent.state with h | h <;> rw [h] <;> rfl
  have hmem : mem n = mem c := by
    refine hs.mem_const (fun t => (hf t).toCoherent) (by omega) fun j hj hjn => ?_
    rcases Nat.eq_or_lt_of_le hj with rfl | hlt
    · rcases trapOccured_cases (hf c).toCoherent htrap with ⟨h, -⟩ | ⟨h, -⟩ <;> rw [h] <;> rfl
    · rcases hpath j hlt hjn with h | h <;> rw [h] <;> rfl
  have htimer : (r.state c).csr.irqTimerEn = (r.state t).csr.irqTimerEn :=
    congrArg Switches.timer h.switches
  refine ⟨n, k, h.nextBoundary (by omega) hboundary fun j hj hjn => ?_, h.later.trans hck, hkn,
    hsample, ?_⟩
  · rw [State.atBoundary]
    rcases hpath j hj hjn with h | h <;> rw [h] <;> rfl
  · apply view_eq
    · exact hent.regs.trans h.regs
    · rw [hent.pc, h.file]; rfl
    · exact hmem.trans h.mem
    · rw [hent.file, h.file, h.pc, htimer]; rfl
    · have hen := switches_eq (c := { (r.state c).csr with irqEn := false }) hent.irqEn hent.enables
      rw [hen]
      exact congrArg (fun e : Switches => { e with irq := false }) h.switches
    · exact finished_run hu (by omega) fun j hj hjn => by
        rcases hpath j hj hjn with h | h <;> simp [h]

omit ht in
theorem interrupt_step {d : ℕ} (h : Unchanged r mem t d) (hd : (r.state d).state = .decode)
    (hi : (r.state d).takesInterrupt (r.input d) = true) :
    ∃ n k, NextBoundary r t n ∧ t < k ∧ k < n ∧ (r.state k).samplesTimer = true ∧ view r mem n =
      (view r mem t).enterTrap ((r.state d).interruptCause (r.input d))
        (r.input k).timerInterrupt := by
  have hcontrol : (r.state d).control (r.input d) = (r.state d).controlDecode (r.input d) := by
    rw [State.control, hd]
  have hcause : ((r.state d).control (r.input d)).csrDataIn =
      (r.state d).interruptCause (r.input d) := by
    rw [hcontrol, State.controlDecode]
    simp only [hi, if_true]
  obtain ⟨n, k, hn, hk, hkn, hsample, hview⟩ :=
    trap_step hs hr hf h (by rw [hcontrol]; exact hi)
  have hfin : (r.state (d + 1)).testFinished = (view r mem t).finished := by
    rw [r.next, step_testFinished (hs.undisturbed hr d).rst (by rw [hd]; decide), h.finished]
    rfl
  refine ⟨n, k, hn, hk, hkn, hsample, ?_⟩
  rw [hview, hcause, hfin]
  rfl

omit ht in
/-- The instructions that raise a trap. -/
theorem raise_step {c : ℕ} {w : BitVec 32} (h : SystemClock r mem t c w) {cause : BitVec 32}
    {fin : Bool} (hk : (r.state c).controlSystem = State.controlRaise cause fin)
    (hrun : (r.state t).testFinished = false) :
    ∃ n k, NextBoundary r t n ∧ t < k ∧ k < n ∧ (r.state k).samplesTimer = true ∧ view r mem n =
      { (view r mem t).enterTrap cause (r.input k).timerInterrupt with finished := fin } := by
  have hcontrol : (r.state c).control (r.input c) = State.controlRaise cause fin := by
    rw [State.control, h.state]
    exact hk
  obtain ⟨n, k, hn, htk, hkn, hsample, hview⟩ :=
    trap_step hs hr hf h.toUnchanged (by rw [hcontrol]; rfl)
  refine ⟨n, k, hn, htk, hkn, hsample, ?_⟩
  have hfin : (r.state (c + 1)).testFinished = fin := by
    rw [r.next, step_system_raise (hf c).toCoherent (hs.undisturbed hr c) h.state cause fin hk]
    show ((r.state c).testFinished || fin) = fin
    rw [h.finished, hrun, Bool.false_or]
  rw [hview, hcontrol, hfin]
  rfl

/-! ## The other system instructions -/

omit hs hr hf ht in
theorem enables_run (hu : ∀ t, Undisturbed (r.state t) (r.input t)) {a b : ℕ} (hab : a ≤ b)
    (hpath : ∀ k, a ≤ k → k < b → (r.state k).state ≠ .csr2) :
    (r.state b).csr.enables = (r.state a).csr.enables := by
  induction b, hab using Nat.le_induction with
  | base => rfl
  | succ b hab ih =>
      rw [r.next, step_enables (hu b) (hpath b hab (Nat.lt_succ_self b))]
      exact ih fun k hk hkb => hpath k hk (by omega)

omit ht in
theorem mret_step {c : ℕ} {w : BitVec 32} (h : SystemClock r mem t c w)
    (hk : systemKind (r.state c).dec = .mret) :
    ∃ n, NextBoundary r t n ∧ view r mem n = (view r mem t).mret := by
  have hu := hs.undisturbed hr
  obtain ⟨n, hn, hret, hpath⟩ := mret_run hf hu h.state hk
  have hstates : ∀ j, c ≤ j → j < n → (r.state j).state = .system ∨ (r.state j).state = .mret ∨
      (r.state j).state = .updatePc := by
    intro j hj hjn
    rcases Nat.eq_or_lt_of_le hj with rfl | hlt
    · exact Or.inl h.state
    · exact Or.inr (hpath j hlt hjn)
  have hfirst : (r.state (c + 1)).testFinished = (r.state c).testFinished := by
    rw [r.next, step_system_mret (hf c).toCoherent (hu c) h.state hk]
  refine ⟨n, h.nextBoundary (by omega) ?_ fun j hj hjn => ?_, ?_⟩
  · rw [State.atBoundary]
    rcases hret.state with h | h <;> rw [h] <;> rfl
  · rw [State.atBoundary]
    rcases hpath j hj hjn with h | h <;> rw [h] <;> rfl
  · apply view_eq
    · exact hret.regs.trans h.regs
    · rw [hret.pc, h.file]; rfl
    · refine Eq.trans (hs.mem_const (fun t => (hf t).toCoherent) (by omega) fun j hj hjn => ?_) h.mem
      rcases hstates j hj hjn with h | h | h <;> rw [h] <;> rfl
    · rw [hret.file, h.file]; rfl
    · have hen := enables_run hu (show c ≤ n by omega) fun j hj hjn => by
        rcases hstates j hj hjn with h | h | h <;> rw [h] <;> decide
      have hsw := switches_eq
        (c := { (r.state c).csr with irqEn := ((r.state c).csr.ram.mem mStatus).getLsbD 7 })
        hret.irqEn hen
      rw [hsw, h.file]
      exact congrArg (fun e : Switches =>
        { e with irq := ((r.state t).csr.ram.mem mStatus).getLsbD 7 }) h.switches
    · refine Eq.trans (finished_run hu hn fun j hj hjn => ?_) (hfirst.trans h.finished)
      rcases hpath j hj hjn with h | h <;> simp [h]

omit ht in
theorem wfi_step {c : ℕ} {w : BitVec 32} (h : SystemClock r mem t c w)
    (hk : systemKind (r.state c).dec = .wfi) (heven : BitSlices.IsEven ((r.state t).pc + instrLen w)) :
    ∃ n, NextBoundary r t n ∧
      view r mem n = { view r mem t with pc := (r.state t).pc + instrLen w } := by
  have hu := hs.undisturbed hr
  have hc := (hf c).toCoherent
  have hstage := ((hf c).stage .toSystem (by rw [h.state]; rfl)).1
  have hquiet := toSystem_quiet hstage
  have hflags := hc.plain (by rw [h.state]; rfl)
  have h₁ := step_system_wfi (v := v) hc (hu c) h.state hk
  rw [← r.next c] at h₁
  have hs₁ : (r.state (c + 1)).state = .updatePc := by rw [h₁]
  have h₂ := step_updatePc (v := v) (hf (c + 1)).toCoherent (hu (c + 1)) hs₁
    (by rw [h₁]; exact rest_busy _)
  rw [← r.next (c + 1)] at h₂
  have hdec : (r.state (c + 1)).dec = (r.state c).dec := by rw [h₁]; rfl
  have hwb : (r.state (c + 1)).writebackEn = false := by
    rw [State.writebackEn, hdec, hquiet.2.1, hquiet.2.2, h₁]
    simp [hflags.1]
  have hnext : (r.state (c + 1)).updateNextPc = (r.state t).pc + instrLen w :=
    updateNextPc_fallthrough (by rw [h₁]; exact hflags.2.2.1) (by rw [hdec]; exact hquiet.1)
      (by rw [h₁]; exact hflags.2.1) (by rw [h₁]; exact h.next) heven
  rw [hwb, hnext, if_neg Bool.false_ne_true, h₁] at h₂
  have hkept : Kept (r.state c).csr (r.state c).csr.rest.rest :=
    (kept_rest _ hc.csr_we).trans (kept_rest _ (by simp [rest_we _ (hc.csr_we_free
      (by rw [h.state]; rfl))]))
  have hboundary : (r.state (c + 2)).atBoundary = true := by
    rw [State.atBoundary, h₂]
    dsimp only
    split_ifs <;> rfl
  refine ⟨c + 2, h.nextBoundary (by omega) hboundary fun j hj hjn => ?_, ?_⟩
  · obtain rfl : j = c + 1 := by omega
    rw [State.atBoundary, hs₁]
    rfl
  · apply view_eq
    · rw [h₂]; exact h.regs
    · rw [h₂]
    · rw [hs.mem_of_ready (hf (c + 1)).toCoherent (by rw [hs₁]; rfl),
        hs.mem_of_ready hc (by rw [h.state]; rfl)]
      exact h.mem
    · rw [← settled_of_not_we _ ((hf (c + 2)).csr_we_boundary hboundary), h₂]
      exact hkept.settled.trans ((settled_of_not_we _ (hc.csr_we_free
        (by rw [h.state]; rfl))).trans h.file)
    · rw [h₂]
      exact (switches_eq hkept.irqEn hkept.enables).trans h.switches
    · rw [h₂]; exact h.finished

omit hs hr hf ht in
/-- A write request in the control bits. -/
theorem switches_clock (c : Csr.State) (addr : BitVec 12) (x : BitVec 32) :
    switches (c.clock { en := true, we := true, addr := addr, data := x }) =
      (switches c).write addr x := by
  simp only [switches, Switches.write, Csr.State.clock, Csr.State.step, Bool.false_eq_true,
    if_false, Bool.true_and, beq_iff_eq]

omit hs hr hf ht in
theorem switches_rest (c : Csr.State) : switches c.rest = switches c := by
  simp only [switches, Csr.State.rest, Csr.State.clock, Csr.State.step, Bool.false_eq_true,
    if_false, Bool.false_and]

omit hs hr hf ht in
theorem switches_read (c : Csr.State) (addr : BitVec 12) :
    switches (c.clock { en := true, addr := addr }) = switches c := by
  simp only [switches, Csr.State.clock, Csr.State.step, Bool.false_eq_true, if_false,
    Bool.false_and]

omit hs hr hf ht in
/-- The random source has no control bit and no word. -/
theorem rnd_write {addr : BitVec 12} (ha : csrIndex addr = mRnd) (e : Switches) (x : BitVec 32) :
    e.write addr x = e := by
  have hne : addr ≠ msrMstatus ∧ addr ≠ msrMie ∧ addr ≠ msrMtags := by
    refine ⟨?_, ?_, ?_⟩ <;> rintro rfl <;> exact absurd ha (by decide)
  simp only [Switches.write, hne, if_false]

omit hs hr hf ht in
theorem rnd_writeWord {addr : BitVec 12} (ha : csrIndex addr = mRnd) (m : BitVec 4 → BitVec 32)
    (x : BitVec 32) : writeWord m addr x = m := by
  rw [writeWord, ha, if_neg (by decide)]

omit ht in
theorem csr_step {c : ℕ} {w : BitVec 32} (h : SystemClock r mem t c w)
    (hk : systemKind (r.state c).dec = .csr) (heven : BitSlices.IsEven ((r.state t).pc + instrLen w)) :
    ∃ n k, NextBoundary r t n ∧ t < k ∧ k < n ∧ (r.state k).samplesPort = true ∧
      view r mem n = (view r mem t).csrAccess (decode w) (instrLen w) (r.state k).csr.dataOut := by
  have hu := hs.undisturbed hr
  have hc : ∀ n, Coherent (r.state n) := fun n => (hf n).toCoherent
  have hstage := ((hf c).stage .toSystem (by rw [h.state]; rfl)).1
  have hdec : (r.state c).dec = decode w := by rw [State.dec, h.word]
  have hrun := csr_run (fun n _ => hc n) (fun n _ => hu n) h.state hk hstage
  have hquiet : ∀ k, c ≤ k → k < c + 6 → _ := fun k h₁ h₂ =>
    csr_quiet (fun n _ => hc n) (fun n _ => hu n) h.state hk hstage h₁ h₂
  have hb := (hc c).csr_free (by rw [h.state]; rfl)
  have hw := (hc c).csr_we_free (by rw [h.state]; rfl)
  have hfile : (r.state c).csr.settled = (r.state t).csr.ram.mem :=
    (settled_of_not_we _ hw).trans h.file
  have hport : (r.state (c + 2)).csr.dataOut = (r.state c).csrRead.rest.dataOut := by
    rw [csr_clock2 (fun n _ => hc n) (fun n _ => hu n) h.state hk]
  have hsample : (r.state (c + 2)).samplesPort = true := by
    rw [State.samplesPort, csr_clock2 (fun n _ => hc n) (fun n _ => hu n) h.state hk]
    simp
  have haddr : (r.state c).csrAddr = (decode w).imm.extractLsb' 0 12 := by
    rw [State.csrAddr, hdec]
  have hboundary : (r.state (c + 6)).atBoundary = true := by
    rw [State.atBoundary, hrun]
    dsimp only
    split_ifs <;> rfl
  -- the word read, and what a write of the new one leaves
  have hold : (if csrIndex (r.state c).csrAddr = mRnd then (r.state (c + 2)).csr.dataOut
      else (r.state t).csr.ram.mem (csrIndex (r.state c).csrAddr)) =
      (r.state c).csrRead.rest.dataOut := by
    split_ifs with hrnd
    · exact hport
    · rw [(csr_port hb hw hrnd).1, hfile]
  have hnew : ∀ f, (switches (r.state t).csr).write (r.state c).csrAddr
        (csrNew (decode w).funct3 (decode w).rs1 f (r.state c).csrHeld.dataOut) =
      (switches (r.state t).csr).write (r.state c).csrAddr
        (csrNew (decode w).funct3 (decode w).rs1 f (r.state c).csrRead.rest.dataOut) ∧
      writeWord (r.state t).csr.ram.mem (r.state c).csrAddr
        (csrNew (decode w).funct3 (decode w).rs1 f (r.state c).csrHeld.dataOut) =
      writeWord (r.state t).csr.ram.mem (r.state c).csrAddr
        (csrNew (decode w).funct3 (decode w).rs1 f (r.state c).csrRead.rest.dataOut) := by
    intro f
    by_cases hrnd : csrIndex (r.state c).csrAddr = mRnd
    · simp only [rnd_write hrnd, rnd_writeWord hrnd, and_self]
    · obtain ⟨h₁, h₂⟩ := csr_port hb hw hrnd
      rw [h₁, h₂]
      exact ⟨rfl, rfl⟩
  refine ⟨c + 6, c + 2, h.nextBoundary (by omega) hboundary fun j hj hjn => (hquiet j hj.le hjn).2.2,
    h.later.trans (by omega), by omega, hsample, ?_⟩
  · simp only [Machine.State.csrAccess, ← haddr]
    apply view_eq <;> simp only [view, arch, hold]
    · rw [hrun, State.writeRd, h.regs, hdec]
    · rw [hrun, h.next, BitSlices.and_not_one heven]
    · exact (hs.mem_const hc (by omega) fun j h₁ h₂ => (hquiet j h₁ h₂).2.1).trans h.mem
    · rw [← settled_of_not_we _ ((hc (c + 6)).csr_we_boundary hboundary), hrun,
        csrWritten_settled hb hw, hfile, hdec, h.operand, (hnew _).2]
    · have hsw : switches (r.state c).csrHeld = switches (r.state t).csr := by
        rw [State.csrHeld, switches_rest, switches_rest, State.csrRead, switches_read, h.switches]
      rw [hrun]
      simp only [switches_rest, State.csrWritten, switches_clock, hsw, hdec, h.operand, (hnew _).1]
    · rw [hrun]; exact h.finished

/-! ## Words that the decoder does not know -/

/-- With a shift in them they never end. -/
theorem illegal_hangs {e : ℕ} {w : BitVec 32} (hte : t < e) (hx : ReachedExec r mem t e w)
    (hst : (decode w).execNextStage = .toTrap) (hsh : (decode w).aluOper.isShift = true) {n : ℕ}
    (hn : t < n) : (r.state n).atBoundary = false := by
  have hun := hx.unchanged hf ht hte
  rcases Nat.lt_or_ge e n with hlt | hge
  · have hdec : (r.state e).dec = decode w := by rw [State.dec, hx.word]
    have hstuck := illegal_stuck (fun n _ => (hf n).toCoherent) (fun n _ => hs.undisturbed hr n)
      hx.state (by rw [hdec]; exact hst) (by rw [State.startsShift, hdec]; exact hsh) hlt
    rw [State.atBoundary, hstuck.1]
    rfl
  · exact hun.inside n hn hge

theorem illegal_step {e : ℕ} {w : BitVec 32} (hte : t < e) (hx : ReachedExec r mem t e w)
    (hst : (decode w).execNextStage = .toTrap) (hsh : (decode w).aluOper.isShift = false) :
    ∃ n k, NextBoundary r t n ∧ t < k ∧ k < n ∧ (r.state k).samplesPort = true ∧
      view r mem n = (view r mem t).illegal (decode w) (r.state k).csr.dataOut := by
  have hu := hs.undisturbed hr
  have hc : ∀ n, Coherent (r.state n) := fun n => (hf n).toCoherent
  have hun := hx.unchanged hf ht hte
  obtain ⟨hdec, hop₁, hop₂⟩ := hx.operands
  have hst' : (r.state e).dec.execNextStage = .toTrap := by rw [hdec]; exact hst
  have hsh' : (r.state e).startsShift = false := by rw [State.startsShift, hdec]; exact hsh
  have hcw := (hc e).csr_we_free (by rw [hx.state]; rfl)
  obtain ⟨h₁, h₂, -, h₃⟩ := illegal_run (fun n _ => hc n) (fun n _ => hu n) hx.state hst' hsh'
  -- the port two clocks later
  have hupdate := illegal_update (fun n _ => hc n) (fun n _ => hu n) hx.state hst' hsh'
  have hsample : (r.state (e + 2)).samplesPort = true := by
    rw [State.samplesPort, hupdate]
    simp
  have hport : (r.state (e + 2)).csr.dataOut = (r.state e).lastCsr := by
    rw [hupdate, State.lastCsr, ← settled_of_not_we _ hcw]
    rfl
  have hboundary : (r.state (e + 3)).atBoundary = true := by
    rw [State.atBoundary, h₃]
    dsimp only
    split_ifs <;> rfl
  have hstates : ∀ j, e ≤ j → j < e + 3 → (r.state j).state = .exec ∨ (r.state j).state = .trap ∨
      (r.state j).state = .updatePc := by
    intro j hj hjn
    rcases (by omega : j = e ∨ j = e + 1 ∨ j = e + 2) with rfl | rfl | rfl
    · exact Or.inl hx.state
    · exact Or.inr (Or.inl h₁)
    · exact Or.inr (Or.inr h₂)
  refine ⟨e + 3, e + 2, hun.nextBoundary (by omega) hboundary fun j hj hjn => ?_, by omega, by omega,
    hsample, ?_⟩
  · rw [State.atBoundary]
    rcases hstates j hj.le hjn with h | h | h <;> rw [h] <;> rfl
  · apply view_eq
    · rw [hdec, hop₁, hop₂] at h₃
      rw [h₃]
      simp only [Machine.State.illegal, State.writeRd, hun.regs, hdec]
      cases (decode w).writebackFromAlu <;> cases (decode w).writebackFromImm <;>
        first | rfl | exact hun.regs
    · rw [h₃, hport]; rfl
    · refine (hs.mem_const hc (by omega) fun j h₁ h₂ => ?_).trans hun.mem
      rcases hstates j h₁ h₂ with h | h | h <;> rw [h] <;> rfl
    · rw [h₃]
      exact (rest_rest_rest_mem hcw).trans hun.file
    · rw [h₃]
      simp only [switches_rest]
      exact hun.switches
    · rw [h₃]; exact hun.finished

/-! ## Plain instructions -/

theorem plain_step (hq : Unstepped r) (hno : Uninterrupted r t)
    (hrun : (r.state t).testFinished = false)
    (hst : plainStage (decode (fetched D (arch r mem t))).execNextStage = true) :
    ∃ n clear, NextBoundary r t n ∧ (clear = true ↔ ClearedIn r t n) ∧
      view r mem n = (view r mem t).plain D (decode (fetched D (arch r mem t)))
        (instrLen (fetched D (arch r mem t))) clear := by
  have hu := hs.undisturbed hr
  have hc : ∀ n, Coherent (r.state n) := fun n => (hf n).toCoherent
  obtain ⟨e, hte, hx⟩ := exec_run hs hr hc ht hno
  have hun := hx.unchanged hf ht hte
  obtain ⟨n, htn, hret, hpath⟩ := plain_run hs hr hc hq ht hno hrun hst (Alu.yields_value _ _ _)
  have hdec : (r.state e).dec = decode (fetched D (arch r mem t)) := by rw [State.dec, hx.word]
  have hst' : plainStage (r.state e).dec.execNextStage = true := by rw [hdec]; exact hst
  have hsys : (r.state e).dec.execNextStage ≠ .toSystem := by
    intro h
    rw [h] at hst'
    exact absurd hst' (by decide)
  -- the boundary comes after the execute clock and the one behind it
  have hboundary : (r.state n).atBoundary = true := by rw [State.atBoundary, hret.state]; rfl
  have hnext : (r.state (e + 1)).state ≠ .preFetch := by
    rw [r.next, step_exec (hc e) (hu e) hx.state]
    cases (r.state e).dec.execNextStage <;> simp [State.execNextState]
  have hen : e + 2 ≤ n := by
    by_contra hlt
    rcases (by omega : n ≤ e ∨ n = e + 1) with h | h
    · exact absurd hboundary (by simp [hun.inside n htn h])
    · exact hnext (h ▸ hret.state)
  have hrest : ∀ k, e ≤ k → k < n → (r.state k).state ≠ .preFetch :=
    fun k hk hkn => hpath k (by omega) hkn
  have hfin : (r.state e).testFinished = false := hun.finished.trans hrun
  obtain ⟨clear, hseen, hfile, hirq, hens⟩ := plain_csr hc hu hq hx.state hfin hrest hen hst'
  refine ⟨n, clear, hun.nextBoundary (by omega) hboundary fun k hk hkn => ?_,
    hseen.trans ⟨?_, ?_⟩, ?_⟩
  · obtain ⟨-, hin, -⟩ := phase_run hc hu hq hx.state hfin hrest hsys hk.le hkn
    rw [State.atBoundary]
    revert hin
    cases (r.state k).state <;> cases (r.state e).dec.execNextStage <;> decide
  · rintro ⟨k, hk, hkn, hline⟩
    exact ⟨k, by omega, hkn, hline⟩
  · -- a store looks at the line after its execute clock
    rintro ⟨k, hk, hkn, hsample, hline⟩
    refine ⟨k, ?_, hkn, hsample, hline⟩
    by_contra hle
    rcases Nat.eq_or_lt_of_le (Nat.le_of_not_lt hle) with rfl | hlt
    · simp [State.samplesClear, hx.state] at hsample
    · have hpath := hx.path k hk hlt
      revert hpath hsample
      rw [State.samplesClear]
      cases (r.state k).state <;> simp [MainState.fetching]
  · apply view_eq
    · exact congrArg Rv32.State.regs hret.arch
    · exact congrArg Rv32.State.pc hret.arch
    · exact congrArg Rv32.State.mem hret.arch
    · rw [← settled_of_not_we _ ((hc n).csr_we_boundary hboundary), hfile, hdec,
        settled_of_not_we _ ((hc e).csr_we_free (by rw [hx.state]; rfl)), hun.file]
      rfl
    · exact (switches_eq hirq hens).trans hun.switches
    · exact hret.running.trans hrun.symm

/-! ## Any instruction -/

theorem system_step (hrun : (r.state t).testFinished = false) {e : ℕ} {w : BitVec 32} (hte : t < e)
    (hx : ReachedExec r mem t e w) (hst : (decode w).execNextStage = .toSystem) :
    ∃ n, NextBoundary r t n ∧ ∀ l, Seen r t n l →
      (view r mem t).system (decode w) (instrLen w) l = view r mem n := by
  have hsys := hx.system hs hr hf ht hte hst
  have hdec : (r.state (e + 1)).dec = decode w := by rw [State.dec, hsys.word]
  have heven : BitSlices.IsEven ((r.state t).pc + instrLen w) := by
    refine BitSlices.even_add (hf t).even ?_
    unfold instrLen
    split_ifs <;> simp
  have hgoing : (view r mem t).finished = false := hrun
  have hsame : ∀ cause timer, { (view r mem t).enterTrap cause timer with finished := false } =
      (view r mem t).enterTrap cause timer := by
    intro cause timer
    rw [← hgoing]
    rfl
  -- what the three instructions that raise a trap have in common
  have hraise : ∀ cause fin, (r.state (e + 1)).controlSystem = State.controlRaise cause fin →
      ∃ n, NextBoundary r t n ∧ ∀ l, Seen r t n l →
        { (view r mem t).enterTrap cause l.timer with finished := fin } = view r mem n := by
    intro cause fin hk
    obtain ⟨n, k, hn, hk₁, hk₂, hsample, hview⟩ := raise_step hs hr hf hsys hk hrun
    refine ⟨n, hn, fun l hl => ?_⟩
    rw [hview, hl.timer_eq (fun t => (hf t).toCoherent) (hs.undisturbed hr) hn hk₁ hk₂ hsample]
  unfold Machine.State.system
  cases hk : systemKind (decode w) with
  | ecall =>
      refine hraise causeEcall ((r.state t).regs.regfile 2#5 == 0#32) ?_
      rw [State.controlSystem, hdec, hk, Registers.State.flags, hsys.regs]
  | ebreak =>
      obtain ⟨n, hn, hview⟩ := hraise causeBreak false (by rw [State.controlSystem, hdec, hk])
      exact ⟨n, hn, fun l hl => (hsame _ _).symm.trans (hview l hl)⟩
  | invalid =>
      obtain ⟨n, hn, hview⟩ := hraise causeInvalidInstruction false (by
        rw [State.controlSystem, hdec, hk])
      exact ⟨n, hn, fun l hl => (hsame _ _).symm.trans (hview l hl)⟩
  | wfi =>
      obtain ⟨n, hn, hview⟩ := wfi_step hs hr hf hsys (by rw [hdec]; exact hk) heven
      exact ⟨n, hn, fun _ _ => hview.symm⟩
  | mret =>
      obtain ⟨n, hn, hview⟩ := mret_step hs hr hf hsys (by rw [hdec]; exact hk)
      exact ⟨n, hn, fun _ _ => hview.symm⟩
  | csr =>
      obtain ⟨n, k, hn, hk₁, hk₂, hsample, hview⟩ :=
        csr_step hs hr hf hsys (by rw [hdec]; exact hk) heven
      refine ⟨n, hn, fun l hl => ?_⟩
      rw [hview, ← hl.port k hk₁ hk₂ hsample]

theorem execute_step (hq : Unstepped r) (hrun : (r.state t).testFinished = false)
    (hno : Uninterrupted r t) :
    (∃ n, NextBoundary r t n ∧ ∀ l, Seen r t n l →
      (view r mem t).execute D l = some (view r mem n)) ∨
    ((view r mem t).endless D = true ∧ ∀ n, t < n → (r.state n).atBoundary = false) := by
  obtain ⟨e, hte, hx⟩ := exec_run hs hr (fun t => (hf t).toCoherent) ht hno
  have hnever : (decode (fetched D (arch r mem t))).execNextStage ≠ .toDead := by
    intro hst
    have hdec : (r.state e).dec = decode (fetched D (arch r mem t)) := by rw [State.dec, hx.word]
    have hused := execNextState_used (r.state e)
    rw [hdec, hst] at hused
    exact absurd hused (by decide)
  by_cases hplain : plainStage (decode (fetched D (arch r mem t))).execNextStage = true
  · obtain ⟨n, clear, hn, hclear, hview⟩ := plain_step hs hr hf ht hq hno hrun hplain
    refine Or.inl ⟨n, hn, fun l hl => ?_⟩
    have heq : l.clear = clear := Bool.eq_iff_iff.mpr (hl.clear.trans hclear.symm)
    rw [← heq] at hview
    exact (execute_of_plain (s := view r mem t) hplain).trans (congrArg some hview.symm)
  cases hst : (decode (fetched D (arch r mem t))).execNextStage with
  | toSystem =>
      obtain ⟨n, hn, hview⟩ := system_step hs hr hf ht hrun hte hx hst
      refine Or.inl ⟨n, hn, fun l hl => ?_⟩
      exact (execute_of_system (s := view r mem t) hst).trans (congrArg some (hview l hl))
  | toTrap =>
      cases hsh : (decode (fetched D (arch r mem t))).aluOper.isShift with
      | true =>
          refine Or.inr ⟨?_, fun n hn => illegal_hangs hs hr hf ht hte hx hst hsh hn⟩
          rw [Machine.State.endless, show (view r mem t).toState = arch r mem t from rfl, hst, hsh]
          rfl
      | false =>
          obtain ⟨n, k, hn, hk₁, hk₂, hsample, hview⟩ := illegal_step hs hr hf ht hte hx hst hsh
          refine Or.inl ⟨n, hn, fun l hl => ?_⟩
          rw [← hl.port k hk₁ hk₂ hsample] at hview
          exact (execute_of_trap (s := view r mem t) hst hsh).trans (congrArg some hview.symm)
  | toDead => exact absurd hst hnever
  | toFetch | toLoad | toStore | toBranch => exact absurd (by rw [hst]; rfl) hplain

/-- From one boundary to the next, or never again. The lines decide between the instruction and
an interrupt. -/
theorem machine_step (hq : Unstepped r) (hrun : (r.state t).testFinished = false) :
    (∃ l n, NextBoundary r t n ∧ Seen r t n l ∧
      (view r mem t).step D l = some (view r mem n)) ∨
    ((view r mem t).endless D = true ∧ ∀ n, t < n → (r.state n).atBoundary = false) := by
  have hc : ∀ t, Coherent (r.state t) := fun t => (hf t).toCoherent
  have hu := hs.undisturbed hr
  obtain ⟨d, hun, hd, honce, -⟩ := decode_clock hs hr hf ht
  have hgoing : (view r mem t).finished = false := hrun
  -- the machine takes an interrupt where the decode clock does
  have htake : ∀ n l, NextBoundary r t n → Seen r t n l →
      (view r mem t).interrupted l = (r.state d).takesInterrupt (r.input d) ∧
      (view r mem t).interruptCause l.irqTimer l.irqTags =
        (r.state d).interruptCause (r.input d) := by
    intro n l hn hl
    obtain ⟨h₁, h₂⟩ := hl.irq_eq hc hu hn hun.later hd honce
    rw [Machine.State.interrupted, Machine.State.interruptCause, h₁, h₂, State.takesInterrupt,
      State.interruptOccured, State.interruptCause]
    simp only [view, ← hun.switches]
    exact ⟨rfl, rfl⟩
  have hlines : ∀ n, NextBoundary r t n → ∃ l, Seen r t n l := fun n hn =>
    exists_seen hc hu hn hun.later (hn.inside_lt hun.inside) hd
  cases hi : (r.state d).takesInterrupt (r.input d) with
  | true =>
      obtain ⟨n, k, hn, hk₁, hk₂, hsample, hview⟩ := interrupt_step hs hr hf hun hd hi
      obtain ⟨l, hl⟩ := hlines n hn
      obtain ⟨h₁, h₂⟩ := htake n l hn hl
      refine Or.inl ⟨l, n, hn, hl, (step_interrupt hgoing (h₁.trans hi)).trans ?_⟩
      rw [hview, h₂, hl.timer_eq hc hu hn hk₁ hk₂ hsample]
  | false =>
      have hno := uninterrupted_of_decode hs hr hf hun hd honce hi
      refine (execute_step hs hr hf ht hq hrun hno).imp_left ?_
      rintro ⟨n, hn, hview⟩
      obtain ⟨l, hl⟩ := hlines n hn
      exact ⟨l, n, hn, hl, (step_execute hgoing ((htake n l hn hl).1.trans hi)).trans (hview l hl)⟩

omit hs hr hf ht in
theorem testFinished_of_step {s : State} {i : Inputs} (hr : i.rst = false)
    (h : (s.step v i).testFinished = false) : s.testFinished = false := by
  refine Bool.eq_false_iff.mpr fun hs => ?_
  simp [State.step, hr, hs] at h

omit hf in
/-- Where the test goes on, a boundary is the start of an instruction. -/
theorem NextBoundary.preFetch (hc : ∀ t, Coherent (r.state t)) (hq : Unstepped r) {n : ℕ}
    (h : NextBoundary r t n) (hrun : (r.state n).testFinished = false) :
    (r.state n).state = .preFetch := by
  have hu := hs.undisturbed hr
  obtain ⟨m, rfl⟩ : ∃ m, n = m + 1 := ⟨n - 1, by have := h.1; omega⟩
  have hidle : (r.state m).state ≠ .cpuIdle := by
    rcases Nat.eq_or_lt_of_le (Nat.lt_succ_iff.mp h.1) with rfl | hlt
    · rw [ht]; decide
    · intro hm
      have hb := h.2.2 m hlt (Nat.lt_succ_self m)
      rw [State.atBoundary, hm] at hb
      exact absurd hb (by decide)
  have hm : (r.state m).testFinished = false :=
    testFinished_of_step (v := v) (hu m).rst (by rw [← r.next m]; exact hrun)
  have hno := not_idle_step (v := v) (hc m) (hu m).rst (hq m) hm hidle
  rw [← r.next m] at hno
  have hb := h.2.1
  simpa [State.atBoundary, hno] using hb

end run

/-! ## Whole runs -/

/-- The boundaries from clock `t` to clock `n`, with the lines that were seen between them. -/
inductive Passes (r : Run (State.step v)) : ℕ → List Lines → ℕ → Prop
  | none (t : ℕ) : Passes r t [] t
  | next {t m n : ℕ} {l : Lines} {ls : List Lines} (hm : NextBoundary r t m) (hl : Seen r t m l)
      (h : Passes r m ls n) : Passes r t (l :: ls) n

/-- The processor follows the machine from boundary to boundary. It stops short of `N`
instructions only if a test is finished, or at a word that keeps it busy for ever. -/
theorem follows_machine {D : Device M} {r : Run (State.step v)} {mem : ℕ → M}
    (hs : Slave D r mem) (hr : Running r) (hq : Unstepped r) (hf : ∀ t, Flow (r.state t)) (N : ℕ)
    {t : ℕ} (ht : (r.state t).state = .preFetch) (hrun : (r.state t).testFinished = false) :
    ∃ ls n, ls.length ≤ N ∧ Passes r t ls n ∧ (view r mem t).run D ls = some (view r mem n) ∧
      (ls.length < N → (view r mem n).finished = true ∨
        (view r mem n).endless D = true ∧ ∀ m, n < m → (r.state m).atBoundary = false) := by
  induction N generalizing t with
  | zero => exact ⟨[], t, le_rfl, .none t, rfl, fun h => absurd h (Nat.not_lt_zero _)⟩
  | succ N ih =>
      rcases machine_step hs hr hf ht hq hrun with ⟨l, m, hm, hl, hstep⟩ | hstuck
      · cases hfin : (r.state m).testFinished with
        | true =>
            refine ⟨[l], m, by simp, .next hm hl (.none m), ?_, fun _ => Or.inl hfin⟩
            rw [Machine.State.run, hstep]
            rfl
        | false =>
            have hpre := hm.preFetch hs hr ht (fun t => (hf t).toCoherent) hq hfin
            obtain ⟨ls, n, hlen, hpass, hall, hend⟩ := ih hpre hfin
            refine ⟨l :: ls, n, by simpa using hlen, .next hm hl hpass, ?_, fun h =>
              hend (by simpa using h)⟩
            rw [Machine.State.run, hstep]
            exact hall
      · exact ⟨[], t, Nat.zero_le _, .none t, rfl, fun _ => Or.inr hstuck⟩

/-- Every run of the processor on a bus slave, from a boundary on. -/
theorem processor_follows_machine {D : Device M} {r : Run (State.step v)} {mem : ℕ → M}
    (hs : Slave D r mem) (hr : Running r) (hq : Unstepped r) (h0 : Flow (r.state 0))
    (hpre : (r.state 0).state = .preFetch) (hrun : (r.state 0).testFinished = false) (N : ℕ) :
    ∃ ls n, ls.length ≤ N ∧ Passes r 0 ls n ∧ (view r mem 0).run D ls = some (view r mem n) ∧
      (ls.length < N → (view r mem n).finished = true ∨
        (view r mem n).endless D = true ∧ ∀ m, n < m → (r.state m).atBoundary = false) :=
  follows_machine hs hr hq (Running.flow (hs.undisturbed hr) h0) N hpre hrun

/-- A store, with the timer's line high and a slave that answers every third clock. -/
def pendingStore : Run (State.step 0#32) :=
  benchRun Refinement.byteDevice Refinement.thirdClock
    { Refinement.quietInputs with timerInterrupt := true } 0#32
    (restState (fun r => if r = 1#5 then 5#32 else 0#32) 2#32) Refinement.straddlingStore

def pendingStoreMem : ℕ → Rv32.Word → Rv32.Byte :=
  benchMem Refinement.byteDevice Refinement.thirdClock
    { Refinement.quietInputs with timerInterrupt := true } 0#32
    (restState (fun r => if r = 1#5 then 5#32 else 0#32) 2#32) Refinement.straddlingStore

theorem processor_follows_machine_store : ∃ ls n, ls.length ≤ 3 ∧ Passes pendingStore 0 ls n ∧
    (view pendingStore pendingStoreMem 0).run Refinement.byteDevice ls =
      some (view pendingStore pendingStoreMem n) ∧
    (ls.length < 3 → (view pendingStore pendingStoreMem n).finished = true ∨
      (view pendingStore pendingStoreMem n).endless Refinement.byteDevice = true ∧
        ∀ m, n < m → (pendingStore.state m).atBoundary = false) :=
  processor_follows_machine (benchRun_slave _ _ _ Refinement.thirdClock_recurs _ _)
    ⟨fun _ => rfl, fun _ => rfl⟩ (fun _ => rfl) (restState_flow (by decide) (by decide)) rfl rfl 3

end TagSoc.Cpu
