import TagSoc.IllegalRun

/-!
# What a reset leaves behind

`RST_I` clears four of the five control bits that the CSR block keeps next to
its memory. It does not clear the memory, nor the fifth bit, nor the registers
of the bus interface. So after a reset the bits that are enforced need not be
those that software reads, and what happened before can still be told apart.
-/
namespace TagSoc.Cpu
open Clocked CpuBus Csr Decoder

variable {v : BitVec 32} {s : State} {i : Inputs}

/-! ## Control bits and stored words -/

/-- What software reads is what the hardware enforces. -/
structure Agrees (c : Csr.State) : Prop where
  irqEn : c.irqEn = (c.ram.mem mStatus).getLsbD 3
  irqTimerEn : c.irqTimerEn = (c.ram.mem mIe).getLsbD 7
  tagsEn : c.tagsEn = (c.ram.mem mTags).getLsbD 0
  tagsIfEn : c.tagsIfEn = (c.ram.mem mTags).getLsbD 2
  tagsSkipSpEn : c.tagsSkipSpEn = (c.ram.mem mTags).getLsbD 3

/-- A sequencer is about to store `mstatus`. -/
def State.storesStatus (s : State) : Prop :=
  s.trapState = .storeStatus ∨ s.mretState = .storeStatus

/-- The same with the write in flight finished, in every state. Between the two
clocks of a sequencer's store to `mstatus` the enable runs ahead. -/
structure Mirrors (s : State) : Prop where
  irq : s.csr.irqEn = (s.csr.settled mStatus).getLsbD 3 ∨ s.storesStatus ∧ s.csr.busy = false
  timer : s.csr.irqTimerEn = (s.csr.settled mIe).getLsbD 7
  tags : s.csr.tagsEn = (s.csr.settled mTags).getLsbD 0
  tagsIf : s.csr.tagsIfEn = (s.csr.settled mTags).getLsbD 2

def SkipMirrors (s : State) : Prop := s.csr.tagsSkipSpEn = (s.csr.settled mTags).getLsbD 3

section step
variable (h : Coherent s)
include h

/-- Writes to the other two mirrored addresses all take effect. -/
theorem csrRequest_taken (hw : (s.csrRequest i).we = true) (hm : mirrored (s.csrRequest i).addr = true)
    (hne : (s.csrRequest i).addr ≠ msrMstatus) :
    s.csr.busy = false ∧ (s.csrRequest i).en = true := by
  rcases csrRequest_we h hw hm with ⟨-, -, ha⟩ | ⟨-, ha⟩ | hok
  · exact absurd ha hne
  · exact absurd ha hne
  · exact hok

theorem mirror_tags (b : ℕ) {flag : Bool} (hf : flag = (s.csr.settled mTags).getLsbD b) :
    (if (s.csrRequest i).we && (s.csrRequest i).addr == msrMtags
      then (s.csrRequest i).data.getLsbD b else flag) =
      ((s.csr.clock (s.csrRequest i)).settled mTags).getLsbD b := by
  refine mirror_clock msrMtags b (R := Eq) (fun _ => rfl) (by decide) (by decide) h.csr_we
    (fun _ => hf) fun hw ha => Or.inl ?_
  exact csrRequest_taken h hw (by rw [ha]; rfl) (by rw [ha]; decide)

/-- A sequencer's store to `mstatus`, as a request. -/
theorem csrRequest_of_stores (hs : s.storesStatus) :
    (s.csrRequest i).en = true ∧ (s.csrRequest i).we = true ∧
      (s.csrRequest i).addr = msrMstatus := by
  rcases hs with hs | hs
  · have ht : s.handlingTrap = true := by
      rw [State.handlingTrap, hs]
      rfl
    simp [State.csrRequest, ht, State.trapCsr, hs]
  · rw [csrRequest_of_mret h (by rw [State.handlingMret, hs]; rfl), State.mretCsr, hs]
    exact ⟨rfl, rfl, rfl⟩

theorem Mirrors.step (hm : Mirrors s) (u : Undisturbed s i) : Mirrors (s.step v i) := by
  have hcsr := step_csr_eq (v := v) (s := s) u.rst
  constructor
  case irq =>
    rw [hcsr]
    by_cases hst : s.storesStatus
    · cases hb : s.csr.busy with
      | true =>
          -- the request is dropped, and the sequencer presents it again
          refine Or.inr ⟨?_, by simp [hb]⟩
          simpa [State.storesStatus, State.step, u.rst, hb] using hst
      | false =>
          obtain ⟨hen, hwe, ha⟩ := csrRequest_of_stores (i := i) h hst
          refine Or.inl (mirror_clock msrMstatus 3 (R := Eq) (fun _ => rfl) (by decide) (by decide)
            h.csr_we (fun hno => ?_) fun _ _ => Or.inl ⟨hb, hen⟩)
          rw [hwe, ha] at hno
          exact absurd hno (by decide)
    · refine Or.inl (mirror_clock msrMstatus 3 (R := Eq) (fun _ => rfl) (by decide) (by decide)
        h.csr_we (fun _ => hm.irq.resolve_right fun hs => hst hs.1) fun hw ha => Or.inl ?_)
      rcases csrRequest_we h hw (by rw [ha]; rfl) with ⟨ht, -, -⟩ | ⟨ht, -⟩ | hok
      · exact absurd (Or.inl ht) hst
      · exact absurd (Or.inr ht) hst
      · exact hok
  case timer =>
    rw [hcsr]
    refine mirror_clock msrMie 7 (R := Eq) (fun _ => rfl) (by decide) (by decide) h.csr_we
      (fun _ => hm.timer) fun hw ha => Or.inl ?_
    exact csrRequest_taken h hw (by rw [ha]; rfl) (by rw [ha]; decide)
  case tags =>
    rw [hcsr]
    exact mirror_tags h 0 hm.tags
  case tagsIf =>
    rw [hcsr]
    exact mirror_tags h 2 hm.tagsIf

/-- The bit without a reset is never out of step. -/
theorem SkipMirrors.step (hm : SkipMirrors s) (hr : i.rst = false) : SkipMirrors (s.step v i) := by
  rw [SkipMirrors, step_csr_eq hr]
  exact mirror_tags h 3 hm

end step

theorem SkipMirrors.reset (hm : SkipMirrors s) (hr : i.rst = true) : SkipMirrors (s.step v i) := by
  rw [SkipMirrors, reset_settled hr, ← hm]
  simp [State.step, Csr.State.step, State.csrIn, hr]

/-- The bits of the words behind the control bits that a reset clears. -/
structure Cleared (m : BitVec 4 → BitVec 32) : Prop where
  mie : (m mStatus).getLsbD 3 = false
  mtie : (m mIe).getLsbD 7 = false
  lsen : (m mTags).getLsbD 0 = false
  icen : (m mTags).getLsbD 2 = false

theorem Cleared.mirrors (h : Cleared s.csr.settled) (hr : i.rst = true) : Mirrors (s.step v i) := by
  constructor
  case irq =>
    rw [reset_settled hr, h.mie]
    exact Or.inl (by simp [State.step, Csr.State.step, State.csrIn, hr])
  case timer =>
    rw [reset_settled hr, h.mtie]
    simp [State.step, Csr.State.step, State.csrIn, hr]
  case tags =>
    rw [reset_settled hr, h.lsen]
    simp [State.step, Csr.State.step, State.csrIn, hr]
  case tagsIf =>
    rw [reset_settled hr, h.icen]
    simp [State.step, Csr.State.step, State.csrIn, hr]

/-- Between instructions there is no write in flight and no sequencer at work. -/
theorem Mirrors.agrees (h : Coherent s) (hm : Mirrors s) (hk : SkipMirrors s)
    (hs : s.state = .preFetch) : Agrees s.csr := by
  have hfile := settled_of_not_we _ (h.csr_we_free (by rw [hs]; rfl))
  have hidle : ¬ s.storesStatus := by
    rintro (ht | ht)
    · rw [h.trap_idle (by simp [hs]) (by simp [hs])] at ht
      exact absurd ht (by decide)
    · rw [h.mret_idle (by simp [hs]) (by simp [hs])] at ht
      exact absurd ht (by decide)
  constructor <;> rw [← hfile]
  case irqEn => exact hm.irq.resolve_right fun hst => hidle hst.1
  case irqTimerEn => exact hm.timer
  case tagsEn => exact hm.tags
  case tagsIfEn => exact hm.tagsIf
  case tagsSkipSpEn => exact hk

/-- The CSR block at power-on. -/
structure PowerOn (c : Csr.State) : Prop where
  we : c.we = false
  irqEn : c.irqEn = false
  irqTimerEn : c.irqTimerEn = false
  tagsEn : c.tagsEn = false
  tagsIfEn : c.tagsIfEn = false
  tagsSkipSpEn : c.tagsSkipSpEn = false
  mem : ∀ k, c.ram.mem k = 0#32

theorem PowerOn.agrees {c : Csr.State} (h : PowerOn c) : Agrees c := by
  constructor <;> rw [h.mem]
  exacts [h.irqEn, h.irqTimerEn, h.tagsEn, h.tagsIfEn, h.tagsSkipSpEn]

section run
variable {r : Run (State.step v)} (hb : Booted r)
include hb

theorem Booted.skipMirrors (h0 : PowerOn (r.state 0).csr) (t : ℕ) : SkipMirrors (r.state t) := by
  induction t with
  | zero =>
      rw [SkipMirrors, settled_of_not_we _ h0.we]
      exact h0.agrees.tagsSkipSpEn
  | succ t ih =>
      rw [r.next]
      cases hr : (r.input t).rst with
      | true => exact ih.reset hr
      | false =>
          have ht : 0 < t := Nat.pos_of_ne_zero fun h => by simp [h, hb.reset] at hr
          exact ih.step (hb.flow ht).toCoherent hr

/-- After a clock without reset, if the words were clear in the last clock of
every reset before. -/
theorem Booted.mirrors
    (hclear : ∀ t, (r.input t).rst = true → (r.input (t + 1)).rst = false →
      Cleared (r.state t).csr.settled) (t : ℕ) (hr : (r.input t).rst = false) :
    Mirrors (r.state (t + 1)) := by
  induction t with
  | zero => simp [hb.reset] at hr
  | succ t ih =>
      have hold : Mirrors (r.state (t + 1)) := by
        cases hr' : (r.input t).rst with
        | true =>
            rw [r.next]
            exact (hclear t hr' hr).mirrors hr'
        | false => exact ih hr'
      have hf := hb.flow (Nat.succ_pos t)
      rw [r.next (t + 1)]
      exact hold.step hf.toCoherent ⟨hr, hb.halt _, hb.ack _⟩

end run

/-- Two clocks after the end of a reset, if no transfer is left over from
before, the first instruction starts with the control bits low and the words as
the reset found them. -/
theorem Booted.first_instruction {r : Run (State.step v)} (hb : Booted r) {t : ℕ}
    (hr : (r.input t).rst = true) (hr' : (r.input (t + 1)).rst = false)
    (hbus : (r.state (t + 1)).bus.busy = false) :
    (r.state (t + 2)).state = .preFetch ∧ (r.state (t + 2)).csr.busy = false ∧
      (r.state (t + 2)).csr.ram.mem = (r.state t).csr.settled ∧
      (r.state (t + 2)).csr.irqEn = false ∧ (r.state (t + 2)).csr.irqTimerEn = false ∧
      (r.state (t + 2)).csr.tagsEn = false ∧ (r.state (t + 2)).csr.tagsIfEn = false := by
  have hs : (r.state (t + 1)).state = .reset := by
    rw [r.next]
    exact step_state_of_rst hr
  have hc := (hb.flow (Nat.succ_pos t)).toCoherent
  have hu : Undisturbed (r.state (t + 1)) (r.input (t + 1)) := ⟨hr', hb.halt _, hb.ack _⟩
  have hlow : (r.state (t + 1)).csr.irqEn = false ∧ (r.state (t + 1)).csr.irqTimerEn = false ∧
      (r.state (t + 1)).csr.tagsEn = false ∧ (r.state (t + 1)).csr.tagsIfEn = false := by
    rw [r.next]
    simp [State.step, Csr.State.step, State.csrIn, hr]
  have hfile : (r.state (t + 1)).csr.settled = (r.state t).csr.settled := by
    rw [r.next]
    exact reset_settled hr
  rw [r.next (t + 1), step_reset hc hu hs, hbus]
  exact ⟨rfl, rest_busy _, hfile, hlow⟩

/-- The control bits agree with the stored words between all instructions of a
run whose resets all find the words clear. A reset that does not is followed by
an instruction for which they differ. -/
theorem control_bits_agree {r : Run (State.step v)} (hb : Booted r)
    (h0 : PowerOn (r.state 0).csr) :
    ((∀ t, (r.input t).rst = true → (r.input (t + 1)).rst = false →
        Cleared (r.state t).csr.settled) →
      ∀ t, (r.state t).state = .preFetch → (r.state t).csr.busy = false →
        Agrees (r.state t).csr) ∧
    (∀ t, (r.input t).rst = true → (r.input (t + 1)).rst = false →
      (r.state (t + 1)).bus.busy = false → ¬ Cleared (r.state t).csr.settled →
      (r.state (t + 2)).state = .preFetch ∧ (r.state (t + 2)).csr.busy = false ∧
        ¬ Agrees (r.state (t + 2)).csr) := by
  refine ⟨fun hclear t hs _ => ?_, fun t hr hr' hbus hset => ?_⟩
  · obtain _ | t := t
    · exact h0.agrees
    · have hr : (r.input t).rst = false := by
        refine Bool.eq_false_iff.mpr fun hr => ?_
        rw [r.next, step_state_of_rst hr] at hs
        exact absurd hs (by decide)
      have hf := hb.flow (Nat.succ_pos t)
      exact (hb.mirrors hclear t hr).agrees hf.toCoherent (hb.skipMirrors h0 _) hs
  · obtain ⟨hs, hbusy, hfile, hirq, htimer, htags, hif⟩ := hb.first_instruction hr hr' hbus
    refine ⟨hs, hbusy, fun hagree => hset ?_⟩
    rw [← hfile]
    exact ⟨hagree.irqEn.symm.trans hirq, hagree.irqTimerEn.symm.trans htimer,
      hagree.tagsEn.symm.trans htags, hagree.tagsIfEn.symm.trans hif⟩

/-- With a memory of zeros no word is ever written. -/
theorem control_bits_agree_zero_boot :
    let r := zeroBoot fun _ => 0#32
    ∀ t, (r.state t).state = .preFetch → (r.state t).csr.busy = false → Agrees (r.state t).csr := by
  intro r
  refine (control_bits_agree (zeroBoot_booted _) ⟨rfl, rfl, rfl, rfl, rfl, rfl, fun _ => rfl⟩).1
    fun t hr _ => ?_
  obtain rfl : t = 0 := of_decide_eq_true hr
  exact ⟨rfl, rfl, rfl, rfl⟩

/-- The processor in front of a memory that answers at once and holds the word
`w` everywhere. The resets are in clock 0 and in clock `n`; after the second one
nothing is answered. -/
def twiceReset (w : BitVec 32) (n : ℕ) : Run (State.step 4096#32) :=
  Run.closed _ (fun t s => ⟨t == 0 || t == n, decide (t < n) && s.bus.cyc, if t < n then w else 0#32,
    false, false, false, false, false, false⟩) { restState (fun _ => 0#32) 0#32 with state := .reset }

theorem twiceReset_booted (w : BitVec 32) (n : ℕ) : Booted (twiceReset w n) where
  vector := by decide
  power := ⟨rfl, rfl, rfl, fun h => absurd h Bool.false_ne_true⟩
  reset := rfl
  halt _ := rfl
  ack _ h := by
    have h : (_ && _) = true := h
    exact (Bool.and_eq_true_iff.mp h).2

/-- `csrrwi x0, mstatus, 8`, then a reset: the next instruction starts with the
interrupts disabled and bit 3 of `mstatus` set. -/
theorem control_bits_differ :
    let r := twiceReset 0x30045073#32 12
    Booted r ∧ PowerOn (r.state 0).csr ∧ (r.state 14).state = .preFetch ∧
      (r.state 14).csr.busy = false ∧ (r.state 14).csr.irqEn = false ∧
      ((r.state 14).csr.ram.mem mStatus).getLsbD 3 = true ∧ ¬ Agrees (r.state 14).csr := by
  intro r
  have hlow : (r.state 14).csr.irqEn = false := by decide
  have hbit : ((r.state 14).csr.ram.mem mStatus).getLsbD 3 = true := by decide
  refine ⟨twiceReset_booted _ _, ⟨rfl, rfl, rfl, rfl, rfl, rfl, fun _ => rfl⟩, by decide, by decide,
    hlow, hbit, fun h => ?_⟩
  have heq := h.irqEn
  rw [hlow, hbit] at heq
  exact Bool.false_ne_true heq

/-! ## Two histories -/

/-- The control outputs of the CSR block. -/
def controlOutputs (c : Csr.State) : Bool × Bool × Bool × Bool × Bool × Bool :=
  (c.irqEn, c.irqTimerEn, c.tagsEn, c.tagsIfEn, c.tagsSkipSpEn, c.tagsIrqClear)

/-- They follow from their own last values and the request lines. -/
theorem controlOutputs_step {c c' : Csr.State} {j : Csr.Inputs}
    (h : controlOutputs c = controlOutputs c') :
    controlOutputs (c.step j) = controlOutputs (c'.step j) := by
  simp only [controlOutputs, Prod.mk.injEq] at h ⊢
  obtain ⟨h₁, h₂, h₃, h₄, h₅, -⟩ := h
  simp only [Csr.State.step, h₁, h₂, h₃, h₄, h₅, and_self]

theorem controlOutputs_reset {c : Csr.State} {j : Csr.Inputs} (hr : j.rst = true) :
    controlOutputs (c.step j) = (false, false, false, false, c.tagsSkipSpEn, false) := by
  simp [controlOutputs, Csr.State.step, hr]

/-- A write on the bus. -/
def State.drivesWrite (s : State) : Prop := s.bus.cyc = true ∧ s.bus.we = true

/-- The clock with reset leaves a write on the bus: it starts one, or there is
one that is not answered. -/
def LeavesWrite (s : State) (i : Inputs) : Prop :=
  i.ack = false ∧ (s.state = .store1 ∨ s.bus.we = true)

instance (s : State) (i : Inputs) : Decidable (LeavesWrite s i) :=
  inferInstanceAs (Decidable (_ ∧ (_ ∨ _)))

/-- No write on the bus after clock `t` before the first store. -/
def WriteFree (r : Run (State.step v)) (t : ℕ) : Prop :=
  ∀ n, t < n → (∀ k, t < k → k < n → (r.state k).state ≠ .store1) → ¬ (r.state n).drivesWrite

theorem loadBusOp_write (f : BitVec 3) : (State.loadBusOp f).write = false := by
  unfold State.loadBusOp
  split_ifs <;> rfl

theorem storeBusOp_write (f : BitVec 3) : (State.storeBusOp f).write = true := by
  unfold State.storeBusOp
  split_ifs <;> rfl

/-- Writes are requested by the first store state and by no other. -/
theorem control_write (he : (s.control i).busEn = true) :
    (s.control i).busOp.write = true ↔ s.state = .store1 := by
  unfold State.control at he ⊢
  cases hs : s.state <;> rw [hs] at he
  case load1 => simp [State.controlLoad1, loadBusOp_write]
  case store1 => simp [State.controlStore1, storeBusOp_write]
  case preFetch | prepairUnalignedFetch => simp [BusOp.write]
  case system => simp [controlSystem_quiet] at he
  case updatePc => simp [controlUpdatePc_eq] at he
  all_goals exact absurd he Bool.false_ne_true

theorem step_drivesWrite :
    (s.step v i).drivesWrite ↔ i.ack = false ∧
      if (s.control i).busEn then s.state = .store1 else s.drivesWrite := by
  simp only [State.drivesWrite, State.step, CpuBus.State.step, State.busIn]
  by_cases ha : i.ack = true
  · simp [ha]
  · by_cases he : (s.control i).busEn = true
    · simpa [ha, he] using control_write he
    · simp [ha, he]

/-- For a coherent state the clock after a reset drives a write if the reset
left one. -/
theorem step_drivesWrite_iff (h : Coherent s) :
    (s.step v i).drivesWrite ↔ LeavesWrite s i := by
  rw [step_drivesWrite, LeavesWrite]
  refine and_congr_right fun _ => ?_
  by_cases he : (s.control i).busEn = true
  · -- a state that makes a request finds the bus free
    have hready := (control_busEn he).1
    have hfree : s.bus.busy = false := h.bus_free (by
      revert hready
      cases s.state <;> simp [MainState.ready, MainState.usesBus])
    have hfree : s.bus.we = false := Bool.eq_false_iff.mpr fun hw => by
      simpa [hfree] using h.bus_we hw
    simp [he, hfree]
  · have hst : s.state ≠ .store1 := by
      intro hs
      simp [State.control, hs, State.controlStore1] at he
    have hcyc : s.bus.we = true → s.bus.cyc = true := fun hw => by
      rw [h.cyc]
      exact h.bus_we hw
    simp only [he, hst, false_or, State.drivesWrite]
    exact ⟨fun hw => hw.2, fun hw => ⟨hcyc hw, hw⟩⟩

theorem writeFree_iff {r : Run (State.step v)} {t : ℕ} (h : Coherent (r.state t)) :
    WriteFree r t ↔ ¬ LeavesWrite (r.state t) (r.input t) := by
  constructor
  · intro hfree hleft
    refine hfree (t + 1) (Nat.lt_succ_self t) (fun k hk hlt => by omega) ?_
    rw [r.next]
    exact (step_drivesWrite_iff h).mpr hleft
  · intro hno n hn hst
    induction n, hn using Nat.le_induction with
    | base =>
        rw [Nat.succ_eq_add_one, r.next]
        exact fun hw => hno ((step_drivesWrite_iff h).mp hw)
    | succ n hn ih =>
        have hold := ih fun k hk hlt => hst k hk (Nat.lt_succ_of_lt hlt)
        rw [r.next, step_drivesWrite]
        rintro ⟨-, hw⟩
        split_ifs at hw
        · exact hst n hn (Nat.lt_succ_self n) hw
        · exact hold hw

/-- After a reset the control outputs and the bus are free of history exactly if
the one bit that has no reset is the same and no write is left on the bus. -/
theorem reset_erases_history_iff {r r' : Run (State.step v)} (hb : Booted r) (hb' : Booted r')
    {t t' : ℕ} (ht : 0 < t) (ht' : 0 < t') (hr : (r.input t).rst = true)
    (hr' : (r'.input t').rst = true) (hin : ∀ n, 0 < n → r.input (t + n) = r'.input (t' + n))
    (hreq : ∀ n, 0 < n → (r.state (t + n)).csrRequest (r.input (t + n)) =
      (r'.state (t' + n)).csrRequest (r'.input (t' + n))) :
    (∀ n, 0 < n → controlOutputs (r.state (t + n)).csr = controlOutputs (r'.state (t' + n)).csr) ∧
        WriteFree r t ∧ WriteFree r' t' ↔
      (r.state t).csr.tagsSkipSpEn = (r'.state t').csr.tagsSkipSpEn ∧
        ¬ LeavesWrite (r.state t) (r.input t) ∧ ¬ LeavesWrite (r'.state t') (r'.input t') := by
  have hreset : ∀ {q : Run (State.step v)} {k : ℕ}, (q.input k).rst = true →
      controlOutputs (q.state (k + 1)).csr =
        (false, false, false, false, (q.state k).csr.tagsSkipSpEn, false) := by
    intro q k hk
    rw [q.next]
    exact controlOutputs_reset hk
  rw [writeFree_iff (hb.flow ht).toCoherent, writeFree_iff (hb'.flow ht').toCoherent]
  refine and_congr_left fun _ => ⟨fun hall => ?_, fun hskip n hn => ?_⟩
  · have hone := hall 1 Nat.one_pos
    rw [hreset hr, hreset hr'] at hone
    simpa using hone
  · induction n, hn using Nat.le_induction with
    | base => rw [Nat.succ_eq_add_one, Nat.zero_add, hreset hr, hreset hr', hskip]
    | succ n hn ih =>
        rw [← Nat.add_assoc, ← Nat.add_assoc, r.next, r'.next]
        have hlines : (r.state (t + n)).csrIn (r.input (t + n)) =
            (r'.state (t' + n)).csrIn (r'.input (t' + n)) := by
          rw [State.csrIn, State.csrIn, hreq n hn, hin n hn]
        simp only [State.step, hlines]
        exact controlOutputs_step ih

/-- Waiting for the first instruction after a reset. -/
def State.starting (s : State) : Prop :=
  s.state = .reset ∨ s.state = .preFetch ∨ s.state = .fetch ∧ s.bus.busy = true

theorem State.starting.csrRequest (h : Coherent s) (hs : s.starting) : s.csrRequest i = {} := by
  have htrap : s.handlingTrap = false := Bool.eq_false_iff.mpr fun ht => by
    rcases hs with hs | hs | ⟨hs, -⟩ <;> simp [h.trap ht] at hs
  have hmret : s.handlingMret = false := Bool.eq_false_iff.mpr fun ht => by
    rcases hs with hs | hs | ⟨hs, -⟩ <;> simp [h.mret ht] at hs
  rcases hs with hs | hs | ⟨hs, -⟩ <;>
    simp [State.csrRequest, htrap, hmret, State.control, hs, State.controlFetch]

/-- Without an answer it does not come. -/
theorem State.starting.step (h : Coherent s) (u : Undisturbed s i) (ha : i.ack = false)
    (hs : s.starting) : (s.step v i).starting := by
  rcases hs with hs | hs | ⟨hs, hbusy⟩
  · rw [step_reset h u hs]
    by_cases hb : s.bus.busy = true <;> simp [State.starting, hb]
  · rw [step_preFetch h u hs]
    simp [State.starting, CpuBus.State.request]
  · rw [step_fetch h u hs, ha]
    simp [State.starting, hbusy]

theorem twiceReset_starting (w : BitVec 32) {n k : ℕ} (hk : n < k) (hn : 0 < n) :
    ((twiceReset w n).state k).starting := by
  have hb := twiceReset_booted w n
  refine (twiceReset w n).invariant (P := State.starting) (t := n + 1) ?_ ?_ k hk
  · rw [(twiceReset w n).next]
    refine Or.inl (step_state_of_rst ?_)
    simp [twiceReset, Run.closed]
  · intro m hm hs
    have hrst : ((twiceReset w n).input m).rst = false := by
      simp [twiceReset, Run.closed]
      omega
    have hack : ((twiceReset w n).input m).ack = false := by
      simp [twiceReset, Run.closed]
      omega
    exact hs.step (hb.flow (by omega)).toCoherent ⟨hrst, hb.halt m, hb.ack m⟩ hack

/-- After their second reset two such machines get the same inputs and make the
same requests, none. -/
theorem twiceReset_same (w w' : BitVec 32) {n : ℕ} (hn : 0 < n) :
    (∀ k, 0 < k → (twiceReset w n).input (n + k) = (twiceReset w' n).input (n + k)) ∧
      ∀ k, 0 < k →
        ((twiceReset w n).state (n + k)).csrRequest ((twiceReset w n).input (n + k)) =
          ((twiceReset w' n).state (n + k)).csrRequest ((twiceReset w' n).input (n + k)) := by
  refine ⟨fun k hk => ?_, fun k hk => ?_⟩
  · simp [twiceReset, Run.closed]
  · rw [(twiceReset_starting w (by omega) hn).csrRequest
        ((twiceReset_booted w n).flow (by omega)).toCoherent,
      (twiceReset_starting w' (by omega) hn).csrRequest
        ((twiceReset_booted w' n).flow (by omega)).toCoherent]

/-- A machine that has enabled interrupts and one that has run `nop`s. -/
theorem reset_erases_interrupt_enable :
    let r := twiceReset 0x30045073#32 12
    let r' := twiceReset 0x13#32 12
    ∀ n, 0 < n → controlOutputs (r.state (12 + n)).csr = controlOutputs (r'.state (12 + n)).csr := by
  intro r r'
  obtain ⟨hin, hreq⟩ := twiceReset_same 0x30045073#32 0x13#32 (n := 12) (by decide)
  exact ((reset_erases_history_iff (twiceReset_booted _ _) (twiceReset_booted _ _) (by decide)
    (by decide) rfl rfl hin hreq).mpr ⟨by decide, by decide, by decide⟩).1

/-- A machine that has run `csrrwi x0, tags, 8` and one that has run `nop`s. -/
theorem reset_keeps_skip_bit :
    let r := twiceReset 0x34545073#32 12
    let r' := twiceReset 0x13#32 12
    Booted r ∧ Booted r' ∧ (r.input 12).rst = true ∧ (r'.input 12).rst = true ∧
      (∀ n, 0 < n → r.input (12 + n) = r'.input (12 + n)) ∧
      (∀ n, 0 < n → (r.state (12 + n)).csrRequest (r.input (12 + n)) =
        (r'.state (12 + n)).csrRequest (r'.input (12 + n))) ∧
      (r.state 13).csr.tagsSkipSpEn = true ∧ (r'.state 13).csr.tagsSkipSpEn = false ∧
      ¬ ∀ n, 0 < n →
        controlOutputs (r.state (12 + n)).csr = controlOutputs (r'.state (12 + n)).csr := by
  intro r r'
  obtain ⟨hin, hreq⟩ := twiceReset_same 0x34545073#32 0x13#32 (n := 12) (by decide)
  refine ⟨twiceReset_booted _ _, twiceReset_booted _ _, rfl, rfl, hin, hreq, by decide, by decide,
    fun hall => ?_⟩
  exact absurd (hall 1 Nat.one_pos) (by decide)

end TagSoc.Cpu
