import TagSoc.CsrReads

/-!
# The processor and the memory

A request to the memory takes three clocks: it is on the bus in the first, is
acknowledged in the second, and in the third the processor has the answer. The
outcome of the tag comparison reaches the interrupt line one clock later, two
for a store of less than a word. The proofs about tag checks and about the
effect of loads and stores start from here.
-/
namespace TagSoc.Cpu
open Clocked CpuBus Csr

/-! ## The end of an instruction -/

section
variable {v : BitVec 32} {r : Run (State.step v)} (hc : ∀ n, Coherent (r.state n))
  (hu : ∀ n, Undisturbed (r.state n) (r.input n)) {m : ℕ}
include hc hu

/-- What the update state leaves behind at the boundary `n`. -/
structure Updated (r : Run (State.step v)) (m n : ℕ) : Prop where
  later : m < n ∧ n ≤ m + 2
  path : ∀ j, m ≤ j → j < n → (r.state j).state = .updatePc
  boundary : (r.state n).atBoundary = true
  regs : (r.state n).regs.regfile = if (r.state m).writebackEn then
      Registers.RegFile.write (r.state m).regs.regfile (r.state m).dec.rd (r.state m).writebackData
    else (r.state m).regs.regfile
  pc : (r.state n).pc = (r.state m).updateNextPc
  csr : Kept (r.state m).csr (r.state n).csr

/-- The update state may have to wait for the CSR block once. -/
theorem update_boundary (hs : (r.state m).state = .updatePc)
    (hbr : (r.state m).branchPcFromAlu = false) (hna : (r.state m).nextAddrFromCsr = false)
    (hwb : (r.state m).csr.busy = true → (r.state m).writebackEn = false) :
    ∃ n, Updated r m n := by
  cases hb : (r.state m).csr.busy with
  | false =>
      have hstep := step_updatePc (v := v) (hc m) (hu m) hs hb
      rw [← r.next m] at hstep
      refine ⟨m + 1, ⟨by omega, by omega⟩, ?_, ?_, ?_, ?_, ?_⟩
      · intro j h₁ h₂
        obtain rfl : j = m := by omega
        exact hs
      · rw [State.atBoundary, hstep]
        dsimp only
        split_ifs <;> rfl
      · rw [hstep]
        dsimp only
        split_ifs <;> rfl
      · rw [hstep]
      · rw [hstep]
        exact kept_rest _ (hc m).csr_we
  | true =>
      have hno := hwb hb
      have hstep := step_updatePc_busy (v := v) (hc m) (hu m) hs hb
      rw [← r.next m, hno, if_neg Bool.false_ne_true, ← hbr] at hstep
      have hs' : (r.state (m + 1)).state = .updatePc := by rw [hstep]; exact hs
      have hb' : (r.state (m + 1)).csr.busy = false := by rw [hstep]; exact rest_busy _
      have hno' : (r.state (m + 1)).writebackEn = false := by rw [hstep]; exact hno
      have hpc : (r.state (m + 1)).updateNextPc = (r.state m).updateNextPc := by
        rw [hstep]
        simp only [State.updateNextPc, hna, Bool.false_eq_true, if_false]
        rfl
      have hstep' := step_updatePc (v := v) (hc (m + 1)) (hu (m + 1)) hs' hb'
      rw [← r.next (m + 1), hno', if_neg Bool.false_ne_true, hpc] at hstep'
      refine ⟨m + 2, ⟨by omega, by omega⟩, ?_, ?_, ?_, ?_, ?_⟩
      · intro j h₁ h₂
        rcases (by omega : j = m ∨ j = m + 1) with rfl | rfl
        · exact hs
        · exact hs'
      · rw [State.atBoundary, hstep']
        dsimp only
        split_ifs <;> rfl
      · rw [hstep', hstep, hno]
        rfl
      · rw [hstep']
      · have hkept : Kept (r.state m).csr (r.state (m + 1)).csr := by
          rw [hstep]
          exact kept_rest _ (hc m).csr_we
        rw [hstep']
        exact hkept.trans (kept_rest _ (hc (m + 1)).csr_we)

/-- One clock of a store after its acknowledge. -/
theorem store2_step (hs : (r.state m).state = .store2) (hb : (r.state m).bus.busy = false) :
    r.state (m + 1) =
        { r.state m with
          state := if (r.state m).csr.busy then .store2 else .updatePc
          csr := (r.state (m + 1)).csr } ∧
      ((r.state m).csr.busy = true → (r.state (m + 1)).csr.busy = false) ∧
      (r.state (m + 1)).csr.irqEn = (r.state m).csr.irqEn ∧
      (r.state (m + 1)).csr.enables = (r.state m).csr.enables := by
  have hack : (r.input m).ack = false := Bool.eq_false_iff.mpr fun ha => by
    simpa [(hc m).cyc, hb] using (hu m).ack ha
  have hstep := step_store2 (v := v) (hc m) (hu m) hs
  rw [← r.next m, hb, hack] at hstep
  have hcsr : (r.state (m + 1)).csr =
      (r.state m).csr.clock (if (r.input m).clearMipTimer then (r.state m).clearMip else {}) := by
    rw [hstep]
  refine ⟨?_, ?_, ?_, ?_⟩
  · rw [hcsr, hstep]
    rfl
  · intro hbusy
    simp [hcsr, hbusy]
  · rw [hcsr]
    cases (r.input m).clearMipTimer <;> rfl
  · rw [hcsr]
    cases (r.input m).clearMipTimer <;> rfl

/-- It may have to wait for the CSR block once. -/
theorem store2_settles (hs : (r.state m).state = .store2) (hb : (r.state m).bus.busy = false) :
    ∃ n, m < n ∧ n ≤ m + 2 ∧ (∀ j, m ≤ j → j < n → (r.state j).state = .store2) ∧
      (∀ j, m ≤ j → j ≤ n → (r.state j).bus = (r.state m).bus) ∧
      r.state n = { r.state m with state := .updatePc, csr := (r.state n).csr } ∧
      (r.state n).csr.irqEn = (r.state m).csr.irqEn ∧
      (r.state n).csr.enables = (r.state m).csr.enables := by
  obtain ⟨h₁, hfree, hirq, hen⟩ := store2_step hc hu hs hb
  cases hbusy : (r.state m).csr.busy with
  | false =>
      rw [hbusy, if_neg Bool.false_ne_true] at h₁
      refine ⟨m + 1, by omega, by omega, ?_, ?_, h₁, hirq, hen⟩
      · intro j hj₁ hj₂
        obtain rfl : j = m := by omega
        exact hs
      · intro j hj₁ hj₂
        rcases (by omega : j = m ∨ j = m + 1) with rfl | rfl
        · rfl
        · rw [h₁]
  | true =>
      rw [hbusy, if_pos rfl] at h₁
      have hs' : (r.state (m + 1)).state = .store2 := by rw [h₁]
      have hbus' : (r.state (m + 1)).bus = (r.state m).bus := by rw [h₁]
      obtain ⟨h₂, -, hirq', hen'⟩ := store2_step hc hu hs' (by rw [hbus', hb])
      rw [hfree hbusy, if_neg Bool.false_ne_true] at h₂
      refine ⟨m + 2, by omega, by omega, ?_, ?_, ?_, hirq'.trans hirq, hen'.trans hen⟩
      · intro j hj₁ hj₂
        rcases (by omega : j = m ∨ j = m + 1) with rfl | rfl
        · exact hs
        · exact hs'
      · intro j hj₁ hj₂
        rcases (by omega : j = m ∨ j = m + 1 ∨ j = m + 2) with rfl | rfl | rfl
        · rfl
        · exact hbus'
        · rw [h₂, hbus']
      · rw [h₂, h₁]

end

/-! ## Loads and stores -/

namespace MainState

/-- The states of a load or store before its update. -/
def accessing : MainState → Bool
  | .load1 | .load2 | .store1 | .store2 => true
  | _ => false

end MainState

theorem atBoundary_of_accessing {s : State} (h : s.state.accessing = true) :
    s.atBoundary = false := by
  unfold State.atBoundary
  revert h
  cases s.state <;> simp [MainState.accessing]

/-- The address of the next instruction is even. -/
theorem pcnext_even {s : State} (h : Flow s) (hs : s.state.decoded = true) :
    BitSlices.IsEven s.pcnext := by
  rw [h.pcnext hs]
  refine BitSlices.even_add h.even ?_
  rw [instrLen_eq]
  split_ifs <;> simp

/-- What a load or store has to hand on from its first state to the update. -/
def State.carried (s : State) :=
  (s.pc, s.pcnext, s.parcels, s.execDone, s.regs, s.branchPcFromAlu, s.nextAddrFromCsr, s.csr.irqEn,
    s.csr.enables)

theorem step_carried {v : BitVec 32} {s : State} {i : Inputs} (h : Coherent s)
    (u : Undisturbed s i) (hs : s.state.accessing = true) :
    (s.step v i).carried = s.carried := by
  cases hm : s.state <;> rw [hm] at hs
  case load1 => rw [step_load1 h u hm]; rfl
  case load2 => rw [step_load2 h u hm]; rfl
  case store1 => rw [step_store1 h u hm]; rfl
  case store2 =>
    rw [step_store2 h u hm]
    cases i.clearMipTimer <;> rfl
  all_goals exact absurd hs (by decide)

/-- The tag of the access is to be checked: not a tag access itself, and not
skipped because it is relative to the stack pointer. -/
def State.checked (s : State) : Bool :=
  s.csr.tagsEn && s.dec.funct3 != Decoder.funcLt && !(s.csr.tagsSkipSpEn && s.dec.rs1 == 2#5)

theorem nextCheckTags_eq (s : State) :
    s.controlLoad1.nextCheckTags = s.checked ∧ s.controlStore1.nextCheckTags = s.checked := by
  have hcodes : Decoder.funcSt = Decoder.funcLt := rfl
  simp only [State.controlLoad1, State.controlStore1, hcodes, State.checked, State.dataCheckTags]
  by_cases hf : s.dec.funct3 = Decoder.funcLt
  · simp [hf]
  · have hne : (s.dec.funct3 != Decoder.funcLt) = true := by simpa using hf
    by_cases hr : s.dec.rs1 = 2#5
    · cases s.csr.tagsSkipSpEn <;> simp [hf, hne, hr]
    · have hne' : (s.dec.rs1 == 2#5) = false := by simpa using hr
      simp [hf, hne, hr, hne']

end TagSoc.Cpu

namespace TagSoc.Soc
open Clocked Cpu CpuBus Datapath WbRam

variable {g : ℕ}

/-! ## Three clocks -/

/-- In clock `k` the processor makes a request to the memory and goes on to wait
for it in state `m`. -/
structure Asks (r : Run (State.step (g := g))) (k : ℕ) (m : MainState) (op : BusOp)
    (a d : BitVec 32) : Prop where
  quiet : judging (r.state k).cpu.state = false
  bus : (r.state (k + 1)).cpu.bus = (r.state k).cpu.bus.request op a d
  state : (r.state (k + 1)).cpu.state = m
  ram : periphSelect a = wbAccessRam

/-- The stores that the memory makes as a read and a write. -/
def subword (op : BusOp) : Bool := op == .writeb || op == .writeh

/-- The outcome of the tag comparison for a request that was just made. -/
def violates (s : State g) (a : BitVec 32) : Bool :=
  s.cpu.checkTags && addrTag a != s.ram.contents.tags (granuleAddr g a)

theorem requests_of_bus {s : State g} {i : Inputs} (hm : i.busMaster = false) {op : BusOp}
    {a d : BitVec 32} {b : CpuBus.State} (hb : s.cpu.bus = b.request op a d)
    (ha : periphSelect a = wbAccessRam) :
    (s.ramIn i).requests = true ∧
      ((s.ramIn i).doneInOneTick || (s.ramIn i).tagAccessed) = !subword op ∧
      s.cpuMaster.accessRam = true := by
  have hacc : s.cpuMaster.accessRam = true := by
    simp [State.cpuMaster, Master.accessRam, hb, CpuBus.State.request, ha]
  rw [ramIn_eq hm, hacc, hb]
  cases op <;> exact ⟨rfl, rfl, rfl⟩

section
variable {r : Run (State.step (g := g))} (h : Reached r) {k : ℕ} {m : MainState} {op : BusOp}
  {a d : BitVec 32} (hk : Asks r k m op a d)
include h hk

/-- The clock in which the request is on the bus for the first time. -/
theorem Asks.first :
    RamRests (r.state (k + 1)) ∧ (r.state (k + 1)).ram.contents = (r.state k).ram.contents ∧
      (r.state (k + 1)).ram.irq = (r.state k).ram.irq := by
  have hjudge := hk.quiet
  have hfree : (r.state k).cpu.bus.busy = false := by
    refine (h.wired k).flow.bus_free ?_
    revert hjudge
    simp +contextual [judging]
  have hclear : (r.state k).cpu.csr.tagsIrqClear = false := by
    refine Bool.eq_false_iff.mpr fun hc => ?_
    rw [(h.wired k).clear hc] at hjudge
    exact absurd hjudge (by decide)
  obtain ⟨h₁, h₂, h₃⟩ := (h.wired k).ramRests_step (h.master k) (h.rst k)
    ((h.wired k).ramRests (h.master k) hjudge) hfree
  rw [← r.next k] at h₁ h₂ h₃
  rw [hclear] at h₃
  exact ⟨h₁, h₂, h₃⟩

omit hk in
/-- While a request is outstanding the main machine and the tag check wait. -/
theorem Reached.wait {t : ℕ} (hb : (r.state t).cpu.bus.busy = true) :
    (r.state (t + 1)).cpu.state = (r.state t).cpu.state ∧
      (r.state (t + 1)).cpu.checkTags = (r.state t).cpu.checkTags ∧
      (r.state t).cpu.csr.tagsIrqClear = false := by
  have huses := (h.wired t).flow.bus hb
  have hr : ((r.state t).cpuIn (r.input t)).rst = false := h.cpuRst t
  have hne : (r.state t).cpu.state ≠ .preFetch ∧ (r.state t).cpu.state ≠ .load1 ∧
      (r.state t).cpu.state ≠ .store1 ∧ (r.state t).cpu.state ≠ .updatePc := by
    revert huses
    cases (r.state t).cpu.state <;> simp [MainState.usesBus]
  refine ⟨?_, ?_, Bool.eq_false_iff.mpr fun hc => hne.2.2.2 ((h.wired t).clear hc)⟩
  · rw [r.next, step_cpu, step_state_of_busy hr (by simp [Cpu.State.busy, hb])]
  · rw [r.next, step_cpu]
    simp [Cpu.State.step, hr, hne]

/-- The clock of the acknowledge. -/
theorem Asks.second :
    (r.state (k + 2)).cpu.bus = (r.state (k + 1)).cpu.bus ∧
      (r.state (k + 2)).ram.state = (if subword op then .writeWord else .stop) ∧
      (r.state (k + 2)).ram.ack = true ∧ (r.state (k + 2)).ram.tagMismatch = false ∧
      (r.state (k + 2)).ram.tag.dataOut = (r.state k).ram.contents.tags (granuleAddr g a) ∧
      (r.state (k + 2)).ram.contents = (r.state k).ram.contents ∧
      (r.state (k + 2)).ram.irq = (r.state k).ram.irq := by
  obtain ⟨hrest, hcont, hirq⟩ := hk.first h
  have w := h.wired (k + 1)
  obtain ⟨hreq, hone, hacc⟩ := requests_of_bus (h.master (k + 1)) hk.bus hk.ram
  have hcyc : (r.state (k + 1)).cpu.bus.cyc = true := by rw [hk.bus]; rfl
  have hbusy : (r.state (k + 1)).cpu.bus.busy = true := by rw [hk.bus]; rfl
  have haddr : ((r.state (k + 1)).ramIn (r.input (k + 1))).addr = a := by
    rw [ramIn_eq (h.master _), hk.bus]
    rfl
  have hr : ((r.state (k + 1)).ramIn (r.input (k + 1))).rst = false := h.rst (k + 1)
  have hclear : ((r.state (k + 1)).ramIn (r.input (k + 1))).clearMismatch = false :=
    (h.wait hbusy).2.2
  obtain ⟨hst, hmis⟩ := WbRam.step_of_request hr hrest.state hreq
  refine ⟨?_, ?_, ?_, ?_, ?_, ?_, ?_⟩
  · rw [r.next (k + 1)]
    exact w.bus_held hcyc ((cpuAck_of_ram (h.master _) hacc).trans hrest.ack)
  · rw [r.next (k + 1), step_ram, hst, hone]
    cases subword op <;> rfl
  · rw [r.next (k + 1), step_ram]
    exact (WbRam.step_idle_request hr hrest.state hreq).1
  · rw [r.next (k + 1), step_ram, hmis]
  · rw [r.next (k + 1), step_ram, WbRam.step_tag_dataOut, haddr, hcont]
  · rw [r.next (k + 1), step_ram, w.serving.contents_step, hrest.ack, hcont]
    simp
  · rw [r.next (k + 1), step_ram, WbRam.step_irq hr, hclear, hrest.mismatch, hirq]
    rfl

/-- The clock in which the processor has the answer. -/
structure Answered (r : Run (State.step (g := g))) (k : ℕ) (m : MainState) (op : BusOp)
    (a d : BitVec 32) : Prop where
  waits : (r.state (k + 1)).cpu.bus.busy = true ∧ (r.state (k + 2)).cpu.bus.busy = true
  state : (r.state (k + 2)).cpu.state = m ∧ (r.state (k + 3)).cpu.state = m
  free : (r.state (k + 3)).cpu.bus.busy = false
  adr : (r.state (k + 3)).cpu.bus.adr = a
  buffer : (r.state (k + 3)).cpu.bus.buffer = loaded (ramDevice g) (r.state k).ram.contents op a
  checkTags : (r.state (k + 3)).cpu.checkTags = (r.state (k + 1)).cpu.checkTags
  before : (r.state (k + 1)).ram.contents = (r.state k).ram.contents ∧
    (r.state (k + 2)).ram.contents = (r.state k).ram.contents
  after : (r.state (k + 3)).ram.contents =
    if op.write then (ramDevice g).write (r.state k).ram.contents op.memSel a d
    else (r.state k).ram.contents
  irq : (r.state (k + 1)).ram.irq = (r.state k).ram.irq ∧
    (r.state (k + 2)).ram.irq = (r.state k).ram.irq ∧ (r.state (k + 3)).ram.irq = (r.state k).ram.irq
  word : subword op = false → (r.state (k + 3)).ram.state = .idle ∧
    (r.state (k + 3)).ram.tagMismatch = violates (r.state (k + 1)) a
  less : subword op = true → (r.state (k + 3)).ram.state = .stop ∧
    (r.state (k + 3)).ram.tagMismatch = false ∧
    (r.state (k + 3)).ram.tag.dataOut = (r.state (k + 1)).ram.contents.tags (granuleAddr g a)

theorem Asks.answered : Answered r k m op a d := by
  obtain ⟨hrest₁, hcont₁, hirq₁⟩ := hk.first h
  obtain ⟨hbus, hst, hack, hmis, htag, hcont, hirq⟩ := hk.second h
  have w := h.wired (k + 2)
  have hbusy₁ : (r.state (k + 1)).cpu.bus.busy = true := by rw [hk.bus]; rfl
  have hbusy₂ : (r.state (k + 2)).cpu.bus.busy = true := by rw [hbus, hbusy₁]
  obtain ⟨hs₂, hc₂, -⟩ := h.wait hbusy₁
  obtain ⟨hs₃, hc₃, hclear₂⟩ := h.wait hbusy₂
  rw [hk.bus] at hbus
  obtain ⟨-, -, hacc⟩ := requests_of_bus (h.master (k + 2)) hbus hk.ram
  have hin : ((r.state (k + 2)).ramIn (r.input (k + 2))).addr = a ∧
      ((r.state (k + 2)).ramIn (r.input (k + 2))).sel = op.memSel ∧
      ((r.state (k + 2)).ramIn (r.input (k + 2))).data = d ∧
      ((r.state (k + 2)).ramIn (r.input (k + 2))).we = op.write ∧
      ((r.state (k + 2)).ramIn (r.input (k + 2))).checkTags = (r.state (k + 1)).cpu.checkTags := by
    rw [ramIn_eq (h.master _), hbus]
    exact ⟨rfl, rfl, rfl, rfl, hc₂⟩
  obtain ⟨haddr, hsel, hdata, hwe, hcheck⟩ := hin
  have hr : ((r.state (k + 2)).ramIn (r.input (k + 2))).rst = false := h.rst (k + 2)
  have hdat : ((r.state (k + 2)).cpuIn (r.input (k + 2))).dat =
      (ramDevice g).read (r.state k).ram.contents op.memSel a := by
    rw [← hcont, ← hsel, ← haddr, ← w.serving.dataOut hack]
    simp [State.cpuIn, State.masterData, master_eq (h.master _), hacc, accessTimer_of_ram hacc]
  have hbus₃ : (r.state (k + 3)).cpu.bus = ((r.state k).cpu.bus.request op a d).accept
      ((ramDevice g).read (r.state k).ram.contents op.memSel a) := by
    have hack' : ((r.state (k + 2)).cpuIn (r.input (k + 2))).ack = true :=
      (cpuAck_of_ram (h.master _) hacc).trans hack
    rw [r.next (k + 2), step_cpu, w.flow.bus_of_busy hbusy₂, hbus, hack', hdat]
    rfl
  constructor
  case waits => exact ⟨hbusy₁, hbusy₂⟩
  case state => exact ⟨hs₂.trans hk.state, hs₃.trans (hs₂.trans hk.state)⟩
  case free | adr | buffer => rw [hbus₃]; rfl
  case checkTags => exact hc₃.trans hc₂
  case before => exact ⟨hcont₁, hcont⟩
  case after =>
    rw [r.next (k + 2), step_ram, w.serving.contents_step, hack, hwe, haddr, hsel, hdata, hcont]
    simp only [true_and]
  case irq =>
    refine ⟨hirq₁, hirq, ?_⟩
    have hclear : ((r.state (k + 2)).ramIn (r.input (k + 2))).clearMismatch = false := hclear₂
    rw [r.next (k + 2), step_ram, WbRam.step_irq hr, hclear, hmis, hirq]
    rfl
  case word =>
    intro hsub
    rw [hsub] at hst
    obtain ⟨h₁, -, h₃⟩ := WbRam.step_of_stop hr hst
    rw [r.next (k + 2), step_ram, h₃, hcheck, haddr, htag, ← hcont₁]
    exact ⟨h₁, rfl⟩
  case less =>
    intro hsub
    rw [hsub] at hst
    obtain ⟨h₁, -, h₃⟩ := WbRam.step_of_writeWord hr hst
    rw [r.next (k + 2), step_ram, WbRam.step_tag_dataOut, haddr, hcont, hcont₁]
    exact ⟨h₁, h₃, rfl⟩

/-- When the interrupt line has the outcome of the comparison. -/
def settleTime (k : ℕ) (op : BusOp) : ℕ := if subword op then k + 5 else k + 4

theorem Asks.settled (hfree : (r.state (k + 4)).cpu.bus.busy = false) :
    RamRests (r.state (settleTime k op)) ∧
      (r.state (settleTime k op)).ram.irq =
        ((r.state k).ram.irq || violates (r.state (k + 1)) a) ∧
      (r.state (settleTime k op)).ram.contents = (r.state (k + 3)).ram.contents := by
  have ha := hk.answered h
  have w₃ := h.wired (k + 3)
  have huses : m.usesBus = true := by
    rw [← ha.state.1]
    exact (h.wired (k + 2)).flow.bus ha.waits.2
  have hne : m ≠ .csr2 := by
    rintro rfl
    exact absurd huses (by decide)
  have hclear : ∀ t, (r.state t).cpu.state = m →
      (r.state (t + 1)).cpu.csr.tagsIrqClear = false := by
    intro t ht
    refine Bool.eq_false_iff.mpr fun hc => hne (ht.symm.trans ?_)
    rw [r.next t] at hc
    exact ((h.wired t).csr2_of_clear hc).2
  have hclear₃ := hclear (k + 2) ha.state.1
  have hclear₄ := hclear (k + 3) ha.state.2
  cases hsub : subword op with
  | false =>
      obtain ⟨hidle, hmis⟩ := ha.word hsub
      obtain ⟨h₁, h₂, h₃⟩ := w₃.ram_idle_step (h.rst _) hidle
        (w₃.not_requests (h.master _) ha.free)
      rw [← r.next (k + 3)] at h₁ h₂ h₃
      rw [hclear₃, hmis, ha.irq.2.2] at h₃
      simp only [settleTime, hsub, Bool.false_eq_true, if_false]
      exact ⟨h₁, by rw [h₃, Bool.or_comm]; rfl, h₂⟩
  | true =>
      obtain ⟨hst, hmis, htag⟩ := ha.less hsub
      have hr : ((r.state (k + 3)).ramIn (r.input (k + 3))).rst = false := h.rst (k + 3)
      have hin : ((r.state (k + 3)).ramIn (r.input (k + 3))).addr = a ∧
          ((r.state (k + 3)).ramIn (r.input (k + 3))).checkTags = (r.state (k + 1)).cpu.checkTags ∧
          ((r.state (k + 3)).ramIn (r.input (k + 3))).clearMismatch = false ∧
          ((r.state (k + 3)).ramIn (r.input (k + 3))).we = false := by
        rw [ramIn_eq (h.master _)]
        refine ⟨ha.adr, ha.checkTags, hclear₃, Bool.eq_false_iff.mpr fun hw => ?_⟩
        simpa [ha.free] using w₃.flow.bus_we hw
      obtain ⟨haddr, hcheck, hclear₃, hwe⟩ := hin
      obtain ⟨g₁, -, g₃⟩ := WbRam.step_of_stop hr hst
      rw [← step_ram, ← r.next (k + 3)] at g₁ g₃
      rw [hcheck, haddr, htag] at g₃
      have hirq₄ : (r.state (k + 4)).ram.irq = (r.state k).ram.irq := by
        rw [r.next (k + 3), step_ram, WbRam.step_irq hr, hclear₃, hmis, ha.irq.2.2]
        rfl
      have hcont₄ : (r.state (k + 4)).ram.contents = (r.state (k + 3)).ram.contents := by
        rw [r.next (k + 3), step_ram, w₃.serving.contents_step, hwe]
        simp
      obtain ⟨h₁, h₂, h₃⟩ := (h.wired (k + 4)).ram_idle_step (h.rst _) g₁
        ((h.wired (k + 4)).not_requests (h.master _) hfree)
      rw [← r.next (k + 4)] at h₁ h₂ h₃
      rw [hclear₄, g₃, hirq₄] at h₃
      simp only [settleTime, hsub, if_true]
      exact ⟨h₁, by rw [h₃, Bool.or_comm]; rfl, h₂.trans hcont₄⟩

omit hk

/-! ## A load or store to the memory -/

/-- The tag of a checked access to the memory differs from that of its granule;
`s` is the first clock of the access. -/
def tagViolation (s : State g) : Bool :=
  s.cpu.checked && periphSelect s.cpu.alu.result == wbAccessRam &&
    addrTag s.cpu.alu.result != s.ram.contents.tags (granuleAddr g s.cpu.alu.result)

/-- From the first clock `k` of a load or store to the memory to the next
boundary `n`. -/
structure AccessDone (r : Run (State.step (g := g))) (k n : ℕ) : Prop where
  next : NextBoundary (cpuRun r) k n
  path : ∀ j, k ≤ j → j < n → (r.state j).cpu.state.accessing = true ∨
    (r.state j).cpu.state = .updatePc
  pc : (r.state n).cpu.pc = (r.state k).cpu.pcnext
  irqEn : (r.state n).cpu.csr.irqEn = (r.state k).cpu.csr.irqEn
  enables : (r.state n).cpu.csr.enables = (r.state k).cpu.csr.enables
  irq : (r.state n).ram.irq = ((r.state k).ram.irq || tagViolation (r.state k))

/-- A path of access and update states acknowledges nothing. -/
theorem Reached.no_clear {k n : ℕ} (hpath : ∀ j, k ≤ j → j < n →
    (r.state j).cpu.state.accessing = true ∨ (r.state j).cpu.state = .updatePc) {j : ℕ}
    (hj : k < j) (hjn : j ≤ n) : (r.state j).cpu.csr.tagsIrqClear = false := by
  obtain ⟨i, rfl⟩ : ∃ i, j = i + 1 := ⟨j - 1, by omega⟩
  refine Bool.eq_false_iff.mpr fun hc => ?_
  rw [r.next i] at hc
  have hst := ((h.wired i).csr2_of_clear hc).2
  rcases hpath i (by omega) (by omega) with hp | hp <;> rw [hst] at hp <;>
    exact absurd hp (by decide)

theorem Reached.carried {k p : ℕ} (hkp : k ≤ p)
    (hpath : ∀ j, k ≤ j → j < p → (r.state j).cpu.state.accessing = true) :
    (r.state p).cpu.carried = (r.state k).cpu.carried := by
  induction p, hkp using Nat.le_induction with
  | base => rfl
  | succ p hp ih =>
      rw [next_cpu]
      exact (step_carried (h.coherent p) (h.undisturbed p) (hpath p hp (by omega))).trans
        (ih fun j h₁ h₂ => hpath j h₁ (by omega))

/-- The instruction and the registers that the update state finds. -/
theorem Reached.carried_dec {k p : ℕ} (hkp : k ≤ p)
    (hpath : ∀ j, k ≤ j → j < p → (r.state j).cpu.state.accessing = true) :
    (r.state p).cpu.dec = (r.state k).cpu.dec ∧ (r.state p).cpu.execDone = (r.state k).cpu.execDone ∧
      (r.state p).cpu.regs.regfile = (r.state k).cpu.regs.regfile := by
  have hcar := h.carried hkp hpath
  simp only [Cpu.State.carried, Prod.mk.injEq] at hcar
  obtain ⟨-, -, hpar, hdone, hregs, -⟩ := hcar
  exact ⟨by rw [Cpu.State.dec, hpar, Cpu.State.dec], hdone, by rw [hregs]⟩

/-- The part that loads and stores share: from the update state to the boundary.
`e` is the clock in which the interrupt line has the outcome. -/
theorem Reached.access_finish {k p e : ℕ} (hkp : k < p) (hke : k < e) (hep : e ≤ p + 1)
    (hstage : (r.state k).cpu.dec.execNextStage = .toLoad ∨
      (r.state k).cpu.dec.execNextStage = .toStore)
    (hpath : ∀ j, k ≤ j → j < p → (r.state j).cpu.state.accessing = true)
    (hp : (r.state p).cpu.state = .updatePc)
    (hwb : (r.state p).cpu.csr.busy = true → (r.state p).cpu.writebackEn = false)
    (hfree : ∀ j, e ≤ j → j < p → (r.state j).cpu.bus.busy = false)
    (hrest : RamRests (r.state e))
    (hirq : (r.state e).ram.irq = ((r.state k).ram.irq || tagViolation (r.state k))) :
    ∃ n, Updated (cpuRun r) p n ∧ AccessDone r k n ∧
      (r.state n).ram.contents = (r.state e).ram.contents := by
  have hcar := h.carried hkp.le hpath
  simp only [Cpu.State.carried, Prod.mk.injEq] at hcar
  obtain ⟨-, hnext, -, -, -, hbr, hna, hen, hens⟩ := hcar
  have hdec := (h.carried_dec hkp.le hpath).1
  have hquiet := stage_quiet (w := (r.state k).cpu.parcels)
    (hstage.imp id fun hst => Or.inl hst)
  have hflags := (h.wired k).flow.flags (by
    intro hst
    have := hpath k le_rfl hkp
    rw [hst] at this
    exact absurd this (by decide))
  obtain ⟨n, hup⟩ := update_boundary (r := cpuRun r) h.coherent h.undisturbed hp
    (hbr.trans hflags.2.1) (hna.trans hflags.2.2) hwb
  have hupdate : ∀ j, p ≤ j → j < n → (r.state j).cpu.state = .updatePc := hup.path
  have hlater := hup.later
  have hall : ∀ j, k ≤ j → j < n → (r.state j).cpu.state.accessing = true ∨
      (r.state j).cpu.state = .updatePc := by
    intro j hj₁ hj₂
    rcases Nat.lt_or_ge j p with hlt | hge
    · exact Or.inl (hpath j hj₁ hlt)
    · exact Or.inr (hupdate j hge hj₂)
  have hbus : ∀ j, e ≤ j → j < n → ((r.state j).ramIn (r.input j)).requests = false := by
    intro j hj₁ hj₂
    refine (h.wired j).not_requests (h.master j) ?_
    rcases Nat.lt_or_ge j p with hlt | hge
    · exact hfree j hj₁ hlt
    · exact (h.wired j).flow.bus_free (by rw [hupdate j hge hj₂]; rfl)
  obtain ⟨-, hcont, hirq'⟩ := h.ram_quiet (by omega : e ≤ n) hrest hbus
    (fun j h₁ h₂ => h.no_clear hall (by omega) (by omega))
  refine ⟨n, hup, ?_, hcont⟩
  constructor
  case next =>
    refine ⟨by omega, hup.boundary, fun j h₁ h₂ => ?_⟩
    change (r.state j).cpu.atBoundary = false
    rcases hall j h₁.le h₂ with hj | hj
    · exact atBoundary_of_accessing hj
    · rw [Cpu.State.atBoundary, hj]
      rfl
  case path => exact hall
  case pc =>
    have hdecoded : (r.state k).cpu.state.decoded = true := by
      have hacc := hpath k le_rfl hkp
      revert hacc
      cases (r.state k).cpu.state <;> simp [MainState.accessing, MainState.decoded]
    have heven := pcnext_even (h.wired k).flow hdecoded
    have hjump : (r.state p).cpu.dec.nextPcFromAlu = false := by
      rw [hdec]
      exact hquiet.1
    exact hup.pc.trans (updateNextPc_fallthrough (hna.trans hflags.2.2) hjump
      (hbr.trans hflags.2.1) hnext heven)
  case irqEn => exact hup.csr.irqEn.trans hen
  case enables => exact hup.csr.enables.trans hens
  case irq => exact hirq'.trans hirq

omit h in
/-- The comparison that is made is the one the access asked for. -/
theorem violates_eq {k : ℕ} (ha : periphSelect (r.state k).cpu.alu.result = wbAccessRam)
    (hcheck : (r.state (k + 1)).cpu.checkTags = (r.state k).cpu.checked)
    (hcont : (r.state (k + 1)).ram.contents = (r.state k).ram.contents) :
    violates (r.state (k + 1)) (r.state k).cpu.alu.result = tagViolation (r.state k) := by
  simp [violates, tagViolation, hcheck, hcont, ha]

/-- The update state of a load writes what the bus has read. -/
theorem Reached.load_writeback {k p : ℕ} (hkp : k ≤ p)
    (hpath : ∀ j, k ≤ j → j < p → (r.state j).cpu.state.accessing = true)
    (hs : (r.state k).cpu.state = .load1) (hbus : (r.state p).cpu.writebackFromBus = true) :
    (r.state p).cpu.writebackEn = true ∧
      (r.state p).cpu.writebackData = (r.state p).cpu.bus.buffer := by
  obtain ⟨hdec, hdone, -⟩ := h.carried_dec hkp hpath
  obtain ⟨hstage, hexec⟩ := (h.wired k).flow.stage .toLoad (by rw [hs]; rfl)
  obtain ⟨-, himm, halu, -⟩ := stage_quiet (w := (r.state k).cpu.parcels) (Or.inl hstage)
  have hfrom : (r.state k).cpu.dec.writebackFromImm = false ∧
      (r.state k).cpu.dec.writebackFromAlu = false := ⟨himm, halu⟩
  constructor
  · rw [Cpu.State.writebackEn, hdec, hfrom.1, hfrom.2, hdone, hexec, hbus]
    rfl
  · rw [Cpu.State.writebackData, hdec, hfrom.1, hfrom.2]
    rfl

/-- A load to the memory. -/
theorem Reached.load_done {k : ℕ} (hs : (r.state k).cpu.state = .load1)
    (ha : periphSelect (r.state k).cpu.alu.result = wbAccessRam) :
    ∃ n, AccessDone r k n ∧ (r.state n).ram.contents = (r.state k).ram.contents ∧
      (r.state n).cpu.regs.regfile =
        Registers.RegFile.write (r.state k).cpu.regs.regfile (r.state k).cpu.dec.rd
          (loaded (ramDevice g) (r.state k).ram.contents
            (Cpu.State.loadBusOp (r.state k).cpu.dec.funct3) (r.state k).cpu.alu.result) := by
  have hstep := step_load1 (v := cpuResetAddr) (h.coherent k) (h.undisturbed k) hs
  rw [← next_cpu] at hstep
  have hask : Asks r k .load2 (Cpu.State.loadBusOp (r.state k).cpu.dec.funct3)
      (r.state k).cpu.alu.result (r.state k).cpu.regs.regval2 :=
    ⟨by rw [hs]; rfl, by rw [hstep], by rw [hstep], ha⟩
  have hsub : subword (Cpu.State.loadBusOp (r.state k).cpu.dec.funct3) = false ∧
      (Cpu.State.loadBusOp (r.state k).cpu.dec.funct3).write = false := by
    unfold Cpu.State.loadBusOp
    split_ifs <;> exact ⟨rfl, rfl⟩
  have hans := hask.answered h
  have hack : ((r.state (k + 3)).cpuIn (r.input (k + 3))).ack = false :=
    Bool.eq_false_iff.mpr fun hc => by
      simpa [(h.coherent (k + 3)).cyc, hans.free] using (h.undisturbed (k + 3)).ack hc
  have hlast := step_load2 (v := cpuResetAddr) (h.coherent (k + 3)) (h.undisturbed (k + 3))
    hans.state.2
  rw [← next_cpu, hans.free, hack] at hlast
  have hup : (r.state (k + 4)).cpu.state = .updatePc := by rw [hlast]; rfl
  have hpath : ∀ j, k ≤ j → j < k + 4 → (r.state j).cpu.state.accessing = true := by
    intro j hj₁ hj₂
    rcases (by omega : j = k ∨ j = k + 1 ∨ j = k + 2 ∨ j = k + 3) with rfl | rfl | rfl | rfl
    · rw [hs]; rfl
    · rw [hask.state]; rfl
    · rw [hans.state.1]; rfl
    · rw [hans.state.2]; rfl
  obtain ⟨hrest, hirq, hcont⟩ := hask.settled h
    ((h.wired (k + 4)).flow.bus_free (by rw [hup]; rfl))
  rw [settleTime, hsub.1, if_neg Bool.false_ne_true] at hrest hirq hcont
  rw [violates_eq ha (by rw [hstep]; exact (nextCheckTags_eq _).1) hans.before.1] at hirq
  obtain ⟨hdst, -⟩ := (h.wired k).flow.stage .toLoad (by rw [hs]; rfl)
  obtain ⟨n, hn, hdone, hcont'⟩ := h.access_finish (p := k + 4) (e := k + 4) (by omega) (by omega)
    (by omega) (Or.inl hdst) hpath hup (fun hb => by rw [hlast] at hb; simp at hb)
    (fun j h₁ h₂ => by omega) hrest hirq
  refine ⟨n, hdone, ?_, ?_⟩
  · rw [hcont', hcont, hans.after, hsub.2, if_neg Bool.false_ne_true]
  · obtain ⟨hdec, -, hregs⟩ := h.carried_dec (by omega) hpath
    obtain ⟨hen, hdata⟩ := h.load_writeback (by omega) hpath hs (by rw [hlast]; rfl)
    have hbuffer : (r.state (k + 4)).cpu.bus.buffer = (r.state (k + 3)).cpu.bus.buffer := by
      rw [hlast]
      rfl
    refine hn.regs.trans ((if_pos hen).trans ?_)
    rw [show ((cpuRun r).state (k + 4)).writebackData = _ from hdata, hbuffer, hans.buffer]
    change Registers.RegFile.write (r.state (k + 4)).cpu.regs.regfile
      (r.state (k + 4)).cpu.dec.rd _ = _
    rw [hregs, hdec]

/-- A store to the memory. -/
theorem Reached.store_done {k : ℕ} (hs : (r.state k).cpu.state = .store1)
    (ha : periphSelect (r.state k).cpu.alu.result = wbAccessRam) :
    ∃ n, AccessDone r k n ∧
      (r.state n).ram.contents = (ramDevice g).write (r.state k).ram.contents
        (Cpu.State.storeBusOp (r.state k).cpu.dec.funct3).memSel (r.state k).cpu.alu.result
        (r.state k).cpu.regs.regval2 ∧
      (r.state n).cpu.regs.regfile = (r.state k).cpu.regs.regfile := by
  have hstep := step_store1 (v := cpuResetAddr) (h.coherent k) (h.undisturbed k) hs
  rw [← next_cpu] at hstep
  have hask : Asks r k .store2 (Cpu.State.storeBusOp (r.state k).cpu.dec.funct3)
      (r.state k).cpu.alu.result (r.state k).cpu.regs.regval2 :=
    ⟨by rw [hs]; rfl, by rw [hstep], by rw [hstep], ha⟩
  have hwrite : (Cpu.State.storeBusOp (r.state k).cpu.dec.funct3).write = true := by
    unfold Cpu.State.storeBusOp
    split_ifs <;> rfl
  have hans := hask.answered h
  obtain ⟨p, hp₁, hp₂, hstay, hbus, hup, -, -⟩ := store2_settles (r := cpuRun r) h.coherent
    h.undisturbed (m := k + 3) hans.state.2 hans.free
  have hbus' : ∀ j, k + 3 ≤ j → j ≤ p → (r.state j).cpu.bus.busy = false := by
    intro j hj₁ hj₂
    rw [show (r.state j).cpu.bus = (r.state (k + 3)).cpu.bus from hbus j hj₁ hj₂, hans.free]
  have hst : (r.state p).cpu.state = .updatePc := congrArg Cpu.State.state hup
  have hpath : ∀ j, k ≤ j → j < p → (r.state j).cpu.state.accessing = true := by
    intro j hj₁ hj₂
    rcases (by omega : j = k ∨ j = k + 1 ∨ j = k + 2 ∨ k + 3 ≤ j) with rfl | rfl | rfl | hj
    · rw [hs]; rfl
    · rw [hask.state]; rfl
    · rw [hans.state.1]; rfl
    · rw [show (r.state j).cpu.state = .store2 from hstay j hj hj₂]; rfl
  obtain ⟨hdst, -⟩ := (h.wired k).flow.stage .toStore (by rw [hs]; rfl)
  obtain ⟨hdec, -, hregs⟩ := h.carried_dec (by omega : k ≤ p) hpath
  have hno : (r.state p).cpu.writebackEn = false := by
    have hflag : (r.state p).cpu.writebackFromBus = false :=
      (congrArg Cpu.State.writebackFromBus hup).trans
        ((h.coherent (k + 3)).flags (by simp [hans.state.2])).1
    obtain ⟨-, h₁, h₂, -⟩ := stage_quiet (w := (r.state k).cpu.parcels) (Or.inr (Or.inl hdst))
    rw [Cpu.State.writebackEn, hdec, hflag, Cpu.State.dec, h₁, h₂]
    rfl
  have htime : k + 4 ≤ settleTime k (Cpu.State.storeBusOp (r.state k).cpu.dec.funct3) ∧
      settleTime k (Cpu.State.storeBusOp (r.state k).cpu.dec.funct3) ≤ k + 5 := by
    unfold settleTime
    split_ifs <;> omega
  obtain ⟨hrest, hirq, hcont⟩ := hask.settled h (hbus' _ (by omega) (by omega))
  rw [violates_eq ha (by rw [hstep]; exact (nextCheckTags_eq _).2) hans.before.1] at hirq
  obtain ⟨n, hn, hdone, hcont'⟩ := h.access_finish (p := p) (by omega) (by omega) (by omega)
    (Or.inr hdst) hpath hst (fun _ => hno) (fun j h₁ h₂ => hbus' j (by omega) (by omega)) hrest hirq
  refine ⟨n, hdone, ?_, ?_⟩
  · rw [hcont', hcont, hans.after, hwrite, if_pos rfl]
  · refine hn.regs.trans ((if_neg ?_).trans hregs)
    exact Bool.eq_false_iff.mp hno

end

end TagSoc.Soc
