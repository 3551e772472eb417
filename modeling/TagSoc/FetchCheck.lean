import TagSoc.SocAccess
import TagSoc.TrapRun

/-!
# The tag check of instruction fetches

The processor samples the interrupt lines in its decode clock and nowhere else.
The outcome of a fetch's tag comparison reaches the line in exactly that clock,
for one word and for two (`fetch_done`), so an instruction is executed or
trapped on its own tags (`fetch_check_precise`).
-/
namespace TagSoc.Cpu
open Clocked CpuBus Csr

variable {v : BitVec 32} {s : State} {i : Inputs}

/-- The states of a machine that has not started an instruction: parked, or on
the way to its decode clock. -/
def MainState.resting (m : MainState) : Bool := m.early || m == .cpuIdle

theorem step_resting (h : Coherent s) (u : Undisturbed s i) (hs : s.state.resting = true)
    (hno : s.state = .decode → s.takesInterrupt i = false) :
    (s.step v i).regs.regfile = s.regs.regfile ∧ (s.step v i).pc = s.pc ∧
      (s.step v i).csr = s.csr.rest := by
  by_cases hidle : s.state = .cpuIdle
  · rw [step_cpuIdle h u hidle]
    exact ⟨rfl, rfl, rfl⟩
  · have hearly : s.state.early = true := by simpa [MainState.resting, hidle] using hs
    obtain ⟨h₁, h₂, h₃, -⟩ := step_early (v := v) h u hearly hno
    exact ⟨h₁, h₂, h₃⟩

/-- What the decode clock of an interrupt presents to `mcause`. -/
theorem control_decode_interrupt (hs : s.state = .decode) (hi : s.takesInterrupt i = true) :
    (s.control i).trapOccured = true ∧ (s.control i).csrDataIn = s.interruptCause i := by
  simp [State.control, hs, State.controlDecode, hi]

end TagSoc.Cpu

namespace TagSoc.Soc
open Clocked Cpu CpuBus Csr Datapath WbRam

variable {g : ℕ}

section
variable {r : Run (State.step (g := g))} (h : Reached r)
include h

/-! ## Nothing happens before the decode clock -/

/-- Only a store writes the memory. -/
theorem Reached.contents_next {t : ℕ} (hs : (r.state t).cpu.state ≠ .store2)
    (hr : (r.state t).cpu.state ≠ .reset) :
    (r.state (t + 1)).ram.contents = (r.state t).ram.contents := by
  have hwe : ((r.state t).ramIn (r.input t)).we = false := by
    rw [ramIn_eq (h.master t)]
    refine Bool.eq_false_iff.mpr fun hw => ?_
    rcases (h.wired t).we hw with hst | hst
    · exact hs hst
    · exact hr hst
  rw [r.next, step_ram, (h.wired t).serving.contents_step, hwe]
  simp

theorem Reached.contents_const {t n : ℕ} (hn : t ≤ n)
    (hpath : ∀ j, t ≤ j → j < n → (r.state j).cpu.state ≠ .store2 ∧
      (r.state j).cpu.state ≠ .reset) :
    (r.state n).ram.contents = (r.state t).ram.contents := by
  induction n, hn using Nat.le_induction with
  | base => rfl
  | succ n hn ih =>
      obtain ⟨hs, hr⟩ := hpath n hn (by omega)
      exact (h.contents_next hs hr).trans (ih fun j h₁ h₂ => hpath j h₁ (by omega))

/-- The clocks `t` to `n` of a machine that has not started an instruction. -/
def Rests (r : Run (State.step (g := g))) (t n : ℕ) : Prop :=
  ∀ j, t ≤ j → j < n → (r.state j).cpu.state.resting = true ∧
    ((r.state j).cpu.state = .decode →
      (r.state j).cpu.takesInterrupt ((r.state j).cpuIn (r.input j)) = false)

theorem Reached.rests_kept {t n : ℕ} (hn : t ≤ n) (hpath : Rests r t n) :
    (r.state n).cpu.regs.regfile = (r.state t).cpu.regs.regfile ∧
      (r.state n).cpu.pc = (r.state t).cpu.pc ∧ Kept (r.state t).cpu.csr (r.state n).cpu.csr ∧
      (r.state n).ram.contents = (r.state t).ram.contents := by
  induction n, hn using Nat.le_induction with
  | base => exact ⟨rfl, rfl, Kept.refl _, rfl⟩
  | succ n hn ih =>
      obtain ⟨h₁, h₂, h₃, h₄⟩ := ih fun j hj hlt => hpath j hj (by omega)
      obtain ⟨hrest, hno⟩ := hpath n hn (by omega)
      obtain ⟨g₁, g₂, g₃⟩ := step_resting (v := cpuResetAddr) (h.coherent n) (h.undisturbed n)
        hrest hno
      rw [← next_cpu] at g₁ g₂ g₃
      have hcont : (r.state (n + 1)).ram.contents = (r.state n).ram.contents := by
        refine h.contents_next ?_ ?_ <;> intro hs <;> rw [hs] at hrest <;>
          exact absurd hrest (by decide)
      refine ⟨g₁.trans h₁, g₂.trans h₂, ?_, hcont.trans h₄⟩
      rw [g₃]
      exact h₃.trans (kept_rest _ (h.coherent n).csr_we)

/-- A raised interrupt line falls only in an update state. -/
theorem Reached.irq_sticky {t n : ℕ} (hn : t ≤ n)
    (hpath : ∀ j, t ≤ j → j < n → (r.state j).cpu.state ≠ .updatePc)
    (ht : (r.state t).ram.irq = true) : (r.state n).ram.irq = true := by
  induction n, hn using Nat.le_induction with
  | base => exact ht
  | succ n hn ih =>
      have hr : ((r.state n).ramIn (r.input n)).rst = false := h.rst n
      have hclear : ((r.state n).ramIn (r.input n)).clearMismatch = false :=
        Bool.eq_false_iff.mpr fun hc => hpath n hn (by omega) ((h.wired n).clear hc)
      rw [r.next, step_ram, WbRam.step_irq hr, hclear, ih fun j h₁ h₂ => hpath j h₁ (by omega)]
      simp

/-! ## A trap -/

/-- The interrupt that is taken in clock `d` has brought the processor to the
first clock `n` of the handler. -/
structure Trapped (r : Run (State.step (g := g))) (d n : ℕ) : Prop where
  later : d < n
  boundary : (r.state n).cpu.atBoundary = true
  path : ∀ j, d < j → j < n → (r.state j).cpu.state = .trap ∨ (r.state j).cpu.state = .updatePc
  pc : (r.state n).cpu.pc = (r.state d).cpu.csr.settled mTvec &&& ~~~1#32
  mcause : (r.state n).cpu.csr.settled mCause =
    (r.state d).cpu.interruptCause ((r.state d).cpuIn (r.input d))
  mepc : (r.state n).cpu.csr.settled mEpc = (r.state d).cpu.pc
  mie : ((r.state n).cpu.csr.settled mStatus).getLsbD 3 = false
  irqEn : (r.state n).cpu.csr.irqEn = false
  regs : (r.state n).cpu.regs.regfile = (r.state d).cpu.regs.regfile
  contents : (r.state n).ram.contents = (r.state d).ram.contents

theorem Reached.trapped {d : ℕ} (hs : (r.state d).cpu.state = .decode)
    (hi : (r.state d).cpu.takesInterrupt ((r.state d).cpuIn (r.input d)) = true) :
    ∃ n, Trapped r d n := by
  obtain ⟨hocc, hcause⟩ := control_decode_interrupt hs hi
  obtain ⟨k, hk, -, n, hn, ⟨hkn, hent⟩, hpath⟩ := trap_run (r := cpuRun r)
    (fun t => (h.wired t).flow) h.undisturbed (t := d) hocc
  have hbound : (r.state n).cpu.atBoundary = true := by
    unfold Cpu.State.atBoundary
    rcases hent.state with hst | hst <;>
      rw [show (r.state n).cpu.state = _ from hst] <;> rfl
  have hn' : (r.state n).cpu.csr.settled = (r.state n).cpu.csr.ram.mem :=
    settled_of_not_we _ ((h.coherent n).csr_we_boundary hbound)
  have hd : (r.state d).cpu.csr.settled = (r.state d).cpu.csr.ram.mem :=
    settled_of_not_we _ ((h.coherent d).csr_we_free (by rw [hs]; rfl))
  have hinner : ∀ j, d < j → j < n →
      (r.state j).cpu.state = .trap ∨ (r.state j).cpu.state = .updatePc :=
    fun j h₁ h₂ => hpath j h₁ h₂
  refine ⟨n, ⟨by omega, hbound, hinner, ?_, ?_, ?_, ?_, hent.irqEn, hent.regs, ?_⟩⟩
  · rw [hd]
    exact hent.pc
  · rw [hn']
    exact hent.mcause.trans hcause
  · rw [hn']
    exact hent.mepc
  · rw [hn']
    exact (hent.mstatus 3).trans rfl
  · refine h.contents_const (by omega) fun j h₁ h₂ => ?_
    rcases Nat.eq_or_lt_of_le h₁ with rfl | hlt
    · simp [hs]
    · rcases hinner j hlt h₂ with hst | hst <;> simp [hst]

/-! ## One word -/

/-- The tag in the address is not that of the granule it points to. -/
def tagsDiffer (s : State g) (a : BitVec 32) : Bool :=
  addrTag a != s.ram.contents.tags (granuleAddr g a)

/-- A 32-bit instruction starts in the upper half of a word. -/
def Straddles (s : State g) : Prop :=
  s.cpu.pc.getLsbD 1 = true ∧
    ((ramDevice g).read s.ram.contents 0b1111#4 s.cpu.pc).extractLsb' 16 2 = 3#2

instance (s : State g) : Decidable (Straddles s) := inferInstanceAs (Decidable (_ ∧ _))

/-- The first word of an instruction: four clocks, the last of which already
sees the outcome of the comparison. -/
theorem Reached.fetch_first {t : ℕ} (hs : (r.state t).cpu.state = .preFetch)
    (ha : periphSelect (r.state t).cpu.pc = wbAccessRam) :
    (∀ j, t < j → j < t + 4 → (r.state j).cpu.state = .fetch) ∧
    (¬ Straddles (r.state t) → (r.state (t + 4)).cpu.state = .decode) ∧
    (Straddles (r.state t) → (r.state (t + 4)).cpu.state = .prepairUnalignedFetch ∧
      (r.state (t + 4)).cpu.alu.result = (r.state t).cpu.pc + 2#32) ∧
    (r.state (t + 4)).cpu.checkTags = (r.state t).cpu.csr.tagsIfEn ∧
    (r.state (t + 4)).ram.irq = ((r.state t).ram.irq ||
      ((r.state t).cpu.csr.tagsIfEn && tagsDiffer (r.state t) (r.state t).cpu.pc)) := by
  have hstep := step_preFetch (v := cpuResetAddr) (h.coherent t) (h.undisturbed t) hs
  rw [← next_cpu] at hstep
  have hask : Asks r t .fetch .readw (r.state t).cpu.pc (r.state t).cpu.regs.regval2 :=
    ⟨by rw [hs]; rfl, by rw [hstep], by rw [hstep], ha⟩
  have hans := hask.answered h
  have hpath : ∀ j, t < j → j < t + 4 → (r.state j).cpu.state = .fetch := by
    intro j hj₁ hj₂
    rcases (by omega : j = t + 1 ∨ j = t + 2 ∨ j = t + 3) with rfl | rfl | rfl
    · exact hask.state
    · exact hans.state.1
    · exact hans.state.2
  have hkept := h.rests_kept (by omega : t ≤ t + 3) fun j h₁ h₂ => by
    rcases Nat.eq_or_lt_of_le h₁ with rfl | hlt
    · rw [hs]
      exact ⟨rfl, by simp⟩
    · rw [hpath j hlt (by omega)]
      exact ⟨rfl, by simp⟩
  have hpc := hkept.2.1
  have hbuf : (r.state (t + 3)).cpu.bus.buffer =
      (ramDevice g).read (r.state t).ram.contents 0b1111#4 (r.state t).cpu.pc := by
    rw [hans.buffer, loaded_readw]
  have hlast := step_fetch (v := cpuResetAddr) (h.coherent (t + 3)) (h.undisturbed (t + 3))
    hans.state.2
  rw [← next_cpu, hans.free, if_neg Bool.false_ne_true] at hlast
  have hstate : (r.state (t + 4)).cpu.state =
      if (r.state t).cpu.pc.getLsbD 1 = true ∧
        ((ramDevice g).read (r.state t).ram.contents 0b1111#4 (r.state t).cpu.pc).extractLsb' 16 2
          = 3#2 then .prepairUnalignedFetch else .decode := by
    rw [hlast]
    simp only [hpc, hbuf]
  have hready : (r.state (t + 4)).cpu.state.usesBus = false := by
    rw [hstate]
    split_ifs <;> rfl
  obtain ⟨-, hirq, -⟩ := hask.settled h ((h.wired (t + 4)).flow.bus_free hready)
  refine ⟨hpath, fun hno => hstate.trans (if_neg hno), fun hyes => ⟨hstate.trans (if_pos hyes), ?_⟩,
    ?_, ?_⟩
  · have halu : (r.state (t + 3)).cpu.alu.busy = false :=
      (h.coherent (t + 3)).alu_free (by rw [hans.state.2]; rfl)
    rw [hlast]
    simp only [Cpu.State.fetchLen, hpc, hyes.1, if_true]
    exact aluAdd_result halu _ _
  · rw [hlast]
    exact hans.checkTags.trans (by rw [hstep])
  · refine hirq.trans ?_
    simp only [violates, tagsDiffer, hans.before.1, hstep]

/-- The second word, if it is in the memory. -/
theorem Reached.fetch_second {u : ℕ} (hs : (r.state u).cpu.state = .prepairUnalignedFetch)
    (ha : periphSelect (r.state u).cpu.alu.result = wbAccessRam) :
    (∀ j, u ≤ j → j < u + 4 → (r.state j).cpu.state = .prepairUnalignedFetch ∨
      (r.state j).cpu.state = .fetchMore) ∧
    (r.state (u + 4)).cpu.state = .decode ∧
    (r.state (u + 4)).ram.irq = ((r.state u).ram.irq ||
      ((r.state u).cpu.checkTags && tagsDiffer (r.state u) (r.state u).cpu.alu.result)) := by
  have hstep := step_prepairUnalignedFetch (v := cpuResetAddr) (h.coherent u) (h.undisturbed u) hs
  rw [← next_cpu] at hstep
  have hask : Asks r u .fetchMore .readw (r.state u).cpu.alu.result (r.state u).cpu.regs.regval2 :=
    ⟨by rw [hs]; rfl, by rw [hstep], by rw [hstep], ha⟩
  have hans := hask.answered h
  have hlast := step_fetchMore (v := cpuResetAddr) (h.coherent (u + 3)) (h.undisturbed (u + 3))
    hans.state.2
  rw [← next_cpu, hans.free, if_neg Bool.false_ne_true] at hlast
  have hstate : (r.state (u + 4)).cpu.state = .decode := by rw [hlast]
  obtain ⟨-, hirq, -⟩ := hask.settled h ((h.wired (u + 4)).flow.bus_free (by rw [hstate]; rfl))
  refine ⟨?_, hstate, hirq.trans ?_⟩
  · intro j hj₁ hj₂
    rcases (by omega : j = u ∨ j = u + 1 ∨ j = u + 2 ∨ j = u + 3) with rfl | rfl | rfl | rfl
    · exact Or.inl hs
    · exact Or.inr hask.state
    · exact Or.inr hans.state.1
    · exact Or.inr hans.state.2
  · simp only [violates, tagsDiffer, hans.before.1, hstep]

omit h in
/-- The timer answers a request in the next clock. -/
theorem step_timer_ack {s : State g} {i : Inputs} (hm : i.busMaster = false)
    (hr : i.rst = false) :
    (s.step i).timer.ack =
      (s.cpu.bus.cyc && s.cpuMaster.accessTimer && !s.timer.ack) := by
  have hcyc : (s.timerIn i).cyc = (s.cpu.bus.cyc && s.cpuMaster.accessTimer) := by
    simp only [State.timerIn, master_eq hm]
    rfl
  have hrst : (s.timerIn i).rst = false := hr
  rw [← hcyc]
  simp [State.step, WbTimer.State.step, hrst]

/-- A request to the timer is held for one clock and then answered, and the memory sees none
of it. -/
theorem Reached.timer_request {t : ℕ} (hcyc : (r.state t).cpu.bus.cyc = true)
    (hbusy : (r.state t).cpu.bus.busy = true)
    (ha : periphSelect (r.state t).cpu.bus.adr = wbAccessTimer)
    (hack : (r.state t).timer.ack = false) :
    (r.state (t + 1)).cpu.bus.busy = true ∧ (r.state (t + 2)).cpu.bus.busy = false ∧
      ∀ j, t ≤ j → j ≤ t + 2 → ((r.state j).ramIn (r.input j)).requests = false := by
  have hsel : ∀ j, (r.state j).cpu.bus.adr = (r.state t).cpu.bus.adr →
      (r.state j).cpuMaster.accessTimer = true ∧
        ((r.state j).ramIn (r.input j)).requests = false := by
    intro j hj
    refine ⟨by simp [State.cpuMaster, Master.accessTimer, hj, ha], ?_⟩
    refine Bool.eq_false_iff.mpr fun hreq => ?_
    have hram := (cyc_of_requests (h.master j) hreq).2
    simp [State.cpuMaster, Master.accessRam, hj, ha, wbAccessTimer, wbAccessRam] at hram
  have hbus₁ : (r.state (t + 1)).cpu.bus = (r.state t).cpu.bus := by
    rw [r.next t]
    exact (h.wired _).bus_held hcyc ((cpuAck_of_timer (h.master _) (hsel _ rfl).1).trans hack)
  have hadr₁ : (r.state (t + 1)).cpu.bus.adr = (r.state t).cpu.bus.adr := by rw [hbus₁]
  have hbusy₁ : (r.state (t + 1)).cpu.bus.busy = true := by rw [hbus₁, hbusy]
  have hack₁ : ((r.state (t + 1)).cpuIn (r.input (t + 1))).ack = true := by
    refine (cpuAck_of_timer (h.master _) (hsel _ hadr₁).1).trans ?_
    rw [r.next t, step_timer_ack (h.master _) (h.rst _), hcyc, (hsel _ rfl).1, hack]
    rfl
  have hbus₂ := (h.wired (t + 1)).flow.bus_of_busy (v := cpuResetAddr)
    (i := (r.state (t + 1)).cpuIn (r.input (t + 1))) hbusy₁
  rw [← next_cpu, hack₁] at hbus₂
  have hadr₂ : (r.state (t + 2)).cpu.bus.adr = (r.state t).cpu.bus.adr := by
    rw [r.next (t + 1)]
    exact ((h.wired (t + 1)).adr_kept hbusy₁).trans hadr₁
  refine ⟨hbusy₁, by rw [hbus₂]; rfl, fun j hj₁ hj₂ => ?_⟩
  rcases (by omega : j = t ∨ j = t + 1 ∨ j = t + 2) with rfl | rfl | rfl
  · exact (hsel _ rfl).2
  · exact (hsel _ hadr₁).2
  · exact (hsel _ hadr₂).2

/-- The second word, if the instruction is the last halfword of the memory's
region: the timer answers, in the same number of clocks, and the memory and its
interrupt line are left alone. -/
theorem Reached.fetch_timer {u : ℕ} (hs : (r.state u).cpu.state = .prepairUnalignedFetch)
    (ha : periphSelect (r.state u).cpu.alu.result = wbAccessTimer) :
    (∀ j, u ≤ j → j < u + 4 → (r.state j).cpu.state = .prepairUnalignedFetch ∨
      (r.state j).cpu.state = .fetchMore) ∧
    (r.state (u + 4)).cpu.state = .decode ∧ (r.state (u + 4)).ram.irq = (r.state u).ram.irq := by
  have hstep := step_prepairUnalignedFetch (v := cpuResetAddr) (h.coherent u) (h.undisturbed u) hs
  rw [← next_cpu] at hstep
  have hcyc : (r.state u).cpu.bus.cyc = false :=
    (h.coherent u).cyc.trans ((h.coherent u).bus_free (by rw [hs]; rfl))
  have hack : (r.state (u + 1)).timer.ack = false := by
    rw [r.next, step_timer_ack (h.master u) (h.rst u), hcyc]
    rfl
  have hbusy₁ : (r.state (u + 1)).cpu.bus.busy = true := by rw [hstep]; rfl
  obtain ⟨hbusy₂, hfree, hnone⟩ := h.timer_request (t := u + 1) (by rw [hstep]; rfl) hbusy₁
    (by rw [hstep]; exact ha) hack
  have hst₁ : (r.state (u + 1)).cpu.state = .fetchMore := by rw [hstep]
  have hst₂ := (h.wait hbusy₁).1.trans hst₁
  have hst₃ := (h.wait hbusy₂).1.trans hst₂
  have hlast := step_fetchMore (v := cpuResetAddr) (h.coherent (u + 3)) (h.undisturbed (u + 3)) hst₃
  rw [← next_cpu, hfree, if_neg Bool.false_ne_true] at hlast
  have hpath : ∀ j, u ≤ j → j < u + 4 → (r.state j).cpu.state = .prepairUnalignedFetch ∨
      (r.state j).cpu.state = .fetchMore := by
    intro j hj₁ hj₂
    rcases (by omega : j = u ∨ j = u + 1 ∨ j = u + 2 ∨ j = u + 3) with rfl | rfl | rfl | rfl
    · exact Or.inl hs
    · exact Or.inr hst₁
    · exact Or.inr hst₂
    · exact Or.inr hst₃
  have hno : ∀ j, u ≤ j → j < u + 4 → ((r.state j).ramIn (r.input j)).requests = false := by
    intro j hj₁ hj₂
    rcases Nat.eq_or_lt_of_le hj₁ with rfl | hj
    · exact (h.wired _).not_requests (h.master _) ((h.coherent _).bus_free (by rw [hs]; rfl))
    · exact hnone j hj (by omega)
  have hclear : ∀ j, u ≤ j → j < u + 4 → (r.state j).cpu.csr.tagsIrqClear = false := by
    intro j hj₁ hj₂
    refine Bool.eq_false_iff.mpr fun hc => ?_
    have hup := (h.wired j).clear hc
    rcases hpath j hj₁ hj₂ with hst | hst <;> exact absurd (hup.symm.trans hst) (by decide)
  obtain ⟨-, -, hirq⟩ := h.ram_quiet (by omega : u ≤ u + 4)
    ((h.wired u).ramRests (h.master u) (by rw [hs]; rfl)) hno hclear
  exact ⟨hpath, by rw [hlast], hirq⟩

/-! ## The whole fetch -/

/-- One of the words of the instruction at the program counter has a tag of its
own. Past the end of the memory's region there is no tag to compare with. -/
def FetchMismatch (s : State g) : Prop :=
  tagsDiffer s s.cpu.pc = true ∨
    Straddles s ∧ periphSelect (s.cpu.pc + 2#32) = wbAccessRam ∧
      tagsDiffer s (s.cpu.pc + 2#32) = true

instance (s : State g) : Decidable (FetchMismatch s) :=
  inferInstanceAs (Decidable (_ ∨ _ ∧ _ ∧ _))

omit h in
/-- The halfword after one in the memory's region is in it or in the timer's. -/
theorem periphSelect_add_two {a : BitVec 32} (ha : periphSelect a = wbAccessRam) :
    periphSelect (a + 2#32) = wbAccessRam ∨ periphSelect (a + 2#32) = wbAccessTimer := by
  have hlt := a.isLt
  simp only [periphSelect, wbAccessRam, wbAccessTimer, ← BitVec.toNat_inj,
    BitVec.extractLsb'_toNat, BitVec.toNat_add, Nat.shiftRight_eq_div_pow, BitVec.toNat_ofNat]
    at ha ⊢
  omega

/-- From the boundary `t` to the decode clock `d` of an instruction. -/
structure Decodes (r : Run (State.step (g := g))) (t d : ℕ) : Prop where
  later : t < d ∧ d ≤ t + 8
  state : (r.state d).cpu.state = .decode
  start : (r.state t).cpu.state = .preFetch
  path : ∀ j, t < j → j < d → (r.state j).cpu.state.fetching = true ∧
    (r.state j).cpu.state ≠ .decode
  irq : (r.state d).ram.irq = true ↔ (r.state t).ram.irq = true ∨
    (r.state t).cpu.csr.tagsIfEn = true ∧ FetchMismatch (r.state t)

theorem Reached.fetch_done {t : ℕ} (hs : (r.state t).cpu.state = .preFetch)
    (ha : periphSelect (r.state t).cpu.pc = wbAccessRam) : ∃ d, Decodes r t d := by
  obtain ⟨hpath, hshort, hlong, hcheck, hirq⟩ := h.fetch_first hs ha
  have hfirst : ∀ j, t < j → j < t + 4 → (r.state j).cpu.state.fetching = true ∧
      (r.state j).cpu.state ≠ .decode := by
    intro j h₁ h₂
    rw [hpath j h₁ h₂]
    exact ⟨rfl, by decide⟩
  by_cases hst : Straddles (r.state t)
  · obtain ⟨hprep, hadr⟩ := hlong hst
    have hcont : (r.state (t + 4)).ram.contents = (r.state t).ram.contents := by
      refine h.contents_const (by omega) fun j h₁ h₂ => ?_
      rcases Nat.eq_or_lt_of_le h₁ with rfl | hlt
      · simp [hs]
      · simp [hpath j hlt h₂]
    have hdiffer : tagsDiffer (r.state (t + 4)) = tagsDiffer (r.state t) := by
      funext a
      rw [tagsDiffer, hcont, tagsDiffer]
    have hall : (∀ j, t + 4 ≤ j → j < t + 4 + 4 →
          (r.state j).cpu.state = .prepairUnalignedFetch ∨ (r.state j).cpu.state = .fetchMore) →
        ∀ j, t < j → j < t + 8 → (r.state j).cpu.state.fetching = true ∧
          (r.state j).cpu.state ≠ .decode := by
      intro hsecond j h₁ h₂
      rcases Nat.lt_or_ge j (t + 4) with hlt | hge
      · exact hfirst j h₁ hlt
      · rcases hsecond j hge (by omega) with hp | hp <;> rw [hp] <;> exact ⟨rfl, by decide⟩
    rcases periphSelect_add_two ha with hram | htimer
    · obtain ⟨hsecond, hdec, hirq'⟩ := h.fetch_second hprep (by rw [hadr, hram])
      refine ⟨t + 8, ⟨by omega, by omega⟩, hdec, hs, hall hsecond, ?_⟩
      rw [show t + 8 = t + 4 + 4 from rfl, hirq', hirq, hcheck, hadr, hdiffer]
      simp only [FetchMismatch, hst, hram, true_and, Bool.or_eq_true, Bool.and_eq_true]
      tauto
    · obtain ⟨hsecond, hdec, hirq'⟩ := h.fetch_timer hprep (by rw [hadr, htimer])
      refine ⟨t + 8, ⟨by omega, by omega⟩, hdec, hs, hall hsecond, ?_⟩
      rw [show t + 8 = t + 4 + 4 from rfl, hirq', hirq]
      simp [FetchMismatch, htimer, wbAccessTimer, wbAccessRam]
  · refine ⟨t + 4, ⟨by omega, by omega⟩, hshort hst, hs, hfirst, ?_⟩
    rw [hirq]
    simp [FetchMismatch, hst]

omit h in
theorem Decodes.early {t d : ℕ} (hd : Decodes r t d) {j : ℕ} (h₁ : t ≤ j) (h₂ : j < d) :
    (r.state j).cpu.state.early = true ∧ (r.state j).cpu.state ≠ .decode := by
  rcases Nat.eq_or_lt_of_le h₁ with rfl | hlt
  · rw [hd.start]
    exact ⟨rfl, by decide⟩
  · obtain ⟨hf, hne⟩ := hd.path j hlt h₂
    exact ⟨MainState.early_of_fetching hf, hne⟩

/-- The fetch leaves everything else as it was. -/
theorem Decodes.kept {t d : ℕ} (hd : Decodes r t d) :
    (r.state d).cpu.regs.regfile = (r.state t).cpu.regs.regfile ∧
      (r.state d).cpu.pc = (r.state t).cpu.pc ∧ Kept (r.state t).cpu.csr (r.state d).cpu.csr ∧
      (r.state d).ram.contents = (r.state t).ram.contents := by
  refine h.rests_kept hd.later.1.le fun j h₁ h₂ => ?_
  obtain ⟨hearly, hne⟩ := hd.early h₁ h₂
  exact ⟨by simp [MainState.resting, hearly], fun hdec => absurd hdec hne⟩

omit h in
theorem Trapped.fromDecode {d n : ℕ} (hn : Trapped r d n) : NextBoundary (cpuRun r) d n := by
  refine ⟨hn.later, hn.boundary, fun j h₁ h₂ => ?_⟩
  change (r.state j).cpu.atBoundary = false
  rcases hn.path j h₁ h₂ with hj | hj <;> simp [Cpu.State.atBoundary, hj]

omit h in
/-- The boundary after an interrupt that is taken in the decode clock. -/
theorem Trapped.next {t d n : ℕ} (hd : Decodes r t d) (hn : Trapped r d n) :
    NextBoundary (cpuRun r) t n ∧ ∀ j, t ≤ j → j ≤ n → (r.state j).cpu.state ≠ .exec := by
  have hbetween : ∀ j, t < j → j < n → (r.state j).cpu.state.fetching = true ∨
      (r.state j).cpu.state = .trap ∨ (r.state j).cpu.state = .updatePc := by
    intro j h₁ h₂
    rcases Nat.lt_trichotomy j d with hlt | rfl | hgt
    · exact Or.inl (hd.path j h₁ hlt).1
    · rw [hd.state]
      exact Or.inl rfl
    · exact Or.inr (hn.path j hgt h₂)
  refine ⟨⟨hd.later.1.trans hn.later, hn.boundary, fun j h₁ h₂ => ?_⟩, fun j h₁ h₂ hexec => ?_⟩
  · change (r.state j).cpu.atBoundary = false
    rcases hbetween j h₁ h₂ with hj | hj | hj
    · exact atBoundary_of_fetching hj
    · simp [Cpu.State.atBoundary, hj]
    · simp [Cpu.State.atBoundary, hj]
  · rcases Nat.eq_or_lt_of_le h₁ with rfl | hlt
    · simp [hd.start] at hexec
    · rcases Nat.eq_or_lt_of_le h₂ with rfl | hlt'
      · simpa [Cpu.State.atBoundary, hexec] using hn.boundary
      · rcases hbetween j hlt hlt' with hj | hj | hj <;> rw [hexec] at hj <;>
          exact absurd hj (by decide)

end

/-! ## Precision -/

/-- In clock `t` an instruction in the memory's region is about to be fetched,
with interrupts and the check of fetches enabled. If one of its words has the
wrong tag, it does not reach the execute state, changes no register and no part
of the memory, and the handler starts with its address in `mepc`. If not, and
the tag interrupt was not pending, the line stays low up to and after the decode
clock, and the instruction is executed unless the timer interrupt is taken. -/
theorem fetch_check_precise {r : Run (State.step (g := g))} (h : Reached r) {t : ℕ}
    (hs : (r.state t).cpu.state = .preFetch)
    (ha : periphSelect (r.state t).cpu.pc = wbAccessRam)
    (hif : (r.state t).cpu.csr.tagsIfEn = true) (hen : (r.state t).cpu.csr.irqEn = true) :
    (FetchMismatch (r.state t) →
      ∃ n, NextBoundary (cpuRun r) t n ∧
        (∀ j, t ≤ j → j ≤ n → (r.state j).cpu.state ≠ .exec) ∧
        (r.state n).cpu.regs.regfile = (r.state t).cpu.regs.regfile ∧
        (r.state n).ram.contents = (r.state t).ram.contents ∧
        (r.state n).cpu.csr.settled mEpc = (r.state t).cpu.pc ∧
        (r.state n).cpu.pc = (r.state t).cpu.csr.settled mTvec &&& ~~~1#32) ∧
    (¬ FetchMismatch (r.state t) → (r.state t).ram.irq = false →
      ∃ d, t < d ∧ (r.state d).cpu.state = .decode ∧
        (∀ j, t < j → j < d → (r.state j).cpu.state.fetching = true ∧
          (r.state j).cpu.state ≠ .decode) ∧
        (∀ j, t ≤ j → j ≤ d + 1 → (r.state j).ram.irq = false) ∧
        ((r.state d).timer.irq = false ∨ (r.state t).cpu.csr.irqTimerEn = false →
          (r.state (d + 1)).cpu.state = .exec ∧ (r.state (d + 1)).cpu.pc = (r.state t).cpu.pc)) := by
  obtain ⟨d, hd⟩ := h.fetch_done hs ha
  obtain ⟨hregs, hpc, hkept, hcont⟩ := hd.kept h
  refine ⟨fun hmis => ?_, fun hok hlow => ?_⟩
  · have hi : (r.state d).cpu.takesInterrupt ((r.state d).cpuIn (r.input d)) = true := by
      have hline : ((r.state d).cpuIn (r.input d)).tagsInterrupt = true :=
        hd.irq.mpr (Or.inr ⟨hif, hmis⟩)
      simp [Cpu.State.takesInterrupt, Cpu.State.interruptOccured, hline, hkept.irqEn, hen]
    obtain ⟨n, hn⟩ := h.trapped hd.state hi
    obtain ⟨hnext, hexec⟩ := hn.next hd
    refine ⟨n, hnext, hexec, hn.regs.trans hregs, hn.contents.trans hcont, hn.mepc.trans hpc, ?_⟩
    rw [hn.pc, hkept.settled]
  · have hirq : (r.state d).ram.irq = false := by
      refine Bool.eq_false_iff.mpr fun hc => ?_
      rcases hd.irq.mp hc with hold | ⟨-, hmis⟩
      · simp [hlow] at hold
      · exact hok hmis
    have hafter : (r.state (d + 1)).ram.irq = false := by
      obtain ⟨-, -, hstep⟩ := (h.wired d).ramRests_step (h.master d) (h.rst d)
        ((h.wired d).ramRests (h.master d) (by rw [hd.state]; rfl))
        ((h.coherent d).bus_free (by rw [hd.state]; rfl))
      rw [r.next, hstep, hirq, Bool.and_false]
    refine ⟨d, hd.later.1, hd.state, hd.path, fun j h₁ h₂ => ?_, fun htimer => ?_⟩
    · rcases (by omega : j = d + 1 ∨ j ≤ d) with rfl | hle
      · exact hafter
      · -- the line cannot fall again before the decode clock
        refine Bool.eq_false_iff.mpr fun hc => ?_
        have hd' := h.irq_sticky hle (fun i h₁ h₂ hup => by
          have := (hd.early (by omega : t ≤ i) h₂).1
          rw [hup] at this
          exact absurd this (by decide)) hc
        simp [hirq] at hd'
    · have hi : (r.state d).cpu.takesInterrupt ((r.state d).cpuIn (r.input d)) = false := by
        have hline : ((r.state d).cpuIn (r.input d)).tagsInterrupt = false := hirq
        have hclock : ((r.state d).cpuIn (r.input d)).timerInterrupt = (r.state d).timer.irq := rfl
        have htimerEn : (r.state d).cpu.csr.irqTimerEn = (r.state t).cpu.csr.irqTimerEn :=
          congrArg Prod.fst hkept.enables
        rcases htimer with ht | ht <;>
          simp [Cpu.State.takesInterrupt, Cpu.State.interruptOccured, hline, hclock, htimerEn, ht]
      rw [next_cpu, step_decode (h.coherent d) (h.undisturbed d) hd.state hi]
      exact ⟨rfl, hpc⟩

/-- `csrwi mstatus, 8`, `csrwi tags, 4` and `nop`, over a memory whose tags are
all the same. -/
def fetchingChecked (tag : BitVec 4) : Run (State.step (g := 1)) :=
  booted (fun _ => 0#32) (fun _ => 0#32) [0x30045073#32, 0x34525073#32, 0x13#32] fun _ => tag

theorem fetchingChecked_reached (tag : BitVec 4) : Reached (fetchingChecked tag) :=
  booted_reached _ _ _ _ rfl

/-- The third instruction is trapped if the tags are one and executed if they
are zero. -/
theorem fetch_check_both :
    (∃ n, NextBoundary (cpuRun (fetchingChecked 1#4)) 25 n ∧
      ((fetchingChecked 1#4).state n).cpu.csr.settled mEpc = 0x1008#32) ∧
    ∃ d, 25 < d ∧ ((fetchingChecked 0#4).state (d + 1)).cpu.state = .exec ∧
      ((fetchingChecked 0#4).state (d + 1)).cpu.pc = 0x1008#32 := by
  obtain ⟨hbad, -⟩ := fetch_check_precise (fetchingChecked_reached 1#4) (t := 25)
    (by decide +kernel) (by decide +kernel) (by decide +kernel) (by decide +kernel)
  obtain ⟨-, hgood⟩ := fetch_check_precise (fetchingChecked_reached 0#4) (t := 25)
    (by decide +kernel) (by decide +kernel) (by decide +kernel) (by decide +kernel)
  constructor
  · obtain ⟨n, hnext, -, -, -, hepc, -⟩ := hbad (by decide +kernel)
    exact ⟨n, hnext, hepc.trans (by decide +kernel)⟩
  · obtain ⟨d, hd, -, -, -, hexec⟩ := hgood (by decide +kernel) (by decide +kernel)
    obtain ⟨hst, hpc⟩ := hexec (Or.inr (by decide +kernel))
    exact ⟨d, hd, hst, hpc.trans (by decide +kernel)⟩

end TagSoc.Soc
