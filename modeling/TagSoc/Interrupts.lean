import TagSoc.CsrReads

/-!
# Interrupt bookkeeping

The cause that is recorded when an interrupt is taken, and the pending bit of
the timer in `mip`. The request for a tag interrupt ignores the enable bit, the
choice of the cause does not; the pending bit is cleared by a decoder that
looks at three address bits and hardly at anything else.
-/
namespace TagSoc.Cpu
open Csr Decoder

section mip
variable {s : State} {i : Inputs}

/-- The word that replaces bit 7 of another. -/
theorem mip_bit7 (x : BitVec 32) (b : BitVec 1) :
    (x.extractLsb' 8 24 ++ b ++ x.extractLsb' 0 7).getLsbD 7 = b.getLsbD 0 := by
  simp only [BitVec.getLsbD_append]
  simp

/-- The three writers of `mip`. -/
theorem csrRequest_mip (hw : (s.csrRequest i).we = true)
    (ha : (s.csrRequest i).addr = msrMip) :
    (s.csrRequest i).data.getLsbD 7 = true ∨
      s.state = .csr2 ∧ s.csrAddr = msrMip ∧ (s.csrRequest i).data = s.csrWriteData ∨
      s.state = .store2 ∧ i.clearMipTimer = true := by
  unfold State.csrRequest at hw ha ⊢
  split_ifs at hw ha ⊢ with ht hm
  · left
    unfold State.trapCsr at hw ha ⊢
    cases hq : s.trapState <;> rw [hq] at hw ha
    case storeMip => exact mip_bit7 s.csr.dataOut 1#1
    case storeStatus | storeEpc | storeTval =>
      exact absurd ha (by simp [msrMip, msrMstatus, msrMepc, msrMtval])
    all_goals exact absurd hw Bool.false_ne_true
  · obtain ⟨-, haddr⟩ := mretCsr_we hw
    exact absurd (ha.symm.trans haddr) (by decide)
  · right
    dsimp only at hw ha ⊢
    cases hs : s.state
    case csr2 =>
      refine Or.inl ⟨rfl, ?_, by simp [State.control, hs]⟩
      simpa [State.control, hs, State.csrAddr] using ha
    case store2 => exact Or.inr ⟨rfl, by simpa [State.control, hs, State.controlStore2] using hw⟩
    case decode =>
      have hi : s.takesInterrupt i = true := by simpa [State.control, hs, State.controlDecode] using hw
      exact absurd ha (by simp [State.control, hs, State.controlDecode, hi, msrMcause, msrMip])
    case system =>
      rw [State.control, hs] at hw ha
      revert hw ha
      simp only [State.controlSystem]
      cases systemKind s.dec <;> simp [State.controlRaise, msrMcause, msrMip]
    case updatePc => exact absurd hw (by simp [State.control, hs, controlUpdatePc_eq])
    all_goals
      exact absurd hw (by simp [State.control, hs, State.controlFetch, State.controlLoad1,
        State.controlStore1])

/-- The new word of an instruction that does not write. -/
theorem csrWriteData_getLsbD_read (hf : s.dec.funct3 ≠ funcCsrrw) (hf' : s.dec.funct3 ≠ funcCsrrwi)
    (hz : s.dec.rs1 = 0#5) (hv : s.regs.regval1 = 0#32) (h : s.csr.dataOut.getLsbD 7 = true) :
    s.csrWriteData.getLsbD 7 = true := by
  rw [csrWriteData_eq, csrNew, if_neg hf, if_neg hf', hz, hv]
  split_ifs
  · rw [BitVec.getLsbD_or, h, Bool.or_true]
  · rw [BitVec.getLsbD_or, h, Bool.or_true]
  · rw [BitVec.getLsbD_and, h, Bool.and_true]
    decide
  · rw [BitVec.getLsbD_and, h, Bool.and_true]
    decide
  · decide

end mip

end TagSoc.Cpu

namespace TagSoc.Soc
open Clocked Cpu Csr Decoder Zicsr

variable {g : ℕ}

/-! ## The recorded cause -/

/-- The cause names a source that is there and enabled. -/
def NamesSource (s s' : State g) : Prop :=
  if s.ram.irq = true then s'.cpu.csr.settled mCause = causeTagMismatch
  else s'.cpu.csr.settled mCause = causeTimerInterrupt ∧
    (s.cpu.csr.settled mIe).getLsbD 7 = true

/-- The word that the decode clock of an interrupt leaves in `mcause`. -/
theorem cause_of_interrupt {s : State g} {i : Inputs} (w : Wired s i) (hm : i.busMaster = false)
    (hh : i.extCpuHalt = false) (hr : i.cpuRst = false) (hs : s.cpu.state = .decode)
    (hi : s.cpu.takesInterrupt (s.cpuIn i) = true) :
    (s.step i).cpu.csr.settled mCause = s.cpu.interruptCause (s.cpuIn i) := by
  have hfree := w.flow.csr_free (by rw [hs]; rfl)
  rw [step_cpu, step_decode_interrupt w.flow.toCoherent (w.undisturbed hm hh hr) hs hi]
  dsimp only
  rw [clock_settled _ _ w.flow.csr_we, hfree]
  change writeWord s.cpu.csr.settled msrMcause _ (csrIndex msrMcause) = _
  exact writeWord_self (by decide)

/-- The recorded cause is right exactly if the tag line is low or the tag check
of data accesses is enabled in the decode clock. -/
theorem interrupt_cause_names_source_iff {r : Run (State.step (g := g))} (hp : Powered r) {t : ℕ}
    (ht : 0 < t) (hr : (r.input t).cpuRst = false) (hs : (r.state t).cpu.state = .decode)
    (hi : (r.state t).cpu.takesInterrupt ((r.state t).cpuIn (r.input t)) = true) :
    NamesSource (r.state t) (r.state (t + 1)) ↔
      (r.state t).ram.irq = false ∨ (r.state t).cpu.csr.tagsEn = true := by
  have w := hp.wired ht
  have hcause := cause_of_interrupt w (hp.master t) (hp.halt t) hr hs hi
  rw [← r.next t] at hcause
  rw [NamesSource, hcause]
  cases hirq : (r.state t).ram.irq with
  | true =>
      have hline : ((r.state t).cpuIn (r.input t)).tagsInterrupt = true := hirq
      rw [if_pos rfl, Cpu.State.interruptCause, hline, Bool.true_and]
      cases hen : (r.state t).cpu.csr.tagsEn with
      | true => simp
      | false =>
          simp only [Bool.false_eq_true, if_false, or_false]
          split_ifs <;> decide
  | false =>
      have hline : ((r.state t).cpuIn (r.input t)).tagsInterrupt = false := hirq
      obtain ⟨⟨htimer, hen⟩, -⟩ : (((r.state t).cpuIn (r.input t)).timerInterrupt = true ∧
          (r.state t).cpu.csr.irqTimerEn = true) ∧ (r.state t).cpu.csr.irqEn = true := by
        simpa [Cpu.State.takesInterrupt, Cpu.State.interruptOccured, hline] using hi
      simp [Cpu.State.interruptCause, hline, htimer, w.flow.timer hen]

/-- `csrwi mstatus, 8` and `csrwi tags, bits` over a memory whose tags are all
one; if the bits ask for it, the next fetch is a violation. -/
def violating (bits : BitVec 5) : Run (State.step (g := 1)) :=
  boot (fun _ => 0#32) (fun _ => 0#32)
    [0x30045073#32, CsrInstr.encode ⟨.csrrwi, 0#5, bits, msrMtags⟩, 0x13#32] fun _ => 1#4

theorem violating_powered (bits : BitVec 5) : Powered (violating bits) := boot_powered _ _ _ _ rfl

theorem interrupt_cause_both_checks :
    NamesSource ((violating 5#5).state 30) ((violating 5#5).state 31) := by
  have hiff := interrupt_cause_names_source_iff (violating_powered 5#5) (t := 30) (by decide)
    (by decide +kernel) (by decide +kernel) (by decide +kernel)
  exact hiff.mpr (Or.inr (by decide +kernel))

/-- With only the fetch check enabled the recorded cause is the timer, whose
interrupt is disabled. -/
theorem interrupt_cause_fetch_check :
    Powered (violating 4#5) ∧ ((violating 4#5).input 30).cpuRst = false ∧
      ((violating 4#5).state 30).cpu.state = .decode ∧
      ((violating 4#5).state 30).cpu.takesInterrupt
        (((violating 4#5).state 30).cpuIn ((violating 4#5).input 30)) = true ∧
      ((violating 4#5).state 30).ram.irq = true ∧
      ((violating 4#5).state 30).cpu.csr.irqTimerEn = false ∧
      ((violating 4#5).state 31).cpu.csr.settled mCause = causeTimerInterrupt := by
  refine ⟨violating_powered _, ?_, ?_, ?_, ?_, ?_, ?_⟩ <;> decide +kernel

/-! ## The pending bit of the timer -/

def timerPending (s : State g) : Bool := (s.cpu.csr.settled mIp).getLsbD 7

/-- The timer register that the address on the bus names. -/
def timerReg (s : State g) : BitVec 3 := s.cpu.bus.adr.extractLsb' 2 3

/-- A store to one of the two compare registers. -/
def StoresMtimecmp (s : State g) : Prop :=
  s.cpu.state = .store2 ∧ s.cpuMaster.accessTimer = true ∧
    (timerReg s = WbTimer.mtimecmpLo ∨ timerReg s = WbTimer.mtimecmpHi)

/-- A CSR instruction that counts as a write, on `mip`. -/
def WritesMip (s : State g) : Prop :=
  s.cpu.state = .csr2 ∧ s.cpu.csrAddr = msrMip ∧
    (s.cpu.dec.funct3 = funcCsrrw ∨ s.cpu.dec.funct3 = funcCsrrwi ∨ s.cpu.dec.rs1 ≠ 0#5)

/-- A store outside the timer to an address whose bits 4:2 are those of the
upper compare register. -/
def StrayStore (s : State g) : Prop :=
  s.cpu.state = .store2 ∧ s.cpuMaster.accessTimer = false ∧ timerReg s = WbTimer.mtimecmpHi

theorem clearMipTimer_eq {s : State g} {i : Inputs} (hm : i.busMaster = false) :
    (s.cpuIn i).clearMipTimer =
      ((s.cpu.bus.cyc && s.cpuMaster.accessTimer && s.cpu.bus.we &&
        timerReg s == WbTimer.mtimecmpLo) || timerReg s == WbTimer.mtimecmpHi) := by
  simp [State.cpuIn, State.timerIn, WbTimer.Inputs.mtimecmpAccessed, WbTimer.Inputs.reg,
    master_eq hm, timerReg, State.cpuMaster]

/-- One clock. -/
theorem timerPending_step {s : State g} {i : Inputs} (w : Wired s i) (ho : CsrOperands s.cpu)
    (hm : i.busMaster = false) (h : timerPending s = true) (hstore : ¬ StoresMtimecmp s)
    (hwrite : ¬ WritesMip s) (hstray : ¬ StrayStore s) : timerPending (s.step i) = true := by
  cases hr : i.cpuRst with
  | true =>
      rw [timerPending, step_cpu, reset_settled (i := s.cpuIn i) hr]
      exact h
  | false =>
      rw [timerPending, step_cpu, Cpu.step_csr_eq (i := s.cpuIn i) hr,
        clock_settled _ _ w.flow.csr_we]
      split_ifs with htaken
      · obtain ⟨-, hwe⟩ : _ ∧ (s.cpu.csrRequest (s.cpuIn i)).we = true := by
          simpa using htaken
        by_cases hidx : mIp = csrIndex (s.cpu.csrRequest (s.cpuIn i)).addr
        · have ha : (s.cpu.csrRequest (s.cpuIn i)).addr = msrMip :=
            csrIndex_inj (b := msrMip) (hidx.symm.trans rfl) (by decide)
          rw [hidx, writeWord_self (by rw [ha]; decide)]
          rcases csrRequest_mip hwe ha with hset | ⟨hs, haddr, hdata⟩ | ⟨hs, hclear⟩
          · exact hset
          · -- a read writes back what it found
            simp only [WritesMip, hs, haddr, true_and, not_or, not_not] at hwrite
            obtain ⟨hf, hf', hz⟩ := hwrite
            rw [hdata]
            refine csrWriteData_getLsbD_read hf hf' hz (ho.source (by rw [hs]; rfl) hz) ?_
            rw [ho.port (Or.inr hs) (by rw [haddr]; decide), haddr]
            exact h
          · rw [clearMipTimer_eq hm] at hclear
            cases ht : s.cpuMaster.accessTimer with
            | true =>
                refine absurd ⟨hs, ht, ?_⟩ hstore
                rw [ht] at hclear
                simp only [Bool.or_eq_true, Bool.and_eq_true, beq_iff_eq] at hclear
                exact hclear.imp And.right id
            | false =>
                refine absurd ⟨hs, ht, ?_⟩ hstray
                simpa [ht] using hclear
        · rw [writeWord_of_ne hidx]
          exact h
      · exact h

/-- The clock of a store that clears the bit. -/
theorem timerPending_of_clear {s : State g} {i : Inputs} (w : Wired s i)
    (hm : i.busMaster = false) (hh : i.extCpuHalt = false) (hr : i.cpuRst = false)
    (hstray : StrayStore s) (hfree : s.cpu.csr.busy = false) : timerPending (s.step i) = false := by
  obtain ⟨hs, -, hreg⟩ := hstray
  have hclear : (s.cpuIn i).clearMipTimer = true := by simp [clearMipTimer_eq hm, hreg]
  rw [timerPending, step_cpu, step_store2 w.flow.toCoherent (w.undisturbed hm hh hr) hs]
  dsimp only
  rw [hclear, if_pos rfl, clock_settled _ _ w.flow.csr_we, hfree]
  change (writeWord s.cpu.csr.settled msrMip _ (csrIndex msrMip)).getLsbD 7 = false
  rw [writeWord_self (by decide)]
  exact mip_bit7 s.cpu.csr.dataOut 0#1

/-- Once set, the bit stays set in every run without a stray store, until a store
to one of the compare registers or a write to `mip`. A stray store clears it as
soon as it finds the CSR block free. -/
theorem timer_pending_kept {r : Run (State.step (g := g))} (hp : Powered r) :
    (∀ t n, 0 < t → t ≤ n → timerPending (r.state t) = true →
      (∀ k, t ≤ k → k < n → ¬ StoresMtimecmp (r.state k) ∧ ¬ WritesMip (r.state k)) →
      (∀ k, t ≤ k → k < n → ¬ StrayStore (r.state k)) → timerPending (r.state n) = true) ∧
    ∀ k, 0 < k → (r.input k).cpuRst = false → StrayStore (r.state k) →
      (r.state k).cpu.csr.busy = false → timerPending (r.state (k + 1)) = false := by
  refine ⟨fun t n ht hn hset hown hstray => ?_, fun k hk hr hstray hfree => ?_⟩
  · induction n, hn using Nat.le_induction with
    | base => exact hset
    | succ n hn ih =>
        have hlast := hown n hn (by omega)
        rw [r.next]
        exact timerPending_step (hp.wired (by omega)) (hp.operands (by omega)) (hp.master n)
          (ih (fun k h₁ h₂ => hown k h₁ (by omega)) (fun k h₁ h₂ => hstray k h₁ (by omega)))
          hlast.1 hlast.2 (hstray n hn (by omega))
  · rw [r.next]
    exact timerPending_of_clear (hp.wired hk) (hp.master k) (hp.halt k) hr hstray hfree

/-- `sw x0, offset(x0)` with the pending bit set at power-on. -/
def storing (word : BitVec 32) : Run (State.step (g := 1)) :=
  boot (fun _ => 0#32) (fun k => if k = mIp then 0x80#32 else 0#32) [word] fun _ => 0#4

theorem storing_powered (word : BitVec 32) : Powered (storing word) := boot_powered _ _ _ _ rfl

instance (s : State g) : Decidable (StoresMtimecmp s) := inferInstanceAs (Decidable (_ ∧ _ ∧ _))
instance (s : State g) : Decidable (WritesMip s) := inferInstanceAs (Decidable (_ ∧ _ ∧ _))
instance (s : State g) : Decidable (StrayStore s) := inferInstanceAs (Decidable (_ ∧ _ ∧ _))

/-- A store to address 8 leaves the bit alone; one to address 12 clears it. -/
theorem timer_pending_store :
    timerPending ((storing 0x00002423#32).state 14) = true ∧
      timerPending ((storing 0x00002623#32).state 11) = false := by
  obtain ⟨hkept, -⟩ := timer_pending_kept (storing_powered 0x00002423#32)
  obtain ⟨-, hcleared⟩ := timer_pending_kept (storing_powered 0x00002623#32)
  constructor
  · refine hkept 1 14 (by decide) (by decide) (by decide +kernel) ?_ ?_
    · intro k h₁ h₂
      interval_cases k <;> decide +kernel
    · intro k h₁ h₂
      interval_cases k <;> decide +kernel
  · exact hcleared 10 (by decide) (by decide) (by decide +kernel) (by decide +kernel)

/-- `sw x0, 12(x0)`, a store to the memory. -/
theorem timer_pending_lost :
    Powered (storing 0x00002623#32) ∧ timerPending ((storing 0x00002623#32).state 1) = true ∧
      (∀ k, 1 ≤ k → k < 14 → ¬ StoresMtimecmp ((storing 0x00002623#32).state k) ∧
        ¬ WritesMip ((storing 0x00002623#32).state k)) ∧
      ((storing 0x00002623#32).state 10).cpuMaster.accessRam = true ∧
      timerPending ((storing 0x00002623#32).state 14) = false := by
  refine ⟨storing_powered _, by decide +kernel, ?_, by decide +kernel, by decide +kernel⟩
  intro k h₁ h₂
  interval_cases k <;> decide +kernel

end TagSoc.Soc
