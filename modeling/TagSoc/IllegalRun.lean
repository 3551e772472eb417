import TagSoc.TrapRun
import TagSoc.ExecRun

/-!
# Illegal instructions

The decoder sends a word it does not know to the trap state, but in the execute
clock nobody tells the trap sequencer: no cause is presented and no CSR access
is made. The machine passes through the trap state and continues at whatever
the CSR port shows, the word of the last CSR that was accessed. If the ALU was
given a shift, which the decoder does for the reserved shift encodings, it never
gets there: outside the execute states the ALU is not told to shift on.
-/
namespace TagSoc.Cpu
open Clocked Alu Decoder CpuBus Csr

variable {v : BitVec 32}

namespace State

/-- The word on the CSR port two clocks later, if no access is made. -/
def lastCsr (s : State) : BitVec 32 :=
  if s.csr.index = mRnd then lfsrNext (lfsrNext s.csr.rnd) else s.csr.ram.mem s.csr.index

/-- The operations that keep the ALU busy after its first clock. -/
def startsShift (s : State) : Bool := s.dec.aluOper.isShift

end State

/-! ## The words the decoder traps on -/

/-- The ALU operation and the write-back that go with the trap stage. -/
def trapOper (c : Decoder.Control) : Bool :=
  c.execNextStage != .toTrap || ((c.aluOper == .add || c.aluOper.isShift) &&
    (!c.writebackFromImm || c.muxRegInputSel == .imm))

theorem trapOper_ite {p : Prop} [Decidable p] {a b : Decoder.Control} (ha : trapOper a = true)
    (hb : trapOper b = true) : trapOper (if p then a else b) = true := by
  split_ifs <;> assumption

section
variable (w : BitVec 32)

theorem control32_trapOper : trapOper (control32 w) = true := by
  unfold control32
  repeat' apply trapOper_ite
  all_goals rfl

theorem controlC1_trapOper :
    trapOper (if cFunct3 w ≠ 0b100#3 then controlC1 w else controlC1Alu w) = true := by
  unfold controlC1 controlC1Alu
  repeat' apply trapOper_ite
  all_goals first | rfl | (simp only [trapOper]; split_ifs <;> rfl)

theorem controlC2_trapOper : trapOper (controlC2 w) = true := by
  unfold controlC2 controlC2Jr
  repeat' apply trapOper_ite
  all_goals first | rfl | (simp only [trapOper]; split_ifs <;> rfl)

theorem controlC0_trapOper : trapOper (controlC0 w) = true := by
  unfold controlC0
  repeat' apply trapOper_ite
  all_goals first | rfl | (simp only [trapOper]; split_ifs <;> rfl)

/-- The decoder gives the words it traps on either an addition or a shift, and
what they write back without the ALU is the immediate. -/
theorem toTrap_aluOper (h : (decode w).execNextStage = .toTrap) :
    ((decode w).aluOper = .add ∨ (decode w).aluOper.isShift = true) ∧
      ((decode w).writebackFromImm = true → (decode w).muxRegInputSel = .imm) := by
  have hall : trapOper (decode w).toControl = true := by
    show trapOper (Decoder.control w) = true
    unfold Decoder.control
    exact trapOper_ite (control32_trapOper w) (trapOper_ite (controlC0_trapOper w)
      (trapOper_ite (controlC1_trapOper w) (controlC2_trapOper w)))
  rw [trapOper, h] at hall
  cases hw : (decode w).writebackFromImm <;> simpa [hw] using hall

end

/-! ## Their execution -/

/-- A word with the trap stage asks for no jump and no link. -/
theorem toTrap_quiet {s : State} (hd : s.dec.execNextStage = .toTrap) :
    s.dec.nextPcFromAlu = false ∧ s.dec.writeReg = false := by
  have hl := dec_legal s
  rw [Decoder.Control.legal, hd] at hl
  simpa using hl

/-- The write-back of the update state, after an execute clock that was not a
load. It does not ask what kind of instruction this is. -/
theorem update_regs (s s₂ : State) (hp : s₂.parcels = s.parcels) (hr : s₂.regs = s.regs)
    (hb : s₂.writebackFromBus = false) (hx : s₂.execDone = true)
    (himm : s.dec.writebackFromImm = true → s.dec.muxRegInputSel = .imm) :
    (if s₂.writebackEn then s₂.writeRd s₂.writebackData else s₂.regs) =
      if s.dec.writebackFromImm || s.dec.writebackFromAlu then
        s.writeRd (if s.dec.writebackFromAlu then s₂.alu.result else s.dec.imm)
      else s.regs := by
  have hdec : s₂.dec = s.dec := by rw [State.dec, hp, State.dec]
  simp only [State.writebackEn, State.writebackData, State.writeRd, hdec, hr, hb, hx,
    Bool.false_or, Bool.and_true]
  cases hw : s.dec.writebackFromAlu with
  | true => simp [State.regDatain]
  | false =>
      cases hi : s.dec.writebackFromImm with
      | true => simp [State.regDatain, himm hi, hdec]
      | false => simp

section run
variable {r : Run (State.step v)} {t : ℕ} (hf : ∀ n, t ≤ n → Coherent (r.state n))
  (hu : ∀ n, t ≤ n → Undisturbed (r.state n) (r.input n))
  (hs : (r.state t).state = .exec) (hd : (r.state t).dec.execNextStage = .toTrap)
include hf hu hs hd

theorem illegal_exec :
    r.state (t + 1) = { r.state t with
      state := .trap
      execDone := true
      alu := (r.state t).alu.step ((r.state t).execAlu true)
      csr := (r.state t).csr.rest } := by
  rw [r.next, step_exec (hf t le_rfl) (hu t le_rfl) hs, hd, (toTrap_quiet hd).1]
  rfl

/-- A shift is never finished: the ALU stays busy and the machine in the trap
state, with the registers as they were. -/
theorem illegal_stuck (hsh : (r.state t).startsShift = true) {n : ℕ} (hn : t < n) :
    (r.state n).state = .trap ∧ (r.state n).trapState = .idle ∧ (r.state n).alu.busy = true ∧
      (r.state n).regs = (r.state t).regs := by
  induction n, hn using Nat.le_induction with
  | base =>
      have hp := (hf t le_rfl).plain (by rw [hs]; rfl)
      have hb := (hf t le_rfl).alu_free (by rw [hs]; rfl)
      rw [Nat.succ_eq_add_one, illegal_exec hf hu hs hd]
      exact ⟨rfl, hp.2.2.2.1, (shift_start hsh _ _ _ hb).1, rfl⟩
  | succ n hn ih =>
      obtain ⟨h₁, h₂, h₃, h₄⟩ := ih
      have hle : t ≤ n := Nat.le_of_succ_le hn
      rw [r.next, step_trap_stuck (hf n hle) (hu n hle) h₁ h₂ h₃]
      refine ⟨h₁, h₂, ?_, h₄⟩
      -- an addition leaves the busy flag alone
      simp [Alu.State.step, Alu.State.run, h₃]

/-- Without a shift the trap state is left at once. -/
theorem illegal_update (hsh : (r.state t).startsShift = false) :
    r.state (t + 2) = { r.state t with
      state := .updatePc, nextAddrFromCsr := true, execDone := true
      alu := (r.state t).alu.step ((r.state t).execAlu true)
      csr := (r.state t).csr.rest.rest } := by
  have hadd : (r.state t).dec.aluOper = .add := (toTrap_aluOper _ hd).1.resolve_right (by
    rw [Bool.not_eq_true]
    exact hsh)
  have hflags := (hf t le_rfl).plain (by rw [hs]; rfl)
  have hfree := (hf t le_rfl).alu_free (by rw [hs]; rfl)
  have halu := Alu.step_add (r.state t).alu hfree
    ((r.state t).aluDataS1 (r.state t).dec.muxAluS1Sel)
    ((r.state t).aluDataS2 (r.state t).dec.muxAluS2Sel)
  have hc := hf (t + 1) (by omega)
  have hut := hu (t + 1) (by omega)
  rw [r.next (t + 1)]
  rw [illegal_exec hf hu hs hd] at hc hut ⊢
  refine step_trap_done hc hut rfl hflags.2.2.2.1 ?_ (rest_busy _)
  simpa only [State.execAlu, hadd] using halu.1

/-- Without a shift the machine is back at the boundary after three clocks, at
the address the CSR port shows, and no CSR has changed. -/
theorem illegal_run (hsh : (r.state t).startsShift = false) :
    (r.state (t + 1)).state = .trap ∧ (r.state (t + 2)).state = .updatePc ∧
      (r.state (t + 2)).regs = (r.state t).regs ∧
      r.state (t + 3) = { r.state t with
        state := if (r.input (t + 2)).externalSinglestep || (r.state t).testFinished
          then .cpuIdle else .preFetch
        pc := (r.state t).lastCsr &&& ~~~1#32
        execDone := true
        alu := (r.state t).alu.step ((r.state t).execAlu true)
        regs := if (r.state t).dec.writebackFromImm || (r.state t).dec.writebackFromAlu then
            (r.state t).writeRd
              (if (r.state t).dec.writebackFromAlu then
                (r.state t).aluDataS1 (r.state t).dec.muxAluS1Sel +
                  (r.state t).aluDataS2 (r.state t).dec.muxAluS2Sel
              else (r.state t).dec.imm)
          else (r.state t).regs
        csr := (r.state t).csr.rest.rest.rest } := by
  obtain ⟨hadd, himm⟩ := toTrap_aluOper _ hd
  have hadd : (r.state t).dec.aluOper = .add := hadd.resolve_right (by
    rw [Bool.not_eq_true]
    exact hsh)
  have hflags := (hf t le_rfl).plain (by rw [hs]; rfl)
  have hfree := (hf t le_rfl).alu_free (by rw [hs]; rfl)
  have hcw := (hf t le_rfl).csr_we_free (by rw [hs]; rfl)
  have halu := Alu.step_add (r.state t).alu hfree
    ((r.state t).aluDataS1 (r.state t).dec.muxAluS1Sel)
    ((r.state t).aluDataS2 (r.state t).dec.muxAluS2Sel)
  have h₁ := illegal_exec hf hu hs hd
  have h₂ := illegal_update hf hu hs hd hsh
  have hport : (r.state t).csr.rest.rest.dataOut = (r.state t).lastCsr := by
    rw [Csr.State.dataOut, State.lastCsr, ← settled_of_not_we _ hcw]
    rfl
  refine ⟨by rw [h₁], by rw [h₂], by rw [h₂], ?_⟩
  have hc := hf (t + 2) (by omega)
  have hut := hu (t + 2) (by omega)
  rw [r.next (t + 2)]
  rw [h₂] at hc hut ⊢
  rw [step_updatePc hc hut rfl (rest_busy _)]
  have hregs := update_regs (r.state t) ({ r.state t with
      state := .updatePc, nextAddrFromCsr := true, execDone := true
      alu := (r.state t).alu.step ((r.state t).execAlu true)
      csr := (r.state t).csr.rest.rest }) rfl rfl hflags.1 rfl himm
  rw [hregs]
  simp only [State.execAlu, hadd, halu.2, State.updateNextPc, if_true, hport, hflags]

end run

/-! ## What a trap entry would have been -/

/-- The entry of an illegal-instruction trap, from the execute clock to the first
clock of the handler. -/
structure IllegalEntered (s s' : State) : Prop where
  mcause : s'.csr.ram.mem mCause = causeInvalidInstruction
  mepc : s'.csr.ram.mem mEpc = s.pc
  saved : (s'.csr.ram.mem mStatus).getLsbD 7 = (s.csr.ram.mem mStatus).getLsbD 3
  cleared : (s'.csr.ram.mem mStatus).getLsbD 3 = false
  irqEn : s'.csr.irqEn = false
  pc : s'.pc = s.csr.ram.mem mTvec &&& ~~~1#32

/-- The CSRs already read as if the trap had been entered, and the one accessed
last has the same word as `mtvec`. -/
def LooksEntered (s : State) : Prop :=
  s.startsShift = false ∧ s.csr.ram.mem mCause = causeInvalidInstruction ∧
    s.csr.ram.mem mEpc = s.pc ∧ (s.csr.ram.mem mStatus).getLsbD 7 = false ∧
    (s.csr.ram.mem mStatus).getLsbD 3 = false ∧
    s.lastCsr &&& ~~~1#32 = s.csr.ram.mem mTvec &&& ~~~1#32

theorem Booted.undisturbed {r : Run (State.step v)} (h : Booted r) {t : ℕ}
    (hr : (r.input t).rst = false) : Undisturbed (r.state t) (r.input t) :=
  ⟨hr, h.halt t, h.ack t⟩

theorem rest_rest_rest_mem {c : Csr.State} (h : c.we = false) :
    c.rest.rest.rest.ram.mem = c.ram.mem := by
  have h₂ : c.rest.rest.settled = c.rest.settled := rest_settled _ (rest_we _ h)
  exact h₂.trans ((rest_settled _ h).trans (settled_of_not_we _ h))

/-- Illegal instructions. In a run from power-on, an instruction that the
decoder sends to the trap stage enters the handler as a trap would exactly when
the CSRs already look like it: the machine itself records nothing. -/
theorem illegal_instruction_enters {r : Run (State.step v)} (hb : Booted r) {t : ℕ} (ht : 0 < t)
    (hrst : ∀ n, t ≤ n → (r.input n).rst = false) (hs : (r.state t).state = .exec)
    (hd : (r.state t).dec.execNextStage = .toTrap) :
    (∃ n, NextBoundary r t n ∧ IllegalEntered (r.state t) (r.state n)) ↔
      LooksEntered (r.state t) := by
  have hf : ∀ n, t ≤ n → Flow (r.state n) := fun n hn => hb.flow (ht.trans_le hn)
  have hu : ∀ n, t ≤ n → Undisturbed (r.state n) (r.input n) :=
    fun n hn => hb.undisturbed (hrst n hn)
  have hc : ∀ n, t ≤ n → Coherent (r.state n) := fun n hn => (hf n hn).toCoherent
  have hcw := (hf t le_rfl).csr_we_free (by rw [hs]; rfl)
  cases hsh : (r.state t).startsShift with
  | true =>
      constructor
      · rintro ⟨n, hn, -⟩
        have h := hn.2.1
        rw [State.atBoundary, (illegal_stuck hc hu hs hd hsh hn.1).1] at h
        exact absurd h (by decide)
      · intro h
        rw [h.1] at hsh
        exact absurd hsh Bool.false_ne_true
  | false =>
      obtain ⟨h₁, h₂, -, h₃⟩ := illegal_run hc hu hs hd hsh
      have hnext : NextBoundary r t (t + 3) := by
        refine ⟨by omega, ?_, fun k hk hlt => ?_⟩
        · rw [State.atBoundary, h₃]
          dsimp only
          split_ifs <;> rfl
        · have hk : k = t + 1 ∨ k = t + 2 := by omega
          rcases hk with rfl | rfl
          · rw [State.atBoundary, h₁]; rfl
          · rw [State.atBoundary, h₂]; rfl
      have hmem : (r.state (t + 3)).csr.ram.mem = (r.state t).csr.ram.mem := by
        rw [h₃]
        exact rest_rest_rest_mem hcw
      have hpc : (r.state (t + 3)).pc = (r.state t).lastCsr &&& ~~~1#32 := by rw [h₃]
      have hirq : (r.state (t + 3)).csr.irqEn = (r.state t).csr.irqEn := by
        rw [h₃]
        rfl
      constructor
      · rintro ⟨n, hn, he⟩
        obtain rfl := hn.unique hnext
        obtain ⟨g₁, g₂, g₃, g₄, -, g₆⟩ := he
        rw [hmem] at g₁ g₂ g₃ g₄
        exact ⟨hsh, g₁, g₂, g₃.trans g₄, g₄, hpc.symm.trans g₆⟩
      · rintro ⟨-, g₁, g₂, g₃, g₄, g₅⟩
        refine ⟨t + 3, hnext, ?_⟩
        constructor <;> try rw [hmem]
        case mcause => exact g₁
        case mepc => exact g₂
        case saved => exact g₃.trans g₄.symm
        case cleared => exact g₄
        case pc => exact hpc.trans g₅
        case irqEn =>
          -- the enable is only high while the stored bit is
          rw [hirq]
          refine Bool.eq_false_iff.mpr fun hon => ?_
          rcases (hf t le_rfl).irq hon with ⟨hm, -⟩ | hbit
          · have hidle := (hf t le_rfl).mret_idle (by simp [hs]) (by simp [hs])
            rw [hidle] at hm
            exact absurd hm (by decide)
          · rw [settled_of_not_we _ hcw, g₄] at hbit
            exact absurd hbit Bool.false_ne_true

/-- From power-on with the given CSR words: a reset clock, then a memory of zeros
that answers at once. The first instruction is the all-zero parcel. -/
def zeroBoot (file : BitVec 4 → BitVec 32) : Run (State.step 4096#32) :=
  let s := restState (fun _ => 0#32) 0#32
  Run.closed _ (fun t s => ⟨decide (t = 0), s.bus.cyc, 0#32, false, false, false, false, false, false⟩)
    { s with state := .reset, csr := { s.csr with ram := ⟨file, 0#32⟩ } }

theorem zeroBoot_booted (file : BitVec 4 → BitVec 32) : Booted (zeroBoot file) where
  vector := by decide
  power := ⟨rfl, rfl, rfl, fun h => absurd h Bool.false_ne_true⟩
  reset := rfl
  halt _ := rfl
  ack _ h := h

theorem zeroBoot_rst (file : BitVec 4 → BitVec 32) {n : ℕ} (hn : 6 ≤ n) :
    ((zeroBoot file).input n).rst = false :=
  decide_eq_false (by omega)

/-- With `mcause` and `mepc` set beforehand, and all else zero, the all-zero
parcel passes for a trap. -/
theorem illegal_instruction_enters_by_chance :
    let r := zeroBoot fun k => if k = mCause then 2#32 else if k = mEpc then 4096#32 else 0#32
    ∃ n, NextBoundary r 6 n ∧ IllegalEntered (r.state 6) (r.state n) := by
  intro r
  exact (illegal_instruction_enters (zeroBoot_booted _) (t := 6) (by decide)
    (fun n hn => zeroBoot_rst _ hn) (by decide) (by decide)).mpr
    ⟨by decide, by decide, by decide, by decide, by decide, by decide⟩

/-- From power-on the all-zero parcel is executed and no trap is entered: the
next instruction starts with `mcause` still zero. -/
theorem illegal_instruction_ignored :
    let r := zeroBoot fun _ => 0#32
    Booted r ∧ (∀ n, 6 ≤ n → (r.input n).rst = false) ∧ (r.state 6).state = .exec ∧
      (r.state 6).dec.execNextStage = .toTrap ∧
      ¬ ∃ n, NextBoundary r 6 n ∧ IllegalEntered (r.state 6) (r.state n) := by
  intro r
  refine ⟨zeroBoot_booted _, fun n hn => zeroBoot_rst _ hn, by decide, by decide, ?_⟩
  rintro ⟨n, hn, he⟩
  have hnine : NextBoundary r 6 9 := by
    refine ⟨by decide, by decide, fun k hk hlt => ?_⟩
    interval_cases k <;> decide
  obtain rfl := hn.unique hnine
  have hcause : (r.state 9).csr.ram.mem mCause ≠ causeInvalidInstruction := by decide
  exact hcause he.mcause

end TagSoc.Cpu
