import TagSoc.CpuStep
import TagSoc.CsrFile
import TagSoc.Datapath
import TagSoc.BitSlices
import Mathlib.Tactic.IntervalCases

/-!
# Which instruction is under way

`Coherent` says who may be busy. `Flow` adds what the registers between the
states mean: the address of the next instruction after the fetch and after the
decode clock, the stage the decoded word belongs to, that nothing is written
back before the execute clock, and that the two interrupt enables, which the
CSR block keeps a second time, are only high when the stored bits are. It holds
from the first reset on.
-/
namespace TagSoc.Cpu
open Clocked Alu Decoder CpuBus Csr Datapath BitSlices

namespace MainState

/-- After the decode clock. -/
def decoded : MainState → Bool
  | .exec | .postExec | .load1 | .load2 | .store1 | .store2 | .branch2 | .system | .csr1 | .csr2
  | .trap | .mret | .updatePc => true
  | _ => false

/-- The stage of an instruction that is in one of the states after execute. -/
def stage : MainState → Option ExecStage
  | .postExec => some .toFetch
  | .load1 | .load2 => some .toLoad
  | .store1 | .store2 => some .toStore
  | .branch2 => some .toBranch
  | .system | .csr1 | .csr2 | .mret => some .toSystem
  | _ => none

end MainState

def State.instrLen (s : State) : BitVec 32 := Datapath.instrLen s.parcels

/-- The datapath's share of `Flow`. -/
structure InFlight (s : State) : Prop where
  fetching : s.state.fetching = true → s.execDone = false
  straddling : s.state = .prepairUnalignedFetch ∨ s.state = .fetchMore →
    s.parcelLow.extractLsb' 0 2 = 3#2 ∧ s.pc.getLsbD 1 = true
  second : s.state = .prepairUnalignedFetch → s.alu.result = s.pc + 2#32
  decode : s.state = .decode → s.alu.result = s.pc + s.instrLen
  pcnext : s.state.decoded = true → s.pcnext = s.pc + s.instrLen
  stage : ∀ st, s.state.stage = some st → s.dec.execNextStage = st ∧ s.execDone = true

/-- The interrupt enables against the stored words. While `mret` waits for
`mstatus` the enable is loaded from whatever word was read before. -/
structure Enables (s : State) : Prop where
  irq : s.csr.irqEn = true →
    (s.mretState = .storeStatus ∧ s.csr.busy = false) ∨ (s.csr.settled mStatus).getLsbD 3 = true
  timer : s.csr.irqTimerEn = true → (s.csr.settled mIe).getLsbD 7 = true

structure Flow (s : State) : Prop extends Coherent s, InFlight s, Enables s

section
variable {v : BitVec 32} {s : State} {i : Inputs}

/-! ## The datapath -/

/-- The states with nothing to say about the datapath. -/
def MainState.blank (m : MainState) : Bool := !(m.fetching || m.decoded)

theorem InFlight.of_blank (h : s.state.blank = true) : InFlight s := by
  constructor <;> revert h <;>
    cases hs : s.state <;>
    simp [MainState.blank, MainState.fetching, MainState.decoded, MainState.stage]

theorem instrLen_eq (s : State) :
    s.instrLen = if s.parcelLow.extractLsb' 0 2 = 3#2 then 4#32 else 2#32 := by
  rw [State.instrLen, Datapath.instrLen, State.parcels,
    extractLsb'_append_low _ _ 0 2 (by decide)]

/-- A clock that leaves the instruction where it is. -/
theorem InFlight.of_keep {s' : State} (hf : InFlight s) (hdec : s.state.decoded = true)
    (hkeep : (s'.pc, s'.pcnext, s'.parcels, s'.execDone) = (s.pc, s.pcnext, s.parcels, s.execDone))
    (hnext : s'.state.decoded = true)
    (hstage : ∀ st, s'.state.stage = some st → s.state.stage = some st) : InFlight s' := by
  simp only [Prod.mk.injEq] at hkeep
  obtain ⟨hpc, hpn, hpar, hdone⟩ := hkeep
  have hnf : s'.state.fetching = false ∧ s'.state ≠ .prepairUnalignedFetch ∧
      s'.state ≠ .fetchMore ∧ s'.state ≠ .decode := by
    revert hnext
    cases s'.state <;> simp [MainState.decoded, MainState.fetching]
  constructor
  case pcnext =>
    intro _
    rw [hpn, hpc, State.instrLen, hpar]
    exact hf.pcnext hdec
  case stage =>
    intro st hst
    obtain ⟨h₁, h₂⟩ := hf.stage st (hstage st hst)
    refine ⟨?_, hdone.trans h₂⟩
    rw [State.dec, hpar]
    exact h₁
  all_goals simp [hnf]

section step
variable (h : Coherent s) (hf : InFlight s) (u : Undisturbed s i)
include h hf u

theorem InFlight.step_fetch (hs : s.state = .fetch) : InFlight (s.step v i) := by
  have hdone := hf.fetching (by rw [hs]; rfl)
  have hlow : s.fetchLow.extractLsb' 0 2 =
      if s.pc.getLsbD 1 then s.bus.buffer.extractLsb' 16 2 else s.bus.buffer.extractLsb' 0 2 := by
    unfold State.fetchLow
    split_ifs
    · rw [extractLsb'_extractLsb' _ 16 16 0 2 (by decide)]
    · rw [extractLsb'_extractLsb' _ 0 16 0 2 (by decide)]
  have hadd := aluAdd_result (h.alu_free (by rw [hs]; rfl)) s.pc s.fetchLen
  rw [Cpu.step_fetch h u hs]
  cases hb : s.bus.busy with
  | true => constructor <;> simp [MainState.fetching, MainState.decoded, MainState.stage, hdone]
  | false =>
      by_cases hm : s.pc.getLsbD 1 ∧ s.bus.buffer.extractLsb' 16 2 = 3#2
      · have hlen : s.fetchLen = 2#32 := by rw [State.fetchLen, if_pos hm.1]
        rw [hlen] at hadd
        constructor <;>
          simp [MainState.fetching, MainState.decoded, MainState.stage, hdone, hlow, hm, hlen, hadd]
      · constructor <;> simp only [hm, if_false, Bool.false_eq_true]
        case decode =>
          intro _
          rw [hadd, instrLen_eq]
          simp only [hlow]
          unfold State.fetchLen
          split_ifs <;> simp_all
        all_goals simp [MainState.fetching, MainState.decoded, MainState.stage, hdone]

theorem InFlight.step_fetchMore (hs : s.state = .fetchMore) : InFlight (s.step v i) := by
  have hdone := hf.fetching (by rw [hs]; rfl)
  have hstr := hf.straddling (Or.inr hs)
  have hadd := aluAdd_result (h.alu_free (by rw [hs]; rfl)) s.pc 4#32
  rw [Cpu.step_fetchMore h u hs]
  cases hb : s.bus.busy with
  | true => constructor <;> simp [MainState.fetching, MainState.decoded, MainState.stage, hdone, hstr]
  | false =>
      constructor <;> simp [MainState.fetching, MainState.decoded, MainState.stage, hdone, hadd,
        instrLen_eq, hstr]

theorem InFlight.step_decode (hs : s.state = .decode) : InFlight (s.step v i) := by
  have hnext := hf.decode hs
  have hfin : ∀ s' : State, (s'.state = .exec ∨ s'.state = .trap) →
      (s'.pc, s'.pcnext, s'.parcels) = (s.pc, s.alu.result, s.parcels) → InFlight s' := by
    intro s' hst hkeep
    simp only [Prod.mk.injEq] at hkeep
    constructor
    case pcnext =>
      intro _
      rw [hkeep.2.1, hkeep.1, State.instrLen, hkeep.2.2]
      exact hnext
    all_goals rcases hst with hst | hst <;> simp [hst, MainState.fetching, MainState.stage]
  cases hi : s.takesInterrupt i with
  | false =>
      rw [Cpu.step_decode h u hs hi]
      exact hfin _ (Or.inl rfl) rfl
  | true =>
      rw [Cpu.step_decode_interrupt h u hs hi]
      exact hfin _ (Or.inr rfl) rfl

/-- The clock that decides what the instruction is. -/
theorem InFlight.step_exec (hs : s.state = .exec) : InFlight (s.step v i) := by
  have hnext := hf.pcnext (by rw [hs]; rfl)
  rw [Cpu.step_exec h u hs]
  constructor
  case pcnext => exact fun _ => hnext
  case stage =>
    intro st hst
    refine ⟨?_, rfl⟩
    change s.dec.execNextStage = st
    revert hst
    cases s.dec.execNextStage <;> simp [State.execNextState, MainState.stage]
  all_goals
    dsimp only
    cases s.dec.execNextStage <;> simp [State.execNextState, MainState.fetching]

omit h in
/-- The states between execute and update only move the main machine. -/
theorem InFlight.step_later (hdec : s.state.decoded = true) (hne : s.state ≠ .exec)
    (hup : s.busy i = true ∨ (s.control i).updatePc = false ∧
      (s.control i).nextState.decoded = true ∧
      ∀ st, (s.control i).nextState.stage = some st → s.state.stage = some st) :
    InFlight (s.step v i) := by
  have hst : s.state ≠ .decode ∧ s.state ≠ .fetch ∧ s.state ≠ .fetchMore ∧ s.state ≠ .preFetch := by
    revert hdec
    cases s.state <;> simp [MainState.decoded]
  refine hf.of_keep hdec ?_ ?_ ?_
  · rcases hup with hb | ⟨hup, -, -⟩
    · simp [State.step, State.parcels, u.rst, hst, hne, hb]
    · simp [State.step, State.parcels, u.rst, hst, hne, hup]
  · rw [step_state u.rst]
    split_ifs with hb
    · exact hdec
    · exact (hup.resolve_left hb).2.1
  · intro st hs'
    rw [step_state u.rst] at hs'
    split_ifs at hs' with hb
    · exact hs'
    · exact (hup.resolve_left hb).2.2 st hs'

/-- One clock, in whatever state. -/
theorem InFlight.step : InFlight (s.step v i) := by
  have hused := h.used
  cases hs : s.state <;> rw [hs] at hused
  case dead | misalignedAddr | mretUpdateMstatus | mretReadEpc => exact absurd hused (by decide)
  case fetch => exact hf.step_fetch h u hs
  case fetchMore => exact hf.step_fetchMore h u hs
  case decode => exact hf.step_decode h u hs
  case exec => exact hf.step_exec h u hs
  case reset =>
    rw [step_reset h u hs]
    apply InFlight.of_blank
    dsimp only
    split_ifs <;> rfl
  case preFetch =>
    rw [step_preFetch h u hs]
    constructor <;> simp [MainState.decoded, MainState.stage]
  case cpuIdle =>
    rw [step_cpuIdle h u hs]
    apply InFlight.of_blank
    dsimp only
    split_ifs <;> rfl
  case updatePc =>
    cases hc : s.csr.busy with
    | true =>
        exact hf.step_later u (by rw [hs]; rfl) (by simp [hs]) (Or.inl (by simp [State.busy, hc]))
    | false =>
        rw [step_updatePc h u hs hc]
        apply InFlight.of_blank
        dsimp only
        split_ifs <;> rfl
  case prepairUnalignedFetch =>
    have hdone := hf.fetching (by rw [hs]; rfl)
    have hstr := hf.straddling (Or.inl hs)
    rw [step_prepairUnalignedFetch h u hs]
    constructor <;> simp [MainState.decoded, MainState.stage, hdone, hstr]
  case system =>
    refine hf.step_later u (by rw [hs]; rfl) (by simp [hs]) (Or.inr ?_)
    simp only [State.control, hs, State.controlSystem]
    cases systemKind s.dec <;> simp [State.controlRaise, MainState.decoded, MainState.stage]
  all_goals
    refine hf.step_later u (by rw [hs]; rfl) (by simp [hs]) (Or.inr ?_)
    simp [State.control, hs, State.controlLoad1, State.controlStore1, State.controlStore2,
      MainState.decoded, MainState.stage]

end step

/-! ## The interrupt enables -/

theorem step_csr_eq (hr : i.rst = false) :
    (s.step v i).csr = s.csr.clock (s.csrRequest i) := by
  simp only [State.step, State.csrIn, hr]
  rfl

/-- A reset clock finishes the write in flight and leaves the file alone. -/
theorem reset_settled (hr : i.rst = true) : (s.step v i).csr.settled = s.csr.settled := by
  have hw : (s.step v i).csr.we = false := by
    simp [State.step, Csr.State.step, State.csrIn, hr]
  exact (settled_of_not_we _ hw).trans rfl

/-- `mstatus` on entry: the enable moves from bit 3 to bit 7. -/
def trapStatus (x : BitVec 32) : BitVec 32 :=
  x.extractLsb' 8 24 ++ x.extractLsb' 3 1 ++ x.extractLsb' 4 3 ++ 0#1 ++ x.extractLsb' 0 3

theorem trapStatus_getLsbD (x : BitVec 32) (k : ℕ) :
    (trapStatus x).getLsbD k =
      if k = 3 then false else if k = 7 then x.getLsbD 3 else x.getLsbD k := by
  by_cases hk : k < 32
  · simp only [trapStatus, BitVec.getLsbD_append, BitVec.getLsbD_extractLsb']
    interval_cases k <;> simp
  · rw [BitVec.getLsbD_of_ge _ _ (by omega), if_neg (by omega), if_neg (by omega),
      BitVec.getLsbD_of_ge _ _ (by omega)]

/-- The addresses whose bits the CSR block keeps a second time. -/
def mirrored (addr : BitVec 12) : Bool :=
  addr == msrMstatus || addr == msrMie || addr == msrMtags

theorem trapCsr_we (hw : s.trapCsr.we = true) :
    (s.trapState = .storeStatus ∧ s.trapCsr.data.getLsbD 3 = false ∧ s.trapCsr.addr = msrMstatus) ∨
      mirrored s.trapCsr.addr = false := by
  unfold State.trapCsr at hw ⊢
  cases hq : s.trapState <;> rw [hq] at hw
  case storeStatus => exact Or.inl ⟨rfl, trapStatus_getLsbD _ 3, rfl⟩
  case storeEpc | storeTval | storeMip => exact Or.inr rfl
  all_goals exact absurd hw Bool.false_ne_true

theorem mretCsr_we (hw : s.mretCsr.we = true) :
    s.mretState = .storeStatus ∧ s.mretCsr.addr = msrMstatus := by
  unfold State.mretCsr at hw ⊢
  cases hq : s.mretState <;> rw [hq] at hw
  case storeStatus => exact ⟨rfl, rfl⟩
  all_goals exact absurd hw Bool.false_ne_true

/-- The main machine writes `mcause` and `mip`, and what a CSR instruction
names; that one finds the handshake free. -/
theorem control_csrWe (h : Coherent s) (hw : (s.control i).csrWe = true) :
    s.csr.busy = false ∧ (s.control i).csrEn = true ∨
      mirrored (s.control i).csrAddr = false := by
  have hused := h.used
  unfold State.control at hw ⊢
  cases hs : s.state <;> rw [hs] at hused hw <;> simp only at hw ⊢
  case csr2 => exact Or.inl ⟨h.csr_free (by rw [hs]; rfl), trivial⟩
  case system =>
    right
    unfold State.controlSystem at hw ⊢
    cases hk : systemKind s.dec <;> rw [hk] at hw
    case ecall | ebreak | invalid => rfl
    all_goals exact absurd hw Bool.false_ne_true
  case decode =>
    right
    have hi : s.takesInterrupt i = true := hw
    simp only [State.controlDecode, hi, if_true]
    rfl
  case store2 =>
    right
    have hi : i.clearMipTimer = true := hw
    simp only [State.controlStore2, hi, if_true]
    rfl
  case updatePc => exact absurd hw (by simp [controlUpdatePc_eq])
  all_goals exact absurd hw Bool.false_ne_true

/-- A write to one of the mirrored addresses clears the interrupt enable, comes
from `mret`, or takes effect. -/
theorem csrRequest_we (h : Coherent s) (hw : (s.csrRequest i).we = true)
    (hm : mirrored (s.csrRequest i).addr = true) :
    (s.trapState = .storeStatus ∧ (s.csrRequest i).data.getLsbD 3 = false ∧
        (s.csrRequest i).addr = msrMstatus) ∨
      s.mretState = .storeStatus ∧ (s.csrRequest i).addr = msrMstatus ∨
      s.csr.busy = false ∧ (s.csrRequest i).en = true := by
  unfold State.csrRequest at hw hm ⊢
  split_ifs at hw hm ⊢ with ht hmret
  · exact Or.inl ((trapCsr_we hw).resolve_right (by simp [hm]))
  · exact Or.inr (Or.inl (mretCsr_we hw))
  · exact Or.inr (Or.inr ((control_csrWe h hw).resolve_right (by simp [hm])))

theorem csrRequest_of_mret (h : Coherent s) (hm : s.handlingMret = true) :
    s.csrRequest i = s.mretCsr := by
  have hst := h.mret hm
  have ht := h.trap_idle (by simp [hst]) (by simp [hst])
  simp [State.csrRequest, State.handlingTrap, ht, hm]

theorem Enables.step (h : Coherent s) (he : Enables s) (u : Undisturbed s i) :
    Enables (s.step v i) := by
  have hcsr := step_csr_eq (v := v) (s := s) u.rst
  constructor
  case timer =>
    rw [hcsr]
    refine mirror_clock msrMie 7 (R := fun x y => x = true → y = true) (fun _ => id) (by decide)
      (by decide) h.csr_we (fun _ => he.timer) ?_
    intro hw ha
    rcases csrRequest_we h hw (by rw [ha]; rfl) with ⟨-, -, hs⟩ | ⟨-, hs⟩ | hok
    · exact absurd (ha.symm.trans hs) (by decide)
    · exact absurd (ha.symm.trans hs) (by decide)
    · exact Or.inl hok
  case irq =>
    rw [hcsr]
    by_cases hwait : s.mretState = .storeStatus ∧ s.csr.busy = true
    · -- the request is dropped but the enable follows its stale data
      refine fun _ => Or.inl ⟨?_, by simp [hwait.2]⟩
      simp [State.step, u.rst, hwait]
    · have hmret : s.mretState = .storeStatus →
          s.csr.busy = false ∧ (s.csrRequest i).en = true ∧ (s.csrRequest i).we = true ∧
            (s.csrRequest i).addr = msrMstatus := by
        intro hm
        have hreq := csrRequest_of_mret (i := i) h (by rw [State.handlingMret, hm]; rfl)
        refine ⟨by simpa [hm] using hwait, ?_⟩
        rw [hreq, State.mretCsr, hm]
        exact ⟨rfl, rfl, rfl⟩
      refine fun hset => Or.inr (mirror_clock msrMstatus 3 (R := fun x y => x = true → y = true)
        (fun _ => id) (by decide) (by decide) h.csr_we ?_ ?_ hset)
      · intro hno hf
        rcases he.irq hf with ⟨hm, -⟩ | hbit
        · simp [hmret hm] at hno
        · exact hbit
      · intro hw ha
        rcases csrRequest_we h hw (by rw [ha]; rfl) with ⟨-, hclear, -⟩ | ⟨hm, -⟩ | hok
        · exact Or.inr fun hbit => absurd (hclear.symm.trans hbit) Bool.false_ne_true
        · exact Or.inl ⟨(hmret hm).1, (hmret hm).2.1⟩
        · exact Or.inl hok

/-- A system instruction asks for no write-back of its own. -/
theorem Flow.system_quiet (h : Flow s) (hs : s.state.stage = some .toSystem) :
    ((s.dec.writebackFromImm || s.dec.writebackFromAlu) && s.execDone) = false := by
  have hl := dec_legal s
  rw [Decoder.Control.legal, (h.stage .toSystem hs).1] at hl
  simp only [Bool.and_eq_true, Bool.not_eq_true'] at hl
  rw [hl.1.1.1.2, hl.1.1.2]
  rfl

/-! ## Runs -/

theorem Flow.step (h : Flow s) (u : Undisturbed s i) : Flow (s.step v i) where
  toCoherent := h.toCoherent.step u.halt (by simp [u.rst])
  toInFlight := h.toInFlight.step h.toCoherent u
  toEnables := Enables.step h.toCoherent h.toEnables u

/-- A reset clock establishes everything but the soundness of the two
submodules it does not reach. -/
theorem Startable.flow (h : Startable s) (hr : i.rst = true) (hv : BitSlices.IsEven v) :
    Flow (s.step v i) := by
  have hst : (s.step v i).state = .reset := step_state_of_rst hr
  refine { toCoherent := ?_, toInFlight := InFlight.of_blank (by rw [hst]; rfl), toEnables := ?_ }
  · constructor
    case toStartable => exact h.step
    case bus => exact fun _ => by rw [hst]; rfl
    all_goals
      simp [State.step, hr, hv, Alu.State.step, State.aluIn, Csr.State.step, State.csrIn,
        State.handlingTrap, State.handlingMret, MainState.unused]
  · constructor <;> simp [State.step, hr, Csr.State.step, State.csrIn]

end

theorem Running.flow {v : BitVec 32} {r : Run (State.step v)}
    (hu : ∀ t, Undisturbed (r.state t) (r.input t)) (h0 : Flow (r.state 0)) (t : ℕ) : Flow (r.state t) :=
  r.invariant (P := Flow) h0 (fun n _ hn => hn.step (hu n)) t (Nat.zero_le t)

/-- A run from power-on: the first clock resets the machine, later ones may;
there is no halt and no acknowledge without a request. -/
structure Booted {v : BitVec 32} (r : Run (State.step v)) : Prop where
  vector : BitSlices.IsEven v
  power : Startable (r.state 0)
  reset : (r.input 0).rst = true
  halt : ∀ t, (r.input t).externalHalt = false
  ack : ∀ t, (r.input t).ack = true → (r.state t).bus.cyc = true

theorem Booted.flow {v : BitVec 32} {r : Run (State.step v)} (h : Booted r) {t : ℕ} (ht : 0 < t) :
    Flow (r.state t) := by
  refine r.invariant (P := Flow) (t := 1) ?_ ?_ t ht
  · rw [r.next]
    exact h.power.flow h.reset h.vector
  · intro n _ hn
    cases hr : (r.input n).rst with
    | true => exact hn.toStartable.flow hr h.vector
    | false => exact hn.step ⟨hr, h.halt n, h.ack n⟩

end TagSoc.Cpu
