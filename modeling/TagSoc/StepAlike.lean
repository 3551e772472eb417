import TagSoc.SocRun
import TagSoc.CsrAddress

/-!
# A processor in single steps and one that runs freely

`Alike x y` relates the two in the middle of the same instruction. They agree but
for the random source, which counts clocks, and for the word that an access to the
timer has left on the bus and that the next fetch overwrites. The idle clocks of
the first are no clocks of the second.
-/
namespace TagSoc.Csr

/-- The block with another state of the random source. -/
def State.reseed (c : State) (ρ : BitVec 32) : State := { c with rnd := ρ }

theorem clock_reseed (c : State) (ρ : BitVec 32) (q : Request) :
    (c.reseed ρ).clock q = (c.clock q).reseed (lfsrNext ρ) := rfl

theorem dataOut_reseed {c : State} (ρ : BitVec 32) (h : c.index ≠ mRnd) :
    (c.reseed ρ).dataOut = c.dataOut := by
  have hindex : (c.reseed ρ).index = c.index := rfl
  rw [State.dataOut, State.dataOut, hindex, if_neg h, if_neg h]
  rfl

/-- Nothing changes any more but the random source. -/
def State.Still (c : State) : Prop := c.rest = c.reseed (lfsrNext c.rnd)

theorem State.Still.reseed {c : State} (h : c.Still) (ρ : BitVec 32) : (c.reseed ρ).Still := by
  have hrest : (c.reseed ρ).rest = c.rest.reseed (lfsrNext ρ) := clock_reseed c ρ {}
  rw [State.Still, hrest, h]
  rfl

theorem State.Still.rest {c : State} (h : c.Still) : c.rest.Still := by
  rw [h]
  exact h.reseed _

theorem still_of_not_we {c : State} (hw : c.we = false) : c.rest.Still := by
  cases hb : c.busy <;>
    simp [State.Still, State.rest, State.clock, State.step, State.reseed, State.ramIn, State.index,
      GenericRam.State.step, hw, hb]

end TagSoc.Csr

namespace TagSoc.Decoder

/-- An immediate is written back as such. -/
def Control.plainImm (c : Control) : Bool := !c.writebackFromImm || c.muxRegInputSel == .imm

theorem plainImm_ite {p : Prop} [Decidable p] {a b : Control} (ha : a.plainImm = true)
    (hb : b.plainImm = true) : (if p then a else b).plainImm = true := by
  split_ifs <;> assumption

theorem control_plainImm (w : BitVec 32) : (control w).plainImm = true := by
  unfold control control32 controlC0 controlC1 controlC1Alu controlC2 controlC2Jr
  repeat' apply plainImm_ite
  all_goals rfl

end TagSoc.Decoder

namespace TagSoc.Cpu
open Clocked Decoder CpuBus Csr

variable {v : BitVec 32}

/-- What the last read has left on the bus is not used any more. -/
def State.stale (x : State) : Bool :=
  match x.state with
  | .store2 | .preFetch | .cpuIdle | .reset => true
  | .updatePc => !x.writebackFromBus
  | .fetch => x.bus.busy
  | _ => false

def State.vary (x : State) (ρ β : BitVec 32) : State :=
  { x with csr := x.csr.reseed ρ, bus := { x.bus with buffer := β } }

/-- The machine `y` runs freely and does what `x` does in single steps. -/
inductive Alike : State → State → Prop
  | same {x : State} (ρ β : BitVec 32) (hbuf : x.stale = false → β = x.bus.buffer) :
      Alike x (x.vary ρ β)
  | parked {x : State} (ρ β : BitVec 32) (hs : x.state = .cpuIdle) :
      Alike x { x.vary ρ β with state := .preFetch }
  | fetching {x : State} (ρ β : BitVec 32) (lo hi : BitVec 16) (result : BitVec 32)
      (lt ltu eq : Bool) (hs : x.state = .fetch) (hbuf : x.stale = false → β = x.bus.buffer) :
      Alike x
        { x.vary ρ β with
          parcelLow := lo, parcelHigh := hi
          alu := { x.alu with result := result, lt := lt, ltu := ltu, eq := eq } }

/-- The inputs of the two machines; the time is not known to them. -/
structure InputsAlike (x : State) (i j : Inputs) : Prop where
  ack : j.ack = i.ack
  dat : i.ack = true → x.state = .fetch ∨ x.state = .fetchMore ∨ x.state = .load2 → j.dat = i.dat
  mip : j.clearMipTimer = i.clearMipTimer
  tags : j.tagsInterrupt = i.tagsInterrupt
  timer : (i.timerInterrupt && x.csr.irqTimerEn) = false ∧
    (j.timerInterrupt && x.csr.irqTimerEn) = false
  cause : x.state = .decode → x.takesInterrupt i = true →
    (i.tagsInterrupt && x.csr.tagsEn) = true ∨ j.timerInterrupt = i.timerInterrupt

section step
variable {x : State} {i j : Inputs} {ρ β : BitVec 32}

theorem wait_vary (b : CpuBus.State) (β : BitVec 32) (ack : Bool) (dat dat' : BitVec 32) :
    (({ b with buffer := β } : CpuBus.State).wait ack dat') =
      { b.wait ack dat with
        buffer := if ack then (b.wait ack dat').buffer else β } := by
  cases ack <;> rfl

variable (hx : Coherent x) (hy : Coherent (x.vary ρ β)) (ux : Undisturbed x i)
  (uy : Undisturbed (x.vary ρ β) j) (hin : InputsAlike x i j)
include hx hy ux uy

theorem Alike.step_preFetch (hs : x.state = .preFetch) :
    Alike (x.step v i) ((x.vary ρ β).step v j) := by
  rw [Cpu.step_preFetch hx ux hs, Cpu.step_preFetch hy uy hs]
  exact .same (lfsrNext ρ) β fun h => absurd h (by simp [State.stale, CpuBus.State.request])

/-- The states of one clock that do not look at the bus. -/
theorem Alike.step_ready (hbuf : x.stale = false → β = x.bus.buffer)
    (hs : x.state = .prepairUnalignedFetch ∨ x.state = .exec ∨ x.state = .branch2 ∨
      x.state = .load1 ∨ x.state = .store1 ∨ x.state = .system) :
    Alike (x.step v i) ((x.vary ρ β).step v j) := by
  have hβ : β = x.bus.buffer := hbuf (by
    rcases hs with hs | hs | hs | hs | hs | hs <;> simp [State.stale, hs])
  rcases hs with hs | hs | hs | hs | hs | hs
  · rw [step_prepairUnalignedFetch hx ux hs, step_prepairUnalignedFetch hy uy hs]
    exact .same (lfsrNext ρ) β fun _ => hβ
  · rw [step_exec hx ux hs, step_exec hy uy hs]
    exact .same (lfsrNext ρ) β fun _ => hβ
  · rw [step_branch2 hx ux hs, step_branch2 hy uy hs]
    exact .same (lfsrNext ρ) β fun _ => hβ
  · rw [step_load1 hx ux hs, step_load1 hy uy hs]
    exact .same (lfsrNext ρ) β fun _ => hβ
  · rw [step_store1 hx ux hs, step_store1 hy uy hs]
    exact .same (lfsrNext ρ) β fun _ => hβ
  · cases hk : systemKind x.dec with
    | wfi =>
        rw [step_system_wfi hx ux hs hk, step_system_wfi hy uy hs hk]
        exact .same (lfsrNext ρ) β fun _ => hβ
    | mret =>
        rw [step_system_mret hx ux hs hk, step_system_mret hy uy hs hk]
        exact .same (lfsrNext ρ) β fun _ => hβ
    | csr =>
        rw [step_system_csr hx ux hs hk, step_system_csr hy uy hs hk]
        exact .same (lfsrNext ρ) β fun _ => hβ
    | ecall =>
        rw [step_system_raise hx ux hs _ _ (by rw [State.controlSystem, hk]),
          step_system_raise hy uy hs causeEcall (x.regs.flags 2#5)
            (by rw [State.controlSystem, show systemKind (x.vary ρ β).dec = .ecall from hk]; rfl)]
        exact .same (lfsrNext ρ) β fun _ => hβ
    | ebreak =>
        rw [step_system_raise hx ux hs _ _ (by rw [State.controlSystem, hk]),
          step_system_raise hy uy hs causeBreak false
            (by rw [State.controlSystem, show systemKind (x.vary ρ β).dec = .ebreak from hk])]
        exact .same (lfsrNext ρ) β fun _ => hβ
    | invalid =>
        rw [step_system_raise hx ux hs _ _ (by rw [State.controlSystem, hk]),
          step_system_raise hy uy hs causeInvalidInstruction false
            (by rw [State.controlSystem, show systemKind (x.vary ρ β).dec = .invalid from hk])]
        exact .same (lfsrNext ρ) β fun _ => hβ

theorem Alike.step_postExec (hbuf : x.stale = false → β = x.bus.buffer)
    (hs : x.state = .postExec) : Alike (x.step v i) ((x.vary ρ β).step v j) := by
  have hβ : β = x.bus.buffer := hbuf (by simp [State.stale, hs])
  rw [Cpu.step_postExec hx ux hs, Cpu.step_postExec hy uy hs]
  exact .same (lfsrNext ρ) β fun _ => hβ

theorem Alike.step_csr (hbuf : x.stale = false → β = x.bus.buffer)
    (hs : x.state = .csr1 ∨ x.state = .csr2) (hrnd : x.csr.index = mRnd →
      x.dec.rd = 0#5 ∧ (x.dec.funct3 = funcCsrrw ∨ x.dec.funct3 = funcCsrrwi)) :
    Alike (x.step v i) ((x.vary ρ β).step v j) := by
  have hβ : β = x.bus.buffer := hbuf (by rcases hs with hs | hs <;> simp [State.stale, hs])
  have hdata : x.csr.index ≠ mRnd → (x.vary ρ β).csr.dataOut = x.csr.dataOut := dataOut_reseed ρ
  rcases hs with hs | hs
  · have hregs : (x.vary ρ β).writeRd (x.vary ρ β).csr.dataOut = x.writeRd x.csr.dataOut := by
      by_cases hi : x.csr.index = mRnd
      · have hrd : (x.vary ρ β).dec.rd = 0#5 := (hrnd hi).1
        simp only [State.writeRd, hrd, (hrnd hi).1, Registers.write_zero]
        rfl
      · rw [hdata hi]
        rfl
    rw [step_csr1 hx ux hs, step_csr1 hy uy hs, hregs]
    exact .same (lfsrNext ρ) β fun _ => hβ
  · have hwrite : (x.vary ρ β).csrWriteData = x.csrWriteData := by
      have hdec : (x.vary ρ β).dec = x.dec := rfl
      by_cases hi : x.csr.index = mRnd
      · rcases (hrnd hi).2 with hf | hf
        · simp only [State.csrWriteData, hdec, hf, if_true]
          rfl
        · simp [State.csrWriteData, hdec, hf, funcCsrrw, funcCsrrwi]
      · simp only [State.csrWriteData, hdata hi]
        rfl
    rw [step_csr2 hx ux hs, step_csr2 hy uy hs, hwrite]
    exact .same (lfsrNext ρ) β fun _ => hβ

include hin

/-- The states that wait for the bus and use what was read. -/
theorem Alike.step_read (hbuf : x.stale = false → β = x.bus.buffer)
    (hs : x.state = .fetchMore ∨ x.state = .load2) :
    Alike (x.step v i) ((x.vary ρ β).step v j) := by
  have hβ : β = x.bus.buffer := hbuf (by rcases hs with hs | hs <;> simp [State.stale, hs])
  have hwait : x.bus.wait j.ack j.dat = x.bus.wait i.ack i.dat := by
    rw [hin.ack]
    by_cases ha : i.ack = true
    · rw [hin.dat ha (Or.inr hs)]
    · rw [CpuBus.State.wait, CpuBus.State.wait, if_neg ha, if_neg ha]
  subst hβ
  have hbus : (x.vary ρ x.bus.buffer).bus = x.bus := rfl
  rcases hs with hs | hs
  · rw [step_fetchMore hx ux hs, step_fetchMore hy uy hs, hbus, hwait]
    exact .same (lfsrNext ρ) (x.bus.wait i.ack i.dat).buffer fun _ => rfl
  · rw [step_load2 hx ux hs, step_load2 hy uy hs, hbus, hwait]
    exact .same (lfsrNext ρ) (x.bus.wait i.ack i.dat).buffer fun _ => rfl

theorem Alike.step_store2 (hs : x.state = .store2) (hrnd : x.csr.index ≠ mRnd) :
    Alike (x.step v i) ((x.vary ρ β).step v j) := by
  have hclear : (x.vary ρ β).clearMip = x.clearMip := by
    simp only [State.clearMip, State.vary, dataOut_reseed ρ hrnd]
  have hflag := (hx.flags (by simp [hs])).1
  rw [Cpu.step_store2 hx ux hs, Cpu.step_store2 hy uy hs, hclear, hin.mip, hin.ack]
  have hbus := wait_vary x.bus β i.ack i.dat j.dat
  generalize hnext : (if i.ack then (x.bus.wait i.ack j.dat).buffer else β) = β' at hbus
  rw [show (x.vary ρ β).bus.wait i.ack j.dat = _ from hbus]
  refine .same (lfsrNext ρ) β' fun h => absurd h ?_
  simp only [State.stale]
  split_ifs <;> simp [hflag]

theorem Alike.step_reset (hs : x.state = .reset) :
    Alike (x.step v i) ((x.vary ρ β).step v j) := by
  rw [Cpu.step_reset hx ux hs, Cpu.step_reset hy uy hs, hin.ack]
  have hbus := wait_vary x.bus β i.ack i.dat j.dat
  generalize hnext : (if i.ack then (x.bus.wait i.ack j.dat).buffer else β) = β' at hbus
  rw [show (x.vary ρ β).bus.wait i.ack j.dat = _ from hbus]
  refine .same (lfsrNext ρ) β' fun h => absurd h ?_
  simp only [State.stale]
  split_ifs <;> simp

theorem Alike.step_decode (hbuf : x.stale = false → β = x.bus.buffer) (hs : x.state = .decode) :
    Alike (x.step v i) ((x.vary ρ β).step v j) := by
  have hβ : β = x.bus.buffer := hbuf (by simp [State.stale, hs])
  have htakes : (x.vary ρ β).takesInterrupt j = x.takesInterrupt i := by
    have h₁ : (j.timerInterrupt && (x.vary ρ β).csr.irqTimerEn) = false := hin.timer.2
    simp only [State.takesInterrupt, State.interruptOccured, h₁, hin.timer.1, hin.tags]
    rfl
  cases ht : x.takesInterrupt i with
  | false =>
      rw [Cpu.step_decode hx ux hs ht, Cpu.step_decode hy uy hs (htakes.trans ht)]
      exact .same (lfsrNext ρ) β fun _ => hβ
  | true =>
      have hcause : (x.vary ρ β).interruptCause j = x.interruptCause i := by
        have hen : (x.vary ρ β).csr.tagsEn = x.csr.tagsEn := rfl
        rw [State.interruptCause, State.interruptCause, hin.tags, hen]
        rcases hin.cause hs ht with h | h
        · rw [if_pos h, if_pos h]
        · rw [h]
      rw [step_decode_interrupt hx ux hs ht, step_decode_interrupt hy uy hs (htakes.trans ht),
        hcause]
      exact .same (lfsrNext ρ) β fun _ => hβ

omit hy in
/-- The sequencers run on the CSR block alone. -/
theorem Alike.step_sequencer (hbuf : x.stale = false → β = x.bus.buffer)
    (hs : x.state = .trap ∨ x.state = .mret) (ha : Addressed x) :
    Alike (x.step v i) ((x.vary ρ β).step v j) := by
  have hβ : β = x.bus.buffer := hbuf (by rcases hs with hs | hs <;> simp [State.stale, hs])
  have hk := ux.no_ack hx (by rcases hs with hs | hs <;> rw [hs] <;> rfl)
  have hdata : x.ownsCsr = true → (x.vary ρ β).csr.dataOut = x.csr.dataOut :=
    fun h => dataOut_reseed ρ (ha.own h)
  have htrap : (x.vary ρ β).trapCsr = x.trapCsr := by
    cases hq : x.handlingTrap with
    | false => rw [trapCsr_idle hq, trapCsr_idle (show (x.vary ρ β).handlingTrap = false from hq)]
    | true =>
        simp only [State.trapCsr, hdata (by simp [State.ownsCsr, hq])]
        rfl
  have hmret : (x.vary ρ β).mretCsr = x.mretCsr := by
    cases hq : x.handlingMret with
    | false => rw [mretCsr_idle hq, mretCsr_idle (show (x.vary ρ β).handlingMret = false from hq)]
    | true =>
        simp only [State.mretCsr, hdata (by simp [State.ownsCsr, hq])]
        rfl
  have hnext : ∀ b, (x.vary ρ β).nextTrapState j b = x.nextTrapState i b := by
    intro b
    have h₁ : (j.timerInterrupt && (x.vary ρ β).csr.irqTimerEn) = false := hin.timer.2
    simp only [State.nextTrapState, h₁, hin.timer.1]
    rfl
  have hbusy : (x.vary ρ β).busy j = x.busy i := by
    simp only [State.busy, ux.halt, uy.halt]
    rfl
  have hstate : (x.vary ρ β).state = x.state := rfl
  have hcontrol : (x.vary ρ β).control j = x.control i := by
    rcases hs with hs | hs <;> simp only [State.control, hstate, hs]
  have hbus : (x.step v i).bus = x.bus := by
    rcases hs with hs | hs <;> simp [State.step, State.busIn, State.control, hs, hk]
  have hstep : (x.vary ρ β).step v j = (x.step v i).vary (lfsrNext ρ) β := by
    simp only [State.step, hcontrol, ux.rst, uy.rst, hbusy, hnext, State.aluIn, State.busIn,
      State.regsIn, State.csrIn, State.csrRequest, htrap, hmret, hin.ack, hk, hstate]
    rcases hs with hs | hs <;> simp only [State.control, hs] <;> rfl
  rw [hstep]
  exact .same (lfsrNext ρ) β fun _ => by rw [hbus, hβ]

omit hin in
/-- The next address does not depend on the time, nor does what is written back. -/
theorem Alike.step_updatePc (hbuf : x.stale = false → β = x.bus.buffer) (hs : x.state = .updatePc)
    (hrnd : x.nextAddrFromCsr = true → x.csr.index ≠ mRnd) (hi : i.externalSinglestep = true)
    (hj : j.externalSinglestep = false) :
    Alike (x.step v i) ((x.vary ρ β).step v j) := by
  have hpc : (x.vary ρ β).updateNextPc = x.updateNextPc := by
    unfold State.updateNextPc
    by_cases ha : x.nextAddrFromCsr = true
    · rw [if_pos ha, if_pos (show (x.vary ρ β).nextAddrFromCsr = true from ha)]
      rw [show (x.vary ρ β).csr.dataOut = x.csr.dataOut from dataOut_reseed ρ (hrnd ha)]
    · rw [if_neg ha, if_neg (show ¬ (x.vary ρ β).nextAddrFromCsr = true from ha)]
      rfl
  have hen : (x.vary ρ β).writebackEn = x.writebackEn := rfl
  have hdata : x.writebackEn = true → (x.vary ρ β).writebackData = x.writebackData := by
    intro hwe
    have himm : (!x.dec.writebackFromImm || x.dec.muxRegInputSel == .imm) = true :=
      control_plainImm x.parcels
    have hdec : (x.vary ρ β).dec = x.dec := rfl
    simp only [State.writebackData, hdec]
    cases ha : x.dec.writebackFromAlu with
    | true => rfl
    | false =>
        cases hm : x.dec.writebackFromImm with
        | true =>
            have hmux : x.dec.muxRegInputSel = .imm := by simpa [hm] using himm
            rw [hmux]
            rfl
        | false =>
            have hw : x.writebackFromBus = true := by
              simp only [State.writebackEn, ha, hm, Bool.or_false, Bool.and_eq_true] at hwe
              exact hwe.1
            exact hbuf (by simp [State.stale, hs, hw])
  have hregs : (if (x.vary ρ β).writebackEn then (x.vary ρ β).writeRd (x.vary ρ β).writebackData
      else (x.vary ρ β).regs) = if x.writebackEn then x.writeRd x.writebackData else x.regs := by
    rw [hen]
    split_ifs with hwe
    · rw [hdata hwe]
      rfl
    · rfl
  cases hc : x.csr.busy with
  | true =>
      rw [step_updatePc_busy hx ux hs hc, step_updatePc_busy hy uy hs hc, hregs]
      exact .same (lfsrNext ρ) β fun h => hbuf (by simpa [State.stale, hs] using h)
  | false =>
      rw [Cpu.step_updatePc hx ux hs hc, Cpu.step_updatePc hy uy hs hc, hregs, hpc, hi, hj]
      cases hf : x.testFinished with
      | true =>
          rw [show (x.vary ρ β).testFinished = true from hf]
          exact .same (lfsrNext ρ) β fun h => absurd h (by simp [State.stale])
      | false =>
          rw [show (x.vary ρ β).testFinished = false from hf]
          exact .parked (lfsrNext ρ) β rfl

end step

/-- While the instruction is on its way, the registers behind the bus follow what
the bus has kept from before. -/
theorem Alike.step_fetch {x y : State} {i j : Inputs} {ρ β result : BitVec 32} {lo hi : BitVec 16}
    {lt ltu eq : Bool} (hx : Coherent x) (hy : Coherent y) (ux : Undisturbed x i)
    (uy : Undisturbed y j) (hin : InputsAlike x i j) (hs : x.state = .fetch)
    (hbuf : x.stale = false → β = x.bus.buffer)
    (he : y =
      { x.vary ρ β with
        parcelLow := lo, parcelHigh := hi
        alu := { x.alu with result := result, lt := lt, ltu := ltu, eq := eq } }) :
    Alike (x.step v i) (y.step v j) := by
  have hs' : y.state = .fetch := by rw [he]; exact hs
  have hbusy : y.bus.busy = x.bus.busy := by rw [he]; rfl
  rw [Cpu.step_fetch hx ux hs, Cpu.step_fetch hy uy hs', hbusy, hin.ack]
  cases hb : x.bus.busy with
  | false =>
      have hβ := hbuf (by simp [State.stale, hs, hb])
      have hack : i.ack = false := Bool.eq_false_iff.mpr fun ha => by
        simpa [hx.cyc, hb] using ux.ack ha
      rw [hack, he, hβ]
      exact .same (lfsrNext ρ) x.bus.buffer fun _ => rfl
  | true =>
      have hbus := wait_vary x.bus β i.ack i.dat j.dat
      have hnew : (x.bus.wait i.ack i.dat).busy = false →
          (if i.ack then (x.bus.wait i.ack j.dat).buffer else β) =
            (x.bus.wait i.ack i.dat).buffer := by
        by_cases ha : i.ack = true
        · intro _
          rw [if_pos ha, hin.dat ha (Or.inl hs)]
        · rw [CpuBus.State.wait, if_neg ha, hb]
          exact fun h => absurd h (by decide)
      generalize (if i.ack then (x.bus.wait i.ack j.dat).buffer else β) = β' at hbus hnew
      have hwait : y.bus.wait i.ack j.dat = { x.bus.wait i.ack i.dat with buffer := β' } := by
        rw [he]
        exact hbus
      rw [hwait]
      subst he
      refine .fetching (lfsrNext ρ) β' _ _ _ _ _ _ ?_ ?_
      · rfl
      · exact hnew

section
variable {x y : State} {i j : Inputs}

/-- One clock of both. -/
theorem Alike.step (h : Alike x y) (hx : Coherent x) (hy : Coherent y) (ux : Undisturbed x i)
    (uy : Undisturbed y j) (hin : InputsAlike x i j) (ha : Addressed x)
    (hrnd : x.readsRnd = false) (hjump : x.jumpsToRnd = false) (hi : i.externalSinglestep = true)
    (hj : j.externalSinglestep = false) (hidle : x.state ≠ .cpuIdle) :
    Alike (x.step v i) (y.step v j) := by
  have hused := hx.used
  cases h with
  | parked ρ β hs => exact absurd hs hidle
  | fetching ρ β lo hi result lt ltu eq hs hbuf =>
      exact Alike.step_fetch hx hy ux uy hin hs hbuf rfl
  | same ρ β hbuf =>
      cases hs : x.state <;> rw [hs] at hused
      case dead | misalignedAddr | mretUpdateMstatus | mretReadEpc => exact absurd hused (by decide)
      case cpuIdle => exact absurd hs hidle
      case reset => exact Alike.step_reset hx hy ux uy hin hs
      case preFetch => exact Alike.step_preFetch hx hy ux uy hs
      case fetch => exact Alike.step_fetch hx hy ux uy hin hs hbuf rfl
      case decode => exact Alike.step_decode hx hy ux uy hin hbuf hs
      case postExec => exact Alike.step_postExec hx hy ux uy hbuf hs
      case fetchMore => exact Alike.step_read hx hy ux uy hin hbuf (Or.inl hs)
      case load2 => exact Alike.step_read hx hy ux uy hin hbuf (Or.inr hs)
      case store2 =>
        exact Alike.step_store2 hx hy ux uy hin hs (ha.own (by simp [State.ownsCsr, hs]))
      case csr1 =>
        exact Alike.step_csr hx hy ux uy hbuf (Or.inl hs) (ha.not_read hrnd (Or.inl hs))
      case csr2 =>
        exact Alike.step_csr hx hy ux uy hbuf (Or.inr hs) (ha.not_read hrnd (Or.inr hs))
      case trap =>
        exact Alike.step_sequencer hx ux uy hin hbuf (Or.inl hs) ha
      case mret =>
        exact Alike.step_sequencer hx ux uy hin hbuf (Or.inr hs) ha
      case updatePc =>
        exact Alike.step_updatePc hx hy ux uy hbuf hs
          (fun hn => by simpa [State.jumpsToRnd, hs, hn] using hjump) hi hj
      all_goals exact Alike.step_ready hx hy ux uy hbuf (by simp [hs])

/-- The two present the same request and the same enables. -/
theorem Alike.lines (h : Alike x y) :
    y.bus = { x.bus with buffer := y.bus.buffer } ∧ y.checkTags = x.checkTags ∧
      y.csr.tagsIrqClear = x.csr.tagsIrqClear ∧ y.csr.irqTimerEn = x.csr.irqTimerEn ∧
      y.csr.tagsEn = x.csr.tagsEn ∧ y.csr.irqEn = x.csr.irqEn ∧ y.csr.busy = x.csr.busy := by
  cases h <;> exact ⟨rfl, rfl, rfl, rfl, rfl, rfl, rfl⟩

theorem Alike.state_eq (h : Alike x y) (hs : x.state ≠ .cpuIdle) : y.state = x.state := by
  cases h with
  | same => rfl
  | parked ρ β hp => exact absurd hp hs
  | fetching => rfl

/-- What software can see. -/
theorem Alike.visible (h : Alike x y) :
    y.pc = x.pc ∧ y.regs.regfile = x.regs.regfile ∧ y.csr.settled = x.csr.settled ∧
      y.csr.irqEn = x.csr.irqEn ∧ y.csr.enables = x.csr.enables := by
  cases h <;> exact ⟨rfl, rfl, rfl, rfl, rfl⟩

/-- An idle clock of the machine that is stepped. -/
theorem Alike.step_idle (h : Alike x y) (hx : Coherent x) (ux : Undisturbed x i)
    (hs : x.state = .cpuIdle) (hy : y.state = .preFetch) (hstill : x.csr.Still) :
    Alike (x.step v i) y := by
  have hstep : x.step v i = { x with
      state := if i.externalDoStep then .preFetch else .cpuIdle
      csr := x.csr.reseed (lfsrNext x.csr.rnd) } := by
    rw [step_cpuIdle hx ux hs, hstill]
  rw [hstep]
  cases h with
  | fetching ρ β lo hi result lt ltu eq hs' => exact absurd (hs.symm.trans hs') (by decide)
  | same ρ β hbuf => exact absurd (hs.symm.trans hy) (by decide)
  | parked ρ β =>
      cases i.externalDoStep with
      | true => exact .same ρ β fun h => absurd h (by simp [State.stale])
      | false => exact .parked ρ β rfl

/-- A clock in which a store waits for its answer. -/
theorem step_store2_wait (hx : Coherent x) (ux : Undisturbed x i) (hs : x.state = .store2)
    (hb : x.bus.busy = true) (ha : i.ack = false) (hm : i.clearMipTimer = false)
    (hstill : x.csr.Still) :
    x.step v i = { x with csr := x.csr.reseed (lfsrNext x.csr.rnd) } := by
  have hrest : x.csr.clock {} = _ := hstill
  rw [Cpu.step_store2 hx ux hs, ha, hm, hb, if_neg Bool.false_ne_true, hrest]
  simp [hs]

/-- The two may wait for different numbers of clocks. -/
theorem Alike.wait (h : Alike x y) (hs : x.state = .store2) (ρ : BitVec 32) :
    Alike { x with csr := x.csr.reseed ρ } y ∧ Alike x { y with csr := y.csr.reseed ρ } := by
  cases h with
  | fetching ρ β lo hi result lt ltu eq hs' => exact absurd (hs.symm.trans hs') (by decide)
  | parked ρ β hs' => exact absurd (hs.symm.trans hs') (by decide)
  | same ρ' β hbuf =>
      constructor
      · exact .same ρ' β fun h => absurd h (by simp [State.stale, hs])
      · exact .same ρ β fun h => absurd h (by simp [State.stale, hs])

end

end TagSoc.Cpu
