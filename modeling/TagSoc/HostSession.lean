import TagSoc.FpgaHost

/-!
# Sessions of the host

`host_session`: after the three calls that every session starts with, the system is a
word memory to the host. `lost_write`: a write to an address without a slave is given up
by the host but not by the port, and is made at the address of the next operation.
-/
namespace TagSoc.Fpga
open Soc WbRam Programs

variable {g : ℕ}

/-! ## One transaction -/

/-- The registers with another address, and with other data. -/
def Regs.withAddr (r : Regs) (a : BitVec 32) : Regs :=
  Regs.set (Regs.set r regLowAddr (a.extractLsb' 0 16)) regHighAddr
    (a.extractLsb' 16 16)

def Regs.withDataIn (r : Regs) (x : BitVec 32) : Regs :=
  Regs.set (Regs.set r regLowDataIn (x.extractLsb' 0 16)) regHighDataIn
    (x.extractLsb' 16 16)

@[simp] theorem withAddr_control (r : Regs) (a : BitVec 32) :
    r.withAddr a regControl = r regControl := rfl

@[simp] theorem withDataIn_control (r : Regs) (x : BitVec 32) :
    r.withDataIn x regControl = r regControl := rfl

@[simp] theorem addr_withAddr (r : Regs) (a : BitVec 32) : (r.withAddr a).addr = a :=
  append_halves a

@[simp] theorem dataIn_withDataIn (r : Regs) (x : BitVec 32) : (r.withDataIn x).dataIn = x :=
  append_halves x

@[simp] theorem dataIn_withAddr (r : Regs) (a : BitVec 32) : (r.withAddr a).dataIn = r.dataIn := rfl

@[simp] theorem addr_withDataIn (r : Regs) (x : BitVec 32) : (r.withDataIn x).addr = r.addr := rfl

@[simp] theorem addr_control (r : Regs) (x : BitVec 16) :
    Regs.addr (Regs.set r regControl x) = r.addr := rfl

@[simp] theorem dataIn_control (r : Regs) (x : BitVec 16) :
    Regs.dataIn (Regs.set r regControl x) = r.dataIn := rfl

section transactions
variable {r : Regs} {m : Contents g} {d : BitVec 32} {f : Bool} {y : BitVec 16} {h : Host g}

theorem Rest.steady_plain (hr : Plain (r regControl)) : Steady (Rest (g := g) r m d f) :=
  Rest.steady hr.toCalm fun hc => absurd (hr.clean.symm.trans hc) Bool.false_ne_true

/-- A register other than the control register is written. -/
theorem Rest.write_plain (hr : Plain (r regControl)) {k : BitVec 4} (hk : k.toNat < 9) {x : BitVec 16}
    (hr' : Plain (Regs.set r k x regControl)) {c : Core g} (h : Rest r m d f c) :
    Rest (Regs.set r k x) m d f (Fpga.tick (Fpga.tick (tickWrite c k x))) := by
  have hw := h.write (x := x) hr.toCalm hk fun _ => hr'.clean
  rw [hr.clean, Bool.not_false, Bool.true_and] at hw
  exact Rest.steady_plain hr' _ (Rest.steady_plain hr' _ hw)

theorem At.writeStorage (hp : At (Rest r m d f) y h) (hr : Plain (r regControl))
    {low high : BitVec 25} {k₁ k₂ : BitVec 4} (h₁ : low.extractLsb' 1 4 = k₁)
    (h₂ : high.extractLsb' 1 4 = k₂) (hs₁ : k₁ ∈ storage) (hs₂ : k₂ ∈ storage) (hne : k₁ ≠ k₂)
    (x : BitVec 32) :
    Returns (Fpga.writePair low high x) h fun _ h' =>
      At (Rest (Regs.set (Regs.set r k₁ (x.extractLsb' 0 16)) k₂
        (x.extractLsb' 16 16)) m d f) y h' := by
  have hlt : ∀ k ∈ storage, k.toNat < 9 ∧ regControl ≠ k := by decide
  have hr₁ : Plain (Regs.set r k₁ (x.extractLsb' 0 16) regControl) := by
    rwa [Regs.set_of_ne (hlt _ hs₁).2]
  have hr₂ : Plain (Regs.set (Regs.set r k₁ (x.extractLsb' 0 16)) k₂
      (x.extractLsb' 16 16) regControl) := by
    rwa [Regs.set_of_ne (hlt _ hs₂).2]
  refine hp.writePair h₁ h₂ (Rest.steady_plain hr) (Rest.steady_plain hr₁) (Rest.steady_plain hr₂)
    (fun c hc => hc.write_plain hr (hlt _ hs₁).1 hr₁)
    (fun c hc => hc.write_plain hr₁ (hlt _ hs₂).1 hr₂) fun c hc => ?_
  rw [toCpu_storage hs₁, toCpu_storage hs₂, hc.regs, Regs.set_of_ne hne,
    Regs.set_self, Regs.set_self]
  exact ⟨rfl, rfl⟩

theorem At.setAddress (hp : At (Rest r m d f) y h) (hr : Plain (r regControl)) (a : BitVec 32) :
    Returns (setAddress a) h fun _ h' => At (Rest (r.withAddr a) m d f) y h' :=
  hp.writeStorage hr (by decide) (by decide) (by decide) (by decide) (by decide) a

theorem At.setDataIn (hp : At (Rest r m d f) y h) (hr : Plain (r regControl)) (x : BitVec 32) :
    Returns (setDataIn x) h fun _ h' => At (Rest (r.withDataIn x) m d f) y h' :=
  hp.writeStorage hr (by decide) (by decide) (by decide) (by decide) (by decide) x

theorem At.getDataOut (hp : At (Rest r m d f) y h) (hr : Plain (r regControl)) :
    Returns getDataOut h fun v h' => v = d ∧ At (Rest r m d f) y h' := by
  refine hp.readPair (k := regLowDataOut) (j := regHighDataOut) (by decide) (by decide)
    (Rest.steady_plain hr) fun c hc => ?_
  rw [← hc.data]
  exact ⟨rfl, rfl⟩

/-- As soon as the next clock is over. -/
def Soon (P : Core g → Prop) (c : Core g) : Prop := ∀ n, P (tick^[n + 1] c)

theorem Soon.steady (P : Core g → Prop) : Steady (Soon P) := by
  intro c hc n
  exact hc (n + 1)

/-- The registers after a transaction that was started with the copy `y`. -/
theorem At.startTransaction (hp : At (Rest r m d f) y h) (hr : Plain (r regControl)) (hy : Plain y)
    (ha : periphSelect r.addr = wbAccessRam) :
    Returns startTransaction h fun _ h' =>
      At (Soon (Rest (Regs.set r regControl y)
        (afterWord m (y.getLsbD controlTranWe) r.addr r.dataIn)
        (if y.getLsbD controlTranWe then d else m.words (wordAddr g r.addr)) true))
        (setBit y controlTranStart) h' := by
  refine (hp.setControlBit controlTranStart).bind fun _ s hs => ?_
  refine hs.updateControlRegister (Rest.steady_plain hr) (Rest.steady_plain hr) (Soon.steady _) fun c hc n => ?_
  have hy' : Plain (Regs.set r regControl y regControl) := by rwa [Regs.set_self]
  have hclean : (setBit y controlTranStart).getLsbD controlTranClean = false := by
    rw [getLsbD_setBit y (by decide), hy.clean]
    rfl
  have hw := hc.write (k := regControl) (x := setBit y controlTranStart) hr.toCalm (by decide)
    fun _ => by rwa [Regs.set_self]
  rw [hr.clean, Bool.not_false, Bool.true_and] at hw
  have hdone := (hw.start hy).finish hy'.toCalm hy'.clean ha
  exact (Rest.steady_plain hy').ticks hdone n

theorem At.checkTransactionFinished {P : Core g → Prop} (hp : At (Soon P) y h) (hP : Steady P)
    {x : BitVec 16} (hx : ∀ c, P c → c.1 regControl = x ∧ c.2.ext.tranFinished = f) :
    Returns checkTransactionFinished h fun b h' => b = f ∧ At P (controlValue x f) h' := by
  refine (hp.readShort (fun c hc => hc 0) hP (k := regControl) (by decide)).bind ?_
  rintro v s ⟨hs, c, hc, rfl⟩
  obtain ⟨rfl, rfl⟩ := hx c hc
  rw [toCpu_control]
  refine (Returns.modify (Q := fun _ h' => At P _ h') ⟨hs.ready, hs.core, rfl⟩).bind
    fun _ s' hs' => Returns.pure ⟨?_, hs'⟩
  rw [getLsbD_controlValue, if_pos rfl]

/-- The answer comes with the first look. -/
theorem At.finished {P : Core g → Prop} (hp : At (Soon P) y h) (hP : Steady P) {x : BitVec 16}
    (hx : ∀ c, P c → c.1 regControl = x ∧ c.2.ext.tranFinished = true) (n : ℕ) :
    Returns (finished (n + 1)) h fun b h' => b = true ∧ At P (controlValue x true) h' := by
  refine (hp.checkTransactionFinished hP hx).bind ?_
  rintro b s ⟨rfl, hs⟩
  exact Returns.pure ⟨rfl, hs⟩

theorem Plain.clearBit (hy : Plain y) {k : ℕ}
    (hk : k ∉ [controlCpuHalt, controlBusMaster, controlTranSizeLow, controlTranSizeHigh]) : Plain (clearBit y k) := by
  simp only [List.mem_cons, List.not_mem_nil, or_false, not_or] at hk
  have hkeep : ∀ j, k ≠ j → (Fpga.clearBit y k).getLsbD j = y.getLsbD j := by
    intro j hj
    rw [getLsbD_clearBit, bne, beq_false_of_ne hj.symm, Bool.not_false, Bool.and_true]
  have hlow : ∀ j, y.getLsbD j = false → (Fpga.clearBit y k).getLsbD j = false := by
    intro j hj
    rw [getLsbD_clearBit, hj, Bool.false_and]
  exact ⟨⟨hlow _ hy.rst, (hkeep _ hk.1).trans hy.halt, (hkeep _ hk.2.1).trans hy.master,
    hlow _ hy.start, hlow _ hy.step⟩, hlow _ hy.clean, (hkeep _ hk.2.2.1).trans hy.sizeLow,
    (hkeep _ hk.2.2.2).trans hy.sizeHigh⟩

theorem Calm.setClean (hy : Calm y) : Calm (setBit y controlTranClean) := by
  obtain ⟨h₁, h₂, h₃, h₄, h₅⟩ := hy
  constructor <;> rw [getLsbD_setBit y (by decide)] <;> simp [*] <;> decide

/-- Two writes: the first clears the flag of the port, the second the bit that did. -/
theorem At.clearTransactionFinished (hp : At (Rest r m d f) y h) (hr : Plain (r regControl))
    (hy : Plain y) :
    Returns clearTransactionFinished h fun _ h' =>
      At (Rest (Regs.set r regControl (clearBit y controlTranWe)) m d false)
        (clearBit y controlTranWe) h' := by
  have hy₁ : Plain (clearBit y controlTranWe) := hy.clearBit (by decide)
  have hup : (setBit (clearBit y controlTranWe) controlTranClean).getLsbD controlTranClean = true := by
    rw [getLsbD_setBit _ (by decide), beq_self_eq_true, Bool.or_true]
  have hr₂ : Calm (Regs.set r regControl
      (setBit (clearBit y controlTranWe) controlTranClean) regControl) := by
    rw [Regs.set_self]
    exact hy₁.toCalm.setClean
  have hr₃ : Plain (Regs.set r regControl (clearBit y controlTranWe) regControl) := by
    rwa [Regs.set_self]
  have hsteady := Rest.steady (m := m) (d := d) (f := false) hr₂ fun _ => rfl
  refine (hp.clearControlBit controlTranWe).bind fun _ s₁ hp₁ => ?_
  refine (hp₁.setControlBit controlTranClean).bind fun _ s₂ hp₂ => ?_
  refine (hp₂.updateControlRegister (Rest.steady_plain hr) (Rest.steady_plain hr) hsteady fun c hc => ?_).bind
    fun _ s₃ hp₃ => ?_
  · have hw := (hc.write (k := regControl)
      (x := setBit (clearBit y controlTranWe) controlTranClean) hr.toCalm (by decide)
      fun hc => absurd (hr.clean.symm.trans hc) Bool.false_ne_true).tick hr₂
    rw [Regs.set_self, hup, Bool.not_true, Bool.false_and] at hw
    exact hsteady _ hw
  · refine (hp₃.clearControlBit controlTranClean).bind fun _ s₄ hp₄ => ?_
    rw [clearBit_setBit (by decide) hy₁.clean] at hp₄
    refine hp₄.updateControlRegister hsteady hsteady (Rest.steady_plain hr₃) fun c hc => ?_
    have hw := hc.write (k := regControl) (x := clearBit y controlTranWe) hr₂ (by decide)
      fun _ => by rw [Regs.set_self, hy₁.clean]
    rw [Regs.set_set, Bool.and_false] at hw
    exact Rest.steady_plain hr₃ _ (Rest.steady_plain hr₃ _ hw)

end transactions

/-! ## The memory -/

/-- Between two operations: the memory holds `m` and the data registers show `d`. The copy
of the control register is plain too, and a transaction that is started with it is a
read. -/
structure Serves (m : Contents g) (d : BitVec 32) (h : Host g) : Prop where
  copy : Plain h.controlReg
  reads : h.controlReg.getLsbD controlTranWe = false
  rest : ∃ r : Regs, Plain (r regControl) ∧ At (Rest r m d false) h.controlReg h

theorem Serves.contents {m : Contents g} {d : BitVec 32} {h : Host g} (hs : Serves m d h) :
    h.fpga.soc.ram.contents = m := by
  obtain ⟨r, -, hp⟩ := hs.rest
  exact hp.core.contents

section memory
variable {m : Contents g} {d : BitVec 32} {h : Host g} {a : BitVec 32}

theorem At.serving {r : Regs} {y : BitVec 16} (hp : At (Rest r m d false) y h)
    (hr : Plain (r regControl)) (hy : Plain y) (hwe : y.getLsbD controlTranWe = false) :
    Serves m d h := by
  obtain rfl := hp.copy
  exact ⟨hy, hwe, r, hr, hp⟩

/-- The end of both operations. -/
theorem At.serves {r : Regs} {x y : BitVec 16}
    (hp : At (Soon (Rest (Regs.set r regControl x) m d true)) y h) (hx : Plain x) (n : ℕ) :
    Returns (Fpga.finished (n + 1)) h fun b h₁ => b = true ∧
      Returns Fpga.clearTransactionFinished h₁ fun _ h₂ => Serves m d h₂ := by
  have hx' : Plain (Regs.set r regControl x regControl) := by rwa [Regs.set_self]
  refine (hp.finished (Rest.steady_plain hx') (x := x)
    (fun c hc => ⟨by rw [hc.regs, Regs.set_self], hc.finished⟩) n).mono ?_
  rintro b s₁ ⟨rfl, hp₁⟩
  refine ⟨rfl, (hp₁.clearTransactionFinished hx' (hx.controlValue true)).mono fun _ s₂ hp₂ => ?_⟩
  have hplain : Plain (clearBit (controlValue x true) controlTranWe) :=
    (hx.controlValue true).clearBit (by decide)
  refine hp₂.serving (by rwa [Regs.set_self]) hplain ?_
  rw [getLsbD_clearBit, bne_self_eq_false, Bool.and_false]

theorem Serves.getDataOut (hs : Serves m d h) :
    Returns Fpga.getDataOut h fun v h' => v = d ∧ Serves m d h' := by
  obtain ⟨hy, hwe, r, hr, hp⟩ := hs
  refine (hp.getDataOut hr).mono ?_
  rintro v s ⟨rfl, hp'⟩
  exact ⟨rfl, hp'.serving hr hy hwe⟩

theorem Serves.readWordRam (hs : Serves m d h) (ha : periphSelect a = wbAccessRam) :
    Returns (readWordRam a) h fun v h' => v = m.words (wordAddr g a) ∧
      Serves m (m.words (wordAddr g a)) h' := by
  obtain ⟨hy, hwe, r, hr, hp⟩ := hs
  refine (hp.setAddress hr a).bind fun _ s₁ hp₁ => ?_
  refine (hp₁.startTransaction hr hy (by rwa [addr_withAddr])).bind fun _ s₂ hp₂ => ?_
  rw [hwe, addr_withAddr, afterWord, if_neg Bool.false_ne_true, if_neg Bool.false_ne_true] at hp₂
  refine (hp₂.serves hy 9).bind ?_
  rintro b s₃ ⟨rfl, hclear⟩
  exact hclear.bind fun _ s₄ hs₄ => hs₄.getDataOut

theorem Plain.setWe {y : BitVec 16} (hy : Plain y) : Plain (setBit y controlTranWe) := by
  obtain ⟨⟨h₁, h₂, h₃, h₄, h₅⟩, h₆, h₇, h₈⟩ := hy
  constructor
  case toCalm => constructor <;> rw [getLsbD_setBit y (by decide)] <;> simp [*] <;> decide
  all_goals
    rw [getLsbD_setBit y (by decide)]
    simp [*] <;> decide

theorem Serves.writeWordRam (hs : Serves m d h) (ha : periphSelect a = wbAccessRam)
    (x : BitVec 32) :
    Returns (writeWordRam a x) h fun b h' => b = true ∧ Serves (m.write wbSelWord a x) d h' := by
  obtain ⟨hy, hwe, r, hr, hp⟩ := hs
  refine (hp.setAddress hr a).bind fun _ s₁ hp₁ => ?_
  refine (hp₁.setDataIn hr x).bind fun _ s₂ hp₂ => ?_
  refine (hp₂.setControlBit controlTranWe).bind fun _ s₃ hp₃ => ?_
  have hup : (setBit h.controlReg controlTranWe).getLsbD controlTranWe = true := by
    rw [getLsbD_setBit _ (by decide), beq_self_eq_true, Bool.or_true]
  refine (hp₃.startTransaction hr hy.setWe (by simpa using ha)).bind fun _ s₄ hp₄ => ?_
  rw [hup, addr_withDataIn, addr_withAddr, dataIn_withDataIn, afterWord, if_pos rfl, if_pos rfl]
    at hp₄
  refine (hp₄.serves hy.setWe 9).bind ?_
  rintro b s₅ ⟨rfl, hclear⟩
  exact hclear.bind fun _ s₆ hs₆ => Returns.pure ⟨rfl, hs₆⟩

end memory

/-! ## The start of a session -/

/-- The slaves in reset. -/
theorem rest_of_reset {c : Core g} (hr : (socInputs c.1).rst = true) :
    PortRests (c.2.step (socInputs c.1)) ∧
      (c.2.step (socInputs c.1)).ext.data = 0xC0017A1E#32 ∧
      (c.2.step (socInputs c.1)).ext.tranFinished = false := by
  refine ⟨?_, ?_, ?_⟩
  · constructor <;> simp [Soc.State.step, WbExt.State.step, Soc.State.extIn, WbRam.State.step,
      Soc.State.ramIn, hr]
  · simp [Soc.State.step, WbExt.State.step, Soc.State.extIn, hr]
  · simp [Soc.State.step, WbExt.State.step, Soc.State.extIn, hr]

/-- The registers of a bridge that was reset. -/
structure Fresh (r : Regs) : Prop where
  control : r regControl = 0x0203#16
  sanity : r regSanity = 0x50FE#16

section reset
variable {r : Regs} {m : Contents g} {y : BitVec 16} {h : Host g} {s : State g}

theorem resetRegs_fresh (r : Regs) : Fresh (resetRegs r) := ⟨rfl, rfl⟩

theorem Fresh.tick_regs {c : Core g} (h : Fresh c.1) : (tick c).1 = c.1 :=
  takeBackCommands_calm (by rw [h.control]; rfl) (by rw [h.control]; rfl)

theorem Fresh.rst (h : Fresh r) : (socInputs r).rst = true := by
  simp only [socInputs, h.control]
  rfl

theorem Fresh.cpu_reset {c : Core g} (h : Fresh c.1) : (tick c).2.cpu.state = .reset := by
  have hc : (c.2.cpuIn (socInputs c.1)).rst = true := by
    simp only [Soc.State.cpuIn, socInputs, h.control]
    rfl
  exact Cpu.step_state_of_rst hc

theorem Rest.steady_fresh (hr : Fresh r) : Steady (Rest (g := g) r m 0xC0017A1E#32 false) := by
  intro c h
  obtain ⟨rfl, hport, hm, -, -, -⟩ := h
  obtain ⟨h₁, h₂, h₃⟩ := rest_of_reset hr.rst
  exact ⟨hr.tick_regs, h₁, (contents_of_no_write hport.ramWe hport.tagWe).trans hm, h₂, h₃,
    hr.cpu_reset⟩

/-- A reset of any number of clocks. -/
theorem hold_reset (s : State g) (n : ℕ) :
    (s.hold { idle with reset := false } (n + 1)).stage2 = false ∧
      (s.hold { idle with reset := false } (n + 1)).stage3 = false ∧
      Fresh (s.hold { idle with reset := false } (n + 1)).regs := by
  have hlast : s.hold { idle with reset := false } (n + 1) =
      (s.hold { idle with reset := false } n).step { idle with reset := false } :=
    Function.iterate_succ_apply' _ n s
  rw [hlast]
  exact ⟨rfl, rfl, resetRegs_fresh _⟩

/-- The first clock after a reset. -/
theorem ready_of_reset (h₂ : s.stage2 = false) (h₃ : s.stage3 = false) :
    Ready (s.step idle) ∧ (s.step idle).core = tick s.core := by
  have hquiet : s.ifaceAccessed = false := by
    rw [State.ifaceAccessed, h₃, Bool.and_false]
  obtain ⟨g₁, -, g₃⟩ := stages_step (s := s) (p := idle) rfl
  exact ⟨⟨g₁, fun _ => g₃.trans h₂⟩, (core_of_quiet rfl hquiet).1⟩

theorem fpgaInit_spec (h : Host g) :
    Returns fpgaInit h fun _ h' => ∃ (r : Regs) (m : Contents g), Fresh r ∧
      At (Rest r m 0xC0017A1E#32 false) h.controlReg h' := by
  refine Returns.bind (Returns.of_eq (p := setReset false) rfl
    (Q := fun _ h₁ => h₁.controlReg = h.controlReg ∧ h₁.fpga.stage2 = false ∧
      h₁.fpga.stage3 = false ∧ Fresh h₁.fpga.regs) ⟨rfl, ?_⟩) ?_
  · change State.stage2 (h.fpga.run _) = false ∧ State.stage3 (h.fpga.run _) = false ∧
      Fresh (h.fpga.run _).regs
    rw [run_replicate, Nat.add_comm 1]
    exact hold_reset h.fpga _
  · rintro - h₁ ⟨hcopy, hs₂, hs₃, hfresh⟩
    obtain ⟨hready, hcore⟩ := ready_of_reset hs₂ hs₃
    obtain ⟨hport, hdata, hfin⟩ := rest_of_reset (c := h₁.fpga.core) hfresh.rst
    have hrest : Rest h₁.fpga.regs (tick h₁.fpga.core).2.ram.contents 0xC0017A1E#32 false
        (tick h₁.fpga.core) :=
      ⟨hfresh.tick_regs, hport, rfl, hdata, hfin, Fresh.cpu_reset hfresh⟩
    obtain ⟨hready', hticks, -⟩ := hready.hold_high (p := idle) rfl rfl (h₁.times 0).gap
    have hrun : h₁.fpga.run (List.replicate (1 + (h₁.times 0).gap) idle) =
        (h₁.fpga.step idle).hold idle (h₁.times 0).gap := by
      rw [run_replicate, Nat.add_comm 1, hold_succ]
    refine Returns.of_eq (p := setReset true) rfl
      ⟨h₁.fpga.regs, (tick h₁.fpga.core).2.ram.contents, hfresh, ?_, ?_, hcopy⟩
    · change Ready (h₁.fpga.run (List.replicate (1 + (h₁.times 0).gap) idle))
      rwa [hrun]
    · change Rest _ _ _ _ (h₁.fpga.run (List.replicate (1 + (h₁.times 0).gap) idle)).core
      rw [hrun, hticks, hcore]
      exact (Rest.steady_fresh hfresh).ticks hrest _

theorem At.checkSanity (hp : At (Rest r m 0xC0017A1E#32 false) y h) (hr : Fresh r) :
    Returns checkSanity h fun b h' => b = true ∧ At (Rest r m 0xC0017A1E#32 false) y h' := by
  refine (hp.readShort (Rest.steady_fresh hr) (Rest.steady_fresh hr) (k := regSanity)
    (by decide)).bind ?_
  rintro v s ⟨hs, c, hc, rfl⟩
  have hv : (toCpu c.1 c.2 regSanity == saneConstant) = true := by
    rw [toCpu_storage (by decide), hc.regs, hr.sanity]
    rfl
  exact (hs.assert hv).bind fun _ s' hs' => Returns.pure ⟨hv, hs'⟩

/-- The copy of the control register is the one of a new session. -/
theorem At.haltSoc (hp : At (Rest r m 0xC0017A1E#32 false) 0#16 h) (hr : Fresh r) :
    Returns haltSoc h fun _ h' => Serves m 0xC0017A1E#32 h' := by
  have hy : Plain 0x0384#16 := by
    constructor
    case toCalm => constructor <;> rfl
    all_goals rfl
  have hy' : Plain (Regs.set r regControl 0x0384#16 regControl) := by
    rwa [Regs.set_self]
  refine (hp.setControlBit controlCpuHalt).bind fun _ s₁ h₁ => ?_
  refine (h₁.clearControlBit controlSocReset).bind fun _ s₂ h₂ => ?_
  refine (h₂.setControlBit controlBusMaster).bind fun _ s₃ h₃ => ?_
  refine (h₃.setControlBit controlTranSizeLow).bind fun _ s₄ h₄ => ?_
  refine (h₄.setControlBit controlTranSizeHigh).bind fun _ s₅ h₅ => ?_
  rw [show setBit (setBit (setBit (clearBit (setBit 0#16 controlCpuHalt) controlSocReset)
    controlBusMaster) controlTranSizeLow) controlTranSizeHigh = 0x0384#16 from rfl] at h₅
  refine (h₅.updateControlRegister (Q := Rest (Regs.set r regControl 0x0384#16) m
    0xC0017A1E#32 false) (Rest.steady_fresh hr) (Rest.steady_fresh hr) (Rest.steady_plain hy') fun c hc => ?_).mono
    fun _ s₆ h₆ => h₆.serving hy' hy rfl
  obtain ⟨-, hport, hm, hd, hf, hcpu⟩ := Rest.steady_fresh hr _ hc
  have hw : Rest (Regs.set r regControl 0x0384#16) m 0xC0017A1E#32 false
      (tickWrite c regControl 0x0384#16) := by
    refine ⟨?_, hport, hm, hd, hf, hcpu⟩
    change takeBackCommands c.1 (writeReg c.1 regControl 0x0384#16) = _
    have hctl := hr.control
    rw [← hc.regs] at hctl
    rw [takeBackCommands_calm (by rw [hctl]; rfl) (by rw [hctl]; rfl), writeReg, if_pos (by decide)]
    simp only [takeBack, hctl]
    rw [hc.regs]
    exact Regs.set_get
  exact Rest.steady_plain hy' _ (Rest.steady_plain hy' _ hw)

end reset

/-! ## Sessions -/

/-- What the host does with the memory. -/
inductive Op where
  | read (a : BitVec 32)
  | write (a x : BitVec 32)
deriving Repr, DecidableEq

namespace Op

def addr : Op → BitVec 32
  | read a => a
  | write a _ => a

def run : Op → H g (BitVec 32 ⊕ Bool)
  | read a => do pure (.inl (← readWordRam a))
  | write a x => do pure (.inr (← writeWordRam a x))

/-- The operation on a memory, and the word that was read last. -/
def spec : Op → Contents g × BitVec 32 → (BitVec 32 ⊕ Bool) × Contents g × BitVec 32
  | read a, (m, _) => (.inl (m.words (wordAddr g a)), m, m.words (wordAddr g a))
  | write a x, (m, d) => (.inr true, m.write wbSelWord a x, d)

theorem run_spec (o : Op) (ho : periphSelect o.addr = wbAccessRam) {p : Contents g × BitVec 32}
    {h : Host g} (hs : Serves p.1 p.2 h) :
    Returns o.run h fun b h' => b = (o.spec p).1 ∧ Serves (o.spec p).2.1 (o.spec p).2.2 h' := by
  cases o with
  | read a =>
      refine (hs.readWordRam ho).bind ?_
      rintro v h₁ ⟨rfl, h₂⟩
      exact Returns.pure ⟨rfl, h₂⟩
  | write a x =>
      refine (hs.writeWordRam ho x).bind ?_
      rintro v h₁ ⟨rfl, h₂⟩
      exact Returns.pure ⟨rfl, h₂⟩

end Op

/-- The first calls of every session. -/
def opening : H g Unit := do
  fpgaInit
  let _ ← checkSanity
  haltSoc

theorem opening_spec (s : State g) (times : ℕ → Timing) (past : List Pins) :
    Returns opening ⟨s, 0#16, times, past⟩ fun _ h =>
      Serves h.fpga.soc.ram.contents 0xC0017A1E#32 h := by
  refine (fpgaInit_spec _).bind ?_
  rintro - h₁ ⟨r, m, hr, hp⟩
  refine (hp.checkSanity hr).bind ?_
  rintro b h₂ ⟨-, hp₂⟩
  refine (hp₂.haltSoc hr).mono fun _ h₃ hs => ?_
  rwa [hs.contents]

theorem Serves.operations {m : Contents g} {d : BitVec 32} {h : Host g} (hs : Serves m d h)
    {ops : List Op} (hops : ∀ o ∈ ops, periphSelect o.addr = wbAccessRam) :
    Returns (ops.mapM Op.run) h fun answers h' =>
      answers = (script Op.spec ops (m, d)).1 ∧
        Serves (script Op.spec ops (m, d)).2.1 (script Op.spec ops (m, d)).2.2 h' :=
  Returns.mapM (fun (p : Contents g × BitVec 32) h => Serves p.1 p.2 h) hs
    fun o ho _ _ hs => Op.run_spec o (hops o ho) hs

/-- Whatever state the board was in and however long the accesses take, a new session
opens without a failure, and from then on the system answers every list of reads and
writes as a word memory does that starts with what the memory holds. -/
theorem host_session (g : ℕ) (s : State g) (times : ℕ → Timing) :
    Returns opening ⟨s, 0#16, times, []⟩ fun _ h =>
      ∀ ops : List Op, (∀ o ∈ ops, periphSelect o.addr = wbAccessRam) →
        Returns (ops.mapM Op.run) h fun answers h' =>
          answers = (script Op.spec ops (h.fpga.soc.ram.contents, 0xC0017A1E#32)).1 ∧
            h'.fpga.soc.ram.contents =
              (script Op.spec ops (h.fpga.soc.ram.contents, 0xC0017A1E#32)).2.1 := by
  refine (opening_spec s times []).mono ?_
  rintro - h hs ops hops
  refine (hs.operations hops).mono ?_
  rintro answers h' ⟨h₁, h₂⟩
  exact ⟨h₁, h₂.contents⟩

/-! ## A write that no slave takes -/

section lost
variable {r : Regs} {m : Contents g} {d : BitVec 32} {y : BitVec 16} {h : Host g} {a b : BitVec 32}

theorem At.startTransaction_none {f : Bool} (hp : At (Rest r m d f) y h) (hr : Plain (r regControl))
    (hy : Plain y) (ha : periphSelect r.addr = wbAccessNone) :
    Returns Fpga.startTransaction h fun _ h' =>
      At (Waits (Regs.set r regControl y) (y.getLsbD controlTranWe) m d f)
        (setBit y controlTranStart) h' := by
  have hy' : Plain (Regs.set r regControl y regControl) := by rwa [Regs.set_self]
  have hsteady : Steady (Waits (Regs.set r regControl y) (y.getLsbD controlTranWe) m d f) :=
    Waits.steady hy'.toCalm hy'.clean ha
  refine (hp.setControlBit controlTranStart).bind fun _ s hs => ?_
  refine hs.updateControlRegister (Rest.steady_plain hr) (Rest.steady_plain hr) hsteady fun c hc => ?_
  have hw := hc.write (k := regControl) (x := setBit y controlTranStart) hr.toCalm (by decide)
    fun hc => absurd (hr.clean.symm.trans hc) Bool.false_ne_true
  rw [hr.clean, Bool.not_false, Bool.true_and] at hw
  exact hsteady _ (hw.start hy)

/-- The host looks `n` times and gives up. -/
theorem At.not_finished {P : Core g → Prop} (hP : Steady P) {x : BitVec 16}
    (hx : ∀ c, P c → c.1 regControl = x ∧ c.2.ext.tranFinished = false) (n : ℕ) (hp : At P y h) :
    Returns (Fpga.finished (n + 1)) h fun b h' => b = false ∧ At P (controlValue x false) h' := by
  have hsoon : ∀ {y : BitVec 16} {h : Host g}, At P y h → At (Soon P) y h := fun hp =>
    ⟨hp.ready, fun n => hP.ticks hp.core (n + 1), hp.copy⟩
  induction n generalizing y h with
  | zero =>
      refine ((hsoon hp).checkTransactionFinished hP hx).bind ?_
      rintro b s ⟨rfl, hs⟩
      exact Returns.pure ⟨rfl, hs⟩
  | succ n ih =>
      refine ((hsoon hp).checkTransactionFinished hP hx).bind ?_
      rintro b s ⟨rfl, hs⟩
      exact ih hs

/-- The slave is chosen by the upper half of the address. -/
theorem periphSelect_low (r : Regs) (x : BitVec 16) :
    periphSelect (Regs.addr (Regs.set r regLowAddr x)) = periphSelect r.addr := by
  have hsel : ∀ u v : BitVec 16, periphSelect (u ++ v) = u.extractLsb' 10 2 := by
    intro u v
    apply BitVec.eq_of_getLsbD_eq
    intro j hj
    rw [periphSelect, BitVec.getLsbD_extractLsb', BitVec.getLsbD_extractLsb', BitVec.getLsbD_append,
      if_neg (by omega), show 26 + j - 16 = 10 + j by omega]
  exact (hsel _ _).trans (hsel _ _).symm

/-- With its new address the old transaction goes through. -/
theorem At.setAddress_waiting (hp : At (Waits r true m d false) y h) (hr : Plain (r regControl))
    (ha : periphSelect r.addr = wbAccessNone) (hb : periphSelect b = wbAccessRam) :
    Returns (Fpga.setAddress b) h fun _ h' =>
      At (Rest (r.withAddr b) (m.write wbSelWord b r.dataIn) d true) y h' := by
  have ha' := (periphSelect_low r (b.extractLsb' 0 16)).trans ha
  have hsteady : Steady
      (Waits (Regs.set r regLowAddr (b.extractLsb' 0 16)) true m d false) :=
    Waits.steady hr.toCalm hr.clean ha'
  refine hp.writePair (k := regLowAddr) (j := regHighAddr) (by decide) (by decide)
    (Waits.steady hr.toCalm hr.clean ha) hsteady (Rest.steady_plain (r := r.withAddr b) hr)
    (fun c hc => ?_) (fun c hc => ?_) fun c hc => ?_
  · have hw := hc.write (k := regLowAddr) (x := b.extractLsb' 0 16) hr.toCalm hr.clean ha (by decide)
    exact hsteady _ (hsteady _ hw)
  · have hw := Waits.write (r := Regs.set r regLowAddr (b.extractLsb' 0 16))
      (k := regHighAddr) (x := b.extractLsb' 16 16) hr.toCalm hr.clean ha' (by decide) hc
    have hdone := Waits.finish (r := r.withAddr b) hr.toCalm hr.clean (by rwa [addr_withAddr]) hw
    rwa [addr_withAddr] at hdone
  · rw [toCpu_storage (by decide), toCpu_storage (by decide), hc.regs]
    exact ⟨rfl, rfl⟩

theorem write_again (m : Contents g) (b x : BitVec 32) :
    (m.write wbSelWord b x).write wbSelWord b x = m.write wbSelWord b x := by
  simp [Contents.write, wbSelWord, wbSelTag, dataToWrite, wbSelByte, wbSelHalf]

/-- A write of `x` that the host has given up. The copy of the control register still has
the write bit. -/
structure Pending (m : Contents g) (d x : BitVec 32) (h : Host g) : Prop where
  copy : Plain h.controlReg
  writes : h.controlReg.getLsbD controlTranWe = true
  waits : ∃ r : Regs, Plain (r regControl) ∧ periphSelect r.addr = wbAccessNone ∧ r.dataIn = x ∧
    At (Waits r true m d false) h.controlReg h

theorem Serves.writeWordRam_none (hs : Serves m d h) (ha : periphSelect a = wbAccessNone)
    (x : BitVec 32) :
    Returns (Fpga.writeWordRam a x) h fun done h' => done = false ∧ Pending m d x h' := by
  obtain ⟨hy, hwe, r, hr, hp⟩ := hs
  have hup : (setBit h.controlReg controlTranWe).getLsbD controlTranWe = true := by
    rw [getLsbD_setBit _ (by decide), beq_self_eq_true, Bool.or_true]
  have hplain : Plain (Regs.set ((r.withAddr a).withDataIn x) regControl
      (setBit h.controlReg controlTranWe) regControl) := by
    rw [Regs.set_self]
    exact hy.setWe
  refine (hp.setAddress hr a).bind fun _ s₁ hp₁ => ?_
  refine (hp₁.setDataIn hr x).bind fun _ s₂ hp₂ => ?_
  refine (hp₂.setControlBit controlTranWe).bind fun _ s₃ hp₃ => ?_
  refine (hp₃.startTransaction_none hr hy.setWe (by simpa using ha)).bind fun _ s₄ hp₄ => ?_
  rw [hup] at hp₄
  refine (hp₄.not_finished (Waits.steady hplain.toCalm hplain.clean (by simpa using ha))
    (fun c hc => ⟨by rw [hc.regs, Regs.set_self], hc.finished⟩) 9).bind ?_
  rintro done s₅ ⟨rfl, hp₅⟩
  refine Returns.pure ⟨rfl, ?_, ?_, _, hplain, by simpa using ha, by simp, hp₅.copy ▸ hp₅⟩
  · rw [hp₅.copy]
    exact hy.setWe.controlValue false
  · rw [hp₅.copy, getLsbD_controlValue, if_neg (by decide), hup]

/-- The next read is made as a write of the same data, and shows the word that was read
before it. -/
theorem Pending.readWordRam {x : BitVec 32} (hs : Pending m d x h)
    (hb : periphSelect b = wbAccessRam) :
    Returns (Fpga.readWordRam b) h fun v h' => v = d ∧ Serves (m.write wbSelWord b x) d h' := by
  obtain ⟨hy, hwe, r, hr, ha, rfl, hp⟩ := hs
  refine (hp.setAddress_waiting hr ha hb).bind fun _ s₁ hp₁ => ?_
  refine (hp₁.startTransaction hr hy (by rwa [addr_withAddr])).bind fun _ s₂ hp₂ => ?_
  rw [hwe, addr_withAddr, afterWord, if_pos rfl, if_pos rfl, dataIn_withAddr, write_again] at hp₂
  refine (hp₂.serves hy 9).bind ?_
  rintro done s₃ ⟨rfl, hclear⟩
  exact hclear.bind fun _ s₄ hs₄ => hs₄.getDataOut

end lost

/-- In any session, after any operations on the memory: a write to an address without a
slave is reported as failed, and the read that follows it writes that data to its own
address and answers with the word that was read last. -/
theorem lost_write (g : ℕ) (s : State g) (times : ℕ → Timing) :
    Returns opening ⟨s, 0#16, times, []⟩ fun _ h =>
      ∀ ops : List Op, (∀ o ∈ ops, periphSelect o.addr = wbAccessRam) →
      ∀ a b x : BitVec 32, periphSelect a = wbAccessNone → periphSelect b = wbAccessRam →
        Returns (do
          let _ ← ops.mapM Op.run
          let done ← writeWordRam a x
          let v ← readWordRam b
          pure (done, v)) h fun answer h' =>
          let port := (script Op.spec ops (h.fpga.soc.ram.contents, 0xC0017A1E#32)).2
          answer = (false, port.2) ∧ h'.fpga.soc.ram.contents = port.1.write wbSelWord b x := by
  refine (opening_spec s times []).mono ?_
  rintro - h hs ops hops a b x ha hb
  refine (hs.operations hops).bind ?_
  rintro - h₁ ⟨-, hs₁⟩
  refine (hs₁.writeWordRam_none ha x).bind ?_
  rintro done h₂ ⟨rfl, hs₂⟩
  refine (hs₂.readWordRam hb).bind ?_
  rintro v h₃ ⟨rfl, hs₃⟩
  exact Returns.pure ⟨rfl, hs₃.contents⟩

end TagSoc.Fpga
