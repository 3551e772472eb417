import TagSoc.HostSession

/-!
# Stepping a program from the host

`run_soc` with single steps, and any number of calls of `do_step`. A call that returns
has given one pulse, in a clock in which the processor was idle, so that every one of
them is the order for one instruction, or for the trap entry that an interrupt puts in its
place. `host_steps`: those that were executed and the one under way are as many as the
calls, and the one that follows the reset.
-/
namespace TagSoc.Soc
open Cpu

variable {g : ℕ}

/-! ## What a clock of the processor owes -/

/-- An instruction or a trap entry is left: both end in `UPDATE_PC`. -/
def retires (s s' : State g) : ℕ :=
  if s.cpu.state = .updatePc ∧ s'.cpu.state ≠ .updatePc then 1 else 0

/-- An instruction or a trap entry is under way. -/
def due (s : State g) : ℕ := if s.cpu.state = .cpuIdle then 0 else 1

/-- One is ordered. -/
def accepts (s : State g) (i : Inputs) : ℕ :=
  if s.cpu.state = .cpuIdle ∧ i.extCpuDoStep = true then 1 else 0

/-- The processor has the bus and is not halted. It is in reset, or in single steps. -/
structure Inputs.Steps (i : Inputs) (s : State g) : Prop where
  rst : i.rst = false
  halt : i.extCpuHalt = false
  master : i.busMaster = false
  mode : i.cpuRst = true ∧ s.cpu.state = .reset ∨ i.cpuRst = false ∧ i.extCpuSinglestep = true

section clock
variable {s : State g} {i : Inputs}

theorem Inputs.Steps.cpu_reset (hr : i.cpuRst = true) : (s.step i).cpu.state = .reset :=
  step_state_of_rst (i := s.cpuIn i) hr

theorem pc_of_cpu_reset (hr : i.cpuRst = true) : (s.step i).cpu.pc = cpuResetAddr := by
  have hc : (s.cpuIn i).rst = true := hr
  rw [step_cpu, step_pc, if_pos hc]

/-- The idle state is entered from `updatePc` alone. -/
theorem idle_notMem_successors {m : MainState} (hu : m ≠ .updatePc) (hi : m ≠ .cpuIdle) :
    .cpuIdle ∉ m.successors := by
  revert hu hi
  cases m <;> decide

theorem Wired.balance (w : Wired s i) (hi : i.Steps s) :
    retires s (s.step i) + due (s.step i) = due s + accepts s i := by
  rcases hi.mode with ⟨hr, hs⟩ | ⟨hr, hsingle⟩
  · have hnext := Inputs.Steps.cpu_reset (s := s) hr
    simp [retires, due, accepts, hs, hnext]
  · have hx := w.flow.toCoherent
    have u := w.undisturbed hi.master hi.halt hr
    by_cases hidle : s.cpu.state = .cpuIdle
    · have hnext : (s.step i).cpu.state = if i.extCpuDoStep then .preFetch else .cpuIdle := by
        rw [step_cpu, step_cpuIdle hx u hidle]
        rfl
      cases hd : i.extCpuDoStep <;> simp [retires, due, accepts, hidle, hnext, hd]
    by_cases hup : s.cpu.state = .updatePc
    · cases hb : s.cpu.csr.busy with
      | true =>
          have hnext : (s.step i).cpu.state = .updatePc := by
            rw [step_cpu, step_updatePc_busy hx u hup hb, hup]
          simp [retires, due, accepts, hup, hnext]
      | false =>
          have hone : (s.cpuIn i).externalSinglestep = true := hsingle
          have hnext : (s.step i).cpu.state = .cpuIdle := by
            rw [step_cpu, step_updatePc hx u hup hb, hone]
            rfl
          simp [retires, due, accepts, hup, hnext]
    · have hnext : (s.step i).cpu.state ≠ .cpuIdle := by
        rcases hx.step_state_mem (v := cpuResetAddr) (i := s.cpuIn i) hr with hsame | hmem
        · rw [step_cpu, hsame]
          exact hidle
        · intro h
          exact idle_notMem_successors hup hidle (h ▸ hmem)
      simp [retires, due, accepts, hidle, hup, hnext]

theorem Wired.idle_stays (w : Wired s i) (hi : i.Steps s) (hidle : s.cpu.state = .cpuIdle)
    (hd : i.extCpuDoStep = false) : (s.step i).cpu.state = .cpuIdle := by
  rcases hi.mode with ⟨-, hs⟩ | ⟨hr, -⟩
  · exact absurd (hs.symm.trans hidle) (by decide)
  · have hno : (s.cpuIn i).externalDoStep = false := hd
    rw [step_cpu, step_cpuIdle w.flow.toCoherent (w.undisturbed hi.master hi.halt hr) hidle, hno]
    rfl

/-- A reset of the processor alone, with slaves that have nothing to do. -/
theorem wired_of_cpu_reset {j : Inputs} (h : Startable s.cpu) (hs : s.cpu.state = .reset)
    (hport : PortRests s) (htimer : s.timer.ack = false) (hmux : s.muxAck = false)
    (hc : i.cpuRst = true) (hm : i.busMaster = false)
    (hj : j.busMaster = false) : Wired (s.step i) j := by
  have hst : (s.step i).cpu.state = .reset := step_state_of_rst (i := s.cpuIn i) hc
  have hbus : (s.step i).cpu.bus = s.cpu.bus.wait (s.cpuAck i) (s.masterData i) := by
    have hen : (s.cpu.control (s.cpuIn i)).busEn = false := by simp [Cpu.State.control, hs]
    change s.cpu.bus.step (s.cpu.busIn (s.cpuIn i)) = _
    simp only [Cpu.State.busIn, hen]
    exact CpuBus.State.step_idle _ _ _ _ _ _
  have hheld : s.cpuAck i = false → (s.step i).cpu.bus = s.cpu.bus := fun hack => by
    rw [hbus, hack, CpuBus.State.wait_false]
  have hquiet : WbRam.Serving s.ram (s.ramIn i) :=
    WbRam.serving_of_quiet (by simp [hport.state]) hport.ack hport.ramWe hport.tagWe
  constructor
  case flow => exact h.flow hc (by decide)
  case serving =>
    refine hquiet.step fun _ hreq hack => ?_
    have hb := hheld ((cpuAck_of_ram hm (cyc_of_requests hm hreq).2).trans hack)
    simp [ramIn_eq hm, ramIn_eq hj, WbRam.Inputs.lines, State.cpuMaster, Master.accessRam, hb]
  case timer =>
    intro hack
    have hreq : s.cpu.bus.cyc = true ∧ s.cpuMaster.accessTimer = true := by
      revert hack
      simp only [State.step, WbTimer.State.step, State.timerIn, master_eq hm]
      split_ifs <;> simp +contextual [State.cpuMaster]
    have hb := hheld ((cpuAck_of_timer hm hreq.2).trans htimer)
    simpa [State.cpuMaster, hb] using hreq
  case mux =>
    intro hack ht hram hu
    have hstb : s.cpu.bus.stb = true := by
      revert hack
      simp only [State.step, master_eq hm]
      split_ifs <;> simp +contextual [State.cpuMaster]
    have hadr : (s.step i).cpu.bus.adr = s.cpu.bus.adr := by rw [hbus, CpuBus.State.wait_adr]
    simp only [State.cpuMaster, Master.accessTimer, Master.accessRam, Master.accessUart, hadr]
      at ht hram hu
    have hno : s.cpuAck i = false := by
      simp [State.cpuAck, master_eq hm, State.cpuMaster, Master.accessTimer, Master.accessRam,
        Master.accessUart, ht, hram, hu, hmux]
    rw [hheld hno, h.cyc, ← h.stb]
    exact hstb
  case writing =>
    intro hw
    obtain ⟨-, hreq, hwe⟩ := hquiet.of_step_writeWord hw
    rw [hheld ((cpuAck_of_ram hm (cyc_of_requests hm hreq).2).trans hport.ack)]
    simpa [ramIn_eq hm] using hwe
  case we | stop => simp [hst]
  case mismatch =>
    intro hmis
    rw [hst]
    rfl
  case reset => simp [State.step, Cpu.State.step, State.cpuIn, hc]
  case clear =>
    simp [State.step, Cpu.State.step, State.cpuIn, Csr.State.step, Cpu.State.csrIn, hc]

end clock

end TagSoc.Soc

namespace TagSoc.Fpga
open Soc WbRam Programs

variable {g : ℕ}

/-! ## Clocks of the bridge -/

/-- A control word under which the processor runs in single steps or is in reset. -/
structure Steps (x : BitVec 16) : Prop where
  rst : x.getLsbD controlSocReset = false
  halt : x.getLsbD controlCpuHalt = false
  master : x.getLsbD controlBusMaster = false
  mode : x.getLsbD controlCpuReset = true ∨ x.getLsbD controlCpuSinglestep = true

structure Live (s : State g) : Prop where
  steps : Steps (s.regs regControl)
  held : (s.regs regControl).getLsbD controlCpuReset = true → s.soc.cpu.state = .reset
  wired : Wired s.soc (socInputs s.regs)

/-- Nothing but the control register is written, and only with words that let the
processor run. -/
structure Harmless (p : Pins) : Prop where
  reset : p.reset = true
  write : p.write = false → p.reg = regControl ∧ Steps p.data ∧
    p.data.getLsbD controlCpuReset = false

theorem Live.inputs {s : State g} (h : Live s) : (socInputs s.regs).Steps s.soc where
  rst := h.steps.rst
  halt := h.steps.halt
  master := h.steps.master
  mode := by
    cases hc : (s.regs regControl).getLsbD controlCpuReset with
    | true => exact Or.inl ⟨hc, h.held hc⟩
    | false =>
        refine Or.inr ⟨hc, ?_⟩
        rcases h.steps.mode with h' | h'
        · exact absurd (hc.symm.trans h') Bool.false_ne_true
        · exact h'

/-- The bits that the bridge takes back. -/
def taken : List ℕ := [controlTranStart, controlTranClean, controlCpuDoStep]

theorem takeBack_other {old new : BitVec 16} {j k : ℕ} (hjk : k ≠ j) :
    (takeBack old new j).getLsbD k = new.getLsbD k := by
  rw [getLsbD_takeBack, beq_false_of_ne hjk, Bool.and_false, Bool.not_false, Bool.and_true]

theorem takeBackCommands_other (r new : Regs) {k : ℕ} (hk : k ∉ taken) :
    (takeBackCommands r new regControl).getLsbD k = (new regControl).getLsbD k := by
  simp only [taken, List.mem_cons, List.not_mem_nil, or_false, not_or] at hk
  rw [takeBackCommands, Regs.set_self, takeBack_other hk.2.2, takeBack_other hk.1]

theorem writeReg_other (r : Regs) (x : BitVec 16) {k : ℕ} (hk : k ∉ taken) :
    (writeReg r regControl x regControl).getLsbD k = x.getLsbD k := by
  simp only [taken, List.mem_cons, List.not_mem_nil, or_false, not_or] at hk
  rw [writeReg, Regs.set_self, takeBack_other hk.2.2, takeBack_other hk.1,
    takeBack_other hk.2.1, if_pos (by decide), Regs.set_self]

/-- The control register after a harmless clock. -/
theorem Harmless.control {s : State g} {p : Pins} (hp : Harmless p) :
    (∀ k ∉ taken, ((s.step p).regs regControl).getLsbD k = (s.regs regControl).getLsbD k) ∨
      (Steps p.data ∧ p.data.getLsbD controlCpuReset = false) ∧
        ∀ k ∉ taken, ((s.step p).regs regControl).getLsbD k = p.data.getLsbD k := by
  have hstep : (s.step p).regs = takeBackCommands s.regs
      (if s.ifaceAccessed && !p.write then writeReg s.regs p.reg p.data else s.regs) := by
    simp [State.step, hp.reset]
  rw [hstep]
  split_ifs with hacc
  · simp only [Bool.and_eq_true, Bool.not_eq_true'] at hacc
    obtain ⟨hreg, hdata⟩ := hp.write hacc.2
    refine Or.inr ⟨hdata, fun k hk => ?_⟩
    rw [takeBackCommands_other _ _ hk, hreg, writeReg_other _ _ hk]
  · exact Or.inl fun k hk => takeBackCommands_other _ _ hk

theorem Steps.of_bits {x z : BitVec 16} (hx : Steps x) (h : ∀ k ∉ taken, z.getLsbD k = x.getLsbD k) :
    Steps z where
  rst := (h _ (by decide)).trans hx.rst
  halt := (h _ (by decide)).trans hx.halt
  master := (h _ (by decide)).trans hx.master
  mode := by
    rw [h _ (by decide), h _ (by decide)]
    exact hx.mode

section run
variable {s : State g} {p : Pins} {ps : List Pins}

theorem Live.step (h : Live s) (hp : Harmless p) : Live (s.step p) := by
  have hnext : ∀ hsteps : Steps ((s.step p).regs regControl),
      Wired (s.soc.step (socInputs s.regs)) (socInputs (s.step p).regs) := fun hsteps =>
    h.wired.step h.steps.master hsteps.master h.steps.halt
  rcases hp.control (s := s) with hbits | ⟨⟨hdata, hrun⟩, hbits⟩
  · have hsteps := h.steps.of_bits hbits
    refine ⟨hsteps, fun hc => ?_, hnext hsteps⟩
    rw [hbits _ (by decide)] at hc
    exact Inputs.Steps.cpu_reset (s := s.soc) (i := socInputs s.regs) hc
  · have hsteps := hdata.of_bits hbits
    refine ⟨hsteps, fun hc => ?_, hnext hsteps⟩
    rw [hbits _ (by decide), hrun] at hc
    exact absurd hc Bool.false_ne_true

/-- The instructions and trap entries that are left in a stretch of clocks, and those that
are ordered. -/
def State.retired (s : State g) : List Pins → ℕ
  | [] => 0
  | p :: ps => retires s.soc (s.step p).soc + (s.step p).retired ps

def State.accepted (s : State g) : List Pins → ℕ
  | [] => 0
  | p :: ps => accepts s.soc (socInputs s.regs) + (s.step p).accepted ps

theorem retired_append (s : State g) (ps qs : List Pins) :
    s.retired (ps ++ qs) = s.retired ps + (s.run ps).retired qs := by
  induction ps generalizing s with
  | nil => simp [State.retired, State.run]
  | cons p ps ih =>
      rw [List.cons_append, State.retired, State.retired, ih, Nat.add_assoc]
      rfl

theorem accepted_append (s : State g) (ps qs : List Pins) :
    s.accepted (ps ++ qs) = s.accepted ps + (s.run ps).accepted qs := by
  induction ps generalizing s with
  | nil => simp [State.accepted, State.run]
  | cons p ps ih =>
      rw [List.cons_append, State.accepted, State.accepted, ih, Nat.add_assoc]
      rfl

/-- What was under way and what was ordered is left or under way. -/
theorem Live.run (h : Live s) (hps : ∀ p ∈ ps, Harmless p) :
    Live (s.run ps) ∧ s.retired ps + due (s.run ps).soc = due s.soc + s.accepted ps := by
  induction ps generalizing s with
  | nil => exact ⟨h, by simp [State.retired, State.accepted, State.run]⟩
  | cons p ps ih =>
      obtain ⟨hlive, hcount⟩ := ih (h.step (hps p List.mem_cons_self))
        fun q hq => hps q (List.mem_cons_of_mem p hq)
      have hone : retires s.soc (s.step p).soc + due (s.step p).soc =
          due s.soc + accepts s.soc (socInputs s.regs) := h.wired.balance h.inputs
      refine ⟨hlive, ?_⟩
      rw [State.retired, State.accepted]
      change _ + _ + due ((s.step p).run ps).soc = _
      omega

/-- Nothing is accepted but pulses. -/
theorem accepted_le_ups (s : State g) (ps : List Pins) :
    s.accepted ps ≤ ups controlCpuDoStep (s.trace ps) := by
  induction ps generalizing s with
  | nil => exact Nat.zero_le _
  | cons p ps ih =>
      have hone : accepts s.soc (socInputs s.regs) ≤
          if (s.regs regControl).getLsbD controlCpuDoStep then 1 else 0 := by
        unfold accepts
        split_ifs with h₁ h₂ h₂
        · exact le_rfl
        · exact absurd h₁.2 h₂
        · exact Nat.zero_le _
        · exact le_rfl
      have hrest := ih (s.step p)
      rw [State.accepted, State.trace, ups, List.countP_cons, ← ups]
      omega

/-- An idle processor stays idle where there is no pulse. -/
theorem Live.idle_run (h : Live s) (hps : ∀ p ∈ ps, Harmless p)
    (hups : ups controlCpuDoStep (s.trace ps) = 0) (hidle : s.soc.cpu.state = .cpuIdle) :
    (s.run ps).soc.cpu.state = .cpuIdle := by
  induction ps generalizing s with
  | nil => exact hidle
  | cons p ps ih =>
      rw [State.trace, ups, List.countP_cons, ← ups] at hups
      have hlow : (s.regs regControl).getLsbD controlCpuDoStep = false := by
        cases hb : (s.regs regControl).getLsbD controlCpuDoStep with
        | false => rfl
        | true => simp [hb] at hups
      exact ih (h.step (hps p List.mem_cons_self)) (fun q hq => hps q (List.mem_cons_of_mem p hq))
        (by omega) (h.wired.idle_stays h.inputs hidle hlow)

theorem runs_run (hps : ∀ p ∈ ps, Harmless p)
    (hr : (s.regs regControl).getLsbD controlCpuReset = false) :
    ((s.run ps).regs regControl).getLsbD controlCpuReset = false := by
  induction ps generalizing s with
  | nil => exact hr
  | cons p ps ih =>
      refine ih (fun q hq => hps q (List.mem_cons_of_mem p hq)) ?_
      rcases (hps p List.mem_cons_self).control (s := s) with hbits | ⟨⟨-, hrun⟩, hbits⟩
      · rw [hbits _ (by decide), hr]
      · rw [hbits _ (by decide), hrun]

end run

theorem clocks_harmless {a : Access} (ha : Harmless a.pins) (t : Timing) :
    ∀ p ∈ a.clocks t, Harmless p := by
  intro p hp
  simp only [Access.clocks, List.mem_append, List.mem_replicate] at hp
  rcases hp with ⟨-, rfl⟩ | ⟨-, rfl⟩
  · exact ha
  · exact ⟨rfl, fun h => absurd h (by decide)⟩

theorem read_harmless (addr : BitVec 25) : Harmless (Access.read addr).pins :=
  ⟨rfl, fun h => absurd h (by simp [Access.pins])⟩

/-! ## Accesses in a run -/

section access
variable {s : State g} {a : Access} (h : Ready s)
  (hlow : (s.regs regControl).getLsbD controlCpuDoStep = false)
include h hlow

/-- Nothing is ordered by an access without a pulse. -/
theorem Ready.accepted_none (ha : a.sets controlCpuDoStep = false) (t : Timing) :
    s.accepted (a.clocks t) = 0 := by
  have hle := accepted_le_ups s (a.clocks t)
  rw [h.ups_access (by decide) hlow, ha] at hle
  exact Nat.le_zero.mp hle

/-- The first clocks of an access. -/
theorem Ready.ups_first (n : ℕ) (hn : n ≤ 3) :
    ups controlCpuDoStep (s.trace (List.replicate n a.pins)) = 0 := by
  obtain ⟨-, hcore, -, -⟩ := h.three_low a.pins_reset a.pins_chipSelect
  have h₁ : (s.step a.pins).regs = (tick s.core).1 :=
    congrArg Prod.fst (core_of_quiet a.pins_reset h.quiet).1
  have h₂ : ((s.step a.pins).step a.pins).regs = (tick (tick s.core)).1 := congrArg Prod.fst hcore
  have hdown : ∀ c : Core g, ((tick c).1 regControl).getLsbD controlCpuDoStep = false :=
    tick_command (by decide)
  interval_cases n <;>
    simp [ups, List.replicate, State.trace, hlow, h₁, h₂, hdown]

/-- A pulse for an idle processor is one order. -/
theorem Ready.accepted_one (hlive : Live s) (ha : Harmless a.pins)
    (hset : a.sets controlCpuDoStep = true) (hidle : s.soc.cpu.state = .cpuIdle) (t : Timing) :
    s.accepted (a.clocks t) = 1 := by
  have hle := accepted_le_ups s (a.clocks t)
  rw [h.ups_access (by decide) hlow, hset, if_pos rfl] at hle
  have hat : ((s.hold a.pins 3).regs regControl).getLsbD controlCpuDoStep = true :=
    (h.command_at (by decide) a).trans hset
  have hstill : (s.hold a.pins 3).soc.cpu.state = .cpuIdle := by
    rw [← run_replicate]
    refine hlive.idle_run (fun p hp => ?_) (h.ups_first hlow 3 le_rfl) hidle
    rw [List.mem_replicate] at hp
    rw [hp.2]
    exact ha
  have hone : accepts (s.hold a.pins 3).soc (socInputs (s.hold a.pins 3).regs) = 1 := by
    rw [accepts, if_pos ⟨hstill, hat⟩]
  rw [clocks_split, accepted_append, run_replicate, State.accepted, hone] at hle ⊢
  omega

/-- What a read finds in an idle processor is still there at its end. -/
theorem Ready.idle_read (hlive : Live s) (ha : Harmless a.pins)
    (hset : a.sets controlCpuDoStep = false) (t : Timing)
    (hidle : (s.hold a.pins 2).soc.cpu.state = .cpuIdle) :
    (s.run (a.clocks t)).soc.cpu.state = .cpuIdle := by
  have htwo : ∀ p ∈ List.replicate 2 a.pins, Harmless p := fun p hp => by
    rw [List.mem_replicate] at hp
    rw [hp.2]
    exact ha
  have hsplit : a.clocks t = List.replicate 2 a.pins ++
      (List.replicate (2 + t.hold) a.pins ++ List.replicate (1 + t.gap) idle) := by
    rw [Access.clocks, show 4 + t.hold = 2 + (2 + t.hold) by omega, List.replicate_add,
      List.append_assoc]
  have hall := clocks_harmless ha t
  have hups := h.ups_access (by decide) hlow a t
  rw [hset, hsplit, trace_append, run_replicate, ups, List.countP_append, ← ups, ← ups] at hups
  rw [hsplit] at hall ⊢
  rw [State.run, List.foldl_append, ← State.run, ← State.run, run_replicate]
  have hlive₂ := (hlive.run htwo).1
  rw [run_replicate] at hlive₂
  exact hlive₂.idle_run (fun p hp => hall p (List.mem_append_right _ hp)) (by simp at hups; omega) hidle

end access

/-! ## The host -/

/-- `n` instructions or trap entries were ordered since the state `s₀`, which `past` has led
to. -/
structure Walk (s₀ : State g) (past : List Pins) (n : ℕ) (h : Host g) : Prop where
  ready : Ready h.fpga
  live : Live h.fpga
  runs : (h.fpga.regs regControl).getLsbD controlCpuReset = false
  low : (h.fpga.regs regControl).getLsbD controlCpuDoStep = false
  path : ∃ qs, h.history = past ++ qs ∧ h.fpga = s₀.run qs ∧
    s₀.retired qs + due h.fpga.soc = due s₀.soc + n

section walk
variable {s₀ : State g} {past : List Pins} {n : ℕ} {h : Host g}

theorem Walk.drive (w : Walk s₀ past n h) {ps : List Pins} (hps : ∀ p ∈ ps, Harmless p)
    (hready : Ready (h.fpga.run ps))
    (hlow : ((h.fpga.run ps).regs regControl).getLsbD controlCpuDoStep = false) :
    Walk s₀ past (n + h.fpga.accepted ps) (h.drive ps) := by
  obtain ⟨hlive, hcount⟩ := w.live.run hps
  obtain ⟨qs, hq, hrun, hpath⟩ := w.path
  refine ⟨hready, hlive, runs_run hps w.runs, hlow, qs ++ ps, ?_, ?_, ?_⟩
  · change h.history ++ ps = _
    rw [hq, List.append_assoc]
  · change h.fpga.run ps = _
    rw [hrun, State.run, State.run, State.run, List.foldl_append]
  · change _ + due (h.fpga.run ps).soc = _
    rw [retired_append, ← hrun]
    omega

theorem Walk.copy (w : Walk s₀ past n h) (y : BitVec 16) :
    Walk s₀ past n { h with controlReg := y } where
  ready := w.ready
  live := w.live
  runs := w.runs
  low := w.low
  path := w.path

theorem Walk.transfer (w : Walk s₀ past n h) {a : Access} (ha : Harmless a.pins) :
    Walk s₀ past (n + h.fpga.accepted (a.clocks (h.times 0))) (h.drive (a.clocks (h.times 0))) := by
  obtain ⟨hready, hlow⟩ := w.ready.access_clear (k := controlCpuDoStep) (by decide) a (h.times 0)
  rw [← run_clocks] at hready hlow
  exact w.drive (clocks_harmless ha _) hready hlow

/-- A read orders nothing, and shows the registers and the system of one of its clocks. -/
theorem Walk.readShort (w : Walk s₀ past n h) {addr : BitVec 25} {k : BitVec 4}
    (hk : addr.extractLsb' 1 4 = k) :
    Ensures (readShort addr) h fun v h' => Walk s₀ past n h' ∧ h'.controlReg = h.controlReg ∧
      (h.fpga.soc.cpu.state = .cpuIdle → h'.fpga.soc.cpu.state = .cpuIdle) ∧
      ∃ s : State g, Live s ∧ (s.regs regControl).getLsbD controlCpuReset = false ∧
        v = toCpu s.regs s.soc k ∧
        (s.soc.cpu.state = .cpuIdle → h'.fpga.soc.cpu.state = .cpuIdle) := by
  subst hk
  have hsets : (Access.read addr).sets controlCpuDoStep = false := rfl
  have htwo : ∀ p ∈ List.replicate 2 (Access.read addr).pins, Harmless p := fun p hp => by
    rw [List.mem_replicate] at hp
    rw [hp.2]
    exact read_harmless addr
  obtain ⟨hv, -, -⟩ := w.ready.read addr (h.times 0)
  obtain ⟨-, hcore, -, -⟩ := w.ready.three_low (Access.pins_reset (.read addr))
    (Access.pins_chipSelect (.read addr))
  refine (Returns.of_eq (p := Fpga.readShort addr) rfl ⟨?_, rfl, fun hidle => ?_,
    h.fpga.hold (Access.read addr).pins 2, ?_, ?_, ?_, fun hidle => ?_⟩).ensures
  · have hwalk := w.transfer (read_harmless addr)
    rwa [w.ready.accepted_none w.low hsets, Nat.add_zero] at hwalk
  · refine w.live.idle_run (clocks_harmless (read_harmless addr) _) ?_ hidle
    rw [w.ready.ups_access (by decide) w.low, hsets]
    rfl
  · rw [← run_replicate]
    exact (w.live.run htwo).1
  · rw [← run_replicate]
    exact runs_run htwo w.runs
  · refine hv.trans ?_
    rw [← hcore]
    rfl
  · exact w.ready.idle_read w.low w.live (read_harmless addr) hsets _ hidle

theorem Walk.sleep (w : Walk s₀ past n h) : Ensures sleep h fun _ h' => Walk s₀ past n h' := by
  have hps : ∀ p ∈ List.replicate (h.times 0).gap idle, Harmless p := fun p hp => by
    rw [List.mem_replicate] at hp
    rw [hp.2]
    exact ⟨rfl, fun h => absurd h (by decide)⟩
  have hups := w.ready.ups_high (k := controlCpuDoStep) (by decide) w.low (p := idle) rfl rfl
    (h.times 0).gap
  obtain ⟨hready, hcore, -⟩ := w.ready.hold_high (p := idle) rfl rfl (h.times 0).gap
  have hnone : h.fpga.accepted (List.replicate (h.times 0).gap idle) = 0 := by
    have hle := accepted_le_ups h.fpga (List.replicate (h.times 0).gap idle)
    rw [hups] at hle
    exact Nat.le_zero.mp hle
  have hwalk := w.drive hps (by rwa [run_replicate]) ?_
  · rw [hnone, Nat.add_zero] at hwalk
    exact (Returns.of_eq (p := Fpga.sleep) rfl hwalk).ensures
  · have hregs := congrArg Prod.fst hcore
    rw [run_replicate]
    change ((h.fpga.hold idle _).core.1 regControl).getLsbD controlCpuDoStep = false
    rw [hregs]
    cases (h.times 0).gap with
    | zero => exact w.low
    | succ k =>
        rw [← tick_ticks]
        exact tick_command (by decide) _

/-- The copy of the control register lets the processor run. -/
structure Drives (y : BitVec 16) : Prop extends Steps y where
  runs : y.getLsbD controlCpuReset = false

theorem Drives.controlValue {x : BitVec 16} (hx : Drives x) (f : Bool) : Drives (controlValue x f) := by
  have hbit : ∀ k, k ≠ controlTranReady → (Fpga.controlValue x f).getLsbD k = x.getLsbD k :=
    fun k hk => by rw [getLsbD_controlValue, if_neg hk]
  refine ⟨⟨(hbit _ (by decide)).trans hx.rst, (hbit _ (by decide)).trans hx.halt,
    (hbit _ (by decide)).trans hx.master, ?_⟩, (hbit _ (by decide)).trans hx.runs⟩
  rw [hbit _ (by decide), hbit _ (by decide)]
  exact hx.mode

theorem Drives.setStep {x : BitVec 16} (hx : Drives x) : Drives (setBit x controlCpuDoStep) := by
  have hbit : ∀ k, k ≠ controlCpuDoStep → (setBit x controlCpuDoStep).getLsbD k = x.getLsbD k :=
    fun k hk => by rw [getLsbD_setBit x (by decide), beq_false_of_ne hk, Bool.or_false]
  refine ⟨⟨(hbit _ (by decide)).trans hx.rst, (hbit _ (by decide)).trans hx.halt,
    (hbit _ (by decide)).trans hx.master, ?_⟩, (hbit _ (by decide)).trans hx.runs⟩
  rw [hbit _ (by decide), hbit _ (by decide)]
  exact hx.mode

theorem Walk.checkControlBit (w : Walk s₀ past n h) (k : ℕ) :
    Ensures (checkControlBit k) h fun _ h' => Walk s₀ past n h' ∧ Drives h'.controlReg := by
  refine (w.readShort (k := regControl) (by decide)).bind ?_
  rintro v h₁ ⟨w₁, -, -, s, hlive, hruns, rfl, -⟩
  have hy : Drives (toCpu s.regs s.soc regControl) := by
    rw [toCpu_control]
    exact Drives.controlValue ⟨hlive.steps, hruns⟩ _
  generalize toCpu s.regs s.soc regControl = v at hy
  refine (Returns.modify (Q := fun _ h' => Walk s₀ past n h' ∧ Drives h'.controlReg)
    ⟨w₁.copy v, hy⟩).ensures.bind
    fun _ h₂ hw => Ensures.pure hw

theorem ensures_assert (b : Bool) : Ensures (assert b) h fun _ h' => h' = h ∧ b = true := by
  unfold Fpga.assert
  split_ifs with hb
  · exact Ensures.pure ⟨rfl, hb⟩
  · exact Ensures.throw

/-- Reads of anything keep the walk, the copy and an idle processor. -/
theorem Walk.readPair (w : Walk s₀ past n h) (low high : BitVec 25) :
    Ensures (readPair low high) h fun _ h' => Walk s₀ past n h' ∧ h'.controlReg = h.controlReg ∧
      (h.fpga.soc.cpu.state = .cpuIdle → h'.fpga.soc.cpu.state = .cpuIdle) := by
  refine (w.readShort rfl).bind ?_
  rintro l h₁ ⟨w₁, hc₁, hi₁, -⟩
  refine (w₁.readShort rfl).bind ?_
  rintro u h₂ ⟨w₂, hc₂, hi₂, -⟩
  exact Ensures.pure ⟨w₂, hc₂.trans hc₁, fun h => hi₂ (hi₁ h)⟩

/-- The number of the idle state. -/
theorem idle_of_code (m : Cpu.MainState) (tags timer : Bool) :
    (0#8 ++ BitVec.ofBool tags ++ BitVec.ofBool timer ++ 0#1 ++ stateCode m : BitVec 16) &&&
      stateCpuMask = stateCpuIdle → m = .cpuIdle := by
  revert tags timer
  cases m <;> decide

theorem Walk.cpuIsIdle (w : Walk s₀ past n h) :
    Ensures cpuIsIdle h fun b h' => Walk s₀ past n h' ∧ h'.controlReg = h.controlReg ∧
      (b = true → h'.fpga.soc.cpu.state = .cpuIdle) := by
  have hstatus : Ensures (getCpuStatus false) h fun st h' => Walk s₀ past n h' ∧
      h'.controlReg = h.controlReg ∧
      (st.state = stateCpuIdle → h'.fpga.soc.cpu.state = .cpuIdle) := by
    simp only [getCpuStatus, getCpuState, Bool.false_eq_true, if_false, bind_assoc, pure_bind]
    refine (w.readShort (k := regCpuState) (by decide)).bind ?_
    rintro v h₁ ⟨w₁, hc₁, -, s, -, -, rfl, hi₁⟩
    refine (w₁.readPair _ _).bind ?_
    rintro pc h₂ ⟨w₂, hc₂, hi₂⟩
    refine (w₂.readPair _ _).bind ?_
    rintro prev h₃ ⟨w₃, hc₃, hi₃⟩
    refine Ensures.pure ⟨w₃, hc₃.trans (hc₂.trans hc₁), fun hst => hi₃ (hi₂ (hi₁ ?_))⟩
    exact idle_of_code _ _ _ hst
  refine hstatus.bind ?_
  rintro st h₁ ⟨w₁, hc₁, hi₁⟩
  exact Ensures.pure ⟨w₁, hc₁, fun hb => hi₁ (by simpa using hb)⟩

theorem Walk.awaitIdle (w : Walk s₀ past n h) (k : ℕ) :
    Ensures (awaitIdle k) h fun b h' => Walk s₀ past n h' ∧ h'.controlReg = h.controlReg ∧
      (b = true → h'.fpga.soc.cpu.state = .cpuIdle) := by
  induction k generalizing h with
  | zero => exact Ensures.pure ⟨w, rfl, fun hb => absurd hb Bool.false_ne_true⟩
  | succ k ih =>
      refine w.cpuIsIdle.bind ?_
      rintro b h₁ ⟨w₁, hc₁, hi₁⟩
      cases b with
      | true => exact Ensures.pure ⟨w₁, hc₁, hi₁⟩
      | false =>
          have hsleep : Ensures Fpga.sleep h₁ fun _ h' => Walk s₀ past n h' ∧
              h'.controlReg = h₁.controlReg := by
            intro a h' hrun
            refine ⟨w₁.sleep a h' hrun, ?_⟩
            cases hrun
            rfl
          refine hsleep.bind ?_
          rintro - h₂ ⟨w₂, hc₂⟩
          refine (ih w₂).mono ?_
          rintro b h₃ ⟨w₃, hc₃, hi₃⟩
          exact ⟨w₃, hc₃.trans (hc₂.trans hc₁), hi₃⟩

/-- A call that returns has ordered one instruction or trap entry. -/
theorem Walk.doStep (w : Walk s₀ past n h) :
    Ensures doStep h fun _ h' => Walk s₀ past (n + 1) h' := by
  refine (w.checkControlBit controlCpuSinglestep).bind ?_
  rintro b h₁ ⟨w₁, hy⟩
  refine (ensures_assert b).bind ?_
  rintro - h₂ ⟨rfl, -⟩
  refine (w₁.awaitIdle 10).bind ?_
  rintro b h₃ ⟨w₃, hc₃, hi₃⟩
  refine (ensures_assert b).bind ?_
  rintro - h₄ ⟨rfl, hb⟩
  have hidle := hi₃ hb
  rw [← hc₃] at hy
  have hreg : (Access.write registerControl (setBit h₄.controlReg controlCpuDoStep)).pins.reg =
      regControl := (show registerControl.extractLsb' 1 4 = regControl by decide)
  have hdata : Harmless (Access.write registerControl (setBit h₄.controlReg controlCpuDoStep)).pins :=
    ⟨rfl, fun _ => ⟨hreg, hy.setStep.toSteps, hy.setStep.runs⟩⟩
  have hset : (Access.write registerControl (setBit h₄.controlReg controlCpuDoStep)).sets
      controlCpuDoStep = true := by
    rw [Access.sets, hreg, beq_self_eq_true, getLsbD_setBit _ (by decide), beq_self_eq_true,
      Bool.or_true, Bool.and_true]
  have hwalk := w₃.transfer hdata
  rw [w₃.ready.accepted_one w₃.low w₃.live hdata hset hidle] at hwalk
  exact (Returns.of_eq (p := (do setControlBit controlCpuDoStep; updateControlRegister : H g Unit)) rfl
    (hwalk.copy (setBit h₄.controlReg controlCpuDoStep))).ensures

end walk

/-! ## Programs of the host move the board and nothing else -/

def Moves (h h' : Host g) : Prop := ∃ ps, h'.history = h.history ++ ps ∧ h'.fpga = h.fpga.run ps

theorem Moves.refl (h : Host g) : Moves h h := ⟨[], by simp, rfl⟩

theorem Moves.trans {h₁ h₂ h₃ : Host g} (h : Moves h₁ h₂) (h' : Moves h₂ h₃) : Moves h₁ h₃ := by
  obtain ⟨ps, hp, hr⟩ := h
  obtain ⟨qs, hq, hr'⟩ := h'
  refine ⟨ps ++ qs, by rw [hq, hp, List.append_assoc], ?_⟩
  rw [hr', hr, State.run, State.run, State.run, List.foldl_append]

def OnlyMoves {α : Type} (p : H g α) : Prop := ∀ h, Ensures p h fun _ h' => Moves h h'

section moves
variable {α β : Type}

theorem OnlyMoves.bind {p : H g α} {f : α → H g β} (hp : OnlyMoves p) (hf : ∀ a, OnlyMoves (f a)) :
    OnlyMoves (p >>= f) := fun h =>
  (hp h).bind fun a h₁ h₁' => (hf a h₁).mono fun _ _ h₂' => h₁'.trans h₂'

theorem OnlyMoves.pure (a : α) : OnlyMoves (Pure.pure a : H g α) := fun h => Ensures.pure (.refl h)

theorem OnlyMoves.transfer (a : Access) : OnlyMoves (transfer (g := g) a) := fun _ =>
  (Returns.of_eq (p := Fpga.transfer a) rfl ⟨_, rfl, rfl⟩).ensures

theorem OnlyMoves.setReset (level : Bool) : OnlyMoves (setReset (g := g) level) := fun _ =>
  (Returns.of_eq (p := Fpga.setReset level) rfl ⟨_, rfl, rfl⟩).ensures

theorem OnlyMoves.copy (f : Host g → BitVec 16) :
    OnlyMoves (modify fun h => { h with controlReg := f h }) := fun _ =>
  (Returns.modify ⟨[], (List.append_nil _).symm, rfl⟩).ensures

theorem OnlyMoves.assert (b : Bool) : OnlyMoves (assert (g := g) b) := fun h =>
  (ensures_assert b).mono fun _ _ h' => h'.1 ▸ .refl h

theorem OnlyMoves.readShort (addr : BitVec 25) : OnlyMoves (readShort (g := g) addr) := .transfer _

theorem OnlyMoves.writeShort (addr : BitVec 25) (x : BitVec 16) :
    OnlyMoves (writeShort (g := g) addr x) := (OnlyMoves.transfer _).bind fun _ => .pure _

theorem OnlyMoves.updateControlRegister : OnlyMoves (updateControlRegister (g := g)) := fun h =>
  Ensures.bind (Returns.get (Q := fun _ b => b = h) rfl).ensures fun _ _ hb =>
    hb ▸ OnlyMoves.writeShort _ _ _

theorem OnlyMoves.readPair (low high : BitVec 25) : OnlyMoves (readPair (g := g) low high) :=
  (OnlyMoves.readShort low).bind fun _ => (OnlyMoves.readShort high).bind fun _ => .pure _

theorem OnlyMoves.writePair (low high : BitVec 25) (x : BitVec 32) :
    OnlyMoves (writePair (g := g) low high x) :=
  (OnlyMoves.writeShort _ _).bind fun _ => (OnlyMoves.writeShort _ _).bind fun _ =>
    (OnlyMoves.readPair _ _).bind fun _ => .assert _

theorem OnlyMoves.startTransaction : OnlyMoves (startTransaction (g := g)) :=
  (OnlyMoves.copy _).bind fun _ => .updateControlRegister

theorem OnlyMoves.finished (n : ℕ) : OnlyMoves (finished (g := g) n) := by
  induction n with
  | zero => exact .pure _
  | succ n ih =>
      refine OnlyMoves.bind ((OnlyMoves.readShort _).bind fun _ => (OnlyMoves.copy _).bind
        fun _ => .pure _) fun b => ?_
      cases b with
      | true => exact .pure _
      | false => exact ih

theorem OnlyMoves.clearTransactionFinished : OnlyMoves (clearTransactionFinished (g := g)) :=
  (OnlyMoves.copy _).bind fun _ => (OnlyMoves.copy _).bind fun _ =>
    OnlyMoves.updateControlRegister.bind fun _ => (OnlyMoves.copy _).bind fun _ =>
      .updateControlRegister

theorem OnlyMoves.readWordRam (a : BitVec 32) : OnlyMoves (readWordRam (g := g) a) := by
  refine (OnlyMoves.writePair _ _ _).bind fun _ => OnlyMoves.startTransaction.bind fun _ =>
    (OnlyMoves.finished 10).bind fun b => ?_
  cases b with
  | true => exact OnlyMoves.clearTransactionFinished.bind fun _ => .readPair _ _
  | false => exact .pure _

theorem OnlyMoves.writeWordRam (a x : BitVec 32) : OnlyMoves (writeWordRam (g := g) a x) := by
  refine (OnlyMoves.writePair _ _ _).bind fun _ => (OnlyMoves.writePair _ _ _).bind fun _ =>
    (OnlyMoves.copy _).bind fun _ => OnlyMoves.startTransaction.bind fun _ =>
      (OnlyMoves.finished 10).bind fun b => ?_
  cases b with
  | true => exact OnlyMoves.clearTransactionFinished.bind fun _ => .pure _
  | false => exact .pure _

theorem OnlyMoves.opening : OnlyMoves (opening (g := g)) := by
  refine ((OnlyMoves.setReset _).bind fun _ => .setReset _).bind fun _ => ?_
  refine ((OnlyMoves.readShort _).bind fun _ => (OnlyMoves.assert _).bind fun _ => .pure _).bind
    fun _ => ?_
  exact (OnlyMoves.copy _).bind fun _ => (OnlyMoves.copy _).bind fun _ => (OnlyMoves.copy _).bind
    fun _ => (OnlyMoves.copy _).bind fun _ => (OnlyMoves.copy _).bind fun _ => .updateControlRegister

theorem OnlyMoves.operations (ops : List Op) : OnlyMoves (ops.mapM (Op.run (g := g))) := fun h => by
  refine Ensures.mapM Moves.refl (fun _ _ _ => Moves.trans) fun o _ => ?_
  cases o with
  | read a => exact (OnlyMoves.readWordRam a).bind fun _ => .pure _
  | write a x => exact (OnlyMoves.writeWordRam a x).bind fun _ => .pure _

end moves

theorem startable_run {s : State g} (h : Cpu.Startable s.soc.cpu) (ps : List Pins) :
    Cpu.Startable (s.run ps).soc.cpu := by
  induction ps generalizing s with
  | nil => exact h
  | cons p ps ih => exact ih (s := s.step p) h.step

/-! ## `run_soc` -/

/-- The two control words of `run_soc`. -/
def holdWord (y : BitVec 16) : BitVec 16 :=
  clearBit (setBit (clearBit y controlCpuHalt) controlCpuReset) controlBusMaster

def runWord (y : BitVec 16) : BitVec 16 :=
  setBit (clearBit (clearBit (holdWord y) controlCpuReset) controlSocReset) controlCpuSinglestep

theorem getLsbD_holdWord (y : BitVec 16) (k : ℕ) : (holdWord y).getLsbD k =
    ((y.getLsbD k && k != controlCpuHalt || k == controlCpuReset) && k != controlBusMaster) := by
  rw [holdWord, getLsbD_clearBit, getLsbD_setBit _ (by decide), getLsbD_clearBit]

theorem getLsbD_runWord (y : BitVec 16) (k : ℕ) : (runWord y).getLsbD k =
    ((holdWord y).getLsbD k && k != controlCpuReset && k != controlSocReset ||
      k == controlCpuSinglestep) := by
  rw [runWord, getLsbD_setBit _ (by decide), getLsbD_clearBit, getLsbD_clearBit]

section runSoc
variable {r : Regs} {m : Contents g} {d : BitVec 32} {y : BitVec 16}

theorem Plain.holdWord (hy : Plain y) : Steps (holdWord y) where
  rst := by rw [getLsbD_holdWord, hy.rst]; rfl
  halt := by rw [getLsbD_holdWord, hy.halt]; rfl
  master := by rw [getLsbD_holdWord, hy.master]; rfl
  mode := Or.inl (by rw [getLsbD_holdWord, beq_self_eq_true, Bool.or_true]; rfl)

theorem Plain.runWord (hy : Plain y) : Drives (runWord y) where
  rst := by rw [getLsbD_runWord, hy.holdWord.rst]; rfl
  halt := by rw [getLsbD_runWord, hy.holdWord.halt]; rfl
  master := by rw [getLsbD_runWord, hy.holdWord.master]; rfl
  mode := Or.inr (by rw [getLsbD_runWord, beq_self_eq_true, Bool.or_true])
  runs := by rw [getLsbD_runWord, bne_self_eq_false, Bool.and_false]; rfl

/-- The slaves have no answer left from the port. -/
structure Settled (r : Regs) (m : Contents g) (d : BitVec 32) (c : Core g) : Prop
    extends Rest r m d false c where
  timer : c.2.timer.ack = false
  mux : c.2.muxAck = false
  startable : Cpu.Startable c.2.cpu

theorem Rest.settled (hr : Plain (r regControl)) {c : Core g} (h : Rest r m d false c)
    (hs : Cpu.Startable c.2.cpu) : Settled r m d (Fpga.tick c) := by
  refine ⟨Rest.steady_plain hr c h, ?_, ?_, hs.step⟩
  · obtain ⟨rfl, hport, -⟩ := h
    have hrst : (socInputs c.1).rst = false := hr.rst
    simp [Fpga.tick, Soc.State.step, WbTimer.State.step, Soc.State.timerIn, hrst,
      master_external (external_of_calm hr.toCalm), Soc.State.extMaster, hport.started]
  · obtain ⟨rfl, hport, -⟩ := h
    simp [Fpga.tick, Soc.State.step, master_external (external_of_calm hr.toCalm),
      Soc.State.extMaster, hport.started]

/-- The processor is held in reset and has the bus. -/
structure Held (x : BitVec 16) (c : Core g) : Prop where
  control : c.1 regControl = x
  wired : Wired c.2 (socInputs c.1)
  state : c.2.cpu.state = .reset
  pc : c.2.cpu.pc = cpuResetAddr

theorem Held.steady {x : BitVec 16} (hx : Steps x) (hrst : x.getLsbD controlCpuReset = true)
    (hs : x.getLsbD controlTranStart = false) (hd : x.getLsbD controlCpuDoStep = false) :
    Steady (Held (g := g) x) := by
  rintro c ⟨rfl, hw, -, -⟩
  have hregs : (tick c).1 = c.1 := takeBackCommands_calm hs hd
  refine ⟨by rw [hregs], ?_, Inputs.Steps.cpu_reset (i := socInputs c.1) hrst,
    pc_of_cpu_reset (i := socInputs c.1) hrst⟩
  rw [hregs]
  exact hw.step hx.master hx.master hx.halt

/-- The first word takes effect. -/
theorem Settled.held (hr : Plain (r regControl)) (hy : Plain y) {c : Core g} (h : Settled r m d c) :
    Held (holdWord y) (tick (tickWrite c regControl (holdWord y))) := by
  have hx := hy.holdWord
  have hrst : (holdWord y).getLsbD controlCpuReset = true := by
    rw [getLsbD_holdWord, beq_self_eq_true, Bool.or_true]
    rfl
  have hstart : (holdWord y).getLsbD controlTranStart = false := by
    rw [getLsbD_holdWord, hy.start]
    rfl
  have hstep : (holdWord y).getLsbD controlCpuDoStep = false := by
    rw [getLsbD_holdWord, hy.step]
    rfl
  have hregs : (tickWrite c regControl (holdWord y)).1 = Regs.set r regControl (holdWord y) := by
    refine (h.toRest.write hr.toCalm (by decide) fun hc => ?_).regs
    exact absurd (hr.clean.symm.trans hc) Bool.false_ne_true
  have hctl : (tickWrite c regControl (holdWord y)).1 regControl = holdWord y := by
    rw [hregs, Regs.set_self]
  -- the slaves in the clock of the write, which the port still sees as its own
  have hset := h.toRest.settled hr h.startable
  have hsoc : (tickWrite c regControl (holdWord y)).2 = (tick c).2 := rfl
  have hnext : (tick (tickWrite c regControl (holdWord y))).1 =
      (tickWrite c regControl (holdWord y)).1 :=
    takeBackCommands_calm (by rw [hctl]; exact hstart) (by rw [hctl]; exact hstep)
  have hin : (socInputs (tickWrite c regControl (holdWord y)).1).cpuRst = true := by
    simp only [socInputs, hctl]
    exact hrst
  have hbus : (socInputs (tickWrite c regControl (holdWord y)).1).busMaster = false := by
    simp only [socInputs, hctl]
    exact hx.master
  refine ⟨by rw [hnext, hctl], ?_, Inputs.Steps.cpu_reset hin, pc_of_cpu_reset hin⟩
  rw [hnext]
  exact wired_of_cpu_reset hset.startable hset.parked hset.port hset.timer hset.mux hin hbus hbus

/-- A bit that the bridge does not take back is as it was written. -/
theorem Ready.control_written {s : State g} (h : Ready s) (x : BitVec 16) (t : Timing) {k : ℕ}
    (hk : k ∉ taken) :
    ((s.run ((Access.write registerControl x).clocks t)).regs regControl).getLsbD k =
      x.getLsbD k := by
  have hticks : ∀ (n : ℕ) (c : Core g),
      ((tick^[n] c).1 regControl).getLsbD k = (c.1 regControl).getLsbD k := by
    intro n c
    induction n with
    | zero => rfl
    | succ n ih => rw [← tick_ticks, tick, takeBackCommands_other _ _ hk, ih]
  have hcore := congrArg Prod.fst (h.write registerControl x t).2
  rw [show (Access.write registerControl x).pins.reg = regControl from
    (show registerControl.extractLsb' 1 4 = regControl by decide)] at hcore
  rw [run_clocks]
  change ((s.access (.write registerControl x) t).2.core.1 regControl).getLsbD k = _
  rw [hcore, hticks, tickWrite, takeBackCommands_other _ _ hk, writeReg_other _ _ hk]

/-- The second word: the processor is let go. -/
theorem Held.walk {s : State g} {x : BitVec 16} (h : Held x s.core) (hready : Ready s) (hx : Steps x)
    (hlow : x.getLsbD controlCpuDoStep = false) {z : BitVec 16} (hz : Drives z)
    (hno : z.getLsbD controlCpuDoStep = false) {host : Host g} (hf : host.fpga = s) :
    Walk s host.history 0 (host.drive ((Access.write registerControl z).clocks (host.times 0))) := by
  subst hf
  have hreg : (Access.write registerControl z).pins.reg = regControl :=
    (show registerControl.extractLsb' 1 4 = regControl by decide)
  have hctl : host.fpga.regs regControl = x := h.control
  have hlive : Live host.fpga := ⟨by rw [hctl]; exact hx, fun _ => h.state, h.wired⟩
  have hbit : (host.fpga.regs regControl).getLsbD controlCpuDoStep = false := by rw [hctl]; exact hlow
  have hdata : Harmless (Access.write registerControl z).pins :=
    ⟨rfl, fun _ => ⟨hreg, hz.toSteps, hz.runs⟩⟩
  have hsets : (Access.write registerControl z).sets controlCpuDoStep = false := by
    rw [Access.sets, hno, Bool.and_false]
  obtain ⟨hrun, hcount⟩ := hlive.run (clocks_harmless hdata (host.times 0))
  obtain ⟨hready', hdown⟩ := hready.access_clear (k := controlCpuDoStep) (by decide)
    (.write registerControl z) (host.times 0)
  rw [← run_clocks] at hready' hdown
  rw [hready.accepted_none hbit hsets] at hcount
  exact ⟨hready', hrun, (hready.control_written z _ (by decide)).trans hz.runs, hdown, _, rfl, rfl,
    hcount⟩

/-- The clocks up to the end of the first write, and a walk from there. -/
theorem Serves.runSoc {h : Host g} (hs : Serves m d h) (hcpu : Cpu.Startable h.fpga.soc.cpu) :
    Returns (runSoc true) h fun _ h' => ∃ ps, Held (holdWord h.controlReg) (h.fpga.run ps).core ∧
      Walk (h.fpga.run ps) (h.history ++ ps) 0 h' := by
  obtain ⟨hy, -, r, hr, hp⟩ := hs
  have hrst : (holdWord h.controlReg).getLsbD controlCpuReset = true := by
    rw [getLsbD_holdWord, beq_self_eq_true, Bool.or_true]
    rfl
  have hstart : (holdWord h.controlReg).getLsbD controlTranStart = false := by
    rw [getLsbD_holdWord, hy.start]
    rfl
  have hstep : (holdWord h.controlReg).getLsbD controlCpuDoStep = false := by
    rw [getLsbD_holdWord, hy.step]
    rfl
  have hsteady : Steady (Held (g := g) (holdWord h.controlReg)) :=
    Held.steady hy.holdWord hrst hstart hstep
  have hp₀ : At (fun c => Rest r m d false c ∧ Cpu.Startable c.2.cpu) h.controlReg h :=
    ⟨hp.ready, ⟨hp.core, hcpu⟩, rfl⟩
  refine ((hp₀.clearControlBit controlCpuHalt).and_ensures (OnlyMoves.copy _ h)).bind ?_
  rintro - h₁ ⟨hp₁, hm₁⟩
  refine ((hp₁.setControlBit controlCpuReset).and_ensures (OnlyMoves.copy _ h₁)).bind ?_
  rintro - h₂ ⟨hp₂, hm₂⟩
  refine ((hp₂.clearControlBit controlBusMaster).and_ensures (OnlyMoves.copy _ h₂)).bind ?_
  rintro - h₃ ⟨hp₃, hm₃⟩
  refine ((hp₃.updateControlRegister (R := Settled r m d) (fun c hc => hc.1.settled hr hc.2)
    (fun c hc => hc.toRest.settled hr hc.startable) hsteady
    fun c hc => hsteady _ (hc.held hr hy)).and_ensures (OnlyMoves.updateControlRegister h₃)).bind ?_
  rintro - h₄ ⟨hp₄, hm₄⟩
  obtain ⟨ps, hhist, hfpga⟩ := hm₁.trans (hm₂.trans (hm₃.trans hm₄))
  -- from here on only the copy of the control register changes before the next write
  have hheld := hp₄.core
  have hready := hp₄.ready
  rw [hfpga] at hheld hready
  have hno : (runWord h.controlReg).getLsbD controlCpuDoStep = false := by
    rw [getLsbD_runWord, hstep]
    rfl
  have hwalk := hheld.walk hready hy.holdWord hstep hy.runWord hno hfpga
  rw [hhist] at hwalk
  have hcopy : h₄.controlReg = holdWord h.controlReg := hp₄.copy
  have hword : setBit (clearBit (clearBit h₄.controlReg controlCpuReset) controlSocReset)
      controlCpuSinglestep = runWord h.controlReg := by rw [hcopy, runWord]
  have hdone : Walk ((h.fpga.run ps)) (h.history ++ ps) 0 { h₄.drive ((Access.write registerControl
      (runWord h.controlReg)).clocks (h₄.times 0)) with controlReg := runWord h.controlReg } :=
    hwalk.copy _
  rw [← hword] at hdone
  exact Returns.of_eq rfl ⟨ps, hheld, hdone⟩

end runSoc

/-! ## The result -/

def doSteps : ℕ → H g Unit
  | 0 => pure ()
  | n + 1 => do
      doStep
      doSteps n

theorem Walk.doSteps {s₀ : State g} {past : List Pins} {n : ℕ} {h : Host g}
    (w : Walk s₀ past n h) (k : ℕ) :
    Ensures (doSteps k) h fun _ h' => Walk s₀ past (n + k) h' := by
  induction k generalizing n h with
  | zero => exact Ensures.pure w
  | succ k ih =>
      refine w.doStep.bind fun _ h₁ w₁ => (ih w₁).mono fun _ h₂ w₂ => ?_
      rwa [Nat.add_assoc, Nat.add_comm 1] at w₂

/-- A session that fills the memory, starts the processor and steps it `n` times. If it
returns, there was a clock in which the processor was in reset with the reset address as
its `pc`, and since that clock the instructions and trap entries that were left and the one
under way are `n + 1`. -/
theorem host_steps (g : ℕ) (s : State g) (hcpu : Cpu.Startable s.soc.cpu) (times : ℕ → Timing)
    (ops : List Op) (hops : ∀ o ∈ ops, periphSelect o.addr = wbAccessRam) (n : ℕ) (h' : Host g)
    (hrun : (do
      opening
      let _ ← ops.mapM Op.run
      runSoc true
      doSteps n : H g Unit) ⟨s, 0#16, times, []⟩ = .ok ((), h')) :
    ∃ ps qs, h'.history = ps ++ qs ∧ h'.fpga = (s.run ps).run qs ∧
      (s.run ps).soc.cpu.state = .reset ∧ (s.run ps).soc.cpu.pc = cpuResetAddr ∧
      (s.run ps).retired qs + due h'.fpga.soc = n + 1 := by
  have hall : Ensures (do
      opening
      let _ ← ops.mapM Op.run
      runSoc true
      doSteps n : H g Unit) ⟨s, 0#16, times, []⟩ fun _ h' =>
      ∃ ps, (s.run ps).soc.cpu.state = .reset ∧ (s.run ps).soc.cpu.pc = cpuResetAddr ∧
        Walk (s.run ps) ps n h' := by
    refine ((opening_spec s times []).and_ensures (OnlyMoves.opening _)).ensures.bind ?_
    rintro - h₁ ⟨hs₁, hm₁⟩
    refine ((hs₁.operations hops).and_ensures (OnlyMoves.operations ops h₁)).ensures.bind ?_
    rintro - h₂ ⟨⟨-, hs₂⟩, hm₂⟩
    obtain ⟨ps, hhist, hfpga⟩ := hm₁.trans hm₂
    have hst := startable_run hcpu ps
    rw [← show h₂.fpga = s.run ps from hfpga] at hst
    refine (hs₂.runSoc hst).ensures.bind ?_
    rintro - h₃ ⟨ps', hheld, w⟩
    refine (w.doSteps n).mono fun _ h₄ w₄ => ⟨ps ++ ps', ?_⟩
    have hsplit : s.run (ps ++ ps') = h₂.fpga.run ps' := by
      rw [hfpga, State.run, State.run, State.run, List.foldl_append]
    rw [hsplit]
    rw [hhist, List.nil_append, Nat.zero_add] at w₄
    exact ⟨hheld.state, hheld.pc, w₄⟩
  obtain ⟨ps, hst, hpc, w⟩ := hall () h' hrun
  obtain ⟨qs, hhist, hfpga, hcount⟩ := w.path
  refine ⟨ps, qs, hhist, hfpga, hst, hpc, ?_⟩
  rw [hcount, due, if_neg (by rw [hst]; decide), Nat.add_comm]

/-- A word is written, and two steps are made, with the fastest accesses there are. -/
theorem host_steps_two : ∃ h' : Host 1, (do
      opening
      let _ ← [Op.write 0#32 0x00000013#32].mapM Op.run
      runSoc true
      doSteps 2 : H 1 Unit) ⟨started, 0#16, fun _ => ⟨0, 0⟩, []⟩ = .ok ((), h') ∧
    ∃ ps qs, h'.history = ps ++ qs ∧ h'.fpga = (started.run ps).run qs ∧
      (started.run ps).soc.cpu.state = .reset ∧ (started.run ps).soc.cpu.pc = cpuResetAddr ∧
      (started.run ps).retired qs + due h'.fpga.soc = 2 + 1 := by
  have hok : ((do
      opening
      let _ ← [Op.write 0#32 0x00000013#32].mapM Op.run
      runSoc true
      doSteps 2 : H 1 Unit) ⟨started, 0#16, fun _ => ⟨0, 0⟩, []⟩).toBool = true := by
    decide +kernel
  obtain ⟨⟨⟨⟩, h'⟩, hrun⟩ := ok_of_toBool hok
  exact ⟨h', hrun, host_steps 1 started ⟨rfl, rfl, rfl, by decide⟩ _ _ (by decide) 2 h' hrun⟩

end TagSoc.Fpga
