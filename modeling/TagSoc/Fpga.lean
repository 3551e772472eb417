import TagSoc.ExtPort
import TagSoc.SocRun
import Mathlib.Logic.Function.Iterate

/-!
# The bridge to the host

`fpga.v`: the system behind sixteen registers of sixteen bits, which a host reads and
writes over an asynchronous bus. The chip select passes through three flip-flops; an
access is made in the clock in which the last two show its falling edge. Every clock
the bridge takes the start and the step bit of its control register back.

`Ready.read` and `Ready.write`: whatever the host's timing, an access touches the
registers in exactly one clock. `commands_once`: no command is lost or given twice.
-/
namespace TagSoc.Fpga
open Soc

/-! ## Registers -/

def regSanity : BitVec 4 := 0#4
def regLowAddr : BitVec 4 := 1#4
def regHighAddr : BitVec 4 := 2#4
def regLowDataIn : BitVec 4 := 3#4
def regHighDataIn : BitVec 4 := 4#4
def regControl : BitVec 4 := 5#4
def regLowDataOut : BitVec 4 := 6#4
def regHighDataOut : BitVec 4 := 7#4
def regLowCpuPc : BitVec 4 := 8#4
def regHighCpuPc : BitVec 4 := 9#4
def regCpuState : BitVec 4 := 10#4
def regLowSocMemSize : BitVec 4 := 11#4
def regHighSocMemSize : BitVec 4 := 12#4
def regLowInsnBytes : BitVec 4 := 13#4
def regHighInsnBytes : BitVec 4 := 14#4

/-! The bits of the control register. -/

def controlCpuReset : ℕ := 0
def controlSocReset : ℕ := 1
def controlBusMaster : ℕ := 2
def controlTranStart : ℕ := 3
def controlTranWe : ℕ := 4
def controlTranClean : ℕ := 5
def controlTranReady : ℕ := 6
def controlTranSizeLow : ℕ := 7
def controlTranSizeHigh : ℕ := 8
def controlCpuHalt : ℕ := 9
def controlCpuSinglestep : ℕ := 10
def controlCpuDoStep : ℕ := 11

/-- The registers that exist as storage are the first nine. -/
structure Regs where
  get : BitVec 4 → BitVec 16

instance : CoeFun Regs fun _ => BitVec 4 → BitVec 16 := ⟨Regs.get⟩

namespace Regs

def set (r : Regs) (k : BitVec 4) (x : BitVec 16) : Regs := ⟨Function.update r.get k x⟩

variable {r : Regs} {j k : BitVec 4} {x y : BitVec 16}

@[simp] theorem set_self : r.set k x k = x := by
  simp only [set, Function.update_self]

theorem set_of_ne (h : j ≠ k) : r.set k x j = r j := by
  simp only [set, Function.update_of_ne h]

theorem set_set : (r.set k x).set k y = r.set k y := by
  simp only [set, Function.update_idem]

theorem set_get : r.set k (r k) = r := by
  simp only [set, Function.update_eq_self]

end Regs

def clearBit (x : BitVec 16) (k : ℕ) : BitVec 16 := x &&& ~~~(1#16 <<< k)

theorem getLsbD_clearBit (x : BitVec 16) (k j : ℕ) :
    (clearBit x k).getLsbD j = (x.getLsbD j && j != k) := by
  by_cases hj : j < 16
  · rcases Nat.lt_trichotomy j k with h | h | h
    · simp [clearBit, hj, h, h.ne]
    · subst h
      simp [clearBit, hj]
    · have hne : j - k ≠ 0 := by omega
      simp [clearBit, hj, Nat.not_lt.mpr h.le, h.ne', hne]
  · simp [clearBit, BitVec.getLsbD_of_ge x j (by omega), hj]

theorem clearBit_of_not {x : BitVec 16} {k : ℕ} (h : x.getLsbD k = false) : clearBit x k = x := by
  apply BitVec.eq_of_getLsbD_eq
  intro j hj
  rw [getLsbD_clearBit]
  by_cases hk : j = k
  · subst hk
    simp [h]
  · simp [hk]

/-! ## The module -/

structure State (g : ℕ) where
  stage1 : Bool
  stage2 : Bool
  stage3 : Bool
  dataToCpu : BitVec 16
  regs : Regs
  soc : Soc.State g

/-- What the host drives; the strobes, the selects and the reset are active low. -/
structure Pins where
  data : BitVec 16
  addr : BitVec 25
  read : Bool
  write : Bool
  cs : BitVec 2
  reset : Bool
deriving Repr, DecidableEq

variable {g : ℕ}

/-- The number of a state of the processor. -/
def stateCode : Cpu.MainState → BitVec 5
  | .reset => 0#5
  | .fetch => 1#5
  | .decode => 2#5
  | .exec => 3#5
  | .store2 => 5#5
  | .load2 => 6#5
  | .branch2 => 7#5
  | .trap => 8#5
  | .system => 9#5
  | .updatePc => 10#5
  | .csr1 => 11#5
  | .dead => 12#5
  | .preFetch => 13#5
  | .store1 => 14#5
  | .load1 => 15#5
  | .mretUpdateMstatus => 16#5
  | .mretReadEpc => 17#5
  | .postExec => 18#5
  | .misalignedAddr => 19#5
  | .csr2 => 20#5
  | .mret => 21#5
  | .fetchMore => 22#5
  | .prepairUnalignedFetch => 23#5
  | .cpuIdle => 24#5

/-- The pins of the system. -/
def socInputs (regs : Regs) : Soc.Inputs where
  cpuRst := (regs regControl).getLsbD controlCpuReset
  rst := (regs regControl).getLsbD controlSocReset
  busMaster := (regs regControl).getLsbD controlBusMaster
  extTranAddr := regs regHighAddr ++ regs regLowAddr
  extTranData := regs regHighDataIn ++ regs regLowDataIn
  extTranSize := BitVec.ofBool ((regs regControl).getLsbD controlTranSizeHigh) ++
    BitVec.ofBool ((regs regControl).getLsbD controlTranSizeLow)
  extTranStart := (regs regControl).getLsbD controlTranStart
  extTranWrite := (regs regControl).getLsbD controlTranWe
  extTranClear := (regs regControl).getLsbD controlTranClean
  extCpuHalt := (regs regControl).getLsbD controlCpuHalt
  extCpuSinglestep := (regs regControl).getLsbD controlCpuSinglestep
  extCpuDoStep := (regs regControl).getLsbD controlCpuDoStep

/-- `to_cpu`. -/
def toCpu (regs : Regs) (soc : Soc.State g) (addr : BitVec 4) : BitVec 16 :=
  if addr = regLowDataOut then soc.ext.data.extractLsb' 0 16
  else if addr = regHighDataOut then soc.ext.data.extractLsb' 16 16
  else if addr = regControl then
    (regs addr).extractLsb' 7 9 ++ BitVec.ofBool soc.ext.tranFinished ++ (regs addr).extractLsb' 0 6
  else if addr = regLowInsnBytes then soc.cpu.parcels.extractLsb' 0 16
  else if addr = regHighInsnBytes then soc.cpu.parcels.extractLsb' 16 16
  else if addr = regLowCpuPc then soc.cpu.pc.extractLsb' 0 16
  else if addr = regHighCpuPc then soc.cpu.pc.extractLsb' 16 16
  else if addr = regCpuState then
    0#8 ++ BitVec.ofBool soc.ram.irq ++ BitVec.ofBool soc.timer.irq ++ 0#1 ++
      stateCode soc.cpu.state
  else if addr = regLowSocMemSize then (BitVec.ofNat 32 (2 ^ (g + 4))).extractLsb' 0 16
  else if addr = regHighSocMemSize then (BitVec.ofNat 32 (2 ^ (g + 4))).extractLsb' 16 16
  else regs addr

namespace State

/-- `iface_accessed`: the select went from high to low. -/
def ifaceAccessed (s : State g) : Bool := !s.stage2 && s.stage3

end State

def Pins.chipSelect (p : Pins) : Bool := p.cs.getLsbD 0 && p.cs.getLsbD 1

/-- The index of the register that is accessed. -/
def Pins.reg (p : Pins) : BitVec 4 := p.addr.extractLsb' 1 4

/-- The values that a reset gives; the ninth register has none. -/
def resetRegs (regs : Regs) : Regs where
  get k :=
    if k = regSanity then 0x50FE#16
    else if k = regControl then 0x0203#16
    else if k.toNat < 8 then 0#16
    else regs k

/-- A bit of the control register that was set is taken back. -/
def takeBack (old new : BitVec 16) (k : ℕ) : BitVec 16 :=
  if old.getLsbD k then clearBit new k else new

theorem getLsbD_takeBack (old new : BitVec 16) (j k : ℕ) :
    (takeBack old new j).getLsbD k = (new.getLsbD k && !(old.getLsbD j && k == j)) := by
  rw [takeBack]
  split_ifs with h
  · rw [getLsbD_clearBit, h, Bool.true_and]
    rfl
  · rw [Bool.eq_false_iff.mpr h, Bool.false_and, Bool.not_false, Bool.and_true]

/-- The write of a register. It also takes back the three command bits. -/
def writeReg (regs : Regs) (k : BitVec 4) (x : BitVec 16) : Regs :=
  let written := if k.toNat < 9 then Regs.set regs k x else regs
  let old := regs regControl
  Regs.set written regControl (takeBack old (takeBack old (takeBack old (written regControl)
    controlTranClean) controlTranStart) controlCpuDoStep)

/-- What the bridge does in every clock, `regs` being the registers before it. -/
def takeBackCommands (regs new : Regs) : Regs :=
  let old := regs regControl
  Regs.set new regControl (takeBack old (takeBack old (new regControl) controlTranStart)
    controlCpuDoStep)

namespace State

def step (s : State g) (p : Pins) : State g where
  stage1 := if !p.reset then false else p.chipSelect
  stage2 := if !p.reset then false else s.stage1
  stage3 := if !p.reset then false else s.stage2
  dataToCpu :=
    if !p.reset then 0#16
    else if s.ifaceAccessed && !p.read then toCpu s.regs s.soc p.reg
    else s.dataToCpu
  regs :=
    if !p.reset then resetRegs s.regs
    else takeBackCommands s.regs
      (if s.ifaceAccessed && !p.write then writeReg s.regs p.reg p.data else s.regs)
  soc := s.soc.step (socInputs s.regs)

/-- Any number of clocks with the same pins. -/
def hold (s : State g) (p : Pins) (n : ℕ) : State g := (fun s => s.step p)^[n] s

end State

/-! ## Clocks without an access -/

/-- The registers and the system behind them. -/
abbrev Core (g : ℕ) := Regs × Soc.State g

def State.core (s : State g) : Core g := (s.regs, s.soc)

def tick (c : Core g) : Core g :=
  (takeBackCommands c.1 c.1, c.2.step (socInputs c.1))

/-- The clock in which the host writes a register. -/
def tickWrite (c : Core g) (k : BitVec 4) (x : BitVec 16) : Core g :=
  (takeBackCommands c.1 (writeReg c.1 k x), c.2.step (socInputs c.1))

section clock
variable {s : State g} {p : Pins} (hp : p.reset = true)
include hp

theorem core_of_quiet (h : s.ifaceAccessed = false) :
    (s.step p).core = tick s.core ∧ (s.step p).dataToCpu = s.dataToCpu := by
  simp [State.step, State.core, tick, hp, h]

theorem core_of_read (hr : p.read = false) (hw : p.write = true) (h : s.ifaceAccessed = true) :
    (s.step p).core = tick s.core ∧ (s.step p).dataToCpu = toCpu s.regs s.soc p.reg := by
  simp [State.step, State.core, tick, hp, h, hr, hw]

theorem core_of_write (hw : p.write = false) (h : s.ifaceAccessed = true) :
    (s.step p).core = tickWrite s.core p.reg p.data := by
  simp [State.step, State.core, tickWrite, hp, h, hw]

theorem stages_step : (s.step p).stage1 = p.chipSelect ∧ (s.step p).stage2 = s.stage1 ∧
    (s.step p).stage3 = s.stage2 := by
  simp [State.step, hp]

end clock

/-! ## One access -/

/-- The select has been high, and no access is under way. -/
structure Ready (s : State g) : Prop where
  high : s.stage1 = true
  settled : s.stage2 = false → s.stage3 = false

/-- The select has been low, and its access has been made. -/
structure Spent (s : State g) : Prop where
  low : s.stage1 = false
  made : s.stage3 = false

section access
variable {s : State g} {p q : Pins}

theorem Ready.quiet (h : Ready s) : s.ifaceAccessed = false := by
  cases h2 : s.stage2 with
  | true => simp [State.ifaceAccessed, h2]
  | false => simp [State.ifaceAccessed, h2, h.settled h2]

theorem Spent.quiet (h : Spent s) : s.ifaceAccessed = false := by
  simp [State.ifaceAccessed, h.made]

/-- With the select high nothing is accessed, and the bridge is ready again. -/
theorem Ready.step_high (h : Ready s) (hp : p.reset = true) (hcs : p.chipSelect = true) :
    Ready (s.step p) := by
  obtain ⟨h₁, h₂, h₃⟩ := stages_step (s := s) hp
  exact ⟨h₁.trans hcs, fun h' => absurd (h₂.symm.trans h') (by simp [h.high])⟩

theorem hold_succ (s : State g) (p : Pins) (n : ℕ) : s.hold p (n + 1) = (s.step p).hold p n :=
  Function.iterate_succ_apply _ _ _

theorem Ready.hold_high (h : Ready s) (hp : p.reset = true) (hcs : p.chipSelect = true) (n : ℕ) :
    Ready (s.hold p n) ∧ (s.hold p n).core = tick^[n] s.core ∧
      (s.hold p n).dataToCpu = s.dataToCpu := by
  induction n generalizing s with
  | zero => exact ⟨h, rfl, rfl⟩
  | succ n ih =>
      obtain ⟨hcore, hdata⟩ := core_of_quiet hp h.quiet
      obtain ⟨h₁, h₂, h₃⟩ := ih (h.step_high hp hcs)
      rw [hold_succ]
      exact ⟨h₁, by rw [h₂, hcore]; rfl, h₃.trans hdata⟩

theorem Spent.hold_low (h : Spent s) (hs : s.stage2 = false) (hp : p.reset = true)
    (hcs : p.chipSelect = false) (n : ℕ) :
    Spent (s.hold p n) ∧ (s.hold p n).stage2 = false ∧ (s.hold p n).core = tick^[n] s.core ∧
      (s.hold p n).dataToCpu = s.dataToCpu := by
  induction n generalizing s with
  | zero => exact ⟨h, hs, rfl, rfl⟩
  | succ n ih =>
      obtain ⟨hcore, hdata⟩ := core_of_quiet hp h.quiet
      obtain ⟨g₁, g₂, g₃⟩ := stages_step (s := s) hp
      obtain ⟨h₁, h₂, h₃, h₄⟩ := ih ⟨g₁.trans hcs, g₃.trans hs⟩ (g₂.trans h.low)
      rw [hold_succ]
      exact ⟨h₁, h₂, by rw [h₃, hcore]; rfl, h₄.trans hdata⟩

/-- The select goes high again. -/
theorem Spent.step_high (h : Spent s) (hs : s.stage2 = false) (hp : p.reset = true)
    (hcs : p.chipSelect = true) : Ready (s.step p) ∧ (s.step p).core = tick s.core := by
  obtain ⟨g₁, g₂, g₃⟩ := stages_step (s := s) hp
  exact ⟨⟨g₁.trans hcs, fun _ => g₃.trans hs⟩, (core_of_quiet hp h.quiet).1⟩

/-- The first three clocks of an access: the third one is the one that counts. -/
theorem Ready.three_low (h : Ready s) (hp : p.reset = true) (hcs : p.chipSelect = false) :
    (s.hold p 2).ifaceAccessed = true ∧ (s.hold p 2).core = tick^[2] s.core ∧
      Spent (s.hold p 3) ∧ (s.hold p 3).stage2 = false := by
  obtain ⟨a₁, a₂, a₃⟩ := stages_step (s := s) hp
  obtain ⟨b₁, b₂, b₃⟩ := stages_step (s := s.step p) hp
  obtain ⟨c₁, c₂, c₃⟩ := stages_step (s := (s.step p).step p) hp
  have hone : (s.step p).ifaceAccessed = false := by
    simp [State.ifaceAccessed, a₂, h.high]
  refine ⟨?_, ?_, ⟨c₁.trans hcs, c₃.trans (b₂.trans (a₁.trans hcs))⟩, c₂.trans (b₁.trans hcs)⟩
  · change ((s.step p).step p).ifaceAccessed = true
    simp [State.ifaceAccessed, b₂, a₁, b₃, a₂, hcs, h.high]
  · change ((s.step p).step p).core = tick (tick s.core)
    rw [(core_of_quiet hp hone).1, (core_of_quiet hp h.quiet).1]

end access

/-! ## Accesses of the host -/

/-- How much longer than they need the access and the pause behind it last. -/
structure Timing where
  hold : ℕ
  gap : ℕ
deriving Repr, DecidableEq

/-- The addresses are those of bytes, two for each register. -/
inductive Access where
  | read (addr : BitVec 25)
  | write (addr : BitVec 25) (x : BitVec 16)
deriving Repr, DecidableEq

def Access.pins : Access → Pins
  | .read addr => ⟨0#16, addr, false, true, 0b10#2, true⟩
  | .write addr x => ⟨x, addr, true, false, 0b10#2, true⟩

def idle : Pins := ⟨0#16, 0#25, true, true, 0b11#2, true⟩

@[simp] theorem Access.pins_reset (a : Access) : a.pins.reset = true := by cases a <;> rfl

@[simp] theorem Access.pins_chipSelect (a : Access) : a.pins.chipSelect = false := by
  cases a <;> simp [Access.pins, Pins.chipSelect]

/-- The lines are held for four clocks or more and released for one or more. The host
takes the data in the last clock before it releases them. -/
def State.access (s : State g) (a : Access) (t : Timing) : BitVec 16 × State g :=
  let s₁ := s.hold a.pins (3 + t.hold)
  (s₁.dataToCpu, (s₁.step a.pins).hold idle (1 + t.gap))

theorem hold_add (s : State g) (p : Pins) (m n : ℕ) : s.hold p (m + n) = (s.hold p m).hold p n := by
  rw [State.hold, Nat.add_comm, Function.iterate_add_apply]
  rfl

theorem tick_ticks (c : Core g) (n : ℕ) : tick (tick^[n] c) = tick^[n + 1] c :=
  (Function.iterate_succ_apply' tick n c).symm

/-- What follows the clock that counts. -/
theorem Spent.release {s : State g} (h : Spent s) (hs : s.stage2 = false) (a : Access) (t : Timing) :
    (s.hold a.pins t.hold).dataToCpu = s.dataToCpu ∧
      Ready (((s.hold a.pins t.hold).step a.pins).hold idle (1 + t.gap)) ∧
      (((s.hold a.pins t.hold).step a.pins).hold idle (1 + t.gap)).core =
        tick^[2 + t.hold + t.gap] s.core := by
  obtain ⟨-, -, -, hdata⟩ := h.hold_low hs a.pins_reset a.pins_chipSelect t.hold
  obtain ⟨hsp, hst, hcore, -⟩ := h.hold_low hs a.pins_reset a.pins_chipSelect (t.hold + 1)
  have hlast : (s.hold a.pins t.hold).step a.pins = s.hold a.pins (t.hold + 1) :=
    (Function.iterate_succ_apply' (fun s => s.step a.pins) t.hold s).symm
  obtain ⟨hready, htick⟩ := hsp.step_high hst (p := idle) rfl rfl
  obtain ⟨hready', hticks, -⟩ := hready.hold_high (p := idle) rfl rfl t.gap
  rw [hlast, Nat.add_comm 1, hold_succ]
  refine ⟨hdata, hready', ?_⟩
  rw [hticks, htick, hcore, tick_ticks, ← Function.iterate_add_apply]
  congr 1
  omega

theorem Ready.read {s : State g} (h : Ready s) (addr : BitVec 25) (t : Timing) :
    (s.access (.read addr) t).1 =
        toCpu (tick^[2] s.core).1 (tick^[2] s.core).2 (Access.read addr).pins.reg ∧
      Ready (s.access (.read addr) t).2 ∧
      (s.access (.read addr) t).2.core = tick^[5 + t.hold + t.gap] s.core := by
  obtain ⟨hacc, hcore, hspent, hst⟩ :=
    h.three_low (p := (Access.read addr).pins) (Access.pins_reset _) (Access.pins_chipSelect _)
  obtain ⟨hread, hdata⟩ := core_of_read (Access.pins_reset (.read addr)) rfl rfl hacc
  have hthird : (s.hold (Access.read addr).pins 2).step (Access.read addr).pins =
      s.hold (Access.read addr).pins 3 := rfl
  obtain ⟨h₁, h₂, h₃⟩ := hspent.release hst (.read addr) t
  rw [hthird, hcore, tick_ticks] at hread
  rw [State.access, hold_add]
  refine ⟨?_, h₂, ?_⟩
  · refine h₁.trans (hdata.trans ?_)
    rw [← hcore]
    rfl
  · rw [h₃, hread, ← Function.iterate_add_apply]
    congr 1
    omega

theorem Ready.write {s : State g} (h : Ready s) (addr : BitVec 25) (x : BitVec 16) (t : Timing) :
    Ready (s.access (.write addr x) t).2 ∧
      (s.access (.write addr x) t).2.core =
        tick^[2 + t.hold + t.gap] (tickWrite (tick^[2] s.core) (Access.write addr x).pins.reg x) := by
  obtain ⟨hacc, hcore, hspent, hst⟩ :=
    h.three_low (p := (Access.write addr x).pins) (Access.pins_reset _) (Access.pins_chipSelect _)
  have hwrite := core_of_write (Access.pins_reset (.write addr x)) rfl hacc
  have hthird : (s.hold (Access.write addr x).pins 2).step (Access.write addr x).pins =
      s.hold (Access.write addr x).pins 3 := rfl
  obtain ⟨-, h₂, h₃⟩ := hspent.release hst (.write addr x) t
  rw [hthird, hcore] at hwrite
  rw [State.access, hold_add]
  exact ⟨h₂, by rw [h₃, hwrite]; rfl⟩

/-! ## Commands

The start and the step bit are one clock long, once for every write that sets them. -/

/-- The registers of every clock. -/
def State.trace (s : State g) : List Pins → List Regs
  | [] => []
  | p :: ps => s.regs :: (s.step p).trace ps

def State.run (s : State g) (ps : List Pins) : State g := ps.foldl State.step s

theorem trace_append (s : State g) (ps qs : List Pins) :
    s.trace (ps ++ qs) = s.trace ps ++ (s.run ps).trace qs := by
  induction ps generalizing s with
  | nil => rfl
  | cons p ps ih => simp [State.trace, State.run, ih]

theorem run_replicate (s : State g) (p : Pins) (n : ℕ) :
    s.run (List.replicate n p) = s.hold p n := by
  induction n generalizing s with
  | zero => rfl
  | succ n ih =>
      rw [List.replicate_succ, State.run, List.foldl_cons, hold_succ]
      exact ih (s.step p)

/-- The pins of an access, clock by clock. -/
def Access.clocks (a : Access) (t : Timing) : List Pins :=
  List.replicate (4 + t.hold) a.pins ++ List.replicate (1 + t.gap) idle

theorem run_clocks (s : State g) (a : Access) (t : Timing) :
    s.run (a.clocks t) = (s.access a t).2 := by
  rw [Access.clocks, State.run, List.foldl_append, ← State.run, ← State.run, run_replicate,
    run_replicate, State.access]
  congr 1
  rw [show 4 + t.hold = 3 + t.hold + 1 by omega]
  exact Function.iterate_succ_apply' (fun s => s.step a.pins) (3 + t.hold) s

/-- Three clocks, the one of the command, and what follows it. -/
theorem clocks_split (a : Access) (t : Timing) : a.clocks t = List.replicate 3 a.pins ++
    a.pins :: (List.replicate t.hold a.pins ++ List.replicate (1 + t.gap) idle) := by
  rw [Access.clocks, show 4 + t.hold = 3 + (1 + t.hold) by omega, List.replicate_add,
    List.replicate_add 1, List.append_assoc, List.append_assoc]
  rfl

def commands : List ℕ := [controlTranStart, controlCpuDoStep]

/-- A write of the control register with the bit `k` set. -/
def Access.sets (a : Access) (k : ℕ) : Bool :=
  match a with
  | .read _ => false
  | .write _ x => a.pins.reg == regControl && x.getLsbD k

section commands
variable {s : State g} {k : ℕ} (hk : k ∈ commands)
include hk

theorem takeBackCommands_bit (regs new : Regs) :
    (takeBackCommands regs new regControl).getLsbD k =
      ((new regControl).getLsbD k && !(regs regControl).getLsbD k) := by
  have h₁ : (controlTranStart == controlCpuDoStep) = false := rfl
  have h₂ : (controlCpuDoStep == controlTranStart) = false := rfl
  simp only [commands, List.mem_cons, List.not_mem_nil, or_false] at hk
  simp only [takeBackCommands, Regs.set_self, getLsbD_takeBack]
  rcases hk with rfl | rfl
  · rw [beq_self_eq_true, h₁, Bool.and_true, Bool.and_false, Bool.not_false, Bool.and_true]
  · rw [beq_self_eq_true, h₂, Bool.and_true, Bool.and_false, Bool.not_false, Bool.and_true]

theorem tick_command (c : Core g) : ((tick c).1 regControl).getLsbD k = false := by
  rw [tick, takeBackCommands_bit hk]
  simp

theorem tickWrite_command (c : Core g) (r : BitVec 4) (x : BitVec 16)
    (h : (c.1 regControl).getLsbD k = false) :
    ((tickWrite c r x).1 regControl).getLsbD k = (r == regControl && x.getLsbD k) := by
  have hback : ∀ j, (j = k → (c.1 regControl).getLsbD j = false) ∧
      ((c.1 regControl).getLsbD j && k == j) = false := by
    intro j
    by_cases hj : j = k
    · subst hj
      exact ⟨fun _ => h, by rw [h, Bool.false_and]⟩
    · exact ⟨fun hj' => absurd hj' hj, by rw [beq_false_of_ne (Ne.symm hj), Bool.and_false]⟩
  rw [tickWrite, takeBackCommands_bit hk, h]
  simp only [writeReg, Regs.set_self, getLsbD_takeBack, (hback _).2, Bool.not_false,
    Bool.and_true]
  by_cases hr : r = regControl
  · subst hr
    simp [regControl]
  · rw [beq_false_of_ne hr, Bool.false_and]
    split_ifs
    · rw [Regs.set_of_ne (Ne.symm hr), h]
    · exact h

end commands

/-- The clocks of a stretch in which the bit `k` is up. -/
def ups (k : ℕ) (regs : List Regs) : ℕ := regs.countP fun r => (r regControl).getLsbD k

section count
variable {s : State g} {k : ℕ} (hk : k ∈ commands) (h0 : (s.regs regControl).getLsbD k = false)
include hk h0

theorem Ready.ups_high (h : Ready s) {p : Pins} (hp : p.reset = true) (hcs : p.chipSelect = true)
    (n : ℕ) : ups k (s.trace (List.replicate n p)) = 0 := by
  induction n generalizing s with
  | zero => rfl
  | succ n ih =>
      have hnext : (s.step p).regs = (tick s.core).1 :=
        congrArg Prod.fst (core_of_quiet hp h.quiet).1
      rw [List.replicate_succ, State.trace, ups, List.countP_cons_of_neg (by simp [h0])]
      exact ih (by rw [hnext]; exact tick_command hk _) (h.step_high hp hcs)

theorem Spent.ups_low (h : Spent s) (hs : s.stage2 = false) {p : Pins} (hp : p.reset = true)
    (hcs : p.chipSelect = false) (n : ℕ) : ups k (s.trace (List.replicate n p)) = 0 := by
  induction n generalizing s with
  | zero => rfl
  | succ n ih =>
      have hnext : (s.step p).regs = (tick s.core).1 :=
        congrArg Prod.fst (core_of_quiet hp h.quiet).1
      obtain ⟨g₁, g₂, g₃⟩ := stages_step (s := s) hp
      rw [List.replicate_succ, State.trace, ups, List.countP_cons_of_neg (by simp [h0])]
      exact ih (by rw [hnext]; exact tick_command hk _) ⟨g₁.trans hcs, g₃.trans hs⟩
        (g₂.trans h.low)

/-- From the clock that counts on. -/
theorem Spent.ups_release (h : Spent s) (hs : s.stage2 = false) (a : Access) (t : Timing) :
    ups k (s.trace (List.replicate t.hold a.pins ++ List.replicate (1 + t.gap) idle)) = 0 := by
  obtain ⟨hsp, hst, hcore, -⟩ := h.hold_low hs a.pins_reset a.pins_chipSelect t.hold
  obtain ⟨hready, htick⟩ := hsp.step_high hst (p := idle) rfl rfl
  have hlow : ((s.hold a.pins t.hold).regs regControl).getLsbD k = false := by
    cases ht : t.hold with
    | zero => exact h0
    | succ n =>
        have hregs := congrArg Prod.fst hcore
        rw [ht, ← tick_ticks] at hregs
        rw [show (s.hold a.pins (n + 1)).regs = _ from hregs]
        exact tick_command hk _
  have hnext : (((s.hold a.pins t.hold).step idle).regs regControl).getLsbD k = false := by
    rw [show ((s.hold a.pins t.hold).step idle).regs = _ from congrArg Prod.fst htick]
    exact tick_command hk _
  rw [trace_append, run_replicate, ups, List.countP_append, ← ups,
    h.ups_low hk h0 hs a.pins_reset a.pins_chipSelect, Nat.zero_add, Nat.add_comm 1,
    List.replicate_succ, State.trace, List.countP_cons_of_neg (by simp [hlow])]
  exact hready.ups_high hk hnext rfl rfl t.gap

omit h0 in
/-- The clock in which the command of an access is up. -/
theorem Ready.command_at (h : Ready s) (a : Access) :
    ((s.hold a.pins 3).regs regControl).getLsbD k = a.sets k := by
  obtain ⟨hacc, hcore, -, -⟩ := h.three_low a.pins_reset a.pins_chipSelect
  cases a with
  | read addr =>
      have hread := congrArg Prod.fst (core_of_read (Access.pins_reset (.read addr)) rfl rfl hacc).1
      exact (congrArg (fun r : Regs => (r regControl).getLsbD k) hread).trans (tick_command hk _)
  | write addr x =>
      have hwrite := congrArg Prod.fst (core_of_write (Access.pins_reset (.write addr x)) rfl hacc)
      refine (congrArg (fun r : Regs => (r regControl).getLsbD k) hwrite).trans
        (tickWrite_command hk _ _ _ ?_)
      rw [hcore]
      exact tick_command hk _

theorem Ready.ups_access (h : Ready s) (a : Access) (t : Timing) :
    ups k (s.trace (a.clocks t)) = if a.sets k then 1 else 0 := by
  obtain ⟨hacc, hcore, hspent, hst⟩ := h.three_low a.pins_reset a.pins_chipSelect
  have hthree : ups k (s.trace (List.replicate 3 a.pins)) = 0 := by
    have h₁ : (s.step a.pins).regs = (tick s.core).1 :=
      congrArg Prod.fst (core_of_quiet a.pins_reset h.quiet).1
    have h₂ : ((s.step a.pins).step a.pins).regs = (tick (tick s.core)).1 :=
      congrArg Prod.fst hcore
    simp only [ups, List.replicate, State.trace, h₁, h₂, List.countP_cons, List.countP_nil, h0,
      tick_command hk]
    rfl
  obtain ⟨hsp, hst', hcore', -⟩ := hspent.hold_low hst a.pins_reset a.pins_chipSelect 1
  have hnext : (((s.hold a.pins 3).step a.pins).regs regControl).getLsbD k = false := by
    rw [show ((s.hold a.pins 3).step a.pins).regs = _ from congrArg Prod.fst hcore']
    exact tick_command hk _
  have hrest := hsp.ups_release hk hnext hst' a t
  rw [clocks_split, trace_append, run_replicate, ups, List.countP_append, ← ups, hthree, Nat.zero_add,
    State.trace, List.countP_cons, h.command_at hk a]
  exact (congrArg (· + _) hrest).trans (Nat.zero_add _)

omit h0 in
theorem Ready.access_clear (h : Ready s) (a : Access) (t : Timing) :
    Ready (s.access a t).2 ∧ (((s.access a t).2.regs) regControl).getLsbD k = false := by
  have hlast : ∀ n (c : Core g), (s.access a t).2.core = tick^[n + 1] c →
      (((s.access a t).2.regs) regControl).getLsbD k = false := by
    intro n c hc
    rw [← tick_ticks] at hc
    rw [show (s.access a t).2.regs = _ from congrArg Prod.fst hc]
    exact tick_command hk _
  cases a with
  | read addr =>
      obtain ⟨-, hready, hcore⟩ := h.read addr t
      refine ⟨hready, hlast (4 + t.hold + t.gap) s.core ?_⟩
      rw [hcore, show 5 + t.hold + t.gap = 4 + t.hold + t.gap + 1 by omega]
  | write addr x =>
      obtain ⟨hready, hcore⟩ := h.write addr x t
      rw [show 2 + t.hold + t.gap = 1 + t.hold + t.gap + 1 by omega] at hcore
      exact ⟨hready, hlast _ _ hcore⟩

end count

/-- Whatever the host's accesses and their timing, a command is up for as many clocks
as there are writes of the control register that set it. -/
theorem commands_once (g : ℕ) (s : State g) (k : ℕ) (hk : k ∈ commands) (h : Ready s)
    (h0 : (s.regs regControl).getLsbD k = false) (as : List (Access × Timing)) :
    ups k (s.trace (as.flatMap fun a => a.1.clocks a.2)) = as.countP fun a => a.1.sets k := by
  induction as generalizing s with
  | nil => rfl
  | cons a as ih =>
      obtain ⟨hready, hclear⟩ := h.access_clear hk a.1 a.2
      rw [List.flatMap_cons, trace_append, run_clocks, ups, List.countP_append, ← ups, ← ups,
        h.ups_access hk h0, ih _ hready hclear, List.countP_cons, Nat.add_comm]

/-- The bridge behind its reset, with all flip-flops of the system at zero. -/
def started : State 1 where
  stage1 := true
  stage2 := true
  stage3 := true
  dataToCpu := 0#16
  regs := resetRegs ⟨fun _ => 0#16⟩
  soc := powerOn (fun _ => 0#32) (fun _ => 0#32) [] fun _ => 0#4

/-- A transaction is started, and its end is asked for twice. -/
theorem commands_once_start :
    ups controlTranStart (started.trace
      ([(Access.write 0xa#25 0x018c#16, ⟨1, 0⟩), (.read 0xa#25, ⟨0, 3⟩), (.read 0xa#25, ⟨2, 1⟩)].flatMap
        fun a => a.1.clocks a.2)) = 1 :=
  (commands_once 1 started controlTranStart (by simp [commands]) ⟨rfl, fun h => nomatch h⟩
    (by simp [started, resetRegs, regControl, regSanity, controlTranStart]) _).trans (by decide)

end TagSoc.Fpga
