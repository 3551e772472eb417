import TagSoc.CsrRun
import TagSoc.Refinement
import TagSoc.StraightLine

/-!
# The exit status

`_exit` leaves its status in `ra`, clears `sp` and executes `ecall`, which ends the test.
The bench then takes `0x0A11C001` in `ra` for success. `_exit` stores this number for the
status `0` and any other status as it is, so a status of this value passes as well.
-/
namespace TagSoc.ExitStatus
open Clocked Cpu Datapath Rv32 Agreement Refinement StraightLine

/-! ## `_exit` -/

def successCode : Word := 0x0A11C001#32

/-- The assembly of `_exit` in front of its `ecall`; `rs` is the register with the status.
What is passed on is the status and not `ustat`, so the bound of `256` has no effect. -/
def exitCode (rs : Reg) (status : Word) : List Instr :=
  if status ≠ 0#32 then [.opImm .add 1#5 rs 0#32, .opImm .add 2#5 0#5 0#32]
  else [.lui 1#5 0x0A11C000#32, .opImm .add 1#5 1#5 1#32, .opImm .add 2#5 0#5 0#32]

def ecallWord : Word := 0x00000073#32

theorem ecallWord_decode : (Decoder.decode ecallWord).execNextStage = .toSystem ∧
    systemKind (Decoder.decode ecallWord) = .ecall := by decide

/-- `ra` and `sp` in front of the `ecall`. -/
theorem exitCode_regs {rs : Reg} {status : Word} {m : Machine} (h0 : m.regs 0#5 = 0#32)
    (hrs : m.regs rs = status) : (block (exitCode rs status) m).regs 2#5 = 0#32 ∧
      (block (exitCode rs status) m).regs 1#5 = if status = 0#32 then successCode else status := by
  by_cases hst : status = 0#32
  · simp [exitCode, hst, block, exec, setReg, Op.eval, successCode, h0]
  · simp [exitCode, hst, block, exec, setReg, Op.eval, h0, hrs]

/-! ## The bench -/

def passed : String := "exit code indicates success, test passed"

/-- The end of `RiscVSoc.run`, with the value of `ra`. -/
def verdict (expectFailure : Bool) (status : Word) : Except String String :=
  if expectFailure then
    if status = successCode then
      .error ("exit code <" ++ toString status.toNat ++
        "> indicates success, while tests expects failure")
    else .ok passed
  else if status ≠ successCode then
    .error ("exit code <" ++ toString status.toNat ++ "> indicates failure")
  else .ok passed

/-- The test is over, and it has passed just if the status is `0`. -/
def Separates (s : Cpu.State) (status : Word) : Prop :=
  s.testFinished = true ∧ (verdict false (s.regs.regfile 1#5) = .ok passed ↔ status = 0#32)

/-- The clock of the `ecall`, with the registers as `_exit` leaves them. -/
structure Exiting (s : Cpu.State) (status : Word) : Prop where
  state : s.state = .system
  ecall : systemKind s.dec = .ecall
  regs : ∃ (rs : Reg) (m : Machine), m.regs 0#5 = 0#32 ∧ m.regs rs = status ∧
    s.regs.regfile = (block (exitCode rs status) m).regs

theorem verdict_iff (x : Word) : verdict false x = .ok passed ↔ x = successCode := by
  by_cases hx : x = successCode <;> simp [verdict, hx]

theorem Exiting.step {v : Word} {s : Cpu.State} {i : Inputs} {status : Word}
    (h : Exiting s status) (hc : Coherent s) (hu : Undisturbed s i) :
    (s.step v i).testFinished = true ∧
      (s.step v i).regs.regfile 1#5 = if status = 0#32 then successCode else status := by
  obtain ⟨rs, m, h0, hrs, hregs⟩ := h.regs
  obtain ⟨hsp, hra⟩ := exitCode_regs h0 hrs
  -- `sp` is zero, so this `ecall` ends the test
  have hflag : s.regs.flags 2#5 = true := by rw [Registers.State.flags, hregs, hsp]; rfl
  have hraise : s.controlSystem = State.controlRaise causeEcall true := by
    rw [State.controlSystem, h.ecall, hflag]
  rw [step_system_raise hc hu h.state causeEcall true hraise]
  exact ⟨Bool.or_true _, by rw [← hra, ← hregs]⟩

/-- Only a trap ends the test. -/
theorem nextTestFinished_eq {s : Cpu.State} {i : Inputs} (h : (s.control i).trapOccured = false) :
    (s.control i).nextTestFinished = false := by
  unfold State.control at h ⊢
  cases hst : s.state <;> simp only [hst] at h ⊢
  case updatePc => rw [controlUpdatePc_eq]
  case system =>
    unfold State.controlSystem at h ⊢
    cases hk : systemKind s.dec <;> simp_all [State.controlRaise]
  all_goals rfl

/-! ## The run of `_exit` -/

section run
variable {M : Type*} {v : Word} {D : Device M} {r : Run (State.step v)} {mem : ℕ → M}

/-- The instruction word at an address. -/
def wordAt (D : Device M) (m : M) (pc : Word) : Word := fetched D ⟨fun _ => 0#32, pc, m⟩

/-- Instructions one after the other, in either of their encodings, up to an address. -/
inductive Code (D : Device M) (m : M) : Word → List Instr → Word → Prop
  | nil (pc : Word) : Code D m pc [] pc
  | cons {pc pc' : Word} {i : Instr} {is : List Instr} :
      Agrees D (wordAt D m pc) (instrLen (wordAt D m pc)) i →
      Code D m (pc + instrLen (wordAt D m pc)) is pc' → Code D m pc (i :: is) pc'

/-- Instructions that write a register and nothing else. -/
def Plain : Instr → Bool
  | .lui _ _ | .opImm _ _ _ _ => true
  | _ => false

theorem exitCode_plain (rs : Reg) (status : Word) : ∀ i ∈ exitCode rs status, Plain i = true := by
  intro i hi
  rw [exitCode] at hi
  split_ifs at hi <;> simp only [List.mem_cons, List.not_mem_nil, or_false] at hi
  · rcases hi with rfl | rfl <;> rfl
  · rcases hi with rfl | rfl | rfl <;> rfl

theorem exec_plain {i : Instr} (hi : Plain i = true) {memory : Memory M} {len : Word}
    {a : Rv32.State M} {m : Machine} (h : a.regs = m.regs) :
    exec memory len i a = ⟨(exec flat 4#32 i m).regs, a.pc + len, a.mem⟩ := by
  cases i with
  | lui rd imm => simp only [exec, h]
  | opImm op rd rs1 imm => simp only [exec, h]
  | _ => cases hi

variable (hs : Slave D r mem) (hr : Running r) (hq : Quiet r) (hc : ∀ t, Coherent (r.state t))
include hs hr hq hc

/-- The machine runs through plain instructions. -/
theorem code_run {t : ℕ} (hb : Boundary (r.state t)) {is : List Instr} {pc' : Word}
    (hcode : Code D (mem t) (r.state t).pc is pc') (hplain : ∀ i ∈ is, Plain i = true)
    {m : Machine} (hregs : (r.state t).regs.regfile = m.regs) :
    ∃ n, t ≤ n ∧ Boundary (r.state n) ∧ (r.state n).pc = pc' ∧ mem n = mem t ∧
      (r.state n).regs.regfile = (block is m).regs := by
  generalize hpc : (r.state t).pc = pc at hcode
  generalize hmem : mem t = m₀ at hcode
  induction hcode generalizing t m with
  | nil pc => exact ⟨t, Nat.le_refl t, hb, hpc, hmem, hregs⟩
  | @cons pc pc' i is hagree _ ih =>
      have hfetched : fetched D (arch r mem t) = wordAt D m₀ pc := by
        rw [← hpc, ← hmem]
        rfl
      obtain ⟨res, hst, hy, hstep⟩ := hagree (arch r mem t) hb.coherent.zero hb.coherent.even
      rw [← hfetched] at hst hy
      -- one instruction, from its boundary to the next
      obtain ⟨n, hn, hret, -⟩ := instruction_run hs hr hc hq hb.state hb.running hst hy
      rw [hfetched, hstep, exec_plain (hplain i List.mem_cons_self)
        (show (arch r mem t).regs = m.regs from hregs)] at hret
      have harch := hret.arch
      have hpc' : (r.state n).pc = pc + instrLen (wordAt D m₀ pc) :=
        (congrArg Rv32.State.pc harch).trans (congrArg (· + _) hpc)
      have hmem' : mem n = m₀ := (congrArg Rv32.State.mem harch).trans hmem
      obtain ⟨n', hn', hrest⟩ := ih ⟨hret.state, hc n, hret.running⟩
        (fun j hj => hplain j (List.mem_cons_of_mem i hj)) (congrArg Rv32.State.regs harch)
        hpc' hmem'
      exact ⟨n', by omega, hrest⟩

omit hs hq hc in
/-- A test that is over stays over. -/
theorem finished_mono {k n : ℕ} (hkn : k ≤ n) (h : (r.state n).testFinished = false) :
    (r.state k).testFinished = false := by
  by_contra hk
  rw [Bool.not_eq_false] at hk
  have hall := r.invariant (P := fun s => s.testFinished = true) hk (fun j _ hj => by
    simp [State.step, hr.rst j, hj]) n hkn
  rw [h] at hall
  cases hall

omit hs hq hc in
theorem finished_step {k : ℕ} (h : ((r.state k).control (r.input k)).trapOccured = false) :
    (r.state (k + 1)).testFinished = (r.state k).testFinished := by
  rw [r.next]
  simp only [State.step, hr.rst k, nextTestFinished_eq h]
  cases (r.state k).testFinished <;> rfl

/-- From the start of the assembly the machine gets to the `ecall`, and nothing ends the test
before. -/
theorem exit_run (hb : Boundary (r.state 0)) {rs : Reg} {status pc' : Word}
    (hcode : Code D (mem 0) (r.state 0).pc (exitCode rs status) pc')
    (hecall : wordAt D (mem 0) pc' = ecallWord) (hrs : (r.state 0).regs.regfile rs = status) :
    ∃ n, Exiting (r.state n) status ∧ ∀ k ≤ n, (r.state k).testFinished = false := by
  obtain ⟨n, -, hbn, hpc, hmem, hregs⟩ := code_run hs hr hq hc hb hcode (exitCode_plain rs status)
    (m := ⟨(r.state 0).regs.regfile, 0#32, fun _ => 0#8⟩) rfl
  have hfetched : fetched D (arch r mem n) = ecallWord := by
    rw [← hecall, ← hpc, ← hmem]
    rfl
  obtain ⟨m, hnm, hsys⟩ := system_run hs hr hc hbn.state (hq.uninterrupted n)
    (by rw [hfetched]; exact ecallWord_decode.1)
  rw [hfetched] at hsys
  have hfin : ∀ k, n ≤ k → k ≤ m → (r.state k).testFinished = false := by
    intro k hk
    induction k, hk using Nat.le_induction with
    | base => exact fun _ => hbn.running
    | succ k hk ih =>
        intro hkm
        rw [finished_step hr (hsys.path k hk hkm).1]
        exact ih (by omega)
  refine ⟨m, ⟨hsys.state, ?_, rs, ⟨(r.state 0).regs.regfile, 0#32, fun _ => 0#8⟩,
    hb.coherent.zero, hrs, ?_⟩,
    fun k hk => finished_mono hr hk (hfin m hnm.le le_rfl)⟩
  · rw [hsys.dec]
    exact ecallWord_decode.2
  · rw [(hsys.frame m hnm.le le_rfl).1]
    exact hregs

end run

section status
variable {M : Type*} {v : Word} {D : Device M} {r : Run (State.step v)} {mem : ℕ → M}

/-- Whenever the processor executes the `ecall` of `_exit`, the bench tells success from failure
just if the status is not the number that stands for success. With interrupts off it comes to
this `ecall`, and the test is not over before. -/
theorem exit_status_iff (hs : Slave D r mem) (hr : Running r) (hb : Boundary (r.state 0)) {rs : Reg}
    {status pc' : Word} (hcode : Code D (mem 0) (r.state 0).pc (exitCode rs status) pc')
    (hecall : wordAt D (mem 0) pc' = ecallWord) (hrs : (r.state 0).regs.regfile rs = status) :
    (∀ n, Exiting (r.state n) status →
      (Separates (r.state (n + 1)) status ↔ status ≠ successCode)) ∧
    (Quiet r → ∃ n, Exiting (r.state n) status ∧ ∀ k ≤ n, (r.state k).testFinished = false) := by
  have hc := hr.coherent hb.coherent
  refine ⟨fun n hn => ?_, fun hq => exit_run hs hr hq hc hb hcode hecall hrs⟩
  obtain ⟨hfin, hra⟩ := hn.step (v := v) (hc n) (hs.undisturbed hr n)
  rw [← r.next] at hfin hra
  rw [Separates, verdict_iff, hra]
  by_cases hst : status = 0#32
  · simp [hfin, hst, successCode]
  · simp [hfin, hst]

end status

/-! ## A program -/

theorem Code.of_decode {M : Type*} {D : Device M} {m : M} {pc pc' w : Word} {i : Instr}
    {is : List Instr} (hw : wordAt D m pc = w) (hi : Rv32.decode w = some i)
    (hcode : Code D m (pc + 4#32) is pc') : Code D m pc (i :: is) pc' := by
  have hlen : instrLen w = 4#32 := if_pos (long_of_decode hi)
  refine .cons ?_ ?_
  · rw [hw, hlen]
    exact agrees_of_decode hi
  · rwa [hw, hlen]

/-- `mv ra, a0`, `li sp, 0` and `ecall`. -/
def exitBytes (a : Word) : Byte :=
  [0x93#8, 0x00#8, 0x05#8, 0x00#8, 0x13#8, 0x01#8, 0x00#8, 0x00#8, 0x73#8].getD a.toNat 0#8

def exitState (status : Word) : Cpu.State := restState (fun r => if r = 10#5 then status else 0#32) 0#32

/-- The program on a memory that answers every third clock. -/
def exitBench (status : Word) : Run (State.step 0#32) :=
  benchRun byteDevice thirdClock quietInputs 0#32 (exitState status) exitBytes

theorem exitBench_slave (status : Word) : Slave byteDevice (exitBench status)
    (benchMem byteDevice thirdClock quietInputs 0#32 (exitState status) exitBytes) :=
  benchRun_slave byteDevice thirdClock quietInputs thirdClock_recurs (exitState status) exitBytes

theorem exitBench_running (status : Word) : Running (exitBench status) :=
  ⟨fun _ => rfl, fun _ => rfl⟩

theorem exitBytes_code (status : Word) (h : status ≠ 0#32) :
    Code byteDevice exitBytes 0#32 (exitCode 10#5 status) 8#32 := by
  rw [exitCode, if_pos h]
  have hmv : wordAt byteDevice exitBytes 0#32 = 0x00050093#32 := by decide
  have hli : wordAt byteDevice exitBytes 4#32 = 0x00000113#32 := by decide
  exact .of_decode hmv (by decide) (.of_decode hli (by decide) (.nil 8#32))

/-- The status `5` is a failure. -/
theorem exit_five : ∃ n, Separates ((exitBench 5#32).state (n + 1)) 5#32 ∧
    ∀ k ≤ n, ((exitBench 5#32).state k).testFinished = false := by
  obtain ⟨hsep, hreach⟩ := exit_status_iff (exitBench_slave 5#32) (exitBench_running 5#32)
    (restState_boundary (by decide) (by decide)) (exitBytes_code 5#32 (by decide)) (by decide)
    (by decide)
  obtain ⟨n, hn, hbefore⟩ := hreach (quietInputs_quiet _ _ _ _)
  exact ⟨n, (hsep n hn).mpr (by decide), hbefore⟩

/-- The number for success, as a status, passes the test. -/
theorem success_code_passes : successCode ≠ 0#32 ∧
    ∃ n, ((exitBench successCode).state (n + 1)).testFinished = true ∧
    verdict false (((exitBench successCode).state (n + 1)).regs.regfile 1#5) = .ok passed ∧
    ∀ k ≤ n, ((exitBench successCode).state k).testFinished = false := by
  have hr := exitBench_running successCode
  have hb : Boundary ((exitBench successCode).state 0) := restState_boundary (by decide) (by decide)
  have hc := hr.coherent hb.coherent
  have hs := exitBench_slave successCode
  obtain ⟨n, hn, hbefore⟩ := exit_run hs hr (quietInputs_quiet _ _ _ _) hc hb
    (exitBytes_code successCode (by decide)) (by decide) (by decide)
  obtain ⟨hfin, hra⟩ := hn.step (v := 0#32) (hc n) (hs.undisturbed hr n)
  rw [← (exitBench successCode).next] at hfin hra
  refine ⟨by decide, n, hfin, ?_, hbefore⟩
  rw [verdict_iff, hra]
  decide

end TagSoc.ExitStatus
