import TagSoc.ExecRun

/-!
# From one instruction to the next

The run of the processor over one instruction, phase by phase: fetch of one or
two words, decode, execute, the memory or branch states, and the update of the
program counter. Each phase is a lemma of the form `Until … t`; the last
theorem chains them and says that from one pre-fetch state the machine reaches
the next one, with the architectural state the datapath layer gives.
-/
namespace TagSoc.Cpu
open Clocked Decoder CpuBus Datapath BitSlices

variable {M : Type*} {v : BitVec 32}

/-- What the decode state leaves for the execute state. The ALU still holds the
address of the next instruction. -/
structure Executing (r : Run (State.step v)) (mem : ℕ → M) (a : Rv32.State M) (w len : BitVec 32)
    (n : ℕ) : Prop where
  state : (r.state n).state = .exec
  arch : arch r mem n = a
  running : (r.state n).testFinished = false
  parcels : (r.state n).parcels = w
  pcnext : (r.state n).pcnext = a.pc + len
  next : (r.state n).alu.result = a.pc + len
  val1 : (r.state n).regs.regval1 = a.regs (decode w).rs1
  val2 : (r.state n).regs.regval2 = a.regs (decode w).rs2

/-- An instruction past its execute clock, in the main state `m`. -/
structure Executed (r : Run (State.step v)) (mem : ℕ → M) (m : MainState) (a : Rv32.State M)
    (w next : BitVec 32) (n : ℕ) : Prop where
  state : (r.state n).state = m
  arch : arch r mem n = a
  running : (r.state n).testFinished = false
  parcels : (r.state n).parcels = w
  pcnext : (r.state n).pcnext = next
  done : (r.state n).execDone = true

/-- The machine is never single-stepped. -/
def Unstepped (r : Run (State.step v)) : Prop := ∀ t, (r.input t).externalSinglestep = false

/-- The machine is back at the start of an instruction. -/
structure Retired (r : Run (State.step v)) (mem : ℕ → M) (a : Rv32.State M) (n : ℕ) : Prop where
  state : (r.state n).state = .preFetch
  arch : arch r mem n = a
  running : (r.state n).testFinished = false

section
variable {D : Device M} {r : Run (State.step v)} {mem : ℕ → M}

/-- What an instruction past its execute clock keeps until it is retired. -/
def State.frame (s : State) :=
  (s.regs.regfile, s.pc, s.pcnext, s.parcels, s.execDone, s.testFinished)

theorem Executed.of_frame {m m' : MainState} {a : Rv32.State M} {w next : BitVec 32} {n k : ℕ}
    (h : Executed r mem m a w next n) (hm : (r.state k).state = m')
    (hf : (r.state k).frame = (r.state n).frame) :
    Executed r mem m' { a with mem := mem k } w next k := by
  simp only [State.frame, Prod.mk.injEq] at hf
  obtain ⟨h₁, h₂, h₃, h₄, h₅, h₆⟩ := hf
  refine ⟨hm, ?_, h₆.trans h.running, h₄.trans h.parcels, h₃.trans h.pcnext, h₅.trans h.done⟩
  rw [← h.arch]
  simp only [Cpu.arch, h₁, h₂]

/-- The same, when the memory has not changed either. -/
theorem Executed.of_frame_mem {m m' : MainState} {a : Rv32.State M} {w next : BitVec 32} {n k : ℕ}
    (h : Executed r mem m a w next n) (hm : (r.state k).state = m')
    (hf : (r.state k).frame = (r.state n).frame) (hmem : mem k = mem n) :
    Executed r mem m' a w next k := by
  have h' := h.of_frame hm hf
  rwa [show ({ a with mem := mem k } : Rv32.State M) = a by rw [hmem, ← h.arch]; rfl] at h'

variable (hs : Slave D r mem) (hr : Running r) (hc : ∀ t, Coherent (r.state t))
include hs hr hc

/-! ## Decode and execute -/

section execute
variable (hq : Unstepped r) {a : Rv32.State M} {w len : BitVec 32} {n : ℕ}

theorem executing_of_decoding (h : Decoding r mem a w len false n)
    (hno : (r.state n).takesInterrupt (r.input n) = false) :
    Executing r mem a w len (n + 1) := by
  have hstep := step_decode (v := v) (hc n) (hs.undisturbed hr n) h.state hno
  rw [← r.next n] at hstep
  have hmem : mem (n + 1) = mem n := hs.mem_of_ready (hc n) (by rw [h.state]; rfl)
  have hdec : (r.state n).dec = decode w := by rw [State.dec, h.parcels]
  have hregs : (r.state n).regs.regfile = a.regs := congrArg Rv32.State.regs h.arch
  constructor
  case arch =>
    rw [← h.arch]
    simp only [arch, hstep, hmem, State.readRegs]
  case val1 => simp only [hstep, State.readRegs, hdec, hregs]
  case val2 => simp only [hstep, State.readRegs, hdec, hregs]
  all_goals rw [hstep]
  case running => exact h.finished
  case parcels => exact h.parcels
  case pcnext => exact h.next
  case next => exact h.next

omit hs hr hc in
/-- What the ALU is given in the execute state. -/
theorem Executing.aluIn (h : Executing r mem a w len n) (en : Bool) :
    (r.state n).execAlu en =
      ⟨en, false, dataS1 (decode w) a, dataS2 (decode w) a, (decode w).aluOper⟩ := by
  have hdec : (r.state n).dec = decode w := by rw [State.dec, h.parcels]
  have hpc : (r.state n).pc = a.pc := congrArg Rv32.State.pc h.arch
  simp only [State.execAlu, hdec, State.aluDataS1, State.aluDataS2, h.val1, h.val2, hpc]
  rfl

/-- The registers after the execute clock: a jump has written its link. -/
def linked (d : Decoded) (len : BitVec 32) (a : Rv32.State M) : Rv32.State M :=
  { a with
    regs := if d.nextPcFromAlu && d.writeReg then Registers.RegFile.write a.regs d.rd (a.pc + len)
      else a.regs }

theorem executed_of_executing (h : Executing r mem a w len n) :
    Executed r mem (State.execNextState (decode w).execNextStage) (linked (decode w) len a) w
        (a.pc + len) (n + 1) ∧
      (r.state (n + 1)).regs.regval1 = a.regs (decode w).rs1 ∧
      (r.state (n + 1)).regs.regval2 = a.regs (decode w).rs2 ∧
      (r.state (n + 1)).alu = (r.state n).alu.step
        ⟨true, false, dataS1 (decode w) a, dataS2 (decode w) a, (decode w).aluOper⟩ := by
  have hstep := step_exec (v := v) (hc n) (hs.undisturbed hr n) h.state
  rw [← r.next n, h.aluIn] at hstep
  have hmem : mem (n + 1) = mem n := hs.mem_of_ready (hc n) (by rw [h.state]; rfl)
  have hdec : (r.state n).dec = decode w := by rw [State.dec, h.parcels]
  refine ⟨⟨?_, ?_, ?_, ?_, ?_, ?_⟩, ?_, ?_, ?_⟩
  · rw [hstep, hdec]
  · rw [← h.arch]
    simp only [arch, linked, hstep, hmem, hdec, State.writeRd, h.next]
    split_ifs <;> simp [← h.arch, arch]
  · rw [hstep]
    exact h.running
  · rw [hstep]
    exact h.parcels
  · rw [hstep]
    exact h.pcnext
  · rw [hstep]
  · rw [hstep, ← h.val1]
    simp only [State.writeRd]
    split_ifs <;> rfl
  · rw [hstep, ← h.val2]
    simp only [State.writeRd]
    split_ifs <;> rfl
  · rw [hstep]

/-! ## Update of the program counter -/

include hq in
theorem retired_of_update (hn : (r.state n).state = .updatePc)
    (hcsr : (r.state n).csr.busy = false) (hf : (r.state n).testFinished = false) :
    Retired r mem
      { regs := if (r.state n).writebackEn then
            Registers.RegFile.write (r.state n).regs.regfile (r.state n).dec.rd
              (r.state n).writebackData
          else (r.state n).regs.regfile
        pc := (r.state n).updateNextPc
        mem := mem n } (n + 1) := by
  have hstep := step_updatePc (v := v) (hc n) (hs.undisturbed hr n) hn hcsr
  rw [← r.next n] at hstep
  have hmem : mem (n + 1) = mem n := hs.mem_of_ready (hc n) (by rw [hn]; rfl)
  refine ⟨?_, ?_, ?_⟩
  · rw [hstep]
    simp [hq n, hf]
  · simp only [arch, hstep, hmem, State.writeRd]
    split_ifs <;> rfl
  · rw [hstep]
    exact hf

omit hs hr hc in
/-- Facts about the next address shared by all instructions without a jump. -/
theorem updateNextPc_fallthrough {s : State} (h₁ : s.nextAddrFromCsr = false)
    (h₂ : s.dec.nextPcFromAlu = false) (h₃ : s.branchPcFromAlu = false) {next : BitVec 32}
    (h₄ : s.pcnext = next) (he : BitSlices.IsEven next) : s.updateNextPc = next := by
  simp only [State.updateNextPc, h₁, h₂, h₃, h₄, and_not_one he]
  rfl

/-! ## Register and jump instructions -/

/-- While a multi-cycle operation runs the machine repeats its post-execute
state and holds the operands. -/
theorem postExec_wait {x y : BitVec 32} {op : Alu.AluOp} {alu₀ : Alu.State} {N : ℕ}
    (h : Executed r mem .postExec a w len n)
    (hin : (r.state n).execAlu false = ⟨false, false, x, y, op⟩)
    (halu : (r.state n).alu = alu₀.after op x y 0)
    (hbusy : ∀ k < N, (alu₀.after op x y k).busy = true) (k : ℕ) (hk : k ≤ N) :
    Executed r mem .postExec a w len (n + k) ∧
      (r.state (n + k)).execAlu false = ⟨false, false, x, y, op⟩ ∧
      (r.state (n + k)).alu = alu₀.after op x y k := by
  induction k with
  | zero => exact ⟨h, hin, halu⟩
  | succ k ih =>
      obtain ⟨he, hi, ha⟩ := ih (by omega)
      have hstep := step_postExec (v := v) (hc (n + k)) (hs.undisturbed hr (n + k)) he.state
      rw [← r.next (n + k), hi, ha, if_pos (hbusy k (by omega))] at hstep
      have hmem : mem (n + k + 1) = mem (n + k) :=
        hs.mem_of_ready (hc (n + k)) (by rw [he.state]; rfl)
      rw [← Nat.add_assoc]
      refine ⟨he.of_frame_mem (by rw [hstep]) (by rw [hstep]; rfl) hmem, ?_, ?_⟩
      · rw [hstep]
        exact hi
      · rw [hstep]
        rfl

omit hs hr hc in
/-- The write-back of an instruction without a memory stage, and where it goes
next, once the ALU has its result. -/
theorem dataStep_of_toFetch (a : Rv32.State M) (len res : BitVec 32) (D : Device M) {s : State}
    {m : M} (hst : (decode w).execNextStage = .toFetch) (hdec : s.dec = decode w)
    (hflags : s.writebackFromBus = false ∧ s.branchPcFromAlu = false ∧ s.nextAddrFromCsr = false)
    (hdone : s.execDone = true) (hres : s.alu.result = res) (hnext : s.pcnext = a.pc + len)
    (heven : BitSlices.IsEven (a.pc + len))
    (hregs : s.regs.regfile = (linked (decode w) len a).regs) (hmem : m = a.mem) :
    (⟨if s.writebackEn then Registers.RegFile.write s.regs.regfile s.dec.rd s.writebackData
        else s.regs.regfile, s.updateNextPc, m⟩ : Rv32.State M) =
      dataStep (decode w) a D len res := by
  have hl : (decode w).toControl.legal = true := control_legal w
  simp only [Control.legal, hst] at hl
  cases hj : (decode w).nextPcFromAlu with
  | true =>
      simp only [hj, Bool.not_true, Bool.false_and, Bool.false_or, Bool.true_and, Bool.and_eq_true,
        Bool.not_eq_true'] at hl
      simp only [dataStep, hst, hj, State.writebackEn, State.updateNextPc, hflags, hdec, hl, hres,
        hregs, linked, hmem]
      rfl
  | false =>
      simp only [hj, Bool.not_false, Bool.true_and, Bool.false_and, Bool.or_false,
        Bool.and_eq_true, Bool.not_eq_true', Bool.or_eq_true, beq_iff_eq] at hl
      have hpc := updateNextPc_fallthrough hflags.2.2 (by rw [hdec, hj]) hflags.2.1 hnext heven
      simp only [dataStep, hst, hj, hpc, State.writebackEn, State.writebackData, hflags, hdec,
        hdone, hregs, linked, hmem]
      cases hwa : (decode w).writebackFromAlu <;> cases hwi : (decode w).writebackFromImm <;>
        simp_all [State.regDatain]

include hq in
theorem run_toFetch {res : BitVec 32} (h : Executing r mem a w len n)
    (hst : (decode w).execNextStage = .toFetch)
    (hy : Alu.Yields (decode w).aluOper (dataS1 (decode w) a) (dataS2 (decode w) a) res)
    (heven : BitSlices.IsEven (a.pc + len)) :
    Until (fun n => (r.state n).state ≠ .preFetch)
      (Retired r mem (dataStep (decode w) a D len res)) (n + 1) := by
  obtain ⟨he, hv₁, hv₂, halu⟩ := executed_of_executing hs hr hc h
  rw [hst] at he
  obtain ⟨N, hbusy, hfree, hres⟩ := hy (r.state n).alu ((hc n).alu_free (by rw [h.state]; rfl))
  have hin : (r.state (n + 1)).execAlu false =
      ⟨false, false, dataS1 (decode w) a, dataS2 (decode w) a, (decode w).aluOper⟩ := by
    have hdec : (r.state (n + 1)).dec = decode w := by rw [State.dec, he.parcels]
    have hpc : (r.state (n + 1)).pc = a.pc := congrArg Rv32.State.pc he.arch
    simp only [State.execAlu, hdec, State.aluDataS1, State.aluDataS2, hv₁, hv₂, hpc]
    rfl
  have hwait := postExec_wait hs hr hc he hin halu hbusy
  obtain ⟨heN, hinN, haluN⟩ := hwait N le_rfl
  -- the clock that sees the ALU free
  have hstep := step_postExec (v := v) (hc (n + 1 + N)) (hs.undisturbed hr (n + 1 + N)) heN.state
  rw [← r.next (n + 1 + N), hinN, haluN, if_neg (by simp [hfree]), Alu.step_idle hfree] at hstep
  have hflags := (hc (n + 1 + N)).flags (by simp [heN.state])
  have hmem : mem (n + 1 + N + 1) = mem (n + 1 + N) :=
    hs.mem_of_ready (hc (n + 1 + N)) (by rw [heN.state]; rfl)
  have hup : (r.state (n + 1 + N + 1)).state = .updatePc := by rw [hstep]
  have hret := retired_of_update hs hr hc hq hup (by rw [hstep]; exact Csr.rest_busy _)
    (by rw [hstep]; exact heN.running)
  refine ⟨n + 1 + N + 1 + 1, by omega, ?_, ?_⟩
  · rw [dataStep_of_toFetch a len res D hst] at hret
    · exact hret
    · rw [State.dec, hstep, State.parcels]
      exact congrArg decode heN.parcels
    · simpa [hstep] using hflags
    · rw [hstep]; exact heN.done
    · rw [hstep]; exact hres
    · rw [hstep]; exact heN.pcnext
    · exact heven
    · rw [hstep]; exact congrArg Rv32.State.regs heN.arch
    · rw [hmem]; exact congrArg Rv32.State.mem heN.arch
  · intro k hk hlt
    rcases Nat.lt_or_ge k (n + 1 + N + 1) with hlt' | hge
    · obtain ⟨d, rfl⟩ := Nat.exists_eq_add_of_le hk
      simp [(hwait d (by omega)).1.state]
    · have : k = n + 1 + N + 1 := by omega
      simp [this, hup]

/-! ## Branches, loads and stores -/

omit hs hr hc in
/-- The stages beyond the execute states ask for no write-back of their own. -/
theorem stage_quiet (hst : (decode w).execNextStage = .toLoad ∨
    (decode w).execNextStage = .toStore ∨ (decode w).execNextStage = .toBranch) :
    (decode w).nextPcFromAlu = false ∧ (decode w).writebackFromImm = false ∧
      (decode w).writebackFromAlu = false ∧ (decode w).aluOper = .add := by
  have hl : (decode w).toControl.legal = true := control_legal w
  rcases hst with hst | hst | hst <;> simp_all [Control.legal]

omit hs hr hc in
theorem linked_of_no_jump (h : (decode w).nextPcFromAlu = false) : linked (decode w) len a = a := by
  simp [linked, h]

omit hs hr hc in
/-- The comparison latched in the execute clock, seen one clock later. -/
theorem branch_eq_taken {s : State} {alu₀ : Alu.State} {op : Alu.AluOp} (hdec : s.dec = decode w)
    (halu : s.alu = alu₀.step ⟨true, false, dataS1 (decode w) a, dataS2 (decode w) a, op⟩) :
    s.branch = taken (decode w) a := by
  obtain ⟨h₁, h₂, h₃⟩ := Alu.step_flags alu₀ (dataS1 (decode w) a) (dataS2 (decode w) a) op
  simp only [State.branch, taken, hdec, halu, h₁, h₂, h₃]

include hq in
/-- The update clock of an instruction that jumps nowhere by itself. -/
theorem retired_of_executed (he : Executed r mem .updatePc a w (a.pc + len) n)
    (hcsr : (r.state n).csr.busy = false) (hj : (decode w).nextPcFromAlu = false)
    (hflags : (r.state n).branchPcFromAlu = false ∧ (r.state n).nextAddrFromCsr = false)
    (heven : BitSlices.IsEven (a.pc + len)) :
    Retired r mem
      { a with
        regs := if (r.state n).writebackEn then
            Registers.RegFile.write a.regs (decode w).rd (r.state n).writebackData
          else a.regs
        pc := a.pc + len } (n + 1) := by
  have hret := retired_of_update hs hr hc hq he.state hcsr he.running
  have hdec : (r.state n).dec = decode w := by rw [State.dec, he.parcels]
  rw [updateNextPc_fallthrough hflags.2 (by rw [hdec, hj]) hflags.1 he.pcnext heven, hdec,
    show (r.state n).regs.regfile = a.regs from congrArg Rv32.State.regs he.arch,
    show mem n = a.mem from congrArg Rv32.State.mem he.arch] at hret
  exact hret

include hq in
theorem run_toBranch {res : BitVec 32} (h : Executing r mem a w len n)
    (hst : (decode w).execNextStage = .toBranch) (heven : BitSlices.IsEven (a.pc + len)) :
    Until (fun n => (r.state n).state ≠ .preFetch)
      (Retired r mem (dataStep (decode w) a D len res)) (n + 1) := by
  obtain ⟨hj, hwi, hwa, -⟩ := stage_quiet (.inr (.inr hst))
  obtain ⟨he, -, -, halu⟩ := executed_of_executing hs hr hc h
  replace he : Executed r mem .branch2 a w (a.pc + len) (n + 1) := by
    rwa [hst, linked_of_no_jump hj] at he
  have hdec : (r.state (n + 1)).dec = decode w := by rw [State.dec, he.parcels]
  have hbr := branch_eq_taken hdec halu
  have hstep := step_branch2 (v := v) (hc (n + 1)) (hs.undisturbed hr (n + 1)) he.state
  rw [← r.next (n + 1)] at hstep
  have hflags := (hc (n + 1)).flags (by simp [he.state])
  have hfree : (r.state (n + 1)).alu.busy = false := (hc (n + 1)).alu_free (by rw [he.state]; rfl)
  have hmem : mem (n + 1 + 1) = mem (n + 1) :=
    hs.mem_of_ready (hc (n + 1)) (by rw [he.state]; rfl)
  have he' : Executed r mem .updatePc a w (a.pc + len) (n + 1 + 1) :=
    he.of_frame_mem (by rw [hstep]) (by rw [hstep]; rfl) hmem
  have hret := retired_of_update hs hr hc hq he'.state (by rw [hstep]; exact Csr.rest_busy _)
    he'.running
  refine Until.next (by simp [he.state]) (Until.next (by simp [he'.state]) (Until.now ?_))
  have hdec' : (r.state (n + 1 + 1)).dec = decode w := by rw [State.dec, he'.parcels]
  have hwe : (r.state (n + 1 + 1)).writebackEn = false := by
    rw [State.writebackEn, hdec', hwi, hwa, hstep, hflags.1]
    rfl
  have hpc : (r.state (n + 1)).pc = a.pc := congrArg Rv32.State.pc he.arch
  have hnpc : (r.state (n + 1 + 1)).updateNextPc =
      if taken (decode w) a then (a.pc + (decode w).imm) &&& ~~~1#32 else a.pc + len := by
    rw [State.updateNextPc, hdec', hj, hstep]
    simp only [hflags.2.2, hbr, he.pcnext, aluAdd_result hfree, hpc, hdec, and_not_one heven,
      Bool.false_or]
    rfl
  rw [hwe, hnpc, show mem (n + 1 + 1) = a.mem from congrArg Rv32.State.mem he'.arch,
    show (r.state (n + 1 + 1)).regs.regfile = a.regs from congrArg Rv32.State.regs he'.arch] at hret
  simp only [dataStep, hst]
  exact hret

include hq in
theorem run_toLoad (h : Executing r mem a w len n)
    (hst : (decode w).execNextStage = .toLoad) (heven : BitSlices.IsEven (a.pc + len)) :
    Until (fun n => (r.state n).state ≠ .preFetch)
      (Retired r mem (dataStep (decode w) a D len (dataS1 (decode w) a + dataS2 (decode w) a)))
      (n + 1) := by
  obtain ⟨hj, hwi, hwa, hop⟩ := stage_quiet (.inl hst)
  obtain ⟨he, -, -, halu⟩ := executed_of_executing hs hr hc h
  replace he : Executed r mem .load1 a w (a.pc + len) (n + 1) := by
    rwa [hst, linked_of_no_jump hj] at he
  have hdec : (r.state (n + 1)).dec = decode w := by rw [State.dec, he.parcels]
  have hres : (r.state (n + 1)).alu.result = dataS1 (decode w) a + dataS2 (decode w) a := by
    rw [halu, hop]
    exact (Alu.step_add _ ((hc n).alu_free (by rw [h.state]; rfl)) _ _).2
  have hstep := step_load1 (v := v) (hc (n + 1)) (hs.undisturbed hr (n + 1)) he.state
  rw [← r.next (n + 1), hdec, hres] at hstep
  have hmem : mem (n + 1 + 1) = a.mem :=
    (hs.mem_of_ready (hc (n + 1)) (by rw [he.state]; rfl)).trans (congrArg Rv32.State.mem he.arch)
  have hwe : (r.state (n + 1 + 1)).bus.we = false := by
    rw [hstep]
    simp only [CpuBus.State.request, State.loadBusOp]
    split_ifs <;> rfl
  have hwait := hs.read_wait (State.loadBusOp (decode w).funct3)
    (dataS1 (decode w) a + dataS2 (decode w) a) State.frame (m := .load2)
    (R := fun n => (r.state n).state ≠ .preFetch) hr hc (fun n hn => by simp [hn])
    (fun s i h u hm hb => by simp [step_load2 h u hm, hb, State.frame, State.parcels])
    (t := n + 1 + 1) (by rw [hstep]) (by rw [hstep]; rfl) (by rw [hstep]; rfl)
    (by rw [hstep]; rfl) (by rw [hstep]; rfl) hwe
  rw [hmem] at hwait
  refine Until.next (by simp [he.state]) (hwait.trans ?_)
  rintro k - ⟨hk, hb, hbuf, hkeep, hmemk⟩
  -- the word is in the buffer: one clock to the update state, one to retire
  have hstep' := step_load2 (v := v) (hc k) (hs.undisturbed hr k) hk
  rw [← r.next k, hb] at hstep'
  have hwek : (r.state k).bus.we = false :=
    Bool.eq_false_iff.mpr fun hw => by simpa [hb] using (hc k).bus_we hw
  have hframe : (r.state (k + 1)).frame = (r.state (n + 1)).frame := by
    rw [hstep']
    refine Eq.trans ?_ (hkeep.trans ?_)
    · rfl
    · rw [hstep]; rfl
  have hmem' : mem (k + 1) = mem (n + 1) := by
    rw [hs.mem_of_not_we hwek, hmemk]
    exact (congrArg Rv32.State.mem he.arch).symm
  have he' : Executed r mem .updatePc a w (a.pc + len) (k + 1) :=
    he.of_frame_mem (by rw [hstep']; rfl) hframe hmem'
  have hflags := (hc k).flags (by simp [hk])
  have hret := retired_of_executed hs hr hc hq he' (by rw [hstep']; exact Csr.rest_busy _) hj
    (by rw [hstep']; exact hflags.2) heven
  have hdec' : (r.state (k + 1)).dec = decode w := by rw [State.dec, he'.parcels]
  have hen : (r.state (k + 1)).writebackEn = true := by
    rw [State.writebackEn, he'.done, hstep']
    rfl
  have hdata : (r.state (k + 1)).writebackData =
      loaded D a.mem (State.loadBusOp (decode w).funct3)
        (dataS1 (decode w) a + dataS2 (decode w) a) := by
    rw [State.writebackData, hdec', hwi, hwa, ← hbuf, hstep']
    have hack : (r.input k).ack = false :=
      Bool.eq_false_iff.mpr fun ha => by simpa [(hc k).cyc, hb] using (hs.ack_cyc k ha).1
    simp [State.regDatain, hack]
  rw [hen, hdata, if_pos rfl] at hret
  refine Until.next (by simp [hk]) (Until.next (by simp [he'.state]) (Until.now ?_))
  simp only [dataStep, hst]
  exact hret

omit hs hr in
/-- No acknowledge comes without a request. -/
theorem no_ack_of_free (hs : Slave D r mem) (hb : (r.state n).bus.busy = false) :
    (r.input n).ack = false :=
  Bool.eq_false_iff.mpr fun ha => by simpa [(hc n).cyc, hb] using (hs.ack_cyc n ha).1

/-- The state of the write-back flags that leads to the next instruction. -/
def NoFlags (s : State) : Prop :=
  s.writebackFromBus = false ∧ s.branchPcFromAlu = false ∧ s.nextAddrFromCsr = false

/-- With the bus and the CSR block free a store goes to the update state. -/
theorem update_of_store2 {next : BitVec 32} (h : Executed r mem .store2 a w next n)
    (hb : (r.state n).bus.busy = false) (hcsr : (r.state n).csr.busy = false) :
    Executed r mem .updatePc a w next (n + 1) ∧ NoFlags (r.state (n + 1)) := by
  have hstep := step_store2 (v := v) (hc n) (hs.undisturbed hr n) h.state
  rw [← r.next n, hb, hcsr] at hstep
  have hwe : (r.state n).bus.we = false :=
    Bool.eq_false_iff.mpr fun hw => by simpa [hb] using (hc n).bus_we hw
  refine ⟨h.of_frame_mem (by rw [hstep]; rfl) (by rw [hstep]; rfl) (hs.mem_of_not_we hwe), ?_⟩
  rw [hstep]
  exact (hc n).flags (by simp [h.state])

/-- An update clock spent waiting for the CSR block. -/
theorem update_wait {next : BitVec 32} (h : Executed r mem .updatePc a w next n)
    (hf : NoFlags (r.state n)) (hcsr : (r.state n).csr.busy = true)
    (hwi : (decode w).writebackFromImm = false) (hwa : (decode w).writebackFromAlu = false) :
    Executed r mem .updatePc a w next (n + 1) ∧ NoFlags (r.state (n + 1)) ∧
      (r.state (n + 1)).csr.busy = false := by
  have hstep := step_updatePc_busy (v := v) (hc n) (hs.undisturbed hr n) h.state hcsr
  have hdec : (r.state n).dec = decode w := by rw [State.dec, h.parcels]
  have hwb : (r.state n).writebackEn = false := by
    rw [State.writebackEn, hdec, hwi, hwa, hf.1]
    rfl
  rw [← r.next n, hwb] at hstep
  have hmem : mem (n + 1) = mem n := hs.mem_of_ready (hc n) (by rw [h.state]; rfl)
  refine ⟨h.of_frame_mem ?_ (by rw [hstep]; rfl) hmem, ?_, ?_⟩
  · rw [hstep]
    exact h.state
  · rw [hstep]
    exact ⟨hf.1, rfl, hf.2.2⟩
  · rw [hstep]
    exact Csr.rest_busy _

/-- After its acknowledge a store may still wait for the CSR block, in its own
state and in the update state, but never longer than a clock in each. -/
theorem store_settle {next : BitVec 32} (h : Executed r mem .store2 a w next n)
    (hb : (r.state n).bus.busy = false) (hwi : (decode w).writebackFromImm = false)
    (hwa : (decode w).writebackFromAlu = false) :
    Until (fun n => (r.state n).state ≠ .preFetch)
      (fun k => Executed r mem .updatePc a w next k ∧ NoFlags (r.state k) ∧
        (r.state k).csr.busy = false) n := by
  -- the part from a free CSR block on, for every starting clock
  have hfree : ∀ k, Executed r mem .store2 a w next k → (r.state k).bus.busy = false →
      (r.state k).csr.busy = false →
      Until (fun n => (r.state n).state ≠ .preFetch)
        (fun k => Executed r mem .updatePc a w next k ∧ NoFlags (r.state k) ∧
          (r.state k).csr.busy = false) k := by
    intro k hk hbk hcsrk
    obtain ⟨hu, hf⟩ := update_of_store2 hs hr hc hk hbk hcsrk
    refine Until.next (by simp [hk.state]) ?_
    cases hcsr' : (r.state (k + 1)).csr.busy with
    | false => exact Until.now ⟨hu, hf, hcsr'⟩
    | true =>
        exact Until.next (by simp [hu.state]) (Until.now (update_wait hs hr hc hu hf hcsr' hwi hwa))
  cases hcsr : (r.state n).csr.busy with
  | false => exact hfree n h hb hcsr
  | true =>
      have hstep := step_store2 (v := v) (hc n) (hs.undisturbed hr n) h.state
      rw [← r.next n, hb, hcsr, no_ack_of_free hc hs hb] at hstep
      have hwe : (r.state n).bus.we = false :=
        Bool.eq_false_iff.mpr fun hw => by simpa [hb] using (hc n).bus_we hw
      refine Until.next (by simp [h.state]) (hfree (n + 1) ?_ ?_ ?_)
      · exact h.of_frame_mem (by rw [hstep]; rfl) (by rw [hstep]; rfl) (hs.mem_of_not_we hwe)
      · rw [hstep]
        exact hb
      · rw [hstep]
        simp [hcsr]

include hq in
theorem run_toStore (h : Executing r mem a w len n)
    (hst : (decode w).execNextStage = .toStore) (heven : BitSlices.IsEven (a.pc + len)) :
    Until (fun n => (r.state n).state ≠ .preFetch)
      (Retired r mem (dataStep (decode w) a D len (dataS1 (decode w) a + dataS2 (decode w) a)))
      (n + 1) := by
  obtain ⟨hj, hwi, hwa, hop⟩ := stage_quiet (.inr (.inl hst))
  obtain ⟨he, -, hval, halu⟩ := executed_of_executing hs hr hc h
  replace he : Executed r mem .store1 a w (a.pc + len) (n + 1) := by
    rwa [hst, linked_of_no_jump hj] at he
  have hdec : (r.state (n + 1)).dec = decode w := by rw [State.dec, he.parcels]
  have hres : (r.state (n + 1)).alu.result = dataS1 (decode w) a + dataS2 (decode w) a := by
    rw [halu, hop]
    exact (Alu.step_add _ ((hc n).alu_free (by rw [h.state]; rfl)) _ _).2
  have hstep := step_store1 (v := v) (hc (n + 1)) (hs.undisturbed hr (n + 1)) he.state
  rw [← r.next (n + 1), hdec, hres, hval] at hstep
  have hmem : mem (n + 1 + 1) = a.mem :=
    (hs.mem_of_ready (hc (n + 1)) (by rw [he.state]; rfl)).trans (congrArg Rv32.State.mem he.arch)
  have hwe : (r.state (n + 1 + 1)).bus.we = true := by
    rw [hstep]
    simp only [CpuBus.State.request, State.storeBusOp]
    split_ifs <;> rfl
  have hwait := hs.write_wait State.frame (m := .store2)
    (R := fun n => (r.state n).state ≠ .preFetch) hr hc (fun n hn => by simp [hn])
    (fun s i h u hm hb => by simp [step_store2 h u hm, hb, State.frame, State.parcels])
    (t := n + 1 + 1) (by rw [hstep]) (by rw [hstep]; rfl) hwe
  refine Until.next (by simp [he.state]) (hwait.trans ?_)
  rintro k - ⟨hk, hb, hkeep, hmemk⟩
  have hframe : (r.state k).frame = (r.state (n + 1)).frame :=
    hkeep.trans (by rw [hstep]; rfl)
  have hek := he.of_frame hk hframe
  have hmemk' : mem k = D.write a.mem (State.storeBusOp (decode w).funct3).memSel
      (dataS1 (decode w) a + dataS2 (decode w) a) (a.regs (decode w).rs2) := by
    rw [hmemk, hmem, hstep]
    rfl
  rw [hmemk'] at hek
  refine (store_settle hs hr hc hek hb hwi hwa).trans ?_
  rintro j - ⟨hej, hf, hcsr⟩
  have hret := retired_of_executed hs hr hc hq hej hcsr hj hf.2 heven
  have hwb : (r.state j).writebackEn = false := by
    have hdec' : (r.state j).dec = decode w := by rw [State.dec, hej.parcels]
    rw [State.writebackEn, hdec', hwi, hwa, hf.1]
    rfl
  rw [hwb] at hret
  refine Until.next (by simp [hej.state]) (Until.now ?_)
  simp only [dataStep, hst]
  exact hret

end execute

/-! ## The whole instruction -/

/-- From the start of an instruction that is not interrupted the machine reaches the
start of the next one, with the registers, program counter and memory of the datapath
layer. -/
theorem plain_run (hq : Unstepped r) {t : ℕ} (ht : (r.state t).state = .preFetch)
    (hno : Uninterrupted r t) (hf : (r.state t).testFinished = false) {res : BitVec 32}
    (hst : plainStage (decode (fetched D (arch r mem t))).execNextStage = true)
    (hy : Alu.Yields (decode (fetched D (arch r mem t))).aluOper
      (dataS1 (decode (fetched D (arch r mem t))) (arch r mem t))
      (dataS2 (decode (fetched D (arch r mem t))) (arch r mem t)) res) :
    Until (fun n => (r.state n).state ≠ .preFetch)
      (Retired r mem (dataStep (decode (fetched D (arch r mem t))) (arch r mem t) D
        (instrLen (fetched D (arch r mem t))) res)) (t + 1) := by
  obtain ⟨n, htn, hn, hpath⟩ := fetch_run hs hr hc ht
  rw [hf] at hn
  have hinner : ∀ j, t < j → j ≤ n → (r.state j).state.fetching = true := by
    intro j hj hjn
    rcases Nat.eq_or_lt_of_le hjn with rfl | hlt
    · rw [hn.state]; rfl
    · exact hpath j hj hlt
  have hex := executing_of_decoding hs hr hc hn
    (hno n htn (fun j hj hjn => atBoundary_of_fetching (hinner j hj hjn)) hn.state)
  refine Until.trans (Q := (· = n)) ⟨n, htn, rfl, fun k hk hkn hpre => ?_⟩ fun k _ hk => ?_
  · have hfe := hpath k hk hkn
    simp [hpre, MainState.fetching] at hfe
  rw [hk]
  have heven : BitSlices.IsEven ((arch r mem t).pc + instrLen (fetched D (arch r mem t))) := by
    refine even_add (hc t).even ?_
    unfold instrLen
    split_ifs <;> simp
  refine Until.next (by simp [hn.state]) (Until.next (by simp [hex.state]) ?_)
  -- an addition has only one result, so `res` is the address of a memory access
  have hadd : (decode (fetched D (arch r mem t))).aluOper = .add → res =
      dataS1 (decode (fetched D (arch r mem t))) (arch r mem t) +
        dataS2 (decode (fetched D (arch r mem t))) (arch r mem t) := by
    intro hop
    rw [hop] at hy
    obtain ⟨N, hbusy, -, hres⟩ := hy (r.state t).alu ((hc t).alu_free (by rw [ht]; rfl))
    obtain ⟨hfree, hsum⟩ := Alu.step_add (r.state t).alu
      ((hc t).alu_free (by rw [ht]; rfl))
      (dataS1 (decode (fetched D (arch r mem t))) (arch r mem t))
      (dataS2 (decode (fetched D (arch r mem t))) (arch r mem t))
    cases N with
    | zero => exact hres.symm.trans hsum
    | succ N => simpa [Alu.State.after, hfree] using hbusy 0 (Nat.succ_pos N)
  cases hcase : (decode (fetched D (arch r mem t))).execNextStage with
  | toFetch => exact run_toFetch hs hr hc hq hex hcase hy heven
  | toLoad =>
      rw [hadd (stage_quiet (.inl hcase)).2.2.2]
      exact run_toLoad hs hr hc hq hex hcase heven
  | toStore =>
      rw [hadd (stage_quiet (.inr (.inl hcase))).2.2.2]
      exact run_toStore hs hr hc hq hex hcase heven
  | toBranch => exact run_toBranch hs hr hc hq hex hcase heven
  | toSystem => simp [hcase, plainStage] at hst
  | toTrap => simp [hcase, plainStage] at hst
  | toDead => simp [hcase, plainStage] at hst

/-- The same where nothing asks for an interrupt. -/
theorem instruction_run (hq : Quiet r) {t : ℕ} (ht : (r.state t).state = .preFetch)
    (hf : (r.state t).testFinished = false) {res : BitVec 32}
    (hst : plainStage (decode (fetched D (arch r mem t))).execNextStage = true)
    (hy : Alu.Yields (decode (fetched D (arch r mem t))).aluOper
      (dataS1 (decode (fetched D (arch r mem t))) (arch r mem t))
      (dataS2 (decode (fetched D (arch r mem t))) (arch r mem t)) res) :
    Until (fun n => (r.state n).state ≠ .preFetch)
      (Retired r mem (dataStep (decode (fetched D (arch r mem t))) (arch r mem t) D
        (instrLen (fetched D (arch r mem t))) res)) (t + 1) :=
  plain_run hs hr hc hq.singlestep ht (hq.uninterrupted t) hf hst hy

end

end TagSoc.Cpu
