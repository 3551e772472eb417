import TagSoc.Datapath
import TagSoc.BitSlices
import Mathlib.Tactic.IntervalCases

/-!
# The decoder against the instruction set

For every 32-bit encoding of a base instruction, the datapath layer with the
decoder's outputs does what the specification says, on every register file
with `x0 = 0`, every even program counter and every memory. Memory is the
device behind the bus, asked with the select lines of the access; no alignment
is assumed here.
-/
namespace TagSoc.Agreement
open Rv32 hiding decode funct3 funct7
open Decoder CpuBus Datapath BitSlices

variable {M : Type*}

/-! ## Correspondences -/

def aluOp : Op → Alu.AluOp
  | .add => .add
  | .sub => .sub
  | .sll => .sll
  | .slt => .slt
  | .sltu => .sltu
  | .xor => .xor
  | .srl => .srl
  | .sra => .sra
  | .or => .or
  | .and => .and

def loadOp : LoadOp → BusOp
  | .lb => .readb
  | .lh => .readh
  | .lw => .readw
  | .lbu => .readbu
  | .lhu => .readhu

def storeOp : StoreOp → BusOp
  | .sb => .writeb
  | .sh => .writeh
  | .sw => .writew

def mask : BranchOp → BitVec 6
  | .beq => 0b000001#6
  | .bne => 0b000010#6
  | .blt => 0b000100#6
  | .bge => 0b001000#6
  | .bltu => 0b010000#6
  | .bgeu => 0b100000#6

/-- The memory that a device offers to loads and stores. -/
def memory (D : Device M) : Memory M where
  load op m a := loaded D m (loadOp op) a
  store op m a x := D.write m (storeOp op).memSel a x

theorem yields_op (op : Op) (x y : Word) : Alu.Yields (aluOp op) x y (op.eval x y) := by
  cases op
  · exact Alu.yields_add x y
  · exact Alu.yields_sub x y
  · exact Alu.yields_sll x y
  · exact Alu.yields_slt x y
  · exact Alu.yields_sltu x y
  · exact Alu.yields_xor x y
  · exact Alu.yields_srl x y
  · exact Alu.yields_sra x y
  · exact Alu.yields_or x y
  · exact Alu.yields_and x y

theorem write_eq_setReg (regs : Reg → Word) (rd : Reg) (x : Word) :
    Registers.RegFile.write regs rd x = setReg regs rd x := by
  by_cases h : rd = 0#5 <;> simp [Registers.RegFile.write, setReg, h]

/-- Each mask picks one of the six outcomes of the comparison. -/
theorem mask_select (op : BranchOp) : ∀ ltu lt eq : Bool,
    (mask op &&& (BitVec.ofBool (!ltu) ++ BitVec.ofBool ltu ++ BitVec.ofBool (!lt) ++
      BitVec.ofBool lt ++ BitVec.ofBool (!eq) ++ BitVec.ofBool eq) != 0#6) =
      match op with
      | .beq => eq
      | .bne => !eq
      | .blt => lt
      | .bge => !lt
      | .bltu => ltu
      | .bgeu => !ltu := by
  cases op <;> decide

theorem taken_eq (d : Decoded) (a : Rv32.State M) (op : BranchOp) (hm : d.branchmask = mask op) :
    taken d a = op.taken (dataS1 d a) (dataS2 d a) := by
  rw [taken, hm, mask_select]
  cases op <;> rfl

/-! ## Agreement

The classes of instructions, each with the signals that make the datapath
perform it. The same lemmas serve both instruction lengths. -/

/-- The decoded word `w`, taken as an instruction of length `len`, does what
the specification says of `i`. -/
def Agrees (D : Device M) (w len : Word) (i : Instr) : Prop :=
  ∀ a : Rv32.State M, a.regs 0#5 = 0#32 → IsEven a.pc →
    ∃ res, plainStage (decode w).execNextStage = true ∧
      Alu.Yields (decode w).aluOper (dataS1 (decode w) a) (dataS2 (decode w) a) res ∧
      dataStep (decode w) a D len res = exec (memory D) len i a

section classes
variable {D : Device M} {w len : Word}

/-- Signals common to the instructions that end in the execute states. -/
structure Simple (d : Decoded) : Prop where
  stage : d.execNextStage = .toFetch
  jump : d.nextPcFromAlu = false

theorem agrees_of_alu (op : Op) {i : Instr} (h : Simple (decode w))
    (hwa : (decode w).writebackFromAlu = true) (hop : (decode w).aluOper = aluOp op)
    (hi : ∀ a : Rv32.State M, a.regs 0#5 = 0#32 → exec (memory D) len i a =
      { a with regs := setReg a.regs (decode w).rd
                 (op.eval (dataS1 (decode w) a) (dataS2 (decode w) a))
               pc := a.pc + len }) : Agrees D w len i := by
  intro a h0 _
  refine ⟨op.eval (dataS1 (decode w) a) (dataS2 (decode w) a), ?_, ?_, ?_⟩
  · rw [h.stage]; rfl
  · rw [hop]
    exact yields_op op _ _
  · rw [hi a h0]
    simp [dataStep, h.stage, h.jump, hwa, write_eq_setReg]

/-- Instructions that write the immediate, or nothing at all. -/
theorem agrees_of_imm {i : Instr} (h : Simple (decode w))
    (hwa : (decode w).writebackFromAlu = false) (hop : (decode w).aluOper = .add)
    (hi : ∀ a : Rv32.State M, a.regs 0#5 = 0#32 → exec (memory D) len i a =
      { a with regs := if (decode w).writebackFromImm then
                   setReg a.regs (decode w).rd (decode w).imm else a.regs
               pc := a.pc + len }) : Agrees D w len i := by
  intro a h0 _
  refine ⟨dataS1 (decode w) a + dataS2 (decode w) a, ?_, ?_, ?_⟩
  · rw [h.stage]; rfl
  · rw [hop]
    exact Alu.yields_add _ _
  · rw [hi a h0]
    simp [dataStep, h.stage, h.jump, hwa, write_eq_setReg]

theorem agrees_of_jump {i : Instr} (hst : (decode w).execNextStage = .toFetch)
    (hj : (decode w).nextPcFromAlu = true) (hop : (decode w).aluOper = .add)
    (hi : ∀ a : Rv32.State M, a.regs 0#5 = 0#32 → IsEven a.pc → exec (memory D) len i a =
      { a with regs := if (decode w).writeReg then setReg a.regs (decode w).rd (a.pc + len)
                 else a.regs
               pc := (dataS1 (decode w) a + dataS2 (decode w) a) &&& ~~~1#32 }) :
    Agrees D w len i := by
  intro a h0 he
  refine ⟨dataS1 (decode w) a + dataS2 (decode w) a, ?_, ?_, ?_⟩
  · rw [hst]; rfl
  · rw [hop]
    exact Alu.yields_add _ _
  · rw [hi a h0 he]
    simp [dataStep, hst, hj, write_eq_setReg]

theorem agrees_of_branch {op : BranchOp} {rs1 rs2 : Reg} {offset : Word}
    (hst : (decode w).execNextStage = .toBranch) (hop : (decode w).aluOper = .add)
    (hm : (decode w).branchmask = mask op) (h₁ : (decode w).muxAluS1Sel = .regval1)
    (h₂ : (decode w).muxAluS2Sel = .regval2) (hr₁ : (decode w).rs1 = rs1)
    (hr₂ : (decode w).rs2 = rs2) (him : (decode w).imm = offset) (hev : IsEven offset) :
    Agrees D w len (.branch op rs1 rs2 offset) := by
  intro a _ he
  refine ⟨dataS1 (decode w) a + dataS2 (decode w) a, ?_, ?_, ?_⟩
  · rw [hst]; rfl
  · rw [hop]
    exact Alu.yields_add _ _
  · have htarget : (a.pc + offset) &&& ~~~1#32 = a.pc + offset := and_not_one (even_add he hev)
    simp only [dataStep, hst, taken_eq _ _ op hm, dataS1, dataS2, h₁, h₂, hr₁, hr₂, him, htarget,
      exec]

theorem agrees_of_load {op : LoadOp} {rd rs1 : Reg} {offset : Word}
    (hst : (decode w).execNextStage = .toLoad) (hop : (decode w).aluOper = .add)
    (hf : Cpu.State.loadBusOp (decode w).funct3 = loadOp op)
    (h₁ : (decode w).muxAluS1Sel = .regval1) (h₂ : (decode w).muxAluS2Sel = .imm)
    (hr : (decode w).rs1 = rs1) (hrd : (decode w).rd = rd) (him : (decode w).imm = offset) :
    Agrees D w len (.load op rd rs1 offset) := by
  intro a _ _
  refine ⟨dataS1 (decode w) a + dataS2 (decode w) a, ?_, ?_, ?_⟩
  · rw [hst]; rfl
  · rw [hop]
    exact Alu.yields_add _ _
  · simp only [dataStep, hst, hf, dataS1, dataS2, h₁, h₂, hr, hrd, him, exec, memory,
      write_eq_setReg]

theorem agrees_of_store {op : StoreOp} {rs1 rs2 : Reg} {offset : Word}
    (hst : (decode w).execNextStage = .toStore) (hop : (decode w).aluOper = .add)
    (hf : Cpu.State.storeBusOp (decode w).funct3 = storeOp op)
    (h₁ : (decode w).muxAluS1Sel = .regval1) (h₂ : (decode w).muxAluS2Sel = .imm)
    (hr₁ : (decode w).rs1 = rs1) (hr₂ : (decode w).rs2 = rs2) (him : (decode w).imm = offset) :
    Agrees D w len (.store op rs1 rs2 offset) := by
  intro a _ _
  refine ⟨dataS1 (decode w) a + dataS2 (decode w) a, ?_, ?_, ?_⟩
  · rw [hst]; rfl
  · rw [hop]
    exact Alu.yields_add _ _
  · simp only [dataStep, hst, hf, dataS1, dataS2, h₁, h₂, hr₁, hr₂, him, exec, memory]

end classes

/-! ## The 32-bit immediates -/

section immediates
variable (w : Word)

theorem imm_I : BitVec.replicate 20 (w.extractLsb' 31 1) ++ w.extractLsb' 20 12 = immI w := by
  apply BitVec.eq_of_getLsbD_eq
  intro i hi
  simp only [immI, BitVec.getLsbD_append, BitVec.getLsbD_extractLsb', BitVec.getLsbD_replicate,
    BitVec.getLsbD_signExtend, BitVec.msb_eq_getLsbD_last]
  interval_cases i <;> simp

theorem imm_S :
    BitVec.replicate 20 (w.extractLsb' 31 1) ++ w.extractLsb' 25 7 ++ w.extractLsb' 8 4 ++
      w.extractLsb' 7 1 = immS w := by
  apply BitVec.eq_of_getLsbD_eq
  intro i hi
  simp only [immS, BitVec.getLsbD_append, BitVec.getLsbD_extractLsb', BitVec.getLsbD_replicate,
    BitVec.getLsbD_signExtend, BitVec.msb_eq_getLsbD_last]
  interval_cases i <;> simp

theorem imm_B :
    BitVec.replicate 19 (w.extractLsb' 31 1) ++ w.extractLsb' 31 1 ++ w.extractLsb' 7 1 ++
      w.extractLsb' 25 6 ++ w.extractLsb' 8 4 ++ 0#1 = immB w := by
  apply BitVec.eq_of_getLsbD_eq
  intro i hi
  simp only [immB, BitVec.getLsbD_append, BitVec.getLsbD_extractLsb', BitVec.getLsbD_replicate,
    BitVec.getLsbD_signExtend, BitVec.msb_eq_getLsbD_last]
  interval_cases i <;> simp

theorem imm_J :
    BitVec.replicate 11 (w.extractLsb' 31 1) ++ w.extractLsb' 31 1 ++ w.extractLsb' 12 8 ++
      w.extractLsb' 20 1 ++ w.extractLsb' 25 6 ++ w.extractLsb' 21 4 ++ 0#1 = immJ w := by
  apply BitVec.eq_of_getLsbD_eq
  intro i hi
  simp only [immJ, BitVec.getLsbD_append, BitVec.getLsbD_extractLsb', BitVec.getLsbD_replicate,
    BitVec.getLsbD_signExtend, BitVec.msb_eq_getLsbD_last]
  interval_cases i <;> simp

end immediates

/-! ## The 32-bit encodings -/

section encodings
variable {D : Device M} {w : Word}

theorem fields_of_major {k : BitVec 7} (h : major w = k) :
    cOp w = k.extractLsb' 0 2 ∧ opcode w = k.extractLsb' 2 5 := by
  subst h
  exact ⟨(extractLsb'_extractLsb' w 0 7 0 2 (by decide)).symm,
    (extractLsb'_extractLsb' w 0 7 2 5 (by decide)).symm⟩

theorem decode_of_long (h : cOp w = 3#2) :
    decode w =
      { control32 w with imm := imm32 w, branchmask := branchmask w, funct3 := Rv32.funct3 w } := by
  simp [decode, Decoder.control, imm, Decoder.funct3, h, Rv32.funct3]

theorem immB_even (w : Word) : IsEven (immB w) := by
  rw [IsEven, ← BitVec.getLsbD_eq_getElem]
  simp only [immB, BitVec.getLsbD_signExtend, BitVec.getLsbD_append]
  simp

theorem immJ_even (w : Word) : IsEven (immJ w) := by
  rw [IsEven, ← BitVec.getLsbD_eq_getElem]
  simp only [immJ, BitVec.getLsbD_signExtend, BitVec.getLsbD_append]
  simp

/-- The immediate that goes with each opcode. -/
theorem imm32_eq (w : Word) :
    imm32 w =
      if opcode w = opStore then immS w
      else if opcode w = opBranch then immB w
      else if opcode w = opLui ∨ opcode w = opAuipc then immU w
      else if opcode w = opJal then immJ w
      else immI w := by
  rw [imm32, imm_S, imm_B, imm_J, imm_I]
  rfl

theorem funct3_of_long (h : cOp w = 3#2) : Decoder.funct3 w = Rv32.funct3 w := by
  simp [Decoder.funct3, h, Rv32.funct3]

theorem branchmask_of_decode (hc : cOp w = 3#2) (ho : opcode w = opBranch) {op : BranchOp}
    (h : decodeBranch w = some op) : branchmask w = mask op := by
  simp only [branchmask, hc, ho, funct3_of_long hc, funcBeq, funcBne, funcBlt, funcBge, funcBltu,
    funcBgeu]
  unfold decodeBranch at h
  repeat' split at h
  all_goals cases h <;> simp [mask, *]

theorem loadBusOp_of_decode {op : LoadOp} (h : decodeLoad w = some op) :
    Cpu.State.loadBusOp (Rv32.funct3 w) = loadOp op := by
  simp only [Cpu.State.loadBusOp, funcLb, funcLh, funcLw, funcLbu, funcLt]
  unfold decodeLoad at h
  repeat' split at h
  all_goals cases h <;> simp [loadOp, *]

theorem storeBusOp_of_decode {op : StoreOp} (h : decodeStore w = some op) :
    Cpu.State.storeBusOp (Rv32.funct3 w) = storeOp op := by
  simp only [Cpu.State.storeBusOp, funcSb, funcSh, funcSt]
  unfold decodeStore at h
  repeat' split at h
  all_goals cases h <;> simp [storeOp, *]

theorem aluOperOpimm_of_decode (hc : cOp w = 3#2) {op : Op} (h : decodeOpImm w = some op) :
    aluOperOpimm w = aluOp op := by
  simp only [aluOperOpimm, funct3_of_long hc, show Decoder.funct7 w = Rv32.funct7 w from rfl,
    funcAddSub, funcSll, funcSlt, funcSltu, funcXor, funcSrlSra, funcOr]
  unfold decodeOpImm at h
  repeat' split at h
  all_goals cases h <;> simp [aluOp, *]

theorem aluOperOp_of_decode (hc : cOp w = 3#2) {op : Op} (h : decodeOp w = some op) :
    aluOperOp w = aluOp op := by
  simp only [aluOperOp, funct3_of_long hc, show Decoder.funct7 w = Rv32.funct7 w from rfl,
    funcAddSub, funcSll, funcSlt, funcSltu, funcXor, funcSrlSra, funcOr, func7Alt, func7MulDiv]
  unfold decodeOp at h
  repeat' split at h
  all_goals cases h <;> simp [aluOp, *]

attribute [local simp] opOp opJalr opLoad opOpimm opSystem opMiscmem opStore opBranch opLui opAuipc
  opJal control32

theorem agrees_lui (h : major w = 0b0110111#7) :
    Agrees D w 4#32 (.lui (rd w) (immU w)) := by
  obtain ⟨hc, ho⟩ := fields_of_major h
  have hd := decode_of_long hc
  refine agrees_of_imm ⟨?_, ?_⟩ ?_ ?_ fun a _ => ?_ <;> simp [hd, ho, exec, imm32_eq, Rv32.rd]

theorem agrees_auipc (h : major w = 0b0010111#7) :
    Agrees D w 4#32 (.auipc (rd w) (immU w)) := by
  obtain ⟨hc, ho⟩ := fields_of_major h
  have hd := decode_of_long hc
  refine agrees_of_alu .add ⟨?_, ?_⟩ ?_ ?_ fun a _ => ?_ <;>
    simp [hd, ho, exec, aluOp, Op.eval, dataS1, dataS2, imm32_eq, Rv32.rd]

theorem agrees_jal (h : major w = 0b1101111#7) :
    Agrees D w 4#32 (.jal (rd w) (immJ w)) := by
  obtain ⟨hc, ho⟩ := fields_of_major h
  have hd := decode_of_long hc
  refine agrees_of_jump ?_ ?_ ?_ fun a _ he => ?_
  case refine_4 =>
    have ht := and_not_one (even_add he (immJ_even w))
    simp only [exec]
    rw [← ht]
    simp [hd, dataS1, dataS2, ho, imm32_eq, Rv32.rd]
  all_goals simp [hd, ho]

theorem agrees_jalr (h : major w = 0b1100111#7) :
    Agrees D w 4#32 (.jalr (rd w) (rs1 w) (immI w)) := by
  obtain ⟨hc, ho⟩ := fields_of_major h
  have hd := decode_of_long hc
  refine agrees_of_jump ?_ ?_ ?_ fun a _ _ => ?_
  case refine_4 =>
    simp only [hd, dataS1, dataS2, exec]
    simp [ho, imm32_eq, Rv32.rd, Rv32.rs1]
  all_goals simp [hd, ho]

theorem agrees_branch (h : major w = 0b1100011#7) {op : BranchOp} (hop : decodeBranch w = some op) :
    Agrees D w 4#32 (.branch op (rs1 w) (rs2 w) (immB w)) := by
  obtain ⟨hc, ho⟩ := fields_of_major h
  have hd := decode_of_long hc
  have hm := branchmask_of_decode hc ho hop
  refine agrees_of_branch ?_ ?_ ?_ ?_ ?_ ?_ ?_ ?_ (immB_even w) <;>
    simp [hd, ho, imm32_eq, hm, Rv32.rs1, Rv32.rs2]

theorem agrees_load (h : major w = 0b0000011#7) {op : LoadOp} (hop : decodeLoad w = some op) :
    Agrees D w 4#32 (.load op (rd w) (rs1 w) (immI w)) := by
  obtain ⟨hc, ho⟩ := fields_of_major h
  have hd := decode_of_long hc
  have hf := loadBusOp_of_decode hop
  refine agrees_of_load ?_ ?_ ?_ ?_ ?_ ?_ ?_ ?_ <;> simp [hd, ho, imm32_eq, hf, Rv32.rs1, Rv32.rd]

theorem agrees_store (h : major w = 0b0100011#7) {op : StoreOp} (hop : decodeStore w = some op) :
    Agrees D w 4#32 (.store op (rs1 w) (rs2 w) (immS w)) := by
  obtain ⟨hc, ho⟩ := fields_of_major h
  have hd := decode_of_long hc
  have hf := storeBusOp_of_decode hop
  refine agrees_of_store ?_ ?_ ?_ ?_ ?_ ?_ ?_ ?_ <;> simp [hd, ho, imm32_eq, hf, Rv32.rs1, Rv32.rs2]

/-- The decoder hands on the whole immediate; a shift looks at its amount. -/
theorem eval_immOpImm (op : Op) (a : Word) :
    op.eval a (immOpImm w op) = op.eval a (immI w) := by
  have hlow : ((w.extractLsb' 20 5).setWidth 32).extractLsb' 0 5 = (immI w).extractLsb' 0 5 := by
    apply BitVec.eq_of_getLsbD_eq
    intro i hi
    have h₁ : i < 12 := by omega
    have h₂ : i < 32 := by omega
    simp only [immI, BitVec.getLsbD_extractLsb', BitVec.getLsbD_setWidth,
      BitVec.getLsbD_signExtend, Nat.zero_add, hi, h₁, h₂, decide_true, Bool.true_and, if_true]
  cases op <;> simp [immOpImm, Op.eval, hlow]

theorem agrees_opImm (h : major w = 0b0010011#7) {op : Op} (hop : decodeOpImm w = some op) :
    Agrees D w 4#32 (.opImm op (rd w) (rs1 w) (immOpImm w op)) := by
  obtain ⟨hc, ho⟩ := fields_of_major h
  have hd := decode_of_long hc
  have hf := aluOperOpimm_of_decode hc hop
  refine agrees_of_alu op ⟨?_, ?_⟩ ?_ ?_ fun a _ => ?_ <;>
    simp [hd, ho, imm32_eq, hf, exec, dataS1, dataS2, eval_immOpImm, Rv32.rd, Rv32.rs1]

theorem agrees_op (h : major w = 0b0110011#7) {op : Op} (hop : decodeOp w = some op) :
    Agrees D w 4#32 (.op op (rd w) (rs1 w) (rs2 w)) := by
  obtain ⟨hc, ho⟩ := fields_of_major h
  have hd := decode_of_long hc
  have hf := aluOperOp_of_decode hc hop
  refine agrees_of_alu op ⟨?_, ?_⟩ ?_ ?_ fun a _ => ?_ <;>
    simp [hd, ho, hf, exec, dataS1, dataS2, Rv32.rd, Rv32.rs1, Rv32.rs2]

theorem agrees_fence (h : major w = 0b0001111#7) : Agrees D w 4#32 .fence := by
  obtain ⟨hc, ho⟩ := fields_of_major h
  have hd := decode_of_long hc
  refine agrees_of_imm ⟨?_, ?_⟩ ?_ ?_ fun a _ => ?_ <;> simp [hd, ho, exec]

/-- Only words whose low bits are both set encode a base instruction. -/
theorem long_of_decode {i : Instr} (h : Rv32.decode w = some i) : w.extractLsb' 0 2 = 3#2 := by
  have hcase : ∀ k : BitVec 7, k.extractLsb' 0 2 = 3#2 → major w = k → w.extractLsb' 0 2 = 3#2 :=
    fun k hk hm => (fields_of_major hm).1.trans hk
  by_contra hne
  have hno : ∀ k : BitVec 7, k.extractLsb' 0 2 = 3#2 → major w ≠ k :=
    fun k hk hm => hne (hcase k hk hm)
  simp only [Rv32.decode, hno _ (by decide : (0b0110111#7).extractLsb' 0 2 = 3#2),
    hno _ (by decide : (0b0010111#7).extractLsb' 0 2 = 3#2),
    hno _ (by decide : (0b1101111#7).extractLsb' 0 2 = 3#2),
    hno _ (by decide : (0b1100111#7).extractLsb' 0 2 = 3#2),
    hno _ (by decide : (0b1100011#7).extractLsb' 0 2 = 3#2),
    hno _ (by decide : (0b0000011#7).extractLsb' 0 2 = 3#2),
    hno _ (by decide : (0b0100011#7).extractLsb' 0 2 = 3#2),
    hno _ (by decide : (0b0010011#7).extractLsb' 0 2 = 3#2),
    hno _ (by decide : (0b0110011#7).extractLsb' 0 2 = 3#2),
    hno _ (by decide : (0b0001111#7).extractLsb' 0 2 = 3#2), if_false] at h
  cases h

/-- Every base instruction. -/
theorem agrees_of_decode {i : Instr} (h : Rv32.decode w = some i) : Agrees D w 4#32 i := by
  unfold Rv32.decode at h
  by_cases h₁ : major w = 0b0110111#7
  · obtain rfl := Option.some.inj ((if_pos h₁).symm.trans h)
    exact agrees_lui h₁
  rw [if_neg h₁] at h
  by_cases h₂ : major w = 0b0010111#7
  · obtain rfl := Option.some.inj ((if_pos h₂).symm.trans h)
    exact agrees_auipc h₂
  rw [if_neg h₂] at h
  by_cases h₃ : major w = 0b1101111#7
  · obtain rfl := Option.some.inj ((if_pos h₃).symm.trans h)
    exact agrees_jal h₃
  rw [if_neg h₃] at h
  by_cases h₄ : major w = 0b1100111#7
  · rw [if_pos h₄] at h
    by_cases hf : Rv32.funct3 w = 0b000#3
    · obtain rfl := Option.some.inj ((if_pos hf).symm.trans h)
      exact agrees_jalr h₄
    · exact absurd ((if_neg hf).symm.trans h) (by simp)
  rw [if_neg h₄] at h
  by_cases h₅ : major w = 0b1100011#7
  · obtain ⟨op, hop, rfl⟩ := Option.map_eq_some_iff.mp ((if_pos h₅).symm.trans h)
    exact agrees_branch h₅ hop
  rw [if_neg h₅] at h
  by_cases h₆ : major w = 0b0000011#7
  · obtain ⟨op, hop, rfl⟩ := Option.map_eq_some_iff.mp ((if_pos h₆).symm.trans h)
    exact agrees_load h₆ hop
  rw [if_neg h₆] at h
  by_cases h₇ : major w = 0b0100011#7
  · obtain ⟨op, hop, rfl⟩ := Option.map_eq_some_iff.mp ((if_pos h₇).symm.trans h)
    exact agrees_store h₇ hop
  rw [if_neg h₇] at h
  by_cases h₈ : major w = 0b0010011#7
  · obtain ⟨op, hop, rfl⟩ := Option.map_eq_some_iff.mp ((if_pos h₈).symm.trans h)
    exact agrees_opImm h₈ hop
  rw [if_neg h₈] at h
  by_cases h₉ : major w = 0b0110011#7
  · obtain ⟨op, hop, rfl⟩ := Option.map_eq_some_iff.mp ((if_pos h₉).symm.trans h)
    exact agrees_op h₉ hop
  rw [if_neg h₉] at h
  by_cases h₁₀ : major w = 0b0001111#7
  · rw [if_pos h₁₀] at h
    by_cases hf : Rv32.funct3 w = 0b000#3
    · obtain rfl := Option.some.inj ((if_pos hf).symm.trans h)
      exact agrees_fence h₁₀
    · exact absurd ((if_neg hf).symm.trans h) (by simp)
  · exact absurd ((if_neg h₁₀).symm.trans h) (by simp)

end encodings

end TagSoc.Agreement
