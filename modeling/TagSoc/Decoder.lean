import TagSoc.Alu

/-!
# The instruction decoder

`decoder.v`: a combinational function of the 32-bit instruction register. Two
independent blocks read the same bits: one forms the immediate and the branch
mask, the other the register numbers and the control signals. A compressed
parcel sits in the lower half; the upper half is then whatever was fetched with
it. `TRAP_ON_ILLEGAL` is defined, so reserved encodings go to `EXEC_TO_TRAP`.
The clock and enable inputs of the source module are not connected to anything.
-/
namespace TagSoc.Decoder
open Alu

/-! ## `cpudefs.vh` -/

inductive MuxAluDat1 where
  | regval1 | pc
deriving Repr, DecidableEq

inductive MuxAluDat2 where
  | regval2 | imm | instlen32 | instlen16
deriving Repr, DecidableEq

inductive MuxRegInput where
  | alu | bus | imm | msr
deriving Repr, DecidableEq

inductive ExecStage where
  | toFetch | toLoad | toStore | toBranch | toSystem | toTrap | toDead
deriving Repr, DecidableEq

def illegalInstrState : ExecStage := .toTrap

/-! ## `riscvdefs.vh` -/

def opOp : BitVec 5 := 0b01100#5
def opJalr : BitVec 5 := 0b11001#5
def opLoad : BitVec 5 := 0b00000#5
def opOpimm : BitVec 5 := 0b00100#5
def opSystem : BitVec 5 := 0b11100#5
def opMiscmem : BitVec 5 := 0b00011#5
def opStore : BitVec 5 := 0b01000#5
def opBranch : BitVec 5 := 0b11000#5
def opLui : BitVec 5 := 0b01101#5
def opAuipc : BitVec 5 := 0b00101#5
def opJal : BitVec 5 := 0b11011#5

def cOpcC0 : BitVec 2 := 0b00#2
def cOpcC1 : BitVec 2 := 0b01#2

def c0F3Addi4spn : BitVec 3 := 0b000#3
def c0F3Lw : BitVec 3 := 0b010#3
def c0F3Sw : BitVec 3 := 0b110#3

def c1F3NopAddi : BitVec 3 := 0b000#3
def c1F3Jal : BitVec 3 := 0b001#3
def c1F3J : BitVec 3 := 0b101#3
def c1F3Beq : BitVec 3 := 0b110#3
def c1F3Bne : BitVec 3 := 0b111#3
def c1F3Li : BitVec 3 := 0b010#3
def c1F3LuiAddi16sp : BitVec 3 := 0b011#3

def c2F3Slli : BitVec 3 := 0b000#3
def c2F3Lwsp : BitVec 3 := 0b010#3
def c2F3Jr : BitVec 3 := 0b100#3
def c2F3Swsp : BitVec 3 := 0b110#3

def funcBeq : BitVec 3 := 0b000#3
def funcBne : BitVec 3 := 0b001#3
def funcBlt : BitVec 3 := 0b100#3
def funcBge : BitVec 3 := 0b101#3
def funcBltu : BitVec 3 := 0b110#3
def funcBgeu : BitVec 3 := 0b111#3

def funcLb : BitVec 3 := 0b000#3
def funcLh : BitVec 3 := 0b001#3
def funcLw : BitVec 3 := 0b010#3
def funcLbu : BitVec 3 := 0b100#3
def funcLt : BitVec 3 := 0b111#3

def funcSb : BitVec 3 := 0b000#3
def funcSh : BitVec 3 := 0b001#3
def funcSt : BitVec 3 := 0b111#3

def funcAddSub : BitVec 3 := 0b000#3
def funcSll : BitVec 3 := 0b001#3
def funcSlt : BitVec 3 := 0b010#3
def funcSltu : BitVec 3 := 0b011#3
def funcXor : BitVec 3 := 0b100#3
def funcSrlSra : BitVec 3 := 0b101#3
def funcOr : BitVec 3 := 0b110#3

def funcEcallEbreak : BitVec 3 := 0b000#3
def funcCsrrw : BitVec 3 := 0b001#3
def funcCsrrs : BitVec 3 := 0b010#3
def funcCsrrc : BitVec 3 := 0b011#3
def funcCsrrwi : BitVec 3 := 0b101#3
def funcCsrrsi : BitVec 3 := 0b110#3
def funcCsrrci : BitVec 3 := 0b111#3

def func7MulDiv : BitVec 7 := 0b0000001#7
def func7Alt : BitVec 7 := 0b0100000#7

def systemEcall : BitVec 12 := 0b000000000000#12
def systemEbreak : BitVec 12 := 0b000000000001#12
def systemMret : BitVec 12 := 0b001100000010#12
def systemWfi : BitVec 12 := 0b000100000101#12

/-! ## Fields -/

section
variable (instr : BitVec 32)

def opcode : BitVec 5 := instr.extractLsb' 2 5
def cOp : BitVec 2 := instr.extractLsb' 0 2
def funct7 : BitVec 7 := instr.extractLsb' 25 7
def funct3 : BitVec 3 := if cOp instr = 0b11#2 then instr.extractLsb' 12 3 else funcLw
def cFunct3 : BitVec 3 := instr.extractLsb' 13 3

/-! ## Immediate and branch mask -/

def imm32 : BitVec 32 :=
  if opcode instr = opStore then
    BitVec.replicate 20 (instr.extractLsb' 31 1) ++ instr.extractLsb' 25 7 ++
      instr.extractLsb' 8 4 ++ instr.extractLsb' 7 1
  else if opcode instr = opBranch then
    BitVec.replicate 19 (instr.extractLsb' 31 1) ++ instr.extractLsb' 31 1 ++
      instr.extractLsb' 7 1 ++ instr.extractLsb' 25 6 ++ instr.extractLsb' 8 4 ++ 0#1
  else if opcode instr = opLui ∨ opcode instr = opAuipc then
    instr.extractLsb' 12 20 ++ 0#12
  else if opcode instr = opJal then
    BitVec.replicate 11 (instr.extractLsb' 31 1) ++ instr.extractLsb' 31 1 ++
      instr.extractLsb' 12 8 ++ instr.extractLsb' 20 1 ++ instr.extractLsb' 25 6 ++
      instr.extractLsb' 21 4 ++ 0#1
  else BitVec.replicate 20 (instr.extractLsb' 31 1) ++ instr.extractLsb' 20 12

def immC2 : BitVec 32 :=
  if cFunct3 instr = c2F3Lwsp then
    0#24 ++ instr.extractLsb' 2 2 ++ instr.extractLsb' 12 1 ++ instr.extractLsb' 4 3 ++ 0#2
  else if cFunct3 instr = c2F3Swsp then
    0#24 ++ instr.extractLsb' 7 2 ++ instr.extractLsb' 9 4 ++ 0#2
  else if cFunct3 instr = c2F3Slli then 0#27 ++ instr.extractLsb' 2 5
  else 0#32

def immC1 : BitVec 32 :=
  if cFunct3 instr ≠ 0b100#3 then
    if cFunct3 instr = c1F3NopAddi then
      BitVec.replicate 26 (instr.extractLsb' 12 1) ++ instr.extractLsb' 12 1 ++
        instr.extractLsb' 2 5
    else if cFunct3 instr = c1F3J ∨ cFunct3 instr = c1F3Jal then
      BitVec.replicate 20 (instr.extractLsb' 12 1) ++ instr.extractLsb' 12 1 ++
        instr.extractLsb' 8 1 ++ instr.extractLsb' 9 2 ++ instr.extractLsb' 6 1 ++
        instr.extractLsb' 7 1 ++ instr.extractLsb' 2 1 ++ instr.extractLsb' 11 1 ++
        instr.extractLsb' 3 3 ++ 0#1
    else if cFunct3 instr = c1F3Li then
      BitVec.replicate 26 (instr.extractLsb' 12 1) ++ instr.extractLsb' 12 1 ++
        instr.extractLsb' 2 5
    else if cFunct3 instr = c1F3LuiAddi16sp then
      if instr.extractLsb' 7 5 = 2#5 then
        BitVec.replicate 22 (instr.extractLsb' 12 1) ++ instr.extractLsb' 12 1 ++
          instr.extractLsb' 3 2 ++ instr.extractLsb' 5 1 ++ instr.extractLsb' 2 1 ++
          instr.extractLsb' 6 1 ++ 0#4
      else
        BitVec.replicate 14 (instr.extractLsb' 12 1) ++ instr.extractLsb' 12 1 ++
          instr.extractLsb' 2 5 ++ 0#12
    else if cFunct3 instr = c1F3Beq ∨ cFunct3 instr = c1F3Bne then
      BitVec.replicate 23 (instr.extractLsb' 12 1) ++ instr.extractLsb' 12 1 ++
        instr.extractLsb' 5 2 ++ instr.extractLsb' 2 1 ++ instr.extractLsb' 10 2 ++
        instr.extractLsb' 3 2 ++ 0#1
    else 0#32
  else if instr.getLsbD 11 then
    BitVec.replicate 26 (instr.extractLsb' 12 1) ++ instr.extractLsb' 12 1 ++
      instr.extractLsb' 2 5
  else 0#26 ++ instr.extractLsb' 12 1 ++ instr.extractLsb' 2 5

def immC0 : BitVec 32 :=
  if cFunct3 instr = c0F3Addi4spn then
    0#22 ++ instr.extractLsb' 7 4 ++ instr.extractLsb' 11 2 ++ instr.extractLsb' 5 1 ++
      instr.extractLsb' 6 1 ++ 0#2
  else
    0#25 ++ instr.extractLsb' 5 1 ++ instr.extractLsb' 10 3 ++ instr.extractLsb' 6 1 ++ 0#2

def imm : BitVec 32 :=
  if cOp instr = 0b11#2 then imm32 instr
  else if cOp instr = 0b10#2 then immC2 instr
  else if cOp instr = 0b01#2 then immC1 instr
  else immC0 instr

/-- Bits 0 to 5 ask for a branch on eq, ne, lt, ge, ltu and geu. -/
def branchmask : BitVec 6 :=
  if cOp instr = 0b11#2 then
    if opcode instr ≠ opBranch then 0#6
    else if funct3 instr = funcBeq then 0b000001#6
    else if funct3 instr = funcBne then 0b000010#6
    else if funct3 instr = funcBlt then 0b000100#6
    else if funct3 instr = funcBge then 0b001000#6
    else if funct3 instr = funcBltu then 0b010000#6
    else if funct3 instr = funcBgeu then 0b100000#6
    else 0#6
  else
    0#4 ++ BitVec.ofBool (cFunct3 instr == c1F3Bne) ++ BitVec.ofBool (cFunct3 instr == c1F3Beq)

/-! ## Register numbers and control -/

/-- The outputs of the second block, with the values it assigns first. -/
structure Control where
  rs1 : BitVec 5
  rs2 : BitVec 5
  rd : BitVec 5
  writebackFromImm : Bool := false
  writebackFromAlu : Bool := false
  nextPcFromAlu : Bool := false
  muxRegInputSel : MuxRegInput := .alu
  execNextStage : ExecStage := .toFetch
  muxAluS2Sel : MuxAluDat2 := .regval2
  muxAluS1Sel : MuxAluDat1 := .regval1
  aluOper : AluOp := .add
  writeReg : Bool := false
deriving Repr, DecidableEq

def aluOperOp : AluOp :=
  if funct3 instr = funcAddSub then
    if funct7 instr = func7Alt then .sub else if funct7 instr = func7MulDiv then .mul else .add
  else if funct3 instr = funcSll then if funct7 instr = func7MulDiv then .mulh else .sll
  else if funct3 instr = funcSlt then if funct7 instr = func7MulDiv then .mulhsu else .slt
  else if funct3 instr = funcSltu then if funct7 instr = func7MulDiv then .mulhu else .sltu
  else if funct3 instr = funcXor then if funct7 instr = func7MulDiv then .div else .xor
  else if funct3 instr = funcSrlSra then
    if funct7 instr = func7Alt then .sra else if funct7 instr = func7MulDiv then .divu else .srl
  else if funct3 instr = funcOr then if funct7 instr = func7MulDiv then .rem else .or
  else if funct7 instr = func7MulDiv then .remu else .and

def aluOperOpimm : AluOp :=
  if funct3 instr = funcAddSub then .add
  else if funct3 instr = funcSll then .sll
  else if funct3 instr = funcSlt then .slt
  else if funct3 instr = funcSltu then .sltu
  else if funct3 instr = funcXor then .xor
  else if funct3 instr = funcSrlSra then if (funct7 instr).getLsbD 5 then .sra else .srl
  else if funct3 instr = funcOr then .or
  else .and

/-- 32-bit instructions. -/
def control32 : Control :=
  let base : Control :=
    { rs1 := instr.extractLsb' 15 5, rs2 := instr.extractLsb' 20 5, rd := instr.extractLsb' 7 5 }
  if opcode instr = opOp then
    { base with aluOper := aluOperOp instr, writebackFromAlu := true }
  else if opcode instr = opOpimm then
    { base with muxAluS2Sel := .imm, aluOper := aluOperOpimm instr, writebackFromAlu := true }
  else if opcode instr = opLoad then
    { base with muxAluS2Sel := .imm, execNextStage := .toLoad }
  else if opcode instr = opStore then
    { base with muxAluS2Sel := .imm, execNextStage := .toStore }
  else if opcode instr = opJal ∨ opcode instr = opJalr then
    { base with
      writeReg := true
      muxAluS1Sel := if (opcode instr).getLsbD 1 then .pc else .regval1
      muxAluS2Sel := .imm
      nextPcFromAlu := true }
  else if opcode instr = opBranch then { base with execNextStage := .toBranch }
  else if opcode instr = opAuipc then
    { base with muxAluS1Sel := .pc, muxAluS2Sel := .imm, writebackFromAlu := true }
  else if opcode instr = opLui then
    { base with writebackFromImm := true, muxRegInputSel := .imm }
  else if opcode instr = opMiscmem then base
  else if opcode instr = opSystem then { base with execNextStage := .toSystem }
  else { base with execNextStage := .toTrap }

/-- The three-bit register fields name `x8` to `x15`. -/
def creg (lo : ℕ) : BitVec 5 := 0b01#2 ++ instr.extractLsb' lo 3

def controlC0 : Control :=
  let base : Control :=
    { rs1 := creg instr 7, rs2 := creg instr 2, rd := creg instr 2, muxAluS2Sel := .imm }
  if cFunct3 instr = c0F3Addi4spn then
    { base with
      rs1 := 2#5
      writebackFromAlu := true
      execNextStage := if instr.extractLsb' 5 8 = 0#8 then illegalInstrState else .toFetch }
  else if cFunct3 instr = c0F3Lw then { base with execNextStage := .toLoad }
  else if cFunct3 instr = c0F3Sw then { base with execNextStage := .toStore }
  else { base with execNextStage := illegalInstrState }

/-- Quadrant 1 apart from the register-register block. -/
def controlC1 : Control :=
  let base : Control :=
    { rs1 := instr.extractLsb' 7 5, rs2 := instr.extractLsb' 2 5, rd := instr.extractLsb' 7 5
      muxAluS2Sel := .imm }
  if cFunct3 instr = c1F3NopAddi then { base with writebackFromAlu := true }
  else if cFunct3 instr = c1F3Jal ∨ cFunct3 instr = c1F3J then
    { base with
      rd := 1#5
      writeReg := if cFunct3 instr = c1F3J then false else true
      muxAluS1Sel := .pc
      nextPcFromAlu := true }
  else if cFunct3 instr = c1F3Li then { base with writebackFromImm := true, muxRegInputSel := .imm }
  else if cFunct3 instr = c1F3LuiAddi16sp then
    let stage : ExecStage :=
      if instr.extractLsb' 12 1 ++ instr.extractLsb' 2 5 = 0#6 then illegalInstrState else .toFetch
    if instr.extractLsb' 7 5 = 2#5 then
      { base with writebackFromAlu := true, execNextStage := stage }
    else
      { base with writebackFromImm := true, muxRegInputSel := .imm, execNextStage := stage }
  else if cFunct3 instr = c1F3Beq ∨ cFunct3 instr = c1F3Bne then
    { base with
      rs1 := creg instr 7, rs2 := 0#5, muxAluS2Sel := .regval2, execNextStage := .toBranch }
  else { base with execNextStage := illegalInstrState }

/-- Shifts, `andi` and the register-register block of quadrant 1. -/
def controlC1Alu : Control :=
  let base : Control :=
    { rs1 := creg instr 7, rs2 := creg instr 2, rd := creg instr 7
      muxAluS2Sel := .imm, writebackFromAlu := true }
  let shiftStage : ExecStage := if instr.getLsbD 12 then illegalInstrState else .toFetch
  if instr.extractLsb' 10 2 = 0b00#2 then
    { base with aluOper := .srl, execNextStage := shiftStage }
  else if instr.extractLsb' 10 2 = 0b01#2 then
    { base with aluOper := .sra, execNextStage := shiftStage }
  else if instr.extractLsb' 10 2 = 0b10#2 then { base with aluOper := .and }
  else
    { base with
      muxAluS2Sel := .regval2
      aluOper :=
        if instr.extractLsb' 5 2 = 0b00#2 then .sub
        else if instr.extractLsb' 5 2 = 0b01#2 then .xor
        else if instr.extractLsb' 5 2 = 0b10#2 then .or
        else .and }

/-- `C.JR`, `C.MV`, `C.EBREAK`, `C.JALR` and `C.ADD`. -/
def controlC2Jr : Control :=
  let base : Control :=
    { rs1 := instr.extractLsb' 7 5, rs2 := instr.extractLsb' 2 5, rd := instr.extractLsb' 7 5 }
  if instr.getLsbD 12 then
    if instr.extractLsb' 7 5 ≠ 0#5 ∧ instr.extractLsb' 2 5 ≠ 0#5 then
      { base with writebackFromAlu := true }
    else if instr.extractLsb' 7 5 ≠ 0#5 ∧ instr.extractLsb' 2 5 = 0#5 then
      { base with writeReg := true, nextPcFromAlu := true, rd := 1#5 }
    else if instr.extractLsb' 7 5 = 0#5 ∧ instr.extractLsb' 2 5 = 0#5 then
      { base with execNextStage := illegalInstrState }
    else base
  else if instr.extractLsb' 2 5 = 0#5 then
    if instr.extractLsb' 7 5 = 0#5 then { base with execNextStage := illegalInstrState }
    else { base with nextPcFromAlu := true }
  else { base with rs1 := 0#5, writebackFromAlu := true }

def controlC2 : Control :=
  let base : Control :=
    { rs1 := instr.extractLsb' 7 5, rs2 := instr.extractLsb' 2 5, rd := instr.extractLsb' 7 5 }
  if cFunct3 instr = c2F3Slli then
    { base with
      muxAluS2Sel := .imm
      aluOper := .sll
      writebackFromAlu := true
      execNextStage := if instr.getLsbD 12 then illegalInstrState else .toFetch }
  else if cFunct3 instr = c2F3Lwsp then
    { base with
      rs1 := 2#5
      muxAluS2Sel := .imm
      execNextStage := if instr.extractLsb' 7 5 = 0#5 then illegalInstrState else .toLoad }
  else if cFunct3 instr = c2F3Jr then controlC2Jr instr
  else if cFunct3 instr = c2F3Swsp then
    { base with rs1 := 2#5, muxAluS2Sel := .imm, execNextStage := .toStore }
  else { base with execNextStage := illegalInstrState }

def control : Control :=
  if cOp instr = 0b11#2 then control32 instr
  else if cOp instr = cOpcC0 then controlC0 instr
  else if cOp instr = cOpcC1 then
    if cFunct3 instr ≠ 0b100#3 then controlC1 instr else controlC1Alu instr
  else controlC2 instr

end

/-- All outputs of the decoder. -/
structure Decoded extends Control where
  imm : BitVec 32
  branchmask : BitVec 6
  funct3 : BitVec 3
deriving Repr, DecidableEq

def decode (instr : BitVec 32) : Decoded :=
  { control instr with
    imm := imm instr
    branchmask := branchmask instr
    funct3 := funct3 instr }

/-! ## Combinations the processor relies on

A jump leaves its target in the ALU result, so it must be a one-clock addition
with no other use of that register; a write-back that does not come from the
ALU takes the immediate; an instruction with a memory, branch or system stage
must not ask for any write-back of its own. -/

def Control.legal (c : Control) : Bool :=
  match c.execNextStage with
  | .toFetch =>
      (!c.nextPcFromAlu && !c.writeReg && (!c.writebackFromImm || c.muxRegInputSel == .imm)) ||
        (c.nextPcFromAlu && c.aluOper == .add && !c.writebackFromAlu && !c.writebackFromImm)
  | .toTrap => !c.nextPcFromAlu && !c.writeReg
  | .toDead => false
  | _ => !c.nextPcFromAlu && !c.writebackFromImm && !c.writebackFromAlu && !c.writeReg &&
      c.aluOper == .add

theorem legal_ite {p : Prop} [Decidable p] {a b : Control} (ha : a.legal = true)
    (hb : b.legal = true) : (if p then a else b).legal = true := by
  split_ifs <;> assumption

section
variable (w : BitVec 32)

theorem control32_legal : (control32 w).legal = true := by
  unfold control32
  repeat' apply legal_ite
  all_goals rfl

theorem controlC0_legal : (controlC0 w).legal = true := by
  unfold controlC0
  repeat' apply legal_ite
  case ha => dsimp only [Control.legal]; split_ifs <;> rfl
  all_goals rfl

theorem controlC1_legal : (controlC1 w).legal = true := by
  unfold controlC1
  repeat' apply legal_ite
  all_goals first | rfl | (dsimp only [Control.legal]; split_ifs <;> rfl)

theorem controlC1Alu_legal : (controlC1Alu w).legal = true := by
  unfold controlC1Alu
  repeat' apply legal_ite
  all_goals first | rfl | (dsimp only [Control.legal]; split_ifs <;> rfl)

theorem controlC2Jr_legal : (controlC2Jr w).legal = true := by
  unfold controlC2Jr
  repeat' apply legal_ite
  all_goals rfl

theorem controlC2_legal : (controlC2 w).legal = true := by
  have hjr := controlC2Jr_legal w
  unfold controlC2
  repeat' apply legal_ite
  all_goals first | exact hjr | rfl | (dsimp only [Control.legal]; split_ifs <;> rfl)

theorem control_legal : (control w).legal = true := by
  unfold control
  refine legal_ite (control32_legal w) (legal_ite (controlC0_legal w) (legal_ite ?_ ?_))
  · exact legal_ite (controlC1_legal w) (controlC1Alu_legal w)
  · exact controlC2_legal w

end

end TagSoc.Decoder
