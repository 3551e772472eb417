import TagSoc.Rv32

/-!
# The RV32C specification

Every 16-bit parcel of the compressed extension for integer code, as the
32-bit instruction it abbreviates. Reserved encodings, the floating-point
loads and stores and `c.ebreak` have no expansion here. The hints do: they
expand to the instruction that is written to `x0`, or that changes nothing.
-/
namespace TagSoc.Rv32c
open Rv32

section
variable (p : BitVec 16)

def op : BitVec 2 := p.extractLsb' 0 2
def funct3 : BitVec 3 := p.extractLsb' 13 3
def rdFull : Reg := p.extractLsb' 7 5
def rs2Full : Reg := p.extractLsb' 2 5

/-- The three-bit fields name the registers `x8` to `x15`. -/
def rdShort : Reg := 8#5 + (p.extractLsb' 2 3).setWidth 5
def rs1Short : Reg := 8#5 + (p.extractLsb' 7 3).setWidth 5

/-! ## Immediates -/

def immAddi4spn : Word :=
  (p.extractLsb' 7 4 ++ p.extractLsb' 11 2 ++ p.extractLsb' 5 1 ++ p.extractLsb' 6 1 ++
    0#2).setWidth 32

def immLw : Word :=
  (p.extractLsb' 5 1 ++ p.extractLsb' 10 3 ++ p.extractLsb' 6 1 ++ 0#2).setWidth 32

/-- The six-bit immediate of `c.addi`, `c.li` and `c.andi`. -/
def imm6 : Word := (p.extractLsb' 12 1 ++ p.extractLsb' 2 5).signExtend 32

def immJ : Word :=
  (p.extractLsb' 12 1 ++ p.extractLsb' 8 1 ++ p.extractLsb' 9 2 ++ p.extractLsb' 6 1 ++
    p.extractLsb' 7 1 ++ p.extractLsb' 2 1 ++ p.extractLsb' 11 1 ++ p.extractLsb' 3 3 ++
    0#1).signExtend 32

def immAddi16sp : Word :=
  (p.extractLsb' 12 1 ++ p.extractLsb' 3 2 ++ p.extractLsb' 5 1 ++ p.extractLsb' 2 1 ++
    p.extractLsb' 6 1 ++ 0#4).signExtend 32

def immLui : Word := (p.extractLsb' 12 1 ++ p.extractLsb' 2 5 ++ 0#12).signExtend 32

def immB : Word :=
  (p.extractLsb' 12 1 ++ p.extractLsb' 5 2 ++ p.extractLsb' 2 1 ++ p.extractLsb' 10 2 ++
    p.extractLsb' 3 2 ++ 0#1).signExtend 32

def shamt : Word := (p.extractLsb' 2 5).setWidth 32

def immLwsp : Word :=
  (p.extractLsb' 2 2 ++ p.extractLsb' 12 1 ++ p.extractLsb' 4 3 ++ 0#2).setWidth 32

def immSwsp : Word := (p.extractLsb' 7 2 ++ p.extractLsb' 9 4 ++ 0#2).setWidth 32

/-! ## Quadrants -/

def expand0 : Option Instr :=
  if funct3 p = 0b000#3 then
    -- a zero immediate is reserved, the all-zero parcel is illegal by definition
    if p.extractLsb' 5 8 = 0#8 then none
    else some (.opImm .add (rdShort p) 2#5 (immAddi4spn p))
  else if funct3 p = 0b010#3 then some (.load .lw (rdShort p) (rs1Short p) (immLw p))
  else if funct3 p = 0b110#3 then some (.store .sw (rs1Short p) (rdShort p) (immLw p))
  else none

/-- `c.srli`, `c.srai`, `c.andi` and the register-register block. On RV32 a
shift amount with bit 5 set and the word forms are reserved. -/
def expandAlu : Option Instr :=
  if p.extractLsb' 10 2 = 0b00#2 then
    if p.extractLsb' 12 1 = 1#1 then none
    else some (.opImm .srl (rs1Short p) (rs1Short p) (shamt p))
  else if p.extractLsb' 10 2 = 0b01#2 then
    if p.extractLsb' 12 1 = 1#1 then none
    else some (.opImm .sra (rs1Short p) (rs1Short p) (shamt p))
  else if p.extractLsb' 10 2 = 0b10#2 then
    some (.opImm .and (rs1Short p) (rs1Short p) (imm6 p))
  else if p.extractLsb' 12 1 = 1#1 then none
  else if p.extractLsb' 5 2 = 0b00#2 then some (.op .sub (rs1Short p) (rs1Short p) (rdShort p))
  else if p.extractLsb' 5 2 = 0b01#2 then some (.op .xor (rs1Short p) (rs1Short p) (rdShort p))
  else if p.extractLsb' 5 2 = 0b10#2 then some (.op .or (rs1Short p) (rs1Short p) (rdShort p))
  else some (.op .and (rs1Short p) (rs1Short p) (rdShort p))

def expand1 : Option Instr :=
  if funct3 p = 0b000#3 then some (.opImm .add (rdFull p) (rdFull p) (imm6 p))
  else if funct3 p = 0b001#3 then some (.jal 1#5 (immJ p))
  else if funct3 p = 0b010#3 then some (.opImm .add (rdFull p) 0#5 (imm6 p))
  else if funct3 p = 0b011#3 then
    if p.extractLsb' 12 1 ++ p.extractLsb' 2 5 = 0#6 then none
    else if rdFull p = 2#5 then some (.opImm .add 2#5 2#5 (immAddi16sp p))
    else some (.lui (rdFull p) (immLui p))
  else if funct3 p = 0b100#3 then expandAlu p
  else if funct3 p = 0b101#3 then some (.jal 0#5 (immJ p))
  else if funct3 p = 0b110#3 then some (.branch .beq (rs1Short p) 0#5 (immB p))
  else some (.branch .bne (rs1Short p) 0#5 (immB p))

/-- `c.jr`, `c.mv`, `c.jalr` and `c.add`. -/
def expandJr : Option Instr :=
  if p.extractLsb' 12 1 = 0#1 then
    if rs2Full p = 0#5 then
      if rdFull p = 0#5 then none else some (.jalr 0#5 (rdFull p) 0#32)
    else some (.op .add (rdFull p) 0#5 (rs2Full p))
  else if rs2Full p = 0#5 then
    if rdFull p = 0#5 then none else some (.jalr 1#5 (rdFull p) 0#32)
  else some (.op .add (rdFull p) (rdFull p) (rs2Full p))

def expand2 : Option Instr :=
  if funct3 p = 0b000#3 then
    if p.extractLsb' 12 1 = 1#1 then none
    else some (.opImm .sll (rdFull p) (rdFull p) (shamt p))
  else if funct3 p = 0b010#3 then
    if rdFull p = 0#5 then none else some (.load .lw (rdFull p) 2#5 (immLwsp p))
  else if funct3 p = 0b100#3 then expandJr p
  else if funct3 p = 0b110#3 then some (.store .sw 2#5 (rs2Full p) (immSwsp p))
  else none

def expand : Option Instr :=
  if op p = 0b00#2 then expand0 p
  else if op p = 0b01#2 then expand1 p
  else if op p = 0b10#2 then expand2 p
  else none

end

end TagSoc.Rv32c
