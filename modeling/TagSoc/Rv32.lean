import Mathlib.Logic.Function.Basic
import Mathlib.Data.BitVec

/-!
# The RV32I specification

The base integer instructions as the unprivileged ISA manual defines them,
without reference to any implementation. An instruction carries its immediate
as a full word, so that the same `exec` gives the meaning of a 32-bit encoding
and of a compressed one; the two differ only in the length `len` that `exec`
adds for the fall-through address and the link. Memory is a parameter: `exec`
asks for a load and a store of each size and nothing else.
-/
namespace TagSoc.Rv32

abbrev Word := BitVec 32
abbrev Reg := BitVec 5
abbrev Byte := BitVec 8

/-! ## Instructions -/

/-- The operations of `OP` and `OP-IMM`. -/
inductive Op where
  | add | sub | sll | slt | sltu | xor | srl | sra | or | and
deriving Repr, DecidableEq

inductive BranchOp where
  | beq | bne | blt | bge | bltu | bgeu
deriving Repr, DecidableEq

inductive LoadOp where
  | lb | lh | lw | lbu | lhu
deriving Repr, DecidableEq

inductive StoreOp where
  | sb | sh | sw
deriving Repr, DecidableEq

inductive Instr where
  | lui (rd : Reg) (imm : Word)
  | auipc (rd : Reg) (imm : Word)
  | jal (rd : Reg) (offset : Word)
  | jalr (rd rs1 : Reg) (offset : Word)
  | branch (op : BranchOp) (rs1 rs2 : Reg) (offset : Word)
  | load (op : LoadOp) (rd rs1 : Reg) (offset : Word)
  | store (op : StoreOp) (rs1 rs2 : Reg) (offset : Word)
  | opImm (op : Op) (rd rs1 : Reg) (imm : Word)
  | op (op : Op) (rd rs1 rs2 : Reg)
  | fence
deriving Repr, DecidableEq

/-! ## Encoding -/

section encoding
variable (w : Word)

def immI : Word := (w.extractLsb' 20 12).signExtend 32

/-- The operand of `OP-IMM`: of a shift the amount alone, without the bits that say which
shift it is. -/
def immOpImm (op : Op) : Word :=
  if op = .sll ∨ op = .srl ∨ op = .sra then (w.extractLsb' 20 5).setWidth 32 else immI w

def immS : Word := (w.extractLsb' 25 7 ++ w.extractLsb' 7 5).signExtend 32

def immB : Word :=
  (w.extractLsb' 31 1 ++ w.extractLsb' 7 1 ++ w.extractLsb' 25 6 ++ w.extractLsb' 8 4 ++
    0#1).signExtend 32

def immU : Word := w.extractLsb' 12 20 ++ 0#12

def immJ : Word :=
  (w.extractLsb' 31 1 ++ w.extractLsb' 12 8 ++ w.extractLsb' 20 1 ++ w.extractLsb' 21 10 ++
    0#1).signExtend 32

def major : BitVec 7 := w.extractLsb' 0 7
def rd : Reg := w.extractLsb' 7 5
def funct3 : BitVec 3 := w.extractLsb' 12 3
def rs1 : Reg := w.extractLsb' 15 5
def rs2 : Reg := w.extractLsb' 20 5
def funct7 : BitVec 7 := w.extractLsb' 25 7

def decodeBranch : Option BranchOp :=
  if funct3 w = 0b000#3 then some .beq
  else if funct3 w = 0b001#3 then some .bne
  else if funct3 w = 0b100#3 then some .blt
  else if funct3 w = 0b101#3 then some .bge
  else if funct3 w = 0b110#3 then some .bltu
  else if funct3 w = 0b111#3 then some .bgeu
  else none

def decodeLoad : Option LoadOp :=
  if funct3 w = 0b000#3 then some .lb
  else if funct3 w = 0b001#3 then some .lh
  else if funct3 w = 0b010#3 then some .lw
  else if funct3 w = 0b100#3 then some .lbu
  else if funct3 w = 0b101#3 then some .lhu
  else none

def decodeStore : Option StoreOp :=
  if funct3 w = 0b000#3 then some .sb
  else if funct3 w = 0b001#3 then some .sh
  else if funct3 w = 0b010#3 then some .sw
  else none

/-- The register-register operations; the other values of `funct7` belong to
extensions or are reserved. -/
def decodeOp : Option Op :=
  if funct7 w = 0b0000000#7 then
    if funct3 w = 0b000#3 then some .add
    else if funct3 w = 0b001#3 then some .sll
    else if funct3 w = 0b010#3 then some .slt
    else if funct3 w = 0b011#3 then some .sltu
    else if funct3 w = 0b100#3 then some .xor
    else if funct3 w = 0b101#3 then some .srl
    else if funct3 w = 0b110#3 then some .or
    else some .and
  else if funct7 w = 0b0100000#7 then
    if funct3 w = 0b000#3 then some .sub
    else if funct3 w = 0b101#3 then some .sra
    else none
  else none

/-- The shifts by a constant use the place of `funct7` as `OP` does. -/
def decodeOpImm : Option Op :=
  if funct3 w = 0b000#3 then some .add
  else if funct3 w = 0b010#3 then some .slt
  else if funct3 w = 0b011#3 then some .sltu
  else if funct3 w = 0b100#3 then some .xor
  else if funct3 w = 0b110#3 then some .or
  else if funct3 w = 0b111#3 then some .and
  else if funct3 w = 0b001#3 then
    if funct7 w = 0b0000000#7 then some .sll else none
  else if funct3 w = 0b101#3 then
    if funct7 w = 0b0000000#7 then some .srl
    else if funct7 w = 0b0100000#7 then some .sra
    else none
  else none

def decode : Option Instr :=
  if major w = 0b0110111#7 then some (.lui (rd w) (immU w))
  else if major w = 0b0010111#7 then some (.auipc (rd w) (immU w))
  else if major w = 0b1101111#7 then some (.jal (rd w) (immJ w))
  else if major w = 0b1100111#7 then
    if funct3 w = 0b000#3 then some (.jalr (rd w) (rs1 w) (immI w)) else none
  else if major w = 0b1100011#7 then
    (decodeBranch w).map fun op => .branch op (rs1 w) (rs2 w) (immB w)
  else if major w = 0b0000011#7 then
    (decodeLoad w).map fun op => .load op (rd w) (rs1 w) (immI w)
  else if major w = 0b0100011#7 then
    (decodeStore w).map fun op => .store op (rs1 w) (rs2 w) (immS w)
  else if major w = 0b0010011#7 then
    (decodeOpImm w).map fun op => .opImm op (rd w) (rs1 w) (immOpImm w op)
  else if major w = 0b0110011#7 then
    (decodeOp w).map fun op => .op op (rd w) (rs1 w) (rs2 w)
  else if major w = 0b0001111#7 then
    if funct3 w = 0b000#3 then some .fence else none
  else none

end encoding

/-! ## Meaning -/

/-- A shift uses the low five bits of its second operand. -/
def Op.eval : Op → Word → Word → Word
  | .add, a, b => a + b
  | .sub, a, b => a - b
  | .sll, a, b => a <<< (b.extractLsb' 0 5).toNat
  | .slt, a, b => if a.slt b then 1#32 else 0#32
  | .sltu, a, b => if a.ult b then 1#32 else 0#32
  | .xor, a, b => a ^^^ b
  | .srl, a, b => a >>> (b.extractLsb' 0 5).toNat
  | .sra, a, b => a.sshiftRight (b.extractLsb' 0 5).toNat
  | .or, a, b => a ||| b
  | .and, a, b => a &&& b

def BranchOp.taken : BranchOp → Word → Word → Bool
  | .beq, a, b => a == b
  | .bne, a, b => a != b
  | .blt, a, b => a.slt b
  | .bge, a, b => !a.slt b
  | .bltu, a, b => a.ult b
  | .bgeu, a, b => !a.ult b

/-- What an implementation of memory has to offer. -/
structure Memory (M : Type*) where
  load : LoadOp → M → Word → Word
  store : StoreOp → M → Word → Word → M

structure State (M : Type*) where
  regs : Reg → Word
  pc : Word
  mem : M

/-- `x0` is hard-wired to zero. -/
def setReg (regs : Reg → Word) (rd : Reg) (x : Word) : Reg → Word :=
  if rd = 0#5 then regs else Function.update regs rd x

variable {M : Type*}

def exec (memory : Memory M) (len : Word) (i : Instr) (s : State M) : State M :=
  match i with
  | .lui rd imm => { s with regs := setReg s.regs rd imm, pc := s.pc + len }
  | .auipc rd imm => { s with regs := setReg s.regs rd (s.pc + imm), pc := s.pc + len }
  | .jal rd offset => { s with regs := setReg s.regs rd (s.pc + len), pc := s.pc + offset }
  | .jalr rd rs1 offset =>
      { s with
        regs := setReg s.regs rd (s.pc + len)
        pc := (s.regs rs1 + offset) &&& ~~~1#32 }
  | .branch op rs1 rs2 offset =>
      { s with
        pc := if op.taken (s.regs rs1) (s.regs rs2) then s.pc + offset else s.pc + len }
  | .load op rd rs1 offset =>
      { s with
        regs := setReg s.regs rd (memory.load op s.mem (s.regs rs1 + offset))
        pc := s.pc + len }
  | .store op rs1 rs2 offset =>
      { s with
        mem := memory.store op s.mem (s.regs rs1 + offset) (s.regs rs2)
        pc := s.pc + len }
  | .opImm op rd rs1 imm =>
      { s with regs := setReg s.regs rd (op.eval (s.regs rs1) imm), pc := s.pc + len }
  | .op op rd rs1 rs2 =>
      { s with regs := setReg s.regs rd (op.eval (s.regs rs1) (s.regs rs2)), pc := s.pc + len }
  | .fence => { s with pc := s.pc + len }

/-! ## Byte-addressed memory -/

section bytes
variable {L : Type*}

/-- The little-endian halfword at an address; `loc` maps the 32-bit addresses
to the bytes there are, several addresses possibly to the same one. -/
def readHalf (loc : Word → L) (m : L → Byte) (a : Word) : BitVec 16 :=
  m (loc (a + 1#32)) ++ m (loc a)

def readWord (loc : Word → L) (m : L → Byte) (a : Word) : Word :=
  m (loc (a + 3#32)) ++ m (loc (a + 2#32)) ++ m (loc (a + 1#32)) ++ m (loc a)

def loadBytes (loc : Word → L) (m : L → Byte) (a : Word) : LoadOp → Word
  | .lb => (m (loc a)).signExtend 32
  | .lh => (readHalf loc m a).signExtend 32
  | .lw => readWord loc m a
  | .lbu => (m (loc a)).setWidth 32
  | .lhu => (readHalf loc m a).setWidth 32

variable [DecidableEq L]

def storeBytes (loc : Word → L) (m : L → Byte) (a x : Word) : StoreOp → L → Byte
  | .sb => Function.update m (loc a) (x.extractLsb' 0 8)
  | .sh =>
      Function.update (Function.update m (loc a) (x.extractLsb' 0 8))
        (loc (a + 1#32)) (x.extractLsb' 8 8)
  | .sw =>
      Function.update
        (Function.update
          (Function.update (Function.update m (loc a) (x.extractLsb' 0 8))
            (loc (a + 1#32)) (x.extractLsb' 8 8))
          (loc (a + 2#32)) (x.extractLsb' 16 8))
        (loc (a + 3#32)) (x.extractLsb' 24 8)

def byteMemory (loc : Word → L) : Memory (L → Byte) where
  load op m a := loadBytes loc m a op
  store op m a x := storeBytes loc m a x op

end bytes

def LoadOp.size : LoadOp → ℕ
  | .lb | .lbu => 1
  | .lh | .lhu => 2
  | .lw => 4

def StoreOp.size : StoreOp → ℕ
  | .sb => 1
  | .sh => 2
  | .sw => 4

/-- The address of a load or store is a multiple of its size. -/
def Instr.NaturallyAligned (i : Instr) (regs : Reg → Word) : Prop :=
  match i with
  | .load kind _ rs1 offset => (regs rs1 + offset).toNat % kind.size = 0
  | .store kind rs1 _ offset => (regs rs1 + offset).toNat % kind.size = 0
  | _ => True

instance (i : Instr) (regs : Reg → Word) : Decidable (i.NaturallyAligned regs) :=
  match i with
  | .load kind _ rs1 offset =>
      inferInstanceAs (Decidable ((regs rs1 + offset).toNat % kind.size = 0))
  | .store kind rs1 _ offset =>
      inferInstanceAs (Decidable ((regs rs1 + offset).toNat % kind.size = 0))
  | .lui .. | .auipc .. | .jal .. | .jalr .. | .branch .. | .opImm .. | .op .. | .fence =>
      inferInstanceAs (Decidable True)

end TagSoc.Rv32
