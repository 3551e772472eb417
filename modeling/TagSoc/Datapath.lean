import TagSoc.Rv32
import TagSoc.AluRuns
import TagSoc.Cpu

/-!
# One instruction, as the datapath performs it

The meaning of the decoder's outputs with all timing removed: which word is
taken from memory and how long the instruction is, what the ALU is given, what
is written where and where control goes. It stands between the clocked
processor, whose runs are shown to follow it, and the instruction set, which
it is shown to agree with.

A bus slave enters as a `Device`: what it answers to a read and what a write
makes of it, as functions of the select lines and the address.
-/
namespace TagSoc.Datapath
open Rv32 Decoder CpuBus Registers

structure Device (M : Type*) where
  read : M → BitVec 4 → Word → Word
  write : M → BitVec 4 → Word → Word → M

variable {M : Type*}

/-! ## Fetch -/

/-- The instruction register after the fetch: the upper half belongs to the
instruction only if the low bits say so. -/
def fetched (D : Device M) (a : Rv32.State M) : Word :=
  let w := D.read a.mem 0b1111#4 a.pc
  if a.pc.getLsbD 1 then
    if w.extractLsb' 16 2 = 3#2 then
      (D.read a.mem 0b1111#4 (a.pc + 2#32)).extractLsb' 0 16 ++ w.extractLsb' 16 16
    else 0#16 ++ w.extractLsb' 16 16
  else w

def instrLen (w : Word) : Word := if w.extractLsb' 0 2 = 3#2 then 4#32 else 2#32

/-! ## Execution -/

section
variable (d : Decoded) (a : Rv32.State M)

def dataS1 : Word :=
  match d.muxAluS1Sel with
  | .regval1 => a.regs d.rs1
  | .pc => a.pc

def dataS2 : Word :=
  match d.muxAluS2Sel with
  | .regval2 => a.regs d.rs2
  | .imm => d.imm
  | .instlen16 => 2#32
  | .instlen32 => 4#32

/-- The branch mask applied to the comparison of the ALU's operands. -/
def taken : Bool :=
  let x := dataS1 d a
  let y := dataS2 d a
  (d.branchmask &&& (BitVec.ofBool (!x.ult y) ++ BitVec.ofBool (x.ult y) ++
    BitVec.ofBool (!x.slt y) ++ BitVec.ofBool (x.slt y) ++
    BitVec.ofBool (!(x == y)) ++ BitVec.ofBool (x == y))) != 0#6

/-- The read data as the bus unit presents it. -/
def loaded (D : Device M) (m : M) (op : BusOp) (addr : Word) : Word :=
  dataFromBus op.memSel op.signextend (D.read m op.memSel addr)

/-- The effect of an instruction that does not go to the system or trap states;
`res` is what the ALU operation leaves in the result register. -/
def dataStep (D : Device M) (len res : Word) : Rv32.State M :=
  match d.execNextStage with
  | .toLoad =>
      { a with
        regs := RegFile.write a.regs d.rd (loaded D a.mem (Cpu.State.loadBusOp d.funct3) res)
        pc := a.pc + len }
  | .toStore =>
      { a with
        mem := D.write a.mem (Cpu.State.storeBusOp d.funct3).memSel res (a.regs d.rs2)
        pc := a.pc + len }
  | .toBranch =>
      { a with pc := if taken d a then (a.pc + d.imm) &&& ~~~1#32 else a.pc + len }
  | _ =>
      if d.nextPcFromAlu then
        { a with
          regs := if d.writeReg then RegFile.write a.regs d.rd (a.pc + len) else a.regs
          pc := res &&& ~~~1#32 }
      else
        { a with
          regs := if d.writebackFromAlu then RegFile.write a.regs d.rd res
            else if d.writebackFromImm then RegFile.write a.regs d.rd d.imm
            else a.regs
          pc := a.pc + len }

end

/-- The stages `dataStep` is about. -/
def plainStage : ExecStage → Bool
  | .toFetch | .toLoad | .toStore | .toBranch => true
  | _ => false

end TagSoc.Datapath
