import TagSoc.InstrRun
import TagSoc.MulDiv
import TagSoc.MretRun
import TagSoc.IllegalRun
import TagSoc.CsrRun

/-!
# The processor, one instruction at a time

What a program can see of the processor between two instructions, and what one
instruction makes of it: the datapath's step for the plain ones, and the CSR, trap and
return instructions in the same terms. Nothing is left of the clocks. What the wires
from outside say while the instruction runs, and the random source, come in as `Lines`.
A word that the decoder does not know is carried out as well: it goes on at the address
on the CSR port, or never ends.
-/
namespace TagSoc.Alu

/-- What a started operation leaves in the result register once the unit is free. -/
def value (op : AluOp) (a b : BitVec 32) : BitVec 32 :=
  match op with
  | .add => a + b
  | .sub => a - b
  | .and => a &&& b
  | .or => a ||| b
  | .xor => a ^^^ b
  | .slt => if a.slt b then 1#32 else 0#32
  | .sltu => if a.ult b then 1#32 else 0#32
  | .sll => a <<< (b.extractLsb' 0 5).toNat
  | .srl => a >>> (b.extractLsb' 0 5).toNat
  | .sra => a.sshiftRight (b.extractLsb' 0 5).toNat
  | .mul | .mulh | .mulhsu | .mulhu => singleCycleMul op a b
  | .div | .divu | .remu => if b = 0#32 then byZero op a else divisionResult op a b
  | .rem =>
      if b = 0#32 then a
      else if Inputs.remCorner ⟨true, false, a, b, .rem⟩ then ~~~0#32
      else magnitude a % magnitude b

theorem yields_divider {op : AluOp} (hop : op.isDiv = true) (hne : op ≠ .rem) (a b : BitVec 32) :
    Yields op a b (if b = 0#32 then byZero op a else divisionResult op a b) := by
  split_ifs with hb
  · subst hb
    exact yields_divide_zero hop a
  · exact yields_divide hop hb (remCorner_of_ne hne a b)

theorem yields_value (op : AluOp) (a b : BitVec 32) : Yields op a b (value op a b) := by
  cases op
  case add => exact yields_add a b
  case sub => exact yields_sub a b
  case and => exact yields_and a b
  case or => exact yields_or a b
  case xor => exact yields_xor a b
  case slt => exact yields_slt a b
  case sltu => exact yields_sltu a b
  case sll => exact yields_sll a b
  case srl => exact yields_srl a b
  case sra => exact yields_sra a b
  case rem => exact yields_rem a b
  case mul | mulh | mulhsu | mulhu => exact yields_mul rfl a b
  case div | divu | remu => exact yields_divider rfl (by decide) a b

end TagSoc.Alu

namespace TagSoc.Machine
open Decoder Csr Cpu Datapath Registers Alu
open Rv32 (Word)

/-! ## States -/

/-- The control bits that the CSR block keeps beside its words. -/
structure Switches where
  irq : Bool
  timer : Bool
  tags : Bool
  tagsIf : Bool
  skipSp : Bool
deriving Repr, DecidableEq

/-- They follow the writes to three of the addresses. -/
def Switches.write (e : Switches) (addr : BitVec 12) (x : Word) : Switches where
  irq := if addr = msrMstatus then x.getLsbD 3 else e.irq
  timer := if addr = msrMie then x.getLsbD 7 else e.timer
  tags := if addr = msrMtags then x.getLsbD 0 else e.tags
  tagsIf := if addr = msrMtags then x.getLsbD 2 else e.tagsIf
  skipSp := if addr = msrMtags then x.getLsbD 3 else e.skipSp

structure State (M : Type*) extends Rv32.State M where
  csr : BitVec 4 → Word
  en : Switches
  finished : Bool

/-- What comes from outside while an instruction is carried out: the two interrupt lines
in the decode clock, the timer's line while a trap is entered, the word on the CSR port
where no stored word is there, and whether a store was told that it reached a compare
register. -/
structure Lines where
  irqTimer : Bool
  irqTags : Bool
  timer : Bool
  port : Word
  clear : Bool

/-! ## Steps -/

variable {M : Type*}

namespace State

def enterTrap (s : State M) (cause : Word) (timer : Bool) : State M :=
  { s with
    pc := s.csr mTvec &&& ~~~1#32
    csr := entryFile s.csr cause s.pc (timer && s.en.timer)
    en := { s.en with irq := false } }

def mret (s : State M) : State M :=
  { s with
    pc := s.csr mEpc &&& ~~~1#32
    csr := writeWord s.csr msrMstatus (mretStatus (s.csr mStatus))
    en := { s.en with irq := (s.csr mStatus).getLsbD 7 } }

/-- A CSR instruction always writes. -/
def csrAccess (s : State M) (d : Decoded) (len port : Word) : State M :=
  let addr := d.imm.extractLsb' 0 12
  let old := if csrIndex addr = mRnd then port else s.csr (csrIndex addr)
  let new := csrNew d.funct3 d.rs1 (s.regs d.rs1) old
  { s with
    regs := RegFile.write s.regs d.rd old
    pc := s.pc + len
    csr := writeWord s.csr addr new
    en := s.en.write addr new }

def system (s : State M) (d : Decoded) (len : Word) (l : Lines) : State M :=
  match systemKind d with
  | .ecall => { s.enterTrap causeEcall l.timer with finished := s.regs 2#5 == 0#32 }
  | .ebreak => s.enterTrap causeBreak l.timer
  | .invalid => s.enterTrap causeInvalidInstruction l.timer
  | .wfi => { s with pc := s.pc + len }
  | .mret => s.mret
  | .csr => s.csrAccess d len l.port

/-- The write-back of a word that the decoder does not know. -/
def illegal (s : State M) (d : Decoded) (port : Word) : State M :=
  { s with
    regs := if d.writebackFromAlu then
        RegFile.write s.regs d.rd (dataS1 d s.toState + dataS2 d s.toState)
      else if d.writebackFromImm then RegFile.write s.regs d.rd d.imm
      else s.regs
    pc := port &&& ~~~1#32 }

/-- The pending bit of the timer, taken away. -/
def clearPending (x : Word) : Word := x.extractLsb' 8 24 ++ 0#1 ++ x.extractLsb' 0 7

def plain (s : State M) (D : Device M) (d : Decoded) (len : Word) (clear : Bool) : State M :=
  { s with
    toState := dataStep d s.toState D len
      (value d.aluOper (dataS1 d s.toState) (dataS2 d s.toState))
    csr := if d.execNextStage == .toStore && clear
      then writeWord s.csr msrMip (clearPending (s.csr mIp)) else s.csr }

/-- `none` if the instruction never ends. -/
def execute (s : State M) (D : Device M) (l : Lines) : Option (State M) :=
  let w := fetched D s.toState
  let d := decode w
  match d.execNextStage with
  | .toSystem => some (s.system d (instrLen w) l)
  | .toTrap => if d.aluOper.isShift then none else some (s.illegal d l.port)
  | .toDead => none
  | .toFetch | .toLoad | .toStore | .toBranch => some (s.plain D d (instrLen w) l.clear)

/-- The next word is one that the decoder does not know, with a shift in it. -/
def endless (s : State M) (D : Device M) : Bool :=
  let d := decode (fetched D s.toState)
  d.execNextStage == .toTrap && d.aluOper.isShift

def interruptCause (s : State M) (timer tags : Bool) : Word :=
  if tags && s.en.tags then causeTagMismatch
  else if timer then causeTimerInterrupt
  else 0#32

/-- An interrupt is taken in place of the instruction. -/
def interrupted (s : State M) (l : Lines) : Bool :=
  ((l.irqTimer && s.en.timer) || l.irqTags) && s.en.irq

/-- `none` after the end of the test, or where the instruction never ends. -/
def step (s : State M) (D : Device M) (l : Lines) : Option (State M) :=
  if s.finished then none
  else if s.interrupted l then some (s.enterTrap (s.interruptCause l.irqTimer l.irqTags) l.timer)
  else s.execute D l

def run (s : State M) (D : Device M) : List Lines → Option (State M)
  | [] => some s
  | l :: ls => (s.step D l).bind fun s' => s'.run D ls

end State

section
variable {s : State M} {D : Device M} {l : Lines}

theorem execute_of_system (h : (decode (fetched D s.toState)).execNextStage = .toSystem) :
    s.execute D l = some (s.system (decode (fetched D s.toState))
      (instrLen (fetched D s.toState)) l) := by
  simp only [State.execute, h]

theorem execute_of_trap (h : (decode (fetched D s.toState)).execNextStage = .toTrap)
    (hsh : (decode (fetched D s.toState)).aluOper.isShift = false) :
    s.execute D l = some (s.illegal (decode (fetched D s.toState)) l.port) := by
  simp only [State.execute, h, hsh, Bool.false_eq_true, if_false]

theorem execute_of_plain (h : plainStage (decode (fetched D s.toState)).execNextStage = true) :
    s.execute D l = some (s.plain D (decode (fetched D s.toState))
      (instrLen (fetched D s.toState)) l.clear) := by
  cases hst : (decode (fetched D s.toState)).execNextStage <;> rw [hst] at h
  case toFetch | toLoad | toStore | toBranch => simp only [State.execute, hst]
  all_goals exact absurd h (by decide)

theorem step_execute (h : s.finished = false) (hno : s.interrupted l = false) :
    s.step D l = s.execute D l := by
  rw [State.step, h, hno, if_neg Bool.false_ne_true, if_neg Bool.false_ne_true]

theorem step_interrupt (h : s.finished = false) (hi : s.interrupted l = true) :
    s.step D l = some (s.enterTrap (s.interruptCause l.irqTimer l.irqTags) l.timer) := by
  rw [State.step, h, hi, if_neg Bool.false_ne_true, if_pos rfl]

end

end TagSoc.Machine
