import Mathlib.Data.BitVec

/-!
# The multi-cycle arithmetic unit

`alu.v` as it is configured: `HW_DIVISION` defined, the single-cycle shifter,
multiplier and divider not defined. Additions and comparisons finish in the
clock that enables them. Shifts, products and quotients raise `busy` and then
run one bit per clock for as long as the operands are held.
-/
namespace TagSoc.Alu

/-- `aludefs.vh`, in the order of the opcodes. -/
inductive AluOp where
  | add | sub | and | or | xor | slt | sltu | sll | srl | sra
  | mul | mulh | mulhsu | mulhu
  | div | divu | rem | remu
deriving Repr, DecidableEq

/-- The registers of the unit. `lt`, `ltu` and `eq` are the registered flags
`O_lt`, `O_ltu` and `O_eq`, latched in every clock in which the unit runs. -/
structure State where
  result : BitVec 32
  busy : Bool
  shiftcnt : BitVec 5
  product : BitVec 64
  mulcand : BitVec 32
  bitMul : BitVec 6
  dividendCopy : BitVec 64
  dividerCopy : BitVec 64
  bitDiv : BitVec 6
  lt : Bool
  ltu : Bool
  eq : Bool
deriving Repr, DecidableEq

structure Inputs where
  en : Bool
  reset : Bool
  dataS1 : BitVec 32
  dataS2 : BitVec 32
  aluop : AluOp
deriving Repr, DecidableEq

namespace Inputs

def sum (i : Inputs) : BitVec 32 := i.dataS1 + i.dataS2

/-- One additional bit, for underflow detection. -/
def sub (i : Inputs) : BitVec 33 := (0#1 ++ i.dataS1) - (0#1 ++ i.dataS2)

def myor (i : Inputs) : BitVec 32 := i.dataS1 ||| i.dataS2
def myxor (i : Inputs) : BitVec 32 := i.dataS1 ^^^ i.dataS2
def myand (i : Inputs) : BitVec 32 := i.dataS1 &&& i.dataS2

def ltu (i : Inputs) : Bool := i.sub.getLsbD 32
def lt (i : Inputs) : Bool := i.sub.getLsbD 32 ^^ i.myxor.getLsbD 31
def eq (i : Inputs) : Bool := i.sub == 0#33

def posSrc1 (i : Inputs) : BitVec 32 := if i.dataS1.getLsbD 31 then -i.dataS1 else i.dataS1
def posSrc2 (i : Inputs) : BitVec 32 := if i.dataS2.getLsbD 31 then -i.dataS2 else i.dataS2
def sign (i : Inputs) : Bool := i.dataS1.getLsbD 31 ^^ i.dataS2.getLsbD 31

end Inputs

/-- One bit of a shift. -/
def shiftOne (op : AluOp) (r : BitVec 32) : BitVec 32 :=
  match op with
  | .sll => r.extractLsb' 0 31 ++ 0#1
  | .srl => 0#1 ++ r.extractLsb' 1 31
  | _ => r.extractLsb' 31 1 ++ r.extractLsb' 1 31

def State.shift (s : State) (i : Inputs) : State :=
  if !s.busy then
    { s with busy := true, result := i.dataS1, shiftcnt := i.dataS2.extractLsb' 0 5 }
  else if s.shiftcnt ≠ 0#5 then
    { s with result := shiftOne i.aluop s.result, shiftcnt := s.shiftcnt - 1#5 }
  else { s with busy := false }

/-- The sum of the upper product half and the multiplicand, with its carry. -/
def State.topProd (s : State) : BitVec 33 :=
  (0#1 ++ s.product.extractLsb' 32 32) + (0#1 ++ s.mulcand)

def State.multiply (s : State) (i : Inputs) : State :=
  if !s.busy then
    { s with
      busy := true
      bitMul := 32#6
      product := match i.aluop with
        | .mul | .mulh | .mulhsu => 0#32 ++ i.posSrc1
        | _ => 0#32 ++ i.dataS1
      mulcand := match i.aluop with
        | .mul | .mulh => i.posSrc2
        | _ => i.dataS2 }
  else if s.bitMul ≠ 0#6 then
    { s with
      product := if s.product.getLsbD 0 then s.topProd ++ s.product.extractLsb' 1 31
        else s.product >>> 1
      bitMul := s.bitMul - 1#6 }
  else
    let negProduct := -s.product
    { s with
      busy := false
      result := match i.aluop with
        | .mul => if i.sign then negProduct.extractLsb' 0 32 else s.product.extractLsb' 0 32
        | .mulh => if i.sign then negProduct.extractLsb' 32 32 else s.product.extractLsb' 32 32
        | .mulhsu => if i.dataS1.getLsbD 31 then negProduct.extractLsb' 32 32
            else s.product.extractLsb' 32 32
        | _ => s.product.extractLsb' 32 32 }

/-- The operand pairs for which a signed remainder is answered at once. -/
def Inputs.remCorner (i : Inputs) : Bool :=
  ((i.dataS1 == 0xffffffff#32 && (i.dataS2 == 0x80000000#32 || i.dataS2 == 0x7fffffff#32)) ||
    (i.dataS1 == 0x80000000#32 && i.dataS2 == 0x7fffffff#32)) && i.aluop == .rem

def State.diff (s : State) : BitVec 64 := s.dividendCopy - s.dividerCopy

def State.divide (s : State) (i : Inputs) : State :=
  if !s.busy then
    if i.dataS2 = 0#32 then
      { s with
        result := match i.aluop with
          | .div | .divu => ~~~0#32
          | _ => i.dataS1 }
    else if i.remCorner then { s with result := ~~~0#32 }
    else
      { s with
        busy := true
        result := 0#32
        bitDiv := 32#6
        dividendCopy := match i.aluop with
          | .divu | .remu => 0#32 ++ i.dataS1
          | _ => 0#32 ++ i.posSrc1
        dividerCopy := match i.aluop with
          | .divu | .remu => 0#1 ++ i.dataS2 ++ 0#31
          | _ => 0#1 ++ i.posSrc2 ++ 0#31 }
  else if s.bitDiv ≠ 0#6 then
    { s with
      dividendCopy := if !s.diff.getLsbD 63 then s.diff else s.dividendCopy
      result := if !s.diff.getLsbD 63 then s.result.extractLsb' 0 31 ++ 1#1
        else s.result.extractLsb' 0 31 ++ 0#1
      dividerCopy := 0#1 ++ s.dividerCopy.extractLsb' 1 63
      bitDiv := s.bitDiv - 1#6 }
  else
    { s with
      busy := false
      result := match i.aluop with
        | .div => if i.sign then -s.result else s.result
        | .divu => s.result
        | _ => s.dividendCopy.extractLsb' 0 32 }

/-- The `case` on the operation, without the flags. -/
def State.run (s : State) (i : Inputs) : State :=
  match i.aluop with
  | .add => { s with result := i.sum }
  | .sub => { s with result := i.sub.extractLsb' 0 32 }
  | .and => { s with result := i.myand }
  | .or => { s with result := i.myor }
  | .xor => { s with result := i.myxor }
  | .slt => { s with result := if i.lt then 1#32 else 0#32 }
  | .sltu => { s with result := if i.ltu then 1#32 else 0#32 }
  | .sll | .srl | .sra => s.shift i
  | .mul | .mulh | .mulhsu | .mulhu => s.multiply i
  | .div | .rem | .divu | .remu => s.divide i

def State.step (s : State) (i : Inputs) : State :=
  if i.reset then { s with busy := false }
  else if i.en || s.busy then { s.run i with lt := i.lt, ltu := i.ltu, eq := i.eq }
  else s

theorem step_idle {s : State} (hb : s.busy = false) (a b : BitVec 32) (op : AluOp) :
    s.step ⟨false, false, a, b, op⟩ = s := by
  simp [State.step, hb]

/-- Only an operation other than an addition keeps the unit busy. -/
theorem busy_of_step_busy {s : State} {i : Inputs} (h : (s.step i).busy = true) :
    i.reset = false ∧ (s.busy = true ∨ (i.en = true ∧ i.aluop ≠ .add)) := by
  unfold State.step at h
  split_ifs at h with hr he
  · refine ⟨by simpa using hr, ?_⟩
    by_cases hb : s.busy = true
    · exact .inl hb
    · refine .inr ⟨by simpa [hb] using he, ?_⟩
      rintro hadd
      simp [State.run, hadd, hb] at h
  · exact ⟨by simpa using hr, .inl h⟩

end TagSoc.Alu
