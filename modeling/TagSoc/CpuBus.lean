import Mathlib.Data.BitVec

/-!
# The processor's Wishbone master

`wb_cpu_bus.v`: a request is latched in the clock that enables it and held on
the bus until the slave acknowledges. The select lines encode only the size of
the access (`0101` for a tag); the data of a sub-word access is right-aligned
in both directions. None of these registers is reset.
-/
namespace TagSoc.CpuBus

/-- `busdefs.vh`. -/
inductive BusOp where
  | readb | readbu | readh | readhu | readw | readt
  | writeb | writeh | writew | writet
deriving Repr, DecidableEq

structure State where
  op : BusOp
  buffer : BitVec 32
  busy : Bool
  adr : BitVec 32
  dat : BitVec 32
  sel : BitVec 4
  cyc : Bool
  stb : Bool
  we : Bool
deriving Repr, DecidableEq

structure Inputs where
  en : Bool
  op : BusOp
  addr : BitVec 32
  data : BitVec 32
  ack : Bool
  dat : BitVec 32
deriving Repr, DecidableEq

/-- Number of bytes to be processed, as select lines. -/
def BusOp.memSel : BusOp → BitVec 4
  | .readw | .writew => 0b1111#4
  | .readh | .readhu | .writeh => 0b0011#4
  | .readt | .writet => 0b0101#4
  | .readb | .readbu | .writeb => 0b0001#4

def BusOp.signextend : BusOp → Bool
  | .readbu | .readhu => false
  | _ => true

def BusOp.write : BusOp → Bool
  | .writeb | .writeh | .writew | .writet => true
  | _ => false

/-- What a read delivers, given the select lines and the latched operation. -/
def dataFromBus (sel : BitVec 4) (signextend : Bool) (dat : BitVec 32) : BitVec 32 :=
  if sel = 0b1111#4 then dat
  else if sel = 0b0011#4 then
    BitVec.replicate 16 (BitVec.ofBool (dat.getLsbD 15 && signextend)) ++ dat.extractLsb' 0 16
  else if sel = 0b0001#4 then
    BitVec.replicate 24 (BitVec.ofBool (dat.getLsbD 7 && signextend)) ++ dat.extractLsb' 0 8
  else if sel = 0b0101#4 then 0#28 ++ dat.extractLsb' 0 4
  else 0xDEADF001#32

/-- The enable branch is followed by the acknowledge branch, whose assignments
win where both are taken. -/
def State.step (s : State) (i : Inputs) : State where
  op := if i.en then i.op else s.op
  buffer := if i.ack then dataFromBus s.sel s.op.signextend i.dat else s.buffer
  busy := if i.ack then false else if i.en then true else s.busy
  adr := if i.en then i.addr else s.adr
  dat := if i.en then i.data else s.dat
  sel := if i.ack then 0#4 else if i.en then i.op.memSel else s.sel
  cyc := if i.ack then false else if i.en then !i.ack else s.cyc
  stb := if i.ack then false else if i.en then !i.ack else s.stb
  we := if i.ack then false else if i.en then i.op.write else s.we

/-! ## The three kinds of clock -/

namespace State

/-- The registers after a request was taken. -/
def request (s : State) (op : BusOp) (addr data : BitVec 32) : State :=
  { s with op := op, busy := true, adr := addr, dat := data, sel := op.memSel
           cyc := true, stb := true, we := op.write }

/-- The registers after an acknowledge. -/
def accept (s : State) (dat : BitVec 32) : State :=
  { s with buffer := dataFromBus s.sel s.op.signextend dat, busy := false, sel := 0#4
           cyc := false, stb := false, we := false }

/-- A clock without a new request. -/
def wait (s : State) (ack : Bool) (dat : BitVec 32) : State := if ack then s.accept dat else s

@[simp] theorem step_idle (s : State) (op : BusOp) (addr data : BitVec 32) (ack : Bool)
    (dat : BitVec 32) : s.step ⟨false, op, addr, data, ack, dat⟩ = s.wait ack dat := by
  cases ack <;> simp [step, wait, accept]

@[simp] theorem step_request (s : State) (op : BusOp) (addr data dat : BitVec 32) :
    s.step ⟨true, op, addr, data, false, dat⟩ = s.request op addr data := by
  simp [step, request]

@[simp] theorem wait_false (s : State) (dat : BitVec 32) : s.wait false dat = s := rfl

@[simp] theorem wait_true (s : State) (dat : BitVec 32) : s.wait true dat = s.accept dat := rfl

@[simp] theorem wait_adr (s : State) (ack : Bool) (dat : BitVec 32) :
    (s.wait ack dat).adr = s.adr := by
  cases ack <;> rfl

end State

end TagSoc.CpuBus
