import Mathlib.Logic.Function.Basic
import Mathlib.Data.BitVec

/-!
# The synchronous memory array

`generic_ram.v`: one write port, one read port, both clocked. The read port
returns the word as it was before the write of the same edge. The array has
`words` cells, which need not fill the address range: a write above the last
cell is lost, and what a read returns there is left open (any fixed value).
The simulation-only tasks and the `$readmemh` preload are not part of the
clocked behaviour and are left out.
-/
namespace TagSoc.GenericRam

structure State (addrWidth dataWidth : ℕ) where
  mem : BitVec addrWidth → BitVec dataWidth
  dataOut : BitVec dataWidth

structure Inputs (addrWidth dataWidth : ℕ) where
  we : Bool
  data : BitVec dataWidth
  wAddr : BitVec addrWidth
  rAddr : BitVec addrWidth

variable {a w : ℕ}

def State.step (words : ℕ) (s : State a w) (i : Inputs a w) : State a w where
  mem := if i.we = true ∧ i.wAddr.toNat < words then Function.update s.mem i.wAddr i.data else s.mem
  dataOut := s.mem i.rAddr

@[simp] theorem step_dataOut (words : ℕ) (s : State a w) (i : Inputs a w) :
    (s.step words i).dataOut = s.mem i.rAddr := rfl

theorem step_mem_of_not_we (words : ℕ) (s : State a w) (i : Inputs a w) (h : i.we = false) :
    (s.step words i).mem = s.mem := by
  simp [State.step, h]

end TagSoc.GenericRam
