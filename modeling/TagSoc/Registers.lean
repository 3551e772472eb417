import Mathlib.Logic.Function.Basic
import Mathlib.Data.BitVec

/-!
# The register file

`registers.v`: 32 words, one write port that ignores register 0, and two
registered read ports. A read in the clock of a write returns the old word.
-/
namespace TagSoc.Registers

abbrev RegFile := BitVec 5 → BitVec 32

structure State where
  regfile : RegFile
  regval1 : BitVec 32
  regval2 : BitVec 32

structure Inputs where
  data : BitVec 32
  rs1 : BitVec 5
  rs2 : BitVec 5
  rd : BitVec 5
  re : Bool
  we : Bool

/-- The write port. -/
def RegFile.write (r : RegFile) (rd : BitVec 5) (data : BitVec 32) : RegFile :=
  if rd ≠ 0#5 then Function.update r rd data else r

def State.step (s : State) (i : Inputs) : State where
  regfile := if i.we then RegFile.write s.regfile i.rd i.data else s.regfile
  regval1 := if i.re then s.regfile i.rs1 else s.regval1
  regval2 := if i.re then s.regfile i.rs2 else s.regval2

@[simp] theorem step_idle (s : State) (d : BitVec 32) (rs1 rs2 rd : BitVec 5) :
    s.step ⟨d, rs1, rs2, rd, false, false⟩ = s := by
  simp [State.step]

@[simp] theorem step_read (s : State) (d : BitVec 32) (rs1 rs2 rd : BitVec 5) :
    s.step ⟨d, rs1, rs2, rd, true, false⟩ =
      { s with regval1 := s.regfile rs1, regval2 := s.regfile rs2 } := by
  simp [State.step]

@[simp] theorem step_write (s : State) (d : BitVec 32) (rs1 rs2 rd : BitVec 5) (we : Bool) :
    s.step ⟨d, rs1, rs2, rd, false, we⟩ =
      if we then { s with regfile := RegFile.write s.regfile rd d } else s := by
  cases we <;> simp [State.step]

/-- `register_flags_o`: which registers hold zero. -/
def State.flags (s : State) (r : BitVec 5) : Bool := s.regfile r == 0#32

@[simp] theorem write_zero (r : RegFile) (d : BitVec 32) : RegFile.write r 0#5 d = r := by
  simp [RegFile.write]

/-- No write reaches register 0. -/
@[simp] theorem write_apply_zero (r : RegFile) (rd : BitVec 5) (d : BitVec 32) :
    RegFile.write r rd d 0#5 = r 0#5 := by
  unfold RegFile.write
  split_ifs with h
  · exact Function.update_of_ne (Ne.symm h) d r
  · rfl

/-- The last of two writes to a register stays. -/
theorem write_write (r : RegFile) (rd : BitVec 5) (d d' : BitVec 32) :
    RegFile.write (RegFile.write r rd d) rd d' = RegFile.write r rd d' := by
  unfold RegFile.write
  split_ifs
  · simp
  · rfl

theorem write_apply_eq_self {r : RegFile} {rd : BitVec 5} {d : BitVec 32} :
    RegFile.write r rd d rd = r rd ↔ rd = 0#5 ∨ r rd = d := by
  by_cases h : rd = 0#5
  · simp [h]
  · simp [RegFile.write, h, eq_comm]

/-- A write that leaves its register alone leaves them all. -/
theorem write_eq_self {r : RegFile} {rd : BitVec 5} {d : BitVec 32} :
    RegFile.write r rd d = r ↔ rd = 0#5 ∨ r rd = d := by
  rw [← write_apply_eq_self]
  refine ⟨fun h => congrFun h rd, fun h => ?_⟩
  unfold RegFile.write at h ⊢
  split_ifs at h ⊢
  · rw [Function.update_self] at h
    exact Function.update_eq_self_iff.mpr h
  · rfl

end TagSoc.Registers
