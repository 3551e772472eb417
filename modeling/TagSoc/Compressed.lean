import TagSoc.Refinement
import TagSoc.Rv32c

/-!
# Compressed instructions

A 16-bit parcel sits in the lower half of the instruction register; what is in
the upper half is unrelated. Whatever it is, the decoder's outputs make the
datapath perform the instruction the parcel expands to, with length two. This
covers every parcel that RV32C defines for integer code, the hints included.
-/
namespace TagSoc.Compressed
open Clocked Cpu Datapath Agreement BitSlices Refinement
open Rv32 hiding decode funct3 funct7
open Decoder hiding funct7

variable {M : Type*} {D : Device M} {w : Word}

/-! ## Fields and immediates -/

/-- A field of the parcel is a field of the instruction register. -/
theorem slice (w : Word) (k n : ℕ) (h : k + n ≤ 16) :
    (w.extractLsb' 0 16).extractLsb' k n = w.extractLsb' k n := by
  rw [extractLsb'_extractLsb' w 0 16 k n h, Nat.zero_add]

theorem creg_eq (x : BitVec 3) : 0b01#2 ++ x = 8#5 + x.setWidth 5 := by
  revert x
  decide

section immediates
variable (w : Word)

theorem immC0_eq :
    immC0 w =
      if cFunct3 w = c0F3Addi4spn then Rv32c.immAddi4spn (w.extractLsb' 0 16)
      else Rv32c.immLw (w.extractLsb' 0 16) := by
  simp (disch := decide) only [immC0, Rv32c.immAddi4spn, Rv32c.immLw, slice]
  congr 1
  all_goals
    apply BitVec.eq_of_getLsbD_eq
    intro i hi
    simp only [BitVec.getLsbD_append, BitVec.getLsbD_extractLsb', BitVec.getLsbD_setWidth]
    interval_cases i <;> simp

theorem immC2_eq :
    immC2 w =
      if cFunct3 w = c2F3Lwsp then Rv32c.immLwsp (w.extractLsb' 0 16)
      else if cFunct3 w = c2F3Swsp then Rv32c.immSwsp (w.extractLsb' 0 16)
      else if cFunct3 w = c2F3Slli then Rv32c.shamt (w.extractLsb' 0 16)
      else 0#32 := by
  simp (disch := decide) only [immC2, Rv32c.immLwsp, Rv32c.immSwsp, Rv32c.shamt, slice]
  split_ifs
  case neg => rfl
  all_goals
    apply BitVec.eq_of_getLsbD_eq
    intro i hi
    simp only [BitVec.getLsbD_append, BitVec.getLsbD_extractLsb', BitVec.getLsbD_setWidth]
    interval_cases i <;> simp

theorem imm6_eq :
    BitVec.replicate 26 (w.extractLsb' 12 1) ++ w.extractLsb' 12 1 ++ w.extractLsb' 2 5 =
      Rv32c.imm6 (w.extractLsb' 0 16) := by
  simp (disch := decide) only [Rv32c.imm6, slice]
  apply BitVec.eq_of_getLsbD_eq
  intro i hi
  simp only [BitVec.getLsbD_append, BitVec.getLsbD_extractLsb', BitVec.getLsbD_replicate,
    BitVec.getLsbD_signExtend, BitVec.msb_eq_getLsbD_last]
  interval_cases i <;> simp

/-- The sign-extended immediates of jumps, branches and the stack pointer, and
the two forms of the register-register block. -/
theorem immC1_eq :
    immC1 w =
      if cFunct3 w ≠ 0b100#3 then
        if cFunct3 w = c1F3NopAddi then Rv32c.imm6 (w.extractLsb' 0 16)
        else if cFunct3 w = c1F3J ∨ cFunct3 w = c1F3Jal then Rv32c.immJ (w.extractLsb' 0 16)
        else if cFunct3 w = c1F3Li then Rv32c.imm6 (w.extractLsb' 0 16)
        else if cFunct3 w = c1F3LuiAddi16sp then
          if w.extractLsb' 7 5 = 2#5 then Rv32c.immAddi16sp (w.extractLsb' 0 16)
          else Rv32c.immLui (w.extractLsb' 0 16)
        else if cFunct3 w = c1F3Beq ∨ cFunct3 w = c1F3Bne then Rv32c.immB (w.extractLsb' 0 16)
        else 0#32
      else if w.getLsbD 11 then Rv32c.imm6 (w.extractLsb' 0 16)
      else 0#26 ++ w.extractLsb' 12 1 ++ w.extractLsb' 2 5 := by
  rw [immC1, imm6_eq]
  simp (disch := decide) only [Rv32c.immJ, Rv32c.immAddi16sp, Rv32c.immLui, Rv32c.immB, slice]
  split_ifs
  all_goals try rfl
  all_goals
    apply BitVec.eq_of_getLsbD_eq
    intro i hi
    simp only [BitVec.getLsbD_append, BitVec.getLsbD_extractLsb', BitVec.getLsbD_replicate,
      BitVec.getLsbD_signExtend, BitVec.msb_eq_getLsbD_last]
    interval_cases i <;> simp

end immediates

/-! ## Quadrants -/

theorem bit12 (w : Word) : w.extractLsb' 12 1 = 1#1 ↔ w[12] = true := by
  have h : w[12] = (w.extractLsb' 12 1)[0] := by simp
  rw [h]
  generalize w.extractLsb' 12 1 = x
  revert x
  decide

theorem bit12_zero (w : Word) : w.extractLsb' 12 1 = 0#1 ↔ w[12] = false := by
  rw [← Bool.not_eq_true, ← bit12]
  generalize w.extractLsb' 12 1 = x
  revert x
  decide

/-- Bit 11 picks between the two immediates of the block with shifts. -/
theorem bit11 (w : Word) : w[11] = (w.extractLsb' 10 2)[1] := by simp

/-- The shift amount, once the reserved bit is known to be zero. -/
theorem shamt_eq (h : w[12] = false) :
    0#26 ++ w.extractLsb' 12 1 ++ w.extractLsb' 2 5 = Rv32c.shamt (w.extractLsb' 0 16) := by
  simp (disch := decide) only [Rv32c.shamt, slice]
  apply BitVec.eq_of_getLsbD_eq
  intro i hi
  simp only [BitVec.getLsbD_append, BitVec.getLsbD_extractLsb', BitVec.getLsbD_setWidth]
  interval_cases i <;> simp [h]

/-- The specification's fields, read off the instruction register. -/
theorem fields (w : Word) :
    Rv32c.op (w.extractLsb' 0 16) = cOp w ∧ Rv32c.funct3 (w.extractLsb' 0 16) = cFunct3 w ∧
      Rv32c.rdFull (w.extractLsb' 0 16) = w.extractLsb' 7 5 ∧
      Rv32c.rs2Full (w.extractLsb' 0 16) = w.extractLsb' 2 5 ∧
      Rv32c.rdShort (w.extractLsb' 0 16) = creg w 2 ∧
      Rv32c.rs1Short (w.extractLsb' 0 16) = creg w 7 := by
  simp (disch := decide) only [Rv32c.op, Rv32c.funct3, Rv32c.rdFull, Rv32c.rs2Full, Rv32c.rdShort,
    Rv32c.rs1Short, slice, creg, creg_eq, cOp, cFunct3, and_self]

/-- Loads and stores of a compressed parcel are of whole words. -/
theorem word_access :
    State.loadBusOp funcLw = loadOp .lw ∧ State.storeBusOp funcLw = storeOp .sw := ⟨rfl, rfl⟩

section quadrant0
variable (h : cOp w = 0#2)
include h

theorem decode_of_c0 :
    decode w =
      { controlC0 w with imm := immC0 w, branchmask := branchmask w, funct3 := funcLw } := by
  simp [decode, Decoder.control, Decoder.imm, Decoder.funct3, h, cOpcC0]

theorem agrees_c0 {i : Instr} (hi : Rv32c.expand0 (w.extractLsb' 0 16) = some i) :
    Agrees D w 2#32 i := by
  obtain ⟨-, hf, -, -, hrd, hrs⟩ := fields w
  have hd := decode_of_c0 h
  simp (disch := decide) only [Rv32c.expand0, hf, hrd, hrs, slice] at hi
  split_ifs at hi with h₁ h₂ h₂ h₃
  · obtain rfl := Option.some.inj hi
    refine agrees_of_alu .add ⟨?_, ?_⟩ ?_ ?_ fun a _ => ?_ <;>
      simp [hd, controlC0, immC0_eq, c0F3Addi4spn, h₁, h₂, exec, dataS1, dataS2, aluOp]
  · obtain rfl := Option.some.inj hi
    refine agrees_of_load ?_ ?_ ?_ ?_ ?_ ?_ ?_ ?_ <;>
      simp [hd, controlC0, immC0_eq, c0F3Addi4spn, c0F3Lw, h₂, word_access]
  · obtain rfl := Option.some.inj hi
    refine agrees_of_store ?_ ?_ ?_ ?_ ?_ ?_ ?_ ?_ <;>
      simp [hd, controlC0, immC0_eq, c0F3Addi4spn, c0F3Lw, c0F3Sw, h₃, word_access]

end quadrant0

section quadrant1
variable (h : cOp w = 1#2)
include h

theorem decode_of_c1 :
    decode w =
      { (if cFunct3 w ≠ 0b100#3 then controlC1 w else controlC1Alu w) with
        imm := immC1 w, branchmask := branchmask w, funct3 := funcLw } := by
  simp [decode, Decoder.control, Decoder.imm, Decoder.funct3, h, cOpcC0, cOpcC1]

/-- The block with one opcode: shifts, `c.andi` and the register forms. -/
theorem agrees_c1Alu (hf : cFunct3 w = 4#3) {i : Instr}
    (hi : Rv32c.expandAlu (w.extractLsb' 0 16) = some i) : Agrees D w 2#32 i := by
  obtain ⟨-, -, -, -, hrd, hrs⟩ := fields w
  have hd := decode_of_c1 h
  have h11 := bit11 w
  simp (disch := decide) only [Rv32c.expandAlu, hrd, hrs, slice, bit12] at hi
  split_ifs at hi with h₁ h₂ h₁ h₂ h₁ h₂ h₃ h₄ h₅
  all_goals obtain rfl := Option.some.inj hi
  · rw [Bool.not_eq_true] at h₂
    refine agrees_of_alu .srl ⟨?_, ?_⟩ ?_ ?_ fun a _ => ?_ <;>
      simp [hd, controlC1Alu, immC1_eq, hf, h₁, h₂, h11, shamt_eq, exec, dataS1, dataS2, aluOp]
  · rw [Bool.not_eq_true] at h₂
    refine agrees_of_alu .sra ⟨?_, ?_⟩ ?_ ?_ fun a _ => ?_ <;>
      simp [hd, controlC1Alu, immC1_eq, hf, h₁, h₂, h11, shamt_eq, exec, dataS1, dataS2, aluOp]
  · refine agrees_of_alu .and ⟨?_, ?_⟩ ?_ ?_ fun a _ => ?_ <;>
      simp [hd, controlC1Alu, immC1_eq, hf, h₁, h11, exec, dataS1, dataS2, aluOp]
  · refine agrees_of_alu .sub ⟨?_, ?_⟩ ?_ ?_ fun a _ => ?_ <;>
      simp [*, controlC1Alu, exec, dataS1, dataS2, aluOp]
  · refine agrees_of_alu .xor ⟨?_, ?_⟩ ?_ ?_ fun a _ => ?_ <;>
      simp [*, controlC1Alu, exec, dataS1, dataS2, aluOp]
  · refine agrees_of_alu .or ⟨?_, ?_⟩ ?_ ?_ fun a _ => ?_ <;>
      simp [*, controlC1Alu, exec, dataS1, dataS2, aluOp]
  · refine agrees_of_alu .and ⟨?_, ?_⟩ ?_ ?_ fun a _ => ?_ <;>
      simp [*, controlC1Alu, exec, dataS1, dataS2, aluOp]

omit h in
theorem immJ_even (p : BitVec 16) : IsEven (Rv32c.immJ p) := by
  rw [IsEven, ← BitVec.getLsbD_eq_getElem]
  simp only [Rv32c.immJ, BitVec.getLsbD_signExtend, BitVec.getLsbD_append]
  simp

omit h in
theorem immB_even (p : BitVec 16) : IsEven (Rv32c.immB p) := by
  rw [IsEven, ← BitVec.getLsbD_eq_getElem]
  simp only [Rv32c.immB, BitVec.getLsbD_signExtend, BitVec.getLsbD_append]
  simp

/-- `c.jal` and `c.j` differ in whether they link. -/
theorem agrees_c1_jump (hf : cFunct3 w = c1F3Jal ∨ cFunct3 w = c1F3J) :
    Agrees D w 2#32
      (.jal (if cFunct3 w = c1F3J then 0#5 else 1#5) (Rv32c.immJ (w.extractLsb' 0 16))) := by
  have hd := decode_of_c1 h
  refine agrees_of_jump ?_ ?_ ?_ fun a _ he => ?_
  case refine_4 =>
    have ht := and_not_one (even_add he (immJ_even (w.extractLsb' 0 16)))
    simp only [exec]
    rw [← ht]
    rcases hf with hf | hf <;>
      simp [hd, controlC1, immC1_eq, hf, c1F3NopAddi, c1F3Jal, c1F3J, dataS1, dataS2, setReg]
  all_goals rcases hf with hf | hf <;> simp [hd, controlC1, hf, c1F3NopAddi, c1F3Jal, c1F3J]

theorem agrees_c1_branch {op : BranchOp} (hf : cFunct3 w = c1F3Beq ∧ op = .beq ∨
    cFunct3 w = c1F3Bne ∧ op = .bne) :
    Agrees D w 2#32 (.branch op (creg w 7) 0#5 (Rv32c.immB (w.extractLsb' 0 16))) := by
  have hd := decode_of_c1 h
  refine agrees_of_branch ?_ ?_ ?_ ?_ ?_ ?_ ?_ ?_ (immB_even _) <;>
    rcases hf with ⟨hf, rfl⟩ | ⟨hf, rfl⟩ <;>
    simp [hd, controlC1, immC1_eq, branchmask, h, hf, mask, c1F3NopAddi, c1F3Jal, c1F3J, c1F3Li,
      c1F3LuiAddi16sp, c1F3Beq, c1F3Bne]

theorem agrees_c1 {i : Instr} (hi : Rv32c.expand1 (w.extractLsb' 0 16) = some i) :
    Agrees D w 2#32 i := by
  obtain ⟨-, hf, hrd, -, -, hrs⟩ := fields w
  have hd := decode_of_c1 h
  simp (disch := decide) only [Rv32c.expand1, hf, hrd, hrs, slice] at hi
  split_ifs at hi with h₁ h₂ h₃ h₄ h₅ h₆ h₅ h₆ h₇
  · obtain rfl := Option.some.inj hi
    refine agrees_of_alu .add ⟨?_, ?_⟩ ?_ ?_ fun a _ => ?_ <;>
      simp [hd, controlC1, immC1_eq, h₁, c1F3NopAddi, exec, dataS1, dataS2, aluOp]
  · obtain rfl := Option.some.inj hi
    simpa [h₂, c1F3J] using agrees_c1_jump (D := D) h (Or.inl h₂)
  · obtain rfl := Option.some.inj hi
    refine agrees_of_imm ⟨?_, ?_⟩ ?_ ?_ fun a h0 => ?_ <;>
      simp [hd, controlC1, immC1_eq, h₃, c1F3NopAddi, c1F3Jal, c1F3J, c1F3Li, exec, Op.eval]
    simp [h0]
  · obtain rfl := Option.some.inj hi
    refine agrees_of_alu .add ⟨?_, ?_⟩ ?_ ?_ fun a _ => ?_ <;>
      simp [hd, controlC1, immC1_eq, h₄, h₅, h₆, c1F3NopAddi, c1F3Jal, c1F3J, c1F3Li,
        c1F3LuiAddi16sp, exec, dataS1, dataS2, aluOp]
  · obtain rfl := Option.some.inj hi
    refine agrees_of_imm ⟨?_, ?_⟩ ?_ ?_ fun a _ => ?_ <;>
      simp [hd, controlC1, immC1_eq, h₄, h₅, h₆, c1F3NopAddi, c1F3Jal, c1F3J, c1F3Li,
        c1F3LuiAddi16sp, exec]
  · exact agrees_c1Alu h h₅ hi
  · obtain rfl := Option.some.inj hi
    simpa [h₆, c1F3J] using agrees_c1_jump (D := D) h (Or.inr h₆)
  · obtain rfl := Option.some.inj hi
    exact agrees_c1_branch h (Or.inl ⟨h₇, rfl⟩)
  · obtain rfl := Option.some.inj hi
    -- the one value of the field that is left
    have hlast : cFunct3 w = c1F3Bne := by
      simp only [c1F3Bne, ← BitVec.toNat_inj, BitVec.toNat_ofNat] at h₁ h₂ h₃ h₄ h₅ h₆ h₇ ⊢
      have := (cFunct3 w).isLt
      omega
    exact agrees_c1_branch h (Or.inr ⟨hlast, rfl⟩)

end quadrant1

section quadrant2
variable (h : cOp w = 2#2)
include h

theorem decode_of_c2 :
    decode w =
      { controlC2 w with imm := immC2 w, branchmask := branchmask w, funct3 := funcLw } := by
  simp [decode, Decoder.control, Decoder.imm, Decoder.funct3, h, cOpcC0, cOpcC1]

/-- The register jumps add the register that the empty `rs2` field names, `x0`. -/
theorem agrees_c2_jump (hf : cFunct3 w = c2F3Jr) (hrs : w.extractLsb' 2 5 = 0#5)
    (hrd : w.extractLsb' 7 5 ≠ 0#5) :
    Agrees D w 2#32 (.jalr (if w[12] then 1#5 else 0#5) (w.extractLsb' 7 5) 0#32) := by
  have hd := decode_of_c2 h
  refine agrees_of_jump ?_ ?_ ?_ fun a h0 _ => ?_
  case refine_4 =>
    simp only [exec]
    rw [← h0]
    cases hb : w[12] <;>
      simp [hd, controlC2, controlC2Jr, hf, hrs, hrd, hb, c2F3Slli, c2F3Lwsp, c2F3Jr, dataS1,
        dataS2, setReg]
  all_goals
    cases hb : w[12] <;>
      simp [hd, controlC2, controlC2Jr, hf, hrs, hrd, hb, c2F3Slli, c2F3Lwsp, c2F3Jr]

/-- `c.mv` and `c.add`; with `x0` as destination nothing is written. -/
theorem agrees_c2_add (hf : cFunct3 w = c2F3Jr) (hrs : w.extractLsb' 2 5 ≠ 0#5) :
    Agrees D w 2#32
      (.op .add (w.extractLsb' 7 5) (if w[12] then w.extractLsb' 7 5 else 0#5)
        (w.extractLsb' 2 5)) := by
  have hd := decode_of_c2 h
  by_cases hint : w[12] = true ∧ w.extractLsb' 7 5 = 0#5
  · obtain ⟨hb, hrd⟩ := hint
    refine agrees_of_imm ⟨?_, ?_⟩ ?_ ?_ fun a _ => ?_ <;>
      simp [hd, controlC2, controlC2Jr, hf, hrs, hrd, hb, c2F3Slli, c2F3Lwsp, c2F3Jr, exec, setReg]
  · refine agrees_of_alu .add ⟨?_, ?_⟩ ?_ ?_ fun a _ => ?_ <;>
      cases hb : w[12] <;> simp only [hb, true_and, Bool.false_eq_true] at hint <;>
      simp [hd, controlC2, controlC2Jr, hf, hrs, hint, hb, c2F3Slli, c2F3Lwsp, c2F3Jr, exec,
        dataS1, dataS2, aluOp]

theorem agrees_c2Jr (hf : cFunct3 w = c2F3Jr) {i : Instr}
    (hi : Rv32c.expandJr (w.extractLsb' 0 16) = some i) : Agrees D w 2#32 i := by
  obtain ⟨-, -, hrd, hrs, -, -⟩ := fields w
  simp (disch := decide) only [Rv32c.expandJr, hrd, hrs, slice, bit12_zero] at hi
  split_ifs at hi with h₁ h₂ h₃ h₂ h₃
  all_goals obtain rfl := Option.some.inj hi
  · simpa [h₁] using agrees_c2_jump (D := D) h hf h₂ h₃
  · simpa [h₁] using agrees_c2_add (D := D) h hf h₂
  · simpa [h₁] using agrees_c2_jump (D := D) h hf h₂ h₃
  · simpa [h₁] using agrees_c2_add (D := D) h hf h₂

theorem agrees_c2 {i : Instr} (hi : Rv32c.expand2 (w.extractLsb' 0 16) = some i) :
    Agrees D w 2#32 i := by
  obtain ⟨-, hf, hrd, hrs, -, -⟩ := fields w
  have hd := decode_of_c2 h
  simp (disch := decide) only [Rv32c.expand2, hf, hrd, hrs, slice, bit12] at hi
  split_ifs at hi with h₁ h₂ h₂ h₃ h₃ h₄
  · obtain rfl := Option.some.inj hi
    refine agrees_of_alu .sll ⟨?_, ?_⟩ ?_ ?_ fun a _ => ?_ <;>
      simp [hd, controlC2, immC2_eq, h₁, h₂, c2F3Slli, c2F3Lwsp, c2F3Swsp, exec, dataS1, dataS2,
        aluOp]
  · obtain rfl := Option.some.inj hi
    refine agrees_of_load ?_ ?_ ?_ ?_ ?_ ?_ ?_ ?_ <;>
      simp [hd, controlC2, immC2_eq, h₂, h₃, c2F3Slli, c2F3Lwsp, word_access]
  · exact agrees_c2Jr h h₃ hi
  · obtain rfl := Option.some.inj hi
    refine agrees_of_store ?_ ?_ ?_ ?_ ?_ ?_ ?_ ?_ <;>
      simp [hd, controlC2, immC2_eq, h₄, c2F3Slli, c2F3Lwsp, c2F3Jr, c2F3Swsp, word_access]

end quadrant2

/-- Every parcel, whatever stands in the upper half of the instruction register. -/
theorem agrees_of_expand {i : Instr} (hi : Rv32c.expand (w.extractLsb' 0 16) = some i) :
    Agrees D w 2#32 i := by
  obtain ⟨hop, -⟩ := fields w
  simp only [Rv32c.expand, hop] at hi
  split_ifs at hi with h₀ h₁ h₂
  · exact agrees_c0 h₀ hi
  · exact agrees_c1 h₁ hi
  · exact agrees_c2 h₂ hi

/-- A parcel that expands is not the first half of a longer instruction. -/
theorem short_of_expand {i : Instr} (hi : Rv32c.expand (w.extractLsb' 0 16) = some i) :
    instrLen w = 2#32 := by
  obtain ⟨hop, -⟩ := fields w
  simp only [Rv32c.expand, hop] at hi
  have hne : cOp w ≠ 3#2 := by
    intro h3
    simp [h3] at hi
  exact if_neg hne

/-! ## Runs -/

/-- The halfword at the program counter. -/
def parcel (D : Device M) (a : Rv32.State M) : BitVec 16 :=
  if a.pc.getLsbD 1 then (D.read a.mem 0b1111#4 a.pc).extractLsb' 16 16
  else (D.read a.mem 0b1111#4 a.pc).extractLsb' 0 16

theorem fetched_low (D : Device M) (a : Rv32.State M) :
    (fetched D a).extractLsb' 0 16 = parcel D a := by
  simp only [fetched, parcel]
  have hlow (x : BitVec 16) (y : Word) :
      (x ++ y.extractLsb' 16 16).extractLsb' 0 16 = y.extractLsb' 16 16 := by
    rw [extractLsb'_append_low _ _ 0 16 (by decide),
      extractLsb'_extractLsb' _ 16 16 0 16 (by decide)]
  split_ifs
  · exact hlow _ _
  · exact hlow _ _
  · rfl

/-- RV32C. A parcel at either halfword of a word, with anything behind it, does
what the instruction it expands to does, with length two. That instruction's
own 32-bit encoding, on any machine with the same device, does the same with
length four; the length is only in the fall-through address and the link. -/
theorem compressed_equals_expansion {v : Word} {r : Run (State.step v)} {mem : ℕ → M}
    (hs : Slave D r mem) (hr : Running r) (hq : Quiet r) (hb : Boundary (r.state 0)) {i : Instr}
    (hi : Rv32c.expand (parcel D (arch r mem 0)) = some i) :
    (∃ n, 0 < n ∧ (∀ k, 0 < k → k < n → (r.state k).state ≠ .preFetch) ∧
      Boundary (r.state n) ∧ arch r mem n = exec (memory D) 2#32 i (arch r mem 0)) ∧
    ∀ (r' : Run (State.step v)) (mem' : ℕ → M), Slave D r' mem' → Running r' → Quiet r' →
      Boundary (r'.state 0) → Rv32.decode (fetched D (arch r' mem' 0)) = some i →
      ∃ n, 0 < n ∧ (∀ k, 0 < k → k < n → (r'.state k).state ≠ .preFetch) ∧
        Boundary (r'.state n) ∧ arch r' mem' n = exec (memory D) 4#32 i (arch r' mem' 0) := by
  constructor
  · rw [← fetched_low] at hi
    have hlen := short_of_expand hi
    obtain ⟨n, hn, hpath, hbound, harch⟩ :=
      agreeing_instruction_run hs hr hq hb (hlen ▸ agrees_of_expand hi)
    exact ⟨n, hn, hpath, hbound, hlen ▸ harch⟩
  · intro r' mem' hs' hr' hq' hb' hi'
    have hlen : instrLen (fetched D (arch r' mem' 0)) = 4#32 := if_pos (long_of_decode hi')
    obtain ⟨n, hn, hpath, hbound, harch⟩ :=
      agreeing_instruction_run hs' hr' hq' hb' (hlen ▸ agrees_of_decode hi')
    exact ⟨n, hn, hpath, hbound, hlen ▸ harch⟩

/-- `c.srai x9, 3` and `srai x9, x9, 3` are one instruction. -/
example : Rv32c.expand 0x848d#16 = Rv32.decode 0x4034d493#32 := by decide

/-- `c.jalr x1` at address 2, in the upper half of its word. -/
def upperJump : Word → Byte := fun a =>
  if a = 2#32 then 0x82#8 else if a = 3#32 then 0x90#8 else 0#8

/-- With `x1 = 0x101` the jump goes to `0x100` and links 4, two bytes on. -/
theorem compressed_upper_jump :
    let s₀ := restState (fun r => if r = 1#5 then 0x101#32 else 0#32) 2#32
    let r := benchRun byteDevice thirdClock quietInputs 0#32 s₀ upperJump
    ∃ n, 0 < n ∧ Boundary (r.state n) ∧ (r.state n).pc = 0x100#32 ∧
      (r.state n).regs.regfile 1#5 = 4#32 := by
  intro s₀ r
  obtain ⟨⟨n, hn, -, hb, harch⟩, -⟩ := compressed_equals_expansion
    (benchRun_slave (v := 0#32) byteDevice thirdClock quietInputs thirdClock_recurs s₀ upperJump)
    ⟨fun _ => rfl, fun _ => rfl⟩ ⟨fun _ => rfl, fun _ => rfl, fun _ => rfl⟩
    (restState_boundary (by decide) (by decide)) (i := .jalr 1#5 1#5 0#32) (by decide)
  refine ⟨n, hn, hb, ?_, ?_⟩
  · refine (congrArg Rv32.State.pc harch).trans ?_
    decide
  · refine (congrArg (fun s => s.regs 1#5) harch).trans ?_
    decide

end TagSoc.Compressed
