import TagSoc.IllegalRun
import TagSoc.Compressed

/-!
# Reserved compressed parcels

The parcels that RV32C reserves, and the floating-point and other forms this
core does not support, are those without an expansion. The decoder sends most
of them to the trap stage, but it raises their write-back signals on the way and
the update state honours them; the word forms `c.subw` and `c.addw` and the two
encodings beside them it does not tell from `c.sub` to `c.and` at all. What a
reserved parcel leaves in the registers is worked out here parcel by parcel.
-/
namespace TagSoc.Compressed
open Clocked Cpu Datapath BitSlices Refinement Alu CpuBus Registers
open Rv32 hiding decode funct3 funct7
open Decoder hiding funct7

variable {M : Type*} {D : Device M} {v : Word}

/-- A 16-bit parcel that is not an instruction of this core. -/
def Reserved (p : BitVec 16) : Prop := Rv32c.op p ≠ 3#2 ∧ Rv32c.expand p = none

instance (p : BitVec 16) : Decidable (Reserved p) := inferInstanceAs (Decidable (_ ∧ _))

/-- The registers `x` are such that the parcel, executed as this core does, has
nothing to change in them. -/
def Untraced (x : RegFile) (p : BitVec 16) : Prop :=
  if Rv32c.op p = 0#2 ∧ Rv32c.funct3 p = 0#3 then
    -- `c.addi4spn` with a zero immediate copies the stack pointer
    x (Rv32c.rdShort p) = x 2#5
  else if Rv32c.op p = 1#2 ∧ Rv32c.funct3 p = 3#3 then
    -- `c.lui` with a zero immediate clears its destination, `c.addi16sp` adds zero
    Rv32c.rdFull p = 0#5 ∨ Rv32c.rdFull p = 2#5 ∨ x (Rv32c.rdFull p) = 0#32
  else if Rv32c.op p = 1#2 ∧ Rv32c.funct3 p = 4#3 ∧ p.extractLsb' 10 2 = 3#2 then
    -- `c.subw`, `c.addw` and the two after them are `c.sub`, `c.xor`, `c.or`, `c.and`
    if p.extractLsb' 5 2 = 0#2 ∨ p.extractLsb' 5 2 = 1#2 then x (Rv32c.rdShort p) = 0#32
    else if p.extractLsb' 5 2 = 2#2 then
      x (Rv32c.rs1Short p) ||| x (Rv32c.rdShort p) = x (Rv32c.rs1Short p)
    else x (Rv32c.rs1Short p) &&& x (Rv32c.rdShort p) = x (Rv32c.rs1Short p)
  else True

instance (x : RegFile) (p : BitVec 16) : Decidable (Untraced x p) := by
  unfold Untraced
  infer_instance

/-! ## What the decoder makes of them -/

/-- The operations that answer in the clock that starts them. -/
def oneClock (a b : Word) : AluOp → Option Word
  | .add => some (a + b)
  | .sub => some (a - b)
  | .and => some (a &&& b)
  | .or => some (a ||| b)
  | .xor => some (a ^^^ b)
  | _ => none

theorem step_oneClock {s : Alu.State} {op : AluOp} {a b y : Word} (hb : s.busy = false)
    (h : oneClock a b op = some y) :
    (s.step ⟨true, false, a, b, op⟩).busy = false ∧ (s.step ⟨true, false, a, b, op⟩).result = y := by
  cases op <;> simp only [oneClock, Option.some.injEq, reduceCtorEq] at h <;> subst h <;>
    simp [Alu.State.step, Alu.State.run, hb, Inputs.sum, Inputs.myand, Inputs.myor, Inputs.myxor,
      sub_low]

/-- The register file after the update state, `y` being the ALU's result. -/
def outcome (d : Decoded) (x : RegFile) (y : Word) : RegFile :=
  if d.writebackFromImm || d.writebackFromAlu then
    RegFile.write x d.rd (if d.writebackFromAlu then y else d.imm)
  else x

/-- A reserved parcel either hangs the machine in a shift or is through in
three clocks, with the given outcome. -/
def Effect (d : Decoded) (x : RegFile) (pc : Word) (quiet : Prop) : Prop :=
  (d.execNextStage = .toTrap ∧ d.aluOper.isShift = true ∧ quiet) ∨
    ∃ y, (d.execNextStage = .toTrap ∨ d.execNextStage = .toFetch ∧ d.nextPcFromAlu = false) ∧
      oneClock (dataS1 d ⟨x, pc, ()⟩) (dataS2 d ⟨x, pc, ()⟩) d.aluOper = some y ∧
      (outcome d x y = x ↔ quiet)

section
variable {w : Word} {x : RegFile} {pc : Word} {quiet : Prop}

/-- Most reserved parcels ask for no write-back. -/
theorem effect_silent {d : Decoded} (hst : d.execNextStage = .toTrap) (hop : d.aluOper = .add)
    (himm : d.writebackFromImm = false) (halu : d.writebackFromAlu = false) (hq : quiet) :
    Effect d x pc quiet := by
  refine Or.inr ⟨_, Or.inl hst, by rw [hop]; rfl, ?_⟩
  simp [outcome, himm, halu, hq]

theorem effect_write {d : Decoded} {y : Word}
    (hst : d.execNextStage = .toTrap ∨ d.execNextStage = .toFetch ∧ d.nextPcFromAlu = false)
    (hop : oneClock (dataS1 d ⟨x, pc, ()⟩) (dataS2 d ⟨x, pc, ()⟩) d.aluOper = some y)
    (halu : d.writebackFromAlu = true) (hq : (d.rd = 0#5 ∨ x d.rd = y) ↔ quiet) :
    Effect d x pc quiet := by
  refine Or.inr ⟨y, hst, hop, ?_⟩
  simp [outcome, halu, write_eq_self, hq]

/-- A field within a field that is zero. -/
theorem subfield_zero {k n : ℕ} (h : w.extractLsb' k n = 0#n) (j m : ℕ) (hj : k ≤ j)
    (hjn : j + m ≤ k + n) : w.extractLsb' j m = 0#m := by
  have hsub := extractLsb'_extractLsb' w k n (j - k) m (by omega)
  rw [Nat.add_sub_cancel' hj, h] at hsub
  rw [← hsub]
  simp

theorem immC0_zero (hf : cFunct3 w = c0F3Addi4spn) (h : w.extractLsb' 5 8 = 0#8) :
    immC0 w = 0#32 := by
  have hz := subfield_zero h
  rw [immC0, if_pos hf, hz 7 4 (by decide) (by decide), hz 11 2 (by decide) (by decide),
    hz 5 1 (by decide) (by decide), hz 6 1 (by decide) (by decide)]
  rfl

/-- The immediates of `c.lui` and `c.addi16sp` are made of the same bits. -/
theorem immC1_zero (hf : cFunct3 w = c1F3LuiAddi16sp) (h₁ : w.extractLsb' 12 1 = 0#1)
    (h₂ : w.extractLsb' 2 5 = 0#5) : immC1 w = 0#32 := by
  have hz := subfield_zero h₂
  have hne : cFunct3 w ≠ 0b100#3 ∧ cFunct3 w ≠ c1F3NopAddi ∧
      ¬ (cFunct3 w = c1F3J ∨ cFunct3 w = c1F3Jal) ∧ cFunct3 w ≠ c1F3Li := by
    rw [hf]
    decide
  rw [immC1, if_pos hne.1, if_neg hne.2.1, if_neg hne.2.2.1, if_neg hne.2.2.2, if_pos hf, h₁,
    hz 3 2 (by decide) (by decide), hz 5 1 (by decide) (by decide),
    hz 2 1 (by decide) (by decide), hz 6 1 (by decide) (by decide), h₂]
  split_ifs <;> rfl

theorem creg_ne_zero (w : Word) (lo : ℕ) : creg w lo ≠ 0#5 := by
  rw [creg]
  generalize w.extractLsb' lo 3 = y
  revert y
  decide

theorem effect_c0 (h : cOp w = 0#2) (hn : Rv32c.expand0 (w.extractLsb' 0 16) = none) :
    Effect (decode w) x pc (Untraced x (w.extractLsb' 0 16)) := by
  obtain ⟨hop, hf, -, -, hrd, hrs⟩ := fields w
  have hd := decode_of_c0 h
  simp (disch := decide) only [Rv32c.expand0, hf, hrd, hrs, slice] at hn
  by_cases h₁ : cFunct3 w = 0#3
  · by_cases h₂ : w.extractLsb' 5 8 = 0#8
    · -- the stack pointer plus zero, written to the destination
      have hz := immC0_zero h₁ h₂
      have hne := creg_ne_zero w 2
      refine effect_write (y := x 2#5) (Or.inl ?_) ?_ ?_ ?_
      · simp [hd, controlC0, c0F3Addi4spn, h₁, h₂, illegalInstrState]
      · simp [hd, controlC0, c0F3Addi4spn, h₁, oneClock, dataS1, dataS2, hz]
      · simp [hd, controlC0, c0F3Addi4spn, h₁]
      · simp [hd, controlC0, c0F3Addi4spn, h₁, Untraced, hop, h, hf, hrd, hne]
    · simp [h₁, h₂] at hn
  · have h₂ : cFunct3 w ≠ 2#3 := fun h₂ => by simp [h₂] at hn
    have h₃ : cFunct3 w ≠ 6#3 := fun h₃ => by simp [h₃] at hn
    refine effect_silent ?_ ?_ ?_ ?_ ?_ <;>
      simp [hd, controlC0, c0F3Addi4spn, c0F3Lw, c0F3Sw, h₁, h₂, h₃, illegalInstrState, Untraced,
        hop, h, hf]

theorem append_zero {a : BitVec 1} {b : BitVec 5} (h : a ++ b = 0#6) : a = 0#1 ∧ b = 0#5 := by
  revert a b
  decide

theorem two_bits (y : BitVec 2) : y = 0#2 ∨ y = 1#2 ∨ y = 2#2 ∨ y = 3#2 := by
  revert y
  decide

/-- The block with shifts: a shift amount of 32 or more hangs the ALU, the word
forms are taken for the plain ones. -/
theorem effect_c1Alu (h : cOp w = 1#2) (hf : cFunct3 w = 4#3)
    (hn : Rv32c.expandAlu (w.extractLsb' 0 16) = none) :
    Effect (decode w) x pc (Untraced x (w.extractLsb' 0 16)) := by
  obtain ⟨hop, hf3, -, -, hrd, hrs⟩ := fields w
  have hd := decode_of_c1 h
  have hne := creg_ne_zero w 7
  simp (disch := decide) only [Rv32c.expandAlu, hrd, hrs, slice, bit12] at hn
  split_ifs at hn with h₁ h₂ h₁ h₂ h₁ h₂
  · left
    refine ⟨?_, ?_, ?_⟩ <;>
      simp (disch := decide) [hd, controlC1Alu, hf, h₁, h₂, illegalInstrState, AluOp.isShift,
        Untraced, hop, h, hf3]
  · left
    refine ⟨?_, ?_, ?_⟩ <;>
      simp (disch := decide) [hd, controlC1Alu, hf, h₁, h₂, illegalInstrState, AluOp.isShift,
        Untraced, hop, h, hf3]
  · have h₃ : w.extractLsb' 10 2 = 3#2 := by
      rename_i h₀ h₁'
      revert h₀ h₁' h₁
      generalize w.extractLsb' 10 2 = y
      revert y
      decide
    have hfin : ∀ (op : AluOp) (y : Word), (decode w).aluOper = op →
        oneClock (x (creg w 7)) (x (creg w 2)) op = some y →
        (x (creg w 7) = y ↔ Untraced x (w.extractLsb' 0 16)) →
        Effect (decode w) x pc (Untraced x (w.extractLsb' 0 16)) := by
      intro op y hop' hy hiff
      refine effect_write (y := y) (Or.inr ⟨?_, ?_⟩) ?_ ?_ ?_
      · simp [hd, controlC1Alu, hf, h₃]
      · simp [hd, controlC1Alu, hf, h₃]
      · rw [hop', ← hy]
        simp [hd, controlC1Alu, hf, h₃, dataS1, dataS2]
      · simp [hd, controlC1Alu, hf, h₃]
      · rw [← hiff]
        simp [hd, controlC1Alu, hf, h₃, hne]
    have hun : Untraced x (w.extractLsb' 0 16) ↔
        if w.extractLsb' 5 2 = 0#2 ∨ w.extractLsb' 5 2 = 1#2 then x (creg w 2) = 0#32
        else if w.extractLsb' 5 2 = 2#2 then x (creg w 7) ||| x (creg w 2) = x (creg w 7)
        else x (creg w 7) &&& x (creg w 2) = x (creg w 7) := by
      simp (disch := decide) only [Untraced, hop, h, hf3, hf, hrd, hrs, slice, h₃]
      simp
    rcases two_bits (w.extractLsb' 5 2) with h₄ | h₄ | h₄ | h₄
    · refine hfin .sub _ ?_ rfl ?_
      · simp [hd, controlC1Alu, hf, h₃, h₄]
      · rw [hun, h₄]
        simp [eq_comm (a := x (creg w 7))]
    · refine hfin .xor _ ?_ rfl ?_
      · simp [hd, controlC1Alu, hf, h₃, h₄]
      · have hxor := BitVec.xor_right_inj (x := x (creg w 2)) (y := 0#32) (x (creg w 7))
        rw [hun, h₄, if_pos (Or.inr rfl), eq_comm]
        rw [BitVec.xor_zero] at hxor
        exact hxor
    · refine hfin .or _ ?_ rfl ?_
      · simp [hd, controlC1Alu, hf, h₃, h₄]
      · rw [hun, h₄]
        simp [eq_comm (a := x (creg w 7))]
    · refine hfin .and _ ?_ rfl ?_
      · simp [hd, controlC1Alu, hf, h₃, h₄]
      · rw [hun, h₄]
        simp [eq_comm (a := x (creg w 7))]

theorem effect_c1 (h : cOp w = 1#2) (hn : Rv32c.expand1 (w.extractLsb' 0 16) = none) :
    Effect (decode w) x pc (Untraced x (w.extractLsb' 0 16)) := by
  obtain ⟨hop, hf, hrd, -, -, hrs⟩ := fields w
  have hd := decode_of_c1 h
  simp (disch := decide) only [Rv32c.expand1, hf, hrd, hrs, slice] at hn
  split_ifs at hn with h₁ h₂ h₃ h₄ h₅ h₆ h₅ h₆ h₇
  · obtain ⟨g₁, g₂⟩ := append_zero h₅
    have hz := immC1_zero h₄ g₁ g₂
    by_cases h2 : w.extractLsb' 7 5 = 2#5
    · refine effect_write (y := x 2#5) (Or.inl ?_) ?_ ?_ ?_
      · simp [hd, controlC1, h₄, h2, g₁, g₂, c1F3NopAddi, c1F3Jal, c1F3J, c1F3Li, c1F3LuiAddi16sp,
          illegalInstrState]
      · simp [hd, controlC1, h₄, h2, c1F3NopAddi, c1F3Jal, c1F3J, c1F3Li, c1F3LuiAddi16sp,
          oneClock, dataS1, dataS2, hz]
      · simp [hd, controlC1, h₄, h2, c1F3NopAddi, c1F3Jal, c1F3J, c1F3Li, c1F3LuiAddi16sp]
      · simp [hd, controlC1, h₄, h2, c1F3NopAddi, c1F3Jal, c1F3J, c1F3Li, c1F3LuiAddi16sp,
          Untraced, hop, h, hf, hrd]
    · right
      refine ⟨dataS1 (decode w) ⟨x, pc, ()⟩ + dataS2 (decode w) ⟨x, pc, ()⟩, Or.inl ?_, ?_, ?_⟩
      · simp [hd, controlC1, h₄, h2, g₁, g₂, c1F3NopAddi, c1F3Jal, c1F3J, c1F3Li, c1F3LuiAddi16sp,
          illegalInstrState]
      · simp [hd, controlC1, h₄, h2, c1F3NopAddi, c1F3Jal, c1F3J, c1F3Li, c1F3LuiAddi16sp, oneClock]
      · simp [hd, controlC1, h₄, h2, c1F3NopAddi, c1F3Jal, c1F3J, c1F3Li, c1F3LuiAddi16sp,
          outcome, write_eq_self, hz, Untraced, hop, h, hf, hrd]
  · exact effect_c1Alu h h₅ hn

theorem effect_c2 (h : cOp w = 2#2) (hn : Rv32c.expand2 (w.extractLsb' 0 16) = none) :
    Effect (decode w) x pc (Untraced x (w.extractLsb' 0 16)) := by
  obtain ⟨hop, hf, hrd, hrs, -, -⟩ := fields w
  have hd := decode_of_c2 h
  have hquiet : Untraced x (w.extractLsb' 0 16) := by simp [Untraced, hop, h]
  simp (disch := decide) only [Rv32c.expand2, hf, hrd, hrs, slice, bit12] at hn
  split_ifs at hn with h₁ h₂ h₂ h₃ h₃ h₄
  · left
    refine ⟨?_, ?_, hquiet⟩ <;>
      simp [hd, controlC2, c2F3Slli, h₁, h₂, illegalInstrState, AluOp.isShift]
  · refine effect_silent ?_ ?_ ?_ ?_ hquiet <;>
      simp [hd, controlC2, c2F3Slli, c2F3Lwsp, h₂, h₃, illegalInstrState]
  · simp (disch := decide) only [Rv32c.expandJr, hrd, hrs, slice, bit12_zero] at hn
    split_ifs at hn with h₄ h₅ h₆ h₅ h₆
    · refine effect_silent ?_ ?_ ?_ ?_ hquiet <;>
        simp [hd, controlC2, controlC2Jr, c2F3Slli, c2F3Lwsp, c2F3Jr, h₃, h₄, h₅, h₆, illegalInstrState]
    · rw [Bool.not_eq_false] at h₄
      refine effect_silent ?_ ?_ ?_ ?_ hquiet <;>
        simp [hd, controlC2, controlC2Jr, c2F3Slli, c2F3Lwsp, c2F3Jr, h₃, h₄, h₅, h₆, illegalInstrState]
  · refine effect_silent ?_ ?_ ?_ ?_ hquiet <;>
      simp [hd, controlC2, c2F3Slli, c2F3Lwsp, c2F3Jr, c2F3Swsp, h₁, h₂, h₃, h₄, illegalInstrState]

/-- Every reserved parcel, whatever stands in the upper half of the instruction
register. -/
theorem effect_of_reserved (x : RegFile) (pc : Word) (h : Reserved (w.extractLsb' 0 16)) :
    Effect (decode w) x pc (Untraced x (w.extractLsb' 0 16)) := by
  obtain ⟨hop, -⟩ := fields w
  obtain ⟨hne, hn⟩ := h
  simp only [Rv32c.expand, hop] at hn hne
  rcases two_bits (cOp w) with h₀ | h₀ | h₀ | h₀
  · exact effect_c0 h₀ (by simpa [h₀] using hn)
  · exact effect_c1 h₀ (by simpa [h₀] using hn)
  · exact effect_c2 h₀ (by simpa [h₀] using hn)
  · exact absurd h₀ hne

end

/-! ## Their execution -/

/-- What the decoder writes back without the ALU is the immediate. -/
theorem toFetch_imm {s : Cpu.State} (hd : s.dec.execNextStage = .toFetch)
    (hw : s.dec.writebackFromImm = true) : s.dec.muxRegInputSel = .imm := by
  have hl := dec_legal s
  rw [Decoder.Control.legal, hd] at hl
  revert hl
  cases s.dec.nextPcFromAlu <;> simp [hw]

section run
variable {r : Run (State.step v)} {t : ℕ} (hc : ∀ n, t ≤ n → Coherent (r.state n))
  (hu : ∀ n, t ≤ n → Undisturbed (r.state n) (r.input n))
  (hs : (r.state t).state = .exec)
include hc hu hs

/-- An operation of one clock that goes on to the post-execute state. -/
theorem plain_run (hd : (r.state t).dec.execNextStage = .toFetch)
    (hj : (r.state t).dec.nextPcFromAlu = false)
    (hb : ((r.state t).alu.step ((r.state t).execAlu true)).busy = false) :
    (r.state (t + 1)).state = .postExec ∧ (r.state (t + 1)).regs = (r.state t).regs ∧
      (r.state (t + 2)).state = .updatePc ∧ (r.state (t + 2)).regs = (r.state t).regs ∧
      (r.state (t + 3)).atBoundary = true ∧
      (r.state (t + 3)).regs.regfile = outcome (r.state t).dec (r.state t).regs.regfile
        ((r.state t).alu.step ((r.state t).execAlu true)).result := by
  have hflags := (hc t le_rfl).plain (by rw [hs]; rfl)
  have h₁ : r.state (t + 1) = { r.state t with
      state := .postExec
      execDone := true
      alu := (r.state t).alu.step ((r.state t).execAlu true)
      csr := (r.state t).csr.rest } := by
    rw [r.next, step_exec (hc t le_rfl) (hu t le_rfl) hs, hd, hj]
    rfl
  have h₂ : r.state (t + 2) = { r.state t with
      state := .updatePc
      execDone := true
      alu := (r.state t).alu.step ((r.state t).execAlu true)
      csr := (r.state t).csr.rest.rest } := by
    have hc₁ := hc (t + 1) (by omega)
    have hu₁ := hu (t + 1) (by omega)
    rw [r.next (t + 1)]
    rw [h₁] at hc₁ hu₁ ⊢
    rw [step_postExec hc₁ hu₁ rfl, if_neg (by rw [hb]; exact Bool.false_ne_true)]
    congr 1
    exact Alu.step_idle hb _ _ _
  have h₃ := step_updatePc (v := v) (hc (t + 2) (by omega)) (hu (t + 2) (by omega)) (by rw [h₂])
    (by rw [h₂]; exact Csr.rest_busy _)
  rw [← r.next (t + 2)] at h₃
  refine ⟨by rw [h₁], by rw [h₁], by rw [h₂], by rw [h₂], ?_, ?_⟩
  · rw [State.atBoundary, h₃]
    dsimp only
    split_ifs <;> rfl
  · have hregs := update_regs (r.state t) (r.state (t + 2)) (by rw [h₂]; rfl)
      (by rw [h₂]) (by rw [h₂]; exact hflags.1) (by rw [h₂]) (toFetch_imm hd)
    rw [h₃, hregs, h₂, outcome]
    split_ifs <;> rfl

/-- Both ways through the three clocks: nothing happens until the update. -/
theorem quick_run {y : Word}
    (hst : (r.state t).dec.execNextStage = .toTrap ∨
      (r.state t).dec.execNextStage = .toFetch ∧ (r.state t).dec.nextPcFromAlu = false)
    (hy : oneClock ((r.state t).aluDataS1 (r.state t).dec.muxAluS1Sel)
      ((r.state t).aluDataS2 (r.state t).dec.muxAluS2Sel) (r.state t).dec.aluOper = some y) :
    (∀ k, t < k → k < t + 3 → (r.state k).atBoundary = false ∧
        (r.state k).state.usesBus = false ∧ (r.state k).regs = (r.state t).regs) ∧
      (r.state (t + 3)).atBoundary = true ∧
      (r.state (t + 3)).regs.regfile = outcome (r.state t).dec (r.state t).regs.regfile y := by
  obtain ⟨hb, hres⟩ := step_oneClock ((hc t le_rfl).alu_free (by rw [hs]; rfl)) hy
  have hsplit : ∀ (P : ℕ → Prop), P (t + 1) → P (t + 2) → ∀ k, t < k → k < t + 3 → P k := by
    intro P h₁ h₂ k hk hlt
    rcases (by omega : k = t + 1 ∨ k = t + 2) with rfl | rfl
    · exact h₁
    · exact h₂
  rcases hst with hd | ⟨hd, hj⟩
  · have hop := (toTrap_aluOper _ hd).1
    have hsh : (r.state t).startsShift = false := by
      refine Bool.eq_false_iff.mpr fun hsh => ?_
      change (r.state t).dec.aluOper.isShift = true at hsh
      cases hcase : (r.state t).dec.aluOper <;> rw [hcase] at hsh hy <;>
        first | exact absurd hsh (by decide) | simp [oneClock] at hy
    have hadd : (r.state t).dec.aluOper = .add := hop.resolve_right (by
      rw [Bool.not_eq_true]
      exact hsh)
    have h₁ := illegal_exec hc hu hs hd
    obtain ⟨-, h₂, h₃, h₄⟩ := illegal_run hc hu hs hd hsh
    refine ⟨hsplit _ ?_ ?_, ?_, ?_⟩
    · rw [State.atBoundary, h₁]
      exact ⟨rfl, rfl, rfl⟩
    · rw [State.atBoundary, h₂]
      exact ⟨rfl, rfl, h₃⟩
    · rw [State.atBoundary, h₄]
      dsimp only
      split_ifs <;> rfl
    · rw [hadd, oneClock, Option.some.injEq] at hy
      rw [h₄, outcome, ← hy]
      dsimp only
      split_ifs <;> rfl
  · obtain ⟨h₁, h₁', h₂, h₂', h₃, h₄⟩ := plain_run hc hu hs hd hj hb
    refine ⟨hsplit _ ?_ ?_, h₃, h₄.trans ?_⟩
    · rw [State.atBoundary, h₁]
      exact ⟨rfl, rfl, h₁'⟩
    · rw [State.atBoundary, h₂]
      exact ⟨rfl, rfl, h₂'⟩
    · rw [← hres]
      rfl

end run

/-- Reserved parcels. In every clock up to the next instruction the registers
and the memory are as they were exactly when the registers are such that the
parcel, taken for the instruction it resembles, would not change them. -/
theorem reserved_parcel_leaves_no_trace {r : Run (State.step v)} {mem : ℕ → M}
    (hs : Slave D r mem) (hr : Running r) (h0 : Coherent (r.state 0))
    (ht : (r.state 0).state = .preFetch) (hno : Uninterrupted r 0)
    (hp : Reserved (parcel D (arch r mem 0))) :
    (∀ n, (∀ k, 0 < k → k < n → (r.state k).atBoundary = false) →
      (r.state n).regs.regfile = (r.state 0).regs.regfile ∧ mem n = mem 0) ↔
      Untraced (r.state 0).regs.regfile (parcel D (arch r mem 0)) := by
  have hc := hr.coherent h0
  have hu := hs.undisturbed hr
  obtain ⟨e, he, hx⟩ := exec_run hs hr hc ht hno
  obtain ⟨hdec, hs₁, hs₂⟩ := hx.operands
  obtain ⟨hregs, hmem⟩ := hx.frame e he.le le_rfl
  rw [← fetched_low] at hp ⊢
  rcases effect_of_reserved (r.state 0).regs.regfile (r.state 0).pc hp with
    ⟨hst, hsh, hq⟩ | ⟨y, hst, hy, hiff⟩
  · -- the machine hangs, and nothing is ever written
    refine ⟨fun _ => hq, fun _ n _ => ?_⟩
    rcases Nat.lt_or_ge e n with hn | hn
    · have hstuck : ∀ k, e < k → _ := fun k hk =>
        illegal_stuck (fun n _ => hc n) (fun n _ => hu n) hx.state (by rw [hdec]; exact hst)
          (by rw [State.startsShift, hdec]; exact hsh) hk
      refine ⟨?_, ?_⟩
      · rw [(hstuck n hn).2.2.2]
        exact hregs
      · rw [← hmem]
        refine hs.mem_const hc hn.le fun k hk hkn => ?_
        rcases Nat.eq_or_lt_of_le hk with rfl | hk
        · rw [hx.state]; rfl
        · rw [(hstuck k hk).1]; rfl
    · exact hx.frame n (Nat.zero_le n) hn
  · obtain ⟨hpath, hbound, hfin⟩ := quick_run (fun n _ => hc n) (fun n _ => hu n) hx.state
      (by rw [hdec]; exact hst) (by rw [hdec, hs₁, hs₂]; exact hy)
    rw [hdec, hregs] at hfin
    rw [← hiff, ← hfin]
    constructor
    · intro hall
      refine (hall (e + 3) fun k hk hlt => ?_).1
      rcases Nat.lt_trichotomy k e with h | rfl | h
      · exact atBoundary_of_fetching (hx.path k hk h)
      · rw [State.atBoundary, hx.state]; rfl
      · exact (hpath k h hlt).1
    · intro heq n hn
      have hle : n ≤ e + 3 := by
        by_contra hlt
        rw [hn (e + 3) (by omega) (by omega)] at hbound
        exact Bool.false_ne_true hbound
      rcases Nat.lt_or_ge e n with hen | hen
      · have hmem' : mem n = mem e := hs.mem_const hc hen.le fun k hk hkn => by
          rcases Nat.eq_or_lt_of_le hk with rfl | hk
          · rw [hx.state]; rfl
          · exact (hpath k hk (by omega)).2.1
        refine ⟨?_, hmem'.trans hmem⟩
        rcases Nat.eq_or_lt_of_le hle with rfl | hlt
        · exact heq
        · rw [(hpath n hen hlt).2.2]
          exact hregs
      · exact hx.frame n (Nat.zero_le n) hen

/-- `c.addi4spn x9, 0` at address 0. -/
def reservedMem : Word → Byte := fun a => if a = 0#32 then 4#8 else 0#8

/-- With all registers zero there is nothing to see. -/
theorem reserved_parcel_all_zero :
    let r := benchRun byteDevice (fun _ => true) quietInputs 0#32 (restState (fun _ => 0#32) 0#32)
      reservedMem
    ∀ n, (∀ k, 0 < k → k < n → (r.state k).atBoundary = false) →
      (r.state n).regs.regfile = fun _ => 0#32 := by
  intro r n hn
  have hquiet : Quiet r := quietInputs_quiet _ _ _ _
  exact (((reserved_parcel_leaves_no_trace (benchRun_slave (v := 0#32) byteDevice (fun _ => true)
    quietInputs (fun t => ⟨t, le_rfl, rfl⟩) (restState (fun _ => 0#32) 0#32) reservedMem)
    ⟨fun _ => rfl, fun _ => rfl⟩ (restState_boundary rfl (by decide)).coherent rfl
    (hquiet.uninterrupted 0) (by decide)).mpr (by decide)) n hn).1

/-- With a stack pointer of 5 the reserved parcel copies it to `x9`: at the next
instruction, seven clocks later, `x9` has changed. -/
theorem reserved_parcel_copies_sp :
    let s₀ := restState (fun k => if k = 2#5 then 5#32 else 0#32) 0#32
    let r := benchRun byteDevice (fun _ => true) quietInputs 0#32 s₀ reservedMem
    let mem := benchMem byteDevice (fun _ => true) quietInputs 0#32 s₀ reservedMem
    Slave byteDevice r mem ∧ Running r ∧ Coherent (r.state 0) ∧ (r.state 0).state = .preFetch ∧
      Uninterrupted r 0 ∧ Reserved (parcel byteDevice (arch r mem 0)) ∧
      ¬ ∀ n, (∀ k, 0 < k → k < n → (r.state k).atBoundary = false) →
        (r.state n).regs.regfile = (r.state 0).regs.regfile ∧ mem n = mem 0 := by
  intro s₀ r mem
  have hquiet : Quiet r := quietInputs_quiet _ _ _ _
  refine ⟨benchRun_slave _ _ _ (fun t => ⟨t, le_rfl, rfl⟩) _ _, ⟨fun _ => rfl, fun _ => rfl⟩,
    (restState_boundary rfl (by decide)).coherent, rfl, hquiet.uninterrupted 0, by decide, ?_⟩
  intro hall
  have hnine := congrFun (hall 7 fun k hk hlt => by interval_cases k <;> decide).1 9#5
  exact absurd hnine (by decide)

end TagSoc.Compressed
