import Mathlib.Data.Nat.Count
import TagSoc.MachineRun
import TagSoc.Compressed

/-!
# Programs

The instruction set as a program sees it: the base instructions, their compressed forms
and the M extension, read from the bytes at the program counter, one after the other.
`isaRun` carries out a number of them; it has no result where an encoding is not defined
or an access is not aligned, and none for the signed remainders that the divider gets
wrong. With interrupts off the processor does the same, whatever the bus and the
interrupt lines do.
-/
namespace TagSoc.Rv32m
open Rv32 Alu

/-! ## The M extension -/

inductive MulOp where
  | mul | mulh | mulhsu | mulhu | div | divu | rem | remu
deriving Repr, DecidableEq

def decode (w : Word) : Option MulOp :=
  if major w = 0b0110011#7 ∧ funct7 w = 0b0000001#7 then
    if funct3 w = 0b000#3 then some .mul
    else if funct3 w = 0b001#3 then some .mulh
    else if funct3 w = 0b010#3 then some .mulhsu
    else if funct3 w = 0b011#3 then some .mulhu
    else if funct3 w = 0b100#3 then some .div
    else if funct3 w = 0b101#3 then some .divu
    else if funct3 w = 0b110#3 then some .rem
    else some .remu
  else none

def MulOp.eval : MulOp → Word → Word → Word
  | .mul, a, b => a * b
  | .mulh, a, b => BitVec.ofInt 32 (a.toInt * b.toInt / 2 ^ 32)
  | .mulhsu, a, b => BitVec.ofInt 32 (a.toInt * b.toNat / 2 ^ 32)
  | .mulhu, a, b => BitVec.ofInt 32 (a.toNat * b.toNat / 2 ^ 32)
  | .div, a, b => quotient a b
  | .divu, a, b => quotientU a b
  | .rem, a, b => remainder a b
  | .remu, a, b => remainderU a b

/-- The operands for which the remainder has no sign to lose. -/
def MulOp.Exact (op : MulOp) (a b : Word) : Prop :=
  op = .rem → b = 0#32 ∨ 0 ≤ a.toInt ∨ b.toInt ∣ a.toInt

instance (op : MulOp) (a b : Word) : Decidable (op.Exact a b) := by
  unfold MulOp.Exact
  infer_instance

def aluOp : MulOp → AluOp
  | .mul => .mul
  | .mulh => .mulh
  | .mulhsu => .mulhsu
  | .mulhu => .mulhu
  | .div => .div
  | .divu => .divu
  | .rem => .rem
  | .remu => .remu

/-! The products as integers -/

theorem mulss_eq_ofInt (a b : Word) : mulss a b = BitVec.ofInt 64 (a.toInt * b.toInt) := by
  rw [BitVec.ofInt_mul]
  rfl

theorem mulsu_eq_ofInt (a b : Word) : mulsu a b = BitVec.ofInt 64 (a.toInt * b.toNat) := by
  rw [BitVec.ofInt_mul, mulsu, setWidth_eq_ofInt]
  rfl

theorem muluu_eq_ofInt (a b : Word) : muluu a b = BitVec.ofInt 64 (a.toNat * b.toNat) := by
  rw [BitVec.ofInt_mul, muluu, setWidth_eq_ofInt, setWidth_eq_ofInt]

theorem value_mul (a b : Word) : value .mul a b = a * b := by
  change (mulss a b).extractLsb' 0 32 = _
  rw [mulss_eq_ofInt, low_word, BitVec.ofInt_mul, BitVec.ofInt_toInt, BitVec.ofInt_toInt]

theorem value_div (a b : Word) : value .div a b = quotient a b := by
  rw [value, quotient, quotient_eq]
  rfl

theorem value_divu (a b : Word) : value .divu a b = quotientU a b := by
  have hq : BitVec.ofNat 32 (a.toNat / b.toNat) = a / b := by
    apply BitVec.eq_of_toNat_eq
    rw [BitVec.toNat_ofNat, BitVec.toNat_udiv]
    exact Nat.mod_eq_of_lt (lt_of_le_of_lt (Nat.div_le_self _ _) a.isLt)
  rw [value, quotientU, hq]
  rfl

theorem value_remu (a b : Word) : value .remu a b = remainderU a b := by
  have hm : BitVec.ofNat 32 (a.toNat % b.toNat) = a % b := by
    apply BitVec.eq_of_toNat_eq
    rw [BitVec.toNat_ofNat, BitVec.toNat_umod]
    exact Nat.mod_eq_of_lt (lt_of_le_of_lt (Nat.mod_le _ _) a.isLt)
  rw [value, remainderU, hm]
  rfl

/-- The three pairs that the divider treats by hand have a sign to lose. -/
theorem corner_inexact {a b : Word} (hc : Inputs.remCorner ⟨true, false, a, b, .rem⟩ = true) :
    ¬ (b = 0#32 ∨ 0 ≤ a.toInt ∨ b.toInt ∣ a.toInt) := by
  have hpair : (a = 0xffffffff#32 ∧ b = 0x80000000#32) ∨ (a = 0xffffffff#32 ∧ b = 0x7fffffff#32) ∨
      (a = 0x80000000#32 ∧ b = 0x7fffffff#32) := by
    simpa [Inputs.remCorner, and_or_left, or_assoc] using hc
  obtain ⟨rfl, rfl⟩ | ⟨rfl, rfl⟩ | ⟨rfl, rfl⟩ := hpair <;> decide

theorem value_rem {a b : Word} (h : b = 0#32 ∨ 0 ≤ a.toInt ∨ b.toInt ∣ a.toInt) :
    value .rem a b = remainder a b := by
  rw [value, remainder]
  split_ifs with hb hc
  · rfl
  · exact absurd h (corner_inexact hc)
  · exact (magnitude_mod_eq_iff a hb).mpr (h.resolve_left hb)

theorem value_aluOp (op : MulOp) {a b : Word} (h : op.Exact a b) :
    value (aluOp op) a b = op.eval a b := by
  cases op
  case mul => exact value_mul a b
  case mulh =>
    change (mulss a b).extractLsb' 32 32 = _
    rw [mulss_eq_ofInt, high_word]
    rfl
  case mulhsu =>
    change (mulsu a b).extractLsb' 32 32 = _
    rw [mulsu_eq_ofInt, high_word]
    rfl
  case mulhu =>
    change (muluu a b).extractLsb' 32 32 = _
    rw [muluu_eq_ofInt, high_word]
    rfl
  case div => exact value_div a b
  case divu => exact value_divu a b
  case rem => exact value_rem (h rfl)
  case remu => exact value_remu a b

end TagSoc.Rv32m

namespace TagSoc.Program
open Clocked Cpu Rv32 Datapath Agreement Compressed Refinement BitSlices

variable {M L : Type*} [DecidableEq L]

/-! ## One instruction -/

/-- A base instruction of the given length, where its access is aligned. -/
def baseStep (loc : Word → L) (len : Word) (i : Instr) (s : Rv32.State (L → Byte)) :
    Option (Rv32.State (L → Byte)) :=
  if i.NaturallyAligned s.regs then some (exec (byteMemory loc) len i s) else none

def mulStep (w : Word) (op : Rv32m.MulOp) (s : Rv32.State M) : Option (Rv32.State M) :=
  let a := s.regs (rs1 w)
  let b := s.regs (rs2 w)
  if op.Exact a b then
    some { s with regs := setReg s.regs (rd w) (op.eval a b), pc := s.pc + 4#32 }
  else none

/-- The instruction at the program counter, and where it leads. -/
def isaStep (loc : Word → L) (s : Rv32.State (L → Byte)) : Option (Rv32.State (L → Byte)) :=
  let w := readWord loc s.mem s.pc
  if w.extractLsb' 0 2 = 3#2 then
    match Rv32.decode w with
    | some i => baseStep loc 4#32 i s
    | none => (Rv32m.decode w).bind fun op => mulStep w op s
  else (Rv32c.expand (readHalf loc s.mem s.pc)).bind fun i => baseStep loc 2#32 i s

def isaRun (loc : Word → L) : ℕ → Rv32.State (L → Byte) → Option (Rv32.State (L → Byte))
  | 0, s => some s
  | n + 1, s => (isaStep loc s).bind (isaRun loc n)

/-! ## The decoder and the ALU do it -/

/-- What the datapath makes of the word at the program counter. -/
def datapath (D : Device M) (a : Rv32.State M) : Rv32.State M :=
  let w := fetched D a
  dataStep (Decoder.decode w) a D (instrLen w)
    (Alu.value (Decoder.decode w).aluOper (dataS1 (Decoder.decode w) a) (dataS2 (Decoder.decode w) a))

theorem datapath_of_agrees {D : Device M} {a : Rv32.State M} {i : Instr} (h0 : a.regs 0#5 = 0#32)
    (he : BitSlices.IsEven a.pc) (hi : Agrees D (fetched D a) (instrLen (fetched D a)) i) :
    plainStage (Decoder.decode (fetched D a)).execNextStage = true ∧
      datapath D a = exec (memory D) (instrLen (fetched D a)) i a := by
  obtain ⟨res, hst, hy, hstep⟩ := hi a h0 he
  obtain rfl := hy.unique (Alu.yields_value _ _ _)
  exact ⟨hst, hstep⟩

section multiply
open Decoder

theorem aluOperOp_of_mul {w : Word} {op : Rv32m.MulOp} (h : Rv32m.decode w = some op) :
    major w = 0b0110011#7 ∧ aluOperOp w = Rv32m.aluOp op := by
  unfold Rv32m.decode at h
  split_ifs at h with hm h₀ h₁ h₂ h₃ h₄ h₅ h₆ <;> obtain rfl := Option.some.inj h
  all_goals
    refine ⟨hm.1, ?_⟩
    have hc := (fields_of_major hm.1).1
    simp [aluOperOp, funct3_of_long hc, show Decoder.funct7 w = Rv32.funct7 w from rfl, hm.2,
      funcAddSub, funcSll, funcSlt, funcSltu, funcXor, funcSrlSra, funcOr, func7Alt, func7MulDiv,
      Rv32m.aluOp, *]

theorem datapath_of_mul {D : Device M} {a b : Rv32.State M} {op : Rv32m.MulOp}
    (hd : Rv32m.decode (fetched D a) = some op) (hb : mulStep (fetched D a) op a = some b) :
    plainStage (Decoder.decode (fetched D a)).execNextStage = true ∧ datapath D a = b := by
  obtain ⟨hx, hb⟩ := Option.ite_none_right_eq_some.mp hb
  obtain rfl := Option.some.inj hb
  obtain ⟨hm, hop⟩ := aluOperOp_of_mul hd
  obtain ⟨hc, ho⟩ := fields_of_major hm
  have hdec := decode_of_long hc
  have hctl : control32 (fetched D a) =
      { rs1 := (fetched D a).extractLsb' 15 5, rs2 := (fetched D a).extractLsb' 20 5
        rd := (fetched D a).extractLsb' 7 5, aluOper := Rv32m.aluOp op
        writebackFromAlu := true } := by
    rw [control32, if_pos (ho.trans (by decide)), hop]
  rw [hctl] at hdec
  have hlen : instrLen (fetched D a) = 4#32 := if_pos hc
  have hval := Rv32m.value_aluOp op hx
  constructor
  · rw [hdec]
    rfl
  · rw [datapath]
    simp only [hdec, hlen]
    rw [← hval, ← write_eq_setReg]
    rfl

end multiply

/-! ## The instruction in the bytes -/

section bytes
variable {D : Device M} {loc : Word → L} {bytes : M → L → Byte} (hD : ByteDevice D loc bytes)
include hD

theorem parcel_eq {a : Rv32.State M} (he : BitSlices.IsEven a.pc) :
    parcel D a = readHalf loc (bytes a.mem) a.pc := by
  have hmod := mod_four_of_even he
  rw [parcel]
  cases h1 : a.pc.getLsbD 1 with
  | false =>
      rw [h1] at hmod
      rw [if_neg Bool.false_ne_true, hD.read_word _ _ he, and_not_three hmod, readWord,
        bytes_low]
      rfl
  | true =>
      rw [h1] at hmod
      have h2 := and_not_three_add hmod 0#32
      have h3 := and_not_three_add hmod 1#32
      rw [BitVec.add_zero, BitVec.add_zero] at h2
      rw [if_pos rfl, hD.read_word _ _ he, readWord, bytes_high, h2]
      exact congrArg (fun x => bytes a.mem (loc x) ++ bytes a.mem (loc a.pc)) h3

theorem datapath_of_base {a : Rv32.State M} (h0 : a.regs 0#5 = 0#32) (he : BitSlices.IsEven a.pc)
    {i : Instr} (hi : Agrees D (fetched D a) (instrLen (fetched D a)) i)
    {b : Rv32.State (L → Byte)}
    (hb : baseStep loc (instrLen (fetched D a)) i (Refinement.view bytes a) = some b) :
    plainStage (Decoder.decode (fetched D a)).execNextStage = true ∧
      Refinement.view bytes (datapath D a) = b := by
  obtain ⟨hal, hb⟩ := Option.ite_none_right_eq_some.mp hb
  obtain rfl := Option.some.inj hb
  obtain ⟨hst, hdp⟩ := datapath_of_agrees h0 he hi
  exact ⟨hst, (congrArg _ hdp).trans (view_exec hD hal)⟩

omit [DecidableEq L] hD in
theorem mulStep_view {w : Word} {op : Rv32m.MulOp} {a : Rv32.State M} {b : Rv32.State (L → Byte)}
    (hb : mulStep w op (Refinement.view bytes a) = some b) :
    ∃ c, mulStep w op a = some c ∧ Refinement.view bytes c = b := by
  obtain ⟨hx, hb⟩ := Option.ite_none_right_eq_some.mp hb
  obtain rfl := Option.some.inj hb
  exact ⟨_, if_pos hx, rfl⟩

/-- What the instruction set gives for the bytes, the datapath computes. -/
theorem datapath_of_isaStep {a : Rv32.State M} (h0 : a.regs 0#5 = 0#32)
    (he : BitSlices.IsEven a.pc) {b : Rv32.State (L → Byte)}
    (hb : isaStep loc (Refinement.view bytes a) = some b) :
    plainStage (Decoder.decode (fetched D a)).execNextStage = true ∧
      Refinement.view bytes (datapath D a) = b := by
  by_cases hlong : (readWord loc (bytes a.mem) a.pc).extractLsb' 0 2 = 3#2
  · have hw := fetched_eq hD he hlong
    have hlen : instrLen (fetched D a) = 4#32 := by rw [hw, instrLen, if_pos hlong]
    have hb' := (if_pos hlong).symm.trans hb
    rw [show readWord loc (Refinement.view bytes a).mem (Refinement.view bytes a).pc =
      fetched D a from hw.symm] at hb'
    cases hi : Rv32.decode (fetched D a) with
    | some i =>
        rw [hi] at hb'
        have hag : Agrees D (fetched D a) (instrLen (fetched D a)) i := by
          rw [hlen]
          exact agrees_of_decode hi
        exact datapath_of_base hD h0 he hag (by rw [hlen]; exact hb')
    | none =>
        rw [hi] at hb'
        obtain ⟨op, hop, hmul⟩ := Option.bind_eq_some_iff.mp hb'
        obtain ⟨c, hc, rfl⟩ := mulStep_view hmul
        obtain ⟨hst, hdp⟩ := datapath_of_mul hop hc
        exact ⟨hst, congrArg _ hdp⟩
  · have hb' := (if_neg hlong).symm.trans hb
    obtain ⟨i, hi, hbase⟩ := Option.bind_eq_some_iff.mp hb'
    have hi' : Rv32c.expand ((fetched D a).extractLsb' 0 16) = some i := by
      rw [fetched_low, parcel_eq hD he]
      exact hi
    have hlen := short_of_expand hi'
    have hag : Agrees D (fetched D a) (instrLen (fetched D a)) i := by
      rw [hlen]
      exact agrees_of_expand hi'
    exact datapath_of_base hD h0 he hag (by rw [hlen]; exact hbase)

end bytes

/-! ## The program -/

section run
variable {v : BitVec 32} {D : Device M} {r : Run (State.step v)} {mem : ℕ → M} {t : ℕ}
  (hs : Slave D r mem) (hr : Running r) (hf : ∀ t, Flow (r.state t)) (hq : Unstepped r)
  (ht : (r.state t).state = .preFetch) (hoff : (r.state t).csr.irqEn = false)
include hs hr hf ht hoff

theorem uninterrupted_of_off : Uninterrupted r t := by
  obtain ⟨d, hun, hd, honce, -⟩ := decode_clock hs hr hf ht
  refine uninterrupted_of_decode hs hr hf hun hd honce ?_
  have hen : (r.state d).csr.irqEn = false :=
    (congrArg Machine.Switches.irq hun.switches).trans hoff
  rw [State.takesInterrupt, hen, Bool.and_false]

include hq in
/-- One instruction, from its boundary to the next. -/
theorem isa_step {loc : Word → L} {bytes : M → L → Byte} (hD : ByteDevice D loc bytes)
    (hrun : (r.state t).testFinished = false) {b : Rv32.State (L → Byte)}
    (hb : isaStep loc (Refinement.view bytes (arch r mem t)) = some b) :
    ∃ n, NextBoundary r t n ∧ (r.state n).state = .preFetch ∧
      (r.state n).testFinished = false ∧ (r.state n).csr.irqEn = false ∧
      Refinement.view bytes (arch r mem n) = b := by
  have hc : ∀ t, Coherent (r.state t) := fun t => (hf t).toCoherent
  obtain ⟨hst, hdp⟩ := datapath_of_isaStep hD (hc t).zero (hc t).even hb
  obtain ⟨n, clear, hn, -, hview⟩ :=
    plain_step hs hr hf ht hq (uninterrupted_of_off hs hr hf ht hoff) hrun hst
  have hfin : (r.state n).testFinished = false :=
    (congrArg Machine.State.finished hview).trans hrun
  refine ⟨n, hn, hn.preFetch hs hr ht hc hq hfin, hfin, ?_, ?_⟩
  · exact (congrArg (fun s : Machine.State M => s.en.irq) hview).trans hoff
  · rw [← hdp]
    exact congrArg (fun s : Machine.State M => Refinement.view bytes s.toState) hview

end run

/-- The boundaries among the clocks up to `t`, the first clock apart. -/
def passed {v : BitVec 32} (r : Run (State.step v)) (t : ℕ) : ℕ :=
  Nat.count (fun k => (r.state (k + 1)).atBoundary = true) t

theorem passed_next {v : BitVec 32} {r : Run (State.step v)} {t n : ℕ} (h : NextBoundary r t n) :
    passed r n = passed r t + 1 := by
  obtain ⟨m, rfl⟩ : ∃ m, n = t + m + 1 := ⟨n - t - 1, by have := h.1; omega⟩
  have hnone : Nat.count (fun k => (r.state (t + k + 1)).atBoundary = true) m = 0 := by
    rw [Nat.count_iff_forall_not]
    intro k hk
    simp [h.2.2 (t + k + 1) (by omega) (by omega)]
  rw [passed, passed, Nat.count_succ, if_pos h.2.1, Nat.count_add, hnone]

theorem isa_run {v : BitVec 32} {D : Device M} {r : Run (State.step v)} {mem : ℕ → M}
    {loc : Word → L} {bytes : M → L → Byte} (hD : ByteDevice D loc bytes) (hs : Slave D r mem)
    (hr : Running r) (hf : ∀ t, Flow (r.state t)) (hq : Unstepped r) (n : ℕ) {t : ℕ}
    (ht : (r.state t).state = .preFetch) (hoff : (r.state t).csr.irqEn = false)
    (hrun : (r.state t).testFinished = false) {b : Rv32.State (L → Byte)}
    (hb : isaRun loc n (Refinement.view bytes (arch r mem t)) = some b) :
    ∃ m, t ≤ m ∧ passed r m = passed r t + n ∧ (r.state m).state = .preFetch ∧
      Refinement.view bytes (arch r mem m) = b := by
  induction n generalizing t with
  | zero => exact ⟨t, le_rfl, rfl, ht, Option.some.inj hb⟩
  | succ n ih =>
      obtain ⟨c, hc, hrest⟩ := Option.bind_eq_some_iff.mp hb
      obtain ⟨k, hk, hpre, hfin, hirq, rfl⟩ := isa_step hs hr hf hq ht hoff hD hrun hc
      obtain ⟨m, hkm, hcount, hm, hview⟩ := ih hpre hirq hfin hrest
      refine ⟨m, hk.1.le.trans hkm, ?_, hm, hview⟩
      rw [hcount, passed_next hk]
      omega

/-- Programs. Whatever `n` instructions of the instruction set make of the registers, the
program counter and the bytes, the processor has made of them when it has passed `n`
boundaries: for any memory behind the bus, any wait states and any interrupt requests,
as long as interrupts are off. -/
theorem program_correct {v : BitVec 32} {D : Device M} {r : Run (State.step v)} {mem : ℕ → M}
    {loc : Word → L} {bytes : M → L → Byte} (hD : ByteDevice D loc bytes) (hs : Slave D r mem)
    (hr : Running r) (hq : Unstepped r) (h0 : Flow (r.state 0))
    (hpre : (r.state 0).state = .preFetch) (hoff : (r.state 0).csr.irqEn = false)
    (hrun : (r.state 0).testFinished = false) {n : ℕ} {b : Rv32.State (L → Byte)}
    (hb : isaRun loc n (Refinement.view bytes (arch r mem 0)) = some b) :
    ∃ m, passed r m = n ∧ (r.state m).state = .preFetch ∧
      Refinement.view bytes (arch r mem m) = b := by
  obtain ⟨m, -, hm⟩ := isa_run hD hs hr (Running.flow (hs.undisturbed hr) h0) hq n hpre hoff hrun hb
  rw [show passed r 0 = 0 from Nat.count_zero _, Nat.zero_add] at hm
  exact ⟨m, hm⟩

/-! A program with an instruction of each kind -/

/-- `c.li x1, -6`, `mulh x2, x1, x1` across a word boundary, `c.addi x1, 1`,
`sb x1, 100(x2)`. -/
def mixedProgram : Word → Byte := fun a =>
  ([0xe9#8, 0x50#8, 0x33#8, 0x91#8, 0x10#8, 0x02#8, 0x85#8, 0x00#8, 0x23#8, 0x02#8, 0x11#8,
    0x06#8] : List Byte).getD a.toNat 0#8

/-- The timer asks for an interrupt all the time. -/
def mixedInputs : Inputs := { quietInputs with timerInterrupt := true }

def mixedRun : Run (State.step 0#32) :=
  benchRun byteDevice thirdClock mixedInputs 0#32 (restState (fun _ => 0#32) 0#32) mixedProgram

def mixedMem : ℕ → Word → Byte :=
  benchMem byteDevice thirdClock mixedInputs 0#32 (restState (fun _ => 0#32) 0#32) mixedProgram

theorem program_correct_mixed : ∃ m, passed mixedRun m = 4 ∧
    (mixedRun.state m).state = .preFetch ∧ (mixedRun.state m).pc = 12#32 ∧
    (mixedRun.state m).regs.regfile 1#5 = 0xfffffffb#32 ∧ mixedMem m 100#32 = 0xfb#8 := by
  obtain ⟨m, hm, hst, hview⟩ := program_correct byteDevice_bytes
    (benchRun_slave byteDevice thirdClock mixedInputs thirdClock_recurs (restState (fun _ => 0#32) 0#32) mixedProgram)
    ⟨fun _ => rfl, fun _ => rfl⟩ (fun _ => rfl) (restState_flow (by decide) (by decide)) rfl rfl rfl
    (n := 4) (Option.some_get (x := isaRun id 4 ⟨fun _ => 0#32, 0#32, mixedProgram⟩)
      (by decide +kernel)).symm
  refine ⟨m, hm, hst, ?_, ?_, ?_⟩
  · refine (congrArg Rv32.State.pc hview).trans ?_
    decide +kernel
  · refine (congrArg (fun s => s.regs 1#5) hview).trans ?_
    decide +kernel
  · refine (congrArg (fun s => s.mem 100#32) hview).trans ?_
    decide +kernel

end TagSoc.Program
