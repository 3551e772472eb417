import Mathlib.Tactic.Ring
import TagSoc.AluRuns
import TagSoc.BitSlices

/-!
# Products, quotients and remainders

The multiplier adds and shifts, the divider compares and subtracts, one bit per
clock for 32 clocks, both on magnitudes whose sign is put back at the end. The
invariants of the two loops are statements about natural numbers
(`Multiplying`, `Dividing`). The results are compared with the integers and
with the single-cycle variants of the same file.
-/
namespace TagSoc.Alu
open BitSlices

/-! ## Magnitudes -/

section magnitude
variable (x : BitVec 32)

/-- `pos_src`, of either operand. -/
def magnitude : BitVec 32 := if x.getLsbD 31 then -x else x

theorem sign_bit : x.getLsbD 31 = decide (2 ^ 31 ≤ x.toNat) := by
  rw [← BitVec.msb_eq_getLsbD_last x, BitVec.msb_eq_decide]

theorem magnitude_toNat : (magnitude x).toNat = x.toInt.natAbs := by
  have hlt := x.isLt
  rw [magnitude, sign_bit, BitVec.toInt_eq_toNat_cond]
  by_cases h : 2 ^ 31 ≤ x.toNat
  · rw [decide_eq_true h, if_pos rfl, BitVec.toNat_neg, if_neg (by omega)]
    omega
  · rw [decide_eq_false h, if_neg Bool.false_ne_true, if_pos (by omega)]
    omega

theorem magnitude_le : (magnitude x).toNat ≤ 2 ^ 31 := by
  have h₁ := BitVec.le_toInt x
  have h₂ := BitVec.toInt_lt (x := x)
  rw [magnitude_toNat]
  simp only [Nat.reduceSub] at h₁ h₂
  omega

theorem magnitude_pos (h : x ≠ 0#32) : 0 < (magnitude x).toNat := by
  rw [magnitude_toNat, Int.natAbs_pos]
  exact fun h0 => h (BitVec.eq_of_toInt_eq (by simpa using h0))

theorem toInt_eq_magnitude :
    x.toInt = if x.getLsbD 31 then -((magnitude x).toNat : ℤ) else (magnitude x).toNat := by
  have hsign : x.getLsbD 31 = decide (x.toInt < 0) := by
    rw [← BitVec.msb_eq_getLsbD_last x, BitVec.msb_eq_toInt]
  rw [magnitude_toNat, hsign]
  by_cases h : x.toInt < 0
  · rw [decide_eq_true h, if_pos rfl]
    omega
  · rw [decide_eq_false h, if_neg Bool.false_ne_true]
    omega

end magnitude

/-! ## Multiplication -/

/-- The products share one loop. -/
def AluOp.isMul : AluOp → Bool
  | .mul | .mulh | .mulhsu | .mulhu => true
  | _ => false

theorem run_multiply (s : State) {i : Inputs} (h : i.aluop.isMul = true) :
    s.run i = s.multiply i := by
  unfold State.run
  cases hop : i.aluop <;> simp [hop, AluOp.isMul] at h ⊢

/-- What the loop multiplies. -/
def multiplier (op : AluOp) (a : BitVec 32) : BitVec 32 :=
  match op with
  | .mulhu => a
  | _ => magnitude a

def multiplicand (op : AluOp) (b : BitVec 32) : BitVec 32 :=
  match op with
  | .mul | .mulh => magnitude b
  | _ => b

/-- The product register after `k` bits: the multiplier has moved out by `k`
bits at the bottom, and the product with these bits has come in at the top. -/
structure Multiplying (m n : BitVec 32) (k : ℕ) (s : State) : Prop where
  busy : s.busy = true
  count : s.bitMul.toNat = 32 - k
  mulcand : s.mulcand = n
  product : s.product.toNat = n.toNat * (m.toNat % 2 ^ k) * 2 ^ (32 - k) + m.toNat / 2 ^ k

/-- One bit, as numbers. -/
theorem multiply_bit {n m k P : ℕ} (hk : k < 32)
    (hP : P = n * (m % 2 ^ k) * 2 ^ (32 - k) + m / 2 ^ k) :
    (P + (P % 2) * (n * 2 ^ 32)) / 2 =
      n * (m % 2 ^ (k + 1)) * 2 ^ (32 - (k + 1)) + m / 2 ^ (k + 1) := by
  have hpow : 2 ^ (32 - k) = 2 * 2 ^ (32 - (k + 1)) := by
    rw [show 32 - k = (32 - (k + 1)) + 1 by omega, Nat.pow_succ, Nat.mul_comm]
  have hsplit : 2 ^ k * 2 ^ (32 - (k + 1)) = 2 ^ 31 := by
    rw [← Nat.pow_add, show k + (32 - (k + 1)) = 31 by omega]
  have hbit : P % 2 = m / 2 ^ k % 2 := by
    rw [hP, hpow, show n * (m % 2 ^ k) * (2 * 2 ^ (32 - (k + 1))) =
      2 * (n * (m % 2 ^ k) * 2 ^ (32 - (k + 1))) by ring]
    omega
  have hsum : P + (P % 2) * (n * 2 ^ 32) =
      2 * (n * (m % 2 ^ (k + 1)) * 2 ^ (32 - (k + 1))) + m / 2 ^ k := by
    rw [hbit, hP, Nat.mod_pow_succ]
    calc n * (m % 2 ^ k) * 2 ^ (32 - k) + m / 2 ^ k + m / 2 ^ k % 2 * (n * 2 ^ 32)
        = 2 * (n * (m % 2 ^ k) * 2 ^ (32 - (k + 1)) +
            m / 2 ^ k % 2 * n * 2 ^ 31) + m / 2 ^ k := by rw [hpow]; ring
      _ = 2 * (n * (m % 2 ^ k + 2 ^ k * (m / 2 ^ k % 2)) * 2 ^ (32 - (k + 1))) + m / 2 ^ k := by
          rw [← hsplit]; ring
  rw [hsum, Nat.pow_succ, ← Nat.div_div_eq_div_mul]
  omega

section multiplyClock
variable {op : AluOp} (hop : op.isMul = true) (s : State) (a b : BitVec 32)
include hop

theorem multiply_start (hs : s.busy = false) :
    Multiplying (multiplier op a) (multiplicand op b) 0 (s.step ⟨true, false, a, b, op⟩) := by
  have hrun := run_multiply s (i := ⟨true, false, a, b, op⟩) hop
  have hprod : (s.step ⟨true, false, a, b, op⟩).product = 0#32 ++ multiplier op a ∧
      (s.step ⟨true, false, a, b, op⟩).mulcand = multiplicand op b := by
    simp only [State.step, hrun, State.multiply, hs]
    cases op <;> first | exact absurd hop (by decide) | exact ⟨rfl, rfl⟩
  constructor
  case busy | count => simp [State.step, hrun, State.multiply, hs]
  case mulcand => exact hprod.2
  case product =>
    rw [hprod.1, toNat_zero_append]
    simp [Nat.mod_one]

theorem multiply_step {m n : BitVec 32} {k : ℕ} (hk : k < 32) (hl : Multiplying m n k s) :
    Multiplying m n (k + 1) (s.step ⟨false, false, a, b, op⟩) := by
  have hrun := run_multiply s (i := ⟨false, false, a, b, op⟩) hop
  have hcount := hl.count
  have hne : s.bitMul ≠ 0#6 := by
    intro h0
    rw [h0] at hcount
    simp only [BitVec.toNat_ofNat] at hcount
    omega
  have hstep : s.step ⟨false, false, a, b, op⟩ =
      { s with
        product := if s.product.getLsbD 0 then s.topProd ++ s.product.extractLsb' 1 31
          else s.product >>> 1
        bitMul := s.bitMul - 1#6
        lt := Inputs.lt ⟨false, false, a, b, op⟩
        ltu := Inputs.ltu ⟨false, false, a, b, op⟩
        eq := Inputs.eq ⟨false, false, a, b, op⟩ } := by
    simp [State.step, hrun, State.multiply, hl.busy, hne]
  rw [hstep]
  refine ⟨hl.busy, ?_, hl.mulcand, ?_⟩
  · have hlt := s.bitMul.isLt
    rw [BitVec.toNat_sub]
    simp only [BitVec.toNat_ofNat]
    omega
  · rw [← multiply_bit hk hl.product]
    have hP := s.product.isLt
    have hlow : s.product.getLsbD 0 = decide (s.product.toNat % 2 = 1) := by
      rw [BitVec.getLsbD, Nat.testBit_zero]
    have hdiv : (s.product.extractLsb' 1 31).toNat = s.product.toNat % 2 ^ 32 / 2 := by
      rw [BitVec.extractLsb'_toNat, Nat.shiftRight_eq_div_pow]
      omega
    have htop : s.topProd.toNat = s.product.toNat / 2 ^ 32 + n.toNat := by
      have hn := n.isLt
      rw [State.topProd, hl.mulcand, BitVec.toNat_add, toNat_zero_append, toNat_zero_append,
        BitVec.extractLsb'_toNat, Nat.shiftRight_eq_div_pow]
      omega
    dsimp only
    rcases Nat.mod_two_eq_zero_or_one s.product.toNat with h | h
    · rw [hlow, h]
      simp [Nat.shiftRight_eq_div_pow]
    · rw [hlow, h]
      simp only [decide_true, if_true]
      rw [toNat_append_add, htop, hdiv, Nat.one_mul]
      omega

omit hop in
/-- The product register at the end of the loop. -/
theorem multiply_done {m n : BitVec 32} (hl : Multiplying m n 32 s) :
    s.product = m.setWidth 64 * n.setWidth 64 := by
  have hm := m.isLt
  have hn := n.isLt
  have hlt : m.toNat * n.toNat < 2 ^ 64 := by
    calc m.toNat * n.toNat < 2 ^ 32 * 2 ^ 32 := Nat.mul_lt_mul'' hm hn
      _ = 2 ^ 64 := by decide
  apply BitVec.eq_of_toNat_eq
  rw [hl.product, BitVec.toNat_mul, BitVec.toNat_setWidth, BitVec.toNat_setWidth,
    Nat.mod_eq_of_lt hm, Nat.mod_eq_of_lt (by omega : m.toNat < 2 ^ 64),
    Nat.mod_eq_of_lt (by omega : n.toNat < 2 ^ 64), Nat.mod_eq_of_lt hlt, Nat.div_eq_of_lt hm]
  simp [Nat.mul_comm]

end multiplyClock

/-! `SINGLE_CYCLE_MULTIPLICATION` -/

def mulss (a b : BitVec 32) : BitVec 64 := a.signExtend 64 * b.signExtend 64
def muluu (a b : BitVec 32) : BitVec 64 := a.setWidth 64 * b.setWidth 64
def mulsu (a b : BitVec 32) : BitVec 64 := a.signExtend 64 * b.setWidth 64

def singleCycleMul (op : AluOp) (a b : BitVec 32) : BitVec 32 :=
  match op with
  | .mul => (mulss a b).extractLsb' 0 32
  | .mulh => (mulss a b).extractLsb' 32 32
  | .mulhsu => (mulsu a b).extractLsb' 32 32
  | _ => (muluu a b).extractLsb' 32 32

theorem signExtend_eq_magnitude (x : BitVec 32) :
    x.signExtend 64 = if x.getLsbD 31 then -(magnitude x).setWidth 64
      else (magnitude x).setWidth 64 := by
  have hlt := x.isLt
  have hmsb : x.msb = x.getLsbD 31 := BitVec.msb_eq_getLsbD_last x
  apply BitVec.eq_of_toNat_eq
  rw [BitVec.toNat_signExtend, hmsb, magnitude, sign_bit]
  by_cases h : 2 ^ 31 ≤ x.toNat
  · simp only [h, decide_true, if_true, BitVec.toNat_neg, BitVec.toNat_setWidth]
    omega
  · simp only [h, decide_false, Bool.false_eq_true, if_false, BitVec.toNat_setWidth]
    omega

theorem mulss_eq (a b : BitVec 32) :
    mulss a b = if a.getLsbD 31 ^^ b.getLsbD 31 then -muluu (magnitude a) (magnitude b)
      else muluu (magnitude a) (magnitude b) := by
  rw [mulss, muluu, signExtend_eq_magnitude, signExtend_eq_magnitude]
  cases a.getLsbD 31 <;> cases b.getLsbD 31 <;> simp

theorem mulsu_eq (a b : BitVec 32) :
    mulsu a b = if a.getLsbD 31 then -muluu (magnitude a) b else muluu (magnitude a) b := by
  rw [mulsu, muluu, signExtend_eq_magnitude]
  cases a.getLsbD 31 <;> simp

theorem yields_mul {op : AluOp} (hop : op.isMul = true) (a b : BitVec 32) :
    Yields op a b (singleCycleMul op a b) := by
  refine yields_of_loop 32 (Multiplying (multiplier op a) (multiplicand op b))
    (fun s hs => multiply_start hop s a b hs) (fun k s hk hl => multiply_step hop s a b hk hl)
    (fun k s hl => hl.busy) fun s hl => ?_
  have hzero : s.bitMul = 0#6 := BitVec.eq_of_toNat_eq (by simpa using hl.count)
  have hprod := multiply_done s hl
  have hrun := run_multiply s (i := ⟨false, false, a, b, op⟩) hop
  have hstep : (s.step ⟨false, false, a, b, op⟩).busy = false ∧
      (s.step ⟨false, false, a, b, op⟩).result =
        (s.multiply ⟨false, false, a, b, op⟩).result := by
    simp [State.step, hrun, State.multiply, hl.busy, hzero]
  refine ⟨hstep.1, hstep.2.trans ?_⟩
  simp only [State.multiply, hl.busy, hzero, hprod, Bool.not_true, Bool.false_eq_true, if_false,
    ne_eq, not_true_eq_false]
  cases op with
  | mul =>
      rw [singleCycleMul, mulss_eq, apply_ite (BitVec.extractLsb' 0 32)]
      rfl
  | mulh =>
      rw [singleCycleMul, mulss_eq, apply_ite (BitVec.extractLsb' 32 32)]
      rfl
  | mulhsu =>
      rw [singleCycleMul, mulsu_eq, apply_ite (BitVec.extractLsb' 32 32)]
      rfl
  | mulhu => rfl
  | _ => exact absurd hop (by decide)

/-! As integers -/

theorem low_word (x : ℤ) : (BitVec.ofInt 64 x).extractLsb' 0 32 = BitVec.ofInt 32 x := by
  apply BitVec.eq_of_toNat_eq
  rw [BitVec.extractLsb'_toNat, BitVec.toNat_ofInt, BitVec.toNat_ofInt, Nat.shiftRight_zero]
  omega

theorem high_word (x : ℤ) :
    (BitVec.ofInt 64 x).extractLsb' 32 32 = BitVec.ofInt 32 (x / 2 ^ 32) := by
  apply BitVec.eq_of_toNat_eq
  rw [BitVec.extractLsb'_toNat, BitVec.toNat_ofInt, BitVec.toNat_ofInt, Nat.shiftRight_eq_div_pow]
  omega

theorem setWidth_eq_ofInt (x : BitVec 32) : x.setWidth 64 = BitVec.ofInt 64 (x.toNat : ℤ) := by
  apply BitVec.eq_of_toNat_eq
  rw [BitVec.ofInt_natCast, BitVec.toNat_setWidth, BitVec.toNat_ofNat]

/-- The multi-cycle multiplier leaves the word of the product that the operation
asks for, signed or unsigned, as the single-cycle variant does. -/
theorem multiplier_correct (a b : BitVec 32) :
    Yields .mul a b (BitVec.ofInt 32 (a.toInt * b.toInt)) ∧
    Yields .mulh a b (BitVec.ofInt 32 (a.toInt * b.toInt / 2 ^ 32)) ∧
    Yields .mulhsu a b (BitVec.ofInt 32 (a.toInt * b.toNat / 2 ^ 32)) ∧
    Yields .mulhu a b (BitVec.ofInt 32 (a.toNat * b.toNat / 2 ^ 32)) ∧
    ∀ op : AluOp, op.isMul = true → Yields op a b (singleCycleMul op a b) := by
  have hss : mulss a b = BitVec.ofInt 64 (a.toInt * b.toInt) := by
    rw [BitVec.ofInt_mul]
    rfl
  have hsu : mulsu a b = BitVec.ofInt 64 (a.toInt * b.toNat) := by
    rw [BitVec.ofInt_mul, mulsu, setWidth_eq_ofInt]
    rfl
  have huu : muluu a b = BitVec.ofInt 64 (a.toNat * b.toNat) := by
    rw [BitVec.ofInt_mul, muluu, setWidth_eq_ofInt, setWidth_eq_ofInt]
  refine ⟨?_, ?_, ?_, ?_, fun op hop => yields_mul hop a b⟩
  · rw [← low_word, ← hss]
    exact yields_mul rfl a b
  · rw [← high_word, ← hss]
    exact yields_mul rfl a b
  · rw [← high_word, ← hsu]
    exact yields_mul rfl a b
  · rw [← high_word, ← huu]
    exact yields_mul rfl a b

/-! ## Division -/

/-- Quotients and remainders share one loop. -/
def AluOp.isDiv : AluOp → Bool
  | .div | .divu | .rem | .remu => true
  | _ => false

def AluOp.signedDiv : AluOp → Bool
  | .divu | .remu => false
  | _ => true

theorem run_divide (s : State) {i : Inputs} (h : i.aluop.isDiv = true) :
    s.run i = s.divide i := by
  unfold State.run
  cases hop : i.aluop <;> simp [hop, AluOp.isDiv] at h ⊢

/-- What the loop divides. -/
def divisionOperand (op : AluOp) (x : BitVec 32) : BitVec 32 :=
  if op.signedDiv then magnitude x else x

theorem divisionOperand_pos (op : AluOp) {x : BitVec 32} (h : x ≠ 0#32) :
    0 < (divisionOperand op x).toNat := by
  unfold divisionOperand
  split_ifs
  · exact magnitude_pos x h
  · exact Nat.pos_of_ne_zero fun h0 => h (BitVec.eq_of_toNat_eq (by simpa using h0))

/-- The loop after `k` bits of the quotient of `m` by `n`: the divisor has moved
down by `k` bits, and the dividend is what is left after subtracting its
multiples. -/
structure Dividing (m n : ℕ) (k : ℕ) (s : State) : Prop where
  busy : s.busy = true
  count : s.bitDiv.toNat = 32 - k
  divider : s.dividerCopy.toNat = n * 2 ^ 31 / 2 ^ k
  dividend : s.dividendCopy.toNat = m % (n * 2 ^ (32 - k))
  result : s.result.toNat = m / (n * 2 ^ (32 - k))

/-- The sign of the 64-bit difference compares its operands, since neither
reaches the top bit. -/
theorem diff_sign {s : State} (h₁ : s.dividendCopy.toNat < 2 ^ 63)
    (h₂ : s.dividerCopy.toNat < 2 ^ 63) :
    s.diff.getLsbD 63 = decide (s.dividendCopy.toNat < s.dividerCopy.toNat) := by
  have hmsb : s.diff.getLsbD 63 = decide (2 ^ 63 ≤ s.diff.toNat) := by
    rw [← BitVec.msb_eq_getLsbD_last s.diff, BitVec.msb_eq_decide]
  rw [hmsb, decide_eq_decide, State.diff, BitVec.toNat_sub]
  omega

/-- One bit of the quotient, as numbers. -/
theorem divide_bit {D : ℕ} (m : ℕ) (hD : 0 < D) :
    m / D = 2 * (m / (D * 2)) + (if m % (D * 2) < D then 0 else 1) ∧
      m % D = if m % (D * 2) < D then m % (D * 2) else m % (D * 2) - D := by
  have hm : D * 2 * (m / (D * 2)) + m % (D * 2) = m := Nat.div_add_mod m (D * 2)
  have hlt : m % (D * 2) < D * 2 := Nat.mod_lt _ (by omega)
  refine (Nat.div_mod_unique hD).mpr ?_
  have hprod : D * (2 * (m / (D * 2))) = D * 2 * (m / (D * 2)) := by rw [Nat.mul_assoc]
  split_ifs with h
  · refine ⟨?_, h⟩
    rw [Nat.add_zero, hprod]
    omega
  · refine ⟨?_, by omega⟩
    rw [Nat.mul_add, hprod]
    omega

section divideClock
variable {m n k : ℕ} {s : State} (hm : m < 2 ^ 32) (hn : n < 2 ^ 32) (hk : k < 32)
  (hl : Dividing m n k s)
include hl

include hk in
/-- The divisor before the bit is exact. -/
theorem Dividing.divider_eq : s.dividerCopy.toNat = n * 2 ^ (32 - (k + 1)) := by
  have hpow : 2 ^ 31 = 2 ^ (32 - (k + 1)) * 2 ^ k := by
    rw [← Nat.pow_add, show 32 - (k + 1) + k = 31 by omega]
  rw [hl.divider, hpow, ← Nat.mul_assoc, Nat.mul_div_cancel _ (Nat.two_pow_pos k)]

include hm hn in
theorem Dividing.compares :
    s.diff.getLsbD 63 = decide (s.dividendCopy.toNat < s.dividerCopy.toNat) := by
  have hle : s.dividendCopy.toNat ≤ m := by
    rw [hl.dividend]
    exact Nat.mod_le _ _
  have hdiv : s.dividerCopy.toNat ≤ n * 2 ^ 31 := by
    rw [hl.divider]
    exact Nat.div_le_self _ _
  exact diff_sign (by omega) (by omega)

include hk in
/-- One clock of the loop: the difference is kept if it has no sign. -/
theorem Dividing.clock {op : AluOp} (hop : op.isDiv = true) (a b : BitVec 32) :
    s.step ⟨false, false, a, b, op⟩ =
      { s with
        dividendCopy := if !s.diff.getLsbD 63 then s.diff else s.dividendCopy
        result := if !s.diff.getLsbD 63 then s.result.extractLsb' 0 31 ++ 1#1
          else s.result.extractLsb' 0 31 ++ 0#1
        dividerCopy := 0#1 ++ s.dividerCopy.extractLsb' 1 63
        bitDiv := s.bitDiv - 1#6
        lt := Inputs.lt ⟨false, false, a, b, op⟩
        ltu := Inputs.ltu ⟨false, false, a, b, op⟩
        eq := Inputs.eq ⟨false, false, a, b, op⟩ } := by
  have hne : s.bitDiv ≠ 0#6 := by
    intro h0
    have hcount := hl.count
    rw [h0] at hcount
    simp only [BitVec.toNat_ofNat] at hcount
    omega
  simp [State.step, run_divide s (i := ⟨false, false, a, b, op⟩) hop, State.divide, hl.busy, hne]

/-- The next divisor is half of this one. -/
theorem Dividing.divider_next :
    (0#1 ++ s.dividerCopy.extractLsb' 1 63).toNat = n * 2 ^ 31 / 2 ^ (k + 1) := by
  have hdlt := s.dividerCopy.isLt
  have hnext : n * 2 ^ 31 / 2 ^ (k + 1) = s.dividerCopy.toNat / 2 := by
    rw [hl.divider, Nat.pow_succ 2 k, Nat.div_div_eq_div_mul]
  rw [hnext, toNat_zero_append, BitVec.extractLsb'_toNat, Nat.shiftRight_eq_div_pow]
  omega

include hm hn hk in
theorem Dividing.step {op : AluOp} (hop : op.isDiv = true) (hpos : 0 < n) (a b : BitVec 32) :
    Dividing m n (k + 1) (s.step ⟨false, false, a, b, op⟩) := by
  -- `D` is the divisor that is compared, the one before was twice as large
  have hD := hl.divider_eq hk
  set D := n * 2 ^ (32 - (k + 1)) with hDdef
  have hDpos : 0 < D := Nat.mul_pos hpos (Nat.two_pow_pos _)
  have htwice : n * 2 ^ (32 - k) = D * 2 := by
    rw [hDdef, show 32 - k = 32 - (k + 1) + 1 by omega, Nat.pow_succ, Nat.mul_assoc]
  have hdividend := hl.dividend
  have hresult := hl.result
  rw [htwice] at hdividend hresult
  obtain ⟨hquot, hrem⟩ := divide_bit m hDpos
  have hlt : m / D < 2 ^ 32 := lt_of_le_of_lt (Nat.div_le_self _ _) hm
  have hshift : ∀ c : BitVec 1, (s.result.extractLsb' 0 31 ++ c).toNat =
      2 * (m / (D * 2)) % 2 ^ 32 + c.toNat := by
    intro c
    rw [toNat_append_add, BitVec.extractLsb'_toNat, Nat.shiftRight_zero, hresult]
    omega
  have hcmp := hl.compares hm hn
  rw [hdividend, hD] at hcmp
  rw [hl.clock hk hop]
  refine ⟨hl.busy, ?_, hl.divider_next, ?_, ?_⟩
  · have hcount := hl.count
    have hbits := s.bitDiv.isLt
    rw [BitVec.toNat_sub]
    simp only [BitVec.toNat_ofNat]
    omega
  · rw [← hDdef, hrem]
    dsimp only
    rw [hcmp]
    by_cases h : m % (D * 2) < D
    · rw [if_pos h, decide_eq_true h]
      exact hdividend
    · rw [if_neg h, decide_eq_false h]
      have hsub := BitVec.toNat_sub_of_le (x := s.dividendCopy) (y := s.dividerCopy)
        (BitVec.le_def.mpr (by rw [hdividend, hD]; omega))
      rw [hdividend, hD] at hsub
      exact hsub
  · rw [← hDdef, hquot]
    dsimp only
    rw [hcmp]
    by_cases h : m % (D * 2) < D
    · rw [if_pos h, decide_eq_true h]
      rw [if_pos h] at hquot
      refine (hshift 0#1).trans ?_
      simp only [BitVec.toNat_ofNat]
      omega
    · rw [if_neg h, decide_eq_false h]
      rw [if_neg h] at hquot
      refine (hshift 1#1).trans ?_
      simp only [BitVec.toNat_ofNat]
      omega

end divideClock

section divideRun
variable {op : AluOp} (hop : op.isDiv = true) {a b : BitVec 32} (hb : b ≠ 0#32)
include hop hb

/-- The clock that starts the loop, for operands that are not answered at once. -/
theorem divide_start {s : State} (hs : s.busy = false)
    (hc : Inputs.remCorner ⟨true, false, a, b, op⟩ = false) :
    Dividing (divisionOperand op a).toNat (divisionOperand op b).toNat 0
      (s.step ⟨true, false, a, b, op⟩) := by
  have hpos := divisionOperand_pos op hb
  have hlt := (divisionOperand op a).isLt
  have hbig : (divisionOperand op a).toNat < (divisionOperand op b).toNat * 2 ^ (32 - 0) := by
    omega
  have hstep : (s.step ⟨true, false, a, b, op⟩).busy = true ∧
      (s.step ⟨true, false, a, b, op⟩).bitDiv = 32#6 ∧
      (s.step ⟨true, false, a, b, op⟩).result = 0#32 ∧
      (s.step ⟨true, false, a, b, op⟩).dividendCopy = 0#32 ++ divisionOperand op a ∧
      (s.step ⟨true, false, a, b, op⟩).dividerCopy = 0#1 ++ divisionOperand op b ++ 0#31 := by
    have hrun := run_divide s (i := ⟨true, false, a, b, op⟩) hop
    simp only [State.step, hrun, State.divide, hs, hb, hc]
    cases op <;> first | exact absurd hop (by decide) | exact ⟨rfl, rfl, rfl, rfl, rfl⟩
  obtain ⟨h₁, h₂, h₃, h₄, h₅⟩ := hstep
  refine ⟨h₁, by rw [h₂]; rfl, ?_, ?_, ?_⟩
  · rw [h₅, toNat_append_add, toNat_zero_append]
    simp
  · rw [h₄, toNat_zero_append, Nat.mod_eq_of_lt hbig]
  · rw [h₃, Nat.div_eq_of_lt hbig]
    rfl

/-- The unsigned result of the loop, with the sign put back for the quotient
only. -/
def divisionResult (op : AluOp) (a b : BitVec 32) : BitVec 32 :=
  match op with
  | .div => if a.getLsbD 31 ^^ b.getLsbD 31 then -(magnitude a / magnitude b)
      else magnitude a / magnitude b
  | .divu => a / b
  | .rem => magnitude a % magnitude b
  | _ => a % b

theorem yields_divide (hc : Inputs.remCorner ⟨true, false, a, b, op⟩ = false) :
    Yields op a b (divisionResult op a b) := by
  have hpos := divisionOperand_pos op hb
  refine yields_of_loop 32
    (Dividing (divisionOperand op a).toNat (divisionOperand op b).toNat)
    (fun s hs => divide_start hop hb hs hc)
    (fun k s hk hl => hl.step (BitVec.isLt _) (BitVec.isLt _) hk hop hpos a b)
    (fun k s hl => hl.busy) fun s hl => ?_
  have hzero : s.bitDiv = 0#6 := BitVec.eq_of_toNat_eq (by simpa using hl.count)
  have hquot : s.result = divisionOperand op a / divisionOperand op b := by
    apply BitVec.eq_of_toNat_eq
    rw [hl.result, BitVec.toNat_udiv, Nat.sub_self, Nat.pow_zero, Nat.mul_one]
  have hrem : s.dividendCopy.extractLsb' 0 32 = divisionOperand op a % divisionOperand op b := by
    apply BitVec.eq_of_toNat_eq
    rw [BitVec.extractLsb'_toNat, hl.dividend, BitVec.toNat_umod, Nat.sub_self, Nat.pow_zero,
      Nat.mul_one, Nat.shiftRight_zero]
    exact Nat.mod_eq_of_lt (lt_of_le_of_lt (Nat.mod_le _ _) (BitVec.isLt _))
  have hstep : (s.step ⟨false, false, a, b, op⟩).busy = false ∧
      (s.step ⟨false, false, a, b, op⟩).result =
        (s.divide ⟨false, false, a, b, op⟩).result := by
    simp [State.step, run_divide s (i := ⟨false, false, a, b, op⟩) hop, State.divide, hl.busy, hzero]
  refine ⟨hstep.1, hstep.2.trans ?_⟩
  simp only [State.divide, hl.busy, hzero, hquot, hrem, Bool.not_true, Bool.false_eq_true, if_false,
    ne_eq, not_true_eq_false]
  cases op <;> first | rfl | exact absurd hop (by decide)

/-- At every bit the sign of the difference is the comparison. -/
theorem divide_compares (hc : Inputs.remCorner ⟨true, false, a, b, op⟩ = false) {s : State}
    (hs : s.busy = false) {k : ℕ} (hk : k < 32) :
    (s.after op a b k).diff.getLsbD 63 =
      decide ((s.after op a b k).dividendCopy.toNat < (s.after op a b k).dividerCopy.toNat) := by
  have hpos := divisionOperand_pos op hb
  have hl := after_invariant 32
    (Dividing (divisionOperand op a).toNat (divisionOperand op b).toNat)
    (fun s hs => divide_start hop hb hs hc)
    (fun k s hk hl => hl.step (BitVec.isLt _) (BitVec.isLt _) hk hop hpos a b) hs hk.le
  exact hl.compares (BitVec.isLt _) (BitVec.isLt _)

end divideRun

/-! As integers -/

/-- `DIV` and `DIVU`, `REM` and `REMU` of the M extension. -/
def quotient (a b : BitVec 32) : BitVec 32 :=
  if b = 0#32 then ~~~0#32 else BitVec.ofInt 32 (a.toInt.tdiv b.toInt)

def quotientU (a b : BitVec 32) : BitVec 32 :=
  if b = 0#32 then ~~~0#32 else BitVec.ofNat 32 (a.toNat / b.toNat)

def remainder (a b : BitVec 32) : BitVec 32 :=
  if b = 0#32 then a else BitVec.ofInt 32 (a.toInt.tmod b.toInt)

def remainderU (a b : BitVec 32) : BitVec 32 :=
  if b = 0#32 then a else BitVec.ofNat 32 (a.toNat % b.toNat)

theorem quotient_eq (a b : BitVec 32) :
    BitVec.ofInt 32 (a.toInt.tdiv b.toInt) = divisionResult .div a b := by
  have hnat : BitVec.ofInt 32 (((magnitude a).toNat : ℤ).tdiv (magnitude b).toNat) =
      magnitude a / magnitude b := by
    apply BitVec.eq_of_toNat_eq
    rw [← Int.ofNat_tdiv, BitVec.ofInt_natCast, BitVec.toNat_ofNat, BitVec.toNat_udiv]
    exact Nat.mod_eq_of_lt (lt_of_le_of_lt (Nat.div_le_self _ _) (BitVec.isLt _))
  rw [toInt_eq_magnitude a, toInt_eq_magnitude b, divisionResult]
  cases a.getLsbD 31 <;> cases b.getLsbD 31 <;>
    simp only [if_true, if_false, Bool.false_eq_true, Int.neg_tdiv, Int.tdiv_neg, neg_neg,
      BitVec.ofInt_neg, hnat, Bool.xor_true, Bool.xor_false, Bool.not_true, Bool.not_false]

theorem remainder_eq (a b : BitVec 32) :
    BitVec.ofInt 32 (a.toInt.tmod b.toInt) =
      if a.getLsbD 31 then -divisionResult .rem a b else divisionResult .rem a b := by
  have hnat : BitVec.ofInt 32 (((magnitude a).toNat : ℤ).tmod (magnitude b).toNat) =
      magnitude a % magnitude b := by
    apply BitVec.eq_of_toNat_eq
    rw [← Int.ofNat_tmod, BitVec.ofInt_natCast, BitVec.toNat_ofNat, BitVec.toNat_umod]
    exact Nat.mod_eq_of_lt (lt_of_le_of_lt (Nat.mod_le _ _) (BitVec.isLt _))
  rw [toInt_eq_magnitude a, toInt_eq_magnitude b, divisionResult]
  cases a.getLsbD 31 <;> cases b.getLsbD 31 <;>
    simp only [if_true, if_false, Bool.false_eq_true, Int.neg_tmod, Int.tmod_neg,
      BitVec.ofInt_neg, hnat]

def byZero (op : AluOp) (a : BitVec 32) : BitVec 32 :=
  match op with
  | .div | .divu => ~~~0#32
  | _ => a

/-- Division by zero is answered in the clock that asks for it. -/
theorem yields_divide_zero {op : AluOp} (hop : op.isDiv = true) (a : BitVec 32) :
    Yields op a 0#32 (byZero op a) := by
  refine yields_of_one_clock fun s hs => ?_
  have hrun := run_divide s (i := ⟨true, false, a, 0#32, op⟩) hop
  cases op <;> simp [State.step, hrun, State.divide, hs, byZero]

theorem remCorner_of_ne {op : AluOp} (hop : op ≠ .rem) (a b : BitVec 32) :
    Inputs.remCorner ⟨true, false, a, b, op⟩ = false := by
  simp [Inputs.remCorner, hop]

/-- The restoring divider ends, for all operands, with the signed quotient, the
unsigned quotient or the unsigned remainder; in each of the 32 clocks the sign
of the 64-bit difference compares the dividend with the divisor. -/
theorem divider_correct (a b : BitVec 32) :
    Yields .div a b (quotient a b) ∧ Yields .divu a b (quotientU a b) ∧
    Yields .remu a b (remainderU a b) ∧
    ∀ op ∈ [AluOp.div, .divu, .remu], b ≠ 0#32 → ∀ s : State, s.busy = false → ∀ k < 32,
      (s.after op a b k).diff.getLsbD 63 =
        decide ((s.after op a b k).dividendCopy.toNat < (s.after op a b k).dividerCopy.toNat) := by
  have hdiv : ∀ op ∈ [AluOp.div, .divu, .remu], op.isDiv = true ∧ op ≠ .rem := by decide
  have hcompares : ∀ op ∈ [AluOp.div, .divu, .remu], b ≠ 0#32 → ∀ s : State, s.busy = false →
      ∀ k < 32, (s.after op a b k).diff.getLsbD 63 =
        decide ((s.after op a b k).dividendCopy.toNat < (s.after op a b k).dividerCopy.toNat) :=
    fun op hop hb s hs k hk =>
      divide_compares (hdiv op hop).1 hb (remCorner_of_ne (hdiv op hop).2 a b) hs hk
  unfold quotient quotientU remainderU
  by_cases hb : b = 0#32
  · subst hb
    simp only [if_true]
    exact ⟨yields_divide_zero rfl a, yields_divide_zero rfl a, yields_divide_zero rfl a, hcompares⟩
  · have hrun : ∀ op ∈ [AluOp.div, .divu, .remu], Yields op a b (divisionResult op a b) :=
      fun op hop => yields_divide (hdiv op hop).1 hb (remCorner_of_ne (hdiv op hop).2 a b)
    have hudiv : BitVec.ofNat 32 (a.toNat / b.toNat) = a / b := by
      apply BitVec.eq_of_toNat_eq
      rw [BitVec.toNat_ofNat, BitVec.toNat_udiv]
      exact Nat.mod_eq_of_lt (lt_of_le_of_lt (Nat.div_le_self _ _) a.isLt)
    have humod : BitVec.ofNat 32 (a.toNat % b.toNat) = a % b := by
      apply BitVec.eq_of_toNat_eq
      rw [BitVec.toNat_ofNat, BitVec.toNat_umod]
      exact Nat.mod_eq_of_lt (lt_of_le_of_lt (Nat.mod_le _ _) a.isLt)
    simp only [if_neg hb, hudiv, humod, quotient_eq]
    exact ⟨hrun .div (by decide), hrun .divu (by decide), hrun .remu (by decide), hcompares⟩

/-! ## The signed remainder -/

/-- `SINGLE_CYCLE_DIVISION` -/
def singleCycleRem (a b : BitVec 32) : BitVec 32 :=
  if b = 0#32 then a else ((a.signExtend 33).srem (b.signExtend 33)).extractLsb' 0 32

theorem singleCycleRem_eq (a b : BitVec 32) : singleCycleRem a b = remainder a b := by
  unfold singleCycleRem remainder
  split_ifs with hb
  · rfl
  · apply BitVec.eq_of_toNat_eq
    have hint : ((a.signExtend 33).srem (b.signExtend 33)).toInt = a.toInt.tmod b.toInt := by
      rw [BitVec.toInt_srem, BitVec.toInt_signExtend_of_le (by decide),
        BitVec.toInt_signExtend_of_le (by decide)]
    rw [← hint, BitVec.extractLsb'_toNat, BitVec.toNat_ofInt, Nat.shiftRight_zero,
      BitVec.toInt_eq_toNat_bmod]
    have hlt := ((a.signExtend 33).srem (b.signExtend 33)).isLt
    generalize ((a.signExtend 33).srem (b.signExtend 33)).toNat = n at hlt
    simp only [Int.bmod]
    omega

/-- What the multi-cycle remainder leaves. -/
theorem yields_rem (a b : BitVec 32) :
    Yields .rem a b (if b = 0#32 then a
      else if Inputs.remCorner ⟨true, false, a, b, .rem⟩ then ~~~0#32
      else magnitude a % magnitude b) := by
  split_ifs with hb hc
  · subst hb
    exact yields_divide_zero rfl a
  · refine yields_of_one_clock fun s hs => ?_
    have hrun := run_divide s (i := ⟨true, false, a, b, .rem⟩) rfl
    simp [State.step, hrun, State.divide, hs, hb, hc]
  · exact yields_divide rfl hb (by simpa using hc)

/-- No number below `2 ^ 31` but zero is its own negative. -/
theorem eq_neg_iff {x : BitVec 32} (h : x.toNat < 2 ^ 31) : x = -x ↔ x = 0#32 := by
  rw [← BitVec.toNat_inj, ← BitVec.toNat_inj, BitVec.toNat_neg]
  simp only [BitVec.toNat_ofNat]
  omega

theorem magnitude_mod_eq_zero_iff (a b : BitVec 32) :
    magnitude a % magnitude b = 0#32 ↔ b.toInt ∣ a.toInt := by
  rw [← BitVec.toNat_inj, BitVec.toNat_umod, magnitude_toNat, magnitude_toNat,
    ← Int.natAbs_dvd_natAbs, Nat.dvd_iff_mod_eq_zero]
  rfl

/-- The remainder of the magnitudes is the signed one unless it has a sign to lose. -/
theorem magnitude_mod_eq_iff (a : BitVec 32) {b : BitVec 32} (hb : b ≠ 0#32) :
    magnitude a % magnitude b = BitVec.ofInt 32 (a.toInt.tmod b.toInt) ↔
      0 ≤ a.toInt ∨ b.toInt ∣ a.toInt := by
  have hlt : (magnitude a % magnitude b).toNat < 2 ^ 31 := by
    have hpos := magnitude_pos b hb
    have hle := magnitude_le b
    have hmod := Nat.mod_lt (magnitude a).toNat hpos
    rw [BitVec.toNat_umod]
    omega
  have hsign : a.getLsbD 31 = decide (a.toInt < 0) := by
    rw [← BitVec.msb_eq_getLsbD_last a, BitVec.msb_eq_toInt]
  rw [remainder_eq, hsign, divisionResult]
  by_cases hneg : a.toInt < 0
  · rw [decide_eq_true hneg, if_pos rfl, eq_neg_iff hlt, magnitude_mod_eq_zero_iff]
    simp [not_le.mpr hneg]
  · rw [decide_eq_false hneg, if_neg Bool.false_ne_true]
    exact iff_of_true rfl (Or.inl (not_lt.mp hneg))

/-- The single-cycle variant has the remainder of the M extension. The multi-cycle
one does so exactly if the divisor is zero, the dividend is not negative, the
division is exact, or the operands are one of the three pairs that the source
treats by hand. -/
theorem rem_correct_iff (a b : BitVec 32) :
    singleCycleRem a b = remainder a b ∧
    (Yields .rem a b (remainder a b) ↔
      b = 0#32 ∨ 0 ≤ a.toInt ∨ b.toInt ∣ a.toInt ∨
        (a, b) ∈ [(0xffffffff#32, 0x80000000#32), (0xffffffff#32, 0x7fffffff#32),
          (0x80000000#32, 0x7fffffff#32)]) := by
  refine ⟨singleCycleRem_eq a b, ?_⟩
  have hiff : Yields .rem a b (remainder a b) ↔
      (if b = 0#32 then a else if Inputs.remCorner ⟨true, false, a, b, .rem⟩ then ~~~0#32
        else magnitude a % magnitude b) = remainder a b :=
    ⟨fun h => (yields_rem a b).unique h, fun h => h ▸ yields_rem a b⟩
  rw [hiff, remainder]
  by_cases hb : b = 0#32
  · simp [hb]
  rw [if_neg hb, if_neg hb]
  by_cases hc : Inputs.remCorner ⟨true, false, a, b, .rem⟩ = true
  · -- each pair is answered with its remainder
    have hpair : (a, b) ∈ [(0xffffffff#32, 0x80000000#32), (0xffffffff#32, 0x7fffffff#32),
        (0x80000000#32, 0x7fffffff#32)] := by
      simpa [Inputs.remCorner, and_or_left, or_assoc] using hc
    have hright : ~~~0#32 = BitVec.ofInt 32 (a.toInt.tmod b.toInt) := by
      simp only [List.mem_cons, Prod.mk.injEq, List.not_mem_nil, or_false] at hpair
      obtain ⟨rfl, rfl⟩ | ⟨rfl, rfl⟩ | ⟨rfl, rfl⟩ := hpair <;> decide
    rw [if_pos hc]
    exact iff_of_true hright (Or.inr (Or.inr (Or.inr hpair)))
  · have hpair : (a, b) ∉ [(0xffffffff#32, 0x80000000#32), (0xffffffff#32, 0x7fffffff#32),
        (0x80000000#32, 0x7fffffff#32)] := by
      simpa [Inputs.remCorner, and_or_left, or_assoc] using hc
    rw [if_neg hc, magnitude_mod_eq_iff a hb]
    simp [hb, hpair]

/-- `-7 rem 2` leaves `1`; the single-cycle variant has `-1`. -/
theorem rem_loses_sign :
    ¬ Yields .rem (-7#32) 2#32 (remainder (-7#32) 2#32) ∧ Yields .rem (-7#32) 2#32 1#32 ∧
      singleCycleRem (-7#32) 2#32 = -1#32 := by
  have hone : Yields .rem (-7#32) 2#32 1#32 := yields_rem (-7#32) 2#32
  refine ⟨fun h => ?_, hone, by decide⟩
  exact absurd (hone.unique h) (by decide)

end TagSoc.Alu
