import TagSoc.MulDiv

/-!
# The reference divider

`DivModel::stepdiv` of `div.h`, with which the divider of the unit was designed.
The divisor is moved up as far as it has to be and then down again, one bit of
the quotient at a time; the unit always moves it by 32 bits. The template
parameter is an argument here. The loops have a bound that they do not reach;
the cycle counter and the printing are left out.
-/
namespace TagSoc.DivModel

abbrev Word := BitVec 32

def kSignBit : Word := 1#32 <<< 31

def getMagnitude (isSigned : Bool) (x : Word) : Word :=
  if isSigned then (if x &&& kSignBit ≠ 0#32 then -x else x) else x

def belowZero (isSigned : Bool) (x : Word) : Bool := isSigned && x.slt 0#32

/-- The normalization loop; it changes `order` and `divisor`. -/
def normalize (dividend : Word) : ℕ → Word → Word → Option (Word × Word)
  | 0, _, _ => none
  | fuel + 1, order, divisor =>
      if dividend > divisor ∧ divisor &&& kSignBit = 0#32 then
        normalize dividend fuel (order <<< 1) (divisor <<< 1)
      else some (order, divisor)

/-- The variables of the main loop. -/
structure Loop where
  dividend : Word
  divisor : Word
  order : Word
  result : Word
deriving Repr, DecidableEq

def Loop.subtract (l : Loop) : Loop :=
  if l.dividend ≥ l.divisor then
    { l with dividend := l.dividend - l.divisor, result := l.result ||| l.order }
  else l

def Loop.next (l : Loop) : Loop :=
  { l.subtract with divisor := l.divisor >>> 1, order := l.order >>> 1 }

def mainLoop : ℕ → Loop → Option Loop
  | 0, _ => none
  | fuel + 1, l => if l.next.order ≠ 0#32 then mainLoop fuel l.next else some l.next

/-- The quotient and the remainder. -/
def stepdiv (isSigned : Bool) (fuel : ℕ) (a b : Word) : Option (Word × Word) :=
  if b = 0#32 then some (-1#32, a)
  else if isSigned ∧ b = -1#32 ∧ a = kSignBit then some (kSignBit, 0#32)
  else do
    let sign := belowZero isSigned a != belowZero isSigned b
    let dividend := getMagnitude isSigned a
    let (order, divisor) ← normalize dividend fuel 1#32 (getMagnitude isSigned b)
    let l ← mainLoop fuel ⟨dividend, divisor, order, 0#32⟩
    some (if sign then -l.result else l.result, l.dividend)

/-- What `internalCheck` expects of the remainder. -/
def internalRemainder (isSigned : Bool) (a b : Word) : Word :=
  if isSigned ∧ a = kSignBit ∧ b = ~~~0#32 then 0#32
  else if b = 0#32 then a
  else if isSigned then a.srem b else a % b

/-! ## Normalization -/

theorem and_kSignBit (x : Word) : x &&& kSignBit = 0#32 ↔ x.toNat < 2 ^ 31 := by
  have hbit : x &&& kSignBit = 0#32 ↔ x.getLsbD 31 = false := by
    rw [kSignBit, ← BitVec.twoPow_eq, BitVec.and_twoPow]
    cases x.getLsbD 31 <;> decide
  rw [hbit, Alu.sign_bit, decide_eq_false_iff_not, Nat.not_le]

section loops
variable {m n : ℕ} (hn : 0 < n)
include hn

/-- The divisor is moved up by some number of bits, until it has passed the
dividend or cannot be moved further. -/
theorem normalize_spec (dividend : Word) {fuel k : ℕ} {order divisor : Word}
    (hfuel : 32 ≤ fuel + k) (ho : order.toNat = 2 ^ k) (hd : divisor.toNat = n * 2 ^ k) :
    ∃ j o d, normalize dividend fuel order divisor = some (o, d) ∧ o.toNat = 2 ^ j ∧
      d.toNat = n * 2 ^ j ∧ dividend.toNat < 2 * d.toNat := by
  induction fuel generalizing k order divisor with
  | zero =>
      have hlt := divisor.isLt
      have hpow : 2 ^ 32 ≤ 2 ^ k := Nat.pow_le_pow_right (by decide) (by omega)
      have hle : 2 ^ k ≤ n * 2 ^ k := Nat.le_mul_of_pos_left _ hn
      omega
  | succ fuel ih =>
      rw [normalize]
      split
      · rename_i hmove
        have hsmall := (and_kSignBit divisor).mp hmove.2
        have hnext : n * 2 ^ (k + 1) = 2 * divisor.toNat := by
          rw [hd, Nat.pow_succ]
          ring
        have hle : 2 ^ (k + 1) ≤ n * 2 ^ (k + 1) := Nat.le_mul_of_pos_left _ hn
        have ho' : (order <<< 1).toNat = 2 ^ (k + 1) := by
          rw [BitVec.toNat_shiftLeft, ho, Nat.shiftLeft_eq, ← Nat.pow_succ]
          exact Nat.mod_eq_of_lt (by omega)
        have hd' : (divisor <<< 1).toNat = n * 2 ^ (k + 1) := by
          rw [BitVec.toNat_shiftLeft, Nat.shiftLeft_eq]
          omega
        exact ih (by omega) ho' hd'
      · rename_i hstop
        have hgt := dividend.isLt
        have hpos : 0 < n * 2 ^ k := Nat.mul_pos hn (Nat.two_pow_pos k)
        refine ⟨k, order, divisor, rfl, ho, hd, ?_⟩
        rw [and_kSignBit] at hstop
        by_contra hbig
        exact hstop ⟨BitVec.lt_def.mpr (by omega), by omega⟩

end loops

/-! ## Division -/

/-- The loop before the bit `k` of the quotient of `m` by `n`. -/
structure Dividing (m n k : ℕ) (l : Loop) : Prop where
  order : l.order.toNat = 2 ^ k
  divisor : l.divisor.toNat = n * 2 ^ k
  dividend : l.dividend.toNat < 2 * (n * 2 ^ k)
  sum : l.result.toNat * n + l.dividend.toNat = m
  lower : 2 ^ (k + 1) ∣ l.result.toNat

section division
variable {m n k : ℕ} {l : Loop} (h : Dividing m n k l)
include h

/-- One bit of the quotient. -/
theorem Dividing.subtract : l.subtract.dividend.toNat < n * 2 ^ k ∧
    l.subtract.result.toNat * n + l.subtract.dividend.toNat = m ∧
    2 ^ k ∣ l.subtract.result.toNat := by
  have hdividend := h.dividend
  have hdivisor := h.divisor
  have hsum := h.sum
  have hlower : 2 ^ k ∣ l.result.toNat := dvd_trans (pow_dvd_pow 2 (Nat.le_succ k)) h.lower
  rw [Loop.subtract]
  split
  · rename_i hge
    have hge' : l.divisor.toNat ≤ l.dividend.toNat := BitVec.le_def.mp hge
    have hor : (l.result ||| l.order).toNat = l.result.toNat + 2 ^ k := by
      obtain ⟨q, hq⟩ := h.lower
      rw [BitVec.toNat_or, h.order, hq]
      exact (Nat.two_pow_add_eq_or_of_lt (Nat.pow_lt_pow_succ (by decide)) q).symm
    dsimp only
    rw [BitVec.toNat_sub_of_le hge, hor]
    refine ⟨by omega, ?_, Nat.dvd_add hlower (Nat.dvd_refl _)⟩
    rw [Nat.add_mul, Nat.mul_comm (2 ^ k) n]
    omega
  · rename_i hlt
    have hlt' : ¬ l.divisor.toNat ≤ l.dividend.toNat := fun hle => hlt (BitVec.le_def.mpr hle)
    exact ⟨by omega, hsum, hlower⟩

theorem Dividing.next {j : ℕ} (hk : k = j + 1) : Dividing m n j l.next := by
  obtain ⟨hlt, hsum, hlower⟩ := h.subtract
  subst hk
  have htwice : n * 2 ^ (j + 1) = 2 * (n * 2 ^ j) := by
    rw [Nat.pow_succ]
    ring
  refine ⟨?_, ?_, ?_, hsum, hlower⟩
  · change (l.order >>> 1).toNat = 2 ^ j
    rw [BitVec.toNat_ushiftRight, h.order, Nat.shiftRight_eq_div_pow, Nat.pow_succ]
    omega
  · change (l.divisor >>> 1).toNat = n * 2 ^ j
    rw [BitVec.toNat_ushiftRight, h.divisor, Nat.shiftRight_eq_div_pow, htwice]
    omega
  · rw [← htwice]
    exact hlt

/-- The loop ends with the quotient and the remainder. -/
theorem Dividing.mainLoop {fuel : ℕ} (hn : 0 < n) (hfuel : k < fuel) :
    ∃ l', mainLoop fuel l = some l' ∧ l'.result.toNat = m / n ∧ l'.dividend.toNat = m % n := by
  induction k generalizing fuel l with
  | zero =>
      obtain ⟨fuel, rfl⟩ := Nat.exists_eq_add_of_lt hfuel
      obtain ⟨hlt, hsum, -⟩ := h.subtract
      have horder : l.next.order = 0#32 := by
        apply BitVec.eq_of_toNat_eq
        change (l.order >>> 1).toNat = 0
        rw [BitVec.toNat_ushiftRight, h.order]
        rfl
      have hend : m / n = l.next.result.toNat ∧ m % n = l.next.dividend.toNat := by
        refine (Nat.div_mod_unique hn).mpr ⟨?_, by simpa [Loop.next] using hlt⟩
        rw [Nat.add_comm, Nat.mul_comm]
        exact hsum
      refine ⟨l.next, ?_, hend.1.symm, hend.2.symm⟩
      rw [DivModel.mainLoop, if_neg (not_not.mpr horder)]
  | succ k ih =>
      obtain ⟨fuel, rfl⟩ := Nat.exists_eq_add_of_lt hfuel
      have hnext := h.next rfl
      have horder : l.next.order ≠ 0#32 := by
        intro h0
        have hpos := Nat.two_pow_pos k
        have hzero := hnext.order
        rw [h0, BitVec.toNat_ofNat] at hzero
        omega
      rw [DivModel.mainLoop, if_pos horder]
      exact ih hnext (by omega)

end division

/-! ## The function -/

theorem getMagnitude_eq (isSigned : Bool) (x : Word) :
    getMagnitude isSigned x = if isSigned then Alu.magnitude x else x := by
  have hiff : x &&& kSignBit ≠ 0#32 ↔ x.getLsbD 31 = true := by
    rw [Ne, and_kSignBit, Alu.sign_bit, decide_eq_true_iff, Nat.not_lt]
  simp only [getMagnitude, hiff, Alu.magnitude]

theorem belowZero_eq (isSigned : Bool) (x : Word) :
    belowZero isSigned x = (isSigned && x.getLsbD 31) := by
  rw [belowZero, ← BitVec.msb_eq_getLsbD_last x, BitVec.slt_zero_eq_msb]

/-- The operation of the unit that the model is for. -/
def aluop (isSigned : Bool) : Alu.AluOp := if isSigned then .div else .divu

/-- With enough rounds there is always a result: the quotient of the magnitudes
with its sign, and their remainder without. -/
theorem stepdiv_eq (isSigned : Bool) {fuel : ℕ} (hfuel : 32 ≤ fuel) (a b : Word) :
    stepdiv isSigned fuel a b = some
      (if b = 0#32 then (-1#32, a)
      else if isSigned ∧ b = -1#32 ∧ a = kSignBit then (kSignBit, 0#32)
      else (Alu.divisionResult (aluop isSigned) a b,
        getMagnitude isSigned a % getMagnitude isSigned b)) := by
  rw [stepdiv]
  split_ifs with hb hover
  · rfl
  · rfl
  have hpos : 0 < (getMagnitude isSigned b).toNat := by
    rw [getMagnitude_eq]
    split_ifs
    · exact Alu.magnitude_pos b hb
    · exact Nat.pos_of_ne_zero fun h0 => hb (BitVec.eq_of_toNat_eq h0)
  have hfirst : (getMagnitude isSigned b).toNat = (getMagnitude isSigned b).toNat * 2 ^ 0 := by
    rw [Nat.pow_zero, Nat.mul_one]
  obtain ⟨k, order, divisor, hnorm, ho, hd, hlt⟩ :=
    normalize_spec hpos (getMagnitude isSigned a) hfuel (rfl : (1#32).toNat = 2 ^ 0) hfirst
  have hk : k < 32 := by
    have := order.isLt
    exact (Nat.pow_lt_pow_iff_right (by decide : 1 < 2)).mp (by omega)
  have hstart : Dividing (getMagnitude isSigned a).toNat (getMagnitude isSigned b).toNat k
      ⟨getMagnitude isSigned a, divisor, order, 0#32⟩ :=
    ⟨ho, hd, hd ▸ hlt, by simp, dvd_zero _⟩
  obtain ⟨l, hmain, hquot, hrem⟩ := hstart.mainLoop hpos (Nat.lt_of_lt_of_le hk hfuel)
  have hquot' : l.result = getMagnitude isSigned a / getMagnitude isSigned b :=
    BitVec.eq_of_toNat_eq (by rw [hquot, BitVec.toNat_udiv])
  have hrem' : l.dividend = getMagnitude isSigned a % getMagnitude isSigned b :=
    BitVec.eq_of_toNat_eq (by rw [hrem, BitVec.toNat_umod])
  simp only [hnorm, hmain, Option.bind_eq_bind, Option.bind_some, hquot', hrem', belowZero_eq]
  cases isSigned
  · simp [getMagnitude_eq, aluop, Alu.divisionResult]
  · simp [getMagnitude_eq, aluop, Alu.divisionResult]

/-- For all operands the model ends, with the quotient that the unit leaves. -/
theorem stepdiv_quotient (isSigned : Bool) (a b : Word) :
    ∃ q r, (∀ fuel ≥ 32, stepdiv isSigned fuel a b = some (q, r)) ∧
      Alu.Yields (aluop isSigned) a b q := by
  have hop : (aluop isSigned).isDiv = true ∧ aluop isSigned ≠ .rem := by
    cases isSigned <;> decide
  have hrun := fun fuel (hfuel : fuel ≥ 32) => stepdiv_eq isSigned hfuel a b
  by_cases hb : b = 0#32
  · subst hb
    refine ⟨_, _, hrun, ?_⟩
    have hzero := Alu.yields_divide_zero hop.1 a
    cases isSigned <;> exact hzero
  have hyields := Alu.yields_divide hop.1 hb (Alu.remCorner_of_ne hop.2 a b)
  by_cases hover : isSigned ∧ b = -1#32 ∧ a = kSignBit
  · have hquot : Alu.divisionResult (aluop isSigned) a b = kSignBit := by
      obtain ⟨rfl, rfl, rfl⟩ := hover
      decide
    simp only [if_neg hb, if_pos hover] at hrun
    exact ⟨_, _, hrun, hquot ▸ hyields⟩
  · simp only [if_neg hb, if_neg hover] at hrun
    exact ⟨_, _, hrun, hyields⟩

/-! ## The remainder -/

theorem srem_eq (a b : Word) : a.srem b = BitVec.ofInt 32 (a.toInt.tmod b.toInt) := by
  rw [← BitVec.toInt_srem, BitVec.ofInt_toInt]

theorem umod_eq (a b : Word) : a % b = BitVec.ofNat 32 (a.toNat % b.toNat) := by
  apply BitVec.eq_of_toNat_eq
  rw [BitVec.toNat_ofNat, Nat.mod_eq_of_lt (Nat.lt_of_le_of_lt (Nat.mod_le _ _) a.isLt)]
  exact BitVec.toNat_umod

/-- `internalCheck` expects the remainder of the M extension. -/
theorem internalRemainder_eq (isSigned : Bool) (a b : Word) : internalRemainder isSigned a b =
    if isSigned then Alu.remainder a b else Alu.remainderU a b := by
  cases isSigned
  · simp [internalRemainder, Alu.remainderU, umod_eq]
  · by_cases hover : a = kSignBit ∧ b = ~~~0#32
    · obtain ⟨rfl, rfl⟩ := hover
      decide
    · have hnot : ¬ (true = true ∧ a = kSignBit ∧ b = ~~~0#32) := fun h => hover h.2
      rw [internalRemainder, if_neg hnot, if_pos rfl, if_pos rfl, Alu.remainder, srem_eq]

/-- The model ends for all operands, but its remainder is the one expected
exactly if the division is unsigned or by zero, the dividend is not negative, or
there is no remainder. -/
theorem stepdiv_remainder_iff (isSigned : Bool) (a b : Word) :
    internalRemainder isSigned a b =
      (if isSigned then Alu.remainder a b else Alu.remainderU a b) ∧
    ∃ q r, (∀ fuel ≥ 32, stepdiv isSigned fuel a b = some (q, r)) ∧
      (r = internalRemainder isSigned a b ↔
        isSigned = false ∨ b = 0#32 ∨ 0 ≤ a.toInt ∨ b.toInt ∣ a.toInt) := by
  refine ⟨internalRemainder_eq isSigned a b, ?_⟩
  have hrun := fun fuel (hfuel : fuel ≥ 32) => stepdiv_eq isSigned hfuel a b
  rw [internalRemainder_eq]
  by_cases hb : b = 0#32
  · simp only [if_pos hb] at hrun
    refine ⟨_, _, hrun, iff_of_true ?_ (.inr (.inl hb))⟩
    simp [hb, Alu.remainder, Alu.remainderU]
  simp only [if_neg hb] at hrun
  by_cases hover : isSigned ∧ b = -1#32 ∧ a = kSignBit
  · obtain ⟨rfl, rfl, rfl⟩ := hover
    exact ⟨_, _, hrun, by decide⟩
  simp only [if_neg hover] at hrun
  refine ⟨_, _, hrun, ?_⟩
  cases isSigned
  · refine iff_of_true ?_ (.inl rfl)
    rw [getMagnitude_eq, getMagnitude_eq, Alu.remainderU, if_neg hb, ← umod_eq]
    rfl
  · have hiff := Alu.magnitude_mod_eq_iff a hb
    simp only [getMagnitude_eq, Alu.remainder, if_neg hb, if_true, hiff]
    simp [hb]

/-- The model leaves `1` as the remainder of `-7` by `2`. -/
theorem stepdiv_loses_sign : stepdiv true 32 (-7#32) 2#32 = some (-3#32, 1#32) ∧
    internalRemainder true (-7#32) 2#32 = -1#32 := by
  decide

end TagSoc.DivModel
