import Mathlib.Data.BitVec
import Mathlib.Tactic.IntervalCases

/-!
# Slices of bit vectors

Facts about cutting words into fields and putting them together again, and
about even addresses.
-/
namespace TagSoc.BitSlices

/-- Cutting a word in two and appending the parts gives the word back. -/
theorem append_extractLsb' {w : ℕ} (x : BitVec w) (k n : ℕ) (h : n + k = w) :
    (x.extractLsb' k n ++ x.extractLsb' 0 k).cast h = x := by
  subst h
  apply BitVec.eq_of_getLsbD_eq
  intro i hi
  simp only [BitVec.cast_eq, BitVec.getLsbD_append, BitVec.getLsbD_extractLsb', Nat.zero_add]
  split_ifs with hk
  · simp [hk]
  · have h₁ : i - k < n := by omega
    have h₂ : k + (i - k) = i := by omega
    simp [h₁, h₂]

theorem halves (x : BitVec 32) : x.extractLsb' 16 16 ++ x.extractLsb' 0 16 = x :=
  append_extractLsb' x 16 16 rfl

theorem four_bytes (w : BitVec 32) : w.extractLsb' 24 8 ++ w.extractLsb' 16 8 ++
    w.extractLsb' 8 8 ++ w.extractLsb' 0 8 = w := by
  apply BitVec.eq_of_getLsbD_eq
  intro i hi
  simp only [BitVec.getLsbD_append, BitVec.getLsbD_extractLsb']
  interval_cases i <;> rfl

/-- A slice that lies within the lower part of an append. -/
theorem extractLsb'_append_low {m n : ℕ} (x : BitVec m) (y : BitVec n) (k len : ℕ)
    (h : k + len ≤ n) : (x ++ y).extractLsb' k len = y.extractLsb' k len := by
  apply BitVec.eq_of_getLsbD_eq
  intro i hi
  have hlt : k + i < n := by omega
  simp [BitVec.getLsbD_extractLsb', BitVec.getLsbD_append, hlt]

/-- One that lies within the upper part. -/
theorem extractLsb'_append_high {m n : ℕ} (x : BitVec m) (y : BitVec n) (k len : ℕ)
    (h : n ≤ k) : (x ++ y).extractLsb' k len = x.extractLsb' (k - n) len := by
  apply BitVec.eq_of_getLsbD_eq
  intro i hi
  have hlt : ¬ k + i < n := by omega
  have hsub : k + i - n = k - n + i := by omega
  simp [BitVec.getLsbD_extractLsb', BitVec.getLsbD_append, hlt, hsub]

/-- A slice of a slice. -/
theorem extractLsb'_extractLsb' {w : ℕ} (x : BitVec w) (j m k n : ℕ) (h : k + n ≤ m) :
    (x.extractLsb' j m).extractLsb' k n = x.extractLsb' (j + k) n := by
  apply BitVec.eq_of_getLsbD_eq
  intro i hi
  have hlt : k + i < m := by omega
  simp [hi, hlt, Nat.add_assoc]

/-- A concatenation as a number. -/
theorem toNat_append_add {m n : ℕ} (x : BitVec m) (y : BitVec n) :
    (x ++ y).toNat = x.toNat * 2 ^ n + y.toNat := by
  rw [BitVec.toNat_append, ← Nat.shiftLeft_add_eq_or_of_lt y.isLt, Nat.shiftLeft_eq]

theorem toNat_zero_append {n : ℕ} (k : ℕ) (x : BitVec n) : (0#k ++ x).toNat = x.toNat := by
  simp

/-- Filling up with copies of the sign bit, or with zeros. -/
theorem replicate_append {n : ℕ} (k : ℕ) (se : Bool) (y : BitVec n) :
    BitVec.replicate k (BitVec.ofBool (y.msb && se)) ++ y =
      if se then y.signExtend (1 * k + n) else y.setWidth (1 * k + n) := by
  apply BitVec.eq_of_getLsbD_eq
  intro i hi
  have hi' : i < k + n := by omega
  rw [BitVec.getLsbD_append, BitVec.getLsbD_replicate]
  rcases Nat.lt_or_ge i n with hn | hn
  · cases se <;> simp [BitVec.getElem_signExtend, hn, hi']
  · have hk : i - n < k := by omega
    have hz : y.getLsbD i = false := BitVec.getLsbD_of_ge y i hn
    cases se <;> simp [BitVec.getElem_signExtend, Nat.not_lt.mpr hn, hi', hk, Nat.mod_one, hz]

/-! ## Even addresses -/

/-- An address of a whole parcel. -/
@[simp] abbrev IsEven (x : BitVec 32) : Prop := x[0] = false

theorem even_iff (x : BitVec 32) : x[0] = false ↔ x.toNat % 2 = 0 := by
  rw [BitVec.getElem_eq_testBit_toNat, Nat.testBit_zero]
  simp only [decide_eq_false_iff_not]
  omega

theorem even_add {x y : BitVec 32} (hx : x[0] = false) (hy : y[0] = false) :
    (x + y)[0] = false := by
  rw [even_iff] at hx hy ⊢
  rw [BitVec.toNat_add]
  omega

/-- Clearing the low bit of an even address changes nothing. -/
theorem and_not_one {x : BitVec 32} (hx : x[0] = false) : x &&& ~~~1#32 = x := by
  apply BitVec.eq_of_getLsbD_eq
  intro i hi
  rcases Nat.eq_zero_or_pos i with rfl | hp
  · simpa using hx.symm
  · have h1 : (1#32).getLsbD i = false := by
      simp [BitVec.getLsbD_one]
      omega
    rw [BitVec.getLsbD_and, BitVec.getLsbD_not, h1]
    simp [hi]

/-! ## Word alignment -/

/-- Clearing the low bits rounds down. -/
theorem and_not_ones_toNat (a : BitVec 32) (k : ℕ) :
    (a &&& ~~~BitVec.ofNat 32 (2 ^ k - 1)).toNat = a.toNat - a.toNat % 2 ^ k := by
  have h : a &&& ~~~BitVec.ofNat 32 (2 ^ k - 1) = (a >>> k) <<< k := by
    apply BitVec.eq_of_getLsbD_eq
    intro i hi
    rw [BitVec.getLsbD_and, BitVec.getLsbD_not, BitVec.getLsbD_shiftLeft,
      BitVec.getLsbD_ushiftRight, BitVec.getLsbD_ofNat, Nat.testBit_two_pow_sub_one,
      decide_eq_true hi]
    rcases Nat.lt_or_ge i k with hik | hik
    · simp [hik]
    · have hnot : ¬ i < k := by omega
      rw [decide_eq_false hnot, Nat.add_sub_cancel' hik]
      simp
  have hlt : a.toNat / 2 ^ k * 2 ^ k < 2 ^ 32 :=
    Nat.lt_of_le_of_lt (Nat.div_mul_le_self _ _) a.isLt
  have hdiv := Nat.div_add_mod' a.toNat (2 ^ k)
  rw [h, BitVec.toNat_shiftLeft, BitVec.toNat_ushiftRight, Nat.shiftRight_eq_div_pow,
    Nat.shiftLeft_eq, Nat.mod_eq_of_lt hlt]
  omega

theorem and_not_three_toNat (a : BitVec 32) :
    (a &&& ~~~3#32).toNat = a.toNat - a.toNat % 4 := and_not_ones_toNat a 2

/-- The remainder of an even address is its bit 1. -/
theorem mod_four_of_even {a : BitVec 32} (h : a[0] = false) :
    a.toNat % 4 = if a.getLsbD 1 then 2 else 0 := by
  rw [even_iff] at h
  have h1 : a.getLsbD 1 = decide (a.toNat / 2 % 2 = 1) := by
    rw [BitVec.getLsbD, Nat.testBit_eq_decide_div_mod_eq]
  rw [h1]
  split_ifs with hb <;> simp at hb <;> omega

theorem and_not_three {a : BitVec 32} (h : a.toNat % 4 = 0) : a &&& ~~~3#32 = a := by
  apply BitVec.eq_of_toNat_eq
  rw [and_not_three_toNat, h, Nat.sub_zero]

/-- The upper halfword of the word that contains an address. -/
theorem and_not_three_add {a : BitVec 32} (h : a.toNat % 4 = 2) (k : BitVec 32) :
    (a &&& ~~~3#32) + (2#32 + k) = a + k := by
  rw [← BitVec.add_assoc]
  congr 1
  apply BitVec.eq_of_toNat_eq
  rw [BitVec.toNat_add, and_not_three_toNat, h]
  have := a.isLt
  simp only [BitVec.toNat_ofNat]
  omega

end TagSoc.BitSlices
