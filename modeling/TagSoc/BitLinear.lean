import Mathlib.Data.BitVec
import Mathlib.Dynamics.PeriodicPts.Defs

/-!
# Linear maps of bit vectors

Maps that respect the sum without carry. Such a map is known from its values at
the powers of two. If those powers are its own iterates at one, as they are for a
shift register with feedback, then each of its powers is known from one value,
and the values at one multiply: `iterate_add_one` computes `f^[m + n] 1` from
`f^[m] 1` and `f^[n] 1`, so that numbers of steps far too large to be taken one
by one can be reached by squaring.
-/
namespace TagSoc.BitLinear

variable {w : ℕ}

def Linear (f : BitVec w → BitVec w) : Prop := ∀ x y, f (x ^^^ y) = f x ^^^ f y

/-- The sum of `v k` over the bits `k < n` that are set in `x`. -/
def combine (x : BitVec w) (v : ℕ → BitVec w) : ℕ → BitVec w
  | 0 => 0#w
  | k + 1 => combine x v k ^^^ (if x.getLsbD k then v k else 0#w)

theorem combine_getLsbD (x : BitVec w) (n : ℕ) {i : ℕ} (hi : i < w) :
    (combine x (BitVec.twoPow w) n).getLsbD i = (decide (i < n) && x.getLsbD i) := by
  induction n with
  | zero => simp [combine]
  | succ n ih =>
      rw [combine, BitVec.getLsbD_xor, ih]
      by_cases hn : n = i
      · subst hn
        cases hx : x.getLsbD n <;> simp [hi]
      · have hlt : i < n + 1 ↔ i < n := by omega
        split_ifs <;> simp [BitVec.getLsbD_twoPow, hn, hlt]

/-- Every vector is the sum of its powers of two. -/
theorem combine_twoPow (x : BitVec w) : combine x (BitVec.twoPow w) w = x := by
  apply BitVec.eq_of_getLsbD_eq
  intro i hi
  rw [combine_getLsbD x w hi, decide_eq_true hi, Bool.true_and]

theorem combine_congr (x : BitVec w) {u v : ℕ → BitVec w} {n : ℕ} (h : ∀ k < n, u k = v k) :
    combine x u n = combine x v n := by
  induction n with
  | zero => rfl
  | succ n ih => rw [combine, combine, ih fun k hk => h k (by omega), h n (by omega)]

section linear
variable {f : BitVec w → BitVec w} (hf : Linear f)
include hf

theorem Linear.map_zero : f 0#w = 0#w := by
  have h := hf 0#w 0#w
  rwa [BitVec.xor_self, BitVec.xor_self] at h

theorem Linear.iterate (n : ℕ) : Linear f^[n] := by
  intro x y
  induction n generalizing x y with
  | zero => rfl
  | succ n ih =>
      simp only [Function.iterate_succ_apply]
      rw [hf, ih]

theorem Linear.map_combine (x : BitVec w) (v : ℕ → BitVec w) (n : ℕ) :
    f (combine x v n) = combine x (fun k => f (v k)) n := by
  induction n with
  | zero => exact hf.map_zero
  | succ n ih =>
      rw [combine, hf, ih, combine]
      split_ifs
      · rfl
      · rw [hf.map_zero]

/-- Only zero goes to zero, so different vectors go to different ones. -/
theorem Linear.injective (hker : ∀ x, f x = 0#w → x = 0#w) : Function.Injective f := by
  intro x y h
  have hsum : f (x ^^^ y) = 0#w := by rw [hf, h, BitVec.xor_self]
  exact BitVec.xor_eq_zero_iff.mp (hker _ hsum)

end linear

/-! ## Powers -/

/-- The first iterates at one are the powers of two. -/
def Shifts (f : BitVec w → BitVec w) : Prop := ∀ k < w, f^[k] 1#w = BitVec.twoPow w k

def times (f : BitVec w → BitVec w) (x y : BitVec w) : BitVec w := combine x (fun k => f^[k] y) w

section powers
variable {f : BitVec w → BitVec w} (hf : Linear f) (hs : Shifts f)
include hf hs

theorem iterate_eq_times (n : ℕ) (x : BitVec w) : f^[n] x = times f x (f^[n] 1#w) :=
  calc f^[n] x = f^[n] (combine x (BitVec.twoPow w) w) := by rw [combine_twoPow]
    _ = combine x (fun k => f^[n] (BitVec.twoPow w k)) w := (hf.iterate n).map_combine _ _ _
    _ = times f x (f^[n] 1#w) := combine_congr x fun k hk => by
        rw [← hs k hk, ← Function.iterate_add_apply, ← Function.iterate_add_apply, Nat.add_comm]

theorem iterate_add_one (m n : ℕ) :
    f^[m + n] 1#w = times f (f^[n] 1#w) (f^[m] 1#w) := by
  rw [Function.iterate_add_apply, iterate_eq_times hf hs]

theorem iterate_two_pow (k : ℕ) : f^[2 ^ k] 1#w = (fun p => times f p p)^[k] (f 1#w) := by
  induction k with
  | zero => rfl
  | succ k ih =>
      rw [Function.iterate_succ_apply', ← ih, Nat.pow_succ, Nat.mul_two, iterate_add_one hf hs]

/-- A power that fixes one is the identity. -/
theorem iterate_of_one {n : ℕ} (h : f^[n] 1#w = 1#w) (x : BitVec w) : f^[n] x = x := by
  have h₀ := iterate_eq_times hf hs 0 x
  rw [iterate_eq_times hf hs, h]
  exact h₀.symm

end powers

end TagSoc.BitLinear
