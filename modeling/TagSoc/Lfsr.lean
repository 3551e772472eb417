import TagSoc.BitLinear
import TagSoc.Csr

/-!
# The random number register

`lfsr_rnd.v`: the word is shifted left, and the feedback word is added when the
bit that falls out is set. In this direction the feedback `32'h80200003` stands
for `x^32 + x^31 + x^21 + x + 1`, which is divisible by `x^3 + x^2 + 1`; it is the
opposite direction in which the same constant gives the longest cycle.
-/
namespace TagSoc.LfsrRnd
open BitLinear

def poly : BitVec 32 := 0x80200003#32

/-- `to_xor`. -/
def toXor (result : BitVec 32) : BitVec 32 :=
  poly &&& (if result.getLsbD 31 then ~~~0#32 else 0#32)

def resetValue : BitVec 32 := 0xbed4dead#32

def step (reset : Bool) (result : BitVec 32) : BitVec 32 :=
  if reset then resetValue
  else (result.extractLsb' 0 31 ^^^ (toXor result).extractLsb' 1 31) ++ result.extractLsb' 31 1

/-- A clock without reset. -/
def next : BitVec 32 → BitVec 32 := step false

/-- The instance in the CSR block, where the fill is a replicated bit. -/
theorem csr_rnd (s : Csr.State) (i : Csr.Inputs) : (s.step i).rnd = step i.rst s.rnd := by
  have hbit : s.rnd.extractLsb' 31 1 = BitVec.ofBool (s.rnd.getLsbD 31) := by
    apply BitVec.eq_of_getLsbD_eq
    intro k hk
    obtain rfl : k = 0 := by omega
    simp
  have hfill : BitVec.replicate 32 (s.rnd.extractLsb' 31 1) =
      if s.rnd.getLsbD 31 then ~~~0#32 else 0#32 := by
    rw [hbit]
    cases s.rnd.getLsbD 31 <;> decide
  rw [step, toXor, ← hfill]
  rfl

theorem next_getLsbD (x : BitVec 32) {i : ℕ} (hi : i < 32) :
    (next x).getLsbD i = if i = 0 then x.getLsbD 31
      else x.getLsbD (i - 1) ^^ (poly.getLsbD i && x.getLsbD 31) := by
  have htop : i - 1 < 31 := by omega
  have hfill : (if x.getLsbD 31 then ~~~0#32 else 0#32).getLsbD i = x.getLsbD 31 := by
    cases x.getLsbD 31
    · exact BitVec.getLsbD_zero
    · rw [if_pos rfl, BitVec.getLsbD_not, decide_eq_true hi, BitVec.getLsbD_zero]
      rfl
  rw [next, step, if_neg Bool.false_ne_true, BitVec.getLsbD_append]
  by_cases h0 : i = 0
  · subst h0
    simp
  · have hsub : 1 + (i - 1) = i := by omega
    have hlt : ¬ i < 1 := by omega
    rw [if_neg h0, if_neg hlt, BitVec.getLsbD_xor, BitVec.getLsbD_extractLsb',
      BitVec.getLsbD_extractLsb', toXor, BitVec.getLsbD_and, hsub, hfill, decide_eq_true htop, Nat.zero_add,
      Bool.true_and, Bool.true_and]

theorem next_linear : Linear next := by
  intro x y
  apply BitVec.eq_of_getLsbD_eq
  intro i hi
  rw [BitVec.getLsbD_xor, next_getLsbD _ hi, next_getLsbD _ hi, next_getLsbD _ hi]
  split_ifs
  · rw [BitVec.getLsbD_xor]
  · rw [BitVec.getLsbD_xor, BitVec.getLsbD_xor]
    cases poly.getLsbD i <;> cases x.getLsbD 31 <;> cases y.getLsbD 31 <;> simp

theorem next_shifts : Shifts next := by
  have h : ∀ k < 32, next^[k] 1#32 = BitVec.twoPow 32 k := by decide +kernel
  exact h

/-- The bit that falls out comes in again below, so nothing is lost. -/
theorem next_eq_zero (x : BitVec 32) (h : next x = 0#32) : x = 0#32 := by
  have hbit : ∀ {i}, i < 32 → (next x).getLsbD i = false := by
    intro i hi
    rw [h, BitVec.getLsbD_zero]
  have htop : x.getLsbD 31 = false := by
    have h0 := hbit (i := 0) (by decide)
    rwa [next_getLsbD x (by decide), if_pos rfl] at h0
  apply BitVec.eq_of_getLsbD_eq
  intro i hi
  rcases Nat.lt_or_ge i 31 with hlt | hge
  · have hi' := hbit (i := i + 1) (by omega)
    rw [next_getLsbD x (by omega), if_neg (by omega), htop, Bool.and_false, Bool.xor_false] at hi'
    simpa using hi'
  · rw [show i = 31 by omega, htop, BitVec.getLsbD_zero]

theorem next_injective : Function.Injective next := next_linear.injective next_eq_zero

theorem next_iterate_injective (n : ℕ) : Function.Injective next^[n] := next_injective.iterate n

theorem next_iterate_ne_zero {x : BitVec 32} (hx : x ≠ 0#32) (n : ℕ) : next^[n] x ≠ 0#32 := by
  intro h
  have hzero : next^[n] 0#32 = 0#32 := (next_linear.iterate n).map_zero
  exact hx (next_iterate_injective n (h.trans hzero.symm))

/-! ## Cycles -/

/-- The cycles of the factors of degree 3 and 29 together. -/
def longest : ℕ := 7 * (2 ^ 29 - 1)

/-- Seven times `2 ^ 29` clocks, by squaring. -/
theorem next_seven_one : next^[2 ^ 29 + (2 ^ 30 + 2 ^ 31)] 1#32 = next^[7] 1#32 := by
  rw [iterate_add_one next_linear next_shifts, iterate_add_one next_linear next_shifts,
    iterate_two_pow next_linear next_shifts, iterate_two_pow next_linear next_shifts,
    iterate_two_pow next_linear next_shifts]
  decide +kernel

/-- Every state is back after `longest` clocks. -/
theorem next_longest (x : BitVec 32) : next^[longest] x = x := by
  have hone : next^[7] (next^[longest] 1#32) = next^[7] 1#32 := by
    rw [← Function.iterate_add_apply]
    exact next_seven_one
  exact iterate_of_one next_linear next_shifts (next_iterate_injective 7 hone) x

/-- A state of the short cycle. -/
def short : BitVec 32 := 0x2749d3a7#32

theorem next_short : next^[7] short = short := by decide

theorem next_one : next^[7] 1#32 ≠ 1#32 := by decide

/-- A state on a cycle of seven has all its iterates there. -/
theorem cycle_of_seven {x y : BitVec 32} {n : ℕ} (h : next^[n] x = y) :
    next^[7] x = x ↔ next^[7] y = y := by
  rw [← h, ← Function.iterate_add_apply, Nat.add_comm, Function.iterate_add_apply]
  exact (next_iterate_injective n).eq_iff.symm

/-- Zero is never reached, but no cycle is the longest possible one: every state
comes back after at most `7 * (2 ^ 29 - 1)` clocks, and from none are all
nonzero words visited. -/
theorem never_maximal (x : BitVec 32) (hx : x ≠ 0#32) :
    (∀ n, next^[n] x ≠ 0#32) ∧ Function.minimalPeriod next x ∣ longest ∧
      Function.minimalPeriod next x ≠ 2 ^ 32 - 1 ∧ ∃ y ≠ 0#32, ∀ n, next^[n] x ≠ y := by
  have hdvd : Function.minimalPeriod next x ∣ longest :=
    Function.IsPeriodicPt.minimalPeriod_dvd (next_longest x)
  refine ⟨next_iterate_ne_zero hx, hdvd, ?_, ?_⟩
  · intro h
    have hle := Nat.le_of_dvd (by decide) hdvd
    rw [h] at hle
    exact absurd hle (by decide)
  · by_cases hreach : ∃ n, next^[n] x = short
    · obtain ⟨n, hn⟩ := hreach
      refine ⟨1#32, by decide, fun m hm => next_one ?_⟩
      exact (cycle_of_seven hm).mp ((cycle_of_seven hn).mpr next_short)
    · exact ⟨short, by decide, fun n hn => hreach ⟨n, hn⟩⟩

theorem reset_never_maximal : Function.minimalPeriod next resetValue ≠ 2 ^ 32 - 1 :=
  (never_maximal resetValue (by decide)).2.2.1

/-- The short cycle has seven states and only seven of the tags. -/
theorem short_cycle : short ≠ 0#32 ∧ next^[7] short = short ∧
    (List.range 7).map (fun n => (next^[n] short).setWidth 4) =
      [7#4, 14#4, 12#4, 11#4, 5#4, 9#4, 2#4] := by
  decide

end TagSoc.LfsrRnd
