import Mathlib.Data.Nat.Count
import Mathlib.Tactic.Common

/-!
# Runs that stand still

Two runs in step with each other, up to clocks in which one of them waits. `R m n`
says that clock `m` of the first stands for clock `n` of the second, `E` and `F`
are the events of the two. Every clock of the first is then a stand-still or
belongs to a later clock of the second, and the events come in the same order.
-/
namespace TagSoc.Stutter

variable {E F : ℕ → Prop} [DecidablePred E] [DecidablePred F] {R : ℕ → ℕ → Prop}

/-- Clock `m` of the first run from a clock that stands for `n`. -/
def Follows (E F : ℕ → Prop) (R : ℕ → ℕ → Prop) (m n : ℕ) : Prop :=
  (¬ E m ∧ R (m + 1) n) ∨
    ∃ k, n ≤ k ∧ (∀ j, n ≤ j → j < k → ¬ F j) ∧ (E m ↔ F k) ∧ R (m + 1) (k + 1)

theorem count_wait {n k : ℕ} (hn : n ≤ k) (h : ∀ j, n ≤ j → j < k → ¬ F j) :
    Nat.count F k = Nat.count F n := by
  induction k, hn using Nat.le_induction with
  | base => rfl
  | succ k hk ih =>
      rw [Nat.count_succ, if_neg (h k hk (Nat.lt_succ_self k)), Nat.add_zero]
      exact ih fun j hj hlt => h j hj (by omega)

/-- One clock of the first run keeps the numbers of events equal. -/
theorem Follows.count_eq {m n : ℕ} (h : Follows E F R m n)
    (hc : Nat.count E m = Nat.count F n) :
    ∃ n', R (m + 1) n' ∧ Nat.count E (m + 1) = Nat.count F n' := by
  rcases h with ⟨hno, hR⟩ | ⟨k, hk, hwait, hev, hR⟩
  · exact ⟨n, hR, by rw [Nat.count_succ, if_neg hno, Nat.add_zero, hc]⟩
  · refine ⟨k + 1, hR, ?_⟩
    rw [Nat.count_succ, Nat.count_succ, count_wait hk hwait, hc]
    simp only [hev]

/-- Before its clock `T` the first run is matched, from a clock of the second before which
nothing has happened. -/
theorem matched {T n₀ : ℕ} (h0 : R 0 n₀) (hn : Nat.count F n₀ = 0)
    (hstep : ∀ m < T, ∀ n, R m n → Follows E F R m n) {m : ℕ} (hm : m ≤ T) :
    ∃ n, R m n ∧ Nat.count E m = Nat.count F n := by
  induction m with
  | zero => exact ⟨n₀, h0, by simp [hn]⟩
  | succ m ih =>
      obtain ⟨n, hR, hc⟩ := ih (by omega)
      exact (hstep m hm n hR).count_eq hc

end TagSoc.Stutter
