import Mathlib.Data.Nat.Init
import Mathlib.Tactic.Common

/-!
# Runs of a clocked machine

A machine is a step function on states and inputs; a run lists the state and
the input of every clock. `Until R Q t` is the bounded-until of linear temporal
logic: from clock `t` on `R` holds until a clock at which `Q` does, and that
clock exists. Proofs about long runs are chains of `Until.next` (one clock),
`Until.wait` (a handshake of unknown length) and `Until.trans`.
-/
namespace TagSoc.Clocked

variable {σ ι : Type*}

structure Run (step : σ → ι → σ) where
  state : ℕ → σ
  input : ℕ → ι
  next : ∀ t, state (t + 1) = step (state t) (input t)

namespace Run
variable {step : σ → ι → σ}

/-- The run of a machine whose inputs are a function of the clock and of the
state, as they are when an environment answers the machine's outputs. -/
def closed (step : σ → ι → σ) (env : ℕ → σ → ι) (s : σ) : Run step :=
  let states : ℕ → σ := fun t => Nat.rec s (fun k x => step x (env k x)) t
  { state := states, input := fun t => env t (states t), next := fun _ => rfl }

/-- The run from clock `t` on. -/
def drop (r : Run step) (t : ℕ) : Run step where
  state n := r.state (t + n)
  input n := r.input (t + n)
  next n := r.next (t + n)

/-- What holds at one clock and survives every step holds from there on. -/
theorem invariant (r : Run step) {P : σ → Prop} {t : ℕ} (h : P (r.state t))
    (hstep : ∀ n, t ≤ n → P (r.state n) → P (step (r.state n) (r.input n))) :
    ∀ n, t ≤ n → P (r.state n) := by
  intro n hn
  induction n, hn using Nat.le_induction with
  | base => exact h
  | succ n hn ih =>
      rw [r.next]
      exact hstep n hn ih

end Run

/-! ## Two runs, one after the other -/

/-- The first sequence up to clock `T`, then the second one from its beginning. -/
def spliced {α : Type*} (T : ℕ) (f g : ℕ → α) (t : ℕ) : α := if t < T then f t else g (t - T)

theorem spliced_of_lt {α : Type*} {T t : ℕ} (f g : ℕ → α) (h : t < T) : spliced T f g t = f t :=
  if_pos h

theorem spliced_add {α : Type*} (T n : ℕ) (f g : ℕ → α) : spliced T f g (T + n) = g n := by
  rw [spliced, if_neg (by omega), Nat.add_sub_cancel_left]

/-- At the seam both have the same to say. -/
theorem spliced_of_le {α : Type*} {T t : ℕ} {f g : ℕ → α} (hseam : g 0 = f T) (h : t ≤ T) :
    spliced T f g t = f t := by
  rcases Nat.eq_or_lt_of_le h with rfl | hlt
  · exact (spliced_add t 0 f g).trans hseam
  · exact spliced_of_lt f g hlt

/-- A run that leaves another one at clock `T`. -/
def Run.splice {step : σ → ι → σ} (r : Run step) (T : ℕ) (q : Run step)
    (hseam : q.state 0 = r.state T) : Run step where
  state := spliced T r.state q.state
  input := spliced T r.input q.input
  next t := by
    rcases Nat.lt_or_ge t T with h | h
    · rw [spliced_of_le hseam h, spliced_of_lt _ _ h, spliced_of_lt _ _ h]
      exact r.next t
    · obtain ⟨n, rfl⟩ := Nat.exists_eq_add_of_le h
      rw [Nat.add_assoc, spliced_add, spliced_add, spliced_add]
      exact q.next n

def Until (R Q : ℕ → Prop) (t : ℕ) : Prop :=
  ∃ n, t ≤ n ∧ Q n ∧ ∀ k, t ≤ k → k < n → R k

namespace Until
variable {R R' Q Q' : ℕ → Prop} {t : ℕ}

theorem now (h : Q t) : Until R Q t :=
  ⟨t, (Nat.le_refl _), h, fun _ hk hlt => absurd hk (Nat.not_le.mpr hlt)⟩

theorem next (hR : R t) (h : Until R Q (t + 1)) : Until R Q t := by
  obtain ⟨n, hn, hq, hr⟩ := h
  refine ⟨n, Nat.le_of_succ_le hn, hq, ?_⟩
  intro k hk hlt
  rcases Nat.eq_or_lt_of_le hk with rfl | hk
  · exact hR
  · exact hr k hk hlt

theorem trans (h : Until R Q t) (h' : ∀ n, t ≤ n → Q n → Until R Q' n) : Until R Q' t := by
  obtain ⟨n, hn, hq, hr⟩ := h
  obtain ⟨m, hm, hq', hr'⟩ := h' n hn hq
  refine ⟨m, Nat.le_trans hn hm, hq', ?_⟩
  intro k hk hlt
  rcases Nat.lt_or_ge k n with hkn | hkn
  · exact hr k hk hkn
  · exact hr' k hkn hlt

theorem mono (h : Until R Q t) (hR : ∀ n, t ≤ n → R n → R' n)
    (hQ : ∀ n, t ≤ n → Q n → Q' n) : Until R' Q' t := by
  obtain ⟨n, hn, hq, hr⟩ := h
  exact ⟨n, hn, hQ n hn hq, fun k hk hlt => hR k hk (hr k hk hlt)⟩

/-- A handshake: `W` is kept while the answer is outstanding, and the answer,
which comes after finitely many clocks, establishes `Q` in the next one. -/
theorem wait {W A : ℕ → Prop} (hW : W t) (hA : ∃ n, t ≤ n ∧ A n)
    (hR : ∀ n, t ≤ n → W n → R n)
    (hstay : ∀ n, t ≤ n → W n → ¬ A n → W (n + 1))
    (hdone : ∀ n, t ≤ n → W n → A n → Q (n + 1)) : Until R Q t := by
  obtain ⟨n, hn, ha⟩ := hA
  -- induction on the number of clocks to the answer, for every starting clock
  obtain ⟨d, rfl⟩ := Nat.exists_eq_add_of_le hn
  induction d generalizing t with
  | zero => exact next (hR t (Nat.le_refl _) hW) (now (hdone t (Nat.le_refl _) hW ha))
  | succ d ih =>
      by_cases hat : A t
      · exact next (hR t (Nat.le_refl _) hW) (now (hdone t (Nat.le_refl _) hW hat))
      · refine next (hR t (Nat.le_refl _) hW) ?_
        refine ih (hstay t (Nat.le_refl _) hW hat) (fun n h => hR n (by omega))
          (fun n h => hstay n (by omega)) (fun n h => hdone n (by omega)) (by omega) ?_
        rwa [show t + 1 + d = t + (d + 1) by omega]

end Until

end TagSoc.Clocked
