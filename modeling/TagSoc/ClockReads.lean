import TagSoc.TimerRuns

/-!
# Reading the 64-bit clocks

`__mtime` and `__mtime_alw_en` of `os.c` read a counter that is twice as wide as
the bus and runs on meanwhile: its upper half, its lower half, its upper half
again, until the upper halves agree. A read is made at some clock; nothing is
known of the clocks but their order.
-/
namespace TagSoc.Os
open Clocked WbTimer

abbrev Word := BitVec 32

def mtimeBase : Word := 0x4000000#32
def mtimeAeBase : Word := 0x4000018#32

/-- The loop of both functions: `read i a` is what the read with number `i`
finds at address `a`. The result comes with the number of the next read. -/
def readClock (read : ℕ → Word → Word) (r : Word) : ℕ → ℕ → Option (BitVec 64 × ℕ)
  | 0, _ => none
  | rounds + 1, i =>
      let hi := read i (r + 4#32)
      let lo := read (i + 1) r
      if read (i + 2) (r + 4#32) ≠ hi then readClock read r rounds (i + 3)
      else some (hi.setWidth 64 <<< 32 ||| lo.setWidth 64, i + 3)

/-- More rounds than the upper half has values are never needed. -/
def maxRounds : ℕ := 2 ^ 32

/-- `__mtime`, from the read with number `i` on. -/
def mtime (read : ℕ → Word → Word) (i : ℕ) : Option (BitVec 64 × ℕ) :=
  readClock read mtimeBase maxRounds i

/-- `__mtime_alw_en`. -/
def mtimeAlwEn (read : ℕ → Word → Word) (i : ℕ) : Option (BitVec 64 × ℕ) :=
  readClock read mtimeAeBase maxRounds i

/-- A device with a counter at `base`, lower half first. -/
structure Shows (device : ℕ → Word → Word) (base : Word) (c : ℕ → BitVec 64) : Prop where
  lower : ∀ t, device t base = lo (c t)
  upper : ∀ t, device t (base + 4#32) = hi (c t)

/-- The counter only increases, and does not wrap, between two clocks. -/
def Increases (c : ℕ → BitVec 64) (a b : ℕ) : Prop :=
  ∀ x y, a ≤ x → x ≤ y → y ≤ b → c x ≤ c y

theorem Increases.mono {c : ℕ → BitVec 64} {a b a' b' : ℕ} (h : Increases c a b) (ha : a ≤ a')
    (hb : b' ≤ b) : Increases c a' b' :=
  fun x y hx hxy hy => h x y (ha.trans hx) hxy (hy.trans hb)

/-! ## Halves -/

section halves
variable {x y z : BitVec 64}

theorem hi_toNat (x : BitVec 64) : (hi x).toNat = x.toNat / 2 ^ 32 := by
  have := x.isLt
  rw [hi, BitVec.extractLsb'_toNat, Nat.shiftRight_eq_div_pow]
  omega

theorem hi_mono (h : x ≤ y) : (hi x).toNat ≤ (hi y).toNat := by
  rw [hi_toNat, hi_toNat]
  exact Nat.div_le_div_right (BitVec.le_def.mp h)

/-- Halves read at three values in order, the outer two with the same upper
half, are those of the value in the middle. -/
theorem join_halves (hxy : x ≤ y) (hyz : y ≤ z) (h : hi z = hi x) :
    (hi x).setWidth 64 <<< 32 ||| (lo y).setWidth 64 = y := by
  have hmid : hi y = hi x := by
    apply BitVec.eq_of_toNat_eq
    have := hi_mono hxy
    have := hi_mono hyz
    rw [h] at this
    omega
  have hjoin : ∀ u v : BitVec 32, u.setWidth 64 <<< 32 ||| v.setWidth 64 = u ++ v := by
    intro u v
    apply BitVec.eq_of_getLsbD_eq
    intro i hi
    have hsub : i - 32 < 64 := by omega
    simp only [BitVec.getLsbD_or, BitVec.getLsbD_shiftLeft, BitVec.getLsbD_setWidth,
      BitVec.getLsbD_append, hi, hsub, decide_true, Bool.true_and]
    by_cases hlt : i < 32
    · simp [hlt]
    · simp [hlt, BitVec.getLsbD_of_ge v i (by omega)]
  rw [hjoin, ← hmid]
  exact BitSlices.append_extractLsb' y 32 32 rfl

end halves

/-! ## The loop -/

section loop
variable {read : ℕ → Word → Word} {r : Word}

/-- The loop ends with a round whose two upper halves agree. -/
theorem readClock_some {rounds i j : ℕ} {v : BitVec 64}
    (h : readClock read r rounds i = some (v, j)) :
    ∃ m, i ≤ m ∧ j = m + 3 ∧ read (m + 2) (r + 4#32) = read m (r + 4#32) ∧
      v = (read m (r + 4#32)).setWidth 64 <<< 32 ||| (read (m + 1) r).setWidth 64 := by
  induction rounds generalizing i with
  | zero => cases h
  | succ rounds ih =>
      rw [readClock] at h
      split at h
      · obtain ⟨m, hm, hrest⟩ := ih h
        exact ⟨m, by omega, hrest⟩
      · rename_i hagree
        cases h
        exact ⟨i, Nat.le_refl i, rfl, not_not.mp hagree, rfl⟩

variable {device : ℕ → Word → Word} {c : ℕ → BitVec 64} {σ : ℕ → ℕ} (hs : Shows device r c)
  (hσ : Monotone σ)
include hs hσ

/-- A value that is returned is the one the counter had at the last read of the
lower half. -/
theorem readClock_untorn {rounds i j : ℕ} {v : BitVec 64}
    (h : readClock (fun i => device (σ i)) r rounds i = some (v, j))
    (hc : Increases c (σ i) (σ (j - 1))) :
    i + 3 ≤ j ∧ v = c (σ (j - 2)) := by
  obtain ⟨m, hm, rfl, hagree, hv⟩ := readClock_some h
  have h₀ : σ i ≤ σ m := hσ hm
  have h₁ : σ m ≤ σ (m + 1) := hσ (by omega)
  have h₂ : σ (m + 1) ≤ σ (m + 2) := hσ (by omega)
  have hxy := hc (σ m) (σ (m + 1)) h₀ h₁ h₂
  have hyz := hc (σ (m + 1)) (σ (m + 2)) (h₀.trans h₁) h₂ (Nat.le_refl _)
  rw [hs.upper, hs.upper] at hagree
  rw [hs.upper, hs.lower, join_halves hxy hyz hagree] at hv
  exact ⟨by omega, hv⟩

/-- Every further round has seen the upper half move. -/
theorem readClock_returns (rounds i : ℕ) (hc : ∀ t, Increases c (σ i) t)
    (hr : 2 ^ 32 ≤ (hi (c (σ i))).toNat + rounds) :
    ∃ v j, readClock (fun i => device (σ i)) r rounds i = some (v, j) := by
  induction rounds generalizing i with
  | zero =>
      have := (hi (c (σ i))).isLt
      omega
  | succ rounds ih =>
      rw [readClock]
      split
      · rename_i hdiffer
        have h₂ : σ i ≤ σ (i + 2) := hσ (by omega)
        have h₃ : σ (i + 2) ≤ σ (i + 3) := hσ (by omega)
        have hle := hi_mono (hc _ (σ i) (σ (i + 2)) (Nat.le_refl _) h₂ (Nat.le_refl _))
        have hle' := hi_mono (hc _ (σ (i + 2)) (σ (i + 3)) h₂ h₃ (Nat.le_refl _))
        have hne : (hi (c (σ (i + 2)))).toNat ≠ (hi (c (σ i))).toNat := by
          rw [hs.upper, hs.upper] at hdiffer
          exact fun h => hdiffer (BitVec.eq_of_toNat_eq h)
        refine ih (i + 3) (fun t => (hc t).mono (h₂.trans h₃) (Nat.le_refl t)) ?_
        omega
      · exact ⟨_, _, rfl⟩

end loop

/-! ## The calls -/

/-- What a call of a function that reads the clock at `base` gives, for every
device that shows a counter there and every schedule of reads: the counter at
the last read of the lower half, which is between the counter at the call and
at the return; later calls do not go back; and there is a result if the counter
keeps increasing. -/
structure Untorn (call : (ℕ → Word → Word) → ℕ → Option (BitVec 64 × ℕ)) (base : Word) : Prop where
  returned : ∀ {device c} {σ : ℕ → ℕ}, Shows device base c → Monotone σ →
    ∀ {i j v t₀ t₁}, call (fun i => device (σ i)) i = some (v, j) →
      t₀ ≤ σ i → σ (j - 1) ≤ t₁ → Increases c t₀ t₁ →
      i + 3 ≤ j ∧ v = c (σ (j - 2)) ∧ c t₀ ≤ v ∧ v ≤ c t₁
  successive : ∀ {device c} {σ : ℕ → ℕ}, Shows device base c → Monotone σ →
    ∀ {i j v i' j' v'}, call (fun i => device (σ i)) i = some (v, j) → j ≤ i' →
      call (fun i => device (σ i)) i' = some (v', j') → Increases c (σ i) (σ (j' - 1)) → v ≤ v'
  returns : ∀ {device c} {σ : ℕ → ℕ}, Shows device base c → Monotone σ →
    ∀ {i}, (∀ t, Increases c (σ i) t) → ∃ v j, call (fun i => device (σ i)) i = some (v, j)

theorem readClock_calls (base : Word) :
    Untorn (fun read i => readClock read base maxRounds i) base where
  returned := by
    intro device c σ hs hσ i j v t₀ t₁ h h₀ h₁ hc
    obtain ⟨hij, hv⟩ := readClock_untorn hs hσ h (hc.mono h₀ h₁)
    have hstart : t₀ ≤ σ (j - 2) := h₀.trans (hσ (by omega))
    have hend : σ (j - 2) ≤ t₁ := (hσ (by omega)).trans h₁
    refine ⟨hij, hv, ?_, ?_⟩
    · rw [hv]
      exact hc _ _ (Nat.le_refl _) hstart hend
    · rw [hv]
      exact hc _ _ hstart hend (Nat.le_refl _)
  successive := by
    intro device c σ hs hσ i j v i' j' v' h hj h' hc
    have hij := (readClock_some h).choose_spec
    have hij' := (readClock_some h').choose_spec
    have hend : σ (j - 1) ≤ σ (j' - 1) := hσ (by omega)
    have hstart : σ i ≤ σ i' := hσ (by omega)
    have hv := (readClock_untorn hs hσ h (hc.mono (Nat.le_refl _) hend)).2
    have hv' := (readClock_untorn hs hσ h' (hc.mono hstart (Nat.le_refl _))).2
    rw [hv, hv']
    exact hc _ _ (hσ (by omega)) (hσ (by omega)) (hσ (by omega))
  returns := by
    intro device c σ hs hσ i hc
    exact readClock_returns hs hσ maxRounds i hc (Nat.le_add_left _ _)

/-- What a read of the timer finds in a clock. -/
def timerReads (r : Run State.step) (t : ℕ) (a : Word) : Word :=
  (r.state t).dataOut { r.input t with addr := a }

theorem timerReads_mtime (r : Run State.step) :
    Shows (timerReads r) mtimeBase fun t => (r.state t).mtime := by
  have hlo : mtimeBase.extractLsb' 2 3 = mtimeLo := by decide
  have hhi : (mtimeBase + 4#32).extractLsb' 2 3 = mtimeHi := by decide
  constructor
  · intro t
    rw [timerReads, State.dataOut, Inputs.reg, hlo, if_pos rfl]
  · intro t
    rw [timerReads, State.dataOut, Inputs.reg, hhi, if_neg (by decide), if_pos rfl]

theorem timerReads_mtimeAlwEn (r : Run State.step) :
    Shows (timerReads r) mtimeAeBase fun t => (r.state t).mtimeAlwEn := by
  have hlo : mtimeAeBase.extractLsb' 2 3 = mtimeAeLo := by decide
  have hhi : (mtimeAeBase + 4#32).extractLsb' 2 3 = mtimeAeHi := by decide
  constructor
  · intro t
    rw [timerReads, State.dataOut, Inputs.reg, hlo]
    rfl
  · intro t
    rw [timerReads, State.dataOut, Inputs.reg, hhi]
    rfl

/-- Neither function returns a torn value, of any counter it may read; the timer
is a device with the two counters at the two places. -/
theorem mtime_untorn :
    Untorn mtime mtimeBase ∧ Untorn mtimeAlwEn mtimeAeBase ∧
      ∀ r : Run State.step,
        Shows (timerReads r) mtimeBase (fun t => (r.state t).mtime) ∧
        Shows (timerReads r) mtimeAeBase fun t => (r.state t).mtimeAlwEn :=
  ⟨readClock_calls mtimeBase, readClock_calls mtimeAeBase,
    fun r => ⟨timerReads_mtime r, timerReads_mtimeAlwEn r⟩⟩

/-- The lower half rolls over between the first two reads. -/
def rolling : Run State.step :=
  Run.closed State.step (fun _ _ => ⟨false, 0#32, 0#32, false, false⟩)
    ⟨0xFFFFFFFF#64, 0#64, 1#64, 1#64, 0#64, false, false⟩

example : mtime (timerReads rolling) 0 = some (0x100000003#64, 6) := by decide +kernel

end TagSoc.Os
