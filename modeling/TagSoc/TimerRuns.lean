import Mathlib.Data.List.GetD
import TagSoc.BitSlices
import TagSoc.Clocked
import TagSoc.Peripherals

/-!
# Runs of the timer

The divider of `wb_timer.v` counts from one to `tgt_clk` and then moves `mtime`;
both branches of the clocked process contain it. The comparison with `mtimecmp`
is made in every clock, also in those between the three stores with which
`__set_mtimecmp` of `os.c` changes a 64-bit word.
-/
namespace TagSoc.WbTimer
open Clocked BitSlices

/-- The clock writes the register. -/
def Inputs.writes (i : Inputs) (reg : BitVec 3) : Bool := i.cyc && i.we && i.reg == reg

/-! ## One clock -/

section clock
variable (s : State) {i : Inputs} (hrst : i.rst = false)
include hrst

theorem step_irq : (s.step i).irq = decide (s.mtimecmp ≤ s.mtime) := by
  simp [State.step, hrst]

/-- Without a write of `mtime` the divider and the counter go on as they do
without a request. -/
theorem step_tick (hlo : i.writes mtimeLo = false) (hhi : i.writes mtimeHi = false) :
    (s.step i).mtime = s.tick.mtime ∧ (s.step i).clkCnt = s.tick.clkCnt := by
  by_cases hw : (i.cyc && i.we) = true
  · have h₁ : ¬ i.reg = mtimeLo := by simpa [Inputs.writes, hw] using hlo
    have h₂ : ¬ i.reg = mtimeHi := by simpa [Inputs.writes, hw] using hhi
    simp [State.step, hrst, hw, State.write, h₁, h₂]
  · simp [State.step, hrst, hw]

theorem step_tgtClk : (s.step i).tgtClk =
    if i.writes tgtClkLo then setLo s.tgtClk i.data
    else if i.writes tgtClkHi then setHi s.tgtClk i.data else s.tgtClk := by
  have htick : s.tick.tgtClk = s.tgtClk := by
    unfold State.tick
    split_ifs <;> rfl
  by_cases hw : (i.cyc && i.we) = true
  · by_cases hm : i.reg = mtimeLo ∨ i.reg = mtimeHi
    · rcases hm with hm | hm <;>
        simp [State.step, hrst, hw, State.write, Inputs.writes, hm, mtimeLo, mtimeHi, tgtClkLo,
          tgtClkHi]
    · simp [State.step, hrst, hw, State.write, Inputs.writes, hm]
  · simp [State.step, hrst, hw, Inputs.writes, htick]

theorem step_mtimecmp : (s.step i).mtimecmp =
    if i.writes mtimecmpLo then setLo s.mtimecmp i.data
    else if i.writes mtimecmpHi then setHi s.mtimecmp i.data else s.mtimecmp := by
  have htick : s.tick.mtimecmp = s.mtimecmp := by
    unfold State.tick
    split_ifs <;> rfl
  by_cases hw : (i.cyc && i.we) = true
  · by_cases hm : i.reg = mtimeLo ∨ i.reg = mtimeHi
    · rcases hm with hm | hm <;>
        simp [State.step, hrst, hw, State.write, Inputs.writes, hm, mtimeLo, mtimeHi, mtimecmpLo,
          mtimecmpHi]
    · simp [State.step, hrst, hw, State.write, Inputs.writes, hm]
  · simp [State.step, hrst, hw, Inputs.writes, htick]

end clock

/-! ## The rate of `mtime` -/

/-- A clock that writes neither `mtime` nor `tgt_clk`. -/
def Inputs.Counts (i : Inputs) : Prop :=
  i.rst = false ∧ ∀ reg ∈ [mtimeLo, mtimeHi, tgtClkLo, tgtClkHi], i.writes reg = false

instance (i : Inputs) : Decidable i.Counts := inferInstanceAs (Decidable (_ ∧ _))

/-- The divider with period `T` after `p` clocks, the counter having started
from `m`. -/
structure Phase (T : ℕ) (m : BitVec 64) (p : ℕ) (s : State) : Prop where
  period : s.tgtClk.toNat = T
  count : s.clkCnt.toNat = p % T + 1
  time : s.mtime = m + BitVec.ofNat 64 (p / T)

theorem Phase.tick {T : ℕ} (hT : 0 < T) {m : BitVec 64} {p : ℕ} {s : State} (h : Phase T m p s) :
    Phase T m (p + 1) s.tick := by
  have hlt := s.tgtClk.isLt
  have hmod : p % T < T := Nat.mod_lt p hT
  have hp : T * (p / T) + p % T = p := Nat.div_add_mod p T
  have hperiod := h.period
  have hen : s.timerEnabled = true := by
    have hne : s.tgtClk ≠ 0#64 := fun h0 => by simp [h0] at hperiod; omega
    simpa [State.timerEnabled] using hne
  have hle : s.tgtClk ≤ s.clkCnt ↔ p % T + 1 = T := by
    rw [BitVec.le_def, h.count, hperiod]
    omega
  by_cases hlast : p % T + 1 = T
  · have hnext : (p + 1) / T = p / T + 1 ∧ (p + 1) % T = 0 := by
      refine (Nat.div_mod_unique hT).mpr ⟨?_, hT⟩
      rw [Nat.mul_add]
      omega
    rw [State.tick, if_pos hen, if_pos (hle.mpr hlast)]
    refine ⟨hperiod, by rw [hnext.2]; rfl, ?_⟩
    change s.mtime + 1#64 = _
    rw [h.time, hnext.1, BitVec.ofNat_add, BitVec.add_assoc]
  · have hnext : (p + 1) / T = p / T ∧ (p + 1) % T = p % T + 1 := by
      refine (Nat.div_mod_unique hT).mpr ⟨?_, by omega⟩
      omega
    rw [State.tick, if_pos hen, if_neg (mt hle.mp hlast)]
    refine ⟨hperiod, ?_, ?_⟩
    · change (s.clkCnt + 1#64).toNat = _
      rw [BitVec.toNat_add, h.count, hnext.2, BitVec.toNat_ofNat]
      omega
    · rw [hnext.1]
      exact h.time

theorem Phase.step {T : ℕ} (hT : 0 < T) {m : BitVec 64} {p : ℕ} {s : State} {i : Inputs}
    (h : Phase T m p s) (hi : i.Counts) : Phase T m (p + 1) (s.step i) := by
  obtain ⟨hrst, hw⟩ := hi
  have htick := h.tick hT
  have hstep := step_tick s hrst (hw _ (by simp)) (hw _ (by simp))
  refine ⟨?_, hstep.2 ▸ htick.count, hstep.1 ▸ htick.time⟩
  rw [step_tgtClk s hrst, hw tgtClkLo (by simp), hw tgtClkHi (by simp)]
  exact h.period

/-- From every state with a divider in range, and whatever is read and written
in the meantime except `mtime` and `tgt_clk`, the counter has moved after `n`
clocks by the number of periods that are complete. -/
theorem mtime_rate (r : Run State.step) (n : ℕ) (h₁ : 1 ≤ (r.state 0).clkCnt.toNat)
    (h₂ : (r.state 0).clkCnt.toNat ≤ (r.state 0).tgtClk.toNat)
    (hin : ∀ t < n, (r.input t).Counts) :
    let T := (r.state 0).tgtClk.toNat
    let c := (r.state 0).clkCnt.toNat
    (r.state n).mtime = (r.state 0).mtime + BitVec.ofNat 64 ((c - 1 + n) / T) ∧
      (r.state n).clkCnt.toNat = (c - 1 + n) % T + 1 := by
  intro T c
  have hrun : Phase T (r.state 0).mtime (c - 1 + n) (r.state n) := by
    induction n with
    | zero =>
        have hlt : c - 1 + 0 < T := by omega
        refine ⟨rfl, ?_, ?_⟩
        · rw [Nat.mod_eq_of_lt hlt]
          omega
        · rw [Nat.div_eq_of_lt hlt, BitVec.add_zero]
    | succ n ih =>
        rw [r.next]
        exact (ih fun t ht => hin t (by omega)).step (by omega) (hin n (by omega))
  exact ⟨hrun.time, hrun.count⟩

/-- A period of three clocks, and a store to `mtimecmp` in every clock. -/
def stormy : Run State.step :=
  Run.closed State.step (fun t _ => ⟨false, 0x400000C#32, BitVec.ofNat 32 t, true, true⟩)
    ⟨10#64, 100#64, 3#64, 2#64, 0#64, false, false⟩

theorem mtime_rate_stormy :
    (stormy.state 5).mtime = 12#64 ∧ (stormy.state 5).clkCnt.toNat = 1 := by
  have h := mtime_rate stormy 5 (by decide) (by decide) (by decide)
  exact ⟨h.1.trans (by decide), h.2.trans (by decide)⟩

/-! ## Changing `mtimecmp` -/

/-- A store as the bus carries it. -/
structure Store where
  addr : BitVec 32
  data : BitVec 32
deriving Repr, DecidableEq

def mtimecmpBase : BitVec 32 := 0x4000008#32

/-- `__set_mtimecmp`. -/
def setMtimecmp (time : BitVec 64) : List Store :=
  [⟨mtimecmpBase + 4#32, 0xffffffff#32⟩, ⟨mtimecmpBase, time.setWidth 32⟩,
    ⟨mtimecmpBase + 4#32, (time >>> 32).setWidth 32⟩]

/-- The clock carries the store. -/
def Inputs.Carries (i : Inputs) (q : Store) : Prop :=
  i.rst = false ∧ i.cyc = true ∧ i.we = true ∧ i.addr = q.addr ∧ i.data = q.data

/-- The clock leaves `mtimecmp` alone. -/
def Inputs.Spares (i : Inputs) : Prop :=
  i.rst = false ∧ i.writes mtimecmpLo = false ∧ i.writes mtimecmpHi = false

instance (i : Inputs) (q : Store) : Decidable (i.Carries q) :=
  inferInstanceAs (Decidable (_ ∧ _))

instance (i : Inputs) : Decidable i.Spares := inferInstanceAs (Decidable (_ ∧ _))

/-- From clock `t` on the bus carries the stores one after the other, the one
with number `j` in the clocks from `b j` up to `e j`. -/
structure Performs (r : Run State.step) (t : ℕ) (qs : List Store) (b e : ℕ → ℕ) : Prop where
  before : t ≤ b 0 ∧ ∀ k, t ≤ k → k < b 0 → (r.input k).Spares
  held : ∀ j, (hj : j < qs.length) → b j < e j ∧
    ∀ k, b j ≤ k → k < e j → (r.input k).Carries qs[j]
  gap : ∀ j, j + 1 < qs.length → e j ≤ b (j + 1) ∧
    ∀ k, e j ≤ k → k < b (j + 1) → (r.input k).Spares

/-- What a store to the timer makes of `mtimecmp`. -/
def Store.on (q : Store) (x : BitVec 64) : BitVec 64 :=
  if q.addr.extractLsb' 2 3 = mtimecmpLo then setLo x q.data
  else if q.addr.extractLsb' 2 3 = mtimecmpHi then setHi x q.data else x

section words
variable (x : BitVec 64) (d : BitVec 32)

theorem setHi_toNat : (setHi x d).toNat = d.toNat * 2 ^ 32 + x.toNat % 2 ^ 32 := by
  rw [setHi, toNat_append_add, lo, BitVec.extractLsb'_toNat, Nat.shiftRight_zero]

theorem setLo_toNat : (setLo x d).toNat = x.toNat / 2 ^ 32 * 2 ^ 32 + d.toNat := by
  have := x.isLt
  rw [setLo, toNat_append_add, hi, BitVec.extractLsb'_toNat, Nat.shiftRight_eq_div_pow]
  omega

theorem Store.on_on (q : Store) : q.on (q.on x) = q.on x := by
  have := q.data.isLt
  unfold Store.on
  split_ifs
  · apply BitVec.eq_of_toNat_eq
    rw [setLo_toNat, setLo_toNat]
    omega
  · apply BitVec.eq_of_toNat_eq
    rw [setHi_toNat, setHi_toNat]
    omega
  · rfl

end words

section stores
variable {s : State} {i : Inputs}

theorem step_spared (h : i.Spares) : (s.step i).mtimecmp = s.mtimecmp := by
  rw [step_mtimecmp s h.1, h.2.1, h.2.2]
  rfl

theorem step_carried {q : Store} (h : i.Carries q) : (s.step i).mtimecmp = q.on s.mtimecmp := by
  obtain ⟨hrst, hcyc, hwe, haddr, hdata⟩ := h
  have hw : ∀ reg, i.writes reg = (q.addr.extractLsb' 2 3 == reg) := by
    intro reg
    rw [Inputs.writes, hcyc, hwe, Inputs.reg, haddr]
    rfl
  rw [step_mtimecmp s hrst, hw, hw, hdata]
  simp only [beq_iff_eq, Store.on]

variable {r : Run State.step} {a b : ℕ}

theorem spared_run (h : ∀ k, a ≤ k → k < b → (r.input k).Spares) {k : ℕ} (hk : a ≤ k)
    (hb : k ≤ b) : (r.state k).mtimecmp = (r.state a).mtimecmp := by
  induction k, hk using Nat.le_induction with
  | base => rfl
  | succ k hk ih => rw [r.next, step_spared (h k hk (by omega)), ih (by omega)]

/-- A store that stays on the bus is made again in every clock. -/
theorem carried_run {q : Store} (h : ∀ k, a ≤ k → k < b → (r.input k).Carries q) {k : ℕ}
    (hk : a < k) (hb : k ≤ b) : (r.state k).mtimecmp = q.on (r.state a).mtimecmp := by
  induction k, hk using Nat.le_induction with
  | base => rw [r.next, step_carried (h a (by omega) (by omega))]
  | succ k hk ih =>
      rw [r.next, step_carried (h k (by omega) (by omega)), ih (by omega), Store.on_on]

end stores

/-! The three stores -/

section threeStores
variable (x time : BitVec 64)

theorem on_hi (d : BitVec 32) : Store.on ⟨mtimecmpBase + 4#32, d⟩ x = setHi x d := by
  have h₁ : (mtimecmpBase + 4#32).extractLsb' 2 3 ≠ mtimecmpLo := by decide
  have h₂ : (mtimecmpBase + 4#32).extractLsb' 2 3 = mtimecmpHi := by decide
  rw [Store.on, if_neg h₁, if_pos h₂]

theorem on_lo (d : BitVec 32) : Store.on ⟨mtimecmpBase, d⟩ x = setLo x d := by
  have h₁ : mtimecmpBase.extractLsb' 2 3 = mtimecmpLo := by decide
  rw [Store.on, if_pos h₁]

theorem top_of_first : 0xFFFFFFFF00000000#64 ≤
    Store.on ⟨mtimecmpBase + 4#32, 0xffffffff#32⟩ x := by
  rw [on_hi, BitVec.le_def, setHi_toNat]
  simp only [BitVec.toNat_ofNat]
  omega

theorem top_of_second {x : BitVec 64} (h : 0xFFFFFFFF00000000#64 ≤ x) :
    0xFFFFFFFF00000000#64 ≤ Store.on ⟨mtimecmpBase, time.setWidth 32⟩ x := by
  rw [BitVec.le_def] at h
  rw [on_lo, BitVec.le_def, setLo_toNat]
  simp only [BitVec.toNat_ofNat] at h ⊢
  omega

theorem time_of_third :
    Store.on ⟨mtimecmpBase + 4#32, (time >>> 32).setWidth 32⟩
      (Store.on ⟨mtimecmpBase, time.setWidth 32⟩ x) = time := by
  have := time.isLt
  apply BitVec.eq_of_toNat_eq
  rw [on_hi, on_lo, setHi_toNat, setLo_toNat, BitVec.toNat_setWidth, BitVec.toNat_setWidth,
    BitVec.toNat_ushiftRight, Nat.shiftRight_eq_div_pow]
  omega

end threeStores

section reprogram
variable {r : Run State.step} {time : BitVec 64} {t : ℕ} {b e : ℕ → ℕ}
  (h : Performs r t (setMtimecmp time) b e)
include h

theorem Performs.order :
    t ≤ b 0 ∧ b 0 < e 0 ∧ e 0 ≤ b 1 ∧ b 1 < e 1 ∧ e 1 ≤ b 2 ∧ b 2 < e 2 := by
  have three : (setMtimecmp time).length = 3 := rfl
  exact ⟨h.before.1, (h.held 0 (by omega)).1, (h.gap 0 (by omega)).1, (h.held 1 (by omega)).1,
    (h.gap 1 (by omega)).1, (h.held 2 (by omega)).1⟩

/-- The values `mtimecmp` has from the first store to the last. -/
theorem Performs.values {k : ℕ} (hk : t ≤ k) (he : k ≤ e 2) :
    (k ≤ b 0 ∧ (r.state k).mtimecmp = (r.state t).mtimecmp) ∨
    (b 0 < k ∧ k ≤ b 2 ∧ 0xFFFFFFFF00000000#64 ≤ (r.state k).mtimecmp) ∨
    (b 2 < k ∧ (r.state k).mtimecmp = time) := by
  have three : (setMtimecmp time).length = 3 := rfl
  obtain ⟨_, h₀, g₀, h₁, g₁, h₂⟩ := h.order
  have first := (h.held 0 (by omega)).2
  have second := (h.held 1 (by omega)).2
  have third := (h.held 2 (by omega)).2
  have gap₀ := (h.gap 0 (by omega)).2
  have gap₁ := (h.gap 1 (by omega)).2
  have top₀ : ∀ k, b 0 < k → k ≤ e 0 → 0xFFFFFFFF00000000#64 ≤ (r.state k).mtimecmp := by
    intro k hlt hle
    rw [carried_run first hlt hle]
    exact top_of_first _
  have top₁ : ∀ k, e 0 ≤ k → k ≤ b 1 → 0xFFFFFFFF00000000#64 ≤ (r.state k).mtimecmp := by
    intro k hlt hle
    rw [spared_run gap₀ hlt hle]
    exact top₀ _ h₀ (Nat.le_refl _)
  have second_on : ∀ k, b 1 < k → k ≤ e 1 →
      (r.state k).mtimecmp = Store.on ⟨mtimecmpBase, time.setWidth 32⟩ (r.state (b 1)).mtimecmp :=
    fun k hlt hle => carried_run second hlt hle
  have after₁ : ∀ k, b 1 < k → k ≤ b 2 →
      (r.state k).mtimecmp = Store.on ⟨mtimecmpBase, time.setWidth 32⟩ (r.state (b 1)).mtimecmp := by
    intro k hlt hle
    rcases Nat.le_total k (e 1) with hk | hk
    · exact second_on k hlt hk
    · rw [spared_run gap₁ hk hle]
      exact second_on _ h₁ (Nat.le_refl _)
  rcases Nat.lt_or_ge (b 0) k with hb₀ | hb₀
  · refine .inr ?_
    rcases Nat.lt_or_ge (b 2) k with hb₂ | hb₂
    · refine .inr ⟨hb₂, ?_⟩
      rw [carried_run third hb₂ he, after₁ (b 2) (by omega) (Nat.le_refl _)]
      exact time_of_third _ _
    · refine .inl ⟨hb₀, hb₂, ?_⟩
      rcases Nat.lt_or_ge (b 1) k with hb₁ | hb₁
      · rw [after₁ k hb₁ hb₂]
        exact top_of_second _ (top₁ _ g₀ (Nat.le_refl _))
      · rcases Nat.le_total k (e 0) with hk | hk
        · exact top₀ k hb₀ hk
        · exact top₁ k hk hb₁
  · exact .inl ⟨hb₀, spared_run h.before.2 hk hb₀⟩

theorem Performs.rst {k : ℕ} (hk : t ≤ k) (he : k < e 2) : (r.input k).rst = false := by
  have three : (setMtimecmp time).length = 3 := rfl
  rcases Nat.lt_or_ge k (b 0) with hlt | hge
  · exact (h.before.2 k hk hlt).1
  rcases Nat.lt_or_ge k (e 0) with hlt | hge
  · exact ((h.held 0 (by omega)).2 k hge hlt).1
  rcases Nat.lt_or_ge k (b 1) with hlt | hge
  · exact ((h.gap 0 (by omega)).2 k hge hlt).1
  rcases Nat.lt_or_ge k (e 1) with hlt | hge
  · exact ((h.held 1 (by omega)).2 k hge hlt).1
  rcases Nat.lt_or_ge k (b 2) with hlt | hge
  · exact ((h.gap 1 (by omega)).2 k hge hlt).1
  · exact ((h.held 2 (by omega)).2 k hge he).1

end reprogram

/-- Reprogramming raises no interrupt of its own, whatever the spacing of the
stores. With the counter below the top of its range and below the old value up
to the first store, the comparison holds in the sequence only after the third
store, and then because the new time has come; so it is false up to every clock
`n` up to which the new time has not come. The new value is what the stores
leave. -/
theorem setMtimecmp_silent (r : Run State.step) {time : BitVec 64} {t : ℕ} {b e : ℕ → ℕ}
    (h : Performs r t (setMtimecmp time) b e)
    (hlow : ∀ k, t ≤ k → k ≤ e 2 → (r.state k).mtime < 0xFFFFFFFF00000000#64)
    (hold : ∀ k, t ≤ k → k ≤ b 0 → (r.state k).mtime < (r.state t).mtimecmp)
    {n : ℕ} (hn : n ≤ e 2) (hnew : ∀ k, t ≤ k → k ≤ n → (r.state k).mtime < time) :
    (∀ k, t ≤ k → k ≤ n → ¬ (r.state k).mtimecmp ≤ (r.state k).mtime) ∧
    (∀ k, t < k → k ≤ n → (r.state k).irq = false) ∧
    (∀ k, t ≤ k → k ≤ e 2 → (r.state k).mtimecmp ≤ (r.state k).mtime →
      b 2 < k ∧ time ≤ (r.state k).mtime) ∧
    (r.state (e 2)).mtimecmp = time := by
  have hgenuine : ∀ k, t ≤ k → k ≤ e 2 → (r.state k).mtimecmp ≤ (r.state k).mtime →
      b 2 < k ∧ time ≤ (r.state k).mtime := by
    intro k hk hke hcmp
    have hlow := hlow k hk hke
    rcases h.values hk hke with ⟨hle, hv⟩ | ⟨_, _, hv⟩ | ⟨hlt, hv⟩
    · rw [hv] at hcmp
      exact absurd hcmp (BitVec.not_le.mpr (hold k hk hle))
    · rw [BitVec.le_def] at hv hcmp
      rw [BitVec.lt_def] at hlow
      omega
    · exact ⟨hlt, hv ▸ hcmp⟩
  have hfalse : ∀ k, t ≤ k → k ≤ n → ¬ (r.state k).mtimecmp ≤ (r.state k).mtime :=
    fun k hk hkn hcmp =>
      absurd (hgenuine k hk (by omega) hcmp).2 (BitVec.not_le.mpr (hnew k hk hkn))
  refine ⟨hfalse, ?_, hgenuine, ?_⟩
  · intro k hk hkn
    obtain ⟨k, rfl⟩ := Nat.exists_eq_add_of_lt hk
    rw [r.next, step_irq _ (h.rst (by omega) (by omega))]
    exact decide_eq_false (hfalse _ (by omega) (by omega))
  · have horder := h.order
    rcases h.values (k := e 2) (by omega) (Nat.le_refl _) with ⟨hle, _⟩ | ⟨_, hle, _⟩ | ⟨_, hv⟩
    · omega
    · omega
    · exact hv

/-- Each store for two clocks, as a request that waits for its acknowledge; the
lower half of the old value is above that of the new. -/
def reprogrammed : Run State.step :=
  Run.closed State.step
    (fun t _ =>
      if 2 ≤ t ∧ t < 4 then ⟨false, 0x400000C#32, 0xffffffff#32, true, true⟩
      else if 7 ≤ t ∧ t < 9 then ⟨false, 0x4000008#32, 0x10#32, true, true⟩
      else if 9 ≤ t ∧ t < 11 then ⟨false, 0x400000C#32, 0x1#32, true, true⟩
      else ⟨false, 0#32, 0#32, false, false⟩)
    ⟨0xFFFFFFFE#64, 0x1FFFFFFFF#64, 2#64, 1#64, 0#64, false, false⟩

theorem reprogrammed_performs : Performs reprogrammed 0 (setMtimecmp 0x100000010#64)
    (fun j => [2, 7, 9].getD j 0) (fun j => [4, 9, 11].getD j 0) := by
  have hbefore : ∀ k < 2, (reprogrammed.input k).Spares := by decide +kernel
  have hheld : ∀ j < 3, [2, 7, 9].getD j 0 < [4, 9, 11].getD j 0 ∧ [4, 9, 11].getD j 0 ≤ 11 ∧
      ∀ k < 11, [2, 7, 9].getD j 0 ≤ k → k < [4, 9, 11].getD j 0 → (reprogrammed.input k).Carries
        ((setMtimecmp 0x100000010#64).getD j ⟨0#32, 0#32⟩) := by decide +kernel
  have hgap : ∀ j < 2, [4, 9, 11].getD j 0 ≤ [2, 7, 9].getD (j + 1) 0 ∧
      [2, 7, 9].getD (j + 1) 0 ≤ 9 ∧ ∀ k < 9, [4, 9, 11].getD j 0 ≤ k →
        k < [2, 7, 9].getD (j + 1) 0 → (reprogrammed.input k).Spares := by decide +kernel
  refine ⟨⟨by decide, fun k _ hk => hbefore k hk⟩, ?_, ?_⟩
  · intro j hj
    obtain ⟨hlt, hle, hcarries⟩ := hheld j hj
    refine ⟨hlt, fun k h₁ h₂ => ?_⟩
    have hk := hcarries k (Nat.lt_of_lt_of_le h₂ hle) h₁ h₂
    rwa [List.getD_eq_getElem _ _ hj] at hk
  · intro j hj
    obtain ⟨hle, hle', hspares⟩ := hgap j (Nat.lt_of_succ_lt_succ hj)
    exact ⟨hle, fun k h₁ h₂ => hspares k (Nat.lt_of_lt_of_le h₂ hle') h₁ h₂⟩

theorem setMtimecmp_silent_carry :
    (∀ k ≤ 11, ¬ (reprogrammed.state k).mtimecmp ≤ (reprogrammed.state k).mtime) ∧
      (reprogrammed.state 11).mtimecmp = 0x100000010#64 := by
  have h := setMtimecmp_silent reprogrammed reprogrammed_performs (n := 11)
    (fun k _ hk => (by decide +kernel : ∀ k ≤ 11, (reprogrammed.state k).mtime < _) k hk)
    (fun k _ hk => (by decide +kernel : ∀ k ≤ 2, (reprogrammed.state k).mtime < _) k hk)
    (by decide)
    (fun k _ hk => (by decide +kernel : ∀ k ≤ 11, (reprogrammed.state k).mtime < _) k hk)
  exact ⟨fun k hk => h.1 k (Nat.zero_le k) hk, h.2.2.2⟩

end TagSoc.WbTimer
