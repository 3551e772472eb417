import TagSoc.Alu

/-!
# Runs of the arithmetic unit

An operation is started by one enabled clock and then held: the operands and
the operation stay on the inputs until `busy` falls. `Yields op a b r` says
that such a run ends, from any idle state of the unit, with `r` in the result
register. The one-clock operations end at once; a shift by `k` takes `k + 1`
further clocks, each of which moves the result by one bit.
-/
namespace TagSoc.Alu

/-- The unit `n` clocks after the clock that started the operation. -/
def State.after (s : State) (op : AluOp) (a b : BitVec 32) : ℕ → State
  | 0 => s.step ⟨true, false, a, b, op⟩
  | n + 1 => (s.after op a b n).step ⟨false, false, a, b, op⟩

def Yields (op : AluOp) (a b r : BitVec 32) : Prop :=
  ∀ s : State, s.busy = false → ∃ n,
    (∀ k < n, (s.after op a b k).busy = true) ∧
      (s.after op a b n).busy = false ∧ (s.after op a b n).result = r

/-! ## Flags -/

section flags
variable (i : Inputs)

theorem sub_toNat : i.sub.toNat = (2 ^ 33 - i.dataS2.toNat + i.dataS1.toNat) % 2 ^ 33 := by
  have hz (x : BitVec 32) : (0#1 ++ x : BitVec 33).toNat = x.toNat :=
    (BitVec.toNat_append 0#1 x).trans (by simp)
  rw [Inputs.sub, BitVec.toNat_sub, hz, hz]

/-- The underflow bit is the unsigned comparison. -/
theorem ltu_eq : i.ltu = i.dataS1.ult i.dataS2 := by
  have h₁ := i.dataS1.isLt
  have h₂ := i.dataS2.isLt
  rw [Inputs.ltu, BitVec.getLsbD, sub_toNat, Nat.testBit_eq_decide_div_mod_eq, BitVec.ult]
  congr 1
  apply propext
  omega

theorem lt_eq : i.lt = i.dataS1.slt i.dataS2 := by
  have hu := ltu_eq i
  rw [Inputs.ltu] at hu
  rw [Inputs.lt, hu, BitVec.slt_eq_ult, Inputs.myxor, BitVec.getLsbD_xor,
    BitVec.msb_eq_getLsbD_last, BitVec.msb_eq_getLsbD_last]
  cases i.dataS1.ult i.dataS2 <;> cases i.dataS1.getLsbD 31 <;>
    cases i.dataS2.getLsbD 31 <;> rfl

theorem eq_eq : i.eq = (i.dataS1 == i.dataS2) := by
  have h₁ := i.dataS1.isLt
  have h₂ := i.dataS2.isLt
  have hs := sub_toNat i
  rw [Inputs.eq, Bool.eq_iff_iff, beq_iff_eq, beq_iff_eq, BitVec.toNat_inj.symm,
    BitVec.toNat_inj.symm, hs]
  simp only [BitVec.toNat_ofNat]
  omega

theorem sub_low : i.sub.extractLsb' 0 32 = i.dataS1 - i.dataS2 := by
  have h₁ := i.dataS1.isLt
  have h₂ := i.dataS2.isLt
  apply BitVec.eq_of_toNat_eq
  rw [BitVec.extractLsb'_toNat, sub_toNat, BitVec.toNat_sub, Nat.shiftRight_zero]
  omega

end flags

/-! ## Loops -/

section loop
variable {op : AluOp} {a b r : BitVec 32} (n : ℕ) (Inv : ℕ → State → Prop)
  (hstart : ∀ s : State, s.busy = false → Inv 0 (s.step ⟨true, false, a, b, op⟩))
  (hstep : ∀ (k : ℕ) (s : State), k < n → Inv k s → Inv (k + 1) (s.step ⟨false, false, a, b, op⟩))
include hstart hstep

theorem after_invariant {s : State} (hs : s.busy = false) {k : ℕ} (hk : k ≤ n) :
    Inv k (s.after op a b k) := by
  induction k with
  | zero => exact hstart s hs
  | succ k ih => exact hstep k _ (by omega) (ih (by omega))

/-- An operation that runs for `n` further clocks and lowers `busy` in one more. -/
theorem yields_of_loop (hbusy : ∀ (k : ℕ) (s : State), Inv k s → s.busy = true)
    (hlast : ∀ s : State, Inv n s → (s.step ⟨false, false, a, b, op⟩).busy = false ∧
      (s.step ⟨false, false, a, b, op⟩).result = r) : Yields op a b r := by
  intro s hs
  have hloop : ∀ k ≤ n, Inv k (s.after op a b k) := fun k hk =>
    after_invariant n Inv hstart hstep hs hk
  exact ⟨n + 1, fun k hk => hbusy k _ (hloop k (by omega)), hlast _ (hloop n le_rfl)⟩

end loop

/-- The operands determine the result. -/
theorem Yields.unique {op : AluOp} {a b r r' : BitVec 32} (h : Yields op a b r)
    (h' : Yields op a b r') : r = r' := by
  let s : State := ⟨0#32, false, 0#5, 0#64, 0#32, 0#6, 0#64, 0#64, 0#6, false, false, false⟩
  obtain ⟨n, hbusy, hdone, hr⟩ := h s rfl
  obtain ⟨n', hbusy', hdone', hr'⟩ := h' s rfl
  rcases Nat.lt_trichotomy n n' with hlt | rfl | hlt
  · exact absurd (hdone.symm.trans (hbusy' n hlt)) Bool.false_ne_true
  · exact hr.symm.trans hr'
  · exact absurd (hdone'.symm.trans (hbusy n' hlt)) Bool.false_ne_true

/-! ## One-clock operations -/

/-- An addition finishes in the clock that starts it and latches the flags. -/
theorem step_add (s : State) (hb : s.busy = false) (a b : BitVec 32) :
    (s.step ⟨true, false, a, b, .add⟩).busy = false ∧
      (s.step ⟨true, false, a, b, .add⟩).result = a + b := by
  simp [State.step, State.run, hb, Inputs.sum]

theorem step_flags (s : State) (a b : BitVec 32) (op : AluOp) :
    (s.step ⟨true, false, a, b, op⟩).lt = a.slt b ∧
      (s.step ⟨true, false, a, b, op⟩).ltu = a.ult b ∧
      (s.step ⟨true, false, a, b, op⟩).eq = (a == b) := by
  simp [State.step, lt_eq, ltu_eq, eq_eq]

theorem yields_of_one_clock {op : AluOp} {a b r : BitVec 32}
    (h : ∀ s : State, s.busy = false → (s.step ⟨true, false, a, b, op⟩).busy = false ∧
      (s.step ⟨true, false, a, b, op⟩).result = r) : Yields op a b r := by
  intro s hs
  exact ⟨0, by simp, h s hs⟩

theorem yields_add (a b : BitVec 32) : Yields .add a b (a + b) :=
  yields_of_one_clock fun s hs => step_add s hs a b

theorem yields_sub (a b : BitVec 32) : Yields .sub a b (a - b) :=
  yields_of_one_clock fun s hs => by simp [State.step, State.run, hs, sub_low]

theorem yields_and (a b : BitVec 32) : Yields .and a b (a &&& b) :=
  yields_of_one_clock fun s hs => by simp [State.step, State.run, hs, Inputs.myand]

theorem yields_or (a b : BitVec 32) : Yields .or a b (a ||| b) :=
  yields_of_one_clock fun s hs => by simp [State.step, State.run, hs, Inputs.myor]

theorem yields_xor (a b : BitVec 32) : Yields .xor a b (a ^^^ b) :=
  yields_of_one_clock fun s hs => by simp [State.step, State.run, hs, Inputs.myxor]

theorem yields_slt (a b : BitVec 32) : Yields .slt a b (if a.slt b then 1#32 else 0#32) :=
  yields_of_one_clock fun s hs => by simp [State.step, State.run, hs, lt_eq]

theorem yields_sltu (a b : BitVec 32) : Yields .sltu a b (if a.ult b then 1#32 else 0#32) :=
  yields_of_one_clock fun s hs => by simp [State.step, State.run, hs, ltu_eq]

/-! ## Shifts -/

/-- The shifts share one loop. -/
def AluOp.isShift : AluOp → Bool
  | .sll | .srl | .sra => true
  | _ => false

theorem run_shift (s : State) {i : Inputs} (h : i.aluop.isShift = true) :
    s.run i = s.shift i := by
  unfold State.run
  cases hop : i.aluop <;> simp [hop, AluOp.isShift] at h ⊢

/-- The loop after `k` of `n` bits. -/
structure Shifting (op : AluOp) (a : BitVec 32) (n k : ℕ) (s : State) : Prop where
  busy : s.busy = true
  result : s.result = (shiftOne op)^[k] a
  count : s.shiftcnt.toNat = n - k

section shiftClock
variable {op : AluOp} (hop : op.isShift = true) (s : State) (a b : BitVec 32)
include hop

theorem shift_start (hs : s.busy = false) :
    (s.step ⟨true, false, a, b, op⟩).busy = true ∧
      (s.step ⟨true, false, a, b, op⟩).result = a ∧
      (s.step ⟨true, false, a, b, op⟩).shiftcnt = b.extractLsb' 0 5 := by
  simp [State.step, run_shift, hop, State.shift, hs]

theorem shift_bit (hs : s.busy = true) (hc : s.shiftcnt ≠ 0#5) :
    (s.step ⟨false, false, a, b, op⟩).busy = true ∧
      (s.step ⟨false, false, a, b, op⟩).result = shiftOne op s.result ∧
      (s.step ⟨false, false, a, b, op⟩).shiftcnt = s.shiftcnt - 1#5 := by
  simp [State.step, run_shift, hop, State.shift, hs, hc]

theorem shift_last (hs : s.busy = true) (hc : s.shiftcnt = 0#5) :
    (s.step ⟨false, false, a, b, op⟩).busy = false ∧
      (s.step ⟨false, false, a, b, op⟩).result = s.result := by
  simp [State.step, run_shift, hop, State.shift, hs, hc]

theorem yields_shift : Yields op a b ((shiftOne op)^[(b.extractLsb' 0 5).toNat] a) := by
  refine yields_of_loop (b.extractLsb' 0 5).toNat (Shifting op a (b.extractLsb' 0 5).toNat)
    (fun s hs => ?_) (fun k s hk hl => ?_) (fun k s hl => hl.busy) fun s hl => ?_
  · obtain ⟨hb, hr, hc⟩ := shift_start hop s a b hs
    exact ⟨hb, hr, congrArg BitVec.toNat hc⟩
  · have hne : s.shiftcnt ≠ 0#5 := by
      intro h0
      have hc := hl.count
      rw [h0] at hc
      simp only [BitVec.toNat_ofNat] at hc
      omega
    obtain ⟨hb, hr, hc⟩ := shift_bit hop s a b hl.busy hne
    have hlt := s.shiftcnt.isLt
    have hcount := hl.count
    refine ⟨hb, ?_, ?_⟩
    · rw [Function.iterate_succ_apply', ← hl.result]
      exact hr
    · rw [hc, BitVec.toNat_sub]
      simp only [BitVec.toNat_ofNat]
      omega
  · have h0 : s.shiftcnt = 0#5 := by
      apply BitVec.eq_of_toNat_eq
      simpa using hl.count
    obtain ⟨hb, hr⟩ := shift_last hop s a b hl.busy h0
    exact ⟨hb, hr.trans hl.result⟩

end shiftClock

theorem shiftOne_sll (r : BitVec 32) : shiftOne .sll r = r <<< 1 := by
  apply BitVec.eq_of_getLsbD_eq
  intro i hi
  simp only [shiftOne, BitVec.getLsbD_append, BitVec.getLsbD_extractLsb', BitVec.getLsbD_shiftLeft]
  rcases Nat.eq_zero_or_pos i with rfl | hp
  · simp
  · have h1 : ¬ i < 1 := by omega
    simp [h1, hi]
    omega

theorem shiftOne_srl (r : BitVec 32) : shiftOne .srl r = r >>> 1 := by
  apply BitVec.eq_of_getLsbD_eq
  intro i hi
  simp only [shiftOne, BitVec.getLsbD_append, BitVec.getLsbD_extractLsb', BitVec.getLsbD_ushiftRight]
  rcases Nat.lt_or_ge i 31 with h31 | h31
  · simp [h31]
  · have : i = 31 := by omega
    subst this
    simp

theorem shiftOne_sra (r : BitVec 32) : shiftOne .sra r = r.sshiftRight 1 := by
  apply BitVec.eq_of_getLsbD_eq
  intro i hi
  simp only [shiftOne, BitVec.getLsbD_append, BitVec.getLsbD_extractLsb',
    BitVec.getLsbD_sshiftRight]
  rcases Nat.lt_or_ge i 31 with h31 | h31
  · have : 1 + i < 32 := by omega
    have : ¬ 32 ≤ i := by omega
    simp [*]
  · have : i = 31 := by omega
    subst this
    simp [BitVec.msb_eq_getLsbD_last]

theorem yields_sll (a b : BitVec 32) : Yields .sll a b (a <<< (b.extractLsb' 0 5).toNat) := by
  have h : ∀ k, (shiftOne .sll)^[k] a = a <<< k := by
    intro k
    induction k with
    | zero => simp
    | succ k ih => rw [Function.iterate_succ_apply', ih, shiftOne_sll, BitVec.shiftLeft_add]
  simpa [h] using yields_shift (rfl : AluOp.sll.isShift = true) a b

theorem yields_srl (a b : BitVec 32) : Yields .srl a b (a >>> (b.extractLsb' 0 5).toNat) := by
  have h : ∀ k, (shiftOne .srl)^[k] a = a >>> k := by
    intro k
    induction k with
    | zero => simp
    | succ k ih => rw [Function.iterate_succ_apply', ih, shiftOne_srl, BitVec.shiftRight_add]
  simpa [h] using yields_shift (rfl : AluOp.srl.isShift = true) a b

theorem yields_sra (a b : BitVec 32) :
    Yields .sra a b (a.sshiftRight (b.extractLsb' 0 5).toNat) := by
  have h : ∀ k, (shiftOne .sra)^[k] a = a.sshiftRight k := by
    intro k
    induction k with
    | zero => simp
    | succ k ih => rw [Function.iterate_succ_apply', ih, shiftOne_sra, BitVec.sshiftRight_add]
  simpa [h] using yields_shift (rfl : AluOp.sra.isShift = true) a b

end TagSoc.Alu
