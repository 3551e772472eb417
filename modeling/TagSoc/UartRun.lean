import TagSoc.Clocked
import TagSoc.Peripherals
import TagSoc.SerialLine

/-!
# Transmission

The bus side of `wb_uart.v` starts the shift side by `tx_started` and is told by a
one-clock pulse, when the stop bit begins, that it may acknowledge. The request
is still there in the clock of the acknowledge, so `tx_started` comes up once
more for one clock. That does no harm while the stop bit lasts, which it does for
a divider of at least two (`line_carries_stores`); the divider after a reset is
one, and there every byte is sent twice (`reset_divider_repeats`).
-/
namespace TagSoc.WbUart
open Clocked SerialLine

/-! ## The handshake -/

/-- A store of `x` to the transmit register. -/
def Inputs.Stores (i : Inputs) (x : BitVec 32) : Prop :=
  i.cyc = true ∧ i.stb = true ∧ i.we = true ∧ i.regSel = uartAddrDataToTransmit ∧ i.data = x

instance (i : Inputs) (x : BitVec 32) : Decidable (i.Stores x) :=
  inferInstanceAs (Decidable (_ ∧ _))

/-- From clock `t` on the bus makes the stores `xs`: after a gap of any length
each is held until it is acknowledged and dropped in the next clock. Nothing is
said about the other lines in a gap. -/
def Driven (r : Run State.step) : ℕ → List (BitVec 32) → Prop
  | t, [] => ∀ n, t ≤ n → (r.input n).cyc = false
  | t, x :: xs => ∃ n, t ≤ n ∧ (∀ k, t ≤ k → k < n → (r.input k).cyc = false) ∧
      ∀ m, n ≤ m → (∀ k, n ≤ k → k < m → (r.state k).ackOut (r.input k) = false) →
        (r.input m).Stores x ∧ ((r.state m).ackOut (r.input m) = true →
          (r.input (m + 1)).cyc = false ∧ Driven r (m + 2) xs)

/-- The request that is outstanding at clock `t`, with the stores after it. -/
def Requesting (r : Run State.step) (t : ℕ) (x : BitVec 32) (xs : List (BitVec 32)) : Prop :=
  ∀ m, t ≤ m → (∀ k, t ≤ k → k < m → (r.state k).ackOut (r.input k) = false) →
    (r.input m).Stores x ∧ ((r.state m).ackOut (r.input m) = true →
      (r.input (m + 1)).cyc = false ∧ Driven r (m + 2) xs)

section
variable {r : Run State.step} {t : ℕ} {x : BitVec 32} {xs : List (BitVec 32)}

theorem Requesting.now (h : Requesting r t x xs) : (r.input t).Stores x :=
  (h t le_rfl fun _ h₁ h₂ => absurd h₁ (Nat.not_le.mpr h₂)).1

theorem Requesting.done (h : Requesting r t x xs)
    (ha : (r.state t).ackOut (r.input t) = true) :
    (r.input (t + 1)).cyc = false ∧ Driven r (t + 2) xs :=
  (h t le_rfl fun _ h₁ h₂ => absurd h₁ (Nat.not_le.mpr h₂)).2 ha

theorem Requesting.next (h : Requesting r t x xs) (ha : (r.state t).ack = false) :
    Requesting r (t + 1) x xs := by
  intro m hm hno
  refine h m (Nat.le_of_succ_le hm) fun k h₁ h₂ => ?_
  rcases Nat.eq_or_lt_of_le h₁ with rfl | h₁
  · simp [State.ackOut, ha]
  · exact hno k h₁ h₂

end

/-- The samples of the line in the `n` clocks from `t` on. -/
def line (r : Run State.step) (t n : ℕ) : List Bool :=
  (List.range n).map fun k => (r.state (t + k)).tx

theorem line_add (r : Run State.step) (t n m : ℕ) :
    line r t (n + m) = line r t n ++ line r (t + n) m := by
  simp [line, List.range_add, Nat.add_assoc]

theorem line_succ (r : Run State.step) (t n : ℕ) :
    line r t (n + 1) = line r t n ++ [(r.state (t + n)).tx] := by
  rw [line_add]
  simp [line]

/-! ## The shift side -/

/-- The frame after `k` shifts. -/
def sent (b : BitVec 8) : ℕ → BitVec 10
  | 0 => 1#1 ++ b ++ 0#1
  | k + 1 => 1#1 ++ (sent b k).extractLsb' 1 9

theorem getLsbD_sent (b : BitVec 8) (k n : ℕ) (hn : n < 10) :
    (sent b k).getLsbD n = level b (n + k) := by
  induction k generalizing n with
  | zero =>
      rw [sent, BitVec.getLsbD_append, BitVec.getLsbD_append, level]
      rcases n with _ | n
      · simp
      · have hle : n + 1 ≤ 8 ↔ n < 8 := by omega
        simp only [Nat.add_zero, Nat.add_sub_cancel, Nat.add_eq_zero_iff, hle]
        by_cases h : n < 8
        · simp [h]
        · obtain rfl : n = 8 := by omega
          simp
  | succ k ih =>
      rw [sent, BitVec.getLsbD_append]
      by_cases h : n < 9
      · rw [if_pos h, BitVec.getLsbD_extractLsb', decide_eq_true h, Bool.true_and,
          ih _ (by omega)]
        congr 1
        omega
      · obtain rfl : n = 9 := by omega
        simp [level, show ¬ 9 + (k + 1) ≤ 8 by omega]

/-- With the stop bit in the lowest place the pattern is that of an idle line. -/
theorem sent_nine (b : BitVec 8) : sent b 9 = ~~~0#10 := by
  refine BitVec.eq_of_getLsbD_eq fun n hn => ?_
  rw [getLsbD_sent b 9 n hn, show ~~~0#10 = BitVec.allOnes 10 from rfl, BitVec.getLsbD_allOnes]
  simp [level, hn, show ¬ n + 9 ≤ 8 by omega]

/-- Bit `k` of the frame of `b` is on the line for `e` clocks; the bus side holds
the request. -/
structure Sending (d : ℕ) (b : BitVec 8) (k e : ℕ) (s : State) : Prop where
  divider : s.cfgDivider.toNat = d
  pattern : s.sendPattern = sent b k
  bitcnt : s.sendBitcnt.toNat + k = 10
  divcnt : s.sendDivcnt.toNat = e
  inProg : s.inProg = true
  finished : s.finished = false
  txStarted : s.txStarted = true
  ack : s.ack = false

/-- After the pulse: `q` clocks of the stop bit are left, or the line is idle. -/
structure Tail (d q : ℕ) (s : State) : Prop where
  divider : s.cfgDivider.toNat = d
  pattern : s.sendPattern = ~~~0#10
  bitcnt : s.sendBitcnt = if q = 0 then 0#4 else 1#4
  divcnt : 0 < q → s.sendDivcnt.toNat + q = d + 2
  inProg : s.inProg = false

/-- Nothing is requested. -/
structure Resting (d q : ℕ) (s : State) : Prop extends Tail d q s where
  finished : s.finished = false
  txStarted : s.txStarted = false
  ack : s.ack = false

/-- A request waits for the stop bit of the one before it. -/
structure Waiting (d q : ℕ) (s : State) : Prop extends Tail d q s where
  finished : s.finished = false
  txStarted : s.txStarted = true
  ack : s.ack = false

theorem Tail.tx {d q : ℕ} {s : State} (h : Tail d q s) : s.tx = true := by
  rw [State.tx, h.pattern]
  rfl

theorem Sending.tx {d k e : ℕ} {b : BitVec 8} {s : State} (h : Sending d b k e s) :
    s.tx = level b k := by
  rw [State.tx, h.pattern, getLsbD_sent b k 0 (by decide), Nat.zero_add]

/-! ## One clock -/

section step
variable {d q k e : ℕ} {b : BitVec 8} {s : State} {i : Inputs} {x : BitVec 32}

theorem busSide_stores (h : i.Stores x) : s.busSide i =
    { s with txStarted := !s.finished, ack := if s.finished then true else s.ack } := by
  obtain ⟨hc, hs, hw, hsel, -⟩ := h
  simp [State.busSide, hc, hs, hw, hsel, uartAddrDataToTransmit, uartAddrDivider, uartAddrSanity]

theorem busSide_idle (h : i.cyc = false) : s.busSide i =
    { s with ack := false, dataOut := 0#32, txStarted := false } := by
  simp [State.busSide, h]

/-- The shift side when it has nothing to load and has given its pulse. -/
theorem Tail.step (h : Tail d q s) (hd : d + 1 < 2 ^ 32) (hr : i.rst = false)
    (hload : s.txStarted = true → 0 < q)
    (hcfg : (s.busSide i).cfgDivider = s.cfgDivider) :
    Tail d (q - 1) (s.step i) ∧ (s.step i).finished = false := by
  have hdiv := h.divider
  rcases Nat.eq_zero_or_pos q with rfl | hq
  · have hbit : s.sendBitcnt = 0#4 := h.bitcnt
    have hfree : s.txStarted = false := Bool.eq_false_iff.mpr fun hs => (hload hs).false
    refine ⟨?_, ?_⟩
    · constructor <;> simp [State.step, hr, hcfg, hdiv, hbit, hfree, h.pattern, h.inProg]
    · simp [State.step, hr, h.inProg]
  have hbit : s.sendBitcnt = 1#4 := by rw [h.bitcnt, if_neg hq.ne']
  have hcnt := h.divcnt hq
  by_cases hlast : q = 1
  · -- the counter has passed the divider: the last shift
    subst hlast
    have hshift : s.cfgDivider < s.sendDivcnt := by
      rw [BitVec.lt_def, hdiv]
      omega
    refine ⟨?_, ?_⟩
    · constructor <;> simp [State.step, hr, hcfg, hdiv, hbit, h.pattern, h.inProg, hshift]
    · simp [State.step, hr, h.inProg]
  · have hshift : ¬ s.cfgDivider < s.sendDivcnt := by
      rw [BitVec.lt_def, hdiv]
      omega
    have hinc : (s.sendDivcnt + 1#32).toNat = s.sendDivcnt.toNat + 1 := by
      rw [BitVec.toNat_add, BitVec.toNat_ofNat]
      omega
    refine ⟨?_, ?_⟩
    · constructor <;> simp [State.step, hr, hcfg, hdiv, hbit, h.pattern, h.inProg, hshift, hinc] <;>
        omega
    · simp [State.step, hr, h.inProg]

theorem Resting.step_idle (h : Resting d q s) (hd : d + 1 < 2 ^ 32) (hr : i.rst = false)
    (hi : i.cyc = false) : Resting d (q - 1) (s.step i) := by
  have hbus := busSide_idle (s := s) hi
  obtain ⟨htail, hfin⟩ := h.toTail.step hd hr (fun hs => absurd hs (by simp [h.txStarted]))
    (by rw [hbus])
  exact ⟨htail, hfin, by simp [State.step, hr, hbus], by simp [State.step, hr, hbus]⟩

/-- A request that cannot be served yet. -/
theorem Tail.step_stores (h : Tail d q s) (hload : s.txStarted = true → 0 < q)
    (hfin : s.finished = false) (hack : s.ack = false) (hd : d + 1 < 2 ^ 32) (hr : i.rst = false)
    (hi : i.Stores x) : Waiting d (q - 1) (s.step i) := by
  have hbus := busSide_stores (s := s) hi
  obtain ⟨htail, hfin'⟩ := h.step hd hr hload (by rw [hbus])
  exact ⟨htail, hfin', by simp [State.step, hr, hbus, hfin],
    by simp [State.step, hr, hbus, hfin, hack]⟩

theorem Resting.step_stores (h : Resting d q s) (hd : d + 1 < 2 ^ 32) (hr : i.rst = false)
    (hi : i.Stores x) : Waiting d (q - 1) (s.step i) :=
  h.toTail.step_stores (fun hs => absurd hs (by simp [h.txStarted])) h.finished h.ack hd hr hi

theorem Waiting.step_stores (h : Waiting d q s) (hq : 0 < q) (hd : d + 1 < 2 ^ 32)
    (hr : i.rst = false) (hi : i.Stores x) : Waiting d (q - 1) (s.step i) :=
  h.toTail.step_stores (fun _ => hq) h.finished h.ack hd hr hi

/-- The byte is taken from the lines when the shift side is free. -/
theorem Waiting.step_load (h : Waiting d 0 s) (hr : i.rst = false) (hi : i.Stores x) :
    Sending d (x.extractLsb' 0 8) 0 0 (s.step i) := by
  have hbus := busSide_stores (s := s) hi
  have hbit : s.sendBitcnt = 0#4 := h.bitcnt
  constructor <;> simp [State.step, hr, hbus, h.divider, hbit, h.txStarted, h.finished, h.ack,
    h.inProg, hi.2.2.2.2, sent]

theorem Sending.bitcnt_ne (h : Sending d b k e s) (hk : k ≤ 8) :
    s.sendBitcnt ≠ 0#4 ∧ s.sendBitcnt ≠ 1#4 := by
  have hbit := h.bitcnt
  constructor <;> rintro heq <;> rw [heq, BitVec.toNat_ofNat] at hbit <;> omega

theorem Sending.step_count (h : Sending d b k e s) (hk : k ≤ 8) (he : e ≤ d)
    (hd : d + 1 < 2 ^ 32) (hr : i.rst = false) (hi : i.Stores x) :
    Sending d b k (e + 1) (s.step i) := by
  have hbus := busSide_stores (s := s) hi
  have hbit := h.bitcnt
  have hdiv := h.divider
  have hcnt := h.divcnt
  obtain ⟨hzero, hone⟩ := h.bitcnt_ne hk
  have hshift : ¬ s.cfgDivider < s.sendDivcnt := by
    rw [BitVec.lt_def]
    omega
  have hinc : (s.sendDivcnt + 1#32).toNat = e + 1 := by
    rw [BitVec.toNat_add, BitVec.toNat_ofNat]
    omega
  constructor <;> simp [State.step, hr, hbus, hdiv, hzero, hone, hshift, hinc, h.pattern, hbit,
    h.txStarted, h.finished, h.ack, h.inProg]

theorem Sending.step_shift (h : Sending d b k (d + 1) s) (hk : k ≤ 8) (hr : i.rst = false)
    (hi : i.Stores x) : Sending d b (k + 1) 0 (s.step i) := by
  have hbus := busSide_stores (s := s) hi
  have hbit := h.bitcnt
  have hdiv := h.divider
  have hcnt := h.divcnt
  obtain ⟨hzero, hone⟩ := h.bitcnt_ne hk
  have hshift : s.cfgDivider < s.sendDivcnt := by
    rw [BitVec.lt_def]
    omega
  have hdec : (15 + s.sendBitcnt.toNat) % 16 + (k + 1) = 10 := by omega
  constructor <;> simp [State.step, hr, hbus, hdiv, hzero, hone, hshift, hdec, h.pattern,
    h.txStarted, h.finished, h.ack, h.inProg, sent]

/-- The stop bit begins: the pulse. -/
theorem Sending.step_pulse (h : Sending d b 9 0 s) (hr : i.rst = false) (hi : i.Stores x) :
    Tail d (d + 1) (s.step i) ∧ (s.step i).finished = true ∧ (s.step i).ack = false := by
  have hbus := busSide_stores (s := s) hi
  have hdiv := h.divider
  have hone : s.sendBitcnt = 1#4 := by
    apply BitVec.eq_of_toNat_eq
    have hbit := h.bitcnt
    rw [BitVec.toNat_ofNat]
    omega
  have hcnt : s.sendDivcnt = 0#32 := BitVec.eq_of_toNat_eq h.divcnt
  have hpat : s.sendPattern = ~~~0#10 := h.pattern.trans (sent_nine b)
  refine ⟨?_, ?_, ?_⟩
  · constructor <;> simp [State.step, hr, hbus, hdiv, hone, hcnt, hpat, h.inProg]
    omega
  · simp [State.step, hr, hone, h.inProg]
  · simp [State.step, hr, hbus, h.finished, h.ack]

end step

/-! ## One store -/

section run
variable {r : Run State.step} (hr : ∀ t, (r.input t).rst = false) {d q : ℕ}
  (hd : d + 1 < 2 ^ 32) {t : ℕ}
include hr hd

theorem Resting.run_idle (h : Resting d q (r.state t)) {n : ℕ}
    (hi : ∀ k, t ≤ k → k < t + n → (r.input k).cyc = false) :
    Resting d (q - n) (r.state (t + n)) := by
  induction n with
  | zero => exact h
  | succ n ih =>
      have hn := ih fun k h₁ h₂ => hi k h₁ (by omega)
      have hstep := hn.step_idle hd (hr (t + n)) (hi (t + n) (by omega) (by omega))
      rwa [← r.next, Nat.sub_sub] at hstep

theorem Resting.line_idle (h : Resting d q (r.state t)) {n : ℕ}
    (hi : ∀ k, t ≤ k → k < t + n → (r.input k).cyc = false) :
    line r t n = List.replicate n true := by
  induction n with
  | zero => rfl
  | succ n ih =>
      have hi' : ∀ k, t ≤ k → k < t + n → (r.input k).cyc = false :=
        fun k h₁ h₂ => hi k h₁ (by omega)
      rw [line_succ, ih hi', (h.run_idle hr hd hi').tx, List.replicate_succ']

variable {x : BitVec 32} {xs : List (BitVec 32)}

/-- The request waits for the rest of the stop bit; then its byte is loaded. -/
theorem Waiting.run_load (h : Waiting d q (r.state t)) (hx : Requesting r t x xs) :
    line r t (q + 1) = List.replicate (q + 1) true ∧
      Sending d (x.extractLsb' 0 8) 0 0 (r.state (t + q + 1)) ∧
      Requesting r (t + q + 1) x xs := by
  induction q generalizing t with
  | zero =>
      have hstep := h.step_load (hr t) hx.now
      rw [← r.next] at hstep
      exact ⟨by simp [line, h.tx], hstep, hx.next h.ack⟩
  | succ q ih =>
      have hstep := h.step_stores (Nat.succ_pos q) hd (hr t) hx.now
      rw [← r.next] at hstep
      obtain ⟨hline, hsend, hreq⟩ := ih hstep (hx.next h.ack)
      rw [show t + 1 + q + 1 = t + (q + 1) + 1 by omega] at hsend hreq
      refine ⟨?_, hsend, hreq⟩
      have hfirst : line r t 1 = List.replicate 1 true := by simp [line, h.tx]
      rw [Nat.add_comm (q + 1) 1, line_add, hline, hfirst, ← List.replicate_add]

theorem Sending.run_count {b : BitVec 8} {k e : ℕ} (h : Sending d b k 0 (r.state t)) (hk : k ≤ 8)
    (hx : Requesting r t x xs) (he : e ≤ d + 1) :
    line r t e = List.replicate e (level b k) ∧ Sending d b k e (r.state (t + e)) ∧
      Requesting r (t + e) x xs := by
  induction e with
  | zero => exact ⟨rfl, h, hx⟩
  | succ e ih =>
      obtain ⟨hline, hsend, hreq⟩ := ih (by omega)
      have hstep := hsend.step_count hk (by omega) hd (hr (t + e)) hreq.now
      rw [← r.next] at hstep
      refine ⟨?_, hstep, hreq.next hsend.ack⟩
      rw [line_succ, hline, hsend.tx, List.replicate_succ']

/-- The bits before the stop bit. -/
theorem Sending.run_bits {b : BitVec 8} {n : ℕ} (h : Sending d b 0 0 (r.state t))
    (hx : Requesting r t x xs) (hn : n ≤ 9) :
    line r t (n * (d + 2)) = bits (d + 2) b n ∧
      Sending d b n 0 (r.state (t + n * (d + 2))) ∧
      Requesting r (t + n * (d + 2)) x xs := by
  induction n with
  | zero => exact ⟨by simp [line, bits], by simpa using h, by simpa using hx⟩
  | succ n ih =>
      obtain ⟨hline, hsend, hreq⟩ := ih (by omega)
      obtain ⟨hbit, hlast, hreq⟩ := hsend.run_count hr hd (by omega) hreq le_rfl
      have hstep := hlast.step_shift (by omega) (hr _) hreq.now
      rw [← r.next] at hstep
      have hclock : t + n * (d + 2) + (d + 1) + 1 = t + (n + 1) * (d + 2) := by
        rw [Nat.succ_mul]
        omega
      rw [hclock] at hstep
      refine ⟨?_, hstep, hclock ▸ hreq.next hlast.ack⟩
      rw [Nat.succ_mul, line_add, hline, bits_succ, show d + 2 = d + 1 + 1 from rfl, line_succ,
        hbit, hlast.tx, ← List.replicate_succ']

/-- From the start bit to the clock in which the next store may begin; two clocks
of the stop bit, counted from the pulse, must be left for the acknowledge. -/
theorem Sending.run_frame {b : BitVec 8} (h : Sending d b 0 0 (r.state t)) (h2 : 2 ≤ d)
    (hx : Requesting r t x xs) :
    line r t (9 * (d + 2) + 4) ++ List.replicate (d - 2) true = frame (d + 2) b ∧
      Resting d (d - 2) (r.state (t + (9 * (d + 2) + 4))) ∧
      Driven r (t + (9 * (d + 2) + 4)) xs := by
  obtain ⟨hline, hsend, hreq⟩ := h.run_bits hr hd hx le_rfl
  rw [line_add, ← Nat.add_assoc]
  generalize t + 9 * (d + 2) = c at hsend hreq
  -- the pulse
  obtain ⟨htail₁, hfin₁, hack₁⟩ := hsend.step_pulse (hr c) hreq.now
  rw [← r.next] at htail₁ hfin₁ hack₁
  have hreq₁ := hreq.next hsend.ack
  -- the acknowledge is set
  have hbus₁ := busSide_stores (s := r.state (c + 1)) hreq₁.now
  obtain ⟨htail₂, hfin₂⟩ := htail₁.step hd (hr (c + 1)) (by omega) (by rw [hbus₁])
  have hack₂ : ((r.state (c + 1)).step (r.input (c + 1))).ack = true := by
    simp [State.step, hr, hbus₁, hfin₁]
  have hstart₂ : ((r.state (c + 1)).step (r.input (c + 1))).txStarted = false := by
    simp [State.step, hr, hbus₁, hfin₁]
  rw [← r.next] at htail₂ hfin₂ hack₂ hstart₂
  have hreq₂ := hreq₁.next hack₁
  -- the master sees it
  have hbus₂ := busSide_stores (s := r.state (c + 2)) hreq₂.now
  obtain ⟨htail₃, hfin₃⟩ := htail₂.step hd (hr (c + 2)) (by simp [hstart₂]) (by rw [hbus₂])
  rw [← r.next] at htail₃ hfin₃
  obtain ⟨hidle, hrest⟩ := hreq₂.done (by simp [State.ackOut, hack₂, hreq₂.now.1])
  -- and drops the request; the flag that is still up finds the stop bit
  have hbus₃ := busSide_idle (s := r.state (c + 3)) hidle
  obtain ⟨htail₄, hfin₄⟩ := htail₃.step hd (hr (c + 3)) (by omega) (by rw [hbus₃])
  refine ⟨?_, ⟨?_, ?_, ?_, ?_⟩, hrest⟩
  · have hstop : line r c 4 = List.replicate 4 true := by
      simp [line, List.range_succ, hsend.tx, htail₁.tx, htail₂.tx, htail₃.tx, level]
    rw [hline, hstop, List.append_assoc, ← List.replicate_add,
      show 4 + (d - 2) = d + 2 by omega]
    exact (bits_succ b 9).symm
  · rw [show d - 2 = d + 1 - 1 - 1 - 1 by omega, r.next (c + 3)]
    exact htail₄
  · rw [r.next (c + 3)]
    exact hfin₄
  · simp [r.next (c + 3), State.step, hr, hbus₃]
  · simp [r.next (c + 3), State.step, hr, hbus₃]

/-! ## All stores -/

/-- The line up to clock `t`, with the rest of a stop bit that is still to come,
carries `bs`; from then on the stores `xs` are made. -/
theorem Resting.run_stores (h2 : 2 ≤ d) (h : Resting d q (r.state t)) (hx : Driven r t xs)
    {bs : List (BitVec 8)} (hbs : Carries (d + 2) (line r 0 t ++ List.replicate q true) bs) :
    ∃ n, ∀ m, n ≤ m →
      Carries (d + 2) (line r 0 m) (bs ++ xs.map fun x => x.extractLsb' 0 8) := by
  induction xs generalizing t q bs with
  | nil =>
      refine ⟨t + q, fun m hm => ?_⟩
      obtain ⟨n, rfl⟩ := Nat.exists_eq_add_of_le hm
      have hidle : line r t (q + n) = List.replicate (q + n) true :=
        h.line_idle hr hd fun k hk _ => hx k hk
      rw [Nat.add_assoc, line_add, Nat.zero_add, hidle, List.replicate_add, ← List.append_assoc]
      simpa using hbs.append (Carries.high n)
  | cons x xs ih =>
      obtain ⟨n, hn, hgap, hreq⟩ := hx
      obtain ⟨n, rfl⟩ := Nat.exists_eq_add_of_le hn
      have hreq : Requesting r (t + n) x xs := hreq
      have hrest := h.run_idle hr hd hgap
      have hhigh := h.line_idle hr hd hgap
      have hwait := hrest.step_stores hd (hr (t + n)) hreq.now
      rw [← r.next] at hwait
      obtain ⟨hline, hsend, hreq⟩ := hwait.run_load hr hd (hreq.next hrest.ack)
      generalize hlen : q - n - 1 = w at hline hsend hreq
      obtain ⟨hframe, hlast, hdriven⟩ := hsend.run_frame hr hd h2 hreq
      refine (ih hlast hdriven (?_ : Carries (d + 2) _ (bs ++ [x.extractLsb' 0 8]))).imp
        fun m hm => ?_
      · -- the stop bit before, the clocks without a frame, and the frame
        have hbefore : line r 0 (t + n + 1 + w + 1) =
            line r 0 t ++ List.replicate q true ++ List.replicate (n + w + 2 - q) true := by
          rw [List.append_assoc, ← List.replicate_add,
            show q + (n + w + 2 - q) = n + 1 + (w + 1) by omega,
            show t + n + 1 + w + 1 = t + (n + 1 + (w + 1)) by omega, line_add, line_add, line_succ,
            Nat.zero_add, hhigh, hrest.tx, ← List.replicate_succ', ← Nat.add_assoc, hline,
            ← List.replicate_add]
        rw [line_add, List.append_assoc, Nat.zero_add, hframe, hbefore]
        have hhere := (hbs.append (Carries.high (n + w + 2 - q))).append
          (Carries.single (x.extractLsb' 0 8))
        rwa [List.append_nil] at hhere
      · simpa using hm

end run

/-- After a reset the divider is one. -/
theorem reset_resting (s : State) {i : Inputs} (hr : i.rst = true) : Resting 1 0 (s.step i) := by
  constructor
  case toTail => constructor <;> simp [State.step, hr]
  all_goals simp [State.step, hr]

/-- A store to the divider register while nothing is sent. -/
theorem Resting.set_divider {d : ℕ} {s : State} (h : Resting d 0 s) {i j : Inputs}
    (hr : i.rst = false) (hi : i.cyc = true ∧ i.stb = true ∧ i.we = true)
    (hsel : i.regSel = uartAddrDivider) (hr' : j.rst = false) (hj : j.cyc = false) :
    Resting i.data.toNat 0 ((s.step i).step j) := by
  obtain ⟨hc, hs, hw⟩ := hi
  have hbit : s.sendBitcnt = 0#4 := h.bitcnt
  constructor
  case toTail => constructor <;> simp [State.step, State.busSide, hr, hc, hs, hw, hsel, hr', hj,
    hbit, h.txStarted, h.inProg, h.pattern]
  all_goals simp [State.step, State.busSide, hr, hc, hs, hw, hsel, hr', hj, h.txStarted, h.inProg]

/-- With a divider from two on the line carries the stored bytes, each once and in
order, and is high otherwise. -/
theorem line_carries_stores {r : Run State.step} (hr : ∀ t, (r.input t).rst = false) {d : ℕ}
    (h2 : 2 ≤ d) (hd : d < 2 ^ 32 - 1) (h : Resting d 0 (r.state 0)) {xs : List (BitVec 32)}
    (hx : Driven r 0 xs) :
    ∃ n, ∀ m, n ≤ m → Carries (d + 2) (line r 0 m) (xs.map fun x => x.extractLsb' 0 8) := by
  have hstart : Carries (d + 2) (line r 0 0 ++ List.replicate 0 true) [] := .nil
  simpa using h.run_stores hr (by omega) h2 hx hstart

/-! ## One store, at two dividers -/

/-- The state after a reset, but for the divider. -/
def atRest (divider : BitVec 32) : State :=
  ⟨false, 0#32, divider, false, ~~~0#10, 0#4, 0#32, false, false⟩

theorem atRest_resting (divider : BitVec 32) : Resting divider.toNat 0 (atRest divider) := by
  constructor
  case toTail => constructor <;> simp [atRest]
  all_goals rfl

/-- A store of `x` up to clock `a`; the data stays on the lines. -/
def storing (divider x : BitVec 32) (a : ℕ) : Run State.step :=
  Run.closed _ (fun t _ => ⟨false, 4#32, x, decide (t ≤ a), decide (t ≤ a), decide (t ≤ a)⟩)
    (atRest divider)

theorem storing_driven {divider x : BitVec 32} {a : ℕ}
    (hno : ∀ k < a, ((storing divider x a).state k).ack = false)
    (hack : ((storing divider x a).state a).ack = true) : Driven (storing divider x a) 0 [x] := by
  refine ⟨0, le_rfl, fun k _ hk => absurd hk (Nat.not_lt_zero k), fun m _ hm => ?_⟩
  have hcyc : ∀ k, ((storing divider x a).input k).cyc = decide (k ≤ a) := fun k => rfl
  have hsel : BitVec.extractLsb' 2 2 4#32 = uartAddrDataToTransmit := by decide
  have hma : m ≤ a := by
    refine Nat.not_lt.mp fun hlt => ?_
    have hlow := hm a (Nat.zero_le a) hlt
    rw [State.ackOut, hack, hcyc, decide_eq_true le_rfl] at hlow
    exact absurd hlow (by decide)
  refine ⟨⟨decide_eq_true hma, decide_eq_true hma, decide_eq_true hma, hsel, rfl⟩, fun hm => ?_⟩
  have ham : a ≤ m := by
    refine Nat.not_lt.mp fun hlt => ?_
    rw [State.ackOut, hno m hlt] at hm
    exact Bool.false_ne_true hm
  exact ⟨decide_eq_false (by omega), fun n hn => decide_eq_false (by omega)⟩

/-- A divider of two. -/
theorem line_carries_letter : ∃ n, ∀ m, n ≤ m →
    Carries 4 (line (storing 2#32 0x41#32 40) 0 m) [0x41#8] :=
  line_carries_stores (r := storing 2#32 0x41#32 40) (d := 2) (fun _ => rfl) (by decide)
    (by decide) (atRest_resting 2#32) (storing_driven (by decide +kernel) (by decide +kernel))

/-- With the divider of a reset one store sends two frames. -/
theorem reset_divider_repeats :
    (∀ t, ((storing 1#32 0x41#32 31).input t).rst = false) ∧
      (∃ s i, i.rst = true ∧ (storing 1#32 0x41#32 31).state 0 = State.step s i) ∧
      Driven (storing 1#32 0x41#32 31) 0 [0x41#32] ∧
      ¬ ∃ n, ∀ m, n ≤ m → Carries 3 (line (storing 1#32 0x41#32 31) 0 m) [0x41#8] := by
  have hdriven : Driven (storing 1#32 0x41#32 31) 0 [0x41#32] :=
    storing_driven (by decide +kernel) (by decide +kernel)
  have hidle : ∀ k, 66 ≤ k → ((storing 1#32 0x41#32 31).input k).cyc = false :=
    fun k hk => decide_eq_false (by omega)
  have hrest : Resting 1 0 ((storing 1#32 0x41#32 31).state 66) := by
    constructor
    case toTail => constructor <;> decide +kernel
    all_goals decide +kernel
  have htwo : Carries 3 (line (storing 1#32 0x41#32 31) 0 66) [0x41#8, 0x41#8] := by
    have hline : line (storing 1#32 0x41#32 31) 0 66 = List.replicate 2 true ++ (frame 3 0x41#8 ++
        (List.replicate 1 true ++ (frame 3 0x41#8 ++ List.replicate 3 true))) := by decide +kernel
    rw [hline]
    exact (Carries.high 2).append (.frame _ ((Carries.high 1).append (.frame _ (Carries.high 3))))
  refine ⟨fun _ => rfl, ⟨atRest 1#32, ⟨true, 0#32, 0#32, false, false, false⟩, rfl, rfl⟩,
    hdriven, ?_⟩
  rintro ⟨n, hone⟩
  have hhigh := hrest.line_idle (fun _ => rfl) (by decide) (n := n) fun k hk _ => hidle k hk
  have hboth : Carries 3 (line (storing 1#32 0x41#32 31) 0 (66 + n)) [0x41#8, 0x41#8] := by
    rw [line_add, Nat.zero_add, hhigh]
    simpa using htwo.append (Carries.high n)
  exact absurd ((hone (66 + n) (by omega)).unique (by decide) hboth) (by decide)

end TagSoc.WbUart
