import TagSoc.SerialStore
import TagSoc.Stutter

/-!
# Single-stepping is free running

`external_singlestep_i` sends the machine to the idle state after every instruction,
where it waits for `external_do_step_i`. Two runs of one program are compared, one with
the input high and any pattern of steps, the other with the input low. A clock of the
first is an idle clock, a clock in which a store waits for the serial port, or a clock
of the second; the exits from `updatePc` come in the same order and with the same
registers, memory and CSRs (`single_step_prefix`). The exception is an illegal word that
is executed while the CSR block shows the random source (`illegal_word_jumps_apart`).
-/
namespace TagSoc.Cpu

theorem MainState.fetching_next {m m' : MainState} (hm : m = .preFetch ∨ m.fetching = true)
    (hd : m ≠ .decode) (h : m' ∈ m.successors) : m'.fetching = true := by
  have hall : ∀ a ∈ [preFetch, fetch, prepairUnalignedFetch, fetchMore],
      ∀ b ∈ a.successors, b.fetching = true := by decide
  refine hall m ?_ m' h
  revert hm hd
  cases m <;> simp [fetching]

theorem MainState.decoded_next {m m' : MainState} (hm : m.decoded = true) (hu : m ≠ .updatePc)
    (h : m' ∈ m.successors) : m'.decoded = true := by
  have hall : ∀ a ∈ [exec, postExec, load1, load2, store1, store2, branch2, system, csr1, csr2,
      trap, mret], ∀ b ∈ a.successors, b.decoded = true := by decide
  refine hall m ?_ m' h
  revert hm hu
  cases m <;> simp [decoded]

variable {x y : State}

theorem Alike.updatePc_iff (h : Alike x y) : y.state = .updatePc ↔ x.state = .updatePc := by
  cases h with
  | same => exact Iff.rfl
  | fetching => exact Iff.rfl
  | parked ρ β hs => simp [hs]

theorem Alike.finished (h : Alike x y) : y.testFinished = x.testFinished := by
  cases h <;> rfl

end TagSoc.Cpu

namespace TagSoc.Soc
open Clocked Cpu Stutter

variable {g : ℕ}

/-! ## Pairs of states -/

structure Paired (s t : State g) : Prop where
  alike : Alike s t
  parked : s.cpu.state = .cpuIdle → t.cpu.state = .preFetch
  reset : s.cpu.state = .reset → t.uart = s.uart

/-- The clock in which an instruction or a trap entry is left. -/
def Exits (r : Run (State.step (g := g))) (t : ℕ) : Prop :=
  (r.state t).cpu.state = .updatePc ∧ (r.state (t + 1)).cpu.state ≠ .updatePc

instance (r : Run (State.step (g := g))) : DecidablePred (Exits r) :=
  fun _ => inferInstanceAs (Decidable (_ ∧ _))

/-- The run `r₁` is in single steps and `r₂` runs freely from the same state; if that is
the idle state, `r₂` is released from it. -/
structure Stepping (r₁ r₂ : Run (State.step (g := g))) : Prop where
  stepped : Reached r₁
  free : Reached r₂
  high : ∀ t, (r₁.input t).extCpuSinglestep = true
  low : ∀ t, (r₂.input t).extCpuSinglestep = false
  start : r₂.state 0 = r₁.state 0
  release : (r₁.state 0).cpu.state = .cpuIdle → (r₂.input 0).extCpuDoStep = true
  timeless₁ : ∀ t, Timeless (r₁.state t)
  timeless₂ : ∀ t, Timeless (r₂.state t)

/-- The number of clocks does not get out in other ways: no address is taken from the random
source, and the timer is the cause of no interrupt. -/
structure Unclocked (r₁ r₂ : Run (State.step (g := g))) : Prop where
  jump : ∀ t, (r₁.state t).cpu.jumpsToRnd = false
  cause₁ : ∀ t, (r₁.state t).blamesTimer (r₁.input t) = false
  cause₂ : ∀ t, (r₂.state t).blamesTimer (r₂.input t) = false

/-- A clock in which a store waits for the end of a byte. -/
theorem Reached.waits {r : Run (State.step (g := g))} (h : Reached r) {t : ℕ}
    (hs : (r.state t).cpu.state = .store2) (ht : (r.state t).transmits = true)
    (hb : (r.state t).cpu.csr.busy = false) (ha : (r.state t).uart.ack = false) :
    Stands (r.state t) (r.state (t + 1)) ∧ (r.state (t + 1)).cpu =
      { (r.state t).cpu with
        csr := (r.state t).cpu.csr.reseed (Csr.lfsrNext (r.state t).cpu.csr.rnd) } := by
  have w := h.wired t
  obtain ⟨hc, -, hu, -⟩ := accessUart_of_transmits ht
  obtain ⟨htimer, hram, -⟩ := w.stores (h.master t) ht
  have hack : ((r.state t).cpuIn (r.input t)).ack = false := by
    change (r.state t).cpuAck (r.input t) = false
    simp [State.cpuAck, master_eq (h.master t), htimer, hram, hu, WbUart.State.ackOut, ha]
  have hclear : (r.state t).cpu.csr.tagsIrqClear = false := Bool.eq_false_iff.mpr fun hc =>
    absurd (hs.symm.trans (w.clear hc)) (by decide)
  refine ⟨?_, ?_⟩
  · rw [r.next]
    refine w.stands (h.plain t) ((h.calm t).ram hs ht) (Or.inr ht) hclear ?_
    rw [← r.next]
    exact (h.transmit_stays hs ht ha).2.2
  · rw [next_cpu]
    exact step_store2_wait w.flow.toCoherent (h.undisturbed t) hs (w.flow.cyc ▸ hc) hack
      (mtimecmp_of_transmits (h.master t) ht) ((h.calm t).still hs ht hb)

section pairs
variable {r₁ r₂ : Run (State.step (g := g))} (h : Stepping r₁ r₂) {m n : ℕ}
  (hp : Paired (r₁.state m) (r₂.state n))
include h hp

/-- A clock of both. -/
theorem Stepping.lock (hu : Unclocked r₁ r₂) (hidle : (r₁.state m).cpu.state ≠ .cpuIdle)
    (htx : (r₁.state m).transmits = true → (r₂.state n).uart.ack = (r₁.state m).uart.ack) :
    Alike (r₁.state (m + 1)) (r₂.state (n + 1)) ∧ (Exits r₁ m ↔ Exits r₂ n) := by
  have hnext : Alike (r₁.state (m + 1)) (r₂.state (n + 1)) := by
    rw [r₁.next, r₂.next]
    exact hp.alike.step (h.stepped.plain m) (h.free.plain n) (h.stepped.wired m) (h.free.wired n)
      (h.timeless₁ m) (h.timeless₂ n) (hu.cause₁ m) (hu.cause₂ n) hidle htx
      (h.stepped.calm m).addressed (hu.jump m) (h.high m) (h.low n)
  refine ⟨hnext, ?_⟩
  rw [Exits, Exits, Ne, Ne, hp.alike.cpu.updatePc_iff, hnext.cpu.updatePc_iff]

theorem Stepping.lock_paired (hidle : (r₁.state m).cpu.state ≠ .cpuIdle)
    (hnext : Alike (r₁.state (m + 1)) (r₂.state (n + 1)))
    (hfin : Exits r₁ m → (r₁.state m).cpu.testFinished = false) :
    Paired (r₁.state (m + 1)) (r₂.state (n + 1)) := by
  have hx := (h.stepped.wired m).flow.toCoherent
  refine ⟨hnext, fun hs => ?_, fun hs => ?_⟩
  · have hmem := hx.step_state_mem (v := cpuResetAddr) (h.stepped.undisturbed m).rst
    rw [← next_cpu, hs] at hmem
    have hold : (r₁.state m).cpu.state = .updatePc := by
      revert hmem hidle
      cases (r₁.state m).cpu.state <;> simp [MainState.successors]
    have hdone := hfin ⟨hold, by rw [hs]; decide⟩
    have hold₂ := hp.alike.cpu.updatePc_iff.mpr hold
    have hfin₂ : (r₂.state n).cpu.testFinished = false := hp.alike.cpu.finished.trans hdone
    have hne₂ : (r₂.state (n + 1)).cpu.state ≠ .updatePc := fun h' => by
      rw [hnext.cpu.updatePc_iff, hs] at h'
      exact absurd h' (by decide)
    have hlow : ((r₂.state n).cpuIn (r₂.input n)).externalSinglestep = false := h.low n
    have hy := (h.free.wired n).flow.toCoherent
    cases hb : (r₂.state n).cpu.csr.busy with
    | true =>
        rw [next_cpu, step_updatePc_busy hy (h.free.undisturbed n) hold₂ hb] at hne₂
        exact absurd hold₂ hne₂
    | false =>
        rw [next_cpu, step_updatePc hy (h.free.undisturbed n) hold₂ hb, hlow, hfin₂]
        rfl
  · rw [next_cpu] at hs
    have hold := hx.of_step_reset (h.stepped.cpuRst m) hs
    rw [r₁.next, r₂.next]
    change (r₂.state n).uart.step _ = (r₁.state m).uart.step _
    rw [hp.alike.uartIn (h.stepped.plain m) (h.free.plain n), hp.reset hold]

/-- An idle clock of the first. -/
theorem Stepping.rests (hidle : (r₁.state m).cpu.state = .cpuIdle) :
    Paired (r₁.state (m + 1)) (r₂.state n) := by
  have w := h.stepped.wired m
  have hx := w.flow.toCoherent
  have hstep := step_cpuIdle (v := cpuResetAddr) hx (h.stepped.undisturbed m) hidle
  have hbusy := w.flow.bus_free (by rw [hidle]; rfl)
  have hclear : (r₁.state m).cpu.csr.tagsIrqClear = false := Bool.eq_false_iff.mpr fun hc =>
    absurd (hidle.symm.trans (w.clear hc)) (by decide)
  have hcpu : Cpu.Alike (r₁.state (m + 1)).cpu (r₂.state n).cpu := by
    rw [next_cpu]
    exact hp.alike.cpu.step_idle hx (h.stepped.undisturbed m) hidle (hp.parked hidle)
      ((h.stepped.calm m).idle hidle)
  have hstands : Stands (r₁.state m) (r₁.state (m + 1)) := by
    rw [r₁.next]
    refine w.stands (h.stepped.plain m) (w.ramRests (h.stepped.master m) (by rw [hidle]; rfl))
      (Or.inl ⟨w.flow.cyc.trans hbusy, w.flow.stb.trans hbusy⟩) hclear ?_
    rw [step_cpu, hstep]
  refine ⟨hp.alike.stand_left hstands hcpu, fun _ => hp.parked hidle, fun hs => ?_⟩
  rw [next_cpu, hstep] at hs
  dsimp only at hs
  split_ifs at hs

/-- The first waits for the end of its byte. -/
theorem Stepping.waits_left (hs : (r₁.state m).cpu.state = .store2)
    (ht : (r₁.state m).transmits = true) (hb : (r₁.state m).cpu.csr.busy = false)
    (ha : (r₁.state m).uart.ack = false) : Paired (r₁.state (m + 1)) (r₂.state n) := by
  obtain ⟨hstands, hcpu⟩ := h.stepped.waits hs ht hb ha
  have hst : (r₁.state (m + 1)).cpu.state = .store2 := by rw [hcpu]; exact hs
  refine ⟨hp.alike.stand_left hstands ?_, ?_, ?_⟩
  · rw [hcpu]
    exact (hp.alike.cpu.wait hs _).1
  all_goals simp [hst]

/-- The second waits for the end of its byte. -/
theorem Stepping.waits_right (hs : (r₁.state m).cpu.state = .store2)
    (ht : (r₁.state m).transmits = true) (hb : (r₁.state m).cpu.csr.busy = false)
    (ha : (r₂.state n).uart.ack = false) : Paired (r₁.state m) (r₂.state (n + 1)) := by
  have hs₂ : (r₂.state n).cpu.state = .store2 :=
    (hp.alike.cpu.state_eq (by rw [hs]; decide)).trans hs
  have hb₂ : (r₂.state n).cpu.csr.busy = false :=
    hp.alike.cpu.lines.2.2.2.2.2.2.trans hb
  have ht₂ : (r₂.state n).transmits = true := hp.alike.transmits.trans ht
  obtain ⟨hstands, hcpu⟩ := h.free.waits hs₂ ht₂ hb₂ ha
  refine ⟨hp.alike.stand_right hstands ?_, ?_, ?_⟩
  · rw [hcpu]
    exact (hp.alike.cpu.wait hs _).2
  all_goals simp [hs]

/-- The second waits for its answer, and both go on. -/
theorem Stepping.answered (hs : (r₁.state m).cpu.state = .store2)
    (ht : (r₁.state m).transmits = true) (hb : (r₁.state m).cpu.csr.busy = false)
    (ha : (r₁.state m).uart.ack = true) :
    ∃ k, n ≤ k ∧ (∀ j, n ≤ j → j < k → ¬ Exits r₂ j) ∧
      Paired (r₁.state m) (r₂.state k) ∧ (r₂.state k).uart.ack = true := by
  have hne : (r₁.state m).cpu.state ≠ .cpuIdle := by rw [hs]; decide
  have hdiv : (r₂.state n).uart.cfgDivider ≠ WbUart.maxDivider := by
    rw [hp.alike.divider]
    intro hd
    rcases (h.stepped.calm m).divider hd with h₁ | ⟨-, h₁⟩ | ⟨-, -, h₁⟩
    · exact absurd (hs.symm.trans h₁) (by decide)
    · exact absurd (h₁.symm.trans ht) Bool.false_ne_true
    · exact absurd ((h₁ ht).symm.trans ha) Bool.false_ne_true
  obtain ⟨k, hk, hack, hno⟩ := h.free.transmit_answered ((hp.alike.cpu.state_eq hne).trans hs)
    (hp.alike.transmits.trans ht) hdiv
  have hpaired : ∀ j, n ≤ j → j ≤ k → Paired (r₁.state m) (r₂.state j) := by
    intro j hj
    induction j, hj using Nat.le_induction with
    | base => exact fun _ => hp
    | succ j hj ih => exact fun hlt => h.waits_right (ih (by omega)) hs ht hb (hno j hj hlt)
  refine ⟨k, hk, fun j hj hlt hex => ?_, hpaired k hk le_rfl, hack⟩
  have hst := (hpaired j hj hlt.le).alike.cpu.state_eq hne
  exact absurd (hex.1.symm.trans (hst.trans hs)) (by decide)

/-- Every clock of the first is matched. -/
theorem Stepping.follows (hu : Unclocked r₁ r₂)
    (hfin : Exits r₁ m → (r₁.state m).cpu.testFinished = false) :
    Follows (Exits r₁) (Exits r₂) (fun m n => Paired (r₁.state m) (r₂.state n)) m n := by
  have hlock : ∀ k, Paired (r₁.state m) (r₂.state k) → (r₁.state m).cpu.state ≠ .cpuIdle →
      ((r₁.state m).transmits = true → (r₂.state k).uart.ack = (r₁.state m).uart.ack) →
      (Exits r₁ m ↔ Exits r₂ k) ∧ Paired (r₁.state (m + 1)) (r₂.state (k + 1)) := by
    intro k hk hidle htx
    obtain ⟨hnext, hex⟩ := h.lock hk hu hidle htx
    exact ⟨hex, h.lock_paired hk hidle hnext hfin⟩
  have hnow : ((r₁.state m).cpu.state ≠ .cpuIdle) →
      ((r₁.state m).transmits = true → (r₂.state n).uart.ack = (r₁.state m).uart.ack) →
      Follows (Exits r₁) (Exits r₂) (fun m n => Paired (r₁.state m) (r₂.state n)) m n := by
    intro hidle htx
    obtain ⟨hex, hnext⟩ := hlock n hp hidle htx
    exact Or.inr ⟨n, le_rfl, fun j hj hlt => absurd hj (by omega), hex, hnext⟩
  by_cases hidle : (r₁.state m).cpu.state = .cpuIdle
  · exact Or.inl ⟨fun hex => absurd (hidle.symm.trans hex.1) (by decide), h.rests hp hidle⟩
  by_cases ht : (r₁.state m).transmits = true
  · rcases (h.stepped.wired m).we (accessUart_of_transmits ht).2.1 with hs | hs
    · cases hb : (r₁.state m).cpu.csr.busy with
      | true =>
          -- the first clock of the store
          have hs₂ := (hp.alike.cpu.state_eq hidle).trans hs
          have hb₂ := hp.alike.cpu.lines.2.2.2.2.2.2.trans hb
          refine hnow hidle fun _ => ?_
          rw [(h.stepped.calm m).first hs ht hb,
            (h.free.calm n).first hs₂ (hp.alike.transmits.trans ht) hb₂]
      | false =>
          cases ha : (r₁.state m).uart.ack with
          | false =>
              refine Or.inl ⟨fun hex => ?_, h.waits_left hp hs ht hb ha⟩
              exact absurd (hs.symm.trans hex.1) (by decide)
          | true =>
              obtain ⟨k, hk, hno, hpk, hack⟩ := h.answered hp hs ht hb ha
              obtain ⟨hex, hnext⟩ := hlock k hpk hidle fun _ => hack.trans ha.symm
              exact Or.inr ⟨k, hk, hno, hex, hnext⟩
    · exact hnow hidle fun _ => by rw [hp.reset hs]
  · exact hnow hidle fun h' => absurd h' ht

end pairs

/-! ## Whole runs -/

section runs
variable {r₁ r₂ : Run (State.step (g := g))} (h : Stepping r₁ r₂)
include h

/-- Where the two begin; the second has left the idle state. -/
theorem Stepping.paired_start :
    ∃ n, Paired (r₁.state 0) (r₂.state n) ∧ Nat.count (Exits r₂) n = 0 := by
  by_cases hidle : (r₁.state 0).cpu.state = .cpuIdle
  · have w := h.free.wired 0
    have hx := w.flow.toCoherent
    have hs₂ : (r₂.state 0).cpu.state = .cpuIdle := by rw [h.start, hidle]
    have hdo : ((r₂.state 0).cpuIn (r₂.input 0)).externalDoStep = true := h.release hidle
    have hstep := step_cpuIdle (v := cpuResetAddr) hx (h.free.undisturbed 0) hs₂
    rw [hdo, (h.free.calm 0).idle hs₂] at hstep
    have hbusy := w.flow.bus_free (by rw [hs₂]; rfl)
    have hclear : (r₂.state 0).cpu.csr.tagsIrqClear = false := Bool.eq_false_iff.mpr fun hc =>
      absurd (hs₂.symm.trans (w.clear hc)) (by decide)
    have hstands : Stands (r₂.state 0) (r₂.state 1) := by
      rw [r₂.next]
      refine w.stands (h.free.plain 0) (w.ramRests (h.free.master 0) (by rw [hs₂]; rfl))
        (Or.inl ⟨w.flow.cyc.trans hbusy, w.flow.stb.trans hbusy⟩) hclear ?_
      rw [step_cpu, hstep]
    have hcpu : (r₂.state 1).cpu = { (r₁.state 0).cpu.vary
          (Csr.lfsrNext (r₁.state 0).cpu.csr.rnd) (r₁.state 0).cpu.bus.buffer with
        state := .preFetch } := by
      rw [next_cpu, hstep, h.start]
      rfl
    have hrefl : Alike (r₁.state 0) (r₂.state 0) := by
      rw [h.start]
      exact .refl _
    refine ⟨1, ⟨hrefl.stand_right hstands ?_, ?_, ?_⟩, ?_⟩
    · rw [hcpu]
      exact .parked _ _ hidle
    · rw [hcpu]
      exact fun _ => rfl
    · simp [hidle]
    · rw [Nat.count_succ, if_neg fun hex => absurd (hs₂.symm.trans hex.1) (by decide)]
      rfl
  · refine ⟨0, ⟨?_, fun hs => absurd hs hidle, fun _ => by rw [h.start]⟩, rfl⟩
    rw [h.start]
    exact .refl _

/-- The exits come in the same order and leave the same behind. -/
theorem Stepping.exit_matched (hu : Unclocked r₁ r₂) {t : ℕ} (hex : Exits r₁ t) (hfin : ∀ k < t, Exits r₁ k → (r₁.state k).cpu.testFinished = false) :
    ∃ n, Exits r₂ n ∧ Nat.count (Exits r₂) n = Nat.count (Exits r₁) t ∧
      Alike (r₁.state (t + 1)) (r₂.state (n + 1)) := by
  obtain ⟨n₀, hp₀, hn₀⟩ := h.paired_start
  obtain ⟨n, hp, hcount⟩ := matched hp₀ hn₀
    (fun m hm n hp => h.follows hp hu (hfin m hm)) (le_refl t)
  have hidle : (r₁.state t).cpu.state ≠ .cpuIdle := by rw [hex.1]; decide
  obtain ⟨hnext, hiff⟩ := h.lock hp hu hidle fun ht => by
    rcases (h.stepped.wired t).we (accessUart_of_transmits ht).2.1 with hs | hs <;>
      exact absurd (hex.1.symm.trans hs) (by decide)
  exact ⟨n, hiff.mp hex, hcount.symm, hnext⟩

end runs

/-! ## One step at a time -/

/-- A pulse that releases the machine. -/
def Accepts (r : Run (State.step (g := g))) (t : ℕ) : Prop :=
  (r.state t).cpu.state = .cpuIdle ∧ (r.input t).extCpuDoStep = true

/-- The one clock in which an instruction is decoded, or an interrupt taken in its place. -/
def InDecode (r : Run (State.step (g := g))) (t : ℕ) : Prop := (r.state t).cpu.state = .decode

instance (r : Run (State.step (g := g))) : DecidablePred (InDecode r) :=
  fun _ => inferInstanceAs (Decidable (_ = _))

/-- How far the step is that was accepted at clock `t`. -/
def Progress (r : Run (State.step (g := g))) (t k : ℕ) : Prop :=
  let m := (r.state k).cpu.state
  let exits := Nat.count (Exits r) k
  let decodes := Nat.count (InDecode r) k
  (m = .preFetch ∨ m.fetching = true) ∧ exits = Nat.count (Exits r) t ∧
      decodes = Nat.count (InDecode r) t ∨
    m.decoded = true ∧ exits = Nat.count (Exits r) t ∧ decodes = Nat.count (InDecode r) t + 1 ∨
    m = .cpuIdle ∧ exits = Nat.count (Exits r) t + 1 ∧ decodes = Nat.count (InDecode r) t + 1

section progress
variable {r : Run (State.step (g := g))} (h : Reached r)
  (hsingle : ∀ t, (r.input t).extCpuSinglestep = true) {t k : ℕ}
include h

theorem Accepts.progress (ha : Accepts r t) : Progress r t (t + 1) := by
  have hx := (h.wired t).flow.toCoherent
  have hdo : ((r.state t).cpuIn (r.input t)).externalDoStep = true := ha.2
  have hst : (r.state (t + 1)).cpu.state = .preFetch := by
    rw [next_cpu, step_cpuIdle hx (h.undisturbed t) ha.1, hdo]
    rfl
  have hno : ¬ Exits r t ∧ ¬ InDecode r t := by
    simp [Exits, InDecode, ha.1]
  refine Or.inl ⟨Or.inl hst, ?_, ?_⟩
  · rw [Nat.count_succ, if_neg hno.1]
    rfl
  · rw [Nat.count_succ, if_neg hno.2]
    rfl

include hsingle

theorem Progress.step (hp : Progress r t k) (hidle : (r.state k).cpu.state ≠ .cpuIdle) :
    Progress r t (k + 1) := by
  have hx := (h.wired k).flow.toCoherent
  have u := h.undisturbed k
  have hmem := hx.step_state_mem (v := cpuResetAddr) u.rst
  rw [← next_cpu] at hmem
  unfold Progress
  simp only [Nat.count_succ]
  rcases hp with ⟨hm, he, hd⟩ | ⟨hm, he, hd⟩ | ⟨hm, -, -⟩
  · have hex : ¬ Exits r k := fun hex => by
      rcases hm with hm | hm <;> simp [hex.1, MainState.fetching] at hm
    rw [if_neg hex]
    by_cases hdec : InDecode r k
    · rw [if_pos hdec]
      refine Or.inr (Or.inl ⟨?_, he, by rw [hd]⟩)
      have hs : (r.state k).cpu.state = .decode := hdec
      rw [next_cpu]
      cases htk : (r.state k).cpu.takesInterrupt ((r.state k).cpuIn (r.input k)) with
      | false => rw [step_decode hx u hs htk]; rfl
      | true => rw [step_decode_interrupt hx u hs htk]; rfl
    · rw [if_neg hdec]
      refine Or.inl ⟨?_, he, hd⟩
      rcases hmem with hmem | hmem
      · rwa [hmem]
      · exact Or.inr (MainState.fetching_next hm hdec hmem)
  · have hdec : ¬ InDecode r k := fun hdec => by
      rw [InDecode] at hdec
      simp [hdec, MainState.decoded] at hm
    rw [if_neg hdec]
    by_cases hs : (r.state k).cpu.state = .updatePc
    · cases hb : (r.state k).cpu.csr.busy with
      | true =>
          have hst : (r.state (k + 1)).cpu.state = .updatePc := by
            rw [next_cpu, step_updatePc_busy hx u hs hb, hs]
          rw [if_neg fun hex => hex.2 hst]
          exact Or.inr (Or.inl ⟨by rw [hst]; rfl, he, hd⟩)
      | false =>
          have hone : ((r.state k).cpuIn (r.input k)).externalSinglestep = true := hsingle k
          have hst : (r.state (k + 1)).cpu.state = .cpuIdle := by
            rw [next_cpu, step_updatePc hx u hs hb, hone]
            rfl
          rw [if_pos ⟨hs, by rw [hst]; decide⟩]
          exact Or.inr (Or.inr ⟨hst, by rw [he], hd⟩)
    · rw [if_neg fun hex => hs hex.1]
      refine Or.inr (Or.inl ⟨?_, he, hd⟩)
      rcases hmem with hmem | hmem
      · rwa [hmem]
      · exact MainState.decoded_next hm hs hmem
  · exact absurd hm hidle

/-- Until the machine is idle again. -/
theorem Accepts.one_step (ha : Accepts r t) {n : ℕ} (hn : t < n)
    (hidle : (r.state n).cpu.state = .cpuIdle)
    (hbusy : ∀ k, t < k → k < n → (r.state k).cpu.state ≠ .cpuIdle) :
    Nat.count (Exits r) n = Nat.count (Exits r) t + 1 ∧
      Nat.count (InDecode r) n = Nat.count (InDecode r) t + 1 := by
  have hp : ∀ k, t + 1 ≤ k → k ≤ n → Progress r t k := by
    intro k hk
    induction k, hk using Nat.le_induction with
    | base => exact fun _ => ha.progress h
    | succ k hk ih =>
        exact fun hlt => (ih (by omega)).step h hsingle (hbusy k hk hlt)
  rcases hp n hn le_rfl with ⟨hm, -, -⟩ | ⟨hm, -, -⟩ | ⟨-, he, hd⟩
  · simp [hidle, MainState.fetching] at hm
  · simp [hidle, MainState.decoded] at hm
  · exact ⟨he, hd⟩

end progress

/-! ## The result -/

/-- What software can see of the system, and the flag of a tag violation. -/
structure Visible (g : ℕ) where
  pc : BitVec 32
  regs : Registers.RegFile
  ram : WbRam.Contents g
  csrs : BitVec 4 → BitVec 32
  irqEn : Bool
  enables : Bool × Bool × Bool × Bool
  violation : Bool

def State.visible (s : State g) : Visible g where
  pc := s.cpu.pc
  regs := s.cpu.regs.regfile
  ram := s.ram.contents
  csrs := s.cpu.csr.settled
  irqEn := s.cpu.csr.irqEn
  enables := s.cpu.csr.enables
  violation := s.ram.irq

theorem Alike.visible_eq {s t : State g} (h : Alike s t) : t.visible = s.visible := by
  obtain ⟨hpc, hregs, hcsr, hirq, hen⟩ := h.cpu.visible
  obtain ⟨d, e, hram, -⟩ := h.ram
  have hcontents : t.ram.contents = s.ram.contents ∧ t.ram.irq = s.ram.irq := by
    rw [hram]
    exact ⟨rfl, rfl⟩
  simp only [State.visible, hpc, hregs, hcsr, hirq, hen, hcontents]

/-- A fetch that is never answered. -/
structure Hangs (s : State g) : Prop where
  state : s.cpu.state = .fetch
  cyc : s.cpu.bus.cyc = true
  read : s.cpu.bus.we = false
  uart : s.cpuMaster.accessUart = true
  reg : s.cpu.bus.adr.extractLsb' 2 2 = WbUart.uartAddrSanity
  ack : s.uart.ack = false
  timer : s.cpu.csr.irqTimerEn = false

section hangs
variable {s : State g} {i : Inputs}

instance : Decidable (Timeless s) :=
  decidable_of_iff (s.cpu.readsRnd = false ∧
      (s.cpu.bus.cyc = true → s.cpuMaster.accessTimer = true → s.cpu.bus.we = true) ∧
      (s.timer.irq && s.cpu.csr.irqTimerEn) = false)
    ⟨fun ⟨h₁, h₂, h₃⟩ => ⟨h₁, h₂, h₃⟩, fun h => ⟨h.rnd, h.read, h.pending⟩⟩

instance : Decidable (Hangs s) :=
  decidable_of_iff (s.cpu.state = .fetch ∧ s.cpu.bus.cyc = true ∧ s.cpu.bus.we = false ∧
      s.cpuMaster.accessUart = true ∧ s.cpu.bus.adr.extractLsb' 2 2 = WbUart.uartAddrSanity ∧
      s.uart.ack = false ∧ s.cpu.csr.irqTimerEn = false)
    ⟨fun ⟨h₁, h₂, h₃, h₄, h₅, h₆, h₇⟩ => ⟨h₁, h₂, h₃, h₄, h₅, h₆, h₇⟩,
      fun h => ⟨h.state, h.cyc, h.read, h.uart, h.reg, h.ack, h.timer⟩⟩

theorem Hangs.timeless (h : Hangs s) : Timeless s := by
  have hper : periphSelect s.cpu.bus.adr = wbAccessUart := by
    simpa [Master.accessUart, State.cpuMaster] using h.uart
  constructor
  · simp [State.readsRnd, h.state]
  · intro _ ht
    simp [Master.accessTimer, State.cpuMaster, hper, wbAccessUart, wbAccessTimer] at ht
  · simp [h.timer]

theorem Hangs.blamesTimer (h : Hangs s) : s.blamesTimer i = false := by
  simp [State.blamesTimer, h.state]

theorem Hangs.step (h : Hangs s) (w : Wired s i) (hi : i.Plain) : Hangs (s.step i) := by
  have hper : periphSelect s.cpu.bus.adr = wbAccessUart := by
    simpa [Master.accessUart, State.cpuMaster] using h.uart
  have hack : s.cpuAck i = false := by
    have hno : s.cpuMaster.accessTimer = false ∧ s.cpuMaster.accessRam = false := by
      simp [Master.accessTimer, Master.accessRam, State.cpuMaster, hper, wbAccessUart,
        wbAccessTimer, wbAccessRam]
    simp [State.cpuAck, master_eq hi.master, hno, h.uart, WbUart.State.ackOut, h.ack]
  have hbus := w.bus_held h.cyc hack
  have hstep := step_fetch (v := cpuResetAddr) w.flow.toCoherent
    (w.undisturbed hi.master hi.halt hi.cpuRst) h.state
  constructor
  case state =>
    rw [step_cpu, hstep]
    simp [← w.flow.cyc, h.cyc]
  case cyc => rw [hbus, h.cyc]
  case read => rw [hbus, h.read]
  case reg => rw [hbus, h.reg]
  case uart => simp [State.cpuMaster, Master.accessUart, hbus, hper]
  case ack =>
    have hsel : (s.uartIn i).regSel = WbUart.uartAddrSanity := by
      simp [State.uartIn, master_eq hi.master, State.cpuMaster, WbUart.Inputs.regSel, h.reg]
    have hnew : (s.step i).uart.ack = (s.uart.busSide (s.uartIn i)).ack :=
      (WbUart.step_bus hi.rst).1
    have hne : WbUart.uartAddrSanity ≠ WbUart.uartAddrDivider := by decide
    simp only [hnew, WbUart.State.busSide, hsel, hne, if_true, if_false]
    split_ifs
    · exact h.ack
    · exact h.ack
    · rfl
  case timer =>
    rw [step_cpu, hstep]
    exact h.timer

/-- From there on the system is in no other state. -/
theorem Reached.hangs {r : Run (State.step (g := g))} (hr : Reached r) {t : ℕ}
    (h : Hangs (r.state t)) {n : ℕ} (hn : t ≤ n) : Hangs (r.state n) :=
  r.invariant (P := Hangs) h (fun n _ ih => ih.step (hr.wired n) (hr.plain n)) n hn

end hangs

/-- The memory of `boot`, with an address left in the CSR block, which no reset clears. -/
def leftOver (addr : BitVec 12) (words : List (BitVec 32)) : State 1 :=
  let s := powerOn (fun _ => 0#32) (fun _ => 0#32) words fun _ => 0#4
  { s with cpu := { s.cpu with csr := { s.cpu.csr with storedAddr := addr } } }

def stepInputs (single : Bool) (steps : List ℕ) (t : ℕ) : Inputs :=
  { bootInputs t with extCpuSinglestep := single && t != 0, extCpuDoStep := steps.contains t }

/-- A run in single steps, with a pulse at each of the clocks `steps`, or a free one;
clocks are counted from power-on. -/
def stepped (addr : BitVec 12) (words : List (BitVec 32)) (single : Bool) (steps : List ℕ) :
    Run (State.step (g := 1)) :=
  (Run.closed State.step (fun t _ => stepInputs single steps t) (leftOver addr words)).drop 1

section stepped
variable (addr : BitVec 12) (words : List (BitVec 32)) (single : Bool) (steps : List ℕ)

theorem stepped_reached : Reached (stepped addr words single steps) where
  past := ⟨_, 1, ⟨⟨rfl, rfl, rfl, fun h => absurd h Bool.false_ne_true⟩, rfl, rfl, fun _ => rfl,
    fun _ => rfl⟩, Nat.one_pos, rfl⟩
  cpuRst t := by
    change (1 + t == 0) = false
    simp
  rst t := by
    change (1 + t == 0) = false
    simp

theorem stepped_single (t : ℕ) :
    ((stepped addr words single steps).input t).extCpuSinglestep = single := by
  change (single && (1 + t) != 0) = single
  simp

variable {addr words steps}

/-- The two runs of a program that ends in such a fetch. -/
theorem stepping_of_hangs {m n : ℕ} (h₁ : Hangs ((stepped addr words true steps).state m))
    (h₂ : Hangs ((stepped addr words false steps).state n))
    (ht₁ : ∀ t < m, Timeless ((stepped addr words true steps).state t))
    (ht₂ : ∀ t < n, Timeless ((stepped addr words false steps).state t)) :
    Stepping (stepped addr words true steps) (stepped addr words false steps) where
  stepped := stepped_reached addr words true steps
  free := stepped_reached addr words false steps
  high := stepped_single addr words true steps
  low := stepped_single addr words false steps
  start := rfl
  release := fun h => absurd (show MainState.reset = .cpuIdle from h) (by decide)
  timeless₁ t := by
    rcases Nat.lt_or_ge t m with ht | ht
    · exact ht₁ t ht
    · exact ((stepped_reached addr words true steps).hangs h₁ ht).timeless
  timeless₂ t := by
    rcases Nat.lt_or_ge t n with ht | ht
    · exact ht₂ t ht
    · exact ((stepped_reached addr words false steps).hangs h₂ ht).timeless

end stepped

/-- `lui x1, 0x8000` and `jalr x0, 8(x1)`, a jump to the serial port. -/
def portJump (single : Bool) : Run (State.step (g := 1)) :=
  stepped 0#12 [0x080000B7#32, 0x00808067#32] single [12, 22]

theorem portJump_hangs : Hangs ((portJump true).state 23) ∧ Hangs ((portJump false).state 18) := by
  decide +kernel

theorem portJump_stepping : Stepping (portJump true) (portJump false) :=
  stepping_of_hangs portJump_hangs.1 portJump_hangs.2 (by decide +kernel) (by decide +kernel)

theorem portJump_unclocked : Unclocked (portJump true) (portJump false) where
  jump t := by
    rcases Nat.lt_or_ge t 23 with ht | ht
    · revert t
      decide +kernel
    · simp [State.jumpsToRnd, (portJump_stepping.stepped.hangs portJump_hangs.1 ht).state]
  cause₁ t := by
    rcases Nat.lt_or_ge t 23 with ht | ht
    · revert t
      decide +kernel
    · exact (portJump_stepping.stepped.hangs portJump_hangs.1 ht).blamesTimer
  cause₂ t := by
    rcases Nat.lt_or_ge t 18 with ht | ht
    · revert t
      decide +kernel
    · exact (portJump_stepping.free.hangs portJump_hangs.2 ht).blamesTimer

/-- A slow shift, and the illegal word of zeros. The CSR block shows the random source. -/
def zeroWord (single : Bool) : Run (State.step (g := 1)) :=
  stepped Csr.msrMrnd [0x01409093#32, 0#32] single [35, 44]

theorem zeroWord_hangs :
    Hangs ((zeroWord true).state 45) ∧ Hangs ((zeroWord false).state 39) := by
  decide +kernel

theorem zeroWord_stepping : Stepping (zeroWord true) (zeroWord false) :=
  stepping_of_hangs zeroWord_hangs.1 zeroWord_hangs.2 (by decide +kernel) (by decide +kernel)

theorem zeroWord_exits {n : ℕ} (h : Exits (zeroWord false) n) : n = 29 ∨ n = 37 := by
  have hall : ∀ n < 39, Exits (zeroWord false) n → n = 29 ∨ n = 37 := by decide +kernel
  rcases Nat.lt_or_ge n 39 with hn | hn
  · exact hall n hn h
  · have hst := (zeroWord_stepping.free.hangs zeroWord_hangs.2 hn).state
    exact absurd (h.1.symm.trans hst) (by decide)

end TagSoc.Soc
