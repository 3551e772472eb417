import TagSoc.Bench
import TagSoc.BitSlices

/-!
# Fetching one instruction

From the pre-fetch state to the decode state: one word, or two when a 32-bit
instruction starts in the upper half of its word. Each phase is a lemma of the
form `Until … t`; `fetch_run` chains them and says that the decode state sees
the instruction that the datapath layer fetches and the address after it.
-/
namespace TagSoc.Cpu
open Clocked Decoder CpuBus Datapath BitSlices

variable {M : Type*} {v : BitVec 32}

/-- A word has arrived in a waiting state. -/
structure WordRead (r : Run (State.step v)) (mem : ℕ → M) (m : MainState) (a : Rv32.State M)
    (x : BitVec 32) (fin : Bool) (n : ℕ) : Prop where
  state : (r.state n).state = m
  done : (r.state n).bus.busy = false
  buffer : (r.state n).bus.buffer = x
  arch : arch r mem n = a
  finished : (r.state n).testFinished = fin

/-- What the fetch leaves for the decode state. -/
structure Decoding (r : Run (State.step v)) (mem : ℕ → M) (a : Rv32.State M) (w len : BitVec 32)
    (fin : Bool) (n : ℕ) : Prop where
  state : (r.state n).state = .decode
  arch : arch r mem n = a
  finished : (r.state n).testFinished = fin
  parcels : (r.state n).parcels = w
  next : (r.state n).alu.result = a.pc + len

section
variable {D : Device M} {r : Run (State.step v)} {mem : ℕ → M}

@[simp] theorem loaded_readw (D : Device M) (m : M) (addr : BitVec 32) :
    loaded D m .readw addr = D.read m 0b1111#4 addr := by
  simp [loaded, dataFromBus, BusOp.memSel]

variable (hs : Slave D r mem) (hr : Running r) (hc : ∀ t, Coherent (r.state t))
include hs hr hc

/-- The first word of an instruction. -/
theorem fetch_word {t : ℕ} (ht : (r.state t).state = .preFetch) :
    Until (fun n => (r.state n).state.fetching = true)
      (WordRead r mem .fetch (arch r mem t) (D.read (mem t) 0b1111#4 (r.state t).pc)
        (r.state t).testFinished) (t + 1) := by
  have hstep := step_preFetch (v := v) (hc t) (hs.undisturbed hr t) ht
  rw [← r.next t] at hstep
  have hmem : mem (t + 1) = mem t := hs.mem_of_ready (hc t) (by rw [ht]; rfl)
  have hwait := hs.read_wait .readw (r.state t).pc (fun s => (s.regs.regfile, s.pc, s.testFinished))
    (m := .fetch) (R := fun n => (r.state n).state.fetching = true) hr hc
    (fun n hn => by rw [hn]; rfl) ?_ (t := t + 1) (by rw [hstep]) (by rw [hstep]; rfl)
    (by rw [hstep]; rfl) (by rw [hstep]; rfl) (by rw [hstep]; rfl) (by rw [hstep]; rfl)
  · refine hwait.mono (fun n _ h => h) ?_
    rintro n - ⟨h₁, h₂, h₃, h₄, h₅⟩
    simp only [hstep, Prod.mk.injEq] at h₄
    refine ⟨h₁, h₂, ?_, ?_, h₄.2.2⟩
    · rw [h₃, loaded_readw, hmem]
    · simp only [arch, h₄, h₅, hmem]
  · intro s i h u hm hb
    simp [step_fetch h u hm, hb]

/-- The second word of a straddling instruction, whose address is in the ALU. -/
theorem fetch_more {t : ℕ} (ht : (r.state t).state = .prepairUnalignedFetch) :
    Until (fun n => (r.state n).state.fetching = true)
      (fun n => WordRead r mem .fetchMore (arch r mem t)
        (D.read (mem t) 0b1111#4 (r.state t).alu.result) (r.state t).testFinished n ∧
        (r.state n).parcelLow = (r.state t).parcelLow) (t + 1) := by
  have hstep := step_prepairUnalignedFetch (v := v) (hc t) (hs.undisturbed hr t) ht
  rw [← r.next t] at hstep
  have hmem : mem (t + 1) = mem t := hs.mem_of_ready (hc t) (by rw [ht]; rfl)
  have hwait := hs.read_wait .readw (r.state t).alu.result
    (fun s => (s.regs.regfile, s.pc, s.testFinished, s.parcelLow)) (m := .fetchMore)
    (R := fun n => (r.state n).state.fetching = true) hr hc
    (fun n hn => by rw [hn]; rfl) ?_ (t := t + 1) (by rw [hstep]) (by rw [hstep]; rfl)
    (by rw [hstep]; rfl) (by rw [hstep]; rfl) (by rw [hstep]; rfl) (by rw [hstep]; rfl)
  · refine hwait.mono (fun n _ h => h) ?_
    rintro n - ⟨h₁, h₂, h₃, h₄, h₅⟩
    simp only [hstep, Prod.mk.injEq] at h₄
    refine ⟨⟨h₁, h₂, ?_, ?_, h₄.2.2.1⟩, h₄.2.2.2⟩
    · rw [h₃, loaded_readw, hmem]
    · simp only [arch, h₄, h₅, hmem]
  · intro s i h u hm hb
    simp [step_fetchMore h u hm, hb]

omit hs hr hc in
theorem WordRead.we {m : MainState} {a : Rv32.State M} {x : BitVec 32} {fin : Bool}
    {n : ℕ} (h : WordRead r mem m a x fin n) (hc : Coherent (r.state n)) : (r.state n).bus.we = false :=
  Bool.eq_false_iff.mpr fun hw => by simpa [h.done] using hc.bus_we hw

section decode
variable {a : Rv32.State M} {x : BitVec 32} {fin : Bool} {n : ℕ}

/-- A word-aligned instruction, of either length, is complete. -/
theorem decoding_of_aligned (h : WordRead r mem .fetch a x fin n) (h1 : a.pc.getLsbD 1 = false) :
    Decoding r mem a x (instrLen x) fin (n + 1) := by
  have hstep := step_fetch (v := v) (hc n) (hs.undisturbed hr n) h.state
  rw [← r.next n] at hstep
  have hpc : (r.state n).pc = a.pc := congrArg Rv32.State.pc h.arch
  have halu : (r.state n).alu.busy = false := (hc n).alu_free (by rw [h.state]; rfl)
  have hmem : mem (n + 1) = mem n := hs.mem_of_not_we (h.we (hc n))
  have hlen : (r.state n).fetchLen = instrLen x := by
    simp only [State.fetchLen, hpc, h1, h.buffer, instrLen]
    rfl
  refine ⟨?_, ?_, ?_, ?_, ?_⟩
  · rw [hstep]
    simp only [h.done, hpc, h1]
    rfl
  · rw [← h.arch]
    simp only [arch, hstep, hmem]
  · rw [hstep]
    exact h.finished
  · rw [hstep, State.parcels]
    simp only [State.fetchLow, State.fetchHigh, hpc, h1, h.buffer]
    exact halves x
  · rw [hstep, ← hlen, ← hpc]
    exact aluAdd_result halu _ _

/-- A compressed instruction in the upper half of a word. -/
theorem decoding_of_upper (h : WordRead r mem .fetch a x fin n) (h1 : a.pc.getLsbD 1 = true)
    (h3 : x.extractLsb' 16 2 ≠ 3#2) :
    Decoding r mem a (0#16 ++ x.extractLsb' 16 16) 2#32 fin (n + 1) := by
  have hstep := step_fetch (v := v) (hc n) (hs.undisturbed hr n) h.state
  rw [← r.next n] at hstep
  have hpc : (r.state n).pc = a.pc := congrArg Rv32.State.pc h.arch
  have halu : (r.state n).alu.busy = false := (hc n).alu_free (by rw [h.state]; rfl)
  have hmem : mem (n + 1) = mem n := hs.mem_of_not_we (h.we (hc n))
  refine ⟨?_, ?_, ?_, ?_, ?_⟩
  · rw [hstep]
    simp [h.done, h.buffer, h3]
  · rw [← h.arch]
    simp only [arch, hstep, hmem]
  · rw [hstep]
    exact h.finished
  · rw [hstep, State.parcels]
    simp only [State.fetchLow, State.fetchHigh, hpc, h1, h.buffer, if_true]
  · rw [hstep, ← hpc]
    simp only [State.fetchLen, hpc, h1, if_true]
    exact aluAdd_result halu _ _

/-- A 32-bit instruction that starts in the upper half of a word. -/
theorem decoding_of_straddling (h : WordRead r mem .fetch a x fin n) (h1 : a.pc.getLsbD 1 = true)
    (h3 : x.extractLsb' 16 2 = 3#2) :
    Until (fun n => (r.state n).state.fetching = true)
      (Decoding r mem a
        ((D.read a.mem 0b1111#4 (a.pc + 2#32)).extractLsb' 0 16 ++ x.extractLsb' 16 16) 4#32 fin)
      (n + 1) := by
  have hstep := step_fetch (v := v) (hc n) (hs.undisturbed hr n) h.state
  rw [← r.next n] at hstep
  have hpc : (r.state n).pc = a.pc := congrArg Rv32.State.pc h.arch
  have halu : (r.state n).alu.busy = false := (hc n).alu_free (by rw [h.state]; rfl)
  have hmem : mem (n + 1) = mem n := hs.mem_of_not_we (h.we (hc n))
  have hstate : (r.state (n + 1)).state = .prepairUnalignedFetch := by
    rw [hstep]
    simp only [h.done, hpc, h1, h.buffer, h3]
    rfl
  have harch : arch r mem (n + 1) = a := by
    rw [← h.arch]
    simp only [arch, hstep, hmem]
  have hadr : (r.state (n + 1)).alu.result = a.pc + 2#32 := by
    rw [hstep, ← hpc]
    simp only [State.fetchLen, hpc, h1, if_true]
    exact aluAdd_result halu _ _
  have hlow : (r.state (n + 1)).parcelLow = x.extractLsb' 16 16 := by
    rw [hstep]
    simp only [State.fetchLow, hpc, h1, h.buffer, if_true]
  have hfin : (r.state (n + 1)).testFinished = fin := by rw [hstep]; exact h.finished
  have hmore := fetch_more hs hr hc hstate
  rw [harch, hadr, hlow, hfin, show mem (n + 1) = a.mem from congrArg Rv32.State.mem harch] at hmore
  refine Until.next (by rw [hstate]; rfl) (hmore.trans ?_)
  rintro k - ⟨hk, hlow⟩
  have hstep' := step_fetchMore (v := v) (hc k) (hs.undisturbed hr k) hk.state
  rw [← r.next k] at hstep'
  have hpc' : (r.state k).pc = a.pc := congrArg Rv32.State.pc hk.arch
  have halu' : (r.state k).alu.busy = false := (hc k).alu_free (by rw [hk.state]; rfl)
  have hmem' : mem (k + 1) = mem k := hs.mem_of_not_we (hk.we (hc k))
  refine Until.next (by rw [hk.state]; rfl) (Until.now ⟨?_, ?_, ?_, ?_, ?_⟩)
  · rw [hstep']
    simp [hk.done]
  · rw [← hk.arch]
    simp only [arch, hstep', hmem']
  · rw [hstep']
    exact hk.finished
  · rw [hstep', State.parcels]
    simp only [hk.buffer, hlow]
  · rw [hstep', ← hpc']
    exact aluAdd_result halu' _ _

end decode

/-- The whole fetch: both alignments, one word or two. -/
theorem fetch_run {t : ℕ} (ht : (r.state t).state = .preFetch) :
    Until (fun n => (r.state n).state.fetching = true)
      (Decoding r mem (arch r mem t) (fetched D (arch r mem t))
        (instrLen (fetched D (arch r mem t))) (r.state t).testFinished) (t + 1) := by
  refine (fetch_word hs hr hc ht).trans ?_
  rintro n - hn
  refine Until.next (by rw [hn.state]; rfl) ?_
  simp only [fetched]
  by_cases h1 : (arch r mem t).pc.getLsbD 1 = true
  · by_cases h3 : (D.read (arch r mem t).mem 0b1111#4 (arch r mem t).pc).extractLsb' 16 2 = 3#2
    · rw [if_pos h1, if_pos h3, instrLen, extractLsb'_append_low _ _ _ _ (by decide),
        extractLsb'_extractLsb' _ _ _ _ _ (by decide), if_pos h3]
      exact decoding_of_straddling hs hr hc hn h1 h3
    · rw [if_pos h1, if_neg h3, instrLen, extractLsb'_append_low _ _ _ _ (by decide),
        extractLsb'_extractLsb' _ _ _ _ _ (by decide), if_neg h3]
      exact Until.now (decoding_of_upper hs hr hc hn h1 h3)
  · rw [if_neg h1]
    exact Until.now (decoding_of_aligned hs hr hc hn (by simpa using h1))

end

end TagSoc.Cpu
