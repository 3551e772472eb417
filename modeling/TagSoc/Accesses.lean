import TagSoc.MachineRun

/-!
# What an instruction puts on the bus

The addresses the processor asks for between two boundaries: that of the instruction, the
word behind it when a 32-bit instruction starts in the upper half of a word, and the
address of a load or a store. An interrupt may keep the last one off the bus; nothing
else comes onto it.
-/
namespace TagSoc.Datapath
open Decoder
open Rv32 (Word)

variable {M : Type*}

def straddles (D : Device M) (a : Rv32.State M) : Bool :=
  a.pc.getLsbD 1 && (fetched D a).extractLsb' 0 2 == 3#2

/-- The address of a load or a store. -/
def accessAddr (d : Decoded) (a : Rv32.State M) : List Word :=
  match d.execNextStage with
  | .toLoad | .toStore => [dataS1 d a + dataS2 d a]
  | _ => []

/-- All addresses of the instruction at the program counter. -/
def addresses (D : Device M) (a : Rv32.State M) : List Word :=
  a.pc :: ((if straddles D a then [a.pc + 2#32] else []) ++ accessAddr (decode (fetched D a)) a)

end TagSoc.Datapath

namespace TagSoc.Cpu
open Clocked Decoder CpuBus Datapath
open Rv32 (Word)

variable {M : Type*} {v : BitVec 32}

/-! ## The fetch -/

/-- An instruction at `p` on its way to the decode clock, with what is asked for. -/
def FetchesFrom (p : Word) (s : State) : Prop :=
  s.pc = p ∧ (s.state = .fetch ∧ s.bus.adr = p ∨ s.state = .prepairUnalignedFetch ∨
    s.state = .fetchMore ∧ s.bus.adr = p + 2#32 ∨ s.state = .decode)

/-- The second word is on its way; the first halfword stays. -/
def FetchesMore (low : BitVec 16) (s : State) : Prop :=
  s.parcelLow = low ∧ (s.state = .fetchMore ∨ s.state = .decode)

section fetch
variable {s : State} {i : Inputs} {p : Word} (h : Flow s) (u : Undisturbed s i)
include h u

theorem FetchesFrom.step (hp : FetchesFrom p s) (hd : s.state ≠ .decode) :
    FetchesFrom p (s.step v i) := by
  obtain ⟨hpc, ⟨hs, hadr⟩ | hs | ⟨hs, hadr⟩ | hs⟩ := hp
  · rw [step_fetch h.toCoherent u hs]
    refine ⟨hpc, ?_⟩
    cases hb : s.bus.busy with
    | true => exact Or.inl ⟨rfl, (CpuBus.State.wait_adr _ _ _).trans hadr⟩
    | false =>
        simp only [Bool.false_eq_true, if_false]
        split_ifs
        · exact Or.inr (Or.inl rfl)
        · exact Or.inr (Or.inr (Or.inr rfl))
  · rw [step_prepairUnalignedFetch h.toCoherent u hs]
    refine ⟨hpc, Or.inr (Or.inr (Or.inl ⟨rfl, ?_⟩))⟩
    rw [← hpc]
    exact h.second hs
  · rw [step_fetchMore h.toCoherent u hs]
    refine ⟨hpc, ?_⟩
    cases hb : s.bus.busy with
    | true => exact Or.inr (Or.inr (Or.inl ⟨rfl, (CpuBus.State.wait_adr _ _ _).trans hadr⟩))
    | false => exact Or.inr (Or.inr (Or.inr rfl))
  · exact absurd hs hd

theorem FetchesMore.step {low : BitVec 16} (hp : FetchesMore low s) (hd : s.state ≠ .decode) :
    FetchesMore low (s.step v i) := by
  obtain ⟨hlow, hs⟩ := hp
  rw [step_fetchMore h.toCoherent u (hs.resolve_right hd)]
  refine ⟨hlow, ?_⟩
  cases hb : s.bus.busy with
  | true => exact Or.inl rfl
  | false => exact Or.inr rfl

end fetch

/-! ## After the decode clock -/

namespace MainState

/-- The states after the decode clock that belong neither to a load nor to a store. -/
def offBus : MainState → Bool
  | .postExec | .branch2 | .system | .csr1 | .csr2 | .trap | .mret | .updatePc => true
  | _ => false

theorem offBus_successors (m : MainState) (hm : m.offBus = true) :
    m.successors.all (fun m' => m' == .preFetch || m' == .cpuIdle || m'.offBus) = true := by
  cases m <;> first | rfl | exact absurd hm (by decide)

end MainState

/-- A load or a store of address `x` after its execute clock. -/
def AccessesAt (x : Word) (s : State) : Prop :=
  s.state.offBus = true ∨ (s.state = .load1 ∨ s.state = .store1) ∧ s.alu.result = x ∨
    (s.state = .load2 ∨ s.state = .store2) ∧ s.bus.adr = x

section access
variable {s : State} {i : Inputs} (h : Coherent s) (u : Undisturbed s i)
include h u

theorem offBus_step (hp : s.state.offBus = true) :
    (s.step v i).atBoundary = true ∨ (s.step v i).state.offBus = true := by
  rcases h.step_state_mem (v := v) u.rst with heq | hmem
  · exact Or.inr (heq ▸ hp)
  · have hnext := List.all_eq_true.mp (MainState.offBus_successors _ hp) _ hmem
    simpa [State.atBoundary, or_assoc] using hnext

theorem AccessesAt.step {x : Word} (hp : AccessesAt x s) :
    (s.step v i).atBoundary = true ∨ AccessesAt x (s.step v i) := by
  rcases hp with hoff | ⟨hs | hs, hres⟩ | ⟨hs | hs, hadr⟩
  · exact (offBus_step h u hoff).imp_right Or.inl
  · rw [step_load1 h u hs]
    exact Or.inr (Or.inr (Or.inr ⟨Or.inl rfl, hres⟩))
  · rw [step_store1 h u hs]
    exact Or.inr (Or.inr (Or.inr ⟨Or.inr rfl, hres⟩))
  · rw [step_load2 h u hs]
    cases hb : s.bus.busy with
    | true => exact Or.inr (Or.inr (Or.inr ⟨Or.inl rfl, (CpuBus.State.wait_adr _ _ _).trans hadr⟩))
    | false => exact Or.inr (Or.inl rfl)
  · rw [step_store2 h u hs]
    cases hb : s.bus.busy || s.csr.busy with
    | true => exact Or.inr (Or.inr (Or.inr ⟨Or.inr rfl, (CpuBus.State.wait_adr _ _ _).trans hadr⟩))
    | false => exact Or.inr (Or.inl rfl)

end access

/-! ## The whole instruction -/

section run
variable {D : Device M} {r : Run (State.step v)} {mem : ℕ → M} {t : ℕ}
  (hs : Slave D r mem) (hr : Running r) (hf : ∀ t, Flow (r.state t))
  (ht : (r.state t).state = .preFetch)
include hs hr hf

omit hs hr in
theorem not_cyc {k : ℕ} (hk : (r.state k).state.usesBus = false) :
    (r.state k).bus.cyc = false :=
  (hf k).cyc.trans ((hf k).bus_free hk)

theorem fetchesMore_run {k d : ℕ} {low : BitVec 16} (h : FetchesMore low (r.state k)) (hkd : k ≤ d)
    (honce : ∀ j, k ≤ j → j < d → (r.state j).state ≠ .decode) : FetchesMore low (r.state d) := by
  induction d, hkd using Nat.le_induction with
  | base => exact h
  | succ d hkd ih =>
      rw [r.next]
      exact (ih fun j hj hjd => honce j hj (by omega)).step (hf d) (hs.undisturbed hr d)
        (honce d hkd (by omega))

include ht

theorem fetchesFrom_run {d k : ℕ} (honce : ∀ j, t < j → j < d → (r.state j).state ≠ .decode)
    (hk : t < k) (hkd : k ≤ d) : FetchesFrom (r.state t).pc (r.state k) := by
  induction k, hk using Nat.le_induction with
  | base =>
      rw [Nat.succ_eq_add_one, r.next, step_preFetch (hf t).toCoherent (hs.undisturbed hr t) ht]
      exact ⟨rfl, Or.inl ⟨rfl, rfl⟩⟩
  | succ k hk ih =>
      rw [r.next]
      exact (ih (by omega)).step (hf k) (hs.undisturbed hr k) (honce k hk (by omega))

/-- Up to the decode clock. -/
theorem fetch_addresses {d k : ℕ}
    (honce : ∀ j, t < j → j < d → (r.state j).state ≠ .decode)
    (hword : (r.state d).parcels = fetched D (arch r mem t)) (hk : t < k) (hkd : k ≤ d)
    (hcyc : (r.state k).bus.cyc = true) :
    (r.state k).bus.adr ∈ addresses D (arch r mem t) := by
  obtain ⟨hpc, ⟨-, hadr⟩ | hst | ⟨hst, hadr⟩ | hst⟩ := fetchesFrom_run hs hr hf ht honce hk hkd
  · rw [hadr]
    exact List.mem_cons_self
  · exact absurd hcyc (by simp [not_cyc hf (k := k) (by rw [hst]; rfl)])
  · -- a 32-bit instruction: its first halfword is still there in the decode clock
    obtain ⟨hlow, hbit⟩ := (hf k).straddling (Or.inr hst)
    obtain ⟨hkeep, -⟩ := fetchesMore_run hs hr hf ⟨rfl, Or.inl hst⟩ hkd
      fun j hj hjd => honce j (by omega) hjd
    have hthree : (fetched D (arch r mem t)).extractLsb' 0 2 = 3#2 := by
      rw [← hword, State.parcels, BitSlices.extractLsb'_append_low _ _ _ _ (by decide), hkeep]
      exact hlow
    have hstr : straddles D (arch r mem t) = true := by
      rw [straddles, hthree, show (arch r mem t).pc = (r.state k).pc from hpc.symm, hbit]
      rfl
    rw [hadr, addresses, if_pos hstr]
    exact List.mem_cons_of_mem _ (List.mem_cons_self)
  · exact absurd hcyc (by simp [not_cyc hf (k := k) (by rw [hst]; rfl)])

omit hs hr ht in
theorem not_cyc_of_offBus {k : ℕ} (hk : (r.state k).state.offBus = true) :
    (r.state k).bus.cyc = false := by
  refine not_cyc hf ?_
  revert hk
  cases (r.state k).state <;> decide

omit ht in
theorem offBus_run {c k : ℕ} (hc : (r.state c).state.offBus = true) (hk : c ≤ k)
    (hin : ∀ j, c < j → j ≤ k → (r.state j).atBoundary = false) :
    (r.state k).state.offBus = true := by
  refine inside_run (P := fun s => s.state.offBus = true) hc (fun j _ hj => ?_) hk hin
  rw [r.next]
  exact offBus_step (hf j).toCoherent (hs.undisturbed hr j) hj

omit ht in
/-- The execute clock has put the address into the ALU. -/
theorem accessesAt_of_exec {e : ℕ} (hx : ReachedExec r mem t e (fetched D (arch r mem t)))
    (hst : (decode (fetched D (arch r mem t))).execNextStage = .toLoad ∨
      (decode (fetched D (arch r mem t))).execNextStage = .toStore) :
    AccessesAt (dataS1 (decode (fetched D (arch r mem t))) (arch r mem t) +
      dataS2 (decode (fetched D (arch r mem t))) (arch r mem t)) (r.state (e + 1)) := by
  obtain ⟨hdec, h₁, h₂⟩ := hx.operands
  have hadd := (stage_quiet (hst.imp_right Or.inl)).2.2.2
  have hfree : (r.state e).alu.busy = false := (hf e).alu_free (by rw [hx.state]; rfl)
  rw [r.next, step_exec (hf e).toCoherent (hs.undisturbed hr e) hx.state]
  refine Or.inr (Or.inl ⟨?_, ?_⟩)
  · rw [hdec]
    rcases hst with h | h <;> rw [h] <;> simp [State.execNextState]
  · rw [State.execAlu, hdec, hadd, (Alu.step_add _ hfree _ _).2, h₁, h₂]
    rfl

omit ht in
theorem AccessesAt.run {x : Word} {c k : ℕ} (hc : AccessesAt x (r.state c)) (hk : c ≤ k)
    (hin : ∀ j, c < j → j ≤ k → (r.state j).atBoundary = false) : AccessesAt x (r.state k) := by
  refine inside_run hc (fun j _ hj => ?_) hk hin
  rw [r.next]
  exact hj.step (hf j).toCoherent (hs.undisturbed hr j)

omit ht in
/-- From the clock after the execute clock on. -/
theorem executed_addresses {e k : ℕ} (hx : ReachedExec r mem t e (fetched D (arch r mem t)))
    (hk : e + 1 ≤ k) (hin : ∀ j, e + 1 < j → j ≤ k → (r.state j).atBoundary = false)
    (hcyc : (r.state k).bus.cyc = true) :
    (r.state k).bus.adr ∈ addresses D (arch r mem t) := by
  have hdec : (r.state e).dec = decode (fetched D (arch r mem t)) := by rw [State.dec, hx.word]
  by_cases hst : (decode (fetched D (arch r mem t))).execNextStage = .toLoad ∨
      (decode (fetched D (arch r mem t))).execNextStage = .toStore
  · have hmem : (dataS1 (decode (fetched D (arch r mem t))) (arch r mem t) +
        dataS2 (decode (fetched D (arch r mem t))) (arch r mem t)) ∈
          addresses D (arch r mem t) := by
      refine List.mem_cons_of_mem _ (List.mem_append_right _ ?_)
      rcases hst with h | h <;> rw [accessAddr, h] <;> exact List.mem_singleton_self _
    rcases (accessesAt_of_exec hs hr hf hx hst).run hs hr hf hk hin with hoff | ⟨h, -⟩ | ⟨-, h⟩
    · exact absurd hcyc (by simp [not_cyc_of_offBus hf hoff])
    · exact absurd hcyc (by rw [not_cyc hf (by rcases h with h | h <;> rw [h] <;> rfl)]; decide)
    · rwa [h]
  · have hoff : (r.state (e + 1)).state.offBus = true := by
      have hused := execNextState_used (r.state e)
      rw [r.next, step_exec (hf e).toCoherent (hs.undisturbed hr e) hx.state, hdec]
      rw [hdec] at hused
      revert hst hused
      cases (decode (fetched D (arch r mem t))).execNextStage <;>
        simp [State.execNextState, MainState.offBus, MainState.unused]
    exact absurd hcyc (by simp [not_cyc_of_offBus hf (offBus_run hs hr hf hoff hk hin)])

/-- Between two boundaries. -/
theorem bus_addresses {k : ℕ} (hk : t ≤ k)
    (hin : ∀ j, t < j → j ≤ k → (r.state j).atBoundary = false)
    (hcyc : (r.state k).bus.cyc = true) :
    (r.state k).bus.adr ∈ addresses D (arch r mem t) := by
  have hc : ∀ n, Coherent (r.state n) := fun n => (hf n).toCoherent
  have hu := hs.undisturbed hr
  rcases Nat.eq_or_lt_of_le hk with rfl | hlt
  · exact absurd hcyc (by simp [not_cyc hf (k := t) (by rw [ht]; rfl)])
  obtain ⟨d, hun, hd, honce, hword⟩ := decode_clock hs hr hf ht
  rcases Nat.lt_or_ge d k with hdk | hkd
  · cases hi : (r.state d).takesInterrupt (r.input d) with
    | true =>
        have htrap : (r.state (d + 1)).state.offBus = true := by
          rw [r.next, step_decode_interrupt (hc d) (hu d) hd hi]
          rfl
        have hoff := offBus_run hs hr hf htrap hdk fun j hj hjk =>
          hin j (hun.later.trans (by omega)) hjk
        exact absurd hcyc (by simp [not_cyc_of_offBus hf hoff])
    | false =>
        obtain ⟨e, hte, hx⟩ :=
          exec_run hs hr hc ht (uninterrupted_of_decode hs hr hf hun hd honce hi)
        have hdec := decoded_run hc hu hd hdk fun j hj hjk => hin j (hun.later.trans hj) hjk
        rcases Nat.lt_trichotomy k e with hke | rfl | hek
        · -- before the execute clock the machine is fetching
          have hfetch := hx.path k hlt hke
          exfalso
          revert hdec hfetch
          cases (r.state k).state <;> decide
        · exact absurd hcyc (by simp [not_cyc hf (k := k) (by rw [hx.state]; rfl)])
        · exact executed_addresses hs hr hf hx hek (fun j hj hjk => hin j (by omega) hjk) hcyc
  · exact fetch_addresses hs hr hf ht honce hword hlt hkd hcyc

end run

end TagSoc.Cpu
