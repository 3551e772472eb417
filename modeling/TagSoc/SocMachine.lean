import TagSoc.Accesses
import TagSoc.BusProgress
import TagSoc.SocRun
import TagSoc.TaggedArrays

/-!
# The chip follows the machine

The processor of the chip with the memory of the chip behind its bus. For as long as every
request goes to the memory, the memory is a slave as `Slave` describes it; what happens at
the first request that goes elsewhere is left open by following the run up to there and
an ideal memory from there on. Every run of the chip then follows the machine of whole
instructions on the contents of the memory, until an instruction leaves the memory.
-/
namespace TagSoc.Cpu
open Clocked Datapath

variable {M : Type*} {v : BitVec 32} {D : Device M} {r q : Run (State.step v)} {mem memq : ℕ → M}
  {T : ℕ}

/-- The slave's duties up to clock `T`. A request may still be open then. -/
structure SlaveUntil (D : Device M) (r : Run (State.step v)) (mem : ℕ → M) (T : ℕ) : Prop where
  ack_cyc : ∀ t < T, (r.input t).ack = true →
    (r.state t).bus.cyc = true ∧ (r.state t).bus.stb = true
  answers : ∀ t < T, (r.state t).bus.cyc = true → (r.state t).bus.stb = true →
    (∃ n, t ≤ n ∧ n < T ∧ (r.input n).ack = true) ∨
      (r.state T).bus.cyc = true ∧ (r.state T).bus.stb = true
  read : ∀ t < T, (r.input t).ack = true → (r.state t).bus.we = false →
    (r.input t).dat = D.read (mem t) (r.state t).bus.sel (r.state t).bus.adr
  write : ∀ t < T, mem (t + 1) =
    if (r.input t).ack = true ∧ (r.state t).bus.we = true then
      D.write (mem t) (r.state t).bus.sel (r.state t).bus.adr (r.state t).bus.dat
    else mem t

/-- A slave takes over. -/
theorem SlaveUntil.splice (h : SlaveUntil D r mem T) (hq : Slave D q memq)
    (hseam : q.state 0 = r.state T) (hmem : memq 0 = mem T) :
    Slave D (r.splice T q hseam) (spliced T mem memq) := by
  have hstate : ∀ t, t < T → (r.splice T q hseam).state t = r.state t :=
    fun t => spliced_of_lt _ _
  have hinput : ∀ t, t < T → (r.splice T q hseam).input t = r.input t :=
    fun t => spliced_of_lt _ _
  have hstate' : ∀ n, (r.splice T q hseam).state (T + n) = q.state n :=
    fun n => spliced_add T n _ _
  have hinput' : ∀ n, (r.splice T q hseam).input (T + n) = q.input n :=
    fun n => spliced_add T n _ _
  constructor
  · intro t ha
    rcases Nat.lt_or_ge t T with ht | ht
    · rw [hinput t ht] at ha
      rw [hstate t ht]
      exact h.ack_cyc t ht ha
    · obtain ⟨n, rfl⟩ := Nat.exists_eq_add_of_le ht
      rw [hinput'] at ha
      rw [hstate']
      exact hq.ack_cyc n ha
  · intro t hc hb
    -- the clocks from the seam on
    have hlate : ∀ n, (q.state n).bus.cyc = true → (q.state n).bus.stb = true →
        ∃ k, T + n ≤ k ∧ ((r.splice T q hseam).input k).ack = true := by
      intro n hc hb
      obtain ⟨k, hk, ha⟩ := hq.answers n hc hb
      exact ⟨T + k, by omega, by rw [hinput']; exact ha⟩
    rcases Nat.lt_or_ge t T with ht | ht
    · rw [hstate t ht] at hc hb
      rcases h.answers t ht hc hb with ⟨n, hn, hnT, ha⟩ | ⟨hc, hb⟩
      · exact ⟨n, hn, by rw [hinput n hnT]; exact ha⟩
      · rw [← hseam] at hc hb
        obtain ⟨k, hk, ha⟩ := hlate 0 hc hb
        exact ⟨k, by omega, ha⟩
    · obtain ⟨n, rfl⟩ := Nat.exists_eq_add_of_le ht
      rw [hstate'] at hc hb
      exact hlate n hc hb
  · intro t ha hw
    rcases Nat.lt_or_ge t T with ht | ht
    · rw [hinput t ht] at ha ⊢
      rw [hstate t ht] at hw ⊢
      rw [spliced_of_lt _ _ ht]
      exact h.read t ht ha hw
    · obtain ⟨n, rfl⟩ := Nat.exists_eq_add_of_le ht
      rw [hinput'] at ha ⊢
      rw [hstate'] at hw ⊢
      rw [spliced_add]
      exact hq.read n ha hw
  · intro t
    rcases Nat.lt_or_ge t T with ht | ht
    · rw [hinput t ht, hstate t ht, spliced_of_le hmem ht, spliced_of_lt _ _ ht]
      exact h.write t ht
    · obtain ⟨n, rfl⟩ := Nat.exists_eq_add_of_le ht
      rw [hinput', hstate', Nat.add_assoc, spliced_add, spliced_add]
      exact hq.write n

/-! ## Up to the first request elsewhere -/

/-- An instruction that asks for an address of another kind. -/
def leaves (D : Device M) (ok : Rv32.Word → Bool) (a : Rv32.State M) : Bool :=
  (addresses D a).any fun x => !ok x

/-- Clock `T` asks for an address of another kind. -/
def StraysAt (ok : Rv32.Word → Bool) (r : Run (State.step v)) (T : ℕ) : Prop :=
  (r.state T).bus.cyc = true ∧ ok (r.state T).bus.adr = false

section stray
variable (hs : Slave D r mem) (hr : Running r) (hf : ∀ t, Flow (r.state t))
  {ok : Rv32.Word → Bool} (hT : StraysAt ok r T)
include hs hr hf hT

/-- It belongs to an instruction that leaves. -/
theorem leaves_of_strays {t : ℕ} (ht : (r.state t).state = .preFetch) (htT : t ≤ T)
    (hin : ∀ j, t < j → j ≤ T → (r.state j).atBoundary = false) :
    leaves D ok (arch r mem t) = true := by
  refine List.any_eq_true.mpr ⟨(r.state T).bus.adr, ?_, by simp [hT.2]⟩
  exact bus_addresses hs hr hf ht htT hin hT.1

theorem boundary_le_stray {t n : ℕ} (ht : (r.state t).state = .preFetch) (htT : t ≤ T)
    (hstay : leaves D ok (arch r mem t) = false) (hn : NextBoundary r t n) : n ≤ T := by
  by_contra hlt
  have hl := leaves_of_strays hs hr hf hT ht htT fun j hj hjT => hn.2.2 j hj (by omega)
  exact Bool.false_ne_true (hstay.symm.trans hl)

theorem follows_until (hq : Unstepped r) (N : ℕ) {t : ℕ} (ht : (r.state t).state = .preFetch)
    (hrun : (r.state t).testFinished = false) (htT : t ≤ T) :
    ∃ ls n, ls.length ≤ N ∧ n ≤ T ∧ Passes r t ls n ∧
      (view r mem t).run D ls = some (view r mem n) ∧
      (ls.length < N → (view r mem n).finished = true ∨
        leaves D ok (view r mem n).toState = true) := by
  induction N generalizing t with
  | zero => exact ⟨[], t, le_rfl, htT, .none t, rfl, fun h => absurd h (Nat.not_lt_zero _)⟩
  | succ N ih =>
      cases hstay : leaves D ok (arch r mem t) with
      | true => exact ⟨[], t, Nat.zero_le _, htT, .none t, rfl, fun _ => Or.inr hstay⟩
      | false =>
          rcases machine_step hs hr hf ht hq hrun with ⟨l, m, hm, hl, hstep⟩ | ⟨-, hnone⟩
          · have hmT := boundary_le_stray hs hr hf hT ht htT hstay hm
            cases hfin : (r.state m).testFinished with
            | true =>
                refine ⟨[l], m, by simp, hmT, .next hm hl (.none m), ?_, fun _ => Or.inl hfin⟩
                rw [Machine.State.run, hstep]
                rfl
            | false =>
                have hpre := hm.preFetch hs hr ht (fun t => (hf t).toCoherent) hq hfin
                obtain ⟨ls, n, hlen, hn, hpass, hall, hend⟩ := ih hpre hfin hmT
                refine ⟨l :: ls, n, by simpa using hlen, hn, .next hm hl hpass, ?_, fun h =>
                  hend (by simpa using h)⟩
                rw [Machine.State.run, hstep]
                exact hall
          · -- an instruction that never ends would contain the stray request
            have hl := leaves_of_strays hs hr hf hT ht htT fun j hj _ => hnone j hj
            exact absurd (hstay.symm.trans hl) Bool.false_ne_true

end stray

/-! ## Runs that agree -/

theorem Passes.le {t n : ℕ} {ls : List Machine.Lines} (h : Passes r t ls n) : t ≤ n := by
  induction h with
  | none t => exact le_rfl
  | next hm _ _ ih => exact hm.1.le.trans ih

section congr
variable (hst : ∀ k ≤ T, q.state k = r.state k) (hin : ∀ k < T, q.input k = r.input k)
include hst

theorem NextBoundary.congr {t n : ℕ} (hnT : n ≤ T) (h : NextBoundary q t n) :
    NextBoundary r t n := by
  refine ⟨h.1, ?_, fun k hk hkn => ?_⟩
  · rw [← hst n hnT]
    exact h.2.1
  · rw [← hst k (by omega)]
    exact h.2.2 k hk hkn

include hin

theorem Seen.congr {t n : ℕ} (hnT : n ≤ T) {l : Machine.Lines} (h : Seen q t n l) :
    Seen r t n l := by
  have hs : ∀ k, k < n → q.state k = r.state k := fun k hk => hst k (by omega)
  have hi : ∀ k, k < n → q.input k = r.input k := fun k hk => hin k (by omega)
  constructor
  case decode =>
    obtain ⟨d, hd, hdn, hdec, hlines⟩ := h.decode
    rw [hs d hdn] at hdec
    rw [hi d hdn] at hlines
    exact ⟨d, hd, hdn, hdec, hlines⟩
  case timer =>
    refine h.timer.trans (exists_congr fun k => and_congr_right fun _ => and_congr_right fun hk => ?_)
    rw [hs k hk, hi k hk]
  case port =>
    intro k hk hkn hsample
    rw [← hs k hkn] at hsample ⊢
    exact h.port k hk hkn hsample
  case clear =>
    refine h.clear.trans (exists_congr fun k => and_congr_right fun _ => and_congr_right fun hk => ?_)
    rw [hs k hk, hi k hk]

theorem Passes.congr {t n : ℕ} {ls : List Machine.Lines} (hnT : n ≤ T) (h : Passes q t ls n) :
    Passes r t ls n := by
  induction h with
  | none t => exact .none t
  | next hm hl h ih =>
      have hmn := h.le
      exact .next (hm.congr hst (hmn.trans hnT)) (hl.congr hst hin (hmn.trans hnT)) (ih hnT)

end congr

end TagSoc.Cpu

namespace TagSoc.Soc
open Clocked Cpu WbRam

variable {g : ℕ} {r : Run (State.step (g := g))}

/-! ## The memory as a slave -/

/-- The memory at clock `t`. -/
def contentsAt (r : Run (State.step (g := g))) (t : ℕ) : Contents g := (r.state t).ram.contents

/-- At clock `t` nothing is asked for outside the memory. -/
def AsksRam (r : Run (State.step (g := g))) (t : ℕ) : Prop :=
  (r.state t).cpu.bus.cyc = true → (r.state t).cpuMaster.accessRam = true

section slave
variable (h : Reached r)
include h

theorem Reached.ram_write {t : ℕ} (ha : AsksRam r t) :
    contentsAt r (t + 1) =
      if ((cpuRun r).input t).ack = true ∧ ((cpuRun r).state t).bus.we = true then
        (ramDevice g).write (contentsAt r t) ((cpuRun r).state t).bus.sel
          ((cpuRun r).state t).bus.adr ((cpuRun r).state t).bus.dat
      else contentsAt r t := by
  have w := h.wired t
  have hm := h.master t
  have hack : (r.state t).cpuAck (r.input t) = (r.state t).ram.ack := by
    cases hc : (r.state t).cpu.bus.cyc with
    | true => exact cpuAck_of_ram hm (ha hc)
    | false =>
        -- neither the memory nor any other slave has a request to answer
        have h₁ : (r.state t).cpuAck (r.input t) = false :=
          Bool.eq_false_iff.mpr fun h₁ => by simp [w.ack_cyc hm h₁] at hc
        have h₂ : (r.state t).ram.ack = false :=
          Bool.eq_false_iff.mpr fun h₂ => by
            simp [(cyc_of_requests hm (w.serving.request h₂)).1] at hc
        rw [h₁, h₂]
  have hstep := w.serving.contents_step
  rw [ramIn_eq hm] at hstep
  rw [contentsAt, r.next, step_ram, ramIn_eq hm, hstep]
  rw [show ((cpuRun r).input t).ack = (r.state t).cpuAck (r.input t) from rfl, hack]
  rfl

theorem Reached.ram_read {t : ℕ} (ha : AsksRam r t) (hk : ((cpuRun r).input t).ack = true) :
    ((cpuRun r).input t).dat = (ramDevice g).read (contentsAt r t) ((cpuRun r).state t).bus.sel
      ((cpuRun r).state t).bus.adr := by
  have w := h.wired t
  have hm := h.master t
  have hacc := ha (w.ack_cyc hm hk)
  have hack : (r.state t).ram.ack = true := (cpuAck_of_ram hm hacc).symm.trans hk
  have hdata := w.serving.dataOut hack
  have hsel : (r.state t).masterData (r.input t) =
      (r.state t).ram.dataOut ((r.state t).ramIn (r.input t)) := by
    simp [State.masterData, master_eq hm, accessTimer_of_ram hacc, hacc]
  refine hsel.trans (hdata.trans ?_)
  rw [ramIn_eq hm]
  rfl

/-- A request that is not answered stays. -/
theorem Reached.bus_waits {t n : ℕ} (hc : (r.state t).cpu.bus.cyc = true) (hn : t ≤ n)
    (hno : ∀ k, t ≤ k → k < n → (r.state k).cpuAck (r.input k) = false) :
    (r.state n).cpu.bus = (r.state t).cpu.bus := by
  induction n, hn using Nat.le_induction with
  | base => rfl
  | succ n hn ih =>
      have hbus := ih fun k hk hlt => hno k hk (by omega)
      rw [r.next, (h.wired n).bus_held (by rw [hbus]; exact hc) (hno n hn (by omega)), hbus]

theorem Reached.sound (h0 : (r.state 0).cpu.bus.cyc = false) (t : ℕ) :
    SharedBus.Sound (SharedBus.shared (r.state t)) := by
  induction t with
  | zero =>
      have w := h.wired 0
      refine ⟨⟨w.flow.stb.trans w.flow.cyc.symm, fun ha hidle => ?_⟩, fun hc => ?_, w.serving.used⟩
      · exact absurd ha (by rw [show (SharedBus.shared (r.state 0)).ram.ack = false from
          w.serving.idle hidle]; decide)
      · exact absurd hc (by rw [show (SharedBus.shared (r.state 0)).cpu.cyc = false from h0]; decide)
  | succ t ih =>
      have hstep := (SharedBus.sharedRun r).next t
      rw [show SharedBus.shared (r.state (t + 1)) = _ from hstep]
      exact ih.step

/-- A request to the memory is answered, and stays until then. -/
theorem Reached.ram_answers (h0 : (r.state 0).cpu.bus.cyc = false) {t : ℕ}
    (hc : (r.state t).cpu.bus.cyc = true) (ha : AsksRam r t) :
    ∃ n, t ≤ n ∧ (r.state n).cpuAck (r.input n) = true ∧
      ∀ k, t ≤ k → k ≤ n → (r.state k).cpu.bus = (r.state t).cpu.bus := by
  have hans : ∃ n, t ≤ n ∧ (r.state n).cpuAck (r.input n) = true := by
    by_contra hnever
    have hno : ∀ n, t ≤ n → (r.state n).cpuAck (r.input n) = false := fun n hn =>
      Bool.eq_false_iff.mpr fun hk => hnever ⟨n, hn, hk⟩
    have hs := h.sound h0 t
    obtain ⟨op, hop⟩ := hs.sel hc
    have hstuck : SharedBus.Stuck (SharedBus.sharedRun r) t (r.state t).cpuMaster := by
      refine ⟨fun n _ => h.rst n, fun n hn => ?_, hno⟩
      refine (master_eq (h.master n)).trans ?_
      rw [State.cpuMaster, State.cpuMaster, h.bus_waits hc hn fun k hk _ => hno k hk]
    have hram := hstuck.not_ram ⟨hc, hs.stb.trans hc⟩ hop hs.ram (accessTimer_of_ram (ha hc))
    exact absurd (ha hc) (by simp [hram])
  classical
  refine ⟨Nat.find hans, (Nat.find_spec hans).1, (Nat.find_spec hans).2, fun k hk hkn => ?_⟩
  refine h.bus_waits hc hk fun j hj hjk => ?_
  exact Bool.eq_false_iff.mpr fun hack => Nat.find_min hans (lt_of_lt_of_le hjk hkn) ⟨hj, hack⟩

theorem Reached.slaveUntil (h0 : (r.state 0).cpu.bus.cyc = false) {T : ℕ}
    (ha : ∀ t < T, AsksRam r t) : SlaveUntil (ramDevice g) (cpuRun r) (contentsAt r) T := by
  have hstb : ∀ t, (r.state t).cpu.bus.stb = (r.state t).cpu.bus.cyc := fun t =>
    (h.coherent t).stb.trans (h.coherent t).cyc.symm
  constructor
  · intro t ht hk
    have hc := (h.wired t).ack_cyc (h.master t) hk
    exact ⟨hc, (hstb t).trans hc⟩
  · intro t ht hc hb
    obtain ⟨n, hn, hack, hbus⟩ := h.ram_answers h0 hc (ha t ht)
    rcases Nat.lt_or_ge n T with hnT | hnT
    · exact Or.inl ⟨n, hn, hnT, hack⟩
    · right
      have hT := hbus T ht.le hnT
      exact ⟨(congrArg CpuBus.State.cyc hT).trans hc, (congrArg CpuBus.State.stb hT).trans hb⟩
  · exact fun t ht hk _ => h.ram_read (ha t ht) hk
  · exact fun t ht => h.ram_write (ha t ht)

/-- A run that never leaves the memory. -/
theorem Reached.slave (h0 : (r.state 0).cpu.bus.cyc = false) (ha : ∀ t, AsksRam r t) :
    Slave (ramDevice g) (cpuRun r) (contentsAt r) := by
  constructor
  · exact fun t hk => (h.slaveUntil h0 (T := t + 1) fun k _ => ha k).ack_cyc t (by omega) hk
  · intro t hc _
    obtain ⟨n, hn, hack, -⟩ := h.ram_answers h0 hc (ha t)
    exact ⟨n, hn, hack⟩
  · exact fun t hk _ => h.ram_read (ha t) hk
  · exact fun t => h.ram_write (ha t)

end slave

/-! ## The run -/

def inRam (a : Rv32.Word) : Bool := periphSelect a == wbAccessRam

/-- The processor's run up to clock `T`, on an ideal memory from there on. -/
def detour (r : Run (State.step (g := g))) (T : ℕ) : Run (Cpu.State.step cpuResetAddr) :=
  (cpuRun r).splice T (benchRun (ramDevice g) (fun _ => true) Refinement.quietInputs cpuResetAddr
    (r.state T).cpu (contentsAt r T)) rfl

def detourMem (r : Run (State.step (g := g))) (T : ℕ) : ℕ → Contents g :=
  spliced T (contentsAt r) (benchMem (ramDevice g) (fun _ => true) Refinement.quietInputs
    cpuResetAddr (r.state T).cpu (contentsAt r T))

theorem detour_state {T k : ℕ} (hk : k ≤ T) : (detour r T).state k = (cpuRun r).state k :=
  spliced_of_le rfl hk

theorem detour_input {T k : ℕ} (hk : k < T) : (detour r T).input k = (cpuRun r).input k :=
  spliced_of_lt _ _ hk

theorem detourMem_eq {T k : ℕ} (hk : k ≤ T) : detourMem r T k = contentsAt r k :=
  spliced_of_le rfl hk

/-- What all inputs of both runs have, the detour has. -/
theorem detour_inputs {P : Cpu.Inputs → Prop} {T : ℕ} (h₁ : ∀ t, P ((cpuRun r).input t))
    (h₂ : ∀ ack dat, P { Refinement.quietInputs with ack := ack, dat := dat }) (t : ℕ) :
    P ((detour r T).input t) := by
  rcases Nat.lt_or_ge t T with ht | ht
  · rw [detour_input ht]
    exact h₁ t
  · obtain ⟨n, rfl⟩ := Nat.exists_eq_add_of_le ht
    rw [show (detour r T).input (T + n) = _ from spliced_add T n _ _]
    exact h₂ _ _

section reached
variable (h : Reached r) (hstep : ∀ t, (r.input t).extCpuSinglestep = false)
  (hpre : (r.state 0).cpu.state = .preFetch)
include h

theorem Reached.running : Running (cpuRun r) := ⟨h.cpuRst, h.halt⟩

theorem Reached.detour_running (T : ℕ) : Running (detour r T) :=
  ⟨detour_inputs (P := fun i => i.rst = false) h.cpuRst fun _ _ => rfl,
    detour_inputs (P := fun i => i.externalHalt = false) h.halt fun _ _ => rfl⟩

include hpre

theorem Reached.bus_free : (r.state 0).cpu.bus.cyc = false :=
  (h.coherent 0).cyc.trans ((h.coherent 0).bus_free (by rw [hpre]; rfl))

theorem Reached.detour_slave {T : ℕ} (ha : ∀ t < T, AsksRam r t) :
    Slave (ramDevice g) (detour r T) (detourMem r T) :=
  (h.slaveUntil (h.bus_free hpre) ha).splice
    (benchRun_slave _ _ _ (fun t => ⟨t, le_rfl, rfl⟩) _ _) rfl rfl

theorem Reached.detour_flow {T : ℕ} (ha : ∀ t < T, AsksRam r t) (t : ℕ) :
    Flow ((detour r T).state t) := by
  refine Running.flow ((h.detour_slave hpre ha).undisturbed (h.detour_running T)) ?_ t
  rw [detour_state (Nat.zero_le T)]
  exact (h.wired 0).flow

end reached

/-- Either all requests of a run go to the memory or there is a first one that does not. -/
theorem asksRam_cases (r : Run (State.step (g := g))) :
    (∀ t, AsksRam r t) ∨ ∃ T, (∀ t < T, AsksRam r t) ∧ StraysAt inRam (detour r T) T := by
  classical
  by_cases hall : ∀ t, AsksRam r t
  · exact Or.inl hall
  · right
    have hex : ∃ t, ¬ AsksRam r t := by simpa using hall
    refine ⟨Nat.find hex, fun t ht => not_not.mp (Nat.find_min hex ht), ?_⟩
    obtain ⟨hc, hacc⟩ := Classical.not_imp.mp (Nat.find_spec hex)
    rw [StraysAt, detour_state le_rfl]
    exact ⟨hc, Bool.eq_false_iff.mpr hacc⟩

/-- What is left of a reached run. -/
theorem Reached.drop (h : Reached r) (k : ℕ) : Reached (r.drop k) := by
  obtain ⟨⟨r₀, t, hp, ht, rfl⟩, hc, hr⟩ := h
  refine ⟨⟨r₀, t + k, hp, by omega, ?_⟩, fun n => hc (k + n), fun n => hr (k + n)⟩
  simp only [Run.drop, Nat.add_assoc]

/-- `sw x1, 24(x0)`, `lui x2, 0x8000`, `sw x1, 0(x2)`: the third instruction is for the
serial port. -/
def printing : Run (State.step (g := 1)) :=
  (booted (fun k => if k = 1#5 then 7#32 else 0#32) (fun _ => 0#32)
    [0x00102c23#32, 0x08000137#32, 0x00112023#32] fun _ => 0#4).drop 1

end TagSoc.Soc
