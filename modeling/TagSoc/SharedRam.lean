import TagSoc.TaggedArrays
import TagSoc.Soc

/-!
# Two masters on one memory

The bus interfaces of the processor (`wb_cpu_bus.v`) and of the external port
(`wb_ext.v`) in front of `wb_ram.v`, with the selector between them and free
inputs on the far sides. If the masters take turns, each request stays on the
lines until its acknowledge, and the memory does with the sequence of requests
what two plain arrays would do.
-/
namespace TagSoc.SharedRam
open Clocked WbRam TaggedArrays CpuBus

variable {g : ℕ}

/-! ## The system -/

structure State (g : ℕ) where
  cpu : CpuBus.State
  ext : WbExt.State
  ram : WbRam.State g

structure Inputs where
  en : Bool
  op : BusOp
  addr : Word
  data : Word
  tranStart : Bool
  tranSize : BitVec 2
  tranWe : Bool
  tranClearReady : Bool
  tranAddr : Word
  tranData : Word
  busMaster : Bool
  checkTags : Bool
  clearMismatch : Bool
deriving Repr, DecidableEq

namespace State

def master (s : State g) (i : Inputs) : Soc.Master :=
  if i.busMaster then
    { addr := i.tranAddr, data := i.tranData, we := s.ext.wbWe, sel := s.ext.dataSel
      stb := s.ext.tranStarted, cyc := s.ext.tranStarted }
  else
    { addr := s.cpu.adr, data := s.cpu.dat, we := s.cpu.we, sel := s.cpu.sel
      stb := s.cpu.stb, cyc := s.cpu.cyc }

def ramIn (s : State g) (i : Inputs) : WbRam.Inputs :=
  let m := s.master i
  { rst := false, addr := m.addr, data := m.data, sel := m.sel, we := m.we, cyc := m.cyc
    stb := m.stb, checkTags := i.checkTags, clearMismatch := i.clearMismatch }

/-- The answer goes to both masters. -/
def step (s : State g) (i : Inputs) : State g where
  cpu := s.cpu.step
    { en := i.en, op := i.op, addr := i.addr, data := i.data, ack := s.ram.ack
      dat := s.ram.dataOut (s.ramIn i) }
  ext := s.ext.step
    { rst := false, tranSize := i.tranSize, tranWe := i.tranWe, tranStart := i.tranStart
      tranClearReady := i.tranClearReady, ack := s.ram.ack, wbData := s.ram.dataOut (s.ramIn i) }
  ram := s.ram.step (s.ramIn i)

/-- A request is outstanding. -/
def busy (s : State g) : Bool := s.cpu.busy || s.ext.tranStarted

/-- The request on the lines. -/
def request (s : State g) (i : Inputs) : Request :=
  let m := s.master i
  ⟨Size.ofSel m.sel, m.we, m.addr, m.data⟩

def memory (s : State g) : Memory g := TaggedArrays.memory s.ram.contents

end State

/-- The masters take turns. Each starts when nothing is outstanding, the selector
points to the one that has a request, the external lines are held, and addresses
are naturally aligned. -/
structure Orderly (r : Run (State.step (g := g))) : Prop where
  cpu : ∀ t, (r.input t).en = true → (r.state t).busy = false ∧ (r.input t).tranStart = false
  ext : ∀ t, (r.input t).tranStart = true → (r.state t).cpu.busy = false
  selCpu : ∀ t, (r.state t).cpu.busy = true → (r.input t).busMaster = false
  selExt : ∀ t, (r.state t).ext.tranStarted = true → (r.input t).busMaster = true
  held : ∀ t, (r.state t).ext.tranStarted = true → (r.state t).ram.ack = false →
    (r.input (t + 1)).tranAddr = (r.input t).tranAddr ∧
      (r.input (t + 1)).tranData = (r.input t).tranData
  aligned : ∀ t, (r.state t).busy = true → ((r.state t).request (r.input t)).Aligned

/-- Nothing is going on. -/
structure AtRest (s : State g) : Prop where
  cyc : s.cpu.cyc = s.cpu.busy
  stb : s.cpu.stb = s.cpu.busy
  cpu : s.cpu.busy = false
  ext : s.ext.tranStarted = false
  state : s.ram.state = .idle
  ack : s.ram.ack = false
  ramWe : s.ram.ramWeR = false
  tagWe : s.ram.tagWeR = false

/-! ## The masters -/

/-- The select lines of a request are one of the four patterns. -/
structure Patterns (s : State g) : Prop where
  cyc : s.cpu.cyc = s.cpu.busy
  stb : s.cpu.stb = s.cpu.busy
  cpu : s.cpu.busy = true → ∃ z : Size, s.cpu.sel = z.sel
  ext : s.ext.tranStarted = true → ∃ z : Size, s.ext.dataSel = z.sel

theorem memSel_size (op : BusOp) : ∃ z : Size, op.memSel = z.sel := by
  cases op
  case readb | readbu | writeb => exact ⟨.byte, rfl⟩
  case readh | readhu | writeh => exact ⟨.half, rfl⟩
  case readw | writew => exact ⟨.word, rfl⟩
  case readt | writet => exact ⟨.tag, rfl⟩

theorem tranSel_size (k : BitVec 2) : ∃ z : Size, WbExt.tranSel k = z.sel := by
  unfold WbExt.tranSel
  split_ifs
  · exact ⟨.byte, rfl⟩
  · exact ⟨.half, rfl⟩
  · exact ⟨.word, rfl⟩

theorem Patterns.step {s : State g} {i : Inputs} (h : Patterns s) : Patterns (s.step i) := by
  have hcyc := h.cyc
  have hstb := h.stb
  constructor
  case cyc =>
    by_cases ha : s.ram.ack = true <;> by_cases he : i.en = true <;>
      simp [State.step, CpuBus.State.step, ha, he, hcyc]
  case stb =>
    by_cases ha : s.ram.ack = true <;> by_cases he : i.en = true <;>
      simp [State.step, CpuBus.State.step, ha, he, hstb]
  case cpu =>
    intro hb
    by_cases ha : s.ram.ack = true
    · simp [State.step, CpuBus.State.step, ha] at hb
    · by_cases he : i.en = true
      · simpa [State.step, CpuBus.State.step, ha, he] using memSel_size i.op
      · have hb : s.cpu.busy = true := by
          simpa [State.step, CpuBus.State.step, ha, he] using hb
        simpa [State.step, CpuBus.State.step, ha, he] using h.cpu hb
  case ext =>
    intro hb
    by_cases hs : (i.tranStart && !s.ext.tranStarted) = true
    · simpa [State.step, WbExt.State.step, hs] using tranSel_size i.tranSize
    · have hb : s.ext.tranStarted = true := by
        rw [Bool.not_eq_true] at hs
        by_contra hno
        simp [State.step, WbExt.State.step, hs, hno] at hb
      simpa [State.step, WbExt.State.step, hb] using h.ext hb

section run
variable {r : Run (State.step (g := g))} (ho : Orderly r)
include ho

omit ho in
theorem patterns (h0 : AtRest (r.state 0)) (t : ℕ) : Patterns (r.state t) :=
  r.invariant (P := Patterns)
    ⟨h0.cyc, h0.stb, fun h => by simp [h0.cpu] at h, fun h => by simp [h0.ext] at h⟩
    (fun _ _ h => h.step) t (Nat.zero_le t)

/-- At any time one master has a request at most, and the selector points to it. -/
theorem busy_cases {t : ℕ} (hb : (r.state t).busy = true) :
    ((r.state t).cpu.busy = true ∧ (r.state t).ext.tranStarted = false ∧
        (r.input t).busMaster = false) ∨
      ((r.state t).ext.tranStarted = true ∧ (r.state t).cpu.busy = false ∧
        (r.input t).busMaster = true) := by
  cases hc : (r.state t).cpu.busy with
  | true =>
      have hm := ho.selCpu t hc
      refine Or.inl ⟨rfl, Bool.eq_false_iff.mpr fun he => ?_, hm⟩
      rw [ho.selExt t he] at hm
      exact absurd hm (by decide)
  | false =>
      have he : (r.state t).ext.tranStarted = true := by simpa [State.busy, hc] using hb
      exact Or.inr ⟨he, rfl, ho.selExt t he⟩

/-- The lines are those of a request exactly while one is outstanding. -/
theorem requests_eq {t : ℕ} (hp : Patterns (r.state t)) :
    ((r.state t).ramIn (r.input t)).requests = (r.state t).busy ∧
      ((r.state t).busy = true →
        ((r.state t).request (r.input t)).size.sel = ((r.state t).ramIn (r.input t)).sel) := by
  have hvalid : ∀ z : Size, ∀ i : WbRam.Inputs, i.cyc = true → i.stb = true → i.sel = z.sel →
      i.requests = true := by
    intro z i hc hs hz
    cases z <;>
      simp [WbRam.Inputs.requests, WbRam.Inputs.ramAccessed, WbRam.Inputs.tagAccessed,
        WbRam.Inputs.accessLoadStore, WbRam.Inputs.accessByte, WbRam.Inputs.accessHalf,
        WbRam.Inputs.accessWord, WbRam.Inputs.accessTag, hc, hs, hz, Size.sel]
  cases hb : (r.state t).busy with
  | false =>
      obtain ⟨hc, he⟩ : (r.state t).cpu.busy = false ∧ (r.state t).ext.tranStarted = false := by
        simpa [State.busy] using hb
      refine ⟨?_, fun h => absurd h Bool.false_ne_true⟩
      cases hm : (r.input t).busMaster <;>
        simp [WbRam.Inputs.requests, WbRam.Inputs.ramAccessed, WbRam.Inputs.tagAccessed,
          State.ramIn, State.master, hm, he, hp.cyc, hc]
  | true =>
      rcases busy_cases ho hb with ⟨hc, -, hm⟩ | ⟨he, -, hm⟩
      · obtain ⟨z, hz⟩ := hp.cpu hc
        refine ⟨hvalid z _ ?_ ?_ ?_, fun _ => ?_⟩ <;>
          simp [State.ramIn, State.master, State.request, hm, hp.cyc, hp.stb, hc, hz]
      · obtain ⟨z, hz⟩ := hp.ext he
        refine ⟨hvalid z _ ?_ ?_ ?_, fun _ => ?_⟩ <;>
          simp [State.ramIn, State.master, State.request, hm, he, hz]

/-- A request that is not acknowledged is still there in the next clock. -/
theorem held_step {t : ℕ} (hb : (r.state t).busy = true) (ha : (r.state t).ram.ack = false) :
    (r.state (t + 1)).busy = true ∧
      ((r.state (t + 1)).ramIn (r.input (t + 1))).lines =
        ((r.state t).ramIn (r.input t)).lines ∧
      (r.state (t + 1)).request (r.input (t + 1)) = (r.state t).request (r.input t) := by
  have hen : (r.input t).en = false := Bool.eq_false_iff.mpr fun he => by
    simp [(ho.cpu t he).1] at hb
  rcases busy_cases ho hb with ⟨hc, he, hm⟩ | ⟨he, hc, hm⟩
  · have hcpu : (r.state (t + 1)).cpu = (r.state t).cpu := by
      rw [r.next]
      simp [State.step, hen, ha]
    have hb' : (r.state (t + 1)).busy = true := by simp [State.busy, hcpu, hc]
    have hm' := ho.selCpu (t + 1) (by rw [hcpu]; exact hc)
    simp [hb', State.ramIn, State.request, State.master, hm, hm', hcpu, WbRam.Inputs.lines]
  · have hext : (r.state (t + 1)).ext.tranStarted = true ∧
        (r.state (t + 1)).ext.dataSel = (r.state t).ext.dataSel ∧
        (r.state (t + 1)).ext.wbWe = (r.state t).ext.wbWe := by
      rw [r.next]
      simp [State.step, WbExt.State.step, he, ha]
    have hb' : (r.state (t + 1)).busy = true := by simp [State.busy, hext]
    have hm' := ho.selExt (t + 1) hext.1
    simp [hb', State.ramIn, State.request, State.master, hm, hm', hext, he, ho.held t he ha,
      WbRam.Inputs.lines]

theorem held_run {t n : ℕ} (hb : (r.state t).busy = true)
    (hno : ∀ k, t ≤ k → k < n → (r.state k).ram.ack = false) (k : ℕ) (hk : t ≤ k) (hkn : k ≤ n) :
    (r.state k).busy = true ∧
      (r.state k).request (r.input k) = (r.state t).request (r.input t) := by
  induction k, hk using Nat.le_induction with
  | base => exact ⟨hb, rfl⟩
  | succ k hk ih =>
      obtain ⟨hb', hreq⟩ := ih (by omega)
      obtain ⟨hb'', -, hreq'⟩ := held_step ho hb' (hno k hk (by omega))
      exact ⟨hb'', hreq'.trans hreq⟩

/-- An acknowledged one is gone. -/
theorem done_step {t : ℕ} (hb : (r.state t).busy = true) (ha : (r.state t).ram.ack = true) :
    (r.state (t + 1)).busy = false := by
  have hen : (r.input t).en = false := Bool.eq_false_iff.mpr fun he => by
    simp [(ho.cpu t he).1] at hb
  rw [r.next, State.busy]
  rcases busy_cases ho hb with ⟨hc, he, -⟩ | ⟨he, hc, -⟩
  · have hst : (r.input t).tranStart = false := Bool.eq_false_iff.mpr fun hst => by
      simp [ho.ext t hst] at hc
    simp [State.step, WbExt.State.step, CpuBus.State.accept, hen, ha, he, hst]
  · simp [State.step, WbExt.State.step, CpuBus.State.accept, hen, ha, he]

end run

/-! ## The memory -/

/-- The memory's share of a run. -/
def ramRun (r : Run (State.step (g := g))) : Run (WbRam.State.step (g := g)) where
  state t := (r.state t).ram
  input t := (r.state t).ramIn (r.input t)
  next t := by rw [r.next]; rfl

/-- The requests acknowledged before clock `t`, in their order. -/
def log (r : Run (State.step (g := g))) : ℕ → List Request
  | 0 => []
  | t + 1 =>
      if (r.state t).ram.ack then log r t ++ [(r.state t).request (r.input t)] else log r t

/-- The memory does with the requests what two arrays would do. -/
structure Refines (r : Run (State.step (g := g))) : Prop where
  /-- The contents are those after the acknowledged requests, each taken once. -/
  contents : ∀ t, (r.state t).memory = (log r t).foldl Memory.after (r.state 0).memory
  /-- A request is on the lines in the clock of an acknowledge, and gone after it. -/
  acked : ∀ t, (r.state t).ram.ack = true →
    (r.state t).busy = true ∧ (r.state (t + 1)).busy = false
  /-- Every request is acknowledged, as it was made. -/
  answered : ∀ t, (r.state t).busy = true → ∃ n, t ≤ n ∧ n ≤ t + 2 ∧
    (r.state n).ram.ack = true ∧ ∀ k, t ≤ k → k < n → (r.state k).ram.ack = false ∧
      (r.state (k + 1)).busy = true ∧
      (r.state (k + 1)).request (r.input (k + 1)) = (r.state t).request (r.input t)
  /-- A request made by either master appears on the lines. -/
  issuedCpu : ∀ t, (r.input t).en = true → (r.state (t + 1)).busy = true ∧
    (r.state (t + 1)).request (r.input (t + 1)) =
      ⟨Size.ofSel (r.input t).op.memSel, (r.input t).op.write, (r.input t).addr, (r.input t).data⟩
  issuedExt : ∀ t, (r.input t).tranStart = true → (r.state t).busy = false →
    (r.state (t + 1)).busy = true ∧
    (r.state (t + 1)).request (r.input (t + 1)) =
      ⟨Size.ofSel (WbExt.tranSel (r.input t).tranSize), (r.input t).tranWe,
        (r.input (t + 1)).tranAddr, (r.input (t + 1)).tranData⟩
  /-- The master that reads gets the word of the arrays. -/
  readCpu : ∀ t, (r.state t).ram.ack = true → (r.state t).cpu.busy = true →
    (r.state t).cpu.we = false →
    (r.state (t + 1)).cpu.buffer = dataFromBus (r.state t).cpu.sel (r.state t).cpu.op.signextend
      ((r.state t).memory.read ((r.state t).request (r.input t)))
  readExt : ∀ t, (r.state t).ram.ack = true → (r.state t).ext.tranStarted = true →
    (r.state t).ext.wbWe = false →
    (r.state (t + 1)).ext.data = (r.state t).memory.read ((r.state t).request (r.input t))

section refines
variable {r : Run (State.step (g := g))} (ho : Orderly r) (h0 : AtRest (r.state 0))
include ho h0

theorem ramRun_serving (t : ℕ) :
    Held (ramRun r) ∧ Serving (r.state t).ram ((r.state t).ramIn (r.input t)) := by
  have hheld : Held (ramRun r) := by
    intro k _ hreq ha
    refine (held_step ho ?_ ha).2.1
    rw [← (requests_eq ho (patterns h0 k)).1]
    exact hreq
  refine ⟨hheld, hheld.serving (serving_of_quiet ?_ h0.ack h0.ramWe h0.tagWe) t⟩
  have hst : ((ramRun r).state 0).state = .idle := h0.state
  rw [hst]
  decide

theorem busy_of_ack {t : ℕ} (ha : (r.state t).ram.ack = true) : (r.state t).busy = true :=
  (requests_eq ho (patterns h0 t)).1.symm.trans ((ramRun_serving ho h0 t).2.request ha)

theorem no_ack_of_free {t : ℕ} (hb : (r.state t).busy = false) : (r.state t).ram.ack = false :=
  Bool.eq_false_iff.mpr fun ha => by simp [busy_of_ack ho h0 ha] at hb

/-- One clock of the memory. -/
theorem memory_step (t : ℕ) :
    (r.state (t + 1)).memory =
      if (r.state t).ram.ack = true then
        (r.state t).memory.after ((r.state t).request (r.input t))
      else (r.state t).memory := by
  obtain ⟨-, hs⟩ := ramRun_serving ho h0 t
  have hstep : (r.state (t + 1)).ram.contents = _ :=
    (congrArg (fun s => s.ram.contents) (r.next t)).trans hs.contents_step
  rw [State.memory, hstep]
  by_cases ha : (r.state t).ram.ack = true
  · have hsel := (requests_eq ho (patterns h0 t)).2
    have hb := busy_of_ack ho h0 ha
    have hal := ho.aligned t hb
    by_cases hw : ((r.state t).ramIn (r.input t)).we = true
    · have hw' : ((r.state t).request (r.input t)).we = true := hw
      rw [if_pos ⟨ha, hw⟩, if_pos ha, Memory.after, if_pos hw', ← hsel hb]
      exact memory_write _ hal
    · have hw' : ¬ ((r.state t).request (r.input t)).we = true := hw
      rw [if_neg fun h => hw h.2, if_pos ha, Memory.after, if_neg hw']
      rfl
  · rw [if_neg fun h => ha h.1, if_neg ha]
    rfl

/-- What stands on the data lines in the clock of an acknowledge. -/
theorem memory_dataOut {t : ℕ} (ha : (r.state t).ram.ack = true) :
    (r.state t).ram.dataOut ((r.state t).ramIn (r.input t)) =
      (r.state t).memory.read ((r.state t).request (r.input t)) := by
  obtain ⟨-, hs⟩ := ramRun_serving ho h0 t
  have hb := busy_of_ack ho h0 ha
  rw [hs.dataOut ha, ← (requests_eq ho (patterns h0 t)).2 hb]
  exact memory_read _ (ho.aligned t hb)

end refines

/-- For every size of the memory, every contents and every orderly sequence of
requests, the memory behaves as an array of bytes and an array of tags. -/
theorem shared_ram_refines_arrays {r : Run (State.step (g := g))} (ho : Orderly r)
    (h0 : AtRest (r.state 0)) : Refines r := by
  constructor
  case contents =>
    intro t
    induction t with
    | zero => rfl
    | succ t ih =>
        rw [memory_step ho h0 t, ih, log]
        split_ifs
        · rw [List.foldl_append]
          rfl
        · rfl
  case acked =>
    intro t ha
    have hb := busy_of_ack ho h0 ha
    exact ⟨hb, done_step ho hb ha⟩
  case answered =>
    intro t hb
    have hreq := (requests_eq ho (patterns h0 t)).1.trans hb
    obtain ⟨hheld, -⟩ := ramRun_serving ho h0 0
    obtain ⟨n, htn, hn, ha, hbefore⟩ :=
      hheld.answers (ramRun_serving ho h0 0).2 (fun _ _ => rfl) hreq
    refine ⟨n, htn, hn, ha, fun k hk hkn => ⟨(hbefore k hk hkn).1, ?_⟩⟩
    exact held_run ho hb (fun j hj hjn => (hbefore j hj hjn).1) (k + 1) (by omega) (by omega)
  case issuedCpu =>
    intro t he
    have ha := no_ack_of_free ho h0 (ho.cpu t he).1
    have hcpu : (r.state (t + 1)).cpu =
        (r.state t).cpu.request (r.input t).op (r.input t).addr (r.input t).data := by
      rw [r.next]
      simp [State.step, he, ha]
    have hm := ho.selCpu (t + 1) (by rw [hcpu]; rfl)
    simp [State.busy, State.request, State.master, hm, hcpu, CpuBus.State.request]
  case issuedExt =>
    intro t hst hb
    have ha := no_ack_of_free ho h0 hb
    obtain ⟨-, hidle⟩ : (r.state t).cpu.busy = false ∧ (r.state t).ext.tranStarted = false := by
      simpa [State.busy] using hb
    have hext : (r.state (t + 1)).ext.tranStarted = true ∧
        (r.state (t + 1)).ext.dataSel = WbExt.tranSel (r.input t).tranSize ∧
        (r.state (t + 1)).ext.wbWe = (r.input t).tranWe := by
      rw [r.next]
      simp [State.step, WbExt.State.step, hst, hidle]
    have hm := ho.selExt (t + 1) hext.1
    simp [State.busy, State.request, State.master, hm, hext]
  case readCpu =>
    intro t ha hb hw
    rw [r.next, ← memory_dataOut ho h0 ha]
    simp [State.step, CpuBus.State.step, ha]
  case readExt =>
    intro t ha hb hw
    rw [r.next, ← memory_dataOut ho h0 ha]
    simp [State.step, WbExt.State.step, ha, hb, hw]

/-- The processor stores the byte `0xAB` at address 4, then the external port
reads the halfword there. -/
def twoRequests : Run (State.step (g := 0)) :=
  Run.closed _
    (fun t _ =>
      { en := t == 0, op := .writeb, addr := 4#32, data := 0xAB#32
        tranStart := t == 6, tranSize := 1#2, tranWe := false, tranClearReady := false
        tranAddr := 4#32, tranData := 0#32, busMaster := decide (5 ≤ t)
        checkTags := false, clearMismatch := false })
    { cpu := ⟨.readw, 0#32, false, 0#32, 0#32, 0#4, false, false, false⟩
      ext := ⟨false, false, 0#32, 0#4, false⟩
      ram := ⟨.idle, false, false, false, false, false, ⟨fun _ => 0#32, 0#32⟩, ⟨fun _ => 0#4, 0#4⟩⟩ }

theorem twoRequests_cpu_free {t : ℕ} (ht : 5 ≤ t) : (twoRequests.state t).cpu.busy = false := by
  refine twoRequests.invariant (P := fun s => s.cpu.busy = false) (t := 5) (by decide) ?_ t ht
  intro n hn hb
  have hen : (twoRequests.input n).en = false := by
    simp [twoRequests, Run.closed]
    omega
  simp [State.step, CpuBus.State.step, hen, hb]

theorem twoRequests_orderly : Orderly twoRequests where
  cpu t he := by
    obtain rfl : t = 0 := by simpa [twoRequests, Run.closed] using he
    decide
  ext t hs := by
    obtain rfl : t = 6 := by simpa [twoRequests, Run.closed] using hs
    decide
  selCpu t hb := by
    refine decide_eq_false fun ht => ?_
    rw [twoRequests_cpu_free ht] at hb
    exact absurd hb Bool.false_ne_true
  selExt t hb := by
    refine decide_eq_true (Nat.le_of_not_lt fun ht => ?_)
    interval_cases t <;> exact absurd hb (by decide)
  held _ _ _ := ⟨rfl, rfl⟩
  aligned t _ := by
    have haddr : (((twoRequests.state t).request (twoRequests.input t)).addr).toNat % 4 = 0 := by
      rcases Nat.lt_or_ge t 5 with ht | ht
      · interval_cases t <;> decide
      · simp [State.request, State.master, twoRequests, Run.closed, ht]
    unfold Request.Aligned
    split <;> first | trivial | omega

theorem twoRequests_atRest : AtRest (twoRequests.state 0) := ⟨rfl, rfl, rfl, rfl, rfl, rfl, rfl, rfl⟩

theorem shared_ram_byte_then_half :
    Refines twoRequests ∧
      log twoRequests 9 = [⟨.byte, true, 4#32, 0xAB#32⟩, ⟨.half, false, 4#32, 0#32⟩] ∧
      (twoRequests.state 9).ext.data = 0xAB#32 :=
  ⟨shared_ram_refines_arrays twoRequests_orderly twoRequests_atRest, by decide, by decide⟩

end TagSoc.SharedRam
