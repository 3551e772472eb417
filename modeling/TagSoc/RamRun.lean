import TagSoc.WbRam
import TagSoc.Clocked
import TagSoc.Datapath

/-!
# The tagged memory as a slave

`wb_ram.v` works on the live bus lines: the word it answers with was read in
the clock before, and a write takes effect one clock after it was decided, with
the lines of that later clock. Both are right because the masters hold a
request until its acknowledge. `Serving` is the invariant that ties the three
states, the two write-enable registers and the held lines together; under it
the memory is the device `ramDevice`, whatever the masters do between requests.
-/
namespace TagSoc.WbRam
open Clocked Datapath

variable {g : ℕ}

/-! ## Contents -/

structure Contents (g : ℕ) where
  words : BitVec (g + 2) → BitVec 32
  tags : BitVec g → BitVec 4

def State.contents (s : State g) : Contents g := ⟨s.ram.mem, s.tag.mem⟩

namespace Contents

def read (c : Contents g) (sel : BitVec 4) (addr : BitVec 32) : BitVec 32 :=
  if sel = wbSelByte then 0#24 ++ finalByte addr (c.words (wordAddr g addr))
  else if sel = wbSelHalf then 0#16 ++ finalHalf addr (c.words (wordAddr g addr))
  else if sel = wbSelWord then c.words (wordAddr g addr)
  else if sel = wbSelTag then 0#28 ++ c.tags (granuleAddr g addr)
  else 0#32

def write (c : Contents g) (sel : BitVec 4) (addr data : BitVec 32) : Contents g :=
  if sel = wbSelTag then
    { c with tags := Function.update c.tags (granuleAddr g addr) (data.extractLsb' 0 4) }
  else
    { c with
      words := Function.update c.words (wordAddr g addr)
        (dataToWrite sel addr data (c.words (wordAddr g addr))) }

end Contents

def ramDevice (g : ℕ) : Device (Contents g) := ⟨Contents.read, Contents.write⟩

/-! ## Requests -/

namespace Inputs

/-- A request with one of the four select patterns. -/
def requests (i : Inputs) : Bool := i.ramAccessed || i.tagAccessed

/-- What a master drives. -/
def lines (i : Inputs) : BitVec 32 × BitVec 32 × BitVec 4 × Bool × Bool × Bool :=
  (i.addr, i.data, i.sel, i.we, i.cyc, i.stb)

/-- The two kinds of request exclude each other. -/
theorem sel_of_tagAccessed {i : Inputs} (h : i.tagAccessed = true) :
    i.sel = wbSelTag ∧ i.ramAccessed = false := by
  obtain ⟨-, hsel⟩ : (i.cyc = true ∧ i.stb = true) ∧ i.sel = wbSelTag := by
    simpa [tagAccessed, accessTag] using h
  refine ⟨hsel, ?_⟩
  simp [ramAccessed, accessLoadStore, accessByte, accessHalf, accessWord, hsel, wbSelTag,
    wbSelByte, wbSelHalf, wbSelWord]

theorem sel_of_ramAccessed {i : Inputs} (h : i.ramAccessed = true) :
    i.sel ≠ wbSelTag ∧ i.tagAccessed = false := by
  have hne : i.sel ≠ wbSelTag := by
    intro hsel
    simp [ramAccessed, accessLoadStore, accessByte, accessHalf, accessWord, hsel, wbSelTag,
      wbSelByte, wbSelHalf, wbSelWord] at h
  exact ⟨hne, by simp [tagAccessed, accessTag, hne]⟩

section lines
variable {i j : Inputs} (h : j.lines = i.lines)
include h

theorem fields_of_lines :
    j.addr = i.addr ∧ j.data = i.data ∧ j.sel = i.sel ∧ j.we = i.we ∧ j.cyc = i.cyc ∧
      j.stb = i.stb := by
  simpa [lines] using h

theorem accessed_of_lines :
    j.ramAccessed = i.ramAccessed ∧ j.tagAccessed = i.tagAccessed ∧ j.requests = i.requests := by
  obtain ⟨-, -, hsel, -, hcyc, hstb⟩ := fields_of_lines h
  simp [requests, ramAccessed, tagAccessed, accessLoadStore, accessByte, accessHalf, accessWord,
    accessTag, hsel, hcyc, hstb]

end lines

end Inputs

/-! ## The invariant -/

/-- The memory in the middle of its work. An acknowledge is raised for a request
that is still on the lines; the write enables are those of that request, and the
read ports show its word and its tag. -/
structure Serving (s : State g) (i : Inputs) : Prop where
  used : s.state ≠ .writeTag
  idle : s.state = .idle → s.ack = false
  writing : s.state = .writeWord → s.ack = true
  request : s.ack = true → i.requests = true
  ramWe : s.ramWeR = (s.ack && i.ramAccessed && i.we)
  tagWe : s.tagWeR = (s.ack && i.tagAccessed && i.we)
  port : s.ack = true → s.ram.dataOut = s.ram.mem (wordAddr g i.addr) ∧
    s.tag.dataOut = s.tag.mem (granuleAddr g i.addr)

section step
variable {s : State g} {i j : Inputs}

/-- Nothing to acknowledge. -/
theorem serving_of_quiet (hs : s.state ≠ .writeTag ∧ s.state ≠ .writeWord) (ha : s.ack = false)
    (hr : s.ramWeR = false) (ht : s.tagWeR = false) : Serving s j where
  used := hs.1
  idle _ := ha
  writing h := absurd h hs.2
  request h := by simp [ha] at h
  ramWe := by simp [ha, hr]
  tagWe := by simp [ha, ht]
  port h := by simp [ha] at h

/-- A request that is seen in the idle state is answered in the next clock. -/
theorem step_idle_request (hr : i.rst = false) (hs : s.state = .idle) (hi : i.requests = true) :
    (s.step i).ack = true ∧ (s.step i).state ≠ .idle ∧ (s.step i).state ≠ .writeTag ∧
      (s.step i).ramWeR = (i.ramAccessed && i.we) ∧ (s.step i).tagWeR = (i.tagAccessed && i.we) := by
  by_cases ht : i.tagAccessed = true
  · have hram := (Inputs.sel_of_tagAccessed ht).2
    simp [State.step, State.control, hr, hs, ht, hram]
  · have hram : i.ramAccessed = true := by
      simpa [Inputs.requests, ht] using hi
    by_cases hd : i.doneInOneTick = true <;>
      simp [State.step, State.control, hr, hs, ht, hram, hd]

/-- In every other situation the next clock raises no acknowledge. -/
theorem step_quiet (h : Serving s i) (hq : i.rst = true ∨ s.state ≠ .idle ∨ i.requests = false) :
    (s.step i).ack = false ∧ (s.step i).ramWeR = false ∧ (s.step i).tagWeR = false ∧
      (s.step i).state ≠ .writeTag ∧ (s.step i).state ≠ .writeWord := by
  by_cases hr : i.rst = true
  · simp [State.step, hr]
  · have hused := h.used
    cases hs : s.state with
    | idle =>
        have hno : i.tagAccessed = false ∧ i.ramAccessed = false := by
          simpa [hr, hs, Inputs.requests, and_comm] using hq
        simp [State.step, State.control, hr, hs, hno]
    | writeWord => simp [State.step, State.control, hr, hs]
    | stop => simp [State.step, State.control, hr, hs]
    | writeTag => exact absurd hs hused

/-! What each state leads to, in a clock without a reset. -/

section next
variable (hr : i.rst = false)
include hr

theorem step_irq : (s.step i).irq = (!i.clearMismatch && (s.tagMismatch || s.irq)) := by
  cases hc : i.clearMismatch <;> simp [State.step, hr, hc]

theorem step_of_request (hs : s.state = .idle) (hi : i.requests = true) :
    (s.step i).state = (if i.doneInOneTick || i.tagAccessed then .stop else .writeWord) ∧
      (s.step i).tagMismatch = false := by
  by_cases ht : i.tagAccessed = true
  · simp [State.step, State.control, hr, hs, ht]
  · have hram : i.ramAccessed = true := by
      simpa [Inputs.requests, ht] using hi
    simp [State.step, State.control, hr, hs, ht, hram]

theorem step_of_writeWord (hs : s.state = .writeWord) :
    (s.step i).state = .stop ∧ (s.step i).ack = false ∧ (s.step i).tagMismatch = false := by
  simp [State.step, State.control, hr, hs]

theorem step_of_stop (hs : s.state = .stop) :
    (s.step i).state = .idle ∧ (s.step i).ack = false ∧
      (s.step i).tagMismatch = (i.checkTags && addrTag i.addr != s.tag.dataOut) := by
  cases hc : i.checkTags <;> simp [State.step, State.control, hr, hs, hc]

end next

/-- The tag on the read port belongs to the address of the clock before. -/
theorem step_tag_dataOut :
    (s.step i).tag.dataOut = s.contents.tags (granuleAddr g i.addr) := rfl

/-! Where the states of the machine come from. -/

theorem Serving.of_step_writeWord (h : Serving s i) (hw : (s.step i).state = .writeWord) :
    s.state = .idle ∧ i.requests = true ∧ i.we = true := by
  have hused := h.used
  cases hr : i.rst <;> cases hs : s.state <;>
    simp_all [State.step, State.control, Inputs.requests, Inputs.doneInOneTick]
  split_ifs at hw with ht ha hd
  simp only [ha, true_or, true_and]
  cases hwe : i.we
  · exact absurd ⟨Or.inl hwe, Or.inl hwe⟩ hd
  · rfl

theorem Serving.of_step_stop (h : Serving s i) (hs : (s.step i).state = .stop)
    (ha : (s.step i).ack = false) : s.state = .writeWord := by
  have hused := h.used
  cases hr : i.rst <;> cases hst : s.state <;> simp_all [State.step, State.control]
  split_ifs at hs ha

theorem of_step_mismatch (hm : (s.step i).tagMismatch = true) :
    s.state = .stop ∧ i.checkTags = true := by
  cases hr : i.rst <;> cases hst : s.state <;> simp_all [State.step, State.control]
  all_goals split_ifs at hm

/-- One clock. Only a request that is about to be answered has to be held. -/
theorem Serving.step (h : Serving s i)
    (hold : i.rst = false → i.requests = true → s.ack = false → j.lines = i.lines) :
    Serving (s.step i) j := by
  by_cases hq : i.rst = true ∨ s.state ≠ .idle ∨ i.requests = false
  · obtain ⟨ha, hr, ht, hs, hs'⟩ := step_quiet h hq
    exact serving_of_quiet ⟨hs, hs'⟩ ha hr ht
  · simp only [not_or, Bool.not_eq_true, Bool.not_eq_false, not_not] at hq
    obtain ⟨hr, hs, hi⟩ := hq
    have ha := h.idle hs
    have hl := hold hr hi ha
    obtain ⟨hack, hne, hused, hram, htag⟩ := step_idle_request hr hs hi
    obtain ⟨haddr, -, -, hwe, -, -⟩ := Inputs.fields_of_lines hl
    obtain ⟨hra, hta, hreq⟩ := Inputs.accessed_of_lines hl
    constructor
    case used => exact hused
    case idle => exact fun hs' => absurd hs' hne
    case writing => exact fun _ => hack
    case request => exact fun _ => hreq.trans hi
    case ramWe => rw [hram, hack, hra, hwe, Bool.true_and]
    case tagWe => rw [htag, hack, hta, hwe, Bool.true_and]
    case port =>
      intro _
      have hw := h.ramWe
      have hw' := h.tagWe
      rw [ha, Bool.false_and, Bool.false_and] at hw hw'
      rw [haddr]
      simp [State.step, GenericRam.State.step, hw, hw']

/-! ## As a device -/

/-- The contents change in the clock of an acknowledged write and in no other. -/
theorem Serving.contents_step (h : Serving s i) :
    (s.step i).contents =
      if s.ack = true ∧ i.we = true then (ramDevice g).write s.contents i.sel i.addr i.data
      else s.contents := by
  have hlt : (wordAddr g i.addr).toNat < 2 ^ (g + 2) := (wordAddr g i.addr).isLt
  have hlt' : (granuleAddr g i.addr).toNat < 2 ^ g := (granuleAddr g i.addr).isLt
  by_cases hw : s.ack = true ∧ i.we = true
  · rw [if_pos hw]
    have hport := h.port hw.1
    by_cases ht : i.tagAccessed = true
    · obtain ⟨hsel, hram⟩ := Inputs.sel_of_tagAccessed ht
      simp [State.contents, State.step, GenericRam.State.step, h.ramWe, h.tagWe, hw, ht, hram, hlt',
        ramDevice, Contents.write, hsel]
    · have hram : i.ramAccessed = true := by
        simpa [Inputs.requests, ht] using h.request hw.1
      obtain ⟨hsel, -⟩ := Inputs.sel_of_ramAccessed hram
      simp [State.contents, State.step, GenericRam.State.step, h.ramWe, h.tagWe, hw, ht, hram, hlt,
        ramDevice, Contents.write, hsel, hport]
  · rw [if_neg hw]
    have hr : s.ramWeR = false := by
      rw [h.ramWe]
      cases ha : s.ack <;> simp_all
    have ht : s.tagWeR = false := by
      rw [h.tagWe]
      cases ha : s.ack <;> simp_all
    simp [State.contents, State.step, GenericRam.State.step, hr, ht]

/-- What is on the data lines in the clock of an acknowledge. -/
theorem Serving.dataOut (h : Serving s i) (ha : s.ack = true) :
    s.dataOut i = (ramDevice g).read s.contents i.sel i.addr := by
  have hi : (i.ramAccessed || i.tagAccessed) = true := h.request ha
  obtain ⟨hw, ht⟩ := h.port ha
  rw [State.dataOut, if_pos hi, hw, ht]
  rfl

end step

/-! ## Runs -/

/-- A request stays on the lines up to the clock of its acknowledge. -/
def Held (r : Run (State.step (g := g))) : Prop :=
  ∀ t, (r.input t).rst = false → (r.input t).requests = true → (r.state t).ack = false →
    (r.input (t + 1)).lines = (r.input t).lines

section run
variable {r : Run (State.step (g := g))} (hh : Held r)
include hh

theorem Held.serving (h0 : Serving (r.state 0) (r.input 0)) (t : ℕ) :
    Serving (r.state t) (r.input t) := by
  induction t with
  | zero => exact h0
  | succ t ih =>
      rw [r.next]
      exact ih.step (hh t)

/-- Every request is acknowledged, at the latest in the second clock after it
was first seen, and it is the same request then. -/
theorem Held.answers (h0 : Serving (r.state 0) (r.input 0)) {t : ℕ}
    (hr : ∀ k, t ≤ k → (r.input k).rst = false) (hi : (r.input t).requests = true) :
    ∃ n, t ≤ n ∧ n ≤ t + 2 ∧ (r.state n).ack = true ∧
      ∀ k, t ≤ k → k < n → (r.state k).ack = false ∧ (r.input (k + 1)).lines = (r.input t).lines := by
  have hs := hh.serving h0
  -- from the idle state the acknowledge comes in the next clock
  have hone : ∀ k, t ≤ k → (r.input k).requests = true → (r.state k).state = .idle →
      (r.state (k + 1)).ack = true := by
    intro k hk hreq hst
    rw [r.next]
    exact (step_idle_request (hr k hk) hst hreq).1
  by_cases ha : (r.state t).ack = true
  · exact ⟨t, le_rfl, by omega, ha, fun k hk hlt => by omega⟩
  · rw [Bool.not_eq_true] at ha
    have hl := hh t (hr t le_rfl) hi ha
    cases hst : (r.state t).state with
    | idle =>
        refine ⟨t + 1, by omega, by omega, hone t le_rfl hi hst, fun k hk hlt => ?_⟩
        obtain rfl : k = t := by omega
        exact ⟨ha, hl⟩
    | stop =>
        -- the memory is still busy with the tag check of the request before
        have hst' : (r.state (t + 1)).state = .idle := by
          rw [r.next]
          simp [State.step, State.control, hr t le_rfl, hst]
        have hi' : (r.input (t + 1)).requests = true :=
          (Inputs.accessed_of_lines hl).2.2.trans hi
        have ha' := (hs (t + 1)).idle hst'
        have hl' := hh (t + 1) (hr (t + 1) (by omega)) hi' ha'
        refine ⟨t + 2, by omega, by omega, hone (t + 1) (by omega) hi' hst', fun k hk hlt => ?_⟩
        rcases (by omega : k = t ∨ k = t + 1) with rfl | rfl
        · exact ⟨ha, hl⟩
        · exact ⟨ha', hl'.trans hl⟩
    | writeWord =>
        rw [(hs t).writing hst] at ha
        exact absurd ha (by decide)
    | writeTag => exact absurd hst (hs t).used

end run

end TagSoc.WbRam
