import TagSoc.FetchCheck
import TagSoc.TagCheck
import TagSoc.TaggedArrays

/-!
# What a tag violation leads to

The interrupt of a mismatched load or store is pending at the next boundary and
stays so. From there the processor may be parked or may wait for its next fetch,
but the first decode clock takes the interrupt: `tag_violation_traps`. The
access itself has been made by then (`violation_without_effect_iff`).
-/
namespace TagSoc.Cpu

variable {v : BitVec 32} {s : State} {i : Inputs}

theorem resting_next (h : Coherent s) (u : Undisturbed s i) (hs : s.state.resting = true)
    (hd : s.state ≠ .decode) : (s.step v i).state.resting = true := by
  cases hm : s.state <;> rw [hm] at hs
  case preFetch => rw [step_preFetch h u hm]; rfl
  case fetch =>
    rw [step_fetch h u hm]
    dsimp only
    split_ifs <;> rfl
  case prepairUnalignedFetch => rw [step_prepairUnalignedFetch h u hm]; rfl
  case fetchMore =>
    rw [step_fetchMore h u hm]
    dsimp only
    split_ifs <;> rfl
  case decode => exact absurd hm hd
  case cpuIdle =>
    rw [step_cpuIdle h u hm]
    dsimp only
    split_ifs <;> rfl
  all_goals exact absurd hs (by decide)

theorem resting_of_atBoundary (h : s.atBoundary = true) : s.state.resting = true := by
  rcases by simpa [State.atBoundary] using h with hs | hs <;> rw [hs] <;> rfl

end TagSoc.Cpu

namespace TagSoc.Soc
open Clocked Cpu CpuBus Csr Decoder Datapath WbRam

variable {g : ℕ}

/-! ## The next trap -/

/-- The interrupt is taken in clock `d`. -/
def TrapsAt (r : Run (State.step (g := g))) (d : ℕ) : Prop :=
  (r.state d).cpu.state = .decode ∧
    (r.state d).cpu.takesInterrupt ((r.state d).cpuIn (r.input d)) = true

instance (r : Run (State.step (g := g))) (d : ℕ) : Decidable (TrapsAt r d) :=
  inferInstanceAs (Decidable (_ ∧ _))

/-- The first time after clock `k`. -/
structure FirstTrap (r : Run (State.step (g := g))) (k d : ℕ) : Prop where
  later : k < d
  taken : TrapsAt r d
  first : ∀ j, k < j → j < d → ¬ TrapsAt r j

section
variable {r : Run (State.step (g := g))} (h : Reached r)
include h

/-- With an interrupt pending and enabled at a boundary, no instruction is
started before it is taken. -/
theorem Reached.doomed {n m : ℕ} (hb : (r.state n).cpu.atBoundary = true)
    (hirq : (r.state n).ram.irq = true) (hen : (r.state n).cpu.csr.irqEn = true) (hm : n ≤ m)
    (hno : ∀ j, n ≤ j → j < m → ¬ TrapsAt r j) :
    Rests r n m ∧ (r.state m).cpu.state.resting = true ∧ (r.state m).ram.irq = true := by
  induction m, hm using Nat.le_induction with
  | base => exact ⟨fun j h₁ h₂ => by omega, resting_of_atBoundary hb, hirq⟩
  | succ m hm ih =>
      obtain ⟨hpath, hrest, hline⟩ := ih fun j h₁ h₂ => hno j h₁ (by omega)
      have hkept := (h.rests_kept hm hpath).2.2.1
      -- a decode clock would take it
      have hdec : (r.state m).cpu.state ≠ .decode := by
        intro hs
        refine hno m hm (by omega) ⟨hs, ?_⟩
        have hin : ((r.state m).cpuIn (r.input m)).tagsInterrupt = true := hline
        simp [Cpu.State.takesInterrupt, Cpu.State.interruptOccured, hin, hkept.irqEn, hen]
      refine ⟨fun j h₁ h₂ => ?_, ?_, ?_⟩
      · rcases (by omega : j = m ∨ j < m) with rfl | hlt
        · exact ⟨hrest, fun hs => absurd hs hdec⟩
        · exact hpath j h₁ hlt
      · rw [next_cpu]
        exact resting_next (h.coherent m) (h.undisturbed m) hrest hdec
      · refine h.irq_sticky (by omega : m ≤ m + 1) (fun j h₁ h₂ hup => ?_) hline
        obtain rfl : j = m := by omega
        rw [hup] at hrest
        exact absurd hrest (by decide)

/-- The interrupt is taken once the next instruction can be fetched. -/
theorem Reached.doomed_traps {n : ℕ} (hb : (r.state n).cpu.atBoundary = true)
    (hirq : (r.state n).ram.irq = true) (hen : (r.state n).cpu.csr.irqEn = true)
    (ha : periphSelect (r.state n).cpu.pc = wbAccessRam)
    (hgo : (r.state n).cpu.state = .cpuIdle → ∃ m, n ≤ m ∧ (r.input m).extCpuDoStep = true) :
    ∃ d, n < d ∧ TrapsAt r d := by
  obtain ⟨t, ht, ⟨hs, hpc, -, hkept⟩, hpath⟩ := resume_run (r := cpuRun r) h.coherent
    h.undisturbed (t := n) hb hgo
  change (r.state t).cpu.state = .preFetch at hs
  change (r.state t).cpu.pc = (r.state n).cpu.pc at hpc
  obtain ⟨d, hd⟩ := h.fetch_done hs (by rw [hpc, ha])
  have hline : (r.state t).ram.irq = true := by
    refine h.irq_sticky ht (fun j h₁ h₂ hup => ?_) hirq
    have hidle : (r.state j).cpu.state = .cpuIdle := hpath j h₁ h₂
    exact absurd (hup.symm.trans hidle) (by decide)
  have hin : ((r.state d).cpuIn (r.input d)).tagsInterrupt = true := hd.irq.mpr (Or.inl hline)
  have hen' : (r.state d).cpu.csr.irqEn = true :=
    (hd.kept h).2.2.1.irqEn.trans (hkept.irqEn.trans hen)
  have hlater := hd.later.1
  refine ⟨d, by omega, hd.state, ?_⟩
  simp [Cpu.State.takesInterrupt, Cpu.State.interruptOccured, hin, hen']

/-- A load or store to the memory, whatever it does. -/
theorem Reached.access_done {k : ℕ}
    (hs : (r.state k).cpu.state = .load1 ∨ (r.state k).cpu.state = .store1)
    (ha : periphSelect (r.state k).cpu.alu.result = wbAccessRam) : ∃ n, AccessDone r k n := by
  rcases hs with hs | hs
  · obtain ⟨n, hn, -⟩ := h.load_done hs ha
    exact ⟨n, hn⟩
  · obtain ⟨n, hn, -⟩ := h.store_done hs ha
    exact ⟨n, hn⟩

omit h in
theorem AccessDone.ne {k n : ℕ} (hn : AccessDone r k n) {j : ℕ} (h₁ : k ≤ j) (h₂ : j < n) :
    (r.state j).cpu.state ≠ .exec ∧ ¬ TrapsAt r j := by
  rcases hn.path j h₁ h₂ with hp | hp
  · refine ⟨fun hs => ?_, fun ⟨hs, _⟩ => ?_⟩ <;> rw [hs] at hp <;> exact absurd hp (by decide)
  · simp [TrapsAt, hp]

/-- From the boundary after the access to the trap. -/
theorem FirstTrap.rests {k n d : ℕ} (hn : AccessDone r k n)
    (hirq : (r.state n).ram.irq = true) (hen : (r.state n).cpu.csr.irqEn = true)
    (hd : FirstTrap r k d) : n ≤ d ∧ Rests r n d ∧ (r.state d).ram.irq = true := by
  have hle : n ≤ d := by
    by_contra hlt
    exact (hn.ne hd.later.le (by omega)).2 hd.taken
  obtain ⟨hrest, -, hline⟩ := h.doomed hn.next.2.1 hirq hen hle fun j h₁ h₂ =>
    hd.first j (lt_of_lt_of_le hn.next.1 h₁) h₂
  exact ⟨hle, hrest, hline⟩

/-- The handler starts with what the access has left. -/
theorem FirstTrap.handler {k n d p : ℕ} (hn : AccessDone r k n)
    (hirq : (r.state n).ram.irq = true) (hen : (r.state n).cpu.csr.irqEn = true)
    (hd : FirstTrap r k d) (hp : NextBoundary (cpuRun r) d p) :
    (r.state p).ram.contents = (r.state n).ram.contents ∧
      (r.state p).cpu.regs.regfile = (r.state n).cpu.regs.regfile := by
  obtain ⟨hle, hrest, -⟩ := hd.rests h hn hirq hen
  obtain ⟨hregs, -, -, hcont⟩ := h.rests_kept hle hrest
  obtain ⟨q, hq⟩ := h.trapped hd.taken.1 hd.taken.2
  obtain rfl := hp.unique hq.fromDecode
  exact ⟨hq.contents.trans hcont, hq.regs.trans hregs⟩

end

theorem access_of_violation {s : State g} (hv : tagViolation s = true) :
    periphSelect s.cpu.alu.result = wbAccessRam ∧ s.cpu.csr.tagsEn = true := by
  simp only [tagViolation, Cpu.State.checked, Bool.and_eq_true, beq_iff_eq] at hv
  exact ⟨hv.1.2, hv.1.1.1.1⟩

section violation
variable {r : Run (State.step (g := g))} (h : Reached r) {k : ℕ}
  (hs : (r.state k).cpu.state = .load1 ∨ (r.state k).cpu.state = .store1)
  (hen : (r.state k).cpu.csr.irqEn = true) (hv : tagViolation (r.state k) = true)
include h hs hen hv

/-- The line is up when the access is done, and interrupts are still enabled. -/
theorem violation_done : ∃ n, AccessDone r k n ∧ (r.state n).ram.irq = true ∧
    (r.state n).cpu.csr.irqEn = true := by
  obtain ⟨n, hn⟩ := h.access_done hs (access_of_violation hv).1
  exact ⟨n, hn, by rw [hn.irq, hv, Bool.or_true], hn.irqEn.trans hen⟩

theorem violation_held {m : ℕ} (hm : k < m) (hno : ∀ d, k < d → d < m → ¬ TrapsAt r d) :
    (r.state m).cpu.state ≠ .exec := by
  intro hexec
  obtain ⟨n, hn, hirq, hen'⟩ := violation_done h hs hen hv
  have hle : n ≤ m := by
    by_contra hlt
    exact (hn.ne hm.le (by omega)).1 hexec
  obtain ⟨-, hrest, -⟩ := h.doomed hn.next.2.1 hirq hen' hle fun j h₁ h₂ =>
    hno j (lt_of_lt_of_le hn.next.1 h₁) h₂
  rw [hexec] at hrest
  exact absurd hrest (by decide)

theorem violation_cause {d : ℕ} (hd : FirstTrap r k d) :
    ∃ p, d < p ∧ (r.state p).cpu.atBoundary = true ∧
      (∀ j, d < j → j < p →
        (r.state j).cpu.state = .trap ∨ (r.state j).cpu.state = .updatePc) ∧
      (r.state p).cpu.csr.settled mCause = causeTagMismatch ∧
      (r.state p).cpu.csr.settled mEpc =
        (r.state k).cpu.pc + instrLen (r.state k).cpu.parcels ∧
      ((r.state p).cpu.csr.settled mStatus).getLsbD 3 = false ∧
      (r.state p).cpu.csr.irqEn = false ∧
      (r.state p).cpu.pc = (r.state d).cpu.csr.settled mTvec &&& ~~~1#32 := by
  obtain ⟨n, hn, hirq, hen'⟩ := violation_done h hs hen hv
  obtain ⟨hle, hrest, hline⟩ := hd.rests h hn hirq hen'
  obtain ⟨-, hpc, hkept, -⟩ := h.rests_kept hle hrest
  obtain ⟨p, hp⟩ := h.trapped hd.taken.1 hd.taken.2
  have hcause : (r.state d).cpu.interruptCause ((r.state d).cpuIn (r.input d)) =
      causeTagMismatch := by
    have hin : ((r.state d).cpuIn (r.input d)).tagsInterrupt = true := hline
    have htagsEn : (r.state d).cpu.csr.tagsEn = true := by
      have hens := hkept.enables.trans hn.enables
      simp only [Csr.State.enables, Prod.mk.injEq] at hens
      exact hens.2.1.trans (access_of_violation hv).2
    simp [Cpu.State.interruptCause, hin, htagsEn]
  have hnext : (r.state k).cpu.pcnext = (r.state k).cpu.pc + instrLen (r.state k).cpu.parcels := by
    rw [(h.wired k).flow.pcnext (by rcases hs with hs | hs <;> rw [hs] <;> rfl)]
    rfl
  exact ⟨p, hp.later, hp.boundary, hp.path, hp.mcause.trans hcause,
    hp.mepc.trans (hpc.trans (hn.pc.trans hnext)), hp.mie, hp.irqEn, hp.pc⟩

/-- The trap comes, unless the processor stays parked or leaves the memory. -/
theorem violation_comes : ∃ n, NextBoundary (cpuRun r) k n ∧
    (periphSelect (r.state n).cpu.pc = wbAccessRam →
      ((r.state n).cpu.state = .cpuIdle → ∃ m, n ≤ m ∧ (r.input m).extCpuDoStep = true) →
      ∃ d, FirstTrap r k d) := by
  obtain ⟨n, hn, hirq, hen'⟩ := violation_done h hs hen hv
  refine ⟨n, hn.next, fun ha hgo => ?_⟩
  obtain ⟨d, hd, htraps⟩ := h.doomed_traps hn.next.2.1 hirq hen' ha hgo
  -- the least such clock
  classical
  have hex : ∃ d, k < d ∧ TrapsAt r d := ⟨d, hn.next.1.trans hd, htraps⟩
  refine ⟨Nat.find hex, (Nat.find_spec hex).1, (Nat.find_spec hex).2, fun j h₁ h₂ hj => ?_⟩
  exact Nat.find_min hex h₂ ⟨h₁, hj⟩

end violation

/-- A mismatched load or store at clock `k`, with interrupts enabled. No
instruction is executed before the next trap, whatever the program goes on with.
The trap leaves the tag mismatch as the cause, also if the timer is pending, and
the address of the following instruction; it disables interrupts and continues
at `mtvec`. It comes unless the processor stays parked or the following
instruction is outside the memory. -/
theorem tag_violation_traps {r : Run (State.step (g := g))} (h : Reached r) {k : ℕ}
    (hs : (r.state k).cpu.state = .load1 ∨ (r.state k).cpu.state = .store1)
    (hen : (r.state k).cpu.csr.irqEn = true) (hv : tagViolation (r.state k) = true) :
    (∀ m, k < m → (∀ d, k < d → d < m → ¬ TrapsAt r d) → (r.state m).cpu.state ≠ .exec) ∧
    (∀ d, FirstTrap r k d → ∃ p, d < p ∧ (r.state p).cpu.atBoundary = true ∧
      (∀ j, d < j → j < p →
        (r.state j).cpu.state = .trap ∨ (r.state j).cpu.state = .updatePc) ∧
      (r.state p).cpu.csr.settled mCause = causeTagMismatch ∧
      (r.state p).cpu.csr.settled mEpc =
        (r.state k).cpu.pc + instrLen (r.state k).cpu.parcels ∧
      ((r.state p).cpu.csr.settled mStatus).getLsbD 3 = false ∧
      (r.state p).cpu.csr.irqEn = false ∧
      (r.state p).cpu.pc = (r.state d).cpu.csr.settled mTvec &&& ~~~1#32) ∧
    ∃ n, NextBoundary (cpuRun r) k n ∧
      (periphSelect (r.state n).cpu.pc = wbAccessRam →
        ((r.state n).cpu.state = .cpuIdle → ∃ m, n ≤ m ∧ (r.input m).extCpuDoStep = true) →
        ∃ d, FirstTrap r k d) :=
  ⟨fun _ hm hno => violation_held h hs hen hv hm hno, fun _ hd => violation_cause h hs hen hv hd,
    violation_comes h hs hen hv⟩

/-- `csrwi mstatus, 8`, `csrwi tags, 1` and `sw x1, 16(x0)`, over a memory whose
tags are all one. -/
def storingChecked (x : BitVec 32) : Run (State.step (g := 1)) :=
  booted (fun k => if k = 1#5 then x else 0#32) (fun _ => 0#32)
    [0x30045073#32, 0x3450D073#32, 0x00102823#32] fun _ => 1#4

theorem storingChecked_reached (x : BitVec 32) : Reached (storingChecked x) :=
  booted_reached _ _ _ _ rfl

/-- The store violates the tags in clock 31; the interrupt is taken in clock 40. -/
theorem storingChecked_trap (x : BitVec 32)
    (hno : ∀ j < 40, 31 < j → ¬ TrapsAt (storingChecked x) j)
    (htraps : TrapsAt (storingChecked x) 40) : FirstTrap (storingChecked x) 31 40 :=
  ⟨by decide, htraps, fun j h₁ h₂ => hno j h₂ h₁⟩

/-- The handler for the store of a five finds the address of the next
instruction. -/
theorem tag_violation_store :
    ∃ p, ((storingChecked 5#32).state p).cpu.csr.settled mCause = causeTagMismatch ∧
      ((storingChecked 5#32).state p).cpu.csr.settled mEpc = 0x100C#32 := by
  obtain ⟨-, htrap, -⟩ := tag_violation_traps (storingChecked_reached 5#32) (k := 31)
    (Or.inr (by decide +kernel)) (by decide +kernel) (by decide +kernel)
  obtain ⟨p, -, -, -, hcause, hepc, -⟩ := htrap 40
    (storingChecked_trap 5#32 (by decide +kernel) (by decide +kernel))
  exact ⟨p, hcause, hepc.trans (by decide +kernel)⟩

/-! ## The access itself -/

section already
open TaggedArrays

/-- The lanes that a store with the code `f` would change have the bytes of `x`
already; `w` is the word at its address. An odd half store would clear it. -/
def StoredAlready (f : BitVec 3) (a x w : BitVec 32) : Prop :=
  (f = funcSb → lane x 0 = lane w (a.toNat % 4)) ∧
  (f = funcSh → a.toNat % 2 = 0 →
    lane x 0 = lane w (a.toNat % 4) ∧ lane x 1 = lane w (a.toNat % 4 + 1)) ∧
  (f = funcSh → a.toNat % 2 = 1 → w = 0#32) ∧
  (f ≠ funcSb → f ≠ funcSh → x = w)

instance (f : BitVec 3) (a x w : BitVec 32) : Decidable (StoredAlready f a x w) :=
  inferInstanceAs (Decidable (_ ∧ _ ∧ _ ∧ _))

/-- The memory or the destination register already has what the access is about
to put there. -/
def EffectThere (s : State g) : Prop :=
  (s.cpu.state = .store1 →
    StoredAlready s.cpu.dec.funct3 s.cpu.alu.result s.cpu.regs.regval2
      (s.ram.contents.words (wordAddr g s.cpu.alu.result))) ∧
  (s.cpu.state = .load1 → s.cpu.dec.rd = 0#5 ∨ s.cpu.regs.regfile s.cpu.dec.rd =
    loadedValue s.cpu.dec.funct3 s.cpu.alu.result
      (s.ram.contents.words (wordAddr g s.cpu.alu.result)))

instance (s : State g) : Decidable (EffectThere s) := inferInstanceAs (Decidable (_ ∧ _))

/-- A store that has not changed the memory, a load that has not changed its
destination. -/
def WithoutEffect (s s' : State g) : Prop :=
  (s.cpu.state = .store1 → s'.ram.contents = s.ram.contents) ∧
  (s.cpu.state = .load1 →
    s'.cpu.regs.regfile s.cpu.dec.rd = s.cpu.regs.regfile s.cpu.dec.rd)

theorem writeByte_eq_iff (a x w : BitVec 32) :
    dataToWrite wbSelByte a x w = w ↔ lane x 0 = lane w (a.toNat % 4) := by
  constructor
  · intro heq
    have hlane := lane_writeByte (a := a) x w (Nat.mod_lt a.toNat (by decide : 4 > 0))
    rw [heq, if_pos rfl] at hlane
    exact hlane.symm
  · intro heq
    refine lane_ext fun l hl => ?_
    rw [lane_writeByte x w hl]
    split_ifs with h
    · rw [h, heq]
    · rfl

theorem writeHalf_eq_iff {a : BitVec 32} (x w : BitVec 32) (h : a.toNat % 2 = 0) :
    dataToWrite wbSelHalf a x w = w ↔
      lane x 0 = lane w (a.toNat % 4) ∧ lane x 1 = lane w (a.toNat % 4 + 1) := by
  constructor
  · intro heq
    have hlow := lane_writeHalf x w (by omega : a.toNat % 4 < 4) h
    have hhigh := lane_writeHalf x w (by omega : a.toNat % 4 + 1 < 4) h
    rw [heq, if_pos rfl] at hlow
    rw [heq, if_neg (by omega), if_pos rfl] at hhigh
    exact ⟨hlow.symm, hhigh.symm⟩
  · rintro ⟨hlow, hhigh⟩
    refine lane_ext fun l hl => ?_
    rw [lane_writeHalf x w hl h]
    split_ifs with h₁ h₂
    · rw [h₁, hlow]
    · rw [h₂, hhigh]
    · rfl

theorem write_eq_self_iff (c : Contents g) {f : BitVec 3} (hf : f ≠ funcSt) (a x : BitVec 32) :
    (ramDevice g).write c (Cpu.State.storeBusOp f).memSel a x = c ↔
      StoredAlready f a x (c.words (wordAddr g a)) := by
  have hwrite : ∀ sel, sel ≠ wbSelTag → ((ramDevice g).write c sel a x = c ↔
      dataToWrite sel a x (c.words (wordAddr g a)) = c.words (wordAddr g a)) := by
    intro sel hsel
    simp only [ramDevice, Contents.write, if_neg hsel]
    refine Iff.trans ?_ (Function.update_eq_self_iff (f := c.words))
    exact ⟨congrArg Contents.words, fun hw => by rw [hw]⟩
  have hcodes : funcSb ≠ funcSh := by decide
  unfold Cpu.State.storeBusOp StoredAlready
  split_ifs with h₁ h₂
  · refine (hwrite _ (by decide)).trans ((writeByte_eq_iff a x _).trans ?_)
    simp [h₁, hcodes]
  · rcases Nat.mod_two_eq_zero_or_one a.toNat with hpar | hpar
    · refine (hwrite _ (by decide)).trans ((writeHalf_eq_iff x _ hpar).trans ?_)
      simp [h₂, hcodes.symm, hpar]
    · have hodd := writeHalf_odd x (c.words (wordAddr g a)) hpar
      refine (hwrite _ (by decide)).trans ?_
      rw [show BusOp.memSel .writeh = wbSelHalf from rfl, hodd]
      simp [h₂, hcodes.symm, hpar, eq_comm]
  · refine (hwrite _ (by decide)).trans ?_
    rw [show dataToWrite (BusOp.memSel .writew) a x (c.words (wordAddr g a)) = x from rfl]
    simp [h₁, h₂]

section
variable {r : Run (State.step (g := g))} (h : Reached r) {k d p : ℕ}
  (hen : (r.state k).cpu.csr.irqEn = true) (hv : tagViolation (r.state k) = true)
  (hd : FirstTrap r k d) (hp : NextBoundary (cpuRun r) d p)
include h hen hv hd hp

theorem store_unchanged_iff (hs : (r.state k).cpu.state = .store1) :
    (r.state p).ram.contents = (r.state k).ram.contents ↔
      StoredAlready (r.state k).cpu.dec.funct3 (r.state k).cpu.alu.result
        (r.state k).cpu.regs.regval2
        ((r.state k).ram.contents.words (wordAddr g (r.state k).cpu.alu.result)) := by
  obtain ⟨ha, -⟩ := access_of_violation hv
  obtain ⟨n, hn, hcont, -⟩ := h.store_done hs ha
  obtain ⟨hsame, -⟩ := hd.handler h hn (by rw [hn.irq, hv, Bool.or_true]) (hn.irqEn.trans hen) hp
  rw [hsame, hcont, write_eq_self_iff _ ((tagViolation_iff ha).mp hv).2.1]

theorem load_unchanged_iff (hs : (r.state k).cpu.state = .load1) :
    (r.state p).cpu.regs.regfile (r.state k).cpu.dec.rd =
        (r.state k).cpu.regs.regfile (r.state k).cpu.dec.rd ↔
      (r.state k).cpu.dec.rd = 0#5 ∨ (r.state k).cpu.regs.regfile (r.state k).cpu.dec.rd =
        loadedValue (r.state k).cpu.dec.funct3 (r.state k).cpu.alu.result
          ((r.state k).ram.contents.words (wordAddr g (r.state k).cpu.alu.result)) := by
  obtain ⟨ha, -⟩ := access_of_violation hv
  obtain ⟨n, hn, -, hregs⟩ := h.load_done hs ha
  obtain ⟨-, hsame⟩ := hd.handler h hn (by rw [hn.irq, hv, Bool.or_true]) (hn.irqEn.trans hen) hp
  rw [hsame, hregs, Registers.write_apply_eq_self, loaded_eq _ ((tagViolation_iff ha).mp hv).2.1]

end

/-- The handler starts in clock `p` with the effect of the access that violated
the tags: it is not there only if the memory or the register had it before. -/
theorem violation_without_effect_iff {r : Run (State.step (g := g))} (h : Reached r) {k d p : ℕ}
    (hs : (r.state k).cpu.state = .load1 ∨ (r.state k).cpu.state = .store1)
    (hen : (r.state k).cpu.csr.irqEn = true) (hv : tagViolation (r.state k) = true)
    (hd : FirstTrap r k d) (hp : NextBoundary (cpuRun r) d p) :
    WithoutEffect (r.state k) (r.state p) ↔ EffectThere (r.state k) := by
  unfold WithoutEffect EffectThere
  rcases hs with hs | hs
  · have hiff := load_unchanged_iff h hen hv hd hp hs
    simp only [hs, reduceCtorEq, false_implies, true_and, true_implies]
    exact hiff
  · have hiff := store_unchanged_iff h hen hv hd hp hs
    simp only [hs, reduceCtorEq, false_implies, and_true, true_implies]
    exact hiff

/-- A store of the zero that is there. -/
theorem violation_without_effect_zero :
    ∃ p, NextBoundary (cpuRun (storingChecked 0#32)) 40 p ∧
      WithoutEffect ((storingChecked 0#32).state 31) ((storingChecked 0#32).state p) := by
  have hd := storingChecked_trap 0#32 (by decide +kernel) (by decide +kernel)
  obtain ⟨p, hp⟩ := (storingChecked_reached 0#32).trapped hd.taken.1 hd.taken.2
  have hiff := violation_without_effect_iff (storingChecked_reached 0#32) (k := 31)
    (Or.inr (by decide +kernel)) (by decide +kernel) (by decide +kernel) hd hp.fromDecode
  have hthere : EffectThere ((storingChecked 0#32).state 31) := by decide +kernel
  exact ⟨p, hp.fromDecode, hiff.mpr hthere⟩

/-- A store of a five to a word that is zero has been made when the handler
starts. -/
theorem violation_stores :
    Reached (storingChecked 5#32) ∧ ((storingChecked 5#32).state 31).cpu.state = .store1 ∧
      ((storingChecked 5#32).state 31).cpu.csr.irqEn = true ∧
      tagViolation ((storingChecked 5#32).state 31) = true ∧
      FirstTrap (storingChecked 5#32) 31 40 ∧
      ∃ p, NextBoundary (cpuRun (storingChecked 5#32)) 40 p ∧
        ¬ WithoutEffect ((storingChecked 5#32).state 31) ((storingChecked 5#32).state p) := by
  have h := storingChecked_reached 5#32
  have hs : ((storingChecked 5#32).state 31).cpu.state = .store1 := by decide +kernel
  have hen : ((storingChecked 5#32).state 31).cpu.csr.irqEn = true := by decide +kernel
  have hv : tagViolation ((storingChecked 5#32).state 31) = true := by decide +kernel
  have hd := storingChecked_trap 5#32 (by decide +kernel) (by decide +kernel)
  have hnew : ¬ EffectThere ((storingChecked 5#32).state 31) := by decide +kernel
  obtain ⟨p, hp⟩ := h.trapped hd.taken.1 hd.taken.2
  have hiff := store_unchanged_iff h hen hv hd hp.fromDecode hs
  refine ⟨h, hs, hen, hv, hd, p, hp.fromDecode, fun hno => hnew ⟨fun _ => ?_, fun hl => ?_⟩⟩
  · exact hiff.mp (hno.1 hs)
  · exact absurd (hs.symm.trans hl) (by decide)

end already

end TagSoc.Soc
