import TagSoc.SocAccess

/-!
# The tag check of loads and stores

`tag_check_exact`: a load or store to the memory raises the tag interrupt by
the end of the instruction exactly if it is checked and the tags differ; one
that goes elsewhere never does, however long it takes.
-/
namespace TagSoc.Soc
open Clocked Cpu CpuBus Datapath WbRam Decoder

variable {g : ℕ}

/-! ## Accesses that do not go to the memory -/

/-- Between the request and the boundary, with the memory not selected. -/
structure Elsewhere (s : State g) (a : BitVec 32) (irq : Bool) : Prop where
  state : s.cpu.state = .load2 ∨ s.cpu.state = .store2 ∨ s.cpu.state = .updatePc
  adr : s.cpu.bus.adr = a
  rests : RamRests s
  clear : s.cpu.csr.tagsIrqClear = false
  irq : s.ram.irq = irq

section
variable {r : Run (State.step (g := g))} (h : Reached r) {a : BitVec 32} {irq : Bool}
include h

theorem Elsewhere.next {t : ℕ} (ha : periphSelect a ≠ wbAccessRam)
    (ht : Elsewhere (r.state t) a irq) :
    (r.state (t + 1)).ram.irq = irq ∧
      ((r.state (t + 1)).cpu.atBoundary = false → Elsewhere (r.state (t + 1)) a irq) := by
  have hno : ((r.state t).ramIn (r.input t)).requests = false := by
    refine Bool.eq_false_iff.mpr fun hreq => ha ?_
    have hacc := (cyc_of_requests (h.master t) hreq).2
    rw [← ht.adr]
    simpa [Master.accessRam, State.cpuMaster] using hacc
  obtain ⟨hrest, -, hirq⟩ := (h.wired t).ram_idle_step (h.rst t) ht.rests.state hno
  rw [← r.next t] at hrest hirq
  rw [ht.clear, ht.rests.mismatch, ht.irq] at hirq
  have hclear : (r.state (t + 1)).cpu.csr.tagsIrqClear = false := by
    refine Bool.eq_false_iff.mpr fun hc => ?_
    rw [r.next t] at hc
    have hst := ((h.wired t).csr2_of_clear hc).2
    rcases ht.state with hs | hs | hs <;> exact absurd (hst.symm.trans hs) (by decide)
  refine ⟨hirq, fun hnb => ?_⟩
  refine { state := ?_, adr := ?_, rests := hrest, clear := hclear, irq := hirq }
  · rcases ht.state with hs | hs | hs
    · rw [next_cpu, step_load2 (h.coherent t) (h.undisturbed t) hs]
      dsimp only
      split_ifs <;> simp
    · rw [next_cpu, step_store2 (h.coherent t) (h.undisturbed t) hs]
      dsimp only
      split_ifs <;> simp
    · -- the update state is left for the boundary
      cases hb : (r.state t).cpu.csr.busy with
      | true =>
          rw [next_cpu, step_updatePc_busy (h.coherent t) (h.undisturbed t) hs hb]
          exact Or.inr (Or.inr hs)
      | false =>
          rw [next_cpu, step_updatePc (h.coherent t) (h.undisturbed t) hs hb,
            Cpu.State.atBoundary] at hnb
          dsimp only at hnb
          split_ifs at hnb <;> exact absurd hnb (by decide)
  · rw [← ht.adr, next_cpu]
    rcases ht.state with hs | hs | hs
    · rw [step_load2 (h.coherent t) (h.undisturbed t) hs]
      exact CpuBus.State.wait_adr _ _ _
    · rw [step_store2 (h.coherent t) (h.undisturbed t) hs]
      exact CpuBus.State.wait_adr _ _ _
    · cases hb : (r.state t).cpu.csr.busy with
      | true => rw [step_updatePc_busy (h.coherent t) (h.undisturbed t) hs hb]
      | false => rw [step_updatePc (h.coherent t) (h.undisturbed t) hs hb]

/-- The first clock after the request. -/
theorem elsewhere_of_access {k : ℕ}
    (hs : (r.state k).cpu.state = .load1 ∨ (r.state k).cpu.state = .store1) :
    Elsewhere (r.state (k + 1)) (r.state k).cpu.alu.result (r.state k).ram.irq := by
  have hjudge : judging (r.state k).cpu.state = false := by
    rcases hs with hs | hs <;> rw [hs] <;> rfl
  have hne : (r.state k).cpu.state ≠ .updatePc ∧ (r.state k).cpu.state ≠ .csr2 := by
    rcases hs with hs | hs <;> simp [hs]
  have hfree : (r.state k).cpu.bus.busy = false := by
    refine (h.wired k).flow.bus_free ?_
    rcases hs with hs | hs <;> rw [hs] <;> rfl
  obtain ⟨hrest, -, hirq⟩ := (h.wired k).ramRests_step (h.master k) (h.rst k)
    ((h.wired k).ramRests (h.master k) hjudge) hfree
  rw [← r.next k] at hrest hirq
  rw [Bool.eq_false_iff.mpr fun hc => hne.1 ((h.wired k).clear hc)] at hirq
  constructor
  case rests => exact hrest
  case irq => exact hirq
  case clear =>
    refine Bool.eq_false_iff.mpr fun hc => hne.2 ?_
    rw [r.next k] at hc
    exact ((h.wired k).csr2_of_clear hc).2
  case state =>
    rcases hs with hs | hs
    · exact Or.inl (by rw [next_cpu, step_load1 (h.coherent k) (h.undisturbed k) hs])
    · exact Or.inr (Or.inl (by rw [next_cpu, step_store1 (h.coherent k) (h.undisturbed k) hs]))
  case adr =>
    rcases hs with hs | hs
    · rw [next_cpu, step_load1 (h.coherent k) (h.undisturbed k) hs]
      rfl
    · rw [next_cpu, step_store1 (h.coherent k) (h.undisturbed k) hs]
      rfl

/-- Up to and including the next boundary the interrupt line does not move. -/
theorem elsewhere_irq {k m : ℕ}
    (hs : (r.state k).cpu.state = .load1 ∨ (r.state k).cpu.state = .store1)
    (ha : periphSelect (r.state k).cpu.alu.result ≠ wbAccessRam) (hkm : k < m)
    (hno : ∀ j, k < j → j < m → (r.state j).cpu.atBoundary = false) :
    (r.state m).ram.irq = (r.state k).ram.irq ∧
      ((r.state m).cpu.atBoundary = false →
        Elsewhere (r.state m) (r.state k).cpu.alu.result (r.state k).ram.irq) := by
  induction m, hkm using Nat.le_induction with
  | base =>
      have hfirst := elsewhere_of_access h hs
      exact ⟨hfirst.irq, fun _ => hfirst⟩
  | succ m hm ih =>
      have hlast := (ih fun j h₁ h₂ => hno j h₁ (by omega)).2 (hno m hm (by omega))
      exact hlast.next h ha

end

/-! ## Exactness -/

theorem tagViolation_iff {s : State g} (ha : periphSelect s.cpu.alu.result = wbAccessRam) :
    tagViolation s = true ↔
      s.cpu.csr.tagsEn = true ∧ s.cpu.dec.funct3 ≠ funcLt ∧
        ¬ (s.cpu.csr.tagsSkipSpEn = true ∧ s.cpu.dec.rs1 = 2#5) ∧
        addrTag s.cpu.alu.result ≠ s.ram.contents.tags (granuleAddr g s.cpu.alu.result) := by
  simp [tagViolation, Cpu.State.checked, ha, and_assoc, imp_iff_not_or]

/-- In clock `k` a load or store goes to the bus. If it goes to the memory, the
interrupt is pending at the next boundary exactly if it was before or the access
is checked (`funcLt` is the code of both tag accesses) and the tag in the
address is not that of the granule. If it goes elsewhere, the interrupt line
does not move up to the next boundary, whenever that comes. -/
theorem tag_check_exact {r : Run (State.step (g := g))} (h : Reached r) {k : ℕ}
    (hs : (r.state k).cpu.state = .load1 ∨ (r.state k).cpu.state = .store1) :
    (periphSelect (r.state k).cpu.alu.result = wbAccessRam →
      ∃ n, NextBoundary (cpuRun r) k n ∧
        ((r.state n).ram.irq = true ↔ (r.state k).ram.irq = true ∨
          (r.state k).cpu.csr.tagsEn = true ∧ (r.state k).cpu.dec.funct3 ≠ funcLt ∧
            ¬ ((r.state k).cpu.csr.tagsSkipSpEn = true ∧ (r.state k).cpu.dec.rs1 = 2#5) ∧
            addrTag (r.state k).cpu.alu.result ≠
              (r.state k).ram.contents.tags (granuleAddr g (r.state k).cpu.alu.result))) ∧
    (periphSelect (r.state k).cpu.alu.result ≠ wbAccessRam →
      ∀ m, k < m → (∀ j, k < j → j < m → (r.state j).cpu.atBoundary = false) →
        (r.state m).ram.irq = (r.state k).ram.irq) := by
  refine ⟨fun ha => ?_, fun ha m hkm hno => (elsewhere_irq h hs ha hkm hno).1⟩
  obtain ⟨n, hn⟩ : ∃ n, AccessDone r k n := by
    rcases hs with hs | hs
    · obtain ⟨n, hn, -⟩ := h.load_done hs ha
      exact ⟨n, hn⟩
    · obtain ⟨n, hn, -⟩ := h.store_done hs ha
      exact ⟨n, hn⟩
  refine ⟨n, hn.next, ?_⟩
  rw [hn.irq, Bool.or_eq_true, tagViolation_iff ha]

/-- `csrwi tags, 1` and one load or store, over a memory whose tags are all one. -/
def accessingOnce (word : BitVec 32) : Run (State.step (g := 1)) :=
  booted (fun _ => 0#32) (fun _ => 0#32) [0x3450D073#32, word] fun _ => 1#4

theorem accessingOnce_reached (word : BitVec 32) : Reached (accessingOnce word) :=
  booted_reached _ _ _ _ rfl

/-- `lb x1, 0(x0)` is a violation. -/
theorem tag_check_load :
    ∃ n, NextBoundary (cpuRun (accessingOnce 0x00000083#32)) 19 n ∧
      ((accessingOnce 0x00000083#32).state n).ram.irq = true := by
  obtain ⟨hram, -⟩ := tag_check_exact (accessingOnce_reached 0x00000083#32) (k := 19)
    (Or.inl (by decide +kernel))
  obtain ⟨n, hn, hiff⟩ := hram (by decide +kernel)
  exact ⟨n, hn, hiff.mpr (Or.inr (by decide +kernel))⟩

end TagSoc.Soc
