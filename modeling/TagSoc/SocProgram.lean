import TagSoc.Program
import TagSoc.SocMachine

/-!
# Programs on the chip

A program in the chip's memory, seen by the instruction set: the bytes of the memory, the
registers, the program counter, and the addresses each instruction touches. While these
stay in the memory and interrupts are off, the chip does to them what the instruction set
says, whatever the timer and the serial port do meanwhile.
-/
namespace TagSoc.Rv32

/-- The address of the data. -/
def Instr.accessed (regs : Reg → Word) : Instr → List Word
  | .load _ _ rs1 offset => [regs rs1 + offset]
  | .store _ rs1 _ offset => [regs rs1 + offset]
  | _ => []

end TagSoc.Rv32

namespace TagSoc.Program
open Clocked Cpu Decoder Rv32 Datapath Agreement Compressed Refinement

variable {M : Type*} {w : Word}

/-! ## The decoder's address is the instruction's -/

def memoryStage (st : ExecStage) : Bool := st == .toLoad || st == .toStore

theorem of_mem_accessAddr {d : Decoded} {a : Rv32.State M} {x : Word} (hx : x ∈ accessAddr d a) :
    memoryStage d.execNextStage = true ∧ x = dataS1 d a + dataS2 d a := by
  unfold accessAddr at hx
  split at hx
  · rename_i h
    exact ⟨by rw [h]; rfl, List.mem_singleton.mp hx⟩
  · rename_i h
    exact ⟨by rw [h]; rfl, List.mem_singleton.mp hx⟩
  · exact absurd hx List.not_mem_nil

theorem major_eq (w : Word) : major w = opcode w ++ cOp w := by
  apply BitVec.eq_of_getLsbD_eq
  intro i hi
  simp only [major, opcode, cOp, BitVec.getLsbD_append, BitVec.getLsbD_extractLsb']
  interval_cases i <;> simp

theorem opcode_of_memoryStage (hc : cOp w = 3#2)
    (h : memoryStage (Decoder.decode w).execNextStage = true) :
    opcode w = opLoad ∨ opcode w = opStore := by
  by_contra hno
  obtain ⟨hl, hs⟩ := not_or.mp hno
  rw [decode_of_long hc] at h
  simp only [control32, if_neg hl, if_neg hs] at h
  split_ifs at h <;> exact Bool.false_ne_true h

theorem accessed_of_decode {i : Instr} (h : Rv32.decode w = some i) {a : Rv32.State M} {x : Word}
    (hx : x ∈ accessAddr (Decoder.decode w) a) : x ∈ i.accessed a.regs := by
  have hc : cOp w = 3#2 := long_of_decode h
  obtain ⟨hst, rfl⟩ := of_mem_accessAddr hx
  rcases opcode_of_memoryStage hc hst with ho | ho
  · have hm : major w = 0b0000011#7 := by rw [major_eq, ho, hc]; rfl
    obtain ⟨op, -, rfl⟩ : ∃ op, decodeLoad w = some op ∧ .load op (rd w) (rs1 w) (immI w) = i := by
      simpa [Rv32.decode, hm] using h
    simp [Instr.accessed, decode_of_long hc, control32, ho, dataS1, dataS2, imm32_eq, Rv32.rs1,
      opOp, opLoad, opOpimm, opStore, opBranch, opLui, opAuipc, opJal]
  · have hm : major w = 0b0100011#7 := by rw [major_eq, ho, hc]; rfl
    obtain ⟨op, -, rfl⟩ : ∃ op, decodeStore w = some op ∧
        .store op (rs1 w) (rs2 w) (immS w) = i := by
      simpa [Rv32.decode, hm] using h
    simp [Instr.accessed, decode_of_long hc, control32, ho, dataS1, dataS2, imm32_eq, Rv32.rs1,
      opOp, opLoad, opOpimm, opStore]

/-! The same for a compressed parcel, quadrant by quadrant. -/

theorem accessed_of_expand0 (h : cOp w = 0#2) {i : Instr}
    (hi : Rv32c.expand0 (w.extractLsb' 0 16) = some i) {a : Rv32.State M} {x : Word}
    (hx : x ∈ accessAddr (Decoder.decode w) a) : x ∈ i.accessed a.regs := by
  obtain ⟨-, hf, -, -, hrd, hrs⟩ := fields w
  have hd := decode_of_c0 h
  obtain ⟨hst, rfl⟩ := of_mem_accessAddr hx
  by_cases hl : cFunct3 w = c0F3Lw
  · rw [show i = .load .lw (creg w 2) (creg w 7) (Rv32c.immLw (w.extractLsb' 0 16)) by
      simpa [Rv32c.expand0, hf, hl, c0F3Lw, hrd, hrs] using hi.symm]
    simp [Instr.accessed, hd, controlC0, immC0_eq, dataS1, dataS2, hl, c0F3Addi4spn, c0F3Lw]
  by_cases hs : cFunct3 w = c0F3Sw
  · rw [show i = .store .sw (creg w 7) (creg w 2) (Rv32c.immLw (w.extractLsb' 0 16)) by
      simpa [Rv32c.expand0, hf, hs, c0F3Sw, hrd, hrs] using hi.symm]
    simp [Instr.accessed, hd, controlC0, immC0_eq, dataS1, dataS2, hs, c0F3Addi4spn, c0F3Lw, c0F3Sw]
  · rw [hd] at hst
    simp only [controlC0, if_neg hl, if_neg hs] at hst
    split_ifs at hst <;> exact (Bool.false_ne_true hst).elim

theorem no_access_c1 (h : cOp w = 1#2) : memoryStage (Decoder.decode w).execNextStage = false := by
  rw [decode_of_c1 h]
  split_ifs
  · simp only [controlC1]
    split_ifs <;> rfl
  · simp only [controlC1Alu]
    split_ifs <;> rfl

theorem accessed_of_expand2 (h : cOp w = 2#2) {i : Instr}
    (hi : Rv32c.expand2 (w.extractLsb' 0 16) = some i) {a : Rv32.State M} {x : Word}
    (hx : x ∈ accessAddr (Decoder.decode w) a) : x ∈ i.accessed a.regs := by
  obtain ⟨-, hf, hrd, hrs, -, -⟩ := fields w
  have hd := decode_of_c2 h
  obtain ⟨hst, rfl⟩ := of_mem_accessAddr hx
  by_cases hl : cFunct3 w = c2F3Lwsp
  · obtain ⟨-, hi⟩ : ¬ w.extractLsb' 7 5 = 0#5 ∧
        .load .lw (w.extractLsb' 7 5) 2#5 (Rv32c.immLwsp (w.extractLsb' 0 16)) = i := by
      simpa [Rv32c.expand2, hf, hl, c2F3Lwsp, hrd] using hi
    rw [← hi]
    simp [Instr.accessed, hd, controlC2, immC2_eq, dataS1, dataS2, hl, c2F3Slli, c2F3Lwsp]
  by_cases hs : cFunct3 w = c2F3Swsp
  · rw [show i = .store .sw 2#5 (w.extractLsb' 2 5) (Rv32c.immSwsp (w.extractLsb' 0 16)) by
      simpa [Rv32c.expand2, hf, hs, c2F3Swsp, hrs] using hi.symm]
    simp [Instr.accessed, hd, controlC2, immC2_eq, dataS1, dataS2, hs, c2F3Slli, c2F3Lwsp, c2F3Jr,
      c2F3Swsp]
  · rw [hd] at hst
    simp only [controlC2, controlC2Jr, if_neg hl, if_neg hs] at hst
    split_ifs at hst <;> exact (Bool.false_ne_true hst).elim

theorem accessed_of_expand {i : Instr} (hi : Rv32c.expand (w.extractLsb' 0 16) = some i)
    {a : Rv32.State M} {x : Word} (hx : x ∈ accessAddr (Decoder.decode w) a) :
    x ∈ i.accessed a.regs := by
  obtain ⟨hop, -⟩ := fields w
  simp only [Rv32c.expand, hop] at hi
  split_ifs at hi with h₀ h₁ h₂
  · exact accessed_of_expand0 h₀ hi hx
  · exact absurd (of_mem_accessAddr hx).1 (by simp [no_access_c1 h₁])
  · exact accessed_of_expand2 h₂ hi hx

/-! ## Programs that stay in the memory -/

variable {L : Type*} [DecidableEq L]

/-- The addresses of the instruction at the program counter, as the instruction set has
them. -/
def isaAddresses (loc : Word → L) (s : Rv32.State (L → Byte)) : List Word :=
  let w := readWord loc s.mem s.pc
  if w.extractLsb' 0 2 = 3#2 then
    s.pc :: ((if s.pc.getLsbD 1 then [s.pc + 2#32] else []) ++
      (Rv32.decode w).elim [] fun i => i.accessed s.regs)
  else s.pc :: (Rv32c.expand (readHalf loc s.mem s.pc)).elim [] fun i => i.accessed s.regs

/-- A number of instructions all of whose addresses are of the given kind. -/
def isaRunIn (ok : Word → Bool) (loc : Word → L) :
    ℕ → Rv32.State (L → Byte) → Option (Rv32.State (L → Byte))
  | 0, s => some s
  | n + 1, s =>
      if (isaAddresses loc s).all ok then (isaStep loc s).bind (isaRunIn ok loc n) else none

theorem isaRun_of_isaRunIn {ok : Word → Bool} {loc : Word → L} {n : ℕ}
    {s b : Rv32.State (L → Byte)} (h : isaRunIn ok loc n s = some b) :
    isaRun loc n s = some b := by
  induction n generalizing s with
  | zero => exact h
  | succ n ih =>
      obtain ⟨-, h⟩ := Option.ite_none_right_eq_some.mp h
      obtain ⟨c, hc, hrest⟩ := Option.bind_eq_some_iff.mp h
      exact Option.bind_eq_some_iff.mpr ⟨c, hc, ih hrest⟩

/-- Multiplications and divisions have no data in memory. -/
theorem no_access_mul {op : Rv32m.MulOp} (h : Rv32m.decode w = some op) :
    memoryStage (Decoder.decode w).execNextStage = false := by
  obtain ⟨hc, ho⟩ := fields_of_major (aluOperOp_of_mul h).1
  refine Bool.eq_false_iff.mpr fun hst => ?_
  rcases opcode_of_memoryStage hc hst with hl | hl <;> exact absurd (ho.symm.trans hl) (by decide)

theorem mem_addresses {D : Device M} {a : Rv32.State M} {x : Word} :
    x ∈ addresses D a ↔ x = a.pc ∨ (straddles D a = true ∧ x = a.pc + 2#32) ∨
      x ∈ accessAddr (Decoder.decode (fetched D a)) a := by
  cases hs : straddles D a <;> simp [addresses, hs]

section bytes
variable {D : Device M} {loc : Word → L} {bytes : M → L → Byte} (hD : ByteDevice D loc bytes)
  {a : Rv32.State M} (he : BitSlices.IsEven a.pc) {b : Rv32.State (L → Byte)}
  (hb : isaStep loc (Refinement.view bytes a) = some b)
include hD he hb

/-- The bus sees no other addresses. -/
theorem addresses_of_isaStep {x : Word} (hx : x ∈ addresses D a) :
    x ∈ isaAddresses loc (Refinement.view bytes a) := by
  rw [mem_addresses] at hx
  by_cases hlong : (readWord loc (Refinement.view bytes a).mem
      (Refinement.view bytes a).pc).extractLsb' 0 2 = 3#2
  · rw [isaAddresses, if_pos hlong, List.mem_cons, List.mem_append]
    refine hx.imp_right (Or.imp (fun hstr => ?_) fun hacc => ?_)
    · obtain ⟨hbit, -⟩ := Bool.and_eq_true_iff.mp hstr.1
      rw [if_pos (show (Refinement.view bytes a).pc.getLsbD 1 = true from hbit)]
      exact List.mem_singleton.mpr hstr.2
    · have hw := fetched_eq hD he hlong
      have hb' := (if_pos hlong).symm.trans hb
      rw [show readWord loc (Refinement.view bytes a).mem (Refinement.view bytes a).pc =
        fetched D a from hw.symm] at hb' ⊢
      cases hi : Rv32.decode (fetched D a) with
      | some i => exact accessed_of_decode hi hacc
      | none =>
          rw [hi] at hb'
          obtain ⟨op, hop, -⟩ := Option.bind_eq_some_iff.mp hb'
          exact absurd (of_mem_accessAddr hacc).1 (by simp [no_access_mul hop])
  · rw [isaAddresses, if_neg hlong]
    have hb' := (if_neg hlong).symm.trans hb
    obtain ⟨i, hi, -⟩ := Option.bind_eq_some_iff.mp hb'
    have hi' : Rv32c.expand ((fetched D a).extractLsb' 0 16) = some i := by
      rw [fetched_low, parcel_eq hD he]
      exact hi
    rw [hi, List.mem_cons]
    refine hx.imp_right fun hrest => hrest.elim (fun hstr => ?_) fun hacc =>
      accessed_of_expand hi' hacc
    -- a parcel of 16 bits does not reach into the next word
    obtain ⟨-, hthree⟩ := Bool.and_eq_true_iff.mp hstr.1
    have hlen := short_of_expand hi'
    rw [instrLen, if_pos (beq_iff_eq.mp hthree)] at hlen
    exact absurd hlen (by decide)

/-- An instruction whose addresses are all of one kind asks for no other. -/
theorem not_leaves {ok : Word → Bool}
    (hok : (isaAddresses loc (Refinement.view bytes a)).all ok = true) :
    leaves D ok a = false := by
  rw [leaves, List.any_eq_false]
  intro x hx
  have hx' := List.all_eq_true.mp hok x (addresses_of_isaStep hD he hb hx)
  simp [hx']

end bytes

section run
variable {v : BitVec 32} {D : Device M} {r q : Run (State.step v)} {mem : ℕ → M} {T : ℕ}

/-- Such a program has ended before the first request of another kind. -/
theorem isaIn_run {loc : Word → L} {bytes : M → L → Byte} (hD : ByteDevice D loc bytes)
    (hs : Slave D r mem) (hr : Running r) (hf : ∀ t, Flow (r.state t)) (hq : Unstepped r)
    {ok : Word → Bool} (hT : StraysAt ok r T) (n : ℕ) {t : ℕ}
    (ht : (r.state t).state = .preFetch) (hoff : (r.state t).csr.irqEn = false)
    (hrun : (r.state t).testFinished = false) (htT : t ≤ T) {b : Rv32.State (L → Byte)}
    (hb : isaRunIn ok loc n (Refinement.view bytes (arch r mem t)) = some b) :
    ∃ m, m ≤ T ∧ passed r m = passed r t + n ∧ (r.state m).state = .preFetch ∧
      Refinement.view bytes (arch r mem m) = b := by
  induction n generalizing t with
  | zero => exact ⟨t, htT, rfl, ht, Option.some.inj hb⟩
  | succ n ih =>
      obtain ⟨hok, hb⟩ := Option.ite_none_right_eq_some.mp hb
      obtain ⟨c, hc, hrest⟩ := Option.bind_eq_some_iff.mp hb
      obtain ⟨k, hk, hpre, hfin, hirq, rfl⟩ := isa_step hs hr hf hq ht hoff hD hrun hc
      have hstay := not_leaves hD (hf t).even hc hok
      have hkT := boundary_le_stray hs hr hf hT ht htT hstay hk
      obtain ⟨m, hmT, hcount, hm, hview⟩ := ih hpre hirq hfin hkT hrest
      refine ⟨m, hmT, ?_, hm, hview⟩
      rw [hcount, passed_next hk]
      omega

theorem passed_congr (hst : ∀ k ≤ T, q.state k = r.state k) {m : ℕ} (hm : m ≤ T) :
    passed q m = passed r m := by
  induction m with
  | zero => rw [passed, passed, Nat.count_zero, Nat.count_zero]
  | succ m ih =>
      have hlast := ih (by omega)
      rw [passed, passed] at hlast ⊢
      rw [Nat.count_succ, Nat.count_succ, hlast, hst (m + 1) hm]

end run

end TagSoc.Program

namespace TagSoc.Soc
open Clocked Cpu WbRam Program TaggedArrays

variable {g : ℕ} {r : Run (State.step (g := g))}

/-- Programs on the chip. Whatever `n` instructions of the instruction set make of the
registers, the program counter and the bytes of the memory, touching nothing else, the
chip has made of them when the processor has passed `n` boundaries: for any size of the
memory and any lines of the serial port and the timer, as long as interrupts are off. -/
theorem chip_runs_program (h : Reached r) (hstep : ∀ t, (r.input t).extCpuSinglestep = false)
    (hpre : (r.state 0).cpu.state = .preFetch) (hoff : (r.state 0).cpu.csr.irqEn = false)
    (hrun : (r.state 0).cpu.testFinished = false) {n : ℕ}
    {b : Rv32.State (BitVec (g + 4) → Byte)}
    (hb : isaRunIn inRam (loc g) n
      (Refinement.view bytes (arch (cpuRun r) (contentsAt r) 0)) = some b) :
    ∃ m, passed (cpuRun r) m = n ∧ (r.state m).cpu.state = .preFetch ∧
      Refinement.view bytes (arch (cpuRun r) (contentsAt r) m) = b := by
  rcases asksRam_cases r with hall | ⟨T, hT, hstray⟩
  · obtain ⟨m, -, hcount, hm⟩ := isa_run (ramDevice_bytes g) (h.slave (h.bus_free hpre) hall)
      h.running (fun t => (h.wired t).flow) hstep n hpre hoff hrun (isaRun_of_isaRunIn hb)
    rw [show passed (cpuRun r) 0 = 0 from Nat.count_zero _, Nat.zero_add] at hcount
    exact ⟨m, hcount, hm⟩
  · have harch : ∀ m ≤ T, arch (detour r T) (detourMem r T) m =
        arch (cpuRun r) (contentsAt r) m := by
      intro m hm
      simp only [arch, detour_state hm, detourMem_eq hm]
    have hzero := detour_state (r := r) (Nat.zero_le T)
    have hquiet : Unstepped (detour r T) :=
      detour_inputs (P := fun i => i.externalSinglestep = false) hstep fun _ _ => rfl
    obtain ⟨m, hm, hcount, hst, hview⟩ := isaIn_run (ramDevice_bytes g) (h.detour_slave hpre hT)
      (h.detour_running T) (h.detour_flow hpre hT) hquiet hstray n (t := 0)
      (by rw [hzero]; exact hpre) (by rw [hzero]; exact hoff) (by rw [hzero]; exact hrun)
      (Nat.zero_le T) (by rw [harch 0 (Nat.zero_le T)]; exact hb)
    rw [show passed (detour r T) 0 = 0 from Nat.count_zero _, Nat.zero_add,
      passed_congr (fun k hk => detour_state hk) hm] at hcount
    rw [detour_state hm] at hst
    rw [harch m hm] at hview
    exact ⟨m, hcount, hst, hview⟩

/-- The first two instructions of `printing` stay in the memory. -/
theorem chip_runs_program_printing : ∃ m, passed (cpuRun printing) m = 2 ∧
    (printing.state m).cpu.state = .preFetch ∧ (printing.state m).cpu.pc = 0x1008#32 ∧
    bytes (contentsAt printing m) 24#5 = 7#8 := by
  obtain ⟨m, hm, hst, hview⟩ := chip_runs_program ((booted_reached _ _ _ _ rfl).drop 1)
    (fun _ => rfl) rfl rfl rfl (n := 2)
    (Option.some_get (x := isaRunIn inRam (loc 1) 2
      (Refinement.view bytes (arch (cpuRun printing) (contentsAt printing) 0)))
      (by decide +kernel)).symm
  refine ⟨m, hm, hst, ?_, ?_⟩
  · refine (congrArg Rv32.State.pc hview).trans ?_
    decide +kernel
  · refine (congrArg (fun s => s.mem 24#5) hview).trans ?_
    decide +kernel

end TagSoc.Soc
