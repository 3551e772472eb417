import TagSoc.CsrRun
import TagSoc.Refinement

/-!
# Zicsr

What the CSR instructions are for: a set of named words, read and written
together with the registers. `CsrInstr.exec` says it without clocks, and
`csr_instructions_independent` says that the core does it, for one instruction
and for any sequence of them. Nothing stands between a program and the words
it should not reach: `csr_access_never_refused`.
-/
namespace TagSoc.Zicsr
open Clocked Decoder Csr Cpu Datapath Registers BitSlices

abbrev Word := BitVec 32

/-! ## The instructions -/

inductive CsrOp where
  | csrrw | csrrs | csrrc | csrrwi | csrrsi | csrrci
deriving Repr, DecidableEq

def CsrOp.funct3 : CsrOp → BitVec 3
  | .csrrw => 0b001#3
  | .csrrs => 0b010#3
  | .csrrc => 0b011#3
  | .csrrwi => 0b101#3
  | .csrrsi => 0b110#3
  | .csrrci => 0b111#3

/-- In the immediate forms `rs1` is the immediate. -/
structure CsrInstr where
  op : CsrOp
  rd : BitVec 5
  rs1 : BitVec 5
  csr : BitVec 12
deriving Repr, DecidableEq

namespace CsrInstr

def encode (i : CsrInstr) : Word := i.csr ++ i.rs1 ++ i.op.funct3 ++ i.rd ++ 0b1110011#7

/-- The source operand. -/
def source (i : CsrInstr) (x : RegFile) : Word :=
  match i.op with
  | .csrrw | .csrrs | .csrrc => x i.rs1
  | .csrrwi | .csrrsi | .csrrci => i.rs1.setWidth 32

/-- The word left in the CSR. -/
def new (i : CsrInstr) (x : RegFile) (old : Word) : Word :=
  match i.op with
  | .csrrw | .csrrwi => i.source x
  | .csrrs | .csrrsi => old ||| i.source x
  | .csrrc | .csrrci => old &&& ~~~i.source x

end CsrInstr

/-- The fields come back out of the encoding. -/
theorem encode_fields (i : CsrInstr) :
    i.encode.extractLsb' 0 7 = 0b1110011#7 ∧ i.encode.extractLsb' 7 5 = i.rd ∧
      i.encode.extractLsb' 12 3 = i.op.funct3 ∧ i.encode.extractLsb' 15 5 = i.rs1 ∧
      i.encode.extractLsb' 20 12 = i.csr := by
  unfold CsrInstr.encode
  refine ⟨?_, ?_, ?_, ?_, ?_⟩ <;> apply BitVec.eq_of_getLsbD_eq <;> intro j hj
  all_goals
    simp only [BitVec.getLsbD_extractLsb', BitVec.getLsbD_append, hj, decide_true, Bool.true_and]
  all_goals
    interval_cases j <;> rfl

/-- What the decoder makes of a CSR instruction. -/
structure Decodes (i : CsrInstr) (d : Decoded) : Prop where
  stage : d.execNextStage = .toSystem
  kind : systemKind d = .csr
  csr : d.imm.extractLsb' 0 12 = i.csr
  rs1 : d.rs1 = i.rs1
  rd : d.rd = i.rd
  funct3 : d.funct3 = i.op.funct3

theorem decode_encode (i : CsrInstr) : Decodes i (decode i.encode) := by
  obtain ⟨hlow, hrd, hf, hrs1, hcsr⟩ := encode_fields i
  have hcop : cOp i.encode = 0b11#2 := by
    rw [cOp, ← extractLsb'_extractLsb' i.encode 0 7 0 2 (by decide), hlow]
    rfl
  have hop : opcode i.encode = opSystem := by
    rw [opcode, ← extractLsb'_extractLsb' i.encode 0 7 2 5 (by decide), hlow]
    rfl
  have hcontrol : Decoder.control i.encode =
      { rs1 := i.rs1, rs2 := i.encode.extractLsb' 20 5, rd := i.rd, execNextStage := .toSystem } := by
    simp only [Decoder.control, control32, hcop, hop, ← hrs1, ← hrd]
    rfl
  have hfunct : (decode i.encode).funct3 = i.op.funct3 := by
    rw [decode, Decoder.funct3, if_pos hcop, hf]
  constructor
  case stage => rw [decode, hcontrol]
  case kind =>
    rw [systemKind, hfunct]
    cases i.op <;> rfl
  case csr =>
    rw [decode, Decoder.imm, if_pos hcop, imm32, hop]
    rw [if_neg (by decide), if_neg (by decide), if_neg (by decide), if_neg (by decide),
      extractLsb'_append_low _ _ 0 12 (by decide), hcsr]
    exact BitVec.extractLsb'_eq_self
  case rs1 => rw [decode, hcontrol]
  case rd => rw [decode, hcontrol]
  case funct3 => exact hfunct

/-- The write-back word of the core is the new word of the specification. -/
theorem csrNew_eq (i : CsrInstr) (x : RegFile) (old : Word) :
    csrNew i.op.funct3 i.rs1 (x i.rs1) old = i.new x old := by
  have hzero : 0#27 ++ i.rs1 = i.rs1.setWidth 32 :=
    (BitVec.setWidth_eq_append (by decide)).symm
  unfold csrNew CsrInstr.new CsrInstr.source
  cases i.op
  case csrrw => rfl
  case csrrs => exact BitVec.or_comm _ _
  case csrrc => exact BitVec.and_comm _ _
  case csrrwi => exact hzero
  case csrrsi =>
    rw [hzero]
    exact BitVec.or_comm _ _
  case csrrci =>
    rw [hzero]
    exact BitVec.and_comm _ _

/-! ## One instruction on the core -/

/-- What an instruction does to the core's own state, for any address but that
of the random source. -/
structure Done (i : CsrInstr) (s s' : Cpu.State) : Prop where
  regs : s'.regs.regfile = RegFile.write s.regs.regfile i.rd (s.csr.ram.mem (csrIndex i.csr))
  pc : s'.pc = s.pc + 4#32
  file : s'.csr.ram.mem = writeWord s.csr.ram.mem i.csr
    (i.new s.regs.regfile (s.csr.ram.mem (csrIndex i.csr)))

section run
variable {M : Type*} {v : BitVec 32} {D : Device M} {r : Run (Cpu.State.step v)} {mem : ℕ → M}
  (hs : Slave D r mem) (hr : Running r) (hf : ∀ t, Flow (r.state t))
include hs hr hf

theorem csr_instruction {t : ℕ} (ht : (r.state t).state = .preFetch) (hno : Uninterrupted r t)
    {i : CsrInstr} (hrnd : csrIndex i.csr ≠ mRnd) (hw : fetched D (arch r mem t) = i.encode) :
    ∃ n, NextBoundary r t n ∧ Done i (r.state t) (r.state n) ∧ mem n = mem t ∧
      ∀ k, t ≤ k → k < n → ((r.state k).control (r.input k)).trapOccured = false := by
  have hc : ∀ t, Coherent (r.state t) := fun t => (hf t).toCoherent
  have hu := hs.undisturbed hr
  have hdec := decode_encode i
  rw [← hw] at hdec
  obtain ⟨m, htm, hx⟩ := system_run hs hr hc ht hno hdec.stage
  obtain ⟨hn, hmem, hquiet⟩ := csr_boundary hs hr hc htm hx hdec.stage hdec.kind
  rw [hw] at hx
  rw [hw, ← hx.dec] at hdec
  have hrun := csr_run (fun n _ => hc n) (fun n _ => hu n) hx.state hdec.kind hdec.stage
  have haddr : (r.state m).csrAddr = i.csr := hdec.csr
  have hb := (hc m).csr_free (by rw [hx.state]; rfl)
  have hcw := (hf m).csr_we_free (by rw [hx.state]; rfl)
  have hfile : (r.state m).csr.settled = (r.state t).csr.ram.mem := by
    rw [hx.csr.settled]
    exact settled_of_not_we _ ((hf t).csr_we_free (by rw [ht]; rfl))
  obtain ⟨hport, hport'⟩ := csr_port hb hcw (by rw [haddr]; exact hrnd)
  rw [haddr, hfile] at hport hport'
  have hregs := (hx.frame m (by omega) le_rfl).1
  have hval : (r.state m).regs.regval1 = (r.state t).regs.regfile i.rs1 := by
    rw [hx.regval1, ← hx.dec, hdec.rs1]
  have hlen : Datapath.instrLen i.encode = 4#32 := by
    rw [Datapath.instrLen, if_pos]
    rw [← extractLsb'_extractLsb' i.encode 0 7 0 2 (by decide), (encode_fields i).1]
    rfl
  refine ⟨m + 6, hn, ⟨?_, ?_, ?_⟩, hmem, hquiet⟩
  · rw [hrun, Cpu.State.writeRd, hport, hregs, hdec.rd]
  · have heven := even_add (hf t).even (y := 4#32) rfl
    rw [hrun, hx.next, hlen, and_not_one heven]
  · rw [← settled_of_not_we _ ((hf (m + 6)).csr_we_boundary hn.2.1), hrun, csrWritten_settled hb hcw, haddr, hfile, hport',
      hdec.funct3, hdec.rs1, hval, csrNew_eq]

end run

/-! ## Sequences -/

/-- The CSRs that a program may read and write. -/
inductive RwCsr where
  | mstatus | misa | mie | mtvec | mcounteren | mscratch | mepc | mcause | mtval | mip | tags
deriving Repr, DecidableEq

namespace RwCsr

def addr : RwCsr → BitVec 12
  | mstatus => 0x300#12
  | misa => 0x301#12
  | mie => 0x304#12
  | mtvec => 0x305#12
  | mcounteren => 0x306#12
  | mscratch => 0x340#12
  | mepc => 0x341#12
  | mcause => 0x342#12
  | mtval => 0x343#12
  | mip => 0x344#12
  | tags => 0x345#12

/-- Where the block keeps it. -/
def slot (c : RwCsr) : BitVec 4 := csrIndex c.addr

theorem slot_injective : Function.Injective slot := by
  intro a b
  cases a <;> cases b <;> decide

/-- The slots of the read-write CSRs are those from 2 to 12. -/
theorem slot_range (c : RwCsr) : 2#4 ≤ c.slot ∧ c.slot.toNat < ramWords := by
  cases c <;> decide

end RwCsr

structure RwInstr where
  op : CsrOp
  rd : BitVec 5
  rs1 : BitVec 5
  csr : RwCsr
deriving Repr, DecidableEq

/-- The programmer's view: registers, program counter and one word for each CSR. -/
structure Arch where
  regs : RegFile
  pc : Word
  csrs : RwCsr → Word
  mvendorid : Word
  mhartid : Word

namespace RwInstr

def instr (i : RwInstr) : CsrInstr := ⟨i.op, i.rd, i.rs1, i.csr.addr⟩

def exec (a : Arch) (i : RwInstr) : Arch :=
  { a with
    regs := RegFile.write a.regs i.rd (a.csrs i.csr)
    pc := a.pc + 4#32
    csrs := Function.update a.csrs i.csr (i.instr.new a.regs (a.csrs i.csr)) }

end RwInstr

/-- The view of a core state between instructions. -/
def view (s : Cpu.State) : Arch where
  regs := s.regs.regfile
  pc := s.pc
  csrs c := s.csr.ram.mem c.slot
  mvendorid := s.csr.ram.mem mVendorId
  mhartid := s.csr.ram.mem mHartId

theorem Done.view {i : RwInstr} {s s' : Cpu.State} (h : Done i.instr s s') :
    view s' = i.exec (view s) := by
  obtain ⟨hlow, hlt⟩ := i.csr.slot_range
  have hother : ∀ k : BitVec 4, k < 2#4 → s'.csr.ram.mem k = s.csr.ram.mem k := by
    intro k hk
    rw [h.file]
    refine writeWord_of_ne fun he => ?_
    rw [he] at hk
    exact BitVec.not_le.mpr hk hlow
  have hcsrs : (fun c : RwCsr => s'.csr.ram.mem c.slot) =
      Function.update (fun c => s.csr.ram.mem c.slot) i.csr
        (i.instr.new s.regs.regfile (s.csr.ram.mem i.csr.slot)) := by
    funext c
    rw [h.file]
    by_cases hc : c = i.csr
    · subst hc
      rw [Function.update_self]
      exact writeWord_self hlt
    · rw [Function.update_of_ne hc]
      exact writeWord_of_ne fun he => hc (RwCsr.slot_injective he)
  simp only [Zicsr.view, RwInstr.exec, h.regs, h.pc, hcsrs, hother mVendorId (by decide),
    hother mHartId (by decide)]
  rfl


/-- The instructions stand one after the other from address `pc`; a fetch does
not look at the registers. -/
def CodeAt {M : Type*} (D : Device M) (m : M) : Word → List RwInstr → Prop
  | _, [] => True
  | pc, i :: is =>
      fetched D ⟨fun _ => 0#32, pc, m⟩ = i.instr.encode ∧ CodeAt D m (pc + 4#32) is

section run
variable {M : Type*} {v : BitVec 32} {D : Device M} {r : Run (Cpu.State.step v)} {mem : ℕ → M}
  (hs : Slave D r mem) (hr : Running r) (hf : ∀ t, Flow (r.state t))
include hs hr hf

/-- The idle state between two instructions, if it is entered, is left as it
was found. -/
theorem resume_view {t : ℕ} (ht : (r.state t).atBoundary = true)
    (hgo : (r.state t).state = .cpuIdle → ∃ n, t ≤ n ∧ (r.input n).externalDoStep = true) :
    ∃ n, t ≤ n ∧ (r.state n).state = .preFetch ∧ view (r.state n) = view (r.state t) ∧
      mem n = mem t := by
  have hu := hs.undisturbed hr
  obtain ⟨n, hn, ⟨hpre, hpc, hregs, hkept⟩, hidle⟩ :=
    resume_run (fun t => (hf t).toCoherent) hu ht hgo
  have hmem : mem n = mem t :=
    hs.mem_const (fun t => (hf t).toCoherent) hn fun k hk hlt => by rw [hidle k hk hlt]; rfl
  have hfile : (r.state n).csr.ram.mem = (r.state t).csr.ram.mem := by
    have h := hkept.settled
    rwa [settled_of_not_we _ ((hf n).csr_we_free (by rw [hpre]; rfl)),
      settled_of_not_we _ ((hf t).csr_we_boundary ht)] at h
  refine ⟨n, hn, hpre, ?_, hmem⟩
  simp only [view, hregs, hpc, hfile]

/-- One read-write instruction, in the programmer's view. -/
theorem rw_instruction {t : ℕ} (ht : (r.state t).state = .preFetch) (hno : Uninterrupted r t)
    {i : RwInstr} (hw : fetched D (arch r mem t) = i.instr.encode) :
    ∃ n, NextBoundary r t n ∧ view (r.state n) = i.exec (view (r.state t)) ∧ mem n = mem t := by
  have hrnd : csrIndex i.instr.csr ≠ mRnd := by
    intro he
    have hlt := i.csr.slot_range.2
    rw [RwCsr.slot, show i.csr.addr = i.instr.csr from rfl, he] at hlt
    exact absurd hlt (by decide)
  obtain ⟨n, hn, hdone, hmem, -⟩ := csr_instruction hs hr hf ht hno hrnd hw
  exact ⟨n, hn, hdone.view, hmem⟩

/-- A sequence of them, by induction on the code. -/
theorem rw_sequence (hno : ∀ t, Uninterrupted r t)
    (hgo : ∀ t, (r.state t).state = .cpuIdle → ∃ n, t ≤ n ∧ (r.input n).externalDoStep = true)
    (is : List RwInstr) {t : ℕ} (ht : (r.state t).atBoundary = true)
    (hcode : CodeAt D (mem t) (r.state t).pc is) :
    ∃ n, t ≤ n ∧ (r.state n).atBoundary = true ∧
      view (r.state n) = is.foldl RwInstr.exec (view (r.state t)) ∧ mem n = mem t := by
  induction is generalizing t with
  | nil => exact ⟨t, le_rfl, ht, rfl, rfl⟩
  | cons i is ih =>
      obtain ⟨q, hq, hpre, hview, hmem⟩ := resume_view hs hr hf ht (hgo t)
      have hpc : (r.state q).pc = (r.state t).pc := congrArg Arch.pc hview
      have hw : fetched D (arch r mem q) = i.instr.encode := by
        rw [arch, hpc, hmem]
        exact hcode.1
      obtain ⟨n, hn, hexec, hmem'⟩ := rw_instruction hs hr hf hpre (hno q) hw
      have hnext : (r.state n).pc = (r.state t).pc + 4#32 := by
        rw [← hpc]
        exact congrArg Arch.pc hexec
      have hrest : CodeAt D (mem n) (r.state n).pc is := by
        rw [hmem', hmem, hnext]
        exact hcode.2
      obtain ⟨p, hp, hbound, hfold, hmemp⟩ := ih hn.2.1 hrest
      have hqn := hn.1
      refine ⟨p, by omega, hbound, ?_, ?_⟩
      · rw [hfold, hexec, hview]
        rfl
      · rw [hmemp, hmem', hmem]

end run

/-- The CSR instructions do what the instruction set says, on every read-write
CSR and from every state: the old word goes to the destination, the new one to
the CSR, nothing else changes, and execution falls through; so any sequence of
them treats the CSRs as independent variables. -/
theorem csr_instructions_independent {M : Type*} {v : BitVec 32} {D : Device M}
    {r : Run (Cpu.State.step v)} {mem : ℕ → M} (hs : Slave D r mem) (hr : Running r)
    (h0 : Flow (r.state 0)) :
    (∀ t (i : RwInstr), (r.state t).state = .preFetch → Uninterrupted r t →
      fetched D (arch r mem t) = i.instr.encode →
      ∃ n, NextBoundary r t n ∧ view (r.state n) = i.exec (view (r.state t)) ∧ mem n = mem t) ∧
    ((∀ t, Uninterrupted r t) →
      (∀ t, (r.state t).state = .cpuIdle → ∃ n, t ≤ n ∧ (r.input n).externalDoStep = true) →
      ∀ t (is : List RwInstr), (r.state t).atBoundary = true →
      CodeAt D (mem t) (r.state t).pc is →
      ∃ n, t ≤ n ∧ (r.state n).atBoundary = true ∧
        view (r.state n) = is.foldl RwInstr.exec (view (r.state t)) ∧ mem n = mem t) := by
  have hf := Running.flow (hs.undisturbed hr) h0
  refine ⟨fun t i ht hno hw => ?_, fun hno hgo t is ht hcode => ?_⟩
  · exact rw_instruction hs hr hf ht hno hw
  · exact rw_sequence hs hr hf hno hgo is ht hcode

/-- `csrrw x2, mscratch, x1` and `csrrs x1, mscratch, x3` with `x1 = 5` and
`x3 = 2`: the second reads what the first has written. -/
theorem csr_instructions_write_then_read :
    let is : List RwInstr := [⟨.csrrw, 2#5, 1#5, .mscratch⟩, ⟨.csrrs, 1#5, 3#5, .mscratch⟩]
    let D : Device Unit :=
      ⟨fun _ _ a => if a = 0#32 then is[0].instr.encode else is[1].instr.encode, fun m _ _ _ => m⟩
    let s₀ := restState (fun k => if k = 1#5 then 5#32 else if k = 3#5 then 2#32 else 0#32) 0#32
    let i : Cpu.Inputs := ⟨false, false, 0#32, false, false, false, false, false, true⟩
    let r := benchRun D (fun _ => true) i 0#32 s₀ ()
    ∃ n, (view (r.state n)).csrs .mscratch = 7#32 ∧ (view (r.state n)).regs 1#5 = 5#32 ∧
      (view (r.state n)).pc = 8#32 := by
  intro is D s₀ i r
  have hquiet : Quiet r := ⟨fun _ => rfl, fun _ => rfl, fun _ => rfl⟩
  obtain ⟨n, -, -, hview, -⟩ := (csr_instructions_independent (v := 0#32)
    (benchRun_slave D (fun _ => true) i (fun t => ⟨t, le_rfl, rfl⟩) s₀ ())
    ⟨fun _ => rfl, fun _ => rfl⟩ (restState_flow rfl (by decide))).2 hquiet.uninterrupted
    (fun t _ => ⟨t, le_rfl, rfl⟩) 0 is rfl ⟨by decide, by decide, trivial⟩
  exact ⟨n, by rw [hview]; decide, by rw [hview]; decide, by rw [hview]; decide⟩

/-! ## Addresses that should be refused -/

/-- The addresses the block has a case for. -/
def implemented : List (BitVec 12) :=
  [msrMvendorid, msrMhartid, msrMstatus, msrMisa, msrMie, msrMtvec, msrMcounteren, msrMscratch,
    msrMepc, msrMcause, msrMtval, msrMip, msrMtags, msrMrnd]

/-- Whether the instruction set counts the instruction as a write. -/
def CsrInstr.writes (i : CsrInstr) : Prop := i.op = .csrrw ∨ i.op = .csrrwi ∨ i.rs1 ≠ 0#5

instance (i : CsrInstr) : Decidable i.writes := inferInstanceAs (Decidable (_ ∨ _ ∨ _))

/-- An access that is not there or a write to a read-only word. -/
def CsrInstr.Invalid (i : CsrInstr) : Prop :=
  i.csr ∉ implemented ∨ (i.csr = msrMvendorid ∨ i.csr = msrMhartid) ∧ i.writes

instance (i : CsrInstr) : Decidable i.Invalid := inferInstanceAs (Decidable (_ ∨ _ ∧ _))

/-- The CSRs a trap may change. -/
def trapSlots : List (BitVec 4) := [mStatus, mEpc, mCause, mTval, mIp]

/-- What should happen to the instruction at clock `t`: a trap is raised on the
way to the next boundary, with the illegal-instruction cause and the address of
the instruction, and nothing else changes. -/
def Refused {v : BitVec 32} (r : Run (Cpu.State.step v)) (t : ℕ) : Prop :=
  ∃ n, NextBoundary r t n ∧
    (∃ k, t ≤ k ∧ k < n ∧ ((r.state k).control (r.input k)).trapOccured = true) ∧
    (r.state n).csr.ram.mem mCause = causeInvalidInstruction ∧
    (r.state n).csr.ram.mem mEpc = (r.state t).pc ∧
    (r.state n).regs.regfile = (r.state t).regs.regfile ∧
    ∀ k, k ∉ trapSlots → (r.state n).csr.ram.mem k = (r.state t).csr.ram.mem k

theorem not_refused {M : Type*} {v : BitVec 32} {D : Device M} {r : Run (Cpu.State.step v)}
    {mem : ℕ → M} (hs : Slave D r mem) (hr : Running r) (hc : ∀ t, Coherent (r.state t)) {t : ℕ}
    (ht : (r.state t).state = .preFetch) (hno : Uninterrupted r t) {i : CsrInstr}
    (hw : fetched D (arch r mem t) = i.encode) : ¬ Refused r t := by
  rintro ⟨n, hn, ⟨k, hk, hkn, htrap⟩, -⟩
  have hdec := decode_encode i
  rw [← hw] at hdec
  obtain ⟨m, htm, hx⟩ := system_run hs hr hc ht hno hdec.stage
  obtain ⟨hm, -, hquiet⟩ := csr_boundary hs hr hc htm hx hdec.stage hdec.kind
  obtain rfl := hn.unique hm
  rw [hquiet k hk hkn] at htrap
  exact absurd htrap Bool.false_ne_true

/-- No CSR instruction is ever refused, whatever its address. -/
theorem csr_access_never_refused {M : Type*} {v : BitVec 32} {D : Device M}
    {r : Run (Cpu.State.step v)} {mem : ℕ → M} (hs : Slave D r mem) (hr : Running r)
    (h0 : Coherent (r.state 0)) {t : ℕ} (ht : (r.state t).state = .preFetch)
    (hno : Uninterrupted r t) {i : CsrInstr} (_hi : i.Invalid)
    (hw : fetched D (arch r mem t) = i.encode) : ¬ Refused r t :=
  not_refused hs hr (hr.coherent h0) ht hno hw

/-- `csrrw x0, mhartid, x1`. -/
theorem csr_access_hart_id_not_refused :
    let i : CsrInstr := ⟨.csrrw, 0#5, 1#5, msrMhartid⟩
    let D : Device Unit := ⟨fun _ _ _ => i.encode, fun m _ _ _ => m⟩
    ¬ Refused (benchRun D (fun _ => true) Refinement.quietInputs 0#32
      (restState (fun _ => 0#32) 0#32) ()) 0 := by
  intro i D
  exact csr_access_never_refused (i := i)
    (benchRun_slave (v := 0#32) D (fun _ => true) Refinement.quietInputs (fun t => ⟨t, le_rfl, rfl⟩)
      (restState (fun _ => 0#32) 0#32) ())
    ⟨fun _ => rfl, fun _ => rfl⟩ (restState_boundary rfl (by decide)).coherent rfl
    ((Refinement.quietInputs_quiet _ _ _ _).uninterrupted 0) (by decide) (by decide)

/-- `csrrw x0, 0x7C0, x1` with `x1 = 5` overwrites `mvendorid`. -/
theorem csr_access_overwrites_vendor_id :
    let i : CsrInstr := ⟨.csrrw, 0#5, 1#5, 0x7C0#12⟩
    let D : Device Unit := ⟨fun _ _ _ => i.encode, fun m _ _ _ => m⟩
    let s₀ := restState (fun k => if k = 1#5 then 5#32 else 0#32) 0#32
    let r := benchRun D (fun _ => true) Refinement.quietInputs 0#32 s₀ ()
    let mem := benchMem D (fun _ => true) Refinement.quietInputs 0#32 s₀ ()
    Slave D r mem ∧ Running r ∧ Coherent (r.state 0) ∧ (r.state 0).state = .preFetch ∧
      Uninterrupted r 0 ∧ i.Invalid ∧ fetched D (arch r mem 0) = i.encode ∧ ¬ Refused r 0 ∧
      (r.state 0).csr.ram.mem mVendorId = 0#32 ∧ (r.state 11).csr.ram.mem mVendorId = 5#32 := by
  intro i D s₀ r mem
  have hs : Slave D r mem := benchRun_slave _ _ _ (fun t => ⟨t, le_rfl, rfl⟩) _ _
  have hr : Running r := ⟨fun _ => rfl, fun _ => rfl⟩
  have hc : Coherent (r.state 0) := (restState_boundary rfl (by decide)).coherent
  have hno : Uninterrupted r 0 := (Refinement.quietInputs_quiet _ _ _ _).uninterrupted 0
  exact ⟨hs, hr, hc, rfl, hno, by decide, by decide,
    not_refused hs hr (hr.coherent hc) rfl hno (i := i) (by decide), rfl, by decide⟩

end TagSoc.Zicsr
