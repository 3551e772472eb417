import TagSoc.StraightLine

/-!
# The interrupt wrapper

`__isr_wrapper` of `isr.S` with the macros of `esf.h.erb`: all registers are
saved to a frame below the stack pointer, the stack pointer is aligned and its
old value put below the frame, and the service routine is called; then the way
back. The stack pointer is saved like the others, after it was moved, so that its
slot holds the address of the frame.

The code is uncompressed, a `call` has two instructions and the address at which
the service routine returns is in `ra`.
-/
namespace TagSoc.Isr
open Rv32 StraightLine

def zero : Reg := 0#5
def ra : Reg := 1#5
def sp : Reg := 2#5
def t1 : Reg := 6#5
def t2 : Reg := 7#5
def a0 : Reg := 10#5
def a1 : Reg := 11#5

/-- `gprs`: sp, ra, gp, tp, s0 to s11, a0 to a7, t0 to t6. -/
def gprs : List Reg :=
  [sp, ra, 3#5, 4#5,
    8#5, 9#5, 18#5, 19#5, 20#5, 21#5, 22#5, 23#5, 24#5, 25#5, 26#5, 27#5,
    10#5, 11#5, 12#5, 13#5, 14#5, 15#5, 16#5, 17#5,
    5#5, 6#5, 7#5, 28#5, 29#5, 30#5, 31#5]

/-- The number of `csrs`, which have a place in the frame but are not saved. -/
def csrs : ℕ := 2

/-- `__ESF_OFFSET_OF_` the register. -/
def esfOffsetOf (r : Reg) : Word := BitVec.ofNat 32 (gprs.idxOf r * 4)

/-- `__ESF_STRUCTURE_SIZE` -/
def esfStructureSize : Word := BitVec.ofNat 32 ((gprs.length + csrs) * 4)

/-- `__D_PUSH_GPR2ESF` -/
def pushGpr2esf : List Instr := saves sp esfOffsetOf gprs

/-- `__D_POP_ESF2GPR` -/
def popEsf2gpr : List Instr := loads sp esfOffsetOf gprs.reverse

/-- The alignment of the stack pointer. -/
def alignSp : List Instr :=
  [.opImm .add t1 sp 0#32, .opImm .add t1 t1 (-16#32),
    .opImm .add t2 zero 0xf#32, .opImm .xor t2 t2 (-1#32), .op .and t1 t1 t2,
    .store .sw t1 sp 0#32,
    .opImm .add a0 sp 0#32, .opImm .add sp t1 0#32]

/-- Up to the test of the cause. -/
def prologue : List Instr :=
  [.opImm .add sp sp (-esfStructureSize)] ++ pushGpr2esf ++ alignSp

/-- From the label `restore` up to `mret`. -/
def epilogue : List Instr :=
  [.load .lw sp sp 0#32] ++ popEsf2gpr ++ [.opImm .add sp sp esfStructureSize]

/-- `csrr rd, mcause` -/
def csrrMcause (rd : Reg) (mcause : Word) (s : Machine) : Machine :=
  { s with regs := setReg s.regs rd mcause, pc := s.pc + 4#32 }

/-- `call f` -/
def call (f : Word) (s : Machine) : Machine :=
  { s with regs := setReg s.regs ra (s.pc + 8#32), pc := f }

/-- The clearing of the interrupt bit of the cause. -/
def clearInterruptBit : List Instr :=
  [.lui t1 0x80000000#32, .opImm .add t1 t1 (-1#32), .op .and a1 a1 t1]

/-- The service routines, as what their calls make of the machine. -/
structure Services where
  excServe : Word
  intServe : Word
  run : Machine → Machine

/-- The test of the cause: `blt a1, zero, interrupt`. -/
def tested (mcause : Word) (s : Machine) : Machine :=
  exec flat 4#32 (.branch .blt a1 zero 16#32) (csrrMcause a1 mcause (block prologue s))

def isInterrupt (mcause : Word) (s : Machine) : Bool :=
  BranchOp.blt.taken ((csrrMcause a1 mcause (block prologue s)).regs a1)
    ((csrrMcause a1 mcause (block prologue s)).regs zero)

/-- The machine when a service routine is entered. -/
def entered (services : Services) (mcause : Word) (s : Machine) : Machine :=
  if isInterrupt mcause s then
    call services.intServe (block clearInterruptBit (tested mcause s))
  else call services.excServe (tested mcause s)

/-- The machine at the label `restore`. -/
def served (services : Services) (mcause : Word) (s : Machine) : Machine :=
  let s₁ := services.run (entered services mcause s)
  if isInterrupt mcause s then s₁ else exec flat 4#32 (.jal zero 24#32) s₁

/-- The machine at `mret`. -/
def isrWrapper (services : Services) (mcause : Word) (s : Machine) : Machine :=
  block epilogue (served services mcause s)

/-! ## The way in -/

theorem gprs_complete : ∀ r : Reg, r ≠ 0#5 → r ∈ gprs := by decide

theorem gprs_slots : Slots gprs esfOffsetOf 124 where
  aligned := by decide
  inside := by decide
  injective := by decide +kernel

/-- The value the aligned stack pointer has. -/
def aligned (x : Word) : Word := (x + -16#32) &&& ~~~0xf#32

theorem aligned_toNat {x : Word} (hx : 16 ≤ x.toNat) :
    (aligned x).toNat = (x.toNat - 16) / 16 * 16 := by
  have hsub : (x + -16#32).toNat = x.toNat - 16 := by
    have hneg : (-16#32).toNat = 2 ^ 32 - 16 := by decide
    have := x.isLt
    rw [BitVec.toNat_add, hneg]
    omega
  have hround := BitSlices.and_not_ones_toNat (x + -16#32) 4
  rw [hsub] at hround
  refine hround.trans ?_
  omega

theorem block_alignSp {s : Machine} (hzero : s.regs 0#5 = 0#32) :
    (block alignSp s).regs sp = aligned (s.regs sp) ∧ (block alignSp s).regs a0 = s.regs sp ∧
      (block alignSp s).regs 0#5 = 0#32 ∧
      (block alignSp s).mem = setWord s.mem (aligned (s.regs sp)) (s.regs sp) := by
  simp [block, alignSp, exec, setReg, Function.update, sp, t1, t2, a0, zero, hzero, Op.eval, aligned,
    flat_store]

theorem alignedBlock_alignSp {s : Machine} (hzero : s.regs 0#5 = 0#32)
    (h : (aligned (s.regs sp)).toNat % 4 = 0) : AlignedBlock alignSp s := by
  -- the only access is the store of the old stack pointer
  have hlink : (block (alignSp.take 5) s).regs t1 = aligned (s.regs sp) := by
    simp [block, alignSp, exec, setReg, Function.update, sp, t1, t2, zero, hzero, Op.eval, aligned]
  have hstore : (Instr.store .sw t1 sp 0#32).NaturallyAligned (block (alignSp.take 5) s).regs := by
    rw [Instr.NaturallyAligned, hlink, BitVec.add_zero]
    exact h
  exact ⟨trivial, trivial, trivial, trivial, trivial, hstore, trivial, trivial, trivial⟩

/-- Where the frame is. -/
def frame (s : Machine) : Word := s.regs sp - esfStructureSize

/-- The frame at `f` has the registers `v`, and below it is the way back to it. -/
structure Holds (f : Word) (v : Reg → Word) (m : Bytes) : Prop where
  frame : ∀ r ∈ gprs, wordAt m (f + esfOffsetOf r) = v r
  link : wordAt m (aligned f) = f

/-- The stack pointer is moved below the frame. -/
theorem moved_regs (s : Machine) :
    (exec flat 4#32 (.opImm .add sp sp (-esfStructureSize)) s).regs =
      Function.update s.regs sp (frame s) := by
  simp [exec, setReg, Op.eval, frame, sp, BitVec.sub_eq_add_neg]

section wayIn
variable {s : Machine} (hroom : 148 ≤ (s.regs sp).toNat)
include hroom

theorem frame_toNat : (frame s).toNat = (s.regs sp).toNat - 132 := by
  have hsize : esfStructureSize.toNat = 132 := by decide
  rw [frame, BitVec.toNat_sub_of_le (BitVec.le_def.mpr (by omega)), hsize]

theorem slot_toNat {r : Reg} (hr : r ∈ gprs) :
    (frame s + esfOffsetOf r).toNat = (frame s).toNat + (esfOffsetOf r).toNat ∧
      (esfOffsetOf r).toNat + 4 ≤ 124 := by
  have hf := frame_toNat hroom
  have hin := gprs_slots.inside r hr
  have := (s.regs sp).isLt
  refine ⟨?_, hin⟩
  rw [BitVec.toNat_add]
  omega

theorem block_prologue (hzero : s.regs 0#5 = 0#32) :
    (block prologue s).regs sp = aligned (frame s) ∧ (block prologue s).regs a0 = frame s ∧
      (block prologue s).regs 0#5 = 0#32 ∧
      Holds (frame s) (Function.update s.regs sp (frame s)) (block prologue s).mem ∧
      ∀ x : Word, (s.regs sp).toNat ≤ x.toNat → (block prologue s).mem x = s.mem x := by
  have hf := frame_toNat hroom
  have hal := aligned_toNat (x := frame s) (by omega)
  have hlt := (s.regs sp).isLt
  -- the stack pointer is moved, the registers are saved, then it is aligned
  let s₁ := exec flat 4#32 (.opImm .add sp sp (-esfStructureSize)) s
  have hregs₁ : s₁.regs = Function.update s.regs sp (frame s) := moved_regs s
  have hsp₁ : s₁.regs sp = frame s := by rw [hregs₁, Function.update_self]
  have hzero₁ : s₁.regs 0#5 = 0#32 := by
    rw [hregs₁, Function.update_of_ne (by decide), hzero]
  let s₂ := block pushGpr2esf s₁
  have hregs₂ : s₂.regs = s₁.regs := block_saves_regs gprs s₁
  have hword₂ : ∀ r ∈ gprs, wordAt s₂.mem (frame s + esfOffsetOf r) = s₁.regs r := by
    intro r hr
    have hsaved := block_saves_word (b := sp) gprs_slots (s := s₁) (by rw [hsp₁]; omega) hr
    rwa [hsp₁] at hsaved
  have hout₂ : ∀ x : Word, (s.regs sp).toNat ≤ x.toNat → s₂.mem x = s.mem x := by
    intro x hx
    refine block_saves_out (b := sp) (s := s₁) (by rw [hsp₁]; omega) gprs_slots.inside
      fun r hr => ?_
    have := gprs_slots.inside r hr
    rw [hsp₁]
    omega
  have hsplit : block prologue s = block alignSp s₂ := by
    rw [prologue, block_append, block_append]
    rfl
  obtain ⟨hsp, ha0, hzero₃, hmem⟩ := block_alignSp (s := s₂) (by rw [hregs₂, hzero₁])
  rw [hregs₂, hsp₁] at hsp ha0 hmem
  rw [hsplit]
  refine ⟨hsp, ha0, hzero₃, ⟨?_, ?_⟩, ?_⟩
  · intro r hr
    obtain ⟨hslot, hin⟩ := slot_toNat hroom hr
    rw [← hregs₁, ← hword₂ r hr, hmem]
    exact wordAt_congr (by omega) fun x h₁ h₂ => setWord_out _ _ (by omega) (by omega)
  · rw [hmem]
    exact wordAt_setWord _ _
  · intro x hx
    rw [hmem, setWord_out _ _ (by omega) (by omega)]
    exact hout₂ x hx

theorem alignedBlock_prologue (hzero : s.regs 0#5 = 0#32) (halign : (s.regs sp).toNat % 4 = 0) :
    AlignedBlock prologue s := by
  have hf := frame_toNat hroom
  have hal := aligned_toNat (x := frame s) (by omega)
  let s₁ := exec flat 4#32 (.opImm .add sp sp (-esfStructureSize)) s
  have hregs₁ : s₁.regs = Function.update s.regs sp (frame s) := moved_regs s
  have hsp₁ : s₁.regs sp = frame s := by rw [hregs₁, Function.update_self]
  let s₂ := block pushGpr2esf s₁
  have hregs₂ : s₂.regs = s₁.regs := block_saves_regs gprs s₁
  have hsp₂ : s₂.regs sp = frame s := by rw [hregs₂, hsp₁]
  have hzero₂ : s₂.regs 0#5 = 0#32 := by
    rw [hregs₂, hregs₁, Function.update_of_ne (by decide), hzero]
  have hlink : (aligned (frame s)).toNat % 4 = 0 := by omega
  rw [prologue, alignedBlock_append, alignedBlock_append]
  refine ⟨⟨⟨trivial, trivial⟩, alignedBlock_saves gprs_slots.aligned (s := s₁) ?_⟩, ?_⟩
  · rw [hsp₁]
    omega
  · rw [block_append]
    exact alignedBlock_alignSp hzero₂ (hsp₂ ▸ hlink)

end wayIn

/-! ## The way back -/

theorem gprs_reverse : gprs.reverse = gprs.tail.reverse ++ [sp] := by decide

/-- The last two instructions give the stack pointer back. -/
theorem block_popSp (s : Machine) (off size : Word) :
    (∀ r ≠ sp, (block [.load .lw sp sp off, .opImm .add sp sp size] s).regs r = s.regs r) ∧
      (block [.load .lw sp sp off, .opImm .add sp sp size] s).regs sp =
        wordAt s.mem (s.regs sp + off) + size := by
  constructor
  · intro r hr
    have hne : sp ≠ 0#5 := by decide
    simp [block, exec, setReg, hne, Function.update_of_ne hr]
  · simp [block, exec, setReg, sp, flat_load, Op.eval]

/-- The first instruction finds the frame. -/
theorem popped_regs {s : Machine} {f : Word} {v : Reg → Word} (hsp : s.regs sp = aligned f)
    (h : Holds f v s.mem) :
    (block [.load .lw sp sp 0#32] s).regs = Function.update s.regs sp f := by
  have hlink := h.link
  rw [← hsp] at hlink
  simp [block, exec, setReg, sp, flat_load, ← hlink]

theorem block_epilogue {s : Machine} {f : Word} {v : Reg → Word} (hsp : s.regs sp = aligned f)
    (h : Holds f v s.mem) :
    (∀ r ∈ gprs, r ≠ sp → (block epilogue s).regs r = v r) ∧
      (block epilogue s).regs sp = v sp + esfStructureSize ∧ (block epilogue s).mem = s.mem := by
  let s₁ := block [.load .lw sp sp 0#32] s
  have hregs₁ : s₁.regs = Function.update s.regs sp f := popped_regs hsp h
  let s₂ := block (loads sp esfOffsetOf gprs.tail.reverse) s₁
  have hmem₂ : s₂.mem = s.mem := block_loads_mem _ s₁
  have hregs₂ : ∀ r, s₂.regs r = if r ∈ gprs.tail.reverse then wordAt s.mem (f + esfOffsetOf r)
      else s₁.regs r := by
    intro r
    have hloads : (block (loads sp esfOffsetOf gprs.tail.reverse) s₁).regs r = _ :=
      block_loads_regs (by decide) (by decide) s₁ r
    rwa [hregs₁, Function.update_self, ← hregs₁] at hloads
  have hsp₂ : s₂.regs sp = f := by
    rw [hregs₂, if_neg (by decide), hregs₁, Function.update_self]
  have hsplit : block epilogue s =
      block [.load .lw sp sp (esfOffsetOf sp), .opImm .add sp sp esfStructureSize] s₂ := by
    rw [epilogue, popEsf2gpr, gprs_reverse, loads_append, block_append, block_append, block_append]
    exact (block_append (loads sp esfOffsetOf [sp]) _ s₂).symm
  have hpop := block_popSp s₂ (esfOffsetOf sp) esfStructureSize
  rw [hsplit]
  refine ⟨?_, ?_, hmem₂⟩
  · intro r hr hne
    have htail : r ∈ gprs.tail.reverse := by
      rw [List.mem_reverse]
      exact (List.mem_cons.mp hr).resolve_left hne
    rw [hpop.1 r hne, hregs₂, if_pos htail, h.frame r hr]
  · rw [hpop.2, hsp₂, hmem₂, h.frame sp (by decide)]

theorem alignedBlock_epilogue {s : Machine} {f : Word} {v : Reg → Word}
    (hsp : s.regs sp = aligned f) (h : Holds f v s.mem) (hlink : (aligned f).toNat % 4 = 0)
    (hf : f.toNat % 4 = 0) : AlignedBlock epilogue s := by
  have hregs₁ := popped_regs hsp h
  have hsp₁ : (block [.load .lw sp sp 0#32] s).regs sp = f := by
    rw [hregs₁, Function.update_self]
  have hslots : ∀ r ∈ gprs.tail.reverse, (esfOffsetOf r).toNat % 4 = 0 := fun r hr =>
    gprs_slots.aligned r (List.mem_of_mem_tail (List.mem_reverse.mp hr))
  rw [epilogue, popEsf2gpr, gprs_reverse, loads_append, alignedBlock_append, alignedBlock_append,
    alignedBlock_append]
  refine ⟨⟨⟨?_, trivial⟩, alignedBlock_loads (by decide) hslots (hsp₁ ▸ hf), ?_, trivial⟩,
    trivial, trivial⟩
  · rw [Instr.NaturallyAligned, hsp, BitVec.add_zero]
    exact hlink
  · have hloads : (block (loads sp esfOffsetOf gprs.tail.reverse)
        (block [.load .lw sp sp 0#32] s)).regs sp = _ :=
      block_loads_regs (by decide) (by decide) _ sp
    rw [if_neg (by decide), hsp₁] at hloads
    rw [Instr.NaturallyAligned, hloads]
    exact slot_aligned hf (by decide)

/-! ## Between the two -/

/-- What the calling convention asks of a call from `s`. -/
structure FollowsConvention (run : Machine → Machine) (s : Machine) : Prop where
  stack : (run s).regs sp = s.regs sp
  mem : ∀ x : Word, (s.regs sp).toNat ≤ x.toNat → (run s).mem x = s.mem x
  returns : (run s).pc = s.regs ra

section calls
variable (services : Services) (mcause : Word) (s : Machine)

/-- The cause is read and tested without a change of what the prologue left. -/
theorem entered_eq : (entered services mcause s).regs sp = (block prologue s).regs sp ∧
    (entered services mcause s).regs a0 = (block prologue s).regs a0 ∧
    (entered services mcause s).mem = (block prologue s).mem := by
  unfold entered
  split
  · simp [call, block, clearInterruptBit, tested, csrrMcause, exec, setReg, Function.update, sp, ra,
      a0, a1, t1]
  · simp [call, tested, csrrMcause, exec, setReg, Function.update, sp, ra, a0, a1]

/-- Where the test of the cause goes. -/
theorem tested_pc : (tested mcause s).pc =
    s.pc + if isInterrupt mcause s then 180#32 else 168#32 := by
  have hpro : (block prologue s).pc = s.pc + 160#32 := block_pc (by decide) s
  have hpc : (tested mcause s).pc = if isInterrupt mcause s then (block prologue s).pc + 4#32 + 16#32
      else (block prologue s).pc + 4#32 + 4#32 := rfl
  rw [hpc, hpro]
  split <;> simp [BitVec.add_assoc]

/-- The service routine returns behind its call. -/
theorem entered_ra : (entered services mcause s).regs ra =
    s.pc + if isInterrupt mcause s then 200#32 else 176#32 := by
  have htest := tested_pc mcause s
  unfold entered
  split
  next hint =>
    have hclear : (block clearInterruptBit (tested mcause s)).pc = (tested mcause s).pc + 12#32 :=
      block_pc (by decide) _
    rw [if_pos hint] at htest
    simp [call, setReg, ra, hclear, htest, BitVec.add_assoc]
  next hexc =>
    rw [if_neg hexc] at htest
    simp [call, setReg, ra, htest, BitVec.add_assoc]

variable {services mcause s}

/-- The test finds the interrupt bit. -/
theorem isInterrupt_eq (hzero : (block prologue s).regs 0#5 = 0#32) :
    isInterrupt mcause s = mcause.msb := by
  have ha1 : (csrrMcause a1 mcause (block prologue s)).regs a1 = mcause := by
    simp [csrrMcause, setReg, a1]
  have hx0 : (csrrMcause a1 mcause (block prologue s)).regs zero = 0#32 := by
    simp [csrrMcause, setReg, a1, zero, hzero]
  rw [isInterrupt, ha1, hx0]
  exact BitVec.slt_zero_eq_msb

/-- The routine that is called, and its second argument. -/
theorem entered_call (hzero : (block prologue s).regs 0#5 = 0#32) :
    (entered services mcause s).pc = (if mcause.msb then services.intServe else services.excServe) ∧
      (entered services mcause s).regs a1 = mcause &&& 0x7fffffff#32 := by
  unfold entered
  rw [isInterrupt_eq hzero]
  split
  next =>
    refine ⟨rfl, ?_⟩
    simp [call, block, clearInterruptBit, tested, csrrMcause, exec, setReg, Function.update, ra, a1,
      t1, Op.eval]
  next hexc =>
    refine ⟨rfl, ?_⟩
    have hclear : mcause &&& 0x7fffffff#32 = mcause := by
      have hmask : (0x7fffffff#32).toNat = 2 ^ 31 - 1 := by decide
      rw [BitVec.msb_eq_decide, decide_eq_true_eq] at hexc
      apply BitVec.eq_of_toNat_eq
      rw [BitVec.toNat_and, hmask, Nat.and_two_pow_sub_one_eq_mod]
      exact Nat.mod_eq_of_lt (by omega)
    rw [hclear]
    simp [call, tested, csrrMcause, exec, setReg, Function.update, ra, a1]

/-- The jump to the label `restore` leaves the memory to the routine. -/
theorem served_mem : (served services mcause s).mem = (services.run (entered services mcause s)).mem := by
  unfold served
  split <;> rfl

theorem served_eq (h : FollowsConvention services.run (entered services mcause s)) :
    (served services mcause s).regs sp = (entered services mcause s).regs sp ∧
      (∀ x : Word, ((entered services mcause s).regs sp).toNat ≤ x.toNat →
        (served services mcause s).mem x = (entered services mcause s).mem x) ∧
      (served services mcause s).pc = s.pc + 200#32 := by
  have hra := entered_ra services mcause s
  have hret := h.returns
  unfold served
  split
  next hint =>
    rw [if_pos hint] at hra
    exact ⟨h.stack, h.mem, hret.trans hra⟩
  next hexc =>
    rw [if_neg hexc] at hra
    refine ⟨h.stack, h.mem, ?_⟩
    simp [exec, hret, hra, BitVec.add_assoc]

end calls

/-- The frame outlives the service routine. -/
theorem Holds.congr {f : Word} {v : Reg → Word} {m m' : Bytes} (h : Holds f v m)
    (hlink : 16 ≤ f.toNat) (hframe : f.toNat + 124 ≤ 2 ^ 32)
    (hm : ∀ x : Word, (aligned f).toNat ≤ x.toNat → m' x = m x) : Holds f v m' := by
  have hal := aligned_toNat hlink
  constructor
  · intro r hr
    have hin := gprs_slots.inside r hr
    have hslot : (f + esfOffsetOf r).toNat = f.toNat + (esfOffsetOf r).toNat := by
      rw [BitVec.toNat_add]
      omega
    rw [← h.frame r hr]
    exact wordAt_congr (by omega) fun x h₁ h₂ => hm x (by omega)
  · exact (wordAt_congr (by omega) fun x h₁ h₂ => hm x h₁).trans h.link

/-! ## The whole wrapper -/

/-- What the service routine is given, and what the interrupted program sees. The word in the slot
of the stack pointer is the stack pointer as it was when it was saved. -/
structure Transparent (services : Services) (mcause : Word) (s : Machine) : Prop where
  routine : (entered services mcause s).pc =
    if mcause.msb then services.intServe else services.excServe
  cause : (entered services mcause s).regs a1 = mcause &&& 0x7fffffff#32
  stack : ((entered services mcause s).regs sp).toNat % 16 = 0
  argument : (entered services mcause s).regs a0 = frame s
  saved : ∀ r ∈ gprs, wordAt (entered services mcause s).mem (frame s + esfOffsetOf r) =
    if r = sp then frame s else s.regs r
  pushes : AlignedBlock prologue s
  pops : AlignedBlock epilogue (served services mcause s)
  restored : ∀ r : Reg, r ≠ 0#5 → (isrWrapper services mcause s).regs r = s.regs r
  memory : ∀ x : Word, (s.regs sp).toNat ≤ x.toNat →
    (isrWrapper services mcause s).mem x = s.mem x
  left : (isrWrapper services mcause s).mem = (services.run (entered services mcause s)).mem
  atMret : (isrWrapper services mcause s).pc = s.pc + 332#32

/-- Any service routine that follows the calling convention leaves all registers, and all memory
from the stack pointer on, as the interrupted program had them. -/
theorem isrWrapper_transparent (services : Services) (mcause : Word) {s : Machine}
    (hzero : s.regs 0#5 = 0#32) (halign : (s.regs sp).toNat % 4 = 0)
    (hroom : 148 ≤ (s.regs sp).toNat)
    (h : FollowsConvention services.run (entered services mcause s)) :
    Transparent services mcause s := by
  have hf := frame_toNat hroom
  have hal := aligned_toNat (x := frame s) (by omega)
  have hlt := (s.regs sp).isLt
  obtain ⟨hsp, ha0, hzero', hholds, hout⟩ := block_prologue hroom hzero
  obtain ⟨hsp', ha0', hmem'⟩ := entered_eq services mcause s
  obtain ⟨hserved, hkept, hpc⟩ := served_eq h
  rw [hsp'] at hkept hserved
  rw [hmem'] at hkept
  rw [hsp] at hkept hserved
  have hholds' := hholds.congr (by omega) (by omega) hkept
  obtain ⟨hregs, hspOut, hmemOut⟩ := block_epilogue hserved hholds'
  constructor
  case routine => exact (entered_call hzero').1
  case cause => exact (entered_call hzero').2
  case stack =>
    rw [hsp', hsp]
    omega
  case argument => rw [ha0', ha0]
  case saved =>
    intro r hr
    rw [hmem', hholds.frame r hr, Function.update_apply]
  case pushes => exact alignedBlock_prologue hroom hzero halign
  case pops => exact alignedBlock_epilogue hserved hholds' (by omega) (by omega)
  case restored =>
    intro r hr
    by_cases hrsp : r = sp
    · rw [hrsp, isrWrapper, hspOut, Function.update_self, frame, BitVec.sub_add_cancel]
    · rw [isrWrapper, hregs r (gprs_complete r hr) hrsp, Function.update_of_ne hrsp]
  case memory =>
    intro x hx
    rw [isrWrapper, hmemOut, hkept x (by omega), hout x hx]
  case left => rw [isrWrapper, hmemOut, served_mem]
  case atMret =>
    have hepi : epilogue.length = 33 := by decide
    rw [isrWrapper, block_pc (by decide), hpc, hepi, BitVec.add_assoc]
    rfl

/-- Service routines that use all they may. -/
def greedy : Services where
  excServe := 0x1000#32
  intServe := 0x2000#32
  run s :=
    { s with
      regs := fun r => if r = sp then s.regs sp else if r = 0#5 then 0#32 else 0xdead#32
      mem := fun x => if x.toNat < (s.regs sp).toNat then 0xff#8 else s.mem x
      pc := s.regs ra }

theorem greedy_followsConvention (s : Machine) : FollowsConvention greedy.run s where
  stack := by simp [greedy]
  mem _ hx := if_neg (Nat.not_lt.mpr hx)
  returns := rfl

/-- A program with its stack pointer at no multiple of 16. -/
def program : Machine where
  regs r := if r = sp then 0x1004#32 else r.setWidth 32
  pc := 0x100#32
  mem _ := 0#8

theorem isrWrapper_transparent_greedy : Transparent greedy 0x80000007#32 program :=
  isrWrapper_transparent greedy 0x80000007#32 (by decide) (by decide) (by decide)
    (greedy_followsConvention _)

/-- The frame does not have the stack pointer of the program. -/
theorem saved_sp_moved :
    (program.regs 0#5 = 0#32 ∧ (program.regs sp).toNat % 4 = 0 ∧ 148 ≤ (program.regs sp).toNat ∧
      FollowsConvention greedy.run (entered greedy 0x80000007#32 program)) ∧
    wordAt (entered greedy 0x80000007#32 program).mem (frame program + esfOffsetOf sp) = 0xf80#32 ∧
    program.regs sp = 0x1004#32 ∧
    ¬ ∀ r ∈ gprs, wordAt (entered greedy 0x80000007#32 program).mem (frame program + esfOffsetOf r) =
      program.regs r := by
  have hslot : wordAt (entered greedy 0x80000007#32 program).mem (frame program + esfOffsetOf sp) =
      0xf80#32 := by
    decide +kernel
  refine ⟨⟨by decide, by decide, by decide, greedy_followsConvention _⟩, hslot, by decide, ?_⟩
  intro hall
  have hsp := hall sp (by decide)
  rw [hslot] at hsp
  exact absurd hsp (by decide)

end TagSoc.Isr
