import TagSoc.InstrRun
import TagSoc.Agreement

/-!
# The processor implements RV32I

A slave that behaves as a byte-addressed memory, seen through the bus: words
are read from the aligned word that contains an even address, sub-word data is
right-aligned. On such a memory a run of the processor from one instruction
boundary reaches the next, and the registers, the program counter and the
bytes are those of the specification's step.
-/
namespace TagSoc.Refinement
open Clocked Cpu Rv32 Datapath Agreement BitSlices

variable {M L : Type*} [DecidableEq L]

/-- `D` presents the bytes `bytes m`, found through `loc`. Nothing is said about
the upper bits of sub-word data nor about misaligned sub-word accesses. -/
structure ByteDevice (D : Device M) (loc : Word → L) (bytes : M → L → Byte) : Prop where
  read_word : ∀ m a, BitSlices.IsEven a →
    D.read m 0b1111#4 a = readWord loc (bytes m) (a &&& ~~~3#32)
  read_half : ∀ m a, BitSlices.IsEven a →
    (D.read m 0b0011#4 a).extractLsb' 0 16 = readHalf loc (bytes m) a
  read_byte : ∀ m a, (D.read m 0b0001#4 a).extractLsb' 0 8 = bytes m (loc a)
  write_word : ∀ m a x, a.toNat % 4 = 0 →
    bytes (D.write m 0b1111#4 a x) = storeBytes loc (bytes m) a x .sw
  write_half : ∀ m a x, a.toNat % 2 = 0 →
    bytes (D.write m 0b0011#4 a x) = storeBytes loc (bytes m) a x .sh
  write_byte : ∀ m a x,
    bytes (D.write m 0b0001#4 a x) = storeBytes loc (bytes m) a x .sb

/-- The state with its memory seen as bytes. -/
def view (bytes : M → L → Byte) (a : Rv32.State M) : Rv32.State (L → Byte) :=
  { a with mem := bytes a.mem }

/-! ## Bytes in words -/

section bits

theorem bytes_high (b₃ b₂ b₁ b₀ : Byte) :
    (b₃ ++ b₂ ++ b₁ ++ b₀).extractLsb' 16 16 = b₃ ++ b₂ := by
  apply BitVec.eq_of_getLsbD_eq
  intro i hi
  simp only [BitVec.getLsbD_append, BitVec.getLsbD_extractLsb']
  interval_cases i <;> simp

theorem bytes_low (b₃ b₂ b₁ b₀ : Byte) :
    (b₃ ++ b₂ ++ b₁ ++ b₀).extractLsb' 0 16 = b₁ ++ b₀ := by
  apply BitVec.eq_of_getLsbD_eq
  intro i hi
  simp only [BitVec.getLsbD_append, BitVec.getLsbD_extractLsb']
  interval_cases i <;> simp

theorem msb_extractLsb' (x : Word) (n : ℕ) :
    (x.extractLsb' 0 (n + 1)).msb = x.getLsbD n := by
  rw [BitVec.msb_eq_getLsbD_last, BitVec.getLsbD_extractLsb']
  simp

/-- What the bus unit makes of sub-word data: only the low bits count. -/
theorem dataFromBus_byte (se : Bool) (x : Word) :
    CpuBus.dataFromBus 0b0001#4 se x =
      if se then (x.extractLsb' 0 8).signExtend 32 else (x.extractLsb' 0 8).setWidth 32 := by
  have h := replicate_append 24 se (x.extractLsb' 0 8)
  rwa [msb_extractLsb' x 7] at h

theorem dataFromBus_half (se : Bool) (x : Word) :
    CpuBus.dataFromBus 0b0011#4 se x =
      if se then (x.extractLsb' 0 16).signExtend 32 else (x.extractLsb' 0 16).setWidth 32 := by
  have h := replicate_append 16 se (x.extractLsb' 0 16)
  rwa [msb_extractLsb' x 15] at h

end bits

/-! ## The two memories -/

section device
variable {D : Device M} {loc : Word → L} {bytes : M → L → Byte} (hD : ByteDevice D loc bytes)
include hD

/-- The instruction register holds the four bytes at the program counter,
whichever halfword of a word it points to. -/
theorem fetched_eq {a : Rv32.State M} (he : BitSlices.IsEven a.pc)
    (hlong : (readWord loc (bytes a.mem) a.pc).extractLsb' 0 2 = 3#2) :
    fetched D a = readWord loc (bytes a.mem) a.pc := by
  have hmod := mod_four_of_even he
  unfold fetched
  cases h1 : a.pc.getLsbD 1 with
  | false =>
      rw [h1] at hmod
      simp only [hD.read_word _ _ he, and_not_three hmod]
      rfl
  | true =>
      rw [h1] at hmod
      have hnext : (a.pc + 2#32).toNat % 4 = 0 := by
        rw [BitVec.toNat_add, BitVec.toNat_ofNat]
        simp only [if_true] at hmod
        omega
      have h2 := and_not_three_add hmod 0#32
      have h3 := and_not_three_add hmod 1#32
      rw [BitVec.add_zero, BitVec.add_zero] at h2
      have hup : (D.read a.mem 0b1111#4 a.pc).extractLsb' 16 16 =
          (readWord loc (bytes a.mem) a.pc).extractLsb' 0 16 := by
        rw [hD.read_word _ _ he, readWord, readWord, bytes_high, bytes_low, h2]
        exact congrArg (fun x => bytes a.mem (loc x) ++ bytes a.mem (loc a.pc)) h3
      have hdown : (D.read a.mem 0b1111#4 (a.pc + 2#32)).extractLsb' 0 16 =
          (readWord loc (bytes a.mem) a.pc).extractLsb' 16 16 := by
        rw [hD.read_word _ _ (even_add he (by simp)), and_not_three hnext, readWord, readWord,
          bytes_high, bytes_low, BitVec.add_assoc]
        rfl
      have hcond : (D.read a.mem 0b1111#4 a.pc).extractLsb' 16 2 = 3#2 := by
        rw [← extractLsb'_extractLsb' _ 16 16 0 2 (by decide), hup,
          extractLsb'_extractLsb' _ 0 16 0 2 (by decide)]
        exact hlong
      simp only [hcond, hup, hdown, if_true]
      exact halves _

theorem load_eq (op : LoadOp) (m : M) (addr : Word) (h : addr.toNat % op.size = 0) :
    (memory D).load op m addr = (byteMemory loc).load op (bytes m) addr := by
  have heven : op.size ≠ 1 → addr[0] = false := by
    intro hs
    rw [even_iff]
    cases op <;> simp_all [LoadOp.size]
    omega
  cases op with
  | lb => simp [memory, loaded, loadOp, CpuBus.BusOp.memSel, CpuBus.BusOp.signextend,
      dataFromBus_byte, hD.read_byte, byteMemory, loadBytes]
  | lbu => simp [memory, loaded, loadOp, CpuBus.BusOp.memSel, CpuBus.BusOp.signextend,
      dataFromBus_byte, hD.read_byte, byteMemory, loadBytes]
  | lh => simp [memory, loaded, loadOp, CpuBus.BusOp.memSel, CpuBus.BusOp.signextend,
      dataFromBus_half, hD.read_half _ _ (heven (by decide)), byteMemory, loadBytes]
  | lhu => simp [memory, loaded, loadOp, CpuBus.BusOp.memSel, CpuBus.BusOp.signextend,
      dataFromBus_half, hD.read_half _ _ (heven (by decide)), byteMemory, loadBytes]
  | lw =>
      rw [memory]
      simp only [loadOp, loaded_readw, hD.read_word _ _ (heven (by decide))]
      rw [and_not_three h]
      rfl

theorem store_eq (op : StoreOp) (m : M) (addr x : Word) (h : addr.toNat % op.size = 0) :
    bytes ((memory D).store op m addr x) = (byteMemory loc).store op (bytes m) addr x := by
  cases op with
  | sb => exact hD.write_byte m addr x
  | sh => exact hD.write_half m addr x h
  | sw => exact hD.write_word m addr x h

/-- The specification's step does not depend on which of the two memories it
is given. -/
theorem view_exec {i : Instr} {len : Word} {a : Rv32.State M} (h : i.NaturallyAligned a.regs) :
    view bytes (exec (memory D) len i a) = exec (byteMemory loc) len i (view bytes a) := by
  cases i with
  | load op rd rs1 offset => simp only [exec, view, load_eq hD op _ _ h]
  | store op rs1 rs2 offset => simp only [exec, view, store_eq hD op _ _ _ h]
  | _ => rfl

end device

/-! ## The run -/

section run
variable {v : BitVec 32} {D : Device M} {r : Run (State.step v)} {mem : ℕ → M}

omit [DecidableEq L] in
/-- The whole path of an instruction that agrees with the specification: the
next pre-fetch state after the boundary is again a boundary, with the
specification's state. -/
theorem agreeing_instruction_run (hs : Slave D r mem) (hr : Running r) (hq : Quiet r)
    (hb : Boundary (r.state 0)) {i : Instr}
    (hi : Agrees D (fetched D (arch r mem 0)) (instrLen (fetched D (arch r mem 0))) i) :
    ∃ n, 0 < n ∧ (∀ k, 0 < k → k < n → (r.state k).state ≠ .preFetch) ∧
      Boundary (r.state n) ∧
      arch r mem n =
        exec (memory D) (instrLen (fetched D (arch r mem 0))) i (arch r mem 0) := by
  have hc := hr.coherent hb.coherent
  obtain ⟨res, hst, hy, hstep⟩ := hi (arch r mem 0) hb.coherent.zero hb.coherent.even
  obtain ⟨n, hn, hret, hpath⟩ := instruction_run hs hr hc hq hb.state hb.running hst hy
  refine ⟨n, by omega, fun k hk hkn => hpath k (by omega) hkn, ?_, ?_⟩
  · exact ⟨hret.state, hc n, hret.running⟩
  · rw [hret.arch, hstep]

/-- RV32I. From an instruction boundary with any base instruction at the
program counter, on any byte-addressed memory behind the bus and with any
pattern of wait states, the machine reaches the next boundary, and registers,
program counter and bytes are those of the specification. -/
theorem rv32i_refinement {loc : Word → L} {bytes : M → L → Byte} (hD : ByteDevice D loc bytes)
    (hs : Slave D r mem) (hr : Running r) (hq : Quiet r) (hb : Boundary (r.state 0)) {i : Instr}
    (hi : decode (readWord loc (bytes (mem 0)) (r.state 0).pc) = some i)
    (ha : i.NaturallyAligned (r.state 0).regs.regfile) :
    ∃ n, 0 < n ∧ (∀ k, 0 < k → k < n → (r.state k).state ≠ .preFetch) ∧
      Boundary (r.state n) ∧
      view bytes (arch r mem n) =
        exec (byteMemory loc) 4#32 i (view bytes (arch r mem 0)) := by
  have hlong := long_of_decode hi
  have hf : fetched D (arch r mem 0) = readWord loc (bytes (mem 0)) (r.state 0).pc :=
    fetched_eq hD (a := arch r mem 0) hb.coherent.even hlong
  have hlen : instrLen (fetched D (arch r mem 0)) = 4#32 := by
    rw [hf, instrLen, if_pos hlong]
  have hag : Agrees D (fetched D (arch r mem 0)) (instrLen (fetched D (arch r mem 0))) i := by
    rw [hlen, hf]
    exact agrees_of_decode hi
  obtain ⟨n, hn, hpath, hbound, harch⟩ := agreeing_instruction_run hs hr hq hb hag
  refine ⟨n, hn, hpath, hbound, ?_⟩
  rw [harch, hlen]
  exact view_exec hD ha

end run

/-! ## A memory of all addresses -/

/-- The byte-addressed memory with one byte for every address. -/
def byteDevice : Device (Word → Byte) where
  read m sel a :=
    if sel = 0b1111#4 then readWord id m (a &&& ~~~3#32)
    else if sel = 0b0011#4 then (readHalf id m a).setWidth 32
    else (m a).setWidth 32
  write m sel a x :=
    if sel = 0b1111#4 then storeBytes id m a x .sw
    else if sel = 0b0011#4 then storeBytes id m a x .sh
    else storeBytes id m a x .sb

theorem byteDevice_bytes : ByteDevice byteDevice id id where
  read_word _ _ _ := rfl
  read_half m a _ := by
    apply BitVec.eq_of_getLsbD_eq
    intro i hi
    simp [byteDevice, hi, Nat.lt_trans hi (show 16 < 32 by decide)]
  read_byte m a := by
    apply BitVec.eq_of_getLsbD_eq
    intro i hi
    simp [byteDevice, hi, Nat.lt_trans hi (show 8 < 32 by decide)]
  write_word _ _ _ _ := rfl
  write_half _ _ _ _ := rfl
  write_byte _ _ _ := rfl

/-- Interrupts, halt and single-step low. -/
def quietInputs : Inputs := ⟨false, false, 0#32, false, false, false, false, false, false⟩

theorem quietInputs_quiet {M : Type*} {v : Word} (D : Device M) (ready : ℕ → Bool) (s₀ : State)
    (m₀ : M) : Quiet (benchRun D ready quietInputs v s₀ m₀) :=
  ⟨fun _ => rfl, fun _ => rfl, fun _ => rfl⟩

/-- `sw x1, 8(x0)` at address 2, across a word boundary. -/
def straddlingStore : Word → Byte := fun a =>
  if a = 2#32 then 0x23#8 else if a = 3#32 then 0x24#8 else if a = 4#32 then 0x10#8 else 0#8

def thirdClock (t : ℕ) : Bool := t % 3 == 2

theorem thirdClock_recurs (t : ℕ) : ∃ n, t ≤ n ∧ thirdClock n = true :=
  ⟨3 * t + 2, by omega, by simp [thirdClock, Nat.add_mod]⟩

/-- The store above with `x1 = 5`, on a slave that answers every third clock. -/
theorem rv32i_refinement_straddling_store :
    let s₀ := restState (fun r => if r = 1#5 then 5#32 else 0#32) 2#32
    ∃ n, 0 < n ∧
      Boundary ((benchRun byteDevice thirdClock quietInputs 0#32 s₀ straddlingStore).state n) ∧
      ((benchRun byteDevice thirdClock quietInputs 0#32 s₀ straddlingStore).state n).pc = 6#32 ∧
      benchMem byteDevice thirdClock quietInputs 0#32 s₀ straddlingStore n 8#32 = 5#8 := by
  intro s₀
  obtain ⟨n, hn, -, hb, harch⟩ := rv32i_refinement byteDevice_bytes
    (benchRun_slave (v := 0#32) byteDevice thirdClock quietInputs thirdClock_recurs s₀
      straddlingStore)
    ⟨fun _ => rfl, fun _ => rfl⟩ ⟨fun _ => rfl, fun _ => rfl, fun _ => rfl⟩
    (restState_boundary (by decide) (by decide)) (i := .store .sw 0#5 1#5 8#32)
    (by decide) (by decide)
  refine ⟨n, hn, hb, ?_, ?_⟩
  · refine (congrArg Rv32.State.pc harch).trans ?_
    decide
  · refine (congrArg (fun s => s.mem 8#32) harch).trans ?_
    decide

end TagSoc.Refinement
