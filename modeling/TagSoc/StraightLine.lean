import TagSoc.BitSlices
import TagSoc.Rv32

/-!
# Straight-line code

Sequences of instructions on a flat memory of bytes, and the two sequences that
save registers to a frame and load them back.
-/
namespace TagSoc.StraightLine
open Rv32

abbrev Bytes := Word → Byte
abbrev Machine := State Bytes

def flat : Memory Bytes := byteMemory id

def block (is : List Instr) (s : Machine) : Machine :=
  is.foldl (fun s i => exec flat 4#32 i s) s

theorem block_append (is js : List Instr) (s : Machine) :
    block (is ++ js) s = block js (block is s) := List.foldl_append

theorem block_cons (i : Instr) (is : List Instr) (s : Machine) :
    block (i :: is) s = block is (exec flat 4#32 i s) := rfl

/-! ## Words -/

/-- The word at an address. -/
def wordAt (m : Bytes) (a : Word) : Word := readWord id m a

def setWord (m : Bytes) (a v : Word) : Bytes := storeBytes id m a v .sw

section words
variable (m : Bytes) {a b : Word} (v : Word)

theorem flat_store (a v : Word) : flat.store .sw m a v = setWord m a v := rfl

theorem flat_load (a : Word) : flat.load .lw m a = wordAt m a := rfl

theorem wordAt_setWord : wordAt (setWord m a v) a = v := by
  simp only [wordAt, setWord, readWord, storeBytes, id]
  simpa [Function.update] using BitSlices.four_bytes v

theorem setWord_out (ha : a.toNat + 4 ≤ 2 ^ 32) {x : Word}
    (hx : x.toNat < a.toNat ∨ a.toNat + 4 ≤ x.toNat) : setWord m a v x = m x := by
  have hne : ∀ k < 4, x ≠ a + BitVec.ofNat 32 k := by
    intro k hk heq
    have hnat := congrArg BitVec.toNat heq
    rw [BitVec.toNat_add, BitVec.toNat_ofNat] at hnat
    omega
  have h0 : x ≠ a := by simpa using hne 0 (by decide)
  simp only [setWord, storeBytes, id]
  rw [Function.update_of_ne (hne 3 (by decide)), Function.update_of_ne (hne 2 (by decide)),
    Function.update_of_ne (hne 1 (by decide)), Function.update_of_ne h0]

theorem wordAt_congr {m m' : Bytes} (ha : a.toNat + 4 ≤ 2 ^ 32)
    (h : ∀ x : Word, a.toNat ≤ x.toNat → x.toNat < a.toNat + 4 → m x = m' x) :
    wordAt m a = wordAt m' a := by
  have hbyte : ∀ k < 4, m (a + BitVec.ofNat 32 k) = m' (a + BitVec.ofNat 32 k) := by
    intro k hk
    have hnat : (a + BitVec.ofNat 32 k).toNat = a.toNat + k := by
      rw [BitVec.toNat_add, BitVec.toNat_ofNat]
      omega
    exact h _ (by omega) (by omega)
  have h0 : m a = m' a := by simpa using hbyte 0 (by decide)
  simp only [wordAt, readWord, id]
  rw [h0, hbyte 1 (by decide), hbyte 2 (by decide), hbyte 3 (by decide)]

end words

/-! ## Frames -/

/-- Slots for registers at different multiples of four. -/
structure Slots (rs : List Reg) (off : Reg → Word) (size : ℕ) : Prop where
  aligned : ∀ r ∈ rs, (off r).toNat % 4 = 0
  inside : ∀ r ∈ rs, (off r).toNat + 4 ≤ size
  injective : ∀ r ∈ rs, ∀ r' ∈ rs, off r = off r' → r = r'

def saves (b : Reg) (off : Reg → Word) (rs : List Reg) : List Instr :=
  rs.map fun r => .store .sw b r (off r)

def loads (b : Reg) (off : Reg → Word) (rs : List Reg) : List Instr :=
  rs.map fun r => .load .lw r b (off r)

section frames
variable {b : Reg} {off : Reg → Word}

theorem loads_append (rs rs' : List Reg) :
    loads b off (rs ++ rs') = loads b off rs ++ loads b off rs' := List.map_append

theorem block_saves_regs (rs : List Reg) (s : Machine) :
    (block (saves b off rs) s).regs = s.regs := by
  induction rs generalizing s with
  | nil => rfl
  | cons r rs ih =>
      rw [saves, List.map_cons, block_cons]
      exact ih _

theorem block_loads_mem (rs : List Reg) (s : Machine) :
    (block (loads b off rs) s).mem = s.mem := by
  induction rs generalizing s with
  | nil => rfl
  | cons r rs ih =>
      rw [loads, List.map_cons, block_cons]
      exact ih _

/-- Loads that leave their base alone. -/
theorem block_loads_regs {rs : List Reg} (hb : b ∉ rs) (hzero : 0#5 ∉ rs) (s : Machine) (r : Reg) :
    (block (loads b off rs) s).regs r =
      if r ∈ rs then wordAt s.mem (s.regs b + off r) else s.regs r := by
  induction rs generalizing s with
  | nil => rfl
  | cons r' rs ih =>
      have hbr : b ≠ r' := fun h => hb (h ▸ List.mem_cons_self)
      have hr' : r' ≠ 0#5 := fun h => hzero (h ▸ List.mem_cons_self)
      have hexec : (exec flat 4#32 (.load .lw r' b (off r')) s).regs =
          Function.update s.regs r' (wordAt s.mem (s.regs b + off r')) := if_neg hr'
      rw [loads, List.map_cons, block_cons, ← loads,
        ih (List.not_mem_of_not_mem_cons hb) (List.not_mem_of_not_mem_cons hzero), hexec,
        Function.update_of_ne hbr]
      by_cases hmem : r ∈ rs
      · rw [if_pos hmem, if_pos (List.mem_cons_of_mem _ hmem)]
        rfl
      · rw [if_neg hmem]
        by_cases heq : r = r'
        · rw [if_pos (heq ▸ List.mem_cons_self), heq, Function.update_self]
        · rw [if_neg (by simp [heq, hmem]), Function.update_of_ne heq]

variable {size : ℕ}

/-- A byte outside the slots keeps its value. -/
theorem block_saves_out {rs : List Reg} {s : Machine} (hsize : (s.regs b).toNat + size ≤ 2 ^ 32)
    (hin : ∀ r ∈ rs, (off r).toNat + 4 ≤ size) {x : Word}
    (hx : ∀ r ∈ rs, x.toNat < (s.regs b).toNat + (off r).toNat ∨
      (s.regs b).toNat + (off r).toNat + 4 ≤ x.toNat) :
    (block (saves b off rs) s).mem x = s.mem x := by
  induction rs generalizing s with
  | nil => rfl
  | cons r rs ih =>
      have hr := hin r List.mem_cons_self
      have hxr := hx r List.mem_cons_self
      have haddr : (s.regs b + off r).toNat = (s.regs b).toNat + (off r).toNat := by
        rw [BitVec.toNat_add]
        omega
      rw [saves, List.map_cons, block_cons, ← saves]
      refine (ih (s := exec flat 4#32 (.store .sw b r (off r)) s) hsize
        (fun r hr => hin r (List.mem_cons_of_mem _ hr))
        fun r hr => hx r (List.mem_cons_of_mem _ hr)).trans ?_
      exact setWord_out s.mem (s.regs r) (by omega) (by omega)

/-- Every register is in its slot. -/
theorem block_saves_word {rs : List Reg} (hslots : Slots rs off size) {s : Machine}
    (hsize : (s.regs b).toNat + size ≤ 2 ^ 32) {r : Reg} (hr : r ∈ rs) :
    wordAt (block (saves b off rs) s).mem (s.regs b + off r) = s.regs r := by
  induction rs generalizing s with
  | nil => cases hr
  | cons r' rs ih =>
      have hslots' : Slots rs off size :=
        ⟨fun r hr => hslots.aligned r (List.mem_cons_of_mem _ hr),
          fun r hr => hslots.inside r (List.mem_cons_of_mem _ hr),
          fun r hr r' hr' => hslots.injective r (List.mem_cons_of_mem _ hr) r'
            (List.mem_cons_of_mem _ hr')⟩
      rw [saves, List.map_cons, block_cons, ← saves]
      by_cases hmem : r ∈ rs
      · exact ih hslots' hsize hmem
      · -- the later saves are to other slots
        obtain rfl : r = r' := by simpa [hmem] using hr
        have hin := hslots.inside r hr
        have haddr : (s.regs b + off r).toNat = (s.regs b).toNat + (off r).toNat := by
          rw [BitVec.toNat_add]
          omega
        refine (wordAt_congr (by omega) fun x h₁ h₂ => ?_).trans
          (wordAt_setWord s.mem (s.regs r))
        refine block_saves_out (s := exec flat 4#32 (.store .sw b r (off r)) s) hsize
          hslots'.inside fun q hq => ?_
        have hne : (off q).toNat ≠ (off r).toNat := fun h =>
          hmem (hslots.injective q (List.mem_cons_of_mem _ hq) r hr (BitVec.eq_of_toNat_eq h) ▸ hq)
        have hqa := hslots'.aligned q hq
        have hra := hslots.aligned r hr
        change x.toNat < (s.regs b).toNat + (off q).toNat ∨
          (s.regs b).toNat + (off q).toNat + 4 ≤ x.toNat
        omega

end frames

/-! ## Aligned accesses -/

/-- Every load and store of the sequence is at a multiple of its size. -/
def AlignedBlock : List Instr → Machine → Prop
  | [], _ => True
  | i :: is, s => i.NaturallyAligned s.regs ∧ AlignedBlock is (exec flat 4#32 i s)

theorem alignedBlock_append {is js : List Instr} {s : Machine} :
    AlignedBlock (is ++ js) s ↔ AlignedBlock is s ∧ AlignedBlock js (block is s) := by
  induction is generalizing s with
  | nil =>
      rw [List.nil_append, AlignedBlock, true_and]
      rfl
  | cons i is ih =>
      rw [List.cons_append, AlignedBlock, AlignedBlock, ih, block_cons, and_assoc]

section alignedFrames
variable {b : Reg} {off : Reg → Word}

theorem slot_aligned {x o : Word} (hx : x.toNat % 4 = 0) (ho : o.toNat % 4 = 0) :
    (x + o).toNat % 4 = 0 := by
  rw [BitVec.toNat_add]
  omega

theorem alignedBlock_saves {rs : List Reg} (hoff : ∀ r ∈ rs, (off r).toNat % 4 = 0) {s : Machine}
    (hb : (s.regs b).toNat % 4 = 0) : AlignedBlock (saves b off rs) s := by
  induction rs generalizing s with
  | nil => exact trivial
  | cons r rs ih =>
      exact ⟨slot_aligned hb (hoff r List.mem_cons_self),
        ih (fun q hq => hoff q (List.mem_cons_of_mem _ hq)) hb⟩

theorem alignedBlock_loads {rs : List Reg} (hbase : b ∉ rs)
    (hoff : ∀ r ∈ rs, (off r).toNat % 4 = 0) {s : Machine} (hb : (s.regs b).toNat % 4 = 0) :
    AlignedBlock (loads b off rs) s := by
  induction rs generalizing s with
  | nil => exact trivial
  | cons r rs ih =>
      have hne : b ≠ r := fun h => hbase (h ▸ List.mem_cons_self)
      refine ⟨slot_aligned hb (hoff r List.mem_cons_self),
        ih (List.not_mem_of_not_mem_cons hbase) (fun q hq => hoff q (List.mem_cons_of_mem _ hq)) ?_⟩
      have hkept : (exec flat 4#32 (.load .lw r b (off r)) s).regs b = s.regs b := by
        simp only [exec, setReg]
        split
        · rfl
        · exact Function.update_of_ne hne _ _
      rw [hkept]
      exact hb

end alignedFrames

/-! ## Where the code is -/

/-- The instructions that go on to the next one. -/
def FallsThrough : Instr → Bool
  | .jal .. | .jalr .. | .branch .. => false
  | _ => true

theorem block_pc {is : List Instr} (h : is.all FallsThrough = true) (s : Machine) :
    (block is s).pc = s.pc + BitVec.ofNat 32 (4 * is.length) := by
  induction is generalizing s with
  | nil => exact (BitVec.add_zero _).symm
  | cons i is ih =>
      rw [List.all_cons, Bool.and_eq_true] at h
      have hpc : (exec flat 4#32 i s).pc = s.pc + 4#32 := by
        cases i <;> first | rfl | exact absurd h.1 Bool.false_ne_true
      rw [block_cons, ih h.2, hpc, List.length_cons, Nat.mul_succ, Nat.add_comm, BitVec.ofNat_add,
        BitVec.add_assoc]

end TagSoc.StraightLine
