import TagSoc.FetchCheck
import TagSoc.TaggedArrays

/-!
# Accesses that are not naturally aligned

Neither the processor nor the memory looks at the alignment of a load or store.
A word access goes to the word that contains its address; a half access to an
odd address reads the upper half of that word, or clears the word. The theorem
compares this with the bytes from the address on.
-/
namespace TagSoc.TaggedArrays
open WbRam Datapath Rv32

variable {g : ℕ}

/-! ## Bytes and lanes -/

/-- Every lane of every word is a byte. -/
theorem exists_byte (w : BitVec (g + 2)) {l : ℕ} (hl : l < 4) :
    ∃ y : BitVec (g + 4), y.extractLsb' 2 (g + 2) = w ∧ y.toNat % 4 = l := by
  have hpow : 2 ^ (g + 4) = 4 * 2 ^ (g + 2) := by
    rw [show g + 4 = 2 + (g + 2) by omega, Nat.pow_add]
  have hlt := w.isLt
  have hnat : (BitVec.ofNat (g + 4) (4 * w.toNat + l)).toNat = 4 * w.toNat + l := by
    rw [BitVec.toNat_ofNat]
    exact Nat.mod_eq_of_lt (by rw [hpow]; omega)
  refine ⟨BitVec.ofNat (g + 4) (4 * w.toNat + l), ?_, by rw [hnat]; omega⟩
  apply BitVec.eq_of_toNat_eq
  rw [BitVec.extractLsb'_toNat, hnat, Nat.shiftRight_eq_div_pow,
    Nat.mod_eq_of_lt (by omega)]
  omega

/-- The word after the one that contains the address. -/
theorem wordAddr_next_ne (a : Word) : wordAddr g (a + 4#32) ≠ wordAddr g a := by
  intro h
  have hlt := a.isLt
  have h' := congrArg BitVec.toNat h
  have heven : 2 ∣ 2 ^ (g + 2) := ⟨2 ^ (g + 1), by rw [← Nat.pow_succ']⟩
  -- neighbouring words differ in the lowest bit of their index
  have hpar : (a + 4#32).toNat / 4 % 2 = a.toNat / 4 % 2 := by
    rw [← Nat.mod_mod_of_dvd _ heven, ← wordAddr_toNat, h, wordAddr_toNat,
      Nat.mod_mod_of_dvd _ heven]
  rw [BitVec.toNat_add] at hpar
  simp only [BitVec.toNat_ofNat] at hpar
  omega

/-- The bytes from an address on are in its word or in the next. -/
theorem eq_loc_add_iff {y : BitVec (g + 4)} (a : Word) {i : ℕ} (hi : i < 4) :
    y = loc g (a + BitVec.ofNat 32 i) ↔
      y.extractLsb' 2 (g + 2) = wordAddr g a ∧ y.toNat % 4 = a.toNat % 4 + i ∨
      y.extractLsb' 2 (g + 2) = wordAddr g (a + 4#32) ∧ y.toNat % 4 + 4 = a.toNat % 4 + i := by
  have hlane : y.toNat % 4 < 4 := Nat.mod_lt _ (by decide)
  rw [eq_loc_iff]
  rcases Nat.lt_or_ge (a.toNat % 4 + i) 4 with h | h
  · obtain ⟨h₁, h₂⟩ := add_lane (g := g) h
    rw [h₁, h₂]
    constructor
    · exact Or.inl
    · rintro (hy | ⟨-, hy⟩)
      · exact hy
      · omega
  · have hlt := a.isLt
    have hsum : (a + BitVec.ofNat 32 i).toNat % 4 = a.toNat % 4 + i - 4 ∧
        (a + BitVec.ofNat 32 i).toNat / 4 = (a + 4#32).toNat / 4 := by
      rw [BitVec.toNat_add, BitVec.toNat_add]
      simp only [BitVec.toNat_ofNat]
      omega
    have hword : wordAddr g (a + BitVec.ofNat 32 i) = wordAddr g (a + 4#32) := by
      apply BitVec.eq_of_toNat_eq
      rw [wordAddr_toNat, wordAddr_toNat, hsum.2]
    rw [hword, hsum.1]
    constructor
    · rintro ⟨hy, hl⟩
      exact Or.inr ⟨hy, by omega⟩
    · rintro (⟨-, hy⟩ | ⟨hy, hl⟩)
      · omega
      · exact ⟨hy, by omega⟩

/-- The byte that a store leaves at the place `q`, counted like the place `o` of
its address. -/
theorem storeBytes_at {m : BitVec (g + 4) → Byte} {a : Word} (x : Word) (op : StoreOp)
    {y : BitVec (g + 4)} {q o : ℕ}
    (hloc : ∀ i < 4, y = loc g (a + BitVec.ofNat 32 i) ↔ q = o + i) :
    storeBytes (loc g) m a x op y =
      if o ≤ q ∧ q < o + op.size then lane x (q - o) else m y := by
  have h₀ := hloc 0 (by decide)
  have h₁ := hloc 1 (by decide)
  have h₂ := hloc 2 (by decide)
  have h₃ := hloc 3 (by decide)
  rw [show a + BitVec.ofNat 32 0 = a from BitVec.add_zero a] at h₀
  have hlanes : x.extractLsb' 0 8 = lane x 0 ∧ x.extractLsb' 8 8 = lane x 1 ∧
      x.extractLsb' 16 8 = lane x 2 ∧ x.extractLsb' 24 8 = lane x 3 := ⟨rfl, rfl, rfl, rfl⟩
  generalize hsize : op.size = k
  cases op with
  | sb =>
      obtain rfl : 1 = k := hsize
      simp only [storeBytes, Function.update_apply, h₀, hlanes]
      split_ifs <;> first | rfl | exact congrArg (lane x) (by omega) | omega
  | sh =>
      obtain rfl : 2 = k := hsize
      simp only [storeBytes, Function.update_apply, h₀, h₁, hlanes]
      split_ifs <;> first | rfl | exact congrArg (lane x) (by omega) | omega
  | sw =>
      obtain rfl : 4 = k := hsize
      simp only [storeBytes, Function.update_apply, h₀, h₁, h₂, h₃, hlanes]
      split_ifs <;> first | rfl | exact congrArg (lane x) (by omega) | omega

section store
variable (c : Contents g) (a x : Word) {y : BitVec (g + 4)}

theorem loc_here (hy : y.extractLsb' 2 (g + 2) = wordAddr g a) :
    ∀ i < 4, y = loc g (a + BitVec.ofNat 32 i) ↔ y.toNat % 4 = a.toNat % 4 + i := by
  intro i hi
  rw [eq_loc_add_iff a hi, hy]
  simp [(wordAddr_next_ne (g := g) a).symm]

theorem loc_next (hy : y.extractLsb' 2 (g + 2) = wordAddr g (a + 4#32)) :
    ∀ i < 4, y = loc g (a + BitVec.ofNat 32 i) ↔ y.toNat % 4 + 4 = a.toNat % 4 + i := by
  intro i hi
  rw [eq_loc_add_iff a hi, hy]
  simp [wordAddr_next_ne (g := g) a]

/-- The word `new` in place of the one at `a` is the store of `x` exactly if it
has the bytes of `x` from the address on and the old ones before and after, and
if what does not fit is in the next word already. -/
theorem bytes_update_eq_iff (op : StoreOp) (new : Word) :
    bytes { c with words := Function.update c.words (wordAddr g a) new } =
        storeBytes (loc g) (bytes c) a x op ↔
      (∀ l < 4, lane new l =
        if a.toNat % 4 ≤ l ∧ l < a.toNat % 4 + op.size then lane x (l - a.toNat % 4)
        else lane (c.words (wordAddr g a)) l) ∧
      ∀ l < 4, l + 4 < a.toNat % 4 + op.size →
        lane (c.words (wordAddr g (a + 4#32))) l = lane x (l + 4 - a.toNat % 4) := by
  have hne := wordAddr_next_ne (g := g) a
  have ho : a.toNat % 4 < 4 := Nat.mod_lt _ (by decide)
  have hnew : ∀ y : BitVec (g + 4),
      bytes { c with words := Function.update c.words (wordAddr g a) new } y =
        if y.extractLsb' 2 (g + 2) = wordAddr g a then lane new (y.toNat % 4) else bytes c y := by
    intro y
    simp only [bytes, Function.update_apply]
    split_ifs <;> rfl
  constructor
  · intro heq
    constructor
    · intro l hl
      obtain ⟨y, hy, rfl⟩ := exists_byte (wordAddr g a) hl
      have hat := congrFun heq y
      rw [hnew, if_pos hy, storeBytes_at x op (loc_here a hy), bytes, hy] at hat
      exact hat
    · intro l hl hout
      obtain ⟨y, hy, rfl⟩ := exists_byte (wordAddr g (a + 4#32)) hl
      have hat := congrFun heq y
      rw [hnew, if_neg (by rw [hy]; exact hne), storeBytes_at x op (loc_next a hy),
        if_pos ⟨by omega, hout⟩, bytes, hy] at hat
      exact hat
  · rintro ⟨hhere, hnext⟩
    funext y
    have hl : y.toNat % 4 < 4 := Nat.mod_lt _ (by decide)
    rw [hnew]
    by_cases hy : y.extractLsb' 2 (g + 2) = wordAddr g a
    · rw [if_pos hy, hhere _ hl, storeBytes_at x op (loc_here a hy), bytes, hy]
    rw [if_neg hy]
    by_cases hy' : y.extractLsb' 2 (g + 2) = wordAddr g (a + 4#32)
    · rw [storeBytes_at x op (loc_next a hy')]
      split_ifs with h
      · rw [bytes, hy', hnext _ hl h.2]
      · rfl
    · -- a byte of another word is not one of those stored
      have hloc : ∀ i < 4, y = loc g (a + BitVec.ofNat 32 i) ↔ 0 = 1 + i := by
        intro i hi
        rw [eq_loc_add_iff a hi]
        simp only [hy, hy', false_and, or_self, false_iff]
        omega
      rw [storeBytes_at x op hloc, if_neg (by omega)]

end store

/-! ## Loads -/

theorem append_inj_iff {m n : ℕ} (x x' : BitVec m) (y y' : BitVec n) :
    x ++ y = x' ++ y' ↔ x = x' ∧ y = y' := by
  constructor
  · intro h
    have hhigh := congrArg (BitVec.extractLsb' n m) h
    have hlow := congrArg (BitVec.extractLsb' 0 n) h
    rw [BitSlices.extractLsb'_append_high _ _ _ _ le_rfl,
      BitSlices.extractLsb'_append_high _ _ _ _ le_rfl, Nat.sub_self] at hhigh
    rw [BitSlices.extractLsb'_append_low _ _ _ _ (by omega),
      BitSlices.extractLsb'_append_low _ _ _ _ (by omega)] at hlow
    simpa [BitVec.extractLsb'_eq_self] using And.intro hhigh hlow
  · rintro ⟨rfl, rfl⟩
    rfl

/-- A half access to an odd address reads the upper half of the word. -/
theorem finalHalf_odd {a : Word} (w : Word) (h : a.toNat % 2 = 1) :
    finalHalf a w = lane w 3 ++ lane w 2 := by
  have hhigh := finalHalf_eq (a := 2#32) w rfl
  rw [finalHalf, low_bits, if_neg ?_]
  · exact hhigh
  · rcases (by omega : a.toNat % 4 = 1 ∨ a.toNat % 4 = 3) with h | h <;> rw [h] <;> decide

theorem half_eq_iff (c : Contents g) {a : Word} (h : a.toNat % 2 = 1) :
    finalHalf a (c.words (wordAddr g a)) = readHalf (loc g) (bytes c) a ↔
      ∀ i < 2, bytes c (loc g (a + BitVec.ofNat 32 i)) =
        lane (c.words (wordAddr g a)) (i + 4 - 2) := by
  rw [finalHalf_odd _ h, readHalf, append_inj_iff]
  constructor
  · rintro ⟨h₁, h₀⟩ i hi
    interval_cases i
    · rw [show a + BitVec.ofNat 32 0 = a from BitVec.add_zero a, ← h₀]
    · exact h₁.symm
  · intro hbytes
    refine ⟨(hbytes 1 (by decide)).symm, ?_⟩
    have h₀ := hbytes 0 (by decide)
    rw [show a + BitVec.ofNat 32 0 = a from BitVec.add_zero a] at h₀
    exact h₀.symm

theorem word_eq_iff (c : Contents g) (a : Word) :
    c.words (wordAddr g a) = readWord (loc g) (bytes c) a ↔
      ∀ i < 4, bytes c (loc g (a + BitVec.ofNat 32 i)) =
        lane (c.words (wordAddr g a)) (i + 4 - 4) := by
  have hzero : a + BitVec.ofNat 32 0 = a := BitVec.add_zero a
  conv_lhs => rw [← four_lanes (c.words (wordAddr g a))]
  rw [readWord, append_inj_iff, append_inj_iff, append_inj_iff]
  constructor
  · rintro ⟨⟨⟨h₃, h₂⟩, h₁⟩, h₀⟩ i hi
    interval_cases i
    · rw [hzero, ← h₀]
    · exact h₁.symm
    · exact h₂.symm
    · exact h₃.symm
  · intro hbytes
    have h₀ := hbytes 0 (by decide)
    rw [hzero] at h₀
    exact ⟨⟨⟨(hbytes 3 (by decide)).symm, (hbytes 2 (by decide)).symm⟩,
      (hbytes 1 (by decide)).symm⟩, h₀.symm⟩

theorem signExtend_inj (x y : BitVec 16) : x.signExtend 32 = y.signExtend 32 ↔ x = y := by
  refine ⟨fun h => BitVec.eq_of_toInt_eq ?_, fun h => by rw [h]⟩
  have hint := congrArg BitVec.toInt h
  rwa [BitVec.toInt_signExtend_of_le (by decide), BitVec.toInt_signExtend_of_le (by decide)] at hint

theorem setWidth_inj (x y : BitVec 16) : x.setWidth 32 = y.setWidth 32 ↔ x = y := by
  refine ⟨fun h => BitVec.eq_of_toNat_eq ?_, fun h => by rw [h]⟩
  have hnat := congrArg BitVec.toNat h
  have hx := x.isLt
  have hy := y.isLt
  rw [BitVec.toNat_setWidth, BitVec.toNat_setWidth] at hnat
  omega

/-- A misaligned load returns the bytes from its address on exactly if these are
in the upper part of the word that it reads. -/
theorem loaded_eq_iff (c : Contents g) (op : LoadOp) {a : Word} (h : a.toNat % op.size ≠ 0) :
    loaded (ramDevice g) c (Agreement.loadOp op) a = loadBytes (loc g) (bytes c) a op ↔
      ∀ i < op.size, bytes c (loc g (a + BitVec.ofNat 32 i)) =
        lane (c.words (wordAddr g a)) (i + 4 - op.size) := by
  cases op with
  | lb | lbu => exact absurd (Nat.mod_one _) h
  | lh =>
      have hload := loaded_eq c (f := Decoder.funcLh) (by decide) a
      refine (Eq.congr_left hload).trans ((signExtend_inj _ _).trans ?_)
      exact half_eq_iff c (by simpa [LoadOp.size] using h)
  | lhu =>
      have hload := loaded_eq c (f := 0b101#3) (by decide) a
      refine (Eq.congr_left hload).trans ((setWidth_inj _ _).trans ?_)
      exact half_eq_iff c (by simpa [LoadOp.size] using h)
  | lw =>
      have hload := loaded_eq c (f := Decoder.funcLw) (by decide) a
      exact (Eq.congr_left hload).trans (word_eq_iff c a)

end TagSoc.TaggedArrays

namespace TagSoc.Soc
open Clocked Cpu CpuBus Csr Datapath WbRam TaggedArrays Rv32

variable {g : ℕ}

/-! ## The accesses of the processor -/

/-- What the lanes of `wb_ram.v` make of the word at a misaligned address: an odd
half store clears it. -/
def misalignedWord (op : StoreOp) (x : BitVec 32) : BitVec 32 :=
  match op with
  | .sw => x
  | .sb | .sh => 0#32

theorem write_misaligned (c : Contents g) (op : StoreOp) {a : BitVec 32} (x : BitVec 32)
    (h : a.toNat % op.size ≠ 0) :
    (ramDevice g).write c (Agreement.storeOp op).memSel a x =
      { c with words := Function.update c.words (wordAddr g a) (misalignedWord op x) } := by
  cases op with
  | sb => exact absurd (Nat.mod_one _) h
  | sh =>
      have hodd : a.toNat % 2 = 1 := by simpa [StoreOp.size] using h
      rw [show (Agreement.storeOp .sh).memSel = wbSelHalf from rfl]
      simp only [ramDevice, Contents.write, if_neg (by decide : wbSelHalf ≠ wbSelTag),
        writeHalf_odd x _ hodd]
      rfl
  | sw => rfl

/-- The trap for a misaligned address between clocks `k` and `n`. -/
def MisalignedTrap (r : Run (State.step (g := g))) (k n : ℕ) (cause : BitVec 32) : Prop :=
  (∃ j, k < j ∧ j < n ∧ (r.state j).cpu.state = .trap) ∧
    (r.state n).cpu.csr.settled mCause = cause

/-- A store that starts in clock `k` either traps and leaves the memory, or
changes exactly the bytes from its address on. -/
def StoreSound (r : Run (State.step (g := g))) (k n : ℕ) (op : StoreOp) : Prop :=
  MisalignedTrap r k n 6#32 ∧ (r.state n).ram.contents = (r.state k).ram.contents ∨
  bytes (r.state n).ram.contents = storeBytes (loc g) (bytes (r.state k).ram.contents)
    (r.state k).cpu.alu.result (r.state k).cpu.regs.regval2 op

/-- A load that starts in clock `k` either traps and leaves memory and registers,
or returns exactly the bytes from its address on. -/
def LoadSound (r : Run (State.step (g := g))) (k n : ℕ) (op : LoadOp) : Prop :=
  (r.state n).ram.contents = (r.state k).ram.contents ∧
  (MisalignedTrap r k n 4#32 ∧ (r.state n).cpu.regs.regfile = (r.state k).cpu.regs.regfile ∨
  (r.state n).cpu.regs.regfile = Registers.RegFile.write (r.state k).cpu.regs.regfile
    (r.state k).cpu.dec.rd (loadBytes (loc g) (bytes (r.state k).ram.contents)
      (r.state k).cpu.alu.result op))

/-- The word that is written has the stored bytes from the address on and the
old ones before and after; the next word has the rest already. -/
def StoreFits (c : Contents g) (a x : BitVec 32) (op : StoreOp) : Prop :=
  (∀ l < 4, lane (misalignedWord op x) l =
    if a.toNat % 4 ≤ l ∧ l < a.toNat % 4 + op.size then lane x (l - a.toNat % 4)
    else lane (c.words (wordAddr g a)) l) ∧
  ∀ l < 4, l + 4 < a.toNat % 4 + op.size →
    lane (c.words (wordAddr g (a + 4#32))) l = lane x (l + 4 - a.toNat % 4)

instance (c : Contents g) (a x : BitVec 32) (op : StoreOp) : Decidable (StoreFits c a x op) :=
  inferInstanceAs (Decidable (_ ∧ _))

/-- The bytes from the address on are those in the upper part of its word. -/
def LoadFits (c : Contents g) (a : BitVec 32) (op : LoadOp) : Prop :=
  ∀ i < op.size, bytes c (loc g (a + BitVec.ofNat 32 i)) =
    lane (c.words (wordAddr g a)) (i + 4 - op.size)

theorem AccessDone.no_trap {r : Run (State.step (g := g))} {k n : ℕ} (hn : AccessDone r k n)
    (cause : BitVec 32) : ¬ MisalignedTrap r k n cause := by
  rintro ⟨⟨j, hkj, hjn, hs⟩, -⟩
  rcases hn.path j hkj.le hjn with hp | hp <;> rw [hs] at hp <;> exact absurd hp (by decide)

section
variable {r : Run (State.step (g := g))} (h : Reached r) {k n : ℕ}
  (ha : periphSelect (r.state k).cpu.alu.result = wbAccessRam)
  (hn : NextBoundary (cpuRun r) k n)
include h ha hn

theorem storeSound_iff {op : StoreOp} (hs : (r.state k).cpu.state = .store1)
    (hop : Cpu.State.storeBusOp (r.state k).cpu.dec.funct3 = Agreement.storeOp op)
    (hmis : (r.state k).cpu.alu.result.toNat % op.size ≠ 0) :
    StoreSound r k n op ↔ StoreFits (r.state k).ram.contents (r.state k).cpu.alu.result
      (r.state k).cpu.regs.regval2 op := by
  obtain ⟨m, hm, hcont, -⟩ := h.store_done hs ha
  obtain rfl := hn.unique hm.next
  rw [hop, write_misaligned _ op _ hmis] at hcont
  rw [StoreSound, or_iff_right fun htrap => hm.no_trap _ htrap.1, hcont]
  exact bytes_update_eq_iff _ _ _ op _

theorem loadSound_iff {op : LoadOp} (hs : (r.state k).cpu.state = .load1)
    (hop : Cpu.State.loadBusOp (r.state k).cpu.dec.funct3 = Agreement.loadOp op)
    (hmis : (r.state k).cpu.alu.result.toNat % op.size ≠ 0) :
    LoadSound r k n op ↔ (r.state k).cpu.dec.rd = 0#5 ∨
      LoadFits (r.state k).ram.contents (r.state k).cpu.alu.result op := by
  obtain ⟨m, hm, hcont, hregs⟩ := h.load_done hs ha
  obtain rfl := hn.unique hm.next
  rw [hop] at hregs
  rw [LoadSound, or_iff_right fun htrap => hm.no_trap _ htrap.1, hregs, and_iff_right hcont,
    LoadFits, ← loaded_eq_iff _ op hmis]
  by_cases hz : (r.state k).cpu.dec.rd = 0#5
  · simp [hz]
  · simp only [hz, false_or]
    constructor
    · intro heq
      simpa [Registers.RegFile.write, hz] using congrFun heq (r.state k).cpu.dec.rd
    · intro heq
      rw [heq]

end

/-- A misaligned access to the memory never traps. What it does instead is the
access at its address exactly if the bytes happen to agree. -/
theorem misaligned_sound_iff {r : Run (State.step (g := g))} (h : Reached r) {k n : ℕ}
    (ha : periphSelect (r.state k).cpu.alu.result = wbAccessRam)
    (hn : NextBoundary (cpuRun r) k n) :
    (∀ op, (r.state k).cpu.state = .store1 →
      Cpu.State.storeBusOp (r.state k).cpu.dec.funct3 = Agreement.storeOp op →
      (r.state k).cpu.alu.result.toNat % op.size ≠ 0 →
      (StoreSound r k n op ↔ StoreFits (r.state k).ram.contents (r.state k).cpu.alu.result
        (r.state k).cpu.regs.regval2 op)) ∧
    ∀ op, (r.state k).cpu.state = .load1 →
      Cpu.State.loadBusOp (r.state k).cpu.dec.funct3 = Agreement.loadOp op →
      (r.state k).cpu.alu.result.toNat % op.size ≠ 0 →
      (LoadSound r k n op ↔ (r.state k).cpu.dec.rd = 0#5 ∨
        LoadFits (r.state k).ram.contents (r.state k).cpu.alu.result op) :=
  ⟨fun _ hs hop hmis => storeSound_iff h ha hn hs hop hmis,
    fun _ hs hop hmis => loadSound_iff h ha hn hs hop hmis⟩

/-- `sh x1, 17(x0)` before a word `w` at address 16. -/
def storingOdd (x w : BitVec 32) : Run (State.step (g := 1)) :=
  booted (fun k => if k = 1#5 then x else 0#32) (fun _ => 0#32)
    [0x001018A3#32, 0#32, 0#32, 0#32, w] fun _ => 0#4

theorem storingOdd_reached (x w : BitVec 32) : Reached (storingOdd x w) :=
  booted_reached _ _ _ _ rfl

/-- Storing zeros over zeros. -/
theorem misaligned_sound_zero :
    ∃ n, NextBoundary (cpuRun (storingOdd 0#32 0#32)) 7 n ∧
      StoreSound (storingOdd 0#32 0#32) 7 n .sh := by
  have h := storingOdd_reached 0#32 0#32
  have hs : ((storingOdd 0#32 0#32).state 7).cpu.state = .store1 := by decide +kernel
  have ha : periphSelect ((storingOdd 0#32 0#32).state 7).cpu.alu.result = wbAccessRam := by
    decide +kernel
  obtain ⟨n, hn, -⟩ := h.store_done hs ha
  have hiff := (misaligned_sound_iff h ha hn.next).1 .sh hs (by decide +kernel) (by decide +kernel)
  exact ⟨n, hn.next, hiff.mpr (by decide +kernel)⟩

/-- The store of a five to address 17 clears the byte at address 16. -/
theorem misaligned_clears_byte :
    Reached (storingOdd 5#32 0x11223344#32) ∧
      ((storingOdd 5#32 0x11223344#32).state 7).cpu.state = .store1 ∧
      ((storingOdd 5#32 0x11223344#32).state 7).cpu.alu.result = 17#32 ∧
      bytes ((storingOdd 5#32 0x11223344#32).state 7).ram.contents (loc 1 16#32) = 0x44#8 ∧
      ∃ n, NextBoundary (cpuRun (storingOdd 5#32 0x11223344#32)) 7 n ∧
        bytes ((storingOdd 5#32 0x11223344#32).state n).ram.contents (loc 1 16#32) = 0#8 ∧
        ¬ StoreSound (storingOdd 5#32 0x11223344#32) 7 n .sh := by
  have h := storingOdd_reached 5#32 0x11223344#32
  have hs : ((storingOdd 5#32 0x11223344#32).state 7).cpu.state = .store1 := by decide +kernel
  have hres : ((storingOdd 5#32 0x11223344#32).state 7).cpu.alu.result = 17#32 := by
    decide +kernel
  have ha : periphSelect ((storingOdd 5#32 0x11223344#32).state 7).cpu.alu.result =
      wbAccessRam := by
    rw [hres]; decide
  have hop : Cpu.State.storeBusOp ((storingOdd 5#32 0x11223344#32).state 7).cpu.dec.funct3 =
      Agreement.storeOp .sh := by decide +kernel
  have hmis : ((storingOdd 5#32 0x11223344#32).state 7).cpu.alu.result.toNat %
      StoreOp.sh.size ≠ 0 := by rw [hres]; decide
  obtain ⟨n, hn, hcont, -⟩ := h.store_done hs ha
  have hiff := storeSound_iff h ha hn.next hs hop hmis
  refine ⟨h, hs, hres, by decide +kernel, n, hn.next, ?_, fun hsound => ?_⟩
  · rw [hcont, hop, write_misaligned _ .sh _ hmis, hres, bytes]
    exact congrArg (fun w => lane w 0) (Function.update_self (f := Contents.words _) _ _)
  · exact absurd (hiff.mp hsound) (by decide +kernel)

end TagSoc.Soc
