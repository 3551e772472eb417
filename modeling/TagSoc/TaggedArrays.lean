import TagSoc.RamRun
import TagSoc.Refinement

/-!
# Two independent arrays

What the tagged memory is for: an array of bytes and an array of tags, one for
each 16 bytes, both reached by the address modulo their size. `Memory` says it
without clocks or word lanes, and `ramDevice_bytes` and the two lemmas after it
say that the words and lanes of `wb_ram.v` are such a memory for naturally
aligned accesses.
-/
namespace TagSoc.TaggedArrays
open WbRam Datapath Refinement BitSlices

abbrev Word := BitVec 32
abbrev Byte := BitVec 8

variable {g : ℕ}

/-! ## The arrays -/

structure Memory (g : ℕ) where
  bytes : BitVec (g + 4) → Byte
  tags : BitVec g → BitVec 4

/-- The byte an address names: the address modulo the size. -/
def loc (g : ℕ) (a : Word) : BitVec (g + 4) := a.setWidth (g + 4)

/-- The granule an address names. -/
def granule (g : ℕ) (a : Word) : BitVec g := (a >>> 4).setWidth g

inductive Size where
  | byte | half | word | tag
deriving Repr, DecidableEq

structure Request where
  size : Size
  we : Bool
  addr : Word
  data : Word
deriving Repr, DecidableEq

def Request.Aligned (q : Request) : Prop :=
  match q.size with
  | .byte | .tag => True
  | .half => q.addr.toNat % 2 = 0
  | .word => q.addr.toNat % 4 = 0

namespace Memory

def read (m : Memory g) (q : Request) : Word :=
  match q.size with
  | .byte => (m.bytes (loc g q.addr)).setWidth 32
  | .half => (Rv32.readHalf (loc g) m.bytes q.addr).setWidth 32
  | .word => Rv32.readWord (loc g) m.bytes q.addr
  | .tag => (m.tags (granule g q.addr)).setWidth 32

def write (m : Memory g) (q : Request) : Memory g :=
  match q.size with
  | .byte => { m with bytes := Rv32.storeBytes (loc g) m.bytes q.addr q.data .sb }
  | .half => { m with bytes := Rv32.storeBytes (loc g) m.bytes q.addr q.data .sh }
  | .word => { m with bytes := Rv32.storeBytes (loc g) m.bytes q.addr q.data .sw }
  | .tag => { m with tags := Function.update m.tags (granule g q.addr) (q.data.setWidth 4) }

/-- The memory after a request. -/
def after (m : Memory g) (q : Request) : Memory g := if q.we then m.write q else m

end Memory

/-! ## Words and lanes -/

/-- Byte `k` of a word. -/
def lane (w : Word) (k : ℕ) : Byte := w.extractLsb' (8 * k) 8

def bytes (c : Contents g) : BitVec (g + 4) → Byte :=
  fun x => lane (c.words (x.extractLsb' 2 (g + 2))) (x.toNat % 4)

def memory (c : Contents g) : Memory g := ⟨bytes c, c.tags⟩

theorem wordAddr_toNat (a : Word) : (wordAddr g a).toNat = a.toNat / 4 % 2 ^ (g + 2) := by
  rw [wordAddr, BitVec.extractLsb'_toNat, Nat.shiftRight_eq_div_pow]

/-- A byte is found by its word and its lane. -/
theorem eq_loc_iff {x : BitVec (g + 4)} {a : Word} :
    x = loc g a ↔ x.extractLsb' 2 (g + 2) = wordAddr g a ∧ x.toNat % 4 = a.toNat % 4 := by
  have hpow : 2 ^ (g + 4) = 4 * 2 ^ (g + 2) := by
    rw [show g + 4 = 2 + (g + 2) by omega, Nat.pow_add]
  have hmod : a.toNat % 2 ^ (g + 4) = 4 * (a.toNat / 4 % 2 ^ (g + 2)) + a.toNat % 4 := by
    rw [hpow, Nat.mod_mul, Nat.add_comm]
  have hlt := x.isLt
  rw [← BitVec.toNat_inj, ← BitVec.toNat_inj, wordAddr_toNat, BitVec.extractLsb'_toNat,
    Nat.shiftRight_eq_div_pow, loc, BitVec.toNat_setWidth, hmod]
  have hdiv : x.toNat / 2 ^ 2 % 2 ^ (g + 2) = x.toNat / 4 := by
    apply Nat.mod_eq_of_lt
    rw [hpow] at hlt
    omega
  rw [hdiv]
  omega

theorem bytes_loc (c : Contents g) (a : Word) :
    bytes c (loc g a) = lane (c.words (wordAddr g a)) (a.toNat % 4) := by
  obtain ⟨hw, hl⟩ := eq_loc_iff.mp (Eq.refl (loc g a))
  rw [bytes, hw, hl]

/-- Stepping through the bytes of a word does not leave it. -/
theorem add_lane {a : Word} {k : ℕ} (h : a.toNat % 4 + k < 4) :
    wordAddr g (a + BitVec.ofNat 32 k) = wordAddr g a ∧
      (a + BitVec.ofNat 32 k).toNat % 4 = a.toNat % 4 + k := by
  have hlt := a.isLt
  have hsum : (a + BitVec.ofNat 32 k).toNat = a.toNat + k := by
    rw [BitVec.toNat_add, BitVec.toNat_ofNat]
    omega
  refine ⟨?_, by omega⟩
  rw [← BitVec.toNat_inj, wordAddr_toNat, wordAddr_toNat, hsum]
  congr 1
  omega

theorem low_bits (a : Word) : a.extractLsb' 0 2 = BitVec.ofNat 2 (a.toNat % 4) := by
  apply BitVec.eq_of_toNat_eq
  rw [BitVec.extractLsb'_toNat, BitVec.toNat_ofNat]
  simp

theorem four_lanes (w : Word) : lane w 3 ++ lane w 2 ++ lane w 1 ++ lane w 0 = w :=
  four_bytes w

theorem lane_ext {w w' : Word} (h : ∀ l < 4, lane w l = lane w' l) : w = w' := by
  rw [← four_lanes w, ← four_lanes w', h 0 (by decide), h 1 (by decide), h 2 (by decide),
    h 3 (by decide)]

theorem lane_cases (a : Word) :
    a.toNat % 4 = 0 ∨ a.toNat % 4 = 1 ∨ a.toNat % 4 = 2 ∨ a.toNat % 4 = 3 := by
  omega

theorem finalByte_eq (a w : Word) : finalByte a w = lane w (a.toNat % 4) := by
  rw [finalByte, low_bits]
  rcases lane_cases a with h | h | h | h <;> rw [h] <;> rfl

theorem finalHalf_eq {a : Word} (w : Word) (h : a.toNat % 2 = 0) :
    finalHalf a w = lane w (a.toNat % 4 + 1) ++ lane w (a.toNat % 4) := by
  have hslice : ∀ k, w.extractLsb' (8 * k) 16 = lane w (k + 1) ++ lane w k := by
    intro k
    apply BitVec.eq_of_getLsbD_eq
    intro i hi
    simp only [lane, BitVec.getLsbD_append, BitVec.getLsbD_extractLsb', hi]
    by_cases h8 : i < 8
    · simp [h8]
    · have hsub : 8 * (k + 1) + (i - 8) = 8 * k + i := by omega
      have hlt : i - 8 < 8 := by omega
      simp [h8, hsub, hlt]
  rw [finalHalf, low_bits]
  rcases (by omega : a.toNat % 4 = 0 ∨ a.toNat % 4 = 2) with h | h <;> rw [h]
  · exact hslice 0
  · exact hslice 2

section store
variable {a : Word} (x old : Word) {l : ℕ} (hl : l < 4)
include hl

theorem lane_writeByte :
    lane (dataToWrite wbSelByte a x old) l = if l = a.toNat % 4 then lane x 0 else lane old l := by
  rw [dataToWrite, if_pos rfl, low_bits]
  rcases lane_cases a with h | h | h | h <;> rw [h] <;> interval_cases l <;>
    simp [lane] <;>
    repeat first
      | rw [extractLsb'_append_low _ _ _ _ (by decide)]
      | rw [extractLsb'_append_high _ _ _ _ (by decide)]
      | rw [extractLsb'_extractLsb' _ _ _ _ _ (by decide)]
      | rfl

theorem lane_writeHalf (h : a.toNat % 2 = 0) :
    lane (dataToWrite wbSelHalf a x old) l =
      if l = a.toNat % 4 then lane x 0 else if l = a.toNat % 4 + 1 then lane x 1 else lane old l := by
  rw [dataToWrite, if_neg (by decide), if_pos rfl, low_bits]
  rcases (by omega : a.toNat % 4 = 0 ∨ a.toNat % 4 = 2) with h | h <;> rw [h] <;>
    interval_cases l <;>
    simp [lane] <;>
    repeat first
      | rw [extractLsb'_append_low _ _ _ _ (by decide)]
      | rw [extractLsb'_append_high _ _ _ _ (by decide)]
      | rw [extractLsb'_extractLsb' _ _ _ _ _ (by decide)]
      | rfl

end store

/-- A half store to an odd address has no lane of its own in the source's
multiplexer: the whole word is cleared. -/
theorem writeHalf_odd {a : Word} (x old : Word) (h : a.toNat % 2 = 1) :
    dataToWrite wbSelHalf a x old = 0#32 := by
  rw [dataToWrite, if_neg (by decide), if_pos rfl, low_bits]
  rcases (by omega : a.toNat % 4 = 1 ∨ a.toNat % 4 = 3) with h | h <;> rw [h] <;> rfl

/-! ## The device -/

theorem eq_loc_same {y : BitVec (g + 4)} {a : Word}
    (hw : y.extractLsb' 2 (g + 2) = wordAddr g a) :
    y = loc g a ↔ y.toNat % 4 = a.toNat % 4 := by
  rw [eq_loc_iff]
  exact ⟨fun h => h.2, fun h => ⟨hw, h⟩⟩

section word
variable {y : BitVec (g + 4)} {a : Word} {k : ℕ} (hk : a.toNat % 4 + k < 4)
include hk

theorem eq_loc_add (hw : y.extractLsb' 2 (g + 2) = wordAddr g a) :
    y = loc g (a + BitVec.ofNat 32 k) ↔ y.toNat % 4 = a.toNat % 4 + k := by
  obtain ⟨h₁, h₂⟩ := add_lane (g := g) hk
  rw [eq_loc_iff, h₁, h₂]
  exact ⟨fun h => h.2, fun h => ⟨hw, h⟩⟩

theorem ne_loc_add (hw : y.extractLsb' 2 (g + 2) ≠ wordAddr g a) :
    y ≠ loc g (a + BitVec.ofNat 32 k) := by
  intro h
  obtain ⟨h₁, -⟩ := add_lane (g := g) hk
  exact hw ((eq_loc_iff.mp h).1.trans h₁)

end word

/-- A store changes the lanes of one word. -/
theorem bytes_write (c : Contents g) {sel : BitVec 4} (hsel : sel ≠ wbSelTag) (a x : Word)
    (y : BitVec (g + 4)) :
    bytes ((ramDevice g).write c sel a x) y =
      if y.extractLsb' 2 (g + 2) = wordAddr g a then
        lane (dataToWrite sel a x (c.words (wordAddr g a))) (y.toNat % 4)
      else bytes c y := by
  simp only [bytes, ramDevice, Contents.write, if_neg hsel]
  by_cases h : y.extractLsb' 2 (g + 2) = wordAddr g a
  · rw [if_pos h, h, Function.update_self]
  · rw [if_neg h, Function.update_of_ne h]

theorem bytes_writeByte (c : Contents g) (a x : Word) :
    bytes ((ramDevice g).write c wbSelByte a x) = Rv32.storeBytes (loc g) (bytes c) a x .sb := by
  funext y
  have hl : y.toNat % 4 < 4 := Nat.mod_lt _ (by decide)
  rw [bytes_write c (by decide), Rv32.storeBytes, Function.update_apply]
  by_cases hw : y.extractLsb' 2 (g + 2) = wordAddr g a
  · rw [if_pos hw, lane_writeByte _ _ hl, bytes, hw]
    simp only [eq_loc_same hw]
    rfl
  · have hne : y ≠ loc g a := fun h => hw (eq_loc_iff.mp h).1
    rw [if_neg hw, if_neg hne]

theorem bytes_writeHalf (c : Contents g) {a : Word} (x : Word) (h : a.toNat % 2 = 0) :
    bytes ((ramDevice g).write c wbSelHalf a x) = Rv32.storeBytes (loc g) (bytes c) a x .sh := by
  funext y
  have hl : y.toNat % 4 < 4 := Nat.mod_lt _ (by decide)
  simp only [bytes_write c (show wbSelHalf ≠ wbSelTag by decide), Rv32.storeBytes,
    Function.update_apply]
  by_cases hw : y.extractLsb' 2 (g + 2) = wordAddr g a
  · have h₀ := eq_loc_same hw
    have h₁ := eq_loc_add (k := 1) (by omega) hw
    rw [if_pos hw, lane_writeHalf _ _ hl h, bytes, hw]
    simp only [h₀, h₁]
    split_ifs <;> first | rfl | omega
  · have h₀ : y ≠ loc g a := fun h => hw (eq_loc_iff.mp h).1
    rw [if_neg hw, if_neg (ne_loc_add (k := 1) (by omega) hw), if_neg h₀]

theorem bytes_writeWord (c : Contents g) {a : Word} (x : Word) (h : a.toNat % 4 = 0) :
    bytes ((ramDevice g).write c wbSelWord a x) = Rv32.storeBytes (loc g) (bytes c) a x .sw := by
  funext y
  have hl : y.toNat % 4 < 4 := Nat.mod_lt _ (by decide)
  simp only [bytes_write c (show wbSelWord ≠ wbSelTag by decide), Rv32.storeBytes,
    Function.update_apply]
  by_cases hw : y.extractLsb' 2 (g + 2) = wordAddr g a
  · have h₀ := eq_loc_same hw
    have h₁ := eq_loc_add (k := 1) (by omega) hw
    have h₂ := eq_loc_add (k := 2) (by omega) hw
    have h₃ := eq_loc_add (k := 3) (by omega) hw
    rw [if_pos hw]
    simp only [h₀, h₁, h₂, h₃, h]
    generalize y.toNat % 4 = l at hl
    interval_cases l <;> rfl
  · have h₀ : y ≠ loc g a := fun h => hw (eq_loc_iff.mp h).1
    rw [if_neg hw, if_neg (ne_loc_add (k := 3) (by omega) hw),
      if_neg (ne_loc_add (k := 2) (by omega) hw), if_neg (ne_loc_add (k := 1) (by omega) hw),
      if_neg h₀]

theorem readHalf_eq (c : Contents g) {a : Word} (h : a.toNat % 2 = 0) :
    Rv32.readHalf (loc g) (bytes c) a = finalHalf a (c.words (wordAddr g a)) := by
  obtain ⟨h₁, h₂⟩ := add_lane (g := g) (a := a) (k := 1) (by omega)
  rw [finalHalf_eq _ h, Rv32.readHalf, bytes_loc, bytes_loc, h₁, h₂]

theorem readWord_eq (c : Contents g) {a : Word} (h : a.toNat % 4 = 0) :
    Rv32.readWord (loc g) (bytes c) a = c.words (wordAddr g a) := by
  have hstep : ∀ k, k < 4 → bytes c (loc g (a + BitVec.ofNat 32 k)) =
      lane (c.words (wordAddr g a)) k := by
    intro k hk
    obtain ⟨h₁, h₂⟩ := add_lane (g := g) (a := a) (k := k) (by omega)
    rw [bytes_loc, h₁, h₂, h, Nat.zero_add]
  rw [Rv32.readWord, hstep 3 (by decide), hstep 2 (by decide), hstep 1 (by decide), bytes_loc, h]
  exact four_lanes _

/-- The word that contains an address. -/
theorem wordAddr_aligned (a : Word) : wordAddr g (a &&& ~~~3#32) = wordAddr g a := by
  rw [← BitVec.toNat_inj, wordAddr_toNat, wordAddr_toNat, and_not_three_toNat]
  congr 1
  omega

/-- `wb_ram.v` is a byte-addressed memory. -/
theorem ramDevice_bytes (g : ℕ) : ByteDevice (ramDevice g) (loc g) bytes where
  read_word m a h := by
    have hal : (a &&& ~~~3#32).toNat % 4 = 0 := by
      rw [and_not_three_toNat]
      omega
    rw [readWord_eq m hal, wordAddr_aligned]
    rfl
  read_half m a h := by
    rw [readHalf_eq m ((even_iff a).mp h)]
    exact extractLsb'_append_low _ _ 0 16 (by decide) |>.trans BitVec.extractLsb'_eq_self
  read_byte m a := by
    rw [bytes_loc, ← finalByte_eq]
    exact extractLsb'_append_low _ _ 0 8 (by decide) |>.trans BitVec.extractLsb'_eq_self
  write_word m _ x h := bytes_writeWord m x h
  write_half m _ x h := bytes_writeHalf m x h
  write_byte m a x := bytes_writeByte m a x

/-- What a load that is not a tag access makes of the word `w` at its address. -/
def loadedValue (f : BitVec 3) (a w : Word) : Word :=
  if f = Decoder.funcLb then (lane w (a.toNat % 4)).signExtend 32
  else if f = Decoder.funcLh then (finalHalf a w).signExtend 32
  else if f = Decoder.funcLw then w
  else if f = Decoder.funcLbu then (lane w (a.toNat % 4)).setWidth 32
  else (finalHalf a w).setWidth 32

theorem loaded_eq (c : Contents g) {f : BitVec 3} (hf : f ≠ Decoder.funcLt) (a : Word) :
    loaded (ramDevice g) c (Cpu.State.loadBusOp f) a =
      loadedValue f a (c.words (wordAddr g a)) := by
  have hbyte : ((ramDevice g).read c wbSelByte a).extractLsb' 0 8 =
      lane (c.words (wordAddr g a)) (a.toNat % 4) := by
    rw [← finalByte_eq]
    exact extractLsb'_append_low _ _ 0 8 (by decide) |>.trans BitVec.extractLsb'_eq_self
  have hhalf : ((ramDevice g).read c wbSelHalf a).extractLsb' 0 16 =
      finalHalf a (c.words (wordAddr g a)) :=
    extractLsb'_append_low _ _ 0 16 (by decide) |>.trans BitVec.extractLsb'_eq_self
  unfold Cpu.State.loadBusOp loadedValue
  split_ifs with h₁ h₂ h₃ h₄
  · exact (dataFromBus_byte true _).trans (congrArg (BitVec.signExtend 32) hbyte)
  · exact (dataFromBus_half true _).trans (congrArg (BitVec.signExtend 32) hhalf)
  · exact Cpu.loaded_readw _ _ _
  · exact (dataFromBus_byte false _).trans (congrArg (BitVec.setWidth 32) hbyte)
  · exact (dataFromBus_half false _).trans (congrArg (BitVec.setWidth 32) hhalf)

/-! ## Requests on the device -/

def Size.sel : Size → BitVec 4
  | .byte => wbSelByte
  | .half => wbSelHalf
  | .word => wbSelWord
  | .tag => wbSelTag

/-- The size that select lines ask for. -/
def Size.ofSel (sel : BitVec 4) : Size :=
  if sel = wbSelByte then .byte
  else if sel = wbSelHalf then .half
  else if sel = wbSelTag then .tag
  else .word

@[simp] theorem Size.ofSel_sel (z : Size) : Size.ofSel z.sel = z := by
  cases z <;> rfl

theorem granule_eq (a : Word) : granule g a = granuleAddr g a := by
  apply BitVec.eq_of_toNat_eq
  rw [granule, granuleAddr, BitVec.toNat_setWidth, BitVec.toNat_ushiftRight,
    BitVec.extractLsb'_toNat]

theorem memory_read (c : Contents g) {q : Request} (hq : q.Aligned) :
    (ramDevice g).read c q.size.sel q.addr = (memory c).read q := by
  obtain ⟨size, we, a, x⟩ := q
  cases size with
  | byte =>
      have h : bytes c (loc g a) = finalByte a (c.words (wordAddr g a)) := by
        rw [bytes_loc, finalByte_eq]
      exact (BitVec.setWidth_eq_append (by decide)).symm.trans (congrArg (BitVec.setWidth 32) h.symm)
  | half =>
      exact (BitVec.setWidth_eq_append (by decide)).symm.trans
        (congrArg (BitVec.setWidth 32) (readHalf_eq c hq).symm)
  | word => exact (readWord_eq c hq).symm
  | tag =>
      have h : c.tags (granule g a) = c.tags (granuleAddr g a) := by rw [granule_eq]
      exact (BitVec.setWidth_eq_append (by decide)).symm.trans (congrArg (BitVec.setWidth 32) h.symm)

theorem memory_write (c : Contents g) {q : Request} (hq : q.Aligned) :
    memory ((ramDevice g).write c q.size.sel q.addr q.data) = (memory c).write q := by
  obtain ⟨size, we, a, x⟩ := q
  cases size with
  | byte => simp only [memory, Memory.write, Size.sel, bytes_writeByte]; rfl
  | half => simp only [memory, Memory.write, Size.sel, bytes_writeHalf c x hq]; rfl
  | word => simp only [memory, Memory.write, Size.sel, bytes_writeWord c x hq]; rfl
  | tag =>
      simp only [memory, Memory.write, granule_eq]
      congr 1

end TagSoc.TaggedArrays
