import TagSoc.HexText
import TagSoc.WbRam

/-!
# Memory images as text

`makehex.py` writes a binary file as the text that `$readmemh` loads into the memory,
a line for every word. It takes bytes for signed numbers, and it turns the four bytes
of a word around twice, so that the first of them is the highest.
-/
namespace TagSoc.RamImage
open HexText

abbrev Byte := BitVec 8
abbrev Word := BitVec 32

/-! ## Bytes of the memory -/

/-- The byte that a load gets from the words of the memory. -/
def ramByte (word : ℕ → Word) (i : ℕ) : Byte := WbRam.finalByte (BitVec.ofNat 32 i) (word (i / 4))

/-- What holds of the four bytes of every word holds of every byte. -/
theorem forall_lanes {n : ℕ} {P : ℕ → Prop} (hn : n % 4 = 0)
    (h : ∀ k < n / 4, P (4 * k) ∧ P (4 * k + 1) ∧ P (4 * k + 2) ∧ P (4 * k + 3)) :
    ∀ i < n, P i := by
  intro i hi
  obtain ⟨h₀, h₁, h₂, h₃⟩ := h (i / 4) (by omega)
  have hcase : i = 4 * (i / 4) ∨ i = 4 * (i / 4) + 1 ∨ i = 4 * (i / 4) + 2 ∨
      i = 4 * (i / 4) + 3 := by omega
  rcases hcase with hi | hi | hi | hi <;> rw [hi] <;> assumption

theorem ramByte_lanes {word : ℕ → Word} {k : ℕ} {b₃ b₂ b₁ b₀ : Byte}
    (h : word k = b₃ ++ b₂ ++ b₁ ++ b₀) :
    ramByte word (4 * k) = b₀ ∧ ramByte word (4 * k + 1) = b₁ ∧ ramByte word (4 * k + 2) = b₂ ∧
      ramByte word (4 * k + 3) = b₃ := by
  have hlane : ∀ j < 4, (BitVec.ofNat 32 (4 * k + j)).extractLsb' 0 2 = BitVec.ofNat 2 j := by
    intro j hj
    apply BitVec.eq_of_toNat_eq
    rw [BitVec.extractLsb'_toNat, BitVec.toNat_ofNat, BitVec.toNat_ofNat, Nat.shiftRight_zero]
    omega
  have hword : ∀ j < 4, word ((4 * k + j) / 4) = b₃ ++ b₂ ++ b₁ ++ b₀ := by
    intro j hj
    rw [← h]
    congr 1
    omega
  have h0 := hlane 0 (by decide)
  have hw0 := hword 0 (by decide)
  rw [Nat.add_zero] at h0 hw0
  simp only [ramByte, WbRam.finalByte, h0, hlane 1 (by decide), hlane 2 (by decide),
    hlane 3 (by decide), hw0, hword 1 (by decide), hword 2 (by decide), hword 3 (by decide)]
  -- one lane each, from the lowest on
  refine ⟨?_, ?_, ?_, ?_⟩
  · rw [if_pos (by decide), BitSlices.extractLsb'_append_low _ _ _ _ (by decide)]
    simp
  · rw [if_neg (by decide), if_pos (by decide), BitSlices.extractLsb'_append_high _ _ _ _ (by decide),
      BitSlices.extractLsb'_append_low _ _ _ _ (by decide)]
    simp
  · rw [if_neg (by decide), if_neg (by decide), if_pos (by decide),
      BitSlices.extractLsb'_append_high _ _ _ _ (by decide),
      BitSlices.extractLsb'_append_high _ _ _ _ (by decide),
      BitSlices.extractLsb'_append_low _ _ _ _ (by decide)]
    simp
  · rw [if_neg (by decide), if_neg (by decide), if_neg (by decide),
      BitSlices.extractLsb'_append_high _ _ _ _ (by decide),
      BitSlices.extractLsb'_append_high _ _ _ _ (by decide),
      BitSlices.extractLsb'_append_high _ _ _ _ (by decide)]
    simp

/-! ## `makehex` -/

/-- The format `{:02x}`. The sign of a negative number counts as one of the two places. -/
def format02x (z : ℤ) : Text :=
  let sign := if z < 0 then ['-'] else []
  let ds := Nat.toDigits 16 z.natAbs
  sign ++ List.replicate (2 - sign.length - ds.length) '0' ++ ds

/-- The line of a word. `struct.unpack` with the format `b` gives a signed number. -/
def makehexLine (w : List Byte) : Text :=
  let w := (w.map BitVec.toInt).reverse
  -- the last of the reversed list is the first byte of the file
  format02x (w.getD 3 0) ++ format02x (w.getD 2 0) ++ format02x (w.getD 1 0) ++
    format02x (w.getD 0 0) ++ ['\n']

def makehex (bindata : List Byte) : Option Text :=
  if bindata.length % 4 = 0 then
    some ((List.range (bindata.length / 4)).flatMap fun i =>
      makehexLine ((bindata.drop (4 * i)).take 4))
  else none

/-- `$readmemh` of a text of numbers: the words of the memory from the first on. -/
def readmemh (text : Text) : Option (List Word) :=
  (split text).mapM fun s => (number s).map (BitVec.ofNat 32)

/-- A text with a line of eight digits for every four bytes, from which the memory gets the
bytes of the file. -/
def RoundTrips (bindata : List Byte) : Prop :=
  ∃ (lines : List Text) (words : List Word), makehex bindata = some (lines.flatMap (· ++ ['\n'])) ∧
    lines.length = bindata.length / 4 ∧
    (∀ l ∈ lines, l.length = 8 ∧ ∀ c ∈ l, ∃ d, digit c = some d) ∧
    readmemh (lines.flatMap (· ++ ['\n'])) = some words ∧
    ∀ i < bindata.length, ramByte (words.getD · 0#32) i = bindata.getD i 0#8

/-! ## Bytes below `0x80` -/

theorem byte_format {b : Byte} (hb : b.toNat < 128) : byte (format02x b.toInt) = some b := by
  have hall : ∀ n < 128, byte (format02x (n : ℕ)) = some (BitVec.ofNat 8 n) := by decide +kernel
  have hint : b.toInt = (b.toNat : ℤ) := BitVec.toInt_eq_toNat_of_lt (by omega)
  rw [hint, hall b.toNat hb, BitVec.ofNat_toNat, BitVec.setWidth_eq]

/-- The sign of a byte from `0x80` on is in the text. -/
theorem sign_mem_format {b : Byte} (hb : 128 ≤ b.toNat) : '-' ∈ format02x b.toInt := by
  have hneg : b.toInt < 0 := by
    have hlt := b.isLt
    rw [BitVec.toInt_eq_toNat_cond, if_neg (by omega)]
    omega
  simp [format02x, hneg]

/-- Four elements in a row. -/
theorem take_four {α : Type} {l : List α} {k : ℕ} {z : α} (hk : 4 * k + 4 ≤ l.length) :
    (l.drop (4 * k)).take 4 =
      [l.getD (4 * k) z, l.getD (4 * k + 1) z, l.getD (4 * k + 2) z, l.getD (4 * k + 3) z] := by
  have hget : ∀ j < 4, l.getD (4 * k + j) z = (l.drop (4 * k)).getD j z := by
    intro j _
    simp
  have h0 := hget 0 (by decide)
  rw [Nat.add_zero] at h0
  rw [h0, hget 1 (by decide), hget 2 (by decide), hget 3 (by decide)]
  have hlen : 4 ≤ (l.drop (4 * k)).length := by
    rw [List.length_drop]
    omega
  match l.drop (4 * k), hlen with
  | _ :: _ :: _ :: _ :: _, _ => rfl

section chunks
variable {bindata : List Byte} {k : ℕ}

/-- The digits of a line, in the order of the file. -/
def lineDigits (bindata : List Byte) (k : ℕ) : Text :=
  format02x (bindata.getD (4 * k) 0#8).toInt ++ format02x (bindata.getD (4 * k + 1) 0#8).toInt ++
    format02x (bindata.getD (4 * k + 2) 0#8).toInt ++ format02x (bindata.getD (4 * k + 3) 0#8).toInt

theorem makehexLine_eq (hk : 4 * k + 4 ≤ bindata.length) :
    makehexLine ((bindata.drop (4 * k)).take 4) = lineDigits bindata k ++ ['\n'] := by
  rw [take_four hk]
  rfl

theorem makehex_eq (hlen : bindata.length % 4 = 0) : makehex bindata =
    some (((List.range (bindata.length / 4)).map (lineDigits bindata)).flatMap (· ++ ['\n'])) := by
  rw [makehex, if_pos hlen, List.flatMap_map]
  congr 1
  refine List.flatMap_congr fun k hk => ?_
  rw [List.mem_range] at hk
  exact makehexLine_eq (by omega)

/-- The word that is read from a line. -/
def lineWord (bindata : List Byte) (k : ℕ) : Word :=
  bindata.getD (4 * k) 0#8 ++ bindata.getD (4 * k + 1) 0#8 ++ bindata.getD (4 * k + 2) 0#8 ++
    bindata.getD (4 * k + 3) 0#8

theorem getD_lt (hlow : ∀ b ∈ bindata, b.toNat < 128) (i : ℕ) : (bindata.getD i 0#8).toNat < 128 := by
  rw [List.getD_eq_getElem?_getD]
  cases h : bindata[i]? with
  | none => decide
  | some b => exact hlow b (List.mem_of_getElem? h)

theorem lineDigits_digits (hlow : ∀ b ∈ bindata, b.toNat < 128) (k : ℕ) :
    (lineDigits bindata k).length = 8 ∧ ∀ c ∈ lineDigits bindata k, ∃ d, digit c = some d := by
  have hget := fun i => byte_digits (byte_format (getD_lt hlow i))
  refine ⟨?_, fun c hc => ?_⟩
  · simp only [lineDigits, List.length_append, (hget _).1]
  · simp only [lineDigits, List.mem_append] at hc
    rcases hc with ((hc | hc) | hc) | hc <;> exact (hget _).2 c hc

theorem number_lineDigits (hlow : ∀ b ∈ bindata, b.toNat < 128) (k : ℕ) :
    number (lineDigits bindata k) = some (lineWord bindata k).toNat := by
  have hget := fun i => byte_format (getD_lt hlow i)
  rw [number, if_neg]
  · exact digits_word (hget _) (hget _) (hget _) (hget _)
  · intro hnil
    have hlen := (lineDigits_digits hlow k).1
    rw [hnil] at hlen
    cases hlen

end chunks

/-! ## The memory -/

/-- A text of lines of digits reads back line by line. -/
theorem readmemh_lines {ι : Type} {ks : List ι} {line : ι → Text} {word : ι → Word}
    (hdigits : ∀ k ∈ ks, (line k).length = 8 ∧ ∀ c ∈ line k, ∃ d, digit c = some d)
    (hword : ∀ k ∈ ks, number (line k) = some (word k).toNat) :
    readmemh ((ks.map line).flatMap (· ++ ['\n'])) = some (ks.map word) := by
  have hsplit : split ((ks.map line).flatMap (· ++ ['\n'])) = ks.map line := by
    refine split_lines fun l hl => ?_
    obtain ⟨k, hk, rfl⟩ := List.mem_map.mp hl
    refine ⟨fun hnil => ?_, fun c hc => ?_⟩
    · have hlen := (hdigits k hk).1
      rw [hnil] at hlen
      cases hlen
    · obtain ⟨d, hd⟩ := (hdigits k hk).2 c hc
      exact isSpace_digit hd
  rw [readmemh, hsplit, List.mapM_map]
  refine mapM_of_forall fun k hk => ?_
  simp [hword k hk]

/-- The bytes of the file that the memory has at the same places. -/
theorem ramByte_lineWord (bindata : List Byte) {n k : ℕ} (hk : k < n) :
    let word := fun i => ((List.range n).map (lineWord bindata)).getD i 0#32
    ramByte word (4 * k) = bindata.getD (4 * k + 3) 0#8 ∧
      ramByte word (4 * k + 1) = bindata.getD (4 * k + 2) 0#8 ∧
      ramByte word (4 * k + 2) = bindata.getD (4 * k + 1) 0#8 ∧
      ramByte word (4 * k + 3) = bindata.getD (4 * k) 0#8 := by
  intro word
  apply ramByte_lanes
  simp [word, hk, lineWord]

/-- Every word of the file is the same from both ends. -/
def Mirrored (bindata : List Byte) : Prop :=
  ∀ k < bindata.length / 4, bindata.getD (4 * k) 0#8 = bindata.getD (4 * k + 3) 0#8 ∧
    bindata.getD (4 * k + 1) 0#8 = bindata.getD (4 * k + 2) 0#8

instance (bindata : List Byte) : Decidable (Mirrored bindata) :=
  inferInstanceAs (Decidable (∀ k < bindata.length / 4, _ ∧ _))

/-- Without bytes from `0x80` on, what is read back is the file with its words turned around. -/
theorem readmemh_makehex {bindata : List Byte} (hlow : ∀ b ∈ bindata, b.toNat < 128) (n : ℕ) :
    readmemh (((List.range n).map (lineDigits bindata)).flatMap (· ++ ['\n'])) =
      some ((List.range n).map (lineWord bindata)) :=
  readmemh_lines (fun k _ => lineDigits_digits hlow k) fun k _ => number_lineDigits hlow k

theorem mirrored_iff {bindata : List Byte} (hlen : bindata.length % 4 = 0) :
    (∀ i < bindata.length, ramByte (((List.range (bindata.length / 4)).map
      (lineWord bindata)).getD · 0#32) i = bindata.getD i 0#8) ↔ Mirrored bindata := by
  constructor
  · intro h k hk
    obtain ⟨h₀, h₁, -, -⟩ := ramByte_lineWord bindata hk
    exact ⟨(h (4 * k) (by omega)).symm.trans h₀, (h (4 * k + 1) (by omega)).symm.trans h₁⟩
  · intro h
    refine forall_lanes hlen fun k hk => ?_
    obtain ⟨h₀, h₁, h₂, h₃⟩ := ramByte_lineWord bindata hk
    obtain ⟨hout, hin⟩ := h k hk
    exact ⟨h₀.trans hout.symm, h₁.trans hin.symm, h₂.trans hin, h₃.trans hout⟩

/-- The bytes of a line without a sign. -/
theorem low_of_lineDigits {bindata : List Byte} {k : ℕ} (h : '-' ∉ lineDigits bindata k) :
    (bindata.getD (4 * k) 0#8).toNat < 128 ∧ (bindata.getD (4 * k + 1) 0#8).toNat < 128 ∧
      (bindata.getD (4 * k + 2) 0#8).toNat < 128 ∧ (bindata.getD (4 * k + 3) 0#8).toNat < 128 := by
  have hlow : ∀ {b : Byte}, '-' ∉ format02x b.toInt → b.toNat < 128 := by
    intro b hb
    by_contra hge
    exact hb (sign_mem_format (Nat.le_of_not_lt hge))
  simp only [lineDigits, List.mem_append, not_or] at h
  obtain ⟨⟨⟨h₀, h₁⟩, h₂⟩, h₃⟩ := h
  exact ⟨hlow h₀, hlow h₁, hlow h₂, hlow h₃⟩

/-- A byte from `0x80` on puts its sign into the text, which is then not one of digits. -/
theorem low_of_digits {bindata : List Byte} {lines : List Text} (hlen : bindata.length % 4 = 0)
    (htext : makehex bindata = some (lines.flatMap (· ++ ['\n'])))
    (hdigits : ∀ l ∈ lines, l.length = 8 ∧ ∀ c ∈ l, ∃ d, digit c = some d) :
    ∀ b ∈ bindata, b.toNat < 128 := by
  have hno : '-' ∉ lines.flatMap (· ++ ['\n']) := by
    intro hmem
    obtain ⟨l, hl, hc⟩ := List.mem_flatMap.mp hmem
    rcases List.mem_append.mp hc with hc | hc
    · obtain ⟨d, hd⟩ := (hdigits l hl).2 _ hc
      cases hd
    · cases List.mem_singleton.mp hc
  rw [makehex_eq hlen] at htext
  rw [← Option.some.inj htext] at hno
  have hline : ∀ k < bindata.length / 4, '-' ∉ lineDigits bindata k := fun k hk hmem =>
    hno (List.mem_flatMap.mpr ⟨_, List.mem_map.mpr ⟨k, List.mem_range.mpr hk, rfl⟩,
      List.mem_append_left _ hmem⟩)
  have hall : ∀ i < bindata.length, (bindata.getD i 0#8).toNat < 128 :=
    forall_lanes hlen fun k hk => low_of_lineDigits (hline k hk)
  intro b hb
  obtain ⟨i, hi, rfl⟩ := List.getElem_of_mem hb
  simpa [hi] using hall i hi

/-- The file comes back just when it has no byte from `0x80` on, and each of its words is the
same from both ends. -/
theorem round_trips_iff (bindata : List Byte) (hlen : bindata.length % 4 = 0) :
    RoundTrips bindata ↔ (∀ b ∈ bindata, b.toNat < 128) ∧ Mirrored bindata := by
  constructor
  · rintro ⟨lines, words, htext, -, hdigits, hread, hbytes⟩
    have hlow := low_of_digits hlen htext hdigits
    refine ⟨hlow, (mirrored_iff hlen).mp ?_⟩
    rw [makehex_eq hlen] at htext
    rw [← Option.some.inj htext, readmemh_makehex hlow] at hread
    rwa [Option.some.inj hread]
  · rintro ⟨hlow, hmirror⟩
    refine ⟨_, _, makehex_eq hlen, by simp, ?_, readmemh_makehex hlow _,
      (mirrored_iff hlen).mpr hmirror⟩
    intro l hl
    obtain ⟨k, -, rfl⟩ := List.mem_map.mp hl
    exact lineDigits_digits hlow k

/-- A file of two words. -/
theorem round_trips_mirrored : RoundTrips [1, 2, 2, 1, 0, 0, 0, 0] :=
  (round_trips_iff [1, 2, 2, 1, 0, 0, 0, 0] rfl).mpr ⟨by simp, by decide⟩

/-- The word `1` comes back as `0x01000000`. -/
theorem one_not_round_trips : ¬RoundTrips [1, 0, 0, 0] := by
  rintro ⟨lines, words, htext, -, -, hread, hbytes⟩
  have hlines := Option.some.inj htext
  rw [← hlines] at hread
  have hwords : [0x01000000#32] = words := Option.some.inj hread
  rw [← hwords] at hbytes
  exact absurd (hbytes 0 (by decide)) (by decide)

end TagSoc.RamImage
