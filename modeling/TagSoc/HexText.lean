import TagSoc.BitSlices

/-!
# Hexadecimal text

Text is a list of characters. Here are the blanks, the words between them, and the
numbers that are written in hexadecimal digits, in particular bytes of two digits.
-/
namespace TagSoc.HexText

abbrev Text := List Char

/-- What succeeds for every element succeeds for the list. -/
theorem mapM_of_forall {m : Type → Type*} [Monad m] [LawfulMonad m] {α β : Type} {l : List α}
    {f : α → m β} {g : α → β} (h : ∀ x ∈ l, f x = pure (g x)) : l.mapM f = pure (l.map g) := by
  induction l with
  | nil => rfl
  | cons x l ih =>
      rw [List.mapM_cons, h x List.mem_cons_self, ih fun y hy => h y (List.mem_cons_of_mem x hy)]
      simp

/-! ## Words -/

/-- The blank, the tabulators and the ends of lines and pages. -/
def isSpace (c : Char) : Bool := c == ' ' || (9 ≤ c.toNat && c.toNat ≤ 13)

def strip (s : Text) : Text := ((s.dropWhile isSpace).reverse.dropWhile isSpace).reverse

def split (s : Text) : List Text := (s.splitOnP isSpace).filter (· ≠ [])

/-- Lines that have no blank are the words of their text. -/
theorem split_lines {ls : List Text} (h : ∀ l ∈ ls, l ≠ [] ∧ ∀ c ∈ l, isSpace c = false) :
    split (ls.flatMap (· ++ ['\n'])) = ls := by
  induction ls with
  | nil => rfl
  | cons l ls ih =>
      obtain ⟨hne, hl⟩ := h l List.mem_cons_self
      have hls := ih fun l' hl' => h l' (List.mem_cons_of_mem l hl')
      -- the first blank of the text is the end of the first line
      have hcut : ((l ++ ['\n']) ++ ls.flatMap (· ++ ['\n'])).splitOnP isSpace =
          l :: (ls.flatMap (· ++ ['\n'])).splitOnP isSpace := by
        rw [List.append_assoc]
        exact List.splitOnP_append_cons_of_forall_mem hl '\n' (by decide) _
      rw [split, List.flatMap_cons, hcut, List.filter_cons_of_pos (by simpa using hne), ← split, hls]

/-! ## Numbers -/

def digit (c : Char) : Option ℕ :=
  let n := c.toNat
  if 48 ≤ n ∧ n ≤ 57 then some (n - 48)
  else if 97 ≤ n ∧ n ≤ 102 then some (n - 87)
  else if 65 ≤ n ∧ n ≤ 70 then some (n - 55)
  else none

theorem digit_lt {c : Char} {d : ℕ} (h : digit c = some d) : d < 16 := by
  simp only [digit] at h
  split_ifs at h <;> cases h <;> omega

theorem isSpace_digit {c : Char} {d : ℕ} (h : digit c = some d) : isSpace c = false := by
  have hne : c ≠ ' ' := by
    rintro rfl
    cases h
  have hnat : 13 < c.toNat := by
    simp only [digit] at h
    split_ifs at h <;> omega
  simp [isSpace, hne, hnat]

/-- The number that digits make of one to their left. -/
def digits : ℕ → Text → Option ℕ
  | a, [] => some a
  | a, c :: s => (digit c).bind fun d => digits (16 * a + d) s

def number (s : Text) : Option ℕ := if s = [] then none else digits 0 s

/-- Python's `int(s, 16)` after the sign. -/
def unsigned (s : Text) : Option ℕ :=
  if s.take 2 = ['0', 'x'] ∨ s.take 2 = ['0', 'X'] then number (s.drop 2) else number s

/-- Python's `int(s, 16)`. -/
def int16 (s : Text) : Option ℤ :=
  let s := strip s
  if s.head? = some '-' then (unsigned s.tail).map fun n : ℕ => -(n : ℤ)
  else if s.head? = some '+' then (unsigned s.tail).map fun n : ℕ => (n : ℤ)
  else (unsigned s).map fun n : ℕ => (n : ℤ)

theorem strip_of_forall {s : Text} (h : ∀ c ∈ s, isSpace c = false) : strip s = s := by
  have hkeep : ∀ {t : Text}, (∀ c ∈ t, isSpace c = false) → t.dropWhile isSpace = t := by
    intro t ht
    cases t with
    | nil => rfl
    | cons c t => rw [List.dropWhile_cons_of_neg (by simp [ht c List.mem_cons_self])]
  rw [strip, hkeep h, hkeep (by simpa using h), List.reverse_reverse]

/-- A text of digits only has neither a sign nor a mark of its base. -/
theorem int16_of_digits {s : Text} (h : ∀ c ∈ s, ∃ d, digit c = some d) :
    int16 s = (number s).map fun n : ℕ => (n : ℤ) := by
  have hstrip : strip s = s := by
    refine strip_of_forall fun c hc => ?_
    obtain ⟨d, hd⟩ := h c hc
    exact isSpace_digit hd
  have hnot : ∀ {c : Char}, digit c = none → c ∉ s := by
    intro c hnone hc
    obtain ⟨d, hd⟩ := h c hc
    rw [hnone] at hd
    cases hd
  have hhead : ∀ {c : Char}, digit c = none → s.head? ≠ some c :=
    fun hnone hc => hnot hnone (List.mem_of_mem_head? hc)
  have hmark : ∀ {c : Char}, digit c = none → s.take 2 ≠ ['0', c] := by
    intro c hnone hc
    have hmem : c ∈ s.take 2 := by simp [hc]
    exact hnot hnone (List.mem_of_mem_take hmem)
  simp only [int16, hstrip]
  rw [if_neg (hhead rfl), if_neg (hhead rfl), unsigned,
    if_neg (not_or.mpr ⟨hmark rfl, hmark rfl⟩)]

theorem digits_append (a : ℕ) (s t : Text) :
    digits a (s ++ t) = (digits a s).bind fun b => digits b t := by
  induction s generalizing a with
  | nil => rfl
  | cons c s ih =>
      rw [List.cons_append, digits, digits]
      cases digit c with
      | none => rfl
      | some d => exact ih (16 * a + d)

/-! ## Bytes -/

/-- A byte is two digits. -/
def byte : Text → Option (BitVec 8)
  | [c, d] => (digit c).bind fun h => (digit d).map fun l => BitVec.ofNat 8 (16 * h + l)
  | _ => none

theorem of_byte {s : Text} {b : BitVec 8} (h : byte s = some b) :
    ∃ c d hi lo, s = [c, d] ∧ digit c = some hi ∧ digit d = some lo ∧ b.toNat = 16 * hi + lo := by
  match s, h with
  | [c, d], h =>
      rw [byte, Option.bind_eq_some_iff] at h
      obtain ⟨hi, hhi, h⟩ := h
      rw [Option.map_eq_some_iff] at h
      obtain ⟨lo, hlo, rfl⟩ := h
      have h₁ := digit_lt hhi
      have h₂ := digit_lt hlo
      refine ⟨c, d, hi, lo, rfl, hhi, hlo, ?_⟩
      rw [BitVec.toNat_ofNat]
      omega

theorem digits_byte {s : Text} {b : BitVec 8} (h : byte s = some b) (a : ℕ) :
    digits a s = some (256 * a + b.toNat) := by
  obtain ⟨c, d, hi, lo, rfl, hc, hd, hb⟩ := of_byte h
  rw [digits, hc, Option.bind_some, digits, hd, Option.bind_some, digits, hb]
  congr 1
  omega

theorem byte_digits {s : Text} {b : BitVec 8} (h : byte s = some b) :
    s.length = 2 ∧ ∀ c ∈ s, ∃ d, digit c = some d := by
  obtain ⟨c, d, hi, lo, rfl, hc, hd, -⟩ := of_byte h
  refine ⟨rfl, fun c' hc' => ?_⟩
  rcases List.mem_pair.mp hc' with rfl | rfl
  · exact ⟨hi, hc⟩
  · exact ⟨lo, hd⟩

/-- Four bytes in a row are a word, the first of them its highest. -/
theorem digits_word {s₃ s₂ s₁ s₀ : Text} {b₃ b₂ b₁ b₀ : BitVec 8} (h₃ : byte s₃ = some b₃)
    (h₂ : byte s₂ = some b₂) (h₁ : byte s₁ = some b₁) (h₀ : byte s₀ = some b₀) :
    digits 0 (s₃ ++ s₂ ++ s₁ ++ s₀) = some (b₃ ++ b₂ ++ b₁ ++ b₀).toNat := by
  rw [digits_append, digits_append, digits_append, digits_byte h₃, Option.bind_some,
    digits_byte h₂, Option.bind_some, digits_byte h₁, Option.bind_some, digits_byte h₀]
  congr 1
  simp only [BitSlices.toNat_append_add]
  omega

end TagSoc.HexText
