import TagSoc.RamImage

/-!
# The image loader

`load_image` reads a file of `@address` lines and lines of bytes, and writes the whole
memory word by word. The address of the lowest section is where the test starts. The
loader compares it with the flag `min_addr_init` and not with the minimum so far, so what
it leaves is the last address that is `0` or `1`, and if there is none the first one.
-/
namespace TagSoc.ImageLoader
open HexText RamImage

inductive Error where
  | indexError
  | valueError
  | overflowError
  | outOfRange
  | misaligned
  | assertionError
  deriving DecidableEq, Repr

/-! ## The memory of the bench -/

structure Soc where
  /-- The words of the memory, `SOC_RAM_SIZE / 4` of them. -/
  mem : List Word
  minAddress : ℤ
  deriving DecidableEq

namespace Soc

/-- `SOC_RAM_SIZE`, in bytes. -/
def ramSize (soc : Soc) : ℕ := 4 * soc.mem.length

/-- The value is converted to `uint32_t` at the call. -/
def writeWord (soc : Soc) (address : ℕ) (val : ℤ) : Except Error Soc :=
  if ¬(0 ≤ val ∧ val < 2 ^ 32) then .error .overflowError
  else if address ≥ soc.ramSize then .error .outOfRange
  else if address % 4 ≠ 0 then .error .misaligned
  else .ok { soc with mem := soc.mem.set (address / 4) (BitVec.ofInt 32 val) }

def readWord (soc : Soc) (address : ℕ) : Except Error Word :=
  if address ≥ soc.ramSize then .error .outOfRange
  else if address % 4 ≠ 0 then .error .misaligned
  else .ok (soc.mem.getD (address / 4) 0#32)

/-- An access out of range gives `None`. -/
def readWordRam (soc : Soc) (address : ℕ) : Except Error (Option ℤ) :=
  match soc.readWord address with
  | .ok word => .ok (some word.toNat)
  | .error .outOfRange => .ok none
  | .error e => .error e

end Soc

/-! ## `load_image` -/

/-- The assignment to an element of a list. A negative index counts from the end. -/
def setItem (l : List Text) (i : ℤ) (x : Text) : Except Error (List Text) :=
  if 0 ≤ i ∧ i < l.length then .ok (l.set i.toNat x)
  else if i < 0 ∧ 0 ≤ i + l.length then .ok (l.set (i + l.length).toNat x)
  else .error .indexError

/-- The variables of the loop over the lines. -/
structure Scan where
  minAddress : ℤ
  minAddrInit : Bool
  bytesToWrite : List Text
  address : ℤ

/-- A line that starts with `@`. -/
def Scan.setAddress (s : Scan) (line : Text) : Except Error Scan :=
  match int16 line with
  | none => .error .valueError
  | some address =>
      let minAddress := if !s.minAddrInit then address else s.minAddress
      let minAddrInit := true
      -- the flag is the number `1` in this comparison
      let minAddress := if (minAddrInit.toInt : ℤ) ≥ address then address else minAddress
      .ok { s with minAddress, minAddrInit, address }

/-- A byte of a line of bytes. -/
def Scan.putByte (s : Scan) (x : Text) : Except Error Scan := do
  let bytesToWrite ← setItem s.bytesToWrite s.address x
  return { s with bytesToWrite, address := s.address + 1 }

def Scan.line (s : Scan) : Text → Except Error Scan
  -- `line[0]` of an empty line
  | [] => .error .indexError
  | c :: rest => if c = '@' then s.setAddress rest else (split (c :: rest)).foldlM Scan.putByte s

def Scan.initial (ramSize : ℕ) : Scan where
  minAddress := 0
  minAddrInit := false
  bytesToWrite := List.replicate ramSize ['0', '0']
  address := 0

/-- The words of the tokens, four of them each with the last as the highest. -/
def pack (bytesToWrite : List Text) : Except Error (List ℤ) :=
  (List.range ((bytesToWrite.length + 3) / 4)).mapM fun k =>
    match int16 ((bytesToWrite.drop (4 * k)).take 4).reverse.flatten with
    | some word => .ok word
    | none => .error .valueError

def writeWords (soc : Soc) (words : List ℤ) : Except Error (Soc × ℕ) :=
  words.foldlM (fun s word => return (← s.1.writeWord s.2 word, s.2 + 4)) (soc, 0)

def readWords (soc : Soc) : Except Error (List (Option ℤ)) :=
  (List.range ((soc.ramSize + 3) / 4)).mapM fun k => soc.readWordRam (4 * k)

/-- The lines are those of the file. -/
def loadImage (lines : List Text) (soc : Soc) : Except Error Soc := do
  let scan ← (lines.map strip).foldlM Scan.line (.initial soc.ramSize)
  let soc := { soc with minAddress := scan.minAddress }
  let wordsToWrite ← pack scan.bytesToWrite
  let (soc, _) ← writeWords soc wordsToWrite
  let wordsToRead ← readWords soc
  if wordsToWrite.map some = wordsToRead then .ok soc else .error .assertionError

/-! ## Images -/

inductive Line where
  | address (a : ℕ)
  | bytes (bs : List Byte)

/-- A line of the file is an address or bytes of two digits. -/
inductive Reads (line : Text) : Line → Prop
  | address {rest : Text} {a : ℕ} : strip line = '@' :: rest → int16 rest = some (a : ℤ) →
      Reads line (.address a)
  | bytes {c : Char} {rest : Text} {bs : List Byte} : strip line = c :: rest → c ≠ '@' →
      List.Forall₂ (fun x b => byte x = some b) (split (c :: rest)) bs → Reads line (.bytes bs)

/-- The bytes of an image with their addresses, in the order of the file. -/
def assigned : ℕ → List Line → List (ℕ × Byte)
  | _, [] => []
  | _, .address a :: image => assigned a image
  | a, .bytes bs :: image =>
      (List.range' a bs.length).zip bs ++ assigned (a + bs.length) image

/-- The addresses of the sections, in the order of the file. -/
def sections : List Line → List ℕ
  | [] => []
  | .address a :: image => a :: sections image
  | .bytes _ :: image => sections image

/-- The last byte with this address, `0` if there is none. -/
def lastByte (ps : List (ℕ × Byte)) (i : ℕ) : Byte :=
  ((ps.filter (·.1 = i)).getLast?.map Prod.snd).getD 0#8

/-- The memory has the bytes of the image, and the start is the lowest section. -/
def Loads (lines : List Text) (image : List Line) (soc : Soc) : Prop :=
  ∃ soc', loadImage lines soc = .ok soc' ∧ soc'.mem.length = soc.mem.length ∧
    (∀ i < soc.ramSize, ramByte (soc'.mem.getD · 0#32) i = lastByte (assigned 0 image) i) ∧
    ∀ a, IsLeast {b | b ∈ sections image} a → soc'.minAddress = a

/-- The lowest address is the last one that is `0` or `1`, or from `2` on the first of all. -/
def LowestTaken (addresses : List ℕ) : Prop :=
  ∀ a, IsLeast {b | b ∈ addresses} a →
    if a ≤ 1 then (addresses.filter (· ≤ 1)).getLast? = some a else addresses.head? = some a

/-! ## The lines -/

theorem lastByte_append (ps : List (ℕ × Byte)) (a : ℕ) (b : Byte) (i : ℕ) :
    lastByte (ps ++ [(a, b)]) i = if i = a then b else lastByte ps i := by
  by_cases hi : i = a
  · simp [lastByte, List.getLast?_append, hi]
  · simp [lastByte, hi, Ne.symm hi]

/-- The address that is taken for the lowest. -/
def taken (addresses : List ℕ) : Option ℕ :=
  (addresses.filter (· ≤ 1)).getLast?.or addresses.head?

theorem taken_append (addresses : List ℕ) (a : ℕ) : taken (addresses ++ [a]) =
    if a ≤ 1 ∨ addresses = [] then some a else taken addresses := by
  by_cases ha : a ≤ 1
  · simp [taken, ha, List.getLast?_append]
  · cases addresses with
    | nil => simp [taken, ha]
    | cons b addresses => simp [taken, ha]

/-- The loop after lines with these bytes and addresses. -/
structure Scanned (n : ℕ) (s : Scan) (a : ℕ) (done : List (ℕ × Byte)) (seen : List ℕ) : Prop where
  address : s.address = a
  length : s.bytesToWrite.length = n
  bytes : ∀ i < n, byte (s.bytesToWrite.getD i []) = some (lastByte done i)
  minAddrInit : s.minAddrInit = !seen.isEmpty
  minAddress : s.minAddress = ((taken seen).getD 0 : ℕ)

namespace Scanned
variable {n a : ℕ} {s : Scan} {done : List (ℕ × Byte)} {seen : List ℕ}

theorem initial (n : ℕ) : Scanned n (.initial n) 0 [] [] where
  address := rfl
  length := List.length_replicate
  bytes := by
    intro i hi
    simp [Scan.initial, hi, lastByte]
    rfl
  minAddrInit := rfl
  minAddress := rfl

theorem setAddress (h : Scanned n s a done seen) {rest : Text} {a' : ℕ}
    (hrest : int16 rest = some (a' : ℤ)) :
    ∃ s', s.setAddress rest = .ok s' ∧ Scanned n s' a' done (seen ++ [a']) := by
  rw [Scan.setAddress, hrest]
  refine ⟨_, rfl, rfl, h.length, h.bytes, by simp, ?_⟩
  by_cases ha : a' ≤ 1
  · simp [taken_append, ha]
  · rw [taken_append]
    cases seen with
    | nil => simp [ha, h.minAddrInit]
    | cons b seen => simp [ha, h.minAddrInit, h.minAddress]

theorem putByte (h : Scanned n s a done seen) (ha : a < n) {x : Text} {b : Byte}
    (hx : byte x = some b) :
    ∃ s', s.putByte x = .ok s' ∧ Scanned n s' (a + 1) (done ++ [(a, b)]) seen := by
  have hset : setItem s.bytesToWrite s.address x = .ok (s.bytesToWrite.set a x) := by
    rw [setItem, h.address, h.length, if_pos (by omega), Int.toNat_natCast]
  rw [Scan.putByte, hset]
  refine ⟨_, rfl, ?_, by simpa using h.length, fun i hi => ?_, h.minAddrInit, h.minAddress⟩
  · simp [h.address]
  · have hlen := h.length
    by_cases hia : i = a
    · subst hia
      simpa [lastByte_append, hlen, hi] using hx
    · simpa [lastByte_append, hia, Ne.symm hia] using h.bytes i hi

/-- A line of bytes, byte by byte. -/
theorem putBytes {xs : List Text} {bs : List Byte}
    (hbytes : List.Forall₂ (fun x b => byte x = some b) xs bs) (h : Scanned n s a done seen)
    (hin : ∀ p ∈ (List.range' a bs.length).zip bs, p.1 < n) :
    ∃ s', xs.foldlM Scan.putByte s = .ok s' ∧
      Scanned n s' (a + bs.length) (done ++ (List.range' a bs.length).zip bs) seen := by
  induction hbytes generalizing s a done with
  | nil => exact ⟨s, rfl, by simpa using h⟩
  | @cons x b xs bs hx _ ih =>
      rw [List.length_cons, List.range'_succ, List.zip_cons_cons] at hin ⊢
      obtain ⟨s₁, hs₁, h₁⟩ := h.putByte (hin _ List.mem_cons_self) hx
      obtain ⟨s₂, hs₂, h₂⟩ := ih h₁ fun p hp => hin p (List.mem_cons_of_mem _ hp)
      refine ⟨s₂, ?_, ?_⟩
      · rw [List.foldlM_cons, hs₁]
        exact hs₂
      · rw [List.append_assoc, List.singleton_append] at h₂
        rwa [Nat.add_comm bs.length 1, ← Nat.add_assoc]

/-- The whole file, line by line. -/
theorem lines {lines : List Text} {image : List Line} (himage : List.Forall₂ Reads lines image)
    (h : Scanned n s a done seen) (hin : ∀ p ∈ assigned a image, p.1 < n) :
    ∃ s' a', (lines.map strip).foldlM Scan.line s = .ok s' ∧
      Scanned n s' a' (done ++ assigned a image) (seen ++ sections image) := by
  induction himage generalizing s a done seen with
  | nil => exact ⟨s, a, rfl, by simpa [assigned, sections] using h⟩
  | cons hread _ ih =>
      rw [List.map_cons, List.foldlM_cons]
      cases hread with
      | address hline hrest =>
          obtain ⟨s₁, hs₁, h₁⟩ := h.setAddress hrest
          obtain ⟨s₂, a₂, hs₂, h₂⟩ := ih h₁ hin
          refine ⟨s₂, a₂, ?_, ?_⟩
          · rw [hline, Scan.line, if_pos rfl, hs₁]
            exact hs₂
          · rwa [List.append_assoc] at h₂
      | bytes hline hc hbytes =>
          rw [assigned] at hin ⊢
          obtain ⟨s₁, hs₁, h₁⟩ := putBytes hbytes h fun p hp => hin p (List.mem_append_left _ hp)
          obtain ⟨s₂, a₂, hs₂, h₂⟩ := ih h₁ fun p hp => hin p (List.mem_append_right _ hp)
          refine ⟨s₂, a₂, ?_, ?_⟩
          · rw [hline, Scan.line, if_neg hc, hs₁]
            exact hs₂
          · rwa [List.append_assoc] at h₂

end Scanned

/-! ## The words -/

/-- The word of four bytes of the image. -/
def imageWord (ps : List (ℕ × Byte)) (k : ℕ) : Word :=
  lastByte ps (4 * k + 3) ++ lastByte ps (4 * k + 2) ++ lastByte ps (4 * k + 1) ++
    lastByte ps (4 * k)

/-- Four tokens of bytes from the last on are the digits of a word. -/
theorem int16_word {x₀ x₁ x₂ x₃ : Text} {b₀ b₁ b₂ b₃ : Byte} (h₀ : byte x₀ = some b₀)
    (h₁ : byte x₁ = some b₁) (h₂ : byte x₂ = some b₂) (h₃ : byte x₃ = some b₃) :
    int16 [x₀, x₁, x₂, x₃].reverse.flatten = some ((b₃ ++ b₂ ++ b₁ ++ b₀).toNat : ℤ) := by
  have hflat : [x₀, x₁, x₂, x₃].reverse.flatten = x₃ ++ x₂ ++ x₁ ++ x₀ := by simp
  rw [hflat, int16_of_digits, number, if_neg, digits_word h₃ h₂ h₁ h₀]
  · rfl
  · intro hnil
    have hlen := congrArg List.length hnil
    simp only [List.length_append, (byte_digits h₀).1, List.length_nil] at hlen
    omega
  · intro c hc
    simp only [List.mem_append] at hc
    rcases hc with ((hc | hc) | hc) | hc
    · exact (byte_digits h₃).2 c hc
    · exact (byte_digits h₂).2 c hc
    · exact (byte_digits h₁).2 c hc
    · exact (byte_digits h₀).2 c hc

theorem pack_eq {bytesToWrite : List Text} {m : ℕ} {ps : List (ℕ × Byte)}
    (hlen : bytesToWrite.length = 4 * m)
    (hbytes : ∀ i < 4 * m, byte (bytesToWrite.getD i []) = some (lastByte ps i)) :
    pack bytesToWrite = .ok ((List.range m).map fun k => ((imageWord ps k).toNat : ℤ)) := by
  have hm : (bytesToWrite.length + 3) / 4 = m := by omega
  rw [pack, hm]
  refine mapM_of_forall fun k hk => ?_
  rw [List.mem_range] at hk
  rw [take_four (by omega), int16_word (hbytes _ (by omega)) (hbytes _ (by omega))
    (hbytes _ (by omega)) (hbytes _ (by omega))]
  rfl

namespace Soc
variable {soc : Soc} {k : ℕ}

theorem writeWord_eq (hk : k < soc.mem.length) (w : Word) :
    soc.writeWord (4 * k) (w.toNat : ℤ) = .ok { soc with mem := soc.mem.set k w } := by
  have hw := w.isLt
  have hcast : BitVec.ofInt 32 (w.toNat : ℤ) = w := by simp
  rw [writeWord, if_neg (by omega), if_neg (by simp only [ramSize]; omega), if_neg (by omega), hcast,
    Nat.mul_div_cancel_left k (by decide)]

theorem readWordRam_eq (hk : k < soc.mem.length) :
    soc.readWordRam (4 * k) = .ok (some ((soc.mem.getD k 0#32).toNat : ℤ)) := by
  have hread : soc.readWord (4 * k) = .ok (soc.mem.getD k 0#32) := by
    rw [readWord, if_neg (by simp only [ramSize]; omega), if_neg (by omega),
      Nat.mul_div_cancel_left k (by decide)]
  rw [readWordRam, hread]

end Soc

/-- The words from `k` on are written over those of the memory. -/
theorem writeWords_from {ws : List Word} {soc : Soc} {k : ℕ} (hlen : k + ws.length ≤ soc.mem.length) :
    (ws.map fun w => (w.toNat : ℤ)).foldlM (fun (s : Soc × ℕ) word =>
      (return (← s.1.writeWord s.2 word, s.2 + 4) : Except Error (Soc × ℕ))) (soc, 4 * k) =
    .ok ({ soc with mem := soc.mem.take k ++ ws ++ soc.mem.drop (k + ws.length) },
      4 * (k + ws.length)) := by
  induction ws generalizing soc k with
  | nil => simp [pure, Except.pure]
  | cons w ws ih =>
      rw [List.length_cons] at hlen
      have hk : k < soc.mem.length := by omega
      -- the first word is written, the others follow from the next address on
      have hrest := @ih { soc with mem := soc.mem.set k w } (k + 1) (by simpa using by omega)
      rw [List.map_cons, List.foldlM_cons, Soc.writeWord_eq hk]
      refine hrest.trans ?_
      have htake : (soc.mem.set k w).take (k + 1) = soc.mem.take k ++ [w] := by
        rw [List.set_eq_take_append_cons_drop, if_pos hk, List.take_append, List.take_take,
          List.length_take]
        simp [Nat.min_eq_left hk.le]
      have hdrop : (soc.mem.set k w).drop (k + 1 + ws.length) =
          soc.mem.drop (k + (ws.length + 1)) := by
        rw [List.drop_set_of_lt (by omega), Nat.add_assoc, Nat.add_comm 1]
      simp only [htake, hdrop, List.length_cons]
      rw [List.append_assoc (soc.mem.take k), List.singleton_append, Nat.add_right_comm,
        Nat.add_assoc]

/-- As many words as the memory has fill it. -/
theorem writeWords_eq {ws : List Word} {soc : Soc} (hlen : ws.length = soc.mem.length) :
    writeWords soc (ws.map fun w => (w.toNat : ℤ)) =
      .ok ({ soc with mem := ws }, 4 * soc.mem.length) := by
  have hfrom := @writeWords_from ws soc 0 (by omega)
  rw [writeWords]
  refine hfrom.trans ?_
  simp [hlen]

theorem readWords_eq (soc : Soc) :
    readWords soc = .ok (soc.mem.map fun w => some (w.toNat : ℤ)) := by
  have hm : (soc.ramSize + 3) / 4 = soc.mem.length := by
    simp only [Soc.ramSize]
    omega
  have hmap : (List.range soc.mem.length).map (fun k => some ((soc.mem.getD k 0#32).toNat : ℤ)) =
      soc.mem.map fun w => some (w.toNat : ℤ) := by
    apply List.ext_getElem
    · simp
    · intro i h₁ h₂
      simp only [List.length_map, List.length_range] at h₁
      simp [h₁]
  rw [readWords, hm, ← hmap]
  exact mapM_of_forall fun k hk => Soc.readWordRam_eq (List.mem_range.mp hk)

/-! ## The load -/

/-- The memory after a load, and the address that is taken for the lowest. -/
theorem loadImage_eq {lines : List Text} {image : List Line} {soc : Soc}
    (himage : List.Forall₂ Reads lines image) (hin : ∀ p ∈ assigned 0 image, p.1 < soc.ramSize) :
    loadImage lines soc = .ok ⟨(List.range soc.mem.length).map (imageWord (assigned 0 image)),
      ((taken (sections image)).getD 0 : ℕ)⟩ := by
  obtain ⟨s, a, hs, h⟩ := Scanned.lines himage (Scanned.initial soc.ramSize) hin
  rw [List.nil_append, List.nil_append] at h
  -- the words are written and read back as they are, so the last assertion holds
  have hpack := pack_eq h.length h.bytes
  have hwords : (List.range soc.mem.length).map (fun k =>
      ((imageWord (assigned 0 image) k).toNat : ℤ)) =
      ((List.range soc.mem.length).map (imageWord (assigned 0 image))).map
        fun w => (w.toNat : ℤ) := by
    rw [List.map_map]
    rfl
  rw [hwords] at hpack
  have hwrite := @writeWords_eq ((List.range soc.mem.length).map (imageWord (assigned 0 image)))
    { soc with minAddress := ((taken (sections image)).getD 0 : ℕ) } (by simp)
  rw [loadImage, hs]
  simp only [bind, Except.bind, hpack, hwrite, readWords_eq, h.minAddress]
  rw [if_pos (by rw [List.map_map]; rfl)]

/-- The byte of the memory is the one of the image. -/
theorem ramByte_imageWord (ps : List (ℕ × Byte)) (m : ℕ) :
    ∀ i < 4 * m, ramByte (((List.range m).map (imageWord ps)).getD · 0#32) i = lastByte ps i := by
  refine forall_lanes (Nat.mul_mod_right 4 m) fun k hk => ramByte_lanes ?_
  rw [Nat.mul_div_cancel_left m (by decide)] at hk
  simp [hk, imageWord]

theorem taken_iff {addresses : List ℕ} {a : ℕ} (ha : IsLeast {b | b ∈ addresses} a) :
    (taken addresses).getD 0 = a ↔
      if a ≤ 1 then (addresses.filter (· ≤ 1)).getLast? = some a else addresses.head? = some a := by
  have hsome : ∀ {l : List ℕ} {o : Option ℕ}, l ≠ [] → (o = l.getLast? ∨ o = l.head?) →
      (o.getD 0 = a ↔ o = some a) := by
    rintro l o hne (rfl | rfl)
    · simp [List.getLast?_eq_some_getLast hne]
    · simp [List.head?_eq_some_head hne]
  split_ifs with hle
  · have hne : addresses.filter (· ≤ 1) ≠ [] :=
      List.ne_nil_of_mem (List.mem_filter.mpr ⟨ha.1, by simpa using hle⟩)
    have htaken : taken addresses = (addresses.filter (· ≤ 1)).getLast? := by
      rw [taken, List.getLast?_eq_some_getLast hne, Option.some_or]
    rw [htaken]
    exact hsome hne (Or.inl rfl)
  · have hnil : addresses.filter (· ≤ 1) = [] := by
      refine List.filter_eq_nil_iff.mpr fun b hb => ?_
      have hab := ha.2 hb
      simpa using by omega
    have htaken : taken addresses = addresses.head? := by simp [taken, hnil]
    rw [htaken]
    exact hsome (List.ne_nil_of_mem ha.1) (Or.inr rfl)

/-- The memory is always right. The start is the lowest section just when this is the last one
at `0` or `1`, or when the lowest is from `2` on and comes first. -/
theorem loads_iff (lines : List Text) (image : List Line) (soc : Soc)
    (himage : List.Forall₂ Reads lines image) (hin : ∀ p ∈ assigned 0 image, p.1 < soc.ramSize) :
    Loads lines image soc ↔ LowestTaken (sections image) := by
  have hload := loadImage_eq himage hin
  constructor
  · rintro ⟨soc', hsoc', -, -, hmin⟩ a ha
    have heq := Except.ok.inj (hload.symm.trans hsoc')
    have hmin' := hmin a ha
    rw [← heq] at hmin'
    exact (taken_iff ha).mp (Int.natCast_inj.mp hmin')
  · intro htaken
    refine ⟨_, hload, by simp, ramByte_imageWord _ _, fun a ha => ?_⟩
    exact congrArg Nat.cast ((taken_iff ha).mpr (htaken a ha))

/-- Two sections of a byte each, the lower one first. -/
theorem loads_ascending : Loads [['@', '4'], ['2', '2'], ['@', '8'], ['1', '1']]
    [.address 4, .bytes [0x22], .address 8, .bytes [0x11]] ⟨List.replicate 4 0, 0⟩ := by
  refine (loads_iff _ _ _ ?_ (by decide)).mpr ?_
  · refine .cons (.address rfl rfl) (.cons (.bytes rfl (by decide) ?_)
      (.cons (.address rfl rfl) (.cons (.bytes rfl (by decide) ?_) .nil)))
    · exact .cons rfl .nil
    · exact .cons rfl .nil
  · rintro a ⟨ha, hle⟩
    have hle4 : a ≤ 4 := hle (by simp [sections])
    have hcase : a = 4 ∨ a = 8 := by simpa [sections] using ha
    obtain rfl : a = 4 := by omega
    rfl

/-- The same two sections, the higher one first. -/
theorem descending_not_loads : ¬Loads [['@', '8'], ['1', '1'], ['@', '4'], ['2', '2']]
    [.address 8, .bytes [0x11], .address 4, .bytes [0x22]] ⟨List.replicate 4 0, 0⟩ := by
  rintro ⟨soc, hload, -, -, hmin⟩
  have height : loadImage [['@', '8'], ['1', '1'], ['@', '4'], ['2', '2']]
      ⟨List.replicate 4 0, 0⟩ = .ok ⟨[0, 0x22, 0x11, 0], 8⟩ := by decide +kernel
  have hfour := hmin 4 ⟨by simp [sections], by simp [sections, mem_lowerBounds]⟩
  rw [← Except.ok.inj (height.symm.trans hload)] at hfour
  exact absurd hfour (by decide)

end TagSoc.ImageLoader
