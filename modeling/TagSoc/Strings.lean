import TagSoc.ByteCopy

/-!
# Strings

`strncpy`, `strncat` and `strchr` on a memory that notes which bytes are read and
written. A string is a row of bytes before the first that is `0`. A copy with a bound
reads no more of its source than the bound and the end of the string allow; `strchr`
does not look at the end of the string, and it compares with an argument that may be
no byte at all.
-/
namespace TagSoc.Strings
open TaggedMem

abbrev Byte := BitVec 8

/-! ## Noted accesses -/

/-- The memory, and the addresses that have been read and written. -/
structure Log where
  mem : Mem
  reads : List ℕ
  writes : List ℕ

abbrev L := StateT Log (Except Stop)

def loadChar (servingIsr : Bool) (p : Word) : L Byte := fun s =>
  match loadByte servingIsr p s.mem with
  | .ok (c, mem) => .ok (c, ⟨mem, s.reads ++ [addr p], s.writes⟩)
  | .error e => .error e

def storeChar (servingIsr : Bool) (p : Word) (c : Byte) : L Unit := fun s =>
  match storeByte servingIsr p c s.mem with
  | .ok (_, mem) => .ok ((), ⟨mem, s.reads, s.writes ++ [addr p]⟩)
  | .error e => .error e

variable {servingIsr : Bool}

/-- One command, then the rest. -/
theorem ok_bind {α β : Type} {m : L α} {f : α → L β} {s s' : Log} {a : α}
    {x : Except Stop (β × Log)} (h : m s = .ok (a, s')) (h' : f a s' = x) : (m >>= f) s = x := by
  simp only [bind, StateT.bind, h]
  exact h'

section access
variable {s : Log} {p : Word} {n i : ℕ}

theorem loadChar_eq (h : Accessible servingIsr s.mem p n) (hi : i < n) :
    loadChar servingIsr (p + BitVec.ofNat 32 i) s =
      .ok (s.mem.byte (addr p + i), ⟨s.mem, s.reads ++ [addr p + i], s.writes⟩) := by
  have hin := h.inside
  rw [loadChar, h.load hi, (offset_eq (p := p) (i := i) (by omega)).1]

theorem storeChar_eq (h : Accessible servingIsr s.mem p n) (hi : i < n) (c : Byte) :
    storeChar servingIsr (p + BitVec.ofNat 32 i) c s =
      .ok ((), ⟨s.mem.setByte (addr p + i) c, s.reads, s.writes ++ [addr p + i]⟩) := by
  have hin := h.inside
  rw [storeChar, h.store hi, (offset_eq (p := p) (i := i) (by omega)).1]

end access

/-- There are `n` bytes from the pointer on before the first that is `0`. -/
structure IsString (mem : Mem) (p : Word) (n : ℕ) : Prop where
  body : ∀ i < n, mem.byte (addr p + i) ≠ 0
  final : mem.byte (addr p + n) = 0

theorem IsString.zero_iff {mem : Mem} {p : Word} {n i : ℕ} (h : IsString mem p n) (hi : i ≤ n) :
    mem.byte (addr p + i) = 0 ↔ i = n := by
  constructor
  · intro hzero
    by_contra hne
    exact h.body i (by omega) hzero
  · rintro rfl
    exact h.final

/-! ## `strncpy` and `strncat` -/

/-- The assignment `*d_ptr = *src` of both loops, and the byte that is then tested. -/
def copyChar (servingIsr : Bool) (d_ptr src : Word) : L Byte := do
  storeChar servingIsr d_ptr (← loadChar servingIsr src)
  loadChar servingIsr src

/-- The first loop of `strncpy`: the pointer and the count it leaves. -/
def copyString (servingIsr : Bool) (d_ptr src : Word) : ℕ → L (Word × ℕ)
  | 0 => pure (d_ptr, 0)
  | count + 1 => do
      if (← copyChar servingIsr d_ptr src) = 0 then pure (d_ptr + 1#32, count)
      else copyString servingIsr (d_ptr + 1#32) (src + 1#32) count

/-- The second loop of `strncpy`. -/
def fillZero (servingIsr : Bool) (d_ptr : Word) : ℕ → L Unit
  | 0 => pure ()
  | count + 1 => do
      storeChar servingIsr d_ptr 0
      fillZero servingIsr (d_ptr + 1#32) count

def strncpy (servingIsr : Bool) (dest src count : Word) : L Word := do
  let (d_ptr, count) ← copyString servingIsr dest src count.toNat
  fillZero servingIsr d_ptr count
  return dest

/-- The first loop of `strncat`. There are no more than `2 ^ 32` pointers to try. -/
def findEnd (servingIsr : Bool) (d_ptr : Word) : ℕ → L Word
  | 0 => throw .exhausted
  | fuel + 1 => do
      if (← loadChar servingIsr d_ptr) = 0 then pure d_ptr
      else findEnd servingIsr (d_ptr + 1#32) fuel

/-- The second loop of `strncat`. -/
def appendString (servingIsr : Bool) (d_ptr src : Word) : ℕ → L Unit
  | 0 => storeChar servingIsr d_ptr 0
  | count + 1 => do
      if (← copyChar servingIsr d_ptr src) = 0 then pure ()
      else appendString servingIsr (d_ptr + 1#32) (src + 1#32) count

def strncat (servingIsr : Bool) (dest src count : Word) : L Word := do
  let d_ptr ← findEnd servingIsr dest (2 ^ 32)
  appendString servingIsr d_ptr src count.toNat
  return dest

/-! ## The copying loops -/

/-- After `i` rounds of copying. -/
def Log.copied (s : Log) (t a i : ℕ) : Log where
  mem := s.mem.copy t a i
  reads := s.reads ++ (List.range i).flatMap fun j => [a + j, a + j]
  writes := s.writes ++ List.range' t i

theorem Log.copied_zero (s : Log) (t a : ℕ) : s.copied t a 0 = s := by
  simp [Log.copied, Mem.copy]

/-- The target from its offset `l` on, and the source up to its end or the bound `m`. -/
structure Copying (servingIsr : Bool) (s : Log) (dest src : Word) (l w m n : ℕ) : Prop where
  target : Accessible servingIsr s.mem dest (l + w)
  source : Accessible servingIsr s.mem src m
  apart : addr dest + l + w ≤ addr src ∨ addr src + m ≤ addr dest + l
  zero_iff : ∀ i < m, s.mem.byte (addr src + i) = 0 ↔ i = n

section loops
variable {s : Log} {dest src : Word} {l w m n : ℕ}

/-- What is read has not been written. -/
theorem Copying.byte_src (h : Copying servingIsr s dest src l w m n) {i j : ℕ} (hi : i < m)
    (hj : j ≤ w) :
    (s.mem.copy (addr dest + l) (addr src) j).byte (addr src + i) = s.mem.byte (addr src + i) := by
  have hapart := h.apart
  rw [Mem.byte_copy, if_neg (by omega)]

/-- One round. -/
theorem Copying.copyChar_eq (h : Copying servingIsr s dest src l w m n) {i : ℕ} (hm : i < m)
    (hw : i < w) :
    copyChar servingIsr (dest + BitVec.ofNat 32 (l + i)) (src + BitVec.ofNat 32 i)
      (s.copied (addr dest + l) (addr src) i) =
    .ok (s.mem.byte (addr src + i), s.copied (addr dest + l) (addr src) (i + 1)) := by
  have hsource := fun j => h.source.congr (Mem.copy_tag s.mem (addr dest + l) (addr src) j)
  have htarget := h.target.congr (Mem.copy_tag s.mem (addr dest + l) (addr src) i)
  refine ok_bind (loadChar_eq (s := s.copied _ _ i) (hsource i) hm) ?_
  refine ok_bind (storeChar_eq (s := ⟨_, _, _⟩) htarget (by omega) _) ?_
  rw [← Nat.add_assoc]
  -- the byte is read once more after the write, which was elsewhere
  refine (loadChar_eq (s := ⟨s.mem.copy (addr dest + l) (addr src) (i + 1), _, _⟩)
    (hsource (i + 1)) hm).trans ?_
  rw [h.byte_src hm (by omega)]
  simp only [Log.copied, Mem.copy, List.range_succ, List.flatMap_append, List.flatMap_singleton,
    List.range'_concat, List.append_assoc, List.cons_append, List.nil_append, Nat.one_mul,
    Nat.add_assoc]

/-- A pointer that is moved on by one. -/
theorem offset_succ (p : Word) (i : ℕ) :
    p + BitVec.ofNat 32 i + 1#32 = p + BitVec.ofNat 32 (i + 1) := by
  rw [BitVec.add_assoc, BitVec.ofNat_add]

/-- The first loop of `strncpy` ends with the bound or after the end of the string. -/
theorem Copying.copyString_eq {count : ℕ}
    (h : Copying servingIsr s dest src 0 count (min count (n + 1)) n) {i k : ℕ} (hk : i + k = count)
    (hi : i ≤ n) :
    copyString servingIsr (dest + BitVec.ofNat 32 i) (src + BitVec.ofNat 32 i) k
      (s.copied (addr dest) (addr src) i) =
    .ok ((dest + BitVec.ofNat 32 (min count (n + 1)), count - min count (n + 1)),
      s.copied (addr dest) (addr src) (min count (n + 1))) := by
  induction k generalizing i with
  | zero =>
      obtain rfl : i = count := hk
      rw [Nat.min_eq_left (by omega), Nat.sub_self]
      rfl
  | succ k ih =>
      have hm : i < min count (n + 1) := by omega
      have hround := h.copyChar_eq hm (by omega)
      rw [Nat.zero_add, Nat.add_zero] at hround
      refine ok_bind hround ?_
      by_cases hend : i = n
      · have hmin : min count (n + 1) = i + 1 := by omega
        have hleft : count - (i + 1) = k := by omega
        rw [if_pos ((h.zero_iff i hm).mpr hend), offset_succ, hmin, hleft]
        rfl
      · rw [if_neg (mt (h.zero_iff i hm).mp hend), offset_succ, offset_succ]
        exact ih (by omega) (by omega)

/-- The second loop of `strncat` ends with the bound or with the end of the string. -/
theorem Copying.appendString_eq {count : ℕ}
    (h : Copying servingIsr s dest src l (min count n + 1) (min count (n + 1)) n) {i k : ℕ}
    (hk : i + k = count) (hi : i ≤ n) :
    ∃ s', appendString servingIsr (dest + BitVec.ofNat 32 (l + i)) (src + BitVec.ofNat 32 i) k
        (s.copied (addr dest + l) (addr src) i) = .ok ((), s') ∧
      s'.mem = (s.mem.copy (addr dest + l) (addr src) (min count n)).setByte
        (addr dest + l + min count n) 0 ∧
      s'.reads = (s.copied (addr dest + l) (addr src) (min count (n + 1))).reads ∧
      s'.writes = s.writes ++ List.range' (addr dest + l) (min count n + 1) := by
  induction k generalizing i with
  | zero =>
      obtain rfl : i = count := hk
      have htarget := h.target.congr (Mem.copy_tag s.mem (addr dest + l) (addr src) i)
      have hstore := storeChar_eq (s := s.copied (addr dest + l) (addr src) i) htarget
        (i := l + i) (by omega) 0
      rw [Nat.min_eq_left hi, Nat.min_eq_left (by omega)]
      refine ⟨_, hstore, ?_, rfl, ?_⟩
      · rw [← Nat.add_assoc]
        rfl
      · simp [Log.copied, List.range'_concat, Nat.add_assoc]
  | succ k ih =>
      have hm : i < min count (n + 1) := by omega
      have hround := h.copyChar_eq hm (by omega)
      by_cases hend : i = n
      · -- the end of the string has just been copied
        have hzero := (h.zero_iff i hm).mpr hend
        have hmin : min count (n + 1) = i + 1 := by omega
        have hmin' : min count n = i := by omega
        rw [hmin, hmin']
        refine ⟨_, ok_bind hround (by rw [if_pos hzero]; rfl), ?_, rfl, rfl⟩
        have hsame := h.byte_src hm (j := i) (by omega)
        rw [Log.copied, Mem.copy, hsame, hzero]
      · obtain ⟨s', hs', hrest⟩ := ih (i := i + 1) (by omega) (by omega)
        refine ⟨s', ok_bind hround ?_, hrest⟩
        rw [if_neg (mt (h.zero_iff i hm).mp hend), offset_succ, offset_succ]
        exact hs'

end loops

/-- Zeros from an address on. -/
def fill (mem : Mem) (t : ℕ) : ℕ → Mem
  | 0 => mem
  | n + 1 => (fill mem t n).setByte (t + n) 0

theorem fill_tag (mem : Mem) (t n : ℕ) : (fill mem t n).tag = mem.tag := by
  induction n with
  | zero => rfl
  | succ n ih => rw [fill, Mem.setByte_tag, ih]

theorem byte_fill (mem : Mem) (t n x : ℕ) :
    (fill mem t n).byte x = if t ≤ x ∧ x < t + n then 0 else mem.byte x := by
  induction n with
  | zero => rw [if_neg (by omega), fill]
  | succ n ih =>
      rw [fill, Mem.byte_setByte, ih]
      by_cases hx : x = t + n
      · rw [if_pos hx, if_pos (by omega)]
      · rw [if_neg hx]
        exact if_congr (by omega) rfl rfl

theorem fillZero_eq {s : Log} {dest : Word} {l w : ℕ}
    (h : Accessible servingIsr s.mem dest (l + w)) {i k : ℕ} (hk : i + k = w) : fillZero servingIsr (dest + BitVec.ofNat 32 (l + i)) k
      ⟨fill s.mem (addr dest + l) i, s.reads, s.writes ++ List.range' (addr dest + l) i⟩ =
    .ok ((), ⟨fill s.mem (addr dest + l) w, s.reads,
      s.writes ++ List.range' (addr dest + l) w⟩) := by
  induction k generalizing i with
  | zero =>
      obtain rfl : i = w := hk
      rfl
  | succ k ih =>
      have hacc := h.congr (fill_tag s.mem (addr dest + l) i)
      refine ok_bind (storeChar_eq (s := ⟨_, _, _⟩) hacc (by omega) _) ?_
      rw [offset_succ, ← Nat.add_assoc]
      have hnext := ih (i := i + 1) (by omega)
      rw [List.range'_concat, Nat.one_mul, ← List.append_assoc] at hnext
      exact hnext

/-- The search for the end of a string reads it once. -/
theorem findEnd_eq {s : Log} {dest : Word} {n : ℕ} (h : Accessible servingIsr s.mem dest (n + 1))
    (hstring : IsString s.mem dest n) {i fuel : ℕ} (hi : i ≤ n) (hfuel : n < i + fuel) :
    findEnd servingIsr (dest + BitVec.ofNat 32 i) fuel s =
      .ok (dest + BitVec.ofNat 32 n,
        ⟨s.mem, s.reads ++ List.range' (addr dest + i) (n + 1 - i), s.writes⟩) := by
  induction fuel generalizing i s with
  | zero => omega
  | succ fuel ih =>
      refine ok_bind (loadChar_eq h (by omega)) ?_
      have hcount : n + 1 - i = n - i + 1 := by omega
      by_cases hend : i = n
      · subst hend
        rw [if_pos hstring.final, hcount, Nat.sub_self]
        rfl
      · have hnext := ih (s := ⟨s.mem, s.reads ++ [addr dest + i], s.writes⟩) h hstring (i := i + 1)
          (by omega) (by omega)
        rw [if_neg (hstring.body i (by omega)), offset_succ, hnext, hcount, List.range'_succ]
        simp [Nat.add_assoc]

/-! ## What the copies do -/

/-- The run returns `dest`. It writes each of the `w` bytes from `t` on and nothing else, and it
reads at places that are `readable` only. -/
def Copies (run : L Word) (mem : Mem) (dest : Word) (t w : ℕ) (content : ℕ → Byte)
    (readable : ℕ → Prop) : Prop :=
  ∃ s, run ⟨mem, [], []⟩ = .ok (dest, s) ∧ s.writes = List.range' t w ∧
    (∀ a ∈ s.reads, readable a) ∧ s.mem.tag = mem.tag ∧
    ∀ x, s.mem.byte x = if t ≤ x ∧ x < t + w then content (x - t) else mem.byte x

/-- Bytes of the source that a copy with this bound may read. -/
def InSource (src : Word) (count n a : ℕ) : Prop :=
  addr src ≤ a ∧ a < addr src + min count (n + 1)

theorem reads_inSource {src : Word} {count n a : ℕ}
    (h : a ∈ (List.range (min count (n + 1))).flatMap fun j => [addr src + j, addr src + j]) :
    InSource src count n a := by
  obtain ⟨j, hj, ha⟩ := List.mem_flatMap.mp h
  rw [List.mem_range] at hj
  have haj : a = addr src + j := by simpa using ha
  exact ⟨by omega, by omega⟩

section copies
variable {mem : Mem} {dest src count : Word} {n : ℕ}

theorem strncpy_copies (hsrc : IsString mem src n)
    (htarget : Accessible servingIsr mem dest count.toNat)
    (hsource : Accessible servingIsr mem src (min count.toNat (n + 1)))
    (hapart : addr dest + count.toNat ≤ addr src ∨
      addr src + min count.toNat (n + 1) ≤ addr dest) :
    Copies (strncpy servingIsr dest src count) mem dest (addr dest) count.toNat
      (fun i => if i < n then mem.byte (addr src + i) else 0) (InSource src count.toNat n) := by
  have hcopying : Copying servingIsr ⟨mem, [], []⟩ dest src 0 count.toNat
      (min count.toNat (n + 1)) n :=
    ⟨by simpa using htarget, hsource, by simpa using hapart,
      fun i hi => hsrc.zero_iff (by omega)⟩
  have hcopy := hcopying.copyString_eq (Nat.zero_add count.toNat) (Nat.zero_le n)
  generalize hm : min count.toNat (n + 1) = m at hcopy
  rw [BitVec.add_zero, BitVec.add_zero, Log.copied_zero] at hcopy
  have hacc : Accessible servingIsr (mem.copy (addr dest) (addr src) m) dest
      (m + (count.toNat - m)) := by
    rw [Nat.add_sub_cancel' (by omega)]
    exact htarget.congr (Mem.copy_tag _ _ _ _)
  have hfill := fillZero_eq (s := Log.copied ⟨mem, [], []⟩ (addr dest) (addr src) m) hacc
    (Nat.zero_add (count.toNat - m))
  rw [Nat.add_zero, List.range'_zero, List.append_nil] at hfill
  refine ⟨_, ok_bind hcopy (ok_bind hfill rfl), ?_, fun a ha => ?_, ?_, fun x => ?_⟩
  · have hsum : m + (count.toNat - m) = count.toNat := by omega
    simp only [Log.copied, List.nil_append, List.range'_append_1, hsum]
  · exact reads_inSource (by rw [hm]; simpa [Log.copied] using ha)
  · rw [fill_tag]
    exact Mem.copy_tag _ _ _ _
  · rw [byte_fill, Log.copied, Mem.byte_copy_apart _ (by omega)]
    by_cases hx : addr dest ≤ x ∧ x < addr dest + count.toNat
    · rw [if_pos hx]
      beta_reduce
      by_cases hlow : x - addr dest < n
      · rw [if_pos hlow, if_neg (by omega), if_pos (by omega)]
      · rw [if_neg hlow]
        by_cases hend : x - addr dest = n
        · rw [if_neg (by omega), if_pos (by omega), hend, hsrc.final]
        · rw [if_pos (by omega)]
    · rw [if_neg hx, if_neg (by omega), if_neg (by omega)]

theorem strncat_copies {len : ℕ} (hsrc : IsString mem src n) (hdest : IsString mem dest len)
    (htarget : Accessible servingIsr mem dest (len + (min count.toNat n + 1)))
    (hsource : Accessible servingIsr mem src (min count.toNat (n + 1)))
    (hapart : addr dest + len + (min count.toNat n + 1) ≤ addr src ∨
      addr src + min count.toNat (n + 1) ≤ addr dest + len) :
    Copies (strncat servingIsr dest src count) mem dest (addr dest + len) (min count.toNat n + 1)
      (fun i => if i < min count.toNat n then mem.byte (addr src + i) else 0)
      (fun a => addr dest ≤ a ∧ a ≤ addr dest + len ∨ InSource src count.toNat n a) := by
  have hin := htarget.inside
  have hscan : Accessible servingIsr mem dest (len + 1) :=
    ⟨by omega, fun i hi => htarget.tag i (by omega)⟩
  have hfuel : len < 0 + 2 ^ 32 := by omega
  have hfind := findEnd_eq (s := ⟨mem, [], []⟩) hscan hdest (Nat.zero_le len) hfuel
  rw [BitVec.add_zero, Nat.add_zero, Nat.sub_zero, List.nil_append] at hfind
  have hcopying : Copying servingIsr ⟨mem, List.range' (addr dest) (len + 1), []⟩ dest src len
      (min count.toNat n + 1) (min count.toNat (n + 1)) n :=
    ⟨htarget, hsource, hapart, fun i hi => hsrc.zero_iff (by omega)⟩
  obtain ⟨s, hs, hmem, hreads, hwrites⟩ :=
    hcopying.appendString_eq (Nat.zero_add count.toNat) (Nat.zero_le n)
  rw [BitVec.add_zero, Nat.add_zero, Log.copied_zero] at hs
  refine ⟨s, ok_bind hfind (ok_bind hs rfl), hwrites, fun a ha => ?_, ?_, fun x => ?_⟩
  · rw [hreads, Log.copied, List.mem_append] at ha
    rcases ha with ha | ha
    · rw [List.mem_range'_1] at ha
      exact Or.inl ⟨ha.1, by omega⟩
    · exact Or.inr (reads_inSource ha)
  · rw [hmem]
    exact Mem.copy_tag _ _ _ _
  · rw [hmem, Mem.byte_setByte, Mem.byte_copy_apart _ (by omega)]
    by_cases hx : addr dest + len ≤ x ∧ x < addr dest + len + (min count.toNat n + 1)
    · rw [if_pos hx]
      beta_reduce
      by_cases hlow : x - (addr dest + len) < min count.toNat n
      · rw [if_pos hlow, if_neg (by omega), if_pos (by omega)]
      · rw [if_neg hlow, if_pos (by omega)]
    · rw [if_neg hx, if_neg (by omega), if_neg (by omega)]

end copies

/-- Copies with a bound write the bytes they are to write, the string and its zeros, and they
read nothing behind the bound or the end of the source. -/
theorem bounded_copies (servingIsr : Bool) (mem : Mem) (dest src count : Word) (n len : ℕ)
    (hsrc : IsString mem src n) (hdest : IsString mem dest len)
    (hsource : Accessible servingIsr mem src (min count.toNat (n + 1))) :
    (Accessible servingIsr mem dest count.toNat →
      (addr dest + count.toNat ≤ addr src ∨ addr src + min count.toNat (n + 1) ≤ addr dest) →
      Copies (strncpy servingIsr dest src count) mem dest (addr dest) count.toNat
        (fun i => if i < n then mem.byte (addr src + i) else 0) (InSource src count.toNat n)) ∧
    (Accessible servingIsr mem dest (len + (min count.toNat n + 1)) →
      (addr dest + len + (min count.toNat n + 1) ≤ addr src ∨
        addr src + min count.toNat (n + 1) ≤ addr dest + len) →
      Copies (strncat servingIsr dest src count) mem dest (addr dest + len) (min count.toNat n + 1)
        (fun i => if i < min count.toNat n then mem.byte (addr src + i) else 0)
        (fun a => addr dest ≤ a ∧ a ≤ addr dest + len ∨ InSource src count.toNat n a)) :=
  ⟨fun htarget hapart => strncpy_copies hsrc htarget hsource hapart,
    fun htarget hapart => strncat_copies hsrc hdest htarget hsource hapart⟩

/-- The strings `abc` at `16` and `xy` at `32`. -/
def twoStrings : Mem where
  word a := if a = 16 then 0x00636261#32 else if a = 32 then 0x00007978#32 else 0#32
  tag _ := 0#4

theorem twoStrings_isString : IsString twoStrings 16#32 3 ∧ IsString twoStrings 32#32 2 :=
  ⟨⟨by decide, by decide⟩, ⟨by decide, by decide⟩⟩

theorem twoStrings_accessible {p : Word} {n : ℕ} (htag : tagOf p = 0#4)
    (hin : addr p + n ≤ 2 ^ 28) : Accessible servingIsr twoStrings p n :=
    ⟨hin, fun _ _ => .inr htag.symm⟩

/-- The first byte of `abc` behind `xy`. -/
theorem strncat_one : Copies (strncat false 32#32 16#32 1#32) twoStrings 32#32 34 2
    (fun i => if i < 1 then twoStrings.byte (16 + i) else 0)
    (fun a => 32 ≤ a ∧ a ≤ 34 ∨ InSource 16#32 1 3 a) :=
  (bounded_copies false twoStrings 32#32 16#32 1#32 3 2 twoStrings_isString.1 twoStrings_isString.2
    (twoStrings_accessible (by decide) (by decide))).2
    (twoStrings_accessible (by decide) (by decide)) (by decide)

/-! ## `strchr` -/

/-- The loop of `strchr`. A plain `char` has no sign on this machine. -/
def strchrFrom (servingIsr : Bool) (c cur : Word) : ℕ → L Word
  | 0 => throw .exhausted
  | fuel + 1 => do
      -- the end of the string is left before it is compared
      if (← loadChar servingIsr cur) = 0 then pure 0#32
      else if (← loadChar servingIsr cur).setWidth 32 = c then pure cur
      else strchrFrom servingIsr c (cur + 1#32) fuel

def strchr (servingIsr : Bool) (s c : Word) : L Word := strchrFrom servingIsr c s (2 ^ 32)

/-- The first byte of the string and its end that is the character is returned, and the null
pointer if there is none. -/
def FindsChar (servingIsr : Bool) (mem : Mem) (s c : Word) (n : ℕ) : Prop :=
  ∃ r log, strchr servingIsr s c ⟨mem, [], []⟩ = .ok (r, log) ∧
    (∀ j, IsLeast {i | i ≤ n ∧ mem.byte (addr s + i) = c.setWidth 8} j →
      r = s + BitVec.ofNat 32 j) ∧
    ((∀ i ≤ n, mem.byte (addr s + i) ≠ c.setWidth 8) → r = 0#32)

section strchr
variable {mem : Mem} {s c : Word} {n : ℕ}

/-- The byte is the argument as a whole. -/
abbrev Matches (mem : Mem) (s c : Word) (k : ℕ) : Prop := (mem.byte (addr s + k)).setWidth 32 = c

/-- What the loop returns from `i` on: the first match before the end of the string. -/
inductive Searched (mem : Mem) (s c : Word) (n i : ℕ) : Word → Prop
  | hit {j : ℕ} : i ≤ j → j < n → Matches mem s c j →
      (∀ k, i ≤ k → k < j → ¬Matches mem s c k) → Searched mem s c n i (s + BitVec.ofNat 32 j)
  | miss : (∀ k, i ≤ k → k < n → ¬Matches mem s c k) → Searched mem s c n i 0#32

theorem Searched.step {i : ℕ} {r : Word} (hi : ¬Matches mem s c i)
    (h : Searched mem s c n (i + 1) r) : Searched mem s c n i r := by
  have hfrom : ∀ k, i ≤ k → k = i ∨ i + 1 ≤ k := by omega
  cases h with
  | hit hij hjn hmatch hnone =>
      refine .hit (by omega) hjn hmatch fun k hk hkj => ?_
      rcases hfrom k hk with rfl | hk
      · exact hi
      · exact hnone k hk hkj
  | miss hnone =>
      refine .miss fun k hk hkn => ?_
      rcases hfrom k hk with rfl | hk
      · exact hi
      · exact hnone k hk hkn

theorem strchrFrom_searched (h : Accessible servingIsr mem s (n + 1)) (hstring : IsString mem s n)
    {i fuel : ℕ} (hi : i ≤ n) (hfuel : n < i + fuel) (reads writes : List ℕ) :
    ∃ r log, strchrFrom servingIsr c (s + BitVec.ofNat 32 i) fuel ⟨mem, reads, writes⟩ =
      .ok (r, log) ∧ Searched mem s c n i r := by
  induction fuel generalizing i reads with
  | zero => omega
  | succ fuel ih =>
      have hload := fun reads => loadChar_eq (s := ⟨mem, reads, writes⟩) h (i := i) (by omega)
      rw [strchrFrom]
      by_cases hend : i = n
      · have hzero : mem.byte (addr s + i) = 0 := (hstring.zero_iff hi).mpr hend
        refine ⟨0#32, ⟨mem, reads ++ [addr s + i], writes⟩, ok_bind (hload reads) ?_,
          .miss fun k hk hkn => by omega⟩
        rw [if_pos hzero]
        rfl
      · have hbody : mem.byte (addr s + i) ≠ 0 := hstring.body i (by omega)
        by_cases hmatch : Matches mem s c i
        · refine ⟨s + BitVec.ofNat 32 i, ⟨mem, reads ++ [addr s + i] ++ [addr s + i], writes⟩,
            ok_bind (hload reads) ?_, .hit (Nat.le_refl i) (by omega) hmatch fun k hk hki => by omega⟩
          rw [if_neg hbody]
          refine ok_bind (hload _) ?_
          rw [if_pos hmatch]
          rfl
        · obtain ⟨r, log, hrun, hr⟩ := ih (i := i + 1) (by omega) (by omega)
            (reads ++ [addr s + i] ++ [addr s + i])
          refine ⟨r, log, ok_bind (hload reads) ?_, hr.step hmatch⟩
          rw [if_neg hbody]
          refine ok_bind (hload _) ?_
          rw [if_neg hmatch, offset_succ]
          exact hrun

theorem strchr_searched (h : Accessible servingIsr mem s (n + 1)) (hstring : IsString mem s n) :
    ∃ r log, strchr servingIsr s c ⟨mem, [], []⟩ = .ok (r, log) ∧ Searched mem s c n 0 r := by
  have hin := h.inside
  have hfuel : n < 0 + 2 ^ 32 := by omega
  have hrun := strchrFrom_searched (c := c) h hstring (Nat.zero_le n) hfuel [] []
  rwa [BitVec.add_zero] at hrun

/-- A match is the character, and the argument has no bits but those of the character. -/
theorem matches_iff {k : ℕ} : Matches mem s c k ↔
    mem.byte (addr s + k) = c.setWidth 8 ∧ c = (c.setWidth 8).setWidth 32 := by
  have hback : ∀ b : Byte, (b.setWidth 32).setWidth 8 = b := by
    intro b
    rw [BitVec.setWidth_setWidth_of_le b (by decide), BitVec.setWidth_eq]
  constructor
  · rintro rfl
    rw [hback]
    exact ⟨rfl, rfl⟩
  · rintro ⟨hbyte, hc⟩
    rw [Matches, hbyte, ← hc]

/-- No byte of a string is at the null pointer but the first. -/
theorem offset_eq_zero {i : ℕ} (h : Accessible servingIsr mem s (n + 1)) (hi : i ≤ n)
    (hzero : s + BitVec.ofNat 32 i = 0#32) : s = 0#32 ∧ i = 0 := by
  have hin := h.inside
  have hlt := s.isLt
  rw [addr_eq] at hin
  have hnat := congrArg BitVec.toNat hzero
  rw [BitVec.toNat_add, BitVec.toNat_ofNat, BitVec.toNat_ofNat] at hnat
  have hs : s.toNat = 0 := by omega
  exact ⟨BitVec.eq_of_toNat_eq hs, by omega⟩

/-- An argument that is a character and not the end of the string. -/
theorem Searched.first {r : Word} {j : ℕ} (hstring : IsString mem s n) (h : Searched mem s c n 0 r)
    (hc : c ≠ 0#32) (hchar : c = (c.setWidth 8).setWidth 32)
    (hj : IsLeast {i | i ≤ n ∧ mem.byte (addr s + i) = c.setWidth 8} j) :
    r = s + BitVec.ofNat 32 j := by
  have hmatch : Matches mem s c j := matches_iff.mpr ⟨hj.1.2, hchar⟩
  cases h with
  | @hit k _ hkn hk hbefore =>
      have hle : j ≤ k := hj.2 ⟨by omega, (matches_iff.mp hk).1⟩
      have hge : ¬j < k := fun hlt => hbefore j (Nat.zero_le j) hlt hmatch
      rw [show j = k by omega]
  | miss hnone =>
      have hend : j = n := by
        have hle : j ≤ n := hj.1.1
        have hge : ¬j < n := fun hlt => hnone j (Nat.zero_le j) hlt hmatch
        omega
      -- the character is the end of the string, and so is the argument
      rw [hend] at hmatch
      refine absurd ?_ hc
      rw [← hmatch, hstring.final]
      rfl

/-- Without the character in the string there is no match. -/
theorem Searched.absent {r : Word} (h : Searched mem s c n 0 r)
    (hno : ∀ i ≤ n, mem.byte (addr s + i) ≠ c.setWidth 8) : r = 0#32 := by
  cases h with
  | hit _ hkn hk _ => exact absurd (matches_iff.mp hk).1 (hno _ hkn.le)
  | miss _ => rfl

/-- A string at the null pointer that starts with the character. -/
theorem Searched.at_null {r : Word} (h : Searched mem s c n 0 r) (hs : s = 0#32)
    (hbyte : mem.byte (addr s) = c.setWidth 8) : r = 0#32 := by
  cases h with
  | @hit k _ _ hk hbefore =>
      have hzero : ¬0 < k := fun hlt =>
        hbefore 0 (Nat.le_refl 0) hlt (matches_iff.mpr ⟨hbyte, (matches_iff.mp hk).2⟩)
      rw [show k = 0 by omega, hs]
      rfl
  | miss _ => rfl

/-- A result that is the first byte with the character. -/
theorem Searched.condition {r : Word} {j : ℕ} (hacc : Accessible servingIsr mem s (n + 1))
    (hstring : IsString mem s n) (h : Searched mem s c n 0 r) (hj : j ≤ n)
    (hbyte : mem.byte (addr s + j) = c.setWidth 8) (hr : r = s + BitVec.ofNat 32 j) :
    (c ≠ 0#32 ∧ c = (c.setWidth 8).setWidth 32) ∨
      (s = 0#32 ∧ mem.byte (addr s) = c.setWidth 8) := by
  cases h with
  | hit _ hkn hk _ =>
      obtain ⟨hkbyte, hchar⟩ := matches_iff.mp hk
      refine Or.inl ⟨fun hzero => hstring.body _ hkn ?_, hchar⟩
      rw [hkbyte, hzero]
      rfl
  | miss _ =>
      obtain ⟨hs, rfl⟩ := offset_eq_zero hacc hj hr.symm
      exact Or.inr ⟨hs, hbyte⟩

end strchr

/-- The argument is a character that is not the end, or no byte of the string is the character.
The third case is a string at the null pointer, where both results are the same. -/
theorem finds_char_iff (servingIsr : Bool) (mem : Mem) (s c : Word) (n : ℕ)
    (h : Accessible servingIsr mem s (n + 1)) (hstring : IsString mem s n) :
    FindsChar servingIsr mem s c n ↔ (c ≠ 0#32 ∧ c = (c.setWidth 8).setWidth 32) ∨
      (∀ i ≤ n, mem.byte (addr s + i) ≠ c.setWidth 8) ∨
      (s = 0#32 ∧ mem.byte (addr s) = c.setWidth 8) := by
  obtain ⟨r, log, hrun, hr⟩ := strchr_searched (c := c) h hstring
  constructor
  · rintro ⟨r', log', hrun', hfirst, -⟩
    have hsame : r = r' := by
      rw [hrun] at hrun'
      cases hrun'
      rfl
    by_cases hno : ∀ i ≤ n, mem.byte (addr s + i) ≠ c.setWidth 8
    · exact Or.inr (Or.inl hno)
    push Not at hno
    have hleast := Nat.find_spec hno
    have hresult := hfirst (Nat.find hno) ⟨hleast, fun k hk => Nat.find_min' hno hk⟩
    rcases hr.condition h hstring hleast.1 hleast.2 (hsame.trans hresult) with hc | hnull
    · exact Or.inl hc
    · exact Or.inr (Or.inr hnull)
  · rintro (⟨hc, hchar⟩ | hno | ⟨hs, hbyte⟩)
    · exact ⟨r, log, hrun, fun j hj => hr.first hstring hc hchar hj, hr.absent⟩
    · exact ⟨r, log, hrun, fun j hj => absurd hj.1.2 (hno j hj.1.1), hr.absent⟩
    · refine ⟨r, log, hrun, fun j hj => ?_, hr.absent⟩
      have hzero : j = 0 := Nat.le_zero.mp (hj.2 ⟨Nat.zero_le n, hbyte⟩)
      rw [hr.at_null hs hbyte, hs, hzero]
      rfl

/-- The letter `b` of `abc`. -/
theorem finds_letter : FindsChar false twoStrings 16#32 0x62#32 3 :=
  (finds_char_iff false twoStrings 16#32 0x62#32 3 (twoStrings_accessible (by decide) (by decide))
    twoStrings_isString.1).mpr (Or.inl ⟨by decide, by decide⟩)

/-- The end of `abc` is not found. -/
theorem end_not_found : ¬FindsChar false twoStrings 16#32 0#32 3 := by
  rintro ⟨r, log, hrun, hfirst, -⟩
  have hbody := twoStrings_isString.1.body
  obtain ⟨r', log', hrun', hr⟩ := strchr_searched (c := 0#32)
    (twoStrings_accessible (p := 16#32) (n := 3 + 1) (by decide) (by decide)) twoStrings_isString.1
  rw [hrun] at hrun'
  cases hrun'
  have hthree := hfirst 3 ⟨⟨by decide, by decide⟩, fun k hk => ?_⟩
  · cases hr with
    | hit _ hjn hmatch _ => exact hbody _ hjn (matches_iff.mp hmatch).1
    | miss _ => exact absurd hthree (by decide)
  · by_contra hlt
    exact hbody k (by omega) hk.2

end TagSoc.Strings
