import TagSoc.TaggedMem

/-!
# Bytes

Loads and stores of single bytes, and the loop that copies bytes in ascending
order. Where the target is above the source and not clear of it, the loop reads
what it has written, and the first bytes are repeated.
-/
namespace TagSoc.TaggedMem

/-! ## Bytes of words -/

def lane (w : Word) (k : ℕ) : BitVec 8 := w.extractLsb' (8 * k) 8

def setLane (w : Word) (k : ℕ) (v : BitVec 8) : Word :=
  w &&& ~~~((BitVec.allOnes 8).setWidth 32 <<< (8 * k)) ||| v.setWidth 32 <<< (8 * k)

theorem lane_setLane (w : Word) {k j : ℕ} (hj : j < 4) (v : BitVec 8) :
    lane (setLane w k v) j = if j = k then v else lane w j := by
  apply BitVec.eq_of_getLsbD_eq
  intro i hi
  have hlt : 8 * j + i < 32 := by omega
  simp only [lane, setLane, BitVec.getLsbD_extractLsb', BitVec.getLsbD_or, BitVec.getLsbD_and,
    BitVec.getLsbD_not, BitVec.getLsbD_shiftLeft, BitVec.getLsbD_allOnes, BitVec.getLsbD_setWidth]
  rcases Nat.lt_trichotomy j k with h | rfl | h
  · have hbelow : 8 * j + i < 8 * k := by omega
    simp [h.ne, hbelow, hlt, hi]
  · have hbelow : ¬ 8 * j + i < 8 * j := by omega
    have hin : 8 * j + i - 8 * j = i := by omega
    have hlow : i < 32 := by omega
    simp [hbelow, hin, hlt, hi, hlow]
  · have hbelow : ¬ 8 * j + i < 8 * k := by omega
    have habove : 8 ≤ 8 * j + i - 8 * k := by omega
    simp [h.ne', hbelow, hlt, hi, BitVec.getLsbD_of_ge _ _ habove, Nat.not_lt.mpr habove]

/-- The byte at an address. -/
def Mem.byte (s : Mem) (a : ℕ) : BitVec 8 := lane (s.word (a / 4 * 4)) (a % 4)

def Mem.setByte (s : Mem) (a : ℕ) (v : BitVec 8) : Mem :=
  { s with word := Function.update s.word (a / 4 * 4) (setLane (s.word (a / 4 * 4)) (a % 4) v) }

theorem Mem.byte_setByte (s : Mem) (a : ℕ) (v : BitVec 8) (x : ℕ) :
    (s.setByte a v).byte x = if x = a then v else s.byte x := by
  have hlane : x % 4 < 4 := Nat.mod_lt _ (by decide)
  simp only [Mem.byte, Mem.setByte]
  by_cases hword : x / 4 * 4 = a / 4 * 4
  · rw [hword, Function.update_self, lane_setLane _ hlane]
    exact if_congr (by omega) rfl rfl
  · rw [Function.update_of_ne hword, if_neg (by omega)]

@[simp] theorem Mem.setByte_tag (s : Mem) (a : ℕ) (v : BitVec 8) : (s.setByte a v).tag = s.tag := rfl

/-- Bytes of the same word. -/
theorem Mem.byte_congr {s s' : Mem} {x : ℕ} (h : s.word (x / 4 * 4) = s'.word (x / 4 * 4)) :
    s.byte x = s'.byte x := by
  rw [Mem.byte, Mem.byte, h]

/-! ## Commands -/

/-- `lbu` -/
def loadByte (servingIsr : Bool) (p : Word) : M (BitVec 8) := fun s =>
  if passes servingIsr s p then .ok (s.byte (addr p), s) else .error .tagMismatch

/-- `sb` -/
def storeByte (servingIsr : Bool) (p : Word) (v : BitVec 8) : M Unit := fun s =>
  if passes servingIsr s p then .ok ((), s.setByte (addr p) v) else .error .tagMismatch

/-- `n` rounds of `target[i] = source[i]`, from `i` on. -/
def copyFrom (servingIsr : Bool) (target source i : Word) : ℕ → M Unit
  | 0 => pure ()
  | n + 1 => do
      let c ← loadByte servingIsr (source + i)
      storeByte servingIsr (target + i) c
      copyFrom servingIsr target source (i + 1#32) n

/-! ## What the loop does -/

/-- The memory after `n` rounds. -/
def Mem.copy (s : Mem) (t a : ℕ) : ℕ → Mem
  | 0 => s
  | n + 1 => (s.copy t a n).setByte (t + n) ((s.copy t a n).byte (a + n))

@[simp] theorem Mem.copy_tag (s : Mem) (t a n : ℕ) : (s.copy t a n).tag = s.tag := by
  induction n with
  | zero => rfl
  | succ n ih => rw [Mem.copy, Mem.setByte_tag, ih]

/-- A target at or below the source gets its bytes (a remainder by zero is the
number itself); one above it gets the first `t - a` bytes again and again. -/
theorem Mem.byte_copy (s : Mem) (t a n x : ℕ) : (s.copy t a n).byte x =
    if t ≤ x ∧ x < t + n then s.byte (a + (x - t) % (t - a)) else s.byte x := by
  induction n generalizing x with
  | zero => rw [if_neg (by omega), Mem.copy]
  | succ n ih =>
      rw [Mem.copy, Mem.byte_setByte]
      by_cases hx : x = t + n
      · rw [if_pos hx, if_pos (by omega), ih, hx, Nat.add_sub_cancel_left]
        by_cases hover : t ≤ a + n ∧ a + n < t + n
        · -- the byte that is read was written `t - a` rounds ago
          have hback : a + n - t = n - (t - a) := by omega
          rw [if_pos hover, hback, ← Nat.mod_eq_sub_mod (by omega)]
        · rw [if_neg hover]
          rcases Nat.lt_or_ge a t with hlt | hge
          · rw [Nat.mod_eq_of_lt (by omega)]
          · rw [Nat.sub_eq_zero_of_le hge, Nat.mod_zero]
      · rw [if_neg hx, ih]
        exact if_congr (by omega) rfl rfl

theorem Mem.byte_copy_apart (s : Mem) {t a n : ℕ} (h : t + n ≤ a ∨ a + n ≤ t) (x : ℕ) :
    (s.copy t a n).byte x = if t ≤ x ∧ x < t + n then s.byte (a + (x - t)) else s.byte x := by
  rw [Mem.byte_copy]
  by_cases hx : t ≤ x ∧ x < t + n
  · rw [if_pos hx, if_pos hx]
    rcases Nat.le_or_le t a with hle | hle
    · rw [Nat.sub_eq_zero_of_le hle, Nat.mod_zero]
    · rw [Nat.mod_eq_of_lt (by omega)]
  · rw [if_neg hx, if_neg hx]

/-- The bytes from a pointer on can be read and written. -/
structure Accessible (servingIsr : Bool) (s : Mem) (p : Word) (n : ℕ) : Prop where
  inside : addr p + n ≤ 2 ^ 28
  tag : ∀ i < n, servingIsr = true ∨ s.tag ((addr p + i) / 16) = tagOf p

theorem offset_eq {p : Word} {i : ℕ} (h : addr p + i < 2 ^ 28) :
    addr (p + BitVec.ofNat 32 i) = addr p + i ∧ tagOf (p + BitVec.ofNat 32 i) = tagOf p := by
  have hp := p.isLt
  rw [addr_eq] at h
  have hnat : (p + BitVec.ofNat 32 i).toNat = p.toNat + i := by
    rw [BitVec.toNat_add, BitVec.toNat_ofNat]
    omega
  constructor
  · rw [addr_eq, addr_eq, hnat]
    omega
  · apply BitVec.eq_of_toNat_eq
    rw [tagOf_toNat, tagOf_toNat, hnat]
    omega

section loop
variable {servingIsr : Bool} {s : Mem} {target source : Word} {n : ℕ}

theorem passes_offset {p : Word} {i : ℕ} (h : addr p + i < 2 ^ 28) :
    passes servingIsr s (p + BitVec.ofNat 32 i) = true ↔
      servingIsr = true ∨ s.tag ((addr p + i) / 16) = tagOf p := by
  rw [passes_iff, (offset_eq h).1, (offset_eq h).2]

theorem Accessible.load {p : Word} (h : Accessible servingIsr s p n) {i : ℕ} (hi : i < n) :
    loadByte servingIsr (p + BitVec.ofNat 32 i) s = .ok (s.byte (addr p + i), s) := by
  have hin : addr p + i < 2 ^ 28 := by
    have := h.inside
    omega
  rw [loadByte, if_pos ((passes_offset hin).mpr (h.tag i hi)), (offset_eq hin).1]

theorem Accessible.store {p : Word} (h : Accessible servingIsr s p n) {i : ℕ} (hi : i < n)
    (v : BitVec 8) : storeByte servingIsr (p + BitVec.ofNat 32 i) v s =
      .ok ((), s.setByte (addr p + i) v) := by
  have hin : addr p + i < 2 ^ 28 := by
    have := h.inside
    omega
  rw [storeByte, if_pos ((passes_offset hin).mpr (h.tag i hi)), (offset_eq hin).1]

theorem Accessible.congr {s' : Mem} {p : Word} (h : Accessible servingIsr s p n)
    (htag : s'.tag = s.tag) : Accessible servingIsr s' p n :=
  ⟨h.inside, fun i hi => by rw [htag]; exact h.tag i hi⟩

/-- While interrupts are enabled the whole range has the tag of its pointer. -/
theorem Accessible.tag_at {p : Word} (h : Accessible false s p n) {x : ℕ} (hfrom : addr p ≤ x)
    (hto : x < addr p + n) : s.tag (x / 16) = tagOf p := by
  have hx := h.tag (x - addr p) (by omega)
  rw [Nat.add_sub_cancel' hfrom] at hx
  exact hx.resolve_left Bool.false_ne_true

/-- Without interrupts there is nothing to check. -/
theorem accessible_serving {p : Word} (h : addr p + n ≤ 2 ^ 28) : Accessible true s p n :=
  ⟨h, fun _ _ => .inl rfl⟩

theorem copyFrom_eq (ht : Accessible servingIsr s target n) (hs : Accessible servingIsr s source n)
    {i k : ℕ} (hk : i + k = n) : copyFrom servingIsr target source (BitVec.ofNat 32 i) k
      (s.copy (addr target) (addr source) i) = .ok ((), s.copy (addr target) (addr source) n) := by
  induction k generalizing i with
  | zero =>
      obtain rfl : i = n := hk
      rfl
  | succ k ih =>
      have hs' := hs.congr (Mem.copy_tag s (addr target) (addr source) i)
      have ht' := ht.congr (Mem.copy_tag s (addr target) (addr source) i)
      have hnext := ih (i := i + 1) (by omega)
      rw [BitVec.ofNat_add] at hnext
      rw [copyFrom]
      refine ok_bind (hs'.load (by omega)) ?_
      exact ok_bind (ht'.store (by omega) _) hnext

/-- A loop that returns has passed the checks of its loads and stores. -/
theorem passes_of_copyFrom {i : Word} {s' : Mem}
    (h : copyFrom servingIsr target source i n s = .ok ((), s')) : ∀ j < n,
      passes servingIsr s (target + (i + BitVec.ofNat 32 j)) = true ∧
        passes servingIsr s (source + (i + BitVec.ofNat 32 j)) = true := by
  induction n generalizing i s with
  | zero => exact fun j hj => absurd hj (Nat.not_lt_zero j)
  | succ n ih =>
      rw [copyFrom] at h
      obtain ⟨c, s₁, hload, h⟩ := of_ok_bind h
      obtain ⟨_, s₂, hstore, h⟩ := of_ok_bind h
      rw [loadByte] at hload
      split at hload
      case isFalse => cases hload
      case isTrue hsource =>
        cases hload
        rw [storeByte] at hstore
        split at hstore
        case isFalse => cases hstore
        case isTrue htarget =>
          cases hstore
          intro j hj
          cases j with
          | zero => simpa using ⟨htarget, hsource⟩
          | succ j =>
              -- the tags are the same after the store
              have hrest := ih h j (by omega)
              rw [BitVec.add_assoc] at hrest
              rw [Nat.add_comm, BitVec.ofNat_add]
              exact hrest

/-- The loop returns just if every byte of both ranges can be accessed. -/
theorem copyFrom_ok_iff {s' : Mem} (ht : addr target + n ≤ 2 ^ 28)
    (hs : addr source + n ≤ 2 ^ 28) :
    copyFrom servingIsr target source 0#32 n s = .ok ((), s') ↔
      Accessible servingIsr s target n ∧ Accessible servingIsr s source n ∧
        s' = s.copy (addr target) (addr source) n := by
  constructor
  · intro h
    have hpass := passes_of_copyFrom h
    simp only [BitVec.zero_add] at hpass
    have htarget : Accessible servingIsr s target n :=
      ⟨ht, fun i hi => (passes_offset (by omega)).mp (hpass i hi).1⟩
    have hsource : Accessible servingIsr s source n :=
      ⟨hs, fun i hi => (passes_offset (by omega)).mp (hpass i hi).2⟩
    have heq := (copyFrom_eq htarget hsource (Nat.zero_add n)).symm.trans h
    exact ⟨htarget, hsource, by cases heq; rfl⟩
  · rintro ⟨htarget, hsource, rfl⟩
    exact copyFrom_eq htarget hsource (Nat.zero_add n)

end loop

end TagSoc.TaggedMem
