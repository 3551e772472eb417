import TagSoc.TaggedArrays

/-!
# Loops that set tags

Stores of one tag at a fixed distance from each other: the granules they name
have the tag afterwards, the others keep theirs.
-/
namespace TagSoc.TagStores
open TaggedArrays

variable {g : ℕ}

/-- The address of store number `k`. -/
def storeAddr (stride : ℕ) (start : Word) (k : ℕ) : Word := start + BitVec.ofNat 32 (stride * k)

theorem storeAddr_zero (stride : ℕ) (start : Word) : storeAddr stride start 0 = start :=
  BitVec.add_zero start

theorem storeAddr_succ (stride : ℕ) (start : Word) (k : ℕ) :
    storeAddr stride start (k + 1) = storeAddr stride start k + BitVec.ofNat 32 stride := by
  rw [storeAddr, storeAddr, Nat.mul_succ, BitVec.ofNat_add, BitVec.add_assoc]

theorem storeAddr_toNat (stride : ℕ) (start : Word) (k : ℕ) :
    (storeAddr stride start k).toNat = (start.toNat + stride * k) % 2 ^ 32 := by
  rw [storeAddr, BitVec.toNat_add, BitVec.toNat_ofNat, Nat.add_mod_mod]

/-- The memory after the first stores. -/
def stored (stride : ℕ) (tag start : Word) (m : Memory g) : ℕ → Memory g
  | 0 => m
  | k + 1 => (stored stride tag start m k).write ⟨.tag, true, storeAddr stride start k, tag⟩

section tags
variable {stride : ℕ} {tag start : Word} {m : Memory g} {n : ℕ} {i : BitVec g}

theorem stored_bytes : (stored stride tag start m n).bytes = m.bytes := by
  induction n with
  | zero => rfl
  | succ n ih => exact ih

theorem stored_hit (h : ∃ k < n, granule g (storeAddr stride start k) = i) :
    (stored stride tag start m n).tags i = tag.setWidth 4 := by
  induction n with
  | zero =>
      obtain ⟨k, hk, _⟩ := h
      omega
  | succ n ih =>
      obtain ⟨k, hk, hi⟩ := h
      change Function.update (stored stride tag start m n).tags
        (granule g (storeAddr stride start n)) (tag.setWidth 4) i = _
      by_cases hn : i = granule g (storeAddr stride start n)
      · rw [hn, Function.update_self]
      · rw [Function.update_of_ne hn]
        refine ih ⟨k, ?_, hi⟩
        have hne : k ≠ n := fun h => hn (h ▸ hi.symm)
        omega

theorem stored_missed (h : ∀ k < n, granule g (storeAddr stride start k) ≠ i) :
    (stored stride tag start m n).tags i = m.tags i := by
  induction n with
  | zero => rfl
  | succ n ih =>
      refine (Function.update_of_ne (h n (Nat.lt_succ_self n)).symm _ _).trans ?_
      exact ih fun k hk => h k (by omega)

end tags

/-! ## Granules as numbers -/

theorem granule_toNat (a : Word) : (granule g a).toNat = a.toNat / 16 % 2 ^ g := by
  rw [granule, BitVec.toNat_setWidth, BitVec.toNat_ushiftRight, Nat.shiftRight_eq_div_pow]

theorem granule_congr {a b : Word} (h : a.toNat / 16 % 2 ^ g = b.toNat / 16 % 2 ^ g) :
    granule g a = granule g b :=
  BitVec.eq_of_toNat_eq (by rw [granule_toNat, granule_toNat, h])

end TagSoc.TagStores
