import Mathlib.Data.BitVec
import Mathlib.Logic.Function.Basic
import Mathlib.Tactic.Common

/-!
# Programs on a memory with tags

A pointer is a 28-bit address with a tag in its upper four bits; every granule of
16 bytes has a tag as well. While interrupts are enabled, a load or store through a
pointer whose tag is not that of the granule does not return. With `mstatus.MIE` clear,
as in a service routine and in the start-up code, the access is made all the same and
the memory only notes the mismatch. Tags themselves are read and written without a
check. Words are addressed by their first byte.
-/
namespace TagSoc.TaggedMem

abbrev Word := BitVec 32

inductive Stop where
  | tagMismatch | alignment | exhausted
deriving Repr, DecidableEq

@[ext]
structure Mem where
  word : ℕ → Word
  tag : ℕ → BitVec 4

/-- A program that reads and writes the memory, or stops. -/
abbrev M := StateT Mem (Except Stop)

def essence (p : Word) : Word := p &&& 0x0FFFFFFF#32

def addr (p : Word) : ℕ := (essence p).toNat

def tagOf (p : Word) : BitVec 4 := p.extractLsb' 28 4

/-- The access goes on: its tags agree, or the processor takes no interrupts. -/
def passes (servingIsr : Bool) (s : Mem) (p : Word) : Bool :=
  servingIsr || s.tag (addr p / 16) == tagOf p

def load (servingIsr : Bool) (p : Word) : M Word := fun s =>
  if passes servingIsr s p then .ok (s.word (addr p), s) else .error .tagMismatch

def store (servingIsr : Bool) (p v : Word) : M Unit := fun s =>
  if passes servingIsr s p then
    .ok ((), { s with word := Function.update s.word (addr p) v })
  else .error .tagMismatch

/-- A store while the checks are off. -/
def storeUnchecked (p v : Word) : M Unit := fun s =>
  .ok ((), { s with word := Function.update s.word (addr p) v })

/-- `lt`. -/
def loadTag (p : Word) : M (BitVec 4) := fun s => .ok (s.tag (addr p / 16), s)

/-- `st`. -/
def storeTag (p : Word) (t : BitVec 4) : M Unit := fun s =>
  .ok ((), { s with tag := Function.update s.tag (addr p / 16) t })

/-! ## Running -/

section run
variable {α β : Type} {m : M α} {f : α → M β} {s s' : Mem} {a : α}

/-- One command, then the rest. -/
theorem ok_bind {x : Except Stop (β × Mem)} (h : m s = .ok (a, s')) (h' : f a s' = x) :
    (m >>= f) s = x := by
  simp only [bind, StateT.bind, h]
  exact h'

theorem of_ok_bind {b : β} {t : Mem} (h : (m >>= f) s = .ok (b, t)) :
    ∃ a s', m s = .ok (a, s') ∧ f a s' = .ok (b, t) := by
  simp only [bind, StateT.bind] at h
  cases hm : m s with
  | error e =>
      rw [hm] at h
      cases h
  | ok r =>
      rw [hm] at h
      exact ⟨r.1, r.2, rfl, h⟩

end run

/-! ## Pointers -/

theorem addr_eq (p : Word) : addr p = p.toNat % 2 ^ 28 := by
  have hmask : (0x0FFFFFFF#32).toNat = 2 ^ 28 - 1 := by decide
  rw [addr, essence, BitVec.toNat_and, hmask, Nat.and_two_pow_sub_one_eq_mod]

theorem tagOf_toNat (p : Word) : (tagOf p).toNat = p.toNat / 2 ^ 28 := by
  have hlt := p.isLt
  rw [tagOf, BitVec.extractLsb'_toNat, Nat.shiftRight_eq_div_pow]
  exact Nat.mod_eq_of_lt (by omega)

theorem addr_lt (p : Word) : addr p < 2 ^ 28 := by
  rw [addr_eq]
  exact Nat.mod_lt _ (by decide)

theorem addr_of_lt {p : Word} (h : p.toNat < 2 ^ 28) : addr p = p.toNat := by
  rw [addr_eq]
  exact Nat.mod_eq_of_lt h

theorem essence_toNat (p : Word) : (essence p).toNat = addr p := rfl

/-- The pointer with the address of `a` and the tag `t`. -/
def tagged (a : Word) (t : BitVec 4) : Word := essence a ||| t.setWidth 32 <<< 28

theorem tagged_toNat (a : Word) (t : BitVec 4) :
    (tagged a t).toNat = addr a + t.toNat * 2 ^ 28 := by
  have ht := t.isLt
  have hshift : (t.setWidth 32 <<< 28).toNat = t.toNat * 2 ^ 28 := by
    rw [BitVec.toNat_shiftLeft, BitVec.toNat_setWidth, Nat.shiftLeft_eq]
    omega
  rw [tagged, BitVec.toNat_or, hshift, essence_toNat, Nat.or_comm, Nat.mul_comm,
    ← Nat.two_pow_add_eq_or_of_lt (addr_lt a), Nat.add_comm]

@[simp] theorem addr_tagged (a : Word) (t : BitVec 4) : addr (tagged a t) = addr a := by
  have ha := addr_lt a
  rw [addr_eq, tagged_toNat]
  omega

@[simp] theorem tagOf_tagged (a : Word) (t : BitVec 4) : tagOf (tagged a t) = t := by
  have ha := addr_lt a
  apply BitVec.eq_of_toNat_eq
  rw [tagOf_toNat, tagged_toNat]
  omega

/-- The field of a structure at an offset. -/
def field (p : Word) (offset : ℕ) : Word := p + BitVec.ofNat 32 offset

/-- A field of a structure that fills one granule. -/
theorem field_eq {p : Word} (h : addr p % 16 = 0) {k : ℕ} (hk : k < 16) :
    addr (field p k) = addr p + k ∧ tagOf (field p k) = tagOf p := by
  have hp := p.isLt
  rw [addr_eq] at h
  have hnat : (field p k).toNat = p.toNat + k := by
    rw [field, BitVec.toNat_add, BitVec.toNat_ofNat]
    omega
  constructor
  · rw [addr_eq, addr_eq, hnat]
    omega
  · apply BitVec.eq_of_toNat_eq
    rw [tagOf_toNat, tagOf_toNat, hnat]
    omega

/-- The pointer `p` is to the granule at the address `a` and has its tag. -/
structure Points (s : Mem) (p : Word) (a : ℕ) : Prop where
  addr : TaggedMem.addr p = a
  aligned : a % 16 = 0
  tag : s.tag (a / 16) = tagOf p

section
variable {servingIsr : Bool} {s : Mem} {p : Word} {a k : ℕ}

theorem passes_iff : passes servingIsr s p = true ↔
    servingIsr = true ∨ s.tag (TaggedMem.addr p / 16) = tagOf p := by
  rw [passes, Bool.or_eq_true, beq_iff_eq]

variable (servingIsr) in
theorem Points.passes (h : Points s p a) (hk : k < 16) :
    TaggedMem.addr (field p k) = a + k ∧ passes servingIsr s (field p k) = true := by
  obtain ⟨haddr, htag⟩ := field_eq (p := p) (by rw [h.addr]; exact h.aligned) hk
  have hgranule : (a + k) / 16 = a / 16 := by
    have := h.aligned
    omega
  rw [h.addr] at haddr
  rw [passes_iff, haddr, htag, hgranule]
  exact ⟨rfl, .inr h.tag⟩

theorem Points.load (h : Points s p a) (hk : k < 16) :
    TaggedMem.load servingIsr (field p k) s = .ok (s.word (a + k), s) := by
  obtain ⟨haddr, hpass⟩ := h.passes servingIsr hk
  rw [TaggedMem.load, if_pos hpass, haddr]

theorem Points.store (h : Points s p a) (hk : k < 16) (v : Word) :
    TaggedMem.store servingIsr (field p k) v s =
      .ok ((), { s with word := Function.update s.word (a + k) v }) := by
  obtain ⟨haddr, hpass⟩ := h.passes servingIsr hk
  rw [TaggedMem.store, if_pos hpass, haddr]

/-- Stores to words leave the pointers valid. -/
theorem Points.word (h : Points s p a) (w : ℕ → Word) : Points ⟨w, s.tag⟩ p a :=
  ⟨h.addr, h.aligned, h.tag⟩

/-- A pointer that was given the tag of its granule. -/
theorem points_tagged {b : Word} (hb : addr b % 16 = 0) :
    Points s (tagged b (s.tag (addr b / 16))) (addr b) :=
  ⟨by simp, hb, by simp⟩

end

end TagSoc.TaggedMem
