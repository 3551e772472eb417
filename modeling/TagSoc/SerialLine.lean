import Mathlib.Data.BitVec
import Mathlib.Tactic.Common

/-!
# Frames on a serial line

A line is sampled once a clock. It is high between frames; a frame is a low
start bit, the eight bits of a byte from the lowest on and a high stop bit, each
`p` clocks long. `Carries p l bs` says that the samples `l` are the frames of the
bytes `bs` with any number of high samples around them. The bytes are determined
by the samples (`Carries.unique`).
-/
namespace TagSoc.SerialLine

variable {p : ℕ}

/-- Bit `k` of the frame of a byte. -/
def level (b : BitVec 8) (k : ℕ) : Bool :=
  if k = 0 then false else if k ≤ 8 then b.getLsbD (k - 1) else true

/-- The first `n` bits of a frame. -/
def bits (p : ℕ) (b : BitVec 8) (n : ℕ) : List Bool :=
  (List.range n).flatMap fun k => List.replicate p (level b k)

def frame (p : ℕ) (b : BitVec 8) : List Bool := bits p b 10

theorem bits_succ (b : BitVec 8) (n : ℕ) :
    bits p b (n + 1) = bits p b n ++ List.replicate p (level b n) := by
  simp [bits, List.range_succ]

@[simp] theorem length_bits (b : BitVec 8) (n : ℕ) : (bits p b n).length = n * p := by
  induction n with
  | zero => simp [bits]
  | succ n ih =>
      rw [bits_succ, List.length_append, ih, List.length_replicate, Nat.succ_mul]

theorem bits_inj (hp : 0 < p) {b b' : BitVec 8} {n : ℕ} (h : bits p b n = bits p b' n) :
    ∀ k < n, level b k = level b' k := by
  induction n with
  | zero => exact fun k hk => absurd hk (Nat.not_lt_zero k)
  | succ n ih =>
      rw [bits_succ, bits_succ] at h
      obtain ⟨hlow, hlast⟩ := List.append_inj h (by simp)
      intro k hk
      rcases Nat.lt_succ_iff_lt_or_eq.mp hk with hk | rfl
      · exact ih hlow k hk
      · exact (List.replicate_inj.mp hlast).2.resolve_left (by omega)

theorem frame_inj (hp : 0 < p) {b b' : BitVec 8} (h : frame p b = frame p b') : b = b' := by
  refine BitVec.eq_of_getLsbD_eq fun k hk => ?_
  have hlevel := bits_inj hp h (k + 1) (by omega)
  simpa [level, Nat.succ_le_of_lt hk] using hlevel

/-- A frame starts low. -/
theorem frame_ne (hp : 0 < p) (b : BitVec 8) (l l' : List Bool) :
    frame p b ++ l ≠ true :: l' := by
  obtain ⟨p, rfl⟩ := Nat.exists_eq_add_of_lt hp
  simp [frame, bits, List.range_succ_eq_map, level, List.replicate_succ]

inductive Carries (p : ℕ) : List Bool → List (BitVec 8) → Prop
  | nil : Carries p [] []
  | idle {l bs} : Carries p l bs → Carries p (true :: l) bs
  | frame {l bs} (b : BitVec 8) : Carries p l bs → Carries p (frame p b ++ l) (b :: bs)

namespace Carries

theorem append {l l' : List Bool} {bs bs' : List (BitVec 8)} (h : Carries p l bs)
    (h' : Carries p l' bs') : Carries p (l ++ l') (bs ++ bs') := by
  induction h with
  | nil => exact h'
  | idle _ ih => exact .idle ih
  | frame b _ ih =>
      rw [List.append_assoc]
      exact .frame b ih

theorem high (n : ℕ) : Carries p (List.replicate n true) [] := by
  induction n with
  | zero => exact .nil
  | succ n ih => exact .idle ih

theorem single (b : BitVec 8) : Carries p (SerialLine.frame p b) [b] := by
  simpa using Carries.frame (p := p) b .nil

theorem cases_eq {l : List Bool} {bs : List (BitVec 8)} (h : Carries p l bs) :
    l = [] ∧ bs = [] ∨ (∃ l', l = true :: l' ∧ Carries p l' bs) ∨
      ∃ b l' bs', l = SerialLine.frame p b ++ l' ∧ bs = b :: bs' ∧ Carries p l' bs' := by
  cases h with
  | nil => exact Or.inl ⟨rfl, rfl⟩
  | idle h => exact Or.inr (Or.inl ⟨_, rfl, h⟩)
  | frame b h => exact Or.inr (Or.inr ⟨b, _, _, rfl, rfl, h⟩)

/-- The samples determine the bytes. -/
theorem unique (hp : 0 < p) {l : List Bool} {bs bs' : List (BitVec 8)} (h : Carries p l bs)
    (h' : Carries p l bs') : bs = bs' := by
  have hne : ∀ b l, SerialLine.frame p b ++ l ≠ [] := by
    intro b l hnil
    have hlen := congrArg List.length hnil
    simp [SerialLine.frame] at hlen
    omega
  induction h generalizing bs' with
  | nil =>
      rcases h'.cases_eq with ⟨-, rfl⟩ | ⟨l, hl, -⟩ | ⟨b, l, _, hl, -⟩
      · rfl
      · exact absurd hl (List.cons_ne_nil _ _).symm
      · exact absurd hl.symm (hne b l)
  | idle _ ih =>
      rcases h'.cases_eq with ⟨hl, -⟩ | ⟨l, hl, h'⟩ | ⟨b, l, _, hl, -⟩
      · exact absurd hl (List.cons_ne_nil _ _)
      · obtain rfl := (List.cons.inj hl).2
        exact ih h'
      · exact absurd hl.symm (frame_ne hp b l _)
  | frame b _ ih =>
      rcases h'.cases_eq with ⟨hl, -⟩ | ⟨l, hl, -⟩ | ⟨b', l, bs', hl, rfl, h'⟩
      · exact absurd hl (hne b _)
      · exact absurd hl (frame_ne hp b _ l)
      · obtain ⟨hframe, rfl⟩ := List.append_inj hl (by simp [SerialLine.frame])
        rw [frame_inj hp hframe, ih h']

end Carries

end TagSoc.SerialLine
