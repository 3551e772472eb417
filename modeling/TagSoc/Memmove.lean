import TagSoc.ByteCopy
import TagSoc.HeapRuns

/-!
# `memmove` of the C library

`memmove` of `string.c` copies to a new block and from there to its destination.
It does not look at the pointer that `malloc` gives it: without a block the bytes
go through the address zero. While an interrupt is served `malloc` never has one,
and no tag keeps the bytes at zero from being overwritten.

The two ranges are any in memory. Those of a program, which it may access and which
the allocator does not keep for itself, are moved whenever there is a block.
-/
namespace TagSoc.Malloc
open TaggedMem

def memmove (l : Layout) (servingIsr : Bool) (dest src n : Word) : M Word := do
  let temp ← malloc l servingIsr n
  copyFrom servingIsr temp src 0#32 n.toNat
  copyFrom servingIsr dest temp 0#32 n.toNat
  free temp
  pure dest

/-! ## The contract -/

abbrev InRange (p n : Word) (x : ℕ) : Prop := addr p ≤ x ∧ x < addr p + n.toNat

def Arena (lo hi : Word) (x : ℕ) : Prop := lo.toNat ≤ x ∧ x < hi.toNat

/-- The granules `sec_cntx` and `mem_info`. -/
def Control (l : Layout) (x : ℕ) : Prop :=
  x / 16 = l.secCntx.toNat / 16 ∨ x / 16 = l.memInfo.toNat / 16

/-- The call returns its destination with the bytes of the source, and no other byte has changed
but exempt ones. -/
def Moves (l : Layout) (servingIsr : Bool) (dest src n : Word) (s : Mem) (Exempt : ℕ → Prop) :
    Prop :=
  ∃ s', memmove l servingIsr dest src n s = .ok (dest, s') ∧
    (∀ i < n.toNat, s'.byte (addr dest + i) = s.byte (addr src + i)) ∧
    ∀ x, ¬ InRange dest n x → ¬ Exempt x → s'.byte x = s.byte x

/-- A copy through the address zero that does no harm. -/
structure Harmless (servingIsr : Bool) (dest src n : Word) (s : Mem) (Exempt : ℕ → Prop) :
    Prop where
  /-- The ranges have the tags of their pointers, and the bytes at zero none; while an interrupt
  is served nothing is checked. -/
  tags : servingIsr = true ∨ ∀ i < n.toNat, s.tag ((addr src + i) / 16) = tagOf src ∧
    s.tag ((addr dest + i) / 16) = tagOf dest ∧ s.tag (i / 16) = 0#4
  /-- The bytes repeat with the distance from zero to the destination. -/
  bytes : ∀ i < n.toNat, s.byte (addr src + i % addr dest) = s.byte (addr src + i)
  /-- The bytes at zero are those of the source already, or may change. -/
  frame : ∀ i < n.toNat, InRange dest n i ∨ Exempt i ∨ s.byte (addr src + i) = s.byte i

/-! ## Through whatever pointer `malloc` gave -/

/-- The memory after both loops. -/
theorem byte_through (s : Mem) (d t a n x : ℕ) : ((s.copy t a n).copy d t n).byte x =
    if d ≤ x ∧ x < d + n then s.byte (a + (x - d) % (d - t) % (t - a))
    else if t ≤ x ∧ x < t + n then s.byte (a + (x - t) % (t - a)) else s.byte x := by
  rw [Mem.byte_copy, Mem.byte_copy, Mem.byte_copy]
  by_cases hin : d ≤ x ∧ x < d + n
  · have hle := Nat.mod_le (x - d) (d - t)
    rw [if_pos hin, if_pos hin, if_pos (by omega), Nat.add_sub_cancel_left]
  · rw [if_neg hin, if_neg hin]

section through
variable {l : Layout} {servingIsr : Bool} {dest src n temp : Word} {s s₁ : Mem}
  (hmalloc : malloc l servingIsr n s = .ok (temp, s₁)) (hsrc : addr src + n.toNat ≤ 2 ^ 28)
  (hdest : addr dest + n.toNat ≤ 2 ^ 28) (htemp : addr temp + n.toNat ≤ 2 ^ 28)
include hmalloc hsrc hdest htemp

/-- The call returns just if all three ranges can be accessed. -/
theorem memmove_ok_iff {s' : Mem} : memmove l servingIsr dest src n s = .ok (dest, s') ↔
    (Accessible servingIsr s₁ src n.toNat ∧ Accessible servingIsr s₁ dest n.toNat ∧
      Accessible servingIsr s₁ temp n.toNat) ∧
    s' = (s₁.copy (addr temp) (addr src) n.toNat).copy (addr dest) (addr temp) n.toNat := by
  have htag := Mem.copy_tag s₁ (addr temp) (addr src) n.toNat
  constructor
  · intro h
    rw [memmove] at h
    obtain ⟨temp', s₁', hmalloc', h⟩ := of_ok_bind h
    rw [hmalloc] at hmalloc'
    cases hmalloc'
    obtain ⟨_, s₂, hto, h⟩ := of_ok_bind h
    obtain ⟨_, s₃, hback, h⟩ := of_ok_bind h
    obtain ⟨ht, hs, rfl⟩ := (copyFrom_ok_iff htemp hsrc).mp hto
    obtain ⟨hd, -, rfl⟩ := (copyFrom_ok_iff hdest htemp).mp hback
    cases h
    exact ⟨⟨hs, hd.congr htag.symm, ht⟩, rfl⟩
  · rintro ⟨⟨hs, hd, ht⟩, rfl⟩
    rw [memmove]
    refine ok_bind hmalloc ?_
    refine ok_bind (copyFrom_eq ht hs (Nat.zero_add _)) ?_
    exact ok_bind (copyFrom_eq (hd.congr htag) (ht.congr htag) (Nat.zero_add _)) rfl

/-- The contract, read off the memory that `malloc` leaves. -/
theorem moves_iff (Exempt : ℕ → Prop) : Moves l servingIsr dest src n s Exempt ↔
    (Accessible servingIsr s₁ src n.toNat ∧ Accessible servingIsr s₁ dest n.toNat ∧
      Accessible servingIsr s₁ temp n.toNat) ∧
    (∀ i < n.toNat, s₁.byte (addr src + i % (addr dest - addr temp) % (addr temp - addr src)) =
      s.byte (addr src + i)) ∧
    ∀ x, ¬ InRange dest n x → ¬ Exempt x →
      (if InRange temp n x then s₁.byte (addr src + (x - addr temp) % (addr temp - addr src))
        else s₁.byte x) = s.byte x := by
  have hcopied : ∀ i < n.toNat,
      ((s₁.copy (addr temp) (addr src) n.toNat).copy (addr dest) (addr temp) n.toNat).byte
        (addr dest + i) =
      s₁.byte (addr src + i % (addr dest - addr temp) % (addr temp - addr src)) := by
    intro i hi
    rw [byte_through, if_pos (by omega), Nat.add_sub_cancel_left]
  have hrest : ∀ x, ¬ InRange dest n x →
      ((s₁.copy (addr temp) (addr src) n.toNat).copy (addr dest) (addr temp) n.toNat).byte x =
      if InRange temp n x then s₁.byte (addr src + (x - addr temp) % (addr temp - addr src))
        else s₁.byte x := by
    intro x hx
    rw [byte_through, if_neg hx]
  simp only [Moves, memmove_ok_iff hmalloc hsrc hdest htemp]
  constructor
  · rintro ⟨s', ⟨hacc, rfl⟩, hmoved, hframe⟩
    refine ⟨hacc, fun i hi => ?_, fun x hx hex => ?_⟩
    · rw [← hcopied i hi]
      exact hmoved i hi
    · rw [← hrest x hx]
      exact hframe x hx hex
  · rintro ⟨hacc, hmoved, hframe⟩
    refine ⟨_, ⟨hacc, rfl⟩, fun i hi => ?_, fun x hx hex => ?_⟩
    · rw [hcopied i hi]
      exact hmoved i hi
    · rw [hrest x hx]
      exact hframe x hx hex

end through

/-! ## Without a block -/

section null
variable {l : Layout} {servingIsr : Bool} {dest src n : Word} {s : Mem}

theorem addr_zero : addr 0#32 = 0 := rfl

/-- The tags that both loops check, with the null pointer between them. -/
theorem accessible_null_iff (hsrc : addr src + n.toNat ≤ 2 ^ 28)
    (hdest : addr dest + n.toNat ≤ 2 ^ 28) :
    (Accessible servingIsr s src n.toNat ∧ Accessible servingIsr s dest n.toNat ∧
      Accessible servingIsr s 0#32 n.toNat) ↔
    (servingIsr = true ∨ ∀ i < n.toNat, s.tag ((addr src + i) / 16) = tagOf src ∧
      s.tag ((addr dest + i) / 16) = tagOf dest ∧ s.tag (i / 16) = 0#4) := by
  have hzero : addr 0#32 + n.toNat ≤ 2 ^ 28 := by
    rw [addr_zero]
    omega
  cases servingIsr with
  | true => exact ⟨fun _ => .inl rfl, fun _ =>
      ⟨accessible_serving hsrc, accessible_serving hdest, accessible_serving hzero⟩⟩
  | false =>
      constructor
      · rintro ⟨hs, hd, hz⟩
        refine .inr fun i hi => ⟨by simpa using hs.tag i hi, by simpa using hd.tag i hi, ?_⟩
        have hz' := hz.tag i hi
        rw [addr_zero, Nat.zero_add] at hz'
        simpa [tagOf] using hz'
      · rintro (hno | htags)
        · exact absurd hno Bool.false_ne_true
        · refine ⟨⟨hsrc, fun i hi => .inr (htags i hi).1⟩,
            ⟨hdest, fun i hi => .inr (htags i hi).2.1⟩, ⟨hzero, fun i hi => .inr ?_⟩⟩
          rw [addr_zero, Nat.zero_add, (htags i hi).2.2]
          rfl

theorem moves_null_iff (hnull : malloc l servingIsr n s = .ok (0#32, s))
    (hsrc : addr src + n.toNat ≤ 2 ^ 28) (hdest : addr dest + n.toNat ≤ 2 ^ 28)
    (Exempt : ℕ → Prop) :
    Moves l servingIsr dest src n s Exempt ↔ Harmless servingIsr dest src n s Exempt := by
  have hzero : addr 0#32 + n.toNat ≤ 2 ^ 28 := by
    rw [addr_zero]
    omega
  rw [moves_iff hnull hsrc hdest hzero, accessible_null_iff hsrc hdest]
  simp only [addr_zero, Nat.zero_sub, Nat.sub_zero, Nat.mod_zero]
  constructor
  · rintro ⟨htags, hmoved, hframe⟩
    refine ⟨htags, hmoved, fun i hi => ?_⟩
    by_cases hin : InRange dest n i
    · exact Or.inl hin
    · by_cases hex : Exempt i
      · exact Or.inr (Or.inl hex)
      · have hbyte := hframe i hin hex
        rw [if_pos ⟨Nat.zero_le i, by rw [addr_zero]; omega⟩] at hbyte
        exact Or.inr (Or.inr hbyte)
  · rintro ⟨htags, hmoved, hframe⟩
    refine ⟨htags, hmoved, fun x hin hex => ?_⟩
    split
    next hx =>
      obtain ⟨-, hx⟩ := hx
      rw [addr_zero, Nat.zero_add] at hx
      exact ((hframe x hx).resolve_left hin).resolve_left hex
    next => rfl

end null

/-! ## With a block -/

/-- The tag that the counter has come to, and that of the system's own data. -/
def genTag (l : Layout) (s : Mem) : BitVec 4 := (s.word (addr l.secCntx + tagGen)).setWidth 4

def sysTag (l : Layout) (s : Mem) : BitVec 4 := (s.word (addr l.secCntx + secTag)).setWidth 4

/-- The block that the next request gets, behind its header. -/
def nextBlock (l : Layout) (s : Mem) : Word :=
  tagged (BitVec.ofNat 32 (nextFree l s + 16)) (succTag (sysTag l s) (genTag l s))

/-- The memory with the header and the block of the next request in place. -/
def extended (l : Layout) (s : Mem) (n : Word) : Mem :=
  grown l s (sysTag l s) (genTag l s) (nextFree l s) (addr (s.word (addr l.memInfo + tail)))
    (tagged (BitVec.ofNat 32 (nextFree l s)) (genTag l s)) (aligntonext n 4)

/-- The new header and block keep clear of the two ranges: these still have the tags of their
pointers, and the source still has its bytes. A destination in the block itself, behind its first
byte, repeats the bytes in front of it. -/
structure Clear (l : Layout) (dest src n : Word) (s : Mem) : Prop where
  source : Accessible false (extended l s n) src n.toNat
  target : Accessible false (extended l s n) dest n.toNat
  bytes : ∀ i < n.toNat,
    (extended l s n).byte (addr src + i % (addr dest - addr (nextBlock l s))) =
      s.byte (addr src + i)

/-- What a call of `malloc` with room for `n` bytes leaves as it was, and the two words that it
does not. -/
structure Answered (l : Layout) (h : Heap) (s : Mem) (n : Word) : Prop where
  malloc : malloc l false n s = .ok (nextBlock l s, extended l s n)
  block : addr (nextBlock l s) = h.stop h.count + 16
  block_tag : ∀ k, h.stop h.count + 16 ≤ 16 * k → 16 * k < h.stop h.count + 16 + roundUp n →
    (extended l s n).tag k = tagOf (nextBlock l s)
  header_tag : (extended l s n).tag (h.stop h.count / 16) ≠ tagOf (nextBlock l s)
  tag : ∀ k, 16 * k + 16 ≤ h.stop h.count ∨ h.stop h.count + roundUp n + 16 ≤ 16 * k →
    (extended l s n).tag k = s.tag k
  word : ∀ x, ¬ Control l x → x / 16 ≠ addr (h.header h.count) / 16 →
    x / 16 ≠ h.stop h.count / 16 → (extended l s n).word x = s.word x
  counter : (extended l s n).byte l.secCntx.toNat ≠ s.byte l.secCntx.toNat
  tail : (extended l s n).word (l.memInfo.toNat + tail) ≠ s.word (l.memInfo.toNat + tail)

theorem succTag_succTag_ne : ∀ sec t : BitVec 4, succTag sec (succTag sec t) ≠ t := by decide

theorem lane_zero_inj : ∀ t u : BitVec 4,
    lane (t.setWidth 32) 0 = lane (u.setWidth 32) 0 → t = u := by decide

/-- Words that differ do so in a byte. -/
theorem exists_lane_ne {w w' : Word} (h : w ≠ w') : ∃ k < 4, lane w k ≠ lane w' k := by
  by_contra hall
  push Not at hall
  refine h (BitVec.eq_of_getLsbD_eq fun i hi => ?_)
  have hbit := congrArg (fun b => b.getLsbD (i % 8)) (hall (i / 8) (by omega))
  simpa only [lane, BitVec.getLsbD_extractLsb', Nat.div_add_mod, Nat.mod_lt i (by decide : 0 < 8),
    decide_true, Bool.true_and] using hbit

section block
variable {l : Layout} {lo hi : Word} {sec : BitVec 4} {h : Heap} {s : Mem} {n : Word}
  (v : l.Valid lo hi) (inv : Inv l lo hi sec h s)
include v inv

/-- The next header and block are in the rest of the arena. -/
theorem Inv.room (hroom : needed l s n ≤ hi.toNat) : h.stop h.count % 16 = 0 ∧
    h.stop h.count + 16 + roundUp n ≤ hi.toNat ∧ hi.toNat ≤ 2 ^ 28 ∧ roundUp n % 16 = 0 ∧
    n.toNat ≤ roundUp n := by
  have hhead := inv.header_aligned v le_rfl
  have hsize := inv.rounded h.count le_rfl
  have hhi := v.hi_le
  rw [needed, inv.nextFree_eq v] at hroom
  refine ⟨?_, by omega, hhi, ?_, ?_⟩
  · rw [Heap.stop]
    omega
  · rw [roundUp]
    omega
  · rw [roundUp]
    omega

/-- The new pieces, in the words of the invariant. -/
theorem Inv.extended_eq :
    nextBlock l s = tagged (BitVec.ofNat 32 (h.stop h.count + 16))
      (succTag sec (succTag sec (h.lastTag h.count))) ∧
    extended l s n = grown l s sec (succTag sec (h.lastTag h.count)) (h.stop h.count)
      (addr (h.header h.count)) (tagged (BitVec.ofNat 32 (h.stop h.count))
        (succTag sec (h.lastTag h.count))) (aligntonext n 4) := by
  have hgen : genTag l s = succTag sec (h.lastTag h.count) := by
    rw [genTag, inv.counters.gen, setWidth_back]
  have hsys : sysTag l s = sec := by
    rw [sysTag, inv.counters.sec, setWidth_back]
  have htail := inv.tail_word
  rw [← addr_of_lt v.mem_lt] at htail
  rw [nextBlock, extended, hgen, hsys, inv.nextFree_eq v, htail]
  exact ⟨rfl, rfl⟩

theorem Inv.malloc_extended (hpos : 0 < n.toNat) (hroom : needed l s n ≤ hi.toNat) :
    (aligntonext n 4).toNat = roundUp n ∧
      malloc l false n s = .ok (nextBlock l s, extended l s n) := by
  have hn : n ≠ 0#32 := by
    rintro rfl
    exact absurd hpos (by decide)
  obtain ⟨-, hfit, hhi, hround, hle⟩ := inv.room v hroom
  have hwn : (aligntonext n 4).toNat = roundUp n := by
    rw [roundUp] at hfit
    rw [aligntonext_toNat, roundUp]
    omega
  have hnext := inv.next_location v
  have hlocation : ossecGetEssence (h.header h.count) + h.size h.count + sizeofHeader =
      BitVec.ofNat 32 (h.stop h.count) := by
    rw [← hnext, BitVec.ofNat_toNat, BitVec.setWidth_eq]
  have hblock : BitVec.ofNat 32 (h.stop h.count) + sizeofHeader =
      BitVec.ofNat 32 (h.stop h.count + 16) := (BitVec.ofNat_add _ _).symm
  obtain ⟨hp, hs⟩ := inv.extended_eq (n := n) v
  rw [needed, inv.nextFree_eq v, ← hwn] at hroom
  rw [inv.malloc_eq v hn]
  refine ⟨hwn, (inv.mallocNew_some v (by omega) (by omega) hroom).trans ?_⟩
  rw [hp, hs, hlocation, hblock]

theorem Inv.answered (hpos : 0 < n.toNat) (hroom : needed l s n ≤ hi.toNat) :
    Answered l h s n := by
  obtain ⟨hwn, hmalloc⟩ := inv.malloc_extended v hpos hroom
  obtain ⟨hal, hfit, hhi, hround, hle⟩ := inv.room v hroom
  rw [needed, inv.nextFree_eq v, ← hwn] at hroom
  obtain ⟨-, hlast, hlo, hlt, hsec, hmem, hne⟩ := inv.bounds v hroom
  obtain ⟨hp, hs⟩ := inv.extended_eq (n := n) v
  obtain ⟨-, -, htags⟩ := inv.grown_kept v hroom (succTag sec (h.lastTag h.count))
    (tagged (BitVec.ofNat 32 (h.stop h.count)) (succTag sec (h.lastTag h.count)))
  have hS : addr l.secCntx = l.secCntx.toNat := addr_of_lt v.sec_lt
  have hM : addr l.memInfo = l.memInfo.toNat := addr_of_lt v.mem_lt
  have hsa := v.sec_aligned
  have hma := v.mem_aligned
  have haddr : ∀ a < 2 ^ 28, addr (BitVec.ofNat 32 a) = a := fun a ha => by
    rw [addr_eq, BitVec.toNat_ofNat]
    omega
  constructor
  case malloc => exact hmalloc
  case block => rw [hp, addr_tagged, haddr _ (by omega)]
  case block_tag =>
    intro k h₁ h₂
    rw [hs, hp, grown_tag, tagOf_tagged, if_pos (by omega)]
  case header_tag =>
    rw [hs, hp, grown_tag, tagOf_tagged, if_neg (by omega), if_pos (by omega)]
    exact (succTag_spec _ _).2.2.symm
  case tag =>
    intro k hk
    rw [hs]
    exact htags k (by omega)
  case word =>
    intro x hcontrol hheader hnew
    have hhead := inv.header_aligned v le_rfl
    simp only [Control, not_or] at hcontrol
    rw [hs, grown_word, hS, hM, if_neg (by unfold tagGen; omega), if_neg (by unfold tail; omega),
      if_neg (by unfold nextPtr; omega), withHeader_out _ _ _ (by omega)]
  case counter =>
    have hword : l.secCntx.toNat / 4 * 4 = addr l.secCntx + tagGen := by
      rw [hS]
      unfold tagGen
      omega
    have hlane : l.secCntx.toNat % 4 = 0 := by omega
    rw [hs, Mem.byte, Mem.byte, hword, hlane, grown_word, if_pos rfl, inv.counters.gen]
    exact fun heq => succTag_succTag_ne _ _ (lane_zero_inj _ _ heq)
  case tail =>
    rw [hs, grown_word, hS, hM, if_neg (by unfold tail tagGen; omega), if_pos rfl, inv.tail_word]
    intro heq
    have hsame := congrArg addr heq
    rw [addr_tagged, haddr _ (by omega)] at hsame
    omega

end block

section answered
variable {l : Layout} {lo hi : Word} {sec : BitVec 4} {h : Heap} {s : Mem} {dest src n : Word}
  (v : l.Valid lo hi) (inv : Inv l lo hi sec h s) (hpos : 0 < n.toNat)
  (hroom : needed l s n ≤ hi.toNat)
include v inv hpos hroom

theorem Inv.block_accessible : Accessible false (extended l s n) (nextBlock l s) n.toNat := by
  have ha := inv.answered v hpos hroom
  obtain ⟨hal, hfit, hhi, hround, hle⟩ := inv.room v hroom
  have hblock := ha.block
  exact ⟨by omega, fun i hi => .inr (ha.block_tag _ (by omega) (by omega))⟩

/-- A range with one tag that begins below the block ends there: the header is in between. -/
theorem Inv.source_below (hsrc : Accessible false (extended l s n) src n.toNat) {m : ℕ}
    (hm : m < n.toNat) : m % (addr (nextBlock l s) - addr src) = m := by
  have ha := inv.answered v hpos hroom
  obtain ⟨hal, hfit, hhi, hround, hle⟩ := inv.room v hroom
  have hblock := ha.block
  rcases Nat.lt_or_ge (addr src) (addr (nextBlock l s)) with hbelow | hover
  swap
  · rw [Nat.sub_eq_zero_of_le hover, Nat.mod_zero]
  · refine Nat.mod_eq_of_lt ?_
    by_contra hcross
    -- the last byte of the header and the first of the block are in the range
    have hheader := hsrc.tag_at (x := h.stop h.count + 15) (by omega) (by omega)
    have hfirst := hsrc.tag_at (x := h.stop h.count + 16) (by omega) (by omega)
    rw [ha.block_tag _ (by omega) (by omega)] at hfirst
    rw [show (h.stop h.count + 15) / 16 = h.stop h.count / 16 by omega, ← hfirst] at hheader
    exact ha.header_tag hheader

/-- Outside of the arena only the two granules of the allocator change. -/
theorem Inv.extended_frame {x : ℕ} (hx : ¬ Arena lo hi x) :
    ¬ InRange (nextBlock l s) n x ∧
      (¬ Control l x → (extended l s n).byte x = s.byte x) := by
  have ha := inv.answered v hpos hroom
  obtain ⟨hal, hfit, hhi, hround, hle⟩ := inv.room v hroom
  have hblock := ha.block
  have hhead := inv.header_aligned v le_rfl
  have hlo := inv.lo_le (le_refl h.count)
  have hlast := h.header_le_stop h.count
  rw [Arena] at hx
  refine ⟨by simp only [InRange]; omega, fun hcontrol => ?_⟩
  have hgranule : x / 4 * 4 / 16 = x / 16 := by omega
  refine Mem.byte_congr (ha.word _ ?_ (by omega) (by omega))
  rw [Control, hgranule]
  exact hcontrol

/-- One of the bytes that `malloc` changes outside of the arena is not in the destination: the
two granules have different tags. -/
theorem Inv.extended_changes (hdest : Accessible false (extended l s n) dest n.toNat) :
    ∃ x, ¬ InRange dest n x ∧ ¬ Arena lo hi x ∧ (extended l s n).byte x ≠ s.byte x := by
  have ha := inv.answered v hpos hroom
  obtain ⟨hal, hfit, hhi, hround, hle⟩ := inv.room v hroom
  have hsa := v.sec_aligned
  have hma := v.mem_aligned
  have hsec := v.sec_out
  have hmem := v.mem_out
  have hlo := inv.lo_le (le_refl h.count)
  have hlast := h.header_le_stop h.count
  by_cases hcounter : InRange dest n l.secCntx.toNat
  swap
  · exact ⟨_, hcounter, by rw [Arena]; omega, ha.counter⟩
  obtain ⟨k, hk, hlane⟩ := exists_lane_ne ha.tail
  refine ⟨l.memInfo.toNat + tail + k, fun hin => ?_, by unfold Arena tail; omega, ?_⟩
  · have hsame := (hdest.tag_at hin.1 hin.2).trans (hdest.tag_at hcounter.1 hcounter.2).symm
    have hgranule : (l.memInfo.toNat + tail + k) / 16 = l.memInfo.toNat / 16 := by
      unfold tail
      omega
    rw [hgranule, ha.tag _ (by omega), ha.tag _ (by omega), inv.sec_tag] at hsame
    exact inv.mem_tag.2 hsame
  · have hword : (l.memInfo.toNat + tail + k) / 4 * 4 = l.memInfo.toNat + tail := by
      unfold tail
      omega
    have hk' : (l.memInfo.toNat + tail + k) % 4 = k := by
      unfold tail
      omega
    rwa [Mem.byte, Mem.byte, hword, hk']

theorem Inv.moves_block_iff (hsrc : addr src + n.toNat ≤ 2 ^ 28)
    (hdest : addr dest + n.toNat ≤ 2 ^ 28) :
    (Moves l false dest src n s (fun x => Arena lo hi x ∨ Control l x) ↔ Clear l dest src n s) ∧
      ¬ Moves l false dest src n s (Arena lo hi) := by
  have ha := inv.answered v hpos hroom
  have hblock := inv.block_accessible v hpos hroom
  have hthrough := moves_iff ha.malloc hsrc hdest hblock.inside
  have hmod : ∀ i < n.toNat, i % (addr dest - addr (nextBlock l s)) < n.toNat := fun i hi =>
    (Nat.mod_le _ _).trans_lt hi
  constructor
  · rw [hthrough]
    constructor
    · rintro ⟨⟨hs, hd, -⟩, hmoved, -⟩
      refine ⟨hs, hd, fun i hi => ?_⟩
      rw [← hmoved i hi, inv.source_below v hpos hroom hs (hmod i hi)]
    · rintro ⟨hs, hd, hbytes⟩
      refine ⟨⟨hs, hd, hblock⟩, fun i hi => ?_, fun x _ hex => ?_⟩
      · rw [inv.source_below v hpos hroom hs (hmod i hi), hbytes i hi]
      · rw [not_or] at hex
        obtain ⟨hout, hsame⟩ := inv.extended_frame v hpos hroom hex.1
        rw [if_neg hout, hsame hex.2]
  · rw [hthrough]
    rintro ⟨⟨-, hd, -⟩, -, hframe⟩
    obtain ⟨x, hin, harena, hne⟩ := inv.extended_changes v hpos hroom hd
    have hx := hframe x hin harena
    rw [if_neg (inv.extended_frame v hpos hroom harena).1] at hx
    exact hne hx

end answered

/-! ## Ranges of a program -/

/-- What the allocator keeps for itself: its two granules, the headers and the rest of the arena. -/
def Kept (l : Layout) (hi : Word) (h : Heap) (x : ℕ) : Prop :=
  Control l x ∨ (∃ i ≤ h.count, x / 16 = addr (h.header i) / 16) ∨
    h.stop h.count ≤ x ∧ x < hi.toNat

/-- A range of the program. -/
structure Object (l : Layout) (hi : Word) (h : Heap) (s : Mem) (p n : Word) : Prop
    extends Accessible false s p n.toNat where
  own : ∀ i < n.toNat, ¬ Kept l hi h (addr p + i)

section object
variable {l : Layout} {lo hi : Word} {sec : BitVec 4} {h : Heap} {s : Mem} {dest src n : Word}

/-- It lies below or behind what is left of the arena. -/
theorem Object.apart {p : Word} (ho : Object l hi h s p n) (hpos : 0 < n.toNat)
    (hstop : h.stop h.count < hi.toNat) :
    addr p + n.toNat ≤ h.stop h.count ∨ hi.toNat ≤ addr p := by
  by_contra hover
  rcases Nat.lt_or_ge (addr p) (h.stop h.count) with hlt | hge
  · refine ho.own (h.stop h.count - addr p) (by omega) (Or.inr (Or.inr ?_))
    omega
  · exact ho.own 0 hpos (Or.inr (Or.inr (by omega)))

variable (v : l.Valid lo hi) (inv : Inv l lo hi sec h s) (hpos : 0 < n.toNat)
  (hroom : needed l s n ≤ hi.toNat)
include v inv hpos hroom

/-- What the program sees of a call of `malloc` with room. -/
theorem Object.kept {p : Word} (ho : Object l hi h s p n) :
    Accessible false (extended l s n) p n.toNat ∧
      ∀ i < n.toNat, (extended l s n).byte (addr p + i) = s.byte (addr p + i) := by
  have ha := inv.answered v hpos hroom
  obtain ⟨hal, hfit, hhi, hround, -⟩ := inv.room v hroom
  have hapart := ho.apart hpos (by omega)
  refine ⟨⟨ho.inside, fun i hi => ?_⟩, fun i hi => ?_⟩
  · rw [ha.tag _ (by omega)]
    exact ho.tag i hi
  · have hown := ho.own i hi
    simp only [Kept, Control, not_or, not_exists, not_and] at hown
    obtain ⟨hcontrol, hheader, -⟩ := hown
    have hgranule : (addr p + i) / 4 * 4 / 16 = (addr p + i) / 16 := by omega
    refine Mem.byte_congr (ha.word _ ?_ ?_ (by omega))
    · simp only [Control, hgranule, not_or]
      exact hcontrol
    · rw [hgranule]
      exact hheader h.count le_rfl

/-- A new header and block keep clear of the ranges of the program. -/
theorem Object.clear (hsrc : Object l hi h s src n) (hdest : Object l hi h s dest n) :
    Clear l dest src n s := by
  obtain ⟨hs, hbytes⟩ := hsrc.kept v inv hpos hroom
  refine ⟨hs, (hdest.kept v inv hpos hroom).1, fun i hi => ?_⟩
  have hblock := (inv.answered v hpos hroom).block
  obtain ⟨hal, hfit, hhi, hround, hle⟩ := inv.room v hroom
  have hapart := hdest.apart hpos (by omega)
  -- the destination is below the block or behind its end
  have hi' : i % (addr dest - addr (nextBlock l s)) = i := by
    rcases hapart with hbelow | hbehind
    · rw [Nat.sub_eq_zero_of_le (by omega), Nat.mod_zero]
    · exact Nat.mod_eq_of_lt (by omega)
  rw [hi', hbytes i hi]

end object

/-! ## The contract of `memmove` -/

/-- There is room for a block, and `malloc` may be called. -/
def Servable (l : Layout) (hi : Word) (servingIsr : Bool) (s : Mem) (n : Word) : Prop :=
  servingIsr = false ∧ needed l s n ≤ hi.toNat

section contract
variable {l : Layout} {lo hi : Word} {s : Mem} {servingIsr : Bool} {dest src n : Word}
  (v : l.Valid lo hi)

theorem malloc_serving : malloc l true n s = .ok (0#32, s) := by
  rw [malloc]
  split <;> rfl

include v in
theorem Inv.malloc_null {sec : BitVec 4} {h : Heap} (inv : Inv l lo hi sec h s)
    (hn : n.toNat ≤ 2 ^ 28) (hfull : hi.toNat < needed l s n) :
    malloc l false n s = .ok (0#32, s) := by
  have hnext := inv.nextFree_le v
  have hsum : Unwrapped l hi s n := by
    left
    rw [needed, roundUp]
    omega
  obtain ⟨p, h', s', hok, hserved⟩ := inv.malloc_served v hsum
  cases hserved with
  | null _ => exact hok
  | block hpos hroom hsize hheader hblock hp hpush => exact absurd hroom (Nat.not_le_of_lt hfull)

theorem moves_nothing (hn : n.toNat = 0) (Exempt : ℕ → Prop) :
    Moves l servingIsr dest src n s Exempt := by
  obtain rfl : n = 0#32 := BitVec.eq_of_toNat_eq hn
  exact ⟨s, rfl, fun i hi => absurd hi (Nat.not_lt_zero i), fun x _ _ => rfl⟩

include v in
/-- For any two ranges in memory, in any heap the allocator can have left, and in any memory
at all while an interrupt is served: the destination has the bytes of the source, and nothing
changes outside of the destination, the arena and the two granules of the allocator, exactly if
there is nothing to do, `malloc` has a block that keeps clear of the ranges, or it has none and the
way through the address zero happens to do no harm. Without the two granules it is never so with a
block: the counter of the tags is in one of them, the end of the list in the other. -/
theorem memmove_moves_iff (inv : servingIsr = false → ∃ sec h, Inv l lo hi sec h s)
    (hsrc : addr src + n.toNat ≤ 2 ^ 28) (hdest : addr dest + n.toNat ≤ 2 ^ 28) :
    (Moves l servingIsr dest src n s (fun x => Arena lo hi x ∨ Control l x) ↔
      n = 0#32 ∨ Servable l hi servingIsr s n ∧ Clear l dest src n s ∨
        ¬ Servable l hi servingIsr s n ∧
          Harmless servingIsr dest src n s fun x => Arena lo hi x ∨ Control l x) ∧
    (Moves l servingIsr dest src n s (Arena lo hi) ↔
      n = 0#32 ∨ ¬ Servable l hi servingIsr s n ∧
        Harmless servingIsr dest src n s (Arena lo hi)) := by
  rcases Nat.eq_zero_or_pos n.toNat with hzero | hpos
  · have hn : n = 0#32 := BitVec.eq_of_toNat_eq hzero
    exact ⟨⟨fun _ => Or.inl hn, fun _ => moves_nothing hzero _⟩,
      ⟨fun _ => Or.inl hn, fun _ => moves_nothing hzero _⟩⟩
  have hne : n ≠ 0#32 := by
    rintro rfl
    exact absurd hpos (by decide)
  by_cases hserv : Servable l hi servingIsr s n
  · obtain ⟨rfl, hroom⟩ := id hserv
    obtain ⟨sec, h, inv⟩ := inv rfl
    obtain ⟨hclear, hnever⟩ := inv.moves_block_iff v hpos hroom hsrc hdest
    simp only [hclear, hnever, hne, hserv, not_true_eq_false, false_and, or_false, false_or,
      true_and, and_self]
  · have hnull : malloc l servingIsr n s = .ok (0#32, s) := by
      cases servingIsr with
      | true => exact malloc_serving
      | false =>
          obtain ⟨sec, h, inv⟩ := inv rfl
          refine inv.malloc_null v (by omega) (Nat.lt_of_not_le fun hroom => hserv ⟨rfl, hroom⟩)
    have hiff := moves_null_iff hnull hsrc hdest
    simp only [hiff, hne, hserv, not_false_eq_true, false_and, false_or, true_and, and_self]

end contract

/-- A memory with four bytes to be moved; the code at zero has the tag that `boot.S` gives it. -/
def filled : Mem :=
  ⟨fun a => if a = 0x3000 then 0x44332211#32 else 0#32, fun k => if k = 0 then 15#4 else 0#4⟩

/-- The small system with this memory, after its start. -/
def started : Mem :=
  match (do
    ossecInit small [0x10#32, 5#32, 5#32, 3#32]
    mallocInit small true 0x1000#32 0x2000#32 : M Unit) filled with
  | .ok (_, s) => s
  | .error _ => filled

theorem started_inv :
    ∃ sec header, Inv small 0x1000#32 0x2000#32 sec (Heap.first header) started := by
  have hinit : ossecInit small [0x10#32, 5#32, 5#32, 3#32] filled = .ok ((), _) := rfl
  obtain ⟨sec, header, s, hok, inv⟩ := init_inv small_valid hinit
  have hstarted : started = s := by
    have hboth : (do
        ossecInit small [0x10#32, 5#32, 5#32, 3#32]
        mallocInit small true 0x1000#32 0x2000#32 : M Unit) filled = .ok ((), s) :=
      ok_bind hinit (hok true)
    rw [started, hboth]
  exact ⟨sec, header, hstarted ▸ inv⟩

/-- Memory behind the arena is the program's. -/
theorem started_object {header p n : Word} (hheader : addr header = 0x1000)
    (hp : 0x2000 ≤ addr p) (hn : addr p + n.toNat ≤ 2 ^ 28)
    (htag : ∀ i < n.toNat, started.tag ((addr p + i) / 16) = tagOf p) :
    Object small 0x2000#32 (Heap.first header) started p n := by
  refine ⟨⟨hn, fun i hi => .inr (htag i hi)⟩, fun i hi => ?_⟩
  have h₁ : small.secCntx.toNat = 0x100 := rfl
  have h₂ : small.memInfo.toNat = 0x110 := rfl
  have h₃ : (0x2000#32).toNat = 0x2000 := rfl
  simp only [Kept, Control, Heap.first, hheader, h₁, h₂, h₃]
  rintro (hcontrol | ⟨j, -, hj⟩ | ⟨-, hrest⟩) <;> omega

theorem memmove_moves_overlapping : Moves small false 0x3002#32 0x3000#32 4#32 started
    fun x => Arena 0x1000#32 0x2000#32 x ∨ Control small x := by
  obtain ⟨sec, header, inv⟩ := started_inv
  have hroom : needed small started 4#32 ≤ (0x2000#32).toNat := by decide +kernel
  have hsrc := started_object (p := 0x3000#32) (n := 4#32) inv.start (by decide) (by decide)
    (by decide +kernel)
  have hdest := started_object (p := 0x3002#32) (n := 4#32) inv.start (by decide) (by decide)
    (by decide +kernel)
  exact (memmove_moves_iff small_valid (fun _ => ⟨sec, _, inv⟩) (by decide) (by decide)).1.mpr
    (.inr (.inl ⟨⟨rfl, hroom⟩, hsrc.clear small_valid inv (by decide) hroom hdest⟩))

/-- While an interrupt is served the first byte of the code is overwritten with that of the
source, its tag notwithstanding. With interrupts enabled a request that does not fit stops at the
code's tag, and the destination is not written. -/
theorem memmove_overwrites_zero :
    (∃ sec h, Inv small 0x1000#32 0x2000#32 sec h started ∧
      Object small 0x2000#32 h started 0x3000#32 4#32 ∧
      Object small 0x2000#32 h started 0x3008#32 4#32) ∧
    ((memmove small true 0x3008#32 0x3000#32 4#32 started).map fun r =>
      (r.1, r.2.byte 0x3008, r.2.byte 0)) = .ok (0x3008#32, 0x11#8, 0x11#8) ∧
    started.byte 0 = 0#8 ∧ started.tag 0 = 15#4 ∧
    ¬ Moves small true 0x3008#32 0x3000#32 4#32 started
      (fun x => Arena 0x1000#32 0x2000#32 x ∨ Control small x) ∧
    ((memmove small false 0x5000#32 0x3000#32 0x1000#32 started).map Prod.fst) =
      .error .tagMismatch := by
  obtain ⟨sec, header, inv⟩ := started_inv
  refine ⟨⟨sec, _, inv,
    started_object inv.start (by decide) (by decide) (by decide +kernel),
    started_object inv.start (by decide) (by decide) (by decide +kernel)⟩,
    by decide +kernel, by decide +kernel, by decide +kernel, ?_, by decide +kernel⟩
  rintro ⟨s', hok, -, hframe⟩
  have hbyte := hframe 0 (by decide) (by simp only [Arena, Control]; decide)
  have hwrong : ((memmove small true 0x3008#32 0x3000#32 4#32 started).map fun r =>
      r.2.byte 0) ≠ .ok (started.byte 0) := by decide +kernel
  rw [hok] at hwrong
  exact hwrong (congrArg Except.ok hbyte)

end TagSoc.Malloc
