import TagSoc.MallocRun

/-!
# Runs of the allocator

The heap after `_ossec_init` and `malloc_init`, and after any sequence of calls
from there. The row of headers and blocks is the abstract heap: `Grows` says what
a sequence of calls may do with it, and `Inv` that it is the one in memory.
-/
namespace TagSoc.Malloc
open TaggedMem

variable {servingIsr : Bool}

/-! ## One call -/

/-- The address behind the last block, as the words of the memory have it. -/
def nextFree (l : Layout) (s : Mem) : ℕ :=
  let last := s.word (addr l.memInfo + tail)
  addr last + 16 + (s.word (addr last + allocSize)).toNat

/-- A request, in whole granules. -/
def roundUp (n : Word) : ℕ := (n.toNat + 15) / 16 * 16

/-- Where the block of a request would end, with the 16 bytes of its header. -/
def needed (l : Layout) (s : Mem) (n : Word) : ℕ := nextFree l s + roundUp n + 16

/-- The end of the block is a number of 32 bits, or what is left of it is still
behind the end of the arena. -/
def Unwrapped (l : Layout) (hi : Word) (s : Mem) (n : Word) : Prop :=
  needed l s n < 2 ^ 32 ∨ hi.toNat + 2 ^ 32 < needed l s n

instance (l : Layout) (hi : Word) (s : Mem) (n : Word) : Decidable (Unwrapped l hi s n) :=
  inferInstanceAs (Decidable (_ ∨ _))

theorem aligntonext_toNat (n : Word) :
    (aligntonext n 4).toNat = (n.toNat + 15) % 2 ^ 32 / 16 * 16 := by
  have hn := n.isLt
  rw [aligntonext, alignto, BitVec.toNat_shiftLeft, BitVec.toNat_ushiftRight,
    Nat.shiftLeft_eq, Nat.shiftRight_eq_div_pow, BitVec.toNat_sub, BitVec.toNat_add]
  have h₁ : (1#32 <<< 4).toNat = 16 := by decide
  have h₂ : (1#32).toNat = 1 := by decide
  rw [h₁, h₂]
  omega

/-- Two outcomes of a call: the null pointer and the memory as it was, or one more
header and block. -/
inductive Served (l : Layout) (lo hi : Word) (sec : BitVec 4) (h : Heap) (s : Mem) (n : Word) :
    Word → Heap → Mem → Prop
  | null (hfull : n.toNat = 0 ∨ hi.toNat < needed l s n) : Served l lo hi sec h s n 0#32 h s
  | block {header p w : Word} {s' : Mem} (hpos : 0 < n.toNat) (hroom : needed l s n ≤ hi.toNat)
      (hsize : w.toNat = roundUp n) (hheader : addr header = h.stop h.count)
      (hblock : addr p = h.stop h.count + 16) (hp : p ≠ 0#32)
      (inv : Inv l lo hi sec (h.push header p w) s') :
      Served l lo hi sec h s n p (h.push header p w) s'

section call
variable {l : Layout} {lo hi : Word} {sec : BitVec 4} {h : Heap} {s : Mem}
  (v : l.Valid lo hi) (inv : Inv l lo hi sec h s)
include v inv

theorem Inv.nextFree_eq : nextFree l s = h.stop h.count := by
  have htail := inv.tail_word
  have hsize := inv.size_word h.count le_rfl
  rw [← addr_of_lt v.mem_lt] at htail
  rw [nextFree, htail, hsize]
  rfl

theorem Inv.nextFree_le : nextFree l s ≤ 2 ^ 28 + 16 := by
  have hstop := inv.stop_le
  have hhi := v.hi_le
  have hlo := v.lo_lt
  rw [inv.nextFree_eq v]
  omega

theorem Inv.mallocNew_served {n w : Word} (hpos : 0 < n.toNat) (hw : w.toNat = roundUp n)
    (hsum : needed l s n < 2 ^ 32) :
    ∃ p h' s', mallocNew l servingIsr w s = .ok (p, s') ∧ Served l lo hi sec h s n p h' s' := by
  have hneeded : needed l s n = h.stop h.count + w.toNat + 16 := by
    rw [needed, inv.nextFree_eq v, hw]
  rcases Nat.lt_or_ge hi.toNat (needed l s n) with hfull | hroom
  · refine ⟨0#32, h, s, inv.mallocNew_null v ?_, .null (Or.inr hfull)⟩
    rw [BitVec.lt_def, BitVec.toNat_add, BitVec.toNat_add, inv.next_location v, sizeofHeader,
      BitVec.toNat_ofNat]
    omega
  · have hfit : h.stop h.count + w.toNat + 16 ≤ hi.toNat := by omega
    have hmod : w.toNat % 16 = 0 := by rw [hw, roundUp]; omega
    have hwpos : 0 < w.toNat := by rw [hw, roundUp]; omega
    have hnext := inv.next_location v
    obtain ⟨-, -, -, hlt, -⟩ := inv.bounds v hfit
    have hH : addr (ossecGetEssence (h.header h.count) + h.size h.count + sizeofHeader) =
        h.stop h.count := by
      rw [addr_of_lt (by omega), hnext]
    have hP : addr (ossecGetEssence (h.header h.count) + h.size h.count + sizeofHeader +
        sizeofHeader) = h.stop h.count + 16 := by
      rw [addr_eq, BitVec.toNat_add, hnext, sizeofHeader, BitVec.toNat_ofNat]
      omega
    have hinv := inv.push v hmod hfit ((addr_tagged _ _).trans hH) ((addr_tagged _ _).trans hP)
      (tagOf_tagged _ _) ((tagOf_tagged _ _).trans (by rw [tagOf_tagged]))
    rw [tagOf_tagged] at hinv
    refine ⟨_, _, _, inv.mallocNew_some v hwpos hmod hfit, .block hpos hroom hw
      ((addr_tagged _ _).trans hH) ((addr_tagged _ _).trans hP) ?_ hinv⟩
    intro hzero
    have htag := congrArg tagOf hzero
    rw [tagOf_tagged] at htag
    exact (succTag_spec _ _).1 htag

/-- No block is ever free again. -/
theorem Inv.malloc_eq {n : Word} (hn : n ≠ 0#32) :
    malloc l false n s = mallocNew l false (aligntonext n 4) s := by
  rw [malloc, if_neg hn, if_neg Bool.false_ne_true]
  refine ok_bind (inv.findFreeBlock_eq v _) ?_
  rw [if_neg (not_not_intro rfl)]

/-- A call whose sum does not wrap round. -/
theorem Inv.malloc_served {n : Word} (hn : Unwrapped l hi s n) :
    ∃ p h' s', malloc l false n s = .ok (p, s') ∧ Served l lo hi sec h s n p h' s' := by
  have hnlt := n.isLt
  have hnext := inv.nextFree_le v
  have hround := aligntonext_toNat n
  by_cases hzero : n = 0#32
  · subst hzero
    exact ⟨0#32, h, s, rfl, .null (Or.inl rfl)⟩
  have hpos : 0 < n.toNat := Nat.pos_of_ne_zero fun heq => hzero (BitVec.eq_of_toNat_eq heq)
  rw [inv.malloc_eq v hzero]
  rcases hn with hsum | hsum
  · -- nothing wraps
    refine inv.mallocNew_served v hpos ?_ hsum
    rw [needed, roundUp] at hsum
    rw [hround, roundUp]
    omega
  · -- the sum wraps, and the rest of it is too large as well
    refine ⟨0#32, h, s, inv.mallocNew_null v ?_, .null (Or.inr (by omega))⟩
    rw [BitVec.lt_def, BitVec.toNat_add, BitVec.toNat_add, inv.next_location v,
      ← inv.nextFree_eq v, hround, sizeofHeader, BitVec.toNat_ofNat]
    rw [needed, roundUp] at hsum
    have hhi := v.hi_le
    omega

end call

/-! ## Initialisation -/

theorem and_fifteen (r : Word) : r &&& 0xf#32 = (r.setWidth 4).setWidth 32 := by
  have hmask : (0xf#32).toNat = 2 ^ 4 - 1 := by decide
  apply BitVec.eq_of_toNat_eq
  rw [BitVec.toNat_and, hmask, Nat.and_two_pow_sub_one_eq_mod, BitVec.toNat_setWidth,
    BitVec.toNat_setWidth]
  omega

/-- The number that was drawn has four bits and was accepted. -/
theorem drawUntil_ok {accept : Word → Bool} {random rest : List Word} {x : Word} {s s' : Mem}
    (h : drawUntil accept random s = .ok ((x, rest), s')) :
    s' = s ∧ ∃ t : BitVec 4, x = t.setWidth 32 ∧ accept (t.setWidth 32) = true := by
  induction random with
  | nil => cases h
  | cons r rs ih =>
      rw [drawUntil] at h
      split_ifs at h with hr
      · cases h
        exact ⟨rfl, r.setWidth 4, and_fifteen r, by rwa [← and_fifteen]⟩
      · exact ih h

/-- The counters after `_ossec_init`. -/
theorem ossecInit_ok {l : Layout} {random : List Word} {s s' : Mem}
    (hal : addr l.secCntx % 16 = 0) (h : ossecInit l random s = .ok ((), s')) :
    ∃ sec gen : BitVec 4, sec ≠ 0#4 ∧ gen ≠ 0#4 ∧ gen ≠ sec ∧ Counters l s' sec gen ∧
      s'.tag (addr l.secCntx / 16) = sec := by
  rw [ossecInit] at h
  obtain ⟨-, s₁, -, h⟩ := of_ok_bind h
  obtain ⟨-, s₂, -, h⟩ := of_ok_bind h
  obtain ⟨-, s₃, -, h⟩ := of_ok_bind h
  obtain ⟨-, s₄, -, h⟩ := of_ok_bind h
  obtain ⟨⟨x, rest⟩, s₅, hsec, h⟩ := of_ok_bind h
  obtain ⟨rfl, sec, rfl, hne⟩ := drawUntil_ok hsec
  obtain ⟨_, s₆, hstore₁, h⟩ := of_ok_bind h
  obtain ⟨⟨y, rest'⟩, s₇, hgen, h⟩ := of_ok_bind h
  obtain ⟨rfl, gen, rfl, hgood⟩ := drawUntil_ok hgen
  obtain ⟨_, s₈, hstore₂, h⟩ := of_ok_bind h
  cases hstore₁
  cases hstore₂
  cases h
  have hzero : (0#4).setWidth 32 = 0#32 := rfl
  have hsec₀ : sec ≠ 0#4 := by
    rintro rfl
    simp at hne
  have hgen₀ : gen ≠ 0#4 ∧ gen ≠ sec := by
    rw [Bool.and_eq_true, bne_iff_ne, bne_iff_ne, ← hzero, ne_eq, setWidth_eq_iff, ne_eq,
      setWidth_eq_iff] at hgood
    exact hgood
  have hg := (field_eq hal (k := tagGen) (by decide)).1
  have hs := (field_eq hal (k := secTag) (by decide)).1
  refine ⟨sec, gen, hsec₀, hgen₀.1, hgen₀.2, ⟨hal, ?_, ?_⟩, ?_⟩
  · simp only [hg, Function.update_self]
  · rw [hg, hs]
    simp [tagGen, secTag]
  · simp only [setWidth_back, Function.update_self]

/-- The words after a granule was cleared. -/
def cleared (word : ℕ → Word) (a : ℕ) : ℕ → Word :=
  Function.update (Function.update (Function.update (Function.update word
    (a + 0) 0#32) (a + 4) 0#32) (a + 8) 0#32) (a + 12) 0#32

theorem memsetZero_eq {s : Mem} {p : Word} {a : ℕ} (h : Points s p a) :
    memsetZero servingIsr p s = .ok ((), ⟨cleared s.word a, s.tag⟩) := by
  rw [memsetZero]
  refine ok_bind (h.store (by decide) 0#32) ?_
  refine ok_bind ((h.word _).store (by decide) 0#32) ?_
  refine ok_bind ((h.word _).store (by decide) 0#32) ?_
  exact (h.word _).store (by decide) 0#32

theorem cleared_out (word : ℕ → Word) {a x : ℕ} (hx : x < a ∨ a + 16 ≤ x) :
    cleared word a x = word x := by
  simp only [cleared, Function.update_apply]
  rw [if_neg (by omega), if_neg (by omega), if_neg (by omega), if_neg (by omega)]

/-- The memory before the first header gets its tag. -/
def emptied (l : Layout) (s : Mem) (sec gen : BitVec 4) (lo hi : Word) : Mem :=
  ⟨Function.update (Function.update (cleared (retag l s sec gen l.memInfo.toNat 16).word
    l.memInfo.toNat) (l.memInfo.toNat + arenaStart) lo) (l.memInfo.toNat + arenaEnd) hi,
    (retag l s sec gen l.memInfo.toNat 16).tag⟩

/-- The memory after `malloc_init`. -/
def seeded (l : Layout) (s : Mem) (sec gen : BitVec 4) (lo hi : Word) : Mem :=
  let s₁ := retag l (emptied l s sec gen lo hi) sec (succTag sec gen) lo.toNat 16
  let ptr := tagged lo (succTag sec gen)
  ⟨Function.update (Function.update (withHeader s₁.word lo.toNat 0#32)
    (l.memInfo.toNat + head) ptr) (l.memInfo.toNat + tail) ptr, s₁.tag⟩

section init
variable {l : Layout} {lo hi : Word} {sec gen : BitVec 4} {s : Mem} (v : l.Valid lo hi)
include v

/-- The three granules of the start are different ones. -/
theorem Layout.Valid.granules : l.secCntx.toNat / 16 ≠ l.memInfo.toNat / 16 ∧
    l.secCntx.toNat / 16 ≠ lo.toNat / 16 ∧ l.memInfo.toNat / 16 ≠ lo.toNat / 16 := by
  have hne : l.secCntx.toNat ≠ l.memInfo.toNat := fun heq => v.apart (BitVec.eq_of_toNat_eq heq)
  have hsec := v.sec_out
  have hmem := v.mem_out
  have hsa := v.sec_aligned
  have hma := v.mem_aligned
  have hla := v.lo_aligned
  refine ⟨by omega, by omega, by omega⟩

theorem emptied_word {x : ℕ} (hx : x / 16 ≠ l.memInfo.toNat / 16) :
    (emptied l s sec gen lo hi).word x =
      if x = l.secCntx.toNat + tagGen then (succTag sec gen).setWidth 32 else s.word x := by
  have hma := v.mem_aligned
  rw [← addr_of_lt v.sec_lt, ← setGen_word]
  refine (Function.update_of_ne (by unfold arenaEnd; omega) _ _).trans ?_
  refine (Function.update_of_ne (by unfold arenaStart; omega) _ _).trans ?_
  exact cleared_out _ (by omega)

theorem emptied_counters (hc : Counters l s sec gen) :
    Counters l (emptied l s sec gen lo hi) sec (succTag sec gen) := by
  obtain ⟨hne, -, -⟩ := v.granules
  have hS : addr l.secCntx = l.secCntx.toNat := addr_of_lt v.sec_lt
  have hsec := hc.sec
  have hsa := v.sec_aligned
  rw [hS] at hsec
  refine ⟨hc.aligned, ?_, ?_⟩
  · rw [hS, emptied_word v (by unfold tagGen; omega), if_pos rfl]
  · rw [hS, emptied_word v (by unfold secTag; omega), if_neg (by simp [tagGen, secTag]), hsec]

theorem emptied_points :
    Points (emptied l s sec gen lo hi) (tagged l.memInfo gen) l.memInfo.toNat := by
  have hp : Points (retag l s sec gen l.memInfo.toNat 16) (tagged l.memInfo gen)
      l.memInfo.toNat := points_retag (addr_of_lt v.mem_lt) v.mem_aligned
  exact hp.word _

theorem mallocInit_eq (hc : Counters l s sec gen) :
    mallocInit l servingIsr lo hi s = .ok ((), seeded l s sec gen lo hi) := by
  obtain ⟨-, -, hne⟩ := v.granules
  have hM : addr l.memInfo = l.memInfo.toNat := addr_of_lt v.mem_lt
  have hL : addr lo = lo.toNat := addr_of_lt v.lo_lt
  have hla := v.lo_aligned
  have hma := v.mem_aligned
  have hlt := v.lo_lt
  have hmt := v.mem_lt
  have hinfo : ossecProtectPtr l servingIsr l.memInfo sizeofHeader s = _ :=
    protectPtr_eq hc hma (by decide) (by rw [hM, sizeofHeader, BitVec.toNat_ofNat]; omega)
  have hhead : ossecProtectPtr l servingIsr lo sizeofHeader _ = _ :=
    protectPtr_eq (emptied_counters v hc) hla (by decide)
      (by rw [hL, sizeofHeader, BitVec.toNat_ofNat]; omega)
  rw [hM] at hinfo
  rw [hL] at hhead
  have hp : Points (retag l s sec gen l.memInfo.toNat 16) (tagged l.memInfo gen)
      l.memInfo.toNat := (emptied_points v).word _
  have hq : Points (retag l (emptied l s sec gen lo hi) sec (succTag sec gen) lo.toNat 16)
      (tagged l.memInfo gen) l.memInfo.toNat := points_kept (emptied_points v) hla (by omega)
  have hr : Points (retag l (emptied l s sec gen lo hi) sec (succTag sec gen) lo.toNat 16)
      (tagged lo (succTag sec gen)) lo.toNat := points_retag hL hla
  rw [mallocInit]
  refine ok_bind hinfo ?_
  refine ok_bind (memsetZero_eq hp) ?_
  refine ok_bind ((hp.word _).store (by decide) lo) ?_
  refine ok_bind ((hp.word _).store (by decide) hi) ?_
  refine ok_bind hhead ?_
  refine ok_bind (hr.store (by decide) 0#32) ?_
  refine ok_bind ((hr.word _).store (by decide) 0#32) ?_
  refine ok_bind ((hr.word _).store (by decide) 0#32) ?_
  refine ok_bind ((hr.word _).store (by decide) magic) ?_
  refine ok_bind ((hq.word _).store (by decide) _) ?_
  refine ((hq.word _).store (by decide) _).trans ?_
  -- `malloc` writes two of the fields in the other order
  have hswap : lo.toNat + isFree ≠ lo.toNat + nextPtr := by simp [isFree, nextPtr]
  rw [seeded, withHeader, Function.update_comm hswap]

/-- The words that `malloc_init` leaves, but for the ends of the list. -/
theorem seeded_word {x : ℕ} (hhead : x ≠ l.memInfo.toNat + head)
    (htail : x ≠ l.memInfo.toNat + tail) :
    (seeded l s sec gen lo hi).word x = withHeader (setGen (emptied l s sec gen lo hi)
      l.secCntx.toNat (succTag sec (succTag sec gen))).word lo.toNat 0#32 x := by
  rw [← addr_of_lt v.sec_lt]
  exact (Function.update_of_ne htail _ _).trans (Function.update_of_ne hhead _ _)

/-- The first header. -/
theorem seeded_header {k : ℕ} (hk : k < 16) :
    (seeded l s sec gen lo hi).word (lo.toNat + k) = withHeader (setGen (emptied l s sec gen lo hi)
      l.secCntx.toNat (succTag sec (succTag sec gen))).word lo.toNat 0#32 (lo.toNat + k) := by
  obtain ⟨-, -, hne⟩ := v.granules
  have hla := v.lo_aligned
  have hma := v.mem_aligned
  exact seeded_word v (by unfold head; omega) (by unfold tail; omega)

omit v in
theorem seeded_tag (k : ℕ) : (seeded l s sec gen lo hi).tag k =
    if lo.toNat / 16 ≤ k ∧ k < lo.toNat / 16 + 1 then succTag sec gen
    else if l.memInfo.toNat / 16 ≤ k ∧ k < l.memInfo.toNat / 16 + 1 then gen else s.tag k := rfl

theorem seeded_counters (hc : Counters l s sec gen) :
    Counters l (seeded l s sec gen lo hi) sec (succTag sec (succTag sec gen)) := by
  obtain ⟨hsm, hsl, -⟩ := v.granules
  have hemptied := (emptied_counters v hc).sec
  have hS : addr l.secCntx = l.secCntx.toNat := addr_of_lt v.sec_lt
  have hsa := v.sec_aligned
  have hma := v.mem_aligned
  have hla := v.lo_aligned
  rw [hS] at hemptied
  refine ⟨hc.aligned, ?_, ?_⟩
  · rw [hS, seeded_word v (by unfold tagGen head; omega) (by unfold tagGen tail; omega),
      withHeader_out _ _ _ (by unfold tagGen; omega), setGen_word, if_pos rfl]
  · rw [hS, seeded_word v (by unfold secTag head; omega) (by unfold secTag tail; omega),
      withHeader_out _ _ _ (by unfold secTag; omega), setGen_word,
      if_neg (by simp [tagGen, secTag]), hemptied]

theorem seeded_arenaEnd : (seeded l s sec gen lo hi).word (l.memInfo.toNat + arenaEnd) = hi := by
  obtain ⟨hsm, -, hml⟩ := v.granules
  have hsa := v.sec_aligned
  have hma := v.mem_aligned
  have hla := v.lo_aligned
  rw [seeded_word v (by simp [arenaEnd, head]) (by simp [arenaEnd, tail]),
    withHeader_out _ _ _ (by unfold arenaEnd; omega), setGen_word,
    if_neg (by unfold arenaEnd tagGen; omega)]
  simp only [emptied, Function.update_self]

end init

/-- The heap of `malloc_init`: one header without a block. -/
def Heap.first (header : Word) : Heap := ⟨0, fun _ => header, fun _ => 0#32, fun _ => 0#32⟩

theorem seeded_inv {l : Layout} {lo hi : Word} {sec gen : BitVec 4} {s : Mem}
    (v : l.Valid lo hi) (hc : Counters l s sec gen) (hsec : sec ≠ 0#4) (hgen : gen ≠ 0#4)
    (hne : gen ≠ sec) (htag : s.tag (addr l.secCntx / 16) = sec) :
    Inv l lo hi sec (Heap.first (tagged lo (succTag sec gen))) (seeded l s sec gen lo hi) := by
  obtain ⟨hsm, hsl, hml⟩ := v.granules
  obtain ⟨hf₁, hf₂, hf₃, hf₄⟩ := withHeader_fields (setGen (emptied l s sec gen lo hi)
    l.secCntx.toNat (succTag sec (succTag sec gen))).word lo.toNat 0#32
  have hL : addr (tagged lo (succTag sec gen)) = lo.toNat :=
    (addr_tagged _ _).trans (addr_of_lt v.lo_lt)
  rw [addr_of_lt v.sec_lt] at htag
  constructor
  case counters =>
    simp only [Heap.first, Heap.lastTag, if_true, tagOf_tagged]
    exact seeded_counters v hc
  case sec_tag => rw [seeded_tag, if_neg (by omega), if_neg (by omega), htag]
  case sec_ne => exact hsec
  case mem_tag =>
    rw [seeded_tag, if_neg (by omega), if_pos (by omega)]
    exact ⟨hgen, hne⟩
  case arena_end => exact seeded_arenaEnd v
  case head_word =>
    refine (Function.update_of_ne (by simp [head, tail]) _ _).trans ?_
    exact Function.update_self _ _ _
  case tail_word => exact Function.update_self _ _ _
  case start => exact hL
  case size_zero => rfl
  case place => exact fun i hi => absurd hi (Nat.not_lt_zero i)
  case rounded => exact fun i _ => rfl
  case stop_le =>
    simp only [Heap.stop, Heap.first, hL, BitVec.toNat_ofNat]
    omega
  case payload_addr => exact fun i hi hpos => absurd hi (Nat.not_le_of_lt hpos)
  case size_word =>
    intro i _
    simp only [Heap.first, hL]
    rw [seeded_header v (by decide), hf₁]
  case free_word =>
    intro i _
    simp only [Heap.first, hL]
    rw [seeded_header v (by decide), hf₂]
  case info_word =>
    intro i _
    simp only [Heap.first, hL]
    rw [seeded_header v (by decide), hf₄]
  case next_word => exact fun i hi => absurd hi (Nat.not_lt_zero i)
  case last_word =>
    simp only [Heap.first, hL]
    rw [seeded_header v (by decide), hf₃]
  case header_tag =>
    intro i _
    simp only [Heap.first, hL, tagOf_tagged]
    rw [seeded_tag, if_pos (by omega)]
  case payload_tag => exact fun i hi hpos => absurd hi (Nat.not_le_of_lt hpos)
  case first_tag =>
    simp only [Heap.first, tagOf_tagged]
    exact ⟨(succTag_spec sec gen).1, (succTag_spec sec gen).2.1⟩
  case header_succ => exact fun i hi => absurd hi (Nat.not_lt_zero i)
  case payload_succ => exact fun i hi hpos => absurd hi (Nat.not_le_of_lt hpos)

/-- The heap after both initialisations. -/
theorem init_inv {l : Layout} {lo hi : Word} {random : List Word} {s s₁ : Mem}
    (v : l.Valid lo hi) (hinit : ossecInit l random s = .ok ((), s₁)) :
    ∃ sec header s₂, (∀ servingIsr, mallocInit l servingIsr lo hi s₁ = .ok ((), s₂)) ∧
      Inv l lo hi sec (Heap.first header) s₂ := by
  have hal : addr l.secCntx % 16 = 0 := by
    rw [addr_of_lt v.sec_lt]
    exact v.sec_aligned
  obtain ⟨sec, gen, hsec, hgen, hne, hc, htag⟩ := ossecInit_ok hal hinit
  exact ⟨sec, _, _, fun _ => mallocInit_eq v hc, seeded_inv v hc hsec hgen hne htag⟩

/-! ## Sequences of calls -/

inductive Call where
  | malloc (size : Word)
  | free (ptr : Word)
deriving Repr, DecidableEq

/-- A call outside of interrupts, with what was asked for and what was answered. -/
def Call.run (l : Layout) : Call → M (List (Word × Word))
  | .malloc n => do
      let p ← Malloc.malloc l false n
      pure [(n, p)]
  | .free p => do
      Malloc.free p
      pure []

def calls (l : Layout) : List Call → M (List (Word × Word))
  | [] => pure []
  | c :: cs => do
      let answer ← c.run l
      let rest ← calls l cs
      pure (answer ++ rest)

/-- No request of a sequence wraps round in the memory that it meets. -/
def NoWrap (l : Layout) (hi : Word) : List Call → Mem → Prop
  | [], _ => True
  | .malloc n :: cs, s =>
      Unwrapped l hi s n ∧ ∀ p s', malloc l false n s = .ok (p, s') → NoWrap l hi cs s'
  | .free _ :: cs, s => NoWrap l hi cs s

/-- What a sequence of answers makes of a row of headers and blocks that ends
before `hi`. -/
inductive Grows (hi : ℕ) : Heap → List (Word × Word) → Heap → Prop
  | done (h : Heap) : Grows hi h [] h
  | null {h h' : Heap} {n : Word} {log : List (Word × Word)} (hrest : Grows hi h log h') :
      Grows hi h ((n, 0#32) :: log) h'
  | block {h h' : Heap} {n header p w : Word} {log : List (Word × Word)}
      (hsize : w.toNat = roundUp n) (hheader : addr header = h.stop h.count)
      (hblock : addr p = h.stop h.count + 16) (haligned : addr p % 16 = 0) (hp : p ≠ 0#32)
      (hroom : h.stop h.count + 16 + w.toNat ≤ hi)
      (hrest : Grows hi (h.push header p w) log h') : Grows hi h ((n, p) :: log) h'

section runs
variable {l : Layout} {lo hi : Word} {sec : BitVec 4} (v : l.Valid lo hi)
include v

/-- The memory follows the row, call by call. -/
theorem Inv.calls_grow {cs : List Call} {h : Heap} {s : Mem} (inv : Inv l lo hi sec h s)
    (hcs : NoWrap l hi cs s) : ∃ log h' s', calls l cs s = .ok (log, s') ∧
      Grows hi.toNat h log h' ∧ Inv l lo hi sec h' s' := by
  induction cs generalizing h s with
  | nil => exact ⟨[], h, s, rfl, .done h, inv⟩
  | cons c cs ih =>
      cases c with
      | free p =>
          obtain ⟨log, h', s', hrun, hgrow, hinv⟩ := ih inv hcs
          refine ⟨log, h', s', ?_, hgrow, hinv⟩
          rw [calls]
          exact ok_bind (m := Call.run l (.free p)) (a := []) rfl (ok_bind hrun rfl)
      | malloc n =>
          obtain ⟨p, h₁, s₁, hmalloc, hserved⟩ := inv.malloc_served v hcs.1
          have hone : Call.run l (.malloc n) s = .ok ([(n, p)], s₁) := ok_bind hmalloc rfl
          have hnext := hcs.2 p s₁ hmalloc
          cases hserved with
          | null hfull =>
              obtain ⟨log, h', s', hrun, hgrow, hinv⟩ := ih inv hnext
              refine ⟨(n, 0#32) :: log, h', s', ?_, .null hgrow, hinv⟩
              rw [calls]
              exact ok_bind hone (ok_bind hrun rfl)
          | @block header p w s₁ hpos hroom hsize hheader hblock hp hpush =>
              obtain ⟨log, h', s', hrun, hgrow, hinv⟩ := ih hpush hnext
              have hal := inv.header_aligned v le_rfl
              have hw := inv.rounded h.count le_rfl
              rw [needed, inv.nextFree_eq v, ← hsize] at hroom
              refine ⟨(n, p) :: log, h', s', ?_, .block hsize hheader hblock ?_ hp (by omega) hgrow,
                hinv⟩
              · rw [calls]
                exact ok_bind hone (ok_bind hrun rfl)
              · rw [hblock, Heap.stop]
                omega

/-- Requests of less than `2 ^ 31` bytes do not wrap round. -/
theorem Inv.noWrap {cs : List Call} {h : Heap} {s : Mem} (inv : Inv l lo hi sec h s)
    (hcs : ∀ n, Call.malloc n ∈ cs → n.toNat < 2 ^ 31) : NoWrap l hi cs s := by
  induction cs generalizing h s with
  | nil => trivial
  | cons c cs ih =>
      have hrest : ∀ n, Call.malloc n ∈ cs → n.toNat < 2 ^ 31 :=
        fun n hn => hcs n (List.mem_cons_of_mem c hn)
      cases c with
      | free p => exact ih inv hrest
      | malloc n =>
          have hn := hcs n List.mem_cons_self
          have hnext := inv.nextFree_le v
          have hun : Unwrapped l hi s n := by
            left
            rw [needed, roundUp]
            omega
          refine ⟨hun, fun p s' hmalloc => ?_⟩
          obtain ⟨p', h', s'', hok, hserved⟩ := inv.malloc_served v hun
          rw [hok] at hmalloc
          cases hmalloc
          cases hserved with
          | null hfull => exact ih inv hrest
          | block hpos hroom hsize hheader hblock hp hpush => exact ih hpush hrest

end runs

/-! ## Blocks -/

/-- A stretch of bytes. -/
structure Region where
  start : ℕ
  size : ℕ
deriving Repr, DecidableEq

namespace Region

def stop (r : Region) : ℕ := r.start + r.size

def Apart (r q : Region) : Prop := r.stop ≤ q.start ∨ q.stop ≤ r.start

instance (r q : Region) : Decidable (r.Apart q) := inferInstanceAs (Decidable (_ ∨ _))

end Region

/-- The headers and blocks of the answers that are not null; a block has the bytes
asked for, in whole granules. -/
def regions : List (Word × Word) → List Region
  | [] => []
  | (n, p) :: log =>
      if p = 0#32 then regions log
      else ⟨addr p - 16, 16⟩ :: ⟨addr p, roundUp n⟩ :: regions log

section grows
variable {hi : ℕ} {h h' : Heap} {log : List (Word × Word)} (hgrow : Grows hi h log h')
include hgrow

theorem Grows.aligned : ∀ a ∈ log, a.2 ≠ 0#32 → addr a.2 % 16 = 0 := by
  induction hgrow with
  | done => simp
  | null hrest ih =>
      intro a ha hne
      rcases List.mem_cons.mp ha with rfl | ha
      · exact absurd rfl hne
      · exact ih a ha hne
  | block hsize hheader hblock haligned hp hroom hrest ih =>
      intro a ha hne
      rcases List.mem_cons.mp ha with rfl | ha
      · exact haligned
      · exact ih a ha hne

/-- New headers and blocks lie behind the old ones, each behind the one before. -/
theorem Grows.regions_sorted :
    (∀ r ∈ regions log, h.stop h.count ≤ r.start ∧ r.stop ≤ hi) ∧
      (regions log).Pairwise fun r q => r.stop ≤ q.start := by
  induction hgrow with
  | done => simp [regions]
  | null hrest ih => simpa [regions] using ih
  | @block h h' n header p w log hsize hheader hblock haligned hp hroom hrest ih =>
      have hstop : (h.push header p w).stop (h.push header p w).count =
          h.stop h.count + 16 + w.toNat := by
        rw [show (h.push header p w).count = h.count + 1 from rfl, (h.push_new header p w).2.2.2.1,
          hheader]
      rw [hstop] at ih
      obtain ⟨hbounds, hsorted⟩ := ih
      rw [regions, if_neg hp, hblock, Nat.add_sub_cancel, ← hsize]
      constructor
      · intro r hr
        rcases List.mem_cons.mp hr with rfl | hr
        · exact ⟨le_rfl, by simp only [Region.stop]; omega⟩
        rcases List.mem_cons.mp hr with rfl | hr
        · simp only [Region.stop]
          omega
        · have hr' := hbounds r hr
          omega
      · rw [List.pairwise_cons, List.pairwise_cons]
        refine ⟨?_, fun q hq => ?_, hsorted⟩
        · intro q hq
          rcases List.mem_cons.mp hq with rfl | hq
          · exact le_rfl
          · have hq' := hbounds q hq
            simp only [Region.stop]
            omega
        · have hq' := hbounds q hq
          simp only [Region.stop]
          omega

/-- Old headers and blocks stay, and the answers are the new blocks. -/
theorem Grows.payloads : h.count ≤ h'.count ∧ (∀ i ≤ h.count, h'.payload i = h.payload i) ∧
    (log.map Prod.snd).filter (· ≠ 0#32) =
      (List.range' (h.count + 1) (h'.count - h.count)).map h'.payload := by
  induction hgrow with
  | done => simp
  | null hrest ih => simpa using ih
  | @block h h' n header p w log hsize hheader hblock haligned hp hroom hrest ih =>
      obtain ⟨hcount, hkept, hlog⟩ := ih
      rw [show (h.push header p w).count = h.count + 1 from rfl] at hcount hkept hlog
      have hnew : h'.payload (h.count + 1) = p := by
        rw [hkept _ le_rfl, (h.push_new header p w).2.1]
      have hlen : h'.count - h.count = h'.count - (h.count + 1) + 1 := by omega
      refine ⟨by omega, fun i hi => ?_, ?_⟩
      · rw [hkept i (by omega), (Heap.push_old hi).2.1]
      · rw [hlen, List.range'_succ, List.map_cons, List.map_cons, hnew,
          List.filter_cons_of_pos (by simpa using hp), hlog]

end grows

/-- The blocks of every sequence of calls in which no request wraps round, and what
one more call does. -/
theorem blocks_apart {l : Layout} {lo hi : Word} {random : List Word} {s s₁ : Mem}
    (v : l.Valid lo hi) (hinit : ossecInit l random s = .ok ((), s₁)) :
    ∃ s₂, (∀ servingIsr, mallocInit l servingIsr lo hi s₁ = .ok ((), s₂)) ∧
      ∀ cs, NoWrap l hi cs s₂ → ∃ log s₃, calls l cs s₂ = .ok (log, s₃) ∧
        (∀ a ∈ log, a.2 ≠ 0#32 → addr a.2 % 16 = 0) ∧
        (∀ r ∈ regions log, lo.toNat ≤ r.start ∧ r.stop ≤ hi.toNat) ∧
        ((⟨lo.toNat, 16⟩ : Region) :: regions log).Pairwise Region.Apart ∧
        ∀ n, Unwrapped l hi s₃ n → ∃ p s₄, malloc l false n s₃ = .ok (p, s₄) ∧
          (p ≠ 0#32 ↔ 0 < n.toNat ∧ needed l s₃ n ≤ hi.toNat) ∧ (p = 0#32 → s₄ = s₃) := by
  obtain ⟨sec, header, s₂, hok, inv⟩ := init_inv v hinit
  refine ⟨s₂, hok, fun cs hcs => ?_⟩
  obtain ⟨log, h, s₃, hrun, hgrow, hinv⟩ := inv.calls_grow v hcs
  obtain ⟨hbounds, hsorted⟩ := hgrow.regions_sorted
  have hstart : (Heap.first header).stop (Heap.first header).count = lo.toNat + 16 := by
    have hlo : addr header = lo.toNat := inv.start
    simp [Heap.stop, Heap.first, hlo]
  rw [hstart] at hbounds
  refine ⟨log, s₃, hrun, hgrow.aligned, fun r hr => ?_, ?_, fun n hn => ?_⟩
  · have hr' := hbounds r hr
    omega
  · rw [List.pairwise_cons]
    exact ⟨fun r hr => Or.inl (hbounds r hr).1, hsorted.imp Or.inl⟩
  · obtain ⟨p, h', s₄, hmalloc, hserved⟩ := hinv.malloc_served v hn
    refine ⟨p, s₄, hmalloc, ?_⟩
    cases hserved with
    | null hfull =>
        refine ⟨⟨fun hne => absurd rfl hne, fun hroom => ?_⟩, fun _ => rfl⟩
        omega
    | block hpos hroom hsize hheader hblock hp hpush =>
        exact ⟨⟨fun _ => ⟨hpos, hroom⟩, fun _ => hp⟩, fun hzero => absurd hzero hp⟩

/-- A small system: the two granules below an arena of 4096 bytes. -/
def small : Layout := ⟨0x100#32, 0x110#32⟩

theorem small_valid : small.Valid 0x1000#32 0x2000#32 := by
  constructor <;> decide

def blank : Mem := ⟨fun _ => 0#32, fun _ => 0#4⟩

theorem blocks_apart_small : ∃ s₁ s₂, ossecInit small [0x10#32, 5#32, 5#32, 3#32] blank =
      .ok ((), s₁) ∧
    (∀ servingIsr, mallocInit small servingIsr 0x1000#32 0x2000#32 s₁ = .ok ((), s₂)) ∧
    ∃ log s₃, calls small [.malloc 100#32, .free 0#32, .malloc 5000#32, .malloc 1#32] s₂ =
        .ok (log, s₃) ∧
      ((⟨0x1000, 16⟩ : Region) :: regions log).Pairwise Region.Apart := by
  have hinit : ossecInit small [0x10#32, 5#32, 5#32, 3#32] blank = .ok ((), _) := rfl
  obtain ⟨sec, header, s₂, hok, inv⟩ := init_inv small_valid hinit
  obtain ⟨s₂', hok', hall⟩ := blocks_apart small_valid hinit
  cases (hok true).symm.trans (hok' true)
  have hcs : NoWrap small 0x2000#32
      [.malloc 100#32, .free 0#32, .malloc 5000#32, .malloc 1#32] s₂ := by
    refine inv.noWrap small_valid fun n hn => ?_
    simp only [List.mem_cons, Call.malloc.injEq, List.not_mem_nil, or_false, reduceCtorEq,
      false_or] at hn
    obtain rfl | rfl | rfl := hn <;> decide
  obtain ⟨log, s₃, hrun, -, -, hapart, -⟩ := hall _ hcs
  exact ⟨_, s₂, hinit, hok, log, s₃, hrun, hapart⟩

/-- A request of almost `2 ^ 32` bytes is rounded to nothing and answered; the
header of the next request is put at the start of its block. -/
theorem huge_block_overlaps : ∃ log, ((do
      ossecInit small [0x10#32, 5#32, 5#32, 3#32]
      mallocInit small true 0x1000#32 0x2000#32
      calls small [.malloc 0xFFFFFFF8#32, .malloc 1#32] : M _) blank).map Prod.fst = .ok log ∧
    log = [(0xFFFFFFF8#32, 0x70001020#32), (1#32, 0x90001030#32)] ∧
    ¬ (∀ r ∈ regions log, r.stop ≤ 0x2000) ∧ ¬ (regions log).Pairwise Region.Apart := by
  refine ⟨_, ?_, rfl, by decide, by decide⟩
  decide +kernel

/-! ## Tags of the heap -/

section tagging
variable {l : Layout} {lo hi : Word} {sec : BitVec 4} {h : Heap} {s : Mem}
  (inv : Inv l lo hi sec h s)
include inv

theorem Inv.header_usable {i : ℕ} (hi : i ≤ h.count) :
    tagOf (h.header i) ≠ 0#4 ∧ tagOf (h.header i) ≠ sec := by
  cases i with
  | zero => exact inv.first_tag
  | succ i =>
      rw [inv.header_succ i hi]
      exact ⟨(succTag_spec _ _).1, (succTag_spec _ _).2.1⟩

theorem Inv.payload_usable {i : ℕ} (hi : i ≤ h.count) (hpos : 0 < i) :
    tagOf (h.payload i) ≠ 0#4 ∧ tagOf (h.payload i) ≠ sec := by
  rw [inv.payload_succ i hi hpos]
  exact ⟨(succTag_spec _ _).1, (succTag_spec _ _).2.1⟩

/-- A block has another tag than its header, and the next header another one than
what is before it. -/
theorem Inv.neighbours_differ :
    (∀ i ≤ h.count, 0 < i → tagOf (h.payload i) ≠ tagOf (h.header i)) ∧
      ∀ i < h.count, tagOf (h.header (i + 1)) ≠ h.lastTag i := by
  constructor
  · intro i hi hpos
    rw [inv.payload_succ i hi hpos]
    exact (succTag_spec _ _).2.2
  · intro i hi
    rw [inv.header_succ i hi]
    exact (succTag_spec _ _).2.2

/-- The tag of a block is found from any address in it. -/
theorem Inv.securePtr (v : l.Valid lo hi) {i : ℕ} (hi : i ≤ h.count) (hpos : 0 < i) {p : Word}
    (hfrom : addr (h.payload i) ≤ addr p) (hto : addr p < h.stop i) :
    ossecGetSecurePtr p s = .ok (tagged p (tagOf (h.payload i)), s) := by
  have hal := inv.header_aligned v hi
  have haddr := inv.payload_addr i hi hpos
  rw [getSecurePtr_eq, inv.payload_tag i hi hpos (addr p / 16) (by omega) (by omega)]

end tagging

/-- The lists, the tags and the answers after every sequence of requests that are
not larger than the arena. -/
theorem heap_tagging {l : Layout} {lo hi : Word} {random : List Word} {s s₁ : Mem}
    (v : l.Valid lo hi) (hinit : ossecInit l random s = .ok ((), s₁)) :
    ∃ s₂, (∀ servingIsr, mallocInit l servingIsr lo hi s₁ = .ok ((), s₂)) ∧ ∀ sizes : List Word,
      (∀ n ∈ sizes, 1 ≤ n.toNat ∧ n.toNat ≤ hi.toNat - lo.toNat) →
      ∃ log s₃ sec h, calls l (sizes.map .malloc) s₂ = .ok (log, s₃) ∧
        Inv l lo hi sec h s₃ ∧
        (log.map Prod.snd).filter (· ≠ 0#32) = (List.range' 1 h.count).map h.payload ∧
        (∃ s₄, ossecGenerateTag l false s₃ =
          .ok ((succTag sec (h.lastTag h.count)).setWidth 32, s₄)) ∧
        (∀ i ≤ h.count, tagOf (h.header i) ≠ 0#4 ∧ tagOf (h.header i) ≠ sec) ∧
        (∀ i ≤ h.count, 0 < i → tagOf (h.payload i) ≠ 0#4 ∧ tagOf (h.payload i) ≠ sec) ∧
        (∀ i ≤ h.count, 0 < i → tagOf (h.payload i) ≠ tagOf (h.header i)) ∧
        (∀ i < h.count, tagOf (h.header (i + 1)) ≠ h.lastTag i) ∧
        ∀ i ≤ h.count, 0 < i → ∀ p, addr (h.payload i) ≤ addr p → addr p < h.stop i →
          ossecGetSecurePtr p s₃ = .ok (tagged p (tagOf (h.payload i)), s₃) := by
  obtain ⟨sec, header, s₂, hok, inv⟩ := init_inv v hinit
  refine ⟨s₂, hok, fun sizes hsizes => ?_⟩
  have hcs : NoWrap l hi (sizes.map .malloc) s₂ := by
    refine inv.noWrap v fun n hn => ?_
    rw [List.mem_map] at hn
    obtain ⟨m, hm, heq⟩ := hn
    cases heq
    have hle := hsizes n hm
    have hhi := v.hi_le
    omega
  obtain ⟨log, h, s₃, hrun, hgrow, hinv⟩ := inv.calls_grow v hcs
  obtain ⟨-, -, hlog⟩ := hgrow.payloads
  exact ⟨log, s₃, sec, h, hrun, hinv, hlog, ⟨_, generateTag_eq hinv.counters⟩,
    fun i hi => hinv.header_usable hi, fun i hi hpos => hinv.payload_usable hi hpos,
    hinv.neighbours_differ.1, hinv.neighbours_differ.2,
    fun i hi hpos p hfrom hto => hinv.securePtr v hi hpos hfrom hto⟩

theorem heap_tagging_small : ∃ s₁ s₂, ossecInit small [0x10#32, 5#32, 5#32, 3#32] blank =
      .ok ((), s₁) ∧
    (∀ servingIsr, mallocInit small servingIsr 0x1000#32 0x2000#32 s₁ = .ok ((), s₂)) ∧
    ∃ log s₃ sec h, calls small [.malloc 100#32, .malloc 0x1000#32, .malloc 1#32] s₂ =
        .ok (log, s₃) ∧
      Inv small 0x1000#32 0x2000#32 sec h s₃ ∧
      (log.map Prod.snd).filter (· ≠ 0#32) = (List.range' 1 h.count).map h.payload := by
  have hinit : ossecInit small [0x10#32, 5#32, 5#32, 3#32] blank = .ok ((), _) := rfl
  obtain ⟨s₂, hok, hall⟩ := heap_tagging small_valid hinit
  obtain ⟨log, s₃, sec, h, hrun, hinv, hlog, -⟩ :=
    hall [100#32, 0x1000#32, 1#32] (by simp)
  exact ⟨_, s₂, hinit, hok, log, s₃, sec, h, hrun, hinv, hlog⟩

end TagSoc.Malloc
