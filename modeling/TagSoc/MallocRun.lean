import TagSoc.Malloc

/-!
# What the allocator does

One equation for each function of the library, then an invariant of the heap that
every call of `malloc` keeps. Every access of the allocator is through a pointer with the
right tag, so that it makes no difference whether interrupts are enabled.
-/
namespace TagSoc.Malloc
open TaggedMem

variable {servingIsr : Bool}

/-! ## Tags -/

/-- The tag that the counter gives after `t`. -/
def succTag (sec t : BitVec 4) : BitVec 4 :=
  if t + 1#4 ≠ 0#4 ∧ t + 1#4 ≠ sec then t + 1#4
  else if t + 2#4 ≠ 0#4 ∧ t + 2#4 ≠ sec then t + 2#4
  else t + 3#4

theorem succTag_spec : ∀ sec t : BitVec 4,
    succTag sec t ≠ 0#4 ∧ succTag sec t ≠ sec ∧ succTag sec t ≠ t := by decide

def setGen (s : Mem) (a : ℕ) (t : BitVec 4) : Mem :=
  { s with word := Function.update s.word (a + tagGen) (t.setWidth 32) }

def setTags (s : Mem) (q n : ℕ) (t : BitVec 4) : Mem :=
  { s with tag := fun k => if q ≤ k ∧ k < q + n then t else s.tag k }

/-- Of three tags in a row one can be used. -/
theorem third_tag : ∀ sec t : BitVec 4, ¬ (t + 1#4 ≠ 0#4 ∧ t + 1#4 ≠ sec) →
    ¬ (t + 2#4 ≠ 0#4 ∧ t + 2#4 ≠ sec) → t + 3#4 ≠ 0#4 ∧ t + 3#4 ≠ sec := by decide

theorem setGen_word (s : Mem) (a : ℕ) (t : BitVec 4) (x : ℕ) :
    (setGen s a t).word x = if x = a + tagGen then t.setWidth 32 else s.word x :=
  Function.update_apply _ _ _ _

@[simp] theorem setGen_tag (s : Mem) (a : ℕ) (t : BitVec 4) : (setGen s a t).tag = s.tag := rfl

@[simp] theorem setTags_word (s : Mem) (q n : ℕ) (t : BitVec 4) :
    (setTags s q n t).word = s.word := rfl

section tags
variable {s : Mem} {p : Word} {a : ℕ} {sec t : BitVec 4}

theorem setWidth_eq_iff : ∀ x y : BitVec 4, x.setWidth 32 = y.setWidth 32 ↔ x = y := by decide

theorem nextGen_eq : ∀ t : BitVec 4,
    (t.setWidth 32 + 1#32) &&& 0xf#32 = (t + 1#4).setWidth 32 := by decide

theorem skipTags_succ (h : Points s p a) (hg : s.word (a + tagGen) = t.setWidth 32)
    (hs : s.word (a + secTag) = sec.setWidth 32) (n : ℕ) :
    skipTags servingIsr p (n + 1) s =
      if t + 1#4 ≠ 0#4 ∧ t + 1#4 ≠ sec then .ok ((), setGen s a (t + 1#4))
      else skipTags servingIsr p n (setGen s a (t + 1#4)) := by
  have h' : Points (setGen s a (t + 1#4)) p a := h.word _
  have hload : load servingIsr (field p tagGen) (setGen s a (t + 1#4)) =
      .ok ((t + 1#4).setWidth 32, setGen s a (t + 1#4)) := by
    rw [h'.load (by decide), setGen_word, if_pos rfl]
  have hsec : load servingIsr (field p secTag) (setGen s a (t + 1#4)) =
      .ok (sec.setWidth 32, setGen s a (t + 1#4)) := by
    rw [h'.load (by decide), setGen_word, if_neg (by simp [tagGen, secTag]), hs]
  have hzero : (t + 1#4).setWidth 32 = 0#32 ↔ t + 1#4 = 0#4 := setWidth_eq_iff (t + 1#4) 0#4
  rw [skipTags]
  refine ok_bind (h.load (by decide)) ?_
  rw [hg, nextGen_eq]
  refine ok_bind (h.store (by decide) _) ?_
  refine ok_bind hload ?_
  by_cases hz : t + 1#4 = 0#4
  · rw [if_pos (hzero.mpr hz), if_neg (by simp [hz])]
  · rw [if_neg (mt hzero.mp hz)]
    refine ok_bind hload ?_
    refine ok_bind hsec ?_
    simp only [setWidth_eq_iff, ne_eq, hz, not_false_eq_true, true_and]
    by_cases hne : t + 1#4 = sec
    · rw [if_pos hne, if_neg (not_not_intro hne)]
    · rw [if_neg hne, if_pos hne]
      rfl

theorem setGen_setGen (s : Mem) (a : ℕ) (t u : BitVec 4) :
    setGen (setGen s a t) a u = setGen s a u := by
  simp [setGen]

/-- Two tags at most are skipped. -/
theorem skipTags_eq (h : Points s p a) (hg : s.word (a + tagGen) = t.setWidth 32)
    (hs : s.word (a + secTag) = sec.setWidth 32) :
    skipTags servingIsr p 16 s = .ok ((), setGen s a (succTag sec t)) := by
  have hnext : ∀ u, (setGen s a u).word (a + tagGen) = u.setWidth 32 := fun u => by
    rw [setGen_word, if_pos rfl]
  have hsec : ∀ u, (setGen s a u).word (a + secTag) = sec.setWidth 32 := fun u => by
    rw [setGen_word, if_neg (by simp [tagGen, secTag]), hs]
  have hpoints : ∀ u, Points (setGen s a u) p a := fun u => h.word _
  have htwo : t + 1#4 + 1#4 = t + 2#4 := by rw [BitVec.add_assoc]; rfl
  have hthree : t + 2#4 + 1#4 = t + 3#4 := by rw [BitVec.add_assoc]; rfl
  rw [skipTags_succ h hg hs, succTag]
  split_ifs with h₁ h₂
  · rfl
  · rw [skipTags_succ (hpoints _) (hnext _) (hsec _), htwo, if_pos h₂, setGen_setGen]
  · rw [skipTags_succ (hpoints _) (hnext _) (hsec _), htwo, if_neg h₂, setGen_setGen,
      skipTags_succ (hpoints _) (hnext _) (hsec _), hthree, if_pos (third_tag sec t h₁ h₂),
      setGen_setGen]

/-- The granule of the counters. -/
structure Counters (l : Layout) (s : Mem) (sec gen : BitVec 4) : Prop where
  aligned : addr l.secCntx % 16 = 0
  gen : s.word (addr l.secCntx + tagGen) = gen.setWidth 32
  sec : s.word (addr l.secCntx + secTag) = sec.setWidth 32

theorem addr_essence (p : Word) : addr (essence p) = addr p := by
  have hlt := addr_lt p
  rw [addr_eq (essence p), essence_toNat]
  exact Nat.mod_eq_of_lt hlt

theorem getProtectedPtr_eq (p : Word) :
    ossecGetProtectedPtr p s = .ok (tagged p (s.tag (addr p / 16)), s) := by
  rw [← addr_essence p]
  rfl

variable {l : Layout} {gen : BitVec 4}

theorem generateTag_eq (h : Counters l s sec gen) :
    ossecGenerateTag l servingIsr s =
      .ok (gen.setWidth 32, setGen s (addr l.secCntx) (succTag sec gen)) := by
  have hp := points_tagged (s := s) h.aligned
  rw [ossecGenerateTag]
  refine ok_bind (getProtectedPtr_eq l.secCntx) ?_
  refine ok_bind (hp.load (by decide)) ?_
  refine ok_bind (skipTags_eq hp h.gen h.sec) ?_
  rw [h.gen]
  rfl

theorem setTags_succ (s : Mem) (q n : ℕ) (t : BitVec 4) :
    setTags { s with tag := Function.update s.tag q t } (q + 1) n t = setTags s q (n + 1) t := by
  simp only [setTags, Mem.mk.injEq, true_and]
  funext k
  simp only [Function.update_apply]
  split_ifs <;> first | rfl | omega

theorem setTags_zero (s : Mem) (q : ℕ) (t : BitVec 4) : setTags s q 0 t = s := by
  simp only [setTags]
  congr 1
  funext k
  rw [if_neg (by omega)]

theorem setWidth_back : ∀ t : BitVec 4, (t.setWidth 32).setWidth 4 = t := by decide

theorem tagGranules_eq (t : BitVec 4) {p : Word} {n : ℕ} (hp : addr p % 16 = 0)
    (hn : addr p + 16 * n ≤ 2 ^ 28) :
    tagGranules (t.setWidth 32) p n s = .ok ((), setTags s (addr p / 16) n t) := by
  induction n generalizing p s with
  | zero =>
      rw [setTags_zero]
      rfl
  | succ n ih =>
      rw [tagGranules, setWidth_back]
      have htag : storeTag p t s =
        .ok ((), { s with tag := Function.update s.tag (addr p / 16) t }) := rfl
      refine ok_bind htag ?_
      rcases Nat.eq_zero_or_pos n with rfl | hpos
      · rw [← setTags_succ, setTags_zero]
        rfl
      have hnext : addr (p + 16#32) = addr p + 16 := by
        rw [addr_eq] at hn ⊢
        rw [addr_eq, BitVec.toNat_add, BitVec.toNat_ofNat]
        omega
      rw [ih (by omega) (by omega), hnext, show (addr p + 16) / 16 = addr p / 16 + 1 by omega,
        setTags_succ]

theorem umod_eq_zero {p : Word} (h : p.toNat % 16 = 0) : p % 16#32 = 0#32 := by
  apply BitVec.eq_of_toNat_eq
  rw [BitVec.toNat_umod]
  exact h

/-- The memory after the granules of `n` bytes at the address `a` were given the
tag of the counter. -/
def retag (l : Layout) (s : Mem) (sec gen : BitVec 4) (a n : ℕ) : Mem :=
  setTags (setGen s (addr l.secCntx) (succTag sec gen)) (a / 16) (n / 16) gen

theorem retag_word (l : Layout) (s : Mem) (sec gen : BitVec 4) (a n x : ℕ) :
    (retag l s sec gen a n).word x =
      if x = addr l.secCntx + tagGen then (succTag sec gen).setWidth 32 else s.word x :=
  setGen_word _ _ _ x

/-- A pointer stays valid when another granule gets a tag. -/
theorem points_kept {p : Word} {x a : ℕ} (h : Points s p x) (ha : a % 16 = 0) (hne : x ≠ a) :
    Points (retag l s sec gen a 16) p x := by
  have hx := h.aligned
  refine ⟨h.addr, hx, ?_⟩
  simp only [retag, setTags, setGen_tag]
  rw [if_neg (by omega)]
  exact h.tag

/-- The pointer that goes with the new tag. -/
theorem points_retag {p : Word} {a : ℕ} (hp : addr p = a) (ha : a % 16 = 0) :
    Points (retag l s sec gen a 16) (tagged p gen) a := by
  refine ⟨(addr_tagged _ _).trans hp, ha, ?_⟩
  rw [tagOf_tagged]
  simp [retag, setTags]

theorem protectPtr_eq (h : Counters l s sec gen) {p w : Word} (hp : p.toNat % 16 = 0)
    (hw : w.toNat % 16 = 0) (hn : addr p + w.toNat ≤ 2 ^ 28) :
    ossecProtectPtr l servingIsr p w s =
      .ok (tagged p gen, retag l s sec gen (addr p) w.toNat) := by
  have hgranules : (w / 16#32 + if w % 16#32 ≠ 0#32 then 1#32 else 0#32).toNat =
      w.toNat / 16 := by
    rw [if_neg (not_not_intro (umod_eq_zero hw)), BitVec.add_zero, BitVec.toNat_udiv]
    rfl
  have haligned : addr (essence p) % 16 = 0 := by
    rw [addr_essence, addr_eq]
    omega
  rw [ossecProtectPtr]
  refine ok_bind (generateTag_eq h) ?_
  rw [if_neg (not_not_intro (umod_eq_zero hp))]
  refine ok_bind (tagGranules_eq gen haligned ?_) ?_
  · rw [addr_essence, hgranules]
    omega
  · rw [addr_essence, hgranules]
    rfl

end tags

/-! ## The heap -/

/-- The headers and blocks in the order in which they were made; the first header,
number 0, has no block. -/
structure Heap where
  count : ℕ
  header : ℕ → Word
  payload : ℕ → Word
  size : ℕ → Word

namespace Heap

/-- The address behind the block of header `i`. -/
def stop (h : Heap) (i : ℕ) : ℕ := addr (h.header i) + 16 + (h.size i).toNat

theorem header_le_stop (h : Heap) (i : ℕ) : addr (h.header i) + 16 ≤ h.stop i :=
  Nat.le_add_right _ _

/-- The tag that was given last to header `i` and its block. -/
def lastTag (h : Heap) (i : ℕ) : BitVec 4 :=
  if i = 0 then tagOf (h.header 0) else tagOf (h.payload i)

/-- One more header and block. -/
def push (h : Heap) (header payload size : Word) : Heap where
  count := h.count + 1
  header := Function.update h.header (h.count + 1) header
  payload := Function.update h.payload (h.count + 1) payload
  size := Function.update h.size (h.count + 1) size

end Heap

/-- An aligned arena below `2 ^ 28`; the two granules of the system are not in it
and not in the first header, which is written whatever the size of the arena. -/
structure Layout.Valid (l : Layout) (lo hi : Word) : Prop where
  sec_aligned : l.secCntx.toNat % 16 = 0
  mem_aligned : l.memInfo.toNat % 16 = 0
  lo_aligned : lo.toNat % 16 = 0
  hi_aligned : hi.toNat % 16 = 0
  sec_lt : l.secCntx.toNat < 2 ^ 28
  mem_lt : l.memInfo.toNat < 2 ^ 28
  lo_lt : lo.toNat < 2 ^ 28
  hi_le : hi.toNat ≤ 2 ^ 28
  apart : l.secCntx ≠ l.memInfo
  sec_out : l.secCntx.toNat + 16 ≤ lo.toNat ∨ max hi.toNat (lo.toNat + 16) ≤ l.secCntx.toNat
  mem_out : l.memInfo.toNat + 16 ≤ lo.toNat ∨ max hi.toNat (lo.toNat + 16) ≤ l.memInfo.toNat

/-- The heap in memory. -/
structure Inv (l : Layout) (lo hi : Word) (sec : BitVec 4) (h : Heap) (s : Mem) : Prop where
  counters : Counters l s sec (succTag sec (h.lastTag h.count))
  sec_tag : s.tag (l.secCntx.toNat / 16) = sec
  sec_ne : sec ≠ 0#4
  mem_tag : s.tag (l.memInfo.toNat / 16) ≠ 0#4 ∧ s.tag (l.memInfo.toNat / 16) ≠ sec
  arena_end : s.word (l.memInfo.toNat + arenaEnd) = hi
  head_word : s.word (l.memInfo.toNat + head) = h.header 0
  tail_word : s.word (l.memInfo.toNat + tail) = h.header h.count
  start : addr (h.header 0) = lo.toNat
  size_zero : h.size 0 = 0#32
  place : ∀ i < h.count, addr (h.header (i + 1)) = h.stop i
  rounded : ∀ i ≤ h.count, (h.size i).toNat % 16 = 0
  stop_le : h.stop h.count ≤ max hi.toNat (lo.toNat + 16)
  payload_addr : ∀ i ≤ h.count, 0 < i → addr (h.payload i) = addr (h.header i) + 16
  size_word : ∀ i ≤ h.count, s.word (addr (h.header i) + allocSize) = h.size i
  free_word : ∀ i ≤ h.count, s.word (addr (h.header i) + isFree) = 0#32
  info_word : ∀ i ≤ h.count, s.word (addr (h.header i) + info) = magic
  next_word : ∀ i < h.count, s.word (addr (h.header i) + nextPtr) = h.header (i + 1)
  last_word : s.word (addr (h.header h.count) + nextPtr) = 0#32
  header_tag : ∀ i ≤ h.count, s.tag (addr (h.header i) / 16) = tagOf (h.header i)
  payload_tag : ∀ i ≤ h.count, 0 < i → ∀ k, addr (h.payload i) ≤ 16 * k → 16 * k < h.stop i →
    s.tag k = tagOf (h.payload i)
  first_tag : tagOf (h.header 0) ≠ 0#4 ∧ tagOf (h.header 0) ≠ sec
  header_succ : ∀ i < h.count, tagOf (h.header (i + 1)) = succTag sec (h.lastTag i)
  payload_succ : ∀ i ≤ h.count, 0 < i → tagOf (h.payload i) = succTag sec (tagOf (h.header i))

section inv
variable {l : Layout} {lo hi : Word} {sec : BitVec 4} {h : Heap} {s : Mem}
  (v : l.Valid lo hi) (inv : Inv l lo hi sec h s)
include inv

/-- Headers and blocks follow each other. -/
theorem Inv.stop_le_header {i j : ℕ} (hij : i < j) (hj : j ≤ h.count) :
    h.stop i ≤ addr (h.header j) := by
  induction j, hij using Nat.le_induction with
  | base => rw [inv.place i (by omega)]
  | succ j hij ih =>
      rw [inv.place j (by omega)]
      have hlast := ih (by omega)
      have hstop := h.header_le_stop j
      omega

theorem Inv.stop_le_top {i : ℕ} (hi : i ≤ h.count) : h.stop i ≤ h.stop h.count := by
  rcases Nat.eq_or_lt_of_le hi with rfl | hlt
  · exact le_rfl
  · have hle := inv.stop_le_header hlt le_rfl
    have hstop := h.header_le_stop h.count
    omega

theorem Inv.lo_le {i : ℕ} (hi : i ≤ h.count) : lo.toNat ≤ addr (h.header i) := by
  rcases Nat.eq_zero_or_pos i with rfl | hpos
  · exact inv.start.ge
  · have hle := inv.stop_le_header hpos hi
    have hstart := inv.start
    have hstop := h.header_le_stop 0
    omega

include v in
theorem Inv.header_aligned {i : ℕ} (hi : i ≤ h.count) : addr (h.header i) % 16 = 0 := by
  induction i with
  | zero => rw [inv.start]; exact v.lo_aligned
  | succ i ih =>
      have hlast := ih (by omega)
      have hsize := inv.rounded i (by omega)
      rw [inv.place i (by omega), Heap.stop]
      omega

include v in
theorem Inv.points {i : ℕ} (hi : i ≤ h.count) : Points s (h.header i) (addr (h.header i)) :=
  ⟨rfl, inv.header_aligned v hi, inv.header_tag i hi⟩

end inv

/-! ## The steps of `malloc` -/

theorem getSecurePtr_eq (s : Mem) (p : Word) :
    ossecGetSecurePtr p s = .ok (tagged p (s.tag (addr p / 16)), s) := getProtectedPtr_eq p

/-- The fields of a header for `w` bytes at the address `a`, the last of the list. -/
def withHeader (word : ℕ → Word) (a : ℕ) (w : Word) : ℕ → Word :=
  Function.update (Function.update (Function.update (Function.update word
    (a + allocSize) w) (a + isFree) 0#32) (a + nextPtr) 0#32) (a + info) magic

section header
variable (word : ℕ → Word) (a : ℕ) (w : Word)

theorem withHeader_out {x : ℕ} (hx : x < a ∨ a + 16 ≤ x) : withHeader word a w x = word x := by
  simp only [withHeader, Function.update_apply, allocSize, isFree, nextPtr, info]
  rw [if_neg (by omega), if_neg (by omega), if_neg (by omega), if_neg (by omega)]

theorem withHeader_fields : withHeader word a w (a + allocSize) = w ∧
    withHeader word a w (a + isFree) = 0#32 ∧ withHeader word a w (a + nextPtr) = 0#32 ∧
    withHeader word a w (a + info) = magic := by
  simp [withHeader, allocSize, isFree, nextPtr, info]

end header

/-- The memory after a header for `w` bytes was made at the address `a`, linked to
the one at `b`, and its block was given a tag. -/
def grown (l : Layout) (s : Mem) (sec gen : BitVec 4) (a b : ℕ) (header w : Word) : Mem :=
  let s₁ := retag l s sec gen a 16
  let links := Function.update (Function.update (withHeader s₁.word a w) (b + nextPtr) header)
    (addr l.memInfo + tail) header
  retag l ⟨links, s₁.tag⟩ sec (succTag sec gen) (a + 16) w.toNat

section grown
variable (l : Layout) (s : Mem) (sec gen : BitVec 4) (a b : ℕ) (header w : Word)

theorem grown_tag (k : ℕ) : (grown l s sec gen a b header w).tag k =
    if (a + 16) / 16 ≤ k ∧ k < (a + 16) / 16 + w.toNat / 16 then succTag sec gen
    else if a / 16 ≤ k ∧ k < a / 16 + 1 then gen else s.tag k := rfl

theorem grown_word (x : ℕ) : (grown l s sec gen a b header w).word x =
    if x = addr l.secCntx + tagGen then (succTag sec (succTag sec gen)).setWidth 32
    else if x = addr l.memInfo + tail then header
    else if x = b + nextPtr then header
    else withHeader s.word a w x := by
  simp only [grown, retag, setTags_word, setGen, withHeader, Function.update_apply]
  split_ifs <;> rfl

end grown

section steps
variable {l : Layout} {lo hi : Word} {sec : BitVec 4} {h : Heap} {s : Mem}
  (v : l.Valid lo hi) (inv : Inv l lo hi sec h s)
include v inv

omit inv in
theorem Layout.Valid.mem_points (s : Mem) :
    Points s (tagged l.memInfo (s.tag (addr l.memInfo / 16))) l.memInfo.toNat := by
  have hp := points_tagged (s := s) (b := l.memInfo)
    (by rw [addr_of_lt v.mem_lt]; exact v.mem_aligned)
  rwa [addr_of_lt v.mem_lt] at hp ⊢

theorem Inv.load_tail :
    load servingIsr (field (tagged l.memInfo (s.tag (addr l.memInfo / 16))) tail) s =
      .ok (h.header h.count, s) := by
  rw [(v.mem_points s).load (by decide), inv.tail_word]

theorem Inv.findFreeBlock_eq (w : Word) : findFreeBlock l servingIsr w s = .ok (0#32, s) := by
  rw [findFreeBlock]
  refine ok_bind (getSecurePtr_eq s l.memInfo) ?_
  refine ok_bind (inv.load_tail v) ?_
  refine ok_bind ((inv.points v le_rfl).load (by decide)) ?_
  rw [inv.free_word _ le_rfl, if_pos rfl]
  rfl

/-- Where the next header would go, as `malloc` computes it. -/
theorem Inv.next_location :
    (ossecGetEssence (h.header h.count) + h.size h.count + sizeofHeader).toNat =
      h.stop h.count := by
  have hstop := inv.stop_le
  have hhi := v.hi_le
  have hlo := v.lo_lt
  rw [Heap.stop] at hstop ⊢
  rw [BitVec.toNat_add, BitVec.toNat_add, ossecGetEssence, essence_toNat, sizeofHeader,
    BitVec.toNat_ofNat]
  omega

theorem Inv.mallocNew_null {w : Word} (hoom : hi < ossecGetEssence (h.header h.count) +
    h.size h.count + sizeofHeader + w + sizeofHeader) :
    mallocNew l servingIsr w s = .ok (0#32, s) := by
  rw [mallocNew]
  refine ok_bind (getSecurePtr_eq s l.memInfo) ?_
  refine ok_bind (inv.load_tail v) ?_
  refine ok_bind (inv.load_tail v) ?_
  refine ok_bind ((inv.points v le_rfl).load (by decide)) ?_
  refine ok_bind ((v.mem_points s).load (by decide)) ?_
  rw [inv.arena_end, inv.size_word _ le_rfl, if_pos hoom]
  rfl

/-- The numbers behind the addresses of a new header and block. -/
theorem Inv.bounds {w : ℕ} (hfit : h.stop h.count + w + 16 ≤ hi.toNat) :
    h.stop h.count % 16 = 0 ∧ addr (h.header h.count) + 16 ≤ h.stop h.count ∧
      lo.toNat ≤ addr (h.header h.count) ∧ h.stop h.count + w + 16 ≤ 2 ^ 28 ∧
      (l.secCntx.toNat + 16 ≤ lo.toNat ∨ h.stop h.count + w + 16 ≤ l.secCntx.toNat) ∧
      (l.memInfo.toNat + 16 ≤ lo.toNat ∨ h.stop h.count + w + 16 ≤ l.memInfo.toNat) ∧
      l.secCntx.toNat / 16 ≠ l.memInfo.toNat / 16 := by
  have hhead := inv.header_aligned v le_rfl
  have hsize := inv.rounded h.count le_rfl
  have hstop : h.stop h.count = addr (h.header h.count) + 16 + (h.size h.count).toNat := rfl
  have hlo := inv.lo_le le_rfl
  have hhi := v.hi_le
  have hsec := v.sec_out
  have hmem := v.mem_out
  have hne : l.secCntx.toNat ≠ l.memInfo.toNat := fun heq => v.apart (BitVec.eq_of_toNat_eq heq)
  have hsa := v.sec_aligned
  have hma := v.mem_aligned
  refine ⟨by omega, by omega, hlo, by omega, by omega, by omega, by omega⟩

/-- The memory when the new header is written, and when it is linked. -/
def headed (l : Layout) (s : Mem) (sec gen : BitVec 4) (a : ℕ) (w : Word) : Mem :=
  ⟨withHeader (retag l s sec gen a 16).word a w, (retag l s sec gen a 16).tag⟩

section header
variable {w : Word} (hfit : h.stop h.count + w.toNat + 16 ≤ hi.toNat) (gen : BitVec 4)
include hfit

/-- The last header is still found. -/
theorem Inv.load_tail_headed :
    load servingIsr (field (tagged l.memInfo (s.tag (addr l.memInfo / 16))) tail)
        (headed l s sec gen (h.stop h.count) w) =
      .ok (h.header h.count, headed l s sec gen (h.stop h.count) w) := by
  obtain ⟨hal, hlast, hlo, hlt, hsec, hmem, hne⟩ := inv.bounds v hfit
  have hS : addr l.secCntx = l.secCntx.toNat := addr_of_lt v.sec_lt
  have hsa := v.sec_aligned
  have hma := v.mem_aligned
  have hp : Points (headed l s sec gen (h.stop h.count) w)
      (tagged l.memInfo (s.tag (addr l.memInfo / 16))) l.memInfo.toNat :=
    (points_kept (v.mem_points s) hal (by omega)).word _
  have htail : (headed l s sec gen (h.stop h.count) w).word (l.memInfo.toNat + tail) =
      h.header h.count := by
    simp only [headed]
    rw [withHeader_out _ _ _ (by unfold tail; omega), retag_word, hS,
      if_neg (by unfold tail tagGen; omega), inv.tail_word]
  rw [hp.load (by decide), htail]

/-- The counters are those of the next tag. -/
theorem Inv.counters_linked (p : Word) :
    Counters l ⟨Function.update (Function.update (headed l s sec gen (h.stop h.count) w).word
      (addr (h.header h.count) + nextPtr) p) (l.memInfo.toNat + tail) p,
      (headed l s sec gen (h.stop h.count) w).tag⟩ sec (succTag sec gen) := by
  obtain ⟨hal, hlast, hlo, hlt, hsec, hmem, hne⟩ := inv.bounds v hfit
  have hS : addr l.secCntx = l.secCntx.toNat := addr_of_lt v.sec_lt
  have hsa := v.sec_aligned
  have hma := v.mem_aligned
  have hout : ∀ x, l.secCntx.toNat ≤ x → x < l.secCntx.toNat + 16 →
      Function.update (Function.update (headed l s sec gen (h.stop h.count) w).word
        (addr (h.header h.count) + nextPtr) p) (l.memInfo.toNat + tail) p x =
        if x = l.secCntx.toNat + tagGen then (succTag sec gen).setWidth 32 else s.word x := by
    intro x h₁ h₂
    simp only [headed]
    rw [Function.update_of_ne (by unfold tail; omega),
      Function.update_of_ne (by unfold nextPtr; omega), withHeader_out _ _ _ (by omega),
      retag_word, hS]
  refine ⟨inv.counters.aligned, ?_, ?_⟩
  · rw [hS]
    exact (hout _ (by simp [tagGen]) (by simp [tagGen])).trans (if_pos rfl)
  · have hsecw := inv.counters.sec
    rw [hS] at hsecw ⊢
    refine (hout _ (by simp [secTag]) (by simp [secTag])).trans ?_
    rw [if_neg (by simp [tagGen, secTag]), hsecw]

end header

theorem Inv.mallocNew_some {w : Word} (hpos : 0 < w.toNat) (hw : w.toNat % 16 = 0)
    (hfit : h.stop h.count + w.toNat + 16 ≤ hi.toNat) :
    let next := ossecGetEssence (h.header h.count) + h.size h.count + sizeofHeader
    let gen := succTag sec (h.lastTag h.count)
    mallocNew l servingIsr w s = .ok (tagged (next + sizeofHeader) (succTag sec gen),
      grown l s sec gen (h.stop h.count) (addr (h.header h.count)) (tagged next gen) w) := by
  intro next gen
  have hnext : next.toNat = h.stop h.count := inv.next_location v
  obtain ⟨hal, hlast, hlo, hlt, hsec, hmem, hne⟩ := inv.bounds v hfit
  have haddr : addr next = h.stop h.count := by rw [addr_of_lt (by omega), hnext]
  have hma := v.mem_aligned
  have hnext' : (next + sizeofHeader).toNat = h.stop h.count + 16 := by
    rw [BitVec.toNat_add, hnext, sizeofHeader, BitVec.toNat_ofNat]
    omega
  have haddr' : addr (next + sizeofHeader) = h.stop h.count + 16 := by
    rw [addr_of_lt (by omega), hnext']
  -- the two granules that get a tag, and the pointers between them
  have hheader : ossecProtectPtr l servingIsr next sizeofHeader s = _ :=
    protectPtr_eq inv.counters (by omega) (by decide)
      (by rw [haddr, sizeofHeader, BitVec.toNat_ofNat]; omega)
  have hblock : ossecProtectPtr l servingIsr (next + sizeofHeader) w _ = _ :=
    protectPtr_eq (inv.counters_linked v hfit gen (tagged next gen)) (by omega) hw
      (by rw [haddr']; omega)
  rw [haddr] at hheader
  rw [haddr'] at hblock
  have hpT := inv.points v le_rfl
  have hp : Points (retag l s sec gen (h.stop h.count) 16) (tagged next gen) (h.stop h.count) :=
    points_retag haddr hal
  have hpl : Points (retag l s sec gen (h.stop h.count) 16) (h.header h.count)
      (addr (h.header h.count)) := points_kept hpT hal (by omega)
  have hpq : Points (retag l s sec gen (h.stop h.count) 16)
      (tagged l.memInfo (s.tag (addr l.memInfo / 16))) l.memInfo.toNat :=
    points_kept (v.mem_points s) hal (by omega)
  rw [mallocNew]
  refine ok_bind (getSecurePtr_eq s l.memInfo) ?_
  refine ok_bind (inv.load_tail v) ?_
  refine ok_bind (inv.load_tail v) ?_
  refine ok_bind (hpT.load (by decide)) ?_
  refine ok_bind ((v.mem_points s).load (by decide)) ?_
  rw [inv.arena_end, inv.size_word _ le_rfl, if_neg ?_]
  swap
  · rw [BitVec.lt_def, BitVec.toNat_add, BitVec.toNat_add, hnext, sizeofHeader, BitVec.toNat_ofNat]
    omega
  refine ok_bind hheader ?_
  refine ok_bind (hp.store (by decide) w) ?_
  refine ok_bind ((hp.word _).store (by decide) 0#32) ?_
  refine ok_bind ((hp.word _).store (by decide) 0#32) ?_
  refine ok_bind ((hp.word _).store (by decide) magic) ?_
  refine ok_bind (inv.load_tail_headed v hfit gen) ?_
  refine ok_bind ((hpl.word _).store (by decide) (tagged next gen)) ?_
  refine ok_bind ((hpq.word _).store (by decide) (tagged next gen)) ?_
  refine hblock.trans ?_
  rw [grown, addr_of_lt v.mem_lt, headed]

/-- What a new header and block leave alone, word by word and tag by tag. -/
theorem Inv.grown_kept {w : Word} (hfit : h.stop h.count + w.toNat + 16 ≤ hi.toNat)
    (gen : BitVec 4) (header : Word) :
    (∀ x, lo.toNat ≤ x → x < h.stop h.count → x ≠ addr (h.header h.count) + nextPtr →
      (grown l s sec gen (h.stop h.count) (addr (h.header h.count)) header w).word x = s.word x) ∧
    (∀ x, l.memInfo.toNat ≤ x → x < l.memInfo.toNat + 12 →
      (grown l s sec gen (h.stop h.count) (addr (h.header h.count)) header w).word x = s.word x) ∧
    (∀ k, 16 * k + 16 ≤ h.stop h.count ∨ h.stop h.count + w.toNat + 16 ≤ 16 * k →
      (grown l s sec gen (h.stop h.count) (addr (h.header h.count)) header w).tag k = s.tag k) := by
  obtain ⟨hal, hlast, hlo, hlt, hsec, hmem, hne⟩ := inv.bounds v hfit
  have hS : addr l.secCntx = l.secCntx.toNat := addr_of_lt v.sec_lt
  have hM : addr l.memInfo = l.memInfo.toNat := addr_of_lt v.mem_lt
  have hsa := v.sec_aligned
  have hma := v.mem_aligned
  refine ⟨fun x h₁ h₂ h₃ => ?_, fun x h₁ h₂ => ?_, fun k hk => ?_⟩
  · rw [grown_word, hS, hM, if_neg (by unfold tagGen; omega), if_neg (by unfold tail; omega),
      if_neg h₃, withHeader_out _ _ _ (by omega)]
  · rw [grown_word, hS, hM, if_neg (by unfold tagGen; omega), if_neg (by unfold tail; omega),
      if_neg (by unfold nextPtr; omega), withHeader_out _ _ _ (by omega)]
  · rw [grown_tag, if_neg (by omega), if_neg (by omega)]

end steps

theorem Heap.push_old {h : Heap} {header payload size : Word} {i : ℕ} (hi : i ≤ h.count) :
    (h.push header payload size).header i = h.header i ∧
      (h.push header payload size).payload i = h.payload i ∧
      (h.push header payload size).size i = h.size i ∧
      (h.push header payload size).stop i = h.stop i ∧
      (h.push header payload size).lastTag i = h.lastTag i := by
  have hne : i ≠ h.count + 1 := by omega
  simp [Heap.push, Heap.stop, Heap.lastTag, Function.update_of_ne hne]

theorem Heap.push_new (h : Heap) (header payload size : Word) :
    (h.push header payload size).header (h.count + 1) = header ∧
      (h.push header payload size).payload (h.count + 1) = payload ∧
      (h.push header payload size).size (h.count + 1) = size ∧
      (h.push header payload size).stop (h.count + 1) = addr header + 16 + size.toNat ∧
      (h.push header payload size).lastTag (h.count + 1) = tagOf payload := by
  simp [Heap.push, Heap.stop, Heap.lastTag]

section push
variable {l : Layout} {lo hi : Word} {sec : BitVec 4} {h : Heap} {s : Mem}
  (v : l.Valid lo hi) (inv : Inv l lo hi sec h s) {w : Word}
  (hfit : h.stop h.count + w.toNat + 16 ≤ hi.toNat) (gen : BitVec 4) (header : Word)
include v inv hfit

/-- The fields of the old headers; only the last one gets a successor. -/
theorem Inv.grown_field {i k : ℕ} (hi : i ≤ h.count) (hk : k < 16)
    (hlast : i = h.count → k ≠ nextPtr) :
    (grown l s sec gen (h.stop h.count) (addr (h.header h.count)) header w).word
      (addr (h.header i) + k) = s.word (addr (h.header i) + k) := by
  have hlo := inv.lo_le hi
  have hstop := h.header_le_stop i
  have htop := inv.stop_le_top hi
  refine (inv.grown_kept v hfit gen header).1 _ (by omega) (by omega) ?_
  rcases Nat.eq_or_lt_of_le hi with rfl | hlt
  · have hne := hlast rfl
    omega
  · have hle := inv.stop_le_header hlt le_rfl
    unfold nextPtr
    omega

/-- The fields of the new header. -/
theorem Inv.grown_new {k : ℕ} (hk : k < 16) :
    (grown l s sec gen (h.stop h.count) (addr (h.header h.count)) header w).word
      (h.stop h.count + k) = withHeader s.word (h.stop h.count) w (h.stop h.count + k) := by
  obtain ⟨hal, hlast, hlo, hlt, hsec, hmem, hne⟩ := inv.bounds v hfit
  have hS : addr l.secCntx = l.secCntx.toNat := addr_of_lt v.sec_lt
  have hM : addr l.memInfo = l.memInfo.toNat := addr_of_lt v.mem_lt
  rw [grown_word, hS, hM, if_neg (by unfold tagGen; omega), if_neg (by unfold tail; omega),
    if_neg (by unfold nextPtr; omega)]

/-- A field that all headers have is right in the old ones and in the new one. -/
theorem Inv.push_word {payload : Word} {k : ℕ} {f f' : ℕ → Word} (hk : k < 16)
    (hnext : k ≠ nextPtr) (hH : addr header = h.stop h.count)
    (hold : ∀ i ≤ h.count, s.word (addr (h.header i) + k) = f i)
    (hsame : ∀ i ≤ h.count, f' i = f i)
    (hnew : withHeader s.word (h.stop h.count) w (h.stop h.count + k) = f' (h.count + 1)) :
    ∀ i ≤ (h.push header payload w).count,
      (grown l s sec gen (h.stop h.count) (addr (h.header h.count)) header w).word
        (addr ((h.push header payload w).header i) + k) = f' i := by
  intro i hi
  rcases Nat.of_le_succ hi with hi | rfl
  · rw [(Heap.push_old hi).1, inv.grown_field v hfit gen header hi hk fun _ => hnext, hold i hi,
      hsame i hi]
  · rw [(h.push_new header payload w).1, hH, inv.grown_new v hfit gen header hk, hnew]

omit hfit in
/-- The granules of the old headers and blocks. -/
theorem Inv.granule_below {i k : ℕ} (hi : i ≤ h.count) (hk : 16 * k < h.stop i) :
    16 * k + 16 ≤ h.stop h.count := by
  have halign := inv.header_aligned v hi
  have hsize := inv.rounded i hi
  have htop := inv.stop_le_top hi
  have hstop : h.stop i = addr (h.header i) + 16 + (h.size i).toNat := rfl
  omega

theorem Inv.grown_counters {t : BitVec 4} (ht : t = succTag sec gen) :
    Counters l (grown l s sec gen (h.stop h.count) (addr (h.header h.count)) header w) sec
      (succTag sec t) := by
  obtain ⟨hal, hlast, hlo, hlt, hsec, hmem, hne⟩ := inv.bounds v hfit
  have hS : addr l.secCntx = l.secCntx.toNat := addr_of_lt v.sec_lt
  have hM : addr l.memInfo = l.memInfo.toNat := addr_of_lt v.mem_lt
  have hsa := v.sec_aligned
  have hma := v.mem_aligned
  subst ht
  refine ⟨inv.counters.aligned, ?_, ?_⟩
  · rw [grown_word, if_pos rfl]
  · rw [grown_word, if_neg (by simp [tagGen, secTag]), hM, hS,
      if_neg (by unfold secTag tail; omega), if_neg (by unfold secTag nextPtr; omega),
      withHeader_out _ _ _ (by unfold secTag; omega), ← hS]
    exact inv.counters.sec

end push

/-- A new header and block keep the invariant. -/
theorem Inv.push {l : Layout} {lo hi : Word} {sec : BitVec 4} {h : Heap} {s : Mem}
    (v : l.Valid lo hi) (inv : Inv l lo hi sec h s) {header payload w : Word}
    (hw : w.toNat % 16 = 0) (hfit : h.stop h.count + w.toNat + 16 ≤ hi.toNat)
    (hH : addr header = h.stop h.count) (hP : addr payload = h.stop h.count + 16)
    (hHt : tagOf header = succTag sec (h.lastTag h.count))
    (hPt : tagOf payload = succTag sec (tagOf header)) :
    Inv l lo hi sec (h.push header payload w) (grown l s sec (tagOf header) (h.stop h.count)
      (addr (h.header h.count)) header w) := by
  obtain ⟨hal, hlast, hlo, hlt, hsec, hmem, hne⟩ := inv.bounds v hfit
  obtain ⟨-, hmemw, htags⟩ := inv.grown_kept v hfit (tagOf header) header
  obtain ⟨hn₁, hn₂, hn₃, hn₄, hn₅⟩ := h.push_new header payload w
  obtain ⟨hf₁, hf₂, hf₃, hf₄⟩ := withHeader_fields s.word (h.stop h.count) w
  have hsa := v.sec_aligned
  have hma := v.mem_aligned
  have hcount : (h.push header payload w).count = h.count + 1 := rfl
  constructor
  case counters =>
    rw [hcount, hn₅]
    exact inv.grown_counters v hfit _ header hPt
  case sec_tag => exact (htags _ (by omega)).trans inv.sec_tag
  case sec_ne => exact inv.sec_ne
  case mem_tag =>
    rw [htags _ (by omega)]
    exact inv.mem_tag
  case arena_end => exact (hmemw _ (by simp) (by simp [arenaEnd])).trans inv.arena_end
  case head_word =>
    rw [(Heap.push_old (Nat.zero_le _)).1]
    exact (hmemw _ (by simp) (by simp [Malloc.head])).trans inv.head_word
  case tail_word =>
    rw [hcount, hn₁, grown_word, addr_of_lt v.sec_lt, addr_of_lt v.mem_lt,
      if_neg (by unfold tail tagGen; omega), if_pos rfl]
  case start =>
    rw [(Heap.push_old (Nat.zero_le _)).1]
    exact inv.start
  case size_zero =>
    rw [(Heap.push_old (Nat.zero_le _)).2.2.1]
    exact inv.size_zero
  case place =>
    intro i hi
    rcases Nat.lt_succ_iff_lt_or_eq.mp hi with hi | rfl
    · rw [(Heap.push_old (by omega)).1, (Heap.push_old (by omega)).2.2.2.1]
      exact inv.place i hi
    · rw [hn₁, (Heap.push_old le_rfl).2.2.2.1, hH]
  case rounded =>
    intro i hi
    rcases Nat.of_le_succ hi with hi | rfl
    · rw [(Heap.push_old hi).2.2.1]
      exact inv.rounded i hi
    · rwa [hn₃]
  case stop_le =>
    rw [hcount, hn₄, hH]
    omega
  case payload_addr =>
    intro i hi hpos
    rcases Nat.of_le_succ hi with hi | rfl
    · rw [(Heap.push_old hi).1, (Heap.push_old hi).2.1]
      exact inv.payload_addr i hi hpos
    · rw [hn₁, hn₂, hH, hP]
  case size_word =>
    exact inv.push_word v hfit _ header (by decide) (by decide) hH inv.size_word
      (fun i hi => (Heap.push_old hi).2.2.1) (hf₁.trans hn₃.symm)
  case free_word =>
    exact inv.push_word v hfit _ header (by decide) (by decide) hH inv.free_word (fun _ _ => rfl) hf₂
  case info_word =>
    exact inv.push_word v hfit _ header (by decide) (by decide) hH inv.info_word (fun _ _ => rfl) hf₄
  case next_word =>
    intro i hi
    rcases Nat.lt_succ_iff_lt_or_eq.mp hi with hi | rfl
    · rw [(Heap.push_old (by omega)).1, (Heap.push_old (by omega)).1,
        inv.grown_field v hfit _ _ hi.le (by decide) fun heq => absurd heq (by omega)]
      exact inv.next_word i hi
    · rw [(Heap.push_old le_rfl).1, hn₁, grown_word, addr_of_lt v.sec_lt, addr_of_lt v.mem_lt,
        if_neg (by unfold nextPtr tagGen; omega), if_neg (by unfold nextPtr tail; omega),
        if_pos rfl]
  case last_word => rw [hcount, hn₁, hH, inv.grown_new v hfit _ _ (by decide), hf₃]
  case header_tag =>
    intro i hi
    rcases Nat.of_le_succ hi with hi | rfl
    · have halign := inv.header_aligned v hi
      have hstop := h.header_le_stop i
      rw [(Heap.push_old hi).1, htags _ (Or.inl (inv.granule_below v hi (by omega)))]
      exact inv.header_tag i hi
    · rw [hn₁, hH, grown_tag, if_neg (by omega), if_pos (by omega)]
  case payload_tag =>
    intro i hi hpos k h₁ h₂
    rcases Nat.of_le_succ hi with hi | rfl
    · rw [(Heap.push_old hi).2.1] at h₁ ⊢
      rw [(Heap.push_old hi).2.2.2.1] at h₂
      rw [htags _ (Or.inl (inv.granule_below v hi h₂))]
      exact inv.payload_tag i hi hpos k h₁ h₂
    · rw [hn₂] at h₁ ⊢
      rw [hn₄, hH] at h₂
      rw [hPt, grown_tag, if_pos (by omega)]
  case first_tag =>
    rw [(Heap.push_old (Nat.zero_le _)).1]
    exact inv.first_tag
  case header_succ =>
    intro i hi
    rcases Nat.lt_succ_iff_lt_or_eq.mp hi with hi | rfl
    · rw [(Heap.push_old (by omega)).1, (Heap.push_old (by omega)).2.2.2.2]
      exact inv.header_succ i hi
    · rw [hn₁, (Heap.push_old le_rfl).2.2.2.2, hHt]
  case payload_succ =>
    intro i hi hpos
    rcases Nat.of_le_succ hi with hi | rfl
    · rw [(Heap.push_old hi).1, (Heap.push_old hi).2.1]
      exact inv.payload_succ i hi hpos
    · rw [hn₁, hn₂, hPt]

end TagSoc.Malloc
