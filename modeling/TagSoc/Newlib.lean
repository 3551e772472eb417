import TagSoc.Malloc
import TagSoc.TagStores

/-!
# Tags for the blocks of newlib

The wrapper that the patches put around `malloc` of newlib. The tag is in bits
26 to 29 of a pointer. Tags come from a counter of eight bits that skips zero and
15; tag memory and the pointer field have four. `_malloc_r` is not part of the
patches: what it returns is an argument.
-/
namespace TagSoc.Newlib
open TaggedArrays TagStores

variable {g : ℕ}

structure State (g : ℕ) where
  secTag : Word
  mem : Memory g

/-- The loop of `__sec_generate_tag`. -/
def secGenerateTag : ℕ → Word → Option Word
  | 0, _ => none
  | rounds + 1, secTag =>
      let secTag := (secTag + 1#32) &&& 0xff#32
      if secTag = 0#32 ∨ secTag = 15#32 then secGenerateTag rounds secTag else some secTag

/-- No two of the tags that are skipped are neighbours. -/
def maxRounds : ℕ := 2

/-- The loop of `__sec_protect_ptr`. -/
def tagGranules (tag : Word) : ℕ → Word → Memory g → Memory g
  | 0, _, m => m
  | n + 1, addressToTag, m =>
      tagGranules tag n (addressToTag + 16#32) (m.write ⟨.tag, true, addressToTag, tag⟩)

def granulesToTag (size : Word) : Word :=
  size / 16#32 + (if size % 16#32 ≠ 0#32 then 1#32 else 0#32)

def secProtectPtr (ptr size : Word) (s : State g) : Option (Word × State g) := do
  let tag ← secGenerateTag maxRounds s.secTag
  let untaggedPtr := ptr &&& ~~~(0xf#32 <<< 26)
  let mem := tagGranules tag (granulesToTag size).toNat untaggedPtr s.mem
  some (untaggedPtr ||| tag <<< 26, ⟨tag, mem⟩)

def secUntagPtr (ptr : Word) : Word := ptr &&& ((1#32 <<< 26) - 1#32)

/-- What `malloc` asks `_malloc_r` for. -/
def allocSize (nbytes : Word) : Word := Malloc.aligntonext nbytes 4

/-- `malloc`, when `_malloc_r` has returned `rawPtr`. -/
def malloc (nbytes rawPtr : Word) (s : State g) : Option (Word × State g) :=
  if rawPtr = 0#32 then some (0#32, s) else secProtectPtr rawPtr (allocSize nbytes) s

/-- What `free` passes to `_free_r`. -/
def free (aptr : Word) : Word := secUntagPtr aptr

/-! ## Pointers -/

/-- The field of the pointer. -/
def tagField (p : Word) : BitVec 4 := p.extractLsb' 26 4

/-- The mask of `__sec_protect_ptr` clears the field, the one of `__sec_untag_ptr`
the bits above the address as well. -/
theorem masks : ∀ i < 32, (~~~(0xf#32 <<< 26)).getLsbD i = decide (i < 26 ∨ 30 ≤ i) ∧
    ((1#32 <<< 26) - 1#32).getLsbD i = decide (i < 26) := by decide

section pointers
variable {raw : Word} (hraw : raw.toNat < 2 ^ 26)
include hraw

theorem getLsbD_raw {i : ℕ} (hi : 26 ≤ i) : raw.getLsbD i = false :=
  Nat.testBit_lt_two_pow (Nat.lt_of_lt_of_le hraw (Nat.pow_le_pow_right (by decide) hi))

theorem getLsbD_pointer (tag : Word) {i : ℕ} (hi : i < 32) :
    (raw ||| tag <<< 26).getLsbD i = if i < 26 then raw.getLsbD i else tag.getLsbD (i - 26) := by
  rw [BitVec.getLsbD_or, BitVec.getLsbD_shiftLeft]
  split_ifs with h
  · simp [h]
  · rw [getLsbD_raw hraw (Nat.not_lt.mp h), decide_eq_true hi, decide_eq_false h]
    rfl

theorem tagField_pointer (tag : Word) : tagField (raw ||| tag <<< 26) = tag.setWidth 4 := by
  apply BitVec.eq_of_getLsbD_eq
  intro i hi
  have hlt : ¬ 26 + i < 26 := by omega
  rw [tagField, BitVec.getLsbD_extractLsb', getLsbD_pointer hraw tag (by omega), if_neg hlt,
    BitVec.getLsbD_setWidth, Nat.add_sub_cancel_left]

theorem secUntagPtr_pointer (tag : Word) : secUntagPtr (raw ||| tag <<< 26) = raw := by
  apply BitVec.eq_of_getLsbD_eq
  intro i hi
  rw [secUntagPtr, BitVec.getLsbD_and, getLsbD_pointer hraw tag hi, (masks i hi).2]
  split_ifs with h
  · simp [h]
  · simp [h, getLsbD_raw hraw (Nat.not_lt.mp h)]

/-- Clearing the field gives the address if the tag has no more than four bits. -/
theorem clear_pointer {tag : Word} (htag : tag.toNat < 2 ^ 4) :
    (raw ||| tag <<< 26) &&& ~~~(0xf#32 <<< 26) = raw := by
  apply BitVec.eq_of_getLsbD_eq
  intro i hi
  rw [BitVec.getLsbD_and, getLsbD_pointer hraw tag hi, (masks i hi).1]
  split_ifs with h
  · simp [h]
  · rw [getLsbD_raw hraw (Nat.not_lt.mp h)]
    rcases Nat.lt_or_ge i 30 with h30 | h30
    · rw [decide_eq_false (by omega), Bool.and_false]
    · have hhigh : tag.getLsbD (i - 26) = false :=
        Nat.testBit_lt_two_pow (Nat.lt_of_lt_of_le htag (Nat.pow_le_pow_right (by decide) (by omega)))
      rw [hhigh, Bool.false_and]

theorem clear_raw : raw &&& ~~~(0xf#32 <<< 26) = raw := by
  have h := clear_pointer hraw (show (0#32).toNat < 2 ^ 4 by decide)
  rwa [BitVec.zero_shiftLeft, BitVec.or_zero] at h

end pointers

/-! ## Blocks -/

theorem tagGranules_eq (tag start : Word) (m : Memory g) (n : ℕ) :
    tagGranules tag n start m = stored 16 tag start m n := by
  -- from store `k` on, by induction on the stores that are left
  have hrest : ∀ n k, tagGranules tag n (storeAddr 16 start k) (stored 16 tag start m k) =
      stored 16 tag start m (k + n) := by
    intro n
    induction n with
    | zero => exact fun k => rfl
    | succ n ih =>
        intro k
        have hnext := ih (k + 1)
        rw [storeAddr_succ, Nat.add_right_comm] at hnext
        exact hnext
  have hzero := hrest n 0
  rwa [storeAddr_zero, Nat.zero_add] at hzero

/-- `_malloc_r` returns nothing, or a block for the size asked for. -/
def Suitable (nbytes rawPtr : Word) : Prop :=
  rawPtr ≠ 0#32 → rawPtr.toNat % 16 = 0 ∧ rawPtr.toNat < 2 ^ 26 ∧
    rawPtr.toNat + (allocSize nbytes).toNat ≤ 2 ^ 26

instance (nbytes rawPtr : Word) : Decidable (Suitable nbytes rawPtr) :=
  inferInstanceAs (Decidable (_ → _))

/-- The pointer `p` and the tags of the block of `size` bytes at `raw` agree. -/
structure InStep (raw size p : Word) (m : Memory g) : Prop where
  address : p &&& ~~~(0xf#32 <<< 26) = raw
  tags : ∀ a : Word, raw.toNat ≤ a.toNat → a.toNat < raw.toNat + size.toNat →
    m.tags (granule g a) = tagField p
  nonzero : tagField p ≠ 0#4
  notOs : tagField p ≠ 15#4
  freed : free p = raw

theorem tagGranules_block {raw size : Word} (hraw : raw.toNat % 16 = 0)
    (hsize : raw.toNat + size.toNat ≤ 2 ^ 26) (tag : Word) (m : Memory g) {a : Word}
    (h₁ : raw.toNat ≤ a.toNat) (h₂ : a.toNat < raw.toNat + size.toNat) :
    (tagGranules tag (granulesToTag size).toNat raw m).tags (granule g a) = tag.setWidth 4 := by
  have hcount : (size.toNat + 15) / 16 = (granulesToTag size).toNat := by
    have hdiv : (size / 16#32).toNat = size.toNat / 16 := BitVec.toNat_udiv
    have hmod : size % 16#32 = 0#32 ↔ size.toNat % 16 = 0 := by
      rw [← BitVec.toNat_inj, BitVec.toNat_umod]
      rfl
    rw [granulesToTag, BitVec.toNat_add, hdiv]
    by_cases h : size.toNat % 16 = 0
    · rw [if_neg (not_not.mpr (hmod.mpr h)), BitVec.toNat_ofNat]
      omega
    · rw [if_pos (mt hmod.mp h), BitVec.toNat_ofNat]
      omega
  obtain ⟨d, hd⟩ := Nat.exists_eq_add_of_le h₁
  rw [tagGranules_eq, ← hcount]
  refine stored_hit ⟨d / 16, by omega, granule_congr ?_⟩
  have hlt : raw.toNat + 16 * (d / 16) < 2 ^ 32 := by omega
  have hsame : (raw.toNat + 16 * (d / 16)) / 16 = (raw.toNat + d) / 16 := by omega
  rw [storeAddr_toNat, Nat.mod_eq_of_lt hlt, hd, hsame]

/-! ## Sequences of calls -/

/-- The tags that a call can draw from the counter in its first lap. -/
theorem secGenerateTag_first : ∀ n < 15, secGenerateTag maxRounds (BitVec.ofNat 32 n) =
    some (BitVec.ofNat 32 (if n = 14 then 16 else n + 1)) := by decide

theorem field_of_small : ∀ n < 14, (BitVec.ofNat 32 (n + 1)).toNat < 2 ^ 4 ∧
    (BitVec.ofNat 32 (n + 1)).setWidth 4 ≠ 0#4 ∧ (BitVec.ofNat 32 (n + 1)).setWidth 4 ≠ 15#4 := by
  decide

theorem malloc_block {nbytes raw : Word} (hraw : raw ≠ 0#32) (hsuit : Suitable nbytes raw)
    {s : State g} {tag : Word} (hgen : secGenerateTag maxRounds s.secTag = some tag) :
    ∃ s', malloc nbytes raw s = some (raw ||| tag <<< 26, s') ∧ s'.secTag = tag ∧
      ∀ a : Word, raw.toNat ≤ a.toNat → a.toNat < raw.toNat + (allocSize nbytes).toNat →
        s'.mem.tags (granule g a) = tag.setWidth 4 := by
  obtain ⟨haligned, hlt, hsize⟩ := hsuit hraw
  refine ⟨⟨tag, tagGranules tag (granulesToTag (allocSize nbytes)).toNat raw s.mem⟩, ?_, rfl,
    fun a h₁ h₂ => tagGranules_block haligned hsize tag s.mem h₁ h₂⟩
  rw [malloc, if_neg hraw, secProtectPtr, hgen, clear_raw hlt]
  rfl

/-- A tag of four bits other than the two reserved ones is as it should be. -/
theorem InStep.of_tag {raw size tag : Word} {m : Memory g} (hlt : raw.toNat < 2 ^ 26)
    (htag : tag.toNat < 2 ^ 4 ∧ tag.setWidth 4 ≠ 0#4 ∧ tag.setWidth 4 ≠ 15#4)
    (htags : ∀ a : Word, raw.toNat ≤ a.toNat → a.toNat < raw.toNat + size.toNat →
      m.tags (granule g a) = tag.setWidth 4) : InStep raw size (raw ||| tag <<< 26) m := by
  have hfield := tagField_pointer hlt tag
  obtain ⟨hsmall, hzero, hos⟩ := htag
  refine ⟨clear_pointer hlt hsmall, ?_, ?_, ?_, secUntagPtr_pointer hlt tag⟩
  · intro a h₁ h₂
    rw [htags a h₁ h₂, hfield]
  · rwa [hfield]
  · rwa [hfield]

/-- Every call of a sequence gives null or a pointer in step with the tags at
that moment; a call is a size and what `_malloc_r` returns for it. -/
def AllInStep : List (Word × Word) → State g → Prop
  | [], _ => True
  | (nbytes, raw) :: rest, s => ∃ p s', malloc nbytes raw s = some (p, s') ∧
      (p ≠ 0#32 → InStep raw (allocSize nbytes) p s'.mem) ∧ AllInStep rest s'

/-- The number of calls with a block. -/
def blocks (calls : List (Word × Word)) : ℕ := calls.countP fun c => c.2 ≠ 0#32

theorem allInStep_iff {calls : List (Word × Word)} (hcalls : ∀ c ∈ calls, Suitable c.1 c.2)
    {n : ℕ} (hn : n ≤ 14) {s : State g} (hs : s.secTag = BitVec.ofNat 32 n) :
    AllInStep calls s ↔ n + blocks calls ≤ 14 := by
  induction calls generalizing n s with
  | nil => simpa [AllInStep, blocks] using hn
  | cons c rest ih =>
      obtain ⟨nbytes, raw⟩ := c
      have hrest : ∀ c ∈ rest, Suitable c.1 c.2 := fun c hc => hcalls c (List.mem_cons_of_mem _ hc)
      have hsuit : Suitable nbytes raw := hcalls (nbytes, raw) List.mem_cons_self
      by_cases hraw : raw = 0#32
      · have hmalloc : malloc nbytes raw s = some (0#32, s) := by rw [malloc, if_pos hraw]
        have hblocks : blocks ((nbytes, raw) :: rest) = blocks rest := by simp [blocks, hraw]
        rw [hblocks, ← ih hrest hn hs]
        simp [AllInStep, hmalloc]
      · have hgen := secGenerateTag_first n (by omega)
        rw [← hs] at hgen
        obtain ⟨s', hmalloc, hs', htags⟩ := malloc_block hraw hsuit hgen
        have hblocks : blocks ((nbytes, raw) :: rest) = blocks rest + 1 := by simp [blocks, hraw]
        have hlt := (hsuit hraw).2.1
        have hhead : AllInStep ((nbytes, raw) :: rest) s ↔
            InStep raw (allocSize nbytes)
              (raw ||| BitVec.ofNat 32 (if n = 14 then 16 else n + 1) <<< 26) s'.mem ∧
            AllInStep rest s' := by
          have hp : raw ||| BitVec.ofNat 32 (if n = 14 then 16 else n + 1) <<< 26 ≠ 0#32 :=
            fun h => hraw (BitVec.or_eq_zero_iff.mp h).1
          simp [AllInStep, hmalloc, hp]
        rw [hhead, hblocks]
        by_cases hlast : n = 14
        · -- the tag after 14 is 16, whose field is zero
          refine iff_of_false (fun h => h.1.nonzero ?_) (by omega)
          rw [tagField_pointer hlt, if_pos hlast]
          decide
        · rw [if_neg hlast] at htags hs' ⊢
          have hstep := InStep.of_tag hlt (field_of_small n (by omega)) htags
          rw [and_iff_right hstep, ih hrest (n := n + 1) (by omega) hs']
          omega

/-- The wrapper keeps pointers and tag memory in step, from the first call on,
exactly as long as no more than 13 calls have given a block. -/
theorem wrapper_in_step_iff (calls : List (Word × Word)) (hcalls : ∀ c ∈ calls, Suitable c.1 c.2)
    (m : Memory g) : AllInStep calls ⟨1#32, m⟩ ↔ blocks calls ≤ 13 := by
  rw [allInStep_iff hcalls (n := 1) (by decide) rfl]
  omega

def untagged : Memory 12 := ⟨fun _ => 0#8, fun _ => 0#4⟩

theorem wrapper_in_step_two : AllInStep [(24#32, 0x1000#32), (1#32, 0#32)] ⟨1#32, untagged⟩ :=
  (wrapper_in_step_iff _ (List.forall_mem_cons.mpr ⟨by decide,
    List.forall_mem_cons.mpr ⟨by decide, List.forall_mem_nil _⟩⟩) untagged).mpr (by decide)

/-- Fourteen blocks in a row. -/
def fourteen : List (Word × Word) :=
  (List.range 14).map fun k => (16#32, BitVec.ofNat 32 (0x1000 + 32 * k))

/-- The counter goes from 14 to 16, and the pointer to the last block has an
address bit set and no tag. -/
theorem fourteenth_block : ¬ AllInStep fourteen ⟨1#32, untagged⟩ ∧
    (malloc 16#32 0x11A0#32 ⟨14#32, untagged⟩).map Prod.fst = some 0x400011A0#32 := by
  have hblocks : ∀ k < 14, Suitable 16#32 (BitVec.ofNat 32 (0x1000 + 32 * k)) := by decide
  have hcalls : ∀ c ∈ fourteen, Suitable c.1 c.2 := by
    intro c hc
    obtain ⟨k, hk, rfl⟩ := List.mem_map.mp hc
    exact hblocks k (List.mem_range.mp hk)
  refine ⟨fun h => ?_, by decide⟩
  rw [allInStep_iff hcalls (n := 1) (by decide) rfl] at h
  exact absurd h (by decide)

end TagSoc.Newlib
