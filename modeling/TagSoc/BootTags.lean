import TagSoc.TagStores

/-!
# The tags of the code

The loop of `boot.S` that gives tag 15 to the granules of the code, in steps of
15 bytes while a granule has 16. The comparison at its end is signed.
-/
namespace TagSoc.Boot
open TaggedArrays TagStores

variable {g : ℕ}

/-- The loop, from its label on: `st t3, 0(t1)`, `addi t1, t1, 15` and
`blt t1, t2, 0b`, with a bound on the rounds. -/
def tagLoop (t2 t3 : Word) : ℕ → Word → Memory g → Option (Memory g)
  | 0, _, _ => none
  | fuel + 1, t1, m =>
      let m := m.write ⟨.tag, true, t1, t3⟩
      let t1 := t1 + 15#32
      if t1.slt t2 then tagLoop t2 t3 fuel t1 m else some m

/-- The part of `_start` between the local labels; the loop is left out if
`__cfg_enable_memtag` is at address zero. -/
def setCodeTags (fuel : ℕ) (cfgEnableMemtag start textEnd : Word) (m : Memory g) :
    Option (Memory g) :=
  if 0#32 = cfgEnableMemtag then some m else tagLoop textEnd 15#32 fuel start m

/-! ## When the loop is left -/

/-- The loop is left after round `n`. -/
structure Leaves (start textEnd : Word) (n : ℕ) : Prop where
  pos : 0 < n
  stays : ∀ k, 0 < k → k < n → (storeAddr 15 start k).slt textEnd = true
  leaves : (storeAddr 15 start n).slt textEnd = false

theorem Leaves.tagLoop {t3 start textEnd : Word} {m : Memory g} {n fuel : ℕ}
    (h : Leaves start textEnd n) (hfuel : n ≤ fuel) :
    tagLoop textEnd t3 fuel start m = some (stored 15 t3 start m n) := by
  -- from round `k` on, by induction on the rounds that are left
  have hrest : ∀ fuel k, k < n → n ≤ fuel + k →
      Boot.tagLoop textEnd t3 fuel (storeAddr 15 start k) (stored 15 t3 start m k) =
        some (stored 15 t3 start m n) := by
    intro fuel
    induction fuel with
    | zero =>
        intro k hk hn
        omega
    | succ fuel ih =>
        intro k hk hn
        rw [Boot.tagLoop]
        simp only [← storeAddr_succ]
        rcases Nat.lt_or_ge (k + 1) n with hlt | hge
        · rw [if_pos (h.stays (k + 1) (Nat.succ_pos k) hlt)]
          exact ih (k + 1) hlt (by omega)
        · obtain rfl : n = k + 1 := by omega
          rw [h.leaves]
          rfl
  have hzero := hrest fuel 0 h.pos (by omega)
  rwa [storeAddr_zero] at hzero

section range
variable {start textEnd : Word} (hend : textEnd.toNat < 2 ^ 31)

include hend in
theorem slt_iff (a : Word) : a.slt textEnd = true ↔ a.toNat < textEnd.toNat ∨ 2 ^ 31 ≤ a.toNat := by
  have := a.isLt
  rw [BitVec.slt_iff_toInt_lt, BitVec.toInt_eq_toNat_cond, BitVec.toInt_eq_toNat_cond]
  split_ifs <;> omega

/-- Fifteen is odd, so some store would be at the end exactly. -/
theorem exists_leaves (hne : start ≠ textEnd) : ∃ n ≤ 2 ^ 32, Leaves start textEnd n := by
  -- the number of rounds that takes `start` to `textEnd` modulo the word
  let k : Word := (textEnd - start) * 0xEEEEEEEF#32
  have hk : storeAddr 15 start k.toNat = textEnd := by
    have hinv : 15#32 * k = textEnd - start :=
      calc 15#32 * k = (textEnd - start) * (0xEEEEEEEF#32 * 15#32) := by
            rw [BitVec.mul_comm, BitVec.mul_assoc]
        _ = textEnd - start := BitVec.mul_one _
    rw [storeAddr, BitVec.ofNat_mul, BitVec.ofNat_toNat, BitVec.setWidth_eq, hinv,
      BitVec.add_comm, BitVec.sub_add_cancel]
  have hpos : 0 < k.toNat := by
    refine Nat.pos_of_ne_zero fun h0 => hne ?_
    rwa [h0, storeAddr_zero] at hk
  have hleaves : (storeAddr 15 start k.toNat).slt textEnd = false := by
    rw [hk]
    exact decide_eq_false (Int.lt_irrefl _)
  have hex : ∃ n, 0 < n ∧ (storeAddr 15 start n).slt textEnd = false := ⟨k.toNat, hpos, hleaves⟩
  refine ⟨Nat.find hex, ?_, (Nat.find_spec hex).1, ?_, (Nat.find_spec hex).2⟩
  · exact (Nat.find_min' hex ⟨hpos, hleaves⟩).trans k.isLt.le
  · intro n hn hlt
    simpa [hn] using Nat.find_min hex hlt

include hend in
/-- Without a carry into the sign the loop is left at the first store behind
the end. -/
theorem leaves_of_fits (hlt : start.toNat < textEnd.toNat)
    (hfits : start.toNat + (textEnd.toNat - start.toNat + 14) / 15 * 15 < 2 ^ 31) :
    Leaves start textEnd ((textEnd.toNat - start.toNat + 14) / 15) := by
  refine ⟨by omega, ?_, ?_⟩
  · intro k hk hkn
    have hlow : start.toNat + 15 * k < textEnd.toNat := by omega
    rw [slt_iff hend, storeAddr_toNat, Nat.mod_eq_of_lt (by omega)]
    exact .inl hlow
  · rw [← Bool.not_eq_true, slt_iff hend, storeAddr_toNat, Nat.mod_eq_of_lt (by omega)]
    omega

include hend in
/-- Otherwise the sign makes it go on through the rest of the address space. -/
theorem Leaves.far {n : ℕ} (h : Leaves start textEnd n) (hlt : start.toNat < textEnd.toNat)
    (hfits : 2 ^ 31 ≤ start.toNat + (textEnd.toNat - start.toNat + 14) / 15 * 15) :
    2 ^ 32 + textEnd.toNat ≤ start.toNat + 15 * n := by
  have hpos := h.pos
  have hleaves := h.leaves
  rw [← Bool.not_eq_true, slt_iff hend, storeAddr_toNat] at hleaves
  rcases Nat.lt_or_ge (start.toNat + 15 * n) (2 ^ 32) with hlow | hhigh
  · rw [Nat.mod_eq_of_lt hlow] at hleaves
    omega
  · rcases Nat.lt_or_ge (start.toNat + 15 * n) (2 ^ 32 + textEnd.toNat) with hlap | hlap
    · omega
    · exact hlap

end range

/-- Nothing is below the end if the end is the sign itself: there is one round. -/
theorem leaves_once {start textEnd : Word} (hend : textEnd.toNat = 2 ^ 31) :
    Leaves start textEnd 1 := by
  refine ⟨Nat.one_pos, fun k hk hk' => absurd hk' (by omega), ?_⟩
  have hsign : textEnd = 0x80000000#32 := BitVec.eq_of_toNat_eq hend
  have := (storeAddr 15 start 1).isLt
  rw [← Bool.not_eq_true, BitVec.slt_iff_toInt_lt, BitVec.toInt_eq_toNat_cond, hsign,
    show (0x80000000#32).toInt = -2 ^ 31 by decide]
  split_ifs <;> omega

/-! ## What is tagged -/

/-- The granules of the code have tag 15, and no other has changed. -/
structure Tagged (start textEnd : Word) (m m' : Memory g) : Prop where
  covered : ∀ a, start ≤ a → a < textEnd → m'.tags (granule g a) = 15#4
  untouched : ∀ i, (∀ a, start ≤ a → a < textEnd → granule g a ≠ i) → m'.tags i = m.tags i
  bytes : m'.bytes = m.bytes

/-- Every granule before the last one is hit, since it is wider than a step; the
last one is if a multiple of the step falls into it. -/
theorem exists_hit {s e q : ℕ} (halign : s % 16 = 0) (hlt : s < e) (hq : s / 16 ≤ q)
    (h : q < (e - 1) / 16 ∨
      q = (e - 1) / 16 ∧ (e - s - 1) / 16 * 16 ≤ (e - s - 1) / 15 * 15) :
    ∃ k < (e - s + 14) / 15, (s + 15 * k) / 16 = q := by
  rcases h with h | ⟨h, hlast⟩
  · exact ⟨(16 * q - s + 14) / 15, by omega, by omega⟩
  · exact ⟨(e - s - 1) / 15, by omega, by omega⟩

/-- The last granule is missed if no multiple of the step falls into it and no
earlier granule has the same index. -/
theorem last_missed {s e k : ℕ} (halign : s % 16 = 0) (hlt : s < e)
    (hlast : ¬ (e - s - 1) / 16 * 16 ≤ (e - s - 1) / 15 * 15) (hsize : (e - s - 1) / 16 < 2 ^ g)
    (hk : k < (e - s + 14) / 15) : (s + 15 * k) / 16 % 2 ^ g ≠ (e - 1) / 16 % 2 ^ g := by
  intro h
  have hbefore : (s + 15 * k) / 16 < (e - 1) / 16 := by omega
  have hdvd := (Nat.modEq_iff_dvd' hbefore.le).mp h
  have hle := Nat.le_of_dvd (by omega) hdvd
  omega

section lap
variable {start textEnd : Word} (hend : textEnd.toNat < 2 ^ 31) (halign : start.toNat % 16 = 0)
  (hlt : start.toNat < textEnd.toNat) {m : Memory g}
include hend halign hlt

theorem lap_toNat {k : ℕ} (hk : k < (textEnd.toNat - start.toNat + 14) / 15) :
    (storeAddr 15 start k).toNat = start.toNat + 15 * k := by
  rw [storeAddr_toNat, Nat.mod_eq_of_lt (by omega)]

omit hend halign in
theorem last_toNat : (textEnd - 1#32).toNat = textEnd.toNat - 1 := by
  rw [BitVec.toNat_sub_of_le (BitVec.le_def.mpr (by rw [BitVec.toNat_ofNat]; omega))]
  rfl

theorem lap_hit {a : Word} (h : ∃ k < (textEnd.toNat - start.toNat + 14) / 15,
    (start.toNat + 15 * k) / 16 % 2 ^ g = a.toNat / 16 % 2 ^ g) :
    (stored 15 15#32 start m ((textEnd.toNat - start.toNat + 14) / 15)).tags (granule g a) =
      15#4 := by
  obtain ⟨k, hk, h⟩ := h
  exact stored_hit ⟨k, hk, granule_congr (by rw [lap_toNat hend halign hlt hk, h])⟩

/-- The last granule of the code. -/
theorem lap_last (h : (textEnd.toNat - start.toNat - 1) / 16 * 16 ≤
      (textEnd.toNat - start.toNat - 1) / 15 * 15 ∨
      2 ^ g ≤ (textEnd.toNat - start.toNat - 1) / 16 ∨ m.tags (granule g (textEnd - 1#32)) = 15#4)
    {a : Word} (ha : a.toNat / 16 = (textEnd.toNat - 1) / 16) :
    (stored 15 15#32 start m ((textEnd.toNat - start.toNat + 14) / 15)).tags (granule g a) =
      15#4 := by
  rcases h with hstep | hsize | htag
  · obtain ⟨k, hk, hkq⟩ :=
      exists_hit (q := a.toNat / 16) halign hlt (by omega) (.inr ⟨ha, hstep⟩)
    exact lap_hit hend halign hlt ⟨k, hk, by rw [hkq]⟩
  · -- the granule one memory size below has the same index
    have hpos := Nat.two_pow_pos g
    obtain ⟨k, hk, hkq⟩ :=
      exists_hit (q := a.toNat / 16 - 2 ^ g) halign hlt (by omega) (.inl (by omega))
    refine lap_hit hend halign hlt ⟨k, hk, ?_⟩
    rw [hkq]
    exact (Nat.mod_eq_sub_mod (by omega)).symm
  · by_cases hex : ∃ k < (textEnd.toNat - start.toNat + 14) / 15,
        granule g (storeAddr 15 start k) = granule g a
    · exact stored_hit hex
    · have hsame : granule g a = granule g (textEnd - 1#32) :=
        granule_congr (by rw [last_toNat hlt, ha])
      rw [stored_missed fun k hk heq => hex ⟨k, hk, heq⟩, hsame, htag]

/-- One lap through the code. -/
theorem tagged_iff_of_fits :
    Tagged start textEnd m (stored 15 15#32 start m ((textEnd.toNat - start.toNat + 14) / 15)) ↔
      (textEnd.toNat - start.toNat - 1) / 16 * 16 ≤ (textEnd.toNat - start.toNat - 1) / 15 * 15 ∨
        2 ^ g ≤ (textEnd.toNat - start.toNat - 1) / 16 ∨
        m.tags (granule g (textEnd - 1#32)) = 15#4 := by
  have hlast := last_toNat hlt
  constructor
  · intro h
    by_contra hnot
    simp only [not_or] at hnot
    obtain ⟨hstep, hsize, htag⟩ := hnot
    have hcovered := h.covered (textEnd - 1#32) (BitVec.le_def.mpr (by omega))
      (BitVec.lt_def.mpr (by omega))
    rw [stored_missed] at hcovered
    · exact htag hcovered
    · intro k hk heq
      have hnat := congrArg BitVec.toNat heq
      rw [granule_toNat, granule_toNat, lap_toNat hend halign hlt hk, hlast] at hnat
      exact last_missed halign hlt hstep (Nat.not_le.mp hsize) hk hnat
  · intro h
    refine ⟨?_, ?_, stored_bytes⟩
    · intro a h₁ h₂
      rw [BitVec.le_def] at h₁
      rw [BitVec.lt_def] at h₂
      rcases Nat.lt_or_ge (a.toNat / 16) ((textEnd.toNat - 1) / 16) with hbefore | hafter
      · obtain ⟨k, hk, hkq⟩ := exists_hit (q := a.toNat / 16) halign hlt (by omega) (.inl hbefore)
        exact lap_hit hend halign hlt ⟨k, hk, by rw [hkq]⟩
      · exact lap_last hend halign hlt h (by omega)
    · intro i hi
      refine stored_missed fun k hk => hi _ (BitVec.le_def.mpr ?_) (BitVec.lt_def.mpr ?_)
      · rw [lap_toNat hend halign hlt hk]
        omega
      · rw [lap_toNat hend halign hlt hk]
        omega

/-- A loop that has passed the sign hits every granule there is. -/
theorem all_hit {n : ℕ} (h : Leaves start textEnd n)
    (hfar : 2 ^ 31 ≤ start.toNat + (textEnd.toNat - start.toNat + 14) / 15 * 15) (a : Word) :
    ∃ k < n, granule g (storeAddr 15 start k) = granule g a := by
  have hn := h.far hend hlt hfar
  have ha := a.isLt
  have hex : ∃ k < n, (start.toNat + 15 * k) % 2 ^ 32 / 16 = a.toNat / 16 := by
    rcases Nat.lt_trichotomy (a.toNat / 16) (2 ^ 27 - 1) with hlow | hlast | hhigh
    · -- in the second lap
      obtain ⟨k, h₁, h₂⟩ : ∃ k, 2 ^ 32 + 16 * (a.toNat / 16) ≤ start.toNat + 15 * k ∧
          start.toNat + 15 * k ≤ 2 ^ 32 + 16 * (a.toNat / 16) + 14 :=
        ⟨(2 ^ 32 + 16 * (a.toNat / 16) - start.toNat + 14) / 15, by omega, by omega⟩
      refine ⟨k, by omega, ?_⟩
      rw [Nat.mod_eq_sub_mod (by omega), Nat.mod_eq_of_lt (by omega)]
      omega
    · refine ⟨(textEnd.toNat - start.toNat + 14) / 15 - 1, by omega, ?_⟩
      rw [Nat.mod_eq_of_lt (by omega)]
      omega
    · refine ⟨(16 * (a.toNat / 16) - start.toNat + 14) / 15, by omega, ?_⟩
      rw [Nat.mod_eq_of_lt (by omega)]
      omega
  obtain ⟨k, hk, hq⟩ := hex
  exact ⟨k, hk, granule_congr (by rw [storeAddr_toNat, hq])⟩

theorem tagged_iff_of_far {n : ℕ} (h : Leaves start textEnd n)
    (hfar : 2 ^ 31 ≤ start.toNat + (textEnd.toNat - start.toNat + 14) / 15 * 15) :
    Tagged start textEnd m (stored 15 15#32 start m n) ↔
      ∀ a : Word, (∀ x, start ≤ x → x < textEnd → granule g x ≠ granule g a) →
        m.tags (granule g a) = 15#4 := by
  have hhit : ∀ a : Word, (stored 15 15#32 start m n).tags (granule g a) = 15#4 :=
    fun a => stored_hit (all_hit hend halign hlt h hfar a)
  constructor
  · intro ht a ha
    rw [← ht.untouched _ ha]
    exact hhit a
  · intro ht
    refine ⟨fun a _ _ => hhit a, ?_, stored_bytes⟩
    intro i hi
    by_cases hex : ∃ k < n, granule g (storeAddr 15 start k) = i
    · obtain ⟨k, hk, rfl⟩ := hex
      rw [hhit, ht _ hi]
    · exact stored_missed fun k hk heq => hex ⟨k, hk, heq⟩

end lap

/-- One round, at the start. -/
theorem tagged_iff_of_once {start textEnd : Word} (hlt : start < textEnd) {m : Memory g} :
    Tagged start textEnd m (stored 15 15#32 start m 1) ↔
      ∀ a : Word, start ≤ a → a < textEnd →
        granule g a = granule g start ∨ m.tags (granule g a) = 15#4 := by
  have hmiss : ∀ i, granule g start ≠ i → (stored 15 15#32 start m 1).tags i = m.tags i := by
    intro i hi
    refine stored_missed fun k hk => ?_
    obtain rfl : k = 0 := by omega
    rwa [storeAddr_zero]
  constructor
  · intro h a h₁ h₂
    by_cases heq : granule g start = granule g a
    · exact Or.inl heq.symm
    · exact Or.inr ((hmiss _ heq).symm.trans (h.covered a h₁ h₂))
  · intro h
    refine ⟨fun a h₁ h₂ => ?_, fun i hi => hmiss i (hi start (BitVec.le_refl _) hlt), stored_bytes⟩
    by_cases heq : granule g start = granule g a
    · exact stored_hit ⟨0, Nat.one_pos, by rw [storeAddr_zero, heq]⟩
    · rw [hmiss _ heq]
      exact (h a h₁ h₂).resolve_left (Ne.symm heq)

/-- What the loop needs to tag the code and nothing else. In general a multiple
of 15 bytes has to fall into the last granule (unless that granule shares its
tag with an earlier one, or has tag 15 already); if the address passes the sign
at the end, all other granules have to have tag 15 already, and if the code ends
at the sign, all granules of the code but the first. -/
def Fits (m : Memory g) (start textEnd : Word) : Prop :=
  let n := textEnd.toNat - start.toNat
  if textEnd.toNat = 2 ^ 31 then
    ∀ a : Word, start ≤ a → a < textEnd →
      granule g a = granule g start ∨ m.tags (granule g a) = 15#4
  else if start.toNat + (n + 14) / 15 * 15 < 2 ^ 31 then
    (n - 1) / 16 * 16 ≤ (n - 1) / 15 * 15 ∨ 2 ^ g ≤ (n - 1) / 16 ∨
      m.tags (granule g (textEnd - 1#32)) = 15#4
  else
    ∀ a : Word, (∀ x, start ≤ x → x < textEnd → granule g x ≠ granule g a) →
      m.tags (granule g a) = 15#4

/-- For every range of code the loop ends; it gives the tag to the granules of
the code and to no other exactly in the cases of `Fits`. -/
theorem code_tags_iff (m : Memory g) (cfgEnableMemtag start textEnd : Word)
    (hcfg : cfgEnableMemtag ≠ 0#32) (halign : start.toNat % 16 = 0) (hlt : start < textEnd)
    (hend : textEnd.toNat ≤ 2 ^ 31) :
    ∃ m', (∀ fuel ≥ 2 ^ 32, setCodeTags fuel cfgEnableMemtag start textEnd m = some m') ∧
      (Tagged start textEnd m m' ↔ Fits m start textEnd) := by
  have hrun : ∀ {n}, Leaves start textEnd n → n ≤ 2 ^ 32 → ∀ fuel ≥ 2 ^ 32,
      setCodeTags fuel cfgEnableMemtag start textEnd m = some (stored 15 15#32 start m n) := by
    intro n h hn fuel hfuel
    rw [setCodeTags, if_neg hcfg.symm]
    exact h.tagLoop (hn.trans hfuel)
  by_cases hsign : textEnd.toNat = 2 ^ 31
  · refine ⟨_, hrun (leaves_once hsign) (by decide), ?_⟩
    rw [Fits, if_pos hsign]
    exact tagged_iff_of_once hlt
  replace hend : textEnd.toNat < 2 ^ 31 := by omega
  rw [BitVec.lt_def] at hlt
  by_cases hfits : start.toNat + (textEnd.toNat - start.toNat + 14) / 15 * 15 < 2 ^ 31
  · refine ⟨_, hrun (leaves_of_fits hend hlt hfits) (by omega), ?_⟩
    rw [Fits, if_neg hsign, if_pos hfits]
    exact tagged_iff_of_fits hend halign hlt
  · obtain ⟨n, hn, h⟩ := exists_leaves fun heq => Nat.ne_of_lt hlt (congrArg BitVec.toNat heq)
    refine ⟨_, hrun h hn, ?_⟩
    rw [Fits, if_neg hsign, if_neg hfits]
    exact tagged_iff_of_far hend halign hlt h (Nat.not_lt.mp hfits)

/-- A memory of 64 bytes without tags. -/
def empty : Memory 2 := ⟨fun _ => 0#8, fun _ => 0#4⟩

theorem code_tags_two_granules : ∃ m',
    (∀ fuel ≥ 2 ^ 32, setCodeTags fuel 1#32 0#32 31#32 empty = some m') ∧
      Tagged 0#32 31#32 empty m' := by
  obtain ⟨m', hrun, hiff⟩ :=
    code_tags_iff empty 1#32 0#32 31#32 (by decide) (by decide) (by decide) (by decide)
  refine ⟨m', hrun, hiff.mpr ?_⟩
  rw [Fits, if_neg (by decide), if_pos (by decide)]
  decide

/-- Thirty bytes of code are two granules, but the loop stores at bytes 0 and
15 only. -/
theorem second_granule_untagged :
    (setCodeTags 3 1#32 0#32 30#32 empty).map (fun m => (m.tags 0#2, m.tags 1#2)) =
      some (15#4, 0#4) := by
  decide

end TagSoc.Boot
