import TagSoc.HeapRuns
import TagSoc.TagTrap
import Mathlib.Data.Nat.ModEq
import Mathlib.Dynamics.PeriodicPts.Defs

/-!
# What the pointer of a block opens

The counter of the library goes round through the fourteen tags that are neither
`0` nor that of the security context. A header and its block take two tags in a
row, so the tags of headers and the tags of blocks keep to different halves of the
round: no pointer of a block opens a header that `malloc` has made, and it opens
another block only if that one is a multiple of seven blocks away. The header of
`malloc_init`, which has no block, is on the side of the blocks.
-/
namespace TagSoc.Malloc
open TaggedMem

/-! ## The round of the tags -/

theorem succTag_round : ∀ sec t : BitVec 4, sec ≠ 0#4 → t ≠ 0#4 ∧ t ≠ sec →
    (succTag sec)^[14] t = t ∧ ∀ n < 14, (succTag sec)^[n] t = t → n = 0 := by decide +kernel

section round
variable {sec t : BitVec 4} (hsec : sec ≠ 0#4) (ht : t ≠ 0#4 ∧ t ≠ sec)
include hsec ht

theorem minimalPeriod_succTag : Function.minimalPeriod (succTag sec) t = 14 := by
  obtain ⟨hround, hfirst⟩ := succTag_round sec t hsec ht
  have hper : Function.IsPeriodicPt (succTag sec) 14 t := hround
  have hpos := hper.minimalPeriod_pos (by decide)
  have hle := hper.minimalPeriod_le (by decide)
  by_contra hne
  have hzero := hfirst _ (by omega) Function.iterate_minimalPeriod
  omega

theorem iterate_succTag_eq_iff (m n : ℕ) :
    (succTag sec)^[m] t = (succTag sec)^[n] t ↔ m ≡ n [MOD 14] := by
  have hper := minimalPeriod_succTag hsec ht
  rw [← Function.iterate_mod_minimalPeriod_eq (n := m),
    ← Function.iterate_mod_minimalPeriod_eq (n := n),
    Function.iterate_eq_iterate_iff_of_lt_minimalPeriod, hper, Nat.ModEq] <;>
  · rw [hper]
    exact Nat.mod_lt _ (by decide)

end round

/-! ## Tags that stay -/

section frame
variable {l : Layout} {lo hi : Word} {sec : BitVec 4} (v : l.Valid lo hi)
include v

/-- A call gives tags to the header and the block that it makes and to nothing else. -/
theorem Inv.malloc_tags {h : Heap} {s s' : Mem} {n p : Word} (inv : Inv l lo hi sec h s)
    (hn : Unwrapped l hi s n) (hok : malloc l false n s = .ok (p, s')) {k : ℕ}
    (hk : 16 * k + 16 ≤ h.stop h.count ∨ hi.toNat ≤ 16 * k) : s'.tag k = s.tag k := by
  by_cases hzero : n = 0#32
  · subst hzero
    cases hok
    rfl
  have hpos : 0 < n.toNat := Nat.pos_of_ne_zero fun heq => hzero (BitVec.eq_of_toNat_eq heq)
  have hnlt := n.isLt
  have hnext := inv.nextFree_eq v
  have hround := aligntonext_toNat n
  have hloc := inv.next_location v
  have hhi := v.hi_le
  rw [inv.malloc_eq v hzero] at hok
  rw [Unwrapped, needed, roundUp, hnext] at hn
  have hlow := inv.nextFree_le v
  rw [hnext] at hlow
  rcases Nat.lt_or_ge hi.toNat (h.stop h.count + (aligntonext n 4).toNat + 16) with hfull | hfit
  · have hnull : mallocNew l false (aligntonext n 4) s = .ok (0#32, s) := by
      refine inv.mallocNew_null v ?_
      rw [BitVec.lt_def, BitVec.toNat_add, BitVec.toNat_add, hloc, sizeofHeader,
        BitVec.toNat_ofNat]
      omega
    rw [hnull] at hok
    cases hok
    rfl
  · have hmod : (aligntonext n 4).toNat % 16 = 0 := by
      rw [hround]
      omega
    have hwpos : 0 < (aligntonext n 4).toNat := by
      rw [hround] at hfit ⊢
      omega
    rw [inv.mallocNew_some v hwpos hmod hfit] at hok
    cases hok
    refine (inv.grown_kept v hfit _ _).2.2 k ?_
    omega

/-- Nor does a sequence of calls change a tag that was given before it. -/
theorem Inv.calls_tags {cs : List Call} {h : Heap} {s s' : Mem} {log : List (Word × Word)}
    (inv : Inv l lo hi sec h s) (hcs : NoWrap l hi cs s) (hok : calls l cs s = .ok (log, s'))
    {k : ℕ} (hk : 16 * k + 16 ≤ h.stop h.count ∨ hi.toNat ≤ 16 * k) : s'.tag k = s.tag k := by
  induction cs generalizing h s log with
  | nil =>
      cases hok
      rfl
  | cons c cs ih =>
      rw [calls] at hok
      obtain ⟨answer, s₁, hone, hok⟩ := of_ok_bind hok
      obtain ⟨rest, s₂, hrest, hok⟩ := of_ok_bind hok
      cases hok
      cases c with
      | free p =>
          cases hone
          exact ih inv hcs hrest hk
      | malloc n =>
          obtain ⟨p, s₃, hmalloc, hone⟩ := of_ok_bind hone
          cases hone
          obtain ⟨p', h', s', hok', hserved⟩ := inv.malloc_served v hcs.1
          rw [hmalloc] at hok'
          cases hok'
          refine Eq.trans ?_ (inv.malloc_tags v hcs.1 hmalloc hk)
          cases hserved with
          | null hfull => exact ih inv (hcs.2 _ _ hmalloc) hrest hk
          | @block header p w s₁ hpos hroom hsize hheader hblock hp hpush =>
              refine ih hpush (hcs.2 _ _ hmalloc) hrest (hk.imp_left fun hbelow => ?_)
              have hnew := (h.push_new header p w).2.2.2.1
              rw [hheader] at hnew
              change 16 * k + 16 ≤ (h.push header p w).stop (h.count + 1)
              omega

end frame

/-! ## Where the tags of a heap are in the round -/

section positions
variable {l : Layout} {lo hi : Word} {sec : BitVec 4} {h : Heap} {s : Mem}
  (inv : Inv l lo hi sec h s)
  (hfirst : s.tag (lo.toNat / 16) = succTag sec (s.tag (l.memInfo.toNat / 16)))
include inv hfirst

theorem Inv.lastTag_eq {i : ℕ} (hi : i ≤ h.count) :
    h.lastTag i = (succTag sec)^[2 * i + 1] (s.tag (l.memInfo.toNat / 16)) := by
  induction i with
  | zero =>
      rw [Heap.lastTag, if_pos rfl, ← inv.header_tag 0 hi, inv.start, hfirst]
      rfl
  | succ i ih =>
      rw [Heap.lastTag, if_neg (Nat.succ_ne_zero i), inv.payload_succ _ hi (Nat.succ_pos i),
        inv.header_succ i hi, ih (by omega), ← Function.iterate_succ_apply' (succTag sec),
        ← Function.iterate_succ_apply' (succTag sec)]
      rfl

theorem Inv.payload_position {i : ℕ} (hi : i ≤ h.count) (hpos : 0 < i) :
    tagOf (h.payload i) = (succTag sec)^[2 * i + 1] (s.tag (l.memInfo.toNat / 16)) := by
  rw [← inv.lastTag_eq hfirst hi, Heap.lastTag, if_neg (by omega)]

theorem Inv.header_position {i : ℕ} (hi : i ≤ h.count) (hpos : 0 < i) :
    tagOf (h.header i) = (succTag sec)^[2 * i] (s.tag (l.memInfo.toNat / 16)) := by
  obtain ⟨j, rfl⟩ : ∃ j, i = j + 1 := ⟨i - 1, by omega⟩
  rw [inv.header_succ j hi, inv.lastTag_eq hfirst (by omega),
    ← Function.iterate_succ_apply' (succTag sec)]
  rfl

theorem Inv.payload_eq_payload_iff {i j : ℕ} (hi : i ≤ h.count) (hj : j ≤ h.count)
    (hipos : 0 < i) (hjpos : 0 < j) :
    tagOf (h.payload j) = tagOf (h.payload i) ↔ i ≡ j [MOD 7] := by
  rw [inv.payload_position hfirst hi hipos, inv.payload_position hfirst hj hjpos,
    iterate_succTag_eq_iff inv.sec_ne inv.mem_tag, Nat.ModEq, Nat.ModEq]
  omega

/-- Headers are at the even places and blocks at the odd ones. -/
theorem Inv.header_ne_payload {i j : ℕ} (hi : i ≤ h.count) (hj : j ≤ h.count)
    (hipos : 0 < i) (hjpos : 0 < j) : tagOf (h.header j) ≠ tagOf (h.payload i) := by
  rw [inv.payload_position hfirst hi hipos, inv.header_position hfirst hj hjpos, ne_eq,
    iterate_succTag_eq_iff inv.sec_ne inv.mem_tag, Nat.ModEq]
  omega

theorem Inv.first_eq_payload_iff {i : ℕ} (hi : i ≤ h.count) (hipos : 0 < i) :
    tagOf (h.header 0) = tagOf (h.payload i) ↔ 7 ∣ i := by
  have hlast := inv.lastTag_eq hfirst (Nat.zero_le h.count)
  rw [Heap.lastTag, if_pos rfl] at hlast
  rw [hlast, inv.payload_position hfirst hi hipos,
    iterate_succTag_eq_iff inv.sec_ne inv.mem_tag, Nat.ModEq]
  omega

theorem Inv.memInfo_ne_payload {i : ℕ} (hi : i ≤ h.count) (hipos : 0 < i) :
    s.tag (l.memInfo.toNat / 16) ≠ tagOf (h.payload i) := by
  have hround := iterate_succTag_eq_iff inv.sec_ne inv.mem_tag 0 (2 * i + 1)
  rw [inv.payload_position hfirst hi hipos]
  refine fun heq => absurd (hround.mp heq) ?_
  rw [Nat.ModEq]
  omega

end positions

/-! ## Accesses -/

/-- Loads and stores through the pointer return while interrupts are enabled. -/
def Opens (s : Mem) (p : Word) : Prop :=
  (load false p s).isOk = true ∧ ∀ v, (store false p v s).isOk = true

theorem opens_iff (s : Mem) (p : Word) : Opens s p ↔ s.tag (addr p / 16) = tagOf p := by
  unfold Opens load store passes
  by_cases htag : s.tag (addr p / 16) = tagOf p
  · simp [htag, Except.isOk, Except.toBool]
  · simp [htag, Except.isOk, Except.toBool]

/-- What the pointers with the tag of block `i` open in a heap: blocks a multiple of
seven blocks away, for such an `i` the first header, and nothing else of the
allocator's. -/
structure Isolated (l : Layout) (h : Heap) (s : Mem) (i : ℕ) : Prop where
  block : ∀ j ≤ h.count, 0 < j → ∀ p, tagOf p = tagOf (h.payload i) →
    addr (h.payload j) ≤ addr p → addr p < h.stop j → (Opens s p ↔ i ≡ j [MOD 7])
  header : ∀ j ≤ h.count, 0 < j → ∀ p, tagOf p = tagOf (h.payload i) →
    addr (h.header j) ≤ addr p → addr p < addr (h.header j) + 16 → ¬ Opens s p
  first : ∀ p, tagOf p = tagOf (h.payload i) →
    addr (h.header 0) ≤ addr p → addr p < addr (h.header 0) + 16 → (Opens s p ↔ 7 ∣ i)
  memInfo : ∀ p, tagOf p = tagOf (h.payload i) →
    l.memInfo.toNat ≤ addr p → addr p < l.memInfo.toNat + 16 → ¬ Opens s p
  secCntx : ∀ p, tagOf p = tagOf (h.payload i) →
    l.secCntx.toNat ≤ addr p → addr p < l.secCntx.toNat + 16 → ¬ Opens s p

theorem Inv.isolated {l : Layout} {lo hi : Word} {sec : BitVec 4} {h : Heap} {s : Mem}
    (v : l.Valid lo hi) (inv : Inv l lo hi sec h s)
    (hfirst : s.tag (lo.toNat / 16) = succTag sec (s.tag (l.memInfo.toNat / 16))) {i : ℕ}
    (hi : i ≤ h.count) (hipos : 0 < i) : Isolated l h s i where
  block j hj hjpos p htag hfrom hto := by
    have hal := inv.header_aligned v hj
    have haddr := inv.payload_addr j hj hjpos
    rw [opens_iff, htag, inv.payload_tag j hj hjpos (addr p / 16) (by omega) (by omega),
      inv.payload_eq_payload_iff hfirst hi hj hipos hjpos]
  header j hj hjpos p htag hfrom hto := by
    have hal := inv.header_aligned v hj
    have hgranule : addr p / 16 = addr (h.header j) / 16 := by omega
    rw [opens_iff, htag, hgranule, inv.header_tag j hj]
    exact inv.header_ne_payload hfirst hi hj hipos hjpos
  first p htag hfrom hto := by
    have hal := inv.header_aligned v (Nat.zero_le h.count)
    have hgranule : addr p / 16 = addr (h.header 0) / 16 := by omega
    rw [opens_iff, htag, hgranule, inv.header_tag 0 (Nat.zero_le _)]
    exact inv.first_eq_payload_iff hfirst hi hipos
  memInfo p htag hfrom hto := by
    have hal := v.mem_aligned
    have hgranule : addr p / 16 = l.memInfo.toNat / 16 := by omega
    rw [opens_iff, htag, hgranule]
    exact inv.memInfo_ne_payload hfirst hi hipos
  secCntx p htag hfrom hto := by
    have hal := v.sec_aligned
    have hgranule : addr p / 16 = l.secCntx.toNat / 16 := by omega
    rw [opens_iff, htag, hgranule, inv.sec_tag]
    exact (inv.payload_usable hi hipos).2.symm

/-! ## Runs -/

/-- The first header gets the tag after that of the descriptor. -/
theorem init_first {l : Layout} {lo hi : Word} {random : List Word} {s s₁ : Mem}
    (v : l.Valid lo hi) (hinit : ossecInit l random s = .ok ((), s₁)) :
    ∃ sec header s₂, (∀ servingIsr, mallocInit l servingIsr lo hi s₁ = .ok ((), s₂)) ∧
      Inv l lo hi sec (Heap.first header) s₂ ∧
      s₂.tag (lo.toNat / 16) = succTag sec (s₂.tag (l.memInfo.toNat / 16)) := by
  have hal : addr l.secCntx % 16 = 0 := by
    rw [addr_of_lt v.sec_lt]
    exact v.sec_aligned
  obtain ⟨sec, gen, hsec, hgen, hne, hc, htag⟩ := ossecInit_ok hal hinit
  refine ⟨sec, _, _, fun _ => mallocInit_eq v hc, seeded_inv v hc hsec hgen hne htag, ?_⟩
  obtain ⟨-, -, hml⟩ := v.granules
  rw [seeded_tag, seeded_tag, if_pos (by omega), if_neg (by omega), if_pos (by omega)]

theorem Inv.calls_first {l : Layout} {lo hi : Word} {sec : BitVec 4} {cs : List Call} {h : Heap}
    {s s' : Mem} {log : List (Word × Word)} (v : l.Valid lo hi) (inv : Inv l lo hi sec h s)
    (hcs : NoWrap l hi cs s) (hok : calls l cs s = .ok (log, s'))
    (hfirst : s.tag (lo.toNat / 16) = succTag sec (s.tag (l.memInfo.toNat / 16))) :
    s'.tag (lo.toNat / 16) = succTag sec (s'.tag (l.memInfo.toNat / 16)) := by
  have hlo := v.lo_aligned
  have hmem := v.mem_out
  have hma := v.mem_aligned
  have htop := (h.header_le_stop 0).trans (inv.stop_le_top (Nat.zero_le h.count))
  rw [inv.start] at htop
  rw [inv.calls_tags v hcs hok (Or.inl (by omega)), inv.calls_tags v hcs hok (by omega), hfirst]

/-- The answers that are not null, with what was asked for. -/
def blocks (log : List (Word × Word)) : List (Word × Word) := log.filter fun a => a.2 ≠ 0#32

theorem Grows.kept {hi : ℕ} {h h' : Heap} {log : List (Word × Word)} (hg : Grows hi h log h') :
    h.count ≤ h'.count ∧ ∀ i ≤ h.count, h'.payload i = h.payload i ∧ h'.size i = h.size i := by
  induction hg with
  | done h => exact ⟨le_rfl, fun i _ => ⟨rfl, rfl⟩⟩
  | null hrest ih => exact ih
  | @block h h' n header p w log hsize hheader hblock haligned hp hroom hrest ih =>
      obtain ⟨hcount, hold⟩ := ih
      have hpush : (h.push header p w).count = h.count + 1 := rfl
      refine ⟨by omega, fun i hi => ?_⟩
      obtain ⟨h₁, h₂⟩ := hold i (by omega)
      exact ⟨h₁.trans (Heap.push_old hi).2.1, h₂.trans (Heap.push_old hi).2.2.1⟩

/-- The answers are the payloads of the row, with the sizes of the requests. -/
theorem Grows.block_at {hi : ℕ} {h h' : Heap} {log : List (Word × Word)} (hg : Grows hi h log h')
    {i : ℕ} {n q : Word} (hi : (blocks log)[i]? = some (n, q)) :
    h.count + 1 + i ≤ h'.count ∧ h'.payload (h.count + 1 + i) = q ∧
      (h'.size (h.count + 1 + i)).toNat = roundUp n := by
  induction hg generalizing i with
  | done h => simp [blocks] at hi
  | null hrest ih => exact ih (by simpa [blocks] using hi)
  | @block h h' n' header p w log hsize hheader hblock haligned hp hroom hrest ih =>
      have hpush : (h.push header p w).count = h.count + 1 := rfl
      rw [blocks, List.filter_cons_of_pos (by simpa using hp)] at hi
      obtain ⟨hcount, hold⟩ := hrest.kept
      obtain ⟨-, hpay, hsz, -⟩ := h.push_new header p w
      cases i with
      | zero =>
          simp only [List.getElem?_cons_zero, Option.some.injEq, Prod.mk.injEq] at hi
          obtain ⟨rfl, rfl⟩ := hi
          obtain ⟨h₁, h₂⟩ := hold (h.count + 1) (by omega)
          refine ⟨by omega, h₁.trans hpay, ?_⟩
          rw [Nat.add_zero, h₂, hsz, hsize]
      | succ i =>
          rw [List.getElem?_cons_succ] at hi
          have hlater := ih hi
          rw [hpush] at hlater
          rwa [show h.count + 1 + (i + 1) = h.count + 1 + 1 + i by omega]

/-- What the pointers with the tag of answer `i` open after a sequence of calls. -/
structure Guarded (l : Layout) (lo : Word) (log : List (Word × Word)) (s : Mem) (i : ℕ)
    (p : Word) : Prop where
  block : ∀ (j : ℕ) (m b : Word), (blocks log)[j]? = some (m, b) → addr b ≤ addr p →
    addr p < addr b + roundUp m → (Opens s p ↔ i ≡ j [MOD 7])
  header : ∀ (j : ℕ) (m b : Word), (blocks log)[j]? = some (m, b) → addr b ≤ addr p + 16 →
    addr p < addr b → ¬ Opens s p
  first : lo.toNat ≤ addr p → addr p < lo.toNat + 16 → (Opens s p ↔ i ≡ 6 [MOD 7])
  memInfo : l.memInfo.toNat ≤ addr p → addr p < l.memInfo.toNat + 16 → ¬ Opens s p
  secCntx : l.secCntx.toNat ≤ addr p → addr p < l.secCntx.toNat + 16 → ¬ Opens s p

theorem Inv.guarded {l : Layout} {lo hi : Word} {sec : BitVec 4} {header : Word} {h : Heap}
    {s : Mem} {log : List (Word × Word)} (v : l.Valid lo hi) (inv : Inv l lo hi sec h s)
    (hgrow : Grows hi.toNat (Heap.first header) log h)
    (hfirst : s.tag (lo.toNat / 16) = succTag sec (s.tag (l.memInfo.toNat / 16))) {i : ℕ}
    {n q p : Word} (hi : (blocks log)[i]? = some (n, q)) (htag : tagOf p = tagOf q) :
    Guarded l lo log s i p := by
  -- the row before the calls has the one header without a block
  have hplace : ∀ (j : ℕ) (m b : Word), (blocks log)[j]? = some (m, b) → 1 + j ≤ h.count ∧
      h.payload (1 + j) = b ∧ addr b = addr (h.header (1 + j)) + 16 ∧
      h.stop (1 + j) = addr b + roundUp m := by
    intro j m b hj
    obtain ⟨hle, hpay, hsize⟩ := hgrow.block_at hj
    rw [show (Heap.first header).count + 1 + j = 1 + j from Nat.zero_add _ ▸ rfl] at hle hpay hsize
    have haddr := inv.payload_addr (1 + j) hle (by omega)
    rw [hpay] at haddr
    exact ⟨hle, hpay, haddr, by rw [Heap.stop, hsize, haddr]⟩
  obtain ⟨hle, hpay, -, -⟩ := hplace i n q hi
  have hiso := inv.isolated v hfirst hle (by omega)
  rw [← hpay] at htag
  constructor
  case block =>
    intro j m b hj hfrom hto
    obtain ⟨hle', hpay', -, hstop⟩ := hplace j m b hj
    rw [hiso.block (1 + j) hle' (by omega) p htag (by rw [hpay']; exact hfrom) (by omega)]
    exact ⟨fun hmod => hmod.add_left_cancel' 1, fun hmod => hmod.add_left 1⟩
  case header =>
    intro j m b hj hfrom hto
    obtain ⟨hle', -, haddr, -⟩ := hplace j m b hj
    exact hiso.header (1 + j) hle' (by omega) p htag (by omega) (by omega)
  case first =>
    intro hfrom hto
    rw [hiso.first p htag (by rw [inv.start]; exact hfrom) (by rw [inv.start]; exact hto),
      Nat.ModEq]
    omega
  case memInfo => exact hiso.memInfo p htag
  case secCntx => exact hiso.secCntx p htag

/-- The answers after any sequence of calls that do not wrap round, for every pointer
that was made from one of them by moving it. -/
theorem heap_isolation {l : Layout} {lo hi : Word} {random : List Word} {s s₁ : Mem}
    (v : l.Valid lo hi) (hinit : ossecInit l random s = .ok ((), s₁)) :
    ∃ s₂, (∀ servingIsr, mallocInit l servingIsr lo hi s₁ = .ok ((), s₂)) ∧
      ∀ cs, NoWrap l hi cs s₂ → ∃ log s₃, calls l cs s₂ = .ok (log, s₃) ∧
        ∀ (i : ℕ) (n q : Word), (blocks log)[i]? = some (n, q) → ∀ p, tagOf p = tagOf q →
          Guarded l lo log s₃ i p := by
  obtain ⟨sec, header, s₂, hok, inv, hfirst⟩ := init_first v hinit
  refine ⟨s₂, hok, fun cs hcs => ?_⟩
  obtain ⟨log, h, s₃, hrun, hgrow, hinv⟩ := inv.calls_grow v hcs
  exact ⟨log, s₃, hrun, fun i n q hi p htag =>
    hinv.guarded v hgrow (inv.calls_first v hcs hrun hfirst) hi htag⟩

/-- Two blocks: one byte behind the end of the first, the pointer meets the header of
the second. -/
theorem heap_isolation_two : ∃ s₃, (do
      ossecInit small [0x10#32, 5#32, 5#32, 3#32]
      mallocInit small true 0x1000#32 0x2000#32
      calls small [.malloc 20#32, .malloc 1#32] : M _) blank =
        .ok ([(20#32, 0x70001020#32), (1#32, 0x90001050#32)], s₃) ∧
      Opens s₃ 0x7000103F#32 ∧ ¬ Opens s₃ 0x70001040#32 := by
  have hinit : ossecInit small [0x10#32, 5#32, 5#32, 3#32] blank = .ok ((), _) := rfl
  obtain ⟨s₂, hok, hall⟩ := heap_isolation small_valid hinit
  obtain ⟨sec, header, s₂', hok', inv⟩ := init_inv small_valid hinit
  cases (hok true).symm.trans (hok' true)
  obtain ⟨log, s₃, hrun, hguard⟩ := hall [.malloc 20#32, .malloc 1#32]
    (inv.noWrap small_valid (by simp))
  have hall : (do
      ossecInit small [0x10#32, 5#32, 5#32, 3#32]
      mallocInit small true 0x1000#32 0x2000#32
      calls small [.malloc 20#32, .malloc 1#32] : M _) blank = .ok (log, s₃) :=
    ok_bind hinit (ok_bind (hok true) hrun)
  have hlog : log = [(20#32, 0x70001020#32), (1#32, 0x90001050#32)] :=
    Except.ok.inj ((congrArg (Except.map Prod.fst) hall).symm.trans (by decide +kernel))
  subst hlog
  have hp := hguard 0 20#32 0x70001020#32 rfl
  exact ⟨s₃, hall, ((hp 0x7000103F#32 (by decide)).block 0 _ _ rfl (by decide) (by decide)).mpr rfl,
    (hp 0x70001040#32 (by decide)).header 1 _ _ rfl (by decide) (by decide)⟩

/-! ## On the processor -/

section processor
open Clocked Cpu Csr Soc WbRam

variable {g : ℕ}

/-- In clock `k` the processor starts a checked load or store through `p`, and the tag
memory has the tags of `s`. -/
structure Accesses (r : Run (Soc.State.step (g := g))) (k : ℕ) (s : Mem) (p : Word) : Prop where
  size : g ≤ 22
  state : (r.state k).cpu.state = .load1 ∨ (r.state k).cpu.state = .store1
  checked : (r.state k).cpu.checked = true
  address : (r.state k).cpu.alu.result = p
  inside : addr p < 2 ^ (g + 4)
  tags : ∀ q < 2 ^ g, (r.state k).ram.contents.tags (BitVec.ofNat g q) = s.tag q

theorem granuleAddr_eq {p : Word} (hg : g ≤ 22) :
    granuleAddr g p = BitVec.ofNat g (addr p / 16) := by
  have hsplit : addr p / 16 = p.toNat / 16 % 2 ^ 24 := by
    rw [addr_eq]
    omega
  apply BitVec.eq_of_toNat_eq
  rw [granuleAddr, BitVec.extractLsb'_toNat, BitVec.toNat_ofNat, Nat.shiftRight_eq_div_pow, hsplit,
    Nat.mod_mod_of_dvd _ (Nat.pow_dvd_pow 2 (by omega))]

theorem periphSelect_of_inside {p : Word} (hg : g ≤ 22) (hp : addr p < 2 ^ (g + 4)) :
    periphSelect p = wbAccessRam := by
  have hpow : 2 ^ (g + 4) ≤ 2 ^ 26 := Nat.pow_le_pow_right (by decide) (by omega)
  rw [addr_eq] at hp
  apply BitVec.eq_of_toNat_eq
  rw [periphSelect, BitVec.extractLsb'_toNat, Nat.shiftRight_eq_div_pow, wbAccessRam,
    BitVec.toNat_ofNat]
  omega

section
variable {r : Run (Soc.State.step (g := g))} {k : ℕ} {s : Mem} {p : Word}

theorem Accesses.violation_iff (hacc : Accesses r k s p) :
    tagViolation (r.state k) = true ↔ ¬ Opens s p := by
  have hpow : 2 ^ (g + 4) = 2 ^ g * 16 := Nat.pow_add 2 g 4
  have hin := hacc.inside
  have htag := hacc.tags (addr p / 16) (by omega)
  rw [← granuleAddr_eq hacc.size] at htag
  rw [opens_iff, ← htag, tagViolation, hacc.checked, hacc.address,
    periphSelect_of_inside hacc.size hin]
  simp only [Bool.true_and, beq_self_eq_true, bne_iff_ne, ne_eq]
  exact not_congr ⟨fun heq => heq.symm, fun heq => heq.symm⟩

/-- No instruction is executed before the next trap, that trap names the tags, and it comes unless
the processor stays parked or the next instruction is outside of the memory. -/
structure Caught (r : Run (Soc.State.step (g := g))) (k : ℕ) : Prop where
  held : ∀ m, k < m → (∀ d, k < d → d < m → ¬ TrapsAt r d) → (r.state m).cpu.state ≠ .exec
  cause : ∀ d, FirstTrap r k d → ∃ n, d < n ∧ (r.state n).cpu.atBoundary = true ∧
    (r.state n).cpu.csr.settled mCause = causeTagMismatch ∧
    (r.state n).cpu.pc = (r.state d).cpu.csr.settled mTvec &&& ~~~1#32
  comes : ∃ n, NextBoundary (cpuRun r) k n ∧
    (periphSelect (r.state n).cpu.pc = wbAccessRam →
      ((r.state n).cpu.state = .cpuIdle → ∃ m, n ≤ m ∧ (r.input m).extCpuDoStep = true) →
      ∃ d, FirstTrap r k d)

theorem caught_of_violation (h : Reached r)
    (hs : (r.state k).cpu.state = .load1 ∨ (r.state k).cpu.state = .store1)
    (hen : (r.state k).cpu.csr.irqEn = true) (hv : tagViolation (r.state k) = true) :
    Caught r k where
  held _ hm hno := violation_held h hs hen hv hm hno
  cause _ hd := by
    obtain ⟨n, hn, hbound, -, hcause, -, -, -, hpc⟩ := violation_cause h hs hen hv hd
    exact ⟨n, hn, hbound, hcause, hpc⟩
  comes := violation_comes h hs hen hv

end

/-- A checked access through a pointer with the tag of answer `i` that falls on block
`j` or on its header, with interrupts enabled. If it falls on the block and the two are
a multiple of seven blocks apart, the interrupt line is at the next boundary what it
was; otherwise the next thing that happens is the trap, and it comes unless the processor
stays parked or goes on outside of the memory. -/
theorem overflow_is_caught {l : Layout} {lo hi : Word} {random : List Word} {s s₁ : Mem}
    (v : l.Valid lo hi) (hinit : ossecInit l random s = .ok ((), s₁)) :
    ∃ s₂, (∀ servingIsr, mallocInit l servingIsr lo hi s₁ = .ok ((), s₂)) ∧
      ∀ cs, NoWrap l hi cs s₂ → ∃ log s₃, calls l cs s₂ = .ok (log, s₃) ∧
        ∀ (i j : ℕ) (n q m b p : Word), (blocks log)[i]? = some (n, q) →
          (blocks log)[j]? = some (m, b) → tagOf p = tagOf q → addr b ≤ addr p + 16 →
          addr p < addr b + roundUp m →
          ∀ (r : Run (Soc.State.step (g := g))) (k : ℕ), Reached r → Accesses r k s₃ p →
            (r.state k).cpu.csr.irqEn = true →
            (addr b ≤ addr p ∧ i ≡ j [MOD 7] →
              ∃ t, NextBoundary (cpuRun r) k t ∧ (r.state t).ram.irq = (r.state k).ram.irq) ∧
            (¬ (addr b ≤ addr p ∧ i ≡ j [MOD 7]) → Caught r k) := by
  obtain ⟨sec, header, s₂, hok, inv, hfirst⟩ := init_first v hinit
  refine ⟨s₂, hok, fun cs hcs => ?_⟩
  obtain ⟨log, h, s₃, hrun, hgrow, hinv⟩ := inv.calls_grow v hcs
  refine ⟨log, s₃, hrun, fun i j n q m b p hi hj htag hfrom hto r k hr hacc hen => ?_⟩
  have hguard := hinv.guarded v hgrow (inv.calls_first v hcs hrun hfirst) hi htag
  have hopens : Opens s₃ p ↔ addr b ≤ addr p ∧ i ≡ j [MOD 7] := by
    by_cases hin : addr b ≤ addr p
    · rw [hguard.block j m b hj hin hto]
      exact ⟨fun hmod => ⟨hin, hmod⟩, And.right⟩
    · exact ⟨fun ho => absurd ho (hguard.header j m b hj hfrom (by omega)),
        fun hboth => absurd hboth.1 hin⟩
  have hviol := hacc.violation_iff
  constructor
  · intro hsame
    obtain ⟨t, ht⟩ := hr.access_done hacc.state (by
      rw [hacc.address]
      exact periphSelect_of_inside hacc.size hacc.inside)
    have hno : tagViolation (r.state k) = false :=
      Bool.eq_false_iff.mpr fun hv => hviol.mp hv (hopens.mpr hsame)
    exact ⟨t, ht.next, by rw [ht.irq, hno, Bool.or_false]⟩
  · intro hother
    exact caught_of_violation hr hacc.state hen (hviol.mpr fun ho => hother (hopens.mp ho))

/-- The heap begins at address zero of a memory with two granules, which get the two
headers. -/
def lowHeap : Layout := ⟨0x1000#32, 0x1010#32⟩

theorem lowHeap_valid : lowHeap.Valid 0#32 0x1000#32 := by
  constructor <;> decide

/-- `csrwi mstatus, 8`, `csrwi tags, 1` and `lb x2, -1(x1)`, with the pointer of the
first block in `x1`. -/
def underflowing : Run (Soc.State.step (g := 1)) :=
  booted (fun k => if k = 1#5 then 0x70000020#32 else 0#32) (fun _ => 0#32)
    [0x30045073#32, 0x3450D073#32, 0xFFF08103#32] fun k => if k = 0#1 then 4#4 else 6#4

/-- The byte in front of a block is that of its header; the trap is there. -/
theorem underflow_is_caught : Caught underflowing 31 ∧ ∃ d, FirstTrap underflowing 31 d := by
  have hinit : ossecInit lowHeap [5#32, 3#32] blank = .ok ((), _) := rfl
  obtain ⟨s₂, hok, hall⟩ := overflow_is_caught (g := 1) lowHeap_valid hinit
  obtain ⟨sec, header, s₂', hok', inv⟩ := init_inv lowHeap_valid hinit
  cases (hok true).symm.trans (hok' true)
  obtain ⟨log, s₃, hrun, hcaught⟩ := hall [.malloc 16#32] (inv.noWrap lowHeap_valid (by simp))
  have hdone : (do
      ossecInit lowHeap [5#32, 3#32]
      mallocInit lowHeap true 0#32 0x1000#32
      calls lowHeap [.malloc 16#32] : M _) blank = .ok (log, s₃) :=
    ok_bind hinit (ok_bind (hok true) hrun)
  have hlog : log = [(16#32, 0x70000020#32)] :=
    Except.ok.inj ((congrArg (Except.map Prod.fst) hdone).symm.trans (by decide +kernel))
  have htags : (s₃.tag 0, s₃.tag 1) = (4#4, 6#4) :=
    Except.ok.inj ((congrArg (Except.map fun a : List (Word × Word) × Mem =>
      (a.2.tag 0, a.2.tag 1)) hdone).symm.trans (by decide +kernel))
  simp only [Prod.mk.injEq] at htags
  subst hlog
  have hacc : Accesses underflowing 31 s₃ 0x7000001F#32 := by
    refine ⟨by decide, Or.inl (by decide +kernel), by decide +kernel, by decide +kernel, by decide,
      fun q hq => ?_⟩
    rcases (by omega : q = 0 ∨ q = 1) with rfl | rfl
    · rw [htags.1]
      decide +kernel
    · rw [htags.2]
      decide +kernel
  have hc : Caught underflowing 31 := (hcaught 0 0 _ _ _ _ 0x7000001F#32 rfl rfl (by decide)
    (by decide) (by decide) underflowing 31 (booted_reached _ _ _ _ rfl) hacc
    (by decide +kernel)).2 (by decide)
  obtain ⟨n, hn, hcomes⟩ := hc.comes
  -- the load is done at clock 36
  have hnext : NextBoundary (cpuRun underflowing) 31 36 := by
    refine ⟨by decide, by decide +kernel, ?_⟩
    have hall : ∀ j < 36, 31 < j → ((cpuRun underflowing).state j).atBoundary = false := by
      decide +kernel
    exact fun j h₁ h₂ => hall j h₂ h₁
  obtain rfl := hn.unique hnext
  exact ⟨hc, hcomes (by decide +kernel) fun h => absurd h (by decide +kernel)⟩

end processor

end TagSoc.Malloc
