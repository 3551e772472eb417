import TagSoc.Csr

/-!
# The CSR block as a register file

Behind the two-clock handshake there is a file of words with atomic writes:
`settled` is its contents with the access in flight already finished. A request
that finds the handshake free takes effect at once in this view, one that finds
it busy has no effect; read data arrives one clock after the address has been
latched. The sequencers hold each request for two clocks, so that the first
clock finishes the access before it and the second starts theirs:
`Access.pair`.
-/
namespace TagSoc.Csr
open GenericRam

/-- The stored words once the access in flight has finished. -/
def State.settled (s : State) : BitVec 4 → BitVec 32 := (s.ram.step ramWords s.ramIn).mem

/-- The file after a write; a word without a slot is lost. -/
def writeWord (m : BitVec 4 → BitVec 32) (addr : BitVec 12) (x : BitVec 32) :
    BitVec 4 → BitVec 32 :=
  if (csrIndex addr).toNat < ramWords then Function.update m (csrIndex addr) x else m

theorem writeWord_of_ne {m : BitVec 4 → BitVec 32} {addr : BitVec 12} {x : BitVec 32}
    {k : BitVec 4} (h : k ≠ csrIndex addr) : writeWord m addr x k = m k := by
  unfold writeWord
  split_ifs
  · exact Function.update_of_ne h _ _
  · rfl

theorem writeWord_self {m : BitVec 4 → BitVec 32} {addr : BitVec 12} {x : BitVec 32}
    (h : (csrIndex addr).toNat < ramWords) : writeWord m addr x (csrIndex addr) = x := by
  rw [writeWord, if_pos h, Function.update_self]

@[simp] theorem csrIndex_mstatus : csrIndex msrMstatus = mStatus := by decide
@[simp] theorem csrIndex_mepc : csrIndex msrMepc = mEpc := by decide
@[simp] theorem csrIndex_mcause : csrIndex msrMcause = mCause := by decide
@[simp] theorem csrIndex_mtval : csrIndex msrMtval = mTval := by decide
@[simp] theorem csrIndex_mip : csrIndex msrMip = mIp := by decide

/-- The control bits that a trap does not touch. -/
def State.enables (s : State) : Bool × Bool × Bool × Bool :=
  (s.irqTimerEn, s.tagsEn, s.tagsIfEn, s.tagsSkipSpEn)

section clock
variable (s : State) (r : Request)

theorem settled_of_not_we (h : s.we = false) : s.settled = s.ram.mem :=
  step_mem_of_not_we _ _ _ h

@[simp] theorem clock_mem : (s.clock r).ram.mem = s.settled := rfl

@[simp] theorem clock_storedAddr :
    (s.clock r).storedAddr = if r.en then r.addr else s.storedAddr := rfl

@[simp] theorem clock_irqEn :
    (s.clock r).irqEn = if r.we && r.addr == msrMstatus then r.data.getLsbD 3 else s.irqEn := rfl

@[simp] theorem clock_irqTimerEn :
    (s.clock r).irqTimerEn = if r.we && r.addr == msrMie then r.data.getLsbD 7 else s.irqTimerEn :=
  rfl

@[simp] theorem clock_rnd : (s.clock r).rnd = lfsrNext s.rnd := rfl

theorem clock_enables (h : r.we = true → r.addr ≠ msrMie ∧ r.addr ≠ msrMtags) :
    (s.clock r).enables = s.enables := by
  cases hw : r.we with
  | false => simp [State.enables, State.clock, State.step, hw]
  | true =>
      obtain ⟨h₁, h₂⟩ := h hw
      simp [State.enables, State.clock, State.step, h₁, h₂]

theorem rest_we (h : s.we = false) : s.rest.we = false := by
  simp [State.rest, State.clock, State.step, h]

@[simp] theorem rest_settled (h : s.we = false) : s.rest.settled = s.settled := by
  exact (settled_of_not_we _ (rest_we s h)).trans rfl

theorem clock_we (h : s.we = true → s.busy = true) :
    (s.clock r).we = (!s.busy && r.en && r.we) := by
  cases hb : s.busy <;> cases he : r.en <;> simp_all [State.clock, State.step]

/-- A write takes effect if it finds the handshake free. -/
theorem clock_settled (h : s.we = true → s.busy = true) :
    (s.clock r).settled =
      if !s.busy && r.en && r.we then writeWord s.settled r.addr r.data else s.settled := by
  have hw := clock_we s r h
  split_ifs with hacc
  · rw [hacc] at hw
    have hen : r.en = true := by simp_all
    simp only [State.settled, GenericRam.State.step, State.ramIn, hw, true_and]
    simp only [writeWord, State.index, State.clock, State.step, hen, if_true, Bool.false_eq_true,
      if_false]
    rfl
  · rw [Bool.eq_false_iff.mpr hacc] at hw
    exact settled_of_not_we _ hw

/-- Read data: the word of the address that was already latched. -/
theorem clock_dataOut (hw : s.we = false) (hi : (s.clock r).index = s.index)
    (hr : s.index ≠ mRnd) : (s.clock r).dataOut = s.settled s.index := by
  rw [State.dataOut, hi, if_neg hr, settled_of_not_we s hw]
  rfl

theorem rest_dataOut (hw : s.we = false) (hr : s.index ≠ mRnd) :
    s.rest.dataOut = s.settled s.index := by
  unfold State.rest
  exact clock_dataOut s {} hw rfl hr

end clock

/-- What idle clocks keep: the file, the latched address and the control bits. -/
structure Kept (s s' : State) : Prop where
  settled : s'.settled = s.settled
  storedAddr : s'.storedAddr = s.storedAddr
  irqEn : s'.irqEn = s.irqEn
  enables : s'.enables = s.enables

theorem Kept.refl (s : State) : Kept s s := ⟨rfl, rfl, rfl, rfl⟩

theorem Kept.trans {s s' s'' : State} (h : Kept s s') (h' : Kept s' s'') : Kept s s'' :=
  ⟨h'.settled.trans h.settled, h'.storedAddr.trans h.storedAddr, h'.irqEn.trans h.irqEn,
    h'.enables.trans h.enables⟩

theorem kept_rest (s : State) (h : s.we = true → s.busy = true) : Kept s s.rest where
  settled := by
    unfold State.rest
    rw [clock_settled s {} h]
    simp
  storedAddr := rfl
  irqEn := rfl
  enables := rfl

/-! ## Control bits kept twice -/

/-- The addresses that have a slot to themselves. -/
def ownSlots : List (BitVec 12 × BitVec 4) :=
  [(msrMhartid, mHartId), (msrMstatus, mStatus), (msrMisa, mIsa), (msrMie, mIe), (msrMtvec, mTvec),
    (msrMcounteren, mCounteren), (msrMscratch, mScratch), (msrMepc, mEpc), (msrMcause, mCause),
    (msrMtval, mTval), (msrMip, mIp), (msrMtags, mTags), (msrMrnd, mRnd)]

def Slotted (a : BitVec 12) (k : BitVec 4) : Prop := k = mVendorId ∨ (a, k) ∈ ownSlots

theorem Slotted.ite {a x : BitVec 12} {k e : BitVec 4} (hx : Slotted x k) (he : Slotted a e) :
    Slotted a (if a = x then k else e) := by
  split_ifs with h
  · rwa [h]
  · exact he

theorem slotted_csrIndex (a : BitVec 12) : Slotted a (csrIndex a) := by
  unfold csrIndex
  refine Slotted.ite (Or.inl rfl) ?_
  iterate 13 refine Slotted.ite (Or.inr (by decide)) ?_
  exact Or.inl rfl

/-- Only the slot of `mvendorid` is shared. -/
theorem csrIndex_inj {a b : BitVec 12} (h : csrIndex a = csrIndex b)
    (hb : csrIndex b ≠ mVendorId) : a = b := by
  have htable : (ownSlots.all fun p => ownSlots.all fun q => decide (p.2 = q.2 → p.1 = q.1)) =
      true := by decide
  have ha := List.all_eq_true.mp htable _ ((slotted_csrIndex a).resolve_left (h ▸ hb))
  exact of_decide_eq_true (List.all_eq_true.mp ha _ ((slotted_csrIndex b).resolve_left hb)) h

/-- A flip-flop that follows bit `b` of the writes to one address stays related
to the stored bit, provided each such write takes effect or is related to it
already. -/
theorem mirror_clock (addr : BitVec 12) (b : ℕ) {s : State} {r : Request} {flag : Bool}
    {R : Bool → Bool → Prop} (hR : ∀ x, R x x) (hown : csrIndex addr ≠ mVendorId)
    (hlt : (csrIndex addr).toNat < ramWords) (hcw : s.we = true → s.busy = true)
    (hflag : (r.we && r.addr == addr) = false → R flag ((s.settled (csrIndex addr)).getLsbD b))
    (hok : r.we = true → r.addr = addr → (s.busy = false ∧ r.en = true) ∨
      R (r.data.getLsbD b) ((s.settled (csrIndex addr)).getLsbD b)) :
    R (if r.we && r.addr == addr then r.data.getLsbD b else flag)
      (((s.clock r).settled (csrIndex addr)).getLsbD b) := by
  rw [clock_settled s r hcw]
  by_cases hw : (r.we && r.addr == addr) = true
  · rw [if_pos hw]
    obtain ⟨hwe, ha⟩ : r.we = true ∧ r.addr = addr := by simpa using hw
    split_ifs with hacc
    · rw [← ha] at hlt ⊢
      rw [writeWord_self hlt]
      exact hR _
    · refine (hok hwe ha).resolve_left fun h => hacc ?_
      rw [h.1, h.2, hwe]
      rfl
  · rw [Bool.not_eq_true] at hw
    rw [hw, if_neg Bool.false_ne_true]
    have hold := hflag hw
    split_ifs with hacc
    · have hne : r.addr ≠ addr := by
        rintro rfl
        simp_all
      rw [writeWord_of_ne fun he => hne (csrIndex_inj he.symm hown)]
      exact hold
    · exact hold

/-! ## Accesses -/

/-- An access has been taken in the last clock and will leave the file at `m`. -/
structure Access (s : State) (addr : BitVec 12) (we : Bool) (m : BitVec 4 → BitVec 32) : Prop where
  busy : s.busy = true
  addr : s.storedAddr = addr
  we : s.we = we
  settled : s.settled = m

section access
variable {s : State} {addr : BitVec 12} {we : Bool} {m : BitVec 4 → BitVec 32}

/-- What a taken request makes of the file. -/
def Request.effect (r : Request) (m : BitVec 4 → BitVec 32) : BitVec 4 → BitVec 32 :=
  if r.we then writeWord m r.addr r.data else m

theorem access_of_free {r : Request} (hb : s.busy = false) (hw : s.we = false)
    (he : r.en = true) : Access (s.clock r) r.addr r.we (r.effect s.settled) where
  busy := by simp [hb, he]
  addr := by simp [he]
  we := by simp [clock_we s r (by simp [hw]), hb, he]
  settled := by
    rw [clock_settled s r (by simp [hw]), hb, he]
    rfl

/-- The clock after the access was taken: the handshake falls. -/
theorem Access.finish (h : Access s addr we m) (r : Request) :
    (s.clock r).busy = false ∧ (s.clock r).we = false ∧ (s.clock r).settled = m := by
  have hcw : s.we = true → s.busy = true := fun _ => h.busy
  refine ⟨by simp [h.busy], by simp [clock_we s r hcw, h.busy], ?_⟩
  rw [clock_settled s r hcw, h.busy]
  exact h.settled

theorem Access.rest (h : Access s addr we m) :
    s.rest.we = false ∧ s.rest.settled = m ∧ s.rest.index = csrIndex addr := by
  obtain ⟨-, hw, hm⟩ := h.finish {}
  unfold State.rest
  refine ⟨hw, hm, ?_⟩
  rw [State.index, clock_storedAddr, h.addr]
  rfl

/-- A request held for two clocks: the first one finishes the access before. -/
theorem Access.pair (h : Access s addr we m) {r₁ r₂ : Request} (he : r₂.en = true) :
    Access ((s.clock r₁).clock r₂) r₂.addr r₂.we (r₂.effect m) := by
  obtain ⟨hb, hw, hm⟩ := h.finish r₁
  rw [← hm]
  exact access_of_free hb hw he

/-- Between the two clocks the word read by the access before is on the port,
if the address has not changed. -/
theorem Access.read (h : Access s addr false m) {r : Request} (hi : (s.clock r).index = csrIndex addr)
    (hr : csrIndex addr ≠ mRnd) : (s.clock r).dataOut = m (csrIndex addr) := by
  have hs : s.index = csrIndex addr := by rw [State.index, h.addr]
  rw [clock_dataOut s r h.we (hi.trans hs.symm) (hs ▸ hr), h.settled, hs]

end access

end TagSoc.Csr
