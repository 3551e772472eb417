import TagSoc.BitSlices

/-!
# The fetch-flow model

`models/c_ext/main.cpp`: six states that take a memory of words apart into
instructions of one and of two halfwords. A halfword `0x0003` starts a long
instruction. The upper half of a word is kept when only the lower half was used,
and the address is counted in words.

`parse` is the meaning of a stream of halfwords. `Before` ties a state of the machine
to what is left of the stream.
-/
namespace TagSoc.CExt

abbrev Word := BitVec 32
abbrev Half := BitVec 16

inductive EnState where
  | prefetch | fetchWord | fetchMore | decode32 | decode16 | exec
deriving Repr, DecidableEq

structure CpuContext where
  pc : Word
  nextPc : Word
  decodeSlot : Word
  parcelLow : Half
  parcelHigh : Half
  fetchedData : Word
  reuseHigh : Bool
  state : EnState
deriving Repr, DecidableEq

/-- The members without an initialiser have any value. -/
def CpuContext.initial (decodeSlot : Word) (parcelLow parcelHigh : Half) (fetchedData : Word) :
    CpuContext where
  pc := 0#32
  nextPc := 0#32
  decodeSlot := decodeSlot
  parcelLow := parcelLow
  parcelHigh := parcelHigh
  fetchedData := fetchedData
  reuseHigh := false
  state := .fetchWord

inductive Error where
  | outOfRange
deriving Repr, DecidableEq

/-- What the two decode states print. -/
inductive Decoded where
  | slot32 (decodeSlot : Word)
  | slot16 (decodeSlot : Word)
deriving Repr, DecidableEq

/-! ## One call -/

/-- `vector::at` -/
def memAt (mem : List Word) (i : Word) : Except Error Word :=
  match mem[i.toNat]? with
  | some w => .ok w
  | none => .error .outOfRange

namespace CpuContext

def doFetch (mem : List Word) (c : CpuContext) : Except Error CpuContext := do
  let fetched ← memAt mem c.pc
  let low := (fetched &&& 0xffff#32).setWidth 16
  let high := (fetched >>> 16).setWidth 16
  let c := { c with fetchedData := fetched, parcelLow := low, parcelHigh := high }
  if low = 0x3#16 then
    pure { c with decodeSlot := fetched, reuseHigh := false, state := .decode32 }
  else
    pure { c with reuseHigh := true, decodeSlot := low.setWidth 32, state := .decode16 }

def doMore (mem : List Word) (c : CpuContext) : Except Error CpuContext := do
  let fetched ← memAt mem c.nextPc
  pure
    { c with
      fetchedData := fetched
      decodeSlot := c.parcelHigh.setWidth 32 ||| (fetched &&& 0xffff#32) <<< 16
      parcelHigh := (fetched >>> 16).setWidth 16
      reuseHigh := true
      state := .decode32 }

def doDecode32 (c : CpuContext) : CpuContext := { c with state := .exec, nextPc := c.pc + 1#32 }

def doDecode16 (c : CpuContext) : CpuContext := { c with state := .exec }

def doExec (c : CpuContext) : CpuContext := { c with state := .prefetch }

def doPrefetch (c : CpuContext) : CpuContext :=
  let c := { c with pc := c.nextPc }
  if c.reuseHigh && c.parcelHigh == 0x3#16 then
    { c with reuseHigh := false, state := .fetchMore, nextPc := c.pc + 1#32 }
  else if c.reuseHigh then
    { c with
      state := .decode16
      decodeSlot := c.parcelHigh.setWidth 32
      reuseHigh := false
      nextPc := c.pc + 1#32 }
  else { c with state := .fetchWord }

/-- The result of the call and the context after it. -/
def exec (mem : List Word) (c : CpuContext) : Except Error (Bool × CpuContext) :=
  match c.state with
  | .fetchWord =>
      if mem.length ≤ c.pc.toNat then pure (false, c)
      else do pure (true, ← c.doFetch mem)
  | .fetchMore => do pure (true, ← c.doMore mem)
  | .exec => pure (true, c.doExec)
  | .prefetch => pure (true, c.doPrefetch)
  | .decode16 => pure (true, c.doDecode16)
  | .decode32 => pure (true, c.doDecode32)

/-- The slot that a call decodes. -/
def decodes (c : CpuContext) : List Decoded :=
  match c.state with
  | .decode32 => [.slot32 c.decodeSlot]
  | .decode16 => [.slot16 c.decodeSlot]
  | _ => []

end CpuContext

/-! ## Repeated calls -/

/-- At most `n` calls, up to the first that returns `false`: what they decode, and whether
the last one returned `true`. -/
def calls (mem : List Word) : ℕ → CpuContext → Except Error (List Decoded × Bool)
  | 0, _ => pure ([], true)
  | n + 1, c => do
      let (more, c') ← c.exec mem
      if more then
        let (ds, running) ← calls mem n c'
        pure (c.decodes ++ ds, running)
      else pure (c.decodes, false)

/-- The calls end, without an access out of range, and have decoded `ds`. -/
def Finishes (mem : List Word) (c : CpuContext) (ds : List Decoded) : Prop :=
  ∃ n, calls mem n c = .ok (ds, false)

/-! ## The stream -/

def halves (mem : List Word) : List Half :=
  mem.flatMap fun w => [w.extractLsb' 0 16, w.extractLsb' 16 16]

/-- The instructions of a stream; none for a stream that ends in a long instruction
without its second half. -/
def parse : List Half → Option (List Decoded)
  | [] => some []
  | [h] => if h = 0x3#16 then none else some [.slot16 (h.setWidth 32)]
  | h :: h' :: hs =>
      if h = 0x3#16 then (parse hs).map (.slot32 (h' ++ h) :: ·)
      else (parse (h' :: hs)).map (.slot16 (h.setWidth 32) :: ·)

/-- The halfwords of an instruction. -/
def Decoded.halves : Decoded → List Half
  | .slot32 s => [s.extractLsb' 0 16, s.extractLsb' 16 16]
  | .slot16 s => [s.extractLsb' 0 16]

/-! ## Halfwords of words -/

section bits
variable (w : Word)

omit w in
theorem getLsbD_mask (i : ℕ) : (0xffff#32).getLsbD i = decide (i < 16) := by
  have hmask : 0xffff#32 = BitVec.setWidth 32 (BitVec.allOnes 16) := by decide
  rw [hmask, BitVec.getLsbD_setWidth, BitVec.getLsbD_allOnes]
  by_cases h : i < 16 <;> simp [h]
  omega

theorem low_eq : (w &&& 0xffff#32).setWidth 16 = w.extractLsb' 0 16 := by
  apply BitVec.eq_of_getLsbD_eq
  intro i hi
  simp only [BitVec.getLsbD_setWidth, BitVec.getLsbD_and, getLsbD_mask,
    BitVec.getLsbD_extractLsb', Nat.zero_add, hi, decide_true, Bool.true_and, Bool.and_true]

theorem high_eq : (w >>> 16).setWidth 16 = w.extractLsb' 16 16 := by
  apply BitVec.eq_of_getLsbD_eq
  intro i hi
  simp [hi]

theorem slot32_halves (h h' : Half) : (Decoded.slot32 (h' ++ h)).halves = [h, h'] := by
  have hlow := BitSlices.extractLsb'_append_low h' h 0 16 (by decide)
  have hhigh := BitSlices.extractLsb'_append_high h' h 16 16 (by decide)
  rw [Decoded.halves, hlow, hhigh]
  simp

theorem slot16_halves (h : Half) : (Decoded.slot16 (h.setWidth 32)).halves = [h] := by
  have hlow : (h.setWidth 32).extractLsb' 0 16 = h := by
    apply BitVec.eq_of_getLsbD_eq
    intro i hi
    have hlt : i < 32 := by omega
    simp [hi, hlt]
  rw [Decoded.halves, hlow]

/-- What is put together from the kept half and a new word. -/
theorem slot_eq (h : Half) :
    h.setWidth 32 ||| (w &&& 0xffff#32) <<< 16 = w.extractLsb' 0 16 ++ h := by
  apply BitVec.eq_of_getLsbD_eq
  intro i hi
  simp only [BitVec.getLsbD_append, BitVec.getLsbD_or, BitVec.getLsbD_shiftLeft,
    BitVec.getLsbD_setWidth, BitVec.getLsbD_and, BitVec.getLsbD_extractLsb', getLsbD_mask,
    Nat.zero_add]
  by_cases hlow : i < 16
  · simp [hlow, hi]
  · have hup : i - 16 < 16 := by omega
    simp [hlow, hi, hup, BitVec.getLsbD_of_ge h i (by omega)]

end bits

/-- No halfword of the stream is left out and none is used twice. -/
theorem parse_halves {hs : List Half} {ds : List Decoded} (h : parse hs = some ds) :
    ds.flatMap Decoded.halves = hs := by
  induction hs using parse.induct generalizing ds with
  | case1 =>
      rw [parse, Option.some.injEq] at h
      rw [← h]
      rfl
  | case2 => simp [parse] at h
  | case3 h₀ hne =>
      rw [parse, if_neg hne, Option.some.injEq] at h
      rw [← h, List.flatMap_cons, slot16_halves]
      rfl
  | case4 h₁ hs ih =>
      rw [parse, if_pos rfl, Option.map_eq_some_iff] at h
      obtain ⟨ds', hds', rfl⟩ := h
      rw [List.flatMap_cons, slot32_halves, ih hds']
      rfl
  | case5 h₀ h₁ hs hne ih =>
      rw [parse, if_neg hne, Option.map_eq_some_iff] at h
      obtain ⟨ds', hds', rfl⟩ := h
      rw [List.flatMap_cons, slot16_halves, ih hds']
      rfl

/-! ## Calls of a machine that is about to decode -/

section calls
variable {mem : List Word} {c c' : CpuContext} {ds : List Decoded}

theorem Finishes.step (he : c.exec mem = .ok (true, c')) (h : Finishes mem c' ds) :
    Finishes mem c (c.decodes ++ ds) := by
  obtain ⟨n, hn⟩ := h
  exact ⟨n + 1, by simp [calls, he, hn, bind, Except.bind, pure, Except.pure]⟩

theorem finishes_end (hs : c.state = .fetchWord) (hp : mem.length ≤ c.pc.toNat) :
    Finishes mem c [] := by
  refine ⟨1, ?_⟩
  simp [calls, CpuContext.exec, CpuContext.decodes, hs, hp, bind, Except.bind, pure, Except.pure]

theorem memAt_eq {i : Word} {w : Word} {rest : List Word} (h : mem.drop i.toNat = w :: rest) :
    memAt mem i = .ok w := by
  have hget : mem[i.toNat]? = some w := by
    rw [← List.head?_drop, h]
    rfl
  rw [memAt, hget]

/-- The state in which the calls return to the fetch of a word. -/
theorem Finishes.word (hs : c.state = .prefetch) (hr : c.reuseHigh = false)
    (h : Finishes mem { c with pc := c.nextPc, state := .fetchWord } ds) : Finishes mem c ds := by
  have hexec : c.exec mem = .ok (true, { c with pc := c.nextPc, state := .fetchWord }) := by
    simp [CpuContext.exec, hs, CpuContext.doPrefetch, hr, pure, Except.pure]
  have hstep := Finishes.step hexec h
  rwa [CpuContext.decodes, hs] at hstep

/-- A slot that is to be decoded, and the two calls after that. -/
theorem Finishes.decode16 (hs : c.state = .decode16)
    (h : Finishes mem { c with state := .prefetch } ds) :
    Finishes mem c (.slot16 c.decodeSlot :: ds) := by
  have h₁ : c.exec mem = .ok (true, { c with state := .exec }) := by
    simp [CpuContext.exec, hs, CpuContext.doDecode16, pure, Except.pure]
  have h₂ : CpuContext.exec mem { c with state := .exec } =
      .ok (true, { c with state := .prefetch }) := rfl
  have hstep := Finishes.step h₁ (Finishes.step h₂ h)
  rwa [CpuContext.decodes, hs] at hstep

theorem Finishes.decode32 (hs : c.state = .decode32)
    (h : Finishes mem { c with state := .prefetch, nextPc := c.pc + 1#32 } ds) :
    Finishes mem c (.slot32 c.decodeSlot :: ds) := by
  have h₁ : c.exec mem = .ok (true, { c with state := .exec, nextPc := c.pc + 1#32 }) := by
    simp [CpuContext.exec, hs, CpuContext.doDecode32, pure, Except.pure]
  have h₂ : CpuContext.exec mem { c with state := .exec, nextPc := c.pc + 1#32 } =
      .ok (true, { c with state := .prefetch, nextPc := c.pc + 1#32 }) := rfl
  have hstep := Finishes.step h₁ (Finishes.step h₂ h)
  rwa [CpuContext.decodes, hs] at hstep

end calls

/-! ## The machine and the rest of the stream -/

/-- The next instruction starts with the first of the halfwords: those of the words from
the address on, or the upper half of a word and those of the words after it. -/
inductive Before (mem : List Word) (c : CpuContext) (hs : List Half) : Prop
  | word (hst : c.state = .fetchWord) (hn : c.nextPc = c.pc)
      (hrest : halves (mem.drop c.pc.toNat) = hs)
  | reuse (hst : c.state = .prefetch) (hr : c.reuseHigh = true) (hp : c.nextPc.toNat < mem.length)
      (hrest : c.parcelHigh :: halves (mem.drop (c.nextPc.toNat + 1)) = hs)

theorem halves_cons (w : Word) (mem : List Word) :
    halves (w :: mem) = w.extractLsb' 0 16 :: w.extractLsb' 16 16 :: halves mem := rfl

/-- A stream that goes on has a word at the address. -/
theorem drop_of_halves {mem : List Word} {p : ℕ} {h : Half} {hs : List Half}
    (heq : halves (mem.drop p) = h :: hs) :
    ∃ w, mem.drop p = w :: mem.drop (p + 1) ∧ p < mem.length ∧ w.extractLsb' 0 16 = h ∧
      w.extractLsb' 16 16 :: halves (mem.drop (p + 1)) = hs := by
  have hp : p < mem.length := by
    by_contra hge
    rw [List.drop_eq_nil_of_le (Nat.not_lt.mp hge)] at heq
    cases heq
  have hdrop := List.drop_eq_getElem_cons hp
  rw [hdrop, halves_cons] at heq
  obtain ⟨h₁, h₂⟩ := List.cons.inj heq
  exact ⟨_, hdrop, hp, h₁, h₂⟩

section step
variable {mem : List Word} {c : CpuContext} {h h' : Half} {hs : List Half} {ds : List Decoded}

theorem exec_fetch {w : Word} {rest : List Word} (hst : c.state = .fetchWord)
    (hw : mem.drop c.pc.toNat = w :: rest) :
    c.exec mem = .ok (true,
      { c with
        fetchedData := w
        parcelLow := w.extractLsb' 0 16
        parcelHigh := w.extractLsb' 16 16
        decodeSlot := if w.extractLsb' 0 16 = 0x3#16 then w
          else (w.extractLsb' 0 16).setWidth 32
        reuseHigh := decide (w.extractLsb' 0 16 ≠ 0x3#16)
        state := if w.extractLsb' 0 16 = 0x3#16 then .decode32 else .decode16 }) := by
  have hp : ¬ mem.length ≤ c.pc.toNat := by
    intro hle
    rw [List.drop_eq_nil_of_le hle] at hw
    cases hw
  simp only [CpuContext.exec, hst, if_neg hp, CpuContext.doFetch, memAt_eq hw, low_eq, high_eq,
    bind, Except.bind, pure, Except.pure]
  split_ifs with hlow <;> simp [hlow]

theorem exec_more {w : Word} {rest : List Word} (hst : c.state = .fetchMore)
    (hw : mem.drop c.nextPc.toNat = w :: rest) :
    c.exec mem = .ok (true,
      { c with
        fetchedData := w
        decodeSlot := w.extractLsb' 0 16 ++ c.parcelHigh
        parcelHigh := w.extractLsb' 16 16
        reuseHigh := true
        state := .decode32 }) := by
  simp only [CpuContext.exec, hst, CpuContext.doMore, memAt_eq hw, high_eq, slot_eq, bind,
    Except.bind, pure, Except.pure]

/-- The next address of a machine that does not wrap around. -/
theorem succ_toNat (hlen : mem.length < 2 ^ 32) {p : Word} (hp : p.toNat < mem.length) :
    (p + 1#32).toNat = p.toNat + 1 := by
  rw [BitVec.toNat_add, BitVec.toNat_ofNat]
  omega

/-- At the end of the stream. -/
theorem Before.finishes_nil (hb : Before mem c []) : Finishes mem c [] := by
  cases hb with
  | reuse _ _ _ hrest => cases hrest
  | word hst _ hrest =>
      refine finishes_end hst (Nat.not_lt.mp fun hp => ?_)
      rw [List.drop_eq_getElem_cons hp, halves_cons] at hrest
      cases hrest

theorem Before.finishes_short (hlen : mem.length < 2 ^ 32) (hb : Before mem c (h :: hs))
    (hne : h ≠ 0x3#16) (hgo : ∀ c', Before mem c' hs → Finishes mem c' ds) :
    Finishes mem c (.slot16 (h.setWidth 32) :: ds) := by
  cases hb with
  | word hst hn hrest =>
      -- the lower half of a new word; its upper half is kept
      obtain ⟨w, hw, hp, rfl, rfl⟩ := drop_of_halves hrest
      have hexec := exec_fetch hst hw
      rw [if_neg hne, if_neg hne, decide_eq_true hne] at hexec
      rw [← hn] at hp
      have hstep := Finishes.step hexec (.decode16 rfl (hgo _ (.reuse rfl rfl hp (by rw [hn]))))
      rwa [CpuContext.decodes, hst] at hstep
  | reuse hst hr hp hrest =>
      obtain ⟨rfl, rfl⟩ := List.cons.inj hrest
      have hexec : c.exec mem = .ok (true,
          { c with
            pc := c.nextPc, state := .decode16, decodeSlot := c.parcelHigh.setWidth 32
            reuseHigh := false, nextPc := c.nextPc + 1#32 }) := by
        simp [CpuContext.exec, hst, CpuContext.doPrefetch, hr, hne, pure, Except.pure]
      have hstep := Finishes.step hexec (.decode16 rfl (.word rfl rfl
        (hgo _ (.word rfl rfl (by rw [succ_toNat hlen hp])))))
      rwa [CpuContext.decodes, hst] at hstep

theorem Before.finishes_long (hlen : mem.length < 2 ^ 32) (hb : Before mem c (0x3#16 :: h' :: hs))
    (hgo : ∀ c', Before mem c' hs → Finishes mem c' ds) :
    Finishes mem c (.slot32 (h' ++ 0x3#16) :: ds) := by
  cases hb with
  | word hst hn hrest =>
      -- a long instruction in one word
      obtain ⟨w, hw, hp, hlow, htail⟩ := drop_of_halves hrest
      obtain ⟨rfl, rfl⟩ := List.cons.inj htail
      have hexec := exec_fetch hst hw
      rw [if_pos hlow, if_pos hlow] at hexec
      have hstep := Finishes.step hexec (.decode32 rfl (.word rfl (by simp [hlow])
        (hgo _ (.word rfl rfl (by rw [succ_toNat hlen hp])))))
      have hslot : w.extractLsb' 16 16 ++ 0x3#16 = w := by
        rw [← hlow]
        exact BitSlices.halves w
      rw [hslot]
      rwa [CpuContext.decodes, hst] at hstep
  | reuse hst hr hp hrest =>
      -- the kept half and the lower half of the next word, whose upper half is kept
      obtain ⟨hhigh, htail⟩ := List.cons.inj hrest
      obtain ⟨w, hw, hp', rfl, rfl⟩ := drop_of_halves htail
      rw [← succ_toNat hlen hp] at hw hp'
      have hexec : c.exec mem = .ok (true,
          { c with
            pc := c.nextPc, state := .fetchMore, reuseHigh := false
            nextPc := c.nextPc + 1#32 }) := by
        simp [CpuContext.exec, hst, CpuContext.doPrefetch, hr, hhigh, pure, Except.pure]
      have hmore := exec_more (c := { c with
        pc := c.nextPc, state := .fetchMore, reuseHigh := false, nextPc := c.nextPc + 1#32 }) rfl hw
      have hstep := Finishes.step hexec (.step hmore (.decode32 rfl
        (hgo _ (.reuse rfl rfl hp' (by rw [succ_toNat hlen hp])))))
      rw [← hhigh]
      rwa [CpuContext.decodes, hst] at hstep

/-- From the start of an instruction to the end of the memory. -/
theorem Before.finishes (hlen : mem.length < 2 ^ 32) (hb : Before mem c hs)
    (hp : parse hs = some ds) : Finishes mem c ds := by
  induction hs using parse.induct generalizing c ds with
  | case1 =>
      rw [parse, Option.some.injEq] at hp
      rw [← hp]
      exact hb.finishes_nil
  | case2 => simp [parse] at hp
  | case3 h₀ hne =>
      rw [parse, if_neg hne, Option.some.injEq] at hp
      rw [← hp]
      exact hb.finishes_short hlen hne fun c' hc' => hc'.finishes_nil
  | case4 h₁ hs ih =>
      rw [parse, if_pos rfl, Option.map_eq_some_iff] at hp
      obtain ⟨ds', hds', rfl⟩ := hp
      exact hb.finishes_long hlen fun c' hc' => ih hc' hds'
  | case5 h₀ h₁ hs hne ih =>
      rw [parse, if_neg hne, Option.map_eq_some_iff] at hp
      obtain ⟨ds', hds', rfl⟩ := hp
      exact hb.finishes_short hlen hne fun c' hc' => ih hc' hds'

/-! ## Memories that are larger than the address -/

/-- Every 32-bit address is one of a word, so no call returns `false`. -/
theorem exec_true (hlen : 2 ^ 32 ≤ mem.length) (c : CpuContext) :
    ∃ c', c.exec mem = .ok (true, c') := by
  have hword : ∀ i : Word, ∃ w rest, mem.drop i.toNat = w :: rest := by
    intro i
    have hi : i.toNat < mem.length := by
      have hlt := i.isLt
      omega
    exact ⟨_, _, List.drop_eq_getElem_cons hi⟩
  cases hst : c.state with
  | fetchWord =>
      obtain ⟨w, rest, hw⟩ := hword c.pc
      exact ⟨_, exec_fetch hst hw⟩
  | fetchMore =>
      obtain ⟨w, rest, hw⟩ := hword c.nextPc
      exact ⟨_, exec_more hst hw⟩
  | prefetch | decode32 | decode16 | exec =>
      rw [CpuContext.exec, hst]
      exact ⟨_, rfl⟩

theorem not_finishes (hlen : 2 ^ 32 ≤ mem.length) (c : CpuContext) (ds : List Decoded) :
    ¬ Finishes mem c ds := by
  rintro ⟨n, hn⟩
  induction n generalizing c ds with
  | zero => exact Bool.noConfusion (congrArg Prod.snd (Except.ok.inj hn))
  | succ n ih =>
      obtain ⟨c', hc'⟩ := exec_true hlen c
      rw [calls, hc'] at hn
      cases hrec : calls mem n c' with
      | error e => simp [hrec, bind, Except.bind] at hn
      | ok res =>
          obtain ⟨ds', running⟩ := res
          simp only [hrec, bind, Except.bind, pure, Except.pure, if_true, Except.ok.injEq,
            Prod.mk.injEq] at hn
          exact ih c' ds' (by rw [hrec, hn.2])

end step

/-! ## The whole run -/

/-- The machine decodes the instructions of the stream, one after the other and each halfword
once, and stops: on every memory that is smaller than the address space of its counter. -/
theorem fetch_flow_iff {mem : List Word} {ds : List Decoded} (hparse : parse (halves mem) = some ds)
    (decodeSlot : Word) (parcelLow parcelHigh : Half) (fetchedData : Word) :
    (Finishes mem (.initial decodeSlot parcelLow parcelHigh fetchedData) ds ∧
      ds.flatMap Decoded.halves = halves mem) ↔ mem.length < 2 ^ 32 := by
  constructor
  · rintro ⟨hfin, -⟩
    exact Nat.not_le.mp fun hlen => not_finishes hlen _ ds hfin
  · intro hlen
    refine ⟨Before.finishes hlen (.word rfl rfl ?_) hparse, parse_halves hparse⟩
    rfl

/-- The memory of `main`. -/
def mainMemory : List Word :=
  [0x00000003#32, 0x00020011#32, 0x00030001#32, 0x00000001#32, 0x00000002#32, 0x00000000#32,
    0x00000001#32, 0x00000000#32, 0x00000003#32, 0x00000001#32, 0x00000003#32, 0x00000001#32,
    0x00000003#32, 0x00030001#32, 0x00000001#32]

theorem fetch_flow_main :
    Finishes mainMemory (.initial 0#32 0#16 0#16 0#32)
      [.slot32 0x3#32, .slot16 0x11#32, .slot16 0x2#32, .slot16 0x1#32, .slot32 0x10003#32,
        .slot16 0#32, .slot16 0x2#32, .slot16 0#32, .slot16 0#32, .slot16 0#32, .slot16 0x1#32,
        .slot16 0#32, .slot16 0#32, .slot16 0#32, .slot32 0x3#32, .slot16 0x1#32, .slot16 0#32,
        .slot32 0x3#32, .slot16 0x1#32, .slot16 0#32, .slot32 0x3#32, .slot16 0x1#32,
        .slot32 0x10003#32, .slot16 0#32] :=
  ((fetch_flow_iff (by decide) 0#32 0#16 0#16 0#32).mpr (by decide)).1

theorem parse_zeros (n : ℕ) : ∃ ds, parse (List.replicate n 0#16) = some ds := by
  induction n with
  | zero => exact ⟨[], rfl⟩
  | succ n ih =>
      obtain ⟨ds, hds⟩ := ih
      cases n with
      | zero => exact ⟨_, rfl⟩
      | succ n =>
          rw [List.replicate_succ] at hds
          refine ⟨.slot16 0#32 :: ds, ?_⟩
          rw [List.replicate_succ, List.replicate_succ, parse, if_neg (by decide), hds]
          rfl

/-- A memory of `2 ^ 32` words of zeros, all short instructions: the counter returns to the
first word. -/
theorem zeros_never_end : (∃ ds, parse (halves (List.replicate (2 ^ 32) 0#32)) = some ds) ∧
    ∀ ds, ¬ Finishes (List.replicate (2 ^ 32) 0#32) (.initial 0#32 0#16 0#16 0#32) ds := by
  have hhalves : ∀ n, halves (List.replicate n 0#32) = List.replicate (2 * n) 0#16 := by
    intro n
    induction n with
    | zero => rfl
    | succ n ih =>
        rw [List.replicate_succ, halves_cons, ih, Nat.mul_succ, List.replicate_succ,
          List.replicate_succ]
        rfl
  obtain ⟨ds, hds⟩ := parse_zeros (2 * 2 ^ 32)
  refine ⟨⟨ds, ?_⟩, fun ds => ?_⟩
  · rw [hhalves]
    exact hds
  · apply not_finishes
    rw [List.length_replicate]

end TagSoc.CExt
