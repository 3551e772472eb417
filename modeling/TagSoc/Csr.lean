import TagSoc.GenericRam

/-!
# Control and status registers

`csr.v` and `lfsr_rnd.v`. The registers live in a 13-word synchronous memory
behind a two-clock handshake: a request latches address and data and raises
`busy`; in the next clock the word is written (if asked) and the handshake
falls. A request presented while `busy` still replaces the latched address and
data but its write is dropped. Five control bits are kept a second time as
flip-flops, next to the request lines; they follow every write enable, whether
the handshake is busy or not. `tags_skip_sp_en` has no reset.
-/
namespace TagSoc.Csr
open GenericRam

/-! ## Addresses -/

def msrMvendorid : BitVec 12 := 0xF11#12
def msrMhartid : BitVec 12 := 0xF14#12
def msrMstatus : BitVec 12 := 0x300#12
def msrMisa : BitVec 12 := 0x301#12
def msrMie : BitVec 12 := 0x304#12
def msrMtvec : BitVec 12 := 0x305#12
def msrMcounteren : BitVec 12 := 0x306#12
def msrMscratch : BitVec 12 := 0x340#12
def msrMepc : BitVec 12 := 0x341#12
def msrMcause : BitVec 12 := 0x342#12
def msrMtval : BitVec 12 := 0x343#12
def msrMip : BitVec 12 := 0x344#12
def msrMtags : BitVec 12 := 0x345#12
def msrMrnd : BitVec 12 := 0x346#12

def mVendorId : BitVec 4 := 0#4
def mHartId : BitVec 4 := 1#4
def mStatus : BitVec 4 := 2#4
def mIsa : BitVec 4 := 3#4
def mIe : BitVec 4 := 4#4
def mTvec : BitVec 4 := 5#4
def mCounteren : BitVec 4 := 6#4
def mScratch : BitVec 4 := 7#4
def mEpc : BitVec 4 := 8#4
def mCause : BitVec 4 := 9#4
def mTval : BitVec 4 := 10#4
def mIp : BitVec 4 := 11#4
def mTags : BitVec 4 := 12#4
def mRnd : BitVec 4 := 13#4

/-- Every address that is not implemented shares the slot of `mvendorid`. -/
def csrIndex (addr : BitVec 12) : BitVec 4 :=
  if addr = msrMvendorid then mVendorId
  else if addr = msrMhartid then mHartId
  else if addr = msrMstatus then mStatus
  else if addr = msrMisa then mIsa
  else if addr = msrMie then mIe
  else if addr = msrMtvec then mTvec
  else if addr = msrMcounteren then mCounteren
  else if addr = msrMscratch then mScratch
  else if addr = msrMepc then mEpc
  else if addr = msrMcause then mCause
  else if addr = msrMtval then mTval
  else if addr = msrMip then mIp
  else if addr = msrMtags then mTags
  else if addr = msrMrnd then mRnd
  else mVendorId

/-! ## The pseudo-random source -/

def lfsrPoly : BitVec 32 := 0x80200003#32
def lfsrSeed : BitVec 32 := 0xbed4dead#32

def lfsrNext (result : BitVec 32) : BitVec 32 :=
  let toXor := lfsrPoly &&& BitVec.replicate 32 (result.extractLsb' 31 1)
  (result.extractLsb' 0 31 ^^^ toXor.extractLsb' 1 31) ++ result.extractLsb' 31 1

/-! ## The block -/

structure State where
  rnd : BitVec 32
  irqEn : Bool
  irqTimerEn : Bool
  tagsEn : Bool
  tagsIfEn : Bool
  tagsSkipSpEn : Bool
  tagsIrqClear : Bool
  we : Bool
  busy : Bool
  storedAddr : BitVec 12
  storedData : BitVec 32
  ram : GenericRam.State 4 32

/-- The request lines; idle unless a field says otherwise. -/
structure Request where
  en : Bool := false
  we : Bool := false
  addr : BitVec 12 := 0#12
  data : BitVec 32 := 0#32
deriving Repr, DecidableEq

structure Inputs extends Request where
  rst : Bool
deriving Repr, DecidableEq

def ramWords : ℕ := 13

def State.index (s : State) : BitVec 4 := csrIndex s.storedAddr

/-- `csr_data_o`. -/
def State.dataOut (s : State) : BitVec 32 :=
  if s.index = mRnd then s.rnd else s.ram.dataOut

def State.ramIn (s : State) : GenericRam.Inputs 4 32 where
  we := s.we
  data := s.storedData
  wAddr := s.index
  rAddr := s.index

def State.step (s : State) (i : Inputs) : State where
  rnd := if i.rst then lfsrSeed else lfsrNext s.rnd
  irqEn := if i.rst then false
    else if i.we && i.addr == msrMstatus then i.data.getLsbD 3 else s.irqEn
  irqTimerEn := if i.rst then false
    else if i.we && i.addr == msrMie then i.data.getLsbD 7 else s.irqTimerEn
  tagsEn := if i.rst then false
    else if i.we && i.addr == msrMtags then i.data.getLsbD 0 else s.tagsEn
  tagsIfEn := if i.rst then false
    else if i.we && i.addr == msrMtags then i.data.getLsbD 2 else s.tagsIfEn
  tagsSkipSpEn := if i.rst then s.tagsSkipSpEn
    else if i.we && i.addr == msrMtags then i.data.getLsbD 3 else s.tagsSkipSpEn
  tagsIrqClear := if i.rst then false
    else if i.addr == msrMtags then i.data.getLsbD 1 else false
  we := if i.rst then false else if s.busy then false else if i.en then i.we else s.we
  busy := if i.rst then false else if s.busy then false else if i.en then true else s.busy
  storedAddr := if i.rst then s.storedAddr else if i.en then i.addr else s.storedAddr
  storedData := if i.rst then s.storedData else if i.en then i.data else s.storedData
  ram := s.ram.step ramWords s.ramIn

/-- A clock without reset. -/
def State.clock (s : State) (r : Request) : State := s.step { r with rst := false }

/-- A clock with idle request lines. -/
def State.rest (s : State) : State := s.clock {}

/-- The handshake takes a request only when it is free. -/
theorem en_of_step_busy {s : State} {i : Inputs} (h : (s.step i).busy = true) :
    i.rst = false ∧ s.busy = false ∧ i.en = true := by
  revert h
  cases hr : i.rst <;> cases hb : s.busy <;> cases he : i.en <;> simp [State.step, hr, hb, he]

@[simp] theorem clock_busy (s : State) (r : Request) : (s.clock r).busy = (!s.busy && r.en) := by
  cases hb : s.busy <;> simp [State.clock, State.step, hb]

@[simp] theorem rest_busy (s : State) : s.rest.busy = false := by
  simp [State.rest]

end TagSoc.Csr
