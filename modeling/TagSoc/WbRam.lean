import TagSoc.GenericRam

/-!
# The tagged memory

`wb_ram.v`: a word memory of `2 ^ (g + 2)` words and a tag memory of `2 ^ g`
four-bit tags, one per 16-byte granule. Both are synchronous and addressed by
the live bus lines, so the data read at one edge answers in the next clock, and
a write enable set in one clock writes at the end of the next, with the lines
the bus shows then. The tag comparison is made in `STATE_STOP`; its result goes
through `tag_mismatch` into the sticky `irq`.

`stored_addr` and `stored_data` of the source are written but never read and
are left out, as are the optional simulation assertions.
-/
namespace TagSoc.WbRam

inductive RamState where
  | idle | writeWord | stop | writeTag
deriving Repr, DecidableEq

structure State (g : ℕ) where
  state : RamState
  ack : Bool
  irq : Bool
  ramWeR : Bool
  tagWeR : Bool
  tagMismatch : Bool
  ram : GenericRam.State (g + 2) 32
  tag : GenericRam.State g 4

structure Inputs where
  rst : Bool
  addr : BitVec 32
  data : BitVec 32
  sel : BitVec 4
  we : Bool
  cyc : Bool
  stb : Bool
  checkTags : Bool
  clearMismatch : Bool
deriving Repr, DecidableEq

def wbSelByte : BitVec 4 := 0b0001#4
def wbSelHalf : BitVec 4 := 0b0011#4
def wbSelWord : BitVec 4 := 0b1111#4
def wbSelTag : BitVec 4 := 0b0101#4

def wordAddr (g : ℕ) (addr : BitVec 32) : BitVec (g + 2) := addr.extractLsb' 2 (g + 2)
def granuleAddr (g : ℕ) (addr : BitVec 32) : BitVec g := addr.extractLsb' 4 g
def addrTag (addr : BitVec 32) : BitVec 4 := addr.extractLsb' 28 4

namespace Inputs

def accessByte (i : Inputs) : Bool := i.sel == wbSelByte
def accessHalf (i : Inputs) : Bool := i.sel == wbSelHalf
def accessWord (i : Inputs) : Bool := i.sel == wbSelWord
def accessTag (i : Inputs) : Bool := i.sel == wbSelTag
def accessLoadStore (i : Inputs) : Bool := i.accessByte || i.accessHalf || i.accessWord
def ramAccessed (i : Inputs) : Bool := i.cyc && i.stb && i.accessLoadStore
def tagAccessed (i : Inputs) : Bool := i.cyc && i.stb && i.accessTag
def doneInOneTick (i : Inputs) : Bool := !((i.we && i.accessByte) || (i.we && i.accessHalf))

end Inputs

/-- The byte lane a byte access reads. -/
def finalByte (addr : BitVec 32) (word : BitVec 32) : BitVec 8 :=
  if addr.extractLsb' 0 2 = 0#2 then word.extractLsb' 0 8
  else if addr.extractLsb' 0 2 = 1#2 then word.extractLsb' 8 8
  else if addr.extractLsb' 0 2 = 2#2 then word.extractLsb' 16 8
  else word.extractLsb' 24 8

def finalHalf (addr : BitVec 32) (word : BitVec 32) : BitVec 16 :=
  if addr.extractLsb' 0 2 = 0#2 then word.extractLsb' 0 16 else word.extractLsb' 16 16

/-- The word written back for a store: the lanes of the old word that the
access does not cover, and the right-aligned store data. -/
def dataToWrite (sel : BitVec 4) (addr data old : BitVec 32) : BitVec 32 :=
  if sel = wbSelByte then
    if addr.extractLsb' 0 2 = 0#2 then old.extractLsb' 8 24 ++ data.extractLsb' 0 8
    else if addr.extractLsb' 0 2 = 1#2 then
      old.extractLsb' 16 16 ++ data.extractLsb' 0 8 ++ old.extractLsb' 0 8
    else if addr.extractLsb' 0 2 = 2#2 then
      old.extractLsb' 24 8 ++ data.extractLsb' 0 8 ++ old.extractLsb' 0 16
    else data.extractLsb' 0 8 ++ old.extractLsb' 0 24
  else if sel = wbSelHalf then
    if addr.extractLsb' 0 2 = 0#2 then old.extractLsb' 16 16 ++ data.extractLsb' 0 16
    else if addr.extractLsb' 0 2 = 2#2 then data.extractLsb' 0 16 ++ old.extractLsb' 0 16
    else 0#32
  else if sel = wbSelWord then data
  else 0#32

variable {g : ℕ}

/-- `wb_data_o`. -/
def State.dataOut (s : State g) (i : Inputs) : BitVec 32 :=
  if i.ramAccessed || i.tagAccessed then
    if i.sel = wbSelByte then 0#24 ++ finalByte i.addr s.ram.dataOut
    else if i.sel = wbSelHalf then 0#16 ++ finalHalf i.addr s.ram.dataOut
    else if i.sel = wbSelWord then s.ram.dataOut
    else if i.sel = wbSelTag then 0#28 ++ s.tag.dataOut
    else 0#32
  else 0#32

/-- The signals of the combinational block, with the values it assigns first. -/
structure Control where
  nextState : RamState := .idle
  nextAck : Bool := false
  nextTagMismatch : Bool := false
  nextRamWeR : Bool := false
  nextTagWeR : Bool := false

def State.control (s : State g) (i : Inputs) : Control :=
  match s.state with
  | .idle =>
      if i.tagAccessed then { nextState := .stop, nextAck := true, nextTagWeR := i.we }
      else if i.ramAccessed then
        { nextState := if i.doneInOneTick then .stop else .writeWord
          nextAck := true
          nextRamWeR := i.we }
      else {}
  | .writeWord => { nextState := .stop }
  | .stop =>
      { nextTagMismatch := if i.checkTags then addrTag i.addr != s.tag.dataOut else false }
  | .writeTag => { nextState := .writeTag }

def State.step (s : State g) (i : Inputs) : State g :=
  let c := s.control i
  { state := if i.rst then .idle else c.nextState
    ack := if i.rst then false else c.nextAck
    irq := if i.rst then false
      else if i.clearMismatch then false else s.tagMismatch || s.irq
    ramWeR := if i.rst then false else c.nextRamWeR
    tagWeR := if i.rst then false else c.nextTagWeR
    tagMismatch := if i.rst then false else c.nextTagMismatch
    ram := s.ram.step (2 ^ (g + 2))
      { we := s.ramWeR
        data := dataToWrite i.sel i.addr i.data s.ram.dataOut
        wAddr := wordAddr g i.addr
        rAddr := wordAddr g i.addr }
    tag := s.tag.step (2 ^ g)
      { we := s.tagWeR
        data := i.data.extractLsb' 0 4
        wAddr := granuleAddr g i.addr
        rAddr := granuleAddr g i.addr } }

end TagSoc.WbRam
