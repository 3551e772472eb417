import TagSoc.TaggedMem

/-!
# The allocator of the C library

`malloc.c` and `security.c` (the variant with tags). The heap is a row of
headers, each followed by its block; `malloc` puts a new header behind the last
block and never takes one back. The tags come from a counter that skips zero and
the tag of the system's own data. Both counters are in the granule `sec_cntx`,
the ends of the heap and of the list in the granule `mem_info`. `malloc_init` runs
before `boot.S` enables interrupts; `malloc` serves no request while they are disabled.

Left out: the messages. `memset` is four stores of a zero word. `_ossec_init`
draws random numbers until one fits; here they are a list that may run out. The
loop of the tag counter has a bound that it never reaches.
-/
namespace TagSoc.Malloc
open TaggedMem

/-- Where the linker has put the two granules. -/
structure Layout where
  secCntx : Word
  memInfo : Word

/-! ## Structures -/

-- `struct secure_context_t`
def tagGen : ℕ := 0
def secTag : ℕ := 4

-- `struct memory_subsystem`
def arenaStart : ℕ := 0
def arenaEnd : ℕ := 4
def head : ℕ := 8
def tail : ℕ := 12

-- `alloc_header_t`
def allocSize : ℕ := 0
def nextPtr : ℕ := 4
def isFree : ℕ := 8
def info : ℕ := 12

def magic : Word := 0xff1133aa#32

/-- `sizeof(alloc_header_t)`, and of the other two structures. -/
def sizeofHeader : Word := 16#32

def memsetZero (servingIsr : Bool) (p : Word) : M Unit := do
  store servingIsr (field p 0) 0#32
  store servingIsr (field p 4) 0#32
  store servingIsr (field p 8) 0#32
  store servingIsr (field p 12) 0#32

/-! ## security.c -/

/-- Random numbers are drawn until one is accepted. -/
def drawUntil (accept : Word → Bool) : List Word → M (Word × List Word)
  | [] => throw .exhausted
  | r :: rs =>
      if accept (r &&& 0xf#32) then pure (r &&& 0xf#32, rs) else drawUntil accept rs

/-- The checks are off until the last store. -/
def ossecInit (l : Layout) (random : List Word) : M Unit := do
  storeUnchecked (field l.secCntx 0) 0#32
  storeUnchecked (field l.secCntx 4) 0#32
  storeUnchecked (field l.secCntx 8) 0#32
  storeUnchecked (field l.secCntx 12) 0#32
  let (sec, random) ← drawUntil (fun x => x != 0#32) random
  storeUnchecked (field l.secCntx secTag) sec
  let (gen, _) ← drawUntil (fun x => x != 0#32 && x != sec) random
  storeUnchecked (field l.secCntx tagGen) gen
  storeTag l.secCntx (sec.setWidth 4)

def ossecGetProtectedPtr (ptr : Word) : M Word := do
  let t ← loadTag (essence ptr)
  pure (tagged ptr t)

def ossecGetSecurePtr (ptr : Word) : M Word := ossecGetProtectedPtr ptr

def ossecGetEssence (ptr : Word) : Word := essence ptr

/-- The `do` loop of `_ossec_generate_tag`. -/
def skipTags (servingIsr : Bool) (ptr : Word) : ℕ → M Unit
  | 0 => throw .exhausted
  | fuel + 1 => do
      let gen ← load servingIsr (field ptr tagGen)
      store servingIsr (field ptr tagGen) ((gen + 1#32) &&& 0xf#32)
      let gen ← load servingIsr (field ptr tagGen)
      if gen = 0#32 then skipTags servingIsr ptr fuel
      else do
        let gen ← load servingIsr (field ptr tagGen)
        let sec ← load servingIsr (field ptr secTag)
        if gen = sec then skipTags servingIsr ptr fuel else pure ()

def ossecGenerateTag (l : Layout) (servingIsr : Bool) : M Word := do
  let ptr ← ossecGetProtectedPtr l.secCntx
  let newTag ← load servingIsr (field ptr tagGen)
  skipTags servingIsr ptr 16
  pure newTag

/-- The loop of `_ossec_protect_ptr`. -/
def tagGranules (tag addressToTag : Word) : ℕ → M Unit
  | 0 => pure ()
  | n + 1 => do
      storeTag addressToTag (tag.setWidth 4)
      tagGranules tag (addressToTag + 16#32) n

def ossecProtectPtr (l : Layout) (servingIsr : Bool) (ptr size : Word) : M Word := do
  let tag ← ossecGenerateTag l servingIsr
  if ptr % 16#32 ≠ 0#32 then throw .alignment
  else do
    let untaggedPtr := essence ptr
    let granulesToTag := size / 16#32 + (if size % 16#32 ≠ 0#32 then 1#32 else 0#32)
    tagGranules tag untaggedPtr granulesToTag.toNat
    pure (untaggedPtr ||| tag <<< 28)

/-! ## malloc.c -/

def alignto (p : Word) (bits : ℕ) : Word := (p >>> bits) <<< bits

def aligntonext (p : Word) (bits : ℕ) : Word := alignto (p + (1#32 <<< bits) - 1#32) bits

def mallocInit (l : Layout) (servingIsr : Bool) (heapStart heapEnd : Word) : M Unit := do
  let sInfo ← ossecProtectPtr l servingIsr l.memInfo sizeofHeader
  memsetZero servingIsr sInfo
  store servingIsr (field sInfo arenaStart) heapStart
  store servingIsr (field sInfo arenaEnd) heapEnd
  let ptr ← ossecProtectPtr l servingIsr heapStart sizeofHeader
  store servingIsr (field ptr allocSize) 0#32
  store servingIsr (field ptr nextPtr) 0#32
  store servingIsr (field ptr isFree) 0#32
  store servingIsr (field ptr info) magic
  store servingIsr (field sInfo head) ptr
  store servingIsr (field sInfo tail) ptr

def findFreeBlock (l : Layout) (servingIsr : Bool) (size : Word) : M Word := do
  let sInfo ← ossecGetSecurePtr l.memInfo
  let header ← load servingIsr (field sInfo tail)
  let free ← load servingIsr (field header isFree)
  if free = 0#32 then pure 0#32
  else do
    let available ← load servingIsr (field header allocSize)
    if size ≤ available then pure header else pure 0#32

/-- The part of `malloc` behind the search. -/
def mallocNew (l : Layout) (servingIsr : Bool) (size : Word) : M Word := do
  let sInfo ← ossecGetSecurePtr l.memInfo
  let last ← load servingIsr (field sInfo tail)
  let rawPtr := ossecGetEssence last
  let last ← load servingIsr (field sInfo tail)
  let lastSize ← load servingIsr (field last allocSize)
  let nextLocation := rawPtr + lastSize + sizeofHeader
  let szAllocation := nextLocation + size + sizeofHeader
  let stop ← load servingIsr (field sInfo arenaEnd)
  if stop < szAllocation then pure 0#32
  else do
    let header ← ossecProtectPtr l servingIsr nextLocation sizeofHeader
    store servingIsr (field header allocSize) size
    store servingIsr (field header isFree) 0#32
    store servingIsr (field header nextPtr) 0#32
    store servingIsr (field header info) magic
    let last ← load servingIsr (field sInfo tail)
    store servingIsr (field last nextPtr) header
    store servingIsr (field sInfo tail) header
    ossecProtectPtr l servingIsr (nextLocation + sizeofHeader) size

def malloc (l : Layout) (servingIsr : Bool) (size : Word) : M Word :=
  if size = 0#32 then pure 0#32
  else if servingIsr then pure 0#32
  else do
    let size := aligntonext size 4
    let freeHeader ← findFreeBlock l servingIsr size
    if freeHeader ≠ 0#32 then do
      store servingIsr (field freeHeader isFree) 0#32
      ossecGetSecurePtr (field freeHeader 16)
    else mallocNew l servingIsr size

/-- Blocks are never taken back. -/
def free (_ptr : Word) : M Unit := pure ()

end TagSoc.Malloc
