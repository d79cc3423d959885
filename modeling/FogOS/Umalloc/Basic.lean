import FogOS.Lib.ByteMem

/-!
# The user-level allocator

The functions of `user/umalloc.c`, on the bytes of the process: block headers and free-list nodes
lie in the same memory as the payloads. A pointer is an address and NULL is `0`. User addresses
stay below `MAXVA = 2 ^ 38`, so pointer arithmetic is plain addition; `uint` arithmetic wraps at
`2 ^ 32` and is written out.

A loop over a list gets `addresses = 2 ^ 64` rounds of fuel. A walk that follows links read from
a memory it does not change and takes more rounds than there are addresses has met a node twice
and never ends; `none` stands for that.
-/

namespace FogOS.Umalloc

open ByteMem

/-! ### Machine integers -/

-- Wrap-around of `uint`.
export ByteMem (u32)

/-- Conversion of a `uint` to `int`. -/
def toInt (n : Nat) : Int := if n < 2 ^ 31 then n else (n : Int) - 2 ^ 32

/-- Bound on the number of distinct nodes of a linked list. -/
def addresses : Nat := 2 ^ 64

/-! ### Process state -/

/-- The globals of `umalloc.c`, the memory of the process and its break. -/
structure State where
  mem : Mem
  head : Nat
  tail : Nat
  freeHead : Nat
  currentFsm : Int
  brk : Nat

/-- `sizeof(struct mem_block)`: `name[8]`, `size`, `next_block`, `prev_block`. -/
def memBlockSize : Nat := 32

namespace State

/-! ### Fields of `struct mem_block` and `struct free_list_node` -/

/-- The 64-bit field at offset `off` of the block. -/
def get (s : State) (block off : Nat) : Nat := s.mem.load64 (block + off)

/-- Assignment to the 64-bit field at offset `off` of the block. -/
def put (s : State) (block off v : Nat) : State := { s with mem := s.mem.store64 (block + off) v }

def sizeField (s : State) (block : Nat) : Nat := s.get block 8
def nextBlock (s : State) (block : Nat) : Nat := s.get block 16
def prevBlock (s : State) (block : Nat) : Nat := s.get block 24
def nextFree (s : State) (block : Nat) : Nat := s.get block 32
def prevFree (s : State) (block : Nat) : Nat := s.get block 40

def putSize (s : State) (block v : Nat) : State := s.put block 8 v
def putNextBlock (s : State) (block v : Nat) : State := s.put block 16 v
def putPrevBlock (s : State) (block v : Nat) : State := s.put block 24 v
def putNextFree (s : State) (block v : Nat) : State := s.put block 32 v
def putPrevFree (s : State) (block v : Nat) : State := s.put block 40 v

/-- `memset(block->name, 0, 8)` -/
def clearName (s : State) (block : Nat) : State := { s with mem := s.mem.fill block 8 0 }

/-! ### Size and free bit -/

def setUsed (s : State) (block : Nat) : State :=
  s.putSize block (s.sizeField block &&& (2 ^ 64 - 2))

def setFree (s : State) (block : Nat) : State :=
  s.putSize block (s.sizeField block ||| 1)

def isFree (s : State) (block : Nat) : Bool := s.sizeField block &&& 1 ≠ 0

def getSize (s : State) (block : Nat) : Nat :=
  u32 (s.sizeField block &&& (2 ^ 64 - 2))

def setSize (s : State) (block size : Nat) : State :=
  let wasFree := s.isFree block
  let s := s.putSize block size
  if wasFree then s.setFree block else s

end State

/-! ### Alignment -/

def alignSize (size : Nat) : Nat :=
  if size % 16 = 0 then size else u32 (size + (16 - size % 16))

def alignToPage (size : Nat) : Nat :=
  if size % 4096 = 0 then size else u32 (size + (4096 - size % 4096))

namespace State

/-! ### The system break -/

/-- `PGROUNDUP` -/
def pgRoundUp (sz : Nat) : Nat := (sz + 4095) / 4096 * 4096

/-- The process size after `uvmdealloc` from `oldsz` to `newsz`. -/
def uvmdealloc (oldsz newsz : Nat) : Nat := if newsz ≥ oldsz then oldsz else newsz

/-- `sbrk(n)`, that is `sys_sbrk(n, SBRK_EAGER)` and `growproc`. Growing needs pages, which the
kernel may not have (`grant = false`), and the new pages are zeroed. Shrinking never fails, and a
request below address zero changes nothing. Returns the old break, or `-1`. -/
def sbrk (s : State) (grant : Bool) (n : Int) : State × Nat :=
  if n > 0 then
    if grant then
      let top := s.brk + n.toNat
      let mem := s.mem.fill (pgRoundUp s.brk) (pgRoundUp top - pgRoundUp s.brk) 0
      ({ s with brk := top, mem := mem }, s.brk)
    else (s, 2 ^ 64 - 1)
  else if n < 0 then
    ({ s with brk := uvmdealloc s.brk (((s.brk : Int) + n) % 2 ^ 64).toNat }, s.brk)
  else (s, s.brk)

/-! ### Free list -/

/-- The walk of `free_list_add` to the last node. -/
def freeListLast (s : State) : Nat → Nat → Option Nat
  | 0, _ => none
  | n + 1, current =>
    if s.nextFree current ≠ 0 then freeListLast s n (s.nextFree current) else some current

def freeListAdd (s : State) (block : Nat) : Option State :=
  let s := (s.putNextFree block 0).putPrevFree block 0
  if s.freeHead = 0 then some { s with freeHead := block }
  else do
    let current ← s.freeListLast addresses s.freeHead
    some ((s.putNextFree current block).putPrevFree block current)

def freeListRemove (s : State) (block : Nat) : State :=
  let s := if s.prevFree block ≠ 0 then s.putNextFree (s.prevFree block) (s.nextFree block)
    else { s with freeHead := s.nextFree block }
  if s.nextFree block ≠ 0 then s.putPrevFree (s.nextFree block) (s.prevFree block) else s

/-! ### Block list -/

/-- The walk of `block_list_add` to the insertion point. -/
def blockListFind (s : State) (block : Nat) : Nat → Nat → Option Nat
  | 0, _ => none
  | n + 1, current =>
    if s.nextBlock current ≠ 0 ∧ s.nextBlock current < block then
      blockListFind s block n (s.nextBlock current)
    else some current

def blockListAdd (s : State) (block : Nat) : Option State :=
  if s.head = 0 then
    some (({ s with head := block, tail := block }.putNextBlock block 0).putPrevBlock block 0)
  else if block < s.head then
    let s := (s.putNextBlock block s.head).putPrevBlock block 0
    let s := s.putPrevBlock s.head block
    some { s with head := block }
  else do
    let current ← s.blockListFind block addresses s.head
    let s := (s.putNextBlock block (s.nextBlock current)).putPrevBlock block current
    let s := if s.nextBlock current ≠ 0 then s.putPrevBlock (s.nextBlock current) block
      else { s with tail := block }
    some (s.putNextBlock current block)

def blockListRemove (s : State) (block : Nat) : State :=
  let s := if s.prevBlock block ≠ 0 then s.putNextBlock (s.prevBlock block) (s.nextBlock block)
    else { s with head := s.nextBlock block }
  if s.nextBlock block ≠ 0 then s.putPrevBlock (s.nextBlock block) (s.prevBlock block)
  else { s with tail := s.prevBlock block }

/-! ### Splitting and merging -/

/-- The part of `split` that inserts the new block into the block list, right after `block`. -/
def linkAfter (s : State) (block newBlock : Nat) : State :=
  let s := s.putPrevBlock newBlock block
  let s := s.putNextBlock newBlock (s.nextBlock block)
  let s := if s.nextBlock block ≠ 0 then s.putPrevBlock (s.nextBlock block) newBlock
    else { s with tail := newBlock }
  s.putNextBlock block newBlock

/-- Returns the new block, or NULL when the block is too small to be split. -/
def split (s : State) (block size : Nat) : State × Nat :=
  if block = 0 then (s, 0) else
  let blockSize := s.getSize block
  let minSplitSize := u32 (size + memBlockSize + 16)
  if blockSize < minSplitSize then (s, 0) else
  let remainingSize := u32 (blockSize + 2 ^ 32 - size)
  let s := s.setSize block size
  let newBlock := block + size
  let s := ((s.clearName newBlock).setSize newBlock remainingSize).setFree newBlock
  (s.linkAfter block newBlock, newBlock)

/-- The part of both merges that makes `block` take over its successor `next`: its bytes and its
place in the block list. -/
def absorb (s : State) (block next : Nat) : State :=
  let newSize := u32 (s.getSize block + s.getSize next)
  let s := s.setSize block newSize
  let s := s.putNextBlock block (s.nextBlock next)
  if s.nextBlock next ≠ 0 then s.putPrevBlock (s.nextBlock next) block
  else { s with tail := block }

def mergeWithNext (s : State) (block : Nat) : State :=
  if s.nextBlock block = 0 ∨ ¬ s.isFree (s.nextBlock block) then s else
  let next := s.nextBlock block
  (s.freeListRemove next).absorb block next

def mergeWithPrev (s : State) (block : Nat) : State :=
  if s.prevBlock block = 0 ∨ ¬ s.isFree (s.prevBlock block) then s else
  let prev := s.prevBlock block
  (s.freeListRemove block).absorb prev block

/-! ### Free space -/

/-- The loop of `find_free_block_first_fit`, from `current` on. -/
def firstFitFrom (s : State) (size : Nat) : Nat → Nat → Option Nat
  | 0, _ => none
  | n + 1, current =>
    if current = 0 then some 0
    else if s.getSize current ≥ size then some current
    else firstFitFrom s size n (s.nextFree current)

def findFreeBlockFirstFit (s : State) (size : Nat) : Option Nat :=
  s.firstFitFrom size addresses s.freeHead

/-- The loop of `find_free_block_best_fit`, from `current` on. -/
def bestFitFrom (s : State) (size : Nat) : Nat → Nat → Nat → Nat → Option Nat
  | 0, _, _, _ => none
  | n + 1, current, best, bestSize =>
    if current = 0 then some best
    else if s.getSize current ≥ size ∧ s.getSize current < bestSize then
      bestFitFrom s size n (s.nextFree current) current (s.getSize current)
    else bestFitFrom s size n (s.nextFree current) best bestSize

def findFreeBlockBestFit (s : State) (size : Nat) : Option Nat :=
  s.bestFitFrom size addresses s.freeHead 0 0xFFFFFFFF

/-- The loop of `find_free_block_worst_fit`, from `current` on. -/
def worstFitFrom (s : State) (size : Nat) : Nat → Nat → Nat → Nat → Option Nat
  | 0, _, _, _ => none
  | n + 1, current, worst, worstSize =>
    if current = 0 then some worst
    else if s.getSize current ≥ size ∧ s.getSize current > worstSize then
      worstFitFrom s size n (s.nextFree current) current (s.getSize current)
    else worstFitFrom s size n (s.nextFree current) worst worstSize

def findFreeBlockWorstFit (s : State) (size : Nat) : Option Nat :=
  s.worstFitFrom size addresses s.freeHead 0 0

/-- An algorithm other than `FIRST_FIT`, `BEST_FIT` and `WORST_FIT` never reuses a block. -/
def reuseBlock (s : State) (size : Nat) : Option Nat :=
  if s.currentFsm = 0 then s.findFreeBlockFirstFit size
  else if s.currentFsm = 1 then s.findFreeBlockBestFit size
  else if s.currentFsm = 2 then s.findFreeBlockWorstFit size
  else some 0

/-! ### malloc, free, calloc, realloc -/

/-- `split` followed by `free_list_add` of the new block, if there is one. -/
def splitOff (s : State) (block size : Nat) : Option State :=
  let (s, splitBlock) := s.split block size
  if splitBlock ≠ 0 then s.freeListAdd splitBlock else some s

/-- `grant` is the answer of the kernel, should the call ask for more memory. -/
def malloc (s : State) (grant : Bool) (size : Nat) : Option (State × Nat) :=
  if size = 0 then some (s, 0) else do
  let alignedSz := alignSize size
  let totalSz := u32 (memBlockSize + alignedSz)
  let block ← s.reuseBlock totalSz
  if block ≠ 0 then
    let s := s.setUsed block
    let s := s.freeListRemove block
    let s ← s.splitOff block totalSz
    some (s, block + memBlockSize)
  else
    let pageSz := alignToPage totalSz
    let (s, block) := s.sbrk grant (toInt pageSz)
    if block = 2 ^ 64 - 1 then some (s, 0) else
    let s := s.clearName block
    let s := s.setSize block pageSz
    let s := s.setUsed block
    let s := (s.putNextBlock block 0).putPrevBlock block 0
    let s ← s.blockListAdd block
    let s ← s.splitOff block totalSz
    some (s, block + memBlockSize)

/-- The condition of the loop of `free`. -/
def LargeTail (s : State) : Prop := s.tail ≠ 0 ∧ s.isFree s.tail ∧ s.getSize s.tail ≥ 4096

instance (s : State) : Decidable s.LargeTail := inferInstanceAs (Decidable (_ ∧ _))

/-- The body of the loop of `free`. `sbrk` gets `-release_size` as an `int`; its result is not
looked at. -/
def trimTail (s : State) (grant : Bool) : State :=
  let toRelease := s.tail
  let releaseSize := s.getSize toRelease
  let s := s.freeListRemove toRelease
  let s := s.blockListRemove toRelease
  (s.sbrk grant (toInt (u32 (2 ^ 32 - releaseSize)))).1

/-- The loop of `free` that gives a large free tail back. -/
def releaseTail (grant : Bool) : Nat → State → Option State
  | 0, _ => none
  | n + 1, s => if s.LargeTail then releaseTail grant n (s.trimTail grant) else some s

/-- `free` of a block up to its loop. -/
def freeBlock (s : State) (block : Nat) : Option State := do
  let s := s.setFree block
  let s ← s.freeListAdd block
  let s := s.mergeWithNext block
  some (s.mergeWithPrev block)

def free (s : State) (grant : Bool) (ptr : Nat) : Option State :=
  if ptr = 0 then some s else do
  let s ← s.freeBlock (ptr - memBlockSize)
  releaseTail grant addresses s

end State

/-! ### `memset` and `memmove` of `user/ulib.c` -/

/-- `while(n-- > 0) *dst++ = *src++` -/
def copyUp (m : Mem) (dst src : Nat) : Nat → Mem
  | 0 => m
  | n + 1 => copyUp (m.write dst (m src)) (dst + 1) (src + 1) n

/-- `while(n-- > 0) *--dst = *--src`, with `dst` and `src` first moved `n` bytes up. -/
def copyDown (m : Mem) (dst src : Nat) : Nat → Mem
  | 0 => m
  | n + 1 => copyDown (m.write (dst + n) (m (src + n))) dst src n

/-- The length is an `int`: nothing is copied when it is negative. -/
def memmove (m : Mem) (dst src n : Nat) : Mem :=
  if src > dst then copyUp m dst src (toInt n).toNat else copyDown m dst src (toInt n).toNat

/-- `for(i = 0; i < n; i++) cdst[i] = c` -/
def memset (m : Mem) (dst : Nat) (c : UInt8) : Nat → Mem
  | 0 => m
  | n + 1 => (memset m dst c n).write (dst + n) c

namespace State

def calloc (s : State) (grant : Bool) (nmemb size : Nat) : Option (State × Nat) := do
  let (s, mem) ← s.malloc grant (u32 (nmemb * size))
  if mem = 0 then some (s, 0) else
  some ({ s with mem := memset s.mem mem 0 (u32 (nmemb * size)) }, mem)

/-- The block after this one is free, and both together are large enough. -/
def NextServes (s : State) (block total : Nat) : Prop :=
  s.nextBlock block ≠ 0 ∧ s.isFree (s.nextBlock block) ∧
    u32 (s.getSize block + s.getSize (s.nextBlock block)) ≥ total

instance (s : State) (block total : Nat) : Decidable (s.NextServes block total) :=
  inferInstanceAs (Decidable (_ ∧ _))

/-- The `copy_size` of a `realloc` that moves a block of `oldSize` bytes. -/
def copyLength (oldSize size : Nat) : Nat :=
  if size < u32 (oldSize + 2 ^ 32 - memBlockSize) then size
  else u32 (oldSize + 2 ^ 32 - memBlockSize)

/-- The copy to the new payload. -/
def copyPayload (s : State) (newPtr ptr oldSize size : Nat) : State :=
  { s with mem := memmove s.mem newPtr ptr (copyLength oldSize size) }

def realloc (s : State) (grant : Bool) (ptr size : Nat) : Option (State × Nat) :=
  if ptr = 0 then s.malloc grant size
  else if size = 0 then do
    let s ← s.free grant ptr
    some (s, 0)
  else
  let block := ptr - memBlockSize
  let oldSize := s.getSize block
  let alignedSz := alignSize size
  let newTotalSz := u32 (memBlockSize + alignedSz)
  -- Case 1: the block already has enough space
  if newTotalSz ≤ oldSize then do
    let (s, splitBlock) := s.split block newTotalSz
    if splitBlock ≠ 0 then
      let s ← s.freeListAdd splitBlock
      some (s.mergeWithNext splitBlock, ptr)
    else some (s, ptr)
  -- Case 2: expand into the next block; the node leaves the free list here and once more in the
  -- merge
  else if s.NextServes block newTotalSz then do
    let s := s.freeListRemove (s.nextBlock block)
    let s := s.mergeWithNext block
    let s ← s.splitOff block newTotalSz
    some (s, ptr)
  -- Case 3: allocate, copy, free
  else do
    let (s, newPtr) ← s.malloc grant size
    if newPtr = 0 then some (s, 0) else
    let s := s.copyPayload newPtr ptr oldSize size
    let s ← s.free grant ptr
    some (s, newPtr)

/-! ### Features -/

def mallocSetfsm (s : State) (algorithm : Int) : State := { s with currentFsm := algorithm }

/-- The copy loop of `malloc_name`, with `k` of its seven rounds left. -/
def copyName (block name : Nat) : Nat → Nat → Mem → Mem
  | 0, i, m => m.write (block + i) 0
  | k + 1, i, m =>
    if m (name + i) ≠ 0 then copyName block name k (i + 1) (m.write (block + i) (m (name + i)))
    else m.write (block + i) 0

def mallocName (s : State) (ptr name : Nat) : State :=
  if ptr = 0 ∨ name = 0 then s
  else { s with mem := copyName (ptr - memBlockSize) name 7 0 s.mem }

end State

end FogOS.Umalloc
