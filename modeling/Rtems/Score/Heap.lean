import Mathlib.Logic.Function.Basic
import Rtems.Lib.Run

/-!
# The heap

`heap.c`, `heapallocate.c`, `heapfree.c`, `heapresizeblock.c` and `heapextend.c`, without
`HEAP_PROTECTION`.

* `Cpu`: the addresses of a processor, with arithmetic that wraps around;
* `Heap`: the headers of the blocks in memory, and `Heap_Control`;
* `blockSplit`, `blockAllocate`, `checkBlock`, `allocate`;
* `free`, `resizeBlock`, `extend`;
* `step`: the calls of users, who free and resize what they have got.
-/

namespace Rtems

open Function

/-- `sizeof(uintptr_t)` and `CPU_ALIGNMENT`. -/
structure Cpu where
  word : ℕ
  alignment : ℕ
  word_pos : 0 < word
  alignment_pos : 0 < alignment
  alignment_even : 2 ∣ alignment
  alignment_lt : alignment < 2 ^ (8 * word)

namespace Cpu

variable (c : Cpu)

/-- The number of values of `uintptr_t`. -/
def modulus : ℕ := 2 ^ (8 * c.word)

/-- The sum of two values of `uintptr_t`. -/
def add (a b : ℕ) : ℕ := (a + b) % c.modulus

/-- The difference of two values of `uintptr_t`. -/
def sub (a b : ℕ) : ℕ := (a + c.modulus - b) % c.modulus

/-- `HEAP_BLOCK_HEADER_SIZE`. -/
def headerSize : ℕ := 2 * c.word

def allocBonus : ℕ := c.word

def alignUp (value alignment : ℕ) : ℕ :=
  let remainder := value % alignment
  if remainder ≠ 0 then c.add (c.sub value remainder) alignment else value

def alignDown (value alignment : ℕ) : ℕ := value - value % alignment

/-- `_Heap_Min_block_size`; a `Heap_Block` has four words. -/
def minBlockSize (pageSize : ℕ) : ℕ := c.alignUp (4 * c.word) pageSize

def allocAreaOfBlock (block : ℕ) : ℕ := c.add block c.headerSize

def blockOfAllocArea (allocBegin pageSize : ℕ) : ℕ :=
  c.sub (alignDown allocBegin pageSize) c.headerSize

end Cpu

open Cpu (alignDown)

/-- `Heap_Block *`: the head of the free list, or a block in memory. -/
inductive HeapRef
  | freeList
  | block (address : ℕ)
  deriving DecidableEq

structure HeapBlock where
  prevSize : ℕ
  sizeAndFlag : ℕ
  next : HeapRef
  prev : HeapRef
  deriving DecidableEq

structure HeapStatistics where
  lifetimeAllocated : ℕ
  lifetimeFreed : ℕ
  size : ℕ
  freeSize : ℕ
  minFreeSize : ℕ
  freeBlocks : ℕ
  maxFreeBlocks : ℕ
  usedBlocks : ℕ
  maxSearch : ℕ
  searches : ℕ
  allocs : ℕ
  failedAllocs : ℕ
  frees : ℕ
  resizes : ℕ
  deriving DecidableEq

/-- `Heap_Control` and the memory: the header at each address. -/
structure Heap where
  block : HeapRef → HeapBlock
  pageSize : ℕ
  minBlockSize : ℕ
  areaBegin : ℕ
  areaEnd : ℕ
  firstBlock : ℕ
  lastBlock : ℕ
  stats : HeapStatistics

inductive HeapResizeStatus
  | successful
  | unsatisfied
  | fatalError
  deriving DecidableEq

/-- `++` for a `uint32_t`. -/
def increment (n : ℕ) : ℕ := if n + 1 < 2 ^ 32 then n + 1 else 0

/-- `--` for a `uint32_t`. -/
def decrement (n : ℕ) : ℕ := if n = 0 then 2 ^ 32 - 1 else n - 1

/-- `x | HEAP_PREV_BLOCK_USED`. -/
def withFlag (x : ℕ) : ℕ := x - x % 2 + 1

/-- `x & ~HEAP_PREV_BLOCK_USED`. -/
def withoutFlag (x : ℕ) : ℕ := x - x % 2

namespace Heap

variable (c : Cpu) (h : Heap)

/-! ## Blocks -/

def header (b : ℕ) : HeapBlock := h.block (.block b)

def setPrevSize (b size : ℕ) : Heap :=
  { h with block := update h.block (.block b) { h.header b with prevSize := size } }

def setSizeAndFlag (b sizeAndFlag : ℕ) : Heap :=
  { h with
    block := update h.block (.block b) { h.header b with sizeAndFlag := sizeAndFlag } }

def setNext (r next : HeapRef) : Heap :=
  { h with block := update h.block r { h.block r with next := next } }

def setPrev (r prev : HeapRef) : Heap :=
  { h with block := update h.block r { h.block r with prev := prev } }

def withStats (f : HeapStatistics → HeapStatistics) : Heap := { h with stats := f h.stats }

def blockSize (b : ℕ) : ℕ := withoutFlag (h.header b).sizeAndFlag

def IsPrevUsed (b : ℕ) : Prop := (h.header b).sizeAndFlag % 2 = 1

instance (b : ℕ) : Decidable (h.IsPrevUsed b) := inferInstanceAs (Decidable (_ = _))

/-- `_Heap_Block_set_size`. -/
def setSize (b size : ℕ) : Heap :=
  h.setSizeAndFlag b (if h.IsPrevUsed b then withFlag size else size)

/-- Set the flag `HEAP_PREV_BLOCK_USED` of a block. -/
def setFlag (b : ℕ) : Heap := h.setSizeAndFlag b (withFlag (h.header b).sizeAndFlag)

/-- Clear the flag `HEAP_PREV_BLOCK_USED` of a block. -/
def clearFlag (b : ℕ) : Heap := h.setSizeAndFlag b (withoutFlag (h.header b).sizeAndFlag)

def IsUsed (b : ℕ) : Prop := h.IsPrevUsed (c.add b (h.blockSize b))

instance (b : ℕ) : Decidable (h.IsUsed c b) := inferInstanceAs (Decidable (h.IsPrevUsed _))

def IsBlockInHeap (b : ℕ) : Prop := h.firstBlock ≤ b ∧ b ≤ h.lastBlock

instance (b : ℕ) : Decidable (h.IsBlockInHeap b) := inferInstanceAs (Decidable (_ ∧ _))

def setLastBlockSize : Heap := h.setSize h.lastBlock (c.sub h.firstBlock h.lastBlock)

/-! ## The free list -/

def freeListRemove (b : ℕ) : Heap :=
  let next := (h.header b).next
  let prev := (h.header b).prev
  (h.setNext prev next).setPrev next prev

def freeListReplace (oldBlock newBlock : ℕ) : Heap :=
  let next := (h.header oldBlock).next
  let prev := (h.header oldBlock).prev
  let h₁ := (h.setNext (.block newBlock) next).setPrev (.block newBlock) prev
  (h₁.setPrev next (.block newBlock)).setNext prev (.block newBlock)

def freeListInsertAfter (blockBefore : HeapRef) (newBlock : ℕ) : Heap :=
  let next := (h.block blockBefore).next
  let h₁ := (h.setNext (.block newBlock) next).setPrev (.block newBlock) blockBefore
  (h₁.setNext blockBefore (.block newBlock)).setPrev next (.block newBlock)

def freeListInsertBefore (blockNext : HeapRef) (newBlock : ℕ) : Heap :=
  let prev := (h.block blockNext).prev
  let h₁ := (h.setNext (.block newBlock) blockNext).setPrev (.block newBlock) prev
  (h₁.setNext prev (.block newBlock)).setPrev blockNext (.block newBlock)

end Heap

/-! ## Initialization -/

def getFirstAndLastBlock (c : Cpu) (heapAreaBegin heapAreaSize pageSize minBlockSize : ℕ) :
    Option (ℕ × ℕ) :=
  let heapAreaEnd := c.add heapAreaBegin heapAreaSize
  let allocAreaBegin := c.alignUp (c.add heapAreaBegin c.headerSize) pageSize
  let firstBlockBegin := c.sub allocAreaBegin c.headerSize
  let overhead := c.add c.headerSize (c.sub firstBlockBegin heapAreaBegin)
  let firstBlockSize := alignDown (c.sub heapAreaSize overhead) pageSize
  if heapAreaEnd < heapAreaBegin ∨ heapAreaSize ≤ overhead ∨ firstBlockSize < minBlockSize then none
  else some (firstBlockBegin, c.add firstBlockBegin firstBlockSize)

/-- `_Heap_Initialize`, with the memory as it is; none for zero. -/
def Heap.initial (c : Cpu) (memory : HeapRef → HeapBlock)
    (heapAreaBegin heapAreaSize pageSize : ℕ) : Option Heap := do
  let pageSize := if pageSize = 0 then c.alignment else c.alignUp pageSize c.alignment
  if pageSize < c.alignment then none
  else
    let minBlockSize := c.minBlockSize pageSize
    let (firstBlock, lastBlock) ←
      getFirstAndLastBlock c heapAreaBegin heapAreaSize pageSize minBlockSize
    let firstBlockSize := c.sub lastBlock firstBlock
    let heapAreaEnd := c.add heapAreaBegin heapAreaSize
    let h : Heap :=
      { block := update (update memory .freeList
          ⟨0, 0, .block firstBlock, .block firstBlock⟩) (.block firstBlock)
          ⟨heapAreaEnd, withFlag firstBlockSize, .freeList, .freeList⟩
        pageSize := pageSize
        minBlockSize := minBlockSize
        areaBegin := heapAreaBegin
        areaEnd := heapAreaEnd
        firstBlock := firstBlock
        lastBlock := lastBlock
        stats := ⟨0, 0, firstBlockSize, firstBlockSize, firstBlockSize, 1, 1, 0, 0, 0, 0, 0, 0, 0⟩ }
    some (((h.setPrevSize lastBlock firstBlockSize).setSizeAndFlag lastBlock 0).setLastBlockSize c)

namespace Heap

variable (c : Cpu) (h : Heap)

/-! ## Allocation -/

/-- The last part of a split: the free block and the header behind it. -/
def setFree (freeBlock freeBlockSize nextBlock : ℕ) : Heap :=
  ((h.setSizeAndFlag freeBlock (withFlag freeBlockSize)).setPrevSize nextBlock
    freeBlockSize).clearFlag nextBlock

def blockSplit (b : ℕ) (freeListAnchor : HeapRef) (allocSize : ℕ) : Heap :=
  let minAllocSize := c.sub h.minBlockSize c.headerSize
  let blockSize := h.blockSize b
  let usedSize := c.add (max allocSize minAllocSize) c.headerSize
  let usedBlockSize := c.alignUp usedSize h.pageSize
  let freeSize := c.sub (c.add blockSize c.allocBonus) usedSize
  let freeSizeLimit := c.add h.minBlockSize c.allocBonus
  let nextBlock := c.add b blockSize
  if freeSizeLimit ≤ freeSize then
    let freeBlock := c.add b usedBlockSize
    let freeBlockSize := c.sub blockSize usedBlockSize
    let h₁ := (h.setSize b usedBlockSize).withStats fun s =>
      { s with freeSize := c.add s.freeSize freeBlockSize }
    if h₁.IsUsed c nextBlock then
      let h₂ := (h₁.freeListInsertAfter freeListAnchor freeBlock).withStats fun s =>
        { s with freeBlocks := increment s.freeBlocks }
      h₂.setFree freeBlock freeBlockSize nextBlock
    else
      let freeBlockSize := c.add freeBlockSize (h₁.blockSize nextBlock)
      (h₁.freeListReplace nextBlock freeBlock).setFree freeBlock freeBlockSize
        (c.add freeBlock freeBlockSize)
  else h.setFlag nextBlock

def blockAllocateFromBegin (b : ℕ) (freeListAnchor : HeapRef) (allocSize : ℕ) : ℕ × Heap :=
  (b, h.blockSplit c b freeListAnchor allocSize)

def blockAllocateFromEnd (b : ℕ) (freeListAnchor : HeapRef) (allocBegin allocSize : ℕ) : ℕ × Heap :=
  let blockEnd := c.add b (h.blockSize b)
  let newBlock := c.blockOfAllocArea allocBegin h.pageSize
  let newBlockSize := c.sub blockEnd newBlock
  let blockSize := c.sub newBlock b
  let h₁ := h.withStats fun s => { s with freeSize := c.add s.freeSize blockSize }
  if h₁.IsPrevUsed b then
    let h₂ := (h₁.freeListInsertAfter freeListAnchor b).withStats fun s =>
      { s with freeBlocks := increment s.freeBlocks }
    let h₃ := ((h₂.setSizeAndFlag b (withFlag blockSize)).setPrevSize newBlock
      blockSize).setSizeAndFlag newBlock newBlockSize
    (newBlock, h₃.blockSplit c newBlock (.block b) allocSize)
  else
    let prevBlock := c.sub b (h₁.header b).prevSize
    let blockSize := c.add blockSize (h₁.blockSize prevBlock)
    let h₃ := ((h₁.setSizeAndFlag prevBlock (withFlag blockSize)).setPrevSize newBlock
      blockSize).setSizeAndFlag newBlock newBlockSize
    (newBlock, h₃.blockSplit c newBlock freeListAnchor allocSize)

/-- The last part of `_Heap_Block_allocate`. -/
def minFree : Heap :=
  h.withStats fun s => { s with minFreeSize := min s.minFreeSize s.freeSize }

def blockAllocate (b allocBegin allocSize : ℕ) : ℕ × Heap :=
  let allocAreaOffset := c.sub allocBegin (c.allocAreaOfBlock b)
  let (h₁, freeListAnchor) :=
    if ¬ h.IsUsed c b then
      ((h.freeListRemove b).withStats fun s =>
        { s with
          freeBlocks := decrement s.freeBlocks
          usedBlocks := increment s.usedBlocks
          freeSize := c.sub s.freeSize (h.blockSize b) }, (h.header b).prev)
    else (h, .freeList)
  let (b', h₂) :=
    if allocAreaOffset < h.pageSize then
      h₁.blockAllocateFromBegin c b freeListAnchor (c.add allocSize allocAreaOffset)
    else h₁.blockAllocateFromEnd c b freeListAnchor allocBegin allocSize
  (b', h₂.minFree)

/-- The loop of `_Heap_Check_block`: the begin that meets the boundary. -/
def boundaryLoop (allocSize alignment boundary boundaryFloor : ℕ) : ℕ → ℕ → Option ℕ
  | 0, _ => none
  | fuel + 1, allocBegin =>
    let allocEnd := c.add allocBegin allocSize
    let boundaryLine := alignDown allocEnd boundary
    if allocBegin < boundaryLine ∧ boundaryLine < allocEnd then
      if boundaryLine < boundaryFloor then none
      else boundaryLoop allocSize alignment boundary boundaryFloor fuel
        (alignDown (c.sub boundaryLine allocSize) alignment)
    else some allocBegin

/-- `_Heap_Check_block`; none is zero. Each round lowers the end of the area. -/
def checkBlock (b allocSize alignment boundary : ℕ) : Option ℕ := do
  let blockEnd := c.add b (h.blockSize b)
  let allocBeginFloor := c.allocAreaOfBlock b
  let allocBeginCeiling :=
    c.sub (c.add (c.add (c.sub blockEnd h.minBlockSize) c.headerSize) h.pageSize) 1
  let begin₁ := alignDown (c.sub (c.add blockEnd c.allocBonus) allocSize) alignment
  let begin₂ := if allocBeginCeiling < begin₁ then alignDown allocBeginCeiling alignment else begin₁
  let boundaryFloor := c.add allocBeginFloor allocSize
  let allocBegin ← (if boundary = 0 then some begin₂
    else boundaryLoop c allocSize alignment boundary boundaryFloor (c.modulus + 1) begin₂)
  if allocBeginFloor ≤ allocBegin then
    let freeSize := c.sub (c.blockOfAllocArea allocBegin h.pageSize) b
    if h.minBlockSize ≤ freeSize ∨ freeSize = 0 then some allocBegin else none
  else none

/-- Where an allocation begins in a block of the free list, if it fits. -/
def fits (allocSize alignment boundary b : ℕ) : Option ℕ :=
  let blockSizeFloor := c.sub (c.add allocSize c.headerSize) c.allocBonus
  if blockSizeFloor < (h.header b).sizeAndFlag then
    if alignment = 0 then some (c.allocAreaOfBlock b)
    else h.checkBlock c b allocSize alignment boundary
  else none

/-- The search in the free list: the block, the begin of the area, the blocks seen. -/
def search (allocSize alignment boundary : ℕ) : ℕ → HeapRef → ℕ → Option (ℕ × ℕ) × ℕ
  | 0, _, searchCount => (none, searchCount)
  | _ + 1, .freeList, searchCount => (none, searchCount)
  | fuel + 1, .block b, searchCount =>
    match h.fits c allocSize alignment boundary b with
    | some allocBegin => (some (b, allocBegin), increment searchCount)
    | none => search allocSize alignment boundary fuel (h.header b).next (increment searchCount)

/-- `_Heap_Allocate_aligned_with_boundary`; zero is `NULL`. -/
def allocate (allocSize alignment boundary : ℕ) : ℕ × Heap :=
  let blockSizeFloor := c.sub (c.add allocSize c.headerSize) c.allocBonus
  if blockSizeFloor < allocSize then (0, h)
  else if boundary ≠ 0 ∧ boundary < allocSize then (0, h)
  else
    let alignment := if boundary ≠ 0 ∧ alignment = 0 then h.pageSize else alignment
    let (found, searchCount) := h.search c allocSize alignment boundary c.modulus
      (h.block .freeList).next 0
    let (allocBegin, h₁) := match found with
      | some (b, allocBegin) =>
        let (b', h₁) := h.blockAllocate c b allocBegin allocSize
        (allocBegin, h₁.withStats fun s =>
          { s with
            allocs := increment s.allocs
            searches := (s.searches + searchCount) % 2 ^ 32
            lifetimeAllocated := (s.lifetimeAllocated + h₁.blockSize b') % 2 ^ 64 })
      | none => (0, h.withStats fun s => { s with failedAllocs := increment s.failedAllocs })
    (allocBegin, h₁.withStats fun s => { s with maxSearch := max s.maxSearch searchCount })

/-! ## Freeing -/

/-- Coalesce a block with the free ones before and behind it. -/
def coalesceBoth (prevBlock nextBlock size : ℕ) : Heap :=
  let h₁ := (h.freeListRemove nextBlock).withStats fun s =>
    { s with freeBlocks := decrement s.freeBlocks }
  (h₁.setSizeAndFlag prevBlock (withFlag size)).setPrevSize (c.add prevBlock size) size

/-- Coalesce a block with the free one before it. -/
def coalescePrev (prevBlock nextBlock size : ℕ) : Heap :=
  ((h.setSizeAndFlag prevBlock (withFlag size)).clearFlag nextBlock).setPrevSize nextBlock size

/-- Coalesce a block with the free one behind it. -/
def coalesceNext (b nextBlock size : ℕ) : Heap :=
  ((h.freeListReplace nextBlock b).setSizeAndFlag b (withFlag size)).setPrevSize (c.add b size) size

def noCoalesce (b nextBlock size : ℕ) : Heap :=
  let h₁ := ((((h.freeListInsertAfter .freeList b).setSizeAndFlag b (withFlag size)).clearFlag
    nextBlock).setPrevSize nextBlock size)
  h₁.withStats fun s =>
    { s with
      freeBlocks := increment s.freeBlocks
      maxFreeBlocks := max s.maxFreeBlocks (increment s.freeBlocks) }

/-- The statistics of `_Heap_Free`. -/
def countFree (blockSize : ℕ) : Heap :=
  h.withStats fun s =>
    { s with
      usedBlocks := decrement s.usedBlocks
      frees := increment s.frees
      freeSize := c.add s.freeSize blockSize
      lifetimeFreed := (s.lifetimeFreed + blockSize) % 2 ^ 64 }

def free (allocBegin : ℕ) : Bool × Heap :=
  if allocBegin = 0 then (true, h)
  else
    let b := c.blockOfAllocArea allocBegin h.pageSize
    let blockSize := h.blockSize b
    let nextBlock := c.add b blockSize
    if ¬ h.IsBlockInHeap b then (false, h)
    else if ¬ h.IsBlockInHeap nextBlock then (false, h)
    else if ¬ h.IsPrevUsed nextBlock then (false, h)
    else
      let nextBlockSize := h.blockSize nextBlock
      let nextIsFree : Bool :=
        nextBlock ≠ h.lastBlock ∧ ¬ h.IsPrevUsed (c.add nextBlock nextBlockSize)
      if ¬ h.IsPrevUsed b then
        let prevSize := (h.header b).prevSize
        let prevBlock := c.sub b prevSize
        if ¬ h.IsBlockInHeap prevBlock then (false, h)
        else if ¬ h.IsPrevUsed prevBlock then (false, h)
        else if nextIsFree then
          let size := c.add (c.add blockSize prevSize) nextBlockSize
          (true, (h.coalesceBoth c prevBlock nextBlock size).countFree c blockSize)
        else
          let size := c.add blockSize prevSize
          (true, (h.coalescePrev prevBlock nextBlock size).countFree c blockSize)
      else if nextIsFree then
        let size := c.add blockSize nextBlockSize
        (true, (h.coalesceNext c b nextBlock size).countFree c blockSize)
      else (true, (h.noCoalesce b nextBlock blockSize).countFree c blockSize)

/-! ## Resizing -/

/-- `_Heap_Resize_block_checked`: the status, the old and the new size. -/
def resizeBlockChecked (b allocBegin newAllocSize : ℕ) : HeapResizeStatus × ℕ × ℕ × Heap :=
  let blockSize := h.blockSize b
  let blockEnd := c.add b blockSize
  let allocSize := c.add (c.sub blockEnd allocBegin) c.allocBonus
  let nextBlock := c.add b blockSize
  let nextBlockSize := h.blockSize nextBlock
  let nextBlockIsFree : Bool := ¬ h.IsUsed c nextBlock
  let size := if nextBlockIsFree then c.add allocSize nextBlockSize else allocSize
  if size < newAllocSize then (.unsatisfied, allocSize, 0, h)
  else
    let h₁ := if nextBlockIsFree then
        let blockSize := c.add blockSize nextBlockSize
        (((h.setSize b blockSize).freeListRemove nextBlock).setFlag (c.add b blockSize)).withStats
          fun s =>
            { s with
              freeBlocks := decrement s.freeBlocks
              freeSize := c.sub s.freeSize nextBlockSize }
      else h
    let (b', h₂) := h₁.blockAllocate c b allocBegin newAllocSize
    let newSize := c.add (c.sub (c.add b' (h₂.blockSize b')) allocBegin) c.allocBonus
    let h₃ := h₂.withStats fun s => { s with resizes := increment s.resizes }
    (.successful, allocSize, newSize, h₃)

def resizeBlock (allocBegin newAllocSize : ℕ) : HeapResizeStatus × ℕ × ℕ × Heap :=
  let b := c.blockOfAllocArea allocBegin h.pageSize
  if h.IsBlockInHeap b then h.resizeBlockChecked c b allocBegin newAllocSize
  else (.fatalError, 0, 0, h)

/-! ## Extension -/

def freeBlock (b : ℕ) : Heap :=
  let h₁ := h.withStats fun s =>
    { s with usedBlocks := increment s.usedBlocks, frees := decrement s.frees }
  let h₂ := (h₁.free c (c.allocAreaOfBlock b)).2
  match (h₂.block .freeList).next with
  | .freeList => h₂
  | .block firstFree => (h₂.freeListRemove firstFree).freeListInsertBefore .freeList firstFree

def mergeBelow (extendAreaBegin firstBlock : ℕ) : Heap :=
  let newFirstBlock :=
    c.sub (c.alignUp (c.add extendAreaBegin c.headerSize) h.pageSize) c.headerSize
  let newFirstBlockSize := c.sub firstBlock newFirstBlock
  let h₁ := (h.setPrevSize newFirstBlock
    (h.header firstBlock).prevSize).setSizeAndFlag newFirstBlock (withFlag newFirstBlockSize)
  h₁.freeBlock c newFirstBlock

def mergeAbove (lastBlock extendAreaEnd : ℕ) : Heap :=
  let lastBlockNewSize :=
    alignDown (c.sub (c.sub extendAreaEnd lastBlock) c.headerSize) h.pageSize
  let newLastBlock := c.add lastBlock lastBlockNewSize
  let h₁ := h.setSizeAndFlag newLastBlock
    (withFlag (c.sub (h.header lastBlock).sizeAndFlag lastBlockNewSize))
  (h₁.setSize lastBlock lastBlockNewSize).freeBlock c lastBlock

def linkBelow (link lastBlock : ℕ) : Heap :=
  h.setSizeAndFlag lastBlock (withFlag (c.sub link lastBlock))

def linkAbove (link firstBlock lastBlock : ℕ) : Heap :=
  (h.setSize link (c.sub firstBlock link)).setFlag lastBlock

end Heap

/-- The blocks that `_Heap_Extend` looks for; none is `NULL`. -/
structure HeapNeighbours where
  mergeBelow : Option ℕ
  mergeAbove : Option ℕ
  linkBelow : Option ℕ
  linkAbove : Option ℕ
  deriving DecidableEq

namespace Heap

variable (c : Cpu)

/-- The loop of `_Heap_Extend` over the areas, which are fewer than addresses. -/
def scanAreas (extendAreaBegin extendAreaEnd firstBlock : ℕ) :
    ℕ → Heap → ℕ → HeapNeighbours → Heap × Option HeapNeighbours
  | 0, h, _, _ => (h, none)
  | fuel + 1, h, startBlock, n =>
    let subAreaBegin := if startBlock ≠ firstBlock then startBlock else h.areaBegin
    let subAreaEnd := (h.header startBlock).prevSize
    let endBlock := c.blockOfAllocArea subAreaEnd h.pageSize
    if extendAreaBegin < subAreaEnd ∧ subAreaBegin < extendAreaEnd then (h, none)
    else
      let n₁ := if extendAreaEnd = subAreaBegin then { n with mergeBelow := some startBlock }
        else if extendAreaEnd < subAreaEnd then { n with linkBelow := some startBlock }
        else n
      let n₂ := if subAreaEnd = extendAreaBegin then { n₁ with mergeAbove := some endBlock }
        else if subAreaEnd < extendAreaBegin then { n₁ with linkAbove := some endBlock }
        else n₁
      let h₁ := if subAreaEnd = extendAreaBegin then h.setPrevSize startBlock extendAreaEnd else h
      let startBlock₁ := c.add endBlock (h₁.blockSize endBlock)
      if startBlock₁ = firstBlock then (h₁, some n₂)
      else scanAreas extendAreaBegin extendAreaEnd firstBlock fuel h₁ startBlock₁ n₂

variable (h : Heap)

/-- The area and the first and the last block of the heap with the new area. -/
def extendBounds (extendAreaBegin extendAreaEnd extendFirstBlock extendLastBlock : ℕ) : Heap :=
  { h with
    areaBegin := if extendAreaBegin < h.areaBegin then extendAreaBegin else h.areaBegin
    areaEnd := if ¬ extendAreaBegin < h.areaBegin ∧ h.areaEnd < extendAreaEnd then extendAreaEnd
      else h.areaEnd
    firstBlock := if extendFirstBlock < h.firstBlock then extendFirstBlock else h.firstBlock
    lastBlock := if ¬ extendFirstBlock < h.firstBlock ∧ h.lastBlock < extendLastBlock then
      extendLastBlock else h.lastBlock }

/-- The headers of the first and the last block of the new area. -/
def extendBlocks (extendAreaEnd extendFirstBlock extendLastBlock : ℕ) : Heap :=
  let extendFirstBlockSize := c.sub extendLastBlock extendFirstBlock
  let h₁ := (h.setPrevSize extendFirstBlock extendAreaEnd).setSizeAndFlag extendFirstBlock
    (withFlag extendFirstBlockSize)
  (h₁.setPrevSize extendLastBlock extendFirstBlockSize).setSizeAndFlag extendLastBlock 0

/-- Merge the new area with the one above it, or link it to that. -/
def attachBelow (n : HeapNeighbours) (extendAreaBegin extendLastBlock : ℕ) : Heap :=
  match n.mergeBelow, n.linkBelow with
  | some b, _ => h.mergeBelow c extendAreaBegin b
  | none, some b => h.linkBelow c b extendLastBlock
  | none, none => h

/-- Merge the new area with the one below it, or link it to that. -/
def attachAbove (n : HeapNeighbours) (extendAreaEnd extendFirstBlock extendLastBlock : ℕ) : Heap :=
  match n.mergeAbove, n.linkAbove with
  | some b, _ => h.mergeAbove c b extendAreaEnd
  | none, some b => h.linkAbove c b extendFirstBlock extendLastBlock
  | none, none => h

def extend (extendAreaBegin extendAreaSize : ℕ) : ℕ × Heap :=
  let extendAreaEnd := c.add extendAreaBegin extendAreaSize
  if extendAreaEnd < extendAreaBegin then (0, h)
  else match getFirstAndLastBlock c extendAreaBegin extendAreaSize h.pageSize h.minBlockSize with
    | none => (0, h)
    | some (extendFirstBlock, extendLastBlock) =>
      match scanAreas c extendAreaBegin extendAreaEnd h.firstBlock c.modulus h h.firstBlock
          ⟨none, none, none, none⟩ with
      | (h₁, none) => (0, h₁)
      | (h₁, some n) =>
        let h₂ := ((h₁.extendBounds extendAreaBegin extendAreaEnd extendFirstBlock
          extendLastBlock).extendBlocks c extendAreaEnd extendFirstBlock extendLastBlock)
        let h₃ := h₂.attachBelow c n extendAreaBegin extendLastBlock
        let h₄ := h₃.attachAbove c n extendAreaEnd extendFirstBlock extendLastBlock
        let h₅ := if n.mergeBelow = none ∧ n.mergeAbove = none then h₄.freeBlock c extendFirstBlock
          else h₄
        let h₆ := h₅.setLastBlockSize c
        let extendedSize := c.sub h₆.stats.freeSize h.stats.freeSize
        (extendedSize, h₆.withStats fun s => { s with size := c.add s.size extendedSize })

end Heap

/-! ## Users -/

inductive HeapOperation
  | allocate (allocSize alignment boundary : ℕ)
  | free (allocBegin : ℕ)
  | resize (allocBegin newAllocSize : ℕ)
  | extend (areaBegin areaSize : ℕ)
  deriving DecidableEq

/-- A heap, what its users have got and not freed, and its areas. -/
structure HeapSystem where
  heap : Heap
  live : List ℕ
  areas : List (ℕ × ℕ)

namespace HeapSystem

variable (c : Cpu) (s : HeapSystem)

/-- One call. Users free and resize what they got, and extend by disjoint areas. -/
def step : HeapOperation → Option HeapSystem
  | .allocate allocSize alignment boundary =>
    if allocSize < c.modulus ∧ alignment < c.modulus ∧ boundary < c.modulus then
      let (allocBegin, h) := s.heap.allocate c allocSize alignment boundary
      some { s with heap := h, live := if allocBegin = 0 then s.live else allocBegin :: s.live }
    else none
  | .free allocBegin =>
    if allocBegin ∈ s.live then
      some { s with heap := (s.heap.free c allocBegin).2, live := s.live.erase allocBegin }
    else none
  | .resize allocBegin newAllocSize =>
    if allocBegin ∈ s.live ∧ newAllocSize < c.modulus then
      some { s with heap := (s.heap.resizeBlock c allocBegin newAllocSize).2.2.2 }
    else none
  | .extend areaBegin areaSize =>
    if areaBegin + areaSize < c.modulus ∧
        ∀ a ∈ s.areas, areaBegin + areaSize ≤ a.1 ∨ a.2 ≤ areaBegin then
      let (extended, h) := s.heap.extend c areaBegin areaSize
      some { s with
        heap := h
        areas := if extended = 0 then s.areas else (areaBegin, areaBegin + areaSize) :: s.areas }
    else none

def Boot (s : HeapSystem) : Prop :=
  ∃ memory areaBegin areaSize pageSize, areaBegin < c.modulus ∧ areaSize < c.modulus ∧
    pageSize < c.modulus ∧ Heap.initial c memory areaBegin areaSize pageSize = some s.heap ∧
    s.live = [] ∧ s.areas = [(areaBegin, areaBegin + areaSize)]

end HeapSystem

end Rtems
