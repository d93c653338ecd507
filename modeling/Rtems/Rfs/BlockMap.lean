import Rtems.Rfs.Bitmap
import Rtems.Rfs.Data
import Mathlib.Logic.Function.Basic

/-!
# The block map of an inode

`rtems-rfs-block.c`. The blocks of a file or a directory are in the slots of its inode if there are
at most five of them. Otherwise the slots hold tables of block numbers, or tables of such tables.

* `Geometry`, `BlockAllocator`: what a block map reads, and the allocation of blocks;
* `MapState`: an open map with the allocation and the disk below it, and its operations; an access
  that is not in the slots of the inode, and a free that is not accepted, have no result.
-/

namespace Rtems.Rfs

/-! ## Positions and sizes -/

structure BlockPos where
  bno : ℕ
  boff : ℕ
  block : ℕ
  deriving DecidableEq

structure BlockSize where
  count : ℕ
  offset : ℕ
  deriving DecidableEq

def BlockPos.BlockPastEnd (p : BlockPos) (s : BlockSize) : Prop :=
  p.bno ≠ 0 ∧ s.count = 0 ∨ s.count ≤ p.bno

/-- `rtems_rfs_block_pos_past_end`. For an empty map the second condition holds. -/
def BlockPos.PastEnd (p : BlockPos) (s : BlockSize) : Prop :=
  p.bno ≠ 0 ∧ s.count = 0 ∨ s.count ≤ p.bno ∨ p.bno = s.count - 1 ∧ s.offset < p.boff

instance (p : BlockPos) (s : BlockSize) : Decidable (p.BlockPastEnd s) := by
  unfold BlockPos.BlockPastEnd
  infer_instance

instance (p : BlockPos) (s : BlockSize) : Decidable (p.PastEnd s) := by
  unfold BlockPos.PastEnd
  infer_instance

def BlockSize.getBpos (s : BlockSize) : BlockPos :=
  ⟨if s.offset = 0 then s.count else s.count - 1, s.offset, 0⟩

/-- The geometry of block maps in `rtems_rfs_file_system`, and the bits of `size_t`. -/
structure Geometry where
  sizeBits : ℕ
  blocks : ℕ
  blockSize : ℕ
  blocksPerBlock : ℕ
  blockMapSinglyBlocks : ℕ
  blockMapDoublyBlocks : ℕ
  deriving DecidableEq

/-- The fields of a geometry as `rtems_rfs_fs_read_superblock` computes them. -/
def Geometry.ofBlockSize (w blocks blockSize : ℕ) : Geometry where
  sizeBits := w
  blocks := blocks
  blockSize := blockSize
  blocksPerBlock := blockSize / 4
  blockMapSinglyBlocks := blockSize / 4 * 5 % 2 ^ w
  blockMapDoublyBlocks := blockSize / 4 * (blockSize / 4) * 5 % 2 ^ w

/-! ## The state -/

/-- `rtems_rfs_group_bitmap_alloc` for a goal, with none for `ENOSPC`, and `_free`. -/
structure BlockAllocator where
  State : Type
  IsFree : State → ℕ → Prop
  alloc : State → ℕ → Option (ℕ × State)
  free : State → ℕ → Option State

inductive MapBuffer
  | singly
  | doubly
  deriving DecidableEq

/-- `rtems_rfs_block_map`; a buffer handle is the block that it holds. -/
structure BlockMap where
  dirty : Bool
  size : BlockSize
  bpos : BlockPos
  lastMapBlock : ℕ
  lastDataBlock : ℕ
  blocks : Fin 5 → ℕ
  singlyBuffer : Option ℕ
  doublyBuffer : Option ℕ

namespace BlockMap

/-- The map of an inode without blocks after `rtems_rfs_block_map_open`. -/
def empty : BlockMap := ⟨false, ⟨0, 0⟩, ⟨0, 0, 0⟩, 0, 0, fun _ => 0, none, none⟩

/-- `map->blocks[i]`. -/
def slot (m : BlockMap) (i : ℕ) : Option ℕ := if h : i < 5 then some (m.blocks ⟨i, h⟩) else none

/-- `map->blocks[i] = v`. -/
def setSlot (m : BlockMap) (i v : ℕ) : Option BlockMap :=
  if h : i < 5 then some { m with blocks := Function.update m.blocks ⟨i, h⟩ v } else none

def buffer (m : BlockMap) : MapBuffer → Option ℕ
  | .singly => m.singlyBuffer
  | .doubly => m.doublyBuffer

/-- `rtems_rfs_buffer_handle_request` by a handle of the map. -/
def handleRequest (m : BlockMap) (b : MapBuffer) (block : ℕ) : BlockMap :=
  match b with
  | .singly => { m with singlyBuffer := some block }
  | .doubly => { m with doublyBuffer := some block }

end BlockMap

/-- An open map, the allocation of blocks and the disk. -/
structure MapState (A : BlockAllocator) where
  allocator : A.State
  disk : ℕ → Block
  map : BlockMap

namespace MapState

variable {A : BlockAllocator}

/-- `rtems_rfs_buffer_handle_request` by a handle of the map. -/
def handleRequest (s : MapState A) (b : MapBuffer) (block : ℕ) : MapState A :=
  { s with map := s.map.handleRequest b block }

def getNumber (s : MapState A) (b : MapBuffer) (i : ℕ) : Option ℕ :=
  (s.map.buffer b).map fun t => (s.disk t).readU32 (4 * i)

def setNumber (s : MapState A) (b : MapBuffer) (i v : ℕ) : Option (MapState A) :=
  (s.map.buffer b).map fun t =>
    { s with disk := Function.update s.disk t ((s.disk t).writeU32 (4 * i) v) }

/-- `map->blocks[i] = v`. -/
def setSlot (s : MapState A) (i v : ℕ) : Option (MapState A) :=
  (s.map.setSlot i v).map fun map => { s with map := map }

/-- `rtems_rfs_group_bitmap_free` of a block. -/
def free (s : MapState A) (block : ℕ) : Option (MapState A) :=
  (A.free s.allocator block).map fun allocator => { s with allocator := allocator }

/-! ## Find -/

/-- `rtems_rfs_block_find_indirect`. A number that is no block gives 0. -/
def findIndirect (g : Geometry) (s : MapState A) (b : MapBuffer) (block offset : ℕ) :
    Option (ℕ × MapState A) :=
  ((s.handleRequest b block).getNumber b offset).map fun result =>
    (if result + 1 = 2 ^ 32 then 0 else if g.blocks ≤ result then 0 else result,
      s.handleRequest b block)

/-- The search for block `bno` away from the current position. -/
def findBlock (g : Geometry) (s : MapState A) (bno : ℕ) : Option (Except Errno ℕ × MapState A) :=
  if s.map.size.count ≤ 5 then
    (s.map.slot bno).map fun block => (.ok block, s)
  else
    let direct := bno % g.blocksPerBlock
    let singly := bno / g.blocksPerBlock
    if s.map.size.count ≤ g.blockMapSinglyBlocks then
      (s.map.slot singly).bind fun table =>
        (s.findIndirect g .singly table direct).map fun r => (.ok r.1, r.2)
    else
      let doubly := singly / g.blocksPerBlock
      let singly := singly % g.blocksPerBlock
      if s.map.size.count < g.blockMapDoublyBlocks then
        (s.map.slot doubly).bind fun table =>
          (s.findIndirect g .doubly table singly).bind fun r =>
            (r.2.findIndirect g .singly r.1 direct).map fun r => (.ok r.1, r.2)
      else some (.error .enxio, s)

/-- The position of the map after a block was found. -/
def setBpos (s : MapState A) (bpos : BlockPos) (block : ℕ) : MapState A :=
  { s with map := { s.map with bpos := ⟨bpos.bno, bpos.boff, block⟩ } }

def blockMapFind (g : Geometry) (s : MapState A) (bpos : BlockPos) :
    Option (Except Errno ℕ × MapState A) :=
  if bpos.BlockPastEnd s.map.size then some (.error .enxio, s)
  else if bpos.bno = s.map.bpos.bno ∧ s.map.bpos.block ≠ 0 then
    some (.ok s.map.bpos.block, s.setBpos bpos s.map.bpos.block)
  else
    (s.findBlock g bpos.bno).map fun r =>
      match r.1 with
      | .ok block => (.ok block, r.2.setBpos bpos block)
      | .error e => (.error e, r.2)

/-! ## Grow -/

/-- The numbers in the slots of the inode at the start of a table. -/
def writeSlots (d : Block) (blocks : Fin 5 → ℕ) : Block :=
  (List.finRange 5).foldl (fun d b => d.writeU32 (4 * b.val) (blocks b)) d

/-- A new table, with the numbers of the slots when the map moves up a level. -/
def newTable (g : Geometry) (s : MapState A) (b : MapBuffer) (upping : Bool) (table : ℕ)
    (allocator : A.State) : MapState A where
  allocator := allocator
  disk := Function.update s.disk table
    (if upping then writeSlots ((s.disk table).fill 0 g.blockSize 0xff) s.map.blocks
      else (s.disk table).fill 0 g.blockSize 0xff)
  map := { s.map.handleRequest b table with
    blocks := if upping then fun _ => 0 else s.map.blocks
    lastMapBlock := table }

/-- `rtems_rfs_block_map_indirect_alloc`. The caller stores the number. -/
def indirectAlloc (g : Geometry) (s : MapState A) (b : MapBuffer) (upping : Bool) :
    Option (ℕ × MapState A) :=
  (A.alloc s.allocator s.map.lastMapBlock).map fun r => (r.1, s.newTable g b upping r.1 r.2)

/-- The table for a new block of a singly indirect map is in the buffer `singly`. -/
def growSingly (g : Geometry) (s : MapState A) (block : ℕ) :
    Option (Option Errno × MapState A) :=
  let direct := s.map.size.count % g.blocksPerBlock
  let singly := s.map.size.count / g.blocksPerBlock
  if direct = 0 ∨ singly = 0 ∧ direct = 5 then
    match s.indirectAlloc g .singly (s.map.size.count = 5) with
    | none => (s.free block).map fun s => (some .enospc, s)
    | some (table, s) => (s.setSlot singly table).map fun s => (none, s)
  else
    (s.map.slot singly).map fun table => (none, s.handleRequest .singly table)

/-- A new singly indirect table in a doubly indirect one, which may be new too. -/
def growTable (g : Geometry) (s : MapState A) (singlyBlock block : ℕ) :
    Option (Option Errno × MapState A) :=
  let count := s.map.size.count
  let doubly := count / g.blocksPerBlock / g.blocksPerBlock
  let singly := count / g.blocksPerBlock % g.blocksPerBlock
  if singly = 0 ∨ doubly = 0 ∧ singly = 5 then
    match s.indirectAlloc g .doubly (count = g.blockMapSinglyBlocks) with
    | none => (s.free singlyBlock).bind fun s => (s.free block).map fun s => (some .enospc, s)
    | some (table, s) => (s.setSlot doubly table).bind fun s =>
      (s.setNumber .doubly singly singlyBlock).map fun s => (none, s)
  else
    (s.map.slot doubly).bind fun table =>
      ((s.handleRequest .doubly table).setNumber .doubly singly singlyBlock).map fun s => (none, s)

/-- The table for a block of a doubly indirect map is in `singly`, and in another table. -/
def growDoubly (g : Geometry) (s : MapState A) (block : ℕ) :
    Option (Option Errno × MapState A) :=
  let count := s.map.size.count
  let direct := count % g.blocksPerBlock
  let doubly := count / g.blocksPerBlock / g.blocksPerBlock
  let singly := count / g.blocksPerBlock % g.blocksPerBlock
  if direct = 0 then
    match s.indirectAlloc g .singly false with
    | none => (s.free block).map fun s => (some .enospc, s)
    | some (singlyBlock, s) => s.growTable g singlyBlock block
  else
    (s.map.slot doubly).bind fun table =>
      ((s.handleRequest .doubly table).getNumber .doubly singly).map fun singlyBlock =>
        (none, (s.handleRequest .doubly table).handleRequest .singly singlyBlock)

def appended (s : MapState A) (block : ℕ) : MapState A :=
  { s with map := { s.map with
      size := ⟨s.map.size.count + 1, 0⟩
      lastDataBlock := block
      dirty := true } }

/-- One iteration of the loop of `rtems_rfs_block_map_grow`. -/
def growOne (g : Geometry) (s : MapState A) : Option (Except Errno ℕ × MapState A) :=
  match A.alloc s.allocator s.map.lastDataBlock with
  | none => some (.error .enospc, s)
  | some (block, allocator) =>
    let s := { s with allocator := allocator }
    if s.map.size.count < 5 then
      (s.setSlot s.map.size.count block).map fun s => (.ok block, s.appended block)
    else
      (if s.map.size.count < g.blockMapSinglyBlocks then s.growSingly g block
        else s.growDoubly g block).bind fun r =>
      match r.1 with
      | some e => some (.error e, r.2)
      | none =>
        (r.2.setNumber .singly (s.map.size.count % g.blocksPerBlock) block).map fun s =>
          (.ok block, s.appended block)

/-- The loop of `rtems_rfs_block_map_grow`, with the first new block. -/
def growLoop (g : Geometry) : ℕ → Option ℕ → MapState A →
    Option (Option Errno × Option ℕ × MapState A)
  | 0, newBlock, s => some (none, newBlock, s)
  | n + 1, newBlock, s => (s.growOne g).bind fun r =>
    match r.1 with
    | .error e => some (some e, newBlock, r.2)
    | .ok block => growLoop g n (newBlock.or (some block)) r.2

/-- **`rtems_rfs_block_map_grow`**, with the first new block. -/
def blockMapGrow (g : Geometry) (s : MapState A) (blocks : ℕ) :
    Option (Option Errno × Option ℕ × MapState A) :=
  if g.blockMapDoublyBlocks ≤ (s.map.size.count + blocks) % 2 ^ g.sizeBits then
    some (some .efbig, none, s)
  else growLoop g blocks none s

/-! ## Shrink -/

/-- The numbers at the start of a table in the slots of the inode. -/
def readSlots (s : MapState A) (b : MapBuffer) : Option (MapState A) :=
  (s.map.buffer b).map fun t =>
    { s with map := { s.map with blocks := fun i => (s.disk t).readU32 (4 * i.val) } }

def indirectShrink (s : MapState A) (b : MapBuffer) (indirect index : ℕ) : Option (MapState A) :=
  if index = 0 ∨ indirect = 0 ∧ index = 5 then
    (s.map.slot indirect).bind fun blockToFree =>
      (if indirect = 0 ∧ index = 5 then s.readSlots b else s.setSlot indirect 0).bind fun s =>
        (s.free blockToFree).map fun s =>
          { s with map := { s.map with lastMapBlock := blockToFree } }
  else some s

/-- The last block leaves a map that is singly indirect. -/
def shrinkSingly (g : Geometry) (s : MapState A) (block : ℕ) : Option (ℕ × MapState A) :=
  let direct := block % g.blocksPerBlock
  let singly := block / g.blocksPerBlock
  (s.map.slot singly).bind fun table =>
    let s := s.handleRequest .singly table
    (s.getNumber .singly direct).bind fun blockToFree =>
      (s.indirectShrink .singly singly direct).map fun s => (blockToFree, s)

/-- The last block leaves a map that is doubly indirect. -/
def shrinkDoubly (g : Geometry) (s : MapState A) (block : ℕ) : Option (ℕ × MapState A) :=
  let direct := block % g.blocksPerBlock
  let doubly := block / g.blocksPerBlock / g.blocksPerBlock
  let doublySingly := block / g.blocksPerBlock % g.blocksPerBlock
  (s.map.slot doubly).bind fun table =>
    let s := s.handleRequest .doubly table
    (s.getNumber .doubly doublySingly).bind fun singly =>
      let s := s.handleRequest .singly singly
      (s.getNumber .singly direct).bind fun blockToFree =>
        if direct = 0 then
          (s.free singly).bind fun s =>
            ({ s with map := { s.map with lastMapBlock := singly } }.indirectShrink .doubly doubly
              doublySingly).map fun s => (blockToFree, s)
        else some (blockToFree, s)

def removed (s : MapState A) (block : ℕ) : MapState A :=
  { s with map := { s.map with
      size := ⟨s.map.size.count - 1, 0⟩
      lastDataBlock := block
      dirty := true } }

/-- One round of `rtems_rfs_block_map_shrink`; the inner `none` leaves the loop. -/
def shrinkOne (g : Geometry) (s : MapState A) : Option (Option (MapState A)) :=
  let block := s.map.size.count - 1
  if block < 5 then
    (s.map.slot block).bind fun blockToFree =>
      (s.setSlot block 0).bind fun s =>
        (s.free blockToFree).map fun s => some (s.removed blockToFree)
  else if block < g.blockMapSinglyBlocks then
    (s.shrinkSingly g block).bind fun r => (r.2.free r.1).map fun s => some (s.removed r.1)
  else if block < g.blockMapDoublyBlocks then
    (s.shrinkDoubly g block).bind fun r => (r.2.free r.1).map fun s => some (s.removed r.1)
  else some none

/-- The loop of `rtems_rfs_block_map_shrink`. -/
def shrinkLoop (g : Geometry) : ℕ → MapState A → Option (MapState A)
  | 0, s => some s
  | n + 1, s => (s.shrinkOne g).bind fun r =>
    match r with
    | none => some s
    | some s => shrinkLoop g n s

/-- The end of `rtems_rfs_block_map_shrink`: the goals and the position. -/
def shrunk (s : MapState A) : MapState A :=
  let m := s.map
  let m := if m.size.count = 0 then { m with lastMapBlock := 0, lastDataBlock := 0 } else m
  { s with map := if m.bpos.PastEnd m.size then { m with bpos := m.size.getBpos } else m }

def blockMapShrink (g : Geometry) (s : MapState A) (blocks : ℕ) : Option (MapState A) :=
  if s.map.size.count = 0 then some s
  else (shrinkLoop g (min blocks s.map.size.count) s).map shrunk

def blockMapFreeAll (g : Geometry) (s : MapState A) : Option (MapState A) :=
  s.blockMapShrink g s.map.size.count

end MapState

end Rtems.Rfs
