import Rtems.Rfs.BitmapAlloc

/-!
# The groups of the file system

`rtems-rfs-group.c`, and the part of `rtems-rfs-file-system.c` that opens the groups. The blocks and
the inodes of a file system are in groups, each with a bitmap for its blocks and one for its inodes.
A block or an inode has one number in the whole file system.

* `BitmapLayer`: the operations on a bitmap, and `BitmapLayer.Correct`: what is expected of them;
* `FileSystem`, `readSuperblock`, `groupOpen`: the geometry of a file system;
* `groupBitmapAlloc`, `groupBitmapFree`, `groupBitmapTest`.
-/

namespace Rtems.Rfs

/-! ## The bitmaps -/

/-- The operations on a bitmap that the groups use. -/
structure BitmapLayer where
  Bitmap : Type
  size : Bitmap → ℕ
  IsClear : Bitmap → ℤ → Prop
  mapAlloc : Bitmap → ℤ → Option ℤ × Bitmap
  mapClear : Bitmap → ℤ → Except Errno Bitmap
  mapTest : Bitmap → ℤ → Except Errno Bool

/-- For seeds and bits in range, allocations are exact and a clear clears the bit. -/
structure BitmapLayer.Correct (L : BitmapLayer) (Ok : L.Bitmap → Prop) : Prop where
  alloc : ∀ (m : L.Bitmap) (seed : ℤ), Ok m → 0 ≤ seed → seed < L.size m →
    (∃ (bit : ℤ) (m' : L.Bitmap), L.mapAlloc m seed = (some bit, m') ∧ 0 ≤ bit ∧
      bit < L.size m ∧ L.IsClear m bit ∧ Ok m' ∧ L.size m' = L.size m ∧
      ∀ b, L.IsClear m' b ↔ L.IsClear m b ∧ b ≠ bit) ∨
    (L.mapAlloc m seed = (none, m) ∧ ∀ b : ℤ, 0 ≤ b → b < L.size m → ¬ L.IsClear m b)
  clear : ∀ (m : L.Bitmap) (bit : ℤ), Ok m → 0 ≤ bit → bit < L.size m →
    ∃ m', L.mapClear m bit = .ok m' ∧ Ok m' ∧ L.size m' = L.size m ∧
      ∀ b, L.IsClear m' b ↔ L.IsClear m b ∨ b = bit

/-! ## The geometry -/

inductive Kind
  | block
  | inode
  deriving DecidableEq

structure Group (L : BitmapLayer) where
  base : ℕ
  size : ℕ
  blockBitmap : L.Bitmap
  inodeBitmap : L.Bitmap

/-- `rtems_rfs_file_system`, the part that describes the disk. -/
structure FileSystem (L : BitmapLayer) where
  blocks : ℕ
  blockSize : ℕ
  badBlocks : ℕ
  maxNameLength : ℕ
  groupCount : ℤ
  groupBlocks : ℕ
  groupInodes : ℕ
  blocksPerBlock : ℕ
  blockMapSinglyBlocks : ℕ
  blockMapDoublyBlocks : ℕ
  inodes : ℕ
  inodesPerBlock : ℕ
  groups : List (Group L)

structure Superblock where
  magic : ℕ
  version : ℕ
  blockSize : ℕ
  blocks : ℕ
  badBlocks : ℕ
  maxNameLength : ℕ
  groups : ℕ
  groupBlocks : ℕ
  groupInodes : ℕ
  inodeSize : ℕ
  deriving DecidableEq

def inodeSize : ℕ := 56

/-- A value of type `size_t`, which has `w` bits. -/
def toSize (w : ℕ) (x : ℤ) : ℤ := x % 2 ^ w

/-- A value of type `int32_t`. -/
def toInt32 (x : ℤ) : ℤ := Int.bmod x (2 ^ 32)

section Open

variable {L : BitmapLayer} (w : ℕ)

def fsBlock (groupBlocks group block : ℕ) : ℕ := (groupBlocks * group + block + 1) % 2 ^ w

/-- `rtems_rfs_group_open`; `openBitmap` opens a bitmap of a size in a block. -/
def groupOpen (blocks base size inodes : ℕ) (openBitmap : ℕ → ℕ → Except Errno L.Bitmap) :
    Except Errno (Group L) :=
  if blocks ≤ base then .error .eio
  else
    let size := if blocks ≤ base + size then blocks - base else size
    let inodes := if size < inodes then size else inodes
    (openBitmap size base).bind fun blockBitmap =>
      (openBitmap inodes (base + 1)).map fun inodeBitmap =>
        { base := base, size := size, blockBitmap := blockBitmap, inodeBitmap := inodeBitmap }

/-- The loop that opens the groups from one on. -/
def openGroups (blocks groupBlocks groupInodes : ℕ)
    (openBitmap : ℕ → ℕ → Except Errno L.Bitmap) : ℕ → ℕ → Except Errno (List (Group L))
  | _, 0 => .ok []
  | group, count + 1 =>
    (groupOpen blocks (fsBlock w groupBlocks group 0) groupBlocks groupInodes openBitmap).bind
      fun g => (openGroups blocks groupBlocks groupInodes openBitmap (group + 1) count).map
        fun gs => g :: gs

/-- `rtems_rfs_fs_read_superblock`. The mask of the version is zero. -/
def readSuperblock (mediaSize : ℕ) (sb : Superblock)
    (openBitmap : ℕ → ℕ → Except Errno L.Bitmap) : Except Errno (FileSystem L) :=
  if sb.magic ≠ 0x28092001 then .error .eio
  else if mediaSize < sb.blocks * sb.blockSize then .error .eio
  else if sb.inodeSize ≠ inodeSize then .error .eio
  else if sb.blockSize * 8 < sb.groupBlocks then .error .eio
  else
    let groupCount := toInt32 sb.groups
    (openGroups w sb.blocks sb.groupBlocks sb.groupInodes openBitmap 0 groupCount.toNat).map
      fun groups =>
        { blocks := sb.blocks, blockSize := sb.blockSize, badBlocks := sb.badBlocks
          maxNameLength := sb.maxNameLength, groupCount := groupCount
          groupBlocks := sb.groupBlocks, groupInodes := sb.groupInodes
          blocksPerBlock := sb.blockSize / 4
          blockMapSinglyBlocks := sb.blockSize / 4 * 5 % 2 ^ w
          blockMapDoublyBlocks := sb.blockSize / 4 * (sb.blockSize / 4) * 5 % 2 ^ w
          inodes := (toSize w (groupCount * sb.groupInodes)).toNat
          inodesPerBlock := sb.blockSize / inodeSize, groups := groups }

end Open

/-! ## Allocation -/

section Allocation

variable {L : BitmapLayer} (w : ℕ)

def Group.bitmap (g : Group L) : Kind → L.Bitmap
  | .block => g.blockBitmap
  | .inode => g.inodeBitmap

def Group.setBitmap (g : Group L) (m : L.Bitmap) : Kind → Group L
  | .block => { g with blockBitmap := m }
  | .inode => { g with inodeBitmap := m }

def Direction.flip : Direction → Direction
  | up => down
  | down => up

namespace FileSystem

def groupSize (fs : FileSystem L) : Kind → ℕ
  | .block => fs.groupBlocks
  | .inode => fs.groupInodes

def setBitmap (fs : FileSystem L) (group : ℕ) (kind : Kind) (m : L.Bitmap) : FileSystem L :=
  { fs with groups := fs.groups.modify group fun g => g.setBitmap m kind }

/-- `rtems_rfs_group_block` and `rtems_rfs_group_inode`. -/
def groupNumber (fs : FileSystem L) (group : ℤ) (g : Group L) (bit : ℤ) : Kind → ℤ
  | .block => toInt32 (g.base + bit)
  | .inode => toInt32 (fs.groupInodes * group + bit + 1)

/-- The seed in a group that is not the one of the goal. -/
def entrySeed (fs : FileSystem L) (kind : Kind) : Direction → ℤ
  | .up => 0
  | .down => toInt32 (fs.groupSize kind - 1)

/-- The loop of `rtems_rfs_group_bitmap_alloc`. -/
def allocLoop (kind : Kind) (groupStart : ℤ) :
    ℕ → ℤ → Bool → Direction → ℤ → FileSystem L → Option (Except Errno (ℤ × FileSystem L))
  | 0, _, _, _, _, _ => none
  | fuel + 1, offset, updown, d, bit, fs =>
    let group := groupStart + d.delta * offset
    let bit := if offset = 0 then bit else fs.entrySeed kind d
    if group < 0 ∨ fs.groupCount ≤ group then
      if updown then allocLoop kind groupStart fuel offset false d.flip bit fs
      else some (.error .enospc)
    else
      fs.groups[group.toNat]?.bind fun g =>
        match L.mapAlloc (g.bitmap kind) bit with
        | (some bit, m) =>
          some (.ok (fs.groupNumber group g bit kind, fs.setBitmap group.toNat kind m))
        | (none, m) =>
          let fs := fs.setBitmap group.toNat kind m
          if updown then
            let offset := if d.flip = .down then offset + 1 else offset
            allocLoop kind groupStart fuel offset true d.flip bit fs
          else allocLoop kind groupStart fuel (offset + 1) false d bit fs

/-- The position of a goal among the bits of all groups. -/
def goalPosition (goal : ℤ) : Kind → ℤ
  | .block => goal
  | .inode => toInt32 (goal - 1)

/-- `rtems_rfs_group_bitmap_alloc`, which tries the groups in both directions. -/
def groupBitmapAlloc (fs : FileSystem L) (goal : ℤ) (kind : Kind) :
    Option (Except Errno (ℤ × FileSystem L)) :=
  let position := toSize w (goalPosition goal kind)
  let size := fs.groupSize kind
  allocLoop kind (toInt32 (position / size)) (3 * fs.groupCount.toNat + 5) 0 true .up
    (toInt32 (position % size)) fs

/-- The group and the bit of a number in `rtems_rfs_group_bitmap_free`. -/
def freeLocation (fs : FileSystem L) (kind : Kind) (no : ℤ) : ℤ × ℤ :=
  let no := toInt32 (no - 1)
  (toSize w no / fs.groupSize kind, toInt32 (toSize w no % fs.groupSize kind))

/-- `rtems_rfs_group_bitmap_free`. There is no result without the group. -/
def groupBitmapFree (fs : FileSystem L) (kind : Kind) (no : ℤ) :
    Option (Except Errno (FileSystem L)) :=
  let (group, bit) := fs.freeLocation w kind no
  fs.groups[group.toNat]?.map fun g =>
    (L.mapClear (g.bitmap kind) bit).map fun m => fs.setBitmap group.toNat kind m

/-- The group and the bit of a number in `rtems_rfs_group_bitmap_test`. -/
def testLocation (fs : FileSystem L) (kind : Kind) (no : ℤ) : Except Errno (ℤ × ℤ) :=
  match kind with
  | .block =>
    if fs.blocks ≤ toSize w no then .error .einval
    else .ok (toSize w no / fs.groupBlocks, toInt32 (toSize w no % fs.groupBlocks))
  | .inode =>
    if no < 1 ∨ fs.inodes < toSize w no then .error .einval
    else
      let no := toInt32 (no - 1)
      .ok (toSize w no / fs.groupInodes, toInt32 (toSize w no % fs.groupInodes))

/-- `rtems_rfs_group_bitmap_test`. There is no result without the group. -/
def groupBitmapTest (fs : FileSystem L) (kind : Kind) (no : ℤ) : Option (Except Errno Bool) :=
  match fs.testLocation w kind no with
  | .error e => some (.error e)
  | .ok (group, bit) => fs.groups[group.toNat]?.map fun g => L.mapTest (g.bitmap kind) bit

end FileSystem

end Allocation

end Rtems.Rfs
