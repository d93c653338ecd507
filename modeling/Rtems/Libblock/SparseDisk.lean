import Rtems.Lib.SortedTable
import Mathlib.Data.List.Sort
import Mathlib.Algebra.Group.Int.Defs
import Mathlib.Algebra.Group.Nat.Defs

/-!
# Sparse disks

`sparse-disk.c`. Only blocks that are written with something else than the fill pattern get a
buffer. The keys of the table are sorted by the numbers of their blocks; the unused keys are behind
them.

* `getNewBlock`: a new key at the end of the table, which is then sorted;
* `readBlock`, `writeBlock`, `readWrite`: the requests.

A block number is a `uint32_t`. The blocks of a request are counted by an `int`.
-/

namespace Rtems.Libblock

/-- `rtems_sparse_disk_key`, with the number of the buffer. -/
structure DiskKey where
  block : ℕ
  data : ℕ
  deriving DecidableEq

structure SparseDisk where
  blocksWithBuffer : ℕ
  mediaBlockSize : ℕ
  usedCount : ℕ
  fillPattern : UInt8
  keyTable : List DiskKey
  data : ℕ → List UInt8

/-- `rtems_blkdev_sg_buffer`. -/
structure SgBuffer where
  block : ℕ
  buffer : List UInt8
  deriving DecidableEq

/-- `rtems_blkdev_request`. -/
structure DiskRequest where
  read : Bool
  bufs : List SgBuffer

inductive DiskStatus
  | successful
  | ioError
  deriving DecidableEq

namespace SparseDisk

/-- `sparse_disk_initialize`. -/
def initial (mediaBlockSize blocksWithBuffer : ℕ) (fillPattern : UInt8) : SparseDisk where
  blocksWithBuffer := blocksWithBuffer
  mediaBlockSize := mediaBlockSize
  usedCount := 0
  fillPattern := fillPattern
  keyTable := (List.range blocksWithBuffer).map fun i => ⟨0, i⟩
  data := fun _ => List.replicate mediaBlockSize fillPattern

def blocks (sd : SparseDisk) : List ℕ := (sd.keyTable.take sd.usedCount).map DiskKey.block

/-- `bsearch` of a block, with the index of the key. -/
def search (sd : SparseDisk) (block : ℕ) : Option ℕ := SortedTable.bsearch sd.blocks block

def keyData (sd : SparseDisk) (key : ℕ) : ℕ := (sd.keyTable.getD key ⟨0, 0⟩).data

/-- `memcpy` to the buffer of a key. -/
def copyTo (sd : SparseDisk) (key : ℕ) (bytes : List UInt8) : SparseDisk :=
  let area := sd.keyData key
  { sd with data := Function.update sd.data area (bytes ++ (sd.data area).drop bytes.length) }

/-- `sparse_disk_get_new_block`: the index that the key had before the table was sorted. -/
def getNewBlock (sd : SparseDisk) (block : ℕ) : Option (ℕ × SparseDisk) :=
  if sd.usedCount < sd.blocksWithBuffer then
    let key := sd.usedCount
    let keyTable := sd.keyTable.modify key fun k => { k with block := block }
    let usedCount := sd.usedCount + 1
    some (key, { sd with
      usedCount := usedCount
      keyTable := (keyTable.take usedCount).insertionSort (fun a b => a.block ≤ b.block) ++
        keyTable.drop usedCount })
  else none

/-- The `int` with the value of a `size_t`. -/
def toInt (n : ℕ) : ℤ := (n : ℤ).bmod (2 ^ 32)

/-- `sparse_disk_read_block`. Without a buffer it fills all of the request. -/
def readBlock (sd : SparseDisk) (block : ℕ) (buffer : List UInt8) : ℤ × List UInt8 :=
  let bytesToCopy := min buffer.length sd.mediaBlockSize
  (toInt bytesToCopy,
    match sd.search block with
    | some key => (sd.data (sd.keyData key)).take bytesToCopy ++ buffer.drop bytesToCopy
    | none => List.replicate buffer.length sd.fillPattern)

def writeBlock (sd : SparseDisk) (block : ℕ) (buffer : List UInt8) : ℤ × SparseDisk :=
  let bytesToCopy := min buffer.length sd.mediaBlockSize
  let bytes := buffer.take bytesToCopy
  match sd.search block with
  | some key => (toInt bytesToCopy, sd.copyTo key bytes)
  | none =>
    if bytes.any fun b => b != sd.fillPattern then
      match sd.getNewBlock block with
      | some (key, sd') => (toInt bytesToCopy, sd'.copyTo key bytes)
      | none => (-1, sd)
    else (toInt bytesToCopy, sd)

/-- The loop over the blocks of a read, with the last `rv` and the bytes. -/
def readLoop (sd : SparseDisk) : ℕ → ℕ → List UInt8 → ℤ → Option (ℤ × List UInt8)
  | fuel, block, buffer, rv =>
    if 0 ≤ rv ∧ 0 < buffer.length then
      match fuel with
      | 0 => none
      | fuel + 1 =>
        let r := sd.readBlock block buffer
        (readLoop sd fuel ((block + 1) % 2 ^ 32) (r.2.drop r.1.toNat) r.1).map fun r' =>
          (r'.1, r.2.take r.1.toNat ++ r'.2)
    else some (rv, buffer)

/-- The loop over the blocks of a buffer of a write. -/
def writeLoop : ℕ → SparseDisk → ℕ → List UInt8 → ℤ → Option (ℤ × SparseDisk)
  | fuel, sd, block, buffer, rv =>
    if 0 ≤ rv ∧ 0 < buffer.length then
      match fuel with
      | 0 => none
      | fuel + 1 =>
        let r := sd.writeBlock block buffer
        writeLoop fuel r.2 ((block + 1) % 2 ^ 32) (buffer.drop r.1.toNat) r.1
    else some (rv, sd)

def readBuffers (sd : SparseDisk) : List SgBuffer → ℤ → Option (ℤ × List (List UInt8))
  | [], rv => some (rv, [])
  | b :: bufs, rv =>
    if 0 ≤ rv then
      (sd.readLoop b.buffer.length b.block b.buffer rv).bind fun r =>
        (sd.readBuffers bufs r.1).map fun r' => (r'.1, r.2 :: r'.2)
    else some (rv, (b :: bufs).map SgBuffer.buffer)

def writeBuffers : SparseDisk → List SgBuffer → ℤ → Option (ℤ × SparseDisk)
  | sd, [], rv => some (rv, sd)
  | sd, b :: bufs, rv =>
    if 0 ≤ rv then
      (writeLoop b.buffer.length sd b.block b.buffer rv).bind fun r => writeBuffers r.2 bufs r.1
    else some (rv, sd)

/-- The status that `rtems_blkdev_request_done` gets. -/
def status (rv : ℤ) : DiskStatus := if 0 > rv then .ioError else .successful

/-- `sparse_disk_read_write`, with the bytes of the request then. -/
def readWrite (sd : SparseDisk) (req : DiskRequest) :
    Option ((DiskStatus × List (List UInt8)) × SparseDisk) :=
  if req.read then
    (sd.readBuffers req.bufs 0).map fun r => ((status r.1, r.2), sd)
  else
    (writeBuffers sd req.bufs 0).map fun r =>
      ((status r.1, req.bufs.map SgBuffer.buffer), r.2)

end SparseDisk

end Rtems.Libblock
