import Rtems.Rfs.BlockMap

/-!
# Files

`rtems-rfs-file.c` and `rtems-rfs-rtems-file.c`. The data of a file is in the blocks of its map. A
handle has a position, which is the index of a block and an offset into it, and may hold the buffer
of a block. A transfer is done block by block.

* `ioStart`, `ioEnd` and so on: the operations of the handles;
* `fileRead`, `fileWrite` and so on: those of the descriptors.

The transfers of the I/O layer succeed, and what is in a buffer is on the disk. A buffer that is
obtained without a read has any bytes. A copy that is not inside of the block, and a copy without a
buffer, have no result.
-/

namespace Rtems.Rfs

def BlockPos.LastBlock (p : BlockPos) (s : BlockSize) : Prop :=
  p.bno = 0 ∧ s.count = 0 ∨ p.bno = (s.count + 2 ^ 32 - 1) % 2 ^ 32

instance (p : BlockPos) (s : BlockSize) : Decidable (p.LastBlock s) := by
  unfold BlockPos.LastBlock
  infer_instance

def BlockPos.getBpos (g : Geometry) (bpos : BlockPos) (pos : ℕ) : BlockPos :=
  { bpos with bno := pos / g.blockSize, boff := pos % g.blockSize }

def BlockSize.getSize (g : Geometry) (s : BlockSize) : ℕ :=
  if s.count = 0 then 0
  else (s.count - 1) * g.blockSize + if s.offset = 0 then g.blockSize else s.offset

/-- The block at a position, which may be a new one at the end of the map. -/
def MapState.findOrGrow {A : BlockAllocator} (g : Geometry) (s : MapState A) (bpos : BlockPos) :
    Option (Except Errno ℕ × MapState A) :=
  (s.blockMapFind g bpos).bind fun r =>
    match r.1 with
    | .ok block => some (.ok block, r.2)
    | .error e =>
      if e ≠ .enxio then some (.error e, r.2)
      else
        (r.2.blockMapGrow g 1).bind fun r =>
          match r.1, r.2.1 with
          | some e, _ => some (.error e, r.2.2)
          | none, some block => some (.ok block, r.2.2)
          | none, none => none

/-- `rtems_rfs_file_shared` and the disk; `unread` are bytes of unread buffers. -/
structure FileShared (A : BlockAllocator) where
  state : MapState A
  size : BlockSize
  unread : ℕ → Block

/-- `rtems_rfs_file_handle`; the buffer handle is the block that it holds. -/
structure FileHandle where
  bpos : BlockPos
  buffer : Option ℕ
  deriving DecidableEq

namespace FileShared

variable {A : BlockAllocator}

def fileSize (g : Geometry) (f : FileShared A) : ℕ := f.size.getSize g

/-- `rtems_rfs_buffer_handle_request` by the handle of a file. -/
def handleRequest (f : FileShared A) (handle : FileHandle) (block : ℕ) (read : Bool) :
    FileShared A × FileHandle :=
  if handle.buffer = some block then (f, handle)
  else
    (if read then f
      else { f with
        state := { f.state with disk := Function.update f.state.disk block (f.unread 0) }
        unread := fun i => f.unread (i + 1) },
      { handle with buffer := some block })

def setSizeOffset (f : FileShared A) (offset : ℕ) : FileShared A :=
  { f with state := { f.state with map := { f.state.map with
      size := ⟨f.state.map.size.count, offset⟩
      dirty := true } } }

/-- The size of the map is the size of the file. -/
def setShared (f : FileShared A) : FileShared A := { f with size := f.state.map.size }

/-! ## Transfers -/

/-- The bytes of the block from the position on, in `size_t`. -/
def available (g : Geometry) (f : FileShared A) (handle : FileHandle) (read : Bool) : ℕ :=
  let map := f.state.map
  let size := if read = true ∧ map.bpos.LastBlock map.size ∧ map.size.offset ≠ 0 then
    map.size.offset else g.blockSize
  (size + 2 ^ g.sizeBits - handle.bpos.boff) % 2 ^ g.sizeBits

def requested (g : Geometry) (f : FileShared A) (handle : FileHandle) (block : ℕ)
    (requestRead read : Bool) : Except Errno ℕ × FileShared A × FileHandle :=
  let r := f.handleRequest handle block requestRead
  (.ok (r.1.available g r.2 read), r.1, r.2)

/-- **`rtems_rfs_file_io_start`**, with the bytes that are left to transfer. -/
def ioStart (g : Geometry) (f : FileShared A) (handle : FileHandle) (count : ℕ) (read : Bool) :
    Option (Except Errno ℕ × FileShared A × FileHandle) :=
  if handle.buffer ≠ none then some (.ok (f.available g handle read), f, handle)
  else
    (f.state.blockMapFind g handle.bpos).bind fun r =>
      let f := { f with state := r.2 }
      match r.1 with
      | .ok block =>
        -- A write that does not fill the block reads it.
        some (f.requested g handle block
          (read || decide (handle.bpos.boff ≠ 0 ∨ count < g.blockSize)) read)
      | .error e =>
        if read = true ∧ e = .enxio then some (.ok 0, f, handle)
        else if e ≠ .enxio then some (.error e, f, handle)
        else
          (f.state.blockMapGrow g 1).bind fun r =>
            match r.1, r.2.1 with
            | some e, _ => some (.error e, { f with state := r.2.2 }, handle)
            | none, some block =>
              some ({ f with state := r.2.2 }.requested g handle block false read)
            | none, none => none

/-- The position after a transfer inside of a block. -/
def advanced (g : Geometry) (bpos : BlockPos) (size : ℕ) : BlockPos :=
  if g.blockSize ≤ bpos.boff + size then
    { bpos with bno := bpos.bno + 1, boff := bpos.boff + size - g.blockSize }
  else { bpos with boff := bpos.boff + size }

def ioEnd (g : Geometry) (f : FileShared A) (handle : FileHandle) (size : ℕ) (read : Bool) :
    FileShared A × FileHandle :=
  let bpos := advanced g handle.bpos size
  (if read = false ∧ bpos.PastEnd f.state.map.size then (f.setSizeOffset bpos.boff).setShared
    else f, ⟨bpos, none⟩)

/-- `memcpy` out of the buffer of a handle. -/
def readData (g : Geometry) (f : FileShared A) (handle : FileHandle) (size : ℕ) :
    Option (List UInt8) :=
  handle.buffer.bind fun block =>
    if handle.bpos.boff + size ≤ g.blockSize then
      some ((f.state.disk block).slice handle.bpos.boff size)
    else none

/-- `memcpy` into the buffer of a handle. -/
def writeData (g : Geometry) (f : FileShared A) (handle : FileHandle) (data : List UInt8) :
    Option (FileShared A) :=
  handle.buffer.bind fun block =>
    if handle.bpos.boff + data.length ≤ g.blockSize then
      some { f with state := { f.state with
        disk := Function.update f.state.disk block
          ((f.state.disk block).copy handle.bpos.boff data) } }
    else none

/-- The loop of `rtems_rfs_rtems_file_read`; each round reads a byte at least. -/
def readLoop (g : Geometry) : ℕ → ℕ → List UInt8 → FileShared A → FileHandle →
    Option (Except Errno (List UInt8) × FileShared A × FileHandle)
  | 0, count, data, f, handle => if count = 0 then some (.ok data, f, handle) else none
  | fuel + 1, count, data, f, handle =>
    if count = 0 then some (.ok data, f, handle)
    else
      (f.ioStart g handle 0 true).bind fun r =>
        match r.1 with
        | .error e => some (.error e, r.2)
        | .ok available =>
          if available = 0 then some (.ok data, r.2)
          else
            let size := min available count
            (r.2.1.readData g r.2.2 size).bind fun part =>
              let r := r.2.1.ioEnd g r.2.2 size true
              readLoop g fuel (count - size) (data ++ part) r.1 r.2

/-- The loop of `rtems_rfs_rtems_file_write`, with the bytes written. -/
def writeLoop (g : Geometry) : ℕ → List UInt8 → ℕ → FileShared A → FileHandle →
    Option (Except Errno ℕ × FileShared A × FileHandle)
  | 0, data, written, f, handle => if data = [] then some (.ok written, f, handle) else none
  | fuel + 1, data, written, f, handle =>
    if data = [] then some (.ok written, f, handle)
    else
      (f.ioStart g handle data.length false).bind fun r =>
        match r.1 with
        | .error e => some (if written = 0 then .error e else .ok written, r.2)
        | .ok available =>
          let size := min available data.length
          (r.2.1.writeData g r.2.2 (data.take size)).bind fun f =>
            let r := f.ioEnd g r.2.2 size false
            writeLoop g fuel (data.drop size) (written + size) r.1 r.2

/-! ## Positions and sizes -/

def seek (g : Geometry) (f : FileShared A) (handle : FileHandle) (pos : ℕ) :
    Option (Option Errno × FileShared A × FileHandle) :=
  if pos ≤ f.fileSize g then
    let handle := { handle with bpos := handle.bpos.getBpos g pos }
    match handle.buffer with
    | none => some (none, f, handle)
    | some bnum =>
      (f.state.blockMapFind g handle.bpos).map fun r =>
        let f := { f with state := r.2 }
        match r.1 with
        | .error e => (some e, f, handle)
        | .ok block => (none, f, if bnum ≠ block then { handle with buffer := none } else handle)
  else some (none, f, { handle with buffer := none })

/-- The end of the file is filled in one block, up to `length`. -/
def fillBlock (f : FileShared A) (handle : FileHandle) (bpos : BlockPos) (block length : ℕ)
    (readBlock : Bool) : FileShared A × FileHandle :=
  let r := f.handleRequest handle block readBlock
  ({ r.1 with state := { r.1.state with
    disk := Function.update r.1.state.disk block
      ((r.1.state.disk block).fill bpos.boff (length - bpos.boff) 0) } },
    { r.2 with buffer := none })

/-- The loop of `rtems_rfs_file_set_size` that fills the file with zeros. -/
def fillLoop (g : Geometry) : ℕ → ℕ → FileShared A → FileHandle →
    Option (Option Errno × FileShared A × FileHandle)
  | 0, count, f, handle => if count = 0 then some (none, f, handle) else none
  | fuel + 1, count, f, handle =>
    if count = 0 then some (none, f, handle)
    else
      let bpos := f.state.map.size.getBpos
      (f.state.findOrGrow g bpos).bind fun r =>
        let f := { f with state := r.2 }
        match r.1 with
        | .error e => some (some e, f, handle)
        | .ok block =>
          -- A block is read only if the file ends in it.
          let last := decide (count < g.blockSize - bpos.boff)
          let length := if last then count + bpos.boff else g.blockSize
          let f := f.setSizeOffset (if last then length else 0)
          let r := f.fillBlock handle bpos block length last
          fillLoop g fuel (count - (length - bpos.boff)) r.1 r.2

/-- The part of `rtems_rfs_file_set_size` that shrinks to a size other than 0. -/
def shrinkSize (g : Geometry) (f : FileShared A) (handle : FileHandle) (newSize : ℕ) :
    Option (FileShared A × FileHandle) :=
  let blocks := f.state.map.size.count - ((newSize - 1) / g.blockSize + 1)
  (if blocks = 0 then some f.state else f.state.blockMapShrink g blocks).map fun state =>
    let f := { f with state := state }.setSizeOffset (newSize % g.blockSize)
    (f, if handle.bpos.PastEnd f.state.map.size then
      { handle with bpos := f.state.map.size.getBpos } else handle)

def setSize (g : Geometry) (f : FileShared A) (handle : FileHandle) (newSize : ℕ) :
    Option (Option Errno × FileShared A × FileHandle) :=
  let size := f.fileSize g
  if size = newSize then some (none, f, handle)
  else if newSize = 0 then
    (f.state.blockMapFreeAll g).map fun state => (none, { f with state := state }.setShared, handle)
  else if size < newSize then
    (f.fillLoop g (newSize - size) (newSize - size) handle).map fun r =>
      match r.1 with
      | some e => (some e, r.2)
      | none => (none, r.2.1.setShared, r.2.2)
  else
    (f.shrinkSize g handle newSize).map fun r => (none, r.1.setShared, r.2)

end FileShared

/-! ## Descriptors -/

/-- `rtems_libio_t` with the handle that it has. -/
structure Descriptor where
  handle : FileHandle
  offset : ℕ
  append : Bool
  deriving DecidableEq

/-- The descriptor after `rtems_rfs_rtems_file_open`. -/
def Descriptor.opened (append : Bool) : Descriptor := ⟨⟨⟨0, 0, 0⟩, none⟩, 0, append⟩

/-- The references of `lseek`. -/
inductive Whence
  | seekSet
  | seekCur
  | seekEnd
  deriving DecidableEq

namespace FileShared

variable {A : BlockAllocator}

def fileRead (g : Geometry) (f : FileShared A) (d : Descriptor) (count : ℕ) :
    Option (Except Errno (List UInt8) × FileShared A × Descriptor) :=
  if d.offset < f.fileSize g then
    (readLoop g count count [] f d.handle).map fun r =>
      match r.1 with
      | .error e => (.error e, r.2.1, { d with handle := r.2.2 })
      | .ok data => (.ok data, r.2.1, { d with handle := r.2.2, offset := d.offset + data.length })
  else some (.ok [], f, d)

/-- The handle at the position of a write, which is in front of its loop. -/
def writeStart (g : Geometry) (f : FileShared A) (d : Descriptor) :
    Option (Except Errno ℕ × FileShared A × FileHandle) :=
  let size := f.fileSize g
  if size < d.offset then
    (f.setSize g d.handle d.offset).map fun r =>
      match r.1 with
      | some e => (.error e, r.2)
      | none => (.ok d.offset, r.2.1, { r.2.2 with bpos := r.2.2.bpos.getBpos g d.offset })
  else if d.offset < size ∧ d.append = true then
    (f.seek g d.handle size).map fun r =>
      match r.1 with
      | some e => (.error e, r.2)
      | none => (.ok size, r.2)
  else some (.ok d.offset, f, d.handle)

def fileWrite (g : Geometry) (f : FileShared A) (d : Descriptor) (data : List UInt8) :
    Option (Except Errno ℕ × FileShared A × Descriptor) :=
  (f.writeStart g d).bind fun r =>
    match r.1 with
    | .error e => some (.error e, r.2.1, { d with handle := r.2.2 })
    | .ok pos =>
      (writeLoop g data.length data 0 r.2.1 r.2.2).map fun r =>
        match r.1 with
        | .error e => (.error e, r.2.1, { d with handle := r.2.2 })
        | .ok written => (.ok written, r.2.1, { d with handle := r.2.2, offset := pos + written })

/-- `rtems_filesystem_default_lseek_file`, with the new offset. -/
def lseekTarget (g : Geometry) (f : FileShared A) (d : Descriptor) (whence : Whence) (offset : ℤ) :
    Except Errno ℕ :=
  let reference : ℤ := match whence with
    | .seekSet => 0
    | .seekCur => d.offset
    | .seekEnd => f.fileSize g
  if 2 ^ 63 ≤ reference + offset then .error .eoverflow
  else if reference + offset < 0 then .error .einval
  else .ok (reference + offset).toNat

def fileLseek (g : Geometry) (f : FileShared A) (d : Descriptor) (whence : Whence) (offset : ℤ) :
    Option (Except Errno ℕ × FileShared A × Descriptor) :=
  match f.lseekTarget g d whence offset with
  | .error e => some (.error e, f, d)
  | .ok pos =>
    (f.seek g d.handle pos).map fun r =>
      match r.1 with
      | some e => (.error e, r.2.1, { d with handle := r.2.2 })
      | none => (.ok pos, r.2.1, { d with handle := r.2.2, offset := pos })

def fileFtruncate (g : Geometry) (f : FileShared A) (d : Descriptor) (length : ℕ) :
    Option (Option Errno × FileShared A × Descriptor) :=
  (f.setSize g d.handle length).map fun r => (r.1, r.2.1, { d with handle := r.2.2 })

end FileShared

end Rtems.Rfs
