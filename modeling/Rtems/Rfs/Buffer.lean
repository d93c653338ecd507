import Rtems.Lib.Run
import Mathlib.Data.Int.Notation
import Mathlib.Logic.Function.Basic
import Mathlib.Tactic.SplitIfs

/-!
# The buffers of the file system

`rtems-rfs-buffer.c`. A handle requests the buffer of a block and releases it. Handles share a
buffer, which has a count of its references. A buffer without references is kept on one of two
chains, for the modified and the other buffers, until there are too many of them.

* `BufferState`: the chains and their counts, the buffers and the handles;
* `handleRequest`, `handleRelease` and so on: the operations; the use of a buffer that an empty
  chain does not have has no result.

A buffer that the I/O layer hands out has a new number, so that a number stands for a buffer from
the time it was obtained until it is handed back.
-/

namespace Rtems.Rfs

open Function

structure BufferHandle where
  dirty : Bool
  bnum : ℕ
  buffer : Option ℕ
  deriving DecidableEq

/-- A handle after `rtems_rfs_buffer_handle_open`. -/
def BufferHandle.closed : BufferHandle := ⟨false, 0, none⟩

/-- A call of `rtems_rfs_buffer_io_release`, with the references then. -/
structure HandBack where
  buffer : ℕ
  references : ℕ
  modified : Bool
  deriving DecidableEq

/-- The buffers of `rtems_rfs_file_system`. `next` and `handedBack` are of the I/O layer, `marked`
of the handles. -/
structure BufferState (H : Type) where
  noLocalCache : Bool
  maxHeldBuffers : ℕ
  buffers : List ℕ
  buffersCount : ℤ
  release : List ℕ
  releaseCount : ℤ
  releaseModified : List ℕ
  releaseModifiedCount : ℤ
  references : ℕ → ℕ
  user : ℕ → ℕ
  handles : H → BufferHandle
  next : ℕ
  handedBack : List HandBack
  marked : ℕ → Bool

namespace BufferState

variable {H : Type} [DecidableEq H]

/-- The state after `rtems_rfs_fs_open`, with closed handles. -/
def initial (noLocalCache : Bool) (maxHeldBuffers : ℕ) : BufferState H where
  noLocalCache := noLocalCache
  maxHeldBuffers := maxHeldBuffers
  buffers := []
  buffersCount := 0
  release := []
  releaseCount := 0
  releaseModified := []
  releaseModifiedCount := 0
  references := fun _ => 0
  user := fun _ => 0
  handles := fun _ => .closed
  next := 0
  handedBack := []
  marked := fun _ => false

/-- The handle `h` is written. -/
def setHandle (fs : BufferState H) (h : H) (handle : BufferHandle) : BufferState H :=
  { fs with handles := update fs.handles h handle }

/-- `handle->buffer = NULL`. -/
def drop (fs : BufferState H) (h : H) : BufferState H :=
  fs.setHandle h { fs.handles h with buffer := none }

/-- `rtems_chain_extract_unprotected`: a buffer leaves the chain that it is on. -/
def extract (fs : BufferState H) (b : ℕ) : BufferState H :=
  { fs with
    buffers := fs.buffers.erase b
    release := fs.release.erase b
    releaseModified := fs.releaseModified.erase b }

/-- `buffer->user = 0` and `rtems_rfs_buffer_io_release`. -/
def ioRelease (fs : BufferState H) (b : ℕ) (modified : Bool) : BufferState H :=
  { fs with
    user := update fs.user b 0
    handedBack := fs.handedBack ++ [⟨b, fs.references b, modified⟩] }

def cache (fs : BufferState H) : Bool → List ℕ
  | false => fs.release
  | true => fs.releaseModified

/-- The rest of a chain of the local cache after its first buffer was taken. -/
def dequeued (fs : BufferState H) (modified : Bool) (rest : List ℕ) : BufferState H :=
  match modified with
  | false => { fs with release := rest, releaseCount := fs.releaseCount - 1 }
  | true => { fs with
      releaseModified := rest
      releaseModifiedCount := fs.releaseModifiedCount - 1 }

/-- A buffer at the end of a chain of the local cache. -/
def enqueued (fs : BufferState H) (modified : Bool) (b : ℕ) : BufferState H :=
  match modified with
  | false => { fs with release := fs.release ++ [b], releaseCount := fs.releaseCount + 1 }
  | true => { fs with
      releaseModified := fs.releaseModified ++ [b]
      releaseModifiedCount := fs.releaseModifiedCount + 1 }

/-! ## Release -/

/-- A local cache with too many buffers hands back one of its longer chain. -/
def evict (fs : BufferState H) : Option (Bool × BufferState H) :=
  if (fs.maxHeldBuffers : ℤ) ≤ fs.releaseCount + fs.releaseModifiedCount then
    let modified := !decide (fs.releaseModifiedCount < fs.releaseCount)
    match fs.cache modified with
    | [] => none
    | b :: rest => some (true, (fs.dequeued modified rest).ioRelease b modified)
  else some (false, fs)

def refsDown (fs : BufferState H) (b : ℕ) : BufferState H :=
  if 0 < fs.references b then
    { fs with references := update fs.references b (fs.references b - 1) }
  else fs

/-- `rtems_rfs_buffer_handle_release`; `released` is the result of the I/O layer. -/
def releaseBuffer (fs : BufferState H) (b : ℕ) (dirty released : Bool) :
    Option (Bool × BufferState H) :=
  let fs := fs.refsDown b
  if fs.references b = 0 then
    let fs := { fs.extract b with buffersCount := fs.buffersCount - 1 }
    if fs.noLocalCache then some (released, fs.ioRelease b dirty)
    else fs.evict.map fun r => (!r.1 || released, r.2.enqueued dirty b)
  else some (true, fs)

def handleRelease (fs : BufferState H) (h : H) (released : Bool) : Option (Bool × BufferState H) :=
  match (fs.handles h).buffer with
  | none => some (true, fs)
  | some b => (fs.releaseBuffer b (fs.handles h).dirty released).map fun r => (r.1, r.2.drop h)

/-! ## Request -/

/-- `rtems_rfs_scan_chain`, which starts at the last buffer. -/
def scanChain (fs : BufferState H) (chain : List ℕ) (block : ℕ) : Option ℕ :=
  chain.reverse.find? fun b => fs.user b == block

/-- The buffer of a block is on the chain of the handles. -/
def attach (fs : BufferState H) (h : H) (block b : ℕ) : BufferState H :=
  { fs with
    references := update fs.references b (fs.references b + 1)
    buffers := fs.buffers ++ [b]
    buffersCount := fs.buffersCount + 1
    user := update fs.user b block }.setHandle h
      { fs.handles h with buffer := some b, bnum := block }

/-- The buffer of a block comes from the I/O layer. -/
def obtain (fs : BufferState H) (h : H) (block : ℕ) (requested : Bool) : Bool × BufferState H :=
  if requested then
    (true, { fs with
      next := fs.next + 1
      references := update fs.references fs.next 0 }.attach h block fs.next)
  else (false, fs)

/-- The buffer of a block is looked for on the chains. -/
def locate (fs : BufferState H) (h : H) (block : ℕ) (requested : Bool) : Bool × BufferState H :=
  match (if fs.buffersCount = 0 then none else fs.scanChain fs.buffers block) with
  | some b => (true, { fs.extract b with
      buffersCount := fs.buffersCount - 1 }.attach h block b)
  | none =>
    if fs.noLocalCache then fs.obtain h block requested
    else
      match (if fs.releaseCount = 0 then none else fs.scanChain fs.release block) with
      | some b => (true, { fs.extract b with
          releaseCount := fs.releaseCount - 1 }.attach h block b)
      | none =>
        match (if fs.releaseModifiedCount = 0 then none
          else fs.scanChain fs.releaseModified block) with
        | some b => (true, ({ fs.extract b with
            releaseModifiedCount := fs.releaseModifiedCount - 1 }.setHandle h
              { fs.handles h with dirty := true }).attach h block b)
        | none => fs.obtain h block requested

/-- **`rtems_rfs_buffer_handle_request`.** The flags are the results of the I/O layer. -/
def handleRequest (fs : BufferState H) (h : H) (block : ℕ) (requested released : Bool) :
    Option (Bool × BufferState H) :=
  if (fs.handles h).buffer = none then some (fs.locate h block requested)
  else if block ≠ 0 ∧ (fs.handles h).bnum = block then some (true, fs)
  else (fs.handleRelease h released).map fun r =>
    if r.1 then (r.2.setHandle h { r.2.handles h with dirty := false, bnum := 0 }).locate h block
      requested
    else r

/-! ## Handles -/

def handleOpen (fs : BufferState H) (h : H) : BufferState H := fs.setHandle h .closed

def handleClose (fs : BufferState H) (h : H) (released : Bool) : Option (BufferState H) :=
  (fs.handleRelease h released).map fun r => r.2.setHandle h .closed

def markDirty (fs : BufferState H) (h : H) : BufferState H :=
  { fs.setHandle h { fs.handles h with dirty := true } with
    marked := match (fs.handles h).buffer with
      | none => fs.marked
      | some b => update fs.marked b true }

/-! ## Release of all buffers -/

/-- `rtems_rfs_release_chain` for a chain of the local cache. -/
def releaseChain (modified : Bool) : List ℕ → BufferState H → BufferState H
  | [], fs => fs
  | b :: rest, fs => releaseChain modified rest ((fs.dequeued modified rest).ioRelease b modified)

def buffersRelease (fs : BufferState H) : BufferState H :=
  let fs := releaseChain false fs.release fs
  releaseChain true fs.releaseModified fs

end BufferState

end Rtems.Rfs
