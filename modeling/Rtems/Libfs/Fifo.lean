import Rtems.Lib.Ring
import Rtems.Lib.Run
import Mathlib.Algebra.Group.Int.Defs

/-!
# Pipes

`fifo.c`. The bytes of a pipe are in a ring. A reader takes what is there, and waits when the pipe
is empty. A writer of at most the size of the pipe waits for the space of all its bytes, and a
longer one writes in pieces.

* `PipeControl`, `readChunk`, `writeChunk`: the ring and the copies;
* `readSection`, `writeLoop`: a call from the lock until it returns or waits;
* `System`, `step`: the calls of several tasks. A task that waits goes on at any time.

The counts of the calls are below `2 ^ 31`, so that an `int` holds them.
-/

namespace Rtems.Fifo

/-- The `int` with the bits of an `unsigned int`. -/
def toInt (n : ℕ) : ℤ := (n : ℤ).bmod (2 ^ 32)

inductive PipeErrno
  | eagain
  | eintr
  | epipe
  deriving DecidableEq

/-- `pipe_control_t` without the parts that wake tasks up. -/
structure PipeControl where
  buffer : ℕ → UInt8
  size : ℕ
  start : ℕ
  length : ℕ
  readers : ℕ
  writers : ℕ

namespace PipeControl

def space (p : PipeControl) : ℕ := (p.size + 2 ^ 32 - p.length) % 2 ^ 32

def wstart (p : PipeControl) : ℕ := (p.start + p.length) % 2 ^ 32 % p.size

/-- `memcpy` out of the buffer. A negative number of bytes is a large `size_t`. -/
def copyOut (p : PipeControl) (pos : ℕ) (n : ℤ) : Option (List UInt8) :=
  if 0 ≤ n ∧ pos + n ≤ p.size then some (Ring.cells p.buffer pos n.toNat) else none

/-- `memcpy` of the first bytes of some data into the buffer. -/
def copyIn (p : PipeControl) (pos : ℕ) (n : ℤ) (data : List UInt8) : Option PipeControl :=
  if 0 ≤ n ∧ pos + n ≤ p.size then
    some { p with buffer := Ring.put p.buffer pos (data.take n.toNat) }
  else none

def readChunk (p : PipeControl) (count : ℕ) : Option (List UInt8 × PipeControl) :=
  let chunk := min count p.length
  let chunk1 := toInt ((p.size + 2 ^ 32 - p.start) % 2 ^ 32)
  (if chunk1 < chunk then
      (p.copyOut p.start chunk1).bind fun first =>
        (p.copyOut 0 (chunk - chunk1)).map fun second => first ++ second
    else p.copyOut p.start chunk).map fun bytes =>
    (bytes, { p with
      start := if p.length - chunk = 0 then 0 else (p.start + chunk) % 2 ^ 32 % p.size
      length := p.length - chunk })

/-- As many bytes as there is space for enter the pipe, with their number. -/
def writeChunk (p : PipeControl) (data : List UInt8) : Option (ℕ × PipeControl) :=
  let chunk := min data.length p.space
  let chunk1 := toInt ((p.size + 2 ^ 32 - p.wstart) % 2 ^ 32)
  (if chunk1 < chunk then
      (p.copyIn p.wstart chunk1 data).bind fun p =>
        p.copyIn 0 (chunk - chunk1) (data.drop chunk1.toNat)
    else p.copyIn p.wstart chunk data).map fun p =>
    (chunk, { p with length := p.length + chunk })

/-- `pipe_read` with the lock. The result is none if the reader waits. -/
def readSection (p : PipeControl) (count : ℕ) (nodelay : Bool) :
    Option (Option (List UInt8 × Except PipeErrno ℕ) × PipeControl) :=
  if p.length = 0 then
    if p.writers = 0 then some (some ([], .ok 0), p)
    else if nodelay then some (some ([], .error .eagain), p)
    else some (none, p)
  else (p.readChunk count).map fun r => (some (r.1, .ok r.1.length), r.2)

end PipeControl

/-- What is written, the space needed next, and the pieces with their positions. -/
structure Progress where
  written : ℕ
  chunk : ℕ
  pieces : List (ℕ × List UInt8)

/-- The result of a writer that wrote some bytes. -/
def Progress.result (w : Progress) (ret : Except PipeErrno ℕ) : Except PipeErrno ℕ :=
  if 0 < w.written then .ok w.written else ret

/-- The loop of `pipe_write` with the lock and the stream so far; none if it waits. -/
def writeLoop (data : List UInt8) (nodelay : Bool) : ℕ → PipeControl → List UInt8 → Progress →
    Option (Option (Except PipeErrno ℕ) × PipeControl × List UInt8 × Progress)
  | 0, p, stream, w =>
    if w.written < data.length then none else some (some (w.result (.ok 0)), p, stream, w)
  | fuel + 1, p, stream, w =>
    if w.written < data.length then
      if p.space < w.chunk then
        some (if nodelay then some (w.result (.error .eagain)) else none, p, stream, w)
      else
        (p.writeChunk (data.drop w.written)).bind fun r =>
          let piece := (data.drop w.written).take r.1
          writeLoop data nodelay fuel r.2 (stream ++ piece)
            ⟨w.written + r.1, 1, w.pieces ++ [(stream.length, piece)]⟩
    else some (some (w.result (.ok 0)), p, stream, w)

/-! ## Several tasks -/

inductive Call
  | read (count : ℕ) (nodelay : Bool)
  | write (data : List UInt8) (nodelay : Bool) (w : Progress)

/-- What a call returned: a read with its bytes, a write with its pieces. -/
inductive Return
  | read (bytes : List UInt8) (result : Except PipeErrno ℕ)
  | write (data : List UInt8) (pieces : List (ℕ × List UInt8)) (result : Except PipeErrno ℕ)

/-- A pipe with the calls of tasks, all its bytes, and the calls that returned. -/
structure System (T : Type) where
  pipe : PipeControl
  calls : T → Option Call
  stream : List UInt8
  returns : List Return

/-- A call starts or goes on, or others open and close the pipe. The flags: the lock was obtained,
the wait not interrupted. -/
inductive Action (T : Type)
  | read (t : T) (count : ℕ) (nodelay locked : Bool)
  | write (t : T) (data : List UInt8) (nodelay locked : Bool)
  | wake (t : T) (waited locked : Bool)
  | users (readers writers : ℕ)

namespace System

variable {T : Type} [DecidableEq T]

def initial (size : ℕ) : System T := ⟨⟨fun _ => 0, size, 0, 0, 0, 0⟩, fun _ => none, [], []⟩

def finish (s : System T) (t : T) (r : Return) : System T :=
  { s with calls := Function.update s.calls t none, returns := s.returns ++ [r] }

def wait (s : System T) (t : T) (c : Call) : System T :=
  { s with calls := Function.update s.calls t (some c) }

/-- `pipe_read` with the lock. -/
def reading (s : System T) (t : T) (count : ℕ) (nodelay : Bool) : Option (System T) :=
  (s.pipe.readSection count nodelay).map fun r =>
    let s := { s with pipe := r.2 }
    match r.1 with
    | none => s.wait t (.read count nodelay)
    | some (bytes, result) => s.finish t (.read bytes result)

/-- `pipe_write` with the lock. -/
def writing (s : System T) (t : T) (data : List UInt8) (nodelay : Bool) (w : Progress) :
    Option (System T) :=
  if s.pipe.readers = 0 then some (s.finish t (.write data w.pieces (w.result (.error .epipe))))
  else
    (writeLoop data nodelay (data.length - w.written) s.pipe s.stream w).map fun r =>
      let s := { s with pipe := r.2.1, stream := r.2.2.1 }
      match r.1 with
      | none => s.wait t (.write data nodelay r.2.2.2)
      | some result => s.finish t (.write data r.2.2.2.pieces result)

def begun (size : ℕ) (data : List UInt8) : Progress :=
  ⟨0, if data.length ≤ size then data.length else 1, []⟩

def step (s : System T) : Action T → Option (System T)
  | .read t count nodelay locked =>
    match s.calls t with
    | some _ => some s
    | none =>
      if locked = false then some (s.finish t (.read [] (.error .eintr)))
      else s.reading t count nodelay
  | .write t data nodelay locked =>
    match s.calls t with
    | some _ => some s
    | none =>
      if data.length = 0 then some (s.finish t (.write data [] (.ok 0)))
      else if locked = false then some (s.finish t (.write data [] (.error .eintr)))
      else s.writing t data nodelay (begun s.pipe.size data)
  | .wake t waited locked =>
    match s.calls t with
    | none => some s
    | some (.read count nodelay) =>
      if locked = false ∨ waited = false then some (s.finish t (.read [] (.error .eintr)))
      else s.reading t count nodelay
    | some (.write data nodelay w) =>
      if locked = false ∨ waited = false then
        some (s.finish t (.write data w.pieces (w.result (.error .eintr))))
      else s.writing t data nodelay w
  | .users readers writers => some { s with pipe := { s.pipe with
      readers := readers
      writers := writers } }

end System

end Rtems.Fifo
