import Rtems.Lib.Segments
import Mathlib.Algebra.Group.Nat.Defs
import Mathlib.Logic.Function.Basic

/-!
# Red-black tree heap

`rbheap.c`. The chunks of the area are described outside of it. A descriptor is in the chain of
spare descriptors, or in the tree; a chunk of the tree is free if its chain node is on a chain,
which is then the chain of free chunks.

* `RbHeap`: the chains, the tree in its order, and the descriptors;
* `rbheapInitialize`, `allocate`, `free`: the operations.

A `uintptr_t` is below `word`. The tree is a list in the order of `chunk_compare`. The handler that
extends the descriptors adds any number of new ones.
-/

namespace Rtems.Sapi

open Function

inductive RbStatus
  | successful
  | invalidAddress
  | noMemory
  | invalidId
  | incorrectState
  deriving DecidableEq

def alignUp (word alignment value : ℕ) : ℕ :=
  let excess := value % alignment
  if 0 < excess then (value + (alignment - excess)) % word else value

def alignDown (alignment value : ℕ) : ℕ := value - value % alignment

/-- `rtems_rbheap_control` with its descriptors, up to `fresh`; `linked` is `chain_node.next !=
NULL`. -/
structure RbHeap where
  freeChain : List ℕ
  spareChain : List ℕ
  tree : List ℕ
  alignment : ℕ
  chunk : ℕ → Segment
  linked : ℕ → Bool
  fresh : ℕ

namespace RbHeap

/-- What `chunk_compare` compares. -/
def key (h : RbHeap) (d : ℕ) : ℕ := (h.chunk d).begin / 2

/-- `rtems_rbheap_is_chunk_free`. -/
def isFree (h : RbHeap) (d : ℕ) : Bool := h.linked d

/-- `rtems_rbheap_add_to_spare_descriptor_chain`. -/
def addToSpare (h : RbHeap) (d : ℕ) : RbHeap :=
  { h with spareChain := d :: h.spareChain, linked := update h.linked d true }

/-- The handler adds a number of new descriptors. -/
def extendDescriptors : ℕ → RbHeap → RbHeap
  | 0, h => h
  | n + 1, h => extendDescriptors n { h.addToSpare h.fresh with fresh := h.fresh + 1 }

/-- `rtems_chain_get_unprotected` of a spare descriptor. -/
def getSpare (h : RbHeap) : Option (ℕ × RbHeap) :=
  match h.spareChain with
  | [] => none
  | d :: rest => some (d, { h with spareChain := rest })

/-- `get_chunk`, with the number of descriptors that the handler adds. -/
def getChunk (h : RbHeap) (more : ℕ) : Option ℕ × RbHeap :=
  match h.getSpare with
  | some (d, h') => (some d, h')
  | none =>
    let h := h.extendDescriptors more
    match h.getSpare with
    | some (d, h') => (some d, h')
    | none => (none, h)

def setChunk (h : RbHeap) (d : ℕ) (c : Segment) : RbHeap :=
  { h with chunk := update h.chunk d c }

/-- `add_to_chain` of the free chunks. -/
def addToFree (h : RbHeap) (d : ℕ) : RbHeap :=
  { h with freeChain := d :: h.freeChain, linked := update h.linked d true }

/-- A node in the order of a key, unless one has the same key. -/
def treeInsert (key : ℕ → ℕ) (d : ℕ) : List ℕ → List ℕ
  | [] => [d]
  | x :: l =>
    if key d = key x then x :: l
    else if key d < key x then d :: x :: l
    else x :: treeInsert key d l

def insertIntoTree (h : RbHeap) (d : ℕ) : RbHeap :=
  { h with tree := treeInsert h.key d h.tree }

/-- `rtems_rbheap_initialize`; the control is set up for an accepted area. -/
def rbheapInitialize (word areaBegin areaSize alignment more : ℕ) : RbStatus × RbHeap :=
  let areaEnd := (areaBegin + areaSize) % word
  let alignment := if alignment < 2 then 2 else alignment
  let alignedBegin := alignUp word alignment areaBegin
  let alignedEnd := alignDown alignment areaEnd
  let empty : RbHeap := ⟨[], [], [], alignment, fun _ => ⟨0, 0⟩, fun _ => false, 0⟩
  if areaBegin < areaEnd ∧ areaBegin ≤ alignedBegin ∧ alignedBegin < alignedEnd then
    match empty.getChunk more with
    | (some first, h) =>
      let h := h.setChunk first ⟨alignedBegin, alignedEnd - alignedBegin⟩
      (.successful, (h.addToFree first).insertIntoTree first)
    | (none, h) => (.noMemory, h)
  else (.invalidAddress, empty)

def searchFreeChunk (h : RbHeap) (size : ℕ) : Option ℕ :=
  h.freeChain.find? fun d => size ≤ (h.chunk d).size

/-- The end of a free chunk becomes a used chunk. -/
def splitChunk (h : RbHeap) (d new size : ℕ) : RbHeap :=
  let c := h.chunk d
  let h := h.setChunk d ⟨c.begin, c.size - size⟩
  let h := h.setChunk new ⟨c.begin + (c.size - size), size⟩
  { h with linked := update h.linked new false }.insertIntoTree new

def takeChunk (h : RbHeap) (d : ℕ) : RbHeap :=
  { h with freeChain := h.freeChain.erase d, linked := update h.linked d false }

/-- `rtems_rbheap_allocate`, with the pointer it returns. -/
def allocate (word : ℕ) (h : RbHeap) (size more : ℕ) : ℕ × RbHeap :=
  let alignedSize := alignUp word h.alignment size
  if 0 < size ∧ size ≤ alignedSize then
    match h.searchFreeChunk alignedSize with
    | none => (0, h)
    | some d =>
      if alignedSize < (h.chunk d).size then
        match h.getChunk more with
        | (some new, h) =>
          let h := h.splitChunk d new alignedSize
          ((h.chunk new).begin, h)
        | (none, h) => (0, h)
      else ((h.chunk d).begin, h.takeChunk d)
  else (0, h)

def find (h : RbHeap) (ptr : ℕ) : Option ℕ := h.tree.find? fun d => h.key d = ptr / 2

def succ (h : RbHeap) (d : ℕ) : Option ℕ := h.tree[h.tree.idxOf d + 1]?

def pred (h : RbHeap) (d : ℕ) : Option ℕ :=
  if h.tree.idxOf d = 0 then none else h.tree[h.tree.idxOf d - 1]?

/-- The body of `check_and_merge`. -/
def merge (h : RbHeap) (a b : ℕ) : RbHeap :=
  let h := h.setChunk a ⟨(h.chunk a).begin, (h.chunk a).size + (h.chunk b).size⟩
  let h := { h with freeChain := h.freeChain.erase b }.addToSpare b
  { h with tree := h.tree.erase b }

/-- `check_and_merge` of a chunk with the one behind it. -/
def mergeSucc (h : RbHeap) (d : ℕ) : RbHeap :=
  match h.succ d with
  | none => h
  | some other => if h.isFree other then h.merge d other else h

/-- `check_and_merge` of a chunk with the one before it. -/
def mergePred (h : RbHeap) (d : ℕ) : RbHeap :=
  match h.pred d with
  | none => h
  | some other => if h.isFree other then h.merge other d else h

def free (h : RbHeap) (ptr : ℕ) : RbStatus × RbHeap :=
  if ptr = 0 then (.successful, h)
  else
    match h.find ptr with
    | none => (.invalidId, h)
    | some d =>
      if h.isFree d then (.incorrectState, h)
      else (.successful, ((h.addToFree d).mergeSucc d).mergePred d)

end RbHeap

end Rtems.Sapi
