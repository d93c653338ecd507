import Rtems.Lib.Run
import Rtems.Score.Objects
import Mathlib.Data.List.Infix
import Mathlib.Data.List.Perm.Subperm
import Mathlib.Data.List.ReduceOption
import Mathlib.Tactic.SplitIfs

/-!
# The tables of an object class

`objectinitializeinformation.c`, `objectallocate.c`, `objectextendinformation.c`, `objectfree.c`,
`objectshrinkinformation.c` and `objectgetnoprotection.c`. The objects of a class are in blocks of
`allocation_size` objects; the tables of the class grow by one block at a time.

* `ObjectsInformation`: the record of a class with its tables and the chain of inactive objects;
* `ObjectsSystem`: a class and the objects that are in use; what the workspace gives is an argument;
* **`extend_keeps`**: the tables keep their entries when they grow, unless they have one entry only;
  **`exists_lost_object`**: then they lose it.
-/

namespace Rtems

open PartialRun List Option Nat

/-! ## Object ids -/

/-- `RTEMS_USE_16_BIT_OBJECT`, or not. -/
inductive IdFormat
  | bits16
  | bits32
  deriving DecidableEq

namespace IdFormat

variable (f : IdFormat)

/-- `OBJECTS_ID_FINAL_INDEX` and `OBJECTS_INDEX_VALID_BITS`, the greatest `Objects_Maximum`. -/
def finalIndex : IdFormat → ℕ
  | .bits16 => 0xff
  | .bits32 => 0xffff

def isUnlimited (maximum : ℕ) : Bool :=
  match f with
  | .bits16 => maximum &&& 0x8000 != 0
  | .bits32 => maximum &&& 0x80000000 != 0

def maximumPerAllocation (maximum : ℕ) : ℕ :=
  match f with
  | .bits16 => (maximum &&& 0xffff7fff) % 2 ^ 8
  | .bits32 => (maximum &&& 0x7fffffff) % 2 ^ 16

def buildId (api cls node index : ℕ) : Id :=
  match f with
  | .bits16 => (api <<< 8 ||| cls <<< 11 ||| index) % 2 ^ 16
  | .bits32 => (api <<< 24 ||| cls <<< 27 ||| (node % 2 ^ 8) <<< 16 ||| index) % 2 ^ 32

def getIndex (id : Id) : ℕ := id &&& f.finalIndex

variable {f} {api cls node : ℕ}

theorem mul_add_mod_mul {x i n m : ℕ} (h : i < n) : (x * n + i) % (n * m) = x % m * n + i := by
  have hn : 0 < n := zero_lt_of_lt h
  rw [Nat.mod_mul, Nat.mul_add_mod_self_right, Nat.mod_eq_of_lt h, Nat.mul_comm x n,
    Nat.mul_add_div hn, Nat.div_eq_of_lt h, Nat.add_zero, Nat.mul_comm n, Nat.add_comm]

theorem exists_buildId (f : IdFormat) (api cls node : ℕ) :
    ∃ x, ∀ index ≤ f.finalIndex, f.buildId api cls node index = x * (f.finalIndex + 1) + index := by
  cases f with
  | bits16 =>
    refine ⟨(api ||| cls <<< 3) % 2 ^ 8, fun index h => ?_⟩
    have hor : api <<< 8 ||| cls <<< 11 ||| index = (api ||| cls <<< 3) <<< 8 + index := by
      rw [shiftLeft_add_eq_or_of_lt (show index < 2 ^ 8 from lt_succ_of_le h), shiftLeft_or_distrib,
        ← shiftLeft_add]
    rw [buildId, hor, shiftLeft_eq]
    exact mul_add_mod_mul (m := 2 ^ 8) (lt_succ_of_le h)
  | bits32 =>
    refine ⟨(api <<< 8 ||| cls <<< 11 ||| node % 2 ^ 8) % 2 ^ 16, fun index h => ?_⟩
    have hor : api <<< 24 ||| cls <<< 27 ||| (node % 2 ^ 8) <<< 16 ||| index =
        (api <<< 8 ||| cls <<< 11 ||| node % 2 ^ 8) <<< 16 + index := by
      rw [shiftLeft_add_eq_or_of_lt (show index < 2 ^ 16 from lt_succ_of_le h),
        shiftLeft_or_distrib, shiftLeft_or_distrib, ← shiftLeft_add, ← shiftLeft_add]
    rw [buildId, hor, shiftLeft_eq]
    exact mul_add_mod_mul (m := 2 ^ 16) (lt_succ_of_le h)

theorem getIndex_eq_mod (id : Id) : f.getIndex id = id % (f.finalIndex + 1) := by
  cases f with
  | bits16 => exact and_two_pow_sub_one_eq_mod id 8
  | bits32 => exact and_two_pow_sub_one_eq_mod id 16

@[simp]
theorem getIndex_buildId {index : ℕ} (h : index ≤ f.finalIndex) :
    f.getIndex (f.buildId api cls node index) = index := by
  obtain ⟨x, hx⟩ := exists_buildId f api cls node
  rw [getIndex_eq_mod, hx index h, Nat.mul_add_mod_self_right]
  exact Nat.mod_eq_of_lt (lt_succ_of_le h)

end IdFormat

/-! ## The class -/

/-- The id format, `_Objects_Local_node`, the size of a pointer, and `CPU_ALIGNMENT`, a power of
two. -/
structure ObjectsConfig where
  format : IdFormat
  localNode : ℕ
  pointerSize : ℕ
  alignmentBits : ℕ
  deriving DecidableEq

/-- An object is given by its block and its position in the block. -/
structure ObjectRef where
  block : ℕ
  position : ℕ
  deriving DecidableEq

structure TableMemory where
  blocks : ℕ → Option ℕ
  counts : ℕ → ℕ
  entries : ℕ → Option ObjectRef

/-- What the workspace gives for a block of objects and for the tables. -/
structure WorkspaceReply where
  block : Option ℕ
  tables : Option TableMemory

/-- `Objects_Information`: `chain` is `Inactive`, `inactive` its counter, `id` the id of each
object. -/
structure ObjectsInformation where
  theApi : ℕ
  theClass : ℕ
  minimumId : Id
  maximumId : Id
  maximum : ℕ
  autoExtend : Bool
  allocationSize : ℕ
  size : ℕ
  localTable : List (Option ObjectRef)
  chain : List ObjectRef
  inactive : ℕ
  inactivePerBlock : List ℕ
  objectBlocks : Option (List (Option ℕ))
  id : ObjectRef → Id

def memcpy {α : Type} (destination source : List α) (n : ℕ) : List α :=
  source.take n ++ destination.drop n

/-- The loop that sets entries to `NULL`. -/
def clearEntries {α : Type} (table : List (Option α)) (first count : ℕ) : List (Option α) :=
  (List.range' first count).foldl (fun t i => t.set i none) table

/-- Where the search for a free block of indexes ends. -/
structure BlockSearch where
  block : ℕ
  indexBase : ℕ
  doExtend : Bool
  deriving DecidableEq

def searchBlocks (allocationSize : ℕ) : List (Option ℕ) → ℕ → ℕ → BlockSearch
  | [], block, indexBase => ⟨block, indexBase, true⟩
  | none :: _, block, indexBase => ⟨block, indexBase, false⟩
  | some _ :: bs, block, indexBase =>
    searchBlocks allocationSize bs (block + 1) (indexBase + allocationSize)

namespace ObjectsInformation

variable (c : ObjectsConfig) (s : ObjectsInformation)

/-- The table of blocks, empty if there is none. -/
def blocks : List (Option ℕ) := s.objectBlocks.getD []

def index (o : ObjectRef) : ℕ := c.format.getIndex (s.id o)

def minimumIndex : ℕ := c.format.getIndex s.minimumId

/-- `block_count` of `_Objects_Extend_information`. -/
def blockCount : ℕ :=
  match s.objectBlocks with
  | none => 0
  | some _ => s.maximum / s.allocationSize

/-- The first loop of `_Objects_Extend_information`. -/
def search : BlockSearch :=
  searchBlocks s.allocationSize (s.blocks.take s.blockCount) 0 (s.minimumIndex c)

/-- The old tables are copied to the new ones, which are one block longer. -/
def copyTables (m : TableMemory) : List (Option ℕ) × List ℕ × List (Option ObjectRef) :=
  let blocks := (List.range (s.blockCount + 1)).map m.blocks
  let counts := (List.range (s.blockCount + 1)).map m.counts
  let entries :=
    (List.range (s.maximum + s.allocationSize + s.minimumIndex c)).map m.entries
  if s.maximum > s.minimumIndex c then
    (memcpy blocks s.blocks s.blockCount, memcpy counts s.inactivePerBlock s.blockCount,
      memcpy entries s.localTable (s.maximum + s.minimumIndex c))
  else (blocks, counts, clearEntries entries 0 (s.minimumIndex c))

def growTables (m : TableMemory) (indexBase : ℕ) : ObjectsInformation :=
  let tables := s.copyTables c m
  let maximum := s.maximum + s.allocationSize
  { s with
    objectBlocks := some (tables.1.set s.blockCount none)
    inactivePerBlock := tables.2.1.set s.blockCount 0
    localTable := clearEntries tables.2.2 indexBase s.allocationSize
    maximum := maximum
    maximumId := c.format.buildId s.theApi s.theClass c.localNode maximum }

/-- One object of a new block gets its id and is appended to the chain. -/
def appendObject (block indexBase k : ℕ) : ObjectsInformation :=
  { s with
    id := Function.update s.id ⟨block, k⟩
      (c.format.buildId s.theApi s.theClass c.localNode (indexBase + k))
    chain := s.chain ++ [⟨block, k⟩] }

def setBlock (block : ℕ) (b : Option ℕ) : ObjectsInformation :=
  { s with objectBlocks := s.objectBlocks.map fun bs => bs.set block b }

/-- The objects of a new block, after the growth of the tables. -/
def appendObjects (newBlock block indexBase : ℕ) : ObjectsInformation :=
  let s₁ := (List.range s.allocationSize).foldl
    (fun (s' : ObjectsInformation) k => s'.appendObject c newBlock indexBase k)
    (s.setBlock block (some newBlock))
  { s₁ with
    inactivePerBlock := s₁.inactivePerBlock.set block s.allocationSize
    inactive := (s.inactive + s.allocationSize) % (c.format.finalIndex + 1) }

/-- `_Objects_Extend_information`; `_Workspace_Allocate_or_fatal_error` may fail. -/
def extendInformation (w : WorkspaceReply) : Option ObjectsInformation :=
  let r := s.search c
  if s.maximum + s.allocationSize > c.format.finalIndex then some s
  else
    match w.block with
    | none => if s.autoExtend then some s else none
    | some b =>
      if r.doExtend then
        match w.tables with
        | none => if s.autoExtend then some s else none
        | some m => some ((s.growTables c m r.indexBase).appendObjects c b r.block r.indexBase)
      else some (s.appendObjects c b r.block r.indexBase)

def bareInformation (theApi theClass maximum size : ℕ) : ObjectsInformation :=
  let maximumPerAllocation := c.format.maximumPerAllocation maximum
  let minimumIndex := if maximumPerAllocation = 0 then 0 else 1
  { theApi := theApi, theClass := theClass
    minimumId := c.format.buildId theApi theClass c.localNode minimumIndex
    maximumId := 0, maximum := 0, autoExtend := c.format.isUnlimited maximum
    allocationSize := maximumPerAllocation, size := size, localTable := [none], chain := []
    inactive := 0, inactivePerBlock := [], objectBlocks := none, id := fun _ => 0 }

/-- `_Objects_Do_initialize_information` without names and nodes; none after a fatal error. -/
def initializeInformation (theApi theClass maximum size : ℕ) (w : WorkspaceReply) :
    Option ObjectsInformation :=
  let s := bareInformation c theApi theClass maximum size
  if s.autoExtend && s.allocationSize == 0 then none
  else if s.allocationSize ≠ 0 then s.extendInformation c w
  else some s

def getInactive : Option ObjectRef × ObjectsInformation :=
  match s.chain with
  | [] => (none, s)
  | o :: rest => (some o, { s with chain := rest })

def blockOf (o : ObjectRef) : ℕ := (s.index c o - s.minimumIndex c) / s.allocationSize

/-- The accounting of `_Objects_Allocate_unprotected` for an object it has got. -/
def countAllocated (o : ObjectRef) : ObjectsInformation :=
  { s with
    inactivePerBlock := s.inactivePerBlock.modify (s.blockOf c o) fun n => n - 1
    inactive := s.inactive - 1 }

/-- `_Objects_Get_inactive`, after an extension if there is no object. -/
def getOrExtend (w : WorkspaceReply) : Option (Option ObjectRef × ObjectsInformation) :=
  if s.autoExtend ∧ s.chain = [] then (s.extendInformation c w).map getInactive
  else some s.getInactive

def allocateUnprotected (w : WorkspaceReply) : Option (Option ObjectRef × ObjectsInformation) :=
  if s.size = 0 then some (none, s)
  else (s.getOrExtend c w).map fun r =>
    match r with
    | (some o, s₁) => (some o, if s.autoExtend then s₁.countAllocated c o else s₁)
    | (none, s₁) => (none, s₁)

def openObject (o : ObjectRef) : ObjectsInformation :=
  { s with localTable := s.localTable.set (s.index c o) (some o) }

def closeObject (o : ObjectRef) : ObjectsInformation :=
  { s with localTable := s.localTable.set (s.index c o) none }

/-- A block is given back: its objects leave the chain. -/
def releaseBlock (block indexBase : ℕ) : ObjectsInformation :=
  { s.setBlock block none with
    chain := s.chain.filter fun o =>
      !(indexBase ≤ s.index c o && s.index c o < indexBase + s.allocationSize)
    inactivePerBlock := s.inactivePerBlock.set block 0
    inactive := s.inactive - s.allocationSize }

/-- The loop of `_Objects_Shrink_information`, over the counts of the blocks. -/
def shrinkFrom : List ℕ → ℕ → ℕ → ObjectsInformation
  | [], _, _ => s
  | n :: ns, block, indexBase =>
    if n = s.allocationSize then s.releaseBlock c block indexBase
    else shrinkFrom ns (block + 1) (indexBase + s.allocationSize)

def shrinkInformation : ObjectsInformation :=
  s.shrinkFrom c
    (s.inactivePerBlock.take ((s.maximum - s.minimumIndex c) / s.allocationSize)) 0
    (s.minimumIndex c)

/-- The accounting of `_Objects_Free`. -/
def countFreed (o : ObjectRef) : ObjectsInformation :=
  { s with
    inactivePerBlock := s.inactivePerBlock.modify (s.blockOf c o) fun n => n + 1
    inactive := s.inactive + 1 }

def freeObject (o : ObjectRef) : ObjectsInformation :=
  let s₁ := { s with chain := s.chain ++ [o] }
  if s.autoExtend then
    let s₂ := s₁.countFreed c o
    if s₂.inactive > s.allocationSize + s.allocationSize >>> 1 then s₂.shrinkInformation c else s₂
  else s₁

/-- `_Objects_Get_no_protection`. -/
def get (id : Id) : Option ObjectRef :=
  let index := (id + 2 ^ 32 - s.minimumId + 1) % 2 ^ 32
  if s.maximum ≥ index then (s.localTable[index]?).join else none

/-- The sizes of the three tables in their common allocation. -/
def objectBlocksSize (blockCount : ℕ) : ℕ :=
  (blockCount * c.pointerSize + (2 ^ c.alignmentBits - 1)) >>> c.alignmentBits <<< c.alignmentBits

def inactivePerBlockSize (blockCount : ℕ) : ℕ :=
  (blockCount * 4 + (2 ^ c.alignmentBits - 1)) >>> c.alignmentBits <<< c.alignmentBits

def tablesSize : ℕ :=
  objectBlocksSize c (s.blockCount + 1) + inactivePerBlockSize c (s.blockCount + 1) +
    (s.maximum + s.allocationSize + s.minimumIndex c) * c.pointerSize

/-- How `_Objects_Extend_information` ends. -/
inductive Outcome
  | refused
  | refilled
  | grown
  deriving DecidableEq

/-- `_Objects_Extend_information` returns early, fills a block, or grows the tables. -/
def outcome (w : WorkspaceReply) : Outcome :=
  if s.maximum + s.allocationSize > c.format.finalIndex ∨ w.block.isNone then .refused
  else if (s.search c).doExtend then (if w.tables.isNone then .refused else .grown)
  else .refilled

end ObjectsInformation

/-! ## The use of a class -/

/-- A class, and the objects that have been allocated and not freed. -/
structure ObjectsSystem where
  info : ObjectsInformation
  taken : List ObjectRef

inductive ObjectsAction
  | allocate (w : WorkspaceReply)
  | openObject (o : ObjectRef)
  | closeObject (o : ObjectRef)
  | freeObject (o : ObjectRef)

namespace ObjectsSystem

variable (c : ObjectsConfig) (s : ObjectsSystem)

/-- The workspace gives no memory that is in use. -/
def Unused (w : WorkspaceReply) : Prop := ∀ b, w.block = some b → some b ∉ s.info.blocks

instance (w : WorkspaceReply) : Decidable (s.Unused w) :=
  match h : w.block with
  | none => .isTrue fun b hb => by rw [h] at hb; cases hb
  | some b => decidable_of_iff (some b ∉ s.info.blocks)
      ⟨fun hn b' hb' => by rw [h] at hb'; cases hb'; exact hn, fun hn => hn b h⟩

/-- One step. An object in use is opened, closed or, then, freed. -/
def step : ObjectsAction → Option ObjectsSystem
  | .allocate w =>
    if s.Unused w then
      (s.info.allocateUnprotected c w).map fun r => ⟨r.2, r.1.toList ++ s.taken⟩
    else none
  | .openObject o => if o ∈ s.taken then some { s with info := s.info.openObject c o } else none
  | .closeObject o =>
    if o ∈ s.taken then some { s with info := s.info.closeObject c o } else none
  | .freeObject o =>
    if o ∈ s.taken ∧ some o ∉ s.info.localTable then
      some ⟨s.info.freeObject c o, s.taken.erase o⟩
    else none

end ObjectsSystem

/-! ## Tables -/

variable {bs : List (Option ℕ)}

section Tables

variable {α : Type}

theorem clearEntries_succ (table : List (Option α)) (first count : ℕ) :
    clearEntries table first (count + 1) =
      clearEntries (table.set first none) (first + 1) count := by
  rfl

theorem clearEntries_append {xs ys : List (Option α)} {first count : ℕ} (hx : xs.length = first)
    (hy : ys.length = count) :
    clearEntries (xs ++ ys) first count = xs ++ List.replicate count none := by
  subst hx hy
  induction ys generalizing xs with
  | nil => rfl
  | cons y ys ih =>
    have hset : (xs ++ y :: ys).set xs.length none = (xs ++ [none]) ++ ys := by simp
    have hlength : xs.length + 1 = (xs ++ [none]).length := by simp
    rw [length_cons, clearEntries_succ, hset, hlength, ih, replicate_succ]
    simp

theorem memcpy_all (destination source : List α) :
    memcpy destination source source.length = source ++ destination.drop source.length := by
  rw [memcpy, take_length]

theorem searchBlocks_cases (a : ℕ) (bs : List (Option ℕ)) (block indexBase : ℕ) :
    (searchBlocks a bs block indexBase = ⟨block + bs.length, indexBase + bs.length * a, true⟩ ∨
      ∃ n, bs[n]? = some none ∧
        searchBlocks a bs block indexBase = ⟨block + n, indexBase + n * a, false⟩) := by
  induction bs generalizing block indexBase with
  | nil =>
    left
    simp [searchBlocks]
  | cons b bs ih =>
    cases b with
    | none =>
      right
      exact ⟨0, rfl, by simp [searchBlocks]⟩
    | some b =>
      rw [searchBlocks]
      have hnext : ∀ n, indexBase + a + n * a = indexBase + (n + 1) * a := by
        intro n; rw [Nat.succ_mul]; omega
      rcases ih (block + 1) (indexBase + a) with h | ⟨n, hn, h⟩
      · left
        rw [h, hnext, length_cons, Nat.add_right_comm, Nat.add_assoc]
      · right
        refine ⟨n + 1, hn, ?_⟩
        rw [h, hnext, Nat.add_right_comm, Nat.add_assoc]

def blockObjects (b n : ℕ) : List ObjectRef := (List.range n).map (ObjectRef.mk b)

@[simp]
theorem mem_blockObjects {b n : ℕ} {o : ObjectRef} :
    o ∈ blockObjects b n ↔ o.block = b ∧ o.position < n := by
  rw [blockObjects, List.mem_map]
  constructor
  · rintro ⟨k, hk, rfl⟩; exact ⟨rfl, mem_range.mp hk⟩
  · rintro ⟨rfl, hk⟩; exact ⟨o.position, mem_range.mpr hk, rfl⟩

@[simp]
theorem length_blockObjects (b n : ℕ) : (blockObjects b n).length = n := by
  rw [blockObjects, length_map, length_range]

theorem nodup_blockObjects (b n : ℕ) : (blockObjects b n).Nodup := by
  refine nodup_range.map fun k l h => ?_
  exact (ObjectRef.mk.inj h).2

theorem length_le_of_blocks {a : ℕ} {l : List ObjectRef} (hl : l.Nodup)
    (h : ∀ o ∈ l, some o.block ∈ bs ∧ o.position < a) : l.length ≤ bs.length * a := by
  have hsub : l ⊆ bs.reduceOption.flatMap fun b => blockObjects b a := by
    intro o ho
    rw [mem_flatMap]
    exact ⟨o.block, reduceOption_mem_iff.mpr (h o ho).1, mem_blockObjects.mpr ⟨rfl, (h o ho).2⟩⟩
  have hle := (subperm_of_subset hl hsub).length_le
  rw [length_flatMap] at hle
  simp only [length_blockObjects, map_const', sum_replicate_nat] at hle
  exact hle.trans (mul_le_mul_right a (reduceOption_length_le bs))

end Tables

namespace ObjectsInformation

variable {c : ObjectsConfig} {s : ObjectsInformation} {taken : List ObjectRef}

theorem foldl_appendObject (s : ObjectsInformation) (b indexBase n : ℕ) :
    (List.range n).foldl (fun (s' : ObjectsInformation) k => s'.appendObject c b indexBase k) s =
      { s with
        id := fun o => if o.block = b ∧ o.position < n then
          c.format.buildId s.theApi s.theClass c.localNode (indexBase + o.position) else s.id o
        chain := s.chain ++ blockObjects b n } := by
  induction n with
  | zero => simp [blockObjects]
  | succ n ih =>
    rw [range_succ, foldl_append, ih]
    have hid : Function.update (fun o : ObjectRef => if o.block = b ∧ o.position < n then
          c.format.buildId s.theApi s.theClass c.localNode (indexBase + o.position) else s.id o)
        ⟨b, n⟩ (c.format.buildId s.theApi s.theClass c.localNode (indexBase + n)) =
        fun o => if o.block = b ∧ o.position < n + 1 then
          c.format.buildId s.theApi s.theClass c.localNode (indexBase + o.position)
          else s.id o := by
      funext o
      obtain ⟨b', k⟩ := o
      by_cases hk : b' = b ∧ k = n
      · obtain ⟨rfl, rfl⟩ := hk; simp
      · have hne : (⟨b', k⟩ : ObjectRef) ≠ ⟨b, n⟩ := by
          intro h; exact hk ((ObjectRef.mk.injEq ..).mp h)
        have hiff : (b' = b ∧ k < n + 1) ↔ (b' = b ∧ k < n) := by
          constructor
          · rintro ⟨rfl, hlt⟩; exact ⟨rfl, by omega⟩
          · rintro ⟨rfl, hlt⟩; exact ⟨rfl, by omega⟩
        rw [Function.update_of_ne hne]
        simp only [hiff]
    have hchain : blockObjects b (n + 1) = blockObjects b n ++ [⟨b, n⟩] := by
      simp [blockObjects, range_succ]
    simp only [foldl_cons, foldl_nil, appendObject, hid, hchain, append_assoc]

/-! ## The invariant -/

/-- A class with automatic extension whose objects `taken` are in use. -/
structure Ok (c : ObjectsConfig) (s : ObjectsInformation) (taken : List ObjectRef) : Prop where
  auto : s.autoExtend = true
  minimum : s.minimumId = c.format.buildId s.theApi s.theClass c.localNode 1
  allocation : 0 < s.allocationSize
  maximum : s.maximum = s.blocks.length * s.allocationSize
  final : s.maximum ≤ c.format.finalIndex
  table_length : s.localTable.length = s.maximum + 1
  counts_length : s.inactivePerBlock.length = s.blocks.length
  distinct : ∀ (i j b : ℕ), s.blocks[i]? = some (some b) → s.blocks[j]? = some (some b) → i = j
  objects : ∀ o, o ∈ s.chain ++ taken ↔ some o.block ∈ s.blocks ∧ o.position < s.allocationSize
  nodup : (s.chain ++ taken).Nodup
  ids : ∀ (i b k : ℕ), s.blocks[i]? = some (some b) → k < s.allocationSize → s.id ⟨b, k⟩ =
    c.format.buildId s.theApi s.theClass c.localNode (1 + i * s.allocationSize + k)
  counts : ∀ (i n : ℕ), s.inactivePerBlock[i]? = some n →
    n = s.chain.countP fun o => s.blocks[i]? = some (some o.block)
  inactive : s.inactive = s.chain.length
  table : ∀ (i : ℕ) (o : ObjectRef), s.localTable[i]? = some (some o) →
    o ∈ taken ∧ s.index c o = i

theorem Ok.minimumIndex_eq (h : Ok c s taken) : s.minimumIndex c = 1 := by
  rw [minimumIndex, h.minimum]
  refine IdFormat.getIndex_buildId ?_
  cases c.format with
  | bits16 => decide
  | bits32 => decide

theorem Ok.blockCount_eq (h : Ok c s taken) : s.blockCount = s.blocks.length := by
  have hm := h.maximum
  rw [blocks] at hm ⊢
  rw [blockCount]
  cases hb : s.objectBlocks with
  | none => rfl
  | some bs =>
    rw [hb] at hm
    rw [hm]
    exact Nat.mul_div_cancel _ h.allocation

variable {i b : ℕ} {o : ObjectRef} {w : WorkspaceReply}

theorem Ok.index_eq (h : Ok c s taken) {k : ℕ} (hb : s.blocks[i]? = some (some b))
    (hk : k < s.allocationSize) : s.index c ⟨b, k⟩ = 1 + i * s.allocationSize + k ∧
      1 + i * s.allocationSize + k ≤ s.maximum := by
  have hi : i < s.blocks.length := (List.getElem?_eq_some_iff.mp hb).1
  have hle : (i + 1) * s.allocationSize ≤ s.maximum := by
    rw [h.maximum]; exact mul_le_mul_right _ hi
  rw [Nat.succ_mul] at hle
  have hmax : 1 + i * s.allocationSize + k ≤ s.maximum := by omega
  rw [index, h.ids i b k hb hk, IdFormat.getIndex_buildId (hmax.trans h.final)]
  exact ⟨rfl, hmax⟩

theorem Ok.exists_block (h : Ok c s taken) (ho : o ∈ s.chain ++ taken) :
    ∃ i : ℕ, s.blocks[i]? = some (some o.block) ∧ o.position < s.allocationSize := by
  obtain ⟨hb, hk⟩ := (h.objects o).mp ho
  obtain ⟨i, hi⟩ := mem_iff_getElem?.mp hb
  exact ⟨i, hi, hk⟩

theorem Ok.blockOf_eq (h : Ok c s taken)
    (hb : s.blocks[i]? = some (some o.block)) (hk : o.position < s.allocationSize) :
    s.blockOf c o = i := by
  rw [blockOf, h.minimumIndex_eq, (h.index_eq hb hk).1]
  have hsub : 1 + i * s.allocationSize + o.position - 1 = i * s.allocationSize + o.position := by
    omega
  rw [hsub, Nat.mul_comm, Nat.mul_add_div h.allocation, Nat.div_eq_of_lt hk, Nat.add_zero]

/-! ## The growth of the tables -/

theorem drop_map_range_succ {α : Type} (f : ℕ → α) (n : ℕ) :
    ((List.range (n + 1)).map f).drop n = [f n] := by
  rw [range_succ, map_append, drop_left' (by simp)]
  rfl

theorem Ok.growTables_tables (h : Ok c s taken) (hne : s.maximum ≠ 1) (m : TableMemory) :
    (s.growTables c m (s.maximum + 1)).objectBlocks = some (s.blocks ++ [none]) ∧
    (s.growTables c m (s.maximum + 1)).inactivePerBlock = s.inactivePerBlock ++ [0] ∧
    (s.growTables c m (s.maximum + 1)).localTable =
      s.localTable ++ List.replicate s.allocationSize none := by
  have hlength := h.table_length
  have hcounts := h.counts_length
  by_cases hgt : s.maximum > 1
  · have htables : s.copyTables c m =
        (s.blocks ++ [m.blocks s.blocks.length], s.inactivePerBlock ++ [m.counts s.blocks.length],
          s.localTable ++ ((List.range (s.maximum + s.allocationSize + 1)).map m.entries).drop
            (s.maximum + 1)) := by
      unfold copyTables
      rw [h.minimumIndex_eq, h.blockCount_eq, if_pos hgt]
      refine Prod.ext ?_ (Prod.ext ?_ ?_)
      · rw [memcpy_all, drop_map_range_succ]
      · rw [← hcounts, memcpy_all, drop_map_range_succ]
      · dsimp only; rw [← hlength, memcpy_all]
    unfold growTables
    rw [htables, h.blockCount_eq]
    refine ⟨by simp, by simp [← hcounts], ?_⟩
    refine clearEntries_append hlength ?_
    simp only [length_drop, length_map, length_range]
    omega
  · have hzero : s.maximum = 0 := by omega
    have hnil : s.blocks = [] := by
      have hm := h.maximum
      rw [hzero, eq_comm, mul_eq_zero] at hm
      exact length_eq_zero_iff.mp (hm.resolve_right h.allocation.ne')
    have hcnil : s.inactivePerBlock = [] := by
      rw [hnil] at hcounts; exact length_eq_zero_iff.mp hcounts
    have htable : s.localTable = [none] := by
      rw [hzero] at hlength
      obtain ⟨x, hx⟩ := length_eq_one_iff.mp hlength
      cases x with
      | none => exact hx
      | some o =>
        obtain ⟨ho, -⟩ := h.table 0 o (by rw [hx]; rfl)
        obtain ⟨i, hb, -⟩ := h.exists_block (mem_append_right _ ho)
        rw [hnil] at hb
        cases hb
    unfold growTables copyTables
    rw [h.minimumIndex_eq, if_neg hgt, h.blockCount_eq, hnil, hcnil, htable, hzero]
    refine ⟨rfl, rfl, ?_⟩
    change clearEntries (clearEntries ((List.range (0 + s.allocationSize + 1)).map m.entries) 0 1)
      1 s.allocationSize = _
    rw [Nat.zero_add, range_succ_eq_map]
    refine clearEntries_append (show [none].length = 1 from rfl) ?_
    rw [length_map, length_map, length_range]

theorem getElem?_append_none : (bs ++ [none])[i]? = some (some b) ↔ bs[i]? = some (some b) := by
  rw [getElem?_append]
  split_ifs with hi
  · rfl
  · rw [getElem?_eq_none (Nat.le_of_not_lt hi), getElem?_singleton]
    split_ifs
    · simp
    · simp

/-- The invariant holds with one block more, which has no memory yet. -/
theorem Ok.growTables (h : Ok c s taken) (hne : s.maximum ≠ 1) (m : TableMemory)
    (hle : s.maximum + s.allocationSize ≤ c.format.finalIndex) :
    Ok c (s.growTables c m (s.maximum + 1)) taken := by
  obtain ⟨hblocks, hcounts, htable⟩ := h.growTables_tables hne m
  set s1 := s.growTables c m (s.maximum + 1)
  have hb : s1.blocks = s.blocks ++ [none] := by rw [blocks, hblocks]; rfl
  refine { h with
    final := hle, maximum := ?_, table_length := ?_, counts_length := ?_, distinct := ?_
    objects := ?_, ids := ?_, counts := ?_, table := ?_ }
  · change s.maximum + s.allocationSize = s1.blocks.length * s.allocationSize
    rw [hb, length_append, length_singleton, Nat.succ_mul, ← h.maximum]
  · rw [htable, length_append, length_replicate, h.table_length]; exact Nat.add_right_comm ..
  · rw [hcounts, hb, length_append, length_append, h.counts_length]; rfl
  · intro i j b hi hj; rw [hb, getElem?_append_none] at hi hj; exact h.distinct i j b hi hj
  · intro o
    refine (h.objects o).trans ?_
    change _ ↔ some o.block ∈ s1.blocks ∧ o.position < s.allocationSize
    rw [hb]
    simp
  · intro i b k hi; rw [hb, getElem?_append_none] at hi; exact h.ids i b k hi
  · intro i n hn
    rw [hcounts, getElem?_append] at hn
    simp only [hb, getElem?_append_none]
    split_ifs at hn with hi
    · exact h.counts i n hn
    · have hnone : s.blocks[i]? = none := by rw [getElem?_eq_none_iff, ← h.counts_length]; omega
      rw [getElem?_singleton] at hn
      split_ifs at hn
      cases hn
      simp [hnone]
  · intro i o ho
    rw [htable, getElem?_append] at ho
    split_ifs at ho with hi
    · exact h.table i o ho
    · rw [getElem?_replicate] at ho; split_ifs at ho; cases ho

/-! ## The objects of a new block -/

theorem blocks_setBlock (s : ObjectsInformation) (i : ℕ) (b : Option ℕ) :
    (s.setBlock i b).blocks = s.blocks.set i b := by
  rw [blocks, blocks, setBlock]
  cases s.objectBlocks with
  | none => rfl
  | some bs => rfl

theorem getElem?_set_of_some {α : Type} {l : List α} {x : α} (hi : l[i]? = some x) (y : α)
    (j : ℕ) : (l.set i y)[j]? = if j = i then some y else l[j]? := by
  have hlt : i < l.length := (List.getElem?_eq_some_iff.mp hi).1
  by_cases hj : j = i
  · simp [hj, hlt]
  · simp [hj, Ne.symm hj]

theorem mem_set_some {b' : ℕ} (hi : bs[i]? = some none) :
    some b' ∈ bs.set i (some b) ↔ some b' ∈ bs ∨ b' = b := by
  simp only [mem_iff_getElem?, getElem?_set_of_some hi]
  constructor
  · rintro ⟨j, hj⟩
    split_ifs at hj with hji
    · exact .inr (some_inj.mp (some_inj.mp hj)).symm
    · exact .inl ⟨j, hj⟩
  · rintro (⟨j, hj⟩ | rfl)
    · refine ⟨j, ?_⟩
      rw [if_neg]
      · exact hj
      · rintro rfl; rw [hi] at hj; cases hj
    · exact ⟨i, if_pos rfl⟩

theorem appendObjects_eq (s : ObjectsInformation) (b i indexBase : ℕ) :
    s.appendObjects c b i indexBase = { s with
        id := fun o => if o.block = b ∧ o.position < s.allocationSize then
          c.format.buildId s.theApi s.theClass c.localNode (indexBase + o.position) else s.id o
        chain := s.chain ++ blockObjects b s.allocationSize
        objectBlocks := s.objectBlocks.map fun bs => bs.set i (some b)
        inactivePerBlock := s.inactivePerBlock.set i s.allocationSize
        inactive := (s.inactive + s.allocationSize) % (c.format.finalIndex + 1) } := by
  rw [appendObjects, foldl_appendObject]
  rfl

theorem appendObjects_id {indexBase : ℕ} (ho : o.block ≠ b) :
    (s.appendObjects c b i indexBase).id o = s.id o := by
  rw [appendObjects_eq]
  exact if_neg fun h => ho h.1

theorem Ok.appendObjects (h : Ok c s taken) (hi : s.blocks[i]? = some none)
    (hb : some b ∉ s.blocks) :
    Ok c (s.appendObjects c b i (1 + i * s.allocationSize)) taken := by
  have hblocks := blocks_setBlock s i (some b)
  have hget : ∀ j : ℕ, (s.setBlock i (some b)).blocks[j]? =
      if j = i then some (some b) else s.blocks[j]? := by
    rw [hblocks]
    exact getElem?_set_of_some hi (some b)
  have hnew : ∀ {j b' : ℕ}, s.blocks[j]? = some (some b') → b' ≠ b := by
    rintro j b' hj rfl; exact hb (mem_iff_getElem?.mpr ⟨j, hj⟩)
  have hold : ∀ o ∈ s.chain ++ taken, o.block ≠ b := by
    rintro o ho rfl; exact hb ((h.objects o).mp ho).1
  have hobjects : ∀ o, o ∈ s.chain ++ blockObjects b s.allocationSize ++ taken ↔
      some o.block ∈ (s.setBlock i (some b)).blocks ∧ o.position < s.allocationSize := by
    intro o
    rw [hblocks, mem_set_some hi, append_assoc, or_and_right, ← h.objects]
    simp only [mem_append, mem_blockObjects]
    tauto
  have hnodup : (s.chain ++ blockObjects b s.allocationSize ++ taken).Nodup := by
    have hp : (s.chain ++ blockObjects b s.allocationSize).Perm _ := perm_append_comm
    rw [(hp.append_right taken).nodup_iff, append_assoc, nodup_append]
    refine ⟨nodup_blockObjects _ _, h.nodup, ?_⟩
    rintro o ho o' ho' rfl
    exact hold o ho' (mem_blockObjects.mp ho).1
  have hbound := length_le_of_blocks hnodup fun o ho => (hobjects o).mp ho
  rw [hblocks, length_set, ← h.maximum, length_append, length_append, length_blockObjects] at hbound
  have hfinal := h.final
  rw [appendObjects_eq]
  refine { h with
    objects := hobjects, nodup := hnodup, maximum := ?_, counts_length := ?_, distinct := ?_
    ids := ?_, counts := ?_, inactive := ?_, table := ?_ }
  · change _ = (s.setBlock i (some b)).blocks.length * _
    rw [hblocks, length_set]
    exact h.maximum
  · change _ = (s.setBlock i (some b)).blocks.length
    rw [hblocks, length_set, length_set]
    exact h.counts_length
  · intro j k b' hj hk
    replace hj := (hget j).symm.trans hj
    replace hk := (hget k).symm.trans hk
    split_ifs at hj hk with hji hki hki
    · rw [hji, hki]
    · cases hj; exact absurd rfl (hnew hk)
    · cases hk; exact absurd rfl (hnew hj)
    · exact h.distinct j k b' hj hk
  · intro j b' k hj hk
    replace hj := (hget j).symm.trans hj
    split_ifs at hj with hji
    · cases hj; exact (if_pos ⟨rfl, hk⟩).trans (by rw [hji])
    · exact (if_neg fun hc => hnew hj hc.1).trans (h.ids j b' k hj hk)
  · intro j n hn
    change n = (s.chain ++ blockObjects b s.allocationSize).countP fun o =>
      (s.setBlock i (some b)).blocks[j]? = some (some o.block)
    have hlt := (List.getElem?_eq_some_iff.mp hi).1
    rw [← h.counts_length] at hlt
    rw [getElem?_set_of_some (getElem?_eq_getElem hlt)] at hn
    rw [countP_append]
    simp only [hget]
    split_ifs at hn ⊢ with hji
    · cases hn
      have hzero : (s.chain.countP fun o => some (some b) = some (some o.block)) = 0 := by
        refine countP_eq_zero.mpr fun o ho heq => ?_
        simp only [Option.some.injEq, decide_eq_true_eq] at heq
        exact hold o (mem_append_left _ ho) heq.symm
      have hall : ((blockObjects b s.allocationSize).countP fun o =>
          some (some b) = some (some o.block)) = (blockObjects b s.allocationSize).length := by
        refine countP_eq_length.mpr fun o ho => ?_
        simp [(mem_blockObjects.mp ho).1]
      rw [hzero, hall, length_blockObjects, Nat.zero_add]
    · have hzero : ((blockObjects b s.allocationSize).countP fun o =>
          s.blocks[j]? = some (some o.block)) = 0 := by
        refine countP_eq_zero.mpr fun o ho heq => ?_
        exact hnew (of_decide_eq_true heq) (mem_blockObjects.mp ho).1
      rw [hzero, Nat.add_zero]
      exact h.counts j n hn
  · rw [length_append, length_blockObjects, h.inactive]; exact Nat.mod_eq_of_lt (by omega)
  · intro j o ho
    obtain ⟨hm, hx⟩ := h.table j o ho
    refine ⟨hm, Eq.trans ?_ hx⟩
    exact congrArg c.format.getIndex (if_neg fun hc => hold o (mem_append_right _ hm) hc.1)

theorem Ok.extendInformation_cases (h : Ok c s taken) (w : WorkspaceReply) :
    (s.outcome c w = .refused ∧ s.extendInformation c w = some s) ∨
    (s.outcome c w = .refilled ∧ ∃ (b i : ℕ), w.block = some b ∧ s.blocks[i]? = some none ∧
      s.extendInformation c w = some (s.appendObjects c b i (1 + i * s.allocationSize))) ∨
    (s.outcome c w = .grown ∧ ∃ b m, w.block = some b ∧
      s.maximum + s.allocationSize ≤ c.format.finalIndex ∧
      s.extendInformation c w = some ((s.growTables c m (s.maximum + 1)).appendObjects c b
        s.blocks.length (s.maximum + 1))) := by
  unfold extendInformation outcome
  by_cases hle : s.maximum + s.allocationSize > c.format.finalIndex
  · left
    simp [hle]
  cases hb : w.block with
  | none =>
    left
    simp [hle, h.auto]
  | some b =>
    have hsearch := searchBlocks_cases s.allocationSize s.blocks 0 1
    have hdef : s.search c = searchBlocks s.allocationSize s.blocks 0 1 := by
      rw [search, h.blockCount_eq, take_length, h.minimumIndex_eq]
    rw [← hdef] at hsearch
    rcases hsearch with hr | ⟨n, hn, hr⟩
    · cases hm : w.tables with
      | none =>
        left
        simp [hle, hr, h.auto]
      | some m =>
        right
        right
        have hbase : 1 + s.blocks.length * s.allocationSize = s.maximum + 1 := by
          rw [h.maximum, Nat.add_comm]
        refine ⟨by simp [hle, hr], b, m, rfl, Nat.le_of_not_lt hle, ?_⟩
        simp [hle, hr, hbase]
    · right
      left
      refine ⟨by simp [hle, hr], b, n, rfl, hn, ?_⟩
      simp [hle, hr]

theorem Ok.grown (h : Ok c s taken) (hne : s.maximum ≠ 1) (m : TableMemory)
    (hle : s.maximum + s.allocationSize ≤ c.format.finalIndex) (hb : some b ∉ s.blocks) :
    Ok c ((s.growTables c m (s.maximum + 1)).appendObjects c b s.blocks.length (s.maximum + 1))
      taken := by
  have hg := h.growTables hne m hle
  have hblocks : (s.growTables c m (s.maximum + 1)).blocks = s.blocks ++ [none] := by
    rw [blocks, (h.growTables_tables hne m).1]; rfl
  have hbase : s.maximum + 1 = 1 + s.blocks.length * s.allocationSize := by
    rw [h.maximum, Nat.add_comm]
  have hnew := hg.appendObjects (i := s.blocks.length) (by rw [hblocks]; simp)
    (by rw [hblocks]; simpa using hb)
  change Ok c (ObjectsInformation.appendObjects c _ b s.blocks.length
    (1 + s.blocks.length * s.allocationSize)) taken at hnew
  rw [← hbase] at hnew
  exact hnew

/-- The tables may grow: they do not have one entry only. -/
def MayGrow (c : ObjectsConfig) (s : ObjectsInformation) (w : WorkspaceReply) : Prop :=
  s.outcome c w = .grown → s.maximum ≠ s.minimumIndex c

instance (w : WorkspaceReply) : Decidable (s.MayGrow c w) :=
  inferInstanceAs (Decidable (_ → _))

section

variable (h : Ok c s taken)

include h

theorem Ok.extendInformation
    (hw : ∀ b, w.block = some b → some b ∉ s.blocks) (hg : s.MayGrow c w) {s' : ObjectsInformation}
    (hs : s.extendInformation c w = some s') : Ok c s' taken := by
  rcases h.extendInformation_cases w with ⟨-, he⟩ | ⟨-, b, i, hb, hi, he⟩ | ⟨ho, b, m, hb, hle, he⟩
  · rw [he] at hs; cases hs; exact h
  · rw [he] at hs; cases hs; exact h.appendObjects hi (hw b hb)
  · rw [he] at hs
    cases hs
    have hne := hg ho
    rw [h.minimumIndex_eq] at hne
    exact h.grown hne m hle (hw b hb)

/-! ## Allocation, opening and closing -/

theorem Ok.moved {chain taken' : List ObjectRef} {f : ℕ → ℕ}
    {inactive : ℕ} (ho : o ∈ s.chain ++ taken) (hperm : (chain ++ taken').Perm (s.chain ++ taken))
    (hcount : ∀ p : ObjectRef → Bool,
      chain.countP p = if p o then f (s.chain.countP p) else s.chain.countP p)
    (hlength : inactive = chain.length)
    (htable : ∀ o', some o' ∈ s.localTable → o' ∈ taken → o' ∈ taken') :
    Ok c { s with
      chain := chain
      inactivePerBlock := s.inactivePerBlock.modify (blockOf c { s with chain := chain } o) f
      inactive := inactive } taken' := by
  obtain ⟨i, hi, hk⟩ := h.exists_block ho
  have hblock : blockOf c { s with chain := chain } o = i := h.blockOf_eq hi hk
  refine { h with
    inactive := hlength, counts_length := ?_, objects := ?_, nodup := ?_, counts := ?_, table := ?_ }
  · exact (length_modify ..).trans h.counts_length
  · intro o'; exact hperm.mem_iff.trans (h.objects o')
  · exact hperm.nodup_iff.mpr h.nodup
  · intro j n hn
    change n = chain.countP fun o => s.blocks[j]? = some (some o.block)
    rw [hblock, getElem?_modify] at hn
    obtain ⟨n0, hn0, rfl⟩ := map_eq_some_iff.mp hn
    have hiff : s.blocks[j]? = some (some o.block) ↔ i = j :=
      ⟨fun hb => h.distinct i j o.block hi hb, fun hj => hj ▸ hi⟩
    rw [hcount, ← h.counts j n0 hn0]
    simp only [hiff, decide_eq_true_eq]
  · intro j o' ho'
    obtain ⟨hm, hx⟩ := h.table j o' ho'
    exact ⟨htable o' (mem_iff_getElem?.mpr ⟨j, ho'⟩) hm, hx⟩

theorem Ok.countAllocated {rest : List ObjectRef} (hc : s.chain = o :: rest) :
    Ok c ({ s with chain := rest }.countAllocated c o) (o :: taken) := by
  refine h.moved ?_ ?_ (fun p => ?_) ?_ fun o' _ hm => mem_cons_of_mem o hm
  · rw [hc]; exact mem_append_left _ mem_cons_self
  · rw [hc, cons_append]; exact perm_middle
  · rw [hc, countP_cons]
    split_ifs
    · rfl
    · rfl
  · rw [h.inactive, hc]; rfl

theorem Ok.allocateUnprotected
    (hw : ∀ b, w.block = some b → some b ∉ s.blocks) (hg : s.chain = [] → s.MayGrow c w)
    {r : Option ObjectRef × ObjectsInformation} (hs : s.allocateUnprotected c w = some r) :
    Ok c r.2 (r.1.toList ++ taken) := by
  rw [ObjectsInformation.allocateUnprotected] at hs
  by_cases hsize : s.size = 0
  · rw [if_pos hsize] at hs; cases hs; exact h
  rw [if_neg hsize] at hs
  obtain ⟨r0, hr0, rfl⟩ := map_eq_some_iff.mp hs
  -- the record in which the object is looked for
  obtain ⟨s1, h1, rfl⟩ : ∃ s1, Ok c s1 taken ∧ s1.getInactive = r0 := by
    rw [getOrExtend] at hr0
    split_ifs at hr0 with hempty
    · obtain ⟨s1, hs1, hr⟩ := map_eq_some_iff.mp hr0
      exact ⟨s1, h.extendInformation hw (hg hempty.2) hs1, hr⟩
    · cases hr0; exact ⟨s, h, rfl⟩
  rw [getInactive]
  cases hc : s1.chain with
  | nil => exact h1
  | cons o rest => dsimp only; rw [if_pos h.auto]; exact h1.countAllocated hc

theorem Ok.setLocal (ho : o ∈ taken) {x : Option ObjectRef} (hx : x = none ∨ x = some o) :
    Ok c { s with localTable := s.localTable.set (s.index c o) x } taken := by
  refine { h with table_length := ?_, table := ?_ }
  · exact length_set.trans h.table_length
  · intro j o' hj
    rw [getElem?_set] at hj
    split_ifs at hj with hjo hlt
    · rcases hx with rfl | rfl
      · cases hj
      · cases hj; exact ⟨ho, hjo⟩
    · exact h.table j o' hj

/-! ## Freeing -/

theorem Ok.countFreed (ho : o ∈ taken) (hclosed : some o ∉ s.localTable) :
    Ok c ({ s with chain := s.chain ++ [o] }.countFreed c o) (taken.erase o) := by
  refine h.moved (mem_append_right _ ho) ?_ (fun p => ?_) ?_ fun o' ho' hm => ?_
  · rw [append_assoc]; exact (perm_cons_erase ho).symm.append_left s.chain
  · rw [countP_append, countP_singleton]
    split_ifs
    · rfl
    · rfl
  · rw [h.inactive, length_append]; rfl
  · refine (mem_erase_of_ne ?_).mpr hm; rintro rfl; exact hclosed ho'

theorem Ok.full_block (hcount : s.inactivePerBlock[i]? = some s.allocationSize) :
    ∃ b, s.blocks[i]? = some (some b) ∧
      (s.chain.countP fun o => o.block = b) = s.allocationSize ∧ ∀ o ∈ taken, o.block ≠ b := by
  have hn := h.counts i _ hcount
  have hlt : i < s.blocks.length := by
    rw [← h.counts_length]; exact (List.getElem?_eq_some_iff.mp hcount).1
  have hget : s.blocks[i]? = some s.blocks[i] := getElem?_eq_getElem hlt
  cases hb : s.blocks[i] with
  | none =>
    rw [hget, hb] at hn
    simp only [Option.some.injEq, reduceCtorEq, decide_false, countP_false] at hn
    exact absurd hn h.allocation.ne'
  | some b =>
    rw [hget, hb] at hn
    have hcountP : (s.chain.countP fun o => o.block = b) = s.allocationSize := by
      rw [hn]
      exact countP_congr fun o _ => by simp [eq_comm]
    refine ⟨b, hget.trans (congrArg some hb), hcountP, ?_⟩
    rintro o ho rfl
    -- the objects of the block on the chain, and one more
    have hnodup : (s.chain.filter (fun o' => o'.block = o.block) ++ [o]).Nodup :=
      h.nodup.sublist (filter_sublist.append (singleton_sublist.mpr ho))
    have hsub : s.chain.filter (fun o' => o'.block = o.block) ++ [o] ⊆
        blockObjects o.block s.allocationSize := by
      intro o' ho'
      rw [mem_blockObjects]
      rcases mem_append.mp ho' with hm | hm
      · obtain ⟨hm, heq⟩ := mem_filter.mp hm
        exact ⟨of_decide_eq_true heq, ((h.objects o').mp (mem_append_left _ hm)).2⟩
      · rw [mem_singleton.mp hm]; exact ⟨rfl, ((h.objects o).mp (mem_append_right _ ho)).2⟩
    have hle := (subperm_of_subset hnodup hsub).length_le
    rw [length_append, ← countP_eq_length_filter, hcountP, length_blockObjects,
      length_singleton] at hle
    omega

theorem Ok.index_mem_block (hi : s.blocks[i]? = some (some b)) (ho : o ∈ s.chain ++ taken) :
    (1 + i * s.allocationSize ≤ s.index c o ∧
      s.index c o < 1 + i * s.allocationSize + s.allocationSize) ↔ o.block = b := by
  obtain ⟨j, hj, hk⟩ := h.exists_block ho
  rw [(h.index_eq hj hk).1]
  constructor
  · rintro ⟨hle, hlt⟩
    have hij : i = j := by
      rcases lt_trichotomy i j with hlt' | heq | hgt
      · have hmul : (i + 1) * s.allocationSize ≤ j * s.allocationSize := mul_le_mul_right _ hlt'
        rw [Nat.succ_mul] at hmul
        omega
      · exact heq
      · have hmul : (j + 1) * s.allocationSize ≤ i * s.allocationSize := mul_le_mul_right _ hgt
        rw [Nat.succ_mul] at hmul
        omega
    rw [← hij, hi] at hj
    cases hj
    rfl
  · rintro rfl; rw [h.distinct i j o.block hi hj]; omega

theorem Ok.releaseBlock (hcount : s.inactivePerBlock[i]? = some s.allocationSize) :
    Ok c (s.releaseBlock c i (1 + i * s.allocationSize)) taken := by
  obtain ⟨b, hi, hfull, htaken⟩ := h.full_block hcount
  set s1 := s.releaseBlock c i (1 + i * s.allocationSize)
  have hchain : s1.chain = s.chain.filter fun o => o.block ≠ b := by
    refine filter_congr fun o ho => ?_
    have hiff := h.index_mem_block hi (mem_append_left taken ho)
    rw [← Bool.decide_and, ← decide_not]
    exact decide_eq_decide.mpr (not_congr hiff)
  have hget : ∀ j : ℕ, s1.blocks[j]? = if j = i then some none else s.blocks[j]? := by
    intro j
    change (s.setBlock i none).blocks[j]? = _
    rw [blocks_setBlock]
    exact getElem?_set_of_some hi none j
  have hsome : ∀ (j b' : ℕ), s1.blocks[j]? = some (some b') →
      s.blocks[j]? = some (some b') ∧ b' ≠ b := by
    intro j b' hj
    rw [hget] at hj
    split_ifs at hj with hji
    · cases hj
    · refine ⟨hj, ?_⟩; rintro rfl; exact hji (h.distinct j i b' hj hi)
  have hlength : s1.blocks.length = s.blocks.length := by
    change (s.setBlock i none).blocks.length = _; rw [blocks_setBlock, length_set]
  refine { h with
    maximum := by rw [hlength]; exact h.maximum
    counts_length := by rw [hlength]; exact length_set.trans h.counts_length
    distinct := fun j k b' hj hk => h.distinct j k b' (hsome j b' hj).1 (hsome k b' hk).1
    ids := fun j b' k hj => h.ids j b' k (hsome j b' hj).1
    objects := ?_, nodup := ?_, counts := ?_, inactive := ?_ }
  · intro o
    have hmem : some o.block ∈ s1.blocks ↔ some o.block ∈ s.blocks ∧ o.block ≠ b := by
      rw [mem_iff_getElem?, mem_iff_getElem?]
      constructor
      · rintro ⟨j, hj⟩; exact ⟨⟨j, (hsome j _ hj).1⟩, (hsome j _ hj).2⟩
      · rintro ⟨⟨j, hj⟩, hne⟩
        refine ⟨j, ?_⟩
        rw [hget, if_neg, hj]
        rintro rfl
        rw [hi] at hj
        cases hj
        exact hne rfl
    change _ ↔ _ ∧ o.position < s.allocationSize
    have hcomm : ∀ {p q r : Prop}, (p ∧ q) ∧ r ↔ (p ∧ r) ∧ q := by tauto
    rw [hmem, hchain, hcomm, ← h.objects]
    simp only [mem_append, mem_filter, decide_eq_true_eq]
    constructor
    · rintro (⟨hm, hne⟩ | hm)
      · exact ⟨.inl hm, hne⟩
      · exact ⟨.inr hm, htaken o hm⟩
    · rintro ⟨hm | hm, hne⟩
      · exact .inl ⟨hm, hne⟩
      · exact .inr hm
  · exact h.nodup.sublist (filter_sublist.append_right taken)
  · intro j n hn
    change (s.inactivePerBlock.set i 0)[j]? = some n at hn
    rw [getElem?_set_of_some hcount] at hn
    simp only [hget, hchain, countP_filter]
    split_ifs at hn ⊢ with hji
    · cases hn; simp
    · rw [h.counts j n hn]
      refine countP_congr fun o _ => ?_
      simp only [decide_eq_true_eq, Bool.and_eq_true]
      constructor
      · intro hj
        refine ⟨hj, ?_⟩
        rintro rfl
        exact hji (h.distinct j i o.block hj hi)
      · exact And.left
  · have hsum := length_eq_countP_add_countP (fun o : ObjectRef => decide (o.block = b))
      (l := s.chain)
    change s.inactive - s.allocationSize = _
    rw [hchain, ← countP_eq_length_filter, h.inactive, hsum, hfull, Nat.add_sub_cancel_left]
    exact countP_congr fun o _ => by simp

end

theorem shrinkFrom_cases (s : ObjectsInformation) (ns : List ℕ) (block indexBase : ℕ) :
    (s.allocationSize ∉ ns ∧ s.shrinkFrom c ns block indexBase = s) ∨
    ∃ n : ℕ, ns[n]? = some s.allocationSize ∧ s.shrinkFrom c ns block indexBase =
      s.releaseBlock c (block + n) (indexBase + n * s.allocationSize) := by
  induction ns generalizing block indexBase with
  | nil => exact .inl ⟨not_mem_nil, rfl⟩
  | cons m ns ih =>
    rw [shrinkFrom]
    split_ifs with hm
    · right
      exact ⟨0, congrArg some hm, by simp⟩
    · rcases ih (block + 1) (indexBase + s.allocationSize) with ⟨hmem, h⟩ | ⟨n, hn, h⟩
      · exact .inl ⟨not_mem_cons_of_ne_of_not_mem (Ne.symm hm) hmem, h⟩
      · right
        refine ⟨n + 1, hn, ?_⟩
        rw [h, Nat.succ_mul, Nat.add_right_comm block, Nat.add_right_comm indexBase,
          ← Nat.add_assoc, ← Nat.add_assoc]

/-- The blocks that `_Objects_Shrink_information` looks at: all but the last one. -/
theorem Ok.shrinkInformation_cases (h : Ok c s taken) :
    ((∀ i : ℕ, i + 1 < s.blocks.length → s.inactivePerBlock[i]? ≠ some s.allocationSize) ∧
      s.shrinkInformation c = s) ∨
    ∃ n : ℕ, s.inactivePerBlock[n]? = some s.allocationSize ∧
      s.shrinkInformation c = s.releaseBlock c n (1 + n * s.allocationSize) := by
  have hscan : (s.maximum - 1) / s.allocationSize = s.blocks.length - 1 := by
    have ha := h.allocation
    rw [h.maximum]
    cases s.blocks.length with
    | zero => simp
    | succ n =>
      rw [Nat.succ_mul, Nat.add_sub_assoc ha, Nat.mul_comm, Nat.mul_add_div ha,
        Nat.div_eq_of_lt (Nat.sub_lt ha Nat.zero_lt_one)]
      rfl
  rw [ObjectsInformation.shrinkInformation, h.minimumIndex_eq, hscan]
  rcases shrinkFrom_cases s (s.inactivePerBlock.take (s.blocks.length - 1)) 0 1
    with ⟨hmem, hs⟩ | ⟨n, hn, hs⟩
  · left
    refine ⟨fun i hi hcount => hmem ?_, hs⟩
    rw [mem_iff_getElem?]
    exact ⟨i, by rw [getElem?_take_of_lt (by omega), hcount]⟩
  · right
    refine ⟨n, ?_, by rw [hs, Nat.zero_add]⟩
    rw [getElem?_take] at hn
    split_ifs at hn
    exact hn

theorem Ok.shrinkInformation (h : Ok c s taken) : Ok c (s.shrinkInformation c) taken := by
  rcases h.shrinkInformation_cases with ⟨-, hs⟩ | ⟨n, hn, hs⟩
  · rw [hs]; exact h
  · rw [hs]; exact h.releaseBlock hn

theorem Ok.freeObject (h : Ok c s taken) (ho : o ∈ taken)
    (hclosed : some o ∉ s.localTable) : Ok c (s.freeObject c o) (taken.erase o) := by
  have hcounted := h.countFreed ho hclosed
  rw [ObjectsInformation.freeObject]
  dsimp only
  rw [if_pos h.auto]
  split_ifs
  · exact hcounted.shrinkInformation
  · exact hcounted

theorem ok_bareInformation {theApi theClass maximum size : ℕ}
    (hauto : c.format.isUnlimited maximum = true)
    (hpos : c.format.maximumPerAllocation maximum ≠ 0) :
    Ok c (bareInformation c theApi theClass maximum size) [] where
  auto := hauto
  minimum := by
    change c.format.buildId theApi theClass c.localNode (if _ = 0 then 0 else 1) = _
    rw [if_neg hpos]
    rfl
  allocation := Nat.pos_of_ne_zero hpos
  maximum := (Nat.zero_mul _).symm
  final := zero_le _
  table_length := rfl
  counts_length := rfl
  distinct := by
    intro i j b hi; cases hi
  objects := by
    intro o; exact iff_of_false not_mem_nil fun h => not_mem_nil h.1
  nodup := nodup_nil
  ids := by
    intro i b k hi; cases hi
  counts := by
    intro i n hi; cases hi
  inactive := rfl
  table := by
    intro i o hi
    change [none][i]? = some (some o) at hi
    rw [getElem?_singleton] at hi
    split_ifs at hi
    cases hi

theorem ok_initializeInformation {theApi theClass maximum size : ℕ}
    (hs : initializeInformation c theApi theClass maximum size w = some s)
    (hauto : c.format.isUnlimited maximum = true) : Ok c s [] := by
  rw [initializeInformation] at hs
  have ha : (bareInformation c theApi theClass maximum size).autoExtend = true := hauto
  by_cases hzero : (bareInformation c theApi theClass maximum size).allocationSize = 0
  · simp [ha, hzero] at hs
  · simp only [ha, hzero, Bool.true_and, beq_iff_eq, if_false, ne_eq, not_false_eq_true,
      if_true] at hs
    have hbare : Ok c (bareInformation c theApi theClass maximum size) [] :=
      ok_bareInformation hauto hzero
    refine hbare.extendInformation (fun b _ => not_mem_nil) (fun _ => ?_) hs
    rw [hbare.minimumIndex_eq]
    exact Nat.zero_ne_one

/-! ## What a growth does -/

theorem Ok.id_injective (h : Ok c s taken) {o' : ObjectRef} (ho : o ∈ s.chain ++ taken)
    (ho' : o' ∈ s.chain ++ taken) (hid : s.id o = s.id o') : o = o' := by
  obtain ⟨i, hi, hk⟩ := h.exists_block ho
  obtain ⟨j, hj, hl⟩ := h.exists_block ho'
  have hindex : s.index c o = s.index c o' := congrArg c.format.getIndex hid
  have hij : i = j := by
    rw [← h.blockOf_eq hi hk, ← h.blockOf_eq hj hl, blockOf, blockOf, hindex]
  subst hij
  have hblock : o.block = o'.block := by rw [hi] at hj; exact some_inj.mp (some_inj.mp hj)
  rw [(h.index_eq hi hk).1, (h.index_eq hj hl).1] at hindex
  have hposition : o.position = o'.position := by omega
  cases o
  cases o'
  dsimp only at hblock hposition
  rw [hblock, hposition]

theorem le_alignUp (n k : ℕ) : n ≤ (n + (2 ^ k - 1)) >>> k <<< k := by
  rw [shiftRight_eq_div_pow, shiftLeft_eq]
  have hdiv := div_add_mod (n + (2 ^ k - 1)) (2 ^ k)
  rw [Nat.mul_comm] at hdiv
  omega

/-- The record `s'` is the record `s` with one block of objects `new` more. -/
structure Grown (c : ObjectsConfig) (s s' : ObjectsInformation) (taken new : List ObjectRef) :
    Prop where
  maximum : s'.maximum = s.maximum + s.allocationSize
  valid : s.blocks.length = s.blockCount ∧ s.inactivePerBlock.length = s.blockCount ∧
    s.localTable.length = s.maximum + 1
  blocks : ∀ i < s.blockCount, s'.blocks[i]? = s.blocks[i]?
  counts : ∀ i < s.blockCount, s'.inactivePerBlock[i]? = s.inactivePerBlock[i]?
  table : ∀ i ≤ s.maximum, s'.localTable[i]? = s.localTable[i]?
  cleared : ∀ i, s.maximum < i → i ≤ s'.maximum → s'.localTable[i]? = some none
  chain : s'.chain = s.chain ++ new
  length : new.length = s.allocationSize
  distinct : (new.map s'.id).Nodup
  fresh : ∀ o ∈ s.chain ++ taken, s'.id o = s.id o ∧ s'.id o ∉ new.map s'.id
  resolves : ∀ id o, s.get id = some o → s'.get id = some o
  blocks_fit : s'.blocks.length * c.pointerSize ≤ objectBlocksSize c (s.blockCount + 1)
  counts_fit : s'.inactivePerBlock.length * 4 ≤ inactivePerBlockSize c (s.blockCount + 1)
  table_fits : objectBlocksSize c (s.blockCount + 1) + inactivePerBlockSize c (s.blockCount + 1) +
    s'.localTable.length * c.pointerSize = s.tablesSize c

theorem Ok.grown_spec (h : Ok c s taken) (hne : s.maximum ≠ 1) (m : TableMemory)
    (hle : s.maximum + s.allocationSize ≤ c.format.finalIndex) (hb : some b ∉ s.blocks) :
    Grown c s ((s.growTables c m (s.maximum + 1)).appendObjects c b s.blocks.length
      (s.maximum + 1)) taken (blockObjects b s.allocationSize) := by
  have hok := h.grown hne m hle hb
  obtain ⟨hblocks, hcounts, htable⟩ := h.growTables_tables hne m
  have heq := appendObjects_eq (c := c) (s.growTables c m (s.maximum + 1)) b s.blocks.length
    (s.maximum + 1)
  set s' := (s.growTables c m (s.maximum + 1)).appendObjects c b s.blocks.length (s.maximum + 1)
  have hmaximum' : s'.maximum = s.maximum + s.allocationSize := by rw [heq]; rfl
  have hblocks' : s'.blocks = s.blocks ++ [some b] := by
    rw [ObjectsInformation.blocks, heq]
    rw [hblocks]
    simp
  have hcounts' : s'.inactivePerBlock = s.inactivePerBlock ++ [s.allocationSize] := by
    rw [heq]
    rw [hcounts, ← h.counts_length]
    simp [ObjectsInformation.growTables]
  have htable' : s'.localTable = s.localTable ++ List.replicate s.allocationSize none := by
    rw [heq]; exact htable
  have hchain' : s'.chain = s.chain ++ blockObjects b s.allocationSize := by rw [heq]; rfl
  have hminimum' : s'.minimumId = s.minimumId := by rw [heq]; rfl
  have hnew : ∀ o ∈ blockObjects b s.allocationSize, o ∈ s'.chain ++ taken := by
    intro o ho; rw [hchain']; exact mem_append_left _ (mem_append_right _ ho)
  have hold : ∀ o ∈ s.chain ++ taken, o ∈ s'.chain ++ taken := by
    intro o ho
    rw [hchain']
    rcases mem_append.mp ho with hm | hm
    · exact mem_append_left _ (mem_append_left _ hm)
    · exact mem_append_right _ hm
  have hentry : ∀ i ≤ s.maximum, s'.localTable[i]? = s.localTable[i]? := by
    intro i hi
    rw [htable', getElem?_append_left]
    rw [h.table_length]
    omega
  have hcount := h.blockCount_eq
  refine ⟨hmaximum', ⟨hcount.symm, h.counts_length.trans hcount.symm, h.table_length⟩, ?_, ?_,
    hentry, ?_, hchain', length_blockObjects _ _, ?_, ?_, ?_, ?_, ?_, ?_⟩
  · intro i hi; rw [hblocks', getElem?_append_left (hcount ▸ hi)]
  · intro i hi
    rw [hcounts', getElem?_append_left]
    rw [h.counts_length, ← hcount]
    exact hi
  · intro i hlt hi
    have hlength := h.table_length
    rw [htable', getElem?_append_right (by omega), getElem?_replicate, if_pos]
    omega
  · refine List.Nodup.map_on (fun o ho o' ho' hid => ?_) (nodup_blockObjects _ _)
    exact hok.id_injective (hnew o ho) (hnew o' ho') hid
  · intro o ho
    have hne' : o.block ≠ b := by rintro rfl; exact hb ((h.objects o).mp ho).1
    refine ⟨appendObjects_id hne', fun hm => ?_⟩
    obtain ⟨o', ho', hid⟩ := List.mem_map.mp hm
    have heqo := hok.id_injective (hnew o' ho') (hold o ho) hid
    rw [heqo] at ho'
    exact hne' (mem_blockObjects.mp ho').1
  · intro id o hget
    rw [get] at hget ⊢
    rw [hminimum', hmaximum']
    split_ifs at hget with hi
    rw [if_pos (hi.trans (le_add_right _ _)), hentry _ hi]
    exact hget
  · rw [hblocks', length_append, length_singleton, hcount]; exact le_alignUp _ _
  · rw [hcounts', length_append, length_singleton, h.counts_length, hcount]; exact le_alignUp _ _
  · rw [htable', length_append, length_replicate, h.table_length, tablesSize, h.minimumIndex_eq,
      Nat.add_right_comm s.maximum]

end ObjectsInformation

namespace ObjectsSystem

variable {c : ObjectsConfig} {s : ObjectsSystem}

/-- No step lets the tables of a class grow that have one entry only. -/
def Prudent (c : ObjectsConfig) (s : ObjectsSystem) : ObjectsAction → Prop
  | .allocate w => s.info.chain = [] → s.info.MayGrow c w
  | .openObject _ | .closeObject _ | .freeObject _ => True

instance (a : ObjectsAction) : Decidable (s.Prudent c a) := by
  cases a <;> unfold Prudent <;> infer_instance

theorem ok_step {a : ObjectsAction} {s' : ObjectsSystem} (h : s.info.Ok c s.taken)
    (hp : s.Prudent c a) (hs : s.step c a = some s') : s'.info.Ok c s'.taken := by
  cases a with
  | allocate w =>
    rw [step] at hs
    split_ifs at hs with hw
    obtain ⟨r, hr, rfl⟩ := map_eq_some_iff.mp hs
    exact h.allocateUnprotected hw hp hr
  | openObject o =>
    rw [step] at hs
    split_ifs at hs with ho
    cases hs
    exact h.setLocal ho (.inr rfl)
  | closeObject o =>
    rw [step] at hs
    split_ifs at hs with ho
    cases hs
    exact h.setLocal ho (.inl rfl)
  | freeObject o =>
    rw [step] at hs
    split_ifs at hs with ho
    cases hs
    exact h.freeObject ho.1 ho.2

/-- **Growing tables keep every object**: nothing changes, or there is one block more. -/
theorem extend_keeps {theApi theClass maximum size : ℕ} {w₀ : WorkspaceReply}
    {info : ObjectsInformation}
    (hinit : ObjectsInformation.initializeInformation c theApi theClass maximum size w₀ = some info)
    (hauto : c.format.isUnlimited maximum = true) {as : List ObjectsAction}
    (hp : Along (step c) (Prudent c) ⟨info, []⟩ as)
    (hrun : run (step c) ⟨info, []⟩ as = some s) {w : WorkspaceReply}
    (hw : s.Unused w) (hg : s.info.MayGrow c w) :
    (s.info.outcome c w = .refused → s.info.extendInformation c w = some s.info) ∧
    (s.info.outcome c w = .grown → ∃ s' new, s.info.extendInformation c w = some s' ∧
      ObjectsInformation.Grown c s.info s' s.taken new) := by
  have h : s.info.Ok c s.taken := run_invariant_along (step c)
      (fun _ _ _ h hp hs => ok_step h hp hs)
      (ObjectsInformation.ok_initializeInformation hinit hauto) hp hrun
  rcases h.extendInformation_cases w with ⟨ho, he⟩ | ⟨ho, -⟩ | ⟨ho, b, m, hb, hle, he⟩
  · refine ⟨fun _ => he, fun hgrown => ?_⟩
    rw [ho] at hgrown
    cases hgrown
  · constructor
    · intro hrefused; rw [ho] at hrefused; cases hrefused
    · intro hgrown; rw [ho] at hgrown; cases hgrown
  · constructor
    · intro hrefused; rw [ho] at hrefused; cases hrefused
    · intro _
      have hne := hg ho
      rw [h.minimumIndex_eq] at hne
      exact ⟨_, _, he, h.grown_spec hne m hle (hw b hb)⟩

theorem extend_keeps_two : ∃ (c : ObjectsConfig) (s : ObjectsSystem) (w : WorkspaceReply)
    (s' : ObjectsInformation) (new : List ObjectRef),
    s.info.localTable = [none, some ⟨10, 0⟩, none] ∧ s.info.extendInformation c w = some s' ∧
    ObjectsInformation.Grown c s.info s' s.taken new := by
  let c : ObjectsConfig := ⟨.bits32, 1, 4, 3⟩
  let w : ℕ → WorkspaceReply := fun b =>
    ⟨some b, some ⟨fun _ => none, fun n => n, fun _ => none⟩⟩
  let as : List ObjectsAction := [.allocate (w 11), .openObject ⟨10, 0⟩, .allocate (w 11)]
  let info := (ObjectsInformation.initializeInformation c 2 1 0x80000002 64 (w 10)).get rfl
  have hp : Along (step c) (Prudent c) ⟨info, []⟩ as := along_of_decide _ (by decide +kernel)
  obtain ⟨s, hrun, hw, hg, ho, htable⟩ := exists_of_any (o := run (step c) ⟨info, []⟩ as)
    (P := fun s => s.Unused (w 11) ∧ s.info.MayGrow c (w 11) ∧ s.info.outcome c (w 11) = .grown ∧
      s.info.localTable = [none, some ⟨10, 0⟩, none]) (by decide +kernel)
  obtain ⟨s', new, he, hgrown⟩ := (extend_keeps (some_get rfl).symm rfl hp hrun hw hg).2 ho
  exact ⟨c, s, w 11, s', new, htable, he, hgrown⟩

/-- **A table of one entry loses it** when the tables grow. -/
theorem exists_lost_object : ∃ (c : ObjectsConfig) (s : ObjectsSystem) (info : ObjectsInformation)
    (as : List ObjectsAction) (w₀ w : WorkspaceReply) (s' : ObjectsInformation),
    ObjectsInformation.initializeInformation c 2 1 0x80000001 64 w₀ = some info ∧
    run (step c) ⟨info, []⟩ as = some s ∧ s.Unused w ∧
    s.info.outcome c w = .grown ∧ s.info.extendInformation c w = some s' ∧
    s.info.localTable[1]? = some (some ⟨10, 0⟩) ∧ s'.localTable[1]? = some none ∧
    s.info.blocks[0]? = some (some 10) ∧ s'.blocks[0]? = some none ∧
    s.info.get (s.info.id ⟨10, 0⟩) = some ⟨10, 0⟩ ∧ s'.get (s.info.id ⟨10, 0⟩) = none := by
  refine ⟨⟨.bits32, 1, 4, 3⟩, _, _, [.allocate ⟨none, none⟩, .openObject ⟨10, 0⟩],
    ⟨some 10, some ⟨fun _ => none, fun _ => 0, fun _ => none⟩⟩,
    ⟨some 11, some ⟨fun _ => none, fun _ => 0, fun _ => none⟩⟩, _, rfl, rfl, ?_, rfl, rfl, ?_⟩
  · decide +kernel
  · decide +kernel

end ObjectsSystem

end Rtems
