import Rtems.Lib.Run
import Mathlib.Algebra.Group.Int.Defs
import Mathlib.Data.List.GetD
import Mathlib.Tactic.SplitIfs

/-!
# The bitmaps of the file system

`rtems-rfs-bitmaps.c`. A bitmap is in one block of the disk. A search map in memory has a bit for
each element of the map, which is set only when all bits of the element are set. A bit that is set
is 0, and a bit that is clear is 1.

* `BitmapControl`: the map in its buffer, the search map and the count of the free bits;
* `mapSet`, `mapClear`, `mapSetAll`, `mapClearAll`, `mapAlloc`, `bitmapOpen`: the operations; an
  access that is not in the map or in the search map has no result.
-/

namespace Rtems.Rfs

inductive Errno
  | einval
  | enxio
  | enospc
  | enoent
  | enomem
  | eio
  | efbig
  | enotempty
  | eoverflow
  deriving DecidableEq

/-! ## Elements -/

abbrev Element := BitVec 32

namespace Element

/-- `RTEMS_RFS_BITMAP_ELEMENT_SET`. -/
def allSet : Element := 0

/-- `RTEMS_RFS_BITMAP_ELEMENT_CLEAR`. -/
def allClear : Element := BitVec.allOnes 32

/-- `1 << offset`. -/
def bit (offset : ℕ) : Element := 1#32 <<< offset

def test (target : Element) (offset : ℕ) : Bool := target &&& bit offset == 0

def set (target bits : Element) : Element := target &&& ~~~bits

def clear (target bits : Element) : Element := target ||| bits

def merge (bits1 bits2 mask : Element) : Element := bits1 &&& mask ||| bits2 &&& ~~~mask

/-- `rtems_rfs_bitmap_match`. -/
def agree (bits1 bits2 : Element) : Bool := bits1 ^^^ bits2 == 0

def mask (size : ℕ) : Element := BitVec.allOnes 32 >>> (32 - size)

def maskSection (start stop : ℕ) : Element :=
  if start < stop then mask (stop - start) <<< start else 0

/-- An element of an array, if the index is in the array. -/
def load (elements : List Element) (index : ℤ) : Option Element :=
  if 0 ≤ index then elements[index.toNat]? else none

/-- `array[index] = f (array[index])`. -/
def update (elements : List Element) (index : ℤ) (f : Element → Element) : Option (List Element) :=
  (load elements index).map fun x => elements.set index.toNat (f x)

/-- `array[e] = value` for each `e` below a count. -/
def fill (value : Element) (elements : List Element) : ℕ → Option (List Element)
  | 0 => some elements
  | e + 1 => (fill value elements e).bind fun elements => update elements e fun _ => value

end Element

def bitmapElements (bits : ℕ) : ℕ := (bits - 1) / 32 + 1

def searchWindow : ℤ := 32 * 64

/-- `rtems_rfs_bitmap_control`, with the map and whether its buffer is dirty. -/
structure BitmapControl where
  size : ℕ
  map : List Element
  dirty : Bool
  free : ℤ
  searchBits : List Element
  deriving DecidableEq

inductive Direction
  | up
  | down
  deriving DecidableEq

namespace Direction

def delta : Direction → ℤ
  | up => 1
  | down => -1

/-- The offset in an element at which a search in this direction enters it. -/
def entry : Direction → ℤ
  | up => 0
  | down => 31

/-- A bit is at the end of a search or behind it. -/
def Reached : Direction → ℤ → ℤ → Prop
  | up, testBit, endBit => endBit ≤ testBit
  | down, testBit, endBit => testBit ≤ endBit

instance (d : Direction) (testBit endBit : ℤ) : Decidable (d.Reached testBit endBit) := by
  cases d <;> unfold Reached <;> infer_instance

end Direction

/-- The variables of `rtems_rfs_search_map_for_clear_bit`, with indices for pointers. -/
structure Cursor where
  testBit : ℤ
  mapIndex : ℤ
  mapOffset : ℤ
  searchIndex : ℤ
  searchOffset : ℤ
  deriving DecidableEq

namespace Cursor

def start (bit : ℤ) : Cursor := ⟨bit, bit / 32, bit % 32, bit / 32 / 32, bit / 32 % 32⟩

def nextElement (cur : Cursor) (d : Direction) : Cursor :=
  { cur with
    mapIndex := cur.mapIndex + d.delta
    mapOffset := d.entry
    testBit := (cur.mapIndex + d.delta) * 32 + d.entry
    searchOffset := cur.searchOffset + d.delta }

/-- The rest of an element of the search map is skipped. -/
def skip (cur : Cursor) : Direction → Cursor
  | .up =>
    let bitsSkipped := 32 - cur.searchOffset
    { cur with
      testBit := cur.testBit - cur.testBit % 32 + bitsSkipped * 32
      mapOffset := 0
      mapIndex := cur.mapIndex + bitsSkipped }
  | .down =>
    let bitsSkipped := cur.searchOffset + 1
    { cur with
      testBit := cur.testBit - cur.testBit % 32 - ((bitsSkipped - 1) * 32 + 1)
      mapOffset := 31
      mapIndex := cur.mapIndex - bitsSkipped }

def nextSearch (cur : Cursor) (d : Direction) : Cursor :=
  { cur with searchIndex := cur.searchIndex + d.delta, searchOffset := d.entry }

end Cursor

/-- The loop over the bits of an element: the offset and number of a clear bit. -/
def mapLoop (element : Element) (d : Direction) (endBit : ℤ) :
    ℕ → ℤ → ℤ → Option (Option (ℤ × ℤ))
  | 0, _, _ => none
  | fuel + 1, mapOffset, testBit =>
    if 0 ≤ mapOffset ∧ mapOffset < 32 then
      if ¬ element.test mapOffset.toNat then some (some (mapOffset, testBit))
      else if testBit = endBit then some none
      else mapLoop element d endBit fuel (mapOffset + d.delta) (testBit + d.delta)
    else some none

/-- How the loop over an element of the search map ends. -/
inductive ScanResult
  | found (bit : ℤ) (control : BitmapControl)
  | left (cursor : Cursor)
  deriving DecidableEq

namespace BitmapControl

variable (c : BitmapControl)

/-- The bit at the cursor is set, and that of the search map if its element is full. -/
def claim (cur : Cursor) : Option BitmapControl :=
  (Element.load c.map cur.mapIndex).bind fun x =>
    let x' := x.set (Element.bit cur.mapOffset.toNat)
    let map := c.map.set cur.mapIndex.toNat x'
    if x'.agree Element.allSet then
      (Element.update c.searchBits cur.searchIndex fun y =>
        y.set (Element.bit cur.searchOffset.toNat)).map fun searchBits =>
          { c with map := map, searchBits := searchBits, free := c.free - 1, dirty := true }
    else some { c with map := map, free := c.free - 1, dirty := true }

/-- The search in the element at the cursor, unless it is marked as full. -/
def searchElement (d : Direction) (endBit : ℤ) (cur : Cursor) : Option (Option (ℤ × ℤ)) :=
  (Element.load c.searchBits cur.searchIndex).bind fun y =>
    if y.test cur.searchOffset.toNat then some none
    else (Element.load c.map cur.mapIndex).bind fun x =>
      mapLoop x d endBit 33 cur.mapOffset cur.testBit

/-- The loop over the bits of an element of the search map. -/
def searchLoop (d : Direction) (endBit : ℤ) : ℕ → Cursor → Option ScanResult
  | 0, _ => none
  | fuel + 1, cur =>
    if 0 ≤ cur.searchOffset ∧ cur.searchOffset < 32 then
      (c.searchElement d endBit cur).bind fun r =>
        match r with
        | some (mapOffset, testBit) =>
          (c.claim { cur with mapOffset := mapOffset, testBit := testBit }).map (.found testBit)
        | none =>
          if d.Reached (cur.nextElement d).testBit endBit then some (.left (cur.nextElement d))
          else searchLoop d endBit fuel (cur.nextElement d)
    else some (.left cur)

/-- The loop over the elements of the search map. -/
def scanLoop (d : Direction) (endBit : ℤ) : ℕ → Cursor → Option (Option (ℤ × BitmapControl))
  | 0, _ => none
  | fuel + 1, cur =>
    (Element.load c.searchBits cur.searchIndex).bind fun y =>
      (if ¬ y.agree Element.allSet then c.searchLoop d endBit 33 cur
        else some (.left (cur.skip d))).bind fun r =>
        match r with
        | .found bit c' => some (some (bit, c'))
        | .left cur' =>
          if d.Reached endBit cur'.testBit then scanLoop d endBit fuel (cur'.nextSearch d)
          else some none

def endBit (d : Direction) (bit window : ℤ) : ℤ :=
  let e := bit + window * d.delta
  if e < 0 then 0 else if c.size ≤ e then c.size - 1 else e

/-- `rtems_rfs_search_map_for_clear_bit`. Each round moves the bit. -/
def searchMapForClearBit (bit window : ℤ) (d : Direction) : Option (Option (ℤ × BitmapControl)) :=
  c.scanLoop d (c.endBit d bit window) (c.size + 1) (.start bit)

/-- The loop of `rtems_rfs_bitmap_map_alloc`. -/
def allocLoop (window : ℤ) : ℕ → ℤ → ℤ → Option (Option (ℤ × BitmapControl))
  | 0, _, _ => none
  | fuel + 1, upperSeed, lowerSeed =>
    if (0 ≤ upperSeed ∧ upperSeed < c.size) ∨ (0 ≤ lowerSeed ∧ lowerSeed < c.size) then
      (if upperSeed < c.size then c.searchMapForClearBit upperSeed window .up
        else some none).bind fun r =>
        match r with
        | some found => some (some found)
        | none =>
          (if 0 ≤ lowerSeed then c.searchMapForClearBit lowerSeed window .down
            else some none).bind fun r =>
            match r with
            | some found => some (some found)
            | none => allocLoop window fuel
              (if upperSeed < c.size then upperSeed + window else upperSeed)
              (if 0 ≤ lowerSeed then lowerSeed - window else lowerSeed)
    else some none

/-- `rtems_rfs_bitmap_map_alloc`: the allocated bit, if any, and the bitmap. -/
def mapAlloc (seed : ℤ) : Option (Option ℤ × BitmapControl) :=
  (c.allocLoop searchWindow (c.size + 1) seed seed).map fun r =>
    match r with
    | some (bit, c') => (some bit, c')
    | none => (none, c)

def mapSet (bit : ℤ) : Option (Except Errno BitmapControl) :=
  if bit < 0 ∨ c.size ≤ bit then some (.error .einval)
  else
    (Element.load c.map (bit / 32)).bind fun x =>
      let x' := x.set (Element.bit (bit % 32).toNat)
      let map := c.map.set (bit / 32).toNat x'
      if x'.agree Element.allSet then
        (Element.update c.searchBits (bit / 32 / 32) fun y =>
          y.set (Element.bit (bit / 32 % 32).toNat)).map fun searchBits =>
            .ok { c with map := map, searchBits := searchBits, free := c.free - 1, dirty := true }
      else some (.ok { c with map := map })

def mapClear (bit : ℤ) : Option (Except Errno BitmapControl) :=
  if bit < 0 ∨ c.size ≤ bit then some (.error .einval)
  else
    (Element.update c.map (bit / 32) fun x =>
      x.clear (Element.bit (bit % 32).toNat)).bind fun map =>
      (Element.update c.searchBits (bit / 32 / 32) fun y =>
        y.clear (Element.bit (bit / 32 % 32).toNat)).map fun searchBits =>
          .ok { c with map := map, searchBits := searchBits, free := c.free + 1, dirty := true }

def mapSetAll : Option BitmapControl :=
  let elements := bitmapElements c.size
  (Element.allSet.fill c.map elements).bind fun map =>
    (Element.allSet.fill c.searchBits (bitmapElements elements)).map fun searchBits =>
      { c with map := map, searchBits := searchBits, free := 0, dirty := true }

def mapClearAll : Option BitmapControl :=
  let elements := bitmapElements c.size
  (Element.allClear.fill c.map elements).bind fun map =>
    let lastSearchBit := if elements % 32 = 0 then 32 else elements % 32
    let last := bitmapElements elements - 1
    (Element.allClear.fill c.searchBits last).bind fun searchBits =>
      (Element.update searchBits last fun _ =>
        Element.allClear.merge Element.allSet (Element.mask lastSearchBit)).map fun searchBits =>
          { c with map := map, searchBits := searchBits, free := elements, dirty := true }

/-- `rtems_rfs_bitmap_map_test`, which shifts by the whole bit: no result from 32 on. -/
def mapTest (bit : ℤ) : Option (Except Errno Bool) :=
  if bit < 0 ∨ c.size ≤ bit then some (.error .einval)
  else
    (Element.load c.map (bit / 32)).bind fun x =>
      if bit < 32 then some (.ok (x.test bit.toNat)) else none

/-- The loop of `rtems_rfs_bitmap_create_search`, which ignores `rtems_rfs_bitmap_set`. -/
def createLoop : ℕ → ℕ → ℕ → ℕ → ℕ → BitmapControl → Option BitmapControl
  | 0, size, _, _, _, c => if size = 0 then some c else none
  | fuel + 1, size, bit, searchIndex, mapIndex, c =>
    if size = 0 then some c
    else
      (Element.load c.map mapIndex).bind fun x =>
        let available := if size < 32 then size else 32
        let bits := if size < 32 then x.merge Element.allSet (Element.maskSection 0 size) else x
        let free := if bits.agree Element.allSet then c.free
          else c.free + (List.range available).countP fun b => ¬ bits.test b
        if bit = 31 then
          (Element.update c.searchBits (searchIndex + 1) fun _ => Element.allClear).bind
            fun searchBits => createLoop fuel (size - available) 0 (searchIndex + 1) (mapIndex + 1)
              { c with free := free, searchBits := searchBits }
        else createLoop fuel (size - available) (bit + 1) searchIndex (mapIndex + 1)
          { c with free := free }

def createSearch : Option BitmapControl :=
  (Element.update c.searchBits 0 fun _ => Element.allClear).bind fun searchBits =>
    createLoop c.size c.size 0 0 0 { c with free := 0, searchBits := searchBits }

end BitmapControl

/-- `rtems_rfs_bitmap_open` for a map in its buffer; `memory` was there before. -/
def bitmapOpen (size : ℕ) (map : List Element) (memory : ℕ → Element) : Option BitmapControl :=
  BitmapControl.createSearch
    { size := size, map := map, dirty := false, free := 0
      searchBits := (List.range (bitmapElements (bitmapElements size))).map memory }

end Rtems.Rfs
