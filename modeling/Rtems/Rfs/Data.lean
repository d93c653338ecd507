import Mathlib.Algebra.Group.Nat.Defs
import Mathlib.Tactic.SplitIfs

/-!
# Bytes of a block

`rtems-rfs-data.h`. A number of 32 bits is in a block with the most significant byte first.

* `readU32`, `writeU32`: the accesses;
* `fill`, `copy`, `slice`: `memset` and `memcpy` into and out of a block;
* `readU32_writeU32`: a number that was written is read.
-/

namespace Rtems.Rfs

def Block := ℕ → UInt8

namespace Block

def readU32 (d : Block) (o : ℕ) : ℕ :=
  (d o).toNat * 2 ^ 24 + (d (o + 1)).toNat * 2 ^ 16 + (d (o + 2)).toNat * 2 ^ 8 +
    (d (o + 3)).toNat

def writeU32 (d : Block) (o v : ℕ) : Block := fun i =>
  if i = o then UInt8.ofNat (v / 2 ^ 24)
  else if i = o + 1 then UInt8.ofNat (v / 2 ^ 16)
  else if i = o + 2 then UInt8.ofNat (v / 2 ^ 8)
  else if i = o + 3 then UInt8.ofNat v
  else d i

/-- `memset` of `n` bytes. -/
def fill (d : Block) (o n : ℕ) (x : UInt8) : Block := fun i => if o ≤ i ∧ i < o + n then x else d i

/-- `memcpy` of bytes into a block. -/
def copy (d : Block) (o : ℕ) (data : List UInt8) : Block := fun i =>
  if o ≤ i then data[i - o]?.getD (d i) else d i

/-- `memcpy` of `n` bytes out of a block. -/
def slice (d : Block) (o n : ℕ) : List UInt8 := (List.range n).map fun i => d (o + i)

variable {d d' : Block} {o o' v n i : ℕ}

theorem readU32_congr (h : ∀ i, o ≤ i → i < o + 4 → d i = d' i) : d.readU32 o = d'.readU32 o := by
  unfold readU32
  rw [h o (by omega) (by omega), h (o + 1) (by omega) (by omega), h (o + 2) (by omega) (by omega),
    h (o + 3) (by omega) (by omega)]

theorem writeU32_of_ne (h : i < o ∨ o + 4 ≤ i) : d.writeU32 o v i = d i := by
  unfold writeU32
  rw [if_neg (by omega), if_neg (by omega), if_neg (by omega), if_neg (by omega)]

theorem readU32_writeU32 (h : v < 2 ^ 32) : (d.writeU32 o v).readU32 o = v := by
  unfold readU32 writeU32
  rw [if_pos rfl, if_neg (by omega), if_pos rfl, if_neg (by omega), if_neg (by omega), if_pos rfl,
    if_neg (by omega), if_neg (by omega), if_neg (by omega), if_pos rfl, UInt8.toNat_ofNat',
    UInt8.toNat_ofNat', UInt8.toNat_ofNat', UInt8.toNat_ofNat']
  omega

theorem readU32_writeU32_of_ne (h : o' + 4 ≤ o ∨ o + 4 ≤ o') :
    (d.writeU32 o v).readU32 o' = d.readU32 o' :=
  readU32_congr fun _ _ _ => writeU32_of_ne (by omega)

end Block

end Rtems.Rfs
