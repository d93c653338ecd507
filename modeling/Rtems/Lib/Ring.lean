import Mathlib.Data.List.Basic
import Mathlib.Data.Nat.Notation
import Mathlib.Logic.Function.Basic

/-!
# A ring of cells

The elements of a queue are in `size` cells, from a start on and over the last cell to the first.

* `contents`: the elements in order;
* `contents_take`, `contents_drop`: the first elements, and the others;
* **`contents_eq_cells`**: the elements are in one or two parts without a wrap;
* `put`, `write`: elements are written into cells, without and with a wrap;
* **`contents_write`**: elements are written behind the others.
-/

namespace Rtems

open List

namespace Ring

variable {α : Type} {size start length n : ℕ} {get get' : ℕ → α}

def contents (size : ℕ) (get : ℕ → α) (start length : ℕ) : List α :=
  (List.range length).map fun i => get ((start + i) % size)

def cells (get : ℕ → α) (start length : ℕ) : List α :=
  (List.range length).map fun i => get (start + i)

@[simp] theorem length_contents : (contents size get start length).length = length := by
  unfold contents; rw [length_map, length_range]

@[simp] theorem length_cells : (cells get start length).length = length := by
  unfold cells; rw [length_map, length_range]

theorem getElem?_contents (i : ℕ) : (contents size get start length)[i]? =
    if i < length then some (get ((start + i) % size)) else none := by
  unfold contents
  rw [getElem?_map]
  by_cases hi : i < length
  · rw [if_pos hi, getElem?_range hi, Option.map_some]
  · rw [if_neg hi, getElem?_eq_none (by rw [length_range]; omega), Option.map_none]

theorem getElem?_cells (i : ℕ) : (cells get start length)[i]? =
    if i < length then some (get (start + i)) else none := by
  unfold cells
  rw [getElem?_map]
  by_cases hi : i < length
  · rw [if_pos hi, getElem?_range hi, Option.map_some]
  · rw [if_neg hi, getElem?_eq_none (by rw [length_range]; omega), Option.map_none]

theorem contents_take (hn : n ≤ length) :
    (contents size get start length).take n = contents size get start n := by
  apply ext_getElem?
  intro i
  rw [getElem?_take, getElem?_contents, getElem?_contents]
  split_ifs <;> first | rfl | omega

theorem contents_drop (size n : ℕ) : (contents size get start length).drop n =
    contents size get ((start + n) % size) (length - n) := by
  apply ext_getElem?
  intro i
  rw [getElem?_drop, getElem?_contents, getElem?_contents, Nat.mod_add_mod, Nat.add_assoc]
  by_cases hi : n + i < length
  · rw [if_pos hi, if_pos (by omega)]
  · rw [if_neg hi, if_neg (by omega)]

theorem contents_eq_cells (hstart : start < size) (hlength : length ≤ size) :
    contents size get start length = if size - start < length then
      cells get start (size - start) ++ cells get 0 (length - (size - start))
      else cells get start length := by
  apply ext_getElem?
  intro i
  by_cases hwrap : size - start < length
  · rw [if_pos hwrap, getElem?_contents]
    by_cases hfirst : i < size - start
    · rw [getElem?_append_left (by rw [length_cells]; exact hfirst), getElem?_cells, if_pos hfirst,
        if_pos (by omega), Nat.mod_eq_of_lt (by omega)]
    · rw [getElem?_append_right (by rw [length_cells]; omega), getElem?_cells, length_cells]
      by_cases hi : i < length
      · rw [if_pos hi, if_pos (by omega), Nat.mod_eq_sub_mod (by omega),
          Nat.mod_eq_of_lt (by omega)]
        congr 2
        omega
      · rw [if_neg hi, if_neg (by omega)]
  · rw [if_neg hwrap, getElem?_contents, getElem?_cells]
    by_cases hi : i < length
    · rw [if_pos hi, if_pos hi, Nat.mod_eq_of_lt (by omega)]
    · rw [if_neg hi, if_neg hi]

variable {i pos : ℕ} {data : List α}

theorem cell_eq (hstart : start < size) (hi : i < size) :
    (start + i) % size = if start + i < size then start + i else start + i - size := by
  split_ifs with hlt
  · exact Nat.mod_eq_of_lt hlt
  · rw [Nat.mod_eq_sub_mod (by omega), Nat.mod_eq_of_lt (by omega)]

/-! ## Writes -/

/-- Elements are written into cells one behind the other. -/
def put (get : ℕ → α) (pos : ℕ) (data : List α) : ℕ → α := fun i =>
  if pos ≤ i then data[i - pos]?.getD (get i) else get i

theorem put_of_lt {x : α} (hx : data[i]? = some x) : put get pos data (pos + i) = x := by
  unfold put; rw [if_pos (Nat.le_add_right _ _), Nat.add_sub_cancel_left, hx, Option.getD_some]

theorem put_of_out (hout : i < pos ∨ pos + data.length ≤ i) : put get pos data i = get i := by
  unfold put
  split_ifs with hle
  · rw [getElem?_eq_none (by omega), Option.getD_none]
  · rfl

/-- Elements are written from a cell on, up to the last and then from the first. -/
def write (size : ℕ) (get : ℕ → α) (pos : ℕ) (data : List α) : ℕ → α :=
  if size - pos < data.length then
    put (put get pos (data.take (size - pos))) 0 (data.drop (size - pos))
  else put get pos data

theorem write_new (get : ℕ → α) (hpos : pos < size)
    (hfit : data.length ≤ size) {x : α} (hx : data[i]? = some x) :
    write size get pos data ((pos + i) % size) = x := by
  have hi := (List.getElem?_eq_some_iff.mp hx).1
  unfold write
  rw [cell_eq hpos (by omega)]
  by_cases hwrap : size - pos < data.length
  · rw [if_pos hwrap]
    by_cases hfirst : pos + i < size
    · rw [if_pos hfirst, put_of_out (by rw [length_drop]; omega)]
      exact put_of_lt (by rw [getElem?_take_of_lt (by omega), hx])
    · rw [if_neg hfirst]
      have hget : (data.drop (size - pos))[pos + i - size]? = some x := by
        rw [getElem?_drop, show size - pos + (pos + i - size) = i by omega, hx]
      have hput : put (put get pos (data.take (size - pos))) 0 (data.drop (size - pos))
          (0 + (pos + i - size)) = x := put_of_lt hget
      rwa [Nat.zero_add] at hput
  · rw [if_neg hwrap, if_pos (by omega)]; exact put_of_lt hx

theorem write_old (get : ℕ → α) (hpos : pos < size) (hi : i < size) (hout : data.length ≤ i) :
    write size get pos data ((pos + i) % size) = get ((pos + i) % size) := by
  unfold write
  rw [cell_eq hpos hi]
  by_cases hwrap : size - pos < data.length
  · rw [if_pos hwrap, if_neg (by omega), put_of_out (by rw [length_drop]; omega),
      put_of_out (by omega)]
  · rw [if_neg hwrap, put_of_out (by split_ifs <;> omega)]

theorem contents_write (get : ℕ → α) (hstart : start < size) (hfit : length + data.length ≤ size) :
    contents size (write size get ((start + length) % size) data) start (length + data.length) =
      contents size get start length ++ data := by
  have hpos := Nat.mod_lt (start + length) (Nat.zero_lt_of_lt hstart)
  apply ext_getElem?
  intro i
  rw [getElem?_contents]
  by_cases hi : i < length
  · rw [if_pos (by omega), getElem?_append_left (by rw [length_contents]; exact hi),
      getElem?_contents, if_pos hi]
    -- The old elements are the ones behind the new ones, once around the ring.
    have hold := write_old get hpos (show i + size - length < size by omega)
      (show data.length ≤ i + size - length by omega)
    rw [Nat.mod_add_mod, show start + length + (i + size - length) = start + i + size by omega,
      Nat.add_mod_right] at hold
    rw [hold]
  · rw [getElem?_append_right (by rw [length_contents]; omega), length_contents]
    by_cases hin : i < length + data.length
    · have hx : data[i - length]? = some data[i - length] := getElem?_eq_getElem (by omega)
      have hnew := write_new get hpos (by omega) hx
      rw [Nat.mod_add_mod, show start + length + (i - length) = start + i by omega] at hnew
      rw [if_pos hin, hnew, hx]
    · rw [if_neg hin, getElem?_eq_none (by omega)]

end Ring

end Rtems
