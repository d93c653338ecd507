import Mathlib.Data.List.Basic
import Mathlib.Data.Nat.Notation
import Mathlib.Order.Lattice
import Mathlib.Order.Nat

/-!
# A list in blocks

* `splice`: a list with a part that is overwritten, and that grows if the part is at its end;
* `splice_splice`: two parts, one behind the other, are overwritten as one;
* `Shows`: the elements of a list are in blocks of the same size;
* **`Shows.splice`**, **`Shows.slice`**: a part inside of one block is overwritten, or read.
-/

namespace Rtems

open List

namespace ByteFile

variable {α : Type} {content data : List α} {p : ℕ}

/-- The part of a list at a position is overwritten. -/
def splice (content : List α) (p : ℕ) (data : List α) : List α :=
  content.take p ++ data ++ content.drop (p + data.length)

@[simp] theorem splice_nil (content : List α) (p : ℕ) : splice content p [] = content := by
  unfold splice; rw [append_nil, length_nil, Nat.add_zero, take_append_drop]

theorem length_splice (hp : p ≤ content.length) :
    (splice content p data).length = max content.length (p + data.length) := by
  unfold splice
  rw [length_append, length_append, length_take, length_drop]
  omega

theorem getElem?_splice (hp : p ≤ content.length) (i : ℕ) : (splice content p data)[i]? =
      if p ≤ i ∧ i < p + data.length then data[i - p]? else content[i]? := by
  have htake : (content.take p).length = p := by rw [length_take]; omega
  unfold splice
  rw [append_assoc]
  by_cases hbefore : i < p
  · rw [if_neg (by omega), getElem?_append_left (by omega), getElem?_take_of_lt hbefore]
  · rw [getElem?_append_right (by omega), htake]
    by_cases hin : i < p + data.length
    · rw [if_pos ⟨by omega, hin⟩, getElem?_append_left (by omega)]
    · rw [if_neg (by omega), getElem?_append_right (by omega), getElem?_drop]
      congr 1
      omega

theorem splice_splice {data' : List α} (hp : p ≤ content.length) :
    splice (splice content p data) (p + data.length) data' = splice content p (data ++ data') := by
  have hlength : (splice content p data).length = _ := length_splice hp
  apply ext_getElem?
  intro i
  rw [getElem?_splice (by omega), getElem?_splice hp, getElem?_splice hp, length_append]
  by_cases hsecond : p + data.length ≤ i
  · by_cases hin : i < p + data.length + data'.length
    · rw [if_pos ⟨hsecond, hin⟩, if_pos (by omega), getElem?_append_right (by omega)]
      congr 1
      omega
    · rw [if_neg (by omega), if_neg (by omega), if_neg (by omega)]
  · rw [if_neg (by omega)]
    by_cases hfirst : p ≤ i
    · rw [if_pos (by omega), if_pos (by omega), getElem?_append_left (by omega)]
    · rw [if_neg (by omega), if_neg (by omega)]

/-! ## Blocks -/

variable {n : ℕ} {get get' : ℕ → ℕ → α}

/-- The elements of a list are in blocks of `n`. -/
def Shows (n : ℕ) (get : ℕ → ℕ → α) (content : List α) : Prop :=
  ∀ i x, content[i]? = some x → get (i / n) (i % n) = x

theorem shows_nil : Shows n get [] := by
  intro i x hx; cases hx

theorem Shows.splice (h : Shows n get content) (hn : 0 < n) (hp : p ≤ content.length)
    (hfit : p % n + data.length ≤ n)
    (hnew : ∀ j x, data[j]? = some x → get' (p / n) (p % n + j) = x)
    (hold : ∀ i, i < content.length → i < p ∨ p + data.length ≤ i →
      get' (i / n) (i % n) = get (i / n) (i % n)) :
    Shows n get' (splice content p data) := by
  intro i x hx
  rw [getElem?_splice hp] at hx
  by_cases hin : p ≤ i ∧ i < p + data.length
  · rw [if_pos hin] at hx
    have hnew' := hnew (i - p) x hx
    have hdiv := Nat.div_add_mod p n
    have hlt : p % n + (i - p) < n := by omega
    have hi : i = (p % n + (i - p)) + n * (p / n) := by omega
    have hquot : i / n = p / n := by
      rw [hi, Nat.add_mul_div_left _ _ hn, Nat.div_eq_of_lt hlt, Nat.zero_add]
    have hrem : i % n = p % n + (i - p) := by
      rw [hi, Nat.add_mul_mod_self_left, Nat.mod_eq_of_lt hlt]; omega
    rw [hquot, hrem]
    exact hnew'
  · rw [if_neg hin] at hx
    have hi := (List.getElem?_eq_some_iff.mp hx).1
    rw [hold i hi (by omega)]
    exact h i x hx

theorem Shows.slice (h : Shows n get content) (hn : 0 < n) {c : ℕ} (hin : p + c ≤ content.length)
    (hfit : p % n + c ≤ n) :
    (List.range c).map (fun j => get (p / n) (p % n + j)) = (content.drop p).take c := by
  apply ext_getElem?
  intro j
  by_cases hj : j < c
  · have hdiv := Nat.div_add_mod p n
    have hlt : p % n + j < n := by omega
    have hi : p + j = (p % n + j) + n * (p / n) := by omega
    have hquot : (p + j) / n = p / n := by
      rw [hi, Nat.add_mul_div_left _ _ hn, Nat.div_eq_of_lt hlt, Nat.zero_add]
    have hrem : (p + j) % n = p % n + j := by
      rw [hi, Nat.add_mul_mod_self_left, Nat.mod_eq_of_lt hlt]
    have hget := h (p + j) _ (getElem?_eq_getElem (by omega))
    rw [hquot, hrem] at hget
    rw [getElem?_map, getElem?_range hj, Option.map_some, hget, getElem?_take_of_lt hj,
      getElem?_drop, getElem?_eq_getElem (by omega)]
  · rw [getElem?_eq_none (by rw [length_map, length_range]; omega),
      getElem?_eq_none (by rw [length_take]; omega)]

end ByteFile

end Rtems
