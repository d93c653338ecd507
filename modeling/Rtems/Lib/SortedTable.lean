import Mathlib.Data.Nat.Notation
import Mathlib.Order.Lattice
import Mathlib.Data.List.Nodup

/-!
# Sorted tables

A table of keys in ascending order, searched by halving.

* `search`, `bsearch`: the search between two places, and in the whole table;
* **`bsearch_eq_some_iff`**, **`bsearch_eq_none_iff`**: in a table without repetition the search
  finds the place of a key.
-/

namespace SortedTable

variable {κ : Type} [LinearOrder κ]

/-- The search of a key among `lim` places from `base` on. -/
def search (l : List κ) (k : κ) : ℕ → ℕ → ℕ → Option ℕ
  | 0, _, _ => none
  | fuel + 1, base, lim =>
    if lim = 0 then none
    else
      match l[base + lim / 2]? with
      | none => none
      | some x =>
        if k = x then some (base + lim / 2)
        else if x < k then search l k fuel (base + lim / 2 + 1) ((lim - 1) / 2)
        else search l k fuel base (lim / 2)

def bsearch (l : List κ) (k : κ) : Option ℕ := search l k l.length 0 l.length

variable {l : List κ} {k : κ}

theorem search_sound {fuel base lim i : ℕ}
    (h : search l k fuel base lim = some i) : l[i]? = some k := by
  induction fuel generalizing base lim with
  | zero => cases h
  | succ fuel ih =>
    rw [search] at h
    split_ifs at h with hlim
    split at h
    · cases h
    · rename_i x hx
      split_ifs at h with heq hlt
      · cases h; rw [hx, heq]
      · exact ih h
      · exact ih h

theorem search_complete (hl : l.Pairwise (· < ·)) {i : ℕ}
    (hi : l[i]? = some k) {fuel base lim : ℕ} (hfuel : lim ≤ fuel) (hbase : base ≤ i)
    (hlim : i < base + lim) (hend : base + lim ≤ l.length) :
    ∃ j, search l k fuel base lim = some j := by
  induction fuel generalizing base lim with
  | zero => omega
  | succ fuel ih =>
    obtain ⟨hlt, hk⟩ := List.getElem?_eq_some_iff.mp hi
    have hmid : base + lim / 2 < l.length := by omega
    rw [search, if_neg (by omega), List.getElem?_eq_getElem hmid]
    dsimp only
    have hsorted := List.pairwise_iff_getElem.mp hl
    split_ifs with heq hless
    · exact ⟨_, rfl⟩
    · -- the key is behind the middle
      have hafter : base + lim / 2 < i := by
        by_contra hnot
        obtain heq' | hbefore := Nat.eq_or_lt_of_le (Nat.le_of_not_lt hnot)
        · subst heq'; exact absurd hk.symm heq
        · have := hsorted i (base + lim / 2) hlt hmid hbefore
          rw [hk] at this
          exact absurd hless (not_lt_of_gt this)
      exact ih (by omega) (by omega) (by omega) (by omega)
    · have hbefore : i < base + lim / 2 := by
        by_contra hnot
        obtain heq' | hafter := Nat.eq_or_lt_of_le (Nat.le_of_not_lt hnot)
        · subst heq'; exact absurd hk.symm heq
        · have := hsorted (base + lim / 2) i hmid hlt hafter; rw [hk] at this; exact hless this
      exact ih (by omega) hbase hbefore (by omega)

theorem bsearch_eq_some_iff (hl : l.Pairwise (· < ·)) {i : ℕ} :
    bsearch l k = some i ↔ l[i]? = some k := by
  constructor
  · exact search_sound
  · intro hi
    obtain ⟨hlt, hk⟩ := List.getElem?_eq_some_iff.mp hi
    obtain ⟨j, hj⟩ := search_complete hl hi (Nat.le_refl _) (Nat.zero_le _)
      (show i < 0 + l.length by omega) (by omega)
    obtain ⟨hlt', hk'⟩ := List.getElem?_eq_some_iff.mp (search_sound hj)
    have hnodup : l.Nodup := hl.imp fun h => ne_of_lt h
    have hij : i = j := (List.Nodup.getElem_inj_iff hnodup).mp (hk.trans hk'.symm)
    rw [hij]
    exact hj

theorem bsearch_eq_none_iff (hl : l.Pairwise (· < ·)) : bsearch l k = none ↔ k ∉ l := by
  constructor
  · intro h hmem
    obtain ⟨i, hi⟩ := List.mem_iff_getElem?.mp hmem
    rw [(bsearch_eq_some_iff hl).mpr hi] at h
    cases h
  · intro hnot
    cases h : bsearch l k with
    | none => rfl
    | some i => exact absurd (List.mem_of_getElem? (search_sound h)) hnot

end SortedTable
