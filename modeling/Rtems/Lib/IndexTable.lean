import Mathlib.Data.Nat.Notation
import Mathlib.Data.List.Nodup

/-!
# Lists in tables

The entries of a list are in tables that have room for `n` of them: entry `i` is in table `i / n` at
the index `i % n`. The last table may have room left.

* `Covers`: the tables hold the entries;
* **`append_old`**, **`append_new`**: one more entry, in the last table or in a new one;
* **`pop_old`**, **`pop_new`**: one entry less;
* `single`: few entries are in one table.
-/

namespace IndexTable

open List Nat

variable {κ α : Type} {n : ℕ} {read read' : κ → ℕ → α} {tables : List κ} {entries : List α} {t : κ}
  {e : α}

/-- The tables hold the entries, `n` in each table. -/
structure Covers (n : ℕ) (read : κ → ℕ → α) (tables : List κ) (entries : List α) : Prop where
  size : ∀ j, j < tables.length ↔ n * j < entries.length
  entry : ∀ (i : ℕ) (e : α), entries[i]? = some e →
    ∃ t, tables[i / n]? = some t ∧ read t (i % n) = e

namespace Covers

section

variable (h : Covers n read tables entries)

include h

theorem congr
    (hread : ∀ t ∈ tables, ∀ i, read' t i = read t i) : Covers n read' tables entries := by
  refine ⟨h.size, ?_⟩
  intro i e he
  obtain ⟨t, ht, hte⟩ := h.entry i e he
  exact ⟨t, ht, (hread t (mem_of_getElem? ht) _).trans hte⟩

theorem exists_open (hmod : entries.length % n ≠ 0) :
    ∃ t, tables[entries.length / n]? = some t := by
  have hdiv := div_add_mod entries.length n
  exact ⟨_, getElem?_eq_getElem ((h.size (entries.length / n)).mpr (by omega))⟩

theorem length_of_mod (hn : 0 < n)
    (hmod : entries.length % n = 0) : tables.length = entries.length / n := by
  have hdiv := div_add_mod entries.length n
  apply Nat.le_antisymm
  · by_contra hlt
    have := (h.size (entries.length / n)).mp (by omega)
    omega
  · by_contra hlt
    have hlen := (not_congr (h.size tables.length)).mp (Nat.lt_irrefl _)
    have hmul := Nat.mul_lt_mul_of_pos_left (show tables.length < entries.length / n by omega) hn
    omega

theorem append_old (hnodup : tables.Nodup)
    (hmod : entries.length % n ≠ 0) (ht : tables[entries.length / n]? = some t)
    (hread : ∀ t' ∈ tables, ∀ i, t' ≠ t ∨ i ≠ entries.length % n → read' t' i = read t' i)
    (hentry : read' t (entries.length % n) = e) : Covers n read' tables (entries ++ [e]) := by
  constructor
  · intro j
    rw [h.size j, length_append, length_singleton]
    constructor
    · intro hj; omega
    · intro hj
      have hne : n * j ≠ entries.length := by
        intro heq; rw [← heq, mul_mod_right] at hmod; exact hmod rfl
      omega
  · intro i x hx
    by_cases hi : i < entries.length
    · rw [getElem?_append_left hi] at hx
      obtain ⟨t', ht', hx'⟩ := h.entry i x hx
      refine ⟨t', ht', (hread t' (mem_of_getElem? ht') _ ?_).trans hx'⟩
      by_contra hsame
      obtain ⟨rfl, hmods⟩ := not_or.mp hsame |>.imp not_not.mp not_not.mp
      have hdivs : i / n = entries.length / n := by
        obtain ⟨hl, hget⟩ := List.getElem?_eq_some_iff.mp ht'
        obtain ⟨hl', hget'⟩ := List.getElem?_eq_some_iff.mp ht
        exact (hnodup.getElem_inj_iff).mp (hget.trans hget'.symm)
      have h1 := div_add_mod i n
      have h2 := div_add_mod entries.length n
      rw [hdivs, hmods] at h1
      omega
    · have hi' : i = entries.length := by
        have := (List.getElem?_eq_some_iff.mp hx).1
        rw [length_append, length_singleton] at this
        omega
      subst hi'
      rw [getElem?_concat_length] at hx
      cases hx
      exact ⟨t, ht, hentry⟩

theorem append_new (hn : 0 < n) (hmod : entries.length % n = 0)
    (hread : ∀ t' ∈ tables, ∀ i, read' t' i = read t' i) (hentry : read' t 0 = e) :
    Covers n read' (tables ++ [t]) (entries ++ [e]) := by
  have hlength := h.length_of_mod hn hmod
  have hdiv := div_add_mod entries.length n
  constructor
  · intro j
    rw [length_append, length_append, length_singleton, length_singleton, hlength]
    constructor
    · intro hj; have := mul_le_mul_left n (show j ≤ entries.length / n by omega); omega
    · intro hj
      have := Nat.le_of_mul_le_mul_left (show n * j ≤ n * (entries.length / n) by omega) hn
      omega
  · intro i x hx
    by_cases hi : i < entries.length
    · rw [getElem?_append_left hi] at hx
      obtain ⟨t', ht', hx'⟩ := h.entry i x hx
      refine ⟨t', ?_, (hread t' (mem_of_getElem? ht') _).trans hx'⟩
      rw [getElem?_append_left (List.getElem?_eq_some_iff.mp ht').1]
      exact ht'
    · have hi' : i = entries.length := by
        have := (List.getElem?_eq_some_iff.mp hx).1
        rw [length_append, length_singleton] at this
        omega
      subst hi'
      rw [getElem?_concat_length] at hx
      cases hx
      refine ⟨t, ?_, ?_⟩
      · rw [← hlength, getElem?_concat_length]
      · rw [hmod]; exact hentry

end

theorem pop_old (h : Covers n read tables (entries ++ [e])) (hmod : entries.length % n ≠ 0) :
    Covers n read tables entries := by
  constructor
  · intro j
    rw [h.size j, length_append, length_singleton]
    constructor
    · intro hj
      have hne : n * j ≠ entries.length := by
        intro heq; rw [← heq, mul_mod_right] at hmod; exact hmod rfl
      omega
    · intro hj; omega
  · intro i x hx
    apply h.entry i x
    rw [getElem?_append_left (List.getElem?_eq_some_iff.mp hx).1]
    exact hx

theorem pop_new (h : Covers n read tables (entries ++ [e])) (hn : 0 < n)
    (hmod : entries.length % n = 0) :
    ∃ ts t, tables = ts ++ [t] ∧ Covers n read ts entries ∧ read t 0 = e := by
  have hdiv := div_add_mod entries.length n
  obtain ⟨t, ht, hte⟩ := h.entry entries.length e getElem?_concat_length
  rw [hmod] at hte
  have hsize := h.size
  simp only [length_append, length_singleton] at hsize
  have hlength : tables.length = entries.length / n + 1 := by
    apply Nat.le_antisymm
    · by_contra hlt
      have := (hsize (entries.length / n + 1)).mp (by omega)
      rw [Nat.mul_add, Nat.mul_one] at this
      omega
    · exact (List.getElem?_eq_some_iff.mp ht).1
  have hne : tables ≠ [] := by intro hnil; rw [hnil] at hlength; cases hlength
  obtain ⟨ts, t', rfl⟩ : ∃ ts t', tables = ts ++ [t'] :=
    ⟨tables.dropLast, tables.getLast hne, (dropLast_append_getLast hne).symm⟩
  have hts : ts.length = entries.length / n := by
    rw [length_append, length_singleton] at hlength; omega
  rw [← hts, getElem?_concat_length] at ht
  cases ht
  refine ⟨ts, t, rfl, ⟨?_, ?_⟩, hte⟩
  · intro j
    rw [hts]
    constructor
    · intro hj; have := Nat.mul_lt_mul_of_pos_left hj hn; omega
    · intro hj
      by_contra hle
      have := mul_le_mul_left n (show entries.length / n ≤ j by omega)
      omega
  · intro i x hx
    have hi := (List.getElem?_eq_some_iff.mp hx).1
    obtain ⟨t', ht', hx'⟩ := h.entry i x ((getElem?_append_left hi).trans hx)
    refine ⟨t', ?_, hx'⟩
    have hin : i / n < ts.length := by rw [hts]; exact Nat.div_lt_of_lt_mul (by omega)
    rw [getElem?_append_left hin] at ht'
    exact ht'

theorem single (hpos : 0 < entries.length) (hle : entries.length ≤ n)
    (hread : ∀ (i : ℕ) (e : α), entries[i]? = some e → read t i = e) :
    Covers n read [t] entries := by
  constructor
  · intro j
    rw [length_singleton]
    constructor
    · intro hj; rw [show j = 0 by omega, Nat.mul_zero]; exact hpos
    · intro hj
      by_contra hle'
      have := mul_le_mul_left n (show 1 ≤ j by omega)
      omega
  · intro i e he
    have hi := (List.getElem?_eq_some_iff.mp he).1
    refine ⟨t, ?_, ?_⟩
    · rw [div_eq_of_lt (by omega)]; rfl
    · rw [mod_eq_of_lt (by omega)]; exact hread i e he

theorem eq_singleton (h : Covers n read tables entries) (hle : entries.length ≤ n)
    (ht : tables[0]? = some t) : tables = [t] := by
  have hone : ¬ 1 < tables.length := by rw [h.size 1]; omega
  match tables, ht, hone with
  | [_], ht, _ => exact congrArg (fun x => [x]) (Option.some_inj.mp ht)
  | _ :: _ :: _, _, hone => exact absurd (succ_lt_succ (succ_pos _)) hone

theorem read_single (h : Covers n read [t] entries) {i : ℕ} (hi : i < n)
    (he : entries[i]? = some e) : read t i = e := by
  obtain ⟨t', ht', hread⟩ := h.entry i e he
  rw [div_eq_of_lt hi] at ht'
  rw [mod_eq_of_lt hi] at hread
  cases ht'
  exact hread

end Covers

end IndexTable
