import Mathlib.Order.Bounds.Basic
import Rtems.Lib.SearchTree

/-!
# Priority aggregations

`priorityimpl.h`: a set of priority nodes, its contributors, and the priority of the first of them.
The contributors are given in the order of their red-black tree, which is that of `insertBehind`.

* `Aggregation`, `nonEmptyInsert`, `extractNonEmpty`, `extract`, `changed`;
* `Ok`: the contributors are sorted and the priority is that of the first one; **`Ok.isLeast`**: so
  it is the least one;
* **`Ok.nonEmptyInsert`**, **`Ok.extractNonEmpty`**, **`Ok.extract`**, **`Ok.changed`**.
-/

namespace Rtems

open SearchTree List Option

/-- `Priority_Aggregation`: the priority of its node, and its contributors in order. -/
structure Aggregation (ν : Type) where
  priority : ℕ
  contributors : List ν
  deriving DecidableEq

/-- What a handler of `_Priority_Extract` is called for. -/
inductive Extraction
  | nothing
  | removed
  | changed
  deriving DecidableEq

namespace Aggregation

variable {ν : Type} (key : ν → ℕ) (a : Aggregation ν) (n : ν)

def initializeOne : Aggregation ν := ⟨key n, [n]⟩

/-- `_Priority_Plain_insert`, and whether the node is the new minimum. -/
def plainInsert : Aggregation ν × Bool :=
  ({ a with contributors := insertBehind key n a.contributors },
    a.contributors.head?.all fun c => key n < key c)

/-- `_Priority_Non_empty_insert`, and whether it calls the change handler. -/
def nonEmptyInsert : Aggregation ν × Bool :=
  match a.plainInsert key n with
  | (a₁, true) => ({ a₁ with priority := key n }, true)
  | (a₁, false) => (a₁, false)

section Extract

variable [DecidableEq ν]

/-- `_Priority_Plain_extract`, undefined for a node outside the tree. -/
def plainExtract : Option (Aggregation ν) :=
  if n ∈ a.contributors then some { a with contributors := a.contributors.erase n } else none

def plainChanged : Option (Aggregation ν) := do
  let a₁ ← a.plainExtract n
  some (a₁.plainInsert key n).1

/-- `_Priority_Extract_non_empty`, and whether it calls the change handler. -/
def extractNonEmpty : Option (Aggregation ν × Bool) := do
  let a₁ ← a.plainExtract n
  let min ← a₁.contributors.head?
  if key n < key min then some ({ a₁ with priority := key min }, true) else some (a₁, false)

/-- `_Priority_Extract`, and the handler that it calls. -/
def extract : Option (Aggregation ν × Extraction) := do
  let a₁ ← a.plainExtract n
  match a₁.contributors.head? with
  | none => some (a₁, .removed)
  | some min =>
    if key n < key min then some ({ a₁ with priority := key min }, .changed)
    else some (a₁, .nothing)

/-- `_Priority_Changed`, and whether it calls the change handler. -/
def changed : Option (Aggregation ν × Bool) := do
  let a₁ ← a.plainChanged key n
  let min ← a₁.contributors.head?
  if key min ≠ a.priority then some ({ a₁ with priority := key min }, true) else some (a₁, false)

end Extract

structure Sorted (l : List ν) : Prop where
  pairwise : l.Pairwise fun c d => key c ≤ key d
  nodup : l.Nodup

/-- The priority is that of the first contributor. -/
structure Ok (a : Aggregation ν) : Prop extends Sorted key a.contributors where
  head : a.contributors.head?.map key = some a.priority

variable {key a n} {l : List ν}

theorem Sorted.congr {key' : ν → ℕ} (h : Sorted key l) (hk : ∀ c ∈ l, key' c = key c) :
    Sorted key' l := by
  refine ⟨?_, h.nodup⟩
  refine h.pairwise.imp_of_mem fun hc hd hle => ?_
  rwa [hk _ hc, hk _ hd]

theorem Ok.congr {key' : ν → ℕ} (h : Ok key a) (hk : ∀ c ∈ a.contributors, key' c = key c) :
    Ok key' a := by
  refine ⟨h.toSorted.congr hk, ?_⟩
  obtain ⟨c, hc, hp⟩ := map_eq_some_iff.mp h.head
  rw [hc, map_some, hk c (mem_of_mem_head? hc), hp]

theorem Sorted.le_of_head {c : ν} (h : Sorted key l) (hc : l.head? = some c) :
    ∀ d ∈ l, key c ≤ key d := by
  obtain ⟨l', rfl⟩ := head?_eq_some_iff.mp hc
  intro d hd
  rcases mem_cons.mp hd with rfl | hd
  · exact le_rfl
  · exact (pairwise_cons.mp h.pairwise).1 d hd

theorem Ok.isLeast (h : Ok key a) : IsLeast { p | ∃ c ∈ a.contributors, key c = p } a.priority := by
  obtain ⟨c, hc, hp⟩ := map_eq_some_iff.mp h.head
  refine ⟨⟨c, mem_of_mem_head? hc, hp⟩, ?_⟩
  rintro _ ⟨d, hd, rfl⟩
  rw [← hp]
  exact h.le_of_head hc d hd

theorem Sorted.insertBehind (h : Sorted key l) (hn : n ∉ l) : Sorted key (insertBehind key n l) :=
  ⟨pairwise_insertBehind h.pairwise, perm_insertBehind.nodup_iff.mpr (nodup_cons.mpr ⟨hn, h.nodup⟩)⟩

theorem Ok.initializeOne : Ok key (initializeOne key n) :=
  ⟨⟨pairwise_singleton _ _, nodup_singleton _⟩, rfl⟩

theorem Ok.nonEmptyInsert (h : Ok key a) (hn : n ∉ a.contributors) :
    ∃ a' b, a.nonEmptyInsert key n = (a', b) ∧ Ok key a' ∧
      a'.contributors.Perm (n :: a.contributors) ∧ (b = false → a'.priority = a.priority) := by
  have hs := h.toSorted.insertBehind hn
  obtain ⟨c, hc, hp⟩ := map_eq_some_iff.mp h.head
  by_cases hlt : key n < key c
  · refine ⟨⟨key n, SearchTree.insertBehind key n a.contributors⟩, true, ?_, ⟨hs, ?_⟩,
      perm_insertBehind, fun hb => by cases hb⟩
    · simp [Aggregation.nonEmptyInsert, plainInsert, hc, hlt]
    · rw [head?_insertBehind, hc]; simp [hlt]
  · refine ⟨⟨a.priority, SearchTree.insertBehind key n a.contributors⟩, false, ?_, ⟨hs, ?_⟩,
      perm_insertBehind, fun _ => rfl⟩
    · simp [Aggregation.nonEmptyInsert, plainInsert, hc, hlt]
    · rw [head?_insertBehind, hc]; simp only [if_neg hlt]; rw [map_some, hp]

variable [DecidableEq ν]

theorem Sorted.erase (h : Sorted key l) (n : ν) : Sorted key (l.erase n) :=
  ⟨h.pairwise.sublist erase_sublist, h.nodup.erase n⟩

theorem plainExtract_of_mem (hn : n ∈ a.contributors) :
    a.plainExtract n = some { a with contributors := a.contributors.erase n } := if_pos hn

theorem Ok.of_extract {c : ν} (h : Ok key a) (hc : (a.contributors.erase n).head? = some c) :
    (key n < key c → Ok key ⟨key c, a.contributors.erase n⟩) ∧
      (¬ key n < key c → Ok key ⟨a.priority, a.contributors.erase n⟩) := by
  have hs := h.toSorted.erase n
  refine ⟨fun _ => ⟨hs, by rw [hc]; rfl⟩, fun hlt => ⟨hs, ?_⟩⟩
  have hcm : c ∈ a.contributors := mem_of_mem_erase (mem_of_mem_head? hc)
  obtain ⟨d, hd, hp⟩ := map_eq_some_iff.mp h.head
  -- the first contributor stays, or is the node itself
  have hle : key d ≤ key c := h.le_of_head hd c hcm
  have hge : key c ≤ key d := by
    by_cases hdn : d = n
    · rw [hdn]; exact not_lt.mp hlt
    · exact hs.le_of_head hc d ((mem_erase_of_ne hdn).mpr (mem_of_mem_head? hd))
  rw [hc, map_some, ← hp]
  exact congrArg some (le_antisymm hge hle)

theorem Ok.extractNonEmpty {m : ν} (h : Ok key a) (hn : n ∈ a.contributors)
    (hm : m ∈ a.contributors) (hmn : m ≠ n) :
    ∃ a' b, a.extractNonEmpty key n = some (a', b) ∧ Ok key a' ∧
      a'.contributors = a.contributors.erase n ∧ (b = false → a'.priority = a.priority) := by
  have hleft : m ∈ a.contributors.erase n := (mem_erase_of_ne hmn).mpr hm
  obtain ⟨c, hc⟩ : ∃ c, (a.contributors.erase n).head? = some c := by
    cases hl : a.contributors.erase n with
    | nil => rw [hl] at hleft; cases hleft
    | cons c l => exact ⟨c, rfl⟩
  obtain ⟨hlt, hnlt⟩ := h.of_extract hc
  by_cases hk : key n < key c
  · exact ⟨⟨key c, a.contributors.erase n⟩, true, by
      simp [Aggregation.extractNonEmpty, plainExtract_of_mem hn, hc, hk], hlt hk, rfl,
      fun hb => by cases hb⟩
  · exact ⟨⟨a.priority, a.contributors.erase n⟩, false, by
      simp [Aggregation.extractNonEmpty, plainExtract_of_mem hn, hc, hk], hnlt hk, rfl,
      fun _ => rfl⟩

theorem Ok.extract (h : Ok key a) (hn : n ∈ a.contributors) :
    ∃ a' e, a.extract key n = some (a', e) ∧ a'.contributors = a.contributors.erase n ∧
      ((e = .removed ∧ a'.contributors = [] ∧ a'.priority = a.priority) ∨
        (e = .changed ∧ Ok key a') ∨ (e = .nothing ∧ Ok key a' ∧ a'.priority = a.priority)) := by
  cases hc : (a.contributors.erase n).head? with
  | none =>
    have hnil : a.contributors.erase n = [] := head?_eq_none_iff.mp hc
    exact ⟨⟨a.priority, a.contributors.erase n⟩, .removed, by
      simp [Aggregation.extract, plainExtract_of_mem hn, hnil], rfl, .inl ⟨rfl, hnil, rfl⟩⟩
  | some c =>
    obtain ⟨hlt, hnlt⟩ := h.of_extract hc
    by_cases hk : key n < key c
    · exact ⟨⟨key c, a.contributors.erase n⟩, .changed, by
        simp [Aggregation.extract, plainExtract_of_mem hn, hc, hk], rfl, .inr (.inl ⟨rfl, hlt hk⟩)⟩
    · exact ⟨⟨a.priority, a.contributors.erase n⟩, .nothing, by
        simp [Aggregation.extract, plainExtract_of_mem hn, hc, hk], rfl,
        .inr (.inr ⟨rfl, hnlt hk, rfl⟩)⟩

theorem plainChanged_of_mem (hn : n ∈ a.contributors) : a.plainChanged key n =
    some { a with contributors := SearchTree.insertBehind key n (a.contributors.erase n) } := by
  simp [plainChanged, plainExtract_of_mem hn, plainInsert]

theorem Sorted.move (h : Sorted key (l.erase n)) (hnodup : l.Nodup) (hn : n ∈ l) :
    Sorted key (SearchTree.insertBehind key n (l.erase n)) ∧
      (SearchTree.insertBehind key n (l.erase n)).Perm l :=
  ⟨h.insertBehind hnodup.not_mem_erase, perm_insertBehind.trans (perm_cons_erase hn).symm⟩

theorem Ok.changed (hnodup : a.contributors.Nodup) (hs : Sorted key (a.contributors.erase n))
    (hn : n ∈ a.contributors) :
    ∃ a' b, a.changed key n = some (a', b) ∧ Ok key a' ∧
      a'.contributors.Perm a.contributors ∧ (b = false → a'.priority = a.priority) := by
  obtain ⟨hsort, hperm⟩ := hs.move hnodup hn
  obtain ⟨c, hc⟩ : ∃ c, (SearchTree.insertBehind key n (a.contributors.erase n)).head? = some c := by
    rw [head?_insertBehind]
    split
    · exact ⟨_, rfl⟩
    · split_ifs <;> exact ⟨_, rfl⟩
  by_cases hk : key c = a.priority
  · refine ⟨⟨a.priority, SearchTree.insertBehind key n (a.contributors.erase n)⟩, false, ?_,
      ⟨hsort, by rw [hc, map_some, hk]⟩, hperm, fun _ => rfl⟩
    simp [Aggregation.changed, plainChanged_of_mem hn, hc, hk]
  · refine ⟨⟨key c, SearchTree.insertBehind key n (a.contributors.erase n)⟩, true, ?_,
      ⟨hsort, by rw [hc, map_some]⟩, hperm, fun hb => by cases hb⟩
    simp [Aggregation.changed, plainChanged_of_mem hn, hc, hk]

end Aggregation

end Rtems
