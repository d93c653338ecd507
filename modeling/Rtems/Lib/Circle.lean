import Mathlib.Data.List.Chain
import Mathlib.Data.List.Nodup
import Mathlib.Logic.Function.Basic

/-!
# Doubly linked lists

A list whose head is one of its nodes: from the head the `next` links go through the members and
back to the head, and the `prev` links go the other way.

* `Circle`: the members of a head, each once;
* **`Circle.insert`**, **`Circle.remove`**, **`Circle.replace`**: what a few new links do to the
  members, with `Circle.insertAfter` for the way to say where.
-/

namespace Circular

open Function List

variable {ι : Type} {next prev next' prev' : ι → ι} {h a b c n : ι} {l l1 l2 : List ι}

def Linked (next prev : ι → ι) (l : List ι) : Prop := l.IsChain fun x y => next x = y ∧ prev y = x

theorem linked_append : Linked next prev (l1 ++ a :: b :: l2) ↔
    Linked next prev (l1 ++ [a]) ∧ (next a = b ∧ prev b = a) ∧ Linked next prev (b :: l2) := by
  rw [Linked, isChain_append_cons_cons]
  rfl

theorem Linked.transport (hl : Linked next prev l) (hn : ∀ x ∈ l.dropLast, next' x = next x)
    (hp : ∀ x ∈ l.tail, prev' x = prev x) : Linked next' prev' l := by
  induction l with
  | nil => exact .nil
  | cons a l ih =>
    cases l with
    | nil => exact .singleton a
    | cons b l =>
      obtain ⟨⟨hab, hba⟩, hl⟩ := isChain_cons_cons.mp hl
      refine isChain_cons_cons.mpr ⟨⟨?_, ?_⟩, ih hl (fun x hx => hn x ?_) fun x hx => hp x ?_⟩
      · rw [hn a (by simp), hab]
      · rw [hp b (by simp), hba]
      · exact mem_cons_of_mem a hx
      · exact mem_cons_of_mem b hx

/-- The members of a head, in the order of the links. -/
structure Circle (next prev : ι → ι) (h : ι) (l : List ι) : Prop where
  linked : Linked next prev (h :: (l ++ [h]))
  nodup : (h :: l).Nodup

theorem exists_place (h : ι) (l1 l2 : List ι) :
    ∃ p a c q, h :: l1 = p ++ [a] ∧ l2 ++ [h] = c :: q := by
  obtain hnil | ⟨p, a, hp⟩ := eq_nil_or_concat (h :: l1)
  · cases hnil
  cases l2 with
  | nil => exact ⟨p, a, h, [], by simpa using hp, rfl⟩
  | cons c l2 => exact ⟨p, a, c, l2 ++ [h], by simpa using hp, rfl⟩

section Place

variable {p q : List ι} (hp : h :: l1 = p ++ [a]) (hq : l2 ++ [h] = c :: q)

include hp hq

theorem circle_eq : h :: (l1 ++ l2 ++ [h]) = p ++ a :: c :: q := by
  rw [append_assoc, hq, ← cons_append, hp]; simp

theorem Circle.place (hc : Circle next prev h (l1 ++ l2)) : next a = c ∧ prev c = a := by
  have hl := hc.linked; rw [circle_eq hp hq, linked_append] at hl; exact hl.2.1

theorem Linked.parts (hl : Linked next prev (p ++ [a])) (hr : Linked next prev (c :: q))
    (hnodup : (h :: (l1 ++ l2)).Nodup) (hn : ∀ x ∈ h :: (l1 ++ l2), x ≠ a → next' x = next x)
    (hpr : ∀ x ∈ h :: (l1 ++ l2), x ≠ c → prev' x = prev x) :
    Linked next' prev' (p ++ [a]) ∧ Linked next' prev' (c :: q) := by
  have hmem : ∀ x ∈ p ++ [a], x ∈ h :: (l1 ++ l2) := by
    intro x hx; rw [← cons_append, hp]; exact mem_append_left _ hx
  have hmem' : ∀ x ∈ c :: q, x ∈ h :: (l1 ++ l2) := by
    intro x hx
    rw [← hq] at hx
    rcases mem_append.mp hx with hx | hx
    · exact mem_cons_of_mem _ (mem_append_right _ hx)
    · rw [mem_singleton.mp hx]; exact mem_cons_self
  -- both sides of the place with the head, each without repetitions
  have hleft : (p ++ [a]).Nodup := by
    rw [← hp]; exact hnodup.sublist ((sublist_append_left l1 l2).cons_cons h)
  have hright : (c :: q).Nodup := by
    rw [← hq]
    exact (perm_append_singleton h l2).nodup_iff.mpr
      (hnodup.sublist ((sublist_append_right l1 l2).cons_cons h))
  have hdisj : ∀ x ∈ l1, x ∉ l2 ++ [h] := by
    intro x hx hx'
    obtain ⟨hh, hll⟩ := nodup_cons.mp hnodup
    rcases mem_append.mp hx' with hx' | hx'
    · exact (nodup_append.mp hll).2.2 x hx x hx' rfl
    · rw [mem_singleton.mp hx'] at hx; exact hh (mem_append_left _ hx)
  have hdisj' : ∀ x ∈ l2, x ∉ p ++ [a] := by
    intro x hx hx'
    rw [← hp] at hx'
    rcases mem_cons.mp hx' with rfl | hx'
    · exact (nodup_cons.mp hnodup).1 (mem_append_right _ hx)
    · exact hdisj x hx' (mem_append_left _ hx)
  refine ⟨hl.transport (fun x hx => hn x (hmem x ?_) ?_) fun x hx => hpr x (hmem x ?_) ?_,
    hr.transport (fun x hx => hn x (hmem' x ?_) ?_) fun x hx => hpr x (hmem' x ?_) ?_⟩
  · exact dropLast_subset _ hx
  · rw [dropLast_concat] at hx
    rintro rfl
    exact (nodup_append.mp hleft).2.2 x hx x (by simp) rfl
  · exact mem_of_mem_tail hx
  · rw [← hp, tail_cons] at hx; rintro rfl; exact hdisj x hx (by simp [hq])
  · exact dropLast_subset _ hx
  · rw [← hq, dropLast_concat] at hx; rintro rfl; exact hdisj' x hx (by simp)
  · exact mem_of_mem_tail hx
  · rintro rfl; exact (nodup_cons.mp hright).1 hx

theorem place_ne (hn : n ∉ h :: (l1 ++ l2)) : n ≠ a ∧ n ≠ c := by
  have ha : a ∈ h :: l1 := by simp [hp]
  have hc : c ∈ l2 ++ [h] := by simp [hq]
  simp only [mem_cons, mem_append, not_or, not_mem_nil, or_false] at hn ha hc
  refine ⟨?_, ?_⟩
  · rintro rfl; exact ha.elim hn.1 hn.2.1
  · rintro rfl; exact hc.elim hn.2.2 hn.1

end Place

section

variable (hc : Circle next prev h (l1 ++ b :: l2))

include hc

theorem Circle.around {p q : List ι} (hp : h :: l1 = p ++ [a]) (hq : l2 ++ [h] = c :: q) :
    Linked next prev (p ++ [a]) ∧ prev b = a ∧ next b = c ∧ Linked next prev (c :: q) := by
  have hl := hc.linked
  rw [append_assoc, cons_append, hq, ← cons_append, hp, append_assoc, singleton_append,
    linked_append] at hl
  obtain ⟨hl, ⟨-, hb⟩, hr⟩ := hl
  obtain ⟨⟨hb', -⟩, hr⟩ := isChain_cons_cons.mp hr
  exact ⟨hl, hb, hb', hr⟩

theorem Circle.prev_eq : (h :: l1).getLast? = some (prev b) := by
  obtain ⟨p, a, c, q, hp, hq⟩ := exists_place h l1 l2
  rw [hp, (hc.around hp hq).2.1, getLast?_concat]

theorem Circle.neighbours : prev b ∈ h :: l1 ∧ next b ∈ l2 ++ [h] := by
  obtain ⟨p, a, c, q, hp, hq⟩ := exists_place h l1 l2
  obtain ⟨-, hb, hb', -⟩ := hc.around hp hq
  rw [hp, hq, hb, hb']
  exact ⟨by simp, by simp⟩

end

theorem Circle.next_last (hc : Circle next prev h (l1 ++ l2)) (ha : (h :: l1).getLast? = some a) :
    a ∈ h :: l1 ∧ next a ∈ l2 ++ [h] := by
  obtain ⟨p, a', c, q, hp, hq⟩ := exists_place h l1 l2
  rw [hp, getLast?_concat] at ha
  cases ha
  rw [hp, hq, (hc.place hp hq).1]
  exact ⟨by simp, by simp⟩

variable [DecidableEq ι]

theorem Circle.insert {p q : List ι} (hc : Circle next prev h (l1 ++ l2)) (hp : h :: l1 = p ++ [a])
    (hq : l2 ++ [h] = c :: q) (hn : n ∉ h :: (l1 ++ l2)) :
    Circle (update (update next n c) a n) (update (update prev n a) c n) h (l1 ++ n :: l2) := by
  obtain ⟨hna, hnc⟩ := place_ne hp hq hn
  have hne : ∀ x ∈ h :: (l1 ++ l2), x ≠ n := by rintro x hx rfl; exact hn hx
  have hold := hc.linked
  rw [circle_eq hp hq, linked_append] at hold
  obtain ⟨hl, hr⟩ : Linked (update (update next n c) a n)
      (update (update prev n a) c n) (p ++ [a]) ∧
      Linked (update (update next n c) a n) (update (update prev n a) c n) (c :: q) := by
    refine Linked.parts hp hq hold.1 hold.2.2 hc.nodup (fun x hx hxa => ?_) fun x hx hxc => ?_
    · rw [update_of_ne hxa, update_of_ne (hne x hx)]
    · rw [update_of_ne hxc, update_of_ne (hne x hx)]
  refine ⟨?_, ?_⟩
  · rw [append_assoc, cons_append, hq, ← cons_append, hp, append_assoc, singleton_append,
      linked_append]
    refine ⟨hl, ⟨update_self .., ?_⟩, isChain_cons_cons.mpr ⟨⟨?_, ?_⟩, hr⟩⟩
    · rw [update_of_ne hnc, update_self]
    · rw [update_of_ne hna, update_self]
    · rw [update_self]
  · have hperm : (h :: (l1 ++ n :: l2)).Perm (n :: h :: (l1 ++ l2)) :=
      (perm_middle.cons h).trans (.swap ..)
    exact hperm.nodup_iff.mpr (nodup_cons.mpr ⟨hn, hc.nodup⟩)

theorem Circle.insertAfter (hc : Circle next prev h (l1 ++ l2)) (ha : (h :: l1).getLast? = some a)
    (hn : n ∉ h :: (l1 ++ l2)) :
    Circle (update (update next n (next a)) a n)
      (update (update prev n a) (next a) n) h (l1 ++ n :: l2) := by
  obtain ⟨p, a', c, q, hp, hq⟩ := exists_place h l1 l2
  obtain rfl : a' = a := by rw [hp, getLast?_concat] at ha; exact Option.some.inj ha
  rw [(hc.place hp hq).1]
  exact hc.insert hp hq hn

theorem Circle.remove (hc : Circle next prev h (l1 ++ b :: l2)) :
    Circle (update next (prev b) (next b)) (update prev (next b) (prev b)) h (l1 ++ l2) := by
  obtain ⟨p, a, c, q, hp, hq⟩ := exists_place h l1 l2
  obtain ⟨hl, hpb, hnb, hr⟩ := hc.around hp hq
  have hnodup : (h :: (l1 ++ l2)).Nodup :=
    hc.nodup.sublist (((sublist_cons_self b l2).append_left l1).cons_cons h)
  rw [hpb, hnb]
  obtain ⟨hl', hr'⟩ : Linked (update next a c) (update prev c a) (p ++ [a]) ∧
      Linked (update next a c) (update prev c a) (c :: q) :=
    Linked.parts hp hq hl hr hnodup (fun x _ hx => update_of_ne hx ..)
      fun x _ hx => update_of_ne hx ..
  refine ⟨?_, hnodup⟩
  rw [circle_eq hp hq, linked_append]
  exact ⟨hl', ⟨update_self .., update_self ..⟩, hr'⟩

theorem Circle.replace (hc : Circle next prev h (l1 ++ b :: l2)) (hn : n ∉ h :: (l1 ++ l2)) :
    Circle (update (update next n (next b)) (prev b) n)
      (update (update prev n (prev b)) (next b) n) h (l1 ++ n :: l2) := by
  obtain ⟨p, a, c, q, hp, hq⟩ := exists_place h l1 l2
  obtain ⟨-, hpb, hnb, -⟩ := hc.around hp hq
  have hcut := hc.remove
  have hins := hcut.insert hp hq hn
  obtain ⟨hna, hnc⟩ := place_ne hp hq hn
  rw [hpb, hnb] at hins ⊢
  rwa [update_comm hna.symm, update_idem, update_comm hnc.symm, update_idem] at hins

end Circular
