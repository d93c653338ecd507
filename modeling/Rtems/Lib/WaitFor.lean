import Mathlib.Data.Set.Finite.Lattice
import Mathlib.Logic.Relation

/-!
# Wait-for graphs

A graph in which every node has at most one successor: who waits for whom.

* `Edge`, `Ranked`: the graph has a rank that decreases along every edge, so it has no cycle
  (**`Ranked.not_cycle`**) and every way through it ends;
* **`Ranked.link`**, `Ranked.mono`, **`Ranked.sink`**: what keeps a graph ranked;
  **`Ranked.cycle_iff`**: which new edge closes a cycle; `Ranked.induction`;
* `meets`: the way from a node, and whether it comes to a given one; **`meets_eq`**.
-/

namespace WaitFor

open Function Relation

variable {α : Type} {next next' : α → Option α} {a b c t : α}

/-- `a` waits for `b`. -/
def Edge (next : α → Option α) (a b : α) : Prop := next a = some b

/-- There is a rank that decreases along every edge. -/
def Ranked (next : α → Option α) : Prop :=
  ∃ rank : α → ℕ, ∀ a b, next a = some b → rank b < rank a

theorem ranked_of_none (h : ∀ a, next a = none) : Ranked next := by
  refine ⟨fun _ => 0, fun a b hab => ?_⟩
  rw [h a] at hab
  cases hab

theorem rank_lt_of_transGen {rank : α → ℕ} (h : ∀ a b, next a = some b → rank b < rank a)
    (hab : TransGen (Edge next) a b) : rank b < rank a := by
  induction hab with
  | single hab => exact h _ _ hab
  | tail _ hbc ih => exact (h _ _ hbc).trans ih

theorem Ranked.not_cycle (h : Ranked next) (a : α) : ¬ TransGen (Edge next) a a := by
  obtain ⟨rank, hrank⟩ := h; exact fun ha => (rank_lt_of_transGen hrank ha).false

theorem Ranked.mono (h : Ranked next) (h' : ∀ a b, next' a = some b → next a = some b) :
    Ranked next' := by
  obtain ⟨rank, hrank⟩ := h
  exact ⟨rank, fun a b hab => hrank a b (h' a b hab)⟩

theorem Ranked.sink (h : Ranked next) (hc : next' c = none)
    (h' : ∀ a b, next' a = some b → b = c ∨ next a = some b) : Ranked next' := by
  classical
  obtain ⟨rank, hrank⟩ := h
  refine ⟨fun a => if a = c then 0 else rank a + 1, fun a b hab => ?_⟩
  have hac : a ≠ c := by rintro rfl; rw [hc] at hab; cases hab
  by_cases hbc : b = c
  · simp [hac, hbc]
  · have := hrank a b ((h' a b hab).resolve_left hbc); simp [hac, hbc, this]

theorem Ranked.link [DecidableEq α] (h : Ranked next) (ha : next a = none)
    (hb : ¬ ReflTransGen (Edge next) b a) : Ranked (update next a (some b)) := by
  classical
  obtain ⟨rank, hrank⟩ := h
  -- every node that leads to `a` is lifted above `b`
  refine ⟨fun c => if ReflTransGen (Edge next) c a then rank c + rank b + 1 else rank c,
    fun c d hcd => ?_⟩
  by_cases hca : c = a
  · subst hca
    rw [update_self, Option.some_inj] at hcd
    subst hcd
    simp only [if_neg hb, if_pos ReflTransGen.refl]
    omega
  · rw [update_of_ne hca] at hcd
    have hlt := hrank c d hcd
    by_cases hda : ReflTransGen (Edge next) d a
    · have hc : ReflTransGen (Edge next) c a := ReflTransGen.head hcd hda
      simp only [if_pos hda, if_pos hc]
      omega
    · simp only [if_neg hda]
      split_ifs
      · omega
      · exact hlt

theorem reflTransGen_of_eq (h : ∀ c, c ≠ a → next' c = next c) (hb : ReflTransGen (Edge next) b a) :
    ReflTransGen (Edge next') b a := by
  induction hb using ReflTransGen.head_induction_on with
  | refl => exact ReflTransGen.refl
  | @head c d hcd _ ih =>
    by_cases hca : c = a
    · rw [hca]
    · exact ReflTransGen.head ((h c hca).trans hcd) ih

theorem Ranked.cycle_iff [DecidableEq α] (h : Ranked next) :
    (∃ c, TransGen (Edge (update next a (some b))) c c) ↔ ReflTransGen (Edge next) b a := by
  constructor
  · rintro ⟨c, hc⟩
    by_contra hb
    have hcut : Ranked (update next a none) := h.mono fun d e hde => by
      have hda : d ≠ a := by rintro rfl; simp at hde
      rwa [update_of_ne hda] at hde
    have hlink := hcut.link (update_self ..) fun hba =>
      hb (reflTransGen_of_eq (fun d hd => (update_of_ne hd ..).symm) hba)
    rw [update_idem] at hlink
    exact hlink.not_cycle c hc
  · intro hb
    exact ⟨a, TransGen.head' (update_self ..)
      (reflTransGen_of_eq (fun d hd => update_of_ne hd ..) hb)⟩

theorem Ranked.induction {P : α → Prop} (h : Ranked next) (hfin : {a | next a ≠ none}.Finite)
    (hP : ∀ b, (∀ a, next a = some b → P a) → P b) (b : α) : P b := by
  obtain ⟨rank, hrank⟩ := h
  obtain ⟨bound, hbound⟩ := (hfin.image rank).bddAbove
  induction hk : bound + 1 - rank b using Nat.strong_induction_on generalizing b with
  | _ k ih =>
    refine hP b fun a hab => ih _ ?_ a rfl
    have hle : rank a ≤ bound := hbound ⟨a, by simp [hab], rfl⟩
    have hlt := hrank a b hab
    omega

/-! ## Ways -/

theorem reflTransGen_iff : ReflTransGen (Edge next) a t ↔
    a = t ∨ ∃ b, next a = some b ∧ ReflTransGen (Edge next) b t := by
  constructor
  · intro h
    rcases ReflTransGen.cases_head h with rfl | ⟨b, hab, hbt⟩
    · exact .inl rfl
    · exact .inr ⟨b, hab, hbt⟩
  · rintro (rfl | ⟨b, hab, hbt⟩)
    · exact ReflTransGen.refl
    · exact ReflTransGen.head hab hbt

section Meets

variable [DecidableEq α] (next) (t)

/-- The way from `a`, for at most so many nodes: whether it comes to `t`. -/
def meets : ℕ → α → Option Bool
  | 0, _ => none
  | k + 1, a =>
    if a = t then some true
    else
      match next a with
      | none => some false
      | some b => meets k b

variable {next t}

theorem meets_congr (h : ∀ a, a ≠ t → next' a = next a) (k : ℕ) (a : α) :
    meets next' t k a = meets next t k a := by
  induction k generalizing a with
  | zero => rfl
  | succ k ih =>
    rw [meets, meets]
    by_cases hat : a = t
    · rw [if_pos hat, if_pos hat]
    · rw [if_neg hat, if_neg hat, h a hat]
      cases next a with
      | none => rfl
      | some b => exact ih b

theorem meets_eq {rank : α → ℕ} (h : ∀ a b, next a = some b → rank b < rank a) (k : ℕ) :
    ∀ a, rank a < k → ∃ r, meets next t k a = some r ∧
      (r = true ↔ ReflTransGen (Edge next) a t) := by
  induction k with
  | zero => intro a hk; omega
  | succ k ih =>
    intro a hk
    rw [meets]
    by_cases hat : a = t
    · subst hat; exact ⟨true, if_pos rfl, by simp [ReflTransGen.refl]⟩
    · rw [if_neg hat, reflTransGen_iff]
      cases hn : next a with
      | none => exact ⟨false, rfl, by simp [hat]⟩
      | some b =>
        obtain ⟨r, hr, hiff⟩ := ih b (by have := h a b hn; omega)
        refine ⟨r, hr, ?_⟩
        rw [hiff]
        simp [hat]

end Meets

end WaitFor
