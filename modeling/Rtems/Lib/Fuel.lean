import Mathlib.Order.Nat

/-!
# Loops with fuel

A loop that need not end is modelled with fuel, and has no result when it runs out.

* `Le`: the second computation has the result of the first, if that has one;
* `Stable`: a result does not depend on the fuel, with `stable_const`, `Stable.bind` and
  `Stable.map` for the computations that call a loop;
* **`Stable.of_eventually`**: what holds with enough fuel holds of every result.
-/

namespace Fuel

variable {α β : Type}

/-- The second computation has the result of the first, if that has one. -/
def Le (x y : Option α) : Prop := ∀ a, x = some a → y = some a

theorem Le.refl (x : Option α) : Le x x := fun _ => id

theorem Le.trans {x y z : Option α} (h : Le x y) (h' : Le y z) : Le x z := fun a ha => h' a (h a ha)

theorem Le.bind {x y : Option α} {f g : α → Option β} (h : Le x y) (h' : ∀ a, Le (f a) (g a)) :
    Le (x.bind f) (y.bind g) := by
  intro b hb
  obtain ⟨a, ha, hf⟩ := Option.bind_eq_some_iff.mp hb
  exact Option.bind_eq_some_iff.mpr ⟨a, h a ha, h' a b hf⟩

def Stable (f : ℕ → Option α) : Prop := ∀ n k, n ≤ k → Le (f n) (f k)

variable {f : ℕ → Option α}

theorem stable_of_succ (h : ∀ n, Le (f n) (f (n + 1))) : Stable f := by
  intro n k hk
  induction k, hk using Nat.le_induction with
  | base => exact .refl _
  | succ k _ ih => exact ih.trans (h k)

theorem stable_const (x : Option α) : Stable fun _ => x := fun _ _ _ => .refl x

theorem Stable.bind {g : ℕ → α → Option β} (h : Stable f)
    (h' : ∀ a, Stable fun n => g n a) : Stable fun n => (f n).bind (g n) :=
  fun n k hk => (h n k hk).bind fun a => h' a n k hk

theorem Stable.map (h : Stable f) (g : α → β) : Stable fun n => (f n).map g := by
  intro n k hk b hb
  obtain ⟨a, ha, hg⟩ := Option.map_eq_some_iff.mp hb
  exact Option.map_eq_some_iff.mpr ⟨a, h n k hk a ha, hg⟩

theorem Stable.of_eventually {P : Option α → Prop} (h : Stable f)
    (hev : ∃ n, ∀ k, n ≤ k → P (f k)) {n : ℕ} {a : α} (ha : f n = some a) : P (some a) := by
  obtain ⟨n0, hn0⟩ := hev
  rw [← h n (max n n0) (le_max_left _ _) a ha]
  exact hn0 _ (le_max_right _ _)

end Fuel
