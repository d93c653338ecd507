import Mathlib.Data.Nat.Periodic
import Mathlib.Order.Interval.Finset.Nat
import Mathlib.Data.List.Count

/-!
# Weakly hard constraints

A word satisfies the `(m, k)` constraint when any `k` consecutive letters hold at least `m` good
ones. Words are listed newest letter first.

* `zeros p a b`: the bad positions of `p : ℕ → Bool` in `[a, b)`;
* `Stretched p n w`: `w` follows `p` up to position `n`, with letters as good and good ones
  inserted;
* **`Stretched.count_false_window`**: it has no more bad letters in a window than `p`;
* `Ahead p k n r`: `r` is what is left of the current period of `p` at position `n`.
-/

namespace WeaklyHard

open Finset Nat

/-- The number of bad positions of `p` in `[a, b)`. -/
def zeros (p : ℕ → Bool) (a b : ℕ) : ℕ := ((Ico a b).filter fun x => p x = false).card

@[simp] theorem zeros_self (p : ℕ → Bool) (a : ℕ) : zeros p a a = 0 := by simp [zeros]

variable {a n k : ℕ} {w r : List Bool}

theorem zeros_mono (p : ℕ → Bool) {b c : ℕ} (h : b ≤ c) : zeros p a b ≤ zeros p a c :=
  card_le_card (filter_subset_filter _ (Ico_subset_Ico le_rfl h))

theorem zeros_succ (p : ℕ → Bool) (h : a ≤ n) :
    zeros p a (n + 1) = zeros p a n + if p n = false then 1 else 0 := by
  have hI : Ico a (n + 1) = insert n (Ico a n) := by
    ext x
    simp only [mem_Ico, mem_insert]
    omega
  unfold zeros
  rw [hI, filter_insert]
  split_ifs with hp
  · rw [card_insert_of_notMem (by simp)]
  · rw [add_zero]

theorem zeros_add (p : ℕ → Bool) {b : ℕ} (h : a ≤ b) : zeros p 0 a + zeros p a b = zeros p 0 b := by
  induction b, h using le_induction with
  | base => rw [zeros_self, add_zero]
  | succ b hab ih => rw [zeros_succ p hab, zeros_succ p (zero_le b), ← ih, add_assoc]

theorem zeros_congr {p q : ℕ → Bool} {b : ℕ} (h : ∀ x, a ≤ x → x < b → p x = q x) :
    zeros p a b = zeros q a b := by
  unfold zeros
  congr 1
  refine filter_congr fun x hx => ?_
  rw [mem_Ico] at hx
  rw [h x hx.1 hx.2]

/-- The first `k` letters of `f`, again and again. -/
def repeating (f : ℕ → Bool) (k : ℕ) : ℕ → Bool := fun x => f (x % k)

theorem repeating_periodic (f : ℕ → Bool) (k : ℕ) : Function.Periodic (repeating f k) k :=
  fun x => congrArg f (add_mod_right x k)

theorem repeating_of_lt (f : ℕ → Bool) {x : ℕ} (h : x < k) : repeating f k x = f x :=
  congrArg f (mod_eq_of_lt h)

theorem zeros_periodic {p : ℕ → Bool} (hp : Function.Periodic p k) (a : ℕ) :
    zeros p a (a + k) = zeros p 0 k := by
  have hq : Function.Periodic (fun x => p x = false) k := by
    intro x
    show (p (x + k) = false) = (p x = false)
    rw [hp x]
  have h0 := filter_Ico_card_eq_of_periodic 0 k _ hq
  rw [zero_add] at h0
  rw [zeros, zeros, filter_Ico_card_eq_of_periodic a k _ hq, h0]

/-! ## Stretched words -/

/-- `w` is `p` up to `n`, newest first, with letters made good or good ones inserted. -/
inductive Stretched (p : ℕ → Bool) : ℕ → List Bool → Prop
  | nil (n : ℕ) : Stretched p n []
  | follow {n : ℕ} {w : List Bool} {b : Bool} :
      Stretched p n w → (p n = true → b = true) → Stretched p (n + 1) (b :: w)
  | insert {n : ℕ} {w : List Bool} : Stretched p n w → Stretched p n (true :: w)

variable {p : ℕ → Bool}

section

variable (h : Stretched p n w)

include h

theorem Stretched.drop (j : ℕ) : ∃ n', Stretched p n' (w.drop j) := by
  induction h generalizing j with
  | nil n => exact ⟨n, by simpa using Stretched.nil n⟩
  | @follow n w b h hb ih =>
    cases j with
    | zero => exact ⟨n + 1, h.follow hb⟩
    | succ j => exact ih j
  | @insert n w h ih =>
    cases j with
    | zero => exact ⟨n, h.insert⟩
    | succ j => exact ih j

theorem Stretched.count_false_take (k : ℕ) :
    ∃ a, a ≤ n ∧ n ≤ a + k ∧ (w.take k).count false ≤ zeros p a n := by
  induction h generalizing k with
  | nil n => exact ⟨n, le_rfl, by omega, by simp⟩
  | @follow n w b h hb ih =>
    cases k with
    | zero => exact ⟨n + 1, le_rfl, le_rfl, by simp⟩
    | succ k =>
      obtain ⟨a, han, hnk, hc⟩ := ih k
      refine ⟨a, by omega, by omega, ?_⟩
      rw [zeros_succ p han, List.take_succ_cons, List.count_cons]
      -- a bad letter of `w` stands for a bad letter of `p`
      cases b with
      | true => simpa using le_add_right_of_le hc
      | false =>
        have hpn : p n = false := by
          cases hp : p n
          · rfl
          · exact absurd (hb hp) (by simp)
        simpa [hpn] using hc
  | @insert n w h ih =>
    cases k with
    | zero => exact ⟨n, le_rfl, le_rfl, by simp⟩
    | succ k =>
      obtain ⟨a, han, hnk, hc⟩ := ih k
      refine ⟨a, han, by omega, ?_⟩
      simpa using hc

theorem Stretched.count_false_window {d : ℕ} (hd : ∀ a, zeros p a (a + k) ≤ d) (j : ℕ) :
    ((w.drop j).take k).count false ≤ d := by
  obtain ⟨n', h'⟩ := h.drop j
  obtain ⟨a, -, hnk, hc⟩ := h'.count_false_take k
  exact hc.trans ((zeros_mono p hnk).trans (hd a))

theorem Stretched.count_true_window {m : ℕ} (hmk : m ≤ k) (hd : ∀ a, zeros p a (a + k) ≤ k - m)
    (j : ℕ) (hj : k ≤ (w.drop j).length) : m ≤ ((w.drop j).take k).count true := by
  have hf := h.count_false_window hd j
  have hl : ((w.drop j).take k).length = k := List.length_take_of_le hj
  have hs := List.length_eq_countP_add_countP (fun b : Bool => b == true) (l := (w.drop j).take k)
  have hfalse : ((w.drop j).take k).countP (fun b => ¬ (b == true) = true) =
      ((w.drop j).take k).count false := by
    congr 1
    funext b
    cases b <;> rfl
  have hc : ((w.drop j).take k).countP (fun b : Bool => b == true) =
      ((w.drop j).take k).count true := rfl
  omega

theorem Stretched.count_true_infix {m : ℕ} {l : List Bool} (hmk : m ≤ k)
    (hd : ∀ a, zeros p a (a + k) ≤ k - m) (hl : l <:+: w) (hk : l.length = k) :
    m ≤ l.count true := by
  obtain ⟨l1, l2, rfl⟩ := hl
  have hdrop : (l1 ++ l ++ l2).drop l1.length = l ++ l2 := by simp
  have hwin := h.count_true_window hmk hd l1.length (by rw [hdrop]; simp [hk])
  rw [hdrop, ← hk, List.take_left' rfl] at hwin
  exact hwin

end

/-! ## What is left of a period -/

/-- `r` is the rest of the current period of `p` at position `n`. -/
def Ahead (p : ℕ → Bool) (k n : ℕ) (r : List Bool) : Prop :=
  (n + r.length) % k = 0 ∧ ∀ x, x < r.length → r[x]? = some (p (n + x))

theorem Ahead.head {b : Bool} (h : Ahead p k n (b :: r)) : p n = b := by
  have := h.2 0 (by simp); simpa using this.symm

theorem Ahead.tail {b : Bool} (h : Ahead p k n (b :: r)) : Ahead p k (n + 1) r := by
  refine ⟨?_, fun x hx => ?_⟩
  · rw [← h.1, List.length_cons]
    congr 1
    omega
  · have := h.2 (x + 1) (by simpa using hx)
    rw [List.getElem?_cons_succ] at this
    rw [this]
    congr 2
    omega

theorem Ahead.wrap (hp : Function.Periodic p k) (hr : r.length = k)
    (hpr : ∀ x, x < r.length → r[x]? = some (p x)) (h : Ahead p k n []) : Ahead p k n r := by
  have hn : n % k = 0 := by simpa [Ahead] using h.1
  refine ⟨by rw [hr, add_mod_right, hn], fun x hx => ?_⟩
  obtain ⟨c, rfl⟩ : k ∣ n := dvd_of_mod_eq_zero hn
  have hc : p (x + c * k) = p x := hp.nat_mul c x
  rw [hpr x hx, add_comm, mul_comm, hc]

end WeaklyHard
