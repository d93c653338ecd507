import Mathlib.Data.Nat.Notation
import Mathlib.Data.List.Basic

/-!
# Segments that tile an area

* `Segment`, `Tiles`: segments one behind the other from an address to another one;
* `tiles_append`, **`Tiles.split`**, **`Tiles.merge`**: a part of the segments is changed;
* `Tiles.mem`, **`Tiles.pairwise`**: the segments are inside of the area, and apart.
-/

structure Segment where
  begin : ℕ
  size : ℕ
  deriving DecidableEq

namespace Segment

/-- The segments lie one behind the other between two addresses. -/
def Tiles : ℕ → List Segment → ℕ → Prop
  | a, [], b => a = b
  | a, s :: l, b => s.begin = a ∧ 0 < s.size ∧ Tiles (a + s.size) l b

variable {a b x n k : ℕ} {l m : List Segment} {s : Segment}

theorem tiles_append : Tiles a (l ++ m) b ↔ ∃ c, Tiles a l c ∧ Tiles c m b := by
  induction l generalizing a with
  | nil => exact ⟨fun h => ⟨a, rfl, h⟩, fun ⟨c, hc, h⟩ => hc ▸ h⟩
  | cons s l ih =>
    rw [List.cons_append]
    simp only [Tiles, ih]
    constructor
    · rintro ⟨hbegin, hpos, c, hl, hm⟩; exact ⟨c, ⟨hbegin, hpos, hl⟩, hm⟩
    · rintro ⟨c, ⟨hbegin, hpos, hl⟩, hm⟩; exact ⟨hbegin, hpos, c, hl, hm⟩

theorem Tiles.le (h : Tiles a l b) : a ≤ b := by
  induction l generalizing a with
  | nil => exact Nat.le_of_eq h
  | cons s l ih => exact Nat.le_trans (Nat.le_add_right _ _) (ih h.2.2)

theorem Tiles.mem (h : Tiles a l b) (hs : s ∈ l) :
    a ≤ s.begin ∧ 0 < s.size ∧ s.begin + s.size ≤ b := by
  induction l generalizing a with
  | nil => cases hs
  | cons t l ih =>
    obtain ⟨hbegin, hpos, hrest⟩ := h
    obtain rfl | hs := List.mem_cons.mp hs
    · exact ⟨Nat.le_of_eq hbegin.symm, hpos, hbegin ▸ hrest.le⟩
    · obtain ⟨hle, hpos', hend⟩ := ih hrest hs; exact ⟨by omega, hpos', hend⟩

theorem Tiles.pairwise (h : Tiles a l b) : l.Pairwise fun s t => s.begin + s.size ≤ t.begin := by
  induction l generalizing a with
  | nil => exact List.Pairwise.nil
  | cons s l ih =>
    obtain ⟨hbegin, hpos, hrest⟩ := h
    refine List.pairwise_cons.mpr ⟨fun t ht => ?_, ih hrest⟩
    rw [hbegin]
    exact (hrest.mem ht).1

theorem Tiles.split (h : Tiles a (l ++ s :: m) b) (hk : 0 < k) (hlt : k < s.size) :
    Tiles a (l ++ ⟨s.begin, s.size - k⟩ :: ⟨s.begin + (s.size - k), k⟩ :: m) b := by
  obtain ⟨c, hl, rfl, hpos, hm⟩ := tiles_append.mp h
  refine tiles_append.mpr ⟨_, hl, rfl, Nat.sub_pos_of_lt hlt, rfl, hk, ?_⟩
  dsimp only
  rw [Nat.add_assoc, Nat.sub_add_cancel (Nat.le_of_lt hlt)]
  exact hm

theorem Tiles.merge {t : Segment} (h : Tiles a (l ++ s :: t :: m) b) :
    Tiles a (l ++ ⟨s.begin, s.size + t.size⟩ :: m) b := by
  obtain ⟨c, hl, rfl, hpos, -, hpos', hm⟩ := tiles_append.mp h
  refine tiles_append.mpr ⟨_, hl, rfl, Nat.add_pos_left hpos _, ?_⟩
  rw [← Nat.add_assoc]
  exact hm

end Segment
