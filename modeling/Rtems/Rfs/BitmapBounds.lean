import Rtems.Rfs.BitmapAlloc

/-!
# The arrays of a bitmap

What `rtems-rfs-bitmaps.c` reads and writes of the map and of the search map.

* `Valid.mapSetAll`, `Valid.mapClearAll`: all bits are set or cleared;
* **`inside_arrays`**: for sizes and seeds that fit, every access is in its array.
-/

namespace Rtems.Rfs.BitmapControl

open PartialRun List Option Element

variable {c : BitmapControl}

theorem fill_spec (v : Element) (xs : List Element) {n : ℕ} (hn : n ≤ xs.length) :
    ∃ ys, v.fill xs n = some ys ∧ ys.length = xs.length ∧ ∀ i < n, ys[i]? = some v := by
  induction n with
  | zero => exact ⟨xs, rfl, rfl, fun i hi => absurd hi (Nat.not_lt_zero i)⟩
  | succ n ih =>
    obtain ⟨ys, hys, hlength, hv⟩ := ih (by omega)
    have hlt : n < ys.length := by omega
    refine ⟨ys.set n v, ?_, length_set.trans hlength, fun i hi => ?_⟩
    · rw [fill, hys]; exact update_of_lt hlt
    · by_cases h : i = n
      · rw [h, getElem?_set_self hlt]
      · rw [getElem?_set_ne (Ne.symm h)]; exact hv i (by omega)

section

variable (h : c.Valid) (hpos : 1 ≤ c.size)

include h hpos

theorem Valid.mapSetAll : ∃ c', c.mapSetAll = some c' ∧ c'.Valid ∧ c'.size = c.size := by
  have hmap := h.map
  have hsearch := h.search
  obtain ⟨map, hm, hml, hset⟩ := fill_spec allSet c.map (n := bitmapElements c.size)
    (by unfold bitmapElements; omega)
  obtain ⟨search, hs, hsl, -⟩ := fill_spec allSet c.searchBits
    (n := bitmapElements (bitmapElements c.size)) (by unfold bitmapElements; omega)
  unfold BitmapControl.mapSetAll
  dsimp only
  rw [hm, hs]
  refine ⟨_, rfl, ⟨hml ▸ hmap, hsl ▸ hsearch, fun b hb hlt hclear => ?_⟩, rfl⟩
  dsimp only at hlt
  have hbit := bitOf_of_getElem? hb (hset (b / 32).toNat (by unfold bitmapElements; omega))
  rw [show bitOf map b = true from hclear] at hbit
  simp [allSet] at hbit

theorem Valid.mapClearAll : ∃ c', c.mapClearAll = some c' ∧ c'.Valid ∧ c'.size = c.size := by
  have hmap := h.map
  have hsearch := h.search
  obtain ⟨map, hm, hml, -⟩ := fill_spec allClear c.map (n := bitmapElements c.size)
    (by unfold bitmapElements; omega)
  have hl : bitmapElements (bitmapElements c.size) - 1 = (c.size - 1) / 1024 := by
    unfold bitmapElements; omega
  obtain ⟨search, hs, hsl, hclear⟩ := fill_spec allClear c.searchBits
    (n := (c.size - 1) / 1024) (by omega)
  have hlast : (c.size - 1) / 1024 < search.length := by omega
  unfold BitmapControl.mapClearAll
  dsimp only
  rw [hm, bind_some, hl, hs, bind_some, update_of_lt hlast]
  refine ⟨_, rfl, ⟨hml ▸ hmap, ?_, fun b hb hlt _ => ?_⟩, rfl⟩
  · rw [length_set, hsl]; exact hsearch
  dsimp only at hlt ⊢
  by_cases hb' : (b / 32 / 32).toNat = (c.size - 1) / 1024
  · rw [bitOf_of_getElem? (by omega) (by rw [hb', getElem?_set_self hlast])]
    have hoffset : (b / 32 % 32).toNat < if bitmapElements c.size % 32 = 0 then 32
        else bitmapElements c.size % 32 := by
      unfold bitmapElements; split_ifs <;> omega
    simp [-BitVec.reduceAllOnes, Element.merge, allClear, allSet, mask]
    omega
  · rw [bitOf_of_getElem? (by omega) ((getElem?_set_ne (Ne.symm hb')).trans (hclear _ (by omega))),
      allClear, BitVec.getLsbD_allOnes, decide_eq_true_eq]
    exact toNat_mod_lt _

end

/-- A call of one of the functions; a call that fails leaves the bitmap as it is. -/
inductive BitmapCommand
  | operation (op : BitmapOperation)
  | setAll
  | clearAll
  deriving DecidableEq

def command (c : BitmapControl) : BitmapCommand → Option BitmapControl
  | .operation op => c.step op
  | .setAll => c.mapSetAll
  | .clearAll => c.mapClearAll

/-- **Every access is in its array** for sizes and seeds that fit. -/
theorem inside_arrays (size : ℕ) (map : List Element) (memory : ℕ → Element)
    (cs : List BitmapCommand) (hpos : 1 ≤ size) (hmap : map.length = bitmapElements size)
    (hsize : SizeFits size) (hcs : ∀ op, .operation op ∈ cs → Seeded size op) :
    ((bitmapOpen size map memory).bind fun c => run command c cs).isSome = true := by
  obtain ⟨c₀, hopen, hvalid₀, hsize₀, -⟩ := bitmapOpen_spec memory hpos
    (by rw [hmap]; unfold bitmapElements; omega) hsize
  rw [hopen, bind_some]
  subst hsize₀
  clear hopen hmap
  induction cs generalizing c₀ with
  | nil => rfl
  | cons a cs ih =>
    obtain ⟨c, hc, hvalid, hsame⟩ : ∃ c, command c₀ a = some c ∧ c.Valid ∧ c.size = c₀.size := by
      cases a with
      | operation op => exact hvalid₀.step hsize (hcs op mem_cons_self)
      | setAll => exact hvalid₀.mapSetAll hpos
      | clearAll => exact hvalid₀.mapClearAll hpos
    rw [run_cons, hc]
    rw [← hsame] at hpos hsize hcs
    exact ih c hvalid hpos hsize fun op hop => hcs op (mem_cons_of_mem a hop)

theorem inside_arrays_forty : ((bitmapOpen 40 [0, 1] fun _ => 0).bind fun c =>
    run command c [.operation (.alloc 39), .clearAll, .operation (.set 7), .setAll]).isSome = true :=
  inside_arrays 40 [0, 1] (fun _ => 0) _ (by decide) (by decide) (by decide) fun op hop => by
    simp at hop; rcases hop with rfl | rfl <;> decide

/-- The search map is written behind its end, or read there. -/
theorem not_inside_arrays : (bitmapOpen 1024 (replicate 32 0) fun _ => 0) = none ∧
    ∃ c, (bitmapOpen 33 [0, 0] fun _ => 0) = some c ∧ c.command (.operation (.alloc 0)) = none := by
  exact ⟨by decide +kernel, exists_of_any (by decide +kernel)⟩

end Rtems.Rfs.BitmapControl
