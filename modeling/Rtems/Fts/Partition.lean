import Rtems.Fts.Counter

/-!
# The tolerance counters as a position in the pattern

The counters that are left stand for the rest of the current period of the pattern: a tolerated
fault spends a zero, a protected job spends a one, and the start of a period moves on to the next
partition, or back to full counters.

* `Counting`: the counters of a slot at position `n` of a periodic word;
* **`Counting.spendO`**, **`Counting.spendA`**: one step along the word;
* **`Counting.nextPartition`**, **`Counting.replenish`**: no step;
* **`Counting.of_loop`**: the position after a registration.
-/

namespace Rtems

open Function WeaklyHard TolCounter

namespace TolCounter

/-- Decrement `tol_counter_o[q]`. -/
def spendO (c : TolCounter) (q : ℕ) : TolCounter :=
  { c with tolCounterO := update c.tolCounterO q ((c.tolCounterO q + (2 ^ 16 - 1)) % 2 ^ 16) }

/-- Decrement `tol_counter_a[q]`. -/
def spendA (c : TolCounter) (q : ℕ) : TolCounter :=
  { c with tolCounterA := update c.tolCounterA q ((c.tolCounterA q + (2 ^ 16 - 1)) % 2 ^ 16) }

end TolCounter

namespace Slot

/-- The current `tol_counter_o`. -/
def o (x : Slot) : ℕ := x.tolCounterTemp.tolCounterO x.partitionIndex

/-- The current `tol_counter_a`. -/
def a (x : Slot) : ℕ := x.tolCounterTemp.tolCounterA x.partitionIndex

/-- The bits that the counters stand for, from the current partition on. -/
def remaining (x : Slot) : List Bool :=
  x.tolCounterTemp.word x.partitionIndex (x.nrPartitions + 1 - x.partitionIndex)

/-- The counters of the slot at position `n` of the word `p`, whose period is the pattern. -/
structure Counting (x : Slot) (p : ℕ → Bool) (n : ℕ) : Prop where
  nr_lt : x.nrPartitions < patternPartitions
  index_le : x.partitionIndex ≤ x.nrPartitions
  bounded : Fts.Bounded x.tolCounterConst
  full : x.tolCounterConst.word 0 (x.nrPartitions + 1) = (List.range x.k).map p
  pos : ∀ q, q ≤ x.nrPartitions → 0 < x.tolCounterConst.tolCounterA q
  /-- The later partitions are full. -/
  later : ∀ q, x.partitionIndex < q → q ≤ x.nrPartitions →
    x.tolCounterTemp.tolCounterO q = x.tolCounterConst.tolCounterO q ∧
    x.tolCounterTemp.tolCounterA q = x.tolCounterConst.tolCounterA q
  lt : x.o < 2 ^ 16 ∧ x.a < 2 ^ 16
  /-- Ones are spent after the zeros. -/
  spent : x.a = 0 → x.o = 0
  ahead : Ahead p x.k n x.remaining

section

variable {x : Slot} {p : ℕ → Bool} {n : ℕ}

theorem remaining_eq (h : x.partitionIndex ≤ x.nrPartitions) : x.remaining =
    List.replicate x.o false ++ List.replicate x.a true ++
      x.tolCounterTemp.word (x.partitionIndex + 1) (x.nrPartitions - x.partitionIndex) := by
  rw [remaining, show x.nrPartitions + 1 - x.partitionIndex =
    x.nrPartitions - x.partitionIndex + 1 by omega]
  rfl

namespace Counting

section

variable (h : x.Counting p n)

include h

theorem spend {c : TolCounter} {b : Bool}
    (hlater : ∀ q, x.partitionIndex < q → c.tolCounterO q = x.tolCounterTemp.tolCounterO q ∧ c.tolCounterA q = x.tolCounterTemp.tolCounterA q)
    (hlt : c.tolCounterO x.partitionIndex < 2 ^ 16 ∧ c.tolCounterA x.partitionIndex < 2 ^ 16)
    (hspent : c.tolCounterA x.partitionIndex = 0 → c.tolCounterO x.partitionIndex = 0)
    (hb : List.replicate x.o false ++ List.replicate x.a true = b :: c.block x.partitionIndex) :
    p n = b ∧ { x with tolCounterTemp := c }.Counting p (n + 1) := by
  have hword : c.word (x.partitionIndex + 1) (x.nrPartitions - x.partitionIndex) =
      x.tolCounterTemp.word (x.partitionIndex + 1) (x.nrPartitions - x.partitionIndex) :=
    word_congr fun q h1 _ => by
      rw [block, block, (hlater q (by omega)).1, (hlater q (by omega)).2]
  have hrem : x.remaining = b :: { x with tolCounterTemp := c }.remaining := by
    have hy : { x with tolCounterTemp := c }.remaining = c.block x.partitionIndex ++
        c.word (x.partitionIndex + 1) (x.nrPartitions - x.partitionIndex) := remaining_eq h.index_le
    rw [remaining_eq h.index_le, hb, hy, hword, List.cons_append]
  have hahead := h.ahead
  rw [hrem] at hahead
  refine ⟨hahead.head, h.nr_lt, h.index_le, h.bounded, h.full, h.pos, fun q h1 h2 => ?_, hlt, hspent,
    hahead.tail⟩
  show c.tolCounterO q = _ ∧ c.tolCounterA q = _
  rw [(hlater q h1).1, (hlater q h1).2]
  exact h.later q h1 h2

theorem spendO (ho : 0 < x.o) : p n = false ∧
    { x with tolCounterTemp := x.tolCounterTemp.spendO x.partitionIndex }.Counting p (n + 1) := by
  have hlt := h.lt
  have hdec : (x.tolCounterTemp.spendO x.partitionIndex).tolCounterO x.partitionIndex = x.o - 1 := by
    show update x.tolCounterTemp.tolCounterO x.partitionIndex
      ((x.o + (2 ^ 16 - 1)) % 2 ^ 16) x.partitionIndex = x.o - 1
    rw [update_self]
    omega
  refine h.spend (fun q hq => ⟨update_of_ne (by omega) _ _, rfl⟩)
    ⟨by rw [hdec]; omega, hlt.2⟩ (fun ha => ?_) ?_
  · have := h.spent ha; omega
  · obtain ⟨o, hxo⟩ : ∃ o, x.o = o + 1 := ⟨x.o - 1, by omega⟩
    rw [block, hdec, hxo, Nat.add_sub_cancel, List.replicate_succ]
    rfl

theorem spendA (ho : x.o = 0) (ha : 0 < x.a) : p n = true ∧
    { x with tolCounterTemp := x.tolCounterTemp.spendA x.partitionIndex }.Counting p (n + 1) := by
  have hlt := h.lt
  have hdec : (x.tolCounterTemp.spendA x.partitionIndex).tolCounterA x.partitionIndex = x.a - 1 := by
    show update x.tolCounterTemp.tolCounterA x.partitionIndex
      ((x.a + (2 ^ 16 - 1)) % 2 ^ 16) x.partitionIndex = x.a - 1
    rw [update_self]
    omega
  have hzero : (x.tolCounterTemp.spendA x.partitionIndex).tolCounterO x.partitionIndex = 0 := ho
  refine h.spend (fun q hq => ⟨rfl, update_of_ne (by omega) _ _⟩)
    ⟨hlt.1, by rw [hdec]; omega⟩ (fun _ => ho) ?_
  obtain ⟨a, hxa⟩ : ∃ a, x.a = a + 1 := ⟨x.a - 1, by omega⟩
  rw [block, hdec, hzero, ho, hxa, Nat.add_sub_cancel, List.replicate_succ]
  rfl

theorem nextPartition (ha : x.a = 0) (hne : x.nrPartitions ≠ x.partitionIndex) :
    { x with partitionIndex := x.partitionIndex + 1 }.Counting p n := by
  have hle := h.index_le
  have hnext := h.later (x.partitionIndex + 1) (by omega) (by omega)
  have hbound := h.bounded (x.partitionIndex + 1)
  have hpos := h.pos (x.partitionIndex + 1) (by omega)
  have ho : { x with partitionIndex := x.partitionIndex + 1 }.o =
      x.tolCounterConst.tolCounterO (x.partitionIndex + 1) := hnext.1
  have ha' : { x with partitionIndex := x.partitionIndex + 1 }.a =
      x.tolCounterConst.tolCounterA (x.partitionIndex + 1) := hnext.2
  refine ⟨h.nr_lt, show x.partitionIndex + 1 ≤ x.nrPartitions by omega, h.bounded, h.full, h.pos,
    fun q h1 h2 => h.later q (Nat.lt_of_succ_lt h1) h2, by rw [ho, ha']; exact hbound,
    fun h0 => by omega, ?_⟩
  have hrem : x.remaining = { x with partitionIndex := x.partitionIndex + 1 }.remaining := by
    rw [remaining_eq hle, ha, h.spent ha, remaining,
      show x.nrPartitions + 1 - (x.partitionIndex + 1) = x.nrPartitions - x.partitionIndex by omega]
    rfl
  rw [← hrem]
  exact h.ahead

theorem next_a (hne : x.nrPartitions ≠ x.partitionIndex) :
    x.tolCounterTemp.tolCounterA (x.partitionIndex + 1) ≠ 0 := by
  have hle := h.index_le
  rw [(h.later _ (Nat.lt_succ_self _) (by omega)).2]
  exact (h.pos _ (by omega)).ne'

end

theorem of_full (hnr : x.nrPartitions < patternPartitions) (hb : Fts.Bounded x.tolCounterConst)
    (hfull : x.tolCounterConst.word 0 (x.nrPartitions + 1) = (List.range x.k).map p)
    (hpos : ∀ q, q ≤ x.nrPartitions → 0 < x.tolCounterConst.tolCounterA q)
    (hindex : x.partitionIndex = 0) (htemp : ∀ q, q ≤ x.nrPartitions →
      x.tolCounterTemp.tolCounterO q = x.tolCounterConst.tolCounterO q ∧
      x.tolCounterTemp.tolCounterA q = x.tolCounterConst.tolCounterA q)
    (hn : Ahead p x.k n ((List.range x.k).map p)) : x.Counting p n := by
  have h0 := htemp 0 (Nat.zero_le _)
  have ho : x.o = x.tolCounterConst.tolCounterO 0 := by rw [o, hindex, h0.1]
  have ha : x.a = x.tolCounterConst.tolCounterA 0 := by rw [a, hindex, h0.2]
  refine ⟨hnr, by omega, hb, hfull, hpos, fun q _ h2 => htemp q h2, by rw [ho, ha]; exact hb 0,
    fun h => ?_, ?_⟩
  · have := hpos 0 (Nat.zero_le _); omega
  · have hword : x.tolCounterTemp.word 0 (x.nrPartitions + 1) =
        x.tolCounterConst.word 0 (x.nrPartitions + 1) := word_congr fun q _ h2 => by
      rw [block, block, (htemp q (by omega)).1, (htemp q (by omega)).2]
    rw [remaining, hindex, Nat.sub_zero, hword, hfull]
    exact hn

theorem of_loop {nr : ℕ} {c : TolCounter} (hk : 0 < x.k) (hlt : x.k < 2 ^ 16)
    (hlast : p (x.k - 1) = true)
    (hl : Fts.tolCounterLoop ((List.range x.k).map p) false 0 zero = some (nr, c))
    (hnr : x.nrPartitions = nr) (hconst : x.tolCounterConst = c) (hindex : x.partitionIndex = 0)
    (htemp : ∀ q, q ≤ nr → x.tolCounterTemp.tolCounterO q = c.tolCounterO q ∧
      x.tolCounterTemp.tolCounterA q = c.tolCounterA q) : x.Counting p 0 ∧ x.a ≠ 0 := by
  have hbits : ((List.range x.k).map p).getLast? = some true := by
    obtain ⟨k, e⟩ : ∃ k, x.k = k + 1 := ⟨x.k - 1, by omega⟩
    rw [e, Nat.add_sub_cancel] at hlast
    rw [e, List.range_succ, List.map_append, List.map_singleton, List.getLast?_concat, hlast]
  obtain ⟨hword, hpos⟩ := Fts.tolCounterLoop_word hl (by simpa using hlt) hbits
  subst hnr hconst
  refine ⟨of_full (Fts.tolCounterLoop_lt (by decide) hl) (Fts.Bounded.zero.loop hl) hword hpos hindex
    htemp ⟨by simp, fun y hy => ?_⟩, ?_⟩
  · rw [List.length_map, List.length_range] at hy; simp [hy]
  · rw [a, hindex, (htemp 0 (Nat.zero_le _)).2]; exact (hpos 0 (Nat.zero_le _)).ne'

theorem replenish (h : x.Counting p n) (hp : Function.Periodic p x.k) (ha : x.a = 0)
    (he : x.nrPartitions = x.partitionIndex) {c : TolCounter}
    (hc : ∀ q, q ≤ x.nrPartitions → c.tolCounterO q = x.tolCounterConst.tolCounterO q ∧
      c.tolCounterA q = x.tolCounterConst.tolCounterA q) :
    { x with tolCounterTemp := c, partitionIndex := 0 }.Counting p n := by
  refine of_full h.nr_lt h.bounded h.full h.pos rfl hc ?_
  have hrem : x.remaining = [] := by
    rw [remaining_eq h.index_le, ha, h.spent ha, he, Nat.sub_self]; rfl
  have hahead := h.ahead
  rw [hrem] at hahead
  exact hahead.wrap hp (by simp) fun y hy => by
    rw [List.length_map, List.length_range] at hy
    simp [hy]

end Counting

end

end Slot

end Rtems
