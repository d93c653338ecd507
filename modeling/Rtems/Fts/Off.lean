import Rtems.Fts.Table

/-!
# Signing a task off

`fts_off_t` moves the list down by one from slot `0`, whatever slot the task is in, and it moves
only part of the arrays. So it removes the first task, and only the moved part of the others' data
stays with them.

* `OffExact`: signing off removes exactly the given task;
* **`offExact_iff`**: when signing off is exact.
-/

namespace Rtems

/-- The data of a task that `fts_off_t` does not move. -/
def Slot.unmoved (x : Slot) : PatternType × TaskVersions × TaskUserSpecs × Id × (FtsVersion → Id) ×
    TolCounter × TolCounter × ℕ × ℕ :=
  (x.pattern, { b := x.b, d := x.d, c := x.c }, x.specs, x.periodPointer, x.runningId,
    x.tolCounterConst, x.tolCounterTemp, x.nrPartitions, x.partitionIndex)

namespace Fts

/-- Signing off `id` removes it and leaves the data of every other task. -/
def OffExact (s : Fts) (id : Id) : Prop :=
  ∃ s', s.ftsOff id = some (1, s') ∧ s'.taskInList id = none ∧
    ∀ x j, x ≠ id → s.taskInList x = some j →
      ∃ j', s'.taskInList x = some j' ∧ s'.slot j' = s.slot j

section

variable {s s' : Fts} {id : Id} {i : ℕ}

theorem offLoop_isSome {n i : ℕ} (l : TaskIdList) (h : i + n < pTasks) :
    ∃ l', offLoop n i l = some l' := by
  induction n generalizing i l with
  | zero => exact ⟨l, rfl⟩
  | succ n ih => rw [offLoop, if_pos (by omega)]; exact ih _ (by omega)

theorem ftsOff_eq_some {n : ℕ} (hf : s.taskInList id = some i) (h : s.ftsOff id = some (n, s')) :
    s.list.taskListIndex < pTasks ∧ s'.list.taskListIndex = s.list.taskListIndex - 1 ∧
      ∀ j, j < s.list.taskListIndex → s'.list.taskListId j = s.list.taskListId (j + 1) ∧
        (s'.slot j).unmoved = (s.slot j).unmoved ∧
        ((s.slot j).unmoved = (s.slot (j + 1)).unmoved → s'.slot j = s.slot (j + 1)) := by
  have hi := (taskInList_eq_some hf).1
  simp only [ftsOff, hf, Option.bind_eq_bind, Option.bind_eq_some_iff, Option.some.injEq,
    Prod.mk.injEq] at h
  obtain ⟨l, hl, -, rfl⟩ := h
  obtain ⟨hb, hl⟩ := offLoop_eq_some hl
  refine ⟨by omega, by rw [hl], fun j hj => ?_⟩
  have hc : 0 ≤ j ∧ j < 0 + s.list.taskListIndex := ⟨by omega, by omega⟩
  refine ⟨by rw [hl]; exact if_pos hc, by rw [hl]; rfl, fun hu => ?_⟩
  simp only [Slot.unmoved, slot, Prod.mk.injEq, TaskVersions.mk.injEq] at hu
  rw [hl]
  simp [slot, hj, hu]

theorem not_offExact_of_ne_zero (hf : s.taskInList id = some i) (hi : i ≠ 0) : ¬ s.OffExact id := by
  rintro ⟨s', ho, hgone, -⟩
  obtain ⟨hin, hid⟩ := taskInList_eq_some hf
  obtain ⟨-, hn, hs'⟩ := ftsOff_eq_some hf ho
  refine taskInList_eq_none.mp hgone (i - 1) (by omega) ?_
  rw [(hs' (i - 1) (by omega)).1, Nat.sub_add_cancel (by omega), hid]

/-- **Signing off is exact** if and only if the list is not full, the task is the first, and
neighbours hold the same unmoved data. -/
theorem offExact_iff (hs : s.Reachable) (hf : s.taskInList id = some i) :
    s.OffExact id ↔ s.list.taskListIndex < pTasks ∧ i = 0 ∧
      ∀ j, j + 1 < s.list.taskListIndex → (s.slot j).unmoved = (s.slot (j + 1)).unmoved := by
  have hok := hs.tableOk
  obtain ⟨hin, hid⟩ := taskInList_eq_some hf
  constructor
  · intro he
    have hi : i = 0 := by
      by_contra hi
      exact not_offExact_of_ne_zero hf hi he
    obtain ⟨s', ho, -, hkeep⟩ := he
    obtain ⟨hlt, hn, hs'⟩ := ftsOff_eq_some hf ho
    refine ⟨hlt, hi, fun j hj => ?_⟩
    have hne : s.list.taskListId (j + 1) ≠ id := by
      intro e; have := hok.inj _ _ hj hin (e.trans hid.symm); omega
    obtain ⟨j', hj', hslot⟩ := hkeep _ _ hne (hok.taskInList hj)
    -- the other task is found one slot below its old one
    obtain ⟨hlt', hid'⟩ := taskInList_eq_some hj'
    rw [(hs' j' (by omega)).1] at hid'
    have hjj : j' = j := by have := hok.inj _ _ (by omega) hj hid'; omega
    rw [hjj] at hslot
    rw [← (hs' j (by omega)).2.1, hslot]
  · rintro ⟨hlt, rfl, heq⟩
    obtain ⟨l, hl⟩ := offLoop_isSome (i := 0) (n := s.list.taskListIndex) s.list (by omega)
    obtain ⟨s', ho⟩ : ∃ s', s.ftsOff id = some (1, s') := ⟨_, by simp only [ftsOff, hf, hl]; rfl⟩
    obtain ⟨-, hn, hs'⟩ := ftsOff_eq_some hf ho
    have hok' : s'.TableOk := (step_cases (c := .off id) (by rw [step, ho]; rfl)).tableOk hok
    refine ⟨s', ho, taskInList_eq_none.mpr fun j hj e => ?_, fun x j hx hj => ?_⟩
    · rw [(hs' j (by omega)).1] at e
      have := hok.inj _ _ (by omega) hin (e.trans hid.symm)
      omega
    · obtain ⟨hjn, hjx⟩ := taskInList_eq_some hj
      obtain ⟨j, rfl⟩ : ∃ j', j = j' + 1 := by
        refine ⟨j - 1, ?_⟩
        have : j ≠ 0 := fun e => hx (by rw [← hjx, e, hid])
        omega
      refine ⟨j, ?_, (hs' j (by omega)).2.2 (heq j (by omega))⟩
      rw [← hjx, ← (hs' j (by omega)).1]
      exact hok'.taskInList (by omega)

theorem offExact_single : ∃ s : Fts, s.Reachable ∧ s.taskInList 1 = some 0 ∧ s.OffExact 1 := by
  obtain ⟨s, hr, hs⟩ := Option.map_eq_some_iff.mp
    (show (PartialRun.run step (boot (fun _ => 0) (Objects.initial 0))
      [.register (.oneOfTwo 1 0 .sre)]).map (fun s => (s.taskInList 1, s.list.taskListIndex)) =
        some (some 0, 1) by decide)
  simp only [Prod.mk.injEq] at hs
  have hreach : s.Reachable := ⟨_, _, _, hr⟩
  exact ⟨s, hreach, hs.1, (offExact_iff hreach hs.1).mpr
    ⟨by rw [hs.2]; decide, rfl, fun j hj => by omega⟩⟩

/-- With two registered tasks, signing off the second removes the first. -/
theorem not_offExact_second :
    ∃ s s' : Fts, s.Reachable ∧ s.taskInList 1 = some 0 ∧ s.taskInList 2 = some 1 ∧
      s.ftsOff 2 = some (1, s') ∧ s'.taskInList 1 = none ∧ s'.taskInList 2 = some 0 ∧
      ¬ s.OffExact 2 := by
  obtain ⟨s, hr, hs⟩ := Option.map_eq_some_iff.mp
    (show (PartialRun.run step (boot (fun _ => 0) (Objects.initial 0))
      [.register (.oneOfTwo 1 0 .sre), .register (.oneOfTwo 2 1 .sre)]).map
        (fun s => (s.taskInList 1, s.taskInList 2, (s.ftsOff 2).map
          fun r => (r.1, r.2.taskInList 1, r.2.taskInList 2))) =
        some (some 0, some 1, some (1, none, some 0)) by rfl)
  simp only [Prod.mk.injEq, Option.map_eq_some_iff, Prod.exists] at hs
  obtain ⟨h1, h2, n, s', ho, rfl, h1', h2'⟩ := hs
  exact ⟨s, s', ⟨_, _, _, hr⟩, h1, h2, ho, h1', h2', not_offExact_of_ne_zero h2 (by decide)⟩

end

end Fts

end Rtems
