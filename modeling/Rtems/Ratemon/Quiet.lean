import Rtems.Ratemon.Step
import Rtems.Fts.Table

/-!
# Period calls that start no job

The work for the fault-tolerance manager stands before the checks of the owner and the length in
`rtems_rate_monotonic_period`. A call that is refused, or that only asks for the status, still
deletes the versions of the running job and may replenish the counters.

* `AtRest`: there is nothing to delete and nothing to replenish;
* **`query_unchanged_iff`**: when a call that starts no job changes nothing;
* **`slot_isolated`**: a call for one task keeps the others.
-/

namespace Rtems

open Option

namespace Fts

/-- The same version tasks, running ids, counters and partition indices. -/
structure SameVersions (s s' : Fts) : Prop where
  live : s'.tasks.live = s.tasks.live
  runningId : s'.runningId = s.runningId
  tolCounterConst : s'.tolCounterConst = s.tolCounterConst
  tolCounterTemp : s'.tolCounterTemp = s.tolCounterTemp
  partitionIndex : s'.partitionIndex = s.partitionIndex

/-- Slot `i` has no version and nothing to replenish: it is static, or its partition is not used up,
or full and the only one. -/
def AtRest (s : Fts) (i : ℕ) : Prop :=
  (∀ v, s.runningId v i = 0) ∧
    ((s.list.tech i).dynamic = false ∨ s.a i ≠ 0 ∨
      s.nrPartitions i = 0 ∧ s.partitionIndex i = 0 ∧
        (s.tolCounterConst i).tolCounterO 0 = (s.tolCounterTemp i).tolCounterO 0 ∧
        (s.tolCounterConst i).tolCounterA 0 = (s.tolCounterTemp i).tolCounterA 0)

section

variable {s s' : Fts} {i : ℕ}

theorem replenish_frame (h : s.replenish i = some s') :
    s'.runningId = s.runningId ∧ s'.tasks = s.tasks ∧ s'.tolCounterConst = s.tolCounterConst := by
  unfold replenish at h
  split_ifs at h
  · rw [(tolcUpdate_eq_some.mp h).2]; exact ⟨rfl, rfl, rfl⟩
  all_goals
    cases h
    exact ⟨rfl, rfl, rfl⟩

theorem replenish_same_iff (h : s.replenish i = some s') :
    (s'.tolCounterTemp = s.tolCounterTemp ∧ s'.partitionIndex = s.partitionIndex) ↔
      (s.list.tech i).dynamic = false ∨ s.a i ≠ 0 ∨ s.nrPartitions i = 0 ∧ s.partitionIndex i = 0 ∧
          (s.tolCounterConst i).tolCounterO 0 = (s.tolCounterTemp i).tolCounterO 0 ∧
          (s.tolCounterConst i).tolCounterA 0 = (s.tolCounterTemp i).tolCounterA 0 := by
  unfold replenish at h
  by_cases ht : (s.list.tech i).dynamic = true
  · rw [if_pos ht, ite_none_right_eq_some] at h
    obtain ⟨-, h⟩ := h
    by_cases ha : s.a i = 0
    · simp only [ht, ha, Bool.true_eq_false, ne_eq, not_true_eq_false, false_or]
      split_ifs at h with hn
      · obtain ⟨-, rfl⟩ := tolcUpdate_eq_some.mp h
        simp only [Function.update_eq_self_iff]
        constructor
        · rintro ⟨htemp, hidx⟩
          have hnr : s.nrPartitions i = 0 := hn.1.trans hidx.symm
          refine ⟨hnr, hidx.symm, ?_, ?_⟩
          · exact congrFun (congrArg TolCounter.tolCounterO htemp) 0
          · exact congrFun (congrArg TolCounter.tolCounterA htemp) 0
        · rintro ⟨hnr, hidx, ho, ha'⟩
          refine ⟨?_, hidx.symm⟩
          -- only the counters of partition `0` are copied
          rw [hnr]
          have hO : (fun j => if j ≤ 0 then (s.tolCounterConst i).tolCounterO j
              else (s.tolCounterTemp i).tolCounterO j) = (s.tolCounterTemp i).tolCounterO := by
            funext j
            split_ifs with hj
            · rw [Nat.le_zero.mp hj, ho]
            · rfl
          have hA : (fun j => if j ≤ 0 then (s.tolCounterConst i).tolCounterA j
              else (s.tolCounterTemp i).tolCounterA j) = (s.tolCounterTemp i).tolCounterA := by
            funext j
            split_ifs with hj
            · rw [Nat.le_zero.mp hj, ha']
            · rfl
          rw [hO, hA]
      · cases h
        constructor
        · rintro ⟨-, hidx⟩
          have := congrFun hidx i
          simp only [Function.update_self] at this
          omega
        · rintro ⟨hnr, hidx, -, -⟩
          have he : s.nrPartitions i = s.partitionIndex i := hnr.trans hidx.symm
          refine absurd ⟨he, ?_⟩ hn
          rw [he]
          exact ha
    · rw [if_neg ha] at h; cases h; exact ⟨fun _ => .inr (.inl ha), fun _ => ⟨rfl, rfl⟩⟩
  · rw [if_neg ht] at h; cases h; exact ⟨fun _ => .inl (by simpa using ht), fun _ => ⟨rfl, rfl⟩⟩

theorem periodBegin_same_iff {id : Id} (hf : s.taskInList id = some i)
    (h : s.periodBegin id = some s') : s.SameVersions s' ↔ s.AtRest i := by
  simp only [periodBegin, hf, ite_none_right_eq_some] at h
  obtain ⟨-, h⟩ := h
  by_cases hz : ∀ v, s.runningId v i = 0
  · rw [deleteVersions_of_zero hz] at h
    obtain ⟨h1, h2, h3⟩ := replenish_frame h
    have hiff := replenish_same_iff h
    constructor
    · intro hs; exact ⟨hz, hiff.mp ⟨hs.tolCounterTemp, hs.partitionIndex⟩⟩
    · rintro ⟨-, hr⟩; obtain ⟨h4, h5⟩ := hiff.mpr hr; exact ⟨by rw [h2], h1, h3, h4, h5⟩
  · refine ⟨fun hs => absurd (fun v => ?_) hz, fun hr => absurd hr.1 hz⟩
    rw [← hs.runningId, (replenish_frame h).1, deleteVersions_runningId, if_pos rfl]

end

end Fts

namespace Sys

/-- No version is deleted; ids, counters, cursors and control blocks are kept. -/
structure Unchanged (s s' : Sys) : Prop where
  versions : s.fts.SameVersions s'.fts
  periods : s'.periods = s.periods

section

variable {s s' : Sys} {t : Thread} {id : Id} {length : ℕ} {status : StatusCode}

/-- What a call does that is not by the owner, or asks for the status. -/
theorem query_cases (h : s.rtemsRateMonotonicPeriod t id length = some (status, s'))
    (hq : status = .notOwnerOfResource ∨ length = 0) :
    s.periods.live id = none ∧ s' = s ∨
      (s.periods.live id).isSome ∧ ∃ fts, s.fts.periodBegin id = some fts ∧
        s' = { s with fts := fts } := by
  unfold rtemsRateMonotonicPeriod at h
  split at h
  · next hl =>
    cases h; exact .inl ⟨hl, rfl⟩
  · next p hl =>
    simp only [bind_eq_bind, bind_eq_some_iff] at h
    obtain ⟨fts, hb, h⟩ := h
    refine .inr ⟨by rw [hl]; rfl, fts, hb, ?_⟩
    by_cases ht : t ≠ p.owner
    · rw [if_pos ht] at h; cases h; rfl
    rw [if_neg ht] at h
    by_cases h0 : length = 0
    · rw [if_pos h0] at h; cases h; rfl
    -- the branches that start a job return another status
    rw [if_neg h0] at h
    split at h
    · split_ifs at h <;> cases h <;> simp [h0] at hq
    · cases h; simp [h0] at hq
    · cases h; simp [h0] at hq

/-- **A call that starts no job changes nothing** if and only if the id names no period, is not
registered, or its slot is at rest. -/
theorem query_unchanged_iff (h : s.rtemsRateMonotonicPeriod t id length = some (status, s'))
    (hq : status = .notOwnerOfResource ∨ length = 0) :
    s.Unchanged s' ↔
      s.periods.live id = none ∨ ∀ i, s.fts.taskInList id = some i → s.fts.AtRest i := by
  rcases query_cases h hq with ⟨hl, rfl⟩ | ⟨hl, fts, hb, rfl⟩
  · exact ⟨fun _ => .inl hl, fun _ => ⟨⟨rfl, rfl, rfl, rfl, rfl⟩, rfl⟩⟩
  · have hne : s.periods.live id ≠ none := isSome_iff_ne_none.mp hl
    cases hf : s.fts.taskInList id with
    | none =>
      simp only [Fts.periodBegin, hf] at hb
      cases hb
      exact ⟨fun _ => .inr (by simp), fun _ => ⟨⟨rfl, rfl, rfl, rfl, rfl⟩, rfl⟩⟩
    | some i =>
      have hiff := Fts.periodBegin_same_iff hf hb
      constructor
      · rintro ⟨hv, -⟩
        refine .inr fun j hj => ?_
        cases hj
        exact hiff.mp hv
      · rintro (hn | hr)
        · exact absurd hn hne
        · exact ⟨hiff.mpr (hr i rfl), rfl⟩

theorem query_unchanged_created : ∃ s s' : Sys, s.Reachable ∧
    s.rtemsRateMonotonicPeriod 1 1 0 = some (.notDefined, s') ∧ s.Unchanged s' := by
  obtain ⟨s, hr, hs⟩ := map_eq_some_iff.mp (show (PartialRun.run step (initial 4 4)
      [.createFts 1 (.oneOfTwo 0 .dre) default]).map (fun s =>
        ((s.rtemsRateMonotonicPeriod 1 1 0).map Prod.fst, s.fts.taskInList 1,
          s.fts.runningId .basic 0, s.fts.runningId .detection 0, s.fts.runningId .correction 0,
          s.fts.a 0)) = some (some .notDefined, some 0, 0, 0, 0, 1) by rfl)
  simp only [Prod.mk.injEq, map_eq_some_iff] at hs
  obtain ⟨⟨r, hp, hr1⟩, hf, hb, hd, hc, ha⟩ := hs
  have hp' : s.rtemsRateMonotonicPeriod 1 1 0 = some (.notDefined, r.2) := by rw [hp, ← hr1]
  refine ⟨s, r.2, ⟨_, _, initial_boot 4 4, hr⟩, hp',
    (query_unchanged_iff hp' (.inr rfl)).mpr (.inr fun i hi => ?_)⟩
  rw [hf] at hi
  cases hi
  refine ⟨fun v => ?_, .inr (.inl (by rw [ha]; decide))⟩
  cases v
  · exact hb
  · exact hd
  · exact hc

/-- A call by another thread than the owner deletes the running version. -/
theorem query_deletes_version : ∃ s s' : Sys, s.Reachable ∧
    s.rtemsRateMonotonicPeriod 2 1 5 = some (.notOwnerOfResource, s') ∧
    s.fts.runningId .basic 0 = 1 ∧ (s.fts.tasks.live 1).isSome ∧
    s'.fts.runningId .basic 0 = 0 ∧ (s'.fts.tasks.live 1).isNone ∧ ¬ s.Unchanged s' := by
  obtain ⟨s, hr, hs⟩ := map_eq_some_iff.mp (show (PartialRun.run step (initial 4 4)
      [.createFts 1 (.oneOfTwo 0 .sre) default, .period 1 1 5, .compensate 1 .granted]).map
        (fun s => ((s.rtemsRateMonotonicPeriod 2 1 5).map fun r =>
          (r.1, r.2.fts.runningId .basic 0, (r.2.fts.tasks.live 1).isNone),
          s.fts.runningId .basic 0, (s.fts.tasks.live 1).isSome)) =
      some (some (.notOwnerOfResource, 0, true), 1, true) by rfl)
  simp only [Prod.mk.injEq, map_eq_some_iff, Prod.exists] at hs
  obtain ⟨⟨status, s', hp, rfl, h0, hn⟩, h1, hl⟩ := hs
  refine ⟨s, s', ⟨_, _, initial_boot 4 4, hr⟩, hp, h1, hl, h0, hn, fun hu => ?_⟩
  have := congrFun (congrFun hu.versions.runningId .basic) 0
  rw [h0, h1] at this
  cases this

end

end Sys

/-! ## Isolation -/

/-- The call is about another id than `id`, and signs none off. -/
def Fts.elsewhere (s : Fts) (id : Id) : Call → Bool
  | .off _ => false
  | c => s.about c != some id

namespace Sys

open PartialRun

/-- **A protected task is isolated**: no action that is elsewhere changes its slot. -/
theorem slot_isolated {s₀ s : Sys} {as : List Action} {id : Id} {i : ℕ} (h₀ : s₀.Reachable)
    (hf : s₀.fts.taskInList id = some i)
    (hG : Along step (fun s a => ∀ c, s.ftsCall a = some c → s.fts.elsewhere id c = true) s₀ as)
    (h : run step s₀ as = some s) :
    s.fts.taskInList id = some i ∧ s.fts.slot i = s₀.fts.slot i := by
  refine (fts_invariant_along (P := fun f => f.TableOk ∧ f.taskInList id = some i ∧
    f.slot i = s₀.fts.slot i) (G := fun f c => f.elsewhere id c = true) ?_
    ⟨h₀.fts.tableOk, hf, rfl⟩ hG h).2
  rintro f c f' ⟨hok, hf, hslot⟩ hc hstep
  have hoff : ∀ x, c ≠ .off x := by rintro x rfl; cases hc
  have hne : f.about c ≠ some id := by
    cases c with
    | off x => cases hc
    | _ => exact bne_iff_ne.mp hc
  obtain ⟨hi, hid⟩ := Fts.taskInList_eq_some hf
  exact ⟨hstep.tableOk hok, hstep.taskInList_of_some hok hoff hf,
    (hstep.slot_of_ne hi hoff (by rwa [hid])).trans hslot⟩

/-- A second task has a job, and another technique. -/
def secondTask : List Action :=
  [.createFts 2 (.oneOfTwo 1 .sre) default, .period 2 2 5, .compensate 2 .granted,
    .call (.changeTech 2 .sdr)]

theorem slot_isolated_second : ∃ s₀ s : Sys, run step s₀ secondTask = some s ∧
    s.fts.slot 0 = s₀.fts.slot 0 := by
  obtain ⟨s₀, hr, hf, hcheck, hrun⟩ := exists_of_any
    (o := run step (initial 4 4) [.createFts 1 (.oneOfTwo 0 .dre) default])
    (P := fun s => s.fts.taskInList 1 = some 0 ∧ check step (fun s a => (s.ftsCall a).all
      (s.fts.elsewhere 1)) s secondTask ∧ (run step s secondTask).isSome) (by decide +kernel)
  obtain ⟨s, hs⟩ := isSome_iff_exists.mp hrun
  exact ⟨s₀, s, hs, (slot_isolated ⟨_, _, initial_boot 4 4, hr⟩ hf
    (along_of_check step (fun s a h c hc => by rw [hc] at h; exact h) hcheck) hs).2⟩

end Sys

end Rtems
