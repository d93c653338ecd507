import Rtems.Fts.Track
import Rtems.Ratemon.Versions

/-!
# The `(m, k)` constraint of released jobs

* `Reported`: the detection versions of a period report before its owner calls again;
* `TrackOk`, **`Step.trackOk`**: a thread is armed only for a ready period, and the jobs stay on
  track;
* **`dynamic_windows`**: dynamic compensation keeps the `(m, k)` constraint;
* **`switch_windows`**: so does a change of the technique among the static or among the dynamic
  ones; **`switch_fails`**: others do not.
-/

namespace Rtems

open PartialRun

namespace Fts

variable {s s' : Fts} {c : Call} {id : Id} {i : ℕ}

theorem Step.tech_of_found (h : Step s c s') (hoff : ∀ x, c ≠ .off x)
    (htech : ∀ tech, c ≠ .changeTech id tech) (hf : s.taskInList id = some i) :
    s'.list.tech i = s.list.tech i := by
  obtain ⟨hi, he⟩ := taskInList_eq_some hf
  by_cases hne : s.about c = some id
  swap
  · exact congrArg Slot.tech (h.slot_of_ne hi hoff (by rw [he]; exact hne))
  by_cases hreg : ∃ r, c = .register r
  · -- a registered id is refused
    obtain ⟨r, rfl⟩ := hreg
    cases h with
    | idle => rfl
    | registered _ hn _ _ _ => rw [Option.some.inj hne, hf] at hn; cases hn
  · refine congrFun (h.tech_eq hoff (fun r e => hreg ⟨r, e⟩) fun x tech e => ?_) i
    rw [e] at hne
    cases hne
    exact htech tech e

end Fts

namespace Sys

variable {s s' : Sys} {a : Action} {id : Id} {i : ℕ}

/-- When the owner of `id` calls for the next job, all versions have reported. -/
def Reported (id : Id) (s : Sys) (a : Action) : Prop :=
  ∀ p length, s.periods.live id = some p → a = .period p.owner id length → length ≠ 0 →
    s.fts.Settled id

/-- A call of the fault-tolerance manager is careful with `id`. -/
def Careful (id : Id) (s : Sys) (a : Action) : Prop := ∀ c, s.ftsCall a = some c → s.fts.Careful id c

/-- The jobs of `id` are on track, and it is ready when a thread is armed. -/
structure TrackOk (s : Sys) (id : Id) : Prop where
  versions : s.VersionsOk
  fts : s.fts.TrackOk id
  ready : ∀ t, (s.threads t).Armed id → s.fts.Ready id

theorem Step.regular (h : Step s a s') (hs : s.TrackOk id) (ho : s.Orderly a)
    (hcare : Careful id s a) {c : Call} (hc : s.ftsCall a = some c) : Fts.Regular id s.fts c where
  toCareful := hcare c hc
  off := ho.not_off hc
  idle caller x g e := by
    obtain ⟨t, hA, -⟩ := h.compensates hs.versions.threads (hc.trans (congrArg some e)) (ho.2.1 _ _ _)
    exact (hs.versions.armed t x hA).2
  ready caller g e := by
    obtain ⟨t, hA, -⟩ := h.compensates hs.versions.threads (hc.trans (congrArg some e)) (ho.2.1 _ _ _)
    exact hs.ready t hA

theorem Step.trackOk (h : Step s a s') (hs : s.TrackOk id) (ho : s.Orderly a) (hr : Reported id s a)
    (hcare : Careful id s a) : s'.TrackOk id := by
  refine ⟨h.versionsOk hs.versions ho, ?_, fun t hA => ?_⟩
  · rcases h.fts_cases with e | ⟨c, hc, hstep⟩
    · rw [e]; exact hs.fts
    · exact hstep.trackOk hs.fts (h.regular hs ho hcare hc)
  · rcases h.armed hA with hA0 | ⟨⟨p, hl, rfl⟩, ⟨length, rfl, h0⟩, hb⟩
    · rcases h.fts_cases with e | ⟨c, hc, hstep⟩
      · rw [e]; exact hs.ready t hA0
      · exact hstep.ready hs.fts (h.regular hs ho hcare hc) (hs.versions.armed t id hA0).2
          (hs.ready t hA0) (h.not_compensate hs.versions ho hA0 hA hc)
    · -- the call that arms the thread finds all jobs reported
      exact (Fts.step_cases (c := .periodBegin id) hb).ready_of_periodBegin hs.fts
        (hr p length hl rfl h0)

theorem Boot.trackOk (h : Boot s) (id : Id) : s.TrackOk id where
  versions := h.versionsOk
  fts := by
    rw [h.fts]; exact Fts.boot_trackOk h.tasks id
  ready t hA := by
    rw [h.threads t] at hA
    rcases hA with hA | hA <;> cases hA

theorem ftsCall_eq_changeTech {tech : FtsTech} (h : s.ftsCall a = some (.changeTech id tech)) :
    a = .call (.changeTech id tech) := by
  cases a with
  | call c => cases h; rfl
  | compensate t g =>
    simp only [ftsCall] at h
    split at h <;> cases h
  | _ => simp [ftsCall, Option.bind_eq_some_iff] at h

/-- A test for orderly steps in which the versions of `id` report in time. -/
def inTime (id : Id) (s : Sys) : Action → Bool
  | .period _ x _ => x != id || decide (s.fts.Settled id)
  | .call (.off _) => false
  | .call (.compensate _ _ _) => false
  | .delete _ => false
  | _ => true

theorem inTime_spec (h : inTime id s a = true) : s.Orderly a ∧ Reported id s a := by
  refine ⟨⟨?_, ?_, ?_⟩, ?_⟩
  · rintro x rfl; cases h
  · rintro caller x g rfl; cases h
  · rintro x rfl; cases h
  · rintro p length - rfl -; simpa [inTime] using h

def careful (id : Id) (s : Sys) : Action → Bool
  | .createFts _ _ _ => (s.fts.taskInList id).isNone
  | .call (.register _) => (s.fts.taskInList id).isNone
  | .call (.changeTech x tech) => x != id || decide (s.fts.Settled id) &&
      (s.fts.taskInList id).all fun i => decide ((s.fts.slot i).tech.Alike tech)
  | _ => true

theorem careful_spec (h : careful id s a = true) : Careful id s a := by
  intro c hc
  refine ⟨fun tech e i hf => ?_, fun r e i hf => ?_⟩
  · rw [ftsCall_eq_changeTech (hc.trans (congrArg some e))] at h
    simp only [careful, bne_self_eq_false, hf, Option.all_some, Bool.false_or, Bool.and_eq_true,
      decide_eq_true_eq] at h
    exact ⟨h.2, fun _ _ => h.1⟩
  · -- nothing is registered while `id` is
    exfalso
    subst e
    cases a with
    | createFts t c old => simp [careful, hf] at h
    | call c => cases hc; simp [careful, hf] at h
    | compensate t g =>
      simp only [ftsCall] at hc
      split at hc <;> cases hc
    | _ => simp [ftsCall, Option.bind_eq_some_iff] at hc

/-! ## Changes of the technique -/

/-- **A change within the static or dynamic techniques keeps the `(m, k)` constraint**, and
decrements no counter at zero. -/
theorem switch_windows {s₀ : Sys} (h₀ : Boot s₀) {as : List Action}
    (hg : Along step (fun s a => s.Orderly a ∧ Reported id s a ∧ Careful id s a) s₀ as)
    (h : run step s₀ as = some s) (hf : s.fts.taskInList id = some i)
    (hx : (s.fts.slot i).Exact) (ht : (s.fts.slot i).tech ≠ .none) :
    (∀ window, window <:+: jobs id s.fts.log → (∀ j ∈ window, j.settled = true) →
      window.length = (s.fts.slot i).k → (s.fts.slot i).m ≤ window.countP Job.correct) ∧
    ∀ n, .decremented id n ∈ history id s.fts.log → 0 < n := by
  have hok := run_invariant_along step
    (fun _ _ _ hs hg h => (step_cases h).trackOk hs hg.1 hg.2.1 hg.2.2) (h₀.trackOk id) hg h
  have htracked := hok.fts.tracked i hf hx ht
  exact ⟨fun window hw hj hl => htracked.windows hx hw hj hl, htracked.decs⟩

theorem switch_windows_sre : ∃ s : Sys, run step (initial 4 4)
      (twoJobs .sdr [.call (.changeTech 1 .sre)]) = some s ∧
    jobs 1 s.fts.log = [.start .correction, .start .basic] ∧
    1 ≤ (jobs 1 s.fts.log).countP Job.correct ∧
    ∀ n, .decremented 1 n ∈ history 1 s.fts.log → 0 < n := by
  refine exists_imp_of_any (P := fun s => s.fts.taskInList 1 = some 0 ∧ (s.fts.slot 0).Exact ∧
    (s.fts.slot 0).tech ≠ .none ∧ (s.fts.slot 0).m = 1 ∧ (s.fts.slot 0).k = 2 ∧
    jobs 1 s.fts.log = [.start .correction, .start .basic]) (by decide +kernel) ?_
  intro s hr ⟨hf, hx, ht, hm, hk, hj⟩
  obtain ⟨hwin, hdecs⟩ := switch_windows (initial_boot 4 4)
    (along_of_check step (fun s a h => by
      rw [Bool.and_eq_true] at h
      exact ⟨(inTime_spec h.1).1, (inTime_spec h.1).2, careful_spec h.2⟩) (by decide +kernel))
    hr hf hx ht
  rw [hm, hk] at hwin
  exact ⟨hj, hwin _ List.infix_rfl (by rw [hj]; decide) (by rw [hj]; rfl), hdecs⟩

/-- **`DRE` to `SRE` loses two jobs in a row**, and `SRE` to `DRE` a counter. -/
theorem switch_fails : (∃ s, Along step (fun s a => s.Orderly a ∧ Reported 1 s a) (initial 4 4)
        (twoJobs .dre [.call (.report 1 .fault .granted), .call (.changeTech 1 .sre)]) ∧
      run step (initial 4 4)
        (twoJobs .dre [.call (.report 1 .fault .granted), .call (.changeTech 1 .sre)]) = some s ∧
      (s.fts.slot 0).Exact ∧ (s.fts.slot 0).m = 1 ∧ (s.fts.slot 0).k = 2 ∧
      s.fts.Settled 1 ∧ (jobs 1 s.fts.log).length = 2 ∧ (jobs 1 s.fts.log).countP Job.correct = 0) ∧
    ∃ s, run step (initial 4 4)
        [.createFts 1 (.oneOfTwo 0 .sre) default, .call (.changeTech 1 .dre), .period 1 1 5,
          .compensate 1 .granted] = some s ∧
      .decremented 1 0 ∈ history 1 s.fts.log ∧ s.fts.a 0 = 65535 := by
  refine ⟨(exists_of_any (by decide +kernel)).imp fun s hs => ⟨?_, hs⟩,
    exists_of_any (by decide +kernel)⟩
  exact along_of_check step (fun _ _ => inTime_spec) (by decide +kernel)

/-! ## Dynamic compensation -/

/-- The technique of `id` is not changed. -/
def KeepsTech (id : Id) (a : Action) : Prop := ∀ tech, a ≠ .call (.changeTech id tech)

def keepsTech (id : Id) : Action → Bool
  | .call (.changeTech x _) => x != id
  | _ => true

theorem keepsTech_spec (h : keepsTech id a = true) : KeepsTech id a := by
  rintro tech rfl; simp [keepsTech] at h

/-- The jobs of `id` are on track, unless its technique is not dynamic. -/
structure DynamicOk (s : Sys) (id : Id) : Prop where
  table : s.fts.TableOk
  track : (∃ i, s.fts.taskInList id = some i ∧ (s.fts.list.tech i).dynamic = false) ∨ s.TrackOk id

theorem Step.dynamicOk (h : Step s a s') (hs : s.DynamicOk id) (ho : s.Orderly a)
    (hr : Reported id s a) (hk : KeepsTech id a) : s'.DynamicOk id := by
  refine ⟨?_, ?_⟩
  · rcases h.fts_cases with e | ⟨c, hc, hstep⟩
    · rw [e]; exact hs.table
    · exact hstep.tableOk hs.table
  have htech : ∀ {c}, s.ftsCall a = some c → ∀ tech, c ≠ .changeTech id tech := fun hc tech e =>
    hk tech (ftsCall_eq_changeTech (e ▸ hc))
  by_cases hst : ∃ i, s.fts.taskInList id = some i ∧ (s.fts.list.tech i).dynamic = false
  · -- a technique that is not dynamic stays
    refine .inl ?_
    obtain ⟨i, hf, hd⟩ := hst
    rcases h.fts_cases with e | ⟨c, hc, hstep⟩
    · exact ⟨i, by rw [e]; exact hf, by rw [e]; exact hd⟩
    · exact ⟨i, hstep.taskInList_of_some hs.table (ho.not_off hc) hf,
        by rw [hstep.tech_of_found (ho.not_off hc) (htech hc) hf]; exact hd⟩
  · -- no pattern of `id` is walked
    refine .inr (h.trackOk (hs.track.resolve_left hst) ho hr fun c hc =>
      ⟨fun tech e => absurd e (htech hc tech), fun r _ i hf hstatic => absurd ⟨i, hf, ?_⟩ hst⟩)
    show (s.fts.slot i).tech.dynamic = false
    rcases hstatic with e | e <;> rw [e] <;> rfl

/-- **Dynamic compensation keeps the `(m, k)` constraint** with reports in time. -/
theorem dynamic_windows {s₀ : Sys} (h₀ : Boot s₀) {as : List Action}
    (hg : Along step (fun s a => s.Orderly a ∧ Reported id s a ∧ KeepsTech id a) s₀ as)
    (h : run step s₀ as = some s) (hf : s.fts.taskInList id = some i)
    (hx : (s.fts.slot i).Exact) (hd : (s.fts.slot i).tech.dynamic = true) {window : List Job}
    (hw : window <:+: jobs id s.fts.log) (hj : ∀ j ∈ window, j.settled = true)
    (hl : window.length = (s.fts.slot i).k) : (s.fts.slot i).m ≤ window.countP Job.correct := by
  have hboot := h₀.trackOk id
  obtain ⟨-, ⟨j, hf', hst⟩ | hok⟩ := run_invariant_along step
    (fun _ _ _ hs hg h => (step_cases h).dynamicOk hs hg.1 hg.2.1 hg.2.2)
    ⟨hboot.versions.fts.table, .inr hboot⟩ hg h
  · rw [hf] at hf'
    cases hf'
    rw [show s.fts.list.tech i = (s.fts.slot i).tech from rfl, hd] at hst
    cases hst
  · refine (hok.fts.tracked i hf hx fun e => ?_).windows hx hw hj hl; rw [e] at hd; cases hd

theorem dynamic_windows_twice : ∃ s : Sys, run step (initial 4 4)
      (twoJobs .ddr [.call (.report 1 .fault .granted)] ++ [.call (.report 2 .fault .granted)]) =
        some s ∧
    (jobs 1 s.fts.log).map Job.recovered = [true, false] ∧
    1 ≤ (jobs 1 s.fts.log).countP Job.correct := by
  refine exists_imp_of_any (P := fun s => s.fts.taskInList 1 = some 0 ∧ (s.fts.slot 0).Exact ∧
    (s.fts.slot 0).tech.dynamic = true ∧ (s.fts.slot 0).m = 1 ∧ (s.fts.slot 0).k = 2 ∧
    (jobs 1 s.fts.log).map Job.recovered = [true, false] ∧ s.fts.Settled 1) (by decide +kernel) ?_
  intro s hr ⟨hf, hx, hd, hm, hk, hj, hsettled⟩
  have hwin := dynamic_windows (initial_boot 4 4)
    (along_of_check step (fun s a h => by
      rw [Bool.and_eq_true] at h
      exact ⟨(inTime_spec h.1).1, (inTime_spec h.1).2, keepsTech_spec h.2⟩) (by decide +kernel))
    hr hf hx hd List.infix_rfl hsettled (by
      rw [hk, ← List.length_map, hj]
      rfl)
  rw [hm] at hwin
  exact ⟨hj, hwin⟩

end Sys

end Rtems
