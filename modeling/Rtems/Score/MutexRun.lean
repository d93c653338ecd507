import Rtems.Lib.Fuel
import Rtems.Score.MutexSurrender

/-!
# The mutexes over a whole run

* `Ok.threadTimeout`, `Ok.setRealPriority`: the other operations;
* `Admits`, `Harmless`: the operations that a state admits, and those that the scheduler is told
  about;
* **`Ok.perform`**: every operation that is admitted comes to its end, and leaves the state in
  order;
* `perform_stable`: with which fuel does not matter; **`Reachable.ok`**.
-/

namespace Rtems

def MutexOperation.withFuel (fuel : ℕ) : MutexOperation → MutexOperation
  | .seize _ executing m wait => .seize fuel executing m wait
  | .surrender _ executing m => .surrender fuel executing m
  | .timeout _ theThread => .timeout fuel theThread
  | .setPriority _ theThread newPriority prependIt => .setPriority fuel theThread newPriority prependIt
  | .dispatch => .dispatch

namespace Mutexes

variable {s s' : Mutexes} {t : Thread} {m : Mutex} {c : SchedulerControl} {op : MutexOperation}

/-! ## A timeout -/

theorem Graph.leave (h : s.Graph c) (t : Thread) : (s.setWait t none).Graph c := by
  have hwait : ∀ u m, (s.setWait t none).wait u = some m → s.wait u = some m := by
    intro u m hu
    by_cases hut : u = t
    · simp [setWait, hut] at hu
    · simpa [setWait, hut] using hu
  refine ⟨h.finite.subset fun u hu => ?_, fun u m hu => h.owned u m (hwait u m hu),
    h.ranked.mono fun a b hab => ?_, fun m u hp hu => h.node m u hp (hwait u m hu), h.real⟩
  · obtain ⟨m, hm⟩ := Option.ne_none_iff_exists'.mp hu; simp [hwait u m hm]
  · obtain ⟨m, hm, hb⟩ := Option.bind_eq_some_iff.mp hab
    exact Option.bind_eq_some_iff.mpr ⟨m, hwait a m hm, hb⟩

theorem Ok.threadTimeout (h : s.Ok c) (hw : s.wait t = some m) :
    ∃ n, ∀ fuel, n ≤ fuel → ∃ s', s.threadTimeout fuel t = some s' ∧ s'.Ok c ∧
      (s.Told [] → s'.Told []) := by
  obtain ⟨n, hn⟩ := h.clear.consistent.extract hw h.clear.owned h.clear.ranked rfl
  refine ⟨n, fun fuel hfuel => ?_⟩
  obtain ⟨s1, q, hs1, hcons, hperf⟩ := hn fuel hfuel
  have hgraph : s1.Graph c := hperf.graph { h with }
  have hready : s1.scheduler.isReady = s.scheduler.isReady := hperf.isReady
  have hwait : s1.wait = s.wait := hperf.wait
  have hok : (s1.setWait t none).Ok c := by
    refine ⟨⟨hgraph.leave t, hcons.leave⟩, fun u m' hu => ?_, hperf.running h.running⟩
    have hut : u ≠ t := by rintro rfl; simp [setWait] at hu
    change s1.scheduler.isReady u = false
    rw [hready]
    exact h.blocked u m' (by simpa [setWait, hut, hwait] using hu)
  obtain ⟨s2, hs2, hok2, hw2, hready2, htold2⟩ := hok.update
  obtain ⟨hok3, -, -, htold3⟩ := hok2.unblock (t := t) (by rw [hw2]; simp [setWait])
    (by rw [hready2]; exact (congrFun hready t).trans (h.blocked t m hw))
  refine ⟨s2.unblock t, by simp [Mutexes.threadTimeout, hw, hs1, hs2], hok3,
    fun ht => htold3 [] (htold2 fun u hu => ?_)⟩
  rcases hperf.told h.consistent.value hcons.value ht u hu with hc | hmem | hsome
  · exact .inl hc
  · exact .inr hmem
  · obtain ⟨m', hm'⟩ := Option.isSome_iff_exists.mp hsome
    have hblocked := (congrFun hready u).trans (h.blocked u m' hm')
    rw [show s1.scheduler.isReady u = true from hu] at hblocked
    cases hblocked

/-! ## A new real priority -/

theorem Consistent.setReal (h : s.Consistent none none) (t : Thread) (p : ℕ) :
    { s with realPriority := Function.update s.realPriority t p }.Consistent none
      (some ⟨t, .real, .change⟩) := by
  have hkey : ∀ u n, n ≠ .real ∨ u ≠ t →
      { s with realPriority := Function.update s.realPriority t p }.nodePriority u n =
        s.nodePriority u n := by
    intro u n hor
    cases n with
    | real => simp [nodePriority, hor.resolve_left (by simp)]
    | queue m | ceiling m => rfl
  refine ⟨h.mem, fun m => (h.queue m).congr rfl rfl fun _ _ => rfl, fun u hu => ?_, ?_, h.value⟩
  · exact (h.aggregationOk u).congr rfl (fun _ => Iff.rfl)
      fun n _ => hkey u n (.inr fun he => hu _ rfl he.symm)
  · rintro _ ⟨⟩
    have hagg := h.aggregationOk t
    refine ⟨hagg.ok.nodup, (hagg.ok.toSorted.erase _).congr fun n hn => hkey t n (.inl ?_), trivial,
      hagg.mem⟩
    rintro rfl
    exact hagg.ok.nodup.not_mem_erase hn

theorem Ok.setRealPriority {p : ℕ} (h : s.Ok c) (hp : p ≤ c.maximumPriority) (t : Thread)
    (b : Bool) :
    ∃ n, ∀ fuel, n ≤ fuel → ∃ s', s.setRealPriority fuel t p b = some s' ∧ s'.Ok c ∧
      (s.Told [] → s'.Told []) := by
  obtain ⟨rank, hrank⟩ := h.ranked
  refine ⟨rank t, fun fuel hfuel => ?_⟩
  have hcons := h.clear.consistent.setReal t p
  obtain ⟨s1, hs1, hcons1, hperf⟩ := Consistent.priorityApply
    (s := { s.clearPriorityUpdates with realPriority := Function.update s.realPriority t p })
    hrank hcons h.owned rfl hfuel b
  have hgraph : Graph c { s.clearPriorityUpdates with
      realPriority := Function.update s.realPriority t p } := by
    refine ⟨h.finite, h.owned, h.ranked, h.node, fun u => ?_⟩
    by_cases hu : u = t
    · simp [hu, hp]
    · simpa [hu] using h.real u
  have hok : s1.Ok c := hperf.ok hgraph h.blocked h.running hcons1
  obtain ⟨s2, hs2, hok2, -, -, htold2⟩ := hok.update
  have hset : s.setRealPriority fuel t p b = s1.priorityUpdate := by
    exact congrArg (fun x => x.bind priorityUpdate) hs1
  refine ⟨s2, hset.trans hs2, hok2, fun ht => htold2 fun u hu => ?_⟩
  rcases hperf.told hcons.value hcons1.value ht u hu with hc | hmem | hsome
  · exact .inl hc
  · exact .inr hmem
  · obtain ⟨m', hm'⟩ := Option.isSome_iff_exists.mp hsome
    have hblocked := (congrFun hperf.isReady u).trans (h.blocked u m' hm')
    rw [hu] at hblocked
    cases hblocked

/-! ## Every operation -/

/-- A ready thread seizes or surrenders, with another ready if it waits; a waiting one has a
timeout; priorities are valid. -/
def Admits (s : Mutexes) (c : SchedulerControl) : MutexOperation → Prop
  | .seize _ t m wait => s.scheduler.isReady t = true ∧
      (s.Waits t m wait → ∃ u, u ≠ t ∧ s.scheduler.isReady u = true)
  | .surrender _ t _ => s.scheduler.isReady t = true
  | .timeout _ t => s.wait t ≠ none
  | .setPriority _ _ p _ => p ≤ c.maximumPriority
  | .dispatch => True

/-- No thread loses the priority of a ceiling while one waits for the mutex. -/
def Harmless (s : Mutexes) : MutexOperation → Prop
  | .surrender _ t m => s.protocol m = .ceiling → s.owner m = some t → s.nestLevel m = 0 →
      (s.queue m).contributors ≠ [] → s.Spare t (.ceiling m)
  | _ => True

theorem Ok.perform (h : s.Ok c) (hadm : s.Admits c op) :
    ∃ n, ∀ fuel, n ≤ fuel → ∃ status s', s.perform c (op.withFuel fuel) = some (status, s') ∧
      s'.Ok c ∧ (s.Harmless op → s.Told [] → s'.Told []) := by
  cases op with
  | seize _ t m wait =>
    obtain ⟨n, hn⟩ := h.seize hadm.1 hadm.2
    refine ⟨n, fun fuel hfuel => ?_⟩
    obtain ⟨status, s', hs', hok, htold⟩ := hn fuel hfuel
    exact ⟨status, s', by simp [Mutexes.perform, MutexOperation.withFuel, hadm.1, hs'], hok,
      fun _ => htold⟩
  | surrender _ t m =>
    have hr : s.scheduler.isReady t = true := hadm
    refine ⟨0, fun fuel _ => ?_⟩
    cases hp : s.protocol m with
    | inherit =>
      obtain ⟨status, s', hs', hok, htold⟩ := h.recursiveMutexSurrender hr hp
      exact ⟨some status, s', by simp [Mutexes.perform, MutexOperation.withFuel, hr, surrender, hp,
        hs'], hok, fun _ => htold⟩
    | ceiling =>
      obtain ⟨status, s', hs', hok, htold⟩ := h.ceilingMutexSurrender hr hp fuel
      exact ⟨some status, s', by simp [Mutexes.perform, MutexOperation.withFuel, hr, surrender, hp,
        hs'], hok, fun hh => htold (hh hp)⟩
  | timeout _ t =>
    obtain ⟨m, hm⟩ := Option.ne_none_iff_exists'.mp hadm
    obtain ⟨n, hn⟩ := h.threadTimeout hm
    refine ⟨n, fun fuel hfuel => ?_⟩
    obtain ⟨s', hs', hok, htold⟩ := hn fuel hfuel
    exact ⟨none, s', by simp [Mutexes.perform, MutexOperation.withFuel, hs'], hok, fun _ => htold⟩
  | setPriority _ t p b =>
    have hp : p ≤ c.maximumPriority := hadm
    obtain ⟨n, hn⟩ := h.setRealPriority hp t b
    refine ⟨n, fun fuel hfuel => ?_⟩
    obtain ⟨s', hs', hok, htold⟩ := hn fuel hfuel
    exact ⟨some .successful, s', by simp [Mutexes.perform, MutexOperation.withFuel, hp, hs'], hok,
      fun _ => htold⟩
  | dispatch =>
    refine ⟨0, fun fuel _ => ⟨none, _, rfl, ⟨⟨{ h with },
      h.consistent.of_eq rfl rfl rfl rfl rfl rfl rfl fun _ => rfl⟩, h.blocked,
      h.running.chains.of_same rfl rfl fun _ => rfl, h.running.heir⟩, fun _ => id⟩⟩

/-! ## The fuel does not matter -/

section Fuel

open Fuel Mutexes

theorem performLoop_stable (n : ℕ) (s : Mutexes) (act : PriorityAction) :
    Stable fun fuel => performLoop n fuel s act := by
  refine stable_of_succ fun fuel => ?_
  induction fuel generalizing s act with
  | zero => intro a ha; cases ha
  | succ fuel ih =>
    refine Le.bind (.refl _) fun ⟨s1, rest⟩ => ?_
    cases rest with
    | none => exact .refl _
    | some act1 => exact ih _ act1

theorem performActions_stable (s : Mutexes) (act : PriorityAction) :
    Stable fun fuel => s.performActions fuel act := performLoop_stable _ s act

theorem priorityApply_stable (s : Mutexes) (act : PriorityAction) (b : Bool) :
    Stable fun fuel => s.priorityApply fuel act b := by
  refine (stable_const _).bind fun ⟨s1, rest⟩ => ?_
  cases rest with
  | none => exact stable_const _
  | some act1 => exact performActions_stable s1 act1

theorem pathAcquire_stable (s : Mutexes) (t : Thread) (m : Mutex) :
    Stable fun fuel => s.pathAcquire t fuel m := by
  refine stable_of_succ fun fuel => ?_
  induction fuel generalizing m with
  | zero => intro a ha; cases ha
  | succ fuel ih =>
    simp only [pathAcquire]
    cases s.owner m with
    | none => exact .refl _
    | some o =>
      dsimp only
      split_ifs
      · exact .refl _
      · cases s.wait o with
        | none => exact .refl _
        | some m1 => exact ih m1

theorem enqueue_stable (s : Mutexes) (m : Mutex) (t : Thread) :
    Stable fun fuel => s.enqueue fuel m t := by
  simp only [enqueue]
  cases s.protocol m with
  | ceiling => exact stable_const _
  | inherit =>
    refine (stable_const _).bind fun o => ?_
    dsimp only
    split_ifs
    · exact performActions_stable _ _
    · exact performActions_stable _ _
    · exact stable_const _

theorem extract_stable (s : Mutexes) (m : Mutex) (t : Thread) :
    Stable fun fuel => s.extract fuel m t := by
  simp only [extract]
  cases s.protocol m with
  | ceiling => exact stable_const _
  | inherit =>
    refine (stable_const _).bind fun o => (stable_const _).bind fun r => ?_
    obtain ⟨q, e⟩ := r
    cases e with
    | nothing => exact stable_const _
    | removed | changed => exact performActions_stable _ _

theorem threadQueueEnqueue_stable (s : Mutexes) (m : Mutex) (t : Thread) :
    Stable fun fuel => s.threadQueueEnqueue fuel m t := by
  refine (pathAcquire_stable _ t m).bind fun success => ?_
  cases success with
  | false => exact stable_const _
  | true => exact (enqueue_stable _ m t).bind fun _ => stable_const _

theorem ceilingMutexSetOwner_stable (s : Mutexes) (m : Mutex) (t : Thread) :
    Stable fun fuel => s.ceilingMutexSetOwner fuel m t := by
  simp only [ceilingMutexSetOwner]
  split_ifs
  · exact stable_const _
  · exact (priorityApply_stable _ _ _).bind fun _ => stable_const _

theorem seize_stable (s : Mutexes) (t : Thread) (m : Mutex) (wait : Bool) :
    Stable fun fuel => s.seize fuel t m wait := by
  cases ho : s.owner m with
  | none =>
    cases hp : s.protocol m with
    | inherit => simp only [seize, hp, recursiveMutexSeize, ho]; exact stable_const _
    | ceiling =>
      simp only [seize, hp, ceilingMutexSeize, ho]
      exact (ceilingMutexSetOwner_stable _ m t).map _
  | some o =>
    simp only [seize_owned ho, seizeSlow]
    split_ifs
    · exact stable_const _
    · exact threadQueueEnqueue_stable s m t
    · exact stable_const _

theorem ceilingHandOver_stable (s : Mutexes) (m : Mutex) :
    Stable fun fuel => s.ceilingHandOver fuel m := by
  simp only [ceilingHandOver]
  cases (s.queue m).contributors.head? with
  | none => exact stable_const _
  | some u =>
    refine (priorityApply_stable _ _ _).bind fun s2 => Stable.bind ?_ fun _ => stable_const _
    exact (extract_stable _ m u).bind fun _ => stable_const _

theorem surrender_stable (s : Mutexes) (t : Thread) (m : Mutex) :
    Stable fun fuel => s.surrender fuel t m := by
  simp only [surrender]
  cases s.protocol m with
  | inherit => exact stable_const _
  | ceiling =>
    simp only [ceilingMutexSurrender]
    split_ifs
    · exact stable_const _
    · exact stable_const _
    · exact (priorityApply_stable _ _ _).bind fun s1 =>
        (ceilingHandOver_stable s1 m).bind fun _ => stable_const _

theorem threadTimeout_stable (s : Mutexes) (t : Thread) :
    Stable fun fuel => s.threadTimeout fuel t :=
  (stable_const _).bind fun m => (extract_stable _ m t).bind fun _ => stable_const _

theorem setRealPriority_stable (s : Mutexes) (t : Thread) (p : ℕ) (b : Bool) :
    Stable fun fuel => s.setRealPriority fuel t p b :=
  (priorityApply_stable _ _ _).bind fun _ => stable_const _

theorem perform_stable (s : Mutexes) (c : SchedulerControl) (op : MutexOperation) :
    Stable fun fuel => s.perform c (op.withFuel fuel) := by
  cases op with
  | seize _ t m wait =>
    simp only [MutexOperation.withFuel, Mutexes.perform]
    split_ifs
    · exact seize_stable s t m wait
    · exact stable_const _
  | surrender _ t m =>
    simp only [MutexOperation.withFuel, Mutexes.perform]
    split_ifs
    · exact (surrender_stable s t m).map _
    · exact stable_const _
  | timeout _ t => exact (threadTimeout_stable s t).map _
  | setPriority _ t p b =>
    simp only [MutexOperation.withFuel, Mutexes.perform]
    split_ifs
    · exact (setRealPriority_stable s t p b).map _
    · exact stable_const _
  | dispatch => exact stable_const _

end Fuel

/-! ## Runs -/

theorem exists_withFuel (op : MutexOperation) : ∃ fuel, op.withFuel fuel = op := by
  cases op with
  | seize fuel _ _ _ | surrender fuel _ _ | timeout fuel _ | setPriority fuel _ _ _ =>
    exact ⟨fuel, rfl⟩
  | dispatch => exact ⟨0, rfl⟩

theorem Ok.admits {r : Option MutexStatus × Mutexes} (h : s.Ok c) (hr : s.perform c op = some r) :
    s.Admits c op := by
  cases op with
  | seize fuel t m wait =>
    rw [Mutexes.perform, Option.ite_none_right_eq_some] at hr
    refine ⟨hr.1, fun hwaits => ?_⟩
    by_contra hno
    have hlast : ∀ u, s.scheduler.isReady u = true → u = t := by
      intro u hu
      by_contra hut
      exact hno ⟨u, hut, hu⟩
    cases (seize_stable s t m wait).of_eventually (P := fun r => r = none)
      (h.seize_last hr.1 hwaits hlast) hr.2
  | surrender fuel t m | setPriority fuel t p b =>
    rw [Mutexes.perform, Option.ite_none_right_eq_some] at hr; exact hr.1
  | timeout fuel t =>
    obtain ⟨s', hs', -⟩ := Option.map_eq_some_iff.mp hr
    obtain ⟨m, hm, -⟩ := Option.bind_eq_some_iff.mp hs'
    exact Option.ne_none_iff_exists'.mpr ⟨m, hm⟩
  | dispatch => exact trivial

theorem Ok.step (h : s.Ok c) (hs : s.step c op = some s') :
    s'.Ok c ∧ (s.Harmless op → s.Told [] → s'.Told []) := by
  obtain ⟨⟨status, s1⟩, hperf, rfl⟩ := Option.map_eq_some_iff.mp hs
  have hend := h.perform (h.admits hperf)
  obtain ⟨fuel, hfuel⟩ := exists_withFuel op
  rw [← hfuel] at hperf
  obtain ⟨status', s2, heq, hrest⟩ := (perform_stable s c op).of_eventually
    (P := fun r => ∃ status s', r = some (status, s') ∧ s'.Ok c ∧
      (s.Harmless op → s.Told [] → s'.Told [])) hend hperf
  cases heq
  exact hrest

theorem Boot.ok (h : Boot c s) : s.Ok c ∧ s.Told [] := by
  have hsched := h.scheduler.ok
  have hnext : ∀ t, s.next t = none := fun t => by simp [next, h.wait]
  have hcons : s.Consistent none none := by
    refine ⟨fun m t => by simp [h.queue, h.wait], fun m => ⟨?_, fun _ hn => absurd (h.queue m) hn⟩,
      fun t _ => ⟨?_, fun n => ?_⟩, by simp, fun t => ?_⟩
    · rw [h.queue]; exact ⟨.nil, .nil⟩
    · rw [h.aggregation]; exact .initializeOne
    · rw [h.aggregation]
      cases n with
      | real => simp [Aggregation.initializeOne, Expected]
      | queue m | ceiling m => simp [Aggregation.initializeOne, Expected, h.owner]
    · rw [h.value, priority, h.aggregation]; rfl
  obtain ⟨-, -, -, hheir, -⟩ := hsched.heir_mem
  refine ⟨⟨⟨⟨?_, fun t m hw => ?_, WaitFor.ranked_of_none hnext, fun m t _ hw => ?_, h.real⟩, hcons⟩,
    fun t m hw => ?_, hsched.chains, hheir⟩, fun t ht => .inl (hsched.current t ht)⟩
  · simp [h.wait]
  · simp [h.wait] at hw
  · simp [h.wait] at hw
  · simp [h.wait] at hw

theorem Reachable.ok (h : Reachable c s) : s.Ok c := by
  obtain ⟨s0, ops, hboot, hrun⟩ := h
  exact PartialRun.run_invariant _ (fun _ _ _ hok hstep => (hok.step hstep).1) hboot.ok.1 hrun

end Mutexes

end Rtems
