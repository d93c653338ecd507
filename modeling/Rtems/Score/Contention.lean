import Rtems.Score.MutexRun

/-!
# Threads that contend for mutexes

What holds of every state that seizing, surrendering, timeouts and new priorities lead to.

* **`deadlock_iff`**: no thread waits for itself, and the search for a deadlock finds exactly those
  that a thread would cause;
* **`priority_isLeast`**: the priority of a thread is the least one of those that it has itself and
  of those that wait for it, directly or through others;
* **`current_of_harmless`**: the scheduler knows the priorities of the ready threads, unless a
  ceiling mutex goes to a thread that waits for it; **`elected_isLeast`**: it elects the best.
-/

namespace Rtems

namespace Mutexes

open Relation PartialRun SchedulerPriority

variable {s : Mutexes} {t u : Thread} {m : Mutex} {c : SchedulerControl} {op : MutexOperation}

/-! ## A system to start with -/

/-- The scheduler after the idle thread and the listed ones have started. -/
def startScheduler (c : SchedulerControl) (idle : Thread) (priority : Thread → ℕ)
    (threads : List Thread) : Option SchedulerPriority :=
  run (fun s op => s.step c op) (.initial idle priority)
    (.unblock idle c.maximumPriority false :: threads.map fun t => .unblock t (priority t) false)

def start (protocol : Mutex → Protocol) (ceiling : Mutex → ℕ) (priority : Thread → ℕ)
    (scheduler : SchedulerPriority) : Mutexes where
  protocol := protocol
  ceiling := ceiling
  owner _ := none
  nestLevel _ := 0
  queue _ := ⟨0, []⟩
  schedulerNode _ := 0
  wait _ := none
  realPriority := priority
  aggregation t := .initializeOne (fun _ => priority t) .real
  scheduler := scheduler
  updates := []

theorem schedulerUnblock_value (x : SchedulerPriority) (t u : Thread) :
    ((x.schedulerUnblock t).node u).value = (x.node u).value := by
  have hqueue : ((x.updateQueue t (x.node t).value).node u).value = (x.node u).value := by
    by_cases hu : u = t
    · simp [updateQueue, hu]
    · simp [updateQueue, hu]
  simp only [schedulerUnblock, updateHeir]
  split_ifs
  · exact hqueue
  · exact hqueue
  · exact hqueue
  · rfl
  · rfl
  · rfl

section

variable {idle : Thread} {priority : Thread → ℕ} {threads : List Thread} {x : SchedulerPriority}
  (h : startScheduler c idle priority threads = some x) (hidle : priority idle = c.maximumPriority)

include h hidle

theorem startScheduler_value (u : Thread) : (x.node u).value = priority u := by
  refine run_invariant_along _ (P := fun x => ∀ u, (x.node u).value = priority u)
    (G := fun _ op => ∃ t, op = .unblock t (priority t) false) ?_ (fun _ => rfl)
    (along_of_forall _ (fun op hop s => ?_) _) h u
  · rintro x _ x' hx ⟨t, rfl⟩ hstep u
    rw [SchedulerPriority.step, Option.ite_none_right_eq_some] at hstep
    cases hstep.2
    rw [schedulerUnblock_value]
    by_cases hu : u = t
    · simp [setPriority, hu]
    · simpa [setPriority, hu] using hx u
  · rcases List.mem_cons.mp hop with rfl | hmem
    · exact ⟨idle, by rw [hidle]⟩
    · obtain ⟨t, -, rfl⟩ := List.mem_map.mp hmem; exact ⟨t, rfl⟩

theorem boot_start (hp : ∀ t, priority t ≤ c.maximumPriority)
    (protocol : Mutex → Protocol) (ceiling : Mutex → ℕ) :
    Boot c (start protocol ceiling priority x) where
  scheduler := ⟨idle, priority, _, h⟩
  owner _ := rfl
  queue _ := rfl
  wait _ := rfl
  aggregation _ := rfl
  value := startScheduler_value h hidle
  real := hp

end

/-- Priorities 20, 200 and 100; mutexes from 10 on have the ceiling 10. -/
def threeThreads : Mutexes :=
  start (fun m => if m < 10 then .inherit else .ceiling) (fun _ => 10)
    (fun t => if t = 0 then 255 else if t = 1 then 20 else if t = 2 then 200 else 100)
    ((startScheduler ⟨255, by decide⟩ 0
      (fun t => if t = 0 then 255 else if t = 1 then 20 else if t = 2 then 200 else 100)
      [1, 2, 3]).get (by decide +kernel))

theorem threeThreads_boot : Boot ⟨255, by decide⟩ threeThreads := by
  refine boot_start (Option.some_get _).symm rfl (fun t => ?_) _ _
  split_ifs <;> decide

/-! ## Deadlocks -/

theorem setWait_next : (s.setWait t (some m)).next = Function.update s.next t (s.owner m) := by
  funext u
  by_cases hu : u = t
  · simp [next, setWait, hu]
  · simp [next, setWait, hu]

theorem Base.not_cycle_of_free (h : s.Base c) (ho : s.owner m = none) (a : Thread) :
    ¬ TransGen (WaitFor.Edge (s.setWait t (some m)).next) a a := by
  refine (h.ranked.mono fun d e hde => ?_).not_cycle a
  rw [setWait_next, ho] at hde
  have hdt : d ≠ t := by rintro rfl; simp at hde
  rwa [Function.update_of_ne hdt] at hde

/-- The search ends, and finds out whether the thread would wait for itself. -/
theorem Base.pathAcquire_iff (h : s.Base c) (t : Thread) (m : Mutex) :
    ∃ n, ∀ fuel, n ≤ fuel → ∃ r, (s.setWait t (some m)).pathAcquire t fuel m = some r ∧
      (r = false ↔ ∃ a, TransGen (WaitFor.Edge (s.setWait t (some m)).next) a a) := by
  cases ho : s.owner m with
  | none =>
    refine ⟨1, fun fuel hfuel => ⟨true, ?_, iff_of_false (by simp) ?_⟩⟩
    · obtain ⟨k, rfl⟩ := Nat.exists_eq_add_of_le' hfuel; simp [Mutexes.pathAcquire, setWait, ho]
    · rintro ⟨a, ha⟩
      exact h.not_cycle_of_free ho a ha
  | some o =>
    rw [setWait_next, ho]
    obtain ⟨n, hn⟩ := h.pathAcquire t ho
    refine ⟨n, fun fuel hfuel => ?_⟩
    obtain ⟨r, hr, hiff⟩ := hn fuel hfuel
    exact ⟨r, hr, hiff.trans h.ranked.cycle_iff.symm⟩

/-- **Deadlocks are found exactly.** The search returns false exactly if waiting makes a cycle, and
then nothing changes. -/
theorem deadlock_iff (hs : Reachable c s) : (∀ t, ¬ TransGen (WaitFor.Edge s.next) t t) ∧
    ∀ t m, ∃ n, ∀ fuel, n ≤ fuel → ∃ r, (s.setWait t (some m)).pathAcquire t fuel m = some r ∧
      (r = false ↔ ∃ a, TransGen (WaitFor.Edge (s.setWait t (some m)).next) a a) ∧
      (r = false → s.scheduler.isReady t = true → s.owner m ≠ some t →
        s.perform c (.seize fuel t m true) = some (some .deadlock, s)) := by
  have h := hs.ok
  refine ⟨h.ranked.not_cycle, fun t m => ?_⟩
  obtain ⟨n, hn⟩ := h.pathAcquire_iff t m
  refine ⟨n, fun fuel hfuel => ?_⟩
  obtain ⟨r, hr, hiff⟩ := hn fuel hfuel
  refine ⟨r, hr, hiff, fun hf hready hown => ?_⟩
  subst hf
  cases ho : s.owner m with
  | none => obtain ⟨a, ha⟩ := hiff.mp rfl; exact absurd ha (h.not_cycle_of_free ho a)
  | some o =>
    have hot : o ≠ t := fun he => hown (by rw [ho, he])
    simp [Mutexes.perform, hready, seize_owned ho, hot, seizeSlow, threadQueueEnqueue, hr,
      setWait_setWait (h.wait_of_ready hready)]

theorem deadlock_of_two : ∃ s, Reachable ⟨255, by decide⟩ s ∧ s.next 1 = some 2 ∧
    ∃ n, ∀ fuel, n ≤ fuel →
      s.perform ⟨255, by decide⟩ (.seize fuel 2 1 true) = some (some .deadlock, s) := by
  obtain ⟨s, hrun, hnext, ho, hready⟩ := exists_of_any
      (o := run (fun s op => step s ⟨255, by decide⟩ op) threeThreads [.seize 9 1 1 true, .seize 9 2
        2 true, .dispatch, .seize 9 1 2 true, .dispatch])
      (P := fun s => s.next 1 = some 2 ∧ s.owner 1 = some 1 ∧ s.scheduler.isReady 2 = true)
      (by decide +kernel)
  have hreach : Reachable ⟨255, by decide⟩ s := ⟨_, _, threeThreads_boot, hrun⟩
  obtain ⟨n, hn⟩ := (deadlock_iff hreach).2 2 1
  refine ⟨s, hreach, hnext, n, fun fuel hfuel => ?_⟩
  obtain ⟨r, -, hiff, hdeadlock⟩ := hn fuel hfuel
  refine hdeadlock (hiff.mpr ⟨2, ?_⟩) hready (by rw [ho]; decide)
  rw [setWait_next, ho]
  refine TransGen.head (Function.update_self ..) (TransGen.single ?_)
  rw [WaitFor.Edge, Function.update_of_ne (by decide), hnext]

/-! ## Priorities -/

/-- The real priority of a thread and the ceilings of its mutexes. -/
def Own (s : Mutexes) (t : Thread) : Set ℕ :=
  {p | p = s.realPriority t ∨ ∃ m, s.protocol m = .ceiling ∧ s.owner m = some t ∧ p = s.ceiling m}

theorem Ok.priority_le_own (h : s.Ok c) {p : ℕ} (hp : p ∈ s.Own t) : s.priority t ≤ p := by
  have hagg := h.consistent.aggregationOk t
  rcases hp with rfl | ⟨m, hm, ho, rfl⟩
  · exact hagg.ok.isLeast.2 ⟨.real, (hagg.mem .real).mpr trivial, rfl⟩
  · exact hagg.ok.isLeast.2 ⟨.ceiling m, (hagg.mem _).mpr ⟨hm, ho⟩, rfl⟩

theorem Ok.priority_le_lends (h : s.Ok c) (hu : s.Lends u t) : s.priority t ≤ s.priority u := by
  obtain ⟨m, hw, hp, ho⟩ := hu
  have hmem : u ∈ (s.queue m).contributors := (h.consistent.mem m u).mpr ⟨hw, by simp⟩
  have hne : (s.queue m).contributors ≠ [] := List.ne_nil_of_mem hmem
  have hagg := h.consistent.aggregationOk t
  calc s.priority t ≤ (s.queue m).priority :=
        hagg.ok.isLeast.2 ⟨.queue m, (hagg.mem _).mpr ⟨hp, ho, hne⟩, rfl⟩
    _ ≤ s.priority u := ((h.consistent.queue m).head hp hne).isLeast.2 ⟨u, hmem, rfl⟩

theorem Ok.priority_mem (h : s.Ok c) (t : Thread) :
    s.priority t ∈ s.Own t ∨ ∃ u, s.Lends u t ∧ s.priority t = s.priority u := by
  have hagg := h.consistent.aggregationOk t
  obtain ⟨n, hn, hp⟩ := hagg.ok.isLeast.1
  have hexp := (hagg.mem n).mp hn
  cases n with
  | real => exact .inl (.inl hp.symm)
  | ceiling m => exact .inl (.inr ⟨m, hexp.1, hexp.2, hp.symm⟩)
  | queue m =>
    obtain ⟨u, hu, hpu⟩ := ((h.consistent.queue m).head hexp.1 hexp.2.2).isLeast.1
    refine .inr ⟨u, ⟨m, ((h.consistent.mem m u).mp hu).1, hexp.1, hexp.2.1⟩, ?_⟩
    exact hp.symm.trans hpu.symm

theorem Ok.priority_le_of_chain (h : s.Ok c) (hu : ReflTransGen s.Lends u t) :
    s.priority t ≤ s.priority u := by
  induction hu with
  | refl => exact le_rfl
  | tail _ hbt ih => exact (h.priority_le_lends hbt).trans ih

/-- The priority of a thread comes from one that waits for it through others. -/
theorem Ok.exists_own (h : s.Ok c) (t : Thread) :
    ∃ u, ReflTransGen s.Lends u t ∧ s.priority t ∈ s.Own u := by
  have hfin : {a | s.next a ≠ none}.Finite := h.finite.subset fun a ha hw => ha (by simp [next, hw])
  refine h.ranked.induction (P := fun t => ∃ u, ReflTransGen s.Lends u t ∧ s.priority t ∈ s.Own u)
    hfin (fun t ih => ?_) t
  rcases h.priority_mem t with hown | ⟨u, hut, hp⟩
  · exact ⟨t, .refl, hown⟩
  · obtain ⟨v, hvu, hown⟩ := ih u hut.next; exact ⟨v, hvu.tail hut, hp ▸ hown⟩

/-- **Priority inheritance is exact and transitive.** A thread has the least priority of its own and
of all that wait for it. -/
theorem priority_isLeast (hs : Reachable c s) (t : Thread) :
    (s.scheduler.node t).value = s.priority t ∧
    IsLeast (s.Own t ∪ {p | ∃ u, s.Lends u t ∧ p = s.priority u}) (s.priority t) ∧
    IsLeast {p | ∃ u, ReflTransGen s.Lends u t ∧ p ∈ s.Own u} (s.priority t) := by
  have h := hs.ok
  refine ⟨h.consistent.value t, ⟨?_, ?_⟩, h.exists_own t, ?_⟩
  · exact (h.priority_mem t).imp id fun ⟨u, hu, hp⟩ => ⟨u, hu, hp⟩
  · rintro p (hown | ⟨u, hu, rfl⟩)
    · exact h.priority_le_own hown
    · exact h.priority_le_lends hu
  · rintro p ⟨u, hu, hown⟩; exact (h.priority_le_of_chain hu).trans (h.priority_le_own hown)

theorem priority_of_chain : ∃ s, Reachable ⟨255, by decide⟩ s ∧ s.wait 1 = some 2 ∧
    s.owner 2 = some 2 ∧ s.wait 2 = some 3 ∧ s.owner 3 = some 3 ∧ s.priority 3 = 20 ∧
    IsLeast {p | ∃ u, ReflTransGen s.Lends u 3 ∧ p ∈ s.Own u} 20 := by
  obtain ⟨s, hrun, hw₁, ho₂, hw₂, ho₃, hp⟩ := exists_of_any
      (o := run (fun s op => step s ⟨255, by decide⟩ op) threeThreads [.seize 9 3 3 true, .seize 9 2
        2 true, .seize 9 2 3 true, .dispatch, .seize 9 1 2 true])
      (P := fun s => s.wait 1 = some 2 ∧ s.owner 2 = some 2 ∧ s.wait 2 = some 3 ∧
        s.owner 3 = some 3 ∧ s.priority 3 = 20) (by decide +kernel)
  have hreach : Reachable ⟨255, by decide⟩ s := ⟨_, _, threeThreads_boot, hrun⟩
  refine ⟨s, hreach, hw₁, ho₂, hw₂, ho₃, hp, ?_⟩
  rw [← hp]
  exact (priority_isLeast hreach 3).2.2

/-! ## The scheduler -/

instance (s : Mutexes) (t : Thread) (n : PriorityNode) : Decidable (s.Spare t n) := by
  unfold Spare; infer_instance

instance (s : Mutexes) (op : MutexOperation) : Decidable (s.Harmless op) := by
  cases op <;> unfold Harmless <;> infer_instance

/-- **The scheduler knows the priorities** after harmless operations. -/
theorem current_of_harmless {s₀ : Mutexes} {ops : List MutexOperation} (hboot : Boot c s₀)
    (hrun : run (fun s op => step s c op) s₀ ops = some s) :
    (Along (fun s op => step s c op) Harmless s₀ ops → ∀ t,
      s.scheduler.isReady t = true → (s.scheduler.node t).value = s.priority t ∧
        (s.scheduler.node t).readyQueue.currentPriority = (s.scheduler.node t).value ∧
        t ∈ s.scheduler.ready (s.priority t)) ∧
    ∀ op, s.Admits c op →
      ∃ n, ∀ fuel, n ≤ fuel → (s.perform c (op.withFuel fuel)).isSome = true := by
  have h : s.Ok c := Reachable.ok ⟨s₀, ops, hboot, hrun⟩
  refine ⟨fun halong t ht => ?_, fun op hadm => ?_⟩
  · have htold := run_invariant_along _ (P := fun s => s.Ok c ∧ s.Told [])
      (fun _ _ _ hok hh hstep => ⟨(hok.1.step hstep).1, (hok.1.step hstep).2 hh hok.2⟩) hboot.ok halong
      hrun
    have hcur : s.scheduler.Current t := (htold.2 t ht).resolve_right (by simp)
    refine ⟨h.consistent.value t, hcur, ?_⟩
    rw [← h.consistent.value t, h.running.chains.mem_iff]
    exact ⟨ht, hcur⟩
  · obtain ⟨n, hn⟩ := h.perform hadm
    refine ⟨n, fun fuel hfuel => ?_⟩
    obtain ⟨status, s', hs', -⟩ := hn fuel hfuel
    rw [hs']
    rfl

theorem current_of_two : ∃ ops s, run (fun s op => step s ⟨255, by decide⟩ op) threeThreads
      ops = some s ∧ s.priority 1 = 20 ∧ s.priority 3 = 15 ∧
    1 ∈ s.scheduler.ready 20 ∧ 3 ∈ s.scheduler.ready 15 := by
  refine ⟨[.seize 9 1 10 true, .seize 9 3 3 true, .surrender 9 1 10, .seize 9 2 3 true, .dispatch,
    .setPriority 9 2 15 false], exists_imp_of_any (P := fun s => s.scheduler.isReady 1 = true ∧
      s.scheduler.isReady 3 = true ∧ s.priority 1 = 20 ∧ s.priority 3 = 15) (by decide +kernel) ?_⟩
  intro s hrun ⟨hr₁, hr₃, hp₁, hp₃⟩
  have hcur := (current_of_harmless threeThreads_boot hrun).1
    (along_of_decide _ (by decide +kernel))
  refine ⟨hp₁, hp₃, ?_, ?_⟩
  · rw [← hp₁]; exact (hcur 1 hr₁).2.2
  · rw [← hp₃]; exact (hcur 3 hr₃).2.2

/-- What the ready threads, and those that wait for one of them, have themselves. -/
def Claimed (s : Mutexes) : Set ℕ :=
  {p | ∃ r u, s.scheduler.isReady r = true ∧ ReflTransGen s.Lends u r ∧ p ∈ s.Own u}

/-- **No priority inversion** after harmless operations: the elected thread has the best priority of
the ready threads and of those that wait for one. -/
theorem elected_isLeast {s₀ : Mutexes} {ops : List MutexOperation} (hboot : Boot c s₀)
    (halong : Along (fun s op => step s c op) Harmless s₀ ops)
    (hrun : run (fun s op => step s c op) s₀ ops = some s) :
    ∃ v, s.scheduler.first = some v ∧ IsLeast s.Claimed (s.priority v) := by
  obtain ⟨h, htold⟩ := run_invariant_along _ (P := fun s => s.Ok c ∧ s.Told [])
    (fun _ _ _ hok hh hstep => ⟨(hok.1.step hstep).1, (hok.1.step hstep).2 hh hok.2⟩) hboot.ok halong
    hrun
  have hchains := h.running.chains
  have hcur : ∀ r, s.scheduler.isReady r = true →
      (s.scheduler.node r).readyQueue.currentPriority = s.priority r :=
    fun r hr => ((htold r hr).resolve_right (by simp)).trans (h.consistent.value r)
  obtain ⟨v, hv, q, hhead, hmin⟩ := hchains.first_eq h.running.heir
  obtain ⟨hready, hq⟩ := (hchains.mem_iff v q).mp (List.mem_of_mem_head? hhead)
  obtain ⟨w, hw, hown⟩ := h.exists_own v
  refine ⟨v, hv, ⟨v, w, hready, hw, hown⟩, ?_⟩
  rintro p ⟨r, u, hr, hu, hp⟩
  calc s.priority v ≤ s.priority r := by
        rw [← hcur v hready, hq, ← hcur r hr]
        exact not_lt.mp fun hlt => List.ne_nil_of_mem (hchains.mem hr) (hmin _ hlt)
    _ ≤ s.priority u := h.priority_le_of_chain hu
    _ ≤ p := h.priority_le_own hp

theorem elected_of_chain : ∃ ops s, run (fun s op => step s ⟨255, by decide⟩ op) threeThreads
      ops = some s ∧ s.wait 1 = some 2 ∧ s.wait 2 = some 3 ∧ s.scheduler.first = some 3 ∧
    IsLeast s.Claimed (s.priority 3) := by
  refine ⟨[.seize 9 3 3 true, .seize 9 2 2 true, .seize 9 2 3 true, .dispatch, .seize 9 1 2 true],
    exists_imp_of_any (P := fun s => s.wait 1 = some 2 ∧ s.wait 2 = some 3 ∧
      s.scheduler.first = some 3) (by decide +kernel) ?_⟩
  intro s hrun ⟨hw₁, hw₂, hfirst⟩
  obtain ⟨v, hv, hleast⟩ := elected_isLeast threeThreads_boot
    (along_of_decide _ (by decide +kernel)) hrun
  cases hfirst.symm.trans hv
  exact ⟨hw₁, hw₂, hfirst, hleast⟩

/-- **The scheduler does not learn of a priority**: a surrendered ceiling mutex that another thread
waits for. -/
theorem exists_stale : ∃ ops s, run (fun s op => step s ⟨255, by decide⟩ op) threeThreads
      ops = some s ∧ s.scheduler.isReady 1 = true ∧ s.scheduler.isReady 2 = true ∧
    s.priority 1 = 20 ∧ (s.scheduler.node 1).readyQueue.currentPriority = 10 ∧
    s.priority 2 = 15 ∧ s.scheduler.heir = 1 :=
  ⟨[.dispatch, .seize 9 1 10 true, .setPriority 9 2 15 false, .setPriority 9 3 5 false, .dispatch,
    .seize 9 3 10 true, .dispatch, .surrender 9 1 10, .dispatch, .surrender 9 3 10,
    .setPriority 9 3 100 false], exists_of_any (by decide +kernel)⟩

end Mutexes

end Rtems
