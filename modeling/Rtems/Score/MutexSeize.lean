import Mathlib.Data.Set.Finite.Basic
import Rtems.Score.MutexQueue
import Rtems.Score.PriorityUpdate

/-!
# Seizing a mutex

* `Ok`: what holds of every reachable state; `Told`: what the scheduler knows;
* `Ok.update`, `Base.block`, `Ok.unblock`: the scheduler is told about priorities, a thread is
  blocked or unblocked;
* **`Base.pathAcquire`**: the search for a deadlock ends, and finds out whether there is one;
* `Ok.threadQueueEnqueue`: a thread waits, **`Ok.seize`**.
-/

namespace Rtems

open Function WaitFor

namespace Mutexes

variable {s s' : Mutexes} {ex : Option Thread} {t u o : Thread} {m : Mutex}

/-! ## The states -/

structure Graph (c : SchedulerControl) (s : Mutexes) : Prop where
  finite : {t | s.wait t ≠ none}.Finite
  owned : ∀ t m, s.wait t = some m → (s.owner m).isSome
  ranked : Ranked s.next
  node : ∀ m t, s.protocol m = .inherit → s.wait t = some m → s.owner m = some (s.schedulerNode m)
  real : ∀ t, s.realPriority t ≤ c.maximumPriority

/-- Who waits for whom, and with which priorities. -/
structure Base (c : SchedulerControl) (s : Mutexes) : Prop extends Graph c s where
  consistent : s.Consistent none none

structure Ok (c : SchedulerControl) (s : Mutexes) : Prop extends Base c s where
  blocked : ∀ t m, s.wait t = some m → s.scheduler.isReady t = false
  running : s.scheduler.Running

/-- Every ready thread is queued at its priority, but for those of `l`. -/
def Told (s : Mutexes) (l : List Thread) : Prop :=
  ∀ t, s.scheduler.isReady t = true → s.scheduler.Current t ∨ t ∈ l

variable {c : SchedulerControl}

theorem Frame.graph (hf : s.Frame s') (h : s.Graph c) : s'.Graph c where
  finite := by
    rw [hf.wait]; exact h.finite
  owned t m := by
    rw [hf.wait, hf.owner]; exact h.owned t m
  ranked := by
    rw [hf.next]; exact h.ranked
  node m t := by
    rw [hf.protocol, hf.wait, hf.owner, hf.schedulerNode]; exact h.node m t
  real t := by
    rw [hf.realPriority]; exact h.real t

theorem Frame.running (hf : s.Frame s') (h : s.scheduler.Running) : s'.scheduler.Running := by
  refine ⟨(h.chains.of_same hf.bitMap hf.ready hf.readyQueue).congr fun t => by rw [hf.isReady], ?_⟩
  rw [hf.isReady, hf.heir]
  exact h.heir

theorem Frame.ok (hf : s.Frame s') (hg : s.Graph c)
    (hb : ∀ t m, s.wait t = some m → s.scheduler.isReady t = false) (hr : s.scheduler.Running)
    (h : s'.Consistent none none) : s'.Ok c := by
  refine ⟨⟨hf.graph hg, h⟩, fun t m => ?_, hf.running hr⟩
  rw [hf.wait, hf.isReady]
  exact hb t m

theorem Ok.clear (h : s.Ok c) : s.clearPriorityUpdates.Ok c :=
  ⟨⟨{ h with }, h.consistent.of_eq rfl rfl rfl rfl rfl rfl rfl fun _ => rfl⟩, h.blocked, h.running⟩

theorem Consistent.value_le (h : s.Consistent ex none)
    (hreal : ∀ t, s.realPriority t ≤ c.maximumPriority) (t : Thread) :
    (s.scheduler.node t).value < 256 := by
  have hagg := h.aggregationOk t
  have hle : s.priority t ≤ s.realPriority t :=
    hagg.ok.isLeast.2 ⟨.real, (hagg.mem .real).mpr trivial, rfl⟩
  have hmax := c.maximum_lt
  have hr := hreal t
  rw [h.value]
  omega

theorem Ok.update (h : s.Ok c) : ∃ s', s.priorityUpdate = some s' ∧ s'.Ok c ∧ s'.wait = s.wait ∧
      s'.scheduler.isReady = s.scheduler.isReady ∧ (s.Told s.updates → s'.Told []) := by
  obtain ⟨x, hx, hrun, hv, hready, hcur⟩ :=
    h.running.updatePriorities s.updates fun t => h.consistent.value_le h.real t
  refine ⟨{ s with scheduler := x }, by simp [priorityUpdate, hx],
    ⟨⟨{ h with }, h.consistent.of_eq rfl rfl rfl rfl rfl rfl rfl hv⟩, fun t m hw => ?_, hrun⟩, rfl,
    hready, fun ht t hr => .inl ?_⟩
  · rw [hready]; exact h.blocked t m hw
  · rw [hready] at hr; exact hcur t hr (ht t hr)

theorem Base.block (h : s.Base c) (hrun : s.scheduler.Running)
    (hb : ∀ u m, u ≠ t → s.wait u = some m → s.scheduler.isReady u = false)
    (hr : s.scheduler.isReady t = true) (hother : ∃ u, u ≠ t ∧ s.scheduler.isReady u = true) :
    ∃ s', s.block t = some s' ∧ s'.Ok c ∧ s'.updates = s.updates ∧
      ∀ u, s'.scheduler.isReady u = true → s.scheduler.isReady u = true ∧ u ≠ t ∧
        (s'.scheduler.Current u ↔ s.scheduler.Current u) := by
  obtain ⟨v, hvt, hv⟩ := hother
  obtain ⟨x, hx, hrun', hk, hnot⟩ := hrun.block hr hvt hv
  refine ⟨{ s with scheduler := x }, by simp [Mutexes.block, hx],
    ⟨⟨{ h with }, h.consistent.of_eq rfl rfl rfl rfl rfl rfl rfl hk.value⟩, fun u m hw => ?_, hrun'⟩,
    rfl, fun u hu => ?_⟩
  · by_cases hut : u = t
    · rw [hut, hnot]
    · rw [hk.isReady u hut]; exact hb u m hut hw
  · have hut : u ≠ t := by rintro rfl; rw [hnot] at hu; cases hu
    exact ⟨by rw [← hk.isReady u hut]; exact hu, hut, hk.of_ne hut⟩

theorem Ok.unblock (h : s.Ok c) (hw : s.wait t = none) (hr : s.scheduler.isReady t = false) :
    (s.unblock t).Ok c ∧ (s.unblock t).updates = s.updates ∧ (s.unblock t).wait = s.wait ∧
      ∀ l, s.Told l → (s.unblock t).Told l := by
  obtain ⟨x, hx, hrun, hk, ht, hcur⟩ := h.running.unblock hr (h.consistent.value_le h.real t)
  have hs : s.unblock t = { s with scheduler := x } := by rw [Mutexes.unblock, hx]
  rw [hs]
  refine ⟨⟨⟨{ h with },
    h.consistent.of_eq rfl rfl rfl rfl rfl rfl rfl hk.value⟩, fun u m hu => ?_, hrun⟩, rfl, rfl,
    fun l hl u hu => ?_⟩
  · have hut : u ≠ t := by rintro rfl; rw [show s.wait u = some m from hu] at hw; cases hw
    rw [hk.isReady u hut]
    exact h.blocked u m hu
  · by_cases hut : u = t
    · rw [hut]; exact .inl hcur
    · rw [hk.isReady u hut] at hu
      exact (hl u hu).imp (hk.of_ne hut).mpr id

theorem Performed.told {n : ℕ} (h : s.Performed n s')
    (hv : ∀ t, (s.scheduler.node t).value = s.priority t)
    (hv' : ∀ t, (s'.scheduler.node t).value = s'.priority t) (ht : s.Told s.updates) (t : Thread)
    (hr : s'.scheduler.isReady t = true) :
    s'.scheduler.Current t ∨ t ∈ s'.updates ∨ (s.wait t).isSome := by
  obtain ⟨l, hl, -, hall⟩ := h.updates
  rw [hl, List.mem_append]
  rcases hall t with he | hm | hw
  · rw [h.isReady] at hr
    rcases ht t hr with hcur | hm
    · left
      rw [SchedulerPriority.Current, h.readyQueue, hv', he, ← hv]
      exact hcur
    · exact .inr (.inl (.inl hm))
  · exact .inr (.inl (.inr hm))
  · exact .inr (.inr hw)

theorem Ok.wait_of_ready (h : s.Ok c) (hr : s.scheduler.isReady t = true) : s.wait t = none := by
  cases hw : s.wait t with
  | none => rfl
  | some m => rw [h.blocked t m hw] at hr; cases hr

theorem Base.wait_ne (h : s.Base c) (ho : s.owner m = none) (u : Thread) : s.wait u ≠ some m := by
  intro hw
  have := h.owned u m hw
  rw [ho] at this
  cases this

theorem Base.wait_ne_of_nil (h : s.Base c) (hnil : (s.queue m).contributors = []) (u : Thread) :
    s.wait u ≠ some m := by
  intro hu
  have hmem := (h.consistent.mem m u).mpr ⟨hu, by simp⟩
  rw [hnil] at hmem
  cases hmem

theorem Base.queue_nil (h : s.Base c) (hw : ∀ u, s.wait u ≠ some m) :
    (s.queue m).contributors = [] := by
  refine List.eq_nil_iff_forall_not_mem.mpr fun u hu => hw u ?_
  exact ((h.consistent.mem m u).mp hu).1

theorem setOwner_next {owner : Option Thread} (hw : ∀ u, s.wait u ≠ some m) :
    (s.setOwner m owner).next = s.next := by
  funext u
  cases hu : s.wait u with
  | none => simp [next, setOwner, hu]
  | some m' =>
    have hm : m' ≠ m := fun he => hw u (by rw [hu, he])
    simp [next, setOwner, hu, hm]

theorem Graph.setOwner {owner : Option Thread} (h : s.Graph c) (hw : ∀ u, s.wait u ≠ some m) :
    (s.setOwner m owner).Graph c := by
  have ho : ∀ {u m'}, s.wait u = some m' → (s.setOwner m owner).owner m' = s.owner m' := by
    intro u m' hu
    have hm : m' ≠ m := fun he => hw u (by rw [hu, he])
    simp [Mutexes.setOwner, hm]
  refine ⟨h.finite, fun u m' hu => ?_, ?_, fun m' u hp hu => ?_, h.real⟩
  · rw [ho hu]; exact h.owned u m' hu
  · rw [setOwner_next hw]; exact h.ranked
  · rw [ho hu]; exact h.node m' u hp hu

theorem Ok.withNest (h : s.Ok c) (nest : Mutex → ℕ) : Ok c { s with nestLevel := nest } :=
  ⟨⟨{ h with }, h.consistent.of_eq rfl rfl rfl rfl rfl rfl rfl fun _ => rfl⟩, h.blocked, h.running⟩

/-! ## Waiting -/

theorem pathAcquire_eq (howned : ∀ t m, s.wait t = some m → (s.owner m).isSome)
    (ho : s.owner m = some o) (fuel : ℕ) :
    s.pathAcquire t fuel m = (meets s.next t fuel o).map (!·) := by
  induction fuel generalizing m o with
  | zero => rfl
  | succ fuel ih =>
    rw [pathAcquire, meets, ho]
    by_cases hot : o = t
    · simp [hot]
    · simp only [hot, if_false]
      cases hw : s.wait o with
      | none => simp [next, hw]
      | some m' =>
        obtain ⟨o', ho'⟩ := Option.isSome_iff_exists.mp (howned o m' hw)
        simp only [next, hw, Option.bind_some, ho']
        exact ih ho'

theorem Base.pathAcquire (h : s.Base c) (t : Thread) (ho : s.owner m = some o) :
    ∃ n, ∀ fuel, n ≤ fuel → ∃ r, (s.setWait t (some m)).pathAcquire t fuel m = some r ∧
      (r = false ↔ Relation.ReflTransGen (Edge s.next) o t) := by
  obtain ⟨rank, hrank⟩ := h.ranked
  refine ⟨rank o + 1, fun fuel hfuel => ?_⟩
  obtain ⟨r, hr, hiff⟩ := meets_eq hrank fuel o (by omega)
  have howned : ∀ u m', (s.setWait t (some m)).wait u = some m' → (s.owner m').isSome := by
    intro u m' hu
    by_cases hut : u = t
    · have hm : m = m' := by simpa [setWait, hut] using hu
      rw [← hm, ho]
      rfl
    · exact h.owned u m' (by simpa [setWait, hut] using hu)
  have hnext : ∀ u, u ≠ t → (s.setWait t (some m)).next u = s.next u := by
    intro u hu; simp [next, setWait, hu]
  refine ⟨!r, ?_, by simpa using hiff⟩
  rw [pathAcquire_eq howned ho, meets_congr hnext, hr]
  rfl

theorem Base.claim (h : s.Base c) (hw : s.wait t = none) (ho : s.owner m = some o)
    (hno : ¬ Relation.ReflTransGen (Edge s.next) o t) :
    (s.setWait t (some m)).clearPriorityUpdates.Consistent (some t) none ∧
      Ranked (s.setWait t (some m)).clearPriorityUpdates.next ∧
      ∀ u m', (s.setWait t (some m)).clearPriorityUpdates.wait u = some m' → (s.owner m').isSome := by
  refine ⟨⟨fun m' u => ?_, fun m' => (h.consistent.queue m').congr rfl rfl fun _ _ => rfl,
    fun u _ => (h.consistent.aggregationOk u).congr rfl (fun _ => Iff.rfl) fun _ _ => rfl, by simp,
    h.consistent.value⟩, ?_, fun u m' hu => ?_⟩
  · have hmem := h.consistent.mem m' u
    simp only [clearPriorityUpdates, setWait]
    rw [hmem]
    by_cases hu : u = t
    · simp [hu, hw]
    · simp [hu, Ne.symm hu]
  · have hnext : (s.setWait t (some m)).clearPriorityUpdates.next = update s.next t (some o) := by
      funext u
      by_cases hu : u = t
      · simp [next, clearPriorityUpdates, setWait, hu, ho]
      · simp [next, clearPriorityUpdates, setWait, hu]
    rw [hnext]
    exact h.ranked.link (by simp [next, hw]) hno
  · by_cases hut : u = t
    · have hm : m = m' := by simpa [clearPriorityUpdates, setWait, hut] using hu
      rw [← hm, ho]
      rfl
    · exact h.owned u m' (by simpa [clearPriorityUpdates, setWait, hut] using hu)

theorem Consistent.enqueue (h : s.Consistent (some t) none) (hw : s.wait t = some m)
    (ho : s.owner m = some o) (howned : ∀ t m, s.wait t = some m → (s.owner m).isSome)
    (hranked : Ranked s.next) (hup : s.updates = []) :
    ∃ n, ∀ fuel, n ≤ fuel → ∃ s' sn q, s.enqueue fuel m t = some s' ∧ s'.Consistent none none ∧
      Performed 1 { s with schedulerNode := sn, queue := update s.queue m q } s' ∧
      ∀ m', s.protocol m' = .inherit →
        sn m' = if m' = m ∧ (s.queue m).contributors = [] then o else s.schedulerNode m' := by
  obtain ⟨rank, hrank⟩ := hranked
  refine ⟨rank o + 1, fun fuel hfuel => ?_⟩
  cases hp : s.protocol m with
  | inherit =>
    obtain ⟨s', sn, q, hs', hrest⟩ := h.inheritEnqueue hw hp ho howned hrank hup hfuel
    exact ⟨s', sn, q, by simp [Mutexes.enqueue, hp, hs'], hrest⟩
  | ceiling =>
    obtain ⟨q, heq, hcons⟩ := h.priorityEnqueue hw hp
    refine ⟨_, s.schedulerNode, q, by simp [Mutexes.enqueue, hp, heq], hcons,
      ⟨.refl _, [], by simp, by simp, fun _ => .inl rfl⟩, fun m' hm' => ?_⟩
    have hm : m' ≠ m := by rintro rfl; rw [hp] at hm'; cases hm'
    simp [hm]

theorem Ok.node_enqueue {sn : Mutex → Thread} (h : s.Ok c) (ho : s.owner m = some o)
    (hsn : ∀ m', s.protocol m' = .inherit →
      sn m' = if m' = m ∧ (s.queue m).contributors = [] then o else s.schedulerNode m')
    (m' : Mutex) (u : Thread) (hp : s.protocol m' = .inherit)
    (hu : m' = m ∨ s.wait u = some m') : s.owner m' = some (sn m') := by
  rw [hsn m' hp]
  by_cases hm : m' = m
  · subst hm
    by_cases hnil : (s.queue m').contributors = []
    · simp [hnil, ho]
    · -- another thread waits for the mutex
      obtain ⟨w, hw⟩ := List.exists_mem_of_ne_nil _ hnil
      simp only [hnil, and_false, if_false]
      exact h.node m' w hp ((h.consistent.mem m' w).mp hw).1
  · simp only [hm, false_and, if_false]; exact h.node m' u hp (hu.resolve_left hm)

section

variable (h : s.Ok c) (hr : s.scheduler.isReady t = true) (ho : s.owner m = some o)
  (hno : ¬ Relation.ReflTransGen (Edge s.next) o t)

include h hr ho hno

/-- A ready thread comes to the queue. The scheduler is still to be told. -/
theorem Ok.enqueue : ∃ n, ∀ fuel, n ≤ fuel → ∃ s2,
      (s.setWait t (some m)).clearPriorityUpdates.enqueue fuel m t = some s2 ∧ s2.Base c ∧
      s2.scheduler.Running ∧ s2.scheduler.isReady = s.scheduler.isReady ∧
      (∀ u m', u ≠ t → s2.wait u = some m' → s2.scheduler.isReady u = false) ∧
      (s.Told [] → ∀ u, u ≠ t → s2.scheduler.isReady u = true →
        s2.scheduler.Current u ∨ u ∈ s2.updates) := by
  have hw := h.wait_of_ready hr
  obtain ⟨hcons, hranked, howned⟩ := h.claim hw ho hno
  set s1 := (s.setWait t (some m)).clearPriorityUpdates with hs1
  have hwt : s1.wait t = some m := by simp [hs1, clearPriorityUpdates, setWait]
  have hwu : ∀ u, u ≠ t → s1.wait u = s.wait u := by
    intro u hu; simp [hs1, clearPriorityUpdates, setWait, hu]
  obtain ⟨n, hn⟩ := hcons.enqueue hwt ho howned hranked rfl
  refine ⟨n, fun fuel hfuel => ?_⟩
  obtain ⟨s2, sn, q, hs2, hcons2, hperf, hsn⟩ := hn fuel hfuel
  have hgraph : Graph c { s1 with
      schedulerNode := sn, queue := Function.update s1.queue m q } := by
    refine ⟨(h.finite.insert t).subset fun u hu => ?_, howned, hranked,
      fun m' u hp hu => h.node_enqueue ho hsn m' u hp ?_, h.real⟩
    · by_cases hut : u = t
      · exact .inl hut
      · exact .inr (by simpa [hwu u hut] using hu)
    · by_cases hut : u = t
      · rw [hut] at hu; exact .inl (Option.some.inj (hu.symm.trans hwt))
      · exact .inr ((hwu u hut).symm.trans hu)
  have hready2 : s2.scheduler.isReady = s.scheduler.isReady := hperf.isReady
  have hblocked : ∀ u m', u ≠ t → s1.wait u = some m' → s2.scheduler.isReady u = false := by
    intro u m' hut hu; rw [hready2]; exact h.blocked u m' ((hwu u hut).symm.trans hu)
  refine ⟨s2, hs2, ⟨hperf.graph hgraph, hcons2⟩, hperf.running h.running, hready2,
    fun u m' hut hu => hblocked u m' hut (by rw [← hu, hperf.wait]), fun ht u hut hu => ?_⟩
  rcases hperf.told hcons.value hcons2.value ht u hu with hc | hmem | hsome
  · exact .inl hc
  · exact .inr hmem
  · obtain ⟨m', hm'⟩ := Option.isSome_iff_exists.mp hsome
    rw [hblocked u m' hut hm'] at hu
    cases hu

theorem Ok.wait (hother : ∃ u, u ≠ t ∧ s.scheduler.isReady u = true) :
    ∃ n, ∀ fuel, n ≤ fuel → ∃ s2 s3 s4,
      (s.setWait t (some m)).clearPriorityUpdates.enqueue fuel m t = some s2 ∧
      s2.block t = some s3 ∧ s3.priorityUpdate = some s4 ∧ s4.Ok c ∧ (s.Told [] → s4.Told []) := by
  obtain ⟨n, hn⟩ := h.enqueue hr ho hno
  refine ⟨n, fun fuel hfuel => ?_⟩
  obtain ⟨s2, hs2, hbase, hrun, hready2, hblocked, htold2⟩ := hn fuel hfuel
  obtain ⟨s3, hs3, hok3, hup3, hready3⟩ := hbase.block hrun hblocked (by rw [hready2]; exact hr)
    (by rw [hready2]; exact hother)
  obtain ⟨s4, hs4, hok4, -, -, htold⟩ := hok3.update
  refine ⟨s2, s3, s4, hs2, hs3, hs4, hok4, fun ht => htold fun u hu => ?_⟩
  obtain ⟨hu2, hut, hcur⟩ := hready3 u hu
  rw [hcur, hup3]
  exact htold2 ht u hut hu2

end

theorem setWait_setWait {m' : Option Mutex} (hw : s.wait t = none) :
    (s.setWait t m').setWait t none = s := by
  simp only [setWait, update_idem]
  rw [← hw, update_eq_self]

section

variable (h : s.Ok c) (hr : s.scheduler.isReady t = true) (ho : s.owner m = some o)

include h hr ho

theorem Ok.threadQueueEnqueue (hother : ¬ Relation.ReflTransGen (Edge s.next) o t →
      ∃ u, u ≠ t ∧ s.scheduler.isReady u = true) :
    ∃ n, ∀ fuel, n ≤ fuel → ∃ status s', s.threadQueueEnqueue fuel m t = some (status, s') ∧
      s'.Ok c ∧ (s.Told [] → s'.Told []) ∧
      (Relation.ReflTransGen (Edge s.next) o t → status = some .deadlock ∧ s' = s) ∧
      (¬ Relation.ReflTransGen (Edge s.next) o t → status = none) := by
  obtain ⟨n1, hpath⟩ := h.pathAcquire t ho
  by_cases hcyc : Relation.ReflTransGen (Edge s.next) o t
  · refine ⟨n1, fun fuel hfuel => ?_⟩
    obtain ⟨r, hr', hiff⟩ := hpath fuel hfuel
    obtain rfl := hiff.mpr hcyc
    refine ⟨some .deadlock, s, ?_, h, id, fun _ => ⟨rfl, rfl⟩, fun hno => absurd hcyc hno⟩
    simp [Mutexes.threadQueueEnqueue, hr', setWait_setWait (h.wait_of_ready hr)]
  · obtain ⟨n2, hwait⟩ := h.wait hr ho hcyc (hother hcyc)
    refine ⟨max n1 n2, fun fuel hfuel => ?_⟩
    obtain ⟨r, hr', hiff⟩ := hpath fuel ((le_max_left _ _).trans hfuel)
    obtain ⟨s2, s3, s4, h2, h3, h4, hok, htold⟩ := hwait fuel ((le_max_right _ _).trans hfuel)
    obtain rfl : r = true := by simpa using fun hf => hcyc (hiff.mp hf)
    refine ⟨none, s4, ?_, hok, htold, fun hc => absurd hc hcyc, fun _ => rfl⟩
    simp [Mutexes.threadQueueEnqueue, hr', h2, h3, h4]

theorem Ok.threadQueueEnqueue_last (hno : ¬ Relation.ReflTransGen (Edge s.next) o t)
    (hlast : ∀ u, s.scheduler.isReady u = true → u = t) :
    ∃ n, ∀ fuel, n ≤ fuel → s.threadQueueEnqueue fuel m t = none := by
  obtain ⟨n1, hpath⟩ := h.pathAcquire t ho
  obtain ⟨n2, henq⟩ := h.enqueue hr ho hno
  refine ⟨max n1 n2, fun fuel hfuel => ?_⟩
  obtain ⟨r, hr', hiff⟩ := hpath fuel ((le_max_left _ _).trans hfuel)
  obtain ⟨s2, hs2, -, hrun, hready2, -⟩ := henq fuel ((le_max_right _ _).trans hfuel)
  obtain rfl : r = true := by simpa using fun hf => hno (hiff.mp hf)
  have hblock : s2.block t = none := by
    rw [Mutexes.block, hrun.block_last fun u hu => hlast u (by rw [← hready2]; exact hu)]
    rfl
  simp [Mutexes.threadQueueEnqueue, hr', hs2, hblock]

end

/-! ## Ceiling mutexes: the owner -/

theorem not_lends_of_wait (hw : s.wait t = none) (o : Thread) : ¬ s.Lends t o := by
  rintro ⟨m, hm, -⟩; rw [hw] at hm; cases hm

theorem Frame.told {l : List Thread} (hf : s.Frame s')
    (hv : ∀ t, (s.scheduler.node t).value = s.priority t)
    (hv' : ∀ t, (s'.scheduler.node t).value = s'.priority t)
    (hpri : ∀ u, u ≠ t → s'.priority u = s.priority u) (ht : s.Told l)
    (hl : s'.priority t = s.priority t ∨ t ∈ l ∨ s.scheduler.isReady t = false) : s'.Told l := by
  intro u hu
  rw [hf.isReady] at hu
  have hsame : s'.priority u = s.priority u → s'.scheduler.Current u ∨ u ∈ l := by
    intro he
    refine (ht u hu).imp (fun hcur => ?_) id
    rw [SchedulerPriority.Current, hf.readyQueue, hv', he, ← hv]
    exact hcur
  by_cases hut : u = t
  · rcases hl with he | hm | hn
    · exact hsame (hut ▸ he)
    · exact .inr (hut ▸ hm)
    · rw [hut, hn] at hu; cases hu
  · exact hsame (hpri u hut)

theorem Ok.ceilingMutexSetOwner (h : s.Ok c) (hr : s.scheduler.isReady t = true)
    (ho : s.owner m = none) (hp : s.protocol m = .ceiling) (hup : s.updates = []) (fuel : ℕ) :
    ∃ status s', s.ceilingMutexSetOwner fuel m t = some (status, s') ∧ s'.Ok c ∧
      (s.Told [] → s'.Told []) := by
  by_cases hlt : s.priority t < s.ceiling m
  · exact ⟨.ceilingViolated, s, by simp [Mutexes.ceilingMutexSetOwner, hlt], h, id⟩
  have hw : (s.setOwner m (some t)).wait t = none := h.wait_of_ready hr
  have hnode : s.mutexNode m = .ceiling m := by simp [mutexNode, hp]
  have hcons := h.consistent.seize (t := t) ho (by
    rw [hnode]
    exact ⟨hp, setOwner_owner⟩)
  rw [hnode] at hcons
  obtain ⟨s1, hs1, hcons1, hframe, hpri, hupd, -⟩ := hcons.priorityApply_of_not_lends (by simp)
    (by simp [hw]) (by simp [Mutexes.setOwner, hup]) (not_lends_of_wait hw) fuel false
  have hok1 : s1.Ok c := hframe.ok (h.toGraph.setOwner (h.wait_ne ho)) h.blocked h.running hcons1
  obtain ⟨s2, hs2, hok2, -, -, htold⟩ := hok1.update
  refine ⟨.successful, s2, by simp [Mutexes.ceilingMutexSetOwner, hlt, hs1, hs2], hok2, fun ht => ?_⟩
  refine htold (hframe.told hcons.value hcons1.value hpri ?_ ?_)
  · exact fun u hu => (ht u hu).imp id fun hn => by cases hn
  · rcases hupd with ⟨-, hself⟩ | hu
    · exact .inl hself
    · exact .inr (.inl (by simp [hu]))

/-- Seizing waits: the mutex has an owner that does not wait for the thread. -/
def Waits (s : Mutexes) (t : Thread) (m : Mutex) (wait : Bool) : Prop :=
  wait = true ∧ ∃ o, s.owner m = some o ∧ ¬ Relation.ReflTransGen (Edge s.next) o t

theorem seize_owned (ho : s.owner m = some o) (fuel : ℕ) (wait : Bool) :
    s.seize fuel t m wait = if o = t then some (some .successful, s.seizeNested m)
      else s.seizeSlow fuel m t wait := by
  cases hp : s.protocol m with
  | inherit => simp [Mutexes.seize, hp, recursiveMutexSeize, ho]
  | ceiling => simp [Mutexes.seize, hp, ceilingMutexSeize, ho]

section

variable {wait : Bool} (h : s.Ok c) (hr : s.scheduler.isReady t = true)

include h hr

theorem Ok.seize (hother : s.Waits t m wait → ∃ u, u ≠ t ∧ s.scheduler.isReady u = true) :
    ∃ n, ∀ fuel, n ≤ fuel → ∃ status s', s.seize fuel t m wait = some (status, s') ∧ s'.Ok c ∧
      (s.Told [] → s'.Told []) := by
  cases ho : s.owner m with
  | none =>
    cases hp : s.protocol m with
    | inherit =>
      have hw := h.wait_ne ho
      refine ⟨0, fun fuel _ => ⟨some .successful, s.setOwner m (some t), ?_, ⟨⟨h.toGraph.setOwner hw,
        h.consistent.setOwner_empty hp (h.queue_nil hw)⟩, h.blocked, h.running⟩, id⟩⟩
      simp [Mutexes.seize, hp, recursiveMutexSeize, ho]
    | ceiling =>
      refine ⟨0, fun fuel _ => ?_⟩
      obtain ⟨status, s', hs', hrest⟩ := h.clear.ceilingMutexSetOwner hr ho hp rfl fuel
      exact ⟨some status, s', by simp [Mutexes.seize, hp, ceilingMutexSeize, ho, hs'], hrest⟩
  | some o =>
    simp only [seize_owned ho]
    by_cases hot : o = t
    · exact ⟨0, fun fuel _ => ⟨_, _, if_pos hot, h.withNest _, id⟩⟩
    · simp only [if_neg hot, seizeSlow]
      cases wait with
      | false => exact ⟨0, fun fuel _ => ⟨_, s, rfl, h, id⟩⟩
      | true =>
        obtain ⟨n, hn⟩ := h.threadQueueEnqueue hr ho fun hno => hother ⟨rfl, o, ho, hno⟩
        refine ⟨n, fun fuel hfuel => ?_⟩
        obtain ⟨status, s', hs', hok, htold, -⟩ := hn fuel hfuel
        exact ⟨status, s', by simpa using hs', hok, htold⟩

theorem Ok.seize_last
    (hwaits : s.Waits t m wait) (hlast : ∀ u, s.scheduler.isReady u = true → u = t) :
    ∃ n, ∀ fuel, n ≤ fuel → s.seize fuel t m wait = none := by
  obtain ⟨rfl, o, ho, hno⟩ := hwaits
  have hot : o ≠ t := by rintro rfl; exact hno .refl
  simpa [seize_owned ho, hot, seizeSlow] using h.threadQueueEnqueue_last hr ho hno hlast

end

end Mutexes

end Rtems
