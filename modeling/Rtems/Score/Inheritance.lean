import Rtems.Lib.WaitFor
import Rtems.Score.Mutex

/-!
# Priority actions

A changed priority travels from a thread to the queue that it waits on, and from there to the owner.

* `Consistent`: every queue and every aggregation is in order, but for one action that is still to
  be performed;
* `Performed`: what performing actions leaves as it is, and which priorities it changes;
* **`Consistent.doPerformActions`**: one action, and **`Consistent.performLoop`**: all that follow
  from it, `Consistent.priorityApply`.
-/

namespace Rtems

open Function Aggregation

namespace Mutexes

/-- The real priority of a thread, and the nodes of the mutexes that it owns. -/
def Expected (s : Mutexes) (t : Thread) : PriorityNode → Prop
  | .real => True
  | .queue m => s.protocol m = .inherit ∧ s.owner m = some t ∧ (s.queue m).contributors ≠ []
  | .ceiling m => s.protocol m = .ceiling ∧ s.owner m = some t

/-- A queue is in the order of priorities, and has the least with inheritance. -/
structure QueueOk (s : Mutexes) (m : Mutex) : Prop where
  sorted : Sorted s.priority (s.queue m).contributors
  head : s.protocol m = .inherit → (s.queue m).contributors ≠ [] → (s.queue m).Ok s.priority

/-- An aggregation has the nodes that belong there, and the least priority. -/
structure AggregationOk (s : Mutexes) (t : Thread) : Prop where
  ok : (s.aggregation t).Ok (s.nodePriority t)
  mem : ∀ n, n ∈ (s.aggregation t).contributors ↔ s.Expected t n

/-- The aggregation before an action: a node is missing, left over, or changed. -/
def ActionOk (s : Mutexes) (act : PriorityAction) : Prop :=
  let a := s.aggregation act.thread
  let key := s.nodePriority act.thread
  match act.type with
  | .add => a.Ok key ∧ s.Expected act.thread act.node ∧
      ∀ n, n ∈ a.contributors ↔ s.Expected act.thread n ∧ n ≠ act.node
  | .remove => a.Ok key ∧ ¬ s.Expected act.thread act.node ∧
      ∀ n, n ∈ a.contributors ↔ s.Expected act.thread n ∨ n = act.node
  | .change => a.contributors.Nodup ∧ Sorted key (a.contributors.erase act.node) ∧
      s.Expected act.thread act.node ∧ ∀ n, n ∈ a.contributors ↔ s.Expected act.thread n

/-- Queues and aggregations are in order, but for the action; `ex` may have left. -/
structure Consistent (s : Mutexes) (ex : Option Thread) (pending : Option PriorityAction) : Prop where
  mem : ∀ m t, t ∈ (s.queue m).contributors ↔ s.wait t = some m ∧ ex ≠ some t
  queue : ∀ m, s.QueueOk m
  aggregation : ∀ t, (∀ act, pending = some act → act.thread ≠ t) → s.AggregationOk t
  action : ∀ act, pending = some act → s.ActionOk act
  value : ∀ t, (s.scheduler.node t).value = s.priority t

/-- The fields that priority actions do not touch. -/
structure Frame (s s' : Mutexes) : Prop where
  protocol : s'.protocol = s.protocol
  ceiling : s'.ceiling = s.ceiling
  owner : s'.owner = s.owner
  nestLevel : s'.nestLevel = s.nestLevel
  schedulerNode : s'.schedulerNode = s.schedulerNode
  wait : s'.wait = s.wait
  realPriority : s'.realPriority = s.realPriority
  queue : ∀ m, (s'.queue m).contributors.Perm (s.queue m).contributors
  bitMap : s'.scheduler.bitMap = s.scheduler.bitMap
  ready : s'.scheduler.ready = s.scheduler.ready
  isReady : s'.scheduler.isReady = s.scheduler.isReady
  heir : s'.scheduler.heir = s.scheduler.heir
  readyQueue : ∀ t, (s'.scheduler.node t).readyQueue = (s.scheduler.node t).readyQueue

/-- At most `n` threads are added to the updates; others changed wait. -/
structure Performed (n : ℕ) (s s' : Mutexes) : Prop extends Frame s s' where
  updates : ∃ l, s'.updates = s.updates ++ l ∧ l.length ≤ n ∧
    ∀ t, s'.priority t = s.priority t ∨ t ∈ l ∨ (s.wait t).isSome

variable {s s' s'' : Mutexes} {ex : Option Thread} {act : PriorityAction} {t : Thread} {m : Mutex}

theorem Frame.refl (s : Mutexes) : s.Frame s :=
  ⟨rfl, rfl, rfl, rfl, rfl, rfl, rfl, fun _ => .refl _, rfl, rfl, rfl, rfl, fun _ => rfl⟩

theorem Frame.trans (h : s.Frame s') (h' : s'.Frame s'') : s.Frame s'' where
  protocol := h'.protocol.trans h.protocol
  ceiling := h'.ceiling.trans h.ceiling
  owner := h'.owner.trans h.owner
  nestLevel := h'.nestLevel.trans h.nestLevel
  schedulerNode := h'.schedulerNode.trans h.schedulerNode
  wait := h'.wait.trans h.wait
  realPriority := h'.realPriority.trans h.realPriority
  queue m := (h'.queue m).trans (h.queue m)
  bitMap := h'.bitMap.trans h.bitMap
  ready := h'.ready.trans h.ready
  isReady := h'.isReady.trans h.isReady
  heir := h'.heir.trans h.heir
  readyQueue t := (h'.readyQueue t).trans (h.readyQueue t)

theorem Frame.next (h : s.Frame s') : s'.next = s.next := by
  funext t; rw [Mutexes.next, Mutexes.next, h.wait, h.owner]

/-- `t` waits for `o`, and gives it its priority. -/
def Lends (s : Mutexes) (t o : Thread) : Prop :=
  ∃ m, s.wait t = some m ∧ s.protocol m = .inherit ∧ s.owner m = some o

theorem Lends.next {o : Thread} (h : s.Lends t o) : s.next t = some o := by
  obtain ⟨m, hw, -, ho⟩ := h; simp [Mutexes.next, hw, ho]

theorem Frame.lends {o : Thread} (h : s.Frame s') : s'.Lends t o ↔ s.Lends t o := by
  rw [Lends, Lends, h.wait, h.protocol, h.owner]

theorem Frame.expected (h : s.Frame s') (n : PriorityNode) : s'.Expected t n ↔ s.Expected t n := by
  cases n with
  | real => exact Iff.rfl
  | queue m =>
    have hnil : (s'.queue m).contributors = [] ↔ (s.queue m).contributors = [] := by
      have hp := h.queue m; exact ⟨fun he => (he ▸ hp).nil_eq.symm, fun he => (he ▸ hp).eq_nil⟩
    simp only [Expected, h.protocol, h.owner, ne_eq, hnil]
  | ceiling m => simp only [Expected, h.protocol, h.owner]

/-! ## One action -/

theorem ActionOk.performAction (h : s.ActionOk act) (b : Bool) :
    ∃ a changed p, s.performAction act b = some (s.setAggregation act.thread a changed p, changed) ∧
      a.Ok (s.nodePriority act.thread) ∧
      (∀ n, n ∈ a.contributors ↔ s.Expected act.thread n) ∧
      (changed = false → a.priority = s.priority act.thread) := by
  obtain ⟨u, n, type⟩ := act
  cases type with
  | add =>
    obtain ⟨hok, hexp, hmem⟩ := h
    have hn : n ∉ (s.aggregation u).contributors := by simp [hmem]
    obtain ⟨a, c, heq, hok', hperm, hpri⟩ := hok.nonEmptyInsert hn
    refine ⟨a, c, false, by simp [Mutexes.performAction, heq], hok', fun x => ?_, hpri⟩
    rw [hperm.mem_iff, List.mem_cons, hmem]
    by_cases hx : x = n
    · simp [hx, hexp]
    · simp [hx]
  | remove =>
    obtain ⟨hok, hexp, hmem⟩ := h
    have hreal : PriorityNode.real ≠ n := by rintro rfl; exact hexp trivial
    obtain ⟨a, c, heq, hok', hcon, hpri⟩ := hok.extractNonEmpty ((hmem n).mpr (.inr rfl))
      ((hmem .real).mpr (.inl trivial)) hreal
    refine ⟨a, c, true, by simp [Mutexes.performAction, heq], hok', fun x => ?_, hpri⟩
    rw [hcon, hok.nodup.mem_erase_iff, hmem]
    by_cases hx : x = n
    · simp [hx, hexp]
    · simp [hx]
  | change =>
    obtain ⟨hnodup, hsorted, hexp, hmem⟩ := h
    obtain ⟨a, c, heq, hok', hperm, hpri⟩ := Ok.changed hnodup hsorted ((hmem n).mpr hexp)
    exact ⟨a, c, b, by simp [Mutexes.performAction, heq], hok', fun x => by
      rw [hperm.mem_iff, hmem], hpri⟩

section SetAggregation

variable {a : Aggregation PriorityNode} {changed p : Bool} {u : Thread}

theorem setAggregation_priority_of_ne (hu : u ≠ t) :
    (s.setAggregation t a changed p).priority u = s.priority u := by
  simp [priority, setAggregation, hu]

theorem setAggregation_priority_self :
    (s.setAggregation t a changed p).priority t = a.priority := by
  simp [priority, setAggregation]

theorem setAggregation_frame : s.Frame (s.setAggregation t a changed p) := by
  refine ⟨rfl, rfl, rfl, rfl, rfl, rfl, rfl, fun _ => .refl _, ?_, ?_, ?_, ?_, fun u => ?_⟩
  · cases changed <;> rfl
  · cases changed <;> rfl
  · cases changed <;> rfl
  · cases changed <;> rfl
  · cases changed
    · rfl
    · exact SchedulerPriority.setPriority_readyQueue t u a.priority p

theorem setAggregation_value (h : ∀ u, (s.scheduler.node u).value = s.priority u)
    (hc : changed = false → a.priority = s.priority t) (u : Thread) :
    ((s.setAggregation t a changed p).scheduler.node u).value =
      (s.setAggregation t a changed p).priority u := by
  by_cases hu : u = t
  · rw [hu, setAggregation_priority_self]
    cases changed with
    | true => simp [setAggregation, SchedulerPriority.setPriority]
    | false => rw [hc rfl, ← h t]; rfl
  · rw [setAggregation_priority_of_ne hu, ← h u]
    cases changed with
    | true => simp [setAggregation, SchedulerPriority.setPriority, hu]
    | false => rfl

end SetAggregation

variable {pending : Option PriorityAction}

theorem Consistent.of_eq (h : s.Consistent ex pending)
    (hp : s'.protocol = s.protocol) (hc : s'.ceiling = s.ceiling) (ho : s'.owner = s.owner)
    (hq : s'.queue = s.queue) (hw : s'.wait = s.wait) (hr : s'.realPriority = s.realPriority)
    (ha : s'.aggregation = s.aggregation)
    (hv : ∀ t, (s'.scheduler.node t).value = (s.scheduler.node t).value) :
    s'.Consistent ex pending := by
  cases s
  cases s'
  simp only at hp hc ho hq hw hr ha
  subst hp hc ho hq hw hr ha
  exact ⟨h.mem, fun m => ⟨(h.queue m).sorted, (h.queue m).head⟩,
    fun t ht => ⟨(h.aggregation t ht).ok, (h.aggregation t ht).mem⟩, h.action,
    fun t => (hv t).trans (h.value t)⟩

theorem QueueOk.congr (h : s.QueueOk m) (hp : s'.protocol m = s.protocol m)
    (hq : s'.queue m = s.queue m)
    (hk : ∀ t ∈ (s.queue m).contributors, s'.priority t = s.priority t) : s'.QueueOk m := by
  refine ⟨?_, ?_⟩
  · rw [hq]; exact h.sorted.congr hk
  · rw [hq, hp]; exact fun hi hn => (h.head hi hn).congr hk

theorem AggregationOk.congr (h : s.AggregationOk t) (ha : s'.aggregation t = s.aggregation t)
    (he : ∀ n, s'.Expected t n ↔ s.Expected t n)
    (hk : ∀ n, s.Expected t n → s'.nodePriority t n = s.nodePriority t n) : s'.AggregationOk t := by
  refine ⟨?_, fun n => ?_⟩
  · rw [ha]; exact h.ok.congr fun n hn => hk n ((h.mem n).mp hn)
  · rw [ha, he, h.mem]

/-- What is left to do after the priority of a thread has changed. -/
structure Moved (s : Mutexes) (ex : Option Thread) (u : Thread) : Prop where
  mem : ∀ m t, t ∈ (s.queue m).contributors ↔ s.wait t = some m ∧ ex ≠ some t
  queue : ∀ m, s.wait u ≠ some m → s.QueueOk m
  sorted : ∀ m, s.wait u = some m → (s.queue m).contributors.Nodup ∧
    Sorted s.priority ((s.queue m).contributors.erase u)
  aggregation : ∀ t, s.AggregationOk t
  value : ∀ t, (s.scheduler.node t).value = s.priority t

theorem Consistent.moved {a : Aggregation PriorityNode} {changed p : Bool}
    (h : s.Consistent ex (some act)) (ha : a.Ok (s.nodePriority act.thread))
    (hmem : ∀ n, n ∈ a.contributors ↔ s.Expected act.thread n)
    (hc : changed = false → a.priority = s.priority act.thread) :
    (s.setAggregation act.thread a changed p).Moved ex act.thread := by
  have hpri : ∀ t, t ≠ act.thread →
      (s.setAggregation act.thread a changed p).priority t = s.priority t :=
    fun t => setAggregation_priority_of_ne
  refine ⟨h.mem, fun m hm => ?_, fun m hm => ?_, fun t => ?_, setAggregation_value h.value hc⟩
  · refine (h.queue m).congr rfl rfl fun t ht => hpri t ?_
    rintro rfl
    exact hm ((h.mem m _).mp ht).1
  · refine ⟨(h.queue m).sorted.nodup, ((h.queue m).sorted.erase act.thread).congr fun t ht => ?_⟩
    refine hpri t ?_
    rintro rfl
    exact (h.queue m).sorted.nodup.not_mem_erase ht
  · by_cases ht : t = act.thread
    · subst ht
      have hself : (s.setAggregation act.thread a changed p).aggregation act.thread = a := by
        simp [setAggregation]
      refine ⟨?_, fun n => ?_⟩
      · rw [hself]; exact ha
      · rw [hself]; exact hmem n
    · refine (h.aggregation t ?_).congr ?_ (fun _ => Iff.rfl) (fun _ _ => rfl)
      · rintro _ ⟨⟩ he; exact ht he.symm
      · simp [setAggregation, ht]

theorem Moved.consistent (h : s.Moved ex t) (hq : ∀ m, s.QueueOk m) : s.Consistent ex none where
  mem := h.mem
  queue := hq
  aggregation t _ := h.aggregation t
  action := by simp
  value := h.value

theorem setQueue_frame {q : Aggregation Thread}
    (hperm : q.contributors.Perm (s.queue m).contributors) :
    s.Frame { s with queue := update s.queue m q } := by
  refine ⟨rfl, rfl, rfl, rfl, rfl, rfl, rfl, fun m' => ?_, rfl, rfl, rfl, rfl, fun _ => rfl⟩
  by_cases hm : m' = m
  · subst hm; simpa using hperm
  · simp [hm]

/-- What a new queue means for the aggregation of the owner. -/
def QueuePending (s : Mutexes) (m : Mutex) (q : Aggregation Thread) : Option PriorityAction → Prop
  | none => s.protocol m = .ceiling ∨ s.owner m = none ∨
      (q.contributors = [] ↔ (s.queue m).contributors = []) ∧ q.priority = (s.queue m).priority
  | some ⟨o, n, type⟩ => s.protocol m = .inherit ∧ s.owner m = some o ∧ n = .queue m ∧
      match type with
      | .add => (s.queue m).contributors = [] ∧ q.contributors ≠ []
      | .remove => (s.queue m).contributors ≠ [] ∧ q.contributors = [] ∧
          q.priority = (s.queue m).priority
      | .change => (s.queue m).contributors ≠ [] ∧ q.contributors ≠ []

section SetQueue

variable {q : Aggregation Thread} {sn : Mutex → Thread} {u : Thread} {n : PriorityNode}

theorem setQueue_nodePriority (hn : n ≠ .queue m) :
    { s with schedulerNode := sn, queue := update s.queue m q }.nodePriority u n =
      s.nodePriority u n := by
  cases n with
  | real => rfl
  | queue m' =>
    have hm' : m' ≠ m := fun he => hn (congrArg _ he)
    simp [nodePriority, hm']
  | ceiling m' => rfl

theorem setQueue_expected (hn : n ≠ .queue m) :
    { s with schedulerNode := sn, queue := update s.queue m q }.Expected u n ↔ s.Expected u n := by
  cases n with
  | real => exact Iff.rfl
  | queue m' =>
    have hm' : m' ≠ m := fun he => hn (congrArg _ he)
    simp [Expected, hm']
  | ceiling m' => exact Iff.rfl

theorem AggregationOk.setQueue (h : s.AggregationOk u)
    (he : s.protocol m = .inherit → s.owner m = some u →
      (q.contributors = [] ↔ (s.queue m).contributors = []) ∧ q.priority = (s.queue m).priority) :
    { s with schedulerNode := sn, queue := update s.queue m q }.AggregationOk u := by
  refine h.congr rfl (fun n => ?_) fun n hn => ?_
  · by_cases hnm : n = .queue m
    · subst hnm
      simp only [Expected, update_self]
      exact and_congr_right fun hp => and_congr_right fun ho => not_congr (he hp ho).1
    · exact setQueue_expected hnm
  · by_cases hnm : n = .queue m
    · subst hnm; simpa [nodePriority] using (he hn.1 hn.2.1).2
    · exact setQueue_nodePriority hnm

theorem AggregationOk.actionOk (h : s.AggregationOk act.thread)
    (hp : s.QueuePending m q (some act)) :
    { s with schedulerNode := sn, queue := update s.queue m q }.ActionOk act := by
  obtain ⟨o, _, type⟩ := act
  obtain ⟨hi, ho, rfl, hp⟩ := hp
  have hok : PriorityNode.queue m ∉ (s.aggregation o).contributors → (s.aggregation o).Ok ({ s with
        schedulerNode := sn, queue := update s.queue m q }.nodePriority o) := by
    intro hno
    refine h.ok.congr fun n hn => setQueue_nodePriority ?_
    rintro rfl
    exact hno hn
  cases type with
  | add =>
    have hno : PriorityNode.queue m ∉ (s.aggregation o).contributors := by
      rw [h.mem]; exact fun he => he.2.2 hp.1
    refine ⟨hok hno, ⟨hi, ho, by simpa using hp.2⟩, fun n => ?_⟩
    by_cases hn : n = .queue m
    · subst hn; simpa using hno
    · rw [setQueue_expected hn]
      simp only [hn, ne_eq, not_false_eq_true, and_true]
      exact h.mem n
  | remove =>
    obtain ⟨hne, hnil, hpri⟩ := hp
    refine ⟨h.ok.congr fun n _ => ?_, fun he => he.2.2 (by simpa using hnil), fun n => ?_⟩
    · by_cases hn : n = .queue m
      · subst hn; simpa [nodePriority] using hpri
      · exact setQueue_nodePriority hn
    · by_cases hn : n = .queue m
      · subst hn; simp only [or_true, iff_true]; exact (h.mem _).mpr ⟨hi, ho, hne⟩
      · rw [setQueue_expected hn]; simp only [hn, or_false]; exact h.mem n
  | change =>
    refine ⟨h.ok.nodup, ?_, ⟨hi, ho, by simpa using hp.2⟩, fun n => ?_⟩
    · refine (h.ok.toSorted.erase _).congr fun n hn => setQueue_nodePriority ?_
      rintro rfl
      exact h.ok.nodup.not_mem_erase hn
    · by_cases hn : n = .queue m
      · subst hn; exact iff_of_true ((h.mem _).mpr ⟨hi, ho, hp.1⟩) ⟨hi, ho, by simpa using hp.2⟩
      · rw [setQueue_expected hn]; exact h.mem n

/-- **The queue of a mutex is new**; what that means for the owner is left. -/
theorem consistent_setQueue
    (hmem : ∀ m' u, u ∈ (update s.queue m q m').contributors ↔ s.wait u = some m' ∧ ex ≠ some u)
    (hqueue : ∀ m', m' ≠ m → s.QueueOk m') (hsorted : Sorted s.priority q.contributors)
    (hok : s.protocol m = .inherit → q.contributors ≠ [] → q.Ok s.priority)
    (hagg : ∀ u, s.AggregationOk u) (hvalue : ∀ t, (s.scheduler.node t).value = s.priority t)
    (hpend : s.QueuePending m q pending) :
    { s with schedulerNode := sn, queue := update s.queue m q }.Consistent ex pending := by
  refine ⟨hmem, fun m' => ?_, fun u hu => (hagg u).setQueue fun hi ho => ?_, fun act hact => ?_,
    hvalue⟩
  · by_cases hm' : m' = m
    · subst hm'
      refine ⟨?_, fun hi hne => ?_⟩
      · simp only [update_self]; exact hsorted
      · simp only [update_self] at hne ⊢; exact hok hi hne
    · exact (hqueue m' hm').congr rfl (by simp [hm']) fun _ _ => rfl
  · cases pending with
    | none =>
      rcases hpend with hc | hn | he
      · rw [hi] at hc; cases hc
      · rw [ho] at hn; cases hn
      · exact he
    | some act =>
      obtain ⟨-, ho', -, -⟩ := hpend
      exact absurd (Option.some.inj (ho'.symm.trans ho)) (hu _ rfl)
  · subst hact; exact (hagg act.thread).actionOk hpend

end SetQueue

theorem Moved.priorityActions (h : s.Moved ex t) (ht : ex ≠ some t)
    (howned : ∀ m, s.wait t = some m → (s.owner m).isSome) :
    ∃ s' rest, s.priorityActions t = some (s', rest) ∧ s'.Consistent ex rest ∧ s.Frame s' ∧
      s'.updates = s.updates ∧ s'.aggregation = s.aggregation ∧
      (s.wait t = none → s'.queue = s.queue) ∧
      ∀ act, rest = some act → s.Lends t act.thread := by
  cases hw : s.wait t with
  | none =>
    refine ⟨s, none, by simp [Mutexes.priorityActions, hw], h.consistent fun m => h.queue m ?_,
      .refl s, rfl, rfl, fun _ => rfl, by simp⟩
    simp [hw]
  | some m =>
    have hmem : t ∈ (s.queue m).contributors := (h.mem m t).mpr ⟨hw, ht⟩
    obtain ⟨hnodup, hsorted⟩ := h.sorted m hw
    have hqueue : ∀ m', m' ≠ m → s.QueueOk m' := by
      refine fun m' hm' => h.queue m' ?_
      rw [hw]
      exact fun he => hm' (Option.some.inj he).symm
    have hmem' : ∀ {q : Aggregation Thread}, q.contributors.Perm (s.queue m).contributors →
        ∀ m' u, u ∈ (update s.queue m q m').contributors ↔ s.wait u = some m' ∧ ex ≠ some u := by
      intro q hperm m' u
      rw [((setQueue_frame hperm).queue m').mem_iff]
      exact h.mem m' u
    cases hp : s.protocol m with
    | ceiling =>
      obtain ⟨q, hq, hs, hperm⟩ : ∃ q, (s.queue m).plainChanged s.priority t = some q ∧
          Sorted s.priority q.contributors ∧
          q.contributors.Perm (s.queue m).contributors :=
        ⟨_, plainChanged_of_mem hmem, hsorted.move hnodup hmem⟩
      refine ⟨_, none, by simp [Mutexes.priorityActions, hw, hp, hq],
        consistent_setQueue (hmem' hperm) hqueue hs (by simp [hp]) h.aggregation h.value (.inl hp),
        setQueue_frame hperm, rfl, rfl, by simp, by simp⟩
    | inherit =>
      obtain ⟨o, ho⟩ := Option.isSome_iff_exists.mp (howned m hw)
      obtain ⟨q, c, heq, hok, hperm, hpri⟩ := Ok.changed hnodup hsorted hmem
      have hne : (s.queue m).contributors ≠ [] := List.ne_nil_of_mem hmem
      refine ⟨_, if c then some ⟨o, .queue m, .change⟩ else none,
        by simp [Mutexes.priorityActions, hw, hp, ho, heq],
        consistent_setQueue (hmem' hperm) hqueue hok.toSorted (fun _ _ => hok) h.aggregation h.value ?_,
        setQueue_frame hperm, rfl, rfl, by simp, ?_⟩
      · have hne' : q.contributors ≠ [] := fun he => hne (he ▸ hperm).nil_eq.symm
        cases c with
        | true => exact ⟨hp, ho, rfl, hne, hne'⟩
        | false => exact .inr (.inr ⟨iff_of_false hne' hne, hpri rfl⟩)
      · intro act hact
        cases c with
        | true => cases hact; exact ⟨m, hw, hp, ho⟩
        | false => cases hact

theorem Consistent.doPerformActions (h : s.Consistent ex (some act)) (hex : ex ≠ some act.thread)
    (howned : ∀ m, s.wait act.thread = some m → (s.owner m).isSome)
    (hup : s.updates.length < 2) (b : Bool) :
    ∃ s' rest, s.doPerformActions act b = some (s', rest) ∧ s'.Consistent ex rest ∧ s.Frame s' ∧
      (∀ t, t ≠ act.thread → s'.priority t = s.priority t) ∧
      (s'.updates = s.updates ∧ s'.priority act.thread = s.priority act.thread ∧ rest = none ∨
        s'.updates = s.updates ++ [act.thread]) ∧
      (s.wait act.thread = none → s'.queue = s.queue) ∧
      ∀ act', rest = some act' → s.Lends act.thread act'.thread := by
  obtain ⟨a, changed, p, heq, ha, hmem, hc⟩ := (h.action act rfl).performAction b
  have hmoved := h.moved (p := p) ha hmem hc
  have hpri : ∀ t, t ≠ act.thread →
      (s.setAggregation act.thread a changed p).priority t = s.priority t :=
    fun t => setAggregation_priority_of_ne
  cases changed with
  | false =>
    refine ⟨_, none, by simp [Mutexes.doPerformActions, heq, follow],
      hmoved.consistent fun m => (h.queue m).congr rfl rfl fun t _ => ?_, setAggregation_frame, hpri,
      .inl ⟨rfl, setAggregation_priority_self.trans (hc rfl), rfl⟩, fun _ => rfl, by simp⟩
    by_cases ht : t = act.thread
    · rw [ht, setAggregation_priority_self, hc rfl]
    · exact hpri t ht
  | true =>
    set s1 := s.setAggregation act.thread a true p with hs1
    set s2 := { s1 with updates := s.updates ++ [act.thread] } with hs2
    have hadd : s1.addPriorityUpdate act.thread = some s2 := if_pos hup
    have hmoved2 : s2.Moved ex act.thread :=
      ⟨hmoved.mem, fun m hm => (hmoved.queue m hm).congr rfl rfl fun _ _ => rfl, hmoved.sorted,
        fun t => (hmoved.aggregation t).congr rfl (fun _ => Iff.rfl) fun _ _ => rfl, hmoved.value⟩
    have hframe2 : s.Frame s2 :=
      (setAggregation_frame).trans ⟨rfl, rfl, rfl, rfl, rfl, rfl, rfl, fun _ => .refl _, rfl,
        rfl, rfl, rfl, fun _ => rfl⟩
    obtain ⟨s', rest, hact, hcons, hframe, hupd, hagg, hqueue, hnext⟩ :=
      hmoved2.priorityActions hex howned
    refine ⟨s', rest, by simp [Mutexes.doPerformActions, heq, follow, hadd, hact], hcons,
      hframe2.trans hframe, fun t ht => ?_, .inr hupd, hqueue, fun act' hr => ?_⟩
    · rw [← hpri t ht, priority, priority, hagg]
    · exact hframe2.lends.mp (hnext act' hr)

/-! ## All that follow from it -/

theorem Frame.withUpdates (h : s.Frame s') (l : List Thread) : s.Frame { s' with updates := l } :=
  { h with }

variable {rank : Thread → ℕ}

theorem Consistent.performLoop {next : Thread → Option Thread}
    (hrank : ∀ a b, next a = some b → rank b < rank a) (fuel : ℕ) :
    ∀ {s : Mutexes} {act : PriorityAction}, s.next = next → rank act.thread < fuel →
      s.Consistent ex (some act) → (∀ t m, s.wait t = some m → (s.owner m).isSome) →
      (∀ t, ex = some t → rank act.thread < rank t) →
      s.updates.length < 2 → ∃ s', performLoop s.updates.length fuel s act = some s' ∧
        s'.Consistent ex none ∧ s.Performed 1 s' := by
  induction fuel with
  | zero => intro s act _ hlt; omega
  | succ fuel ih =>
    intro s act hn hlt h howned hex hup
    have hne : ex ≠ some act.thread := fun he => (hex _ he).false
    obtain ⟨s1, rest, hdo, hcons, hframe, hpri, hupd, -, hnext⟩ :=
      h.doPerformActions hne (howned _) hup false
    cases rest with
    | none =>
      refine ⟨s1, by simp [Mutexes.performLoop, hdo], hcons, hframe, ?_⟩
      rcases hupd with ⟨hu, hself, -⟩ | hu
      · refine ⟨[], by simp [hu], by simp, fun t => .inl ?_⟩
        by_cases ht : t = act.thread
        · rw [ht, hself]
        · exact hpri t ht
      · refine ⟨[act.thread], hu, le_rfl, fun t => ?_⟩
        by_cases ht : t = act.thread
        · exact .inr (.inl (by simp [ht]))
        · exact .inl (hpri t ht)
    | some act1 =>
      have hedge := (hnext act1 rfl).next
      have hlt1 : rank act1.thread < rank act.thread := hrank _ _ (hn ▸ hedge)
      have hu : s1.updates = s.updates ++ [act.thread] := by
        rcases hupd with ⟨-, -, hr⟩ | hu
        · cases hr
        · exact hu
      -- the thread waits, so its entry is dropped
      have hres : s1.restorePriorityUpdates s.updates.length = { s1 with updates := s.updates } := by
        simp [restorePriorityUpdates, hu]
      obtain ⟨s', hloop, hcons', hperf⟩ := ih (s := { s1 with updates := s.updates })
        (hframe.next.trans hn) (by omega) (hcons.of_eq rfl rfl rfl rfl rfl rfl rfl fun _ => rfl)
        (by rw [hframe.wait, hframe.owner]; exact howned)
        (fun t ht => hlt1.trans (hex t ht)) hup
      obtain ⟨l, hl, hlen, hall⟩ := hperf.updates
      refine ⟨s', ?_, hcons', (hframe.withUpdates s.updates).trans hperf.toFrame, l, hl, hlen,
        fun t => ?_⟩
      · simp only [Mutexes.performLoop, hdo, Option.bind_eq_bind, Option.bind_some, hres]
        exact hloop
      · have hwait : s1.wait = s.wait := hframe.wait
        by_cases ht : t = act.thread
        · refine .inr (.inr ?_)
          rw [ht]
          by_contra hnone
          rw [Option.not_isSome_iff_eq_none] at hnone
          simp [Mutexes.next, hnone] at hedge
        · rcases hall t with he | hor
          · exact .inl (he.trans (hpri t ht))
          · exact .inr (hor.imp id fun hw => by rw [← hwait]; exact hw)

theorem Consistent.priorityApply_of_not_lends (h : s.Consistent ex (some act))
    (hex : ex ≠ some act.thread) (howned : ∀ m, s.wait act.thread = some m → (s.owner m).isSome)
    (hup : s.updates.length < 2) (hno : ∀ o, ¬ s.Lends act.thread o)
    (fuel : ℕ) (b : Bool) :
    ∃ s', s.priorityApply fuel act b = some s' ∧ s'.Consistent ex none ∧ s.Frame s' ∧
      (∀ t, t ≠ act.thread → s'.priority t = s.priority t) ∧
      (s'.updates = s.updates ∧ s'.priority act.thread = s.priority act.thread ∨
        s'.updates = s.updates ++ [act.thread]) ∧
      (s.wait act.thread = none → s'.queue = s.queue) := by
  obtain ⟨s1, rest, hdo, hcons, hframe, hpri, hupd, hqueue, hnext⟩ :=
    h.doPerformActions hex howned hup b
  cases rest with
  | none =>
    refine ⟨s1, by simp [Mutexes.priorityApply, hdo], hcons, hframe, hpri, ?_, hqueue⟩
    exact hupd.imp (fun hu => ⟨hu.1, hu.2.1⟩) id
  | some act1 => exact absurd (hnext act1 rfl) (hno _)

theorem Consistent.priorityApply
    (hrank : ∀ a b, s.next a = some b → rank b < rank a) (h : s.Consistent none (some act))
    (howned : ∀ t m, s.wait t = some m → (s.owner m).isSome) (hup : s.updates = []) {fuel : ℕ}
    (hfuel : rank act.thread ≤ fuel) (b : Bool) :
    ∃ s', s.priorityApply fuel act b = some s' ∧ s'.Consistent none none ∧ s.Performed 2 s' := by
  obtain ⟨s1, rest, hdo, hcons, hframe, hpri, hupd, -, hnext⟩ :=
    h.doPerformActions (by simp) (howned _) (by simp [hup]) b
  have hall : ∀ t, s1.priority t = s.priority t ∨ t ∈ s1.updates := by
    intro t
    by_cases ht : t = act.thread
    · rcases hupd with ⟨-, hself, -⟩ | hu
      · exact .inl (by rw [ht, hself])
      · exact .inr (by simp [hu, ht])
    · exact .inl (hpri t ht)
  have hlen : s1.updates.length ≤ 1 := by
    rcases hupd with ⟨hu, -, -⟩ | hu
    · simp [hu, hup]
    · simp [hu, hup]
  cases rest with
  | none =>
    refine ⟨s1, by simp [Mutexes.priorityApply, hdo], hcons, hframe, s1.updates, by simp [hup],
      by omega, fun t => ?_⟩
    exact (hall t).imp id .inl
  | some act1 =>
    have hlt := hrank _ _ (hnext act1 rfl).next
    obtain ⟨s', hloop, hcons', hperf⟩ := Consistent.performLoop hrank fuel
      hframe.next (by omega) hcons (by rw [hframe.wait, hframe.owner]; exact howned) (by simp)
      (by omega)
    obtain ⟨l, hl, hlen', hall'⟩ := hperf.updates
    refine ⟨s', ?_, hcons', hframe.trans hperf.toFrame, s1.updates ++ l, by simp [hup, hl], ?_,
      fun t => ?_⟩
    · simp only [Mutexes.priorityApply, hdo, Option.bind_eq_bind, Option.bind_some, performActions]
      exact hloop
    · rw [List.length_append]; omega
    · rw [List.mem_append]
      rcases hall' t with he | ht | hw
      · exact (hall t).imp (fun h => he.trans h) fun h => .inl (.inl h)
      · exact .inr (.inl (.inr ht))
      · exact .inr (.inr (by rw [← hframe.wait]; exact hw))

end Mutexes

end Rtems
