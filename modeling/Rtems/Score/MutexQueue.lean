import Rtems.Score.Inheritance

/-!
# The queues and the owners of mutexes

* `Consistent.priorityEnqueue`, `Consistent.inheritEnqueue`: a thread comes to a queue;
* `Consistent.priorityExtract`, `Consistent.inheritExtract`, `Consistent.leave`: it leaves a queue;
* `Consistent.seize`, `Consistent.release`: a mutex gets an owner, or its owner gives it up.
-/

namespace Rtems

open Function

namespace Mutexes

variable {s s' : Mutexes} {ex : Option Thread} {t u o : Thread} {m : Mutex} {rank : Thread → ℕ}

/-! ## A thread comes to a queue -/

theorem Consistent.mem_insert (h : s.Consistent (some t) none) (hw : s.wait t = some m)
    {q : Aggregation Thread} (hq : q.contributors.Perm (t :: (s.queue m).contributors)) (m' : Mutex)
    (u : Thread) : u ∈ (update s.queue m q m').contributors ↔
      s.wait u = some m' ∧ (none : Option Thread) ≠ some u := by
  by_cases hm : m' = m
  · subst hm
    rw [update_self, hq.mem_iff, List.mem_cons, h.mem]
    by_cases hu : u = t
    · simp [hu, hw]
    · simp [hu, Ne.symm hu]
  · rw [update_of_ne hm, h.mem]
    by_cases hu : u = t
    · simp [hu, hw, Ne.symm hm]
    · simp [Ne.symm hu]

theorem Consistent.notMem (h : s.Consistent (some t) none) : t ∉ (s.queue m).contributors := by
  rw [h.mem]; simp

theorem Consistent.aggregationOk (h : s.Consistent ex none) (t : Thread) : s.AggregationOk t :=
  h.aggregation t (by simp)

theorem Consistent.priorityEnqueue (h : s.Consistent (some t) none) (hw : s.wait t = some m)
    (hp : s.protocol m = .ceiling) :
    ∃ q, s.priorityEnqueue m t = { s with queue := update s.queue m q } ∧
      { s with queue := update s.queue m q }.Consistent none none := by
  obtain ⟨q, heq, hq, hs⟩ : ∃ q : Aggregation Thread,
      s.priorityEnqueue m t = { s with queue := update s.queue m q } ∧
      q.contributors.Perm (t :: (s.queue m).contributors) ∧
      Aggregation.Sorted s.priority q.contributors := by
    by_cases hnil : (s.queue m).contributors = []
    · refine ⟨_, if_pos hnil, by rw [hnil]; exact .refl _, Aggregation.Ok.initializeOne.toSorted⟩
    · exact ⟨_, if_neg hnil, SearchTree.perm_insertBehind, (h.queue m).sorted.insertBehind h.notMem⟩
  refine ⟨q, heq, consistent_setQueue (h.mem_insert hw hq) (fun m' _ => h.queue m') hs
    (by simp [hp]) h.aggregationOk h.value (.inl hp)⟩

theorem Consistent.inheritEnqueue (h : s.Consistent (some t) none) (hw : s.wait t = some m)
    (hp : s.protocol m = .inherit) (ho : s.owner m = some o)
    (howned : ∀ t m, s.wait t = some m → (s.owner m).isSome)
    (hrank : ∀ a b, s.next a = some b → rank b < rank a) (hup : s.updates = []) {fuel : ℕ}
    (hfuel : rank o < fuel) :
    ∃ s' sn q, s.inheritEnqueue fuel m t = some s' ∧ s'.Consistent none none ∧
      Performed 1 { s with schedulerNode := sn, queue := update s.queue m q } s' ∧
      ∀ m', s.protocol m' = .inherit →
        sn m' = if m' = m ∧ (s.queue m).contributors = [] then o else s.schedulerNode m' := by
  -- the queue is entered, and the actions for the owner are performed if there are any
  have hloop : ∀ (q : Aggregation Thread) (sn : Mutex → Thread) (act : PriorityAction),
      q.contributors.Perm (t :: (s.queue m).contributors) → q.Ok s.priority →
      s.QueuePending m q (some act) →
      ∃ s', { s with schedulerNode := sn, queue := update s.queue m q }.performActions fuel
          act = some s' ∧ s'.Consistent none none ∧
        Performed 1 { s with schedulerNode := sn, queue := update s.queue m q } s' := by
    intro q sn act hq hok hpend
    have hact : act.thread = o := Option.some.inj (hpend.2.1.symm.trans ho)
    refine Consistent.performLoop hrank fuel rfl (by rw [hact]; exact hfuel) ?_ howned (by simp)
       (by simp [hup])
    exact consistent_setQueue (h.mem_insert hw hq) (fun m' _ => h.queue m') hok.toSorted
      (fun _ _ => hok) h.aggregationOk h.value hpend
  by_cases hnil : (s.queue m).contributors = []
  · obtain ⟨s', hs', hcons, hperf⟩ := hloop (.initializeOne s.priority t)
      (update s.schedulerNode m o) ⟨o, .queue m, .add⟩
      (by rw [hnil]; exact .refl _) .initializeOne
      ⟨hp, ho, rfl, hnil, by simp [Aggregation.initializeOne]⟩
    refine ⟨s', _, _, by simp [Mutexes.inheritEnqueue, ho, hnil, hs'], hcons, hperf, fun m' _ => ?_⟩
    by_cases hm : m' = m
    · simp [hm, hnil]
    · simp [hm]
  · obtain ⟨q, c, heq, hok, hperm, hpri⟩ := ((h.queue m).head hp hnil).nonEmptyInsert h.notMem
    have hne : q.contributors ≠ [] := List.ne_nil_of_mem (hperm.mem_iff.mpr List.mem_cons_self)
    cases c with
    | true =>
      obtain ⟨s', hs', hcons, hperf⟩ := hloop q s.schedulerNode ⟨o, .queue m, .change⟩
        hperm hok ⟨hp, ho, rfl, hnil, hne⟩
      exact ⟨s', _, _, by simp [Mutexes.inheritEnqueue, ho, hnil, heq, hs'], hcons, hperf,
        fun m' _ => by simp [hnil]⟩
    | false =>
      refine ⟨_, s.schedulerNode, q, by simp [Mutexes.inheritEnqueue, ho, hnil, heq],
        consistent_setQueue (h.mem_insert hw hperm) (fun m' _ => h.queue m') hok.toSorted
          (fun _ _ => hok) h.aggregationOk h.value
          (.inr (.inr ⟨iff_of_false hne hnil, hpri rfl⟩)),
        ⟨.refl _, [], by simp, by simp, fun _ => .inl rfl⟩, fun m' _ => by simp [hnil]⟩

/-! ## A thread leaves a queue -/

section

variable (h : s.Consistent none none) (hw : s.wait t = some m)

include h hw

theorem Consistent.mem_erase
    {q : Aggregation Thread} (hq : q.contributors = (s.queue m).contributors.erase t) (m' : Mutex)
    (u : Thread) : u ∈ (update s.queue m q m').contributors ↔
      s.wait u = some m' ∧ some t ≠ some u := by
  by_cases hm : m' = m
  · subst hm
    rw [update_self, hq, (h.queue m').sorted.nodup.mem_erase_iff, h.mem]
    by_cases hu : u = t
    · simp [hu]
    · simp [hu, Ne.symm hu]
  · rw [update_of_ne hm, h.mem]
    by_cases hu : u = t
    · simp [hu, hw, Ne.symm hm]
    · simp [Ne.symm hu]

theorem Consistent.priorityExtract (hp : s.protocol m = .ceiling) :
    ∃ q, s.priorityExtract m t = some { s with queue := update s.queue m q } ∧
      { s with queue := update s.queue m q }.Consistent (some t) none := by
  have hmem : t ∈ (s.queue m).contributors := (h.mem m t).mpr ⟨hw, by simp⟩
  exact ⟨{ s.queue m with contributors := (s.queue m).contributors.erase t },
    by simp [Mutexes.priorityExtract, Aggregation.plainExtract_of_mem hmem],
    consistent_setQueue (h.mem_erase hw rfl) (fun m' _ => h.queue m') ((h.queue m).sorted.erase t)
      (by simp [hp]) h.aggregationOk h.value (.inl hp)⟩

theorem Consistent.inheritExtract (hp : s.protocol m = .inherit) (ho : s.owner m = some o)
    (howned : ∀ t m, s.wait t = some m → (s.owner m).isSome)
    (hrank : ∀ a b, s.next a = some b → rank b < rank a) (hup : s.updates = []) {fuel : ℕ}
    (hfuel : rank o < fuel) :
    ∃ s' q, s.inheritExtract fuel m t = some s' ∧ s'.Consistent (some t) none ∧
      Performed 1 { s with queue := update s.queue m q } s' := by
  have hmem : t ∈ (s.queue m).contributors := (h.mem m t).mpr ⟨hw, by simp⟩
  have hne : (s.queue m).contributors ≠ [] := List.ne_nil_of_mem hmem
  obtain ⟨q, e, heq, hq, hcase⟩ := ((h.queue m).head hp hne).extract hmem
  have hcons : ∀ {pending}, (q.contributors ≠ [] → q.Ok s.priority) → s.QueuePending m q pending →
      { s with queue := update s.queue m q }.Consistent (some t) pending := by
    intro pending hok hpend
    exact consistent_setQueue (h.mem_erase hw hq) (fun m' _ => h.queue m')
      (hq ▸ (h.queue m).sorted.erase t) (fun _ => hok) h.aggregationOk h.value hpend
  have hlt : rank o < rank t := hrank t o (by simp [next, hw, ho])
  have hloop : ∀ act : PriorityAction, act.thread = o →
      { s with queue := update s.queue m q }.Consistent (some t) (some act) →
      ∃ s', { s with queue := update s.queue m q }.performActions fuel act = some s' ∧
        s'.Consistent (some t) none ∧
        Performed 1 { s with queue := update s.queue m q } s' := by
    intro act hact hc
    refine Consistent.performLoop hrank fuel rfl (by rw [hact]; exact hfuel) hc howned
      (fun x hx => ?_) (by simp [hup])
    cases hx
    rw [hact]
    exact hlt
  have hnil : ∀ {a : Aggregation Thread}, a.Ok s.priority → a.contributors ≠ [] := by
    intro a ha he
    have := ha.head
    rw [he] at this
    cases this
  rcases hcase with ⟨rfl, hempty, hpri⟩ | ⟨rfl, hok⟩ | ⟨rfl, hok, hpri⟩
  · obtain ⟨s', hs', hcons', hperf⟩ := hloop ⟨o, .queue m, .remove⟩ rfl
      (hcons (fun hn => absurd hempty hn) ⟨hp, ho, rfl, hne, hempty, hpri⟩)
    exact ⟨s', q, by simp [Mutexes.inheritExtract, ho, heq, hs'], hcons', hperf⟩
  · obtain ⟨s', hs', hcons', hperf⟩ := hloop ⟨o, .queue m, .change⟩ rfl
      (hcons (fun _ => hok) ⟨hp, ho, rfl, hne, hnil hok⟩)
    exact ⟨s', q, by simp [Mutexes.inheritExtract, ho, heq, hs'], hcons', hperf⟩
  · exact ⟨_, q, by simp [Mutexes.inheritExtract, ho, heq],
      hcons (fun _ => hok) (.inr (.inr ⟨iff_of_false (hnil hok) hne, hpri⟩)), .refl _, [], by simp,
      by simp, fun _ => .inl rfl⟩

theorem Consistent.extract
    (howned : ∀ t m, s.wait t = some m → (s.owner m).isSome) (hranked : WaitFor.Ranked s.next)
    (hup : s.updates = []) :
    ∃ n, ∀ fuel, n ≤ fuel → ∃ s' q, s.extract fuel m t = some s' ∧ s'.Consistent (some t) none ∧
      Performed 1 { s with queue := update s.queue m q } s' := by
  obtain ⟨rank, hrank⟩ := hranked
  obtain ⟨o, ho⟩ := Option.isSome_iff_exists.mp (howned t m hw)
  refine ⟨rank o + 1, fun fuel hfuel => ?_⟩
  cases hp : s.protocol m with
  | inherit =>
    obtain ⟨s', q, hs', hrest⟩ := h.inheritExtract hw hp ho howned hrank hup hfuel
    exact ⟨s', q, by simp [Mutexes.extract, hp, hs'], hrest⟩
  | ceiling =>
    obtain ⟨q, heq, hcons⟩ := h.priorityExtract hw hp
    exact ⟨_, q, by simp [Mutexes.extract, hp, heq], hcons, .refl _, [], by simp, by simp,
      fun _ => .inl rfl⟩

end

theorem Consistent.leave (h : s.Consistent (some t) none) : (s.setWait t none).Consistent none none where
  mem m u := by
    have := h.mem m u
    by_cases hu : u = t
    · subst hu; simp only [setWait, this, update_self]; simp
    · simpa [setWait, hu, Ne.symm hu] using this
  queue m := (h.queue m).congr rfl rfl fun _ _ => rfl
  aggregation u hu := (h.aggregation u hu).congr rfl (fun _ => Iff.rfl) fun _ _ => rfl
  action := h.action
  value := h.value

/-! ## A mutex gets another owner -/

section SetOwner

variable {n : PriorityNode}

/-- The node that a mutex contributes to the priority of its owner. -/
def mutexNode (s : Mutexes) (m : Mutex) : PriorityNode :=
  match s.protocol m with
  | .inherit => .queue m
  | .ceiling => .ceiling m

theorem not_expected_of_owner (ho : s.owner m ≠ some t) : ¬ s.Expected t (s.mutexNode m) := by
  cases hp : s.protocol m with
  | inherit | ceiling => simp [mutexNode, hp, Expected, ho]

theorem setOwner_expected_of_ne {o : Option Thread} (hn : n ≠ s.mutexNode m) :
    (s.setOwner m o).Expected u n ↔ s.Expected u n := by
  cases n with
  | real => exact Iff.rfl
  | queue m' =>
    by_cases hm : m' = m
    · subst hm
      have hp : s.protocol m' ≠ .inherit := fun hp => hn (by simp [mutexNode, hp])
      simp [Expected, setOwner, hp]
    · simp [Expected, setOwner, hm]
  | ceiling m' =>
    by_cases hm : m' = m
    · subst hm
      have hp : s.protocol m' ≠ .ceiling := fun hp => hn (by simp [mutexNode, hp])
      simp [Expected, setOwner, hp]
    · simp [Expected, setOwner, hm]

theorem setOwner_owner {o : Option Thread} : (s.setOwner m o).owner m = o := by simp [setOwner]

theorem AggregationOk.setOwner {o : Option Thread} (h : s.AggregationOk u)
    (he : (s.setOwner m o).Expected u (s.mutexNode m) ↔ s.Expected u (s.mutexNode m)) :
    (s.setOwner m o).AggregationOk u := by
  refine h.congr rfl (fun n => ?_) fun _ _ => rfl
  by_cases hn : n = s.mutexNode m
  · rw [hn]; exact he
  · exact setOwner_expected_of_ne hn

theorem Consistent.setOwner_empty {o : Option Thread} (h : s.Consistent ex none)
    (hp : s.protocol m = .inherit) (hq : (s.queue m).contributors = []) :
    (s.setOwner m o).Consistent ex none := by
  refine ⟨h.mem, fun m' => (h.queue m').congr rfl rfl fun _ _ => rfl,
    fun u _ => (h.aggregationOk u).setOwner ?_, by simp, h.value⟩
  simp [mutexNode, hp, Expected, Mutexes.setOwner, hq]

theorem Consistent.seize (h : s.Consistent ex none) (ho : s.owner m = none)
    (hexp : (s.setOwner m (some t)).Expected t (s.mutexNode m)) :
    (s.setOwner m (some t)).Consistent ex (some ⟨t, s.mutexNode m, .add⟩) := by
  have hno : ∀ u, ¬ s.Expected u (s.mutexNode m) := fun u => not_expected_of_owner (by simp [ho])
  refine ⟨h.mem, fun m' => (h.queue m').congr rfl rfl fun _ _ => rfl, fun u hu => ?_, ?_, h.value⟩
  · refine (h.aggregationOk u).setOwner (iff_of_false ?_ (hno u))
    refine not_expected_of_owner ?_
    rw [setOwner_owner]
    exact fun he => hu _ rfl (Option.some.inj he)
  · rintro _ ⟨⟩
    refine ⟨(h.aggregationOk t).ok, hexp, fun n => ?_⟩
    by_cases hn : n = s.mutexNode m
    · subst hn
      simp only [ne_eq, not_true_eq_false, and_false, iff_false]
      exact fun hm => hno t (((h.aggregationOk t).mem _).mp hm)
    · rw [setOwner_expected_of_ne hn]
      simp only [hn, ne_eq, not_false_eq_true, and_true]
      exact (h.aggregationOk t).mem n

theorem Consistent.release (h : s.Consistent ex none) (ho : s.owner m = some t)
    (hexp : s.Expected t (s.mutexNode m)) :
    (s.setOwner m none).Consistent ex (some ⟨t, s.mutexNode m, .remove⟩) := by
  have hno : ∀ u, ¬ (s.setOwner m none).Expected u (s.mutexNode m) := by
    intro u
    exact not_expected_of_owner (by simp [setOwner_owner])
  refine ⟨h.mem, fun m' => (h.queue m').congr rfl rfl fun _ _ => rfl, fun u hu => ?_, ?_, h.value⟩
  · refine (h.aggregationOk u).setOwner (iff_of_false (hno u) (not_expected_of_owner ?_))
    rw [ho]
    exact fun he => hu _ rfl (Option.some.inj he)
  · rintro _ ⟨⟩
    refine ⟨(h.aggregationOk t).ok, hno t, fun n => ?_⟩
    by_cases hn : n = s.mutexNode m
    · subst hn; simp only [or_true, iff_true]; exact ((h.aggregationOk t).mem _).mpr hexp
    · rw [setOwner_expected_of_ne hn]; simp only [hn, or_false]; exact (h.aggregationOk t).mem n

end SetOwner

end Mutexes

end Rtems
