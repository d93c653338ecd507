import Rtems.Score.MutexSeize

/-!
# Surrendering a mutex

* `Ok.inheritSurrender`: the queue of a mutex contributes to the priority of the next owner,
  **`Ok.recursiveMutexSurrender`**;
* `Ok.removeCeiling`, `Ok.ceilingAdopt`: the ceiling of a mutex does,
  **`Ok.ceilingMutexSurrender`**.
-/

namespace Rtems

open Function Option Mutexes

namespace Mutexes

variable {s s' : Mutexes} {ex : Option Thread} {t u o : Thread} {m : Mutex} {c : SchedulerControl}

/-! ## Surrendering -/

theorem surrenderChange_eq (t u : Thread) (a : Aggregation PriorityNode) (changed p : Bool)
    (hup : s.updates.length < 2) :
    ∃ l, s.surrenderChange t u a changed p =
        some { s.setAggregation t a changed p with updates := s.updates ++ l } ∧
      l.length ≤ 1 ∧ (changed = true → u ∈ l) := by
  cases changed with
  | true => exact ⟨[u], by simp [surrenderChange, addPriorityUpdate, setAggregation, hup], by simp,
      by simp⟩
  | false => exact ⟨[], by simp [surrenderChange, setAggregation], by simp, by simp⟩

variable {a : Aggregation PriorityNode} {act : PriorityAction}

theorem Consistent.setAggregation
    {changed p : Bool} {l : List Thread} (h : s.Consistent ex (some act))
    (ha : a.Ok (s.nodePriority act.thread)) (hmem : ∀ n, n ∈ a.contributors ↔ s.Expected act.thread n)
    (hc : changed = false → a.priority = s.priority act.thread) (hw : s.wait act.thread = none) :
    Consistent { s.setAggregation act.thread a changed p with updates := l } ex none := by
  have hmoved := h.moved (p := p) ha hmem hc
  refine Consistent.of_eq
    (hmoved.consistent fun m => hmoved.queue m ?_) rfl rfl rfl rfl rfl rfl rfl fun _ => rfl
  rw [show (s.setAggregation act.thread a changed p).wait = s.wait from rfl, hw]
  simp

theorem Told.mono {l l' : List Thread} (h : s.Told l) (hl : ∀ t ∈ l, t ∈ l') : s.Told l' :=
  fun t ht => (h t ht).imp id (hl t)

theorem Told.setAggregation {changed p : Bool} {l : List Thread}
    (h : s.Told l) (hc : changed = true → t ∈ l ∨ s.scheduler.isReady t = false) :
    (s.setAggregation t a changed p).Told l := by
  intro u hu
  have hready : (s.setAggregation t a changed p).scheduler.isReady = s.scheduler.isReady :=
    setAggregation_frame.isReady
  rw [hready] at hu
  cases changed with
  | false => exact h u hu
  | true =>
    by_cases hut : u = t
    · rcases hc rfl with hm | hn
      · exact .inr (hut ▸ hm)
      · rw [hut, hn] at hu; cases hu
    · refine (h u hu).imp (fun hcur => ?_) id
      simpa [SchedulerPriority.Current, Mutexes.setAggregation, SchedulerPriority.setPriority, hut]
        using hcur

theorem Graph.handOver (h : s.Graph c) (hu : s.wait u = some m) (hp : s'.protocol = s.protocol)
    (ho : s'.owner = update s.owner m (some u))
    (hw : s'.wait = update s.wait u none) (hr : s'.realPriority = s.realPriority)
    (hsn : ∀ m', m' ≠ m → s'.schedulerNode m' = s.schedulerNode m')
    (hm : s.protocol m = .inherit → ∀ x, x ≠ u → s.wait x = some m → s'.schedulerNode m = u) :
    s'.Graph c := by
  have hwait : ∀ x m', s'.wait x = some m' → x ≠ u ∧ s.wait x = some m' := by
    intro x m' hx
    have hxu : x ≠ u := by rintro rfl; simp [hw] at hx
    exact ⟨hxu, by simpa [hw, hxu] using hx⟩
  refine ⟨h.finite.subset fun x hx => ?_, fun x m' hx => ?_,
    h.ranked.sink (c := u) (by simp [next, hw]) fun a b hab => ?_, fun m' x hp' hx => ?_,
    fun t => by rw [hr]; exact h.real t⟩
  · obtain ⟨m', hm'⟩ := ne_none_iff_exists'.mp hx; simp [(hwait x m' hm').2]
  · obtain ⟨-, hx⟩ := hwait x m' hx
    by_cases hmm : m' = m
    · simp [ho, hmm]
    · simpa [ho, hmm] using h.owned x m' hx
  · obtain ⟨m', hm', hb⟩ := bind_eq_some_iff.mp hab
    obtain ⟨-, hx⟩ := hwait a m' hm'
    by_cases hmm : m' = m
    · left
      rw [ho, hmm, update_self] at hb
      exact (Option.some.inj hb).symm
    · right
      rw [ho, update_of_ne hmm] at hb
      simp [next, hx, hb]
  · obtain ⟨hxu, hx⟩ := hwait x m' hx
    rw [hp] at hp'
    by_cases hmm : m' = m
    · subst hmm; rw [hm hp' x hxu hx]; simp [ho]
    · rw [hsn m' hmm]; simpa [ho, hmm] using h.node m' x hp' hx

theorem Consistent.inheritAdopt (h : (s.setWait u none).Consistent none none)
    (ho : s.owner m = none) (hp : s.protocol m = .inherit) (hup : s.updates.length < 2)
    (hr : s.scheduler.isReady u = false) :
    ∃ s', s.inheritAdopt m u = some s' ∧
      ((s'.setOwner m (some u)).setWait u none).Consistent none none ∧
      s'.protocol = s.protocol ∧ s'.owner = s.owner ∧ s'.wait = s.wait ∧
      s'.realPriority = s.realPriority ∧ (∀ m', m' ≠ m → s'.schedulerNode m' = s.schedulerNode m') ∧
      ((s.queue m).contributors ≠ [] → s'.schedulerNode m = u) ∧
      s'.scheduler.isReady = s.scheduler.isReady ∧
      (s.scheduler.Running → s'.scheduler.Running) ∧ (s.Told s.updates → s'.Told s'.updates) := by
  by_cases hnil : (s.queue m).contributors = []
  · exact ⟨s, if_pos hnil, h.setOwner_empty hp hnil, rfl, rfl, rfl, rfl, fun _ _ => rfl,
      fun hn => absurd hnil hn, rfl, id, id⟩
  set s1 := { s with schedulerNode := update s.schedulerNode m u } with hs1
  have hnode : (s1.setWait u none).mutexNode m = .queue m := by
    simp [mutexNode, hs1, setWait, hp]
  have hc0 : (s1.setWait u none).Consistent none none :=
    h.of_eq rfl rfl rfl rfl rfl rfl rfl fun _ => rfl
  have hc1 := hc0.seize (t := u) ho (by
    rw [hnode]
    exact ⟨hp, setOwner_owner, hnil⟩)
  rw [hnode] at hc1
  obtain ⟨hok, hexp, hmem⟩ := hc1.action _ rfl
  obtain ⟨a, b, hins, hok', hperm, hpri⟩ := hok.nonEmptyInsert (n := .queue m) (by simp [hmem])
  obtain ⟨l, hchange, -, hl⟩ := surrenderChange_eq (s := s1) u u a b false hup
  have hc2 := hc1.setAggregation (p := false) (l := s.updates ++ l) hok' (fun n => by
    rw [hperm.mem_iff, List.mem_cons, hmem]
    by_cases hn : n = .queue m
    · simp only [hn, true_or, true_iff]; exact hexp
    · simp [hn]) hpri (by simp [setOwner, setWait])
  have hframe : s1.Frame (s1.setAggregation u a b false) := setAggregation_frame
  refine ⟨{ s1.setAggregation u a b false with updates := s1.updates ++ l }, ?_, hc2, rfl, rfl, rfl,
    rfl, fun m' hm' => ?_, fun _ => ?_, hframe.isReady, fun hrun => hframe.running hrun,
    fun ht => ?_⟩
  · rw [Mutexes.inheritAdopt, if_neg hnil, ← hchange]
    exact congrArg (fun r => s1.surrenderChange u u r.1 r.2 false) hins
  · simp [hs1, Mutexes.setAggregation, hm']
  · simp [hs1, Mutexes.setAggregation]
  · exact Told.setAggregation (ht.mono fun x hx => List.mem_append_left _ hx)
      fun _ => .inr hr

theorem Ok.inheritSurrender (h : s.Ok c) (hr : s.scheduler.isReady t = true)
    (ho : s.owner m = some t) (hp : s.protocol m = .inherit)
    (hu : (s.queue m).contributors.head? = some u) :
    ∃ s1, (s.setOwner m none).clearPriorityUpdates.inheritSurrender m t = some (u, s1) ∧
      ((s1.setOwner m (some u)).setWait u none).Ok c ∧
      s1.scheduler.isReady = s.scheduler.isReady ∧ (s.Told [] → s1.Told s1.updates) := by
  have hwt := h.wait_of_ready hr
  have hum : u ∈ (s.queue m).contributors := List.mem_of_mem_head? hu
  have hwu : s.wait u = some m := ((h.consistent.mem m u).mp hum).1
  have hne : (s.queue m).contributors ≠ [] := List.ne_nil_of_mem hum
  have hnode : s.mutexNode m = .queue m := by simp [mutexNode, hp]
  have hsn : s.schedulerNode m = t := Option.some.inj ((h.node m u hp hwu).symm.trans ho)
  have hblocked : s.scheduler.isReady u = false := h.blocked u m hwu
  -- the queue no longer contributes to the priority of the previous owner
  set s0 := (s.setOwner m none).clearPriorityUpdates with hs0
  have hc0 : s0.Consistent none (some ⟨t, .queue m, .remove⟩) := by
    have := h.consistent.release ho (by rw [hnode]; exact ⟨hp, ho, hne⟩)
    rw [hnode] at this
    exact this.of_eq rfl rfl rfl rfl rfl rfl rfl fun _ => rfl
  obtain ⟨hok0, hexp0, hmem0⟩ := hc0.action _ rfl
  obtain ⟨a, b, hext, hok, hcon, hpri⟩ := hok0.extractNonEmpty ((hmem0 _).mpr (.inr rfl))
    ((hmem0 .real).mpr (.inl trivial)) (by simp)
  obtain ⟨l, hchange, hlen, hl⟩ := surrenderChange_eq (s := s0) t t a b true
    (by simp [hs0, clearPriorityUpdates])
  set s1 := { s0.setAggregation t a b true with updates := s0.updates ++ l } with hs1
  have hframe1 : s0.Frame s1 := (setAggregation_frame).withUpdates _
  have hc1 : s1.Consistent none none := by
    refine hc0.setAggregation hok (fun n => ?_) hpri hwt
    rw [hcon, hok0.nodup.mem_erase_iff, hmem0]
    by_cases hn : n = .queue m
    · simp [hn, hexp0]
    · simp [hn]
  -- the new owner leaves the queue
  obtain ⟨q, e, hq, hqe, hcase⟩ := ((hc1.queue m).head hp hne).extract hum
  set s2 := { s1 with queue := Function.update s1.queue m q } with hs2
  have ho2 : s2.owner m = none := by
    exact setOwner_owner
  have hc2 : (s2.setWait u none).Consistent none none := by
    refine Consistent.leave (consistent_setQueue (hc1.mem_erase hwu hqe) (fun m' _ => hc1.queue m')
      (hqe ▸ (hc1.queue m).sorted.erase u) (fun _ hn => ?_) hc1.aggregationOk hc1.value
      (.inr (.inl ho2)))
    rcases hcase with ⟨-, hnil, -⟩ | ⟨-, hok⟩ | ⟨-, hok, -⟩
    · exact absurd hnil hn
    · exact hok
    · exact hok
  have hready2 : s2.scheduler.isReady = s.scheduler.isReady := hframe1.isReady
  obtain ⟨s3, hs3, hc3, hp3, ho3, hw3, hr3, hsn3, hsnm, hready3, hrun3, htold3⟩ :=
    hc2.inheritAdopt ho2 hp (by simpa [hs2, hs1, hs0, clearPriorityUpdates] using Nat.lt_succ_of_le hlen)
      (by rw [hready2]; exact hblocked)
  refine ⟨s3, ?_, ⟨⟨?_, hc3⟩, ?_, hrun3 (hframe1.running h.running)⟩, hready3.trans hready2,
    fun ht => htold3 ?_⟩
  · have hsn0 : s0.schedulerNode m = t := hsn
    have hu0 : (s0.queue m).contributors.head? = some u := hu
    simp only [Mutexes.inheritSurrender, hu0, hsn0, bind_eq_bind, bind_some]
    simp only [hext, hchange, hq, bind_some]
    rw [hs3]
    rfl
  · refine h.toGraph.handOver hwu hp3 ?_ ?_ hr3 hsn3 fun _ x hxu hx => ?_
    · simp only [setWait, setOwner, ho3]
      rw [show s2.owner = Function.update s.owner m none from rfl, update_idem]
    · simp only [setWait, setOwner, hw3]; rfl
    · refine hsnm (List.ne_nil_of_mem (a := x) ?_)
      have hxm : x ∈ (s1.queue m).contributors := (hc1.mem m x).mpr ⟨hx, by simp⟩
      simp only [hs2, update_self, hqe]
      exact (List.mem_erase_of_ne hxu).mpr hxm
  · intro x m' hx
    change s3.scheduler.isReady x = false
    rw [hready3, hready2]
    have hxu : x ≠ u := by rintro rfl; simp [setWait] at hx
    refine h.blocked x m' ?_
    have : s3.wait x = some m' := by simpa [setWait, setOwner, hxu] using hx
    rw [hw3] at this
    exact this
  · refine Told.setAggregation (ht.mono (by simp)) fun hb => .inl ?_
    exact List.mem_append_right _ (hl hb)

theorem Ok.recursiveMutexSurrender (h : s.Ok c) (hr : s.scheduler.isReady t = true)
    (hp : s.protocol m = .inherit) :
    ∃ status s', s.recursiveMutexSurrender m t = some (status, s') ∧ s'.Ok c ∧
      (s.Told [] → s'.Told []) := by
  unfold Mutexes.recursiveMutexSurrender
  by_cases ho : s.owner m = some t
  swap
  · exact ⟨.notOwner, s, if_pos ho, h, id⟩
  rw [if_neg (not_not.mpr ho)]
  by_cases hnest : s.nestLevel m > 0
  · exact ⟨.successful, _, if_pos hnest, h.withNest _, id⟩
  rw [if_neg hnest]
  by_cases hnil : (s.queue m).contributors = []
  · exact ⟨.successful, s.setOwner m none, if_pos hnil,
      ⟨⟨h.toGraph.setOwner (h.wait_ne_of_nil hnil), h.consistent.setOwner_empty hp hnil⟩, h.blocked,
        h.running⟩, id⟩
  · obtain ⟨u, l, hul⟩ := List.exists_cons_of_ne_nil hnil
    have hu : (s.queue m).contributors.head? = some u := by rw [hul]; rfl
    have hwu : s.wait u = some m := by
      refine ((h.consistent.mem m u).mp ?_).1; rw [hul]; exact List.mem_cons_self
    obtain ⟨s1, hs1, hok1, hready1, htold1⟩ := h.inheritSurrender hr ho hp hu
    obtain ⟨s2, hs2, hok2, hw2, hready2, htold2⟩ := hok1.update
    obtain ⟨hok3, -, -, htold3⟩ := hok2.unblock (t := u) (by rw [hw2]; simp [setWait])
      (by rw [hready2]; exact (congrFun hready1 u).trans (h.blocked u m hwu))
    refine ⟨.successful, s2.unblock u, ?_, hok3, fun ht => htold3 [] (htold2 (htold1 ht))⟩
    have hsurr : (s.setOwner m none).threadQueueSurrender m t = some (s2.unblock u) := by
      simp only [threadQueueSurrender, hs1, bind_eq_bind, bind_some]
      change ((s1.setOwner m (some u)).setWait u none).priorityUpdate.bind _ = _
      rw [hs2]
      rfl
    refine (if_neg hnil).trans ?_
    rw [hsurr]
    rfl

/-! ## Ceiling mutexes: surrendering -/

theorem performAction_cases (act : PriorityAction) (b : Bool) (m : Mutex) (o : Option Thread) :
    (s.performAction act b = none ∧ (s.setOwner m o).performAction act b = none) ∨ ∃ a changed p,
        s.performAction act b = some (s.setAggregation act.thread a changed p, changed) ∧
        (s.setOwner m o).performAction act b =
          some ((s.setAggregation act.thread a changed p).setOwner m o, changed) := by
  obtain ⟨t, n, type⟩ := act
  have hagg : (s.setOwner m o).aggregation = s.aggregation := rfl
  have hkey : (s.setOwner m o).nodePriority t = s.nodePriority t := by funext n; cases n <;> rfl
  cases type with
  | add => exact .inr ⟨_, _, false, rfl, by simp only [performAction, hagg, hkey]; rfl⟩
  | remove =>
    simp only [performAction, hagg, hkey]
    cases (s.aggregation t).extractNonEmpty (s.nodePriority t) n with
    | none => exact .inl ⟨rfl, rfl⟩
    | some r => exact .inr ⟨r.1, r.2, true, rfl, rfl⟩
  | change =>
    simp only [performAction, hagg, hkey]
    cases (s.aggregation t).changed (s.nodePriority t) n with
    | none => exact .inl ⟨rfl, rfl⟩
    | some r => exact .inr ⟨r.1, r.2, b, rfl, rfl⟩

theorem priorityApply_setOwner {o : Option Thread} {fuel : ℕ} {b : Bool}
    (hw : s.wait act.thread = none) :
    (s.setOwner m o).priorityApply fuel act b =
      (s.priorityApply fuel act b).map fun s' => s'.setOwner m o := by
  rcases s.performAction_cases act b m o with ⟨h, h'⟩ | ⟨a, changed, p, h, h'⟩
  · simp [priorityApply, doPerformActions, h, h']
  · simp only [priorityApply, doPerformActions, h, h', bind_eq_bind, bind_some]
    cases changed with
    | false => rfl
    | true =>
      by_cases hup : s.updates.length < 2
      · simp [follow, addPriorityUpdate, priorityActions, Mutexes.setAggregation, setOwner, hw, hup]
      · simp [follow, addPriorityUpdate, Mutexes.setAggregation, setOwner, hup]

theorem nodePriority_congr {n : PriorityNode} (hq : s'.queue = s.queue)
    (hr : s'.realPriority = s.realPriority) (hc : s'.ceiling = s.ceiling) :
    s'.nodePriority t n = s.nodePriority t n := by
  cases n with
  | real => exact congrFun hr t
  | queue m => exact congrArg Aggregation.priority (congrFun hq m)
  | ceiling m => exact congrFun hc m

/-- Another node has the priority of the thread, which stays without this one. -/
def Spare (s : Mutexes) (t : Thread) (n : PriorityNode) : Prop :=
  ∃ n' ∈ (s.aggregation t).contributors, n' ≠ n ∧ s.nodePriority t n' = s.priority t

theorem Spare.priority_eq {n : PriorityNode} (hsp : s.Spare t n) (h : s.AggregationOk t)
    (h' : s'.AggregationOk t) (he : ∀ n', n' ≠ n → (s'.Expected t n' ↔ s.Expected t n'))
    (hn : ¬ s'.Expected t n) (hk : ∀ n', s'.nodePriority t n' = s.nodePriority t n') :
    s'.priority t = s.priority t := by
  obtain ⟨n1, hmem, hne, hpri⟩ := hsp
  refine le_antisymm ?_ ?_
  · rw [← hpri, ← hk]
    exact h'.ok.isLeast.2 ⟨n1, (h'.mem n1).mpr ((he n1 hne).mpr ((h.mem n1).mp hmem)), rfl⟩
  · obtain ⟨n2, hmem2, hp2⟩ := h'.ok.isLeast.1
    have hexp2 := (h'.mem n2).mp hmem2
    have hne2 : n2 ≠ n := fun e => hn (e ▸ hexp2)
    have hle := h.ok.isLeast.2 ⟨n2, (h.mem n2).mpr ((he n2 hne2).mp hexp2), rfl⟩
    rw [← hk, hp2] at hle
    exact hle

theorem Ok.removeCeiling (h : s.Ok c) (hr : s.scheduler.isReady t = true) (ho : s.owner m = some t)
    (hp : s.protocol m = .ceiling) (hup : s.updates = []) (fuel : ℕ) :
    ∃ s1, s.priorityApply fuel ⟨t, .ceiling m, .remove⟩ true = some s1 ∧
      (s1.setOwner m none).Consistent none none ∧
      (s.setOwner m none).Frame (s1.setOwner m none) ∧ s1.updates.length ≤ 1 ∧
      (s.Spare t (.ceiling m) → s.Told [] → s1.Told []) ∧
      (s.Told [] → s1.Told s1.updates) := by
  have hw := h.wait_of_ready hr
  have hnode : s.mutexNode m = .ceiling m := by simp [mutexNode, hp]
  have hcons := h.consistent.release ho (by rw [hnode]; exact ⟨hp, ho⟩)
  rw [hnode] at hcons
  obtain ⟨s', hs', hcons', hframe, hpri, hupd, hqueue⟩ := hcons.priorityApply_of_not_lends (by simp)
    (by simp [setOwner, hw]) (by simp [setOwner, hup])
    (not_lends_of_wait hw) fuel true
  rw [priorityApply_setOwner hw] at hs'
  obtain ⟨s1, hs1, rfl⟩ := map_eq_some_iff.mp hs'
  have hupd1 : s1.updates = [] ∧ s1.priority t = s.priority t ∨ s1.updates = [t] := by
    refine hupd.imp (fun hu => ⟨hu.1.trans hup, hu.2⟩) fun hu => hu.trans ?_
    rw [show (s.setOwner m none).updates = [] from hup]
    rfl
  refine ⟨s1, hs1, hcons', hframe, ?_, fun hsp ht => ?_, fun ht => ?_⟩
  · rcases hupd1 with ⟨hu, -⟩ | hu
    · simp [hu]
    · simp [hu]
  · refine hframe.told hcons.value hcons'.value hpri ht (.inl ?_)
    refine hsp.priority_eq (h.consistent.aggregationOk t) (hcons'.aggregationOk t) (fun n hn => ?_) ?_
      fun n => ?_
    · rw [hframe.expected, setOwner_expected_of_ne (by rw [hnode]; exact hn)]
    · rw [hframe.expected]; exact (hcons.action _ rfl).2.1
    · rw [nodePriority_congr (hqueue hw) hframe.realPriority hframe.ceiling]
      exact nodePriority_congr rfl rfl rfl
  · refine hframe.told hcons.value hcons'.value hpri
      (Told.mono ht (by simp)) ?_
    rcases hupd1 with ⟨-, hself⟩ | hu
    · exact .inl hself
    · exact .inr (.inl (by simp [hu]))

theorem setOwner_setOwner {o o' : Option Thread} : (s.setOwner m o).setOwner m o' = s.setOwner m o' := by
  simp [setOwner]

theorem Ok.ceilingAdopt (h : s.Ok c) (hp : s.protocol m = .ceiling) (hwu : s.wait u = some m)
    {s1 : Mutexes} (hcons : (s1.setOwner m none).Consistent none none)
    (hframe : (s.setOwner m none).Frame (s1.setOwner m none)) (hup : s1.updates.length ≤ 1)
    (fuel : ℕ) :
    ∃ s2 s3, (s1.setOwner m (some u)).priorityApply fuel ⟨u, .ceiling m, .add⟩ false = some s2 ∧
      s2.threadQueueExtract fuel m u = some s3 ∧ s3.Ok c ∧ s3.updates = [] ∧
      (s1.Told [] → s3.Told []) := by
  have hwait : s1.wait = s.wait := hframe.wait
  have hready : s1.scheduler.isReady = s.scheduler.isReady := hframe.isReady
  have hp1 : s1.protocol m = .ceiling := by rw [show s1.protocol = s.protocol from hframe.protocol, hp]
  have hnode : (s1.setOwner m none).mutexNode m = .ceiling m := by
    simp [mutexNode, setOwner, hp1]
  have hwu1 : (s1.setOwner m (some u)).wait u = some m := by
    change s1.wait u = some m; rw [hwait, hwu]
  -- the ceiling is added while the thread is still on the queue
  have hcons1 := hcons.seize (t := u) setOwner_owner (by
    rw [hnode]
    exact ⟨hp1, setOwner_owner⟩)
  rw [hnode, setOwner_setOwner] at hcons1
  obtain ⟨s2, hs2, hcons2, hframe2, hpri, -, -⟩ := hcons1.priorityApply_of_not_lends (by simp)
    (fun m' hm' => by
      obtain rfl : m = m' := Option.some.inj (hwu1.symm.trans hm')
      simp [setOwner])
    (Nat.lt_succ_of_le hup)
    (fun o => by
      rintro ⟨m', hm', hi, -⟩
      obtain rfl : m = m' := Option.some.inj (hwu1.symm.trans hm')
      rw [show (s1.setOwner m (some u)).protocol m = .ceiling from hp1] at hi
      cases hi) fuel false
  -- and then the thread leaves the queue
  have hwu2 : s2.clearPriorityUpdates.wait u = some m := by
    change s2.wait u = some m; rw [hframe2.wait]; exact hwu1
  have hp2 : s2.clearPriorityUpdates.protocol m = .ceiling := by
    change s2.protocol m = .ceiling; rw [hframe2.protocol]; exact hp1
  have hclear : s2.clearPriorityUpdates.Consistent none none :=
    hcons2.of_eq rfl rfl rfl rfl rfl rfl rfl fun _ => rfl
  obtain ⟨q, hq, hcons3⟩ := hclear.priorityExtract hwu2 hp2
  set s3 := ({ s2.clearPriorityUpdates with
    queue := Function.update s2.clearPriorityUpdates.queue m q }).setWait u none with hs3
  have howner : s3.owner = Function.update s.owner m (some u) := by
    change s2.owner = _
    rw [hframe2.owner]
    change Function.update s1.owner m (some u) = _
    have : Function.update s1.owner m none = Function.update s.owner m none := hframe.owner
    rw [← update_idem, this, update_idem]
  have hwait3 : s3.wait = Function.update s.wait u none := by
    change Function.update s2.wait u none = _
    rw [hframe2.wait]
    exact congrArg (fun w => Function.update w u none) hwait
  have hready3 : s3.scheduler.isReady = s.scheduler.isReady := hframe2.isReady.trans hready
  have hok3 : s3.Ok c := by
    refine ⟨⟨h.toGraph.handOver hwu (hframe2.protocol.trans hframe.protocol) howner hwait3
      (hframe2.realPriority.trans hframe.realPriority) (fun m' _ => ?_) (by simp [hp]),
      hcons3.leave⟩, fun x m' hx => ?_, hframe2.running (hframe.running h.running)⟩
    · exact congrFun (hframe2.schedulerNode.trans hframe.schedulerNode) m'
    · have hxu : x ≠ u := by rintro rfl; simp [hwait3] at hx
      rw [hready3]
      exact h.blocked x m' (by simpa [hwait3, hxu] using hx)
  have hblocked : s.scheduler.isReady u = false := h.blocked u m hwu
  obtain ⟨hok4, hup4, -, htold4⟩ := hok3.unblock (t := u) (by simp [hwait3])
    (by rw [hready3]; exact hblocked)
  refine ⟨s2, s3.unblock u, hs2, ?_, hok4, hup4, fun ht => htold4 [] ?_⟩
  · simp only [threadQueueExtract, extract, hp2, hq, bind_eq_bind, bind_some]; rfl
  · exact hframe2.told hcons1.value hcons2.value hpri ht
      (.inr (.inr ((congrFun hready u).trans hblocked)))

theorem Ok.ceilingMutexSurrender (h : s.Ok c) (hr : s.scheduler.isReady t = true)
    (hp : s.protocol m = .ceiling) (fuel : ℕ) :
    ∃ status s', s.ceilingMutexSurrender fuel m t = some (status, s') ∧ s'.Ok c ∧
      ((s.owner m = some t → s.nestLevel m = 0 → (s.queue m).contributors ≠ [] →
        s.Spare t (.ceiling m)) → s.Told [] → s'.Told []) := by
  unfold Mutexes.ceilingMutexSurrender
  by_cases ho : s.owner m = some t
  swap
  · exact ⟨.notOwner, s, if_pos ho, h, fun _ => id⟩
  rw [if_neg (not_not.mpr ho)]
  by_cases hnest : s.nestLevel m > 0
  · exact ⟨.successful, _, if_pos hnest, h.withNest _, fun _ => id⟩
  rw [if_neg hnest]
  obtain ⟨s1, hs1, hcons, hframe, hlen, hspare, htold⟩ := h.clear.removeCeiling hr ho hp rfl fuel
  have hperm : (s1.queue m).contributors.Perm (s.queue m).contributors := hframe.queue m
  cases hhead : (s1.queue m).contributors.head? with
  | none =>
    have hnil : (s.queue m).contributors = [] := by
      have := List.head?_eq_none_iff.mp hhead; rw [this] at hperm; exact hperm.nil_eq.symm
    have hgraph : (s.clearPriorityUpdates.setOwner m none).Graph c :=
      h.clear.toGraph.setOwner (h.wait_ne_of_nil hnil)
    have hok1 : (s1.setOwner m none).Ok c := hframe.ok hgraph h.blocked h.running hcons
    obtain ⟨s2, hs2, hok2, -, -, htold2⟩ := hok1.update
    refine ⟨.successful, s2, ?_, hok2, fun _ ht => htold2 (htold ht)⟩
    simp [hs1, ceilingHandOver, hhead, hs2]
  | some u =>
    have hmem : u ∈ (s.queue m).contributors := hperm.mem_iff.mp (List.mem_of_mem_head? hhead)
    have hwu : s.wait u = some m := ((h.consistent.mem m u).mp hmem).1
    obtain ⟨s2, s3, hs2, hs3, hok3, hup3, htold3⟩ := h.clear.ceilingAdopt hp hwu hcons hframe hlen fuel
    obtain ⟨s4, hs4, hok4, -, -, htold4⟩ := hok3.update
    refine ⟨.successful, s4, ?_, hok4, fun hsp ht => htold4 ?_⟩
    · simp [hs1, ceilingHandOver, hhead, hs2, hs3, hs4]
    · rw [hup3]
      refine htold3 (hspare ?_ ht)
      exact hsp ho (Nat.eq_zero_of_not_pos hnest) (List.ne_nil_of_mem hmem)

end Mutexes

end Rtems
