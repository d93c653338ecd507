import Rtems.Fts.Model

/-!
# The steps of the fault-tolerance manager, case by case

* `Step`: what a call does, one constructor for each way through the function;
* **`step_cases`**: every step of the manager is one of these.
-/

namespace Rtems

open Function Option

variable {x : Id} {g : Grant} {k : Task}

theorem rtemsTaskCreate_cases {o : Objects Task} {c : Task}
    (h : (rtemsTaskCreate o c g).2.live x = some k) :
    o.live x = some k ∨ k = c ∧ (rtemsTaskCreate o c g).1 = some x := by
  cases g with
  | granted =>
    simp only [rtemsTaskCreate] at h ⊢
    split at h
    · next y o' ha =>
      rcases Objects.allocate_cases ha h with ⟨rfl, rfl⟩ | ⟨-, hk⟩
      · exact .inr ⟨rfl, rfl⟩
      · exact .inl hk
    · exact .inl h
  | unsatisfied => exact .inl h
  | refused => exact .inl h

theorem live_of_rtemsTaskCreate {o : Objects Task} {c : Task}
    (h : (rtemsTaskCreate o c g).1 = some x) : o.live x = none := by
  cases g with
  | granted =>
    simp only [rtemsTaskCreate] at h
    split at h
    · next y o' ha =>
      cases h
      exact o.killZombies.closed x (List.mem_append_left _ (Objects.allocate_eq_some ha).1)
    · cases h
  | unsatisfied => cases h
  | refused => cases h

namespace Fts

/-- What a call does in state `s`. -/
inductive Step (s : Fts) : Call → Fts → Prop
  /-- The call is refused, or its id is not registered. -/
  | idle {c : Call} (hc : ∀ id, c = .periodBegin id → s.taskInList id = none) : Step s c s
  | registered {r : Request} {mem : Mem} {s₁ : Fts} (hi : s.list.taskListIndex < pTasks)
      (hn : s.taskInList r.id = none) (hmk : r.m ≤ r.k)
      (hp : createPattern r.patternS.pattern (r.m.toNat % 2 ^ 8) (r.k.toNat % 2 ^ 8)
        r.patternS.patternStart r.patternS.patternEnd s.mem = some mem)
      (hc : ((s.enter s.list.taskListIndex r).setMem mem).setCounters s.list.taskListIndex
        r.patternS = some s₁) :
      Step s (.register r) ((s₁.attach s.list.taskListIndex r).note (.registered r.id))
  | signedOff {id : Id} {i : ℕ} {l : TaskIdList} (h : s.taskInList id = some i)
      (hl : offLoop s.list.taskListIndex 0 s.list = some l) :
      Step s (.off id) { s with list := { l with taskListIndex := l.taskListIndex - 1 } }
  | techChanged {id : Id} {tech : FtsTech} {i : ℕ} (h : s.taskInList id = some i)
      (hi : i < pTasks) :
      Step s (.changeTech id tech)
        { s with list := { s.list with tech := update s.list.tech i tech } }
  | compensatedAbsent {caller : Caller} {id : Id} {g : Grant} (h : s.taskInList id = none) :
      Step s (.compensate caller id g) (s.note (.version id .correction))
  | compensatedNone {caller : Caller} {id : Id} {g : Grant} {i : ℕ}
      (h : s.taskInList id = some i) (hi : i < pTasks) (ht : s.list.tech i = .none) :
      Step s (.compensate caller id g) ((s.noteEntry caller i).note (.version id .basic))
  | compensatedStatic {caller : Caller} {id : Id} {g : Grant} {i : ℕ} {v : FtsVersion}
      (h : s.taskInList id = some i) (hi : i < pTasks)
      (ht : s.list.tech i = .sre ∨ s.list.tech i = .sdr) (hb : s.list.bitpos i < 32)
      (hv : v = staticVersion (s.list.tech i)
        (bitAt (s.mem (s.list.currPos i)) (s.list.bitpos i))) :
      Step s (.compensate caller id g)
        ((((s.noteEntry caller i).advance i).launch i v g).note (.version id v))
  | compensatedTolerant {caller : Caller} {id : Id} {g : Grant} {i : ℕ}
      (h : s.taskInList id = some i) (hi : i < pTasks)
      (ht : (s.list.tech i).dynamic = true) (hx : s.partitionIndex i < patternPartitions)
      (ho : 0 < s.o i) :
      Step s (.compensate caller id g)
        (((s.noteEntry caller i).launch i .detection g).note (.version id .detection))
  | compensatedSafe {caller : Caller} {id : Id} {g : Grant} {i : ℕ} {v : FtsVersion}
      (h : s.taskInList id = some i) (hi : i < pTasks)
      (ht : (s.list.tech i).dynamic = true) (hx : s.partitionIndex i < patternPartitions)
      (ho : s.o i = 0) (hv : v = safeVersion (s.list.tech i)) :
      Step s (.compensate caller id g)
        ((((s.noteEntry caller i).launch i v g).decA i id).note (.version id v))
  /-- A report without a fault, or for a technique that does not react to faults. -/
  | reportedQuiet {x : Id} {fs : FaultStatus} {g : Grant} {t : VersionTask}
      (hx : s.tasks.live x = some (.version t)) (hd : t.version = .detection)
      (hr : t.reported = false)
      (hq : fs = .noFault ∨ ∃ i, (s.taskInList t.period).getD 65535 = i ∧ i < pTasks ∧
        (s.list.tech i = .none ∨ s.list.tech i = .sre)) :
      Step s (.report x fs g) ((s.markReported x t).note (.report t.period fs false))
  | reportedTolerated {x : Id} {g : Grant} {t : VersionTask} {i : ℕ}
      (hx : s.tasks.live x = some (.version t)) (hd : t.version = .detection)
      (hr : t.reported = false) (h : s.taskInList t.period = some i) (hi : i < pTasks)
      (ht : (s.list.tech i).dynamic = true) (hp : s.partitionIndex i < patternPartitions)
      (ho : 0 < s.o i) :
      Step s (.report x .fault g)
        (((s.markReported x t).decO i t.period).note (.report t.period .fault false))
  | reportedRecovered {x : Id} {g : Grant} {t : VersionTask} {i : ℕ}
      (hx : s.tasks.live x = some (.version t)) (hd : t.version = .detection)
      (hr : t.reported = false) (h : s.taskInList t.period = some i) (hi : i < pTasks)
      (ht : s.list.tech i = .sdr ∨ (s.list.tech i).dynamic = true ∧ s.o i = 0) :
      Step s (.report x .fault g)
        (((s.markReported x t).launch i .correction g).note (.report t.period .fault true))
  | begun {id : Id} {i : ℕ} (h : s.taskInList id = some i) (hi : i < pTasks)
      (hk : (s.list.tech i).dynamic = false ∨ s.a i ≠ 0) :
      Step s (.periodBegin id) (s.deleteVersions i)
  | begunReplenished {id : Id} {i : ℕ} {s₁ : Fts} (h : s.taskInList id = some i) (hi : i < pTasks)
      (ht : (s.list.tech i).dynamic = true) (ha : s.a i = 0)
      (hn : s.nrPartitions i = s.partitionIndex i) (hu : (s.deleteVersions i).tolcUpdate i = some s₁) :
      Step s (.periodBegin id) s₁
  | begunNext {id : Id} {i : ℕ} (h : s.taskInList id = some i) (hi : i < pTasks)
      (ht : (s.list.tech i).dynamic = true) (hx : s.partitionIndex i < patternPartitions)
      (ha : s.a i = 0) (hn : s.nrPartitions i ≠ s.partitionIndex i) :
      Step s (.periodBegin id)
        { s.deleteVersions i with
          partitionIndex :=
            update s.partitionIndex i ((s.partitionIndex i + 1) % 2 ^ 16) }
  | taskCreated {g : Grant} :
      Step s (.taskCreate g) { s with tasks := (rtemsTaskCreate s.tasks .other g).2 }
  | taskDeleted {x : Id} : Step s (.taskDelete x) { s with tasks := s.tasks.kill x }
  | tasksExtended {ids : List Id} (h : s.tasks.Fresh ids) :
      Step s (.tasksExtend ids) { s with tasks := s.tasks.extend ids h }
  | tasksShrunk {block : List Id} :
      Step s (.tasksShrink block) { s with tasks := s.tasks.shrink block }

/-! ## What the deletions leave alone -/

section Deletion

variable (s : Fts) (i : ℕ) (v : FtsVersion)

theorem deleteVersion_eq : ∃ tasks running log, s.deleteVersion i v =
    { s with tasks := tasks, runningId := running, log := log } := by
  unfold deleteVersion
  split_ifs
  · exact ⟨_, _, _, rfl⟩
  · exact ⟨s.tasks, s.runningId, s.log, rfl⟩

theorem deleteVersions_eq : ∃ tasks running log, s.deleteVersions i =
    { s with tasks := tasks, runningId := running, log := log } := by
  obtain ⟨_, _, _, h1⟩ := deleteVersion_eq s i .basic
  obtain ⟨_, _, _, h2⟩ := deleteVersion_eq (s.deleteVersion i .basic) i .detection
  obtain ⟨t, r, l, h3⟩ :=
    deleteVersion_eq ((s.deleteVersion i .basic).deleteVersion i .detection) i .correction
  exact ⟨t, r, l, by rw [deleteVersions, h3, h2, h1]⟩

@[simp] theorem deleteVersions_list : (s.deleteVersions i).list = s.list := by
  obtain ⟨_, _, _, h⟩ := deleteVersions_eq s i; rw [h]

@[simp] theorem deleteVersions_tables :
    (s.deleteVersions i).periodPointers = s.periodPointers ∧ (s.deleteVersions i).mem = s.mem ∧
    (s.deleteVersions i).tolCounterConst = s.tolCounterConst ∧
    (s.deleteVersions i).tolCounterTemp = s.tolCounterTemp ∧
    (s.deleteVersions i).nrPartitions = s.nrPartitions ∧
    (s.deleteVersions i).partitionIndex = s.partitionIndex ∧
    (s.deleteVersions i).taskSpecs = s.taskSpecs ∧ (s.deleteVersions i).taskId = s.taskId := by
  obtain ⟨_, _, _, h⟩ := deleteVersions_eq s i
  rw [h]
  exact ⟨rfl, rfl, rfl, rfl, rfl, rfl, rfl, rfl⟩

@[simp] theorem deleteVersions_a : (s.deleteVersions i).a i = s.a i := by simp [a]

theorem deleteVersion_runningId : (s.deleteVersion i v).runningId =
    update s.runningId v (update (s.runningId v) i 0) := by
  unfold deleteVersion
  split_ifs with h
  · rfl
  · rw [← not_not.mp h, update_eq_self, update_eq_self]

theorem deleteVersions_runningId (j : ℕ) :
    (s.deleteVersions i).runningId v j = if j = i then 0 else s.runningId v j := by
  simp only [deleteVersions, deleteVersion_runningId]
  by_cases hj : j = i
  · subst hj; cases v <;> simp
  · cases v <;> simp [hj]

theorem deleteVersions_runningId_or (j : ℕ) : (s.deleteVersions i).runningId v j = s.runningId v j ∨
      (s.deleteVersions i).runningId v j = 0 := by
  rw [deleteVersions_runningId]
  split_ifs
  · exact .inr rfl
  · exact .inl rfl

variable {s i v}

theorem deleteVersion_runningId_of_ne {w : FtsVersion} (h : w ≠ v) :
    (s.deleteVersion i v).runningId w = s.runningId w := by
  rw [deleteVersion_runningId, update_of_ne h]

theorem deleteVersion_live (h : (s.deleteVersion i v).tasks.live x = some k) :
    x ≠ s.runningId v i ∧ s.tasks.live x = some k := by
  unfold deleteVersion at h
  split_ifs at h with hz
  · rcases Objects.update_cases ((Objects.kill_live _ _) ▸ h) with ⟨-, h⟩ | h
    · cases h
    · exact h
  · refine ⟨fun hx => ?_, h⟩
    rw [hx, not_not.mp hz, s.tasks.live_zero] at h
    cases h

theorem deleteVersions_live (h : (s.deleteVersions i).tasks.live x = some k) :
    (∀ v, x ≠ s.runningId v i) ∧ s.tasks.live x = some k := by
  obtain ⟨hc, h⟩ := deleteVersion_live h
  obtain ⟨hd, h⟩ := deleteVersion_live h
  obtain ⟨hb, h⟩ := deleteVersion_live h
  rw [deleteVersion_runningId_of_ne (by decide)] at hd
  rw [deleteVersion_runningId_of_ne (by decide), deleteVersion_runningId_of_ne (by decide)] at hc
  refine ⟨fun v => ?_, h⟩
  cases v <;> assumption

theorem deleteVersion_log {o : Obs} (h : o ∈ (s.deleteVersion i v).log) :
    o ∈ s.log ∨ o = .deleted i (s.runningId v i) (s.tasks.live (s.runningId v i)) := by
  unfold deleteVersion at h
  split_ifs at h
  · exact (List.mem_cons.mp h).symm
  · exact .inl h

theorem deleteVersions_log {o : Obs} (h : o ∈ (s.deleteVersions i).log) :
    o ∈ s.log ∨ ∃ v task, o = .deleted i (s.runningId v i) task ∧
      ∀ k, task = some k → s.tasks.live (s.runningId v i) = some k := by
  rcases deleteVersion_log h with h | h
  · rcases deleteVersion_log h with h | h
    · rcases deleteVersion_log h with h | h
      · exact .inl h
      · exact .inr ⟨.basic, _, h, fun _ hk => hk⟩
    · rw [deleteVersion_runningId_of_ne (by decide)] at h
      exact .inr ⟨.detection, _, h, fun _ hk => (deleteVersion_live hk).2⟩
  · rw [deleteVersion_runningId_of_ne (by decide), deleteVersion_runningId_of_ne (by decide)] at h
    exact .inr ⟨.correction, _, h, fun _ hk => (deleteVersion_live (deleteVersion_live hk).2).2⟩

theorem deleteVersion_of_zero (h : s.runningId v i = 0) : s.deleteVersion i v = s := by
  rw [deleteVersion, if_neg (not_not.mpr h)]

theorem deleteVersions_of_zero (h : ∀ v, s.runningId v i = 0) : s.deleteVersions i = s := by
  rw [deleteVersions, deleteVersion_of_zero (h .basic), deleteVersion_of_zero (h .detection),
    deleteVersion_of_zero (h .correction)]

end Deletion

/-! ## What a release records -/

theorem launch_runningId (s : Fts) (i : ℕ) (v : FtsVersion) (g : Grant) (w : FtsVersion) (j : ℕ) :
    (s.launch i v g).runningId w j =
      if w = v ∧ j = i then s.launchId i v g else s.runningId w j := by
  simp only [launch, note, setRunning]
  by_cases hw : w = v
  · subst hw
    by_cases hj : j = i
    · simp [hj]
    · simp [hj]
  · simp [hw]

/-! ## Every step is one of the cases -/

section

variable {s s' : Fts}

theorem step_cases_register {r : Request} (h : s.step (.register r) = some s') :
    Step s (.register r) s' := by
  simp only [step, map_eq_some_iff, Prod.exists, exists_eq_right] at h
  obtain ⟨n, h⟩ := h
  unfold ftsRtemsTaskRegister at h
  split_ifs at h with hacc
  · obtain ⟨hi, hn, hmk⟩ := hacc
    simp only [createPatternT, bind_eq_bind, bind_eq_some_iff, Option.some.injEq,
      Prod.mk.injEq] at h
    obtain ⟨s0, ⟨mem, hp, rfl⟩, s1, hc, -, rfl⟩ := h
    refine .registered hi hn hmk ?_ hc
    simpa [enter] using hp
  · cases h; exact .idle (fun _ e => by cases e)

theorem step_cases_compensate {caller : Caller} {id : Id}
    (h : s.step (.compensate caller id g) = some s') : Step s (.compensate caller id g) s' := by
  simp only [step, ftsCompensate, nextVersion, map_map, map_eq_some_iff, Prod.exists,
    comp_apply] at h
  obtain ⟨v', s1, h, rfl⟩ := h
  cases hin : s.taskInList id with
  | none => rw [hin] at h; cases h; exact .compensatedAbsent hin
  | some i =>
    simp only [hin, ite_none_right_eq_some] at h
    obtain ⟨hi, h⟩ := h
    have hstatic : s.list.tech i = .sre ∨ s.list.tech i = .sdr →
        (s.noteEntry caller i).staticNextVersion i g = some (v', s1) →
        Step s (.compensate caller id g) (s1.note (.version id v')) := by
      intro ht hs
      simp only [staticNextVersion, releaseTask, if_pos hi, ite_none_right_eq_some, map_some,
        Option.some.injEq, Prod.mk.injEq] at hs
      obtain ⟨hb, rfl, rfl⟩ := hs
      exact .compensatedStatic hin hi ht hb rfl
    have hdynamic : (s.list.tech i).dynamic = true →
        (s.noteEntry caller i).dynamicNextVersion i id g = some (v', s1) →
        Step s (.compensate caller id g) (s1.note (.version id v')) := by
      intro ht hs
      simp only [dynamicNextVersion, releaseTask, if_pos hi, ite_none_right_eq_some, map_some] at hs
      obtain ⟨hx, hs⟩ := hs
      split_ifs at hs with ho
      · cases hs; exact .compensatedTolerant hin hi ht hx ho
      · cases hs; exact .compensatedSafe hin hi ht hx (Nat.eq_zero_of_not_pos ho) rfl
    have htech : (s.noteEntry caller i).list.tech i = s.list.tech i := rfl
    cases ht : s.list.tech i with
    | none => rw [htech, ht] at h; cases h; exact .compensatedNone hin hi ht
    | sre => exact hstatic (.inl ht) (by rw [htech, ht] at h; exact h)
    | sdr => exact hstatic (.inr ht) (by rw [htech, ht] at h; exact h)
    | dre | ddr => exact hdynamic (by rw [ht]; rfl) (by rw [htech, ht] at h; exact h)

theorem step_cases_report {fs : FaultStatus}
    (h : s.step (.report x fs g) = some s') : Step s (.report x fs g) s' := by
  simp only [step, report] at h
  split at h
  · next t hx =>
    simp only [ite_none_right_eq_some] at h
    obtain ⟨⟨hd, hr⟩, h⟩ := h
    simp only [faultDetectionRoutine, reaction, map_eq_some_iff, Prod.exists] at h
    obtain ⟨recovered, s1, h, rfl⟩ := h
    have htil : (s.markReported x t).taskInList t.period = s.taskInList t.period := rfl
    cases fs with
    | noFault => cases h; exact .reportedQuiet hx hd hr (.inl rfl)
    | fault =>
      simp only [htil, ite_none_right_eq_some] at h
      obtain ⟨hi, h⟩ := h
      obtain ⟨i, hin⟩ : ∃ i, s.taskInList t.period = some i := by
        cases hin : s.taskInList t.period with
        | none => rw [hin] at hi; exact absurd hi (by decide)
        | some i => exact ⟨i, rfl⟩
      simp only [hin, getD_some] at hi h
      have hdynamic : (s.list.tech i).dynamic = true →
          (s.markReported x t).tolerateOrRecover i t.period g = some (recovered, s1) →
          Step s (.report x .fault g) (s1.note (.report t.period .fault recovered)) := by
        intro ht hs
        simp only [tolerateOrRecover, releaseTask, if_pos hi, ite_none_right_eq_some,
          map_some] at hs
        obtain ⟨hp, hs⟩ := hs
        split_ifs at hs with ho
        · cases hs; exact .reportedTolerated hx hd hr hin hi ht hp ho
        · cases hs
          exact .reportedRecovered hx hd hr hin hi (.inr ⟨ht, Nat.eq_zero_of_not_pos ho⟩)
      have htech : (s.markReported x t).list.tech i = s.list.tech i := rfl
      cases ht : s.list.tech i with
      | none =>
        rw [htech, ht] at h
        cases h
        exact .reportedQuiet hx hd hr (.inr ⟨i, by rw [hin]; rfl, hi, .inl ht⟩)
      | sre =>
        rw [htech, ht] at h
        cases h
        exact .reportedQuiet hx hd hr (.inr ⟨i, by rw [hin]; rfl, hi, .inr ht⟩)
      | sdr =>
        simp only [htech, ht, releaseTask, if_pos hi, map_some, Option.some.injEq,
          Prod.mk.injEq] at h
        obtain ⟨rfl, rfl⟩ := h
        exact .reportedRecovered hx hd hr hin hi (.inl ht)
      | dre | ddr => exact hdynamic (by rw [ht]; rfl) (by rw [htech, ht] at h; exact h)
  · cases h

theorem step_cases_periodBegin {id : Id} (h : s.step (.periodBegin id) = some s') :
    Step s (.periodBegin id) s' := by
  simp only [step, periodBegin] at h
  split at h
  · next hin =>
    cases h; exact .idle (fun _ e => by cases e; exact hin)
  · next i hin =>
    simp only [ite_none_right_eq_some] at h
    obtain ⟨hi, h⟩ := h
    unfold replenish at h
    simp only [deleteVersions_list, deleteVersions_tables, deleteVersions_a] at h
    by_cases ht : (s.list.tech i).dynamic = true
    · rw [if_pos ht, ite_none_right_eq_some] at h
      obtain ⟨hx, h⟩ := h
      by_cases ha : s.a i = 0
      · split_ifs at h with hn
        · exact .begunReplenished hin hi ht ha hn.1 h
        · cases h
          have hne : s.nrPartitions i ≠ s.partitionIndex i := fun e => hn ⟨e, by rw [e]; exact ha⟩
          simpa using Step.begunNext hin hi ht hx ha hne
      · rw [if_neg ha] at h; cases h; exact .begun hin hi (.inr ha)
    · rw [if_neg ht] at h; cases h; exact .begun hin hi (.inl (by simpa using ht))

theorem step_cases {c : Call} (h : s.step c = some s') : Step s c s' := by
  cases c with
  | register r => exact step_cases_register h
  | off id =>
    simp only [step, map_eq_some_iff, Prod.exists, exists_eq_right, ftsOff] at h
    obtain ⟨n, h⟩ := h
    split at h
    · next i hin =>
      simp only [bind_eq_bind, bind_eq_some_iff, Option.some.injEq, Prod.mk.injEq] at h
      obtain ⟨l, hl, -, rfl⟩ := h
      exact .signedOff hin hl
    · cases h; exact .idle (fun _ e => by cases e)
  | changeTech id tech =>
    simp only [step, map_eq_some_iff, Prod.exists, exists_eq_right, ftsChangeTech] at h
    obtain ⟨n, h⟩ := h
    split at h
    · next i hin =>
      simp only [ite_none_right_eq_some, Option.some.injEq, Prod.mk.injEq] at h
      obtain ⟨hi, -, rfl⟩ := h
      exact .techChanged hin hi
    · cases h; exact .idle (fun _ e => by cases e)
  | compensate caller id g => exact step_cases_compensate h
  | report x fs g => exact step_cases_report h
  | periodBegin id => exact step_cases_periodBegin h
  | taskCreate g => cases h; exact .taskCreated
  | taskDelete x => cases h; exact .taskDeleted
  | tasksExtend ids =>
    simp only [step] at h
    split at h
    · next hf => cases h; exact .tasksExtended hf
    · cases h
  | tasksShrink block => cases h; exact .tasksShrunk

end

end Fts

end Rtems
