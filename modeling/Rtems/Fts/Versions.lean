import Rtems.Fts.Table

/-!
# The recorded versions of a job

A release records the id of its version task in `running_id_b/d/c`, the start of the next period
deletes the task and sets the id back to zero.

* `VersionsOk`: the detection versions that still have to report are the recorded ones;
* **`Step.versionsOk`**, **`Step.idle`**: both are kept while `fts_compensate_t` is only called for
  idle ids, and nothing is signed off.
-/

namespace Rtems

open Function

/-- A release finds no recorded version, and a version is recorded over nothing. -/
def Obs.Clean : Obs → Prop
  | .entered .release _ b d c => b = 0 ∧ d = 0 ∧ c = 0
  | .recorded _ _ old _ => old = 0
  | _ => True

namespace Fts

/-- No version is recorded for `id`. -/
def Idle (s : Fts) (id : Id) : Prop :=
  ∀ i, s.taskInList id = some i → ∀ v, s.runningId v i = 0

/-- No detection version of slot `i` has still to report. -/
def NoPending (s : Fts) (i : ℕ) : Prop :=
  ∀ x t, s.tasks.live x = some (.version t) → t.version = .detection → t.reported = false →
    t.slot ≠ i

/-- `x` is the only version recorded for the slot of `t`. -/
structure Recorded (s : Fts) (x : Id) (t : VersionTask) : Prop where
  lt : t.slot < s.list.taskListIndex
  period : s.list.taskListId t.slot = t.period
  detection : s.runningId .detection t.slot = x
  others : ∀ v, v ≠ .detection → s.runningId v t.slot = 0

/-- The recorded versions when the period manager deletes before it releases. -/
structure VersionsOk (s : Fts) : Prop where
  table : s.TableOk
  pointer : ∀ i, i < s.list.taskListIndex → s.periodPointers i = s.list.taskListId i
  fresh : ∀ v i, s.list.taskListIndex ≤ i → s.runningId v i = 0
  /-- A detection version that has not reported is recorded, with no other version. -/
  pending : ∀ x t, s.tasks.live x = some (.version t) → t.version = .detection →
    t.reported = false → s.Recorded x t
  clean : ∀ o ∈ s.log, o.Clean

section

variable {s s' : Fts} {i : ℕ}

variable {x id : Id} {t : VersionTask}

theorem Recorded.not_zero (h : s.Recorded x t)
    (hx : s.tasks.live x = some (.version t)) : s.runningId .detection t.slot ≠ 0 := by
  rw [h.detection]
  exact Objects.ne_zero_of_live (by rw [hx]; rfl)

theorem markReported_live {y : Id} {t' : VersionTask} (hx : s.tasks.live x = some (.version t))
    (hy : (s.markReported x t).tasks.live y = some (.version t')) (hr : t'.reported = false) :
    y ≠ x ∧ s.tasks.live y = some (.version t') := by
  rcases Objects.put_cases hx hy with ⟨-, he⟩ | hy
  · cases he; cases hr
  · exact hy

theorem taskCreate_live {g : Grant}
    (hx : (rtemsTaskCreate s.tasks .other g).2.live x = some (.version t)) :
    s.tasks.live x = some (.version t) := by
  rcases rtemsTaskCreate_cases hx with hx | ⟨he, -⟩
  · exact hx
  · cases he

theorem taskDelete_live {y : Id} {k : Task} (hy : (s.tasks.kill x).live y = some k) :
    s.tasks.live y = some k := by
  rcases Objects.update_cases ((Objects.kill_live _ _) ▸ hy) with ⟨-, he⟩ | ⟨-, hy⟩
  · cases he
  · exact hy

namespace VersionsOk

section

variable (h : s.VersionsOk)

include h

theorem congr (hi : s'.list.taskListId = s.list.taskListId)
    (hn : s'.list.taskListIndex = s.list.taskListIndex)
    (hp : s'.periodPointers = s.periodPointers) (hr : s'.runningId = s.runningId)
    (ht : ∀ x t, s'.tasks.live x = some (.version t) → t.reported = false →
      s.tasks.live x = some (.version t))
    (hl : ∀ o ∈ s'.log, o ∈ s.log ∨ o.Clean) : s'.VersionsOk where
  table := h.table.congr hi hn
  pointer i hlt := by
    rw [hn] at hlt; rw [hp, hi, h.pointer i hlt]
  fresh v i hle := by
    rw [hn] at hle; rw [hr, h.fresh v i hle]
  pending x t hx hd hrep := by
    obtain ⟨h1, h2, h3, h4⟩ := h.pending x t (ht x t hx hrep) hd hrep
    exact ⟨by rw [hn]; exact h1, by rw [hi]; exact h2, by rw [hr]; exact h3, by rw [hr]; exact h4⟩
  clean o ho := (hl o ho).elim (h.clean o) id

theorem note {o : Obs} (ho : o.Clean) : (s.note o).VersionsOk :=
  h.congr rfl rfl rfl rfl (fun _ _ hx _ => hx) fun o' ho' => by
    rcases List.mem_cons.mp ho' with rfl | ho'
    · exact .inr ho
    · exact .inl ho'

theorem setTemp {c : TolCounter} : (s.setTemp i c).VersionsOk :=
  h.congr rfl rfl rfl rfl (fun _ _ hx _ => hx) fun _ ho => .inl ho

theorem decO (id : Id) : (s.decO i id).VersionsOk :=
  h.setTemp.note trivial

theorem decA (id : Id) : (s.decA i id).VersionsOk :=
  h.setTemp.note trivial

theorem launch (hi : i < s.list.taskListIndex) {v : FtsVersion} (hv : s.runningId v i = 0)
    (hz : v = .detection → ∀ w, s.runningId w i = 0) (hno : s.NoPending i) (g : Grant) :
    (s.launch i v g).VersionsOk where
  table := h.table.congr rfl rfl
  pointer := h.pointer
  fresh w j hj := by
    have hj' : s.list.taskListIndex ≤ j := hj
    rw [launch_runningId, if_neg (by omega), h.fresh w j hj]
  pending x t hx hd hr := by
    rcases rtemsTaskCreate_cases hx with hx | ⟨ht, hnew⟩
    · have hne := hno x t hx hd hr
      obtain ⟨h1, h2, h3, h4⟩ := h.pending x t hx hd hr
      refine ⟨h1, h2, ?_, fun w hw => ?_⟩
      · rw [launch_runningId, if_neg (fun e => hne e.2), h3]
      · rw [launch_runningId, if_neg (fun e => hne e.2), h4 w hw]
    · cases ht
      have hv : v = .detection := hd
      subst hv
      refine ⟨hi, (h.pointer i hi).symm, ?_, fun w hw => ?_⟩
      · rw [launch_runningId, if_pos ⟨rfl, rfl⟩, launchId, hnew]; rfl
      · rw [launch_runningId, if_neg (fun e => hw e.1)]; exact hz rfl w
  clean o ho := by
    rcases List.mem_cons.mp ho with rfl | ho
    · exact hv
    · exact h.clean o ho

theorem deleteVersions (i : ℕ) : (s.deleteVersions i).VersionsOk where
  table := h.table.congr (by simp) (by simp)
  pointer j hj := by
    rw [deleteVersions_list] at hj
    rw [(deleteVersions_tables _ _).1, deleteVersions_list, h.pointer j hj]
  fresh v j hj := by
    rw [deleteVersions_list] at hj; rw [deleteVersions_runningId, h.fresh v j hj, ite_self]
  pending x t hx hd hr := by
    obtain ⟨hrun, hx⟩ := deleteVersions_live hx
    obtain ⟨h1, h2, h3, h4⟩ := h.pending x t hx hd hr
    have hne : t.slot ≠ i := fun e => hrun .detection (by rw [← e, h3])
    refine ⟨by rwa [deleteVersions_list], by rwa [deleteVersions_list], ?_, fun v hv => ?_⟩
    · rw [deleteVersions_runningId, if_neg hne, h3]
    · rw [deleteVersions_runningId, if_neg hne, h4 v hv]
  clean o ho := by
    rcases deleteVersions_log ho with ho | ⟨v, task, rfl, -⟩
    · exact h.clean o ho
    · exact trivial

theorem noPending (hz : s.runningId .detection i = 0) : s.NoPending i :=
  fun x t hx hd hr e => (h.pending x t hx hd hr).not_zero hx (by rw [e, hz])

end

variable {x : Id} {t : VersionTask}

section

variable (h : s.VersionsOk) (hx : s.tasks.live x = some (.version t))

include h hx

theorem slot_of_pending (hd : t.version = .detection)
    (hr : t.reported = false) : s.taskInList t.period = some t.slot := by
  have hrec := h.pending x t hx hd hr
  rw [← hrec.period]
  exact h.table.taskInList hrec.lt

theorem markReported : (s.markReported x t).VersionsOk :=
  h.congr rfl rfl rfl rfl (fun _ _ hy hr => (markReported_live hx hy hr).2) fun _ ho => .inl ho

theorem noPending_markReported (hd : t.version = .detection)
    (hr : t.reported = false) : (s.markReported x t).NoPending t.slot := by
  intro y t' hy hd' hr' e
  obtain ⟨hyx, hy⟩ := markReported_live hx hy hr'
  -- both would be recorded in the same place
  have hrec := h.pending x t hx hd hr
  have hrec' := h.pending y t' hy hd' hr'
  exact hyx (by rw [← hrec'.detection, e, hrec.detection])

end

end VersionsOk

theorem NoPending.launch (h : s.NoPending i) {j : ℕ} {v : FtsVersion} (hv : j ≠ i ∨ v ≠ .detection)
    (g : Grant) : (s.launch j v g).NoPending i := by
  intro x t hx hd hr
  rcases rtemsTaskCreate_cases hx with hx | ⟨he, -⟩
  · exact h x t hx hd hr
  · cases he; exact hv.resolve_right (not_not.mpr hd)

/-! ## Steps -/

variable {c : Call}

section

variable (h : Step s c s') (hs : s.VersionsOk) (hoff : ∀ id, c ≠ .off id)

include h hs hoff

theorem Step.versionsOk
    (hidle : ∀ caller id g, c = .compensate caller id g → s.Idle id) : s'.VersionsOk := by
  -- a version is released for an idle id
  have hrelease : ∀ {caller : Caller} {id i g}, s.taskInList id = some i → s.Idle id →
      (s.noteEntry caller i).VersionsOk ∧ ∀ {s1 : Fts}, s1.VersionsOk →
        s1.list.taskListIndex = s.list.taskListIndex → s1.runningId = s.runningId →
        ∀ v, (s1.launch i v g).VersionsOk := by
    intro caller id i g hf hid
    have hz := hid i hf
    refine ⟨hs.note ?_, fun {s1} hs1 hn hr v => ?_⟩
    · cases caller with
      | release => exact ⟨hz _, hz _, hz _⟩
      | direct => exact trivial
    · refine hs1.launch ?_ (by rw [hr, hz]) (fun _ w => by rw [hr, hz]) (hs1.noPending ?_) g
      · rw [hn]; exact (taskInList_eq_some hf).1
      · rw [hr, hz]
  cases h with
  | idle => exact hs
  | @registered r mem s1 hi hn hmk hp hc =>
    obtain ⟨hpp, hrun, htasks, hlog⟩ := setCounters_frame hc
    obtain ⟨hid, hidx⟩ := registered_ids hc (.registered r.id)
    refine ⟨hs.table.push hi hn hid hidx, fun i hi' => ?_, fun v i hi' => ?_,
      fun x t hx hd hr => ?_, fun o ho => ?_⟩
    · rw [hid]
      show update s1.periodPointers s.list.taskListIndex r.id i = _
      rw [hpp]
      by_cases he : i = s.list.taskListIndex
      · rw [he, update_self, update_self]
      · rw [update_of_ne he, update_of_ne he]; exact hs.pointer i (by omega)
    · show s1.runningId v i = 0
      rw [hrun]
      exact hs.fresh v i (by omega)
    · have hx' : s.tasks.live x = some (.version t) := by
        rw [← hx]; exact congrFun (congrArg Objects.live htasks).symm x
      obtain ⟨h1, h2, h3, h4⟩ := hs.pending x t hx' hd hr
      refine ⟨by rw [hidx]; omega, ?_, ?_, fun v hv => ?_⟩
      · rw [hid, update_of_ne (by omega), h2]
      · exact (congrFun (congrFun hrun _) _).trans h3
      · exact (congrFun (congrFun hrun _) _).trans (h4 v hv)
    · rcases List.mem_cons.mp ho with rfl | ho
      · exact trivial
      · rw [show (s1.attach s.list.taskListIndex r).log = s.log from hlog] at ho
        exact hs.clean o ho
  | signedOff h hl => exact absurd rfl (hoff _)
  | techChanged h hi | tasksExtended h | tasksShrunk =>
    exact hs.congr rfl rfl rfl rfl (fun _ _ hx _ => hx) fun _ ho => .inl ho
  | compensatedAbsent h => exact hs.note trivial
  | compensatedNone h hi ht =>
    exact (hrelease (g := .granted) h (hidle _ _ _ rfl)).1.note trivial
  | @compensatedStatic caller id g i v h hi ht hb hv =>
    obtain ⟨hn, hlaunch⟩ := hrelease h (hidle _ _ _ rfl)
    have hcursor := advance_ids (s.noteEntry caller i) i
    have hadv := hn.congr hcursor.1 hcursor.2 rfl rfl (fun _ _ hx _ => hx) fun _ ho => .inl ho
    exact (hlaunch hadv hcursor.2 rfl _).note trivial
  | compensatedTolerant h hi ht hx ho =>
    obtain ⟨hn, hlaunch⟩ := hrelease h (hidle _ _ _ rfl)
    exact (hlaunch hn rfl rfl _).note trivial
  | compensatedSafe h hi ht hx ho hv =>
    obtain ⟨hn, hlaunch⟩ := hrelease h (hidle _ _ _ rfl)
    exact ((hlaunch hn rfl rfl _).decA _).note trivial
  | reportedQuiet hx hd hr hq => exact (hs.markReported hx).note trivial
  | reportedTolerated hx hd hr h hi ht hp ho => exact ((hs.markReported hx).decO _).note trivial
  | @reportedRecovered x g t i hx hd hr h hi ht =>
    have hslot := hs.slot_of_pending hx hd hr
    rw [h] at hslot
    cases hslot
    have hrec := hs.pending x t hx hd hr
    refine VersionsOk.note ((hs.markReported hx).launch hrec.lt (hrec.others _ (by decide))
      (fun e => by cases e) (hs.noPending_markReported hx hd hr) g) trivial
  | begun h hi hk => exact hs.deleteVersions _
  | begunReplenished h hi ht ha hn hu =>
    rw [(tolcUpdate_eq_some.mp hu).2]
    exact (hs.deleteVersions _).congr rfl rfl rfl rfl (fun _ _ hx _ => hx) fun _ ho => .inl ho
  | begunNext h hi ht hx ha hn =>
    exact (hs.deleteVersions _).congr rfl rfl rfl rfl (fun _ _ hx _ => hx) fun _ ho => .inl ho
  | taskCreated =>
    exact hs.congr rfl rfl rfl rfl (fun _ _ hx _ => taskCreate_live hx) fun _ ho => .inl ho
  | taskDeleted =>
    exact hs.congr rfl rfl rfl rfl (fun _ _ hx _ => taskDelete_live hx) fun _ ho => .inl ho

/-- **An id stays idle until `fts_compensate_t` is called for it.** -/
theorem Step.idle_of_idle
    (hc : ∀ caller g, c ≠ .compensate caller id g) (hid : s.Idle id) : s'.Idle id := by
  have hkeep : s'.list.taskListId = s.list.taskListId →
      s'.list.taskListIndex = s.list.taskListIndex → (∀ i, s.taskInList id = some i → ∀ v,
        s'.runningId v i = s.runningId v i ∨ s'.runningId v i = 0) → s'.Idle id := by
    intro hi hn hr i hf v
    rw [taskInList_congr hi hn] at hf
    rcases hr i hf v with hr | hr
    · rw [hr, hid i hf v]
    · exact hr
  -- a version released for another id goes to another slot
  have hother : ∀ {s1 : Fts} {id' j i v w g}, s1.runningId = s.runningId →
      s.taskInList id' = some j → id' ≠ id → s.taskInList id = some i →
      (s1.launch j w g).runningId v i = s.runningId v i := by
    intro s1 id' j i v w g hr hj hne hi
    rw [launch_runningId, if_neg, hr]
    rintro ⟨-, rfl⟩
    exact hne (by rw [← (taskInList_eq_some hj).2, (taskInList_eq_some hi).2])
  have hne : ∀ {caller id' g}, c = .compensate caller id' g → id' ≠ id :=
    fun {caller id' g} he e => hc caller g (e ▸ he)
  cases h with
  | idle => exact hid
  | @registered r mem s1 hi hn hmk hp hct =>
    obtain ⟨-, hrun, -, -⟩ := setCounters_frame hct
    intro i hf v
    obtain ⟨-, hi'⟩ := taskInList_eq_some hf
    have hrun' : ((s1.attach s.list.taskListIndex r).note (.registered r.id)).runningId =
        s.runningId := hrun
    rw [hrun']
    -- the new slot has no recorded version yet
    by_cases he : i < s.list.taskListIndex
    · have hid' : s.list.taskListId i = id := by
        rw [← hi', (registered_ids hct _).1, update_of_ne he.ne]
      exact hid i (by rw [← hid']; exact hs.table.taskInList he) v
    · exact hs.fresh v i (not_lt.mp he)
  | signedOff h hl => exact absurd rfl (hoff _)
  | @compensatedStatic caller id' g i v h hi ht hb hv =>
    have hcursor := advance_ids (s.noteEntry caller i) i
    exact hkeep hcursor.1 hcursor.2 fun i hf v => .inl (hother rfl h (hne rfl) hf)
  | compensatedTolerant h hi ht hx ho | compensatedSafe h hi ht hx ho hv =>
    exact hkeep rfl rfl fun i hf v => .inl (hother rfl h (hne rfl) hf)
  | @reportedRecovered x g t j hx hd hr h hi ht =>
    refine hkeep rfl rfl fun i hf v => .inl (hother rfl h (fun e => ?_) hf)
    -- the version that reports is recorded, so its id is not idle
    have hslot := hs.slot_of_pending hx hd hr
    rw [e] at hslot
    exact (hs.pending x t hx hd hr).not_zero hx (hid _ hslot _)
  | begun h hi hk | begunNext h hi ht hx ha hn =>
    exact hkeep (by simp) (by simp) fun i _ v => deleteVersions_runningId_or _ _ v i
  | begunReplenished h hi ht ha hn hu =>
    rw [(tolcUpdate_eq_some.mp hu).2] at hkeep ⊢
    exact hkeep (by simp) (by simp) fun i _ v => deleteVersions_runningId_or _ _ v i
  | _ => exact hkeep rfl rfl fun _ _ _ => .inl rfl

end

theorem Step.noPending (h : Step s c s') (hoff : ∀ id, c ≠ .off id)
    (hf : s.taskInList id = some i) (hne : s.about c ≠ some id) (hno : s.NoPending i) :
    s'.NoPending i := by
  have hslot : ∀ {id' j}, s.taskInList id' = some j → some id' ≠ some id → j ≠ i :=
    fun {id' j} hj hid e => hid (by
      rw [← (taskInList_eq_some hj).2, e, (taskInList_eq_some hf).2])
  -- the versions that have still to report were there before
  have hkeep : (∀ x t, s'.tasks.live x = some (.version t) → t.reported = false →
      s.tasks.live x = some (.version t)) → s'.NoPending i :=
    fun hlive x t hx hd hr => hno x t (hlive x t hx hr) hd hr
  cases h with
  | registered hi hn hmk hp hc =>
    obtain ⟨-, -, htasks, -⟩ := setCounters_frame hc
    exact hkeep fun x t hx _ => (congrFun (congrArg Objects.live htasks).symm x).trans hx
  | signedOff h hl => exact absurd rfl (hoff _)
  | @compensatedStatic caller id' g j v h hi ht hb hv =>
    exact NoPending.launch (s := (s.noteEntry caller j).advance j) hno (.inl (hslot h hne)) _
  | @compensatedTolerant caller id' g j h hi ht hx ho
  | @compensatedSafe caller id' g j v h hi ht hx ho hv =>
    exact NoPending.launch hno (.inl (hslot h hne)) _
  | reportedQuiet hx hd hr hq | reportedTolerated hx hd hr h hi ht hp ho =>
    exact hkeep fun _ _ hy hr => (markReported_live hx hy hr).2
  | @reportedRecovered x g t j hx hd hr h hi ht =>
    have hno' : (s.markReported x t).NoPending i := fun y t' hy hd' hr' =>
      hno y t' (markReported_live hx hy hr').2 hd' hr'
    exact hno'.launch (.inr (by decide)) g
  | begun h hi hk | begunNext h hi ht hx ha hn =>
    exact hkeep fun _ _ hx _ => (deleteVersions_live hx).2
  | begunReplenished h hi ht ha hn hu =>
    rw [(tolcUpdate_eq_some.mp hu).2] at hkeep ⊢
    exact hkeep fun _ _ hx _ => (deleteVersions_live hx).2
  | taskCreated => exact hkeep fun _ _ hx _ => taskCreate_live hx
  | taskDeleted => exact hkeep fun _ _ hx _ => taskDelete_live hx
  | _ => exact hno

theorem periodBegin_idle (h : s.periodBegin id = some s') : s'.Idle id := by
  unfold periodBegin at h
  intro j hj v
  split at h
  · next hf =>
    cases h; rw [hf] at hj; cases hj
  · next i hf =>
    rw [Option.ite_none_right_eq_some] at h
    have hids : s'.list = s.list ∧ s'.runningId = (s.deleteVersions i).runningId := by
      have hrep := h.2
      unfold replenish at hrep
      split_ifs at hrep
      · obtain ⟨-, rfl⟩ := tolcUpdate_eq_some.mp hrep; simp
      all_goals
        cases hrep
        simp
    rw [taskInList_congr (congrArg _ hids.1) (congrArg _ hids.1), hf] at hj
    cases hj
    rw [hids.2, deleteVersions_runningId, if_pos rfl]

theorem boot_versionsOk {mem : Mem} {tasks : Objects Task}
    (ht : ∀ x t, tasks.live x ≠ some (.version t)) : (boot mem tasks).VersionsOk where
  table := ⟨Nat.zero_le _, fun i _ hi => absurd hi (Nat.not_lt_zero i)⟩
  pointer i hi := absurd hi (Nat.not_lt_zero i)
  fresh _ _ _ := rfl
  pending x t hx := absurd hx (ht x t)
  clean _ ho := absurd ho List.not_mem_nil

end

end Fts

end Rtems
