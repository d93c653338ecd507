import Rtems.Fts.Table

/-!
# Whose tasks the running ids name

A version task may delete itself, and its id may be handed out again, while `running_id_b/d/c` still
hold it.

* `Unshared`: the task that a call creates gets an id that no other slot has recorded;
* **`Step.owned`**: along such calls the running ids of a slot name its own versions only, and only
  these are deleted for it.
-/

namespace Rtems

/-- The task that is deleted for a slot is a version of that slot. -/
def Obs.OwnDeletion : Obs → Prop
  | .deleted i _ (some k) => ∃ t, k = .version t ∧ t.slot = i
  | _ => True

namespace Fts

variable {s s' : Fts} {i : ℕ}

/-- A task that `x` names is a version of slot `i`. -/
def NamesOwn (s : Fts) (x : Id) (i : ℕ) : Prop :=
  ∀ k, s.tasks.live x = some k → ∃ t, k = .version t ∧ t.slot = i

/-- The id of the next task that `rtems_task_create` makes. -/
def newId (s : Fts) : Grant → Option Id
  | .granted => (s.tasks.inactive ++ s.tasks.zombies).head?
  | _ => none

theorem rtemsTaskCreate_fst (s : Fts) (c : Task) (g : Grant) :
    (rtemsTaskCreate s.tasks c g).1 = s.newId g := by
  cases g with
  | granted =>
    have hk : s.tasks.killZombies.inactive = s.tasks.inactive ++ s.tasks.zombies := rfl
    simp only [rtemsTaskCreate, newId]
    split
    · next x o' ha => rw [← hk, (Objects.allocate_eq_some ha).2.2.1, List.head?_cons]
    · next ha => rw [← hk, Objects.allocate_eq_none.mp ha, List.head?_nil]
  | unsatisfied => rfl
  | refused => rfl

/-- The version that `fts_compensate_t` releases for slot `i`. -/
def nextRelease (s : Fts) (i : ℕ) : Option FtsVersion :=
  if s.list.tech i = .none then none
  else if (s.list.tech i).dynamic then
    some (if 0 < s.o i then .detection else safeVersion (s.list.tech i))
  else
    some (staticVersion (s.list.tech i) (bitAt (s.mem (s.list.currPos i)) (s.list.bitpos i)))

theorem nextRelease_dynamic (h : (s.list.tech i).dynamic = true) : s.nextRelease i =
    some (if 0 < s.o i then .detection else safeVersion (s.list.tech i)) := by
  have hne : s.list.tech i ≠ .none := by intro e; rw [e] at h; cases h
  rw [nextRelease, if_neg hne, if_pos h]

/-- The slot and the version for which a call runs `release_task`. -/
def released (s : Fts) : Call → Option (ℕ × FtsVersion × Grant)
  | .compensate _ id g =>
    (s.taskInList id).bind fun i => (s.nextRelease i).map fun v => (i, v, g)
  | .report x .fault g =>
    match s.tasks.live x with
    | some (.version t) =>
      (s.taskInList t.period).bind fun i =>
        if s.list.tech i = .sdr ∨ (s.list.tech i).dynamic = true ∧ s.o i = 0 then
          some (i, .correction, g)
        else none
    | _ => none
  | _ => none

/-- No id of a new task, or recorded in place of one, is a task of another slot. -/
structure Unshared (s : Fts) (c : Call) : Prop where
  task : ∀ g, c = .taskCreate g → ∀ x, s.newId g = some x → ∀ v i, s.runningId v i ≠ x
  version : ∀ i v g, s.released c = some (i, v, g) →
    (∀ x, s.newId g = some x → ∀ w j, s.runningId w j = x → j = i) ∧
    (s.newId g = none → s.NamesOwn (s.taskId v) i)

theorem Unshared.of_none {c : Call} (ht : ∀ g, c ≠ .taskCreate g) (hr : s.released c = none) :
    s.Unshared c where
  task g he := absurd he (ht g)
  version i v g he := by
    rw [hr] at he; cases he

/-- The running ids name versions of their slots, and only such were deleted. -/
structure Owned (s : Fts) : Prop where
  running : ∀ v i, s.NamesOwn (s.runningId v i) i
  log : ∀ o ∈ s.log, o.OwnDeletion

namespace Owned

theorem congr (h : s.Owned) (hr : s'.runningId = s.runningId)
    (ht : ∀ x k, s'.tasks.live x = some k → s.tasks.live x = some k)
    (hl : ∀ o ∈ s'.log, o ∈ s.log ∨ o.OwnDeletion) : s'.Owned where
  running v i k hk := by
    rw [hr] at hk; exact h.running v i k (ht _ _ hk)
  log o ho := (hl o ho).elim (h.log o) id

theorem note (h : s.Owned) {o : Obs} (ho : o.OwnDeletion) : (s.note o).Owned :=
  h.congr rfl (fun _ _ hk => hk) fun o' ho' => by
    rcases List.mem_cons.mp ho' with rfl | ho'
    · exact .inr ho
    · exact .inl ho'

theorem setTemp (h : s.Owned) {c : TolCounter} : (s.setTemp i c).Owned :=
  h.congr rfl (fun _ _ hk => hk) fun _ ho => .inl ho

theorem decO (h : s.Owned) (id : Id) : (s.decO i id).Owned :=
  h.setTemp.note trivial

theorem decA (h : s.Owned) (id : Id) : (s.decA i id).Owned :=
  h.setTemp.note trivial

theorem namesOwn_markReported {x y : Id} {t : VersionTask}
    (hx : s.tasks.live x = some (.version t)) (h : s.NamesOwn y i) :
    (s.markReported x t).NamesOwn y i := by
  intro k hk
  rcases Objects.put_cases hx hk with ⟨rfl, rfl⟩ | ⟨-, hk⟩
  · obtain ⟨t', he, hi⟩ := h _ hx; cases he; exact ⟨_, rfl, hi⟩
  · exact h k hk

theorem markReported (h : s.Owned) {x : Id} {t : VersionTask}
    (hx : s.tasks.live x = some (.version t)) : (s.markReported x t).Owned where
  running v i := namesOwn_markReported hx (h.running v i)
  log := h.log

theorem launch (h : s.Owned) {v : FtsVersion} {g : Grant}
    (hnew : ∀ x, s.newId g = some x → ∀ w j, s.runningId w j = x → j = i)
    (hold : s.newId g = none → s.NamesOwn (s.taskId v) i) : (s.launch i v g).Owned where
  running w j k hk := by
    rw [launch_runningId] at hk
    split_ifs at hk with hwj
    · -- the id that was just recorded
      obtain ⟨rfl, rfl⟩ := hwj
      rcases rtemsTaskCreate_cases hk with hk | ⟨rfl, -⟩
      · unfold launchId at hk
        rw [rtemsTaskCreate_fst] at hk
        cases hn : s.newId g with
        | none => rw [hn] at hk; exact hold hn k hk
        | some x =>
          rw [hn] at hk
          have hx := live_of_rtemsTaskCreate
            (show (rtemsTaskCreate s.tasks .other g).1 = some x by rw [rtemsTaskCreate_fst, hn])
          rw [Option.getD_some, hx] at hk
          cases hk
      · exact ⟨_, rfl, rfl⟩
    · rcases rtemsTaskCreate_cases hk with hk | ⟨rfl, hx⟩
      · exact h.running w j k hk
      · rw [rtemsTaskCreate_fst] at hx; exact ⟨_, rfl, (hnew _ hx w j rfl).symm⟩
  log o ho := by
    rcases List.mem_cons.mp ho with rfl | ho
    · exact trivial
    · exact h.log o ho

theorem deleteVersions (h : s.Owned) (i : ℕ) : (s.deleteVersions i).Owned where
  running v j k hk := by
    rw [deleteVersions_runningId] at hk
    split_ifs at hk with hj
    · rw [(s.deleteVersions i).tasks.live_zero] at hk; cases hk
    · exact h.running v j k (deleteVersions_live hk).2
  log o ho := by
    rcases deleteVersions_log ho with ho | ⟨v, task, rfl, hk⟩
    · exact h.log o ho
    · cases task with
      | none => exact trivial
      | some k => exact h.running v i k (hk k rfl)

end Owned

theorem Step.owned {c : Call} (h : Step s c s') (hs : s.Owned) (hu : s.Unshared c) : s'.Owned := by
  -- `release_task`, after a part of the call that touches neither tasks nor running ids
  have hlaunch : ∀ {s1 : Fts} {i v g}, s1.Owned → s.released c = some (i, v, g) →
      s1.runningId = s.runningId → s1.tasks = s.tasks → s1.taskId = s.taskId →
      (s1.launch i v g).Owned := by
    intro s1 i v g hs1 hrel hr ht hid
    obtain ⟨hnew, hold⟩ := hu.version i v g hrel
    have hn : s1.newId g = s.newId g := by cases g <;> simp [newId, ht]
    refine hs1.launch (fun x hx w j hw => ?_) fun hx k hk => ?_
    · exact hnew x (hn ▸ hx) w j (by rw [← hr, hw])
    · rw [hid, ht] at hk; exact hold (hn ▸ hx) k hk
  have hnote : ∀ {caller : Caller} {i}, (s.noteEntry caller i).Owned := fun {caller i} =>
    hs.note trivial
  cases h with
  | idle => exact hs
  | @registered r mem s1 hi hn hmk hp hc =>
    obtain ⟨-, hrun, htasks, hlog⟩ := setCounters_frame hc
    have hs1 : s1.Owned := hs.congr hrun (fun x k hk => by rwa [htasks] at hk)
      fun o ho => .inl (by rwa [hlog] at ho)
    have hatt : (s1.attach s.list.taskListIndex r).Owned :=
      hs1.congr rfl (fun _ _ hk => hk) fun _ ho => .inl ho
    exact hatt.note trivial
  | signedOff h hl | techChanged h hi | tasksExtended h =>
    exact hs.congr rfl (fun _ _ hk => hk) fun _ ho => .inl ho
  | compensatedAbsent h => exact hs.note trivial
  | compensatedNone h hi ht => exact hnote.note trivial
  | @compensatedStatic caller id g i v h hi ht hb hv =>
    have hrel : s.released (.compensate caller id g) = some (i, v, g) := by
      rcases ht with ht | ht <;> simp [released, h, nextRelease, ht, hv, FtsTech.dynamic]
    have hadv : ((s.noteEntry caller i).advance i).Owned :=
      hnote.congr rfl (fun _ _ hk => hk) fun _ ho => .inl ho
    exact (hlaunch hadv hrel rfl rfl rfl).note trivial
  | @compensatedTolerant caller id g i h hi ht hx ho =>
    have hrel : s.released (.compensate caller id g) = some (i, .detection, g) := by
      simp [released, h, nextRelease_dynamic ht, ho]
    exact (hlaunch hnote hrel rfl rfl rfl).note trivial
  | @compensatedSafe caller id g i v h hi ht hx ho hv =>
    have hrel : s.released (.compensate caller id g) = some (i, v, g) := by
      simp [released, h, nextRelease_dynamic ht, ho, hv]
    exact ((hlaunch hnote hrel rfl rfl rfl).decA _).note trivial
  | reportedQuiet hx hd hr hq => exact (hs.markReported hx).note trivial
  | reportedTolerated hx hd hr h hi ht hp ho => exact ((hs.markReported hx).decO _).note trivial
  | @reportedRecovered x g t i hx hd hr h hi ht =>
    have hrel : s.released (.report x .fault g) = some (i, .correction, g) := by
      simp [released, hx, h, ht]
    obtain ⟨hnew, hold⟩ := hu.version _ _ _ hrel
    have hn : (s.markReported x t).newId g = s.newId g := by
      cases g <;> simp [newId, Fts.markReported]
    have hl := (hs.markReported hx).launch
      (fun y hy w j hw => hnew y (hn ▸ hy) w j hw)
      fun hy => Owned.namesOwn_markReported hx (hold (hn ▸ hy))
    exact hl.note trivial
  | begun h hi hk => exact hs.deleteVersions _
  | begunReplenished h hi ht ha hn hup =>
    rw [(tolcUpdate_eq_some.mp hup).2]
    exact (hs.deleteVersions _).congr rfl (fun _ _ hk => hk) fun _ ho => .inl ho
  | begunNext h hi ht hx ha hn =>
    exact (hs.deleteVersions _).congr rfl (fun _ _ hk => hk) fun _ ho => .inl ho
  | @taskCreated g =>
    refine ⟨fun v i k hk => ?_, hs.log⟩
    rcases rtemsTaskCreate_cases hk with hk | ⟨-, hx⟩
    · exact hs.running v i k hk
    · rw [rtemsTaskCreate_fst] at hx; exact absurd rfl (hu.task g rfl _ hx v i)
  | taskDeleted =>
    refine hs.congr rfl (fun x k hk => ?_) fun _ ho => .inl ho
    rcases Objects.update_cases ((Objects.kill_live _ _) ▸ hk) with ⟨-, he⟩ | ⟨-, hk⟩
    · cases he
    · exact hk
  | tasksShrunk => exact hs.congr rfl (fun _ _ hk => hk) fun _ ho => .inl ho

theorem boot_owned (mem : Mem) (tasks : Objects Task) : (boot mem tasks).Owned where
  running v i k hk := by
    have h0 : tasks.live 0 = some k := hk; rw [tasks.live_zero] at h0; cases h0
  log _ ho := absurd ho List.not_mem_nil

end Fts

end Rtems
