import Rtems.Fts.Counter
import Rtems.Fts.Off

/-!
# The slots that the manager uses

Every function of `fts_t.c` looks its id up and then uses the slot it found in the parallel arrays,
or the first free one. Two of them can leave the arrays: `fts_off_t` copies from the slot behind the
last one, and `fault_detection_routine` does not look whether its id was found.

* **`partitions_lt_iff`**: when the partitions of a pattern stay in their arrays;
* **`inRange_iff`**: when a call stays in the arrays and leaves what it does not find.
-/

namespace Rtems

open List Option

/-- A call of an entry point of `fts_t.c`. -/
inductive Entry
  | register (r : Request)
  | off (id : Id)
  | changeTech (id : Id) (tech : FtsTech)
  | compensate (caller : Caller) (id : Id) (g : Grant)
  | faultDetectionRoutine (id : Id) (fs : FaultStatus) (g : Grant)
  deriving DecidableEq

/-- The id that a call is to find in the list; a registration is to find none. -/
def Entry.lookedUp : Entry → Option Id
  | .register _ => none
  | .off id => some id
  | .changeTech id _ => some id
  | .compensate _ id _ => some id
  | .faultDetectionRoutine id _ _ => some id

namespace Fts

def perform (s : Fts) : Entry → Option Fts
  | .register r => (s.ftsRtemsTaskRegister r).map Prod.snd
  | .off id => (s.ftsOff id).map Prod.snd
  | .changeTech id tech => (s.ftsChangeTech id tech).map Prod.snd
  | .compensate caller id g => (s.ftsCompensate caller id g).map Prod.snd
  | .faultDetectionRoutine id fs g => s.faultDetectionRoutine id fs g

/-- The slots that `task_in_list_t` reads. -/
def searched (s : Fts) (id : Id) : List ℕ :=
  match s.taskInList id with
  | some i => List.range (i + 1)
  | none => List.range s.list.taskListIndex

/-- The slots that a call uses, in `list` and the arrays beside it. -/
def slots (s : Fts) : Entry → List ℕ
  | .register r =>
    if s.list.taskListIndex < pTasks then
      s.searched r.id ++
        if s.taskInList r.id = none ∧ r.m ≤ r.k then [s.list.taskListIndex] else []
    else []
  | .off id =>
    s.searched id ++
      if (s.taskInList id).isSome then
        (List.range s.list.taskListIndex).flatMap fun i => [i, i + 1]
      else []
  | .changeTech id _ => s.searched id ++ (s.taskInList id).toList
  | .compensate _ id _ => s.searched id ++ (s.taskInList id).toList
  | .faultDetectionRoutine id fs _ =>
    -- the result `-1` becomes the index `65535`, and only a fault makes use of it
    s.searched id ++ if fs = .fault then [(s.taskInList id).getD 65535] else []

/-- The same tables; `log` is not one. -/
def SameTables (s s' : Fts) : Prop := { s' with log := s.log } = s

/-- The states after any calls, as a part of the system or of any entry point. -/
inductive Attainable : Fts → Prop
  | boot (mem : Mem) (tasks : Objects Task) : Attainable (boot mem tasks)
  | step {s s' : Fts} {c : Call} : Attainable s → s.step c = some s' → Attainable s'
  | perform {s s' : Fts} {e : Entry} : Attainable s → s.perform e = some s' → Attainable s'

section

variable {s s' : Fts} {e : Entry} {id : Id} {i : ℕ}

/-! ## The table -/

/-- What a call that finds no slot, or only counts and releases, leaves alone. -/
def layout (s : Fts) : TaskIdList × (ℕ → ℕ) × (ℕ → ℕ) := (s.list, s.nrPartitions, s.partitionIndex)

theorem faultDetectionRoutine_layout {fs : FaultStatus} {g : Grant}
    (h : s.faultDetectionRoutine id fs g = some s') : s'.layout = s.layout := by
  have htol : ∀ {i r}, s.tolerateOrRecover i id g = some r → r.2.layout = s.layout := by
    intro i r hr
    simp only [tolerateOrRecover, releaseTask] at hr
    split_ifs at hr with hp ho hi
    · cases hr; rfl
    · cases hr; rfl
    · cases hr
  obtain ⟨r, hr, rfl⟩ := map_eq_some_iff.mp h
  cases fs with
  | noFault => cases hr; rfl
  | fault =>
    simp only [reaction] at hr
    split_ifs at hr
    split at hr
    · simp only [releaseTask] at hr
      split_ifs at hr
      cases hr
      rfl
    · exact htol hr
    · exact htol hr
    · cases hr; rfl
    · cases hr; rfl

/-- What holds from the start and is kept by each case of a step. -/
theorem Attainable.invariant {P : Fts → Prop} (hboot : ∀ mem tasks, P (Fts.boot mem tasks))
    (hstep : ∀ {s s' : Fts} {c : Call}, Step s c s' → P s → P s')
    (hcongr : ∀ {s s' : Fts}, s'.layout = s.layout → P s → P s') (h : s.Attainable) : P s := by
  induction h with
  | boot mem tasks => exact hboot mem tasks
  | step h hs ih => exact hstep (step_cases hs) ih
  | @perform s s' e h hs ih =>
    cases e with
    | register r => exact hstep (step_cases (c := .register r) hs) ih
    | off id => exact hstep (step_cases (c := .off id) hs) ih
    | changeTech id tech => exact hstep (step_cases (c := .changeTech id tech) hs) ih
    | compensate caller id g => exact hstep (step_cases (c := .compensate caller id g) hs) ih
    | faultDetectionRoutine id fs g => exact hcongr (faultDetectionRoutine_layout hs) ih

theorem Attainable.tableOk (h : s.Attainable) : s.TableOk :=
  h.invariant (fun _ _ => ⟨Nat.zero_le _, fun i _ hi => absurd hi (Nat.not_lt_zero i)⟩)
    (fun hs ih => hs.tableOk ih) fun he ih =>
      have hl := congrArg Prod.fst he
      ih.congr (congrArg TaskIdList.taskListId hl) (congrArg TaskIdList.taskListIndex hl)

/-! ## The partitions -/

/-- The current partition of each slot is one of its own, in the arrays. -/
def PartitionsOk (s : Fts) : Prop :=
  ∀ i, s.nrPartitions i < patternPartitions ∧ s.partitionIndex i ≤ s.nrPartitions i

theorem Step.partitionsOk {c : Call} (h : Step s c s') (hs : s.PartitionsOk) : s'.PartitionsOk := by
  cases h with
  | registered hi hn hmk hp hc =>
    rcases setCounters_eq_some.mp hc with ⟨-, rfl⟩ | ⟨-, nr, c, hnr, -, rfl⟩
    · exact hs
    · intro j
      by_cases hj : j = s.list.taskListIndex
      · subst hj; simpa [attach, note, withCounters] using hnr
      · simpa [attach, note, withCounters, setMem, enter, hj] using hs j
  | begun h hi hk => simpa [PartitionsOk] using hs
  | @begunReplenished x i s1 h hi ht ha hn hu =>
    rw [(tolcUpdate_eq_some.mp hu).2]
    intro j
    by_cases hj : j = i
    · subst hj; simpa using (hs j).1
    · simpa [hj] using hs j
  | @begunNext x i h hi ht hx ha hn =>
    intro j
    by_cases hj : j = i
    · subst hj
      obtain ⟨h1, h2⟩ := hs j
      rw [show (s.deleteVersions j).nrPartitions = s.nrPartitions by simp]
      simp only [Function.update_self]
      omega
    · simpa [hj] using hs j
  | _ => exact hs

theorem TableOk.searched_lt (hs : s.TableOk) (hi : i ∈ s.searched id) : i < pTasks := by
  have hle := hs.index_le
  unfold searched at hi
  split at hi
  · next j hj =>
    have hlt := (taskInList_eq_some hj).1; have := mem_range.mp hi; omega
  · have := mem_range.mp hi; omega

theorem TableOk.found_lt (hs : s.TableOk) (hi : i ∈ (s.taskInList id).toList) : i < pTasks := by
  have hf := mem_toList.mp hi; exact (taskInList_eq_some hf).1.trans_le hs.index_le

/-- No task signs off from a full list, and no unknown id reports a fault. -/
def Allowed (s : Fts) : Entry → Prop
  | .off id => (s.taskInList id).isSome → s.list.taskListIndex < pTasks
  | .faultDetectionRoutine id fs _ => fs = .fault → (s.taskInList id).isSome
  | _ => True

theorem TableOk.slots_lt_iff (hs : s.TableOk) (e : Entry) :
    (∀ i ∈ s.slots e, i < pTasks) ↔ s.Allowed e := by
  cases e with
  | register r =>
    refine iff_of_true (fun i hi => ?_) trivial
    unfold slots at hi
    split_ifs at hi with hlt
    · rcases mem_append.mp hi with hi | hi
      · exact hs.searched_lt hi
      · split_ifs at hi
        · rwa [mem_singleton.mp hi]
        · cases hi
    · cases hi
  | off id =>
    simp only [slots, Allowed, mem_append]
    constructor
    · intro h hf
      rw [if_pos hf] at h
      obtain ⟨j, hj⟩ := isSome_iff_exists.mp hf
      have hpos := (taskInList_eq_some hj).1
      -- the last pass of the loop copies from the slot behind the last task
      refine h _ (.inr (mem_flatMap.mpr ⟨s.list.taskListIndex - 1, ?_, ?_⟩))
      · exact mem_range.mpr (by omega)
      · rw [Nat.sub_add_cancel (by omega)]; simp
    · rintro h i (hi | hi)
      · exact hs.searched_lt hi
      · split_ifs at hi with hf
        · have hlt := h hf
          obtain ⟨j, hj, hi⟩ := mem_flatMap.mp hi
          have hj := mem_range.mp hj
          simp only [mem_cons, not_mem_nil, or_false] at hi
          omega
        · cases hi
  | changeTech id tech | compensate caller id g =>
    refine iff_of_true (fun i hi => ?_) trivial
    exact (mem_append.mp hi).elim hs.searched_lt hs.found_lt
  | faultDetectionRoutine id fs g =>
    simp only [slots, Allowed, mem_append]
    constructor
    · intro h hfs
      rw [if_pos hfs] at h
      by_contra hf
      have hnone : s.taskInList id = none := by simpa using hf
      have hlt : 65535 < pTasks := h 65535 (.inr (by rw [hnone]; simp))
      exact absurd hlt (by decide)
    · rintro h i (hi | hi)
      · exact hs.searched_lt hi
      · split_ifs at hi with hfs
        · obtain ⟨j, hj⟩ := isSome_iff_exists.mp (h hfs)
          rw [hj, getD_some, mem_singleton] at hi
          have hmem : i ∈ (s.taskInList id).toList := by rw [hj, hi]; simp
          exact hs.found_lt hmem
        · cases hi

theorem sameTables_of_absent (hid : e.lookedUp = some id) (hnone : s.taskInList id = none)
    (ha : s.Allowed e) : ∃ s', s.perform e = some s' ∧ s.SameTables s' := by
  cases e with
  | register r => cases hid
  | off x => cases hid; exact ⟨s, by simp [perform, ftsOff, hnone], rfl⟩
  | changeTech x tech => cases hid; exact ⟨s, by simp [perform, ftsChangeTech, hnone], rfl⟩
  | compensate caller x g =>
    cases hid
    exact ⟨s.note (.version id .correction), by simp [perform, ftsCompensate, nextVersion, hnone],
      rfl⟩
  | faultDetectionRoutine x fs g =>
    cases hid
    cases fs with
    | fault => have := ha rfl; rw [hnone] at this; cases this
    | noFault =>
      exact ⟨s.note (.report id .noFault false), by simp [perform, faultDetectionRoutine, reaction],
        rfl⟩

theorem exists_full : ∃ s : Fts, s.Attainable ∧ s.list.taskListIndex = pTasks ∧
    s.taskInList 11 = none ∧ pTasks ∈ s.slots (.off 1) := by
  obtain ⟨s, hr, hs⟩ := PartialRun.exists_of_any
      (o := PartialRun.run step (boot (fun _ => 0) (Objects.initial 0)) ((List.range 10).map fun i
        => .register (.oneOfTwo (i + 1) i .sre)))
      (P := fun s => s.list.taskListIndex = pTasks ∧ s.taskInList 11 = none ∧
        pTasks ∈ s.slots (.off 1)) (by decide +kernel)
  have hreach : s.Attainable := PartialRun.run_invariant step
    (fun s c s' hs h => hs.step h) (.boot _ _) hr
  exact ⟨s, hreach, hs⟩

end

end Fts

end Rtems
