import Rtems.Fts.Step

/-!
# The task table

* `Slot`, `slot`: all the data of one registered task, spread over the parallel arrays;
* **`patternSafe_iff`**: when the pattern of a request is generated safely;
* `TableOk`, **`Reachable.tableOk`**: ids are registered once, in slots of the table;
* `about`, **`Step.slot_of_ne`**: a call changes only the slot of the id it is about.
-/

namespace Rtems

open Function Option

structure Slot where
  id : Id
  m : ℕ
  k : ℕ
  tech : FtsTech
  pattern : PatternType
  patternStart : ℕ
  patternEnd : ℕ
  currPos : ℕ
  bitpos : ℕ
  maxBitpos : ℕ
  b : ℕ
  d : ℕ
  c : ℕ
  specs : TaskUserSpecs
  periodPointer : Id
  runningId : FtsVersion → Id
  tolCounterConst : TolCounter
  tolCounterTemp : TolCounter
  nrPartitions : ℕ
  partitionIndex : ℕ

namespace Fts

/-- The data of slot `i`. -/
def slot (s : Fts) (i : ℕ) : Slot where
  id := s.list.taskListId i
  m := s.list.m i
  k := s.list.k i
  tech := s.list.tech i
  pattern := s.list.pattern i
  patternStart := s.list.patternStart i
  patternEnd := s.list.patternEnd i
  currPos := s.list.currPos i
  bitpos := s.list.bitpos i
  maxBitpos := s.list.maxBitpos i
  b := s.list.b i
  d := s.list.d i
  c := s.list.c i
  specs := s.taskSpecs i
  periodPointer := s.periodPointers i
  runningId v := s.runningId v i
  tolCounterConst := s.tolCounterConst i
  tolCounterTemp := s.tolCounterTemp i
  nrPartitions := s.nrPartitions i
  partitionIndex := s.partitionIndex i

/-! ## Finding an id -/

section Find

variable {s : Fts} {id : Id} {i : ℕ}

theorem taskInList_eq_none :
    s.taskInList id = none ↔ ∀ i, i < s.list.taskListIndex → s.list.taskListId i ≠ id := by
  simp [taskInList, List.find?_eq_none]

theorem taskInList_eq_some (h : s.taskInList id = some i) :
    i < s.list.taskListIndex ∧ s.list.taskListId i = id := by
  have hmem := List.mem_of_find?_eq_some h
  have hid := List.find?_some h
  exact ⟨List.mem_range.mp hmem, by simpa using hid⟩

theorem taskInList_congr {s' : Fts} (hi : s'.list.taskListId = s.list.taskListId)
    (hn : s'.list.taskListIndex = s.list.taskListIndex) (id : Id) :
    s'.taskInList id = s.taskInList id := by
  rw [taskInList, taskInList, hi, hn]

end Find

/-- The list is in its array and holds no id twice. -/
structure TableOk (s : Fts) : Prop where
  index_le : s.list.taskListIndex ≤ pTasks
  inj : ∀ i j, i < s.list.taskListIndex → j < s.list.taskListIndex →
    s.list.taskListId i = s.list.taskListId j → i = j

namespace TableOk

variable {s s' : Fts}

theorem taskInList (h : s.TableOk) {i : ℕ} (hi : i < s.list.taskListIndex) :
    s.taskInList (s.list.taskListId i) = some i := by
  cases hf : s.taskInList (s.list.taskListId i) with
  | none => exact absurd rfl (taskInList_eq_none.mp hf i hi)
  | some j => obtain ⟨hj, he⟩ := taskInList_eq_some hf; rw [h.inj j i hj hi he]

theorem congr (h : s.TableOk) (hi : s'.list.taskListId = s.list.taskListId)
    (hn : s'.list.taskListIndex = s.list.taskListIndex) : s'.TableOk where
  index_le := hn ▸ h.index_le
  inj i j hi' hj' he := by
    rw [hn] at hi' hj'; rw [hi] at he; exact h.inj i j hi' hj' he

theorem push (h : s.TableOk) {id : Id} (hlt : s.list.taskListIndex < pTasks)
    (hnew : s.taskInList id = none)
    (hi : s'.list.taskListId = update s.list.taskListId s.list.taskListIndex id)
    (hn : s'.list.taskListIndex = s.list.taskListIndex + 1) : s'.TableOk where
  index_le := by omega
  inj i j hi' hj' he := by
    have hnew := taskInList_eq_none.mp hnew
    rw [hi] at he
    by_cases hin : i = s.list.taskListIndex <;> by_cases hjn : j = s.list.taskListIndex
    · omega
    · rw [hin, update_self, update_of_ne hjn] at he; exact absurd he.symm (hnew j (by omega))
    · rw [hjn, update_self, update_of_ne hin] at he; exact absurd he (hnew i (by omega))
    · rw [update_of_ne hin, update_of_ne hjn] at he; exact h.inj i j (by omega) (by omega) he

theorem shift (h : s.TableOk)
    (hi : ∀ i, i < s.list.taskListIndex → s'.list.taskListId i = s.list.taskListId (i + 1))
    (hn : s'.list.taskListIndex = s.list.taskListIndex - 1) : s'.TableOk where
  index_le := by have := h.index_le; omega
  inj i j hi' hj' he := by
    rw [hi i (by omega), hi j (by omega)] at he
    have := h.inj (i + 1) (j + 1) (by omega) (by omega) he
    omega

end TableOk

/-! ## Registration -/

variable {p : PatternSpecs} {r : Request}

section Registration

variable {s s' : Fts} {i : ℕ}

theorem tolcUpdate_eq_some : s.tolcUpdate i = some s' ↔ s.nrPartitions i < patternPartitions ∧
      s' = { s with
        tolCounterTemp := update s.tolCounterTemp i
          { tolCounterO := fun j => if j ≤ s.nrPartitions i then (s.tolCounterConst i).tolCounterO j
              else (s.tolCounterTemp i).tolCounterO j
            tolCounterA := fun j => if j ≤ s.nrPartitions i then (s.tolCounterConst i).tolCounterA j
              else (s.tolCounterTemp i).tolCounterA j }
        partitionIndex := update s.partitionIndex i 0 } := by
  simp only [tolcUpdate, ite_none_right_eq_some, Option.some.injEq]
  exact and_congr Iff.rfl eq_comm

/-- Slot `i` with `nr + 1` partitions, whose counters `c` are full. -/
def withCounters (s : Fts) (i nr : ℕ) (c : TolCounter) : Fts :=
  { s with
    tolCounterConst := update s.tolCounterConst i c
    nrPartitions := update s.nrPartitions i nr
    tolCounterTemp := update s.tolCounterTemp i
      { tolCounterO := fun j => if j ≤ nr then c.tolCounterO j
          else (s.tolCounterTemp i).tolCounterO j
        tolCounterA := fun j => if j ≤ nr then c.tolCounterA j
          else (s.tolCounterTemp i).tolCounterA j }
    partitionIndex := update s.partitionIndex i 0 }

theorem setCounters_eq_some : s.setCounters i p = some s' ↔
      (s.list.tech i).dynamic = false ∧ s' = s ∨
      (s.list.tech i).dynamic = true ∧ ∃ nr c, nr < patternPartitions ∧
        tolCounterLoop (patternBits s.mem p.patternStart p.patternEnd p.maxBitpos) false 0
          (s.tolCounterConst i) = some (nr, c) ∧ s' = s.withCounters i nr c := by
  unfold setCounters
  by_cases ht : (s.list.tech i).dynamic = true
  · rw [if_pos ht, bind_eq_bind, bind_eq_some_iff]
    constructor
    · rintro ⟨s1, hset, hu⟩
      simp only [tolCounterSet, bind_eq_bind, bind_eq_some_iff, Prod.exists,
        Option.some.injEq] at hset
      obtain ⟨nr, c, hl, rfl⟩ := hset
      obtain ⟨hnr, rfl⟩ := tolcUpdate_eq_some.mp hu
      simp only [update_self] at hnr
      exact .inr ⟨ht, nr, c, hnr, hl, by simp [withCounters]⟩
    · rintro (⟨hf, -⟩ | ⟨-, nr, c, hnr, hl, rfl⟩)
      · exact absurd ht (by simp [hf])
      · refine ⟨_, by rw [tolCounterSet, hl]; rfl, tolcUpdate_eq_some.mpr ⟨?_, ?_⟩⟩
        · simpa using hnr
        · simp [withCounters]
  · simp [ht, eq_comm]

theorem setCounters_list (h : s.setCounters i p = some s') : s'.list = s.list := by
  rcases setCounters_eq_some.mp h with ⟨-, rfl⟩ | ⟨-, nr, c, -, -, rfl⟩ <;> rfl

theorem setCounters_frame (h : s.setCounters i p = some s') :
    s'.periodPointers = s.periodPointers ∧ s'.runningId = s.runningId ∧ s'.tasks = s.tasks ∧
      s'.log = s.log := by
  rcases setCounters_eq_some.mp h with ⟨-, rfl⟩ | ⟨-, nr, c, -, -, rfl⟩ <;>
    exact ⟨rfl, rfl, rfl, rfl⟩

theorem registered_ids {mem : Mem} {s1 : Fts}
    (hc : ((s.enter s.list.taskListIndex r).setMem mem).setCounters s.list.taskListIndex
      r.patternS = some s1) (o : Obs) :
    ((s1.attach s.list.taskListIndex r).note o).list.taskListId =
        update s.list.taskListId s.list.taskListIndex r.id ∧
      ((s1.attach s.list.taskListIndex r).note o).list.taskListIndex =
        s.list.taskListIndex + 1 := by
  simp [attach, note, setCounters_list hc, setMem, enter]

theorem ftsRtemsTaskRegister_cases {n : ℕ}
    (h : s.ftsRtemsTaskRegister r = some (n, s')) : n = 1 ∨ n = 0 ∧ s' = s := by
  unfold ftsRtemsTaskRegister at h
  split_ifs at h
  · simp only [bind_eq_bind, bind_eq_some_iff, Option.some.injEq, Prod.mk.injEq] at h
    obtain ⟨_, -, _, -, hn, -⟩ := h
    exact .inl hn.symm
  · cases h; exact .inr ⟨rfl, rfl⟩

theorem createPatternT_enter : (s.enter i r).createPatternT i =
    (createPattern r.patternS.pattern (r.m.toNat % 2 ^ 8) (r.k.toNat % 2 ^ 8)
      r.patternS.patternStart r.patternS.patternEnd s.mem).map (s.enter i r).setMem := by
  simp [createPatternT, enter, map_eq_bind]

/-- Nothing is narrowed, and `create_pattern_t` writes inside the buffer. -/
def PatternSafe (s : Fts) (i : ℕ) (r : Request) : Prop :=
  let l := (s.enter i r).list
  l.m i = r.m.toNat ∧ l.k i = r.k.toNat ∧ l.m i ≤ l.k i ∧
    (l.pattern i = .rPattern → kMinusM (l.m i) (l.k i) = l.k i - l.m i) ∧
    ∃ s', (s.enter i r).createPatternT i = some s' ∧
      ∀ a, s'.mem a ≠ s.mem a → r.patternS.patternStart ≤ a ∧ a ≤ r.patternS.patternEnd

theorem patternSafe_iff {r : Request} (s : Fts) (i : ℕ) (hmk : r.m ≤ r.k)
    (hse : r.patternS.patternStart ≤ r.patternS.patternEnd) :
    s.PatternSafe i r ↔ r.k.toNat < 2 ^ 8 ∧
      (r.patternS.pattern = .rPattern → r.k.toNat - r.m.toNat ≤ 127) ∧
      (r.patternS.pattern = .rPattern → r.k.toNat - r.m.toNat ≤
        8 * (r.patternS.patternEnd - r.patternS.patternStart + 1)) ∧
      (r.patternS.pattern = .ePattern → r.m.toNat < r.k.toNat) := by
  rw [UInt16.le_iff_toNat_le] at hmk
  simp only [PatternSafe, createPatternT_enter]
  simp only [enter, update_self]
  by_cases hk : r.k.toNat < 2 ^ 8
  · rw [Nat.mod_eq_of_lt hk, Nat.mod_eq_of_lt (hmk.trans_lt hk)]
    have hd : kMinusM r.m.toNat r.k.toNat = r.k.toNat - r.m.toNat ↔
        r.k.toNat - r.m.toNat ≤ 127 := by
      rw [kMinusM, Int.bmod_def]
      split_ifs <;> omega
    constructor
    · rintro ⟨-, -, -, hr, s', hs', -⟩
      obtain ⟨mem', h, -⟩ := map_eq_some_iff.mp hs'
      have hr := fun hp => hd.mp (hr hp)
      exact ⟨hk, hr, (createPattern_isSome_iff hmk hse hr).mp ⟨mem', h⟩⟩
    · rintro ⟨-, hr, hdef⟩
      obtain ⟨mem', h⟩ := (createPattern_isSome_iff hmk hse hr).mpr hdef
      refine ⟨rfl, rfl, hmk, fun hp => hd.mpr (hr hp), _, map_eq_some_iff.mpr ⟨mem', h, rfl⟩,
        fun a ha => ?_⟩
      by_contra hout
      exact ha (createPattern_frame h hout)
  · exact iff_of_false (fun h => by omega) fun h => hk h.1

theorem patternSafe_oneOfTwo :
    (boot (fun _ => 0) (Objects.initial 0)).PatternSafe 0 (.oneOfTwo 1 0 .sre) :=
  (patternSafe_iff _ 0 (by decide) (by decide)).mpr (by decide)

/-- The pattern of `(2, 2)` by the rule of the E-pattern divides by zero. -/
theorem not_patternSafe : ¬ (boot (fun _ => 0) (Objects.initial 0)).PatternSafe 0
    { Request.oneOfTwo 1 0 .sre with m := 2, patternS := ⟨.ePattern, 0, 0, 1⟩ } := by
  rintro ⟨-, -, -, -, s', h, -⟩
  cases h

theorem ftsRtemsTaskRegister_eq_some : s.ftsRtemsTaskRegister r = some (1, s') ↔
      (s.list.taskListIndex < pTasks ∧ s.taskInList r.id = none ∧ r.m ≤ r.k) ∧
      ∃ mem s1, createPattern r.patternS.pattern (r.m.toNat % 2 ^ 8) (r.k.toNat % 2 ^ 8)
          r.patternS.patternStart r.patternS.patternEnd s.mem = some mem ∧
        ((s.enter s.list.taskListIndex r).setMem mem).setCounters s.list.taskListIndex
          r.patternS = some s1 ∧
        s' = (s1.attach s.list.taskListIndex r).note (.registered r.id) := by
  unfold ftsRtemsTaskRegister
  by_cases hacc : s.list.taskListIndex < pTasks ∧ s.taskInList r.id = none ∧ r.m ≤ r.k
  · rw [if_pos hacc]
    simp only [createPatternT_enter, bind_eq_bind, bind_eq_some_iff, map_eq_some_iff,
      Option.some.injEq, Prod.mk.injEq, true_and, hacc, and_self]
    constructor
    · rintro ⟨_, ⟨mem, hp, rfl⟩, s1, hc, rfl⟩; exact ⟨mem, s1, hp, hc, rfl⟩
    · rintro ⟨mem, s1, hp, hc, rfl⟩; exact ⟨_, ⟨mem, hp, rfl⟩, s1, hc, rfl⟩
  · simp [hacc]

end Registration

/-! ## Signing off -/

theorem offLoop_eq_some {n i : ℕ} {l l' : TaskIdList} (h : offLoop n i l = some l') :
    (n = 0 ∨ i + n < pTasks) ∧ l' = { l with
        taskListId := fun j => if i ≤ j ∧ j < i + n then l.taskListId (j + 1) else l.taskListId j
        m := fun j => if i ≤ j ∧ j < i + n then l.m (j + 1) else l.m j
        k := fun j => if i ≤ j ∧ j < i + n then l.k (j + 1) else l.k j
        tech := fun j => if i ≤ j ∧ j < i + n then l.tech (j + 1) else l.tech j
        patternStart := fun j =>
          if i ≤ j ∧ j < i + n then l.patternStart (j + 1) else l.patternStart j
        patternEnd := fun j => if i ≤ j ∧ j < i + n then l.patternEnd (j + 1) else l.patternEnd j
        currPos := fun j => if i ≤ j ∧ j < i + n then l.currPos (j + 1) else l.currPos j
        bitpos := fun j => if i ≤ j ∧ j < i + n then l.bitpos (j + 1) else l.bitpos j
        maxBitpos := fun j => if i ≤ j ∧ j < i + n then l.maxBitpos (j + 1) else l.maxBitpos j } := by
  induction n generalizing i l with
  | zero =>
    cases h
    refine ⟨.inl rfl, ?_⟩
    have hf : ∀ j, ¬ (i ≤ j ∧ j < i + 0) := fun j => by omega
    simp only [if_neg (hf _)]
  | succ n ih =>
    rw [offLoop, ite_none_right_eq_some] at h
    obtain ⟨hb, hl⟩ := ih h.2
    have key : ∀ {α : Type} (f : ℕ → α), (fun j => if i + 1 ≤ j ∧ j < i + 1 + n
        then update f i (f (i + 1)) (j + 1) else update f i (f (i + 1)) j) =
        fun j => if i ≤ j ∧ j < i + (n + 1) then f (j + 1) else f j := by
      intro α f
      funext j
      by_cases hj : j = i
      · subst hj; rw [if_neg (by omega), update_self, if_pos (by omega)]
      · by_cases hr : i + 1 ≤ j ∧ j < i + 1 + n
        · rw [if_pos hr, if_pos (by omega), update_of_ne (by omega)]
        · rw [if_neg hr, if_neg (by omega), update_of_ne hj]
    refine ⟨.inr (by omega), ?_⟩
    rw [hl]
    simp only [shiftEntry, key]

/-! ## The table over a run -/

section Invariant

variable {s s' : Fts} {c : Call}

theorem advance_ids (s : Fts) (i : ℕ) : (s.advance i).list.taskListId = s.list.taskListId ∧
    (s.advance i).list.taskListIndex = s.list.taskListIndex := by
  simp only [advance]
  split_ifs <;> exact ⟨rfl, rfl⟩

theorem Step.ids (h : Step s c s') :
    (s'.list.taskListId = s.list.taskListId ∧ s'.list.taskListIndex = s.list.taskListIndex) ∨
    (∃ r, c = .register r ∧ s.list.taskListIndex < pTasks ∧ s.taskInList r.id = none ∧
      s'.list.taskListId = update s.list.taskListId s.list.taskListIndex r.id ∧
      s'.list.taskListIndex = s.list.taskListIndex + 1) ∨
    (∃ id, c = .off id ∧
      (∀ i, i < s.list.taskListIndex → s'.list.taskListId i = s.list.taskListId (i + 1)) ∧
      s'.list.taskListIndex = s.list.taskListIndex - 1) := by
  cases h with
  | registered hi hn hmk hp hc => exact .inr (.inl ⟨_, rfl, hi, hn, registered_ids hc _⟩)
  | signedOff h hl =>
    refine .inr (.inr ⟨_, rfl, fun i hi => ?_, ?_⟩)
    · rw [(offLoop_eq_some hl).2]; exact if_pos ⟨by omega, by omega⟩
    · rw [(offLoop_eq_some hl).2]
  | compensatedStatic h hi ht hb hv => exact .inl (advance_ids (s.noteEntry _ _) _)
  | begun h hi hk | begunNext h hi ht hx ha hn => simp
  | begunReplenished h hi ht ha hn hu => rw [(tolcUpdate_eq_some.mp hu).2]; simp
  | _ => exact .inl ⟨rfl, rfl⟩

theorem Step.tableOk (h : Step s c s') (hs : s.TableOk) : s'.TableOk := by
  rcases h.ids with ⟨hi, hn⟩ | ⟨r, -, hlt, hnew, hi, hn⟩ | ⟨id, -, hi, hn⟩
  · exact hs.congr hi hn
  · exact hs.push hlt hnew hi hn
  · exact hs.shift hi hn

theorem register_taskInList (hs : s.TableOk) (hr : s.ftsRtemsTaskRegister r = some (1, s')) :
    s'.TableOk ∧ s'.taskInList r.id = some s.list.taskListIndex := by
  have hs' : s'.TableOk := (step_cases (by rw [step, hr]; rfl)).tableOk hs
  obtain ⟨-, mem, s1, -, hc, rfl⟩ := ftsRtemsTaskRegister_eq_some.mp hr
  obtain ⟨hid, hidx⟩ := registered_ids hc (.registered r.id)
  have hself := congrFun hid s.list.taskListIndex
  rw [update_self] at hself
  refine ⟨hs', ?_⟩
  rw [← hself]
  exact hs'.taskInList (by rw [hidx]; exact Nat.lt_succ_self _)

theorem Reachable.tableOk (h : s.Reachable) : s.TableOk := by
  obtain ⟨mem, tasks, cs, hr⟩ := h
  refine PartialRun.run_invariant step (fun s c s' hs h => (step_cases h).tableOk hs) ?_ hr
  exact ⟨Nat.zero_le _, fun i j hi => absurd hi (Nat.not_lt_zero i)⟩

end Invariant

/-! ## A call changes only its own slot -/

def about (s : Fts) : Call → Option Id
  | .register r => some r.id
  | .off id => some id
  | .changeTech id _ => some id
  | .compensate _ id _ => some id
  | .report x _ _ =>
    match s.tasks.live x with
    | some (.version t) => some t.period
    | _ => none
  | .periodBegin id => some id
  | _ => none

section Frame

variable {s : Fts} {i j : ℕ}

@[simp] theorem note_slot (s : Fts) (o : Obs) (j : ℕ) : (s.note o).slot j = s.slot j := rfl

@[simp] theorem noteEntry_slot (s : Fts) (caller : Caller) (i j : ℕ) :
    (s.noteEntry caller i).slot j = s.slot j := rfl

@[simp] theorem markReported_slot (s : Fts) (x : Id) (t : VersionTask) (j : ℕ) :
    (s.markReported x t).slot j = s.slot j := rfl

section

variable (h : j ≠ i)

include h

theorem setRunning_slot_of_ne (v : FtsVersion) (x : Id) :
    (s.setRunning v i x).slot j = s.slot j := by
  have hr : ∀ w, update s.runningId v (update (s.runningId v) i x) w j = s.runningId w j := by
    intro w
    by_cases hw : w = v
    · rw [hw, update_self, update_of_ne h]
    · rw [update_of_ne hw]
  simp [slot, setRunning, hr]

theorem launch_slot_of_ne (v : FtsVersion) (g : Grant) : (s.launch i v g).slot j = s.slot j := by
  simp only [launch, note_slot, setRunning_slot_of_ne h]; rfl

theorem advance_slot_of_ne : (s.advance i).slot j = s.slot j := by
  simp only [advance]
  split_ifs <;> simp [slot, h]

theorem setTemp_slot_of_ne (c : TolCounter) : (s.setTemp i c).slot j = s.slot j := by
  simp [slot, setTemp, h]

theorem decO_slot_of_ne (id : Id) : (s.decO i id).slot j = s.slot j := by
  simp only [decO, note_slot, setTemp_slot_of_ne h]

theorem decA_slot_of_ne (id : Id) : (s.decA i id).slot j = s.slot j := by
  simp only [decA, note_slot, setTemp_slot_of_ne h]

theorem deleteVersion_slot_of_ne (v : FtsVersion) : (s.deleteVersion i v).slot j = s.slot j := by
  unfold deleteVersion
  split_ifs
  · rw [note_slot, setRunning_slot_of_ne h]; rfl
  · rfl

theorem deleteVersions_slot_of_ne : (s.deleteVersions i).slot j = s.slot j := by
  unfold deleteVersions
  rw [deleteVersion_slot_of_ne h, deleteVersion_slot_of_ne h, deleteVersion_slot_of_ne h]

theorem setCounters_slot_of_ne {s' : Fts}
    (hc : s.setCounters i p = some s') : s'.slot j = s.slot j := by
  rcases setCounters_eq_some.mp hc with ⟨-, rfl⟩ | ⟨-, nr, c, -, -, rfl⟩
  · rfl
  · simp [slot, withCounters, h]

end

section

variable {s' : Fts} {c : Call} (h : Step s c s')

include h

theorem Step.slot_of_ne (hj : j < s.list.taskListIndex)
    (hoff : ∀ id, c ≠ .off id) (hne : s.about c ≠ some (s.list.taskListId j)) :
    s'.slot j = s.slot j := by
  have hslot : ∀ {id i}, s.taskInList id = some i → some id ≠ some (s.list.taskListId j) → j ≠ i :=
    fun hf hid hij => hid (by rw [hij, (taskInList_eq_some hf).2])
  cases h with
  | registered hi hn hmk hp hc =>
    have hji : j ≠ s.list.taskListIndex := by omega
    have hs1 := setCounters_slot_of_ne hji hc
    simp only [slot, setMem, enter, update_of_ne hji, Slot.mk.injEq] at hs1
    simp [slot, attach, note, hji, hs1]
  | signedOff h hl => exact absurd rfl (hoff _)
  | techChanged h hi => simp [slot, update_of_ne (hslot h hne)]
  | compensatedAbsent h | compensatedNone h hi ht | reportedQuiet hx hd hr hq => rfl
  | compensatedStatic h hi ht hb hv =>
    have hji := hslot h hne
    rw [note_slot, launch_slot_of_ne hji, advance_slot_of_ne hji, noteEntry_slot]
  | compensatedTolerant h hi ht hx ho =>
    rw [note_slot, launch_slot_of_ne (hslot h hne), noteEntry_slot]
  | compensatedSafe h hi ht hx ho hv =>
    have hji := hslot h hne
    rw [note_slot, decA_slot_of_ne hji, launch_slot_of_ne hji, noteEntry_slot]
  | reportedTolerated hx hd hr h hi ht hp ho =>
    simp only [about, hx] at hne
    rw [note_slot, decO_slot_of_ne (hslot h hne), markReported_slot]
  | reportedRecovered hx hd hr h hi ht =>
    simp only [about, hx] at hne
    rw [note_slot, launch_slot_of_ne (hslot h hne), markReported_slot]
  | begun h hi hk => exact deleteVersions_slot_of_ne (hslot h hne)
  | begunReplenished h hi ht ha hn hu =>
    have hji := hslot h hne
    have hd := deleteVersions_slot_of_ne (s := s) hji
    rw [(tolcUpdate_eq_some.mp hu).2, ← hd]
    simp [slot, hji]
  | begunNext h hi ht hx ha hn =>
    have hji := hslot h hne
    have hd := deleteVersions_slot_of_ne (s := s) hji
    rw [← hd]
    simp [slot, hji]
  | _ => rfl

theorem Step.mem_apply {a : ℕ}
    (hreg : ∀ r, c = .register r → ¬ (r.patternS.patternStart ≤ a ∧ a ≤ r.patternS.patternEnd)) :
    s'.mem a = s.mem a := by
  cases h with
  | @registered r mem s1 hi hn hmk hp hc =>
    have hmem : s1.mem = mem := by
      rcases setCounters_eq_some.mp hc with ⟨-, rfl⟩ | ⟨-, nr, c, -, -, rfl⟩ <;> rfl
    show s1.mem a = s.mem a
    rw [hmem]
    exact createPattern_frame hp (hreg r rfl)
  | begun h hi hk | begunNext h hi ht hx ha hn => simp
  | begunReplenished h hi ht ha hn hu => rw [(tolcUpdate_eq_some.mp hu).2]; simp
  | _ => rfl

theorem Step.taskInList_of_some (hs : s.TableOk)
    (hoff : ∀ id, c ≠ .off id) {id : Id} (hf : s.taskInList id = some i) :
    s'.taskInList id = some i := by
  obtain ⟨hi, hid⟩ := taskInList_eq_some hf
  have hs' := h.tableOk hs
  rcases h.ids with ⟨hids, hn⟩ | ⟨r, -, -, -, hids, hn⟩ | ⟨x, hx, -, -⟩
  · rw [taskInList_congr hids hn, hf]
  · have hid' : s'.list.taskListId i = id := by rw [hids, update_of_ne hi.ne, hid]
    rw [← hid']
    exact hs'.taskInList (by omega)
  · exact absurd hx (hoff x)

theorem Step.taskInList_of_ne (hs : s.TableOk)
    (hoff : ∀ id, c ≠ .off id) {id : Id} (hne : s.about c ≠ some id)
    (hf : s'.taskInList id = some i) : s.taskInList id = some i := by
  obtain ⟨hi, hid⟩ := taskInList_eq_some hf
  rcases h.ids with ⟨hids, hn⟩ | ⟨r, rfl, -, -, hids, hn⟩ | ⟨x, hx, -, -⟩
  · rw [← taskInList_congr hids hn, hf]
  · by_cases he : i = s.list.taskListIndex
    · rw [hids, he, update_self] at hid; exact absurd (congrArg some hid) hne
    · rw [hids, update_of_ne he] at hid; rw [← hid]; exact hs.taskInList (by omega)
  · exact absurd hx (hoff x)

end

theorem advance_pattern (s : Fts) (i : ℕ) : (s.advance i).list.m = s.list.m ∧
    (s.advance i).list.k = s.list.k ∧ (s.advance i).list.patternStart = s.list.patternStart ∧
    (s.advance i).list.patternEnd = s.list.patternEnd ∧
    (s.advance i).list.maxBitpos = s.list.maxBitpos := by
  unfold advance
  by_cases hb : s.list.bitpos i <
      if s.list.patternEnd i = s.list.currPos i then s.list.maxBitpos i else 7 <;> simp [hb]

theorem advance_tech (s : Fts) (i : ℕ) : (s.advance i).list.tech = s.list.tech := by
  unfold advance
  by_cases hb : s.list.bitpos i <
      if s.list.patternEnd i = s.list.currPos i then s.list.maxBitpos i else 7 <;> simp [hb]

section

variable {s' : Fts} {c : Call} (h : Step s c s') (hoff : ∀ id, c ≠ .off id)
  (hreg : ∀ r, c ≠ .register r)

include h hoff hreg

theorem Step.tech_eq (htech : ∀ id tech, c ≠ .changeTech id tech) : s'.list.tech = s.list.tech := by
  cases h with
  | registered hi hn hmk hp hc => exact absurd rfl (hreg _)
  | signedOff h hl => exact absurd rfl (hoff _)
  | techChanged h hi => exact absurd rfl (htech _ _)
  | compensatedStatic h hi ht hb hv => exact advance_tech (s.noteEntry _ _) _
  | begun h hi hk | begunNext h hi ht hx ha hn => simp
  | begunReplenished h hi ht ha hn hu => rw [(tolcUpdate_eq_some.mp hu).2]; simp
  | _ => rfl

theorem Step.pattern_eq : s'.list.m = s.list.m ∧ s'.list.k = s.list.k ∧
      s'.list.patternStart = s.list.patternStart ∧ s'.list.patternEnd = s.list.patternEnd ∧
      s'.list.maxBitpos = s.list.maxBitpos := by
  cases h with
  | registered hi hn hmk hp hc => exact absurd rfl (hreg _)
  | signedOff h hl => exact absurd rfl (hoff _)
  | compensatedStatic h hi ht hb hv => exact advance_pattern (s.noteEntry _ _) _
  | begun h hi hk | begunNext h hi ht hx ha hn => simp
  | begunReplenished h hi ht ha hn hu => rw [(tolcUpdate_eq_some.mp hu).2]; simp
  | _ => exact ⟨rfl, rfl, rfl, rfl, rfl⟩

end

end Frame

end Fts

end Rtems
