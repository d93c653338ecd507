import Rtems.Lib.Run
import Rtems.Score.Objects

/-!
# The servers of the CBS scheduler

`schedulercbscreateserver.c`, `schedulercbsdestroyserver.c`, `schedulercbsattachthread.c`,
`schedulercbsdetachthread.c`, `schedulercbsgetserverid.c`, `schedulercbsnodeinit.c`.

* `CbsServer`, `CbsThread`: a server names its thread by id, the scheduler node of a thread its
  server by address;
* `Paired`: the two sides agree;
* **`paired_of_prudent`**: they agree after all calls that are `Prudent`; **`exists_stale_server`**
  without this.
-/

namespace Rtems

open Function PartialRun

def schedulerEdfPrioMsb : ℕ := 2 ^ 63

def objectsIdOfSelf : Id := 0

/-- `-1` as an `rtems_id`: the server has no thread. -/
def noTaskId : Id := 2 ^ 32 - 1

/-- `Thread_CPU_budget_algorithms`. -/
inductive BudgetAlgorithm
  | none
  | resetTimeslice
  | exhaustTimeslice
  | callout
  deriving DecidableEq

/-- The functions that are set as `budget_callout`. -/
inductive BudgetCallout
  | null
  | cbs
  | sporadic
  deriving DecidableEq

/-- A budget algorithm, in the thread and in its `Start` information. -/
structure BudgetControl where
  budgetAlgorithm : BudgetAlgorithm
  budgetCallout : BudgetCallout
  isPreemptible : Bool
  deriving DecidableEq

/-- `Scheduler_CBS_Parameters`; `time_t` is signed. -/
structure CbsParameters where
  deadline : ℤ
  budget : ℤ
  deriving DecidableEq

/-- `Scheduler_CBS_Server`; a callback is named by a number. -/
structure CbsServer where
  taskId : Id
  parameters : CbsParameters
  cbsBudgetOverrun : Option ℕ
  initialized : Bool
  deriving DecidableEq

/-- A thread with its CBS node: `cbs_server` is an index of the servers. -/
structure CbsThread where
  cbsServer : Option ℕ
  control : BudgetControl
  start : BudgetControl
  deriving DecidableEq

/-- The results of the calls, `SCHEDULER_CBS_OK` and so on. -/
inductive CbsStatus
  | ok
  | invalidParameter
  | noServer
  | full
  deriving DecidableEq

/-- `_Scheduler_CBS_Server_list`, `_Scheduler_CBS_Maximum_servers`, and the open threads. -/
structure CbsServers where
  maximumServers : ℕ
  server : ℕ → CbsServer
  thread : Id → Option CbsThread

namespace CbsServers

variable (s : CbsServers)

def setServer (i : ℕ) (v : CbsServer) : CbsServers :=
  { s with server := update s.server i v }

def setThread (t : Id) (v : CbsThread) : CbsServers :=
  { s with thread := update s.thread t (some v) }

/-- `_Thread_Get`: the thread with its id. -/
def threadGet (executing id : Id) : Option (Id × CbsThread) :=
  if id = objectsIdOfSelf then (s.thread executing).map fun v => (executing, v)
  else (s.thread id).map fun v => (id, v)

/-- `_Scheduler_CBS_Create_server`, with the id of the server. -/
def createServer (params : CbsParameters) (callback : Option ℕ) : CbsStatus × Option ℕ × CbsServers :=
  if params.budget ≤ 0 ∨ params.deadline ≤ 0 ∨ (schedulerEdfPrioMsb : ℤ) ≤ params.budget ∨
      (schedulerEdfPrioMsb : ℤ) ≤ params.deadline then (.invalidParameter, none, s)
  else match (List.range s.maximumServers).find? fun i => !(s.server i).initialized with
    | none => (.full, none, s)
    | some i => (.ok, some i, s.setServer i
        ⟨noTaskId, params, callback, true⟩)

def attachThread (executing : Id) (serverId : ℕ) (taskId : Id) : CbsStatus × CbsServers :=
  if s.maximumServers ≤ serverId then (.invalidParameter, s)
  else if (s.server serverId).initialized = false then (.noServer, s)
  else if (s.server serverId).taskId ≠ noTaskId then (.full, s)
  else match s.threadGet executing taskId with
    | none => (.invalidParameter, s)
    | some (t, v) =>
      if v.cbsServer ≠ none then (.full, s)
      else (.ok, (s.setThread t
          { v with
            cbsServer := some serverId
            control := ⟨.callout, .cbs, true⟩ }).setServer serverId
          { s.server serverId with taskId := taskId })

def detachThread (executing : Id) (serverId : ℕ) (taskId : Id) : CbsStatus × CbsServers :=
  if s.maximumServers ≤ serverId then (.invalidParameter, s)
  else if (s.server serverId).initialized = false then (.noServer, s)
  else if (s.server serverId).taskId ≠ taskId then (.invalidParameter, s)
  else match s.threadGet executing taskId with
    | none => (.invalidParameter, s)
    | some (t, v) =>
      (.ok, (s.setThread t { v with cbsServer := none, control := v.start }).setServer serverId
        { s.server serverId with taskId := noTaskId })

def destroyServer (executing : Id) (serverId : ℕ) : CbsStatus × CbsServers :=
  if s.maximumServers ≤ serverId then (.invalidParameter, s)
  else if (s.server serverId).initialized = false then (.noServer, s)
  else
    let (ret, s₁) := if (s.server serverId).taskId ≠ noTaskId then
        s.detachThread executing serverId (s.server serverId).taskId
      else (.ok, s)
    (ret, s₁.setServer serverId { s₁.server serverId with initialized := false })

/-- `_Scheduler_CBS_Get_server_id`; none is `SCHEDULER_CBS_ERROR_NOSERVER`. -/
def getServerId (taskId : Id) : Option ℕ :=
  (List.range s.maximumServers).find? fun i =>
    (s.server i).initialized && ((s.server i).taskId = taskId)

/-- `_Scheduler_CBS_Node_initialize` for a new thread. -/
def nodeInitialize (start : BudgetControl) : CbsThread :=
  ⟨none, start, start⟩

end CbsServers

/-- A call by an executing thread, or the creation or deletion of a thread. -/
inductive CbsAction
  | createServer (params : CbsParameters) (callback : Option ℕ)
  | destroyServer (executing : Id) (serverId : ℕ)
  | attachThread (executing : Id) (serverId : ℕ) (taskId : Id)
  | detachThread (executing : Id) (serverId : ℕ) (taskId : Id)
  | createThread (id : Id) (start : BudgetControl)
  | deleteThread (id : Id)
  deriving DecidableEq

namespace CbsServers

variable (s : CbsServers)

/-- One action of an open thread; a new thread gets an id that is not open. -/
def step : CbsAction → Option CbsServers
  | .createServer params callback => some (s.createServer params callback).2.2
  | .destroyServer executing serverId =>
    if (s.thread executing).isSome then some (s.destroyServer executing serverId).2 else none
  | .attachThread executing serverId taskId =>
    if (s.thread executing).isSome then some (s.attachThread executing serverId taskId).2 else none
  | .detachThread executing serverId taskId =>
    if (s.thread executing).isSome then some (s.detachThread executing serverId taskId).2 else none
  | .createThread id start =>
    if s.thread id = none ∧ id ≠ objectsIdOfSelf ∧ id < noTaskId then
      some (s.setThread id (nodeInitialize start))
    else none
  | .deleteThread id =>
    if (s.thread id).isSome then some { s with thread := update s.thread id none } else none

/-- No server is initialized and no thread is open. -/
structure Boot (s : CbsServers) : Prop where
  server : ∀ i, (s.server i).initialized = false
  thread : ∀ t, s.thread t = none

/-- No attached thread is deleted, and threads are named by their ids. -/
def Prudent : CbsAction → Prop
  | .attachThread _ _ taskId => taskId ≠ objectsIdOfSelf
  | .detachThread _ _ taskId => taskId ≠ objectsIdOfSelf
  | .deleteThread id => ∀ v, s.thread id = some v → v.cbsServer = none
  | _ => True

instance (a : CbsAction) : Decidable (s.Prudent a) := by
  cases a <;> unfold Prudent <;> infer_instance

/-- The thread is open and its node points to the server. -/
def Serves (i : ℕ) (t : Id) : Prop := ∃ v, s.thread t = some v ∧ v.cbsServer = some i

structure Paired (s : CbsServers) : Prop where
  task : ∀ i t, i < s.maximumServers → (s.server i).initialized = true → t ≠ noTaskId →
    ((s.server i).taskId = t ↔ s.Serves i t)
  server : ∀ i t, s.Serves i t → i < s.maximumServers ∧ (s.server i).initialized = true

def Named (s : CbsServers) : Prop :=
  ∀ t v, s.thread t = some v → t ≠ objectsIdOfSelf ∧ t ≠ noTaskId

/-! ## The two sides -/

variable {s s' : CbsServers} {i : ℕ} {t : Id}

theorem Serves.unique {j : ℕ} (hi : s.Serves i t) (hj : s.Serves j t) : i = j := by
  obtain ⟨v, hv, hc⟩ := hi
  obtain ⟨v', hv', hc'⟩ := hj
  obtain rfl : v = v' := Option.some.inj (hv.symm.trans hv')
  exact Option.some.inj (hc.symm.trans hc')

variable {v : Option CbsThread}

theorem serves_update (hs : s'.thread = update s.thread t v) (j : ℕ) (t' : Id) : s'.Serves j t' ↔
      if t' = t then ∃ w, v = some w ∧ w.cbsServer = some j else s.Serves j t' := by
  rw [Serves, hs]
  split_ifs with h
  · rw [h, update_self]
  · rw [update_of_ne h]; rfl

theorem Paired.not_serves (h : s.Paired) (hn : s.Named) (ht : (s.server i).taskId = noTaskId) (t : Id) :
    ¬ s.Serves i t := by
  intro hs
  obtain ⟨hi, hini⟩ := h.server i t hs
  obtain ⟨v, hv, -⟩ := id hs
  have hne := (hn t v hv).2
  exact hne (((h.task i t hi hini hne).mpr hs).symm.trans ht)

theorem Paired.setServer (h : s.Paired) (hno : ∀ t, ¬ s.Serves i t) {w : CbsServer}
    (hw : w.initialized = true → w.taskId = noTaskId) : (s.setServer i w).Paired := by
  constructor
  · intro j t hj hini ht
    change (update s.server i w j).taskId = t ↔ s.Serves j t
    change (update s.server i w j).initialized = true at hini
    by_cases hji : j = i
    · rw [hji, update_self] at hini ⊢
      exact iff_of_false (fun he => ht (he.symm.trans (hw hini))) (hno t)
    · rw [update_of_ne hji] at hini ⊢; exact h.task j t hj hini ht
  · intro j t hs
    have hji : j ≠ i := by rintro rfl; exact hno t hs
    change _ ∧ (update s.server i w j).initialized = true
    rw [update_of_ne hji]
    exact h.server j t hs

theorem Paired.update_thread (h : s.Paired) (hno : ∀ i, ¬ s.Serves i t)
    (hv : ∀ w, v = some w → w.cbsServer = none) :
    Paired { s with thread := update s.thread t v } := by
  have hiff : ∀ i t', Serves { s with thread := update s.thread t v } i t' ↔ s.Serves i t' := by
    intro i t'
    rw [serves_update rfl]
    split_ifs with ht
    · refine iff_of_false ?_ (ht ▸ hno i)
      rintro ⟨w, hw, hc⟩
      rw [hv w hw] at hc
      cases hc
    · exact Iff.rfl
  exact ⟨fun i t' hi hini ht => (h.task i t' hi hini ht).trans (hiff i t').symm,
    fun i t' hs => h.server i t' ((hiff i t').mp hs)⟩

theorem Paired.update (h : s.Paired) (hi : i < s.maximumServers)
    (hserver : ∀ j, j ≠ i → ¬ s.Serves j t) (hthread : ∀ t', t' ≠ t → ¬ s.Serves i t')
    {v : CbsThread} {w : CbsServer} (hw : w.initialized = true)
    (hvw : v.cbsServer = some i ∧ w.taskId = t ∨ v.cbsServer = none ∧ w.taskId = noTaskId) :
    ((s.setThread t v).setServer i w).Paired := by
  have hiff : ∀ j t', ((s.setThread t v).setServer i w).Serves j t' ↔
      if t' = t then v.cbsServer = some j else s.Serves j t' := by
    intro j t'
    rw [serves_update rfl]
    simp only [Option.some.injEq, exists_eq_left']
  constructor
  · intro j t' hj hini ht'
    change (Function.update s.server i w j).taskId = t' ↔ _
    change (Function.update s.server i w j).initialized = true at hini
    rw [hiff]
    by_cases hji : j = i
    · rw [hji, update_self]
      split_ifs with he
      · rcases hvw with ⟨hv, hw⟩ | ⟨hv, hw⟩
        · exact iff_of_true (hw.trans he.symm) hv
        · refine iff_of_false (fun hc => ht' (hc.symm.trans hw)) ?_
          rw [hv]
          exact (Option.some_ne_none i).symm
      · refine iff_of_false (fun hc => ?_) (hthread t' he)
        rcases hvw with ⟨-, hw⟩ | ⟨-, hw⟩
        · exact he (hc.symm.trans hw)
        · exact ht' (hc.symm.trans hw)
    · rw [update_of_ne hji] at hini ⊢
      rw [h.task j t' hj hini ht']
      split_ifs with he
      · rw [he]
        refine iff_of_false (hserver j hji) (fun hc => ?_)
        rcases hvw with ⟨hv, -⟩ | ⟨hv, -⟩
        · exact hji (Option.some.inj (hc.symm.trans hv))
        · exact absurd (hc.symm.trans hv) (Option.some_ne_none j)
      · exact Iff.rfl
  · intro j t' hs
    change j < s.maximumServers ∧ (Function.update s.server i w j).initialized = true
    by_cases hji : j = i
    · rw [hji, update_self]; exact ⟨hi, hw⟩
    · rw [update_of_ne hji]
      rw [hiff] at hs
      split_ifs at hs with he
      · rcases hvw with ⟨hv, -⟩ | ⟨hv, -⟩
        · exact absurd (Option.some.inj (hs.symm.trans hv)) hji
        · exact absurd (hs.symm.trans hv) (Option.some_ne_none j)
      · exact h.server j t' hs

/-! ## The calls -/

theorem Named.update (hn : s.Named) (ht : (∃ w, v = some w) → t ≠ objectsIdOfSelf ∧ t ≠ noTaskId)
    (hs : s'.thread = update s.thread t v) : s'.Named := by
  intro t' w hw
  rw [hs] at hw
  by_cases he : t' = t
  · rw [he, update_self] at hw; rw [he]; exact ht ⟨w, hw⟩
  · rw [update_of_ne he] at hw; exact hn t' w hw

theorem threadGet_of_ne {executing : Id} (h : t ≠ objectsIdOfSelf) :
    s.threadGet executing t = (s.thread t).map fun v => (t, v) := by
  rw [threadGet, if_neg h]

theorem createServer_paired (h : s.Paired) (hn : s.Named) (params : CbsParameters)
    (callback : Option ℕ) :
    (s.createServer params callback).2.2.Paired ∧ (s.createServer params callback).2.2.Named := by
  rw [createServer]
  split_ifs with hp
  · exact ⟨h, hn⟩
  · split
    · exact ⟨h, hn⟩
    · rename_i i hi
      have hini : (s.server i).initialized = false := by simpa using List.find?_some hi
      have hno : ∀ t, ¬ s.Serves i t := by
        intro t hs; rw [(h.server i t hs).2] at hini; cases hini
      exact ⟨h.setServer hno fun _ => rfl, hn⟩

theorem attachThread_cases (executing : Id) (ht : t ≠ objectsIdOfSelf) :
    (s.attachThread executing i t).2 = s ∨
      ∃ v, s.thread t = some v ∧ v.cbsServer = none ∧ i < s.maximumServers ∧
        (s.server i).initialized = true ∧ (s.server i).taskId = noTaskId ∧
        (s.attachThread executing i t).2 = (s.setThread t
          { v with cbsServer := some i, control := ⟨.callout, .cbs, true⟩ }).setServer i
          { s.server i with taskId := t } := by
  rw [attachThread, threadGet_of_ne ht]
  split_ifs with h1 h2 h3
  · exact .inl rfl
  · exact .inl rfl
  · exact .inl rfl
  · cases hv : s.thread t with
    | none => exact .inl rfl
    | some v =>
      simp only [Option.map_some]
      split_ifs with h4
      · exact .inl rfl
      · exact .inr ⟨v, rfl, not_not.mp h4, not_le.mp h1, by simpa using h2, not_not.mp h3, rfl⟩

theorem detachThread_cases (executing : Id) (ht : t ≠ objectsIdOfSelf) :
    (s.detachThread executing i t).2 = s ∨
      ∃ v, s.thread t = some v ∧ i < s.maximumServers ∧ (s.server i).initialized = true ∧
        (s.server i).taskId = t ∧
        (s.detachThread executing i t).2 =
          (s.setThread t { v with cbsServer := none, control := v.start }).setServer i
            { s.server i with taskId := noTaskId } := by
  rw [detachThread, threadGet_of_ne ht]
  split_ifs with h1 h2 h3
  · exact .inl rfl
  · exact .inl rfl
  · exact .inl rfl
  · cases hv : s.thread t with
    | none => exact .inl rfl
    | some v => exact .inr ⟨v, rfl, not_le.mp h1, by simpa using h2, not_not.mp h3, rfl⟩

section

variable (h : s.Paired) (hn : s.Named)

include h hn

theorem attachThread_paired (executing : Id) (ht : t ≠ objectsIdOfSelf) :
    (s.attachThread executing i t).2.Paired ∧ (s.attachThread executing i t).2.Named := by
  rcases attachThread_cases executing ht with he | ⟨v, hv, hc, hi, hini, hno, he⟩
  · rw [he]; exact ⟨h, hn⟩
  · rw [he]
    have hfree : ∀ j, j ≠ i → ¬ s.Serves j t := by
      rintro j - ⟨v', hv', hc'⟩
      obtain rfl : v = v' := Option.some.inj (hv.symm.trans hv')
      rw [hc] at hc'
      cases hc'
    refine ⟨h.update hi hfree (fun t' _ => h.not_serves hn hno t') hini (.inl ⟨rfl, rfl⟩),
      hn.update (fun _ => hn t v hv) rfl⟩

theorem detachThread_paired (executing : Id) (ht : t ≠ objectsIdOfSelf) :
    (s.detachThread executing i t).2.Paired ∧ (s.detachThread executing i t).2.Named := by
  rcases detachThread_cases executing ht with he | ⟨v, hv, hi, hini, htask, he⟩
  · rw [he]; exact ⟨h, hn⟩
  · rw [he]
    have hs : s.Serves i t := (h.task i t hi hini (hn t v hv).2).mp htask
    refine ⟨h.update hi (fun j hj hj' => hj (hj'.unique hs)) ?_ hini
      (.inr ⟨rfl, rfl⟩), hn.update (fun _ => hn t v hv) rfl⟩
    intro t' ht' hs'
    obtain ⟨v', hv', -⟩ := id hs'
    exact ht' (((h.task i t' hi hini (hn t' v' hv').2).mpr hs').symm.trans htask)

theorem destroyServer_paired (executing : Id) (i : ℕ) :
    (s.destroyServer executing i).2.Paired ∧ (s.destroyServer executing i).2.Named := by
  rw [destroyServer]
  split_ifs with h1 h2 h3
  · exact ⟨h, hn⟩
  · exact ⟨h, hn⟩
  · have hi := not_le.mp h1
    have hini : (s.server i).initialized = true := by simpa using h2
    obtain ⟨v, hv, hc⟩ := (h.task i _ hi hini h3).mp rfl
    have hself := (hn _ v hv).1
    obtain ⟨hp, hn'⟩ := detachThread_paired h hn executing hself
    have htask : ((s.detachThread executing i (s.server i).taskId).2.server i).taskId = noTaskId := by
      rw [detachThread, if_neg h1, if_neg h2, if_neg (not_not.mpr rfl), threadGet_of_ne hself, hv]
      simp only [Option.map_some, CbsServers.setServer, update_self]
    exact ⟨hp.setServer (hp.not_serves hn' htask) (fun hc => by cases hc), hn'⟩
  · exact ⟨h.setServer (h.not_serves hn (not_not.mp h3)) (fun hc => by cases hc), hn⟩

theorem createThread_paired {start : BudgetControl}
    (hs : s.step (.createThread t start) = some s') : s'.Paired ∧ s'.Named := by
  simp only [step] at hs
  split_ifs at hs with hc
  cases hs
  refine ⟨h.update_thread ?_ ?_, hn.update (fun _ => ⟨hc.2.1, hc.2.2.ne⟩) rfl⟩
  · rintro i ⟨v, hv, -⟩; rw [hc.1] at hv; cases hv
  · rintro w hw; cases hw; rfl

theorem deleteThread_paired (hp : s.Prudent (.deleteThread t))
    (hs : s.step (.deleteThread t) = some s') : s'.Paired ∧ s'.Named := by
  simp only [step] at hs
  split_ifs at hs with hc
  cases hs
  refine ⟨h.update_thread ?_ (fun w hw => by cases hw), hn.update ?_ rfl⟩
  · rintro i ⟨v, hv, hv'⟩; rw [hp v hv] at hv'; cases hv'
  · rintro ⟨w, hw⟩; cases hw

end

/-! ## Runs -/

theorem step_paired (h : s.Paired ∧ s.Named) {a : CbsAction} (hp : s.Prudent a)
    (hs : s.step a = some s') : s'.Paired ∧ s'.Named := by
  cases a with
  | createServer params callback => cases hs; exact createServer_paired h.1 h.2 params callback
  | destroyServer executing i =>
    simp only [step] at hs
    split_ifs at hs
    cases hs
    exact destroyServer_paired h.1 h.2 executing i
  | attachThread executing i t =>
    simp only [step] at hs
    split_ifs at hs
    cases hs
    exact attachThread_paired h.1 h.2 executing hp
  | detachThread executing i t =>
    simp only [step] at hs
    split_ifs at hs
    cases hs
    exact detachThread_paired h.1 h.2 executing hp
  | createThread t start => exact createThread_paired h.1 h.2 hs
  | deleteThread t => exact deleteThread_paired h.1 h.2 hp hs

theorem Boot.paired (h : s.Boot) : s.Paired ∧ s.Named := by
  refine ⟨⟨fun i t _ hini => ?_, ?_⟩, fun t v hv => ?_⟩
  · rw [h.server i] at hini; cases hini
  · rintro i t ⟨v, hv, -⟩; rw [h.thread t] at hv; cases hv
  · rw [h.thread t] at hv; cases hv

theorem Paired.getServerId (h : s.Paired) (ht : t ≠ noTaskId) (hg : s.getServerId t = some i) :
    s.Serves i t := by
  have hi := List.find?_some hg
  rw [Bool.and_eq_true] at hi
  have hlt := List.mem_range.mp (List.mem_of_find?_eq_some hg)
  exact (h.task i t hlt hi.1 ht).mp (of_decide_eq_true hi.2)

theorem Paired.attachThread_ok (h : s.Paired) (hn : s.Named) (hi : i < s.maximumServers)
    (hini : (s.server i).initialized = true) (hno : ∀ t, ¬ s.Serves i t) {executing : Id}
    {v : CbsThread} (hv : s.thread t = some v) (hc : v.cbsServer = none) :
    (s.attachThread executing i t).1 = .ok := by
  have htask : (s.server i).taskId = noTaskId := by
    by_contra hne
    exact hno _ ((h.task i _ hi hini hne).mp rfl)
  rw [attachThread, if_neg (not_le.mpr hi), if_neg (by rw [hini]; decide), if_neg (not_not.mpr htask),
    threadGet_of_ne (hn t v hv).1, hv]
  simp only [Option.map_some]
  rw [if_neg (not_not.mpr hc)]

/-- **Servers and threads are paired one to one**, if no attached thread is deleted and calls use
the ids of threads. -/
theorem paired_of_prudent {s₀ s : CbsServers} {as : List CbsAction} (hb : s₀.Boot)
    (hp : Along step Prudent s₀ as) (hr : run step s₀ as = some s) :
    s.Paired ∧
      (∀ i j, i < s.maximumServers → j < s.maximumServers → (s.server i).initialized = true →
        (s.server j).initialized = true → (s.server i).taskId ≠ noTaskId →
        (s.server i).taskId = (s.server j).taskId → i = j) ∧
      (∀ i executing t v, i < s.maximumServers → (s.server i).initialized = true →
        (∀ t', ¬ s.Serves i t') → s.thread t = some v → v.cbsServer = none →
        (s.attachThread executing i t).1 = .ok) ∧
      (∀ i t, t ≠ noTaskId → s.getServerId t = some i → s.Serves i t) := by
  obtain ⟨h, hn⟩ := run_invariant_along step
    (fun _ _ _ h hp hs => step_paired h hp hs) hb.paired hp hr
  refine ⟨h, ?_, fun i _ _ _ hi hini hno hv hc => h.attachThread_ok hn hi hini hno hv hc,
    fun _ _ => h.getServerId⟩
  intro i j hi hj hini hjni hne he
  have hsi := (h.task i _ hi hini hne).mp rfl
  have hsj := (h.task j _ hj hjni (he ▸ hne)).mp rfl
  rw [← he] at hsj
  exact hsi.unique hsj

def twoServers : CbsServers := ⟨2, fun _ => ⟨0, ⟨0, 0⟩, none, false⟩, fun _ => none⟩

theorem twoServers_boot : twoServers.Boot := ⟨fun _ => rfl, fun _ => rfl⟩

theorem paired_of_two : ∃ s : CbsServers, s.Paired ∧ s.getServerId 7 = some 1 ∧ s.Serves 1 7 := by
  let start : BudgetControl := ⟨.none, .null, true⟩
  let as : List CbsAction := [.createThread 7 start, .createServer ⟨10, 3⟩ none,
    .attachThread 7 0 7, .createServer ⟨20, 5⟩ none, .detachThread 7 0 7, .attachThread 7 1 7]
  have hp : Along step Prudent twoServers as := along_of_decide _ (by decide +kernel)
  obtain ⟨s, hr, hg⟩ := exists_of_any (o := run step twoServers as)
    (P := fun s => s.getServerId 7 = some 1) (by decide +kernel)
  obtain ⟨hpaired, -, -, hid⟩ := paired_of_prudent twoServers_boot hp hr
  exact ⟨s, hpaired, hg, hid 1 7 (by decide) hg⟩

/-- **Stale entries.** A server answers for the next thread with a deleted id. -/
theorem exists_stale_server :
    (∃ s as, run step twoServers as = some s ∧ (s.server 0).initialized = true ∧
      (s.server 0).taskId = 7 ∧ (s.thread 7).isSome ∧ ¬ s.Serves 0 7 ∧ s.getServerId 7 = some 0 ∧
      (s.attachThread 5 0 5).1 = .full) ∧
    (∃ s as, run step twoServers as = some s ∧ (s.server 0).initialized = true ∧
      s.Serves 0 7 ∧ (s.server 0).taskId ≠ 7) ∧
    (∃ s as, run step twoServers as = some s ∧ (∀ i t, ¬ s.Serves i t) ∧
      s.getServerId noTaskId = some 0) := by
  let start : BudgetControl := ⟨.none, .null, true⟩
  refine ⟨?_, ?_, ?_⟩
  · let as : List CbsAction := [.createThread 5 start, .createThread 7 start,
      .createServer ⟨10, 3⟩ none, .attachThread 5 0 7, .deleteThread 7, .createThread 7 start]
    refine ⟨_, as, rfl, rfl, rfl, rfl, ?_, rfl, rfl⟩
    rintro ⟨v, hv, hc⟩
    cases hv
    cases hc
  · let as : List CbsAction := [.createThread 7 start, .createServer ⟨10, 3⟩ none,
      .attachThread 7 0 objectsIdOfSelf]
    refine ⟨_, as, rfl, rfl, ⟨_, rfl, rfl⟩, by decide⟩
  · refine ⟨_, [.createServer ⟨10, 3⟩ none], rfl, ?_, rfl⟩; rintro i t ⟨v, hv, -⟩; cases hv

end CbsServers

end Rtems
