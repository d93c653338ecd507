import Rtems.Score.CbsServer
import Rtems.Score.Priority

/-!
# POSIX threads with a sporadic server

`pthread.c`, `pthreadcreate.c`, `pthreadsetschedparam.c`, `pthreadsetschedprio.c`,
`psxtransschedparam.c` and `tasksetpriority.c`, for one POSIX thread: its real priority and the low
one of its sporadic server take turns in its priority aggregation.

* `SporadicThread`, `step`: ticks, the replenishment timer and the calls of users;
* **`budget_decides`**: which node is in the aggregation, and with which value, if the calls are
  `Prudent`; **`exists_swapped`** without this.
-/

namespace Rtems

open PartialRun Aggregation SearchTree

/-- The home scheduler of the thread, and the configuration of the clock. -/
structure PosixScheduler where
  maximumPriority : ℕ
  mapPriority : ℕ → ℕ
  ticksPerSecond : ℕ
  nanosecondsPerTick : ℕ
  ticksPerTimeslice : ℕ

/-- `struct timespec`. -/
structure Timespec where
  sec : ℕ
  nsec : ℕ
  deriving DecidableEq

inductive SchedPolicy
  | other
  | fifo
  | rr
  | sporadic
  | unknown
  deriving DecidableEq

/-- `struct sched_param`. -/
structure SchedParam where
  schedPriority : ℤ
  lowPriority : ℤ
  replPeriod : Timespec
  initBudget : Timespec
  deriving DecidableEq

inductive PosixStatus
  | ok
  | einval
  deriving DecidableEq

namespace PosixScheduler

variable (cfg : PosixScheduler)

/-- `_POSIX_Priority_To_core`, if the priority is valid. -/
def posixPriorityToCore (posixPriority : ℤ) : Option ℕ :=
  if 1 ≤ posixPriority ∧ posixPriority.toNat < cfg.maximumPriority then
    some (cfg.mapPriority (cfg.maximumPriority - posixPriority.toNat))
  else none

/-- `_RTEMS_Priority_To_core`, if the priority is valid. -/
def rtemsPriorityToCore (priority : ℕ) : Option ℕ :=
  if priority ≤ cfg.maximumPriority then some (cfg.mapPriority priority) else none

/-- `_Timespec_To_ticks`, a `uint32_t`. -/
def timespecToTicks (time : Timespec) : ℕ :=
  if time.sec = 0 ∧ time.nsec = 0 then 0
  else (time.sec * cfg.ticksPerSecond + time.nsec / cfg.nanosecondsPerTick +
    if time.nsec % cfg.nanosecondsPerTick ≠ 0 then 1 else 0) % 2 ^ 32

/-- `_POSIX_Thread_Translate_sched_param`; without a result it returns `EINVAL`. -/
def translateSchedParam (policy : SchedPolicy) (param : SchedParam) :
    Option (BudgetAlgorithm × BudgetCallout) :=
  match policy with
  | .other => some (.resetTimeslice, .null)
  | .fifo => some (.none, .null)
  | .rr => some (.exhaustTimeslice, .null)
  | .sporadic =>
    if param.replPeriod = ⟨0, 0⟩ then none
    else if param.initBudget = ⟨0, 0⟩ then none
    else if cfg.timespecToTicks param.replPeriod < cfg.timespecToTicks param.initBudget then none
    else some (.callout, .sporadic)
  | .unknown => none

end PosixScheduler

/-- The priority nodes: `Real_priority` and `Sporadic.Low_priority`. -/
inductive SporadicNode
  | real
  | low
  deriving DecidableEq

/-- A POSIX thread. `exhausted`, `given` and `normal`, the core value of the normal priority, are
not in the code. -/
structure SporadicThread where
  realPriority : ℕ
  lowPriority : ℕ
  lowActive : Bool
  aggregation : Aggregation SporadicNode
  schedpolicy : SchedPolicy
  schedparam : SchedParam
  budgetAlgorithm : BudgetAlgorithm
  budgetCallout : BudgetCallout
  cpuTimeBudget : ℕ
  timer : Option ℕ
  exhausted : Bool
  given : SchedParam
  normal : ℕ

inductive SporadicAction
  | tick
  | timer
  | setschedparam (policy : SchedPolicy) (param : SchedParam)
  | setschedprio (prio : ℤ)
  | setPriority (newPriority : ℕ)
  deriving DecidableEq

namespace SporadicThread

variable (cfg : PosixScheduler) (t : SporadicThread)

def key : SporadicNode → ℕ
  | .real => t.realPriority
  | .low => t.lowPriority

/-- `_Thread_Priority_add` of one node and `_Thread_Priority_remove` of the other. -/
def exchange (add remove : SporadicNode) : Option SporadicThread :=
  ((t.aggregation.nonEmptyInsert t.key add).1.extractNonEmpty t.key remove).map fun r =>
    { t with aggregation := r.1 }

/-- `_Thread_Priority_changed` for the real priority. -/
def realPriorityChanged : Option SporadicThread :=
  (t.aggregation.changed t.key .real).map fun r => { t with aggregation := r.1 }

def sporadicTimerInsert : SporadicThread :=
  { t with
    cpuTimeBudget := cfg.timespecToTicks t.schedparam.initBudget
    timer := some (cfg.timespecToTicks t.schedparam.replPeriod) }

/-- The real priority comes back, if the low one is there. -/
def replenish : Option SporadicThread :=
  if t.lowActive then (t.exchange .real .low).map fun t₁ => { t₁ with lowActive := false }
  else some t

def sporadicTimer : Option SporadicThread :=
  t.replenish.map fun t₁ => { t₁.sporadicTimerInsert cfg with exhausted := false }

/-- The low priority comes, if it is not there. -/
def exhaust : Option SporadicThread :=
  if t.lowActive then some t
  else (t.exchange .low .real).map fun t₁ => { t₁ with lowActive := true }

def sporadicBudgetCallout : Option SporadicThread :=
  (exhaust { t with cpuTimeBudget := 2 ^ 32 - 1 }).map fun t₁ => { t₁ with exhausted := true }

/-- `_Scheduler_default_Tick` for the executing thread. -/
def tick : Option SporadicThread :=
  let budget := (t.cpuTimeBudget + 2 ^ 32 - 1) % 2 ^ 32
  match t.budgetAlgorithm with
  | .none => some t
  | .resetTimeslice | .exhaustTimeslice =>
    if budget = 0 ∨ 2 ^ 31 ≤ budget then some { t with cpuTimeBudget := cfg.ticksPerTimeslice }
    else some { t with cpuTimeBudget := budget }
  | .callout =>
    let t₁ := { t with cpuTimeBudget := budget }
    if budget = 0 ∧ t.budgetCallout = .sporadic then t₁.sporadicBudgetCallout else some t₁

/-- The real priority gets a new value, and comes back if the low one is there. -/
def setRealPriority (priority : ℕ) : Option SporadicThread :=
  if t.lowActive then { t with timer := none, realPriority := priority }.replenish
  else { t with timer := none, realPriority := priority }.realPriorityChanged

/-- `_POSIX_Set_sched_param`, with the source's names of the core priorities. -/
def setSchedParam (policy : SchedPolicy) (param : SchedParam) (algorithm : BudgetAlgorithm)
    (callout : BudgetCallout) : Option (PosixStatus × SporadicThread) :=
  let lowPrio := if policy = .sporadic then param.lowPriority else param.schedPriority
  let highPrio := if policy = .sporadic then param.schedPriority else lowPrio
  match cfg.posixPriorityToCore lowPrio, cfg.posixPriorityToCore highPrio with
  | some coreNormalPrio, some coreLowPrio =>
    (t.setRealPriority coreNormalPrio).map fun t₁ =>
      let t₂ := { t₁ with
        schedpolicy := policy, schedparam := param, budgetAlgorithm := algorithm,
        budgetCallout := callout, exhausted := false, given := param,
        normal := (cfg.posixPriorityToCore param.schedPriority).getD 0 }
      if policy = .sporadic then
        (.ok, { t₂ with lowPriority := coreLowPrio }.sporadicTimerInsert cfg)
      else (.ok, { t₂ with cpuTimeBudget := cfg.ticksPerTimeslice })
  | _, _ => some (.einval, t)

def pthreadSetschedparam (policy : SchedPolicy) (param : SchedParam) :
    Option (PosixStatus × SporadicThread) :=
  match cfg.translateSchedParam policy param with
  | none => some (.einval, t)
  | some (algorithm, callout) => t.setSchedParam cfg policy param algorithm callout

/-- `_Thread_Priority_change` for the real priority. -/
def changeRealPriority (priority : ℕ) : Option SporadicThread :=
  (realPriorityChanged { t with realPriority := priority }).map fun t₁ =>
    { t₁ with normal := priority }

def pthreadSetschedprio (prio : ℤ) : Option (PosixStatus × SporadicThread) :=
  match cfg.posixPriorityToCore prio with
  | none => some (.einval, t)
  | some priority => (t.changeRealPriority priority).map (.ok, ·)

/-- `rtems_task_set_priority`; the priority 0 is `RTEMS_CURRENT_PRIORITY`. -/
def taskSetPriority (newPriority : ℕ) : Option (PosixStatus × SporadicThread) :=
  if newPriority ≠ 0 then
    match cfg.rtemsPriorityToCore newPriority with
    | none => some (.einval, t)
    | some priority => (t.changeRealPriority priority).map (.ok, ·)
  else some (.ok, t)

/-- One action; a node that is not in the aggregation cannot be taken out of it. -/
def step : SporadicAction → Option SporadicThread
  | .tick => t.tick cfg
  | .timer => if t.timer.isSome then { t with timer := none }.sporadicTimer cfg else none
  | .setschedparam policy param => (t.pthreadSetschedparam cfg policy param).map Prod.snd
  | .setschedprio prio => (t.pthreadSetschedprio cfg prio).map Prod.snd
  | .setPriority newPriority => (t.taskSetPriority cfg newPriority).map Prod.snd

/-- `pthread_create`. Without a result it returns `EINVAL`. -/
def create (inherited : Option (SchedPolicy × SchedParam)) (attrPolicy : SchedPolicy)
    (attrParam : SchedParam) : Option SporadicThread := do
  let (policy, param) := inherited.getD (attrPolicy, attrParam)
  let (algorithm, callout) ← cfg.translateSchedParam policy param
  let coreNormalPrio ← cfg.posixPriorityToCore param.schedPriority
  let lowPrio := if policy = .sporadic then param.lowPriority else param.schedPriority
  let coreLowPrio ← cfg.posixPriorityToCore lowPrio
  let t : SporadicThread :=
    { realPriority := coreNormalPrio
      lowPriority := coreLowPrio
      lowActive := false
      aggregation := ⟨coreNormalPrio, [.real]⟩
      schedpolicy := attrPolicy
      schedparam := attrParam
      budgetAlgorithm := algorithm
      budgetCallout := callout
      cpuTimeBudget := if algorithm = .exhaustTimeslice then cfg.ticksPerTimeslice else 0
      timer := none
      exhausted := false
      given := param
      normal := coreNormalPrio }
  if policy = .sporadic then t.sporadicTimer cfg else some t

/-- No priority is set while the budget is exhausted; those of a new server agree. -/
def Prudent : SporadicAction → Prop
  | .tick => True
  | .timer => True
  | .setschedparam policy param => policy = .sporadic → param.lowPriority = param.schedPriority
  | .setschedprio prio => t.lowActive = true → cfg.posixPriorityToCore prio = none
  | .setPriority newPriority =>
    t.lowActive = true → newPriority = 0 ∨ cfg.rtemsPriorityToCore newPriority = none

instance (a : SporadicAction) : Decidable (t.Prudent cfg a) := by
  cases a <;> unfold Prudent <;> infer_instance

/-! ## One node in the aggregation -/

section Nodes

variable {ν : Type} [DecidableEq ν] (key : ν → ℕ) {x y : ν}

theorem exchange_singleton (h : x ≠ y) :
    ((nonEmptyInsert key ⟨key x, [x]⟩ y).1.extractNonEmpty key x).map Prod.fst =
      some ⟨key y, [y]⟩ := by
  have hperm : (insertBehind key y [x]).erase x = [y] := by
    have hp : (insertBehind key y [x]).Perm [y, x] := perm_insertBehind
    have he := hp.erase x
    rw [List.erase_cons_tail (by simpa using h.symm), List.erase_cons_head] at he
    exact List.perm_singleton.mp he
  have hmem : x ∈ insertBehind key y [x] :=
    perm_insertBehind.mem_iff.mpr (List.mem_cons_of_mem y List.mem_cons_self)
  by_cases hlt : key y < key x
  · simp [nonEmptyInsert, plainInsert, extractNonEmpty, plainExtract, hlt, hmem, hperm, hlt.le]
  · by_cases hgt : key x < key y
    · simp [nonEmptyInsert, plainInsert, extractNonEmpty, plainExtract, hlt, hmem, hperm, hgt]
    · have he : key x = key y := Nat.le_antisymm (not_lt.mp hlt) (not_lt.mp hgt)
      simp [nonEmptyInsert, plainInsert, extractNonEmpty, plainExtract, hmem, hperm, he]

theorem changed_singleton (p : ℕ) :
    ((⟨p, [x]⟩ : Aggregation ν).changed key x).map Prod.fst = some ⟨key x, [x]⟩ := by
  by_cases hp : key x = p
  · simp [changed, plainChanged, plainExtract, plainInsert, insertBehind, hp]
  · simp [changed, plainChanged, plainExtract, plainInsert, insertBehind, hp]

end Nodes

/-! ## The thread -/

variable {cfg t} {t' : SporadicThread}

structure Normal (t : SporadicThread) : Prop where
  exhausted : t.exhausted = false
  lowActive : t.lowActive = false
  aggregation : t.aggregation = ⟨t.realPriority, [.real]⟩

structure Exhausted (t : SporadicThread) : Prop where
  exhausted : t.exhausted = true
  lowActive : t.lowActive = true
  aggregation : t.aggregation = ⟨t.lowPriority, [.low]⟩
  callout : t.budgetCallout = .sporadic

structure Ok (cfg : PosixScheduler) (t : SporadicThread) : Prop where
  turn : t.Normal ∨ t.Exhausted
  value : t.realPriority = t.normal
  low : t.budgetCallout = .sporadic →
    cfg.posixPriorityToCore t.given.lowPriority = some t.lowPriority

theorem exchange_low (h : t.aggregation = ⟨t.realPriority, [.real]⟩) :
    t.exchange .low .real = some { t with aggregation := ⟨t.lowPriority, [.low]⟩ } := by
  obtain ⟨⟨a, b⟩, hr, rfl⟩ := Option.map_eq_some_iff.mp
    (exchange_singleton t.key (x := .real) (y := .low) (by decide))
  rw [exchange, h]
  exact congrArg (Option.map _) hr

theorem exchange_real (h : t.aggregation = ⟨t.lowPriority, [.low]⟩) :
    t.exchange .real .low = some { t with aggregation := ⟨t.realPriority, [.real]⟩ } := by
  obtain ⟨⟨a, b⟩, hr, rfl⟩ := Option.map_eq_some_iff.mp
    (exchange_singleton t.key (x := .low) (y := .real) (by decide))
  rw [exchange, h]
  exact congrArg (Option.map _) hr

theorem realPriorityChanged_of {p : ℕ} (h : t.aggregation = ⟨p, [.real]⟩) :
    t.realPriorityChanged = some { t with aggregation := ⟨t.realPriority, [.real]⟩ } := by
  obtain ⟨⟨a, b⟩, hr, rfl⟩ := Option.map_eq_some_iff.mp (changed_singleton t.key p)
  rw [realPriorityChanged, h]
  exact congrArg (Option.map _) hr

theorem replenish_of (h : t.Normal ∨ t.Exhausted) :
    t.replenish = some { t with aggregation := ⟨t.realPriority, [.real]⟩, lowActive := false } := by
  rcases h with h | h
  · rw [replenish, h.lowActive, ← h.aggregation, if_neg Bool.false_ne_true, ← h.lowActive]
  · rw [replenish, h.lowActive, if_pos rfl, exchange_real h.aggregation]; rfl

theorem Normal.of_lowActive (h : t.Normal ∨ t.Exhausted) (hl : t.lowActive = false) : t.Normal := by
  rcases h with h | h
  · exact h
  · rw [h.lowActive] at hl; cases hl

theorem Ok.of_budget (h : t.Ok cfg) (budget : ℕ) (timer : Option ℕ) :
    Ok cfg { t with cpuTimeBudget := budget, timer := timer } := by
  refine ⟨?_, h.value, h.low⟩
  rcases h.turn with hn | he
  · exact .inl ⟨hn.exhausted, hn.lowActive, hn.aggregation⟩
  · exact .inr ⟨he.exhausted, he.lowActive, he.aggregation, he.callout⟩

theorem Ok.sporadicTimer (h : t.Ok cfg) : ∃ t', t.sporadicTimer cfg = some t' ∧ t'.Ok cfg := by
  rw [SporadicThread.sporadicTimer, replenish_of h.turn]
  exact ⟨_, rfl, .inl ⟨rfl, rfl, rfl⟩, h.value, h.low⟩

theorem Ok.of_sporadicTimer (h : t.Ok cfg) (hs : t.sporadicTimer cfg = some t') : t'.Ok cfg := by
  obtain ⟨t1, h1, hok⟩ := h.sporadicTimer
  rw [hs] at h1
  cases h1
  exact hok

theorem Ok.sporadicBudgetCallout (h : t.Ok cfg) (hc : t.budgetCallout = .sporadic) :
    ∃ t', t.sporadicBudgetCallout = some t' ∧ t'.Ok cfg := by
  rw [SporadicThread.sporadicBudgetCallout, exhaust]
  rcases h.turn with hn | he
  · rw [if_neg (by simp [hn.lowActive]),
      exchange_low (t := { t with cpuTimeBudget := 2 ^ 32 - 1 }) hn.aggregation]
    exact ⟨_, rfl, .inr ⟨rfl, rfl, rfl, hc⟩, h.value, h.low⟩
  · rw [if_pos he.lowActive]
    exact ⟨_, rfl, .inr ⟨rfl, he.lowActive, he.aggregation, hc⟩, h.value, h.low⟩

theorem Ok.tick (h : t.Ok cfg) : ∃ t', t.tick cfg = some t' ∧ t'.Ok cfg := by
  rw [SporadicThread.tick]
  generalize (t.cpuTimeBudget + 2 ^ 32 - 1) % 2 ^ 32 = budget
  have hslice : ∃ t', (if budget = 0 ∨ 2 ^ 31 ≤ budget then
      some { t with cpuTimeBudget := cfg.ticksPerTimeslice }
      else some { t with cpuTimeBudget := budget }) = some t' ∧ t'.Ok cfg := by
    split_ifs
    · exact ⟨_, rfl, h.of_budget _ _⟩
    · exact ⟨_, rfl, h.of_budget _ _⟩
  split
  · exact ⟨t, rfl, h⟩
  · exact hslice
  · exact hslice
  · by_cases hb : budget = 0 ∧ t.budgetCallout = .sporadic
    · obtain ⟨t', ht, hok⟩ := (h.of_budget budget t.timer).sporadicBudgetCallout hb.2
      exact ⟨t', (if_pos hb).trans ht, hok⟩
    · exact ⟨_, if_neg hb, h.of_budget _ _⟩

variable {policy : SchedPolicy} {param : SchedParam} {algorithm : BudgetAlgorithm}

theorem translateSchedParam_sporadic
    (h : cfg.translateSchedParam policy param = some (algorithm, .sporadic)) :
    policy = .sporadic := by
  cases policy with
  | sporadic => rfl
  | other | fifo | rr | unknown => simp [PosixScheduler.translateSchedParam] at h

section

variable (h : t.Ok cfg)

include h

theorem Ok.setRealPriority (priority : ℕ) : t.setRealPriority priority = some { t with
      timer := none, realPriority := priority, lowActive := false
      aggregation := ⟨priority, [.real]⟩ } := by
  rw [SporadicThread.setRealPriority]
  rcases h.turn with hn | he
  · rw [if_neg (by simp [hn.lowActive]), realPriorityChanged_of
      (t := { t with timer := none, realPriority := priority }) hn.aggregation, ← hn.lowActive]
  · rw [if_pos he.lowActive]
    exact replenish_of (.inr ⟨he.exhausted, he.lowActive, he.aggregation, he.callout⟩)

section

variable (hp : policy = .sporadic → param.lowPriority = param.schedPriority)

include hp

theorem Ok.setSchedParam {callout : BudgetCallout} (hc : callout = .sporadic → policy = .sporadic) :
    ∃ r, t.setSchedParam cfg policy param algorithm callout = some r ∧ r.2.Ok cfg := by
  have hlow : (if policy = .sporadic then param.lowPriority else param.schedPriority) =
      param.schedPriority := by
    split_ifs with hs
    · exact hp hs
    · rfl
  rw [SporadicThread.setSchedParam]
  simp only [hlow, ite_self, h.setRealPriority]
  cases hcore : cfg.posixPriorityToCore param.schedPriority with
  | none => exact ⟨_, rfl, h⟩
  | some core =>
    refine ⟨_, rfl, ?_⟩
    by_cases hs : policy = .sporadic
    · simp only [if_pos hs]
      refine ⟨.inl ⟨rfl, rfl, rfl⟩, rfl, fun _ => ?_⟩
      change cfg.posixPriorityToCore param.lowPriority = some core
      rw [hp hs, hcore]
    · simp only [if_neg hs]; exact ⟨.inl ⟨rfl, rfl, rfl⟩, rfl, fun hcs => absurd (hc hcs) hs⟩

theorem Ok.pthreadSetschedparam :
    ∃ r, t.pthreadSetschedparam cfg policy param = some r ∧ r.2.Ok cfg := by
  rw [SporadicThread.pthreadSetschedparam]
  cases htr : cfg.translateSchedParam policy param with
  | none => exact ⟨_, rfl, h⟩
  | some r =>
    obtain ⟨algorithm, callout⟩ := r
    refine h.setSchedParam hp fun hc => ?_
    rw [hc] at htr
    exact translateSchedParam_sporadic htr

end

theorem Ok.changeRealPriority (hl : t.lowActive = false) (priority : ℕ) :
    ∃ t', t.changeRealPriority priority = some t' ∧ t'.Ok cfg := by
  have hn := Normal.of_lowActive h.turn hl
  rw [SporadicThread.changeRealPriority,
    realPriorityChanged_of (t := { t with realPriority := priority }) hn.aggregation]
  exact ⟨_, rfl, .inl ⟨hn.exhausted, hl, rfl⟩, rfl, h.low⟩

theorem Ok.pthreadSetschedprio {prio : ℤ}
    (hp : t.lowActive = true → cfg.posixPriorityToCore prio = none) :
    ∃ r, t.pthreadSetschedprio cfg prio = some r ∧ r.2.Ok cfg := by
  rw [SporadicThread.pthreadSetschedprio]
  cases hcore : cfg.posixPriorityToCore prio with
  | none => exact ⟨_, rfl, h⟩
  | some core =>
    have hl : t.lowActive = false := by
      cases hl : t.lowActive with
      | false => rfl
      | true => rw [hp hl] at hcore; cases hcore
    obtain ⟨t', ht, hok⟩ := h.changeRealPriority hl core
    exact ⟨_, congrArg (Option.map _) ht, hok⟩

theorem Ok.taskSetPriority {newPriority : ℕ}
    (hp : t.lowActive = true → newPriority = 0 ∨ cfg.rtemsPriorityToCore newPriority = none) :
    ∃ r, t.taskSetPriority cfg newPriority = some r ∧ r.2.Ok cfg := by
  rw [SporadicThread.taskSetPriority]
  by_cases h0 : newPriority = 0
  · exact ⟨_, if_neg (not_not.mpr h0), h⟩
  · rw [if_pos h0]
    cases hcore : cfg.rtemsPriorityToCore newPriority with
    | none => exact ⟨_, rfl, h⟩
    | some core =>
      have hl : t.lowActive = false := by
        cases hl : t.lowActive with
        | false => rfl
        | true =>
          rcases hp hl with hz | hn
          · exact absurd hz h0
          · rw [hn] at hcore; cases hcore
      obtain ⟨t', ht, hok⟩ := h.changeRealPriority hl core
      exact ⟨_, congrArg (Option.map _) ht, hok⟩

theorem Ok.step {a : SporadicAction} (hp : t.Prudent cfg a)
    (ha : a = .timer → t.timer.isSome = true) :
    ∃ t', t.step cfg a = some t' ∧ t'.Ok cfg := by
  have hsnd : ∀ {o : Option (PosixStatus × SporadicThread)}, (∃ r, o = some r ∧ r.2.Ok cfg) →
      ∃ t', o.map Prod.snd = some t' ∧ t'.Ok cfg := by
    rintro o ⟨r, rfl, hr⟩
    exact ⟨r.2, rfl, hr⟩
  cases a with
  | tick => exact h.tick
  | timer =>
    obtain ⟨t', ht, hok⟩ := (h.of_budget t.cpuTimeBudget none).sporadicTimer
    exact ⟨t', (if_pos (ha rfl)).trans ht, hok⟩
  | setschedparam policy param => exact hsnd (h.pthreadSetschedparam hp)
  | setschedprio prio => exact hsnd (h.pthreadSetschedprio hp)
  | setPriority newPriority => exact hsnd (h.taskSetPriority hp)

theorem Ok.of_step {a : SporadicAction} (hp : t.Prudent cfg a)
    (hs : t.step cfg a = some t') : t'.Ok cfg := by
  have ha : a = .timer → t.timer.isSome = true := by
    rintro rfl
    by_contra hn
    rw [SporadicThread.step, if_neg hn] at hs
    cases hs
  obtain ⟨t1, h1, hok⟩ := h.step hp ha
  rw [h1] at hs
  cases hs
  exact hok

end

theorem ok_create {inherited : Option (SchedPolicy × SchedParam)} {attrPolicy : SchedPolicy}
    {attrParam : SchedParam} (h : create cfg inherited attrPolicy attrParam = some t) :
    t.Ok cfg := by
  rw [create] at h
  generalize inherited.getD (attrPolicy, attrParam) = asked at h
  obtain ⟨policy, param⟩ := asked
  simp only [Option.bind_eq_bind, Option.bind_eq_some_iff] at h
  obtain ⟨⟨algorithm, callout⟩, htr, core, hcore, low, hlow, h⟩ := h
  have hgiven : callout = .sporadic → cfg.posixPriorityToCore param.lowPriority = some low := by
    rintro rfl; rw [if_pos (translateSchedParam_sporadic htr)] at hlow; exact hlow
  by_cases hs : policy = .sporadic
  · rw [if_pos hs] at h
    refine Ok.of_sporadicTimer ?_ h
    exact ⟨.inl ⟨rfl, rfl, rfl⟩, rfl, hgiven⟩
  · rw [if_neg hs] at h; cases h; exact ⟨.inl ⟨rfl, rfl, rfl⟩, rfl, hgiven⟩

/-- **The budget decides the priority.** -/
theorem budget_decides {inherited : Option (SchedPolicy × SchedParam)} {attrPolicy : SchedPolicy}
    {attrParam : SchedParam} {t₀ : SporadicThread} {as : List SporadicAction}
    (hc : create cfg inherited attrPolicy attrParam = some t₀)
    (hp : Along (step cfg) (Prudent cfg) t₀ as)
    (hr : run (step cfg) t₀ as = some t) :
    t.aggregation = (if t.exhausted then ⟨t.lowPriority, [.low]⟩ else ⟨t.realPriority, [.real]⟩) ∧
    (t.exhausted = true → cfg.posixPriorityToCore t.given.lowPriority = some t.lowPriority) ∧
    t.realPriority = t.normal ∧
    (∀ a, t.Prudent cfg a → (a = .timer → t.timer.isSome = true) →
      (t.step cfg a).isSome = true) := by
  have hok : t.Ok cfg := run_invariant_along _
    (fun _ _ _ h hp hs => h.of_step hp hs) (ok_create hc) hp hr
  refine ⟨?_, ?_, hok.value, ?_⟩
  · rcases hok.turn with hn | he
    · rw [hn.aggregation, hn.exhausted, if_neg Bool.false_ne_true]
    · rw [he.aggregation, he.exhausted, if_pos rfl]
  · intro hx
    rcases hok.turn with hn | he
    · rw [hn.exhausted] at hx; cases hx
    · exact hok.low he.callout
  · intro a ha ht
    obtain ⟨t', ht', -⟩ := hok.step ha ht
    rw [ht']
    rfl

/-- 100 ticks in a second, and the priorities of the deterministic scheduler. -/
def posixScheduler : PosixScheduler := ⟨255, id, 100, 10000000, 50⟩

/-- Two ticks in a second, at the priority 10 and then at 3. -/
def sporadicParam : SchedParam := ⟨10, 3, ⟨1, 0⟩, ⟨0, 20000000⟩⟩

theorem budget_decides_two : ∃ t : SporadicThread, t.aggregation = ⟨252, [.low]⟩ ∧
      posixScheduler.posixPriorityToCore 3 = some 252 ∧ t.normal = 100 := by
  let as : List SporadicAction := [.tick, .tick, .timer, .setPriority 100, .tick, .tick]
  obtain ⟨t₀, hc, -⟩ := Option.map_eq_some_iff.mp
    (show (create posixScheduler none .sporadic sporadicParam).map (fun _ => true) = some true by
      decide +kernel)
  have hall : (create posixScheduler none .sporadic sporadicParam).map (fun t₀ =>
      check (step posixScheduler) (fun t a => decide (t.Prudent posixScheduler a)) t₀ as &&
      (run (step posixScheduler) t₀ as).any fun t =>
        decide (t.exhausted = true ∧ t.lowPriority = 252 ∧ t.normal = 100)) = some true := by
    decide +kernel
  rw [hc, Option.map_some, Option.some_inj, Bool.and_eq_true, Option.any_eq_true] at hall
  obtain ⟨hcheck, t, hr, ht⟩ := hall
  obtain ⟨hx, hl, hn⟩ := of_decide_eq_true ht
  obtain ⟨hagg, -, -, -⟩ := budget_decides hc (along_of_decide _ hcheck) hr
  rw [hx, if_pos rfl, hl] at hagg
  exact ⟨t, hagg, by decide, hn⟩

/-- **The two priorities are swapped**, and one set while the budget is exhausted moves a node
outside the aggregation. -/
theorem exists_swapped : (∃ t₀ t, create posixScheduler none .fifo sporadicParam = some t₀ ∧
      run (step posixScheduler) t₀ [.setschedparam .sporadic sporadicParam] = some t ∧
      t.given = sporadicParam ∧ t.exhausted = false ∧
      posixScheduler.posixPriorityToCore sporadicParam.schedPriority = some 245 ∧
      t.realPriority = 252 ∧ t.lowPriority = 245) ∧
    (∃ t₀ t, create posixScheduler none .sporadic sporadicParam = some t₀ ∧
      run (step posixScheduler) t₀ [.tick, .tick] = some t ∧
      t.aggregation.contributors = [.low] ∧
      posixScheduler.posixPriorityToCore 20 = some 235 ∧
      t.pthreadSetschedprio posixScheduler 20 = none ∧
      posixScheduler.rtemsPriorityToCore 100 = some 100 ∧
      t.taskSetPriority posixScheduler 100 = none) := by
  refine ⟨⟨_, _, rfl, rfl, rfl, rfl, ?_, ?_, ?_⟩, ⟨_, _, rfl, rfl, ?_, ?_, ?_, ?_, ?_⟩⟩
  all_goals decide +kernel

end SporadicThread

end Rtems
