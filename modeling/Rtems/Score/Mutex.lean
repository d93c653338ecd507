import Rtems.Score.Priority
import Rtems.Score.SchedulerPriority

/-!
# Mutexes and their thread queues

`coremuteximpl.h`, `threadqenqueue.c`, `threadqops.c` and `threadchangepriority.c` for one
processor: recursive mutexes with priority inheritance and ceiling mutexes.

* `performActions`, `priorityApply`: a priority action and those that follow from it;
* `pathAcquire`, `threadQueueEnqueue`: the search for a deadlock, and a thread that waits;
* `step`: seizing, surrendering, a timeout, a new real priority, a thread dispatch.
-/

namespace Rtems

open Function

abbrev Mutex := ℕ

/-- `_Thread_queue_Operations_priority_inherit`, or `CORE_MUTEX_TQ_OPERATIONS` of a ceiling mutex.
-/
inductive Protocol
  | inherit
  | ceiling
  deriving DecidableEq

/-- A priority node: real, of the queue of an inheritance mutex, or of a ceiling. -/
inductive PriorityNode
  | real
  | queue (m : Mutex)
  | ceiling (m : Mutex)
  deriving DecidableEq

inductive PriorityActionType
  | add
  | change
  | remove
  deriving DecidableEq

/-- An action for the aggregation of a thread, on one node. -/
structure PriorityAction where
  thread : Thread
  node : PriorityNode
  type : PriorityActionType
  deriving DecidableEq

/-- `Status_Control`, as far as mutexes use it. -/
inductive MutexStatus
  | successful
  | deadlock
  | unavailable
  | notOwner
  | ceilingViolated
  deriving DecidableEq

/-- `queue` is the queue of a mutex, `wait` is `Wait.queue`, `aggregation` is `Wait.Priority`. -/
structure Mutexes where
  protocol : Mutex → Protocol
  ceiling : Mutex → ℕ
  owner : Mutex → Option Thread
  nestLevel : Mutex → ℕ
  queue : Mutex → Aggregation Thread
  schedulerNode : Mutex → Thread
  wait : Thread → Option Mutex
  realPriority : Thread → ℕ
  aggregation : Thread → Aggregation PriorityNode
  scheduler : SchedulerPriority
  updates : List Thread

/-- An operation; `fuel` bounds the loops that follow a chain of owners. -/
inductive MutexOperation
  | seize (fuel : ℕ) (executing : Thread) (m : Mutex) (wait : Bool)
  | surrender (fuel : ℕ) (executing : Thread) (m : Mutex)
  | timeout (fuel : ℕ) (theThread : Thread)
  | setPriority (fuel : ℕ) (theThread : Thread) (newPriority : ℕ) (prependIt : Bool)
  | dispatch
  deriving DecidableEq

namespace Mutexes

variable (s : Mutexes)

/-- `_Thread_Get_priority`: the priority of the aggregation of a thread. -/
def priority (t : Thread) : ℕ := (s.aggregation t).priority

def nodePriority (t : Thread) : PriorityNode → ℕ
  | .real => s.realPriority t
  | .queue m => (s.queue m).priority
  | .ceiling m => s.ceiling m

/-- Who a thread waits for: the owner of the queue that it waits on. -/
def next (t : Thread) : Option Thread := (s.wait t).bind s.owner

/-! ## The thread queue context -/

def clearPriorityUpdates : Mutexes := { s with updates := [] }

def restorePriorityUpdates (updateCount : ℕ) : Mutexes :=
  { s with updates := s.updates.take updateCount }

/-- `_Thread_queue_Context_add_priority_update`; the list has room for two threads. -/
def addPriorityUpdate (t : Thread) : Option Mutexes :=
  if s.updates.length < 2 then some { s with updates := s.updates ++ [t] } else none

def priorityUpdate : Option Mutexes := do
  let scheduler ← s.updates.foldlM (fun x t => x.schedulerUpdatePriority t) s.scheduler
  some { s with scheduler := scheduler }

/-! ## Priority actions -/

/-- An aggregation after an action, and its node after a change. -/
def setAggregation (t : Thread) (a : Aggregation PriorityNode) (changed prependIt : Bool) :
    Mutexes :=
  { s with
    aggregation := update s.aggregation t a
    scheduler := if changed then s.scheduler.setPriority t a.priority prependIt else s.scheduler }

/-- `_Thread_Priority_do_perform_actions`, and whether the priority changes. -/
def performAction (act : PriorityAction) (prependIt : Bool) : Option (Mutexes × Bool) :=
  let a := s.aggregation act.thread
  let key := s.nodePriority act.thread
  match act.type with
  | .add =>
    let (a₁, changed) := a.nonEmptyInsert key act.node
    some (s.setAggregation act.thread a₁ changed false, changed)
  | .remove => do
    let (a₁, changed) ← a.extractNonEmpty key act.node
    some (s.setAggregation act.thread a₁ changed true, changed)
  | .change => do
    let (a₁, changed) ← a.changed key act.node
    some (s.setAggregation act.thread a₁ changed prependIt, changed)

/-- The `priority_actions` of the queue of a thread, and the next action. -/
def priorityActions (t : Thread) : Option (Mutexes × Option PriorityAction) :=
  match s.wait t with
  | none => some (s, none)
  | some m =>
    match s.protocol m with
    | .ceiling => do
      let q ← (s.queue m).plainChanged s.priority t
      some ({ s with queue := update s.queue m q }, none)
    | .inherit => do
      let owner ← s.owner m
      let (q, changed) ← (s.queue m).changed s.priority t
      some ({ s with queue := update s.queue m q },
        if changed then some ⟨owner, .queue m, .change⟩ else none)

/-- `_Thread_Priority_do_perform_actions` once the priority has changed. -/
def follow (t : Thread) : Bool → Option (Mutexes × Option PriorityAction)
  | true => do
    let s₁ ← s.addPriorityUpdate t
    s₁.priorityActions t
  | false => some (s, none)

def doPerformActions (act : PriorityAction) (prependIt : Bool) :
    Option (Mutexes × Option PriorityAction) := do
  let (s₁, changed) ← s.performAction act prependIt
  s₁.follow act.thread changed

/-- The loop of `_Thread_Priority_perform_actions`. -/
def performLoop (updateCount : ℕ) : ℕ → Mutexes → PriorityAction → Option Mutexes
  | 0, _, _ => none
  | fuel + 1, s, act => do
    let (s₁, rest) ← s.doPerformActions act false
    match rest with
    | none => some s₁
    | some act₁ => performLoop updateCount fuel (s₁.restorePriorityUpdates updateCount) act₁

def performActions (fuel : ℕ) (act : PriorityAction) : Option Mutexes :=
  performLoop s.updates.length fuel s act

/-- `_Thread_Priority_apply`, which adds, removes or changes a priority. -/
def priorityApply (fuel : ℕ) (act : PriorityAction) (prependIt : Bool) : Option Mutexes := do
  let (s₁, rest) ← s.doPerformActions act prependIt
  match rest with
  | none => some s₁
  | some act₁ => s₁.performActions fuel act₁

/-! ## The operations of a thread queue -/

/-- `_Thread_queue_Priority_inherit_enqueue` of the first thread or a later one. -/
def inheritEnqueue (fuel : ℕ) (m : Mutex) (t : Thread) : Option Mutexes := do
  let owner ← s.owner m
  if (s.queue m).contributors = [] then
    let s₁ := { s with
      schedulerNode := update s.schedulerNode m owner
      queue := update s.queue m (.initializeOne s.priority t) }
    s₁.performActions fuel ⟨owner, .queue m, .add⟩
  else
    let (q, changed) := (s.queue m).nonEmptyInsert s.priority t
    let s₁ := { s with queue := update s.queue m q }
    if changed then s₁.performActions fuel ⟨owner, .queue m, .change⟩ else some s₁

def priorityEnqueue (m : Mutex) (t : Thread) : Mutexes :=
  if (s.queue m).contributors = [] then
    { s with queue := update s.queue m (.initializeOne s.priority t) }
  else { s with queue := update s.queue m ((s.queue m).plainInsert s.priority t).1 }

/-- The `enqueue` operation of a queue. -/
def enqueue (fuel : ℕ) (m : Mutex) (t : Thread) : Option Mutexes :=
  match s.protocol m with
  | .inherit => s.inheritEnqueue fuel m t
  | .ceiling => some (s.priorityEnqueue m t)

def inheritExtract (fuel : ℕ) (m : Mutex) (t : Thread) : Option Mutexes := do
  let owner ← s.owner m
  let (q, e) ← (s.queue m).extract s.priority t
  let s₁ := { s with queue := update s.queue m q }
  match e with
  | .nothing => some s₁
  | .removed => s₁.performActions fuel ⟨owner, .queue m, .remove⟩
  | .changed => s₁.performActions fuel ⟨owner, .queue m, .change⟩

def priorityExtract (m : Mutex) (t : Thread) : Option Mutexes := do
  let q ← (s.queue m).plainExtract t
  some { s with queue := update s.queue m q }

/-- The `extract` operation of a queue. -/
def extract (fuel : ℕ) (m : Mutex) (t : Thread) : Option Mutexes :=
  match s.protocol m with
  | .inherit => s.inheritExtract fuel m t
  | .ceiling => s.priorityExtract m t

/-- `_Thread_queue_Priority_inherit_do_surrender_change`, when the priority changes. -/
def surrenderChange (t updated : Thread) (a : Aggregation PriorityNode) (changed prependIt : Bool) :
    Option Mutexes :=
  let s₁ := s.setAggregation t a changed prependIt
  if changed then s₁.addPriorityUpdate updated else some s₁

/-- The end of `_Thread_queue_Priority_inherit_do_surrender`, for the new owner. -/
def inheritAdopt (m : Mutex) (newOwner : Thread) : Option Mutexes :=
  if (s.queue m).contributors = [] then some s
  else
    let s₁ := { s with schedulerNode := update s.schedulerNode m newOwner }
    let (a, changed) := (s₁.aggregation newOwner).nonEmptyInsert (s₁.nodePriority newOwner) (.queue m)
    s₁.surrenderChange newOwner newOwner a changed false

/-- `_Thread_queue_Priority_inherit_surrender` to the first thread on the queue. -/
def inheritSurrender (m : Mutex) (previousOwner : Thread) : Option (Thread × Mutexes) := do
  let first ← (s.queue m).contributors.head?
  let node := s.schedulerNode m
  let (a, changed) ← (s.aggregation node).extractNonEmpty (s.nodePriority node) (.queue m)
  let s₁ ← s.surrenderChange node previousOwner a changed true
  let (q, _) ← (s₁.queue m).extract s₁.priority first
  let s₂ ← { s₁ with queue := update s₁.queue m q }.inheritAdopt m first
  some (first, s₂)

/-! ## Waiting -/

/-- The loop of `_Thread_queue_Path_acquire_critical`. -/
def pathAcquire (t : Thread) : ℕ → Mutex → Option Bool
  | 0, _ => none
  | fuel + 1, m =>
    match s.owner m with
    | none => some true
    | some owner =>
      if owner = t then some false
      else
        match s.wait owner with
        | none => some true
        | some m₁ => pathAcquire t fuel m₁

/-- `_Thread_Wait_claim` and `_Thread_Wait_restore_default`. -/
def setWait (t : Thread) (m : Option Mutex) : Mutexes :=
  { s with wait := update s.wait t m }

/-- `_Thread_Set_state` of a ready thread. -/
def block (t : Thread) : Option Mutexes := do
  let scheduler ← { s.scheduler with
    isReady := update s.scheduler.isReady t false }.schedulerBlock t
  some { s with scheduler := scheduler }

/-- `_Thread_Unblock`. -/
def unblock (t : Thread) : Mutexes :=
  { s with scheduler := { s.scheduler with
      isReady := update s.scheduler.isReady t true }.schedulerUnblock t }

/-- `_Thread_queue_Enqueue`; a thread that waits gets no status yet. -/
def threadQueueEnqueue (fuel : ℕ) (m : Mutex) (t : Thread) :
    Option (Option MutexStatus × Mutexes) := do
  let s₁ := s.setWait t (some m)
  let success ← s₁.pathAcquire t fuel m
  if success then
    let s₂ ← s₁.clearPriorityUpdates.enqueue fuel m t
    let s₃ ← s₂.block t
    let s₄ ← s₃.priorityUpdate
    some (none, s₄)
  else some (some .deadlock, s₁.setWait t none)

/-- `_Thread_queue_Surrender`, with the operations for priority inheritance. -/
def threadQueueSurrender (m : Mutex) (previousOwner : Thread) : Option Mutexes := do
  let (newOwner, s₁) ← s.clearPriorityUpdates.inheritSurrender m previousOwner
  let s₂ := { s₁ with owner := update s₁.owner m (some newOwner) }
  let s₃ ← (s₂.setWait newOwner none).priorityUpdate
  some (s₃.unblock newOwner)

/-- `_Thread_queue_Extract_critical`, for a ceiling mutex. -/
def threadQueueExtract (fuel : ℕ) (m : Mutex) (t : Thread) : Option Mutexes := do
  let s₁ ← s.clearPriorityUpdates.extract fuel m t
  some ((s₁.setWait t none).unblock t)

/-- `_Thread_Timeout`, for a thread that waits on a queue. -/
def threadTimeout (fuel : ℕ) (t : Thread) : Option Mutexes := do
  let m ← s.wait t
  let s₁ ← s.clearPriorityUpdates.extract fuel m t
  let s₂ ← (s₁.setWait t none).priorityUpdate
  some (s₂.unblock t)

/-! ## Mutexes -/

def setOwner (m : Mutex) (owner : Option Thread) : Mutexes :=
  { s with owner := update s.owner m owner }

def seizeNested (m : Mutex) : Mutexes :=
  { s with nestLevel := update s.nestLevel m ((s.nestLevel m + 1) % 2 ^ 32) }

/-- The other calls of a nested section: the level is decremented. -/
def surrenderNested (m : Mutex) : Mutexes :=
  { s with nestLevel := update s.nestLevel m (s.nestLevel m - 1) }

def seizeSlow (fuel : ℕ) (m : Mutex) (t : Thread) (wait : Bool) :
    Option (Option MutexStatus × Mutexes) :=
  if wait then s.threadQueueEnqueue fuel m t else some (some .unavailable, s)

def recursiveMutexSeize (fuel : ℕ) (m : Mutex) (t : Thread) (wait : Bool) :
    Option (Option MutexStatus × Mutexes) :=
  match s.owner m with
  | none => some (some .successful, s.setOwner m (some t))
  | some owner =>
    if owner = t then some (some .successful, s.seizeNested m) else s.seizeSlow fuel m t wait

def recursiveMutexSurrender (m : Mutex) (t : Thread) : Option (MutexStatus × Mutexes) :=
  if s.owner m ≠ some t then some (.notOwner, s)
  else if s.nestLevel m > 0 then some (.successful, s.surrenderNested m)
  else
    let s₁ := s.setOwner m none
    if (s₁.queue m).contributors = [] then some (.successful, s₁)
    else do
      let s₂ ← s₁.threadQueueSurrender m t
      some (.successful, s₂)

def ceilingMutexSetOwner (fuel : ℕ) (m : Mutex) (t : Thread) : Option (MutexStatus × Mutexes) :=
  if s.priority t < s.ceiling m then some (.ceilingViolated, s)
  else do
    let s₁ ← (s.setOwner m (some t)).priorityApply fuel ⟨t, .ceiling m, .add⟩ false
    let s₂ ← s₁.priorityUpdate
    some (.successful, s₂)

def ceilingMutexSeize (fuel : ℕ) (m : Mutex) (t : Thread) (wait : Bool) :
    Option (Option MutexStatus × Mutexes) :=
  match s.owner m with
  | none => (s.clearPriorityUpdates.ceilingMutexSetOwner fuel m t).map fun r => (some r.1, r.2)
  | some owner =>
    if owner = t then some (some .successful, s.seizeNested m) else s.seizeSlow fuel m t wait

/-- The rest of `_CORE_ceiling_mutex_Surrender`, past the previous owner. -/
def ceilingHandOver (fuel : ℕ) (m : Mutex) : Option Mutexes := do
  let newOwner := (s.queue m).contributors.head?
  let s₁ := s.setOwner m newOwner
  let s₂ ← match newOwner with
    | some u => do
      let s₂ ← s₁.priorityApply fuel ⟨u, .ceiling m, .add⟩ false
      s₂.threadQueueExtract fuel m u
    | none => some s₁
  s₂.priorityUpdate

def ceilingMutexSurrender (fuel : ℕ) (m : Mutex) (t : Thread) : Option (MutexStatus × Mutexes) :=
  if s.owner m ≠ some t then some (.notOwner, s)
  else if s.nestLevel m > 0 then some (.successful, s.surrenderNested m)
  else do
    let s₁ ← s.clearPriorityUpdates.priorityApply fuel ⟨t, .ceiling m, .remove⟩ true
    let s₂ ← s₁.ceilingHandOver fuel m
    some (.successful, s₂)

/-- `rtems_task_set_priority`, after its checks. -/
def setRealPriority (fuel : ℕ) (t : Thread) (newPriority : ℕ) (prependIt : Bool) :
    Option Mutexes := do
  let s₁ := { s.clearPriorityUpdates with
    realPriority := update s.realPriority t newPriority }
  let s₂ ← s₁.priorityApply fuel ⟨t, .real, .change⟩ prependIt
  s₂.priorityUpdate

/-! ## The mutexes as a machine -/

def seize (fuel : ℕ) (t : Thread) (m : Mutex) (wait : Bool) :
    Option (Option MutexStatus × Mutexes) :=
  match s.protocol m with
  | .inherit => s.recursiveMutexSeize fuel m t wait
  | .ceiling => s.ceilingMutexSeize fuel m t wait

def surrender (fuel : ℕ) (t : Thread) (m : Mutex) : Option (MutexStatus × Mutexes) :=
  match s.protocol m with
  | .inherit => s.recursiveMutexSurrender m t
  | .ceiling => s.ceilingMutexSurrender fuel m t

/-- An operation and its status. A ready thread calls, a waiting one has a timeout, and a priority
above the maximum is refused. -/
def perform (c : SchedulerControl) : MutexOperation → Option (Option MutexStatus × Mutexes)
  | .seize fuel t m wait => if s.scheduler.isReady t then s.seize fuel t m wait else none
  | .surrender fuel t m =>
    if s.scheduler.isReady t then (s.surrender fuel t m).map fun r => (some r.1, r.2) else none
  | .timeout fuel t => (s.threadTimeout fuel t).map fun s' => (none, s')
  | .setPriority fuel t p prependIt =>
    if p ≤ c.maximumPriority then
      (s.setRealPriority fuel t p prependIt).map fun s' => (some .successful, s')
    else none
  | .dispatch => some (none, { s with scheduler := { s.scheduler with executing := s.scheduler.heir } })

def step (c : SchedulerControl) (op : MutexOperation) : Option Mutexes :=
  (s.perform c op).map Prod.snd

/-- A started system: no mutex is held, each thread has its real priority. -/
structure Boot (c : SchedulerControl) (s : Mutexes) : Prop where
  scheduler : SchedulerPriority.Reachable c s.scheduler
  owner : ∀ m, s.owner m = none
  queue : ∀ m, (s.queue m).contributors = []
  wait : ∀ t, s.wait t = none
  aggregation : ∀ t, s.aggregation t = .initializeOne (s.nodePriority t) .real
  value : ∀ t, (s.scheduler.node t).value = s.realPriority t
  real : ∀ t, s.realPriority t ≤ c.maximumPriority

def Reachable (c : SchedulerControl) (s : Mutexes) : Prop :=
  ∃ s₀ ops, Boot c s₀ ∧ PartialRun.run (fun s op => step s c op) s₀ ops = some s

end Mutexes

end Rtems
