import Rtems.Lib.Run
import Rtems.Lib.SearchTree
import Rtems.Score.Objects
import Mathlib.Tactic.SplitIfs

/-!
# The timer server

`timerserver.c`, `timercreate.c`, `timerreset.c`, `timercancel.c`, `timerdelete.c` and
`watchdogtick.c`, for the timers that the timer server runs. A clock tick takes an expired timer
from its tree and releases the lock; only then does `_Timer_server_Routine_adaptor` append it to the
chain of the server and wake the server up.

* **`runs_once`**: every expiration leads to one call, if no call names a timer that is neither in
  its tree nor on the chain; **`exists_cancelled_call`** without this.
-/

namespace Rtems

open Function PartialRun List

/-- `Per_CPU_Watchdog_index`. -/
inductive WatchdogIndex
  | relative
  | absolute
  deriving DecidableEq

/-- `Watchdog_State`; both colours of a node of a tree are `scheduled`. -/
inductive WatchdogState
  | scheduled
  | inactive
  | pending
  deriving DecidableEq

/-- `Timer_Classes`, for the timers of the server. -/
inductive TimerClass
  | dormant
  | intervalOnTask
  | timeOfDayOnTask
  deriving DecidableEq

namespace TimerClass

/-- `_Timer_Is_interval_class`. -/
def isInterval (c : TimerClass) : Bool := c = .intervalOnTask

/-- `_Timer_Is_on_task_class`. -/
def isOnTask (c : TimerClass) : Bool := c ≠ .dormant

/-- `_Timer_Watchdog_header_index`. -/
def headerIndex : TimerClass → WatchdogIndex
  | .timeOfDayOnTask => .absolute
  | _ => .relative

end TimerClass

/-- `Timer_Control`, with the fields of its watchdog. The routine 0 is `NULL`. -/
structure TimerControl where
  allocated : Bool
  cpu : ℕ
  theClass : TimerClass
  state : WatchdogState
  expire : ℕ
  routine : ℕ
  userData : ℕ
  initial : ℕ
  deriving DecidableEq

/-- Where `_Timer_server_Body` is. -/
inductive ServerPoint
  | fetch
  | call (id : Id) (routine userData : ℕ)
  | receive
  deriving DecidableEq

/-- Where `_Watchdog_Tick` is; the adaptor is `_Timer_server_Routine_adaptor`. -/
inductive TickPoint
  | pass
  | adaptor (t : Id)
  | send
  | getTime
  deriving DecidableEq

/-- A clock tick in progress: its processor, the tree, the time and the point. -/
structure TimerTick where
  cpu : ℕ
  index : WatchdogIndex
  now : ℕ
  point : TickPoint
  deriving DecidableEq

def TimerTick.carried (p : TimerTick) : Option Id :=
  match p.point with
  | .adaptor t => some t
  | _ => none

inductive TimerStatus
  | successful
  | invalidId
  | invalidNumber
  | invalidAddress
  | invalidClock
  | notDefined
  deriving DecidableEq

/-! ## The specification -/

inductive TimerLog
  | fired (t : Id) (routine userData : ℕ)
  | cancelled (t : Id)
  | expired (t : Id)
  | taken (t : Id)
  | called (t : Id) (routine userData : ℕ)
  deriving DecidableEq

inductive TimerPhase
  | idle
  | armed (routine userData : ℕ)
  | due (routine userData : ℕ)
  deriving DecidableEq

/-- The timers, and the one that the server has taken. -/
structure TimerSpec where
  phase : Id → TimerPhase
  hand : Option (Id × ℕ × ℕ)

namespace TimerSpec

/-- What may happen. A due timer is taken and called with what was given to the fire. -/
def step (a : TimerSpec) : TimerLog → Option TimerSpec
  | .fired t routine userData =>
    match a.phase t with
    | .idle => some { a with phase := update a.phase t (.armed routine userData) }
    | _ => none
  | .cancelled t => some { a with phase := update a.phase t .idle }
  | .expired t =>
    match a.phase t with
    | .armed routine userData =>
      some { a with phase := update a.phase t (.due routine userData) }
    | _ => none
  | .taken t =>
    match a.phase t, a.hand with
    | .due routine userData, none => some ⟨update a.phase t .idle, some (t, routine, userData)⟩
    | _, _ => none
  | .called t routine userData =>
    if a.hand = some (t, routine, userData) then some { a with hand := none } else none

def initial : TimerSpec := ⟨fun _ => .idle, none⟩

end TimerSpec

/-! ## The server -/

/-- The timers and the server. `clock` is the time of day, `history` is not in the code. -/
structure TimerServer where
  timer : Id → TimerControl
  tree : ℕ → WatchdogIndex → List Id
  ticks : ℕ → ℕ
  clock : ℕ
  todIsSet : Bool
  pending : List Id
  event : Bool
  server : ServerPoint
  inProgress : List TimerTick
  history : List TimerLog

/-- What may happen next. `wallTime` is `none` if `_TOD_Validate` refuses it. -/
inductive TimerAction
  | create (t : Id) (cpu : ℕ)
  | serverFireAfter (t : Id) (ticks routine userData : ℕ)
  | serverFireWhen (t : Id) (wallTime : Option ℕ) (routine userData : ℕ)
  | reset (t : Id)
  | cancel (t : Id)
  | delete (t : Id)
  | setClock (clock : ℕ)
  | tick (cpu : ℕ)
  | interrupt (i : ℕ)
  | server
  deriving DecidableEq

def watchdogTicksFromSeconds (seconds : ℕ) : ℕ := seconds * 2 ^ 30

namespace TimerServer

variable (s : TimerServer)

def modify (t : Id) (f : TimerControl → TimerControl) : TimerServer :=
  { s with timer := update s.timer t (f (s.timer t)) }

def setTree (cpu : ℕ) (index : WatchdogIndex) (l : List Id) : TimerServer :=
  { s with tree := fun c i => if c = cpu ∧ i = index then l else s.tree c i }

def watchdogInsert (cpu : ℕ) (index : WatchdogIndex) (t : Id) (expire : ℕ) : TimerServer :=
  let s₁ := s.modify t fun c => { c with expire := expire, state := .scheduled }
  s₁.setTree cpu index
    (SearchTree.insertBehind (fun u => (s₁.timer u).expire) t (s.tree cpu index))

/-- `_Watchdog_Remove`, for a scheduled watchdog. -/
def watchdogRemove (cpu : ℕ) (index : WatchdogIndex) (t : Id) : TimerServer :=
  (s.modify t fun c => { c with state := .inactive }).setTree cpu index
    ((s.tree cpu index).erase t)

def timerCancel (t : Id) : TimerServer :=
  let c := s.timer t
  let s₁ :=
    if c.state = .scheduled then s.watchdogRemove c.cpu c.theClass.headerIndex t
    else if c.theClass.isOnTask && c.state = .pending then
      { s.modify t fun c => { c with state := .inactive } with pending := s.pending.erase t }
    else s
  { s₁ with history := s₁.history ++ [.cancelled t] }

/-- `_Timer_Fire`, for an existing timer. -/
def timerFire (t : Id) (interval routine userData : ℕ) (theClass : TimerClass) : TimerServer :=
  let s₁ := (s.timerCancel t).modify t fun c =>
    { c with theClass := theClass, routine := routine, userData := userData, initial := interval }
  let cpu := (s.timer t).cpu
  let s₂ :=
    if theClass.isInterval then s₁.watchdogInsert cpu .relative t (s.ticks cpu + interval)
    else s₁.watchdogInsert cpu .absolute t (watchdogTicksFromSeconds interval)
  { s₂ with history := s₂.history ++ [.fired t routine userData] }

def serverFireAfter (t : Id) (ticks routine userData : ℕ) : TimerStatus × TimerServer :=
  if ticks = 0 then (.invalidNumber, s)
  else if routine = 0 then (.invalidAddress, s)
  else if (s.timer t).allocated then
    (.successful, s.timerFire t ticks routine userData .intervalOnTask)
  else (.invalidId, s)

def serverFireWhen (t : Id) (wallTime : Option ℕ) (routine userData : ℕ) :
    TimerStatus × TimerServer :=
  if s.todIsSet = false then (.notDefined, s)
  else if routine = 0 then (.invalidAddress, s)
  else
    match wallTime with
    | none => (.invalidClock, s)
    | some seconds =>
      if seconds ≤ s.clock / 2 ^ 30 then (.invalidClock, s)
      else if (s.timer t).allocated then
        (.successful, s.timerFire t seconds routine userData .timeOfDayOnTask)
      else (.invalidId, s)

def reset (t : Id) : TimerStatus × TimerServer :=
  let c := s.timer t
  if c.allocated then
    if c.theClass.isInterval then
      let s₁ := (s.timerCancel t).watchdogInsert c.cpu .relative t (s.ticks c.cpu + c.initial)
      (.successful, { s₁ with history := s₁.history ++ [.fired t c.routine c.userData] })
    else (.notDefined, s)
  else (.invalidId, s)

def cancel (t : Id) : TimerStatus × TimerServer :=
  if (s.timer t).allocated then (.successful, s.timerCancel t) else (.invalidId, s)

def delete (t : Id) : TimerStatus × TimerServer :=
  if (s.timer t).allocated then
    (.successful, (s.timerCancel t).modify t fun c => { c with allocated := false })
  else (.invalidId, s)

/-- `rtems_timer_create` with the timer that is allocated. -/
def create (t : Id) (cpu : ℕ) : Option TimerServer :=
  if (s.timer t).allocated then none
  else
    some (s.modify t fun c =>
      { c with allocated := true, cpu := cpu, theClass := .dormant, state := .inactive })

/-- One pass of `_Watchdog_Do_tickle`; the result is what remains of the tick. -/
def pass (p : TimerTick) : TimerServer × List TimerTick :=
  match s.tree p.cpu p.index with
  | t :: rest =>
    if (s.timer t).expire ≤ p.now then
      let s₁ := (s.modify t fun c => { c with state := .inactive }).setTree p.cpu p.index rest
      ({ s₁ with history := s₁.history ++ [.expired t] }, [{ p with point := .adaptor t }])
    else
      (s, match p.index with
        | .relative => [{ p with index := .absolute, point := .getTime }]
        | .absolute => [])
  | [] =>
    (s, match p.index with
      | .relative => [{ p with index := .absolute, point := .getTime }]
      | .absolute => [])

/-- `_Timer_server_Routine_adaptor`, up to the release of the lock. -/
def routineAdaptor (p : TimerTick) (t : Id) : TimerServer × List TimerTick :=
  ({ s.modify t fun c => { c with state := .pending } with pending := s.pending ++ [t] },
    [{ p with point := if s.pending = [] then .send else .pass }])

def proceed (p : TimerTick) : TimerServer × List TimerTick :=
  match p.point with
  | .pass => s.pass p
  | .adaptor t => s.routineAdaptor p t
  | .send => ({ s with event := true }, [{ p with point := .pass }])
  | .getTime => (s, [{ p with now := s.clock, point := .pass }])

/-- `_Watchdog_Tick`, up to the release of the lock. -/
def tick (cpu : ℕ) : TimerServer :=
  let ticks := s.ticks cpu + 1
  let r := { s with ticks := update s.ticks cpu ticks }.pass ⟨cpu, .relative, ticks, .pass⟩
  { r.1 with inProgress := r.2 ++ s.inProgress }

def body : Option TimerServer :=
  match s.server with
  | .fetch =>
    match s.pending with
    | [] => some { s with server := .receive }
    | t :: rest =>
      let c := s.timer t
      some { s.modify t fun c => { c with state := .inactive } with
        pending := rest
        server := .call t c.routine c.userData
        history := s.history ++ [.taken t] }
  | .call t routine userData =>
    some { s with server := .fetch, history := s.history ++ [.called t routine userData] }
  | .receive => if s.event then some { s with event := false, server := .fetch } else none

def step : TimerAction → Option TimerServer
  | .create t cpu => s.create t cpu
  | .serverFireAfter t ticks routine userData => some (s.serverFireAfter t ticks routine userData).2
  | .serverFireWhen t wallTime routine userData =>
    some (s.serverFireWhen t wallTime routine userData).2
  | .reset t => some (s.reset t).2
  | .cancel t => some (s.cancel t).2
  | .delete t => some (s.delete t).2
  | .setClock clock => some { s with clock := clock, todIsSet := true }
  | .tick cpu => some (s.tick cpu)
  | .interrupt i =>
    s.inProgress[i]?.map fun p =>
      let r := s.proceed p
      { r.1 with inProgress := s.inProgress.take i ++ r.2 ++ s.inProgress.drop (i + 1) }
  | .server => s.body

def carried : List Id := s.inProgress.filterMap TimerTick.carried

/-- No call names a timer between its tree and the chain. -/
def Prudent : TimerAction → Prop
  | .serverFireAfter t _ _ _ => t ∉ s.carried
  | .serverFireWhen t _ _ _ => t ∉ s.carried
  | .reset t => t ∉ s.carried
  | .cancel t => t ∉ s.carried
  | .delete t => t ∉ s.carried
  | _ => True

instance (a : TimerAction) : Decidable (s.Prudent a) := by
  cases a <;> unfold Prudent <;> infer_instance

/-- No timer is allocated, and the server has started. -/
def initial (cpu : Id → ℕ) : TimerServer :=
  { timer := fun t => ⟨false, cpu t, .dormant, .inactive, 0, 0, 0, 0⟩, tree := fun _ _ => []
    ticks := fun _ => 0, clock := 0, todIsSet := false, pending := [], event := false
    server := .fetch, inProgress := [], history := [] }

/-! ## Where the timers are -/

/-- The phase of a timer, by its state and by the clock ticks in progress. -/
def phase (t : Id) : TimerPhase :=
  let c := s.timer t
  match c.state with
  | .scheduled => .armed c.routine c.userData
  | .pending => .due c.routine c.userData
  | .inactive => if t ∈ s.carried then .due c.routine c.userData else .idle

def hand : Option (Id × ℕ × ℕ) :=
  match s.server with
  | .call t routine userData => some (t, routine, userData)
  | _ => none

def spec : TimerSpec := ⟨s.phase, s.hand⟩

structure Placed (s : TimerServer) : Prop where
  tree : ∀ cpu index t, t ∈ s.tree cpu index ↔ (s.timer t).state = .scheduled ∧
    (s.timer t).cpu = cpu ∧ (s.timer t).theClass.headerIndex = index
  tree_nodup : ∀ cpu index, (s.tree cpu index).Nodup
  pending : ∀ t, t ∈ s.pending ↔ (s.timer t).state = .pending
  pending_nodup : s.pending.Nodup
  carried : ∀ t ∈ s.carried, (s.timer t).state = .inactive
  carried_nodup : s.carried.Nodup
  used : ∀ t, (s.timer t).state ≠ .inactive ∨ t ∈ s.carried →
    (s.timer t).allocated = true ∧ (s.timer t).theClass.isOnTask = true

/-- The server does not sleep over a timer on the chain. -/
def Awake : Prop :=
  s.server = .receive → s.pending ≠ [] → s.event = true ∨ ∃ p ∈ s.inProgress, p.point = .send

structure Ok (s : TimerServer) : Prop where
  placed : s.Placed
  traced : run TimerSpec.step .initial s.history = some s.spec
  awake : s.Awake

variable {s} {s' : TimerServer} {t u : Id}

theorem timer_modify (f : TimerControl → TimerControl) :
    (s.modify t f).timer u = if u = t then f (s.timer t) else s.timer u :=
  update_apply s.timer t (f (s.timer t)) u

/-! ## Cancelling -/

theorem Placed.timerCancel_eq (h : s.Placed) (t : Id) : s.timerCancel t = { s with
      timer := update s.timer t { s.timer t with state := .inactive }
      tree := fun cpu index => (s.tree cpu index).erase t
      pending := s.pending.erase t
      history := s.history ++ [.cancelled t] } := by
  have htree : (s.timer t).state ≠ .scheduled →
      (fun cpu index => (s.tree cpu index).erase t) = s.tree := by
    intro hne
    funext cpu index
    exact erase_of_not_mem fun hm => hne ((h.tree cpu index t).mp hm).1
  have hpending : (s.timer t).state ≠ .pending → s.pending.erase t = s.pending := by
    intro hne; exact erase_of_not_mem fun hm => hne ((h.pending t).mp hm)
  rw [timerCancel]
  cases hs : (s.timer t).state with
  | scheduled =>
    have htree' : (fun cpu index =>
        if cpu = (s.timer t).cpu ∧ index = (s.timer t).theClass.headerIndex then
          (s.tree (s.timer t).cpu (s.timer t).theClass.headerIndex).erase t
        else s.tree cpu index) = fun cpu index => (s.tree cpu index).erase t := by
      funext cpu index
      split_ifs with hc
      · rw [hc.1, hc.2]
      · refine (erase_of_not_mem fun hm => hc ?_).symm
        obtain ⟨-, hcpu, hindex⟩ := (h.tree cpu index t).mp hm
        exact ⟨hcpu.symm, hindex.symm⟩
    rw [← htree', hpending (by rw [hs]; exact WatchdogState.noConfusion)]
    rfl
  | pending =>
    have hne : (s.timer t).state ≠ .inactive := by rw [hs]; exact WatchdogState.noConfusion
    rw [htree (by rw [hs]; exact WatchdogState.noConfusion)]
    simp only [(h.used t (.inl hne)).2]
    rfl
  | inactive =>
    have hself : update s.timer t { s.timer t with state := .inactive } = s.timer := by
      rw [← hs]; exact update_eq_self t s.timer
    rw [htree (by rw [hs]; exact WatchdogState.noConfusion),
      hpending (by rw [hs]; exact WatchdogState.noConfusion), hself]
    simp

theorem phase_of_scheduled (h : (s.timer t).state = .scheduled) :
    s.phase t = .armed (s.timer t).routine (s.timer t).userData := by
  simp only [phase, h]

theorem phase_of_pending (h : (s.timer t).state = .pending) :
    s.phase t = .due (s.timer t).routine (s.timer t).userData := by
  simp only [phase, h]

theorem phase_of_carried (h : (s.timer t).state = .inactive) (hc : t ∈ s.carried) :
    s.phase t = .due (s.timer t).routine (s.timer t).userData := by
  simp only [phase, h, if_pos hc]

theorem phase_of_idle (h : (s.timer t).state = .inactive) (hc : t ∉ s.carried) :
    s.phase t = .idle := by
  simp only [phase, h, if_neg hc]

theorem Placed.of_eq (h : s.Placed) (htimer : s'.timer = s.timer) (htree : s'.tree = s.tree)
    (hpending : s'.pending = s.pending) (hcarried : s'.carried = s.carried) : s'.Placed := by
  refine ⟨?_, ?_, ?_, ?_, ?_, ?_, ?_⟩
  · rw [htimer, htree]; exact h.tree
  · rw [htree]; exact h.tree_nodup
  · rw [htimer, hpending]; exact h.pending
  · rw [hpending]; exact h.pending_nodup
  · rw [htimer, hcarried]; exact h.carried
  · rw [hcarried]; exact h.carried_nodup
  · rw [htimer, hcarried]; exact h.used

structure Moved (s s' : TimerServer) (t : Id) : Prop where
  timer : ∀ u, u ≠ t → s'.timer u = s.timer u
  tree : ∀ cpu index u, u ≠ t → (u ∈ s'.tree cpu index ↔ u ∈ s.tree cpu index)
  tree_nodup : ∀ cpu index, (s'.tree cpu index).Nodup
  pending : ∀ u, u ≠ t → (u ∈ s'.pending ↔ u ∈ s.pending)
  pending_nodup : s'.pending.Nodup
  carried : ∀ u, u ≠ t → (u ∈ s'.carried ↔ u ∈ s.carried)
  carried_nodup : s'.carried.Nodup

theorem Moved.phase (h : Moved s s' t) : s'.phase = update s.phase t (s'.phase t) := by
  funext u
  by_cases hu : u = t
  · rw [hu, update_self]
  · rw [update_of_ne hu, TimerServer.phase, TimerServer.phase, h.timer u hu]
    simp only [h.carried u hu]

theorem Placed.moved (h : s.Placed) (hm : Moved s s' t)
    (htree : ∀ cpu index, t ∈ s'.tree cpu index ↔ (s'.timer t).state = .scheduled ∧
      (s'.timer t).cpu = cpu ∧ (s'.timer t).theClass.headerIndex = index)
    (hpending : t ∈ s'.pending ↔ (s'.timer t).state = .pending)
    (hcarried : t ∈ s'.carried → (s'.timer t).state = .inactive)
    (hused : (s'.timer t).state ≠ .inactive ∨ t ∈ s'.carried →
      (s'.timer t).allocated = true ∧ (s'.timer t).theClass.isOnTask = true) : s'.Placed := by
  refine ⟨?_, hm.tree_nodup, ?_, hm.pending_nodup, ?_, hm.carried_nodup, ?_⟩
  · intro cpu index u
    by_cases hu : u = t
    · rw [hu]; exact htree cpu index
    · rw [hm.tree cpu index u hu, hm.timer u hu]; exact h.tree cpu index u
  · intro u
    by_cases hu : u = t
    · rw [hu]; exact hpending
    · rw [hm.pending u hu, hm.timer u hu]; exact h.pending u
  · intro u
    by_cases hu : u = t
    · rw [hu]; exact hcarried
    · rw [hm.carried u hu, hm.timer u hu]; exact h.carried u
  · intro u
    by_cases hu : u = t
    · rw [hu]; exact hused
    · rw [hm.carried u hu, hm.timer u hu]; exact h.used u

theorem Ok.append (h : s.Ok) {l : List TimerLog} {a : TimerSpec}
    (hl : run TimerSpec.step s.spec l = some a) :
    run TimerSpec.step .initial (s.history ++ l) = some a :=
  (run_append_eq_some _).mpr ⟨_, h.traced, hl⟩

theorem Placed.moved_timerCancel (h : s.Placed) (t : Id) : Moved s (s.timerCancel t) t := by
  rw [h.timerCancel_eq]
  refine ⟨fun u hu => update_of_ne hu _ _, ?_, ?_, ?_, h.pending_nodup.erase t,
    fun _ _ => Iff.rfl, h.carried_nodup⟩
  · intro cpu index u hu; exact mem_erase_of_ne hu
  · intro cpu index; exact (h.tree_nodup cpu index).erase t
  · intro u hu; exact mem_erase_of_ne hu

theorem Placed.timer_timerCancel (h : s.Placed) (t : Id) :
    (s.timerCancel t).timer t = { s.timer t with state := .inactive } := by
  rw [h.timerCancel_eq]
  exact update_self t _ _

theorem Placed.carried_timerCancel (h : s.Placed) (t : Id) :
    (s.timerCancel t).carried = s.carried := by
  rw [h.timerCancel_eq]
  rfl

theorem Placed.timerCancel (h : s.Placed) (t : Id) : (s.timerCancel t).Placed := by
  refine h.moved (h.moved_timerCancel t) ?_ ?_ ?_ ?_
  · intro cpu index
    rw [h.timer_timerCancel, h.timerCancel_eq]
    simp [(h.tree_nodup cpu index).mem_erase_iff]
  · rw [h.timer_timerCancel, h.timerCancel_eq]; simp [h.pending_nodup.mem_erase_iff]
  · rw [h.timer_timerCancel]; exact fun _ => rfl
  · rw [h.timer_timerCancel, h.carried_timerCancel]
    exact fun hu => h.used t (.inr (hu.resolve_left fun hne => hne rfl))

theorem Ok.timerCancel (h : s.Ok) (hc : t ∉ s.carried) : (s.timerCancel t).Ok := by
  have hidle : (s.timerCancel t).phase t = .idle := by
    refine phase_of_idle ?_ ?_
    · rw [h.placed.timer_timerCancel]
    · rw [h.placed.carried_timerCancel]; exact hc
  refine ⟨h.placed.timerCancel t, ?_, ?_⟩
  · rw [spec, (h.placed.moved_timerCancel t).phase, hidle, h.placed.timerCancel_eq]
    exact h.append rfl
  · rw [h.placed.timerCancel_eq]
    intro hr hne
    refine h.awake hr fun hnil => hne ?_
    rw [hnil]
    rfl

/-! ## Arming -/

section Arm

variable {f : TimerControl → TimerControl} {cpu expire : ℕ} {index : WatchdogIndex}

theorem timer_arm : ((s.modify t f).watchdogInsert cpu index t expire).timer u =
    if u = t then { f (s.timer t) with expire := expire, state := .scheduled } else s.timer u := by
  change ((s.modify t f).modify t fun c => { c with expire := expire, state := .scheduled }).timer u
    = _
  rw [timer_modify, timer_modify, timer_modify, if_pos rfl]
  split_ifs with hu
  · rfl
  · rfl

theorem tree_arm {cpu' : ℕ} {index' : WatchdogIndex} :
    (((s.modify t f).watchdogInsert cpu index t expire).tree cpu' index').Perm
      (if cpu' = cpu ∧ index' = index then t :: s.tree cpu index else s.tree cpu' index') := by
  change List.Perm (if cpu' = cpu ∧ index' = index then _ else s.tree cpu' index') _
  split_ifs
  · exact SearchTree.perm_insertBehind
  · exact List.Perm.refl _

theorem Ok.arm (h : s.Ok) (expire : ℕ) (hi : (s.timer t).state = .inactive) (hc : t ∉ s.carried)
    (ha : (f (s.timer t)).allocated = true) (ht : (f (s.timer t)).theClass.isOnTask = true)
    (hcpu : (f (s.timer t)).cpu = cpu) (hx : (f (s.timer t)).theClass.headerIndex = index) :
    let s1 := (s.modify t f).watchdogInsert cpu index t expire
    Ok { s1 with history := s1.history ++
      [.fired t (f (s.timer t)).routine (f (s.timer t)).userData] } := by
  intro s1
  have hnot : ∀ cpu index, t ∉ s.tree cpu index := by
    intro cpu index hm
    have hs := ((h.placed.tree cpu index t).mp hm).1
    rw [hi] at hs
    cases hs
  have htimer : s1.timer t = { f (s.timer t) with expire := expire, state := .scheduled } := by
    rw [timer_arm, if_pos rfl]
  have hmoved : Moved s s1 t := by
    refine ⟨fun u hu => ?_, ?_, ?_, fun _ _ => Iff.rfl, h.placed.pending_nodup, fun _ _ => Iff.rfl,
      h.placed.carried_nodup⟩
    · rw [timer_arm, if_neg hu]
    · intro cpu' index' u hu
      rw [tree_arm.mem_iff]
      split_ifs with hq
      · rw [hq.1, hq.2, mem_cons]; exact ⟨fun hm => hm.resolve_left hu, .inr⟩
      · rfl
    · intro cpu' index'
      rw [tree_arm.nodup_iff]
      split_ifs
      · exact nodup_cons.mpr ⟨hnot cpu index, h.placed.tree_nodup cpu index⟩
      · exact h.placed.tree_nodup cpu' index'
  have hplaced : s1.Placed := by
    refine h.placed.moved hmoved ?_ ?_ (fun hm => absurd hm hc) fun _ => ?_
    · intro cpu' index'
      rw [tree_arm.mem_iff, htimer]
      split_ifs with hq
      · simp [hcpu, hx, hq]
      · simp only [hnot, hcpu, hx, true_and, false_iff]
        exact fun hq' => hq ⟨hq'.1.symm, hq'.2.symm⟩
    · simp [h.placed.pending, hi, s1, watchdogInsert, setTree, TimerServer.modify]
    · rw [htimer]; exact ⟨ha, ht⟩
  refine ⟨hplaced.of_eq rfl rfl rfl rfl, h.append ?_, h.awake⟩
  have hphase := hmoved.phase
  rw [phase_of_scheduled (by rw [htimer]), htimer] at hphase
  refine run_singleton _ ?_
  simp only [TimerSpec.step, spec, phase_of_idle hi hc, ← hphase]
  rfl

end Arm

/-! ## The calls -/

theorem modify_id : s.modify t id = s := by
  rw [modify, id, update_eq_self]

theorem Ok.modify (h : s.Ok) (hi : (s.timer t).state = .inactive) (hc : t ∉ s.carried)
    {f : TimerControl → TimerControl} (hf : (f (s.timer t)).state = .inactive) :
    (s.modify t f).Ok := by
  have htimer : (s.modify t f).timer t = f (s.timer t) := by rw [timer_modify, if_pos rfl]
  have hmoved : Moved s (s.modify t f) t := by
    refine ⟨fun u hu => ?_, fun _ _ _ _ => Iff.rfl, h.placed.tree_nodup, fun _ _ => Iff.rfl,
      h.placed.pending_nodup, fun _ _ => Iff.rfl, h.placed.carried_nodup⟩
    rw [timer_modify, if_neg hu]
  refine ⟨h.placed.moved hmoved ?_ ?_ (fun hm => absurd hm hc) ?_, ?_, h.awake⟩
  · intro cpu index
    rw [htimer, hf]
    refine (h.placed.tree cpu index t).trans ?_
    simp [hi]
  · rw [htimer, hf]; refine (h.placed.pending t).trans ?_; simp [hi]
  · rw [htimer, hf]; exact fun hu => hu.elim (fun hne => absurd rfl hne) fun hm => absurd hm hc
  · have hphase := hmoved.phase
    rw [phase_of_idle (s := s.modify t f) (by rw [htimer, hf]) hc, ← phase_of_idle hi hc,
      update_eq_self] at hphase
    rw [spec, hphase]
    exact h.traced

theorem Ok.timerFire (h : s.Ok) (ha : (s.timer t).allocated = true) (hc : t ∉ s.carried)
    {interval routine userData : ℕ} {theClass : TimerClass} (ht : theClass.isOnTask = true) :
    (s.timerFire t interval routine userData theClass).Ok := by
  have hok := h.timerCancel hc
  have htimer := h.placed.timer_timerCancel t
  have hi : ((s.timerCancel t).timer t).state = .inactive := by rw [htimer]
  have hc' : t ∉ (s.timerCancel t).carried := by rw [h.placed.carried_timerCancel]; exact hc
  cases theClass with
  | dormant => cases ht
  | intervalOnTask =>
    exact hok.arm _
      hi hc' (by rw [htimer]; exact ha) rfl (by rw [htimer]) rfl
  | timeOfDayOnTask =>
    exact hok.arm _
      hi hc' (by rw [htimer]; exact ha) rfl (by rw [htimer]) rfl

section

variable (h : s.Ok) (hc : t ∉ s.carried)

include h hc

theorem Ok.serverFireAfter (ticks routine userData : ℕ) :
    (s.serverFireAfter t ticks routine userData).2.Ok := by
  rw [TimerServer.serverFireAfter]
  split_ifs with h1 h2 ha
  · exact h
  · exact h
  · exact h.timerFire ha hc rfl
  · exact h

theorem Ok.serverFireWhen (wallTime : Option ℕ)
    (routine userData : ℕ) : (s.serverFireWhen t wallTime routine userData).2.Ok := by
  cases wallTime with
  | none =>
    simp only [TimerServer.serverFireWhen]
    split_ifs
    · exact h
    · exact h
    · exact h
  | some seconds =>
    simp only [TimerServer.serverFireWhen]
    split_ifs with _ _ _ ha
    · exact h
    · exact h
    · exact h
    · exact h.timerFire ha hc rfl
    · exact h

theorem Ok.reset : (s.reset t).2.Ok := by
  rw [TimerServer.reset]
  split_ifs with ha hclass
  · have hok := h.timerCancel hc
    have htimer := h.placed.timer_timerCancel t
    have hc' : t ∉ (s.timerCancel t).carried := by rw [h.placed.carried_timerCancel]; exact hc
    have hinterval : (s.timer t).theClass = .intervalOnTask := of_decide_eq_true hclass
    have hcpu : (id ((s.timerCancel t).timer t)).cpu = (s.timer t).cpu := by rw [id, htimer]
    have hindex : (id ((s.timerCancel t).timer t)).theClass.headerIndex = .relative := by
      rw [id, htimer, hinterval]; rfl
    have harm := hok.arm (s.ticks (s.timer t).cpu + (s.timer t).initial) (by rw [htimer]) hc'
      (by rw [id, htimer]; exact ha) (by rw [id, htimer, hinterval]; rfl) hcpu hindex
    rw [modify_id, id, htimer] at harm
    exact harm
  · exact h
  · exact h

theorem Ok.cancel : (s.cancel t).2.Ok := by
  rw [TimerServer.cancel]
  split_ifs
  · exact h.timerCancel hc
  · exact h

theorem Ok.delete : (s.delete t).2.Ok := by
  rw [TimerServer.delete]
  have htimer := h.placed.timer_timerCancel t
  split_ifs
  · refine (h.timerCancel hc).modify (f := fun c => { c with allocated := false }) ?_ ?_ ?_
    · rw [htimer]
    · rw [h.placed.carried_timerCancel]; exact hc
    · rw [htimer]
  · exact h

end

theorem Ok.create (h : s.Ok) {cpu : ℕ} (hs : s.create t cpu = some s') : s'.Ok := by
  rw [TimerServer.create] at hs
  split_ifs at hs with ha
  cases hs
  have hi : (s.timer t).state = .inactive := by
    by_contra hne
    exact ha (h.placed.used t (.inl hne)).1
  exact h.modify hi (fun hc => ha (h.placed.used t (.inr hc)).1) rfl

/-! ## Clock ticks -/

section Tick

variable {l1 l2 old new : List TimerTick} {p : TimerTick}

section Split

variable (hsplit : s.inProgress = l1 ++ old ++ l2)

include hsplit

theorem carried_split :
    s.carried = l1.filterMap TimerTick.carried ++ old.filterMap TimerTick.carried ++
      l2.filterMap TimerTick.carried := by
  rw [carried, hsplit, filterMap_append, filterMap_append]

theorem Ok.replace (h : s.Ok) {event : Bool}
    (hc : new.filterMap TimerTick.carried = old.filterMap TimerTick.carried)
    (he : s.event = true → event = true)
    (hsend : (∃ p ∈ old, p.point = .send) → event = true) :
    Ok { s with event := event, inProgress := l1 ++ new ++ l2 } := by
  have hcarried : TimerServer.carried { s with event := event, inProgress := l1 ++ new ++ l2 } =
      s.carried := by
    rw [carried_split hsplit, ← hc]
    exact carried_split rfl
  have hphase : TimerServer.phase { s with event := event, inProgress := l1 ++ new ++ l2 } =
      s.phase := by
    funext u
    rw [phase, phase, hcarried]
  refine ⟨h.placed.of_eq rfl rfl rfl hcarried, ?_, ?_⟩
  · rw [spec, hphase]; exact h.traced
  · intro hr hne
    rcases h.awake hr hne with ht | ⟨p, hp, hs⟩
    · exact .inl (he ht)
    · rw [hsplit, mem_append, mem_append] at hp
      rcases hp with (hp | hp) | hp
      · exact .inr ⟨p, mem_append_left _ (mem_append_left _ hp), hs⟩
      · exact .inl (hsend ⟨p, hp, hs⟩)
      · exact .inr ⟨p, mem_append_right _ hp, hs⟩

theorem carried_cons (hc : old.filterMap TimerTick.carried = [])
    (hsplit' : s'.inProgress = l1 ++ new ++ l2)
    (hc' : new.filterMap TimerTick.carried = [t]) : s'.carried.Perm (t :: s.carried) := by
  rw [carried_split hsplit, carried_split hsplit', hc, hc', append_nil, append_assoc,
    singleton_append]
  exact perm_middle

theorem send_of_split (hsend : ∀ p ∈ old, p.point ≠ .send)
    (h : ∃ p ∈ s.inProgress, p.point = .send) :
    ∃ p ∈ l1 ++ new ++ l2, p.point = .send := by
  obtain ⟨p, hp, hs⟩ := h
  rw [hsplit, mem_append, mem_append] at hp
  rcases hp with (hp | hp) | hp
  · exact ⟨p, mem_append_left _ (mem_append_left _ hp), hs⟩
  · exact absurd hs (hsend p hp)
  · exact ⟨p, mem_append_right _ hp, hs⟩

theorem Ok.take (h : s.Ok) (hc : old.filterMap TimerTick.carried = [])
    (hsend : ∀ p ∈ old, p.point ≠ .send)
    {cpu : ℕ} {index : WatchdogIndex} {rest : List Id} (htree : s.tree cpu index = t :: rest)
    (hc' : new.filterMap TimerTick.carried = [t]) :
    let s1 := (s.modify t fun c => { c with state := .inactive }).setTree cpu index rest
    Ok { s1 with history := s1.history ++ [.expired t], inProgress := l1 ++ new ++ l2 } := by
  intro s1
  have hnodup := h.placed.tree_nodup cpu index
  rw [htree, nodup_cons] at hnodup
  have hmem : t ∈ s.tree cpu index := by rw [htree]; exact mem_cons_self
  obtain ⟨hs, hcpu, hindex⟩ := (h.placed.tree cpu index t).mp hmem
  have hnot : t ∉ s.carried := by intro hm; rw [h.placed.carried t hm] at hs; cases hs
  set s2 : TimerServer := { s1 with
    history := s1.history ++ [.expired t], inProgress := l1 ++ new ++ l2 }
  have hcarried : s2.carried.Perm (t :: s.carried) := carried_cons hsplit hc rfl hc'
  have htimer : s2.timer t = { s.timer t with state := .inactive } := update_self t _ _
  have hmoved : Moved s s2 t := by
    refine ⟨fun u hu => update_of_ne hu _ _, ?_, ?_, fun _ _ => Iff.rfl, h.placed.pending_nodup, ?_,
      ?_⟩
    · intro cpu' index' u hu
      change u ∈ (if cpu' = cpu ∧ index' = index then rest else s.tree cpu' index') ↔ _
      split_ifs with hq
      · rw [hq.1, hq.2, htree, mem_cons]; exact ⟨.inr, fun hm => hm.resolve_left hu⟩
      · rfl
    · intro cpu' index'
      change (if cpu' = cpu ∧ index' = index then rest else s.tree cpu' index').Nodup
      split_ifs
      · exact hnodup.2
      · exact h.placed.tree_nodup cpu' index'
    · intro u hu; rw [hcarried.mem_iff, mem_cons]; exact ⟨fun hm => hm.resolve_left hu, .inr⟩
    · rw [hcarried.nodup_iff, nodup_cons]; exact ⟨hnot, h.placed.carried_nodup⟩
  have hdue := phase_of_carried (by rw [htimer]) (hcarried.mem_iff.mpr mem_cons_self)
  refine ⟨h.placed.moved hmoved ?_ ?_ ?_ ?_, h.append ?_, ?_⟩
  · intro cpu' index'
    rw [htimer]
    change t ∈ (if cpu' = cpu ∧ index' = index then rest else s.tree cpu' index') ↔ _
    split_ifs with hq
    · simpa using hnodup.1
    · simp only [false_and, iff_false]
      intro hm
      obtain ⟨-, hcpu', hindex'⟩ := (h.placed.tree cpu' index' t).mp hm
      exact hq ⟨hcpu'.symm.trans hcpu, hindex'.symm.trans hindex⟩
  · rw [htimer]; refine (h.placed.pending t).trans ?_; simp [hs]
  · rw [htimer]; exact fun _ => rfl
  · rw [htimer]
    exact fun _ => h.placed.used t (.inl (by rw [hs]; exact WatchdogState.noConfusion))
  · have hphase := hmoved.phase
    rw [hdue, htimer] at hphase
    refine run_singleton _ ?_
    simp only [TimerSpec.step, spec, phase_of_scheduled hs, ← hphase]
    rfl
  · intro hr hne; exact (h.awake hr hne).imp_right (send_of_split hsplit hsend)

end Split

theorem Ok.adaptor (h : s.Ok) (hsplit : s.inProgress = l1 ++ [p] ++ l2)
    (hp : p.point = .adaptor t) :
    Ok { (s.routineAdaptor p t).1 with inProgress := l1 ++ (s.routineAdaptor p t).2 ++ l2 } := by
  have hold : [p].filterMap TimerTick.carried = [t] := by simp [TimerTick.carried, hp]
  set s1 : TimerServer := { (s.routineAdaptor p t).1 with
    inProgress := l1 ++ (s.routineAdaptor p t).2 ++ l2 }
  have hnew : (s.routineAdaptor p t).2.filterMap TimerTick.carried = [] := by
    rw [routineAdaptor]
    by_cases hnil : s.pending = []
    · simp [TimerTick.carried, hnil]
    · simp [TimerTick.carried, hnil]
  have hcarried : s.carried.Perm (t :: s1.carried) := carried_cons rfl hnew hsplit hold
  have hnodup := h.placed.carried_nodup
  rw [hcarried.nodup_iff, nodup_cons] at hnodup
  have hmem : t ∈ s.carried := hcarried.mem_iff.mpr mem_cons_self
  have hi := h.placed.carried t hmem
  have hnot : t ∉ s.pending := by rw [h.placed.pending, hi]; exact WatchdogState.noConfusion
  have htimer : s1.timer t = { s.timer t with state := .pending } := update_self t _ _
  have hmoved : Moved s s1 t := by
    refine ⟨fun u hu => update_of_ne hu _ _, fun _ _ _ _ => Iff.rfl, h.placed.tree_nodup, ?_, ?_,
      ?_, hnodup.2⟩
    · intro u hu
      change u ∈ s.pending ++ [t] ↔ _
      rw [mem_append, mem_singleton]
      exact ⟨fun hm => hm.resolve_right hu, .inl⟩
    · exact nodup_append.mpr ⟨h.placed.pending_nodup, nodup_singleton t, by
        intro a ha b hb hab
        rw [mem_singleton] at hb
        exact hnot (hb ▸ hab ▸ ha)⟩
    · intro u hu; rw [hcarried.mem_iff, mem_cons]; exact ⟨.inr, fun hm => hm.resolve_left hu⟩
  refine ⟨h.placed.moved hmoved ?_ ?_ ?_ ?_, ?_, ?_⟩
  · intro cpu index
    rw [htimer]
    refine (h.placed.tree cpu index t).trans ?_
    simp [hi]
  · rw [htimer]; change t ∈ s.pending ++ [t] ↔ _; simp
  · exact fun hm => absurd hm hnodup.1
  · rw [htimer]; exact fun _ => h.placed.used t (.inr hmem)
  · have hphase := hmoved.phase
    rw [phase_of_pending (by rw [htimer]), htimer, ← phase_of_carried hi hmem,
      update_eq_self] at hphase
    rw [spec, hphase]
    exact h.traced
  · intro hr _
    by_cases hnil : s.pending = []
    · refine .inr ⟨_, mem_append_left _ (mem_append_right _ mem_cons_self), ?_⟩
      exact if_pos hnil
    · refine (h.awake hr hnil).imp_right (send_of_split hsplit ?_)
      intro q hq
      rw [mem_singleton.mp hq, hp]
      exact TickPoint.noConfusion

theorem Ok.pass (h : s.Ok) (hsplit : s.inProgress = l1 ++ old ++ l2)
    (hc : old.filterMap TimerTick.carried = []) (hsend : ∀ p ∈ old, p.point ≠ .send) :
    Ok { (s.pass p).1 with inProgress := l1 ++ (s.pass p).2 ++ l2 } := by
  have hend : Ok { s with inProgress := l1 ++ (match p.index with
      | .relative => [{ p with index := .absolute, point := .getTime }]
      | .absolute => []) ++ l2 } := by
    refine h.replace hsplit ?_ id fun hex => ?_
    · rw [hc]
      cases p.index with
      | relative | absolute => rfl
    · obtain ⟨q, hq, hs⟩ := hex; exact absurd hs (hsend q hq)
  rw [TimerServer.pass]
  split
  next t rest htree =>
    split_ifs
    · exact h.take hsplit hc hsend htree rfl
    · exact hend
  next => exact hend

theorem Ok.proceed (h : s.Ok) (hsplit : s.inProgress = l1 ++ [p] ++ l2) :
    Ok { (s.proceed p).1 with inProgress := l1 ++ (s.proceed p).2 ++ l2 } := by
  rw [TimerServer.proceed]
  cases hp : p.point with
  | pass =>
    refine h.pass hsplit (by simp [TimerTick.carried, hp]) fun q hq => ?_
    rw [mem_singleton.mp hq, hp]
    exact TickPoint.noConfusion
  | adaptor t => exact h.adaptor hsplit hp
  | send => exact h.replace hsplit (by simp [TimerTick.carried, hp]) (fun _ => rfl) fun _ => rfl
  | getTime =>
    refine h.replace hsplit (by simp [TimerTick.carried, hp]) id fun hex => ?_
    obtain ⟨q, hq, hs⟩ := hex
    rw [mem_singleton.mp hq, hp] at hs
    cases hs

theorem Ok.tick (h : s.Ok) (cpu : ℕ) : (s.tick cpu).Ok := by
  have hok : Ok { s with ticks := update s.ticks cpu (s.ticks cpu + 1) } :=
    ⟨h.placed.of_eq rfl rfl rfl rfl, h.traced, h.awake⟩
  exact hok.pass (show s.inProgress = [] ++ [] ++ s.inProgress from rfl) rfl
    fun _ hq => absurd hq not_mem_nil

end Tick

/-! ## The server -/

theorem Ok.fetch (h : s.Ok) (hserver : s.server = .fetch) {rest : List Id}
    (hp : s.pending = t :: rest) :
    Ok { s.modify t fun c => { c with state := .inactive } with
      pending := rest
      server := .call t (s.timer t).routine (s.timer t).userData
      history := s.history ++ [.taken t] } := by
  have hnodup := h.placed.pending_nodup
  rw [hp, nodup_cons] at hnodup
  have hs : (s.timer t).state = .pending := by rw [← h.placed.pending, hp]; exact mem_cons_self
  have hnot : t ∉ s.carried := by intro hm; rw [h.placed.carried t hm] at hs; cases hs
  set s1 : TimerServer := { s.modify t fun c => { c with state := .inactive } with
    pending := rest
    server := .call t (s.timer t).routine (s.timer t).userData
    history := s.history ++ [.taken t] }
  have htimer : s1.timer t = { s.timer t with state := .inactive } := update_self t _ _
  have hmoved : Moved s s1 t := by
    refine ⟨fun u hu => update_of_ne hu _ _, fun _ _ _ _ => Iff.rfl, h.placed.tree_nodup, ?_,
      hnodup.2, fun _ _ => Iff.rfl, h.placed.carried_nodup⟩
    intro u hu
    rw [hp, mem_cons]
    exact ⟨.inr, fun hm => hm.resolve_left hu⟩
  refine ⟨h.placed.moved hmoved ?_ ?_ (fun hm => absurd hm hnot) ?_, h.append ?_,
    fun hr => ServerPoint.noConfusion hr⟩
  · intro cpu index
    rw [htimer]
    refine (h.placed.tree cpu index t).trans ?_
    simp [hs]
  · rw [htimer]; simpa using hnodup.1
  · rw [htimer]
    exact fun _ => h.placed.used t (.inl (by rw [hs]; exact WatchdogState.noConfusion))
  · have hphase := hmoved.phase
    rw [phase_of_idle (s := s1) (by rw [htimer]) hnot] at hphase
    refine run_singleton _ ?_
    simp only [TimerSpec.step, spec, hand, hserver, phase_of_pending hs, ← hphase]
    rfl

theorem Ok.body (h : s.Ok) (hs : s.body = some s') : s'.Ok := by
  rw [TimerServer.body] at hs
  cases hserver : s.server with
  | receive =>
    simp only [hserver] at hs
    split_ifs at hs
    cases hs
    refine ⟨h.placed.of_eq rfl rfl rfl rfl, ?_, fun hr => ServerPoint.noConfusion hr⟩
    have htraced := h.traced
    rw [spec, hand, hserver] at htraced
    exact htraced
  | call t routine userData =>
    simp only [hserver] at hs
    cases hs
    refine ⟨h.placed.of_eq rfl rfl rfl rfl, h.append ?_, fun hr => ServerPoint.noConfusion hr⟩
    rw [spec, hand, hserver]
    exact run_singleton _ (if_pos rfl)
  | fetch =>
    simp only [hserver] at hs
    split at hs
    next hnil =>
      cases hs
      refine ⟨h.placed.of_eq rfl rfl rfl rfl, ?_, fun _ hne => absurd hnil hne⟩
      have htraced := h.traced
      rw [spec, hand, hserver] at htraced
      exact htraced
    next t rest hp =>
      cases hs; exact h.fetch hserver hp

theorem Ok.step (h : s.Ok) {a : TimerAction} (hp : s.Prudent a) (hs : s.step a = some s') :
    s'.Ok := by
  cases a with
  | create t cpu => exact h.create hs
  | serverFireAfter t ticks routine userData =>
    cases hs; exact h.serverFireAfter hp ticks routine userData
  | serverFireWhen t wallTime routine userData =>
    cases hs; exact h.serverFireWhen hp wallTime routine userData
  | reset t => cases hs; exact h.reset hp
  | cancel t => cases hs; exact h.cancel hp
  | delete t => cases hs; exact h.delete hp
  | setClock clock => cases hs; exact ⟨h.placed.of_eq rfl rfl rfl rfl, h.traced, h.awake⟩
  | tick cpu => cases hs; exact h.tick cpu
  | interrupt i =>
    obtain ⟨p, hi, rfl⟩ := Option.map_eq_some_iff.mp hs
    refine h.proceed ?_
    obtain ⟨hlt, rfl⟩ := List.getElem?_eq_some_iff.mp hi
    rw [append_assoc, singleton_append, getElem_cons_drop, take_append_drop]
  | server => exact h.body hs

/-! ## The work of the server -/

/-- What a clock tick still has to do for the timer it carries. -/
def TickPoint.work : TickPoint → ℕ
  | .adaptor _ => 6
  | .send => 3
  | _ => 0

/-- How many steps the server still has to make, at most. -/
def serverWork (s : TimerServer) : ℕ :=
  2 * s.pending.length + (if s.event then 2 else 0) +
    match s.server with
    | .fetch => 1
    | .call _ _ _ => 2
    | .receive => 0

/-- How many steps the adaptor and the server still have to make, at most. -/
def work (s : TimerServer) : ℕ :=
  (s.inProgress.map fun p => TickPoint.work p.point).sum + s.serverWork

def Serves (s : TimerServer) : TimerAction → Prop
  | .server => True
  | .interrupt i => ∃ p, s.inProgress[i]? = some p ∧ (p.point = .send ∨ ∃ t, p.point = .adaptor t)
  | _ => False

theorem work_body (hs : s.body = some s') : s'.work < s.work := by
  rw [body] at hs
  split at hs
  next hserver =>
    split at hs
    next hp =>
      cases hs; simp [work, serverWork, hserver]
    next t rest hp =>
      cases hs
      simp [work, serverWork, hserver, hp, modify]
      omega
  next hserver =>
    cases hs; simp [work, serverWork, hserver]
  next hserver =>
    split_ifs at hs with he
    cases hs
    simp [work, serverWork, hserver, he]

theorem work_proceed {l1 l2 : List TimerTick} {p : TimerTick}
    (hsplit : s.inProgress = l1 ++ [p] ++ l2) (hp : p.point = .send ∨ ∃ t, p.point = .adaptor t) :
    work { (s.proceed p).1 with inProgress := l1 ++ (s.proceed p).2 ++ l2 } < s.work := by
  generalize hs : ({ (s.proceed p).1 with
    inProgress := l1 ++ (s.proceed p).2 ++ l2 } : TimerServer) = s'
  have hsplit' : s'.inProgress = l1 ++ (s.proceed p).2 ++ l2 := by rw [← hs]
  rw [work, work, hsplit, hsplit']
  simp only [map_append, sum_append]
  rcases hp with hp | ⟨t, hp⟩
  · have hold : ([p].map fun p => TickPoint.work p.point).sum = 3 := by simp [hp, TickPoint.work]
    have hnew : ((s.proceed p).2.map fun p => TickPoint.work p.point).sum = 0 := by
      simp [proceed, hp, TickPoint.work]
    have hserver : s'.serverWork ≤ s.serverWork + 2 := by
      rw [← hs]; simp only [proceed, hp, serverWork, if_true]; omega
    omega
  · have hold : ([p].map fun p => TickPoint.work p.point).sum = 6 := by simp [hp, TickPoint.work]
    have hnew : ((s.proceed p).2.map fun p => TickPoint.work p.point).sum ≤ 3 := by
      simp only [proceed, hp, routineAdaptor, map_cons, map_nil, sum_cons, sum_nil]
      split_ifs
      · exact Nat.le_refl 3
      · exact Nat.zero_le 3
    have hserver : s'.serverWork = s.serverWork + 2 := by
      rw [← hs]
      simp only [proceed, hp, serverWork, routineAdaptor, modify, length_append, length_cons,
        length_nil]
      omega
    omega

theorem work_step {a : TimerAction} (ha : s.Serves a) (hs : s.step a = some s') :
    s'.work < s.work := by
  cases a with
  | server => exact work_body hs
  | interrupt i =>
    obtain ⟨p, hi, hp⟩ := ha
    rw [step, hi, Option.map_some] at hs
    cases hs
    refine work_proceed ?_ hp
    obtain ⟨hlt, rfl⟩ := List.getElem?_eq_some_iff.mp hi
    rw [append_assoc, singleton_append, getElem_cons_drop, take_append_drop]
  | _ => exact ha.elim

theorem length_le_work {as : List TimerAction} (ha : Along step Serves s as)
    (hr : run step s as = some s') : as.length ≤ s.work := by
  induction as generalizing s with
  | nil => exact Nat.zero_le _
  | cons a as ih =>
    obtain ⟨s1, hs, hrest⟩ := (run_cons_eq_some _).mp hr
    have hlt := work_step ha.1 hs
    have hle := ih (ha.2 s1 hs) hrest
    rw [length_cons]
    omega

def Settled (s : TimerServer) : Prop := ∀ a, s.Serves a → s.step a = none

theorem Ok.settled (h : s.Ok) (hs : s.Settled) :
    s.pending = [] ∧ s.carried = [] ∧ s.hand = none := by
  have hnone : ∀ p ∈ s.inProgress, ¬ (p.point = .send ∨ ∃ t, p.point = .adaptor t) := by
    intro p hp hpoint
    obtain ⟨i, hlt, rfl⟩ := getElem_of_mem hp
    have hi : s.inProgress[i]? = some s.inProgress[i] := getElem?_eq_getElem hlt
    have hn := hs (.interrupt i) ⟨_, hi, hpoint⟩
    rw [TimerServer.step, hi] at hn
    cases hn
  have hserver : s.server = .receive ∧ s.event = false := by
    have hn : s.body = none := hs .server trivial
    rw [TimerServer.body] at hn
    split at hn
    next =>
      split at hn
      next => cases hn
      next => cases hn
    next => cases hn
    next hserver =>
      refine ⟨hserver, Bool.eq_false_iff.mpr fun he => ?_⟩
      rw [if_pos he] at hn
      cases hn
  refine ⟨?_, ?_, ?_⟩
  · by_contra hne
    rcases h.awake hserver.1 hne with he | ⟨p, hp, hsend⟩
    · rw [hserver.2] at he; cases he
    · exact hnone p hp (.inl hsend)
  · rw [carried, filterMap_eq_nil_iff]
    intro p hp
    rw [TimerTick.carried]
    split
    next t ht => exact absurd (.inr ⟨t, ht⟩) (hnone p hp)
    next => rfl
  · rw [hand, hserver.1]

/-! ## The main results -/

theorem ok_initial (cpu : Id → ℕ) : (initial cpu).Ok := by
  refine ⟨⟨?_, fun _ _ => nodup_nil, ?_, nodup_nil, ?_, nodup_nil, ?_⟩, rfl,
    fun hr => ServerPoint.noConfusion hr⟩
  · simp [initial]
  · simp [initial]
  · simp [initial, carried]
  · simp [initial, carried]

/-- **Timers run once per expiration and never after a cancel.** -/
theorem runs_once {cpu : Id → ℕ} {as : List TimerAction} (hp : Along step Prudent (initial cpu) as)
    (hr : run step (initial cpu) as = some s) :
    (∀ t, (∀ c i, t ∈ s.tree c i ↔ (s.timer t).state = .scheduled ∧ (s.timer t).cpu = c ∧
        (s.timer t).theClass.headerIndex = i) ∧
      (t ∈ s.pending ↔ (s.timer t).state = .pending)) ∧
    (∀ c i, (s.tree c i).Nodup) ∧ s.pending.Nodup ∧
    (∃ a, run TimerSpec.step .initial s.history = some a ∧
      (∀ t, (∃ routine userData, a.phase t = .due routine userData) ↔
        t ∈ s.pending ∨ t ∈ s.carried) ∧
      (s.Settled → (∀ t routine userData, a.phase t ≠ .due routine userData) ∧ a.hand = none)) ∧
    (∀ bs s', Along step Serves s bs → run step s bs = some s' → bs.length ≤ s.work) ∧
    (s.server = .receive → s.pending ≠ [] →
      s.event = true ∨ ∃ p ∈ s.inProgress, p.point = .send) := by
  have h : s.Ok := run_invariant_along step
    (fun _ _ _ h hp hs => h.step hp hs) (ok_initial cpu) hp hr
  have hdue : ∀ t, (∃ routine userData, s.phase t = .due routine userData) ↔
      t ∈ s.pending ∨ t ∈ s.carried := by
    intro t
    rw [h.placed.pending]
    cases hs : (s.timer t).state with
    | scheduled =>
      have hnot : t ∉ s.carried := by intro hm; rw [h.placed.carried t hm] at hs; cases hs
      simp [phase_of_scheduled hs, hnot]
    | pending => simp [phase_of_pending hs]
    | inactive =>
      by_cases hc : t ∈ s.carried
      · simp [phase_of_carried hs hc, hc]
      · simp [phase_of_idle hs hc, hc]
  refine ⟨fun t => ⟨fun c i => h.placed.tree c i t, h.placed.pending t⟩, h.placed.tree_nodup,
    h.placed.pending_nodup, ⟨s.spec, h.traced, hdue, ?_⟩, fun _ _ => length_le_work, h.awake⟩
  intro hsettled
  obtain ⟨hpending, hcarried, hhand⟩ := h.settled hsettled
  refine ⟨fun t routine userData ht => ?_, hhand⟩
  have hm := (hdue t).mp ⟨routine, userData, ht⟩
  rw [hpending, hcarried] at hm
  simp at hm

theorem runs_once_two : ∃ s : TimerServer,
    s.history = [.cancelled 1, .fired 1 7 9, .expired 1, .taken 1, .called 1 7 9, .cancelled 1,
      .fired 1 7 5, .expired 1, .cancelled 1] ∧
    (∃ a, run TimerSpec.step .initial s.history = some a ∧
      ∀ t routine userData, a.phase t ≠ .due routine userData) := by
  let as : List TimerAction := [.create 1 0, .serverFireAfter 1 1 7 9, .server, .tick 0,
    .interrupt 0, .interrupt 0, .server, .server, .server, .serverFireAfter 1 1 7 5, .tick 0,
    .interrupt 0, .cancel 1]
  have hp : Along step Prudent (initial fun _ => 0) as := along_of_decide _ (by decide +kernel)
  obtain ⟨s, hr, hpending, hcarried, hhistory⟩ := exists_of_any
      (o := run step (initial fun _ => 0) as)
      (P := fun s => s.pending = [] ∧ s.carried = [] ∧ s.history = [.cancelled 1, .fired 1 7 9,
          .expired 1, .taken 1, .called 1 7 9, .cancelled 1, .fired 1 7 5, .expired 1, .cancelled
          1]) (by decide +kernel)
  obtain ⟨-, -, -, ⟨a, ha, hdue, -⟩, -, -⟩ := runs_once hp hr
  refine ⟨s, hhistory, a, ha, fun t routine userData ht => ?_⟩
  have hm := (hdue t).mp ⟨routine, userData, ht⟩
  rw [hpending, hcarried] at hm
  simp at hm

/-- **A cancelled timer is called**, if a tick has it between tree and chain. -/
theorem exists_cancelled_call : (∃ s as, run step (initial fun _ => 0) as = some s ∧
      s.history = [.cancelled 1, .fired 1 7 9, .expired 1, .cancelled 1, .taken 1, .called 1 7 9] ∧
      (run TimerSpec.step .initial s.history).isNone = true) ∧
    (∃ s as, run step (initial fun _ => 0) as = some s ∧
      1 ∈ s.tree 0 .relative ∧ 1 ∈ s.pending ∧ (s.timer 1).state = .pending) := by
  constructor
  · refine ⟨_, [.create 1 0, .serverFireAfter 1 1 7 9, .tick 0, .cancel 1, .interrupt 0,
      .interrupt 0, .server, .server], rfl, rfl, rfl⟩
  · refine ⟨_, [.create 1 0, .serverFireAfter 1 1 7 9, .tick 0, .reset 1, .interrupt 0], rfl, ?_⟩
    decide +kernel

end TimerServer

end Rtems
