import Rtems.Fts.Model

/-!
# Rate-monotonic periods

The period manager with the calls to the fault-tolerance manager that were added to it:
`ratemoncreate.c`, `ratemondelete.c`, `ratemoncancel.c`, `ratemonperiod.c`, `ratemontimeout.c`.

A directive is cut where it gives up its lock. `rtems_rate_monotonic_period` leaves its thread
`compensating` (the lock is released, `fts_compensate_t` is to be called) or `intending` to block;
`compensate` and `block` are the rest of the call. The timeout runs as one step, in an interrupt.
What happens to the periods is recorded in `trace`, newest first.

* `Sys`, `rtemsRateMonotonicPeriod`, `rateMonotonicTimeout` and so on: the directives;
* `Action`, `step`: the system as a machine, `Boot`: where it starts.
-/

namespace Rtems

/-- `rtems_rate_monotonic_period_states`. -/
inductive PeriodState
  | inactive
  | active
  | expired
  deriving DecidableEq, Inhabited

inductive StatusCode
  | successful
  | invalidName
  | invalidAddress
  | invalidId
  | invalidNumber
  | tooMany
  | timeout
  | notDefined
  | notOwnerOfResource
  deriving DecidableEq

/-- `Rate_monotonic_Statistics`; a timestamp is a number of nanoseconds. -/
structure Statistics where
  count : ℕ
  missedCount : ℕ
  minCpuTime : ℤ
  maxCpuTime : ℤ
  totalCpuTime : ℤ
  minWallTime : ℤ
  maxWallTime : ℤ
  totalWallTime : ℤ
  deriving DecidableEq, Inhabited

def resetMinTime : ℤ := 0x7fffffff * 10 ^ 9 + 0x7fffffff

def resetStatistics : Statistics where
  count := 0
  missedCount := 0
  minCpuTime := resetMinTime
  maxCpuTime := 0
  totalCpuTime := 0
  minWallTime := resetMinTime
  maxWallTime := 0
  totalWallTime := 0

structure Clock where
  ticks : ℕ
  uptime : ℤ
  cpuTimeUsed : Thread → ℤ

/-- The clocks after `n` ticks, in which no thread has run. -/
def Clock.tick (n : ℕ) : Clock where
  ticks := n
  uptime := n
  cpuTimeUsed _ := 0

/-- `Rate_monotonic_Control`. The timer holds its deadline while it is armed. -/
structure RateMonotonicControl where
  owner : Thread
  state : PeriodState
  timer : Option ℕ
  latestDeadline : ℕ
  nextLength : ℕ
  postponedJobs : ℕ
  timePeriodInitiated : ℤ
  cpuUsagePeriodInitiated : ℤ
  statistics : Statistics
  deriving DecidableEq, Inhabited

namespace RateMonotonicControl

/-- What a create directive writes into a control block, of which it keeps the rest. -/
def initBlock (old : RateMonotonicControl) (executing : Thread) : RateMonotonicControl :=
  { old with
    owner := executing
    state := .inactive
    timer := none
    statistics := resetStatistics }

/-- `_Rate_monotonic_Get_status`: the wall and CPU time since the initiation. -/
def getStatus (p : RateMonotonicControl) (clk : Clock) : Option (ℤ × ℤ) :=
  let used := clk.cpuTimeUsed p.owner
  if used < p.cpuUsagePeriodInitiated then none
  else some (clk.uptime - p.timePeriodInitiated, used - p.cpuUsagePeriodInitiated)

/-- The counts of `_Rate_monotonic_Update_statistics`. -/
def countPeriod (p : RateMonotonicControl) : Statistics :=
  { p.statistics with
    count := (p.statistics.count + 1) % 2 ^ 32
    missedCount :=
      if p.state = .expired then (p.statistics.missedCount + 1) % 2 ^ 32
      else p.statistics.missedCount }

def updateStatistics (p : RateMonotonicControl) (clk : Clock) : RateMonotonicControl :=
  let stats := p.countPeriod
  { p with statistics :=
    match p.getStatus clk with
    | none => stats
    | some (sinceLastPeriod, executed) =>
      { stats with
        totalCpuTime := stats.totalCpuTime + executed
        minCpuTime := min executed stats.minCpuTime
        maxCpuTime := max executed stats.maxCpuTime
        totalWallTime := stats.totalWallTime + sinceLastPeriod
        minWallTime := min sinceLastPeriod stats.minWallTime
        maxWallTime := max sinceLastPeriod stats.maxWallTime } }

def statusForState : PeriodState → StatusCode
  | .inactive => .notDefined
  | .expired => .timeout
  | .active => .successful

/-- `_Rate_monotonic_Restart`, which arms the timer in `_Rate_monotonic_Release_job`. -/
def restart (p : RateMonotonicControl) (clk : Clock) : RateMonotonicControl :=
  { p with
    timePeriodInitiated := clk.uptime
    cpuUsagePeriodInitiated := clk.cpuTimeUsed p.owner
    timer := some (clk.ticks + p.nextLength) }

def activate (p : RateMonotonicControl) (length : ℕ) (clk : Clock) : RateMonotonicControl :=
  { p with postponedJobs := 0, state := .active, nextLength := length }.restart clk

def blockWhileActive (p : RateMonotonicControl) (length : ℕ) (clk : Clock) :
    RateMonotonicControl :=
  { p.updateStatistics clk with nextLength := length }

def releasePostponedJob (p : RateMonotonicControl) : RateMonotonicControl :=
  { p with postponedJobs := (p.postponedJobs + (2 ^ 32 - 1)) % 2 ^ 32 }

def blockWhileExpired (p : RateMonotonicControl) (length : ℕ) (clk : Clock) :
    RateMonotonicControl :=
  let p := { p with state := .expired }.updateStatistics clk
  { p with state := .active, nextLength := length }.releasePostponedJob

def renewDeadline (p : RateMonotonicControl) (clk : Clock) : RateMonotonicControl :=
  let deadline := clk.ticks + p.nextLength
  { p with
    postponedJobs :=
      if p.postponedJobs ≠ 2 ^ 32 - 1 then p.postponedJobs + 1 else p.postponedJobs
    state := .expired
    timer := some deadline
    latestDeadline := deadline }

def cancel (p : RateMonotonicControl) : RateMonotonicControl :=
  { p with timer := none, state := .inactive }

end RateMonotonicControl

/-- The wait flags of class `THREAD_WAIT_CLASS_PERIOD`; `none` is any other class. -/
inductive WaitFlags
  | none
  | intendToBlock
  | blocked
  | readyAgain
  deriving DecidableEq

/-- Where a thread is in `rtems_rate_monotonic_period`. -/
inductive Pc
  | user
  /-- A job of `id` is released, `fts_compensate_t` is to be called. -/
  | compensating (id : Id)
  /-- In `_Rate_monotonic_Block_while_active`, before the change to `RATE_MONOTONIC_BLOCKED`. -/
  | intending (id : Id)
  | blocked (id : Id)
  deriving DecidableEq

/-- `Thread_Control` for the period manager; `Wait.return_argument` is an id. -/
structure ThreadControl where
  waitFlags : WaitFlags
  returnArgument : Option Id
  pc : Pc
  deriving DecidableEq

inductive Event
  | activated (id : Id)
  /-- The timer of `id` expired. -/
  | expired (id : Id)
  /-- It expired when `postponed_jobs` could not count it. -/
  | saturated (id : Id)
  /-- A job is released by `_Rate_monotonic_Timeout` through `_Rate_monotonic_Restart`. -/
  | restarted (id : Id)
  /-- A job is released by `_Rate_monotonic_Release_postponed_job`; `before` is `postponed_jobs`. -/
  | postponedReleased (id : Id) (before : ℕ)
  /-- `fts_compensate_t` is called for a released job, by a thread or by the timeout. -/
  | compensated (id : Id) (caller : Option Thread)
  /-- `rtems_rate_monotonic_create_fts` succeeds. -/
  | createdFts (id : Id)
  | deleted (id : Id)
  deriving DecidableEq

structure Sys where
  fts : Fts
  periods : Objects RateMonotonicControl
  threads : Thread → ThreadControl
  clock : Clock
  trace : List Event

/-- The arguments of `rtems_rate_monotonic_create_fts`; `id` says if the pointer is given. -/
structure CreateFts where
  name : ℕ
  id : Bool
  m : UInt8
  k : UInt8
  tech : FtsTech
  patternS : PatternSpecs
  versions : TaskVersions
  specs : TaskUserSpecs
  deriving DecidableEq

/-- The registration that `rtems_rate_monotonic_create_fts` makes. -/
def CreateFts.request (c : CreateFts) (x : Id) : Request where
  id := x
  m := c.m.toUInt16
  k := c.k.toUInt16
  tech := c.tech
  patternS := c.patternS
  versions := c.versions
  specs := c.specs

theorem CreateFts.request_mod (c : CreateFts) (x : Id) :
    (c.request x).m.toNat % 2 ^ 8 = c.m.toNat ∧ (c.request x).k.toNat % 2 ^ 8 = c.k.toNat := by
  simp only [request, UInt8.toNat_toUInt16]
  exact ⟨Nat.mod_eq_of_lt c.m.toNat_lt, Nat.mod_eq_of_lt c.k.toNat_lt⟩

theorem CreateFts.request_le (c : CreateFts) (x : Id) :
    (c.request x).m ≤ (c.request x).k ↔ c.m.toNat ≤ c.k.toNat := by
  simp [request, UInt16.le_iff_toNat_le]

/-- The arguments for a `(1, 2)` R-pattern, the byte `0x7f` at `addr`. -/
def CreateFts.oneOfTwo (addr : ℕ) (tech : FtsTech) : CreateFts where
  name := 1
  id := true
  m := 1
  k := 2
  tech := tech
  patternS := { pattern := .rPattern, patternStart := addr, patternEnd := addr, maxBitpos := 1 }
  versions := { b := 1, d := 2, c := 3 }
  specs := { initialPriority := 1, stackSize := 1, initialModes := 0, attributeSet := 0 }

/-- A call of the fault-tolerance manager from outside the period manager. -/
def Call.external : Call → Bool
  | .compensate caller _ _ => caller == .direct
  | .periodBegin _ => false
  | _ => true

/-- What can happen. A thread acts only outside of `rtems_rate_monotonic_period`. -/
inductive Action
  | create (t : Thread) (name : ℕ) (id : Bool) (old : RateMonotonicControl)
  | createFts (t : Thread) (c : CreateFts) (old : RateMonotonicControl)
  | delete (id : Id)
  | cancel (t : Thread) (id : Id)
  | period (t : Thread) (id : Id) (length : ℕ)
  | compensate (t : Thread) (g : Grant)
  | block (t : Thread)
  | timeout (id : Id) (g : Grant)
  | call (c : Call)
  /-- Time passes. -/
  | wait (clk : Clock)

namespace Sys

def note (s : Sys) (e : Event) : Sys := { s with trace := e :: s.trace }

def setPeriod (s : Sys) (id : Id) (p : RateMonotonicControl) : Sys :=
  { s with periods := s.periods.put id p }

def setThread (s : Sys) (t : Thread) (th : ThreadControl) : Sys :=
  { s with threads := Function.update s.threads t th }

def setPc (s : Sys) (t : Thread) (pc : Pc) : Sys := s.setThread t { s.threads t with pc := pc }

section Fields

variable (s : Sys) (id : Id) (p : RateMonotonicControl) (t : Thread) (th : ThreadControl) (pc : Pc)
  (e : Event)

@[simp] theorem note_fts : (s.note e).fts = s.fts := rfl
@[simp] theorem note_periods : (s.note e).periods = s.periods := rfl
@[simp] theorem note_threads : (s.note e).threads = s.threads := rfl
@[simp] theorem note_trace : (s.note e).trace = e :: s.trace := rfl
@[simp] theorem setPeriod_fts : (s.setPeriod id p).fts = s.fts := rfl
@[simp] theorem setPeriod_trace : (s.setPeriod id p).trace = s.trace := rfl
@[simp] theorem setThread_fts : (s.setThread t th).fts = s.fts := rfl
@[simp] theorem setThread_threads :
    (s.setThread t th).threads = Function.update s.threads t th := rfl
@[simp] theorem setPc_fts : (s.setPc t pc).fts = s.fts := rfl
@[simp] theorem setPc_threads :
    (s.setPc t pc).threads = Function.update s.threads t { s.threads t with pc := pc } := rfl
@[simp] theorem setPc_trace : (s.setPc t pc).trace = s.trace := rfl

end Fields

/-! ## Directives -/

def rtemsRateMonotonicCreate (s : Sys) (t : Thread) (name : ℕ) (id : Bool)
    (old : RateMonotonicControl) : StatusCode × Sys :=
  if name = 0 then (.invalidName, s)
  else if id = false then (.invalidAddress, s)
  else match s.periods.allocate (old.initBlock t) with
    | none => (.tooMany, s)
    | some (_, periods) => (.successful, { s with periods := periods })

def rtemsRateMonotonicCreateFts (s : Sys) (t : Thread) (c : CreateFts)
    (old : RateMonotonicControl) : Option (StatusCode × Sys) :=
  if c.name = 0 then some (.invalidName, s)
  else if c.id = false then some (.invalidAddress, s)
  else match s.periods.allocate (old.initBlock t) with
    | none => some (.tooMany, s)
    | some (x, periods) => do
      let (reg, fts) ← s.fts.ftsRtemsTaskRegister (c.request x)
      let s := { s with periods := periods, fts := fts }
      if reg = 0 then some (.invalidNumber, s)
      else some (.successful, s.note (.createdFts x))

def rtemsRateMonotonicDelete (s : Sys) (id : Id) : StatusCode × Sys :=
  match s.periods.live id with
  | some _ => (.successful, { s with periods := s.periods.close id }.note (.deleted id))
  | none => (.invalidId, s)

def rtemsRateMonotonicCancel (s : Sys) (t : Thread) (id : Id) : StatusCode × Sys :=
  match s.periods.live id with
  | none => (.invalidId, s)
  | some p =>
    if t ≠ p.owner then (.notOwnerOfResource, s)
    else (.successful, s.setPeriod id p.cancel)

/-- The branch `RATE_MONOTONIC_INACTIVE` of `rtems_rate_monotonic_period`. -/
def activate (s : Sys) (t : Thread) (id : Id) (p : RateMonotonicControl) (length : ℕ) : Sys :=
  ((s.setPeriod id (p.activate length s.clock)).setPc t (.compensating id)).note (.activated id)

/-- The branch `RATE_MONOTONIC_ACTIVE` without postponed jobs. -/
def blockWhileActive (s : Sys) (t : Thread) (id : Id) (p : RateMonotonicControl) (length : ℕ) :
    Sys :=
  (s.setPeriod id (p.blockWhileActive length s.clock)).setThread t
    { waitFlags := .intendToBlock, returnArgument := some id, pc := .intending id }

/-- The branch for a period with postponed jobs. -/
def blockWhileExpired (s : Sys) (t : Thread) (id : Id) (p : RateMonotonicControl) (length : ℕ) :
    Sys :=
  ((s.setPeriod id (p.blockWhileExpired length s.clock)).setPc t (.compensating id)).note
    (.postponedReleased id p.postponedJobs)

/-- `rtems_rate_monotonic_period`, up to the release of its lock. -/
def rtemsRateMonotonicPeriod (s : Sys) (t : Thread) (id : Id) (length : ℕ) :
    Option (StatusCode × Sys) :=
  match s.periods.live id with
  | none => some (.invalidId, s)
  | some p => do
    let fts ← s.fts.periodBegin id
    let s := { s with fts := fts }
    if t ≠ p.owner then some (.notOwnerOfResource, s)
    else if length = 0 then some (RateMonotonicControl.statusForState p.state, s)
    else match p.state with
      | .active =>
        if p.postponedJobs > 0 then some (.timeout, s.blockWhileExpired t id p length)
        else some (.successful, s.blockWhileActive t id p length)
      | .inactive => some (.successful, s.activate t id p length)
      | .expired => some (.timeout, s.blockWhileExpired t id p length)

/-- The rest of a call that released a job: `fts_compensate_t`. -/
def compensate (s : Sys) (t : Thread) (g : Grant) : Option Sys :=
  match (s.threads t).pc with
  | .compensating id => do
    let (_, fts) ← s.fts.ftsCompensate .release id g
    some (({ s with fts := fts }.setPc t .user).note (.compensated id (some t)))
  | _ => none

/-- The rest of `_Rate_monotonic_Block_while_active`, after the lock is released. -/
def block (s : Sys) (t : Thread) : Option Sys :=
  let th := s.threads t
  match th.pc with
  | .intending id =>
    if th.waitFlags = .intendToBlock then
      some (s.setThread t { th with waitFlags := .blocked, pc := .blocked id })
    else some (s.setPc t .user)
  | _ => none

/-- The owner of `p`, the period of `id`, waits for it or is about to. -/
def Waiting (s : Sys) (id : Id) (p : RateMonotonicControl) : Prop :=
  (s.threads p.owner).waitFlags ≠ .none ∧ (s.threads p.owner).returnArgument = some id

instance (s : Sys) (id : Id) (p : RateMonotonicControl) : Decidable (s.Waiting id p) := by
  unfold Waiting
  infer_instance

/-- The branch of `_Rate_monotonic_Timeout` for an owner that waits. -/
def timeoutRestart (s : Sys) (id : Id) (p : RateMonotonicControl) (g : Grant) : Option Sys := do
  let th := s.threads p.owner
  let s := s.setThread p.owner
    { waitFlags := .readyAgain
      returnArgument := none
      pc := if th.waitFlags = .intendToBlock then th.pc else .user }
  let s := (s.setPeriod id (p.restart s.clock)).note (.restarted id)
  let (_, fts) ← s.fts.ftsCompensate .release id g
  some ({ s with fts := fts }.note (.compensated id none))

/-- `_Rate_monotonic_Timeout`, when the timer of `id` expires. -/
def rateMonotonicTimeout (s : Sys) (id : Id) (g : Grant) : Option Sys :=
  match s.periods.live id with
  | none => none
  | some p =>
    match p.timer with
    | none => none
    | some deadline =>
      if deadline ≤ s.clock.ticks then
        let s := s.note (.expired id)
        if s.Waiting id p then s.timeoutRestart id p g
        else
          let s := if p.postponedJobs = 2 ^ 32 - 1 then s.note (.saturated id) else s
          some (s.setPeriod id (p.renewDeadline s.clock))
      else none

/-! ## The system as a machine -/

def step (s : Sys) : Action → Option Sys
  | .create t name id old =>
    if (s.threads t).pc = .user then some (s.rtemsRateMonotonicCreate t name id old).2 else none
  | .createFts t c old =>
    if (s.threads t).pc = .user then (s.rtemsRateMonotonicCreateFts t c old).map Prod.snd else none
  | .delete id => some (s.rtemsRateMonotonicDelete id).2
  | .cancel t id =>
    if (s.threads t).pc = .user then some (s.rtemsRateMonotonicCancel t id).2 else none
  | .period t id length =>
    if (s.threads t).pc = .user then (s.rtemsRateMonotonicPeriod t id length).map Prod.snd else none
  | .compensate t g => s.compensate t g
  | .block t => s.block t
  | .timeout id g => s.rateMonotonicTimeout id g
  | .call c => if c.external then (s.fts.step c).map fun fts => { s with fts := fts } else none
  | .wait clk =>
    if s.clock.ticks ≤ clk.ticks ∧ s.clock.uptime ≤ clk.uptime then some { s with clock := clk }
    else none

/-- A started system: no period, no version task, all threads outside. -/
structure Boot (s : Sys) : Prop where
  fts : s.fts = Fts.boot s.fts.mem s.fts.tasks
  tasks : ∀ x t, s.fts.tasks.live x ≠ some (.version t)
  periods : ∀ x, s.periods.live x = none
  threads : ∀ t, s.threads t = { waitFlags := .none, returnArgument := none, pc := .user }
  trace : s.trace = []

/-- A started system with so many task and period objects. -/
def initial (nTasks nPeriods : ℕ) : Sys where
  fts := Fts.boot (fun _ => 0) (Objects.initial nTasks)
  periods := Objects.initial nPeriods
  threads _ := { waitFlags := .none, returnArgument := none, pc := .user }
  clock := { ticks := 0, uptime := 0, cpuTimeUsed := fun _ => 0 }
  trace := []

theorem initial_boot (nTasks nPeriods : ℕ) : Boot (initial nTasks nPeriods) where
  fts := rfl
  tasks x t := by simp [initial, Fts.boot, Objects.initial]
  periods _ := rfl
  threads _ := rfl
  trace := rfl

/-- Two jobs of period `1`: one released by its owner, one by the timer. -/
def twoJobs (tech : FtsTech) (between : List Action) : List Action :=
  [.createFts 1 (.oneOfTwo 0 tech) default, .period 1 1 5, .compensate 1 .granted] ++ between ++
    [.period 1 1 5, .block 1, .wait (.tick 5), .timeout 1 .granted]

def Reachable (s : Sys) : Prop := ∃ s₀ as, Boot s₀ ∧ PartialRun.run step s₀ as = some s

end Sys

end Rtems
