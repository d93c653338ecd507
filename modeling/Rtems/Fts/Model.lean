import Rtems.Fts.Pattern
import Rtems.Lib.Run
import Rtems.Score.Objects

/-!
# The fault-tolerance manager

The tables of `fts_t.h` and the functions of `fts_t.c`. A C array is a function on `ℕ`; an access
outside its bounds is undefined, and a function that makes one gives `none`. The counters are
`uint16_t`, written as numbers with their wrap-around. What the manager does is recorded in `log`,
newest first, which no function reads.

* `faultDetectionRoutine`, `ftsRtemsTaskRegister`, `ftsCompensate`, `ftsOff`, `ftsChangeTech`;
* `periodBegin`: what `rtems_rate_monotonic_period` does to the tables before its own work;
* `Call`, `step`: the manager as a machine, `boot`: where it starts.
-/

namespace Rtems

open Function

abbrev pTasks : ℕ := 10

abbrev patternPartitions : ℕ := 16

inductive FtsVersion
  | basic
  | detection
  | correction
  deriving DecidableEq

inductive FtsTech
  | none
  | sre
  | sdr
  | dre
  | ddr
  deriving DecidableEq

def FtsTech.dynamic (t : FtsTech) : Bool := t == .dre || t == .ddr

inductive FaultStatus
  | fault
  | noFault
  deriving DecidableEq

/-- `task_versions`; an entry point is its address. -/
structure TaskVersions where
  b : ℕ
  d : ℕ
  c : ℕ
  deriving DecidableEq

structure TaskUserSpecs where
  initialPriority : ℕ
  stackSize : ℕ
  initialModes : ℕ
  attributeSet : ℕ
  deriving DecidableEq

structure PatternSpecs where
  pattern : PatternType
  patternStart : ℕ
  patternEnd : ℕ
  maxBitpos : ℕ
  deriving DecidableEq

/-- The arguments of `fts_rtems_task_register_t`, with the id that `id` points to. -/
structure Request where
  id : Id
  m : UInt16
  k : UInt16
  tech : FtsTech
  patternS : PatternSpecs
  versions : TaskVersions
  specs : TaskUserSpecs
  deriving DecidableEq

/-- The request for a `(1, 2)` R-pattern, the byte `0x7f` at `addr`. -/
def Request.oneOfTwo (id : Id) (addr : ℕ) (tech : FtsTech) : Request where
  id := id
  m := 1
  k := 2
  tech := tech
  patternS := { pattern := .rPattern, patternStart := addr, patternEnd := addr, maxBitpos := 1 }
  versions := { b := 1, d := 2, c := 3 }
  specs := { initialPriority := 1, stackSize := 1, initialModes := 0, attributeSet := 0 }

structure TolCounter where
  tolCounterO : ℕ → ℕ
  tolCounterA : ℕ → ℕ

/-- `struct Task_ID_List`. -/
structure TaskIdList where
  taskListId : ℕ → Id
  m : ℕ → ℕ
  k : ℕ → ℕ
  tech : ℕ → FtsTech
  taskListIndex : ℕ
  pattern : ℕ → PatternType
  patternStart : ℕ → ℕ
  patternEnd : ℕ → ℕ
  currPos : ℕ → ℕ
  bitpos : ℕ → ℕ
  maxBitpos : ℕ → ℕ
  b : ℕ → ℕ
  d : ℕ → ℕ
  c : ℕ → ℕ

def TaskIdList.entry (l : TaskIdList) : FtsVersion → ℕ → ℕ
  | .basic => l.b
  | .detection => l.d
  | .correction => l.c

/-- A task of `release_task`, and whether it has called `fault_detection_routine`. -/
structure VersionTask where
  slot : ℕ
  version : FtsVersion
  entry : ℕ
  specs : TaskUserSpecs
  period : Id
  reported : Bool
  deriving DecidableEq

inductive Task
  | version (t : VersionTask)
  | other
  deriving DecidableEq

/-- Who calls `fts_compensate_t`. -/
inductive Caller
  | release
  | direct
  deriving DecidableEq

inductive Obs
  /-- `id` is accepted by `fts_rtems_task_register_t`. -/
  | registered (id : Id)
  /-- `fts_compensate_t` finds its id in slot `i`, with these ids in `running_id_b/d/c[i]`. -/
  | entered (caller : Caller) (i : ℕ) (b d c : Id)
  /-- `fts_compensate_t` returns a version. -/
  | version (id : Id) (v : FtsVersion)
  /-- `fault_detection_routine` returns; `recovered` when it released a correction version. -/
  | report (id : Id) (fs : FaultStatus) (recovered : Bool)
  /-- `release_task` writes `new` over `old` in the running id of slot `i`. -/
  | recorded (i : ℕ) (v : FtsVersion) (old new : Id)
  /-- A tolerance counter of `id` is decremented from `before`. -/
  | decremented (id : Id) (before : ℕ)
  /-- The start of a period deletes for slot `i` the task that `x` names. -/
  | deleted (i : ℕ) (x : Id) (task : Option Task)
  deriving DecidableEq

structure Fts where
  list : TaskIdList
  /-- `period_pointers`, each given by the id it points to. -/
  periodPointers : ℕ → Id
  /-- `running_id_b`, `running_id_d`, `running_id_c`. -/
  runningId : FtsVersion → ℕ → Id
  tolCounterConst : ℕ → TolCounter
  tolCounterTemp : ℕ → TolCounter
  nrPartitions : ℕ → ℕ
  partitionIndex : ℕ → ℕ
  taskSpecs : ℕ → TaskUserSpecs
  /-- `Task_id[3]`. -/
  taskId : FtsVersion → Id
  mem : Mem
  tasks : Objects Task
  log : List Obs

/-- How `rtems_task_create` ends: with a task, without memory for the stack, or earlier. -/
inductive Grant
  | granted
  | unsatisfied
  | refused
  deriving DecidableEq

inductive Call
  | register (r : Request)
  | off (id : Id)
  | changeTech (id : Id) (tech : FtsTech)
  | compensate (caller : Caller) (id : Id) (g : Grant)
  /-- The detection version `x` calls `fault_detection_routine`, as its last action. -/
  | report (x : Id) (fs : FaultStatus) (g : Grant)
  /-- A call of `rtems_rate_monotonic_period` begins. -/
  | periodBegin (id : Id)
  | taskCreate (g : Grant)
  | taskDelete (x : Id)
  | tasksExtend (ids : List Id)
  | tasksShrink (block : List Id)
  deriving DecidableEq

/-- `rtems_task_create`: the id of the new task, if there is one. -/
def rtemsTaskCreate (o : Objects Task) (c : Task) : Grant → Option Id × Objects Task
  | .granted =>
    match o.killZombies.allocate c with
    | some (x, o') => (some x, o')
    | none => (none, o.killZombies)
  | .unsatisfied => (none, o.killZombies.rotate)
  | .refused => (none, o)

namespace Fts

def note (s : Fts) (o : Obs) : Fts := { s with log := o :: s.log }

/-- Write one entry of `running_id_b`, `running_id_d` or `running_id_c`. -/
def setRunning (s : Fts) (v : FtsVersion) (i : ℕ) (x : Id) : Fts :=
  { s with runningId := update s.runningId v (update (s.runningId v) i x) }

/-- Write one slot of `tol_counter_temp`. -/
def setTemp (s : Fts) (i : ℕ) (c : TolCounter) : Fts :=
  { s with tolCounterTemp := update s.tolCounterTemp i c }

/-- `task_in_list_t`; `none` is `-1`. -/
def taskInList (s : Fts) (id : Id) : Option ℕ :=
  (List.range s.list.taskListIndex).find? fun i => s.list.taskListId i == id

/-- The task that `release_task` creates and starts for slot `i`. -/
def versionTask (s : Fts) (i : ℕ) (v : FtsVersion) : VersionTask where
  slot := i
  version := v
  entry := s.list.entry v i
  specs := s.taskSpecs i
  period := s.periodPointers i
  reported := false

/-- `Task_id` after `release_task`: a creation that fails leaves the last id. -/
def launchId (s : Fts) (i : ℕ) (v : FtsVersion) (g : Grant) : Id :=
  (rtemsTaskCreate s.tasks (.version (s.versionTask i v)) g).1.getD (s.taskId v)

/-- The body of `release_task`. -/
def launch (s : Fts) (i : ℕ) (v : FtsVersion) (g : Grant) : Fts :=
  let x := s.launchId i v g
  ({ s with
    tasks := (rtemsTaskCreate s.tasks (.version (s.versionTask i v)) g).2
    taskId := update s.taskId v x }.setRunning v i x).note
      (.recorded i v (s.runningId v i) x)

def releaseTask (s : Fts) (i : ℕ) (v : FtsVersion) (g : Grant) : Option Fts :=
  if i < pTasks then some (s.launch i v g) else none

/-! ## Tolerance counters -/

/-- The loops of `tol_counter_set` over the bits of the pattern. -/
def tolCounterLoop : List Bool → Bool → ℕ → TolCounter → Option (ℕ × TolCounter)
  | [], _, partition, c => some (partition, c)
  | false :: bits, lastBit, partition, c =>
    let partition := if lastBit then partition + 1 else partition
    if partition < patternPartitions then
      tolCounterLoop bits false partition { c with
        tolCounterO :=
          update c.tolCounterO partition ((c.tolCounterO partition + 1) % 2 ^ 16) }
    else none
  | true :: bits, _, partition, c =>
    if partition < patternPartitions then
      tolCounterLoop bits true partition { c with
        tolCounterA :=
          update c.tolCounterA partition ((c.tolCounterA partition + 1) % 2 ^ 16) }
    else none

def tolCounterSet (s : Fts) (i start stop maxbit : ℕ) : Option Fts := do
  let (partition, c) ←
    tolCounterLoop (patternBits s.mem start stop maxbit) false 0 (s.tolCounterConst i)
  some { s with
    tolCounterConst := update s.tolCounterConst i c
    nrPartitions := update s.nrPartitions i partition }

def tolcUpdate (s : Fts) (i : ℕ) : Option Fts :=
  let nr := s.nrPartitions i
  let const := s.tolCounterConst i
  let temp := s.tolCounterTemp i
  if nr < patternPartitions then
    some { s.setTemp i
        { tolCounterO := fun j => if j ≤ nr then const.tolCounterO j else temp.tolCounterO j
          tolCounterA := fun j => if j ≤ nr then const.tolCounterA j else temp.tolCounterA j } with
      partitionIndex := update s.partitionIndex i 0 }
  else none

/-- `tol_counter_temp[i].tol_counter_o[partition_index[i]]`. -/
def o (s : Fts) (i : ℕ) : ℕ := (s.tolCounterTemp i).tolCounterO (s.partitionIndex i)

/-- `tol_counter_temp[i].tol_counter_a[partition_index[i]]`. -/
def a (s : Fts) (i : ℕ) : ℕ := (s.tolCounterTemp i).tolCounterA (s.partitionIndex i)

def decO (s : Fts) (i : ℕ) (id : Id) : Fts :=
  let c := s.tolCounterTemp i
  (s.setTemp i { c with
    tolCounterO := update c.tolCounterO (s.partitionIndex i)
      ((s.o i + (2 ^ 16 - 1)) % 2 ^ 16) }).note (.decremented id (s.o i))

def decA (s : Fts) (i : ℕ) (id : Id) : Fts :=
  let c := s.tolCounterTemp i
  (s.setTemp i { c with
    tolCounterA := update c.tolCounterA (s.partitionIndex i)
      ((s.a i + (2 ^ 16 - 1)) % 2 ^ 16) }).note (.decremented id (s.a i))

/-- The cases `DRE` and `DDR` of `fault_detection_routine`, which are the same. -/
def tolerateOrRecover (s : Fts) (i : ℕ) (id : Id) (g : Grant) : Option (Bool × Fts) :=
  if s.partitionIndex i < patternPartitions then
    if s.o i > 0 then some (false, s.decO i id)
    else (s.releaseTask i .correction g).map (Prod.mk true)
  else none

/-- The reaction of `fault_detection_routine` at index `i`, and if it is a correction. -/
def reaction (s : Fts) (i : ℕ) (id : Id) (fs : FaultStatus) (g : Grant) : Option (Bool × Fts) :=
  match fs with
  | .noFault => some (false, s)
  | .fault =>
    if i < pTasks then
      match s.list.tech i with
      | .sdr => (s.releaseTask i .correction g).map (Prod.mk true)
      | .dre => s.tolerateOrRecover i id g
      | .ddr => s.tolerateOrRecover i id g
      | .none => some (false, s)
      | .sre => some (false, s)
    else none

/-- `fault_detection_routine`. The index of an unknown id is `(uint16_t) -1`. -/
def faultDetectionRoutine (s : Fts) (id : Id) (fs : FaultStatus) (g : Grant) : Option Fts :=
  (s.reaction ((s.taskInList id).getD 65535) id fs g).map fun r => r.2.note (.report id fs r.1)

/-! ## Choosing a version -/

/-- `static_next_version_t` moves the cursor. -/
def advance (s : Fts) (i : ℕ) : Fts :=
  let l := s.list
  let last := l.patternEnd i = l.currPos i
  { s with list :=
    if l.bitpos i < (if last then l.maxBitpos i else 7) then
      { l with bitpos := update l.bitpos i (l.bitpos i + 1) }
    else
      { l with
        bitpos := update l.bitpos i 0
        currPos := update l.currPos i
          (if last then l.patternStart i else l.currPos i + 1) } }

/-- The version that `static_next_version_t` takes for a bit of the pattern. -/
def staticVersion (tech : FtsTech) (bit : Bool) : FtsVersion :=
  if tech = .sre then if bit then .correction else .basic
  else if bit then .detection else .basic

def staticNextVersion (s : Fts) (i : ℕ) (g : Grant) : Option (FtsVersion × Fts) :=
  if s.list.bitpos i < 32 then
    let bit := bitAt (s.mem (s.list.currPos i)) (s.list.bitpos i)
    let v := staticVersion (s.list.tech i) bit
    ((s.advance i).releaseTask i v g).map (Prod.mk v)
  else none

/-- The version of `dynamic_next_version_t` when no more errors are tolerated. -/
def safeVersion (tech : FtsTech) : FtsVersion := if tech = .dre then .correction else .detection

def dynamicNextVersion (s : Fts) (i : ℕ) (id : Id) (g : Grant) : Option (FtsVersion × Fts) :=
  if s.partitionIndex i < patternPartitions then
    if s.o i > 0 then (s.releaseTask i .detection g).map (Prod.mk .detection)
    else
      let v := safeVersion (s.list.tech i)
      (s.releaseTask i v g).map fun s => (v, s.decA i id)
  else none

/-- `fts_compensate_t` has found its slot. -/
def noteEntry (s : Fts) (caller : Caller) (i : ℕ) : Fts :=
  s.note (.entered caller i (s.runningId .basic i) (s.runningId .detection i)
    (s.runningId .correction i))

/-- The version that `fts_compensate_t` chooses, and its release. -/
def nextVersion (s : Fts) (caller : Caller) (id : Id) (g : Grant) : Option (FtsVersion × Fts) :=
  match s.taskInList id with
  | none => some (.correction, s)
  | some i =>
    if i < pTasks then
      let s := s.noteEntry caller i
      match s.list.tech i with
      | .none => some (.basic, s)
      | .sre => s.staticNextVersion i g
      | .sdr => s.staticNextVersion i g
      | .dre => s.dynamicNextVersion i id g
      | .ddr => s.dynamicNextVersion i id g
    else none

def ftsCompensate (s : Fts) (caller : Caller) (id : Id) (g : Grant) : Option (FtsVersion × Fts) :=
  (s.nextVersion caller id g).map fun r => (r.1, r.2.note (.version id r.1))

/-! ## The task list -/

/-- `fts_rtems_task_register_t` up to the pattern: the fields of the list. -/
def enter (s : Fts) (i : ℕ) (r : Request) : Fts :=
  let l := s.list
  let p := r.patternS
  { s with list :=
    { l with
      taskListId := update l.taskListId i r.id
      m := update l.m i (r.m.toNat % 2 ^ 8)
      k := update l.k i (r.k.toNat % 2 ^ 8)
      tech := update l.tech i r.tech
      pattern := update l.pattern i p.pattern
      patternStart := update l.patternStart i p.patternStart
      patternEnd := update l.patternEnd i p.patternEnd
      currPos := update l.currPos i p.patternStart
      maxBitpos := update l.maxBitpos i p.maxBitpos
      bitpos := update l.bitpos i 0 } }

def setMem (s : Fts) (mem : Mem) : Fts := { s with mem := mem }

def createPatternT (s : Fts) (i : ℕ) : Option Fts := do
  let l := s.list
  let mem ← createPattern (l.pattern i) (l.m i) (l.k i) (l.patternStart i) (l.patternEnd i) s.mem
  some (s.setMem mem)

def setCounters (s : Fts) (i : ℕ) (p : PatternSpecs) : Option Fts :=
  if (s.list.tech i).dynamic then do
    let s ← s.tolCounterSet i p.patternStart p.patternEnd p.maxBitpos
    s.tolcUpdate i
  else some s

/-- `fts_rtems_task_register_t` after the counters. -/
def attach (s : Fts) (i : ℕ) (r : Request) : Fts :=
  let l := s.list
  { s with
    list :=
      { l with
        b := update l.b i r.versions.b
        d := update l.d i r.versions.d
        c := update l.c i r.versions.c
        taskListIndex := l.taskListIndex + 1 }
    taskSpecs := update s.taskSpecs i r.specs
    periodPointers := update s.periodPointers i r.id }

def ftsRtemsTaskRegister (s : Fts) (r : Request) : Option (ℕ × Fts) :=
  if s.list.taskListIndex < pTasks ∧ s.taskInList r.id = none ∧ r.m ≤ r.k then do
    let i := s.list.taskListIndex
    let s ← (s.enter i r).createPatternT i
    let s ← s.setCounters i r.patternS
    some (1, (s.attach i r).note (.registered r.id))
  else some (0, s)

/-- One pass of the loop of `fts_off_t`. -/
def shiftEntry (l : TaskIdList) (i : ℕ) : TaskIdList :=
  { l with
    taskListId := update l.taskListId i (l.taskListId (i + 1))
    m := update l.m i (l.m (i + 1))
    k := update l.k i (l.k (i + 1))
    tech := update l.tech i (l.tech (i + 1))
    patternStart := update l.patternStart i (l.patternStart (i + 1))
    patternEnd := update l.patternEnd i (l.patternEnd (i + 1))
    currPos := update l.currPos i (l.currPos (i + 1))
    bitpos := update l.bitpos i (l.bitpos (i + 1))
    maxBitpos := update l.maxBitpos i (l.maxBitpos (i + 1)) }

/-- The loop of `fts_off_t`, with `n` passes to go. -/
def offLoop : ℕ → ℕ → TaskIdList → Option TaskIdList
  | 0, _, l => some l
  | n + 1, i, l => if i + 1 < pTasks then offLoop n (i + 1) (shiftEntry l i) else none

def ftsOff (s : Fts) (id : Id) : Option (ℕ × Fts) :=
  match s.taskInList id with
  | some _ => do
    let l ← offLoop s.list.taskListIndex 0 s.list
    some (1, { s with list := { l with taskListIndex := l.taskListIndex - 1 } })
  | none => some (255, s)

def ftsChangeTech (s : Fts) (id : Id) (tech : FtsTech) : Option (ℕ × Fts) :=
  match s.taskInList id with
  | some i =>
    if i < pTasks then
      some (1, { s with list := { s.list with tech := update s.list.tech i tech } })
    else none
  | none => some (0, s)

/-! ## The start of a period -/

/-- `rtems_task_delete` of a version of the last job, if one is recorded. -/
def deleteVersion (s : Fts) (i : ℕ) (v : FtsVersion) : Fts :=
  if s.runningId v i ≠ 0 then
    ({ s with tasks := s.tasks.kill (s.runningId v i) }.setRunning v i 0).note
      (.deleted i (s.runningId v i) (s.tasks.live (s.runningId v i)))
  else s

def deleteVersions (s : Fts) (i : ℕ) : Fts :=
  ((s.deleteVersion i .basic).deleteVersion i .detection).deleteVersion i .correction

/-- The replenishment of depleted counters by `rtems_rate_monotonic_period`. -/
def replenish (s : Fts) (i : ℕ) : Option Fts :=
  if (s.list.tech i).dynamic then
    if s.partitionIndex i < patternPartitions then
      if s.a i = 0 then
        if s.nrPartitions i = s.partitionIndex i ∧
            (s.tolCounterTemp i).tolCounterA (s.nrPartitions i) = 0 then
          s.tolcUpdate i
        else some { s with
          partitionIndex :=
            update s.partitionIndex i ((s.partitionIndex i + 1) % 2 ^ 16) }
      else some s
    else none
  else some s

/-- What `rtems_rate_monotonic_period` does to the tables at first. -/
def periodBegin (s : Fts) (id : Id) : Option Fts :=
  match s.taskInList id with
  | none => some s
  | some i => if i < pTasks then (s.deleteVersions i).replenish i else none

/-! ## The manager as a machine -/

/-- The detection version `x` has reported. -/
def markReported (s : Fts) (x : Id) (t : VersionTask) : Fts :=
  { s with tasks := s.tasks.put x (.version { t with reported := true }) }

def report (s : Fts) (x : Id) (fs : FaultStatus) (g : Grant) : Option Fts :=
  match s.tasks.live x with
  | some (.version t) =>
    if t.version = .detection ∧ t.reported = false then
      (s.markReported x t).faultDetectionRoutine t.period fs g
    else none
  | _ => none

def step (s : Fts) : Call → Option Fts
  | .register r => (s.ftsRtemsTaskRegister r).map Prod.snd
  | .off id => (s.ftsOff id).map Prod.snd
  | .changeTech id tech => (s.ftsChangeTech id tech).map Prod.snd
  | .compensate caller id g => (s.ftsCompensate caller id g).map Prod.snd
  | .report x fs g => s.report x fs g
  | .periodBegin id => s.periodBegin id
  | .taskCreate g => some { s with tasks := (rtemsTaskCreate s.tasks .other g).2 }
  | .taskDelete x => some { s with tasks := s.tasks.kill x }
  | .tasksExtend ids =>
    if h : s.tasks.Fresh ids then some { s with tasks := s.tasks.extend ids h } else none
  | .tasksShrink block => some { s with tasks := s.tasks.shrink block }

/-- The tables of a started system: C sets them to zero. -/
def boot (mem : Mem) (tasks : Objects Task) : Fts where
  list :=
    { taskListId := fun _ => 0, m := fun _ => 0, k := fun _ => 0, tech := fun _ => .none
      taskListIndex := 0, pattern := fun _ => .rPattern, patternStart := fun _ => 0
      patternEnd := fun _ => 0, currPos := fun _ => 0, bitpos := fun _ => 0
      maxBitpos := fun _ => 0, b := fun _ => 0, d := fun _ => 0, c := fun _ => 0 }
  periodPointers _ := 0
  runningId _ _ := 0
  tolCounterConst _ := { tolCounterO := fun _ => 0, tolCounterA := fun _ => 0 }
  tolCounterTemp _ := { tolCounterO := fun _ => 0, tolCounterA := fun _ => 0 }
  nrPartitions _ := 0
  partitionIndex _ := 0
  taskSpecs _ := { initialPriority := 0, stackSize := 0, initialModes := 0, attributeSet := 0 }
  taskId _ := 0
  mem := mem
  tasks := tasks
  log := []

def Reachable (s : Fts) : Prop :=
  ∃ mem tasks cs, PartialRun.run step (boot mem tasks) cs = some s

end Fts

end Rtems
