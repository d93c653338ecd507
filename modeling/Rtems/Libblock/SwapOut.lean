import Rtems.Lib.Run
import Mathlib.Data.List.DropRight
import Mathlib.Data.List.Perm.Basic
import Mathlib.Logic.Function.Basic

/-!
# The swap-out of the block cache

The part of `bdbuf.c` that writes the modified buffers of the cache: the swap-out task, its workers
and `rtems_bdbuf_syncdev`. Each section under the cache lock is one step.

* `pass`, `written`: the swap-out task; `step`: the steps of all tasks;
* **`syncdev_barrier`**: in every run that `Meets` a condition, all buffers that were modified
  before are written when `rtems_bdbuf_syncdev` returns;
* **`workers_kept_iff`**: no worker is lost if no pass takes one without buffers for it.

The tree, the groups and the waiters of buffers are left out, so that the state `FREE` is the one of
an empty buffer. A buffer that is read is on no chain, and its transfer is one step.
-/

namespace Rtems.Bdbuf

open Function PartialRun List

/-- `rtems_bdbuf_buf_state`. -/
inductive BufferState
  | empty
  | cached
  | accessCached
  | accessModified
  | accessEmpty
  | accessPurged
  | modified
  | sync
  | transfer
  | transferPurged
  deriving DecidableEq

structure Buffer where
  dd : ℕ
  block : ℕ
  state : BufferState
  holdTimer : ℕ
  deriving DecidableEq

/-- `rtems_bdbuf_config` and the properties of the devices. -/
structure Config where
  swapBlockHold : ℕ
  maxWriteBlocks : ℕ
  needContinuousBlocks : ℕ → Bool
  mediaBlocksPerBlock : ℕ → ℕ

structure Transfer where
  dd : ℕ
  bds : List ℕ
  deriving DecidableEq

/-- The swap-out task is before a pass, in a write, or found nothing for a sync. -/
inductive SwapOut
  | between
  | writing (t : Transfer)
  | synced
  deriving DecidableEq

def SwapOut.bds : SwapOut → List ℕ
  | .writing t => t.bds
  | _ => []

/-- The task that holds the sync lock. -/
inductive Requester
  | none
  | waiting
  | woken
  deriving DecidableEq

/-- `rtems_bdbuf_cache`, and last the buffers that the sync has still to write. -/
structure Cache where
  buffer : ℕ → Buffer
  modified : List ℕ
  sync : List ℕ
  syncActive : Bool
  syncDevice : ℕ
  requester : Requester
  swapOut : SwapOut
  freeWorkers : List ℕ
  busyWorkers : List (ℕ × Transfer)
  unwritten : List ℕ

/-! ## Collecting buffers -/

/-- What a pass has: the buffers collected and left, the device and the transfer. -/
structure Scan where
  buffer : ℕ → Buffer
  rest : List ℕ
  dd : Option ℕ
  bds : List ℕ

/-- A buffer on the transfer list, which is in the order of the blocks. -/
def insertBlock (buffer : ℕ → Buffer) (b : ℕ) (bds : List ℕ) : List ℕ :=
  bds.rdropWhile (fun x => (buffer b).block ≤ (buffer x).block) ++
    b :: bds.rtakeWhile fun x => (buffer b).block ≤ (buffer x).block

/-- A buffer in the loop of `rtems_bdbuf_swapout_modified_processing`. -/
def scanStep (syncActive syncAll waiters updateTimers : Bool) (timerDelta : ℕ) (r : Scan) (b : ℕ) :
    Scan :=
  let bd := r.buffer b
  let held := if syncAll ∨ syncActive ∧ r.dd = some bd.dd ∨ waiters then 0 else bd.holdTimer
  let timer := if updateTimers then held - timerDelta else held
  if timer = 0 ∧ r.dd.getD bd.dd = bd.dd then
    { buffer := update r.buffer b { bd with state := .transfer, holdTimer := 0 }
      rest := r.rest
      dd := some bd.dd
      bds := insertBlock r.buffer b r.bds }
  else
    { r with
      buffer := update r.buffer b { bd with holdTimer := timer }
      rest := r.rest ++ [b] }

def modifiedProcessing (syncActive waiters updateTimers : Bool) (timerDelta : ℕ) (chain : List ℕ)
    (r : Scan) : Scan :=
  chain.foldl (scanStep syncActive (syncActive ∧ r.dd = none) waiters updateTimers timerDelta)
    { r with rest := [] }

/-- The buffers of the next write request, and those that are left. -/
def nextRequest (c : Config) (dd : ℕ) (buffer : ℕ → Buffer) : List ℕ → List ℕ → List ℕ × List ℕ
  | bufs, [] => (bufs, [])
  | bufs, b :: bds =>
    if c.needContinuousBlocks dd = true ∧ ∃ last ∈ bufs.getLast?,
        (buffer b).block ≠ (buffer last).block + c.mediaBlocksPerBlock dd then (bufs, b :: bds)
    else if c.maxWriteBlocks ≤ bufs.length + 1 then (bufs ++ [b], bds)
    else nextRequest c dd buffer (bufs ++ [b]) bds

namespace Cache

variable (c : Config) (s : Cache)

def setState (b : ℕ) (state : BufferState) : Cache :=
  { s with buffer := update s.buffer b { s.buffer b with state := state } }

/-! ## Tasks -/

/-- `rtems_bdbuf_get` and `rtems_bdbuf_read` of a cached buffer; in other states they wait. -/
def get (b : ℕ) (read : Bool) : Option Cache :=
  match (s.buffer b).state with
  | .modified => some ({ s with modified := s.modified.erase b }.setState b .accessModified)
  | .cached => some (s.setState b .accessCached)
  | .empty => some (s.setState b (if read then .accessCached else .accessEmpty))
  | _ => none

/-- `rtems_bdbuf_get_buffer_from_lru_list`. -/
def getFromLru (b dd block : ℕ) : Option Cache :=
  if (s.buffer b).state = .cached ∨ (s.buffer b).state = .empty then
    some { s with buffer := update s.buffer b ⟨dd, block, .empty, (s.buffer b).holdTimer⟩ }
  else none

/-- `rtems_bdbuf_add_to_modified_list_after_access`, past its wait for the sync lock. -/
def addToModified (b : ℕ) : Cache :=
  let bd := s.buffer b
  { s with
    buffer := update s.buffer b { bd with
      state := .modified
      holdTimer := if bd.state = .accessModified then bd.holdTimer else c.swapBlockHold }
    modified := s.modified ++ [b] }

/-- The end of an access, by the state of the buffer. -/
def endAccess (b : ℕ) (cached empty modified : Cache) : Option Cache :=
  match (s.buffer b).state with
  | .accessCached => some cached
  | .accessEmpty => some empty
  | .accessModified => some modified
  | .accessPurged => some (s.setState b .empty)
  | _ => none

def release (b : ℕ) : Option Cache :=
  s.endAccess b (s.setState b .cached) (s.setState b .empty) (s.addToModified c b)

def releaseModified (b : ℕ) : Option Cache :=
  s.endAccess b (s.addToModified c b) (s.addToModified c b) (s.addToModified c b)

/-- `rtems_bdbuf_sync`, up to the wait for the transfer. -/
def syncAfterAccess (b : ℕ) : Option Cache :=
  let s' := { s with sync := s.sync ++ [b] }.setState b .sync
  s.endAccess b s' s' s'

/-- `rtems_bdbuf_request_sync_for_modified_buffer`. -/
def requestSync (b : ℕ) : Option Cache :=
  match (s.buffer b).state with
  | .modified =>
    some ({ s with modified := s.modified.erase b, sync := s.sync ++ [b] }.setState b .sync)
  | _ => none

/-- The state after `rtems_bdbuf_gather_for_purge`. -/
def purged : BufferState → BufferState
  | .sync | .modified | .cached => .empty
  | .transfer => .transferPurged
  | .accessCached | .accessEmpty | .accessModified => .accessPurged
  | state => state

def purgeDev (dd : ℕ) : Cache :=
  { s with
    buffer := fun b => if (s.buffer b).dd = dd then
      { s.buffer b with state := purged (s.buffer b).state } else s.buffer b
    modified := s.modified.filter fun b => (s.buffer b).dd ≠ dd
    sync := s.sync.filter fun b => (s.buffer b).dd ≠ dd }

/-- The buffers of a device that are modified and not yet written. -/
def pending (dd : ℕ) : List ℕ :=
  (s.modified ++ s.sync ++ s.swapOut.bds ++ s.busyWorkers.flatMap fun w => w.2.bds).filter fun b =>
    (s.buffer b).dd = dd ∧ (s.buffer b).state ∈ [.modified, .sync, .transfer]

/-- `rtems_bdbuf_syncdev`, up to the wait for the event. -/
def syncdev (dd : ℕ) : Option Cache :=
  if s.requester = .none then
    some { s with
      syncActive := true
      syncDevice := dd
      requester := .waiting
      unwritten := s.pending dd }
  else none

/-! ## The swap-out task and its workers -/

/-- `rtems_bdbuf_swapout_processing`, first section. A worker taken for no buffers is lost. -/
def pass (waiters updateTimers : Bool) (timerDelta : ℕ) : Option Cache :=
  if s.swapOut = .between then
    let r := modifiedProcessing true waiters false timerDelta s.sync
      ⟨s.buffer, [], if s.syncActive then some s.syncDevice else none, []⟩
    let r' := modifiedProcessing s.syncActive waiters updateTimers timerDelta s.modified r
    let s' := { s with
      buffer := r'.buffer
      sync := r.rest
      modified := r'.rest
      freeWorkers := if s.syncActive then s.freeWorkers else s.freeWorkers.tail }
    if r'.bds = [] then
      some { s' with swapOut := if s.syncActive then .synced else .between }
    else
      match if s.syncActive then none else s.freeWorkers.head? with
      | none => some { s' with swapOut := .writing ⟨r'.dd.getD 0, r'.bds⟩ }
      | some w => some { s' with busyWorkers := (w, ⟨r'.dd.getD 0, r'.bds⟩) :: s.busyWorkers }
  else none

/-- The last section of `rtems_bdbuf_swapout_processing`, for a sync. -/
def finishSync : Option Cache :=
  if s.swapOut = .synced then
    some { s with syncActive := false, requester := .woken, swapOut := .between }
  else none

/-- The end of `rtems_bdbuf_execute_transfer_request` of a write. -/
def transferDone (bufs : List ℕ) (status : Bool) : Cache :=
  { s with
    buffer := fun b => if b ∈ bufs then
      { s.buffer b with state :=
        if status = true ∧ (s.buffer b).state = .transfer then .cached else .empty }
      else s.buffer b
    unwritten := s.unwritten.filter (· ∉ bufs) }

/-- A write request of the swap-out task is done. -/
def written (status : Bool) : Option Cache :=
  match s.swapOut with
  | .writing t =>
    let r := nextRequest c t.dd s.buffer [] t.bds
    some { s.transferDone r.1 status with
      swapOut := if r.2 = [] then .between else .writing { t with bds := r.2 } }
  | _ => none

/-- A write request of a worker is done. -/
def workerWritten (i : ℕ) (status : Bool) : Option Cache :=
  s.busyWorkers[i]?.bind fun w =>
    if w.2.bds = [] then none
    else
      let r := nextRequest c w.2.dd s.buffer [] w.2.bds
      some { s.transferDone r.1 status with
        busyWorkers := s.busyWorkers.set i (w.1, { w.2 with bds := r.2 }) }

/-- The last section of `rtems_bdbuf_swapout_worker_task`. -/
def workerDone (i : ℕ) : Option Cache :=
  s.busyWorkers[i]?.bind fun w =>
    if w.2.bds = [] then
      some { s with
        busyWorkers := s.busyWorkers.eraseIdx i
        freeWorkers := s.freeWorkers ++ [w.1] }
    else none

end Cache

inductive Action
  | get (b : ℕ) (read : Bool)
  | getFromLru (b dd block : ℕ)
  | release (b : ℕ)
  | releaseModified (b : ℕ)
  | syncAfterAccess (b : ℕ)
  | requestSync (b : ℕ)
  | purgeDev (dd : ℕ)
  | syncdev (dd : ℕ)
  | syncdevReturn
  | pass (waiters updateTimers : Bool) (timerDelta : ℕ)
  | finishSync
  | written (status : Bool)
  | workerWritten (i : ℕ) (status : Bool)
  | workerDone (i : ℕ)
  deriving DecidableEq

namespace Cache

def step (c : Config) (s : Cache) : Action → Option Cache
  | .get b read => s.get b read
  | .getFromLru b dd block => s.getFromLru b dd block
  | .release b => s.release c b
  | .releaseModified b => s.releaseModified c b
  | .syncAfterAccess b => s.syncAfterAccess b
  | .requestSync b => s.requestSync b
  | .purgeDev dd => some (s.purgeDev dd)
  | .syncdev dd => s.syncdev dd
  | .syncdevReturn => if s.requester = .woken then some { s with requester := .none } else none
  | .pass waiters updateTimers timerDelta => s.pass waiters updateTimers timerDelta
  | .finishSync => s.finishSync
  | .written status => s.written c status
  | .workerWritten i status => s.workerWritten c i status
  | .workerDone i => s.workerDone i

/-- A sync starts while no worker writes its device, of which no modified buffer is obtained or
purged until it ends. -/
def Meets (s : Cache) : Action → Prop
  | .syncdev dd => ∀ w ∈ s.busyWorkers, ∀ b ∈ w.2.bds, (s.buffer b).dd ≠ dd
  | .get b _ => s.syncActive = true → (s.buffer b).dd = s.syncDevice →
    (s.buffer b).state ≠ .modified
  | .purgeDev dd => s.syncActive = true → dd ≠ s.syncDevice
  | _ => True

instance (s : Cache) (a : Action) : Decidable (s.Meets a) := by
  cases a <;> unfold Meets <;> infer_instance

def initial (workers : ℕ) : Cache :=
  ⟨fun _ => ⟨0, 0, .empty, 0⟩, [], [], false, 0, .none, .between, List.range workers, [], []⟩

end Cache

/-! ## What a pass collects -/

theorem mem_insertBlock {buffer : ℕ → Buffer} {b x : ℕ} {bds : List ℕ} :
    x ∈ insertBlock buffer b bds ↔ x = b ∨ x ∈ bds := by
  rw [insertBlock, mem_append, mem_cons, or_left_comm, ← mem_append, rdropWhile_append_rtakeWhile]

/-- The buffers of the device on the chain are taken for a transfer. -/
def Takes (dd : ℕ) (chain : List ℕ) (r r' : Scan) : Prop :=
  r'.dd = r.dd ∧
    (∀ b, (r'.buffer b).dd = (r.buffer b).dd ∧
      ((r'.buffer b).state = (r.buffer b).state ∨ (r'.buffer b).state = .transfer)) ∧
    ∀ b, b ∈ r.bds ∨ b ∈ chain ∧ (r.buffer b).dd = dd → b ∈ r'.bds

section

variable {all waiters update : Bool} {delta dd : ℕ} {r : Scan}

theorem takes_scanStep (hdd : r.dd = some dd) (a : ℕ) :
    Takes dd [a] r (scanStep true all waiters update delta r a) := by
  unfold scanStep
  by_cases ha : (r.buffer a).dd = dd
  · simp only [hdd, ha, Option.getD_some, and_self, true_or, or_true, if_true, Nat.zero_sub,
      ite_self]
    refine ⟨hdd.symm, fun b => ?_, fun b hb => ?_⟩
    · by_cases hab : b = a
      · simp [hab, ha]
      · simp [update_of_ne hab]
    · rw [mem_insertBlock]; exact hb.symm.imp (fun h => mem_singleton.mp h.1) id
  · simp only [hdd, Option.getD_some, Ne.symm ha, and_false, if_false]
    refine ⟨hdd.symm, fun b => ?_, fun b hb => ?_⟩
    · by_cases hab : b = a
      · simp [hab]
      · simp [update_of_ne hab]
    · refine hb.resolve_right fun h => ha ?_
      rw [← mem_singleton.mp h.1, h.2]

theorem Takes.trans {r1 r2 : Scan} {l1 l2 : List ℕ} (h1 : Takes dd l1 r r1)
    (h2 : Takes dd l2 r1 r2) : Takes dd (l1 ++ l2) r r2 := by
  obtain ⟨hd1, hb1, ht1⟩ := h1
  obtain ⟨hd2, hb2, ht2⟩ := h2
  refine ⟨hd2.trans hd1, fun b => ⟨(hb2 b).1.trans (hb1 b).1, ?_⟩, fun b hb => ht2 b ?_⟩
  · rcases (hb2 b).2 with h | h
    · rw [h]; exact (hb1 b).2
    · exact .inr h
  · rw [(hb1 b).1]
    rcases hb with hb | ⟨hb, hd⟩
    · exact .inl (ht1 b (.inl hb))
    · exact (mem_append.mp hb).imp (fun h => ht1 b (.inr ⟨h, hd⟩)) fun h => ⟨h, hd⟩

theorem takes_foldl (hdd : r.dd = some dd) (chain : List ℕ) :
    Takes dd chain r (chain.foldl (scanStep true all waiters update delta) r) := by
  induction chain generalizing r with
  | nil => exact ⟨rfl, fun b => ⟨rfl, .inl rfl⟩, fun b hb => hb.resolve_right (by simp)⟩
  | cons a chain ih =>
    have ha : Takes dd [a] r (scanStep true all waiters update delta r a) := takes_scanStep hdd a
    exact ha.trans (ih (ha.1.trans hdd))

theorem takes_modifiedProcessing (hdd : r.dd = some dd) (chain : List ℕ) :
    Takes dd chain r (modifiedProcessing true waiters update delta chain r) :=
  takes_foldl (r := { r with rest := [] }) hdd chain

end

theorem takes_pass (waiters update : Bool) (delta dd : ℕ) (buffer : ℕ → Buffer)
    (sync modified : List ℕ) :
    Takes dd (sync ++ modified) ⟨buffer, [], some dd, []⟩
      (modifiedProcessing true waiters update delta modified
        (modifiedProcessing true waiters false delta sync ⟨buffer, [], some dd, []⟩)) := by
  have h : Takes dd sync ⟨buffer, [], some dd, []⟩
      (modifiedProcessing true waiters false delta sync ⟨buffer, [], some dd, []⟩) :=
    takes_modifiedProcessing rfl sync
  exact h.trans (takes_modifiedProcessing h.1 modified)

theorem nextRequest_append {c : Config} {dd : ℕ} {buffer : ℕ → Buffer} {bufs bds : List ℕ} :
    (nextRequest c dd buffer bufs bds).1 ++ (nextRequest c dd buffer bufs bds).2 = bufs ++ bds := by
  induction bds generalizing bufs with
  | nil => rfl
  | cons b bds ih =>
    rw [nextRequest]
    split_ifs
    · rfl
    · simp
    · simp [ih]

/-! ## The barrier -/

/-- The states of a buffer that waits for a write or is written. -/
def Live (state : BufferState) : Prop :=
  state = .modified ∨ state = .sync ∨ state = .transfer ∨ state = .transferPurged

namespace Cache

/-- While a sync is active, what is not yet written is on the chains or with the swap-out task. -/
structure Barrier (s : Cache) : Prop where
  active : s.syncActive = true ↔ s.requester = .waiting
  done : s.requester ≠ .waiting → s.unwritten = []
  synced : s.swapOut = .synced → s.syncActive = true ∧ s.unwritten = []
  owed : ∀ b ∈ s.unwritten, (s.buffer b).dd = s.syncDevice ∧ Live (s.buffer b).state ∧
    (b ∈ s.modified ∨ b ∈ s.sync ∨ b ∈ s.swapOut.bds)
  busy : ∀ w ∈ s.busyWorkers, ∀ b ∈ w.2.bds, b ∉ s.unwritten

namespace Barrier

variable {c : Config} {s s' : Cache}

theorem of_idle (ha : s.syncActive ≠ true) (hr : s.requester ≠ .waiting) (hu : s.unwritten = [])
    (hso : s.swapOut ≠ .synced) : s.Barrier :=
  ⟨iff_of_false ha hr, fun _ => hu, fun h => absurd h hso, by simp [hu], by simp [hu]⟩

variable {b : ℕ} {status : Bool}

section

variable (h : s.Barrier)

include h

theorem setBuffer (hb : b ∉ s.unwritten) (bd : Buffer)
    {modified sync : List ℕ} (hm : ∀ x, x ≠ b → x ∈ s.modified → x ∈ modified)
    (hs : ∀ x, x ∈ s.sync → x ∈ sync) :
    Barrier { s with
      buffer := update s.buffer b bd, modified := modified, sync := sync } := by
  refine { h with owed := fun x hx => ?_ }
  obtain ⟨hd, hl, hp⟩ := h.owed x hx
  have hne : x ≠ b := fun hxb => hb (hxb ▸ hx)
  simp only [update_of_ne hne]
  exact ⟨hd, hl, hp.imp (hm x hne) (Or.imp_left (hs x))⟩

theorem setState (hb : b ∉ s.unwritten) (state : BufferState) : (s.setState b state).Barrier :=
  h.setBuffer hb _ (fun _ _ => id) fun _ => id

theorem addToModified (hb : b ∉ s.unwritten) : (s.addToModified c b).Barrier :=
  h.setBuffer hb _ (fun _ _ hx => mem_append_left _ hx) fun _ => id

theorem not_owed (hb : ¬ Live (s.buffer b).state) : b ∉ s.unwritten :=
  fun hu => hb (h.owed b hu).2.1

theorem get {read : Bool}
    (hm : s.syncActive = true → (s.buffer b).dd = s.syncDevice → (s.buffer b).state ≠ .modified)
    (hs : s.get b read = some s') : s'.Barrier := by
  unfold Cache.get at hs
  split at hs
  case h_1 hst =>
    cases hs
    refine h.setBuffer (fun hu => ?_) _ (fun x hx => (mem_erase_of_ne hx).mpr) fun _ => id
    by_cases ha : s.syncActive = true
    · exact hm ha (h.owed b hu).1 hst
    · rw [h.done (mt h.active.mpr ha)] at hu; cases hu
  case h_2 hst | h_3 hst =>
    cases hs; exact h.setState (h.not_owed (by simp [Live, hst])) _
  case h_4 => cases hs

theorem getFromLru {dd block : ℕ} (hs : s.getFromLru b dd block = some s') : s'.Barrier := by
  unfold Cache.getFromLru at hs
  split_ifs at hs with hst
  cases hs
  refine h.setBuffer (h.not_owed ?_) _ (fun _ _ => id) fun _ => id
  rcases hst with hst | hst <;> simp [Live, hst]

theorem endAccess {s1 s2 s3 : Cache} (h1 : b ∉ s.unwritten → s1.Barrier)
    (h2 : b ∉ s.unwritten → s2.Barrier) (h3 : b ∉ s.unwritten → s3.Barrier)
    (hs : s.endAccess b s1 s2 s3 = some s') : s'.Barrier := by
  unfold Cache.endAccess at hs
  split at hs <;> cases hs
  case h_1 hst => exact h1 (h.not_owed (by simp [Live, hst]))
  case h_2 hst => exact h2 (h.not_owed (by simp [Live, hst]))
  case h_3 hst => exact h3 (h.not_owed (by simp [Live, hst]))
  case h_4 hst => exact h.setState (h.not_owed (by simp [Live, hst])) _

theorem addToSync (hb : b ∉ s.unwritten) :
    ({ s with sync := s.sync ++ [b] }.setState b .sync).Barrier :=
  h.setBuffer hb _ (fun _ _ => id) fun _ hx => mem_append_left _ hx

theorem requestSync (hs : s.requestSync b = some s') : s'.Barrier := by
  unfold Cache.requestSync at hs
  split at hs <;> cases hs
  refine { h with owed := fun x hx => ?_ }
  obtain ⟨hd, hl, hp⟩ := h.owed x hx
  by_cases hxb : x = b
  · subst hxb; simp [Cache.setState, Live, hd]
  · simp only [Cache.setState, update_of_ne hxb, mem_erase_of_ne hxb]
    exact ⟨hd, hl, hp.imp_right (Or.imp_left (mem_append_left _))⟩

theorem purgeDev {dd : ℕ} (hdd : s.syncActive = true → dd ≠ s.syncDevice) :
    (s.purgeDev dd).Barrier := by
  refine { h with owed := fun x hx => ?_ }
  obtain ⟨hd, hl, hp⟩ := h.owed x hx
  have hx' : (s.buffer x).dd ≠ dd := by
    by_cases ha : s.syncActive = true
    · exact hd ▸ (hdd ha).symm
    · rw [show (s.purgeDev dd).unwritten = [] from h.done (mt h.active.mpr ha)] at hx; cases hx
  simp only [Cache.purgeDev, mem_filter, hx', ne_eq, not_false_eq_true, decide_true, and_true]
  exact ⟨hd, hl, hp⟩

theorem syncdev {dd : ℕ} (hw : ∀ w ∈ s.busyWorkers, ∀ b ∈ w.2.bds, (s.buffer b).dd ≠ dd)
    (hs : s.syncdev dd = some s') : s'.Barrier := by
  unfold Cache.syncdev at hs
  split_ifs at hs with hr
  cases hs
  have hidle : s.syncActive ≠ true := fun ha => by simp [h.active.mp ha] at hr
  refine ⟨by simp, fun hne => absurd rfl hne, fun hsy => absurd (h.synced hsy).1 hidle,
    fun b hb => ?_, fun w hw' b hb hu => ?_⟩
  · obtain ⟨hb, hst⟩ := mem_filter.mp hb
    simp only [decide_eq_true_eq] at hst
    refine ⟨hst.1, ?_, ?_⟩
    · simpa [Live, or_assoc] using Or.inl hst.2
    · simp only [mem_append, mem_flatMap] at hb
      rcases hb with ((hb | hb) | hb) | ⟨w, hw', hb⟩
      · exact .inl hb
      · exact .inr (.inl hb)
      · exact .inr (.inr hb)
      · exact absurd hst.1 (hw w hw' b hb)
  · have := (mem_filter.mp hu).2
    simp only [decide_eq_true_eq] at this
    exact hw w hw' b hb this.1

theorem pass {waiters update : Bool} {delta : ℕ}
    (hs : s.pass waiters update delta = some s') : s'.Barrier := by
  unfold Cache.pass at hs
  rw [Option.ite_none_right_eq_some] at hs
  obtain ⟨hso, hs⟩ := hs
  by_cases ha : s.syncActive = true
  · simp only [ha, ↓reduceIte] at hs
    obtain ⟨-, hb, ht⟩ := takes_pass waiters update delta s.syncDevice s.buffer s.sync s.modified
    generalize modifiedProcessing true waiters update delta s.modified
      (modifiedProcessing true waiters false delta s.sync ⟨s.buffer, [], some s.syncDevice, []⟩) =
      r' at hs hb ht
    have hall : ∀ b ∈ s.unwritten, (r'.buffer b).dd = s.syncDevice ∧ Live (r'.buffer b).state ∧
        b ∈ r'.bds := by
      intro b hu
      obtain ⟨hd, hl, hp⟩ := h.owed b hu
      refine ⟨(hb b).1.trans hd, ?_, ht b (.inr ⟨?_, hd⟩)⟩
      · rcases (hb b).2 with hst | hst
        · exact hst ▸ hl
        · exact hst ▸ .inr (.inr (.inl rfl))
      · simpa [hso, SwapOut.bds, or_comm] using hp
    have hact : true = true ↔ s.requester = .waiting := ha ▸ h.active
    split at hs
    case isTrue hnil =>
      cases hs
      have hu : s.unwritten = [] :=
        eq_nil_iff_forall_not_mem.mpr fun b hu => by simpa [hnil] using (hall b hu).2.2
      exact ⟨hact, h.done, fun _ => ⟨rfl, hu⟩, by simp [hu], h.busy⟩
    case isFalse =>
      cases hs
      exact ⟨hact, h.done, by simp, fun b hu => ⟨(hall b hu).1, (hall b hu).2.1,
        .inr (.inr (hall b hu).2.2)⟩, h.busy⟩
  · have hr := mt h.active.mpr ha
    simp only [ha, Bool.false_eq_true, if_false] at hs
    split at hs
    · cases hs; exact of_idle (by simp) hr (h.done hr) (by simp)
    · split at hs <;> cases hs
      · exact of_idle (by simp) hr (h.done hr) (by simp)
      · exact of_idle (by simp) hr (h.done hr) (by simp [hso])

theorem finishSync (hs : s.finishSync = some s') : s'.Barrier := by
  unfold Cache.finishSync at hs
  split_ifs at hs with hso
  cases hs
  exact of_idle (by simp) (by simp) (h.synced hso).2 (by simp)

theorem transferDone {bufs : List ℕ} {swapOut : SwapOut}
    {busy : List (ℕ × Transfer)} (hsy : swapOut = .synced → s.swapOut = .synced)
    (hso : ∀ b ∈ s.swapOut.bds, b ∈ bufs ∨ b ∈ swapOut.bds)
    (hbusy : ∀ w ∈ busy, ∀ b ∈ w.2.bds, b ∉ s.unwritten) :
    Barrier { s.transferDone bufs status with swapOut := swapOut, busyWorkers := busy } := by
  refine ⟨h.active, fun hr => ?_, fun hs => ?_, fun b hb => ?_, fun w hw b hb hu => ?_⟩
  · simp only [Cache.transferDone, h.done hr, filter_nil]
  · refine ⟨(h.synced (hsy hs)).1, ?_⟩
    simp only [Cache.transferDone, (h.synced (hsy hs)).2, filter_nil]
  · obtain ⟨hu, hn⟩ := mem_filter.mp hb
    simp only [decide_eq_true_eq] at hn
    obtain ⟨hd, hl, hp⟩ := h.owed b hu
    simp only [Cache.transferDone, if_neg hn]
    exact ⟨hd, hl, hp.imp_right (Or.imp_right fun hb => (hso b hb).resolve_left hn)⟩
  · exact hbusy w hw b hb (mem_of_mem_filter hu)

theorem written (hs : s.written c status = some s') : s'.Barrier := by
  unfold Cache.written at hs
  split at hs <;> cases hs
  rename_i t ht
  refine h.transferDone (fun hsy => by split_ifs at hsy) (fun b hb => ?_) h.busy
  rw [ht, SwapOut.bds, ← nil_append t.bds, ← nextRequest_append, mem_append] at hb
  refine hb.imp_right fun hb => ?_
  rw [if_neg (ne_nil_of_mem hb)]
  exact hb

theorem workerWritten {i : ℕ} (hs : s.workerWritten c i status = some s') : s'.Barrier := by
  obtain ⟨w, hw, hs⟩ := Option.bind_eq_some_iff.mp hs
  split_ifs at hs
  cases hs
  refine h.transferDone id (fun b => .inr) fun w' hw' b hb => ?_
  rcases mem_or_eq_of_mem_set hw' with hw' | rfl
  · exact h.busy w' hw' b hb
  · refine h.busy w (mem_of_getElem? hw) b ?_
    rw [← nil_append w.2.bds, ← nextRequest_append]
    exact mem_append_right _ hb

theorem workerDone {i : ℕ} (hs : s.workerDone i = some s') : s'.Barrier := by
  obtain ⟨w, hw, hs⟩ := Option.bind_eq_some_iff.mp hs
  split_ifs at hs
  cases hs
  exact { h with busy := fun w' hw' => h.busy w' (mem_of_mem_eraseIdx hw') }

theorem step {a : Action} (hG : s.Meets a) (hs : s.step c a = some s') : s'.Barrier := by
  cases a with
  | get b read => exact h.get hG hs
  | getFromLru b dd block => exact h.getFromLru hs
  | release b => exact h.endAccess (h.setState · _) (h.setState · _) h.addToModified hs
  | releaseModified b => exact h.endAccess h.addToModified h.addToModified h.addToModified hs
  | syncAfterAccess b => exact h.endAccess h.addToSync h.addToSync h.addToSync hs
  | requestSync b => exact h.requestSync hs
  | purgeDev dd => cases hs; exact h.purgeDev hG
  | syncdev dd => exact h.syncdev hG hs
  | syncdevReturn =>
    rw [Cache.step] at hs
    split_ifs at hs with hr
    cases hs
    refine { h with active := ?_, done := fun _ => h.done (by simp [hr]) }
    simp [h.active, hr]
  | pass waiters update delta => exact h.pass hs
  | finishSync => exact h.finishSync hs
  | written status => exact h.written hs
  | workerWritten i status => exact h.workerWritten hs
  | workerDone i => exact h.workerDone hs

end

end Barrier

/-- **`rtems_bdbuf_syncdev` is a write barrier**: a woken requester has nothing unwritten. -/
theorem syncdev_barrier {c : Config} {workers : ℕ} {actions : List Action} {s : Cache}
    (hG : Along (step c) Meets (initial workers) actions)
    (hrun : run (step c) (initial workers) actions = some s)
    (hw : s.requester = .woken) : s.unwritten = [] := by
  have h₀ : (initial workers).Barrier :=
    .of_idle (by simp [initial]) (by simp [initial]) rfl (by simp [initial])
  have h := run_invariant_along (step c) (fun _ _ _ h => h.step) h₀ hG hrun
  exact h.done (by simp [hw])

/-- Blocks of any order, up to 16 in a request. -/
def sample : Config :=
  ⟨1, 16, fun _ => false, fun _ => 1⟩

/-- Of two modified buffers one is written by the only worker, one by a sync. -/
def sampleRun : List Action :=
  [.getFromLru 0 0 0, .get 0 false, .releaseModified 0, .pass false true 1, .getFromLru 1 0 1,
    .get 1 false, .releaseModified 1, .workerWritten 0 true, .syncdev 0, .pass false false 0,
    .written true, .pass false false 0, .finishSync]

theorem syncdev_barrier_sample : ∃ s, run (step sample) (initial 1) sampleRun = some s ∧
    s.requester = .woken ∧ s.unwritten = [] := by
  refine exists_imp_of_any (by decide +kernel)
    fun s hs hw => ⟨hw, syncdev_barrier ?_ hs hw⟩
  exact along_of_decide _ (by decide +kernel)

/-- The sync ends before a worker has written, or without an obtained buffer. -/
theorem exists_syncdev_early : (∃ s, run (step sample) (initial 1) [.getFromLru 0 0 0, .get 0 false,
        .releaseModified 0, .pass false true 1, .syncdev 0, .pass false false 0, .finishSync] =
      some s ∧ s.requester = .woken ∧ s.unwritten = [0]) ∧
    ∃ s, run (step sample) (initial 0) [.getFromLru 0 0 0, .get 0 false, .releaseModified 0,
        .syncdev 0, .get 0 false, .pass false false 0, .finishSync] =
      some s ∧ s.requester = .woken ∧ s.unwritten = [0] := by
  refine ⟨⟨_, rfl, ?_⟩, _, rfl, ?_⟩ <;> decide +kernel

/-! ## The workers -/

/-- The workers that are free or write buffers. -/
def workers (s : Cache) : List ℕ := s.freeWorkers ++ s.busyWorkers.map Prod.fst

/-- The buffers that a pass collects. -/
def collected (s : Cache) (waiters updateTimers : Bool) (timerDelta : ℕ) : List ℕ :=
  (modifiedProcessing s.syncActive waiters updateTimers timerDelta s.modified
    (modifiedProcessing true waiters false timerDelta s.sync
      ⟨s.buffer, [], if s.syncActive then some s.syncDevice else none, []⟩)).bds

/-- A pass that takes a worker collects a buffer for it. -/
def TakesForUse (s : Cache) : Action → Prop
  | .pass waiters updateTimers timerDelta => s.syncActive = true ∨ s.freeWorkers = [] ∨
    s.collected waiters updateTimers timerDelta ≠ []
  | _ => True

instance (s : Cache) (a : Action) : Decidable (s.TakesForUse a) := by
  cases a <;> unfold TakesForUse <;> infer_instance

section

variable {c : Config} {s s' : Cache} {a : Action}

theorem workers_pass {waiters update : Bool} {delta : ℕ}
    (hs : s.pass waiters update delta = some s') :
    (s.TakesForUse (.pass waiters update delta) → s'.workers.Perm s.workers) ∧
      (¬ s.TakesForUse (.pass waiters update delta) → s'.workers.length < s.workers.length) := by
  unfold pass at hs
  rw [Option.ite_none_right_eq_some] at hs
  have hs := hs.2
  unfold TakesForUse collected
  cases ha : s.syncActive with
  | true =>
    simp only [ha, ↓reduceIte] at hs
    refine ⟨fun _ => ?_, fun hno => absurd (.inl rfl) hno⟩
    split at hs <;> cases hs <;> exact .refl _
  | false =>
    simp only [ha, Bool.false_eq_true, if_false] at hs ⊢
    cases hfree : s.freeWorkers with
    | nil =>
      refine ⟨fun _ => ?_, fun hno => absurd (.inr (.inl rfl)) hno⟩
      rw [hfree] at hs
      split at hs <;> cases hs <;> simp [workers, hfree]
    | cons w free =>
      rw [hfree] at hs
      split at hs
      case isTrue hnil =>
        cases hs; exact ⟨fun hu => by simp [hnil] at hu, fun _ => by simp [workers, hfree]⟩
      case isFalse hne =>
        cases hs
        refine ⟨fun _ => ?_, fun hno => absurd (.inr (.inr hne)) hno⟩
        rw [workers, workers, hfree]
        exact perm_middle

/-- Only a pass that takes a worker for nothing changes which workers there are. -/
theorem workers_step (hs : s.step c a = some s') :
    (s.TakesForUse a → s'.workers.Perm s.workers) ∧
      (¬ s.TakesForUse a → s'.workers.length < s.workers.length) := by
  cases a
  case pass waiters update delta => exact workers_pass hs
  all_goals refine ⟨fun _ => ?_, fun hno => absurd trivial hno⟩
  case workerWritten i status _ =>
    obtain ⟨w, hw, hs⟩ := Option.bind_eq_some_iff.mp hs
    obtain ⟨hi, rfl⟩ := List.getElem?_eq_some_iff.mp hw
    split_ifs at hs
    cases hs
    rw [workers, workers]
    dsimp only [transferDone]
    rw [map_set, ← getElem_map Prod.fst (h := by rwa [length_map]), set_getElem_self]
  case workerDone i _ =>
    obtain ⟨w, hw, hs⟩ := Option.bind_eq_some_iff.mp hs
    obtain ⟨hi, rfl⟩ := List.getElem?_eq_some_iff.mp hw
    split_ifs at hs
    cases hs
    rw [workers, workers, append_assoc]
    exact ((getElem_cons_eraseIdx_perm hi).map Prod.fst).append_left _
  case release | releaseModified | syncAfterAccess =>
    simp only [step, release, releaseModified, syncAfterAccess, endAccess] at hs
    split at hs <;> cases hs <;> exact .refl _
  case purgeDev =>
    cases hs; exact .refl _
  all_goals
    simp only [step, get, getFromLru, requestSync, syncdev, finishSync, written] at hs
    split at hs <;> cases hs <;> exact .refl _

theorem workers_perm_iff {actions : List Action} (hrun : run (step c) s actions = some s') :
    s'.workers.Perm s.workers ↔ Along (step c) TakesForUse s actions := by
  induction actions generalizing s with
  | nil => cases hrun; exact iff_of_true (.refl _) trivial
  | cons a actions ih =>
    obtain ⟨s₁, hs, hrun⟩ := (run_cons_eq_some _).mp hrun
    have hlength : s'.workers.length ≤ s₁.workers.length := by
      refine run_invariant (step c) (P := fun x => x.workers.length ≤ s₁.workers.length)
        (fun x b y hx hy => ?_) (Nat.le_refl _) hrun
      by_cases hb : x.TakesForUse b
      · exact ((workers_step hy).1 hb).length_eq.trans_le hx
      · exact (Nat.le_of_lt ((workers_step hy).2 hb)).trans hx
    by_cases ha : s.TakesForUse a
    · have hperm := (workers_step hs).1 ha
      constructor
      · intro h
        refine ⟨ha, fun s₂ hs₂ => ?_⟩
        rw [hs] at hs₂
        cases hs₂
        exact (ih hrun).mp (h.trans hperm.symm)
      · intro h; exact ((ih hrun).mpr (h.2 s₁ hs)).trans hperm
    · refine iff_of_false (fun h => ?_) fun h => ha h.1
      have := (workers_step hs).2 ha
      have := h.length_eq
      omega

end

/-- **Every worker is free or writes** iff no pass took one without buffers for it. -/
theorem workers_kept_iff {c : Config} {workers : ℕ} {actions : List Action} {s : Cache}
    (hrun : run (step c) (initial workers) actions = some s) :
    (s.workers.Perm (List.range workers) ↔ Along (step c) TakesForUse (initial workers) actions) ∧
    (s.workers.Perm (List.range workers) → s.busyWorkers = [] →
      s.freeWorkers.Perm (List.range workers)) := by
  have hstart : (initial workers).workers = List.range workers := append_nil _
  refine ⟨hstart ▸ workers_perm_iff hrun, fun h hbusy => ?_⟩
  rwa [Cache.workers, hbusy, map_nil, append_nil] at h

theorem workers_kept_sample : ∃ s, run (step sample) (initial 1) sampleRun = some s ∧
    s.workers.Perm (List.range 1) := by
  refine exists_imp_of_any (P := fun _ => True) (by decide +kernel) fun s hs _ => ?_
  exact (workers_kept_iff hs).1.mpr (along_of_decide _ (by decide +kernel))

/-- A pass that finds no modified buffer keeps the only worker. -/
theorem not_workers_kept : ∃ s, run (step sample) (initial 1) [.pass false true 1] = some s ∧
    s.busyWorkers = [] ∧ s.freeWorkers = [] := ⟨_, rfl, rfl, rfl⟩

end Cache

end Rtems.Bdbuf
