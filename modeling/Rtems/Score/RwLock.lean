import Mathlib.Data.List.Infix
import Mathlib.Data.List.TakeWhile
import Rtems.Lib.Run
import Rtems.Score.Objects

/-!
# Reader/writer locks

`corerwlockobtainread.c`, `corerwlockobtainwrite.c`, `corerwlockrelease.c` and the flush of a FIFO
thread queue (`threadqflush.c`).

* `RwLock`, `flushCritical`: the lock is granted by a filter that the flush calls for each thread;
* `Sound`: who holds the lock, and what its state says;
* **`sound_of_room`**: `Sound` in every state reached, while fewer than `2 ^ 32` reads are held;
  **`exists_reader_beside_writer`** without this.
-/

namespace Rtems

open Function PartialRun List

/-- `CORE_RWLock_States`. -/
inductive RwLockState
  | unlocked
  | lockedForReading
  | lockedForWriting
  deriving DecidableEq

/-- `Wait.option` of a waiting thread: `CORE_RWLOCK_THREAD_WAITING_FOR_READ` or `_WRITE`. -/
inductive RwLockAccess
  | read
  | write
  deriving DecidableEq

inductive RwLockStatus
  | successful
  | unavailable
  | timeout
  deriving DecidableEq

/-- A thread and the access that it waits for, or has. -/
structure RwLockUser where
  thread : Thread
  access : RwLockAccess
  deriving DecidableEq

/-- `CORE_RWLock_Control`; `number_of_readers` is a `uint32_t`. -/
structure RwLock where
  currentState : RwLockState
  numberOfReaders : ℕ
  waitQueue : List RwLockUser
  deriving DecidableEq

/-- `_Thread_queue_Flush_critical`: the object, who went and who stays. -/
def flushCritical {σ ω : Type} (filter : σ → ω → Option σ) : σ → List ω → σ × List ω × List ω
  | s, [] => (s, [], [])
  | s, w :: ws =>
    match filter s w with
    | none => (s, [], w :: ws)
    | some s' =>
      let r := flushCritical filter s' ws
      (r.1, w :: r.2.1, r.2.2)

namespace RwLock

variable (l : RwLock)

def isWaitingForReading (w : RwLockUser) : Bool := w.access = .read

/-- `_CORE_RWLock_Initialize`. -/
def new : RwLock := ⟨.unlocked, 0, []⟩

/-- A thread that cannot have the lock at once. -/
def waitFor (w : RwLockUser) (wait : Bool) : Option RwLockStatus × RwLock :=
  if wait then (none, { l with waitQueue := l.waitQueue ++ [w] }) else (some .unavailable, l)

/-- `_CORE_RWLock_Seize_for_reading`; without a status the thread is blocked. -/
def seizeForReading (t : Thread) (wait : Bool) : Option RwLockStatus × RwLock :=
  match l.currentState with
  | .unlocked =>
    (some .successful,
      { l with currentState := .lockedForReading, numberOfReaders := (l.numberOfReaders + 1) % 2 ^ 32 })
  | .lockedForReading =>
    if l.waitQueue = [] then
      (some .successful, { l with numberOfReaders := (l.numberOfReaders + 1) % 2 ^ 32 })
    else l.waitFor ⟨t, .read⟩ wait
  | .lockedForWriting => l.waitFor ⟨t, .read⟩ wait

def seizeForWriting (t : Thread) (wait : Bool) : Option RwLockStatus × RwLock :=
  match l.currentState with
  | .unlocked => (some .successful, { l with currentState := .lockedForWriting })
  | .lockedForReading => l.waitFor ⟨t, .write⟩ wait
  | .lockedForWriting => l.waitFor ⟨t, .write⟩ wait

def flushFilter (w : RwLockUser) : Option RwLock :=
  match l.currentState with
  | .lockedForReading =>
    if isWaitingForReading w then some { l with numberOfReaders := (l.numberOfReaders + 1) % 2 ^ 32 }
    else none
  | .lockedForWriting => none
  | .unlocked =>
    if isWaitingForReading w then some { l with currentState := .lockedForReading, numberOfReaders := 1 }
    else some { l with currentState := .lockedForWriting }

/-- The lock becomes free, and the threads of the wait queue are asked in turn. -/
def release : List RwLockUser × RwLock :=
  let r := flushCritical flushFilter { l with currentState := .unlocked } l.waitQueue
  (r.2.1, { r.1 with waitQueue := r.2.2 })

/-- `_CORE_RWLock_Surrender`, with the threads that it unblocks. -/
def surrender : List RwLockUser × RwLock :=
  match l.currentState with
  | .unlocked => ([], l)
  | .lockedForReading =>
    let l₁ := { l with numberOfReaders := (l.numberOfReaders + 2 ^ 32 - 1) % 2 ^ 32 }
    if l₁.numberOfReaders ≠ 0 then ([], l₁) else l₁.release
  | .lockedForWriting => l.release

end RwLock

/-- An operation, as far as it is done under the lock of the wait queue. -/
inductive RwLockAction
  | seizeForReading (t : Thread) (wait : Bool)
  | seizeForWriting (t : Thread) (wait : Bool)
  | surrender (holder : RwLockUser)
  | timeout (t : Thread)
  deriving DecidableEq

/-- A lock and the threads: `Wait.return_code`, and who was told to have it. -/
structure RwLockSystem where
  lock : RwLock
  returnCode : Thread → RwLockStatus
  holders : List RwLockUser

namespace RwLockSystem

variable (s : RwLockSystem)

def Waits (t : Thread) : Prop := ∃ w ∈ s.lock.waitQueue, w.thread = t

instance (t : Thread) : Decidable (s.Waits t) := inferInstanceAs (Decidable (∃ w ∈ _, _))

/-- The thread goes on with a status, or is blocked with the code of success. -/
def seized (w : RwLockUser) : Option RwLockStatus × RwLock → RwLockSystem
  | (some .successful, l) => { s with lock := l, holders := w :: s.holders }
  | (some _, l) => { s with lock := l }
  | (none, l) => { s with lock := l, returnCode := update s.returnCode w.thread .successful }

/-- One operation, by a thread that does not wait. -/
def step : RwLockAction → Option RwLockSystem
  | .seizeForReading t wait =>
    if s.Waits t then none else some (s.seized ⟨t, .read⟩ (s.lock.seizeForReading t wait))
  | .seizeForWriting t wait =>
    if s.Waits t then none else some (s.seized ⟨t, .write⟩ (s.lock.seizeForWriting t wait))
  | .surrender holder =>
    if holder ∈ s.holders ∧ ¬ s.Waits holder.thread then
      let (unblocked, l) := s.lock.surrender
      let granted := unblocked.filter fun w => s.returnCode w.thread = .successful
      some { s with lock := l, holders := granted ++ s.holders.erase holder }
    else none
  | .timeout t =>
    if s.Waits t then
      some { s with
        lock := { s.lock with waitQueue := s.lock.waitQueue.filter fun w => w.thread ≠ t }
        returnCode := update s.returnCode t .timeout }
    else none

/-- The lock after `_CORE_RWLock_Initialize`. -/
structure Boot (s : RwLockSystem) : Prop where
  lock : s.lock = .new
  holders : s.holders = []

def readers : List RwLockUser := s.holders.filter fun w => w.access = .read

def writers : List RwLockUser := s.holders.filter fun w => w.access = .write

/-- Who holds the lock, and what its state says. -/
structure Sound (s : RwLockSystem) : Prop where
  writer : s.writers.length ≤ 1
  alone : s.writers ≠ [] → s.readers = []
  count : s.lock.numberOfReaders = s.readers.length
  reading : s.lock.currentState = .lockedForReading ↔ 0 < s.lock.numberOfReaders
  writing : s.lock.currentState = .lockedForWriting ↔ s.writers ≠ []
  idle : s.lock.currentState = .unlocked → s.lock.waitQueue = []

/-- Who gets a free lock: the first thread, with a reader those right behind. -/
def grant : List RwLockUser → List RwLockUser
  | [] => []
  | w :: ws => if w.access = .read then w :: ws.takeWhile RwLock.isWaitingForReading else [w]

/-- The lock stays with other readers, or goes to the head of the queue. -/
def Grants (s s' : RwLockSystem) (holder : RwLockUser) : Prop :=
  if s.holders.erase holder ≠ [] then
    s'.holders = s.holders.erase holder ∧ s'.lock.waitQueue = s.lock.waitQueue
  else
    s'.holders = grant s.lock.waitQueue ∧ s.lock.waitQueue = s'.holders ++ s'.lock.waitQueue

/-- After the operation fewer than `2 ^ 32` reads are held. -/
def Room (a : RwLockAction) : Prop := ∀ s', s.step a = some s' → s'.readers.length < 2 ^ 32

end RwLockSystem

/-! ## The flush -/

section Flush

variable {σ ω : Type} {filter : σ → ω → Option σ} {s s' : σ} {w : ω} {ws : List ω}

theorem flushCritical_none (h : filter s w = none) :
    flushCritical filter s (w :: ws) = (s, [], w :: ws) := by
  rw [flushCritical, h]

theorem flushCritical_some (h : filter s w = some s') {r : σ × List ω × List ω}
    (hr : flushCritical filter s' ws = r) :
    flushCritical filter s (w :: ws) = (r.1, w :: r.2.1, r.2.2) := by
  rw [flushCritical, h, ← hr]

end Flush

namespace RwLock

variable {l : RwLock} {ws : List RwLockUser}

theorem flush_reading (h : l.currentState = .lockedForReading) (hn : l.numberOfReaders < 2 ^ 32) :
    flushCritical flushFilter l ws = ({ l with numberOfReaders :=
          (l.numberOfReaders + (ws.takeWhile isWaitingForReading).length) % 2 ^ 32 },
        ws.takeWhile isWaitingForReading, ws.dropWhile isWaitingForReading) := by
  induction ws generalizing l with
  | nil => rw [takeWhile_nil, length_nil, Nat.add_zero, Nat.mod_eq_of_lt hn]; rfl
  | cons w ws ih =>
    by_cases hw : isWaitingForReading w = true
    · have hf : flushFilter l w =
          some { l with numberOfReaders := (l.numberOfReaders + 1) % 2 ^ 32 } := by
        simp only [flushFilter, h, if_pos hw]
      rw [flushCritical_some hf (ih h (Nat.mod_lt _ (Nat.two_pow_pos 32))),
        takeWhile_cons_of_pos hw, dropWhile_cons_of_pos hw, length_cons, Nat.mod_add_mod,
        Nat.add_assoc, Nat.add_comm 1]
    · have hf : flushFilter l w = none := by simp only [flushFilter, h, if_neg hw]
      rw [flushCritical_none hf, takeWhile_cons_of_neg hw, dropWhile_cons_of_neg hw, length_nil,
        Nat.add_zero, Nat.mod_eq_of_lt hn]

theorem flush_writing (h : l.currentState = .lockedForWriting) :
    flushCritical flushFilter l ws = (l, [], ws) := by
  cases ws with
  | nil => rfl
  | cons w ws =>
    have hf : flushFilter l w = none := by simp only [flushFilter, h]
    exact flushCritical_none hf

theorem release_nil (h : l.waitQueue = []) : l.release = ([], { l with currentState := .unlocked }) := by
  simp only [release, h, flushCritical]

theorem release_read {w : RwLockUser} (h : l.waitQueue = w :: ws) (hw : w.access = .read) :
    l.release = (w :: ws.takeWhile isWaitingForReading,
      { currentState := .lockedForReading
        numberOfReaders := (1 + (ws.takeWhile isWaitingForReading).length) % 2 ^ 32
        waitQueue := ws.dropWhile isWaitingForReading }) := by
  obtain ⟨state, n, q⟩ := l
  obtain rfl : q = w :: ws := h
  have hf : flushFilter ⟨.unlocked, n, w :: ws⟩ w = some ⟨.lockedForReading, 1, w :: ws⟩ := by
    simp only [flushFilter, isWaitingForReading, hw, decide_true, if_true]
  rw [release, flushCritical_some hf (flush_reading rfl (show 1 < 2 ^ 32 by decide))]

theorem release_write {w : RwLockUser} (h : l.waitQueue = w :: ws) (hw : w.access = .write) :
    l.release = ([w], { l with currentState := .lockedForWriting, waitQueue := ws }) := by
  obtain ⟨state, n, q⟩ := l
  obtain rfl : q = w :: ws := h
  have hf : flushFilter ⟨.unlocked, n, w :: ws⟩ w = some ⟨.lockedForWriting, n, w :: ws⟩ := by
    simp [flushFilter, isWaitingForReading, hw]
  rw [release, flushCritical_some hf (flush_writing rfl)]

end RwLock

/-! ## The states of the lock -/

namespace RwLockSystem

variable {s s' : RwLockSystem}

/-- The three states that the lock and its holders can be in. -/
inductive Shape (s : RwLockSystem) : Prop
  | unlocked (state : s.lock.currentState = .unlocked) (count : s.lock.numberOfReaders = 0)
      (holders : s.holders = []) (queue : s.lock.waitQueue = [])
  | reading (state : s.lock.currentState = .lockedForReading)
      (count : s.lock.numberOfReaders = s.holders.length) (room : s.holders.length < 2 ^ 32)
      (holders : s.holders ≠ []) (access : ∀ w ∈ s.holders, w.access = .read)
  | writing (state : s.lock.currentState = .lockedForWriting) (count : s.lock.numberOfReaders = 0)
      (w : RwLockUser) (holders : s.holders = [w]) (access : w.access = .write)

/-- Every waiting thread has the return code of success. -/
def Promised (s : RwLockSystem) : Prop := ∀ w ∈ s.lock.waitQueue, s.returnCode w.thread = .successful

theorem readers_eq_self (h : ∀ w ∈ s.holders, w.access = .read) : s.readers = s.holders := by
  refine filter_eq_self.mpr ?_; intro w hw; exact decide_eq_true (h w hw)

theorem writers_eq_nil (h : ∀ w ∈ s.holders, w.access = .read) : s.writers = [] := by
  refine filter_eq_nil_iff.mpr ?_
  intro w hw
  rw [h w hw]
  decide

theorem Shape.sound (h : s.Shape) : s.Sound := by
  cases h with
  | unlocked hst hn hh hq =>
    have hr : s.readers = [] := by rw [readers, hh]; rfl
    have hw : s.writers = [] := by rw [writers, hh]; rfl
    constructor <;> simp [hr, hw, hst, hn, hq]
  | reading hst hn hlt hh ha =>
    have hpos : 0 < s.holders.length := length_pos_iff.mpr hh
    have hr := readers_eq_self ha
    have hw := writers_eq_nil ha
    constructor <;> simp [hr, hw, hst, hn, hpos]
  | writing hst hn w hh ha =>
    have hr : s.readers = [] := by rw [readers, hh]; simp [ha]
    have hw : s.writers = [w] := by rw [writers, hh]; simp [ha]
    constructor <;> simp [hr, hw, hst, hn]

/-! ## One operation -/

theorem Shape.of_queue (h : s.Shape) (hst : s.lock.currentState ≠ .unlocked)
    (hstate : s'.lock.currentState = s.lock.currentState)
    (hcount : s'.lock.numberOfReaders = s.lock.numberOfReaders) (hh : s'.holders = s.holders) :
    s'.Shape := by
  cases h with
  | unlocked hu => exact absurd hu hst
  | reading hst hn hlt hne ha =>
    exact .reading (hstate.trans hst) (by rw [hcount, hn, hh]) (hh ▸ hlt) (hh ▸ hne) (hh ▸ ha)
  | writing hst hn w hw ha =>
    exact .writing (hstate.trans hst) (hcount.trans hn) w (hh.trans hw) ha

theorem Shape.waitFor (h : s.Shape) (hp : s.Promised) (hst : s.lock.currentState ≠ .unlocked)
    (w : RwLockUser) (wait : Bool) :
    (s.seized w (s.lock.waitFor w wait)).Shape ∧ (s.seized w (s.lock.waitFor w wait)).Promised := by
  cases wait with
  | false => exact ⟨h.of_queue hst rfl rfl rfl, hp⟩
  | true =>
    refine ⟨h.of_queue hst rfl rfl rfl, fun v hv => ?_⟩
    change update s.returnCode w.thread .successful v.thread = .successful
    by_cases he : v.thread = w.thread
    · rw [he, update_self]
    · rw [update_of_ne he]
      rcases mem_append.mp hv with hv | hv
      · exact hp v hv
      · exact absurd (congrArg RwLockUser.thread (mem_singleton.mp hv)) he

theorem Shape.read {l : RwLock} {w : RwLockUser} (hw : w.access = .read)
    (ha : ∀ v ∈ s.holders, v.access = .read) (hst : l.currentState = .lockedForReading)
    (hn : l.numberOfReaders = (s.holders.length + 1) % 2 ^ 32)
    (hroom : (s.seized w (some .successful, l)).readers.length < 2 ^ 32) :
    (s.seized w (some .successful, l)).Shape := by
  have ha' : ∀ v ∈ (s.seized w (some .successful, l)).holders, v.access = .read := by
    intro v hv
    rcases mem_cons.mp hv with rfl | hv
    · exact hw
    · exact ha v hv
  rw [readers_eq_self ha'] at hroom
  exact .reading hst (hn.trans (Nat.mod_eq_of_lt hroom)) hroom (cons_ne_nil _ _) ha'

theorem Shape.seizeForReading (h : s.Shape) (hp : s.Promised) (t : Thread) (wait : Bool)
    (hroom : (s.seized ⟨t, .read⟩ (s.lock.seizeForReading t wait)).readers.length < 2 ^ 32) :
    (s.seized ⟨t, .read⟩ (s.lock.seizeForReading t wait)).Shape ∧
      (s.seized ⟨t, .read⟩ (s.lock.seizeForReading t wait)).Promised := by
  cases h with
  | unlocked hst hn hh hq =>
    simp only [RwLock.seizeForReading, hst] at hroom ⊢
    refine ⟨Shape.read rfl ?_ rfl ?_ hroom, hp⟩
    · rw [hh]; exact fun _ hv => absurd hv not_mem_nil
    · rw [hh, hn]; rfl
  | reading hst hn hlt hh ha =>
    simp only [RwLock.seizeForReading, hst] at hroom ⊢
    split_ifs at hroom ⊢ with hq
    · exact ⟨Shape.read rfl ha rfl (by rw [hn]) hroom, hp⟩
    · exact Shape.waitFor (.reading hst hn hlt hh ha) hp (by rw [hst]; decide) _ wait
  | writing hst hn w hh ha =>
    simp only [RwLock.seizeForReading, hst] at hroom ⊢
    exact Shape.waitFor (.writing hst hn w hh ha) hp (by rw [hst]; decide) _ wait

theorem Shape.seizeForWriting (h : s.Shape) (hp : s.Promised) (t : Thread) (wait : Bool) :
    (s.seized ⟨t, .write⟩ (s.lock.seizeForWriting t wait)).Shape ∧
      (s.seized ⟨t, .write⟩ (s.lock.seizeForWriting t wait)).Promised := by
  cases h with
  | unlocked hst hn hh hq =>
    simp only [RwLock.seizeForWriting, hst]
    exact ⟨.writing rfl hn ⟨t, .write⟩ (by rw [seized, hh]) rfl, hp⟩
  | reading hst hn hlt hh ha =>
    simp only [RwLock.seizeForWriting, hst]
    exact Shape.waitFor (.reading hst hn hlt hh ha) hp (by rw [hst]; decide) _ wait
  | writing hst hn w hh ha =>
    simp only [RwLock.seizeForWriting, hst]
    exact Shape.waitFor (.writing hst hn w hh ha) hp (by rw [hst]; decide) _ wait

theorem Shape.timeout (h : s.Shape) (hp : s.Promised) {t : Thread}
    (hs : s.step (.timeout t) = some s') : s'.Shape ∧ s'.Promised := by
  simp only [step] at hs
  split_ifs at hs with hw
  cases hs
  have hst : s.lock.currentState ≠ .unlocked := by
    intro hu
    obtain ⟨w, hw, -⟩ := hw
    rw [h.sound.idle hu] at hw
    exact absurd hw not_mem_nil
  refine ⟨h.of_queue hst rfl rfl rfl, fun w hw => ?_⟩
  obtain ⟨hw, ht⟩ := mem_filter.mp hw
  exact (update_of_ne (of_decide_eq_true ht) _ _).trans (hp w hw)

/-! ## Surrender -/

/-- The system after a surrender that gives these threads the lock. -/
def surrendered (s : RwLockSystem) (holder : RwLockUser) (r : List RwLockUser × RwLock) :
    RwLockSystem :=
  { s with
    lock := r.2
    holders := (r.1.filter fun w => s.returnCode w.thread = .successful) ++ s.holders.erase holder }

theorem filter_promised (hp : s.Promised) {ws : List RwLockUser} (h : ws ⊆ s.lock.waitQueue) :
    (ws.filter fun w => s.returnCode w.thread = .successful) = ws := by
  refine filter_eq_self.mpr ?_
  intro w hw
  exact decide_eq_true (hp w (h hw))

theorem surrendered_release {l : RwLock} {holder : RwLockUser} (hp : s.Promised)
    (hn : l.numberOfReaders = 0) (hq : l.waitQueue = s.lock.waitQueue)
    (he : s.holders.erase holder = [])
    (hroom : (s.surrendered holder l.release).readers.length < 2 ^ 32) :
    (s.surrendered holder l.release).Shape ∧ (s.surrendered holder l.release).Promised ∧
      s.Grants (s.surrendered holder l.release) holder := by
  rw [Grants, if_neg (not_not.mpr he)]
  cases hws : s.lock.waitQueue with
  | nil =>
    rw [RwLock.release_nil (hq.trans hws), surrendered, he]
    refine ⟨.unlocked rfl hn rfl (hq.trans hws), fun w hw => ?_, rfl, (hq.trans hws).symm⟩
    exact hp w (hq ▸ hw)
  | cons w ws =>
    cases ha : w.access with
    | read =>
      have hsub : w :: ws.takeWhile RwLock.isWaitingForReading ⊆ s.lock.waitQueue := by
        rw [hws]; exact cons_subset_cons w (takeWhile_subset _)
      have hall : ∀ v ∈ w :: ws.takeWhile RwLock.isWaitingForReading, v.access = .read := by
        intro v hv
        rcases mem_cons.mp hv with rfl | hv
        · exact ha
        · have hr : RwLock.isWaitingForReading v = true := mem_takeWhile_imp hv
          exact of_decide_eq_true hr
      rw [RwLock.release_read (hq.trans hws) ha, surrendered, he, append_nil,
        filter_promised hp hsub] at hroom ⊢
      rw [readers_eq_self hall] at hroom
      refine ⟨.reading rfl ?_ hroom (cons_ne_nil _ _) hall, fun v hv => ?_, ?_, ?_⟩
      · rw [Nat.add_comm]; exact Nat.mod_eq_of_lt hroom
      · refine hp v ?_; rw [hws]; exact mem_cons_of_mem w ((List.dropWhile_suffix _).subset hv)
      · simp only [grant, ha, if_true]
      · rw [cons_append, takeWhile_append_dropWhile]
    | write =>
      have hsub : [w] ⊆ s.lock.waitQueue := by rw [hws]; exact cons_subset_cons w (nil_subset _)
      rw [RwLock.release_write (hq.trans hws) ha, surrendered, he, append_nil,
        filter_promised hp hsub]
      refine ⟨.writing rfl hn w rfl ha, fun v hv => ?_, ?_, rfl⟩
      · exact hp v (hws ▸ mem_cons_of_mem w hv)
      · simp [grant, ha]

theorem Shape.surrender (h : s.Shape) (hp : s.Promised) {holder : RwLockUser}
    (hroom : s.Room (.surrender holder)) (hs : s.step (.surrender holder) = some s') :
    s'.Shape ∧ s'.Promised ∧ s.Grants s' holder := by
  have hroom := hroom s' hs
  simp only [step] at hs
  split_ifs at hs with hc
  obtain rfl : s.surrendered holder s.lock.surrender = s' := Option.some.inj hs
  cases h with
  | unlocked hst hn hh hq => rw [hh] at hc; exact absurd hc.1 not_mem_nil
  | reading hst hn hlt hh ha =>
    have hlen : (s.holders.erase holder).length = s.holders.length - 1 := length_erase_of_mem hc.1
    have hpos : 0 < s.holders.length := length_pos_iff.mpr hh
    have hn' : (s.lock.numberOfReaders + 2 ^ 32 - 1) % 2 ^ 32 = (s.holders.erase holder).length := by
      omega
    simp only [RwLock.surrender, hst, hn'] at hroom ⊢
    split_ifs at hroom ⊢ with hz
    · have hne : s.holders.erase holder ≠ [] := ne_nil_of_length_pos (Nat.pos_of_ne_zero hz)
      refine ⟨.reading rfl rfl (lt_of_le_of_lt length_erase_le hlt) hne ?_, hp, ?_⟩
      · intro w hw; exact ha w (mem_of_mem_erase hw)
      · rw [Grants, if_pos hne]; exact ⟨rfl, rfl⟩
    · have hz := not_not.mp hz
      exact surrendered_release hp hz rfl (eq_nil_of_length_eq_zero hz) hroom
  | writing hst hn w hh ha =>
    have he : s.holders.erase holder = [] := by
      rw [hh, mem_singleton] at hc; rw [hh, hc.1, erase_cons_head]
    simp only [RwLock.surrender, hst] at hroom ⊢
    exact surrendered_release hp hn rfl he hroom

/-! ## Runs -/

theorem Shape.step (h : s.Shape) (hp : s.Promised) {a : RwLockAction} (hroom : s.Room a)
    (hs : s.step a = some s') : s'.Shape ∧ s'.Promised := by
  cases a with
  | seizeForReading t wait =>
    have hlt := hroom s' hs
    simp only [RwLockSystem.step] at hs
    split_ifs at hs with hw
    cases hs
    exact h.seizeForReading hp t wait hlt
  | seizeForWriting t wait =>
    simp only [RwLockSystem.step] at hs
    split_ifs at hs with hw
    cases hs
    exact h.seizeForWriting hp t wait
  | surrender holder => obtain ⟨hs', hp', -⟩ := h.surrender hp hroom hs; exact ⟨hs', hp'⟩
  | timeout t => exact h.timeout hp hs

theorem Boot.shape (h : s.Boot) : s.Shape ∧ s.Promised := by
  refine ⟨.unlocked (by rw [h.lock]; rfl) (by rw [h.lock]; rfl) h.holders (by rw [h.lock]; rfl), ?_⟩
  intro w hw
  rw [h.lock] at hw
  exact absurd hw not_mem_nil

theorem Shape.run (h : s.Shape ∧ s.Promised) {as : List RwLockAction}
    (hroom : Along RwLockSystem.step Room s as)
    (hr : run RwLockSystem.step s as = some s') : s'.Shape ∧ s'.Promised :=
  run_invariant_along RwLockSystem.step
    (P := fun s => s.Shape ∧ s.Promised) (fun _ _ _ hP hG hs => hP.1.step hP.2 hG hs) h hroom hr

/-- **Writers are alone, counts right and nobody waits for a free lock**, below `2 ^ 32` reads. -/
theorem sound_of_room {s₀ s : RwLockSystem} {as : List RwLockAction} (hb : s₀.Boot)
    (hroom : Along RwLockSystem.step Room s₀ as)
    (hr : run RwLockSystem.step s₀ as = some s) :
    s.Sound ∧ ∀ holder s', s.Room (.surrender holder) → s.step (.surrender holder) = some s' →
      s.Grants s' holder := by
  obtain ⟨hs, hp⟩ := Shape.run hb.shape hroom hr
  refine ⟨hs.sound, fun holder s' hroom' hs' => ?_⟩
  obtain ⟨-, -, hg⟩ := hs.surrender hp hroom' hs'
  exact hg

theorem room_of_all {a : RwLockAction}
    (h : (s.step a).all (fun s' => decide (s'.readers.length < 2 ^ 32)) = true) : s.Room a := by
  intro s' hs
  rw [hs] at h
  exact of_decide_eq_true h

theorem sound_of_four : ∃ s s' : RwLockSystem, s.Sound ∧ s.Grants s' ⟨1, .write⟩ ∧
      s'.holders = [⟨2, .read⟩, ⟨3, .read⟩] ∧ s'.lock.waitQueue = [⟨4, .write⟩] := by
  let s₀ : RwLockSystem := ⟨.new, fun _ => .unavailable, []⟩
  let as : List RwLockAction := [.seizeForWriting 1 false, .seizeForReading 2 true,
    .seizeForReading 3 true, .seizeForWriting 4 true]
  have hroom : Along RwLockSystem.step Room s₀ as :=
    along_of_check _ (fun _ _ => room_of_all) (by decide +kernel)
  obtain ⟨s, hr, hs⟩ := exists_of_any (o := run RwLockSystem.step s₀ as)
    (P := fun s => (s.step (.surrender ⟨1, .write⟩)).map (fun s' => (s'.holders, s'.lock.waitQueue))
        = some ([⟨2, .read⟩, ⟨3, .read⟩], [⟨4, .write⟩])) (by decide +kernel)
  obtain ⟨s', hs', he⟩ := Option.map_eq_some_iff.mp hs
  obtain ⟨hh, hq⟩ := Prod.mk.inj he
  obtain ⟨hsound, hgrants⟩ := sound_of_room ⟨rfl, rfl⟩ hroom hr
  refine ⟨s, s', hsound, hgrants _ s' ?_ hs', hh, hq⟩
  intro s₁ hs₁
  obtain rfl : s' = s₁ := Option.some.inj (hs'.symm.trans hs₁)
  rw [readers, hh]
  decide

/-! ## Too many reads -/

theorem run_replicate (h : s.lock = ⟨.lockedForReading, s.holders.length % 2 ^ 32, []⟩)
    (t : Thread) (n : ℕ) :
    ∃ s', run RwLockSystem.step s (List.replicate n (.seizeForReading t false)) = some s' ∧
      s'.lock = ⟨.lockedForReading, (s.holders.length + n) % 2 ^ 32, []⟩ ∧
      s'.holders = List.replicate n ⟨t, .read⟩ ++ s.holders := by
  induction n generalizing s with
  | zero => exact ⟨s, rfl, h, rfl⟩
  | succ n ih =>
    let s1 : RwLockSystem := { s with
      lock := ⟨.lockedForReading, (s.holders.length + 1) % 2 ^ 32, []⟩
      holders := ⟨t, .read⟩ :: s.holders }
    have hs : s.step (.seizeForReading t false) = some s1 := by
      have hw : ¬ s.Waits t := by rintro ⟨w, hw, -⟩; rw [h] at hw; exact absurd hw not_mem_nil
      simp only [RwLockSystem.step, if_neg hw, RwLock.seizeForReading, h, if_true, seized,
        Nat.mod_add_mod, s1]
    obtain ⟨s', hr, hl, hh⟩ := ih (s := s1) rfl
    refine ⟨s', (run_cons_eq_some _).mpr ⟨s1, hs, hr⟩, ?_, ?_⟩
    · rw [hl, length_cons, Nat.add_assoc, Nat.add_comm 1]
    · rw [hh, replicate_succ', append_assoc]; rfl

/-- **After `2 ^ 32 + 1` reads, one surrender frees the lock for a writer.** -/
theorem exists_reader_beside_writer : ∃ (s₀ s : RwLockSystem) (as : List RwLockAction), s₀.Boot ∧
      run RwLockSystem.step s₀ as = some s ∧ s.writers = [⟨2, .write⟩] ∧
      s.readers.length = 2 ^ 32 := by
  -- the number as a variable, so that nothing counts up to it
  obtain ⟨n, hn⟩ : ∃ n, n = 2 ^ 32 := ⟨_, rfl⟩
  rw [← hn]
  let s₀ : RwLockSystem := ⟨.new, fun _ => .unavailable, []⟩
  let s₁ : RwLockSystem := ⟨⟨.lockedForReading, 1, []⟩, fun _ => .unavailable, [⟨1, .read⟩]⟩
  have h₁ : s₀.step (.seizeForReading 1 false) = some s₁ := rfl
  obtain ⟨s₂, hr₂, hl₂, hh₂⟩ := run_replicate (s := s₁) rfl 1 n
  have hl₂' : s₂.lock = ⟨.lockedForReading, 1, []⟩ := by rw [hl₂, hn, Nat.add_mod_right]; rfl
  have hh₂' : s₂.holders = ⟨1, .read⟩ :: List.replicate n ⟨1, .read⟩ := by
    rw [hh₂, ← replicate_succ, replicate_succ']
  let s₃ : RwLockSystem := ⟨⟨.unlocked, 0, []⟩, s₂.returnCode, List.replicate n ⟨1, .read⟩⟩
  have h₃ : s₂.step (.surrender ⟨1, .read⟩) = some s₃ := by
    have hc : (⟨1, .read⟩ : RwLockUser) ∈ s₂.holders ∧ ¬ s₂.Waits 1 := by
      refine ⟨hh₂' ▸ mem_cons_self, ?_⟩
      rintro ⟨w, hw, -⟩
      rw [hl₂'] at hw
      exact absurd hw not_mem_nil
    rw [RwLockSystem.step, if_pos hc, hl₂', hh₂', erase_cons_head]
    rfl
  let s₄ : RwLockSystem := ⟨⟨.lockedForWriting, 0, []⟩, s₂.returnCode,
    ⟨2, .write⟩ :: List.replicate n ⟨1, .read⟩⟩
  have h₄ : s₃.step (.seizeForWriting 2 false) = some s₄ := by
    have hw : ¬ s₃.Waits 2 := by rintro ⟨w, hw, -⟩; exact absurd hw not_mem_nil
    rfl
  refine ⟨s₀, s₄, .seizeForReading 1 false :: (List.replicate n (.seizeForReading 1 false) ++
    [.surrender ⟨1, .read⟩, .seizeForWriting 2 false]), ⟨rfl, rfl⟩, ?_, ?_, ?_⟩
  · refine (run_cons_eq_some _).mpr ⟨s₁, h₁, ?_⟩
    refine (run_append_eq_some _).mpr ⟨s₂, hr₂, ?_⟩
    refine (run_cons_eq_some _).mpr ⟨s₃, h₃, ?_⟩
    exact (run_cons_eq_some _).mpr ⟨s₄, h₄, rfl⟩
  · rw [writers, filter_cons_of_pos (by decide), filter_replicate_of_neg (by decide)]
  · rw [readers, filter_cons_of_neg (by decide), filter_replicate_of_pos (by decide),
      length_replicate]

end RwLockSystem

end Rtems
