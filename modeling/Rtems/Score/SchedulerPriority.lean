import Mathlib.Data.Nat.Find
import Rtems.Lib.Run
import Rtems.Score.Objects
import Rtems.Score.PriorityBitMap

/-!
# The deterministic priority scheduler

`schedulerpriorityimpl.h` and the operations of the uniprocessor priority scheduler: a chain of
ready threads for each priority, and the bit map of the chains that are not empty.

* `Chains`: what the ready chains hold, through `enqueue`, `enqueueFirst` and `extract`;
* **`heir_elected`**: the bit map, the chains and the heir, after any operations.
-/

namespace Rtems

open Function PartialRun List

/-- `Scheduler_Control`: the maximum priority, at most 255. -/
structure SchedulerControl where
  maximumPriority : ℕ
  maximum_lt : maximumPriority < 256

/-- `Scheduler_priority_Ready_queue`, with the index of the ready chain. -/
structure ReadyQueue where
  currentPriority : ℕ
  readyChain : ℕ
  priorityMap : PriorityBitMapInformation
  deriving DecidableEq

/-- `Scheduler_priority_Node`, with the `Priority` of its base. -/
structure SchedulerNode where
  value : ℕ
  prependIt : Bool
  readyQueue : ReadyQueue
  deriving DecidableEq

/-- The context of the scheduler, the nodes, the heir and the executing thread. -/
structure SchedulerPriority where
  bitMap : PriorityBitMap
  ready : ℕ → List Thread
  node : Thread → SchedulerNode
  isReady : Thread → Bool
  isPreemptible : Thread → Bool
  heir : Thread
  executing : Thread

/-- An operation, after `_Scheduler_Node_set_priority` for its thread. -/
inductive SchedulerOperation
  | unblock (theThread : Thread) (newPriority : ℕ) (prependIt : Bool)
  | block (theThread : Thread)
  | updatePriority (theThread : Thread) (newPriority : ℕ) (prependIt : Bool)
  | yield (theThread : Thread)
  | dispatch
  deriving DecidableEq

def readyQueueUpdate (newPriority : ℕ) : ReadyQueue where
  currentPriority := newPriority
  readyChain := newPriority
  priorityMap := priorityBitMapInitializeInformation newPriority

namespace SchedulerPriority

variable (s : SchedulerPriority)

/-- `_Scheduler_Node_set_priority`. -/
def setPriority (t : Thread) (newPriority : ℕ) (prependIt : Bool) : SchedulerPriority :=
  { s with
    node := update s.node t
      { s.node t with value := newPriority, prependIt := prependIt } }

/-- `_Scheduler_priority_Ready_queue_update` for the node of a thread. -/
def updateQueue (t : Thread) (newPriority : ℕ) : SchedulerPriority :=
  { s with
    node := update s.node t { s.node t with readyQueue := readyQueueUpdate newPriority } }

/-- `_Scheduler_priority_Ready_queue_enqueue`. -/
def enqueue (t : Thread) : SchedulerPriority :=
  let readyQueue := (s.node t).readyQueue
  { s with
    ready := update s.ready readyQueue.readyChain (s.ready readyQueue.readyChain ++ [t])
    bitMap := s.bitMap.add readyQueue.priorityMap }

/-- `_Scheduler_priority_Ready_queue_enqueue_first`. -/
def enqueueFirst (t : Thread) : SchedulerPriority :=
  let readyQueue := (s.node t).readyQueue
  { s with
    ready := update s.ready readyQueue.readyChain (t :: s.ready readyQueue.readyChain)
    bitMap := s.bitMap.add readyQueue.priorityMap }

/-- `_Scheduler_priority_Ready_queue_extract`. -/
def extract (t : Thread) : SchedulerPriority :=
  let readyQueue := (s.node t).readyQueue
  if (s.ready readyQueue.readyChain).length = 1 then
    { s with
      ready := update s.ready readyQueue.readyChain []
      bitMap := s.bitMap.remove readyQueue.priorityMap }
  else
    { s with
      ready := update s.ready readyQueue.readyChain
        ((s.ready readyQueue.readyChain).erase t) }

/-- `_Scheduler_priority_Ready_queue_first`; without a ready thread there is none. -/
def first : Option Thread := do
  let index ← s.bitMap.getHighest
  (s.ready index).head?

def updateHeir (newHeir : Thread) (forceDispatch : Bool) : SchedulerPriority :=
  if s.heir ≠ newHeir ∧ (s.isPreemptible s.heir ∨ forceDispatch) then { s with heir := newHeir }
  else s

def scheduleBody (forceDispatch : Bool) : Option SchedulerPriority := do
  let heir ← s.first
  some (s.updateHeir heir forceDispatch)

def schedulerUnblock (t : Thread) : SchedulerPriority :=
  let priority := (s.node t).value
  let s₁ := if priority ≠ (s.node t).readyQueue.currentPriority then s.updateQueue t priority else s
  let s₂ := s₁.enqueue t
  if priority < (s₂.node s₂.heir).value then s₂.updateHeir t (decide (priority = 0)) else s₂

/-- `_Scheduler_priority_Block`, which is `_Scheduler_Generic_block`. -/
def schedulerBlock (t : Thread) : Option SchedulerPriority :=
  let s₁ := s.extract t
  if t = s₁.executing ∨ t = s₁.heir then s₁.scheduleBody true else some s₁

def schedulerUpdatePriority (t : Thread) : Option SchedulerPriority :=
  let node := s.node t
  if s.isReady t = false then some s
  else if node.value = node.readyQueue.currentPriority then some s
  else
    let s₁ := (s.extract t).updateQueue t node.value
    (if node.prependIt then s₁.enqueueFirst t else s₁.enqueue t).scheduleBody false

def schedulerYield (t : Thread) : Option SchedulerPriority :=
  let readyChain := (s.node t).readyQueue.readyChain
  let s₁ := if (s.ready readyChain).length = 1 then s else
    { s with
      ready := update s.ready readyChain ((s.ready readyChain).erase t ++ [t]) }
  s₁.scheduleBody true

/-- An operation with a valid priority; an unblocked thread is not ready, a blocked or yielding is. -/
def step (c : SchedulerControl) : SchedulerOperation → Option SchedulerPriority
  | .unblock t p prependIt =>
    if p ≤ c.maximumPriority ∧ s.isReady t = false then
      let s₁ := { s with isReady := update s.isReady t true }
      some ((s₁.setPriority t p prependIt).schedulerUnblock t)
    else none
  | .block t =>
    if s.isReady t then { s with isReady := update s.isReady t false }.schedulerBlock t
    else none
  | .updatePriority t p prependIt =>
    if p ≤ c.maximumPriority then (s.setPriority t p prependIt).schedulerUpdatePriority t else none
  | .yield t => if s.isReady t then s.schedulerYield t else none
  | .dispatch => some { s with executing := s.heir }

/-- `_Scheduler_priority_Initialize`; the idle thread is the heir and executes. -/
def initial (idle : Thread) (priority : Thread → ℕ) : SchedulerPriority where
  bitMap := .initial
  ready _ := []
  node t := ⟨priority t, false, readyQueueUpdate (priority t)⟩
  isReady _ := false
  isPreemptible _ := true
  heir := idle
  executing := idle

/-- The defined operations: the idle thread is always ready. -/
def Admits (c : SchedulerControl) : SchedulerOperation → Prop
  | .unblock t p _ => p ≤ c.maximumPriority ∧ s.isReady t = false
  | .block t => s.isReady t = true ∧ ∃ u, u ≠ t ∧ s.isReady u = true
  | .updatePriority _ p _ => p ≤ c.maximumPriority
  | .yield t => s.isReady t = true
  | .dispatch => True

/-- The states after the start of the idle thread and any operations. -/
def Reachable (c : SchedulerControl) (s : SchedulerPriority) : Prop :=
  ∃ idle priority ops, run (fun s op => step s c op) (initial idle priority)
    (.unblock idle c.maximumPriority false :: ops) = some s

/-! ## The ready chains -/

/-- Each thread of `R` is on the chain of its priority, shown by the bit map. -/
structure Chains (R : Thread → Prop) (s : SchedulerPriority) : Prop where
  bits : s.bitMap.Ok
  has_iff : ∀ p, s.bitMap.Has p ↔ s.ready p ≠ []
  queue : ∀ t, (s.node t).readyQueue = readyQueueUpdate (s.node t).readyQueue.currentPriority
  mem_iff : ∀ t p, t ∈ s.ready p ↔ R t ∧ (s.node t).readyQueue.currentPriority = p
  nodup : ∀ p, (s.ready p).Nodup
  lt : ∀ t, R t → (s.node t).readyQueue.currentPriority < 256

/-- A thread is the first one of the first chain that is not empty. -/
def Elected (s : SchedulerPriority) (t : Thread) : Prop :=
  ∃ p, (s.ready p).head? = some t ∧ ∀ q, q < p → s.ready q = []

variable {s} {R : Thread → Prop} {t u : Thread} {p : ℕ}

theorem Chains.congr {R' : Thread → Prop} (h : Chains R s) (hR : ∀ t, R' t ↔ R t) :
    Chains R' s := by
  have : R' = R := funext fun t => propext (hR t)
  rwa [this]

theorem Chains.of_same {s' : SchedulerPriority} (h : Chains R s) (hbits : s'.bitMap = s.bitMap)
    (hready : s'.ready = s.ready)
    (hnode : ∀ t, (s'.node t).readyQueue = (s.node t).readyQueue) : Chains R s' where
  bits := hbits ▸ h.bits
  has_iff := by
    rw [hbits, hready]; exact h.has_iff
  queue t := by
    rw [hnode]; exact h.queue t
  mem_iff t p := by
    rw [hready, hnode]; exact h.mem_iff t p
  nodup := by
    rw [hready]; exact h.nodup
  lt t ht := by
    rw [hnode]; exact h.lt t ht

theorem setPriority_readyQueue (t u : Thread) (p : ℕ) (b : Bool) :
    ((s.setPriority t p b).node u).readyQueue = (s.node u).readyQueue := by
  by_cases hu : u = t
  · subst hu; simp [setPriority]
  · simp [setPriority, hu]

theorem Chains.setPriority (h : Chains R s) (t : Thread) (p : ℕ) (b : Bool) :
    Chains R (s.setPriority t p b) :=
  h.of_same rfl rfl fun u => setPriority_readyQueue t u p b

theorem Chains.updateQueue (h : Chains R s) (ht : ¬ R t) (p : ℕ) :
    Chains R (s.updateQueue t p) where
  bits := h.bits
  has_iff := h.has_iff
  queue u := by
    by_cases hu : u = t
    · subst hu; simp [SchedulerPriority.updateQueue, readyQueueUpdate]
    · simpa [SchedulerPriority.updateQueue, hu] using h.queue u
  mem_iff u q := by
    by_cases hu : u = t
    · subst hu; simp [SchedulerPriority.updateQueue, h.mem_iff, ht]
    · simpa [SchedulerPriority.updateQueue, hu] using h.mem_iff u q
  nodup := h.nodup
  lt u hR := by
    have hu : u ≠ t := fun h => ht (h ▸ hR)
    simpa [SchedulerPriority.updateQueue, hu] using h.lt u hR

section

variable (h : Chains R s) (ht : ¬ R t) (hp : (s.node t).readyQueue.currentPriority < 256)

include h ht hp

theorem Chains.put {chain : List Thread}
    (hchain : chain.Perm (t :: s.ready (s.node t).readyQueue.currentPriority)) :
    Chains (fun u => u = t ∨ R u) { s with
        ready := update s.ready (s.node t).readyQueue.readyChain chain
        bitMap := s.bitMap.add (s.node t).readyQueue.priorityMap } := by
  have hq := h.queue t
  generalize hc : (s.node t).readyQueue.currentPriority = p at *
  rw [hq]
  have hmem : ∀ u, u ∈ chain ↔ u = t ∨ u ∈ s.ready p := by intro u; rw [hchain.mem_iff, mem_cons]
  refine ⟨h.bits.add hp, fun q => ?_, h.queue, fun u q => ?_, fun q => ?_, ?_⟩
  · simp only [readyQueueUpdate, PriorityBitMap.has_add, h.has_iff]
    by_cases hqp : q = p
    · subst hqp
      have : chain ≠ [] := fun he => by simpa [he] using hmem t
      simp [this]
    · simp [hqp]
  · simp only [readyQueueUpdate]
    by_cases hqp : q = p
    · subst hqp
      rw [update_self, hmem, h.mem_iff]
      by_cases hu : u = t
      · simp [hu, hc]
      · simp [hu]
    · rw [update_of_ne hqp, h.mem_iff]
      by_cases hu : u = t
      · subst hu; simp [ht, hc, Ne.symm hqp]
      · simp [hu]
  · simp only [readyQueueUpdate]
    by_cases hqp : q = p
    · subst hqp
      rw [update_self, hchain.nodup_iff, nodup_cons, h.mem_iff]
      exact ⟨fun hm => ht hm.1, h.nodup q⟩
    · rw [update_of_ne hqp]; exact h.nodup q
  · rintro u (rfl | hR)
    · rw [hc]; exact hp
    · exact h.lt u hR

theorem Chains.enqueue : Chains (fun u => u = t ∨ R u) (s.enqueue t) := by
  refine h.put ht hp ?_
  rw [h.queue t]
  exact (perm_append_singleton _ _)

theorem Chains.enqueueFirst : Chains (fun u => u = t ∨ R u) (s.enqueueFirst t) := by
  refine h.put ht hp ?_
  rw [h.queue t]
  exact List.Perm.refl _

end

theorem Chains.mem (h : Chains R s) (ht : R t) :
    t ∈ s.ready (s.node t).readyQueue.currentPriority := (h.mem_iff t _).mpr ⟨ht, rfl⟩

theorem Chains.extract_ready (h : Chains R s) (ht : R t) (q : ℕ) :
    (s.extract t).ready q = (s.ready q).erase t := by
  have hmem := h.mem ht
  have hq := h.queue t
  generalize hc : (s.node t).readyQueue.currentPriority = p at *
  have hother : q ≠ p → (s.ready q).erase t = s.ready q := by
    intro hqp
    refine erase_of_not_mem fun hm => hqp ?_
    rw [← ((h.mem_iff t q).mp hm).2, hc]
  simp only [SchedulerPriority.extract, hq, readyQueueUpdate]
  split_ifs with hone
  · obtain ⟨x, hx⟩ := length_eq_one_iff.mp hone
    by_cases hqp : q = p
    · subst hqp; rw [hx, mem_singleton] at hmem; simp [hx, hmem]
    · simp [hqp, hother hqp]
  · by_cases hqp : q = p
    · subst hqp; simp
    · simp [hqp, hother hqp]

theorem extract_fields : (s.extract t).node = s.node ∧ (s.extract t).isReady = s.isReady ∧
    (s.extract t).isPreemptible = s.isPreemptible ∧ (s.extract t).heir = s.heir := by
  simp only [SchedulerPriority.extract]
  split_ifs
  · exact ⟨rfl, rfl, rfl, rfl⟩
  · exact ⟨rfl, rfl, rfl, rfl⟩

theorem extract_node : (s.extract t).node = s.node := extract_fields.1

theorem Chains.extract (h : Chains R s) (ht : R t) :
    Chains (fun u => R u ∧ u ≠ t) (s.extract t) := by
  have hmem := h.mem ht
  have hlt := h.lt t ht
  have hq := h.queue t
  have hready := h.extract_ready ht
  have hbits : (s.extract t).bitMap.Ok ∧ ∀ q, (s.extract t).bitMap.Has q ↔
      (s.ready q).erase t ≠ [] := by
    generalize hc : (s.node t).readyQueue.currentPriority = p at *
    have hready' := hready
    simp only [SchedulerPriority.extract, hq, readyQueueUpdate] at hready' ⊢
    split_ifs at hready' ⊢ with hone
    · refine ⟨h.bits.remove hlt, fun q => ?_⟩
      rw [PriorityBitMap.has_remove, h.has_iff, ← hready' q]
      by_cases hqp : q = p
      · simp [hqp]
      · simp [hqp]
    · refine ⟨h.bits, fun q => ?_⟩
      rw [h.has_iff]
      by_cases hqp : q = p
      · -- the chain had another thread
        subst hqp
        refine iff_of_true (ne_nil_of_mem hmem) fun he => hone ?_
        have := length_erase_of_mem hmem
        have hpos := length_pos_of_mem hmem
        rw [he, length_nil] at this
        omega
      · rw [← hready' q]; simp [hqp]
  refine ⟨hbits.1, fun q => ?_, ?_, fun u q => ?_, fun q => ?_, ?_⟩
  · rw [hready]; exact hbits.2 q
  · rw [extract_node]; exact h.queue
  · rw [hready, extract_node, (h.nodup q).mem_erase_iff, h.mem_iff]
    tauto
  · rw [hready]; exact (h.nodup q).erase t
  · rw [extract_node]; exact fun u hu => h.lt u hu.1

/-! ## The election of the heir -/

theorem Chains.first_eq (h : Chains R s) (ht : R t) : ∃ u, s.first = some u ∧ s.Elected u := by
  classical
  have hex : ∃ p, s.ready p ≠ [] := ⟨_, ne_nil_of_mem (h.mem ht)⟩
  obtain ⟨u, l, hul⟩ := exists_cons_of_ne_nil (Nat.find_spec hex)
  have hmin : ∀ q, q < Nat.find hex → s.ready q = [] := by
    intro q hq
    by_contra hne
    exact Nat.find_min hex hq hne
  have hlt : Nat.find hex < 256 := by
    have hu := (h.mem_iff u (Nat.find hex)).mp (hul ▸ mem_cons_self)
    rw [← hu.2]
    exact h.lt u hu.1
  have hhigh := PriorityBitMap.getHighest_eq h.bits hlt ((h.has_iff _).mpr (Nat.find_spec hex))
    fun q hq hhas => (h.has_iff q).mp hhas (hmin q hq)
  exact ⟨u, by simp [first, hhigh, hul], Nat.find hex, by rw [hul]; rfl, hmin⟩

theorem Chains.of_first (h : Chains R s) (hu : s.first = some u) : R u := by
  simp only [first, Option.bind_eq_bind, Option.bind_eq_some_iff] at hu
  obtain ⟨p, -, hhead⟩ := hu
  exact ((h.mem_iff u p).mp (mem_of_mem_head? hhead)).1

/-- Every ready thread is on the chain of its priority, and can be preempted. -/
structure Queued (s : SchedulerPriority) : Prop where
  chains : Chains (fun t => s.isReady t = true) s
  current : ∀ t, s.isReady t = true → (s.node t).readyQueue.currentPriority = (s.node t).value
  preemptible : ∀ t, s.isPreemptible t = true

structure Ok (s : SchedulerPriority) : Prop extends Queued s where
  heir : s.Elected s.heir

theorem updateHeir_eq (h : ∀ t, s.isPreemptible t = true) (b : Bool) :
    s.updateHeir t b = { s with heir := t } := by
  simp only [updateHeir, h, true_or, and_true]
  split_ifs with hne
  · rfl
  · rw [ne_eq, not_not] at hne; rw [← hne]

theorem Queued.withHeir (h : s.Queued) (t : Thread) : Queued { s with heir := t } :=
  ⟨h.chains.of_same rfl rfl fun _ => rfl, h.current, h.preemptible⟩

theorem Queued.scheduleBody (h : s.Queued) (ht : s.isReady t = true) (b : Bool) :
    ∃ s', s.scheduleBody b = some s' ∧ s'.Ok := by
  obtain ⟨u, hu, helect⟩ := h.chains.first_eq ht
  refine ⟨{ s with heir := u }, ?_, h.withHeir u, helect⟩
  simp [SchedulerPriority.scheduleBody, hu, updateHeir_eq h.preemptible]

theorem Ok.heir_mem (h : s.Ok) : ∃ p, (s.ready p).head? = some s.heir ∧
    (∀ q, q < p → s.ready q = []) ∧ s.isReady s.heir = true ∧ (s.node s.heir).value = p := by
  obtain ⟨p, hp, hmin⟩ := h.heir
  have hm := (h.chains.mem_iff s.heir p).mp (mem_of_mem_head? hp)
  exact ⟨p, hp, hmin, hm.1, by rw [← h.current _ hm.1, hm.2]⟩

/-! ## The operations -/

theorem unblock_queue (h : Chains R s) (ht : ¬ R t) (hvalue : (s.node t).value = p) :
    ∃ s', (if (s.node t).value ≠ (s.node t).readyQueue.currentPriority then s.updateQueue t p
        else s) = s' ∧ Chains R s' ∧ (s'.node t).readyQueue = readyQueueUpdate p ∧
      (∀ u, (s'.node u).value = (s.node u).value) ∧
      (∀ u, u ≠ t → (s'.node u).readyQueue = (s.node u).readyQueue) ∧
      s'.ready = s.ready ∧ s'.isReady = s.isReady ∧ s'.isPreemptible = s.isPreemptible ∧
      s'.heir = s.heir := by
  rw [hvalue]
  split_ifs with hne
  · refine ⟨_, rfl, h.updateQueue ht p, ?_, fun u => ?_, fun u hu => ?_, rfl, rfl, rfl, rfl⟩
    · simp [SchedulerPriority.updateQueue]
    · by_cases hu : u = t
      · subst hu; simp [SchedulerPriority.updateQueue]
      · simp [SchedulerPriority.updateQueue, hu]
    · simp [SchedulerPriority.updateQueue, hu]
  · rw [ne_eq, not_not] at hne
    exact ⟨s, rfl, h, hne ▸ h.queue t, fun _ => rfl, fun _ _ => rfl, rfl, rfl, rfl, rfl⟩

theorem Queued.unblock (h : s.Queued) (hp : p < 256) (ht : s.isReady t = false) (b : Bool) :
    ∃ s', (({ s with isReady := update s.isReady t true }.setPriority t p b).schedulerUnblock t) =
        (if p < (s'.node s.heir).value then { s' with heir := t } else s') ∧
      s'.Queued ∧ s'.heir = s.heir ∧ s'.ready = update s.ready p (s.ready p ++ [t]) ∧
      (s'.node t).value = p ∧ ∀ u, u ≠ t → (s'.node u).value = (s.node u).value := by
  set s0 := { s with isReady := update s.isReady t true }.setPriority t p b with hs0
  have hv : (s0.node t).value = p := by simp [hs0, setPriority]
  have hvo : ∀ u, u ≠ t → (s0.node u).value = (s.node u).value := by
    intro u hu; simp [hs0, setPriority, hu]
  have hq : ∀ u, (s0.node u).readyQueue = (s.node u).readyQueue := by
    intro u
    exact setPriority_readyQueue t u p b
  have hc : Chains (fun u => s.isReady u = true) s0 := h.chains.of_same rfl rfl hq
  obtain ⟨s1, hif, hc1, hqt, hv1, hqo, hr1, hi1, hp1, hh1⟩ := unblock_queue hc (by simp [ht]) hv
  have hqueued : (s1.enqueue t).Queued := by
    refine ⟨(hc1.enqueue (by simp [ht]) (hqt ▸ hp)).congr fun u => ?_, fun u hu => ?_, fun u => ?_⟩
    · change s1.isReady u = true ↔ _
      rw [hi1]
      by_cases hu : u = t
      · simp [hs0, setPriority, hu]
      · simp [hs0, setPriority, hu]
    · change (s1.node u).readyQueue.currentPriority = (s1.node u).value
      by_cases hut : u = t
      · rw [hut, hqt, hv1, hv, readyQueueUpdate]
      · rw [hqo u hut, hv1, hq, hvo u hut]
        refine h.current u ?_
        change s1.isReady u = true at hu
        rw [hi1] at hu
        simpa [hs0, setPriority, hut] using hu
    · change s1.isPreemptible u = true; rw [hp1]; exact h.preemptible u
  have hheir : (s1.enqueue t).heir = s.heir := hh1
  refine ⟨s1.enqueue t, ?_, hqueued, hheir, ?_, (hv1 t).trans hv, fun u hu => ?_⟩
  · rw [hv] at hif
    simp only [schedulerUnblock, hv, hif, updateHeir_eq hqueued.preemptible, hheir]
  · simp [SchedulerPriority.enqueue, hqt, readyQueueUpdate, hr1, hs0, setPriority]
  · exact (hv1 u).trans (hvo u hu)

theorem Ok.unblock (h : s.Ok) (hp : p < 256) (ht : s.isReady t = false) (b : Bool) :
    (({ s with isReady := update s.isReady t true }.setPriority t p b).schedulerUnblock t).Ok := by
  obtain ⟨s', heq, hqueued, hh, hready, -, hv⟩ := h.toQueued.unblock hp ht b
  obtain ⟨q, hhead, hmin, hheir, hq⟩ := h.heir_mem
  have hne : s.heir ≠ t := by intro he; rw [he, ht] at hheir; cases hheir
  rw [heq, hv _ hne, hq]
  split_ifs with hlt
  · -- the chain of the thread was empty, as was every chain below that of the heir
    refine ⟨hqueued.withHeir t, p, ?_, fun r hr => ?_⟩
    · simp [hready, hmin p hlt]
    · simp [hready, hr.ne, hmin r (hr.trans hlt)]
  · refine ⟨hqueued, q, ?_, fun r hr => ?_⟩
    · rw [hh, hready]
      by_cases hqp : q = p
      · subst hqp; simp [head?_append, hhead]
      · simpa [hqp] using hhead
    · have hrp : r ≠ p := by omega
      simp [hready, hrp, hmin r hr]

theorem Ok.boot (c : SchedulerControl) (idle : Thread) (priority : Thread → ℕ) :
    (({ initial idle priority with
        isReady := update (initial idle priority).isReady idle true }.setPriority idle
      c.maximumPriority false).schedulerUnblock idle).Ok := by
  have hinit : (initial idle priority).Queued := by
    refine ⟨⟨.initial, fun p => ?_, fun _ => rfl, ?_, fun _ => nodup_nil, ?_⟩, ?_, fun _ => rfl⟩
    · simp [initial, PriorityBitMap.not_has_initial]
    · simp [initial]
    · simp [initial]
    · simp [initial]
  obtain ⟨s', heq, hqueued, hh, hready, hv, -⟩ := hinit.unblock c.maximum_lt
    (show (initial idle priority).isReady idle = false from rfl) false
  rw [heq, show (initial idle priority).heir = idle from rfl, hv, if_neg (lt_irrefl _)]
  refine ⟨hqueued, c.maximumPriority, ?_, fun q hq => ?_⟩
  · rw [hh, hready]; simp [initial]
  · simp [hready, hq.ne, initial]

theorem Queued.block (h : s.Queued) (ht : s.isReady t = true) :
    ({ s with isReady := update s.isReady t false }.extract t).Queued := by
  have hc : Chains (fun u => s.isReady u = true) { s with isReady := update s.isReady t false } :=
    h.chains.of_same rfl rfl fun _ => rfl
  refine ⟨(hc.extract ht).congr fun u => ?_, fun u hu => ?_, fun u => ?_⟩
  · rw [extract_fields.2.1]
    by_cases hu : u = t
    · simp [hu]
    · simp [hu]
  · rw [extract_fields.2.1] at hu
    rw [extract_node]
    by_cases hut : u = t
    · simp [hut] at hu
    · exact h.current u (by simpa [hut] using hu)
  · rw [extract_fields.2.2.1]; exact h.preemptible u

theorem Ok.block (h : s.Ok) (ht : s.isReady t = true) (hu : u ≠ t) (hr : s.isReady u = true) :
    ∃ s', { s with isReady := update s.isReady t false }.schedulerBlock t = some s' ∧ s'.Ok := by
  have hqueued := h.toQueued.block ht
  have hheir : ({ s with isReady := update s.isReady t false }.extract t).heir = s.heir :=
    extract_fields.2.2.2
  simp only [schedulerBlock]
  split_ifs with hcase
  · refine hqueued.scheduleBody (t := u) ?_ true; rw [extract_fields.2.1]; simp [hu, hr]
  · -- the heir stays where it is
    refine ⟨_, rfl, hqueued, ?_⟩
    rw [hheir] at hcase ⊢
    obtain ⟨p, hhead, hmin, -, -⟩ := h.heir_mem
    have hready : ∀ q, ({ s with isReady := update s.isReady t false }.extract t).ready q =
        (s.ready q).erase t :=
      (h.chains.of_same rfl rfl fun _ => rfl : Chains (fun u => s.isReady u = true)
        { s with isReady := update s.isReady t false }).extract_ready ht
    refine ⟨p, ?_, fun q hq => by simp [hready, hmin q hq]⟩
    obtain ⟨l, hl⟩ := head?_eq_some_iff.mp hhead
    have hne : ¬ s.heir = t := fun he => hcase (.inr he.symm)
    rw [hready, hl, erase_cons_tail (by simpa using hne)]
    rfl

theorem Ok.block_last (h : s.Ok) (ht : s.isReady t = true)
    (hlast : ∀ u, s.isReady u = true → u = t) :
    { s with isReady := update s.isReady t false }.schedulerBlock t = none := by
  have hqueued := h.toQueued.block ht
  obtain ⟨-, -, -, hheir, -⟩ := h.heir_mem
  have hnone : ({ s with isReady := update s.isReady t false }.extract t).first = none := by
    rw [Option.eq_none_iff_forall_ne_some]
    intro u hu
    have hR := hqueued.chains.of_first hu
    rw [extract_fields.2.1] at hR
    by_cases hut : u = t
    · simp [hut] at hR
    · exact hut (hlast u (by simpa [hut] using hR))
  have hcase : t = ({ s with isReady := update s.isReady t false }.extract t).heir := by
    rw [extract_fields.2.2.2]; exact (hlast _ hheir).symm
  simp [schedulerBlock, ← hcase, scheduleBody, hnone]

theorem Queued.setPriority_of_not (h : s.Queued) (ht : s.isReady t = false) (b : Bool) :
    (s.setPriority t p b).Queued := by
  refine ⟨h.chains.setPriority t p b, fun u hu => ?_, h.preemptible⟩
  have hut : u ≠ t := by
    rintro rfl; exact absurd (show s.isReady u = true from hu) (by simp [ht])
  simpa [setPriority, hut] using h.current u hu

theorem Queued.move (h : s.Queued) (hp : p < 256) (ht : s.isReady t = true) (b : Bool) :
    ∃ s', (let s1 := ((s.setPriority t p b).extract t).updateQueue t p
      if b then s1.enqueueFirst t else s1.enqueue t) = s' ∧ s'.Queued ∧ s'.isReady t = true := by
  have hc := ((h.chains.setPriority t p b).extract ht).updateQueue (t := t) (by simp) p
  set s1 := ((s.setPriority t p b).extract t).updateQueue t p with hs1
  have hready : s1.isReady = s.isReady := (extract_fields).2.1
  have hpre : s1.isPreemptible = s.isPreemptible :=
    (extract_fields).2.2.1
  have hq : (s1.node t).readyQueue.currentPriority < 256 := by
    simpa [hs1, SchedulerPriority.updateQueue, readyQueueUpdate] using hp
  have hcurrent : ∀ u, s1.isReady u = true →
      (s1.node u).readyQueue.currentPriority = (s1.node u).value := by
    intro u hu
    rw [hready] at hu
    by_cases hut : u = t
    · subst hut
      simp [hs1, SchedulerPriority.updateQueue, readyQueueUpdate, extract_node, setPriority]
    · simpa [hs1, SchedulerPriority.updateQueue, extract_node, setPriority, hut] using h.current u hu
  have hiff : ∀ u, s1.isReady u = true ↔ u = t ∨ s.isReady u = true ∧ u ≠ t := by
    intro u
    rw [hready]
    by_cases hut : u = t
    · simp [hut, ht]
    · simp [hut]
  have hpre' : ∀ u, s1.isPreemptible u = true := fun u => hpre ▸ h.preemptible u
  cases b with
  | true =>
    exact ⟨_, rfl, ⟨(hc.enqueueFirst (by simp) hq).congr hiff, hcurrent, hpre'⟩,
      (hiff t).mpr (.inl rfl)⟩
  | false =>
    exact ⟨_, rfl, ⟨(hc.enqueue (by simp) hq).congr hiff, hcurrent, hpre'⟩, (hiff t).mpr (.inl rfl)⟩

theorem Ok.updatePriority (h : s.Ok) (hp : p < 256) (b : Bool) :
    ∃ s', (s.setPriority t p b).schedulerUpdatePriority t = some s' ∧ s'.Ok := by
  have hv : ((s.setPriority t p b).node t).value = p := by simp [setPriority]
  have hb : ((s.setPriority t p b).node t).prependIt = b := by simp [setPriority]
  have hr' : (s.setPriority t p b).isReady t = s.isReady t := rfl
  simp only [schedulerUpdatePriority, hv, hb, hr']
  by_cases hr : s.isReady t = true
  · rw [if_neg (by simp [hr])]
    split
    · next hsame =>
      refine ⟨_, rfl, ⟨h.chains.setPriority t p b, fun u hu => ?_, h.preemptible⟩, h.heir⟩
      by_cases hut : u = t
      · rw [hut, hv, ← hsame]
      · simpa [setPriority, hut] using h.current u hu
    · obtain ⟨s', heq, hqueued, hready⟩ := h.toQueued.move hp hr b
      simp only at heq
      rw [heq]
      exact hqueued.scheduleBody hready false
  · have hr0 : s.isReady t = false := by simpa using hr
    rw [if_pos hr0]
    exact ⟨_, rfl, h.toQueued.setPriority_of_not hr0 b, h.heir⟩

theorem Queued.requeue (h : s.Queued) (ht : s.isReady t = true) : Queued { s with
      ready := update s.ready (s.node t).readyQueue.readyChain
        ((s.ready (s.node t).readyQueue.readyChain).erase t ++ [t]) } := by
  have hmem := h.chains.mem ht
  rw [h.chains.queue t]
  generalize (s.node t).readyQueue.currentPriority = p at *
  have hperm : ((s.ready p).erase t ++ [t]).Perm (s.ready p) :=
    (perm_append_singleton _ _).trans (perm_cons_erase hmem).symm
  refine ⟨⟨h.chains.bits, fun q => ?_, h.chains.queue, fun u q => ?_, fun q => ?_, h.chains.lt⟩,
    h.current, h.preemptible⟩
  · rw [h.chains.has_iff]
    by_cases hq : q = p
    · subst hq; simp [readyQueueUpdate, ne_nil_of_mem hmem]
    · simp [readyQueueUpdate, hq]
  · rw [← h.chains.mem_iff u q]
    by_cases hq : q = p
    · subst hq; simpa [readyQueueUpdate] using hperm.mem_iff
    · simp [readyQueueUpdate, hq]
  · by_cases hq : q = p
    · subst hq; simpa [readyQueueUpdate] using hperm.nodup_iff.mpr (h.chains.nodup q)
    · simpa [readyQueueUpdate, hq] using h.chains.nodup q

theorem Ok.yield (h : s.Ok) (ht : s.isReady t = true) :
    ∃ s', s.schedulerYield t = some s' ∧ s'.Ok := by
  simp only [schedulerYield]
  split_ifs
  · exact h.toQueued.scheduleBody ht true
  · exact (h.toQueued.requeue ht).scheduleBody ht true

theorem Ok.step {c : SchedulerControl} (h : s.Ok) (op : SchedulerOperation) :
    (s.Admits c op ∧ ∃ s', s.step c op = some s' ∧ s'.Ok) ∨
      (¬ s.Admits c op ∧ s.step c op = none) := by
  have hlt : ∀ p, p ≤ c.maximumPriority → p < 256 := by
    intro p hp; exact hp.trans_lt c.maximum_lt
  cases op with
  | unblock t p b =>
    by_cases hadm : p ≤ c.maximumPriority ∧ s.isReady t = false
    · exact .inl ⟨hadm, _, by rw [SchedulerPriority.step, if_pos hadm],
        h.unblock (hlt p hadm.1) hadm.2 b⟩
    · exact .inr ⟨hadm, by rw [SchedulerPriority.step, if_neg hadm]⟩
  | block t =>
    by_cases ht : s.isReady t = true
    · rw [SchedulerPriority.step, if_pos ht]
      by_cases hother : ∃ u, u ≠ t ∧ s.isReady u = true
      · obtain ⟨u, hut, hur⟩ := hother; exact .inl ⟨⟨ht, u, hut, hur⟩, h.block ht hut hur⟩
      · refine .inr ⟨fun hadm => hother hadm.2, h.block_last ht fun u hu => ?_⟩
        by_contra hut
        exact hother ⟨u, hut, hu⟩
    · exact .inr ⟨fun hadm => ht hadm.1, by rw [SchedulerPriority.step, if_neg ht]⟩
  | updatePriority t p b =>
    by_cases hadm : p ≤ c.maximumPriority
    · rw [SchedulerPriority.step, if_pos hadm]
      exact .inl ⟨hadm, h.updatePriority (hlt p hadm) b⟩
    · exact .inr ⟨hadm, by rw [SchedulerPriority.step, if_neg hadm]⟩
  | yield t =>
    by_cases ht : s.isReady t = true
    · rw [SchedulerPriority.step, if_pos ht]; exact .inl ⟨ht, h.yield ht⟩
    · exact .inr ⟨ht, by rw [SchedulerPriority.step, if_neg ht]⟩
  | dispatch =>
    exact .inl ⟨trivial, _, rfl, ⟨h.chains.of_same rfl rfl fun _ => rfl, h.current,
      h.preemptible⟩, h.heir⟩

theorem Reachable.ok {c : SchedulerControl} (hs : Reachable c s) : s.Ok := by
  obtain ⟨idle, priority, ops, hrun⟩ := hs
  obtain ⟨s1, hfirst, hrest⟩ := (run_cons_eq_some _).mp hrun
  have hboot : s1.Ok := by
    rw [SchedulerPriority.step, if_pos ⟨le_rfl, rfl⟩] at hfirst
    cases hfirst
    exact Ok.boot c idle priority
  refine run_invariant _ (fun s op s' h hstep => ?_) hboot hrest
  obtain ⟨-, s2, hs2, hok⟩ | ⟨-, hnone⟩ := h.step op
  · rw [hs2] at hstep; cases hstep; exact hok
  · rw [hnone] at hstep; cases hstep

/-- **The right heir.** Bit maps and chains are those of the ready threads, and the heir is the
first of the first chain in use. -/
theorem heir_elected (c : SchedulerControl) (hs : Reachable c s) :
    (∀ p, (s.bitMap.bitMap (p / 16)).getMsbD (p % 16) = true ↔ s.ready p ≠ []) ∧
    (∀ j, j < 16 → (s.bitMap.majorBitMap.getMsbD j = true ↔ ∃ p, p / 16 = j ∧ s.ready p ≠ [])) ∧
    (∀ t p, t ∈ s.ready p ↔ s.isReady t = true ∧ (s.node t).value = p) ∧
    (∀ p, (s.ready p).Nodup) ∧
    (∃ p, (s.ready p).head? = some s.heir ∧ ∀ q, q < p → s.ready q = []) ∧
    ∀ op, (s.step c op).isSome = true ↔ s.Admits c op := by
  have h := hs.ok
  refine ⟨h.chains.has_iff, fun j hj => ?_, fun t p => ?_, h.chains.nodup, h.heir, fun op => ?_⟩
  · rw [h.chains.bits.major_iff j hj, word_ne_zero_iff]
    constructor
    · rintro ⟨i, hi, hbit⟩
      have h1 : (j * 16 + i) / 16 = j := by omega
      have h2 : (j * 16 + i) % 16 = i := by omega
      refine ⟨j * 16 + i, h1, (h.chains.has_iff _).mp ?_⟩
      rw [PriorityBitMap.Has, h1, h2]
      exact hbit
    · rintro ⟨p, rfl, hp⟩; exact ⟨p % 16, by omega, (h.chains.has_iff p).mpr hp⟩
  · rw [h.chains.mem_iff]
    constructor
    · rintro ⟨hr, rfl⟩; exact ⟨hr, (h.current t hr).symm⟩
    · rintro ⟨hr, rfl⟩; exact ⟨hr, h.current t hr⟩
  · obtain ⟨hadm, s', hs', -⟩ | ⟨hadm, hnone⟩ := h.step (c := c) op
    · simp [hs', hadm]
    · simp [hnone, hadm]

theorem heir_elected_three : ∃ s, Reachable ⟨255, by decide⟩ s ∧ s.heir = 3 ∧
    s.ready 5 = [3, 2, 1] ∧ ∃ p, (s.ready p).head? = some 3 ∧ ∀ q, q < p → s.ready q = [] := by
  obtain ⟨s, hrun, hs⟩ := exists_of_any
      (o := run (fun s op => step s ⟨255, by decide⟩ op) (initial 0 fun _ => 100) [.unblock 0 255
        false, .unblock 1 5 false, .unblock 2 5 false, .unblock 3 20 false, .dispatch, .yield 1,
        .updatePriority 3 5 true])
      (P := fun s => s.heir = 3 ∧ s.ready 5 = [3, 2, 1]) (by decide +kernel)
  have hreach : Reachable ⟨255, by decide⟩ s := ⟨0, _, _, hrun⟩
  obtain ⟨hheir, hready⟩ := hs
  refine ⟨s, hreach, hheir, hready, ?_⟩
  rw [← hheir]
  exact (heir_elected _ hreach).2.2.2.2.1

end SchedulerPriority

end Rtems
