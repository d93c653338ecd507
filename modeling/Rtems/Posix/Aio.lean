import Mathlib.Data.Int.Order.Basic
import Rtems.Lib.Run

/-!
# The queues of asynchronous input and output

`aio_misc.c` keeps the requests of a descriptor in a chain, by `aio_reqprio`, and the chains in a
queue, by descriptor. A call without a result reads a field of the tail.

* **`insertAt_iff`**: the insertions that keep the order;
* **`queues_ordered_iff`**: the runs that keep the order.
-/

namespace Rtems.Aio

open PartialRun List

section

variable {α : Type} (key : α → ℤ) {k : ℤ} {x a : α} {l p r : List α}

/-- The common loop: the nodes passed, the node it ends at, and the rest. -/
def advance (k : ℤ) : List α → Option (List α × α × List α)
  | [] => none -- the key is read before the node is compared with the tail
  | a :: as => if key a < k then (advance k as).map fun s => (a :: s.1, s.2) else some ([], a, as)

/-- `rtems_chain_insert` before the node at which the loop ends. -/
def insertAt (x : α) (l : List α) : Option (List α) :=
  (advance key (key x) l).map fun s => s.1 ++ x :: s.2.1 :: s.2.2

variable {key}

theorem advance_spec (h : advance key k l = some (p, a, r)) :
    l = p ++ a :: r ∧ (∀ b ∈ p, key b < k) ∧ k ≤ key a := by
  induction l generalizing p with
  | nil => cases h
  | cons b l ih =>
    rw [advance] at h
    split_ifs at h with hb
    · obtain ⟨⟨p, _⟩, hs, ⟨⟩⟩ := Option.map_eq_some_iff.mp h
      obtain ⟨rfl, hp, ha⟩ := ih hs
      exact ⟨rfl, forall_mem_cons.mpr ⟨hb, hp⟩, ha⟩
    · cases h
      exact ⟨rfl, forall_mem_nil _, Int.not_lt.mp hb⟩

theorem isSome_advance : (advance key k l).isSome ↔ ∃ a ∈ l, k ≤ key a := by
  induction l with
  | nil => simp [advance]
  | cons b l ih =>
    rw [advance]
    split_ifs with hb
    · simp [ih, Int.not_le.mpr hb]
    · simp [Int.not_lt.mp hb]

variable {R : α → α → Prop} (hlt : ∀ a b, key a < key b → R a b) (hle : ∀ a b, R a b → key a ≤ key b)

include hlt hle

theorem pairwise_insert (hp : ∀ b ∈ p, key b < key x) (ha : key x < key a)
    (h : (p ++ a :: r).Pairwise R) : (p ++ x :: a :: r).Pairwise R := by
  obtain ⟨hpp, har, hpa⟩ := pairwise_append.mp h
  refine pairwise_append.mpr ⟨hpp, .cons (forall_mem_cons.mpr ⟨hlt x a ha, fun c hc => ?_⟩) har,
    fun b hb => forall_mem_cons.mpr ⟨hlt b x (hp b hb), hpa b hb⟩⟩
  exact hlt x c (Int.lt_of_lt_of_le ha (hle a c (rel_of_pairwise_cons har hc)))

theorem insertAt_iff (hx : ∀ a ∈ l, R x a → key x < key a) (h : l.Pairwise R) :
    (∃ l', insertAt key x l = some l' ∧ l'.Pairwise R) ↔
      (∃ a ∈ l, key x < key a) ∧ ∀ a ∈ l, key a ≠ key x := by
  constructor
  · rintro ⟨l', hl', hl⟩
    obtain ⟨⟨p, a, r⟩, hs, rfl⟩ := Option.map_eq_some_iff.mp hl'
    obtain ⟨rfl, hp, -⟩ := advance_spec hs
    have habove : ∀ b ∈ a :: r, key x < key b := fun b hb =>
      hx b (mem_append_right p hb) (rel_of_pairwise_cons (pairwise_append.mp hl).2.1 hb)
    refine ⟨⟨a, mem_append_right p mem_cons_self, habove a mem_cons_self⟩, fun b hb => ?_⟩
    rcases mem_append.mp hb with hb | hb
    · exact Int.ne_of_lt (hp b hb)
    · exact Int.ne_of_gt (habove b hb)
  · rintro ⟨⟨b, hb, hbx⟩, hne⟩
    obtain ⟨⟨p, a, r⟩, hs⟩ := Option.isSome_iff_exists.mp
      (isSome_advance.mpr ⟨b, hb, Int.le_of_lt hbx⟩)
    refine ⟨_, congrArg _ hs, ?_⟩
    obtain ⟨rfl, hp, ha⟩ := advance_spec hs
    have hax := hne a (mem_append_right p mem_cons_self)
    exact pairwise_insert hlt hle hp (lt_of_le_of_ne ha hax.symm) h

end

/-! ## The requests of a descriptor -/

/-- A request, with the number of its arrival. -/
structure Request where
  reqprio : ℤ
  arrival : ℕ

/-- By priority, first in first out among equal ones. -/
def Request.Before (r s : Request) : Prop :=
  r.reqprio < s.reqprio ∨ r.reqprio = s.reqprio ∧ r.arrival < s.arrival

/-- `rtems_aio_insert_prio`. -/
def insertPrio (chain : List Request) (req : Request) : Option (List Request) :=
  if chain = [] then some [req] else insertAt Request.reqprio req chain

/-- The chain of a descriptor, and how many requests have arrived. -/
structure Perfd where
  requests : List Request
  arrivals : ℕ

namespace Perfd

variable {c : Perfd}

inductive Call
  | insert (reqprio : ℤ)
  | removeFirst

def step (c : Perfd) : Call → Option Perfd
  | .insert reqprio =>
    (insertPrio c.requests ⟨reqprio, c.arrivals⟩).map fun chain => ⟨chain, c.arrivals + 1⟩
  | .removeFirst => some { c with requests := c.requests.tail }

/-- The requests have arrived and are in their order. -/
def Ordered (c : Perfd) : Prop :=
  c.requests.Pairwise Request.Before ∧ ∀ r ∈ c.requests, r.arrival < c.arrivals

/-- The chain is empty, or has a request above the new one and none of its priority. -/
def Fits (c : Perfd) : Call → Prop
  | .insert reqprio => c.requests = [] ∨
    (∃ r ∈ c.requests, reqprio < r.reqprio) ∧ ∀ r ∈ c.requests, r.reqprio ≠ reqprio
  | .removeFirst => True

theorem insertPrio_iff (h : c.Ordered) (reqprio : ℤ) :
    (∃ chain, insertPrio c.requests ⟨reqprio, c.arrivals⟩ = some chain ∧
      chain.Pairwise Request.Before) ↔ c.Fits (.insert reqprio) := by
  unfold insertPrio
  split_ifs with hnil
  · simp [hnil, Fits]
  · refine .trans ?_ (or_iff_right hnil).symm
    refine insertAt_iff (fun r s => .inl) (fun r s hrs => ?_) (fun r hr hbefore => ?_) h.1
    · rcases hrs with hrs | hrs <;> omega
    · have hr := h.2 r hr
      rcases hbefore with hlt | ⟨-, hlt⟩
      · exact hlt
      · exact absurd hr (Nat.not_lt.mpr (Nat.le_of_lt hlt))

theorem insertPrio_perm {chain chain' : List Request} {req : Request}
    (h : insertPrio chain req = some chain') : chain'.Perm (req :: chain) := by
  unfold insertPrio at h
  split_ifs at h with hnil
  · cases h; rw [hnil]
  · obtain ⟨⟨p, a, r⟩, hs, rfl⟩ := Option.map_eq_some_iff.mp h
    exact (advance_spec hs).1 ▸ perm_middle

theorem ordered_iff (h : c.Ordered) (call : Call) :
    (∃ c', c.step call = some c' ∧ c'.Ordered) ↔ c.Fits call := by
  cases call with
  | removeFirst =>
    exact iff_of_true ⟨_, rfl, h.1.tail, fun r hr => h.2 r (mem_of_mem_tail hr)⟩ trivial
  | insert reqprio =>
    rw [← insertPrio_iff h]
    constructor
    · rintro ⟨_, hs, ho⟩
      obtain ⟨chain, hchain, rfl⟩ := Option.map_eq_some_iff.mp hs
      exact ⟨chain, hchain, ho.1⟩
    · rintro ⟨chain, hchain, ho⟩
      refine ⟨⟨chain, c.arrivals + 1⟩, by rw [step, hchain]; rfl, ho, fun r hr => ?_⟩
      rcases mem_cons.mp ((insertPrio_perm hchain).mem_iff.mp hr) with rfl | hr
      · exact Nat.lt_succ_self _
      · exact Nat.lt_succ_of_lt (h.2 r hr)

end Perfd

/-! ## The chains of a queue -/

/-- The requests of a descriptor, as a member of a queue. -/
structure RequestChain where
  fildes : ℤ
  newFd : Bool
  perfd : List Request

namespace Queue

variable {queue : List RequestChain}

/-- `rtems_aio_search_fd`: the chain of the descriptor, if any, and the queue. -/
def searchFd (queue : List RequestChain) (fildes : ℤ) (create : Bool) :
    Option (Option RequestChain × List RequestChain) :=
  (advance RequestChain.fildes fildes queue).map fun s =>
    if s.2.1.fildes = fildes then
      let found := { s.2.1 with newFd := false }
      (some found, s.1 ++ found :: s.2.2)
    else if create then
      let created := ⟨fildes, true, []⟩
      (some created, s.1 ++ created :: s.2.1 :: s.2.2)
    else (none, queue)

/-- `rtems_aio_move_to_work`. -/
def moveToWork (queue : List RequestChain) (chain : RequestChain) : Option (List RequestChain) :=
  insertAt RequestChain.fildes chain queue

inductive Call
  | search (fildes : ℤ) (create : Bool)
  | move (chain : RequestChain)
  | extract (fildes : ℤ)

def step (queue : List RequestChain) : Call → Option (List RequestChain)
  | .search fildes create => (searchFd queue fildes create).map Prod.snd
  | .move chain => moveToWork queue chain
  | .extract fildes => some (queue.eraseP (·.fildes = fildes))

/-- The descriptors ascend, none twice. -/
def Ordered (queue : List RequestChain) : Prop := queue.Pairwise (·.fildes < ·.fildes)

/-- A member is not below the descriptor searched, or above the chain moved, whose is new. -/
def Fits (queue : List RequestChain) : Call → Prop
  | .search fildes _ => ∃ r ∈ queue, fildes ≤ r.fildes
  | .move chain => (∃ r ∈ queue, chain.fildes < r.fildes) ∧ ∀ r ∈ queue, r.fildes ≠ chain.fildes
  | .extract _ => True

theorem ordered_iff (h : Ordered queue) (call : Call) :
    (∃ queue', step queue call = some queue' ∧ Ordered queue') ↔ Fits queue call := by
  cases call with
  | move chain => exact insertAt_iff (fun _ _ => id) (fun _ _ => Int.le_of_lt) (fun _ _ => id) h
  | extract fildes => exact iff_of_true ⟨_, rfl, h.sublist eraseP_sublist⟩ trivial
  | search fildes create =>
    refine .trans ?_ (Option.isSome_iff_exists.symm.trans isSome_advance)
    rw [step, searchFd, Option.map_map]
    constructor
    · rintro ⟨s, hs, -⟩
      obtain ⟨s', hs', -⟩ := Option.map_eq_some_iff.mp hs
      exact ⟨s', hs'⟩
    · rintro ⟨⟨p, a, r⟩, hs⟩
      refine ⟨_, congrArg _ hs, ?_⟩
      obtain ⟨rfl, hp, ha⟩ := advance_spec hs
      dsimp only [Function.comp]
      split_ifs with heq hcreate
      · simpa [Ordered, pairwise_append] using h
      · exact pairwise_insert (fun _ _ => id) (fun _ _ => Int.le_of_lt) hp (by dsimp only; omega) h
      · exact h

end Queue

/-- **The chains and queues stay in order** in the runs whose insertions all fit. -/
theorem queues_ordered_iff {c : Perfd} {q : List RequestChain} (hc : c.Ordered)
    (hq : Queue.Ordered q) (calls : List Perfd.Call) (queueCalls : List Queue.Call) :
    ((∀ n, ∃ c', run Perfd.step c (calls.take n) = some c' ∧ c'.Ordered) ↔
      Along Perfd.step Perfd.Fits c calls) ∧
    ((∀ n, ∃ queue', run Queue.step q (queueCalls.take n) = some queue' ∧
      Queue.Ordered queue') ↔ Along Queue.step Queue.Fits q queueCalls) :=
  ⟨kept_iff _ (fun _ a h => Perfd.ordered_iff h a) hc calls,
    kept_iff _ (fun _ a h => Queue.ordered_iff h a) hq queueCalls⟩

theorem queues_ordered_sample :
    (∃ c, run Perfd.step ⟨[⟨3, 0⟩], 1⟩ [.insert 2, .removeFirst] = some c ∧ c.Ordered) ∧
    ∃ queue, run Queue.step [⟨7, false, []⟩] [.search 5 true] = some queue ∧
      Queue.Ordered queue := by
  have h := queues_ordered_iff (c := ⟨[⟨3, 0⟩], 1⟩) (q := [⟨7, false, []⟩])
    (by simp [Perfd.Ordered]) (by simp [Queue.Ordered]) [.insert 2, .removeFirst] [.search 5 true]
  exact ⟨h.1.mpr (by simp [Along, Perfd.Fits]) 2, h.2.mpr (by simp [Along, Queue.Fits]) 1⟩

/-- Equal priorities are last in first out, and a largest key is compared with one of the tail. -/
theorem not_queues_ordered :
    run Perfd.step ⟨[], 0⟩ [.insert 1, .insert 1] = some ⟨[⟨1, 1⟩, ⟨1, 0⟩], 2⟩ ∧
    run Perfd.step ⟨[], 0⟩ [.insert 1, .insert 2] = none ∧
    Queue.step [] (.search 3 true) = none ∧ Queue.step [] (.move ⟨3, false, []⟩) = none :=
  ⟨rfl, rfl, rfl, rfl⟩

end Rtems.Aio
