import Rtems.Lib.Run
import Rtems.Lib.SearchTree
import Rtems.Score.Objects
import Mathlib.Data.List.Find
import Mathlib.Tactic.SplitIfs

/-!
# Thread-specific data

`key.c`, `keycreate.c`, `keydelete.c`, `keysetspecific.c`, `keygetspecific.c` and `keyimpl.h`. A
pair of a key and a value is in the tree of its thread and on the chain of its key, or in the pool
of free pairs. The chains and the pool are protected by the allocator mutex, a tree by the lock of
its thread; the steps here lead from one lock operation to the next.

* `step`: one step of a thread; the red-black trees are lists, and the root of a tree is any of its
  pairs;
* **`values_exact`**: the map is what the threads see, and where every pair is.
-/

namespace Rtems

open Function PartialRun List Option

/-! ## The specification -/

/-- What happens to the keys. The value 0 is `NULL`. -/
inductive KeyLog
  | created (key : Id) (destructor : ℕ)
  | set (t : Thread) (key : Id) (value : ℕ)
  | got (t : Thread) (key : Id) (value : ℕ)
  | closed (key : Id)
  | dropped (t : Thread) (key : Id)
  | deleted (key : Id)
  | exiting (t : Thread)
  | taken (t : Thread) (key : Id) (value : ℕ)
  | called (t : Thread) (destructor value : ℕ)
  | terminated (t : Thread)
  deriving DecidableEq

/-- A key is unused, open with its destructor, or being deleted. -/
inductive KeyState
  | unused
  | opened
  | closing
  deriving DecidableEq

/-- A thread runs, terminates, or has to call a destructor before it goes on to terminate. -/
inductive KeyPhase
  | running
  | exiting
  | calling (destructor value : ℕ)
  deriving DecidableEq

/-- The keys, the values of the threads, and the phases of the threads. -/
structure KeySpec where
  state : Id → KeyState
  destructor : Id → ℕ
  value : Thread → Id → ℕ
  phase : Thread → KeyPhase

/-- The destructor is called if there is one and the value is not `NULL`. -/
def destructorPhase (destructor value : ℕ) : KeyPhase :=
  if destructor ≠ 0 ∧ value ≠ 0 then .calling destructor value else .exiting

namespace KeySpec

def put (a : KeySpec) (t : Thread) (key : Id) (value : ℕ) : KeySpec :=
  { a with value := fun u k => if u = t ∧ k = key then value else a.value u k }

open Classical in
/-- What may happen. A thread gets the value that it has set last since the key was created; a
deletion drops the values of the key, and a terminating thread calls the destructor with each value.
-/
noncomputable def step (a : KeySpec) : KeyLog → Option KeySpec
  | .created key destructor =>
    if a.state key = .unused ∧ ∀ t, a.value t key = 0 then
      some { a with
        state := update a.state key .opened
        destructor := update a.destructor key destructor }
    else none
  | .set t key value =>
    if a.state key ≠ .unused ∧ a.phase t = .running then some (a.put t key value) else none
  | .got t key value => if value = a.value t key then some a else none
  | .closed key =>
    if a.state key = .opened then
      some { a with state := update a.state key .closing }
    else none
  | .dropped t key => if a.state key = .closing then some (a.put t key 0) else none
  | .deleted key =>
    if a.state key = .closing ∧ ∀ t, a.value t key = 0 then
      some { a with state := update a.state key .unused }
    else none
  | .exiting t =>
    if a.phase t = .running then
      some { a with phase := update a.phase t .exiting }
    else none
  | .taken t key value =>
    if a.state key = .opened ∧ value = a.value t key ∧ value ≠ 0 ∧ a.phase t = .exiting then
      some { a.put t key 0 with
        phase := update a.phase t (destructorPhase (a.destructor key) value) }
    else none
  | .called t destructor value =>
    if a.phase t = .calling destructor value then
      some { a with phase := update a.phase t .exiting }
    else none
  | .terminated t =>
    if a.phase t = .exiting ∧ ∀ key, a.value t key = 0 then
      some { a with phase := update a.phase t .running }
    else none

def initial : KeySpec := ⟨fun _ => .unused, fun _ => 0, fun _ _ => 0, fun _ => .running⟩

variable {a b : KeySpec} {t : Thread} {key : Id} {value destructor : ℕ} {e : KeyLog}

theorem step_set (h : a.state key ≠ .unused) (hp : a.phase t = .running) :
    a.step (.set t key value) = some (a.put t key value) :=
  if_pos ⟨h, hp⟩

end KeySpec

/-! ## The keys -/

structure KeyValuePair where
  key : Id
  thread : Thread
  value : ℕ
  deriving DecidableEq

/-- Where a thread is: `create` and `insert` are in `_POSIX_Keys_Create_value`, `find` and `free` in
`_POSIX_Keys_Delete_value`, `destroy` and `destroyFree` in `_POSIX_Keys_Destroy`, and the others in
`_POSIX_Keys_Run_destructors`. -/
inductive KeyPoint
  | idle
  | create (key : Id) (value : ℕ)
  | insert (p : ℕ)
  | find (key : Id)
  | free (p : ℕ)
  | destroy (key : Id)
  | destroyFree (key : Id) (p : ℕ)
  | terminate
  | root
  | rootFree (p : ℕ) (key : Id) (value : ℕ)
  | call (destructor value : ℕ)
  deriving DecidableEq

namespace KeyPoint

def owns : KeyPoint → Bool
  | .idle | .create _ _ | .terminate | .call _ _ => false
  | .insert _ | .find _ | .free _ | .destroy _ | .destroyFree _ _ | .root | .rootFree _ _ _ => true

/-- The pair that is on the chain of its key and not in the tree of its thread. -/
def held : KeyPoint → Option ℕ
  | .insert p | .free p | .destroyFree _ p | .rootFree p _ _ => some p
  | .idle | .create _ _ | .terminate | .call _ _ | .find _ | .destroy _ | .root => none

def closes : KeyPoint → Option Id
  | .destroy key | .destroyFree key _ => some key
  | .idle | .create _ _ | .insert _ | .find _ | .free _ | .terminate | .root | .rootFree _ _ _
  | .call _ _ => none

end KeyPoint

/-- The keys, and the pairs by their addresses. `known` are all pairs of the pool, `history` is not
in the code. -/
structure PosixKeys where
  state : Id → KeyState
  destructor : Id → ℕ
  chain : Id → List ℕ
  pair : ℕ → KeyValuePair
  tree : Thread → List ℕ
  pool : List ℕ
  known : List ℕ
  owner : Option Thread
  point : Thread → KeyPoint
  history : List KeyLog

/-- What may happen next, with nodes for the pool and the root of the tree. -/
inductive KeyAction
  | keyCreate (key : Id) (destructor : ℕ)
  | keyDelete (t : Thread) (key : Id)
  | setspecific (t : Thread) (key : Id) (value : ℕ)
  | getspecific (t : Thread) (key : Id)
  | terminate (t : Thread)
  | proceed (t : Thread) (fresh : List ℕ) (root : ℕ)
  deriving DecidableEq

namespace PosixKeys

variable (s : PosixKeys) (t : Thread)

/-- A thread comes to a point, with or without the allocator mutex. -/
def goto (p : KeyPoint) : PosixKeys :=
  { s with
    point := update s.point t p
    owner := if p.owns then some t else if s.owner = some t then none else s.owner }

def note (e : KeyLog) : PosixKeys := { s with history := s.history ++ [e] }

/-- `_POSIX_Keys_Key_value_find`. -/
def find (key : Id) : Option ℕ := (s.tree t).find? fun p => (s.pair p).key = key

def lookup (key : Id) : ℕ :=
  match s.find t key with
  | some p => (s.pair p).value
  | none => 0

/-- `_RBTree_Extract` from the tree of a thread. -/
def extract (p : ℕ) : PosixKeys :=
  { s with tree := update s.tree t ((s.tree t).erase p) }

def keyValueFree (p : ℕ) : PosixKeys :=
  let key := (s.pair p).key
  { s with chain := update s.chain key ((s.chain key).erase p), pool := p :: s.pool }

/-- `_Freechain_Get`, with the nodes that the workspace would give. -/
def freechainGet (fresh : List ℕ) : PosixKeys × Option ℕ :=
  let s₁ := if s.pool = [] then { s with pool := fresh, known := s.known ++ fresh } else s
  match s₁.pool with
  | [] => (s₁, none)
  | p :: rest => ({ s₁ with pool := rest }, some p)

/-- `_POSIX_Keys_Create_value`, up to the acquisition of the lock of the thread. -/
def createValue (key : Id) (value : ℕ) (fresh : List ℕ) : PosixKeys :=
  if s.state key = .opened then
    match s.freechainGet fresh with
    | (s₁, none) => s₁.goto t .idle
    | (s₁, some p) =>
      { s₁ with
        pair := update s₁.pair p ⟨key, t, value⟩
        chain := update s₁.chain key (s₁.chain key ++ [p]) }.goto t (.insert p)
  else s.goto t .idle

/-- The rest of `_POSIX_Keys_Create_value`. -/
def keyValueInsert (p : ℕ) : PosixKeys :=
  let c := s.pair p
  ({ s with
    tree := update s.tree t
      (SearchTree.insertBehind (fun q => (s.pair q).key) p (s.tree t)) }.note
        (.set t c.key c.value)).goto t .idle

/-- `_POSIX_Keys_Delete_value`, with the lock of the thread. -/
def deleteValue (key : Id) : PosixKeys :=
  match s.find t key with
  | some p => ((s.extract t p).note (.set t key 0)).goto t (.free p)
  | none => (s.note (.set t key 0)).goto t .idle

/-- A round of `_POSIX_Keys_Destroy`, up to the release of the thread. -/
def destroy (key : Id) : PosixKeys :=
  match s.chain key with
  | [] => ({ s with state := update s.state key .unused }.note (.deleted key)).goto t .idle
  | p :: _ =>
    let u := (s.pair p).thread
    ((s.extract u p).note (.dropped u key)).goto t (.destroyFree key p)

/-- A round of `_POSIX_Keys_Run_destructors`, with the lock of the thread. -/
def takeRoot (root : ℕ) : Option PosixKeys :=
  if s.tree t = [] then some ((s.note (.terminated t)).goto t .idle)
  else if root ∈ s.tree t then
    let c := s.pair root
    some (((s.extract t root).note (.taken t c.key c.value)).goto t (.rootFree root c.key c.value))
  else none

/-- A thread goes on. It waits for the mutex if another thread owns it. -/
def proceed (fresh : List ℕ) (root : ℕ) : Option PosixKeys :=
  match s.point t with
  | .idle => none
  | .create key value =>
    if s.owner = none ∧ fresh.Nodup ∧ ∀ p ∈ fresh, p ∉ s.known then
      some (s.createValue t key value fresh)
    else none
  | .insert p => some (s.keyValueInsert t p)
  | .find key => some (s.deleteValue t key)
  | .free p => some ((s.keyValueFree p).goto t .idle)
  | .destroy key => some (s.destroy t key)
  | .destroyFree key p => some ((s.keyValueFree p).goto t (.destroy key))
  | .terminate => if s.owner = none then some (s.goto t .root) else none
  | .root => s.takeRoot t root
  | .rootFree p key value => some ((s.keyValueFree p).goto t (.call (s.destructor key) value))
  | .call destructor value =>
    if destructor ≠ 0 ∧ value ≠ 0 then
      some ((s.note (.called t destructor value)).goto t .terminate)
    else some (s.goto t .terminate)

/-- `pthread_setspecific`, up to the first release of a lock. -/
def setspecific (key : Id) (value : ℕ) : Option PosixKeys :=
  if value ≠ 0 then
    match s.find t key with
    | some p =>
      some ({ s with
        pair := update s.pair p { s.pair p with value := value } }.note
          (.set t key value))
    | none => some (s.goto t (.create key value))
  else if s.owner = none then
    if s.state key = .opened then some (s.goto t (.find key)) else some s
  else none

/-- `pthread_key_delete`, up to the loop of `_POSIX_Keys_Destroy`. -/
def keyDelete (key : Id) : Option PosixKeys :=
  if s.owner = none then
    if s.state key = .opened then
      some (({ s with state := update s.state key .closing }.note (.closed key)).goto t
        (.destroy key))
    else some s
  else none

/-- `pthread_key_create` with the key that is allocated. -/
def keyCreate (key : Id) (destructor : ℕ) : Option PosixKeys :=
  if s.owner = none ∧ s.state key = .unused then
    some ({ s with
      state := update s.state key .opened
      destructor := update s.destructor key destructor
      chain := update s.chain key [] }.note (.created key destructor))
  else none

/-- One step. A thread makes a call when it is in no other one; a destructor may get values. -/
def step : KeyAction → Option PosixKeys
  | .keyCreate key destructor => s.keyCreate key destructor
  | .keyDelete t key => if s.point t = .idle then s.keyDelete t key else none
  | .setspecific t key value => if s.point t = .idle then s.setspecific t key value else none
  | .getspecific t key =>
    if (s.point t).owns = false then some (s.note (.got t key (s.lookup t key))) else none
  | .terminate t =>
    if s.point t = .idle then some ((s.note (.exiting t)).goto t .terminate) else none
  | .proceed t fresh root => s.proceed t fresh root

def initial (pool : List ℕ) (pair : ℕ → KeyValuePair) : PosixKeys :=
  { state := fun _ => .unused, destructor := fun _ => 0, chain := fun _ => [], pair := pair
    tree := fun _ => [], pool := pool, known := pool, owner := none, point := fun _ => .idle
    history := [] }

/-! ## Where the pairs are -/

/-- Each pair is in the pool, or on the chain of its key and, unless in a hand, in its tree. -/
structure Placed (s : PosixKeys) (hand : Option ℕ) : Prop where
  chain : ∀ k p, p ∈ s.chain k →
    (s.pair p).key = k ∧ p ∉ s.pool ∧ p ∈ s.known ∧ (s.pair p).value ≠ 0
  chain_nodup : ∀ k, (s.chain k).Nodup
  tree : ∀ t p, p ∈ s.tree t ↔
    p ∈ s.chain (s.pair p).key ∧ (s.pair p).thread = t ∧ hand ≠ some p
  tree_nodup : ∀ t, (s.tree t).Nodup
  unique : ∀ t p q, p ∈ s.tree t → q ∈ s.tree t → (s.pair p).key = (s.pair q).key → p = q
  pool : ∀ p ∈ s.pool, p ∈ s.known
  pool_nodup : s.pool.Nodup
  known : ∀ p ∈ s.known, p ∈ s.pool ∨ p ∈ s.chain (s.pair p).key

variable {fresh : List ℕ} {u : Thread}

section Placed

variable {s t} {s' : PosixKeys} {hand : Option ℕ} {p : ℕ} {k : Id}

theorem Placed.of_eq (h : Placed s hand) (hchain : s'.chain = s.chain) (hpair : s'.pair = s.pair)
    (htree : s'.tree = s.tree) (hpool : s'.pool = s.pool) (hknown : s'.known = s.known) :
    Placed s' hand := by
  cases s
  cases s'
  subst hchain hpair htree hpool hknown
  exact { h with }

theorem Placed.extend (h : Placed s hand) (hp : s.pool = []) (hn : fresh.Nodup)
    (hf : ∀ p ∈ fresh, p ∉ s.known) :
    Placed { s with pool := fresh, known := s.known ++ fresh } hand := by
  refine ⟨?_, h.chain_nodup, h.tree, h.tree_nodup, h.unique, ?_, hn, ?_⟩
  · intro k p hm
    obtain ⟨hk, -, hknown, hv⟩ := h.chain k p hm
    exact ⟨hk, fun hq => hf p hq hknown, mem_append_left _ hknown, hv⟩
  · exact fun p hq => mem_append_right _ hq
  · intro p hq
    rcases mem_append.mp hq with hq | hq
    · have hor := h.known p hq; rw [hp] at hor; exact .inr (hor.resolve_left not_mem_nil)
    · exact .inl hq

theorem Placed.allocate (h : Placed s none) {rest : List ℕ} (hp : s.pool = p :: rest) {value : ℕ}
    (hv : value ≠ 0) :
    Placed { s with
      pool := rest
      pair := update s.pair p ⟨k, t, value⟩
      chain := update s.chain k (s.chain k ++ [p]) } (some p) := by
  have hnodup := h.pool_nodup
  rw [hp, nodup_cons] at hnodup
  have hpool : p ∈ s.pool := by rw [hp]; exact mem_cons_self
  have hnot : ∀ k, p ∉ s.chain k := fun k hm => (h.chain k p hm).2.1 hpool
  have hne : ∀ {k q}, q ∈ s.chain k → q ≠ p := by rintro k q hm rfl; exact hnot k hm
  have hchain : ∀ k' q, q ∈ update s.chain k (s.chain k ++ [p]) k' ↔
      q ∈ s.chain k' ∨ (q = p ∧ k' = k) := by
    intro k' q
    rw [update_apply]
    split_ifs with hk
    · simp [hk]
    · simp [hk]
  refine ⟨?_, ?_, ?_, h.tree_nodup, ?_, ?_, hnodup.2, ?_⟩
  · intro k' q hm
    rcases (hchain k' q).mp hm with hm | ⟨rfl, rfl⟩
    · obtain ⟨hk, hpl, hknown, hval⟩ := h.chain k' q hm
      refine ⟨?_, fun hr => hpl ?_, hknown, ?_⟩
      · dsimp only; rw [update_of_ne (hne hm)]; exact hk
      · rw [hp]; exact mem_cons_of_mem p hr
      · dsimp only; rw [update_of_ne (hne hm)]; exact hval
    · refine ⟨?_, hnodup.1, h.pool q hpool, ?_⟩
      · dsimp only; rw [update_self]
      · dsimp only; rw [update_self]; exact hv
  · intro k'
    dsimp only
    rw [update_apply]
    split_ifs with hk
    · refine nodup_append.mpr ⟨h.chain_nodup k, nodup_singleton p, ?_⟩
      intro a ha b hb hab
      rw [mem_singleton] at hb
      exact hnot k (hb ▸ hab ▸ ha)
    · exact h.chain_nodup k'
  · intro u q
    by_cases hq : q = p
    · subst hq; simp only [h.tree, hnot, false_and, ne_eq, not_true_eq_false, and_false]
    · dsimp only; rw [h.tree, update_of_ne hq, hchain]; simp [hq, Ne.symm hq]
  · intro u q r hq hr hk
    have hqp : q ≠ p := hne ((h.tree u q).mp hq).1
    have hrp : r ≠ p := hne ((h.tree u r).mp hr).1
    dsimp only at hk
    rw [update_of_ne hqp, update_of_ne hrp] at hk
    exact h.unique u q r hq hr hk
  · intro q hq
    refine h.pool q ?_
    rw [hp]
    exact mem_cons_of_mem p hq
  · intro q hq
    by_cases hqp : q = p
    · subst hqp
      refine .inr ((hchain _ q).mpr (.inr ⟨rfl, ?_⟩))
      dsimp only
      rw [update_self]
    · dsimp only
      rw [update_of_ne hqp, hchain]
      have hor := h.known q hq
      rw [hp, mem_cons] at hor
      rcases hor with (hor | hor) | hor
      · exact absurd hor hqp
      · exact .inl hor
      · exact .inr (.inl hor)

/-- A pair comes into the tree of its thread. -/
def inserted (s : PosixKeys) (p : ℕ) : PosixKeys :=
  { s with
    tree := update s.tree (s.pair p).thread (SearchTree.insertBehind
      (fun q => (s.pair q).key) p (s.tree (s.pair p).thread)) }

theorem mem_inserted {q : ℕ} :
    q ∈ (s.inserted p).tree u ↔ q ∈ s.tree u ∨ (q = p ∧ u = (s.pair p).thread) := by
  simp only [inserted, update_apply]
  split_ifs with hu
  · rw [SearchTree.mem_insertBehind, hu]; simp [or_comm]
  · simp [hu]

theorem Placed.insert (h : Placed s (some p)) (hc : p ∈ s.chain (s.pair p).key)
    (hu : ∀ q ∈ s.tree (s.pair p).thread, (s.pair q).key ≠ (s.pair p).key) :
    Placed (s.inserted p) none := by
  have hnot : ∀ u, p ∉ s.tree u := fun u hm => ((h.tree u p).mp hm).2.2 rfl
  refine { h with tree := ?_, tree_nodup := ?_, unique := ?_ }
  · intro u q
    refine mem_inserted.trans ?_
    rw [h.tree, inserted]
    by_cases hq : q = p
    · subst hq; simp [hc, eq_comm]
    · simp [hq, Ne.symm hq]
  · intro u
    simp only [inserted, update_apply]
    split_ifs with hu
    · rw [SearchTree.perm_insertBehind.nodup_iff, nodup_cons]; exact ⟨hnot _, h.tree_nodup _⟩
    · exact h.tree_nodup u
  · intro u q r hq hr hk
    rcases mem_inserted.mp hq with hq' | ⟨rfl, rfl⟩
    · rcases mem_inserted.mp hr with hr' | ⟨rfl, rfl⟩
      · exact h.unique u q r hq' hr' hk
      · exact absurd hk (hu q hq')
    · rcases mem_inserted.mp hr with hr' | ⟨rfl, -⟩
      · exact absurd hk.symm (hu r hr')
      · rfl

theorem Placed.mem_extract (h : Placed s none) (hp : p ∈ s.tree t) {q : ℕ} :
    q ∈ (s.extract t p).tree u ↔ q ∈ s.tree u ∧ q ≠ p := by
  simp only [PosixKeys.extract, update_apply]
  split_ifs with hu
  · rw [(h.tree_nodup t).mem_erase_iff, hu]; exact and_comm
  · refine ⟨fun hq => ⟨hq, ?_⟩, And.left⟩
    rintro rfl
    exact hu (((h.tree u q).mp hq).2.1.symm.trans ((h.tree t q).mp hp).2.1)

theorem Placed.extract (h : Placed s none) (hp : p ∈ s.tree t) :
    Placed (s.extract t p) (some p) := by
  refine { h with tree := ?_, tree_nodup := ?_, unique := ?_ }
  · intro u q
    rw [h.mem_extract hp, h.tree]
    simp only [ne_eq, reduceCtorEq, not_false_eq_true, and_true, Option.some.injEq,
      eq_comm]
    exact and_assoc
  · intro u
    change (update s.tree t ((s.tree t).erase p) u).Nodup
    rw [update_apply]
    split_ifs
    · exact (h.tree_nodup t).erase p
    · exact h.tree_nodup u
  · intro u q r hq hr
    exact h.unique u q r ((h.mem_extract hp).mp hq).1 ((h.mem_extract hp).mp hr).1

theorem Placed.keyValueFree (h : Placed s (some p)) (hc : p ∈ s.chain (s.pair p).key) :
    Placed (s.keyValueFree p) none := by
  have hchain : ∀ k q, q ∈ (s.keyValueFree p).chain k ↔ q ∈ s.chain k ∧ q ≠ p := by
    intro k q
    change q ∈ update s.chain (s.pair p).key ((s.chain (s.pair p).key).erase p) k ↔ _
    rw [update_apply]
    split_ifs with hk
    · rw [(h.chain_nodup _).mem_erase_iff, hk]; exact and_comm
    · refine ⟨fun hq => ⟨hq, ?_⟩, And.left⟩
      rintro rfl
      exact hk (h.chain k q hq).1.symm
  obtain ⟨-, hpool, hknown, -⟩ := h.chain _ p hc
  refine ⟨?_, ?_, ?_, h.tree_nodup, h.unique, ?_, nodup_cons.mpr ⟨hpool, h.pool_nodup⟩, ?_⟩
  · intro k q hq
    obtain ⟨hq, hne⟩ := (hchain k q).mp hq
    obtain ⟨hk, hpl, hkn, hv⟩ := h.chain k q hq
    exact ⟨hk, fun hm => (mem_cons.mp hm).elim hne hpl, hkn, hv⟩
  · intro k
    change (update s.chain (s.pair p).key ((s.chain (s.pair p).key).erase p) k).Nodup
    rw [update_apply]
    split_ifs
    · exact (h.chain_nodup _).erase p
    · exact h.chain_nodup k
  · intro u q
    rw [hchain]
    refine (h.tree u q).trans ?_
    simp only [ne_eq, reduceCtorEq, not_false_eq_true, and_true, Option.some.injEq,
      eq_comm]
    tauto
  · intro q hq
    rcases mem_cons.mp hq with rfl | hq
    · exact hknown
    · exact h.pool q hq
  · intro q hq
    by_cases hqp : q = p
    · exact .inl (hqp ▸ mem_cons_self)
    · exact (h.known q hq).imp (mem_cons_of_mem p) fun hm => (hchain _ q).mpr ⟨hm, hqp⟩

/-! ## What is found -/

theorem lookup_of_mem (h : Placed s hand) (hp : p ∈ s.tree t) :
    s.lookup t (s.pair p).key = (s.pair p).value := by
  have hfind : s.find t (s.pair p).key = some p := by
    cases hf : s.find t (s.pair p).key with
    | none => have hnone := find?_eq_none.mp hf p hp; simp at hnone
    | some q =>
      have hq := find?_some hf
      rw [h.unique t q p (mem_of_find?_eq_some hf) hp (of_decide_eq_true hq)]
  rw [lookup, hfind]

theorem lookup_of_not_mem (h : ∀ p ∈ s.tree t, (s.pair p).key ≠ k) : s.lookup t k = 0 := by
  have hfind : s.find t k = none := by rw [find, find?_eq_none]; intro p hp; simpa using h p hp
  rw [lookup, hfind]

theorem lookup_eq (h : Placed s hand) {v : ℕ}
    (hsome : ∀ p ∈ s.tree t, (s.pair p).key = k → (s.pair p).value = v)
    (hnone : (∀ p ∈ s.tree t, (s.pair p).key ≠ k) → v = 0) : s.lookup t k = v := by
  by_cases hex : ∃ p ∈ s.tree t, (s.pair p).key = k
  · obtain ⟨p, hp, rfl⟩ := hex; rw [lookup_of_mem h hp]; exact hsome p hp rfl
  · have hno : ∀ p ∈ s.tree t, (s.pair p).key ≠ k := fun p hp hk => hex ⟨p, hp, hk⟩
    rw [lookup_of_not_mem hno, hnone hno]

theorem lookup_congr (htree : s'.tree t = s.tree t) (hpair : ∀ p ∈ s.tree t, s'.pair p = s.pair p) :
    s'.lookup t k = s.lookup t k := by
  have hfind : s'.find t k = s.find t k := by
    rw [find, find, htree]
    refine find?_congr fun p hp => ?_
    rw [hpair p hp]
  rw [lookup, lookup, hfind]
  cases hf : s.find t k with
  | none => rfl
  | some p => exact congrArg KeyValuePair.value (hpair p (mem_of_find?_eq_some hf))

end Placed

/-! ## The invariant -/

/-- The pair in the hand of the owner of the mutex. -/
def hand : Option ℕ := s.owner.bind fun u => (s.point u).held

def PointOk : KeyPoint → Prop
  | .create key value => value ≠ 0 ∧ ∀ p ∈ s.tree t, (s.pair p).key ≠ key
  | .insert p => p ∈ s.chain (s.pair p).key ∧ (s.pair p).thread = t ∧
    s.state (s.pair p).key = .opened ∧ ∀ q ∈ s.tree t, (s.pair q).key ≠ (s.pair p).key
  | .find key => s.state key = .opened
  | .free p => p ∈ s.chain (s.pair p).key
  | .destroy key => s.state key = .closing
  | .destroyFree key p => s.state key = .closing ∧ p ∈ s.chain (s.pair p).key
  | .rootFree p key value =>
    s.state key = .opened ∧ p ∈ s.chain (s.pair p).key ∧ (s.pair p).key = key ∧ value ≠ 0
  | .idle | .terminate | .root | .call _ _ => True

def phaseAt : KeyPoint → KeyPhase
  | .idle | .create _ _ | .insert _ | .find _ | .free _ | .destroy _ | .destroyFree _ _ => .running
  | .terminate | .root => .exiting
  | .rootFree _ key value => destructorPhase (s.destructor key) value
  | .call destructor value => destructorPhase destructor value

def spec : KeySpec := ⟨s.state, s.destructor, s.lookup, fun u => s.phaseAt (s.point u)⟩

structure Ok (s : PosixKeys) : Prop where
  placed : Placed s s.hand
  owner : ∀ t, (s.point t).owns = true ↔ s.owner = some t
  point : ∀ t, s.PointOk t (s.point t)
  used : ∀ k, s.chain k ≠ [] → s.state k ≠ .unused
  closing : ∀ k, s.state k = .closing → ∃ t, (s.point t).closes = some k
  traced : run KeySpec.step .initial s.history = some s.spec

variable {s t} {s₁ : PosixKeys} {y : KeyPoint}

theorem owns_of_held {p : ℕ} (h : y.held = some p) : y.owns = true := by
  cases y with
  | insert | free | destroyFree | rootFree => rfl
  | idle | create | terminate | call | find | destroy | root => cases h

theorem owns_of_closes {k : Id} (h : y.closes = some k) : y.owns = true := by
  cases y with
  | destroy | destroyFree => rfl
  | idle | create | insert | find | free | terminate | root | rootFree | call => cases h

theorem hand_goto (h : s₁.owner = none ∨ s₁.owner = some t) : (s₁.goto t y).hand = y.held := by
  rw [hand, goto]
  by_cases hy : y.owns = true
  · simp [hy]
  · have hheld : y.held = none := by
      cases hh : y.held with
      | none => rfl
      | some p => exact absurd (owns_of_held hh) hy
    rcases h with h | h
    · simp [hy, h, hheld]
    · simp [hy, h, hheld]

/-- Without the mutex, a thread is where nothing depends on the keys. -/
theorem phaseAt_of_owns (h : y.owns = false) : s₁.phaseAt y = s.phaseAt y := by
  cases y with
  | rootFree => cases h
  | _ => rfl

theorem spec_goto (hpoint : s₁.point = s.point) (hother : ∀ u, u ≠ t → (s.point u).owns = false) :
    (s₁.goto t y).spec = ⟨s₁.state, s₁.destructor, s₁.lookup,
      update s.spec.phase t (s₁.phaseAt y)⟩ := by
  have hphase : (fun u => (s₁.goto t y).phaseAt ((s₁.goto t y).point u)) =
      update s.spec.phase t (s₁.phaseAt y) := by
    funext u
    change s₁.phaseAt (update s₁.point t y u) = _
    by_cases hu : u = t
    · rw [hu, update_self, update_self]
    · rw [update_of_ne hu, update_of_ne hu, hpoint]; exact phaseAt_of_owns (hother u hu)
  rw [spec, hphase]
  rfl

variable {l : List KeyLog}

/-- A step of a thread that has the mutex before or after it, or finds it free. -/
theorem Ok.goto (h : s.Ok) (hpoint : s₁.point = s.point) (howner : s₁.owner = s.owner)
    (hfree : s.owner = none ∨ s.owner = some t) (hplaced : Placed s₁ y.held)
    (hy : s₁.PointOk t y)
    (hother : ∀ u, u ≠ t → ∀ p ∈ s₁.tree u, p ∈ s.tree u ∧ (s₁.pair p).key = (s.pair p).key)
    (hused : ∀ k, s₁.chain k ≠ [] → s₁.state k ≠ .unused)
    (hclosing : ∀ k, s₁.state k = .closing → y.closes = some k)
    (hhistory : s₁.history = s.history ++ l)
    (hl : run KeySpec.step s.spec l = some ⟨s₁.state, s₁.destructor, s₁.lookup,
      update s.spec.phase t (s₁.phaseAt y)⟩) : (s₁.goto t y).Ok := by
  have howns : ∀ u, u ≠ t → (s.point u).owns = false := by
    intro u hu
    rw [Bool.eq_false_iff]
    intro ho
    rw [h.owner] at ho
    rcases hfree with hf | hf
    · rw [hf] at ho; cases ho
    · rw [hf] at ho; exact hu (some_inj.mp ho).symm
  have hpt : ∀ u, (s₁.goto t y).point u = if u = t then y else s.point u := by
    intro u; rw [← hpoint]; exact update_apply s₁.point t y u
  refine ⟨?_, ?_, ?_, hused, ?_, ?_⟩
  · rw [hand_goto (by rw [howner]; exact hfree)]
    exact hplaced.of_eq rfl rfl rfl rfl rfl
  · intro u
    rw [hpt]
    change _ ↔ (if y.owns then some t else if s₁.owner = some t then none else s₁.owner) = some u
    rw [howner]
    by_cases hu : u = t
    · subst hu
      by_cases hyo : y.owns = true
      · simp [hyo]
      · rcases hfree with hf | hf
        · simp [hyo, hf]
        · simp [hyo, hf]
    · rw [if_neg hu, howns u hu]
      by_cases hyo : y.owns = true
      · simp [hyo, Ne.symm hu]
      · rcases hfree with hf | hf
        · simp [hyo, hf]
        · simp [hyo, hf]
  · intro u
    rw [hpt]
    by_cases hu : u = t
    · rw [if_pos hu, hu]; exact hy
    · rw [if_neg hu]
      have hpu := h.point u
      have hou := howns u hu
      generalize s.point u = z at hpu hou
      cases z with
      | create key value =>
        refine ⟨hpu.1, fun p hp => ?_⟩
        obtain ⟨hp, hk⟩ := hother u hu p hp
        change (s₁.pair p).key ≠ key
        rw [hk]
        exact hpu.2 p hp
      | idle | terminate | call => trivial
      | insert | find | free | destroy | destroyFree | root | rootFree => cases hou
  · intro k hk
    refine ⟨t, ?_⟩
    rw [hpt, if_pos rfl]
    exact hclosing k hk
  · rw [spec_goto hpoint howns]
    change run KeySpec.step .initial s₁.history = _
    rw [hhistory]
    exact (run_append_eq_some _).mpr ⟨_, h.traced, hl⟩

theorem Ok.owned (h : s.Ok) (hp : s.point t = y) (hy : y.owns = true) :
    s.owner = some t ∧ Placed s y.held ∧ s.PointOk t y ∧ s.phaseAt (s.point t) = s.phaseAt y := by
  subst hp
  have howner := (h.owner t).mp hy
  have hplaced := h.placed
  rw [hand, howner, bind_some] at hplaced
  exact ⟨howner, hplaced, h.point t, rfl⟩

theorem hand_eq_none (h : s.owner = none) : s.hand = none := by
  rw [hand, h, bind_none]

theorem Ok.placed_of_free (h : s.Ok) (hfree : s.owner = none) : Placed s none :=
  hand_eq_none hfree ▸ h.placed

theorem Ok.closing_at (h : s.Ok) (hfree : s.owner = none ∨ s.owner = some t) {k : Id}
    (hk : s.state k = .closing) : (s.point t).closes = some k := by
  obtain ⟨u, hu⟩ := h.closing k hk
  have hown : s.owner = some u := (h.owner u).mp (owns_of_closes hu)
  rcases hfree with hf | hf
  · rw [hf] at hown; cases hown
  · rw [hf] at hown; cases hown; exact hu

theorem Ok.not_closing (h : s.Ok) (hfree : s.owner = none ∨ s.owner = some t)
    (hc : (s.point t).closes = none) (k : Id) : s.state k ≠ .closing := by
  intro hk
  have hsome := h.closing_at hfree hk
  rw [hc] at hsome
  cases hsome

theorem spec_eq (hstate : s₁.state = s.state) (hdestructor : s₁.destructor = s.destructor)
    (hlookup : s₁.lookup = s.lookup) (hphase : s₁.phaseAt y = s.phaseAt (s.point t)) :
    run KeySpec.step s.spec [] = some ⟨s₁.state, s₁.destructor, s₁.lookup,
      update s.spec.phase t (s₁.phaseAt y)⟩ := by
  have hself : update s.spec.phase t (s₁.phaseAt y) = s.spec.phase := by
    rw [hphase]; exact update_eq_self t s.spec.phase
  rw [hstate, hdestructor, hlookup, hself]
  rfl

theorem Ok.keyValueFree (h : s.Ok) {p : ℕ} (hheld : (s.point t).held = some p)
    (hc : p ∈ s.chain (s.pair p).key) (hheld' : y.held = none) (hy : (s.keyValueFree p).PointOk t y)
    (hclosing : ∀ k, s.state k = .closing → y.closes = some k)
    (hphase : s.phaseAt y = s.phaseAt (s.point t)) : ((s.keyValueFree p).goto t y).Ok := by
  obtain ⟨howner, hplaced, -, -⟩ := h.owned rfl (owns_of_held hheld)
  rw [hheld] at hplaced
  refine h.goto rfl rfl (.inr howner) ?_ hy (fun u _ q hq => ⟨hq, rfl⟩) ?_ hclosing (append_nil _).symm (spec_eq rfl rfl rfl hphase)
  · rw [hheld']; exact hplaced.keyValueFree hc
  · intro k hk
    refine h.used k fun hnil => hk ?_
    change update s.chain (s.pair p).key ((s.chain (s.pair p).key).erase p) k = []
    rw [update_apply]
    split_ifs with hkey
    · rw [← hkey, hnil]; rfl
    · exact hnil

theorem lookup_extract (h : Placed s none) {p : ℕ} (hp : p ∈ s.tree u) :
    (s.extract u p).lookup = fun v k => if v = u ∧ k = (s.pair p).key then 0 else s.lookup v k := by
  funext v k
  refine lookup_eq (h.extract hp) (fun q hq hk => ?_) fun hno => ?_
  · obtain ⟨hq', hne⟩ := (h.mem_extract hp).mp hq
    rw [if_neg fun hc => ?_]
    · rw [← hk]; exact (lookup_of_mem h hq').symm
    · obtain ⟨rfl, rfl⟩ := hc; exact hne (h.unique v q p hq' hp hk)
  · split_ifs with hc
    · rfl
    · refine lookup_of_not_mem fun q hq hk => ?_
      refine hno q ((h.mem_extract hp).mpr ⟨hq, ?_⟩) hk
      rintro rfl
      exact hc ⟨((h.tree v q).mp hq).2.1.symm.trans ((h.tree u q).mp hp).2.1, hk.symm⟩

theorem Ok.extract (h : s.Ok) (howner : s.owner = some t) (hplaced : Placed s none)
    {p : ℕ} (hp : p ∈ s.tree u) (hheld' : y.held = some p)
    (hy : (s.extract u p).PointOk t y)
    (hclosing : ∀ k, s.state k = .closing → y.closes = some k)
    {e : KeyLog} (he : s.spec.step e = some ⟨s.state, s.destructor,
      fun v k => if v = u ∧ k = (s.pair p).key then 0 else s.lookup v k,
      update s.spec.phase t (s.phaseAt y)⟩) :
    (((s.extract u p).note e).goto t y).Ok := by
  refine h.goto rfl rfl (.inr howner) ?_ hy ?_ h.used hclosing rfl ?_
  · rw [hheld']; exact (hplaced.extract hp).of_eq rfl rfl rfl rfl rfl
  · intro v _ q hq; exact ⟨((hplaced.mem_extract hp).mp hq).1, rfl⟩
  · rw [run_cons, he, bind_some, run_nil, ← lookup_extract hplaced hp]; rfl

/-! ## The steps -/

theorem Ok.chain_eq_nil (h : s.Ok) {k : Id} (hk : s.state k = .unused) : s.chain k = [] := by
  by_contra hne
  exact h.used k hne hk

theorem spec_update {c : KeyPhase} (h : s.phaseAt (s.point t) = c) {a : KeySpec}
    (ha : a.phase = s.spec.phase) : some a = some { a with phase := update s.spec.phase t c } := by
  have hself : update s.spec.phase t c = a.phase := by
    rw [← h, ha]; exact update_eq_self t s.spec.phase
  rw [hself]

section

variable (h : s.Ok)

include h

theorem Ok.lookup_of_chain {k : Id} (hk : s.chain k = []) (t : Thread) : s.lookup t k = 0 := by
  refine lookup_of_not_mem fun p hp hkey => ?_
  have hm := ((h.placed.tree t p).mp hp).1
  rw [hkey, hk] at hm
  exact absurd hm not_mem_nil

theorem Ok.move (ho : (s.point t).owns = false) (hy : y.owns = false) (hpy : s.PointOk t y)
    (hl : run KeySpec.step s.spec l =
      some { s.spec with phase := update s.spec.phase t (s.phaseAt y) }) :
    (PosixKeys.goto { s with history := s.history ++ l } t y).Ok := by
  have hnot : s.owner ≠ some t := by intro hown; rw [(h.owner t).mpr hown] at ho; cases ho
  set s₁ : PosixKeys := PosixKeys.goto { s with history := s.history ++ l } t y
  have howner : s₁.owner = s.owner := by
    change (if y.owns then some t else if s.owner = some t then none else s.owner) = s.owner
    rw [hy, if_neg Bool.false_ne_true, if_neg hnot]
  have hpt : ∀ u, s₁.point u = if u = t then y else s.point u := fun u => update_apply s.point t y u
  have hhand : s₁.hand = s.hand := by
    rw [hand, hand, howner]
    cases hown : s.owner with
    | none => rfl
    | some u =>
      have hu : u ≠ t := by rintro rfl; exact hnot hown
      rw [bind_some, bind_some, hpt, if_neg hu]
  refine ⟨?_, ?_, ?_, h.used, ?_, ?_⟩
  · rw [hhand]; exact h.placed.of_eq rfl rfl rfl rfl rfl
  · intro u
    rw [hpt, howner]
    by_cases hu : u = t
    · rw [if_pos hu, hy, hu]; simp [hnot]
    · rw [if_neg hu]; exact h.owner u
  · intro u
    rw [hpt]
    by_cases hu : u = t
    · rw [if_pos hu, hu]; exact hpy
    · rw [if_neg hu]; exact h.point u
  · intro k hk
    obtain ⟨u, hu⟩ := h.closing k hk
    have hut : u ≠ t := by rintro rfl; rw [owns_of_closes hu] at ho; cases ho
    refine ⟨u, ?_⟩
    rw [hpt, if_neg hut]
    exact hu
  · have hspec : s₁.spec = { s.spec with phase := update s.spec.phase t (s.phaseAt y) } := by
      have hphase : (fun u => s₁.phaseAt (s₁.point u)) = update s.spec.phase t (s.phaseAt y) := by
        funext u
        rw [hpt, update_apply]
        split_ifs
        · rfl
        · rfl
      rw [spec, hphase]
      rfl
    rw [hspec]
    exact (run_append_eq_some _).mpr ⟨_, h.traced, hl⟩

theorem Ok.acquire (hfree : s.owner = none) (ho : (s.point t).owns = false)
    (hy : s.PointOk t y) (hheld : y.held = none) (hphase : s.phaseAt y = s.phaseAt (s.point t)) :
    (s.goto t y).Ok := by
  refine h.goto rfl rfl (.inl hfree) ?_ hy (fun _ _ _ hp => ⟨hp, rfl⟩) h.used ?_
    (append_nil _).symm (spec_eq rfl rfl rfl hphase)
  · rw [hheld]; exact h.placed_of_free hfree
  · intro k hk; rw [owns_of_closes (h.closing_at (.inl hfree) hk)] at ho; cases ho

theorem Ok.keyCreate {key : Id} {destructor : ℕ} {s' : PosixKeys}
    (hs : s.keyCreate key destructor = some s') : s'.Ok := by
  rw [PosixKeys.keyCreate] at hs
  split_ifs at hs with hc
  cases hs
  obtain ⟨hfree, hunused⟩ := hc
  have howns : ∀ u, (s.point u).owns = false := by
    intro u
    rw [Bool.eq_false_iff]
    intro ho
    rw [h.owner, hfree] at ho
    cases ho
  have hchain : update s.chain key [] = s.chain := by
    rw [← h.chain_eq_nil hunused]; exact update_eq_self key s.chain
  rw [hchain]
  refine ⟨h.placed.of_eq rfl rfl rfl rfl rfl, h.owner, ?_, ?_, ?_, ?_⟩
  · intro u
    have hpu := h.point u
    have hou := howns u
    change PointOk _ u (s.point u)
    generalize s.point u = z at hpu hou
    cases z with
    | create => exact hpu
    | idle | terminate | call => trivial
    | insert | find | free | destroy | destroyFree | root | rootFree => cases hou
  · intro k hk
    change update s.state key .opened k ≠ .unused
    rw [update_apply]
    split_ifs
    · exact KeyState.noConfusion
    · exact h.used k hk
  · intro k hk
    change update s.state key .opened k = .closing at hk
    rw [update_apply] at hk
    split_ifs at hk
    exact h.closing k hk
  · refine (run_append_eq_some _).mpr ⟨_, h.traced, ?_⟩
    refine Eq.trans (run_singleton _
      (if_pos ⟨hunused, h.lookup_of_chain (h.chain_eq_nil hunused)⟩)) ?_
    have hphase : (fun u => s.phaseAt (s.point u)) = fun u => phaseAt { s with
        state := update s.state key .opened
        destructor := update s.destructor key destructor } (s.point u) := by
      funext u
      exact phaseAt_of_owns (howns u)
    rw [spec, hphase]
    rfl

theorem Ok.keyDelete (hidle : s.point t = .idle) {key : Id} {s' : PosixKeys}
    (hs : s.keyDelete t key = some s') : s'.Ok := by
  rw [PosixKeys.keyDelete] at hs
  split_ifs at hs with hfree hopen
  · cases hs
    refine h.goto rfl rfl (.inl hfree) ?_ ?_ (fun _ _ _ hp => ⟨hp, rfl⟩) ?_ ?_ rfl ?_
    · exact (h.placed_of_free hfree).of_eq rfl rfl rfl rfl rfl
    · exact update_self key _ _
    · intro k hk
      change update s.state key .closing k ≠ .unused
      rw [update_apply]
      split_ifs
      · exact KeyState.noConfusion
      · exact h.used k hk
    · intro k hk
      change update s.state key .closing k = .closing at hk
      rw [update_apply] at hk
      split_ifs at hk with hkey
      · rw [hkey]; rfl
      · have hp := h.closing_at (t := t) (.inl hfree) hk; rw [hidle] at hp; cases hp
    · refine Eq.trans (run_singleton _ (if_pos hopen)) ?_
      exact spec_update (by rw [hidle]; rfl) rfl
  · cases hs; exact h

theorem Ok.getspecific (t : Thread) (key : Id) : (s.note (.got t key (s.lookup t key))).Ok := by
  refine ⟨h.placed.of_eq rfl rfl rfl rfl rfl, h.owner, h.point, h.used, h.closing, ?_⟩
  refine (run_append_eq_some _).mpr ⟨_, h.traced, ?_⟩
  exact run_singleton _ (if_pos rfl)

theorem Ok.setValue (hidle : s.point t = .idle) {p value : ℕ} (hp : p ∈ s.tree t) (hv : value ≠ 0) :
    Ok (PosixKeys.note { s with
      pair := update s.pair p { s.pair p with value := value } }
      (.set t (s.pair p).key value)) := by
  set s₁ : PosixKeys := PosixKeys.note { s with
    pair := update s.pair p { s.pair p with value := value } } (.set t (s.pair p).key value)
  have hpair : ∀ q, s₁.pair q = if q = p then { s.pair p with value := value } else s.pair q :=
    fun q => update_apply s.pair p _ q
  have hkey : ∀ q, (s₁.pair q).key = (s.pair q).key := by
    intro q
    rw [hpair]
    split_ifs with hq
    · rw [hq]
    · rfl
  have hthread : ∀ q, (s₁.pair q).thread = (s.pair q).thread := by
    intro q
    rw [hpair]
    split_ifs with hq
    · rw [hq]
    · rfl
  have hplaced : Placed s₁ s.hand := by
    refine ⟨?_, h.placed.chain_nodup, ?_, h.placed.tree_nodup, ?_, h.placed.pool,
      h.placed.pool_nodup, ?_⟩
    · intro k q hq
      obtain ⟨hk, hpool, hknown, hval⟩ := h.placed.chain k q hq
      refine ⟨(hkey q).trans hk, hpool, hknown, ?_⟩
      rw [hpair]
      split_ifs
      · exact hv
      · exact hval
    · intro u q; rw [hkey, hthread]; exact h.placed.tree u q
    · intro u q r hq hr hk; rw [hkey, hkey] at hk; exact h.placed.unique u q r hq hr hk
    · intro q hq; rw [hkey]; exact h.placed.known q hq
  have hlookup : s₁.lookup = fun u k =>
      if u = t ∧ k = (s.pair p).key then value else s.lookup u k := by
    funext u k
    refine lookup_eq hplaced (fun q hq hk => ?_) fun hno => ?_
    · rw [hkey] at hk
      rw [hpair]
      split_ifs with hqp hc hc
      · rfl
      · subst hqp
        have hu := ((h.placed.tree u q).mp hq).2.1.symm.trans ((h.placed.tree t q).mp hp).2.1
        exact absurd ⟨hu, hk.symm⟩ hc
      · obtain ⟨rfl, rfl⟩ := hc; exact absurd (h.placed.unique u q p hq hp hk) hqp
      · rw [← hk]; exact (lookup_of_mem h.placed hq).symm
    · rw [if_neg fun hc => ?_]
      · refine lookup_of_not_mem fun q hq => ?_
        rw [← hkey]
        exact hno q hq
      · obtain ⟨rfl, rfl⟩ := hc; exact hno p hp (hkey p)
  refine ⟨hplaced, h.owner, ?_, h.used, h.closing, ?_⟩
  · intro u
    have hpu := h.point u
    change s₁.PointOk u (s.point u)
    generalize s.point u = z at hpu
    cases z with
    | create key value => exact ⟨hpu.1, fun q hq => by rw [hkey]; exact hpu.2 q hq⟩
    | insert q =>
      refine ⟨?_, ?_, ?_, ?_⟩
      · rw [hkey]; exact hpu.1
      · rw [hthread]; exact hpu.2.1
      · rw [hkey]; exact hpu.2.2.1
      · intro r hr; rw [hkey, hkey]; exact hpu.2.2.2 r hr
    | free q => change q ∈ s.chain (s₁.pair q).key; rw [hkey]; exact hpu
    | destroyFree k q => refine ⟨hpu.1, ?_⟩; rw [hkey]; exact hpu.2
    | rootFree q k v =>
      refine ⟨hpu.1, ?_, ?_, hpu.2.2.2⟩
      · rw [hkey]; exact hpu.2.1
      · rw [hkey]; exact hpu.2.2.1
    | idle | terminate | call | find | destroy | root => exact hpu
  · refine (run_append_eq_some _).mpr ⟨_, h.traced, ?_⟩
    have hused : s.state (s.pair p).key ≠ .unused := by
      refine h.used _ fun hnil => ?_
      have hm := ((h.placed.tree t p).mp hp).1
      rw [hnil] at hm
      exact absurd hm not_mem_nil
    have hphase : s.phaseAt (s.point t) = .running := by rw [hidle]; rfl
    rw [run_singleton _ (KeySpec.step_set hused hphase)]
    change _ = some (KeySpec.mk s.state s.destructor s₁.lookup s.spec.phase)
    rw [hlookup]
    rfl

theorem Ok.setspecific (hidle : s.point t = .idle) {key : Id} {value : ℕ}
    {s' : PosixKeys} (hs : s.setspecific t key value = some s') : s'.Ok := by
  rw [PosixKeys.setspecific] at hs
  have ho : (s.point t).owns = false := by rw [hidle]; rfl
  split_ifs at hs with hv hfree hopen
  · cases hf : s.find t key with
    | some p =>
      rw [hf] at hs
      cases hs
      have hk : (s.pair p).key = key := by
        have hfound := find?_some hf; exact of_decide_eq_true hfound
      rw [← hk]
      exact h.setValue hidle (mem_of_find?_eq_some hf) hv
    | none =>
      rw [hf] at hs
      cases hs
      have hno : ∀ p ∈ s.tree t, (s.pair p).key ≠ key := by
        intro p hp; have hne := find?_eq_none.mp hf p hp; simpa using hne
      have hok := h.move ho (y := .create key value) rfl ⟨hv, hno⟩ (l := [])
        (spec_update (by rw [hidle]; rfl) rfl)
      rw [append_nil] at hok
      exact hok
  · cases hs; exact h.acquire hfree ho hopen rfl (by rw [hidle]; rfl)
  · cases hs; exact h

end

theorem lookup_insert {p : ℕ} (h : Placed s (some p)) (hc : p ∈ s.chain (s.pair p).key)
    (hu : ∀ q ∈ s.tree (s.pair p).thread, (s.pair q).key ≠ (s.pair p).key) :
    (s.inserted p).lookup = fun u k =>
      if u = (s.pair p).thread ∧ k = (s.pair p).key then (s.pair p).value else s.lookup u k := by
  funext u k
  refine lookup_eq (h.insert hc hu) (fun q hq hk => ?_) fun hno => ?_
  · rcases mem_inserted.mp hq with hq' | ⟨rfl, rfl⟩
    · rw [if_neg fun hc => ?_]
      · rw [← hk]; exact (lookup_of_mem h hq').symm
      · obtain ⟨rfl, rfl⟩ := hc; exact hu q hq' hk
    · exact (if_pos ⟨rfl, hk.symm⟩).symm
  · rw [if_neg fun hc => ?_]
    · exact lookup_of_not_mem fun q hq => hno q (mem_inserted.mpr (.inl hq))
    · obtain ⟨rfl, rfl⟩ := hc; exact hno p (mem_inserted.mpr (.inr ⟨rfl, rfl⟩)) rfl

theorem Ok.keyValueInsert (h : s.Ok) {p : ℕ} (hp : s.point t = .insert p) :
    (s.keyValueInsert t p).Ok := by
  obtain ⟨howner, hplaced, ⟨hc, rfl, hopen, hu⟩, hphase⟩ := h.owned hp rfl
  refine h.goto rfl rfl (.inr howner) ?_ trivial ?_ h.used ?_ rfl ?_
  · exact (hplaced.insert hc hu).of_eq rfl rfl rfl rfl rfl
  · intro u hne q hq
    refine ⟨?_, rfl⟩
    change q ∈ update s.tree (s.pair p).thread _ u at hq
    rw [update_of_ne hne] at hq
    exact hq
  · intro k hk; exact absurd hk (h.not_closing (.inr howner) (by rw [hp]; rfl) k)
  · have hused : s.state (s.pair p).key ≠ .unused := by rw [hopen]; exact KeyState.noConfusion
    rw [run_singleton _ (KeySpec.step_set hused hphase)]
    change _ = some (KeySpec.mk s.state s.destructor (s.inserted p).lookup _)
    rw [lookup_insert hplaced hc hu]
    exact spec_update hphase rfl

theorem freechainGet_cases (h : Placed s none) (hn : fresh.Nodup) (hf : ∀ p ∈ fresh, p ∉ s.known) :
    ∃ pool known, Placed { s with pool := pool, known := known } none ∧
      (s.freechainGet fresh = ({ s with pool := pool, known := known }, none) ∨
        ∃ p rest, pool = p :: rest ∧
          s.freechainGet fresh = ({ s with pool := rest, known := known }, some p)) := by
  rw [freechainGet]
  by_cases hpool : s.pool = []
  · refine ⟨fresh, s.known ++ fresh, h.extend hpool hn hf, ?_⟩
    rw [if_pos hpool]
    cases fresh with
    | nil => exact .inl rfl
    | cons p rest => exact .inr ⟨p, rest, rfl, rfl⟩
  · refine ⟨s.pool, s.known, h, ?_⟩
    rw [if_neg hpool]
    cases hp : s.pool with
    | nil => exact absurd hp hpool
    | cons p rest => exact .inr ⟨p, rest, rfl, rfl⟩

section

variable (h : s.Ok)

include h

theorem Ok.createValue {key : Id} {value : ℕ} (hp : s.point t = .create key value)
    (hfree : s.owner = none) (hn : fresh.Nodup) (hf : ∀ p ∈ fresh, p ∉ s.known) :
    (s.createValue t key value fresh).Ok := by
  have hpoint := h.point t
  rw [hp] at hpoint
  obtain ⟨hv, hno⟩ := hpoint
  have hphase : s.phaseAt (s.point t) = .running := by rw [hp]; rfl
  have hclosing := h.not_closing (.inl hfree) (by rw [hp]; rfl)
  have hplaced := h.placed_of_free hfree
  rw [PosixKeys.createValue]
  by_cases hopen : s.state key = .opened
  · rw [if_pos hopen]
    obtain ⟨pool, known, hpl, hget | ⟨p, rest, rfl, hget⟩⟩ := freechainGet_cases hplaced hn hf
    · rw [hget]
      exact h.goto rfl rfl (.inl hfree) hpl trivial (fun _ _ _ hq => ⟨hq, rfl⟩) h.used
        (fun k hk => absurd hk (hclosing k)) (append_nil _).symm
        (spec_eq rfl rfl rfl hphase.symm)
    · rw [hget]
      have hnew := hpl.allocate (k := key) (t := t) rfl hv
      have hne : ∀ u, ∀ q ∈ s.tree u, q ≠ p := by
        rintro u q hq rfl; exact ((hnew.tree u q).mp hq).2.2 rfl
      refine h.goto rfl rfl (.inl hfree) (hnew.of_eq rfl rfl rfl rfl rfl) ?_ ?_ ?_
        (fun k hk => absurd hk (hclosing k)) (append_nil _).symm
        (spec_eq rfl rfl ?_ hphase.symm)
      · have hself : update s.pair p ⟨key, t, value⟩ p = ⟨key, t, value⟩ := update_self p _ _
        refine ⟨?_, ?_, ?_, ?_⟩
        · dsimp only; rw [hself, update_self]; exact mem_append_right _ (mem_singleton.mpr rfl)
        · dsimp only; rw [hself]
        · dsimp only; rw [hself]; exact hopen
        · intro q hq
          dsimp only
          rw [hself, update_of_ne (hne t q hq)]
          exact hno q hq
      · intro u _ q hq
        refine ⟨hq, ?_⟩
        dsimp only
        rw [update_of_ne (hne u q hq)]
      · intro k hk
        by_cases hkey : k = key
        · rw [hkey]; rw [hopen]; exact KeyState.noConfusion
        · dsimp only at hk; rw [update_of_ne hkey] at hk; exact h.used k hk
      · funext u k; exact lookup_congr rfl fun q hq => update_of_ne (hne u q hq) _ _
  · rw [if_neg hopen]
    exact h.goto rfl rfl (.inl hfree) hplaced trivial (fun _ _ _ hq => ⟨hq, rfl⟩) h.used
      (fun k hk => absurd hk (hclosing k)) (append_nil _).symm
      (spec_eq rfl rfl rfl hphase.symm)

theorem Ok.deleteValue {key : Id} (hp : s.point t = .find key) : (s.deleteValue t key).Ok := by
  obtain ⟨howner, hplaced, hopen, hphase⟩ := h.owned hp rfl
  have hused : s.state key ≠ .unused := by
    rw [show s.state key = .opened from hopen]; exact KeyState.noConfusion
  have hclosing := h.not_closing (.inr howner) (by rw [hp]; rfl)
  rw [PosixKeys.deleteValue]
  cases hf : s.find t key with
  | some p =>
    have hm : p ∈ s.tree t := mem_of_find?_eq_some hf
    have hk : (s.pair p).key = key := by
      have hfound := find?_some hf; exact of_decide_eq_true hfound
    refine h.extract howner hplaced hm (y := .free p) rfl ((hplaced.tree t p).mp hm).1
      (fun k hk => absurd hk (hclosing k)) ?_
    rw [KeySpec.step_set hused hphase, hk]
    exact spec_update hphase rfl
  | none =>
    refine h.goto rfl rfl (.inr howner) (hplaced.of_eq rfl rfl rfl rfl rfl) trivial
      (fun _ _ _ hq => ⟨hq, rfl⟩) h.used (fun k hk => absurd hk (hclosing k))
      rfl ?_
    rw [run_singleton _ (KeySpec.step_set hused hphase)]
    change _ = some (KeySpec.mk s.state s.destructor s.lookup _)
    have hput : (fun u k => if u = t ∧ k = key then 0 else s.lookup u k) = s.lookup := by
      funext u k
      split_ifs with hc
      · rw [hc.1, hc.2, lookup, hf]
      · rfl
    rw [← hput]
    exact spec_update hphase rfl

theorem Ok.destroy {key : Id} (hp : s.point t = .destroy key) : (s.destroy t key).Ok := by
  obtain ⟨howner, hplaced, hstate, hphase⟩ := h.owned hp rfl
  have hclosing : ∀ k, s.state k = .closing → k = key := by
    intro k hk
    have hd := h.closing_at (.inr howner) hk
    rw [hp] at hd
    cases hd
    rfl
  rw [PosixKeys.destroy]
  cases hc : s.chain key with
  | nil =>
    refine h.goto rfl rfl (.inr howner) (hplaced.of_eq rfl rfl rfl rfl rfl) trivial
      (fun _ _ _ hq => ⟨hq, rfl⟩) ?_ ?_ rfl ?_
    · intro k hk
      have hne : k ≠ key := by rintro rfl; exact hk hc
      change update s.state key .unused k ≠ .unused
      rw [update_of_ne hne]
      exact h.used k hk
    · intro k hk
      change update s.state key .unused k = .closing at hk
      rw [update_apply] at hk
      split_ifs at hk with hne
      exact absurd (hclosing k hk) hne
    · refine Eq.trans (run_singleton _ (if_pos ⟨hstate, h.lookup_of_chain hc⟩)) ?_
      exact spec_update hphase rfl
  | cons p rest =>
    have hm : p ∈ s.chain key := by rw [hc]; exact mem_cons_self
    obtain rfl := (hplaced.chain key p hm).1
    have hmem : p ∈ s.tree (s.pair p).thread :=
      (hplaced.tree _ p).mpr ⟨hm, rfl, (some_ne_none p).symm⟩
    refine h.extract howner hplaced hmem (y := .destroyFree (s.pair p).key p) rfl ⟨hstate, hm⟩
      (fun k hk => by rw [hclosing k hk]; rfl) ?_
    exact Eq.trans (if_pos hstate) (spec_update hphase rfl)

theorem Ok.takeRoot (hp : s.point t = .root) {root : ℕ} {s' : PosixKeys}
    (hs : s.takeRoot t root = some s') : s'.Ok := by
  obtain ⟨howner, hplaced, -, hphase⟩ := h.owned hp rfl
  have hclosing := h.not_closing (.inr howner) (by rw [hp]; rfl)
  rw [PosixKeys.takeRoot] at hs
  split_ifs at hs with hnil hroot
  · cases hs
    refine h.goto rfl rfl (.inr howner) (hplaced.of_eq rfl rfl rfl rfl rfl) trivial
      (fun _ _ _ hq => ⟨hq, rfl⟩) h.used (fun k hk => absurd hk (hclosing k))
      rfl ?_
    have hzero : ∀ k, s.lookup t k = 0 := by
      intro k
      refine lookup_of_not_mem fun p hm => ?_
      rw [hnil] at hm
      exact absurd hm not_mem_nil
    exact run_singleton _ (if_pos ⟨hphase, hzero⟩)
  · cases hs
    obtain ⟨hc, -, -⟩ := (hplaced.tree t root).mp hroot
    obtain ⟨-, -, -, hv⟩ := hplaced.chain _ root hc
    have hopen : s.state (s.pair root).key = .opened := by
      cases hstate : s.state (s.pair root).key with
      | opened => rfl
      | unused => exact absurd hstate (h.used _ (ne_nil_of_mem hc))
      | closing => exact absurd hstate (hclosing _)
    refine h.extract howner hplaced hroot
      (y := .rootFree root (s.pair root).key (s.pair root).value) rfl ⟨hopen, hc, rfl, hv⟩
      (fun k hk => absurd hk (hclosing k)) ?_
    exact if_pos ⟨hopen, (lookup_of_mem hplaced hroot).symm, hv, hphase⟩

theorem Ok.call {destructor value : ℕ} (hp : s.point t = .call destructor value)
    (hl : l = if destructor ≠ 0 ∧ value ≠ 0 then [.called t destructor value] else []) :
    (PosixKeys.goto { s with history := s.history ++ l } t .terminate).Ok := by
  have ho : (s.point t).owns = false := by rw [hp]; rfl
  have hphase : s.phaseAt (s.point t) = destructorPhase destructor value := by rw [hp]; rfl
  refine h.move ho rfl trivial ?_
  rw [hl]
  rw [destructorPhase] at hphase
  split_ifs at hphase ⊢
  · exact run_singleton _ (if_pos hphase)
  · exact spec_update hphase rfl

theorem Ok.proceed {root : ℕ} {s' : PosixKeys} (hs : s.proceed t fresh root = some s') : s'.Ok := by
  rw [PosixKeys.proceed] at hs
  have hpoint := h.point t
  cases hp : s.point t with
  | idle => rw [hp] at hs; cases hs
  | create key value =>
    rw [hp] at hs
    dsimp only at hs
    split_ifs at hs with hc
    cases hs
    exact h.createValue hp hc.1 hc.2.1 hc.2.2
  | insert p => rw [hp] at hs; cases hs; exact h.keyValueInsert hp
  | find key => rw [hp] at hs; cases hs; exact h.deleteValue hp
  | free p =>
    rw [hp] at hs hpoint
    cases hs
    refine h.keyValueFree (by rw [hp]; rfl) hpoint rfl trivial (fun k hk => absurd hk ?_)
      (by rw [hp]; rfl)
    exact h.not_closing (.inr ((h.owner t).mp (by rw [hp]; rfl))) (by rw [hp]; rfl) k
  | destroy key => rw [hp] at hs; cases hs; exact h.destroy hp
  | destroyFree key p =>
    rw [hp] at hs hpoint
    cases hs
    refine h.keyValueFree (by rw [hp]; rfl) hpoint.2 rfl hpoint.1 (fun k hk => ?_) (by rw [hp]; rfl)
    have hd := h.closing_at (.inr ((h.owner t).mp (by rw [hp]; rfl))) hk
    rw [hp] at hd
    exact hd
  | terminate =>
    rw [hp] at hs
    dsimp only at hs
    split_ifs at hs with hfree
    cases hs
    exact h.acquire hfree (by rw [hp]; rfl) trivial rfl (by rw [hp]; rfl)
  | root => rw [hp] at hs; exact h.takeRoot hp hs
  | rootFree p key value =>
    rw [hp] at hs hpoint
    cases hs
    refine h.keyValueFree (by rw [hp]; rfl) hpoint.2.1 rfl trivial (fun k hk => absurd hk ?_)
      (by rw [hp]; rfl)
    exact h.not_closing (.inr ((h.owner t).mp (by rw [hp]; rfl))) (by rw [hp]; rfl) k
  | call destructor value =>
    rw [hp] at hs
    dsimp only at hs
    split_ifs at hs with hc
    · cases hs; exact h.call hp (if_pos hc).symm
    · cases hs
      have hok := h.call hp (if_neg hc).symm
      rw [append_nil] at hok
      exact hok

theorem Ok.step {e : KeyAction} {s' : PosixKeys} (hs : s.step e = some s') : s'.Ok := by
  cases e with
  | keyCreate key destructor => exact h.keyCreate hs
  | keyDelete t key =>
    rw [PosixKeys.step] at hs
    split_ifs at hs with hidle
    exact h.keyDelete hidle hs
  | setspecific t key value =>
    rw [PosixKeys.step] at hs
    split_ifs at hs with hidle
    exact h.setspecific hidle hs
  | getspecific t key =>
    rw [PosixKeys.step] at hs
    split_ifs at hs
    cases hs
    exact h.getspecific t key
  | terminate t =>
    rw [PosixKeys.step] at hs
    split_ifs at hs with hidle
    cases hs
    refine h.move (by rw [hidle]; rfl) rfl trivial ?_
    refine run_singleton _ (if_pos ?_)
    change s.phaseAt (s.point t) = .running
    rw [hidle]
    rfl
  | proceed t fresh root => exact h.proceed hs

end

theorem ok_initial {pool : List ℕ} (hpool : pool.Nodup) (pair : ℕ → KeyValuePair) :
    (initial pool pair).Ok := by
  refine ⟨?_, ?_, fun _ => trivial, fun k hk => absurd rfl hk, ?_, rfl⟩
  · refine ⟨?_, fun _ => nodup_nil, ?_, fun _ => nodup_nil, ?_, fun p hp => hp, hpool,
      fun p hp => .inl hp⟩
    · intro k p hp; exact absurd hp not_mem_nil
    · intro t p; exact iff_of_false not_mem_nil fun hp => not_mem_nil hp.1
    · intro t p q hp; exact absurd hp not_mem_nil
  · intro t; exact iff_of_false Bool.false_ne_true (some_ne_none t).symm
  · intro k hk; cases hk

/-! ## The map -/

variable (s)

def Pooled (p : ℕ) : Prop :=
  s.pool.count p = 1 ∧ (∀ k, p ∉ s.chain k) ∧ ∀ u, p ∉ s.tree u

/-- The pair is once on the chain of its key and, unless in a hand, in its tree. -/
def InUse (p : ℕ) : Prop :=
  p ∉ s.pool ∧ (∀ k, (s.chain k).count p = if k = (s.pair p).key then 1 else 0) ∧
    ∀ u, (s.tree u).count p = if u = (s.pair p).thread ∧ s.hand ≠ some p then 1 else 0

variable {s}

theorem Placed.pooled_or_inUse (h : Placed s s.hand) {p : ℕ} (hp : p ∈ s.known) :
    s.Pooled p ∨ s.InUse p := by
  rcases h.known p hp with hpool | hchain
  · have hnot : ∀ k, p ∉ s.chain k := fun k hm => (h.chain k p hm).2.1 hpool
    exact .inl ⟨count_eq_one_of_mem h.pool_nodup hpool, hnot,
      fun u hm => hnot _ ((h.tree u p).mp hm).1⟩
  · refine .inr ⟨(h.chain _ p hchain).2.1, fun k => ?_, fun u => ?_⟩
    · split_ifs with hk
      · rw [hk]; exact count_eq_one_of_mem (h.chain_nodup _) hchain
      · exact count_eq_zero_of_not_mem fun hm => hk (h.chain k p hm).1.symm
    · split_ifs with hu
      · exact count_eq_one_of_mem (h.tree_nodup u) ((h.tree u p).mpr ⟨hchain, hu.1.symm, hu.2⟩)
      · refine count_eq_zero_of_not_mem fun hm => hu ?_
        obtain ⟨-, ht, hh⟩ := (h.tree u p).mp hm
        exact ⟨ht.symm, hh⟩

end PosixKeys

end Rtems
