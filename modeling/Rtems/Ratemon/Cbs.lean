import Rtems.Ratemon.Edf
import Rtems.Score.CbsServer

/-!
# Periods under the CBS scheduler

`schedulercbsreleasejob.c`, `schedulercbs.c`, `schedulercbsunblock.c` and the tick of
`schedulerdefaulttick.c` for threads that are attached to a server, or to none, throughout. The
scheduler remembers one `deadline_node` for each thread, whatever the number of its periods.

* `step`: the period manager over this scheduler, with ticks, blocked and unblocked threads;
* **`contributes_iff_outstanding`**: whose nodes are in the aggregations if the scheduler remembers
  the job that is cancelled; **`exists_forgotten`** without this.
-/

namespace Rtems

open Function PartialRun Option

/-- The period manager, the priority nodes and the CBS nodes. `outstanding`, a job neither cancelled
nor ended, and `charged`, the ticks since the last release, are not in the code. -/
structure Cbs where
  edf : Edf
  server : Thread → Option CbsServer
  cpuTimeBudget : Thread → ℕ
  deadlineNode : Thread → Option Id
  ready : Thread → Bool
  overruns : List (ℕ × Thread)
  outstanding : Id → Bool
  charged : Thread → ℕ

/-- An action of the period manager, a tick of a thread, or a change of its state. -/
inductive CbsJobAction
  | sys (a : Action)
  | tick (t : Thread)
  | block (t : Thread)
  | unblock (t : Thread)

namespace Cbs

variable (c : Cbs)

def sys : Sys := c.edf.sys

/-- The contributors to the priority of a thread. -/
def contributors (t : Thread) : List JobNode := (c.edf.aggregation t).contributors

def Active (t : Thread) : Prop := ∃ id, .job id ∈ c.contributors t

instance (t : Thread) : Decidable (c.Active t) :=
  decidable_of_iff (∃ n ∈ c.contributors t, n ≠ .real) <| by
    constructor
    · rintro ⟨n, hn, hr⟩
      cases n with
      | real => exact absurd rfl hr
      | job id => exact ⟨id, hn⟩
    · rintro ⟨id, hid⟩; exact ⟨_, hid, JobNode.noConfusion⟩

/-- The budget of a thread after a release: that of its server. -/
def replenished (t : Thread) : Thread → ℕ :=
  match c.server t with
  | some server => update c.cpuTimeBudget t (server.parameters.budget.toNat % 2 ^ 32)
  | none => c.cpuTimeBudget

def releaseJob (id : Id) (t : Thread) (deadline : ℕ) : Option Cbs := do
  let e ← c.edf.releaseJob id t deadline
  some { c with
    edf := e
    cpuTimeBudget := c.replenished t
    deadlineNode := update c.deadlineNode t (some id)
    outstanding := update c.outstanding id true
    charged := update c.charged t 0 }

def cancelJob (id : Id) (t : Thread) : Option Cbs :=
  if c.deadlineNode t ≠ none then do
    let e ← c.edf.cancelJob id t
    some { c with edf := e, deadlineNode := update c.deadlineNode t none }
  else some c

/-- The scheduler cancels the job of `deadline_node`. -/
def endJob (t : Thread) : Option Cbs :=
  match c.deadlineNode t with
  | none => some c
  | some id => do
    let c₁ ← c.cancelJob id t
    some { c₁ with outstanding := update c₁.outstanding id false }

def notify (t : Thread) : Cbs :=
  { c with
    overruns := match (c.server t).bind CbsServer.cbsBudgetOverrun with
      | some callback => (callback, t) :: c.overruns
      | none => c.overruns }

def budgetCallout (t : Thread) : Option Cbs := (c.endJob t).map fun c₁ => c₁.notify t

/-- `--cpu_time_budget`, which is a `uint32_t`. -/
def charge (t : Thread) : Cbs :=
  { c with
    cpuTimeBudget :=
      update c.cpuTimeBudget t ((c.cpuTimeBudget t + 2 ^ 32 - 1) % 2 ^ 32)
    charged := if c.Active t then update c.charged t (c.charged t + 1) else c.charged }

/-- `_Scheduler_default_Tick` for an attached thread; another one has no budget. -/
def tick (t : Thread) : Option Cbs :=
  if c.ready t = false ∨ c.server t = none then some c
  else if (c.charge t).cpuTimeBudget t = 0 then (c.charge t).budgetCallout t
  else some (c.charge t)

/-- The test of `_Scheduler_CBS_Unblock`, with the source's names; products have 64 bits. -/
def late (server : CbsServer) (t : Thread) : Bool :=
  let priority := (c.edf.aggregation t).priority
  let deadline := server.parameters.deadline.toNat
  let budget := server.parameters.budget.toNat
  let deadlineLeft := c.cpuTimeBudget t
  let budgetLeft := (priority + 2 ^ 64 - c.sys.clock.ticks % 2 ^ 64) % 2 ^ 64
  !priority.testBit 63 && decide (budget * deadlineLeft % 2 ^ 64 < deadline * budgetLeft % 2 ^ 64)

def endLate (t : Thread) : Option Cbs :=
  match c.server t with
  | some server => if c.late server t then c.endJob t else some c
  | none => some c

/-- `_Scheduler_CBS_Unblock`. -/
def unblock (t : Thread) : Option Cbs :=
  (c.endLate t).map fun c₁ => { c₁ with ready := update c₁.ready t true }

def perform : JobCall → Option Cbs
  | .create id => do
    let e ← c.edf.perform (.create id)
    some { c with edf := e, outstanding := update c.outstanding id false }
  | .release id t deadline => c.releaseJob id t deadline
  | .cancel id t => do
    let c₁ ← c.cancelJob id t
    some { c₁ with outstanding := update c₁.outstanding id false }

def moved (s : Sys) : Cbs := { c with edf := { c.edf with sys := s } }

/-- One action; a node outside the aggregation cannot be extracted. -/
def step : CbsJobAction → Option Cbs
  | .sys a => do
    let s ← c.sys.step a
    match c.sys.jobCall a with
    | none => some (c.moved s)
    | some call => (c.perform call).map fun c₁ => c₁.moved s
  | .tick t => c.tick t
  | .block t => some { c with ready := update c.ready t false }
  | .unblock t => if c.ready t = false then c.unblock t else none

/-- A started system: every thread has its real priority alone, in the background. -/
structure Boot (c : Cbs) : Prop where
  edf : c.edf.Boot
  background : ∀ t, 2 ^ 63 ≤ c.edf.realPriority t
  deadlineNode : ∀ t, c.deadlineNode t = none
  outstanding : ∀ id, c.outstanding id = false
  charged : ∀ t, c.charged t = 0

/-- A job is cancelled only if the scheduler remembers it, or neither it nor the period has one. -/
def Remembered : CbsJobAction → Prop
  | .sys a => ∀ id t, c.sys.jobCall a = some (.cancel id t) →
      c.deadlineNode t = some id ∨ c.deadlineNode t = none ∧ .job id ∉ c.contributors t
  | _ => True

/-! ## The nodes -/

/-- The priority node of a period fits the jobs of the period. -/
structure Tracked (c : Cbs) (id : Id) : Prop where
  job : ∀ t, .job id ∈ c.contributors t ↔
    (∃ b, c.sys.jobState id = some (t, b)) ∧ c.outstanding id = true
  offTree : ∀ t b, c.sys.jobState id = some (t, b) → c.edf.offTree id = !c.outstanding id

structure Ok (c : Cbs) : Prop where
  reachable : c.sys.Reachable
  sorted : ∀ t, (c.edf.aggregation t).Ok (c.edf.key t)
  real : ∀ t, .real ∈ c.contributors t
  tracked : ∀ id, c.Tracked id
  closed : ∀ id, c.sys.jobState id = none → c.outstanding id = false
  node : ∀ t id, c.deadlineNode t = some id → .job id ∈ c.contributors t

variable {c} {c' : Cbs}

theorem Tracked.congr {id : Id} (h : c.Tracked id)
    (hmem : ∀ t, .job id ∈ c'.contributors t ↔ .job id ∈ c.contributors t)
    (hsys : c'.sys.jobState id = c.sys.jobState id) (hoff : c'.edf.offTree id = c.edf.offTree id)
    (hout : c'.outstanding id = c.outstanding id) : c'.Tracked id where
  job t := by rw [hmem, hsys, hout, h.job]
  offTree t b := by rw [hsys, hoff, hout]; exact h.offTree t b

theorem Tracked.of_idle {id : Id} (hnot : ∀ t, .job id ∉ c'.contributors t)
    (hout : c'.outstanding id = false)
    (hoff : ∀ t b, c'.sys.jobState id = some (t, b) → c'.edf.offTree id = true) : c'.Tracked id where
  job t := by simp [hnot t, hout]
  offTree t b ht := by rw [hoff t b ht, hout]; rfl

theorem Ok.not_mem_of_outstanding (h : c.Ok) {x : Id} (hx : c.outstanding x = false) (t : Thread) :
    .job x ∉ c.contributors t := by
  rw [(h.tracked x).job, hx]
  simp

theorem Ok.outstanding_of_not_mem (h : c.Ok) {x : Id} {t : Thread} {b : Bool}
    (hx : c.sys.jobState x = some (t, b)) (hnot : .job x ∉ c.contributors t) :
    c.outstanding x = false := by
  rw [← Bool.not_eq_true]
  exact fun hout => hnot (((h.tracked x).job t).mpr ⟨⟨b, hx⟩, hout⟩)

variable {s : Sys}

/-- The period manager makes no call, or one for a period without a job. -/
theorem Ok.moved (h : c.Ok) (hr : s.Reachable)
    (hs : ∀ id, s.jobState id = c.sys.jobState id ∨ c.outstanding id = false ∧
      ∀ t b, s.jobState id = some (t, b) → c.edf.offTree id = true) : (c.moved s).Ok where
  reachable := hr
  sorted := h.sorted
  real := h.real
  tracked id := by
    rcases hs id with he | ⟨hout, hoff⟩
    · exact (h.tracked id).congr (fun _ => Iff.rfl) he rfl rfl
    · exact .of_idle (fun t => h.not_mem_of_outstanding hout t) hout hoff
  closed id hid := by
    rcases hs id with he | ⟨hout, -⟩
    · exact h.closed id (he.symm.trans hid)
    · exact hout
  node := h.node

theorem Ok.performCreate (h : c.Ok) {x : Id} (hr : s.Reachable)
    (he : c.sys.JobEffect s (some (.create x))) :
    ∃ c1, c.perform (.create x) = some c1 ∧ (c1.moved s).Ok := by
  obtain ⟨hx, -, -⟩ := id he
  have hout := h.closed x hx
  have hnot := h.not_mem_of_outstanding hout
  refine ⟨_, rfl, hr, fun u => Edf.sorted_update (h.sorted u) (hnot u) 0, h.real, fun id => ?_, ?_,
    h.node⟩
  · by_cases hid : id = x
    · rw [hid]; exact .of_idle hnot (update_self ..) fun _ _ _ => update_self ..
    · exact (h.tracked id).congr (fun u => Iff.rfl) (he.of_ne hid) (update_of_ne hid ..)
        (update_of_ne hid ..)
  · intro id hid
    by_cases hx' : id = x
    · rw [hx']; exact update_self ..
    · exact (update_of_ne hx' ..).trans (h.closed id ((he.of_ne hx').symm.trans hid))

def released (c : Cbs) (t : Thread) (x : Id) (d : ℕ) (a : Aggregation JobNode) : Cbs :=
  { c with
    edf := { c.edf with
      priority := update c.edf.priority x d
      aggregation := update c.edf.aggregation t a
      offTree := update c.edf.offTree x false }
    cpuTimeBudget := c.replenished t
    deadlineNode := update c.deadlineNode t (some x)
    outstanding := update c.outstanding x true
    charged := update c.charged t 0 }

/-- The scheduler after the job that it remembers was taken out. -/
def forgot (c : Cbs) (t : Thread) (x : Id) (a : Aggregation JobNode) : Cbs :=
  { c with
    edf := { c.edf with
      aggregation := update c.edf.aggregation t a
      offTree := update c.edf.offTree x true }
    deadlineNode := update c.deadlineNode t none
    outstanding := update c.outstanding x false }

section Fields

variable (c : Cbs) (t u : Thread) (x : Id) (d : ℕ) (a : Aggregation JobNode)

theorem contributors_update : (update c.edf.aggregation t a u).contributors =
      if u = t then a.contributors else c.contributors u := by
  rw [update_apply]
  split_ifs <;> rfl

theorem forgot_contributors :
    (c.forgot t x a).contributors u = if u = t then a.contributors else c.contributors u :=
  c.contributors_update t u a

theorem forgot_deadlineNode :
    (c.forgot t x a).deadlineNode u = if u = t then none else c.deadlineNode u :=
  update_apply ..

theorem released_contributors :
    (c.released t x d a).contributors u = if u = t then a.contributors else c.contributors u :=
  c.contributors_update t u a

theorem released_deadlineNode :
    (c.released t x d a).deadlineNode u = if u = t then some x else c.deadlineNode u :=
  update_apply ..

theorem released_charged : (c.released t x d a).charged u = if u = t then 0 else c.charged u :=
  update_apply ..

theorem charge_cpuTimeBudget : (c.charge t).cpuTimeBudget u =
      if u = t then (c.cpuTimeBudget t + 2 ^ 32 - 1) % 2 ^ 32 else c.cpuTimeBudget u :=
  update_apply ..

theorem charge_charged :
    (c.charge t).charged u = if u = t ∧ c.Active t then c.charged t + 1 else c.charged u := by
  change (if c.Active t then update c.charged t (c.charged t + 1) else c.charged) u = _
  split_ifs with h1 h2 h2
  · rw [h2.1, update_self]
  · exact update_of_ne (fun he => h2 ⟨he, h1⟩) _ _
  · exact absurd h2.2 h1
  · rfl

end Fields

section

variable (h : c.Ok)

include h

theorem Ok.releaseJob {x : Id} {t : Thread} {b : Bool}
    (hx : c.sys.jobState x = some (t, b)) (d : ℕ) : ∃ a,
      c.releaseJob x t d = some (c.released t x d a) ∧
      a.Ok ({ c.edf with priority := update c.edf.priority x d }.key t) ∧
      ∀ n, n ∈ a.contributors ↔ n = .job x ∨ n ∈ c.contributors t := by
  have hoff : c.edf.offTree x = false ↔ .job x ∈ c.contributors t := by
    rw [(h.tracked x).offTree t b hx, (h.tracked x).job t, Bool.not_eq_false']
    exact ⟨fun ho => ⟨⟨b, hx⟩, ho⟩, fun ho => ho.2⟩
  obtain ⟨a, hrel, hok, hmem⟩ := Edf.releaseJob_of (h.sorted t) hoff d
  exact ⟨a, by rw [Cbs.releaseJob, hrel]; rfl, hok, hmem⟩

theorem Ok.performRelease {x : Id} {t : Thread} {d : ℕ} (hr : s.Reachable)
    (he : c.sys.JobEffect s (some (.release x t d))) :
    ∃ c1, c.perform (.release x t d) = some c1 ∧ (c1.moved s).Ok := by
  obtain ⟨⟨b, hx⟩, ht, -⟩ := id he
  obtain ⟨a, hrel, hok, hmem⟩ := h.releaseJob hx d
  have hnot : ∀ u, u ≠ t → .job x ∉ c.contributors u := by
    intro u hu
    rw [(h.tracked x).job, hx]
    rintro ⟨⟨b', hb⟩, -⟩
    cases hb
    exact hu rfl
  have hmem' : ∀ n u, n ∈ (update c.edf.aggregation t a u).contributors ↔
      n ∈ c.contributors u ∨ u = t ∧ n = .job x := by
    intro n u
    rw [contributors_update]
    split_ifs with hu
    · rw [hmem, hu]
      exact ⟨fun hn => hn.symm.imp_right fun he => ⟨rfl, he⟩, fun hn => (hn.imp_right And.right).symm⟩
    · simp [hu]
  refine ⟨_, hrel, hr, fun u => ?_, fun u => ?_, fun id => ?_, fun id hid => ?_, fun u id hid => ?_⟩
  · change Aggregation.Ok ({ c.edf with priority := update c.edf.priority x d }.key u)
      (update c.edf.aggregation t a u)
    by_cases hu : u = t
    · rw [hu, update_self]; exact hok
    · rw [update_of_ne hu]; exact Edf.sorted_update (h.sorted u) (hnot u hu) d
  · exact (hmem' _ u).mpr (.inl (h.real u))
  · by_cases hid : id = x
    · rw [hid]
      constructor
      · intro u
        change _ ↔ (∃ b, s.jobState x = some (u, b)) ∧ update c.outstanding x true x = true
        rw [update_self, ht]
        refine (hmem' _ u).trans ⟨fun hu => ?_, fun hu => ?_⟩
        · rcases hu with hu | ⟨rfl, -⟩
          · obtain rfl : u = t := by
              by_contra hne
              exact hnot u hne hu
            exact ⟨⟨true, rfl⟩, rfl⟩
          · exact ⟨⟨true, rfl⟩, rfl⟩
        · obtain ⟨⟨b', hb⟩, -⟩ := hu; cases hb; exact .inr ⟨rfl, rfl⟩
      · intro u b' _
        change update c.edf.offTree x false x = !update c.outstanding x true x
        rw [update_self, update_self]
        rfl
    · refine (h.tracked id).congr (fun u => (hmem' _ u).trans ?_) (he.of_ne hid)
        (update_of_ne hid ..) (update_of_ne hid ..)
      simp [hid]
  · have hidx : id ≠ x := by rintro rfl; rw [show s.jobState id = none from hid] at ht; cases ht
    exact (update_of_ne hidx ..).trans (h.closed id ((he.of_ne hidx).symm.trans hid))
  · change update c.deadlineNode t (some x) u = some id at hid
    refine (hmem' _ u).mpr ?_
    by_cases hu : u = t
    · rw [hu, update_self] at hid; cases hid; exact .inr ⟨hu, rfl⟩
    · rw [update_of_ne hu] at hid; exact .inl (h.node u id hid)

theorem Ok.forgot {t : Thread} {x : Id} (hx : c.deadlineNode t = some x) :
    ∃ a, (do let c1 ← c.cancelJob x t
             some { c1 with outstanding := update c1.outstanding x false }) =
        some (c.forgot t x a) ∧
      (∀ n, n ∈ a.contributors ↔ n ≠ .job x ∧ n ∈ c.contributors t) ∧
      (c.forgot t x a).Ok := by
  have hin := h.node t x hx
  obtain ⟨⟨b, hjob⟩, -⟩ := ((h.tracked x).job t).mp hin
  obtain ⟨a, hcan, hok, hmem⟩ := Edf.cancelJob_of (h.sorted t) (h.real t) hin
  refine ⟨a, ?_, hmem, ?_⟩
  · rw [Cbs.cancelJob, if_pos (by rw [hx]; exact some_ne_none x), hcan]
    rfl
  have hmem' : ∀ n u, n ∈ (update c.edf.aggregation t a u).contributors ↔
      n ∈ c.contributors u ∧ ¬ (u = t ∧ n = .job x) := by
    intro n u
    rw [contributors_update]
    split_ifs with hu
    · rw [hmem, hu]; simp only [true_and]; exact And.comm
    · simp [hu]
  refine ⟨h.reachable, fun u => ?_, fun u => ?_, fun id => ?_, fun id hid => ?_, fun u id hid => ?_⟩
  · by_cases hu : u = t
    · simp only [Cbs.forgot, hu, update_self]; exact hok
    · simp only [Cbs.forgot, update_of_ne hu]; exact h.sorted u
  · exact (hmem' _ u).mpr ⟨h.real u, fun hc => by cases hc.2⟩
  · by_cases hid : id = x
    · rw [hid]
      refine .of_idle (fun u hu => ?_) (update_self ..) fun _ _ _ => update_self ..
      obtain ⟨hu, hne⟩ := (hmem' _ u).mp hu
      obtain ⟨⟨b', hb⟩, -⟩ := ((h.tracked x).job u).mp hu
      rw [hjob] at hb
      cases hb
      exact hne ⟨rfl, rfl⟩
    · refine (h.tracked id).congr (fun u => (hmem' _ u).trans ?_) rfl (update_of_ne hid ..)
        (update_of_ne hid ..)
      simp [hid]
  · have hidx : id ≠ x := by
      rintro rfl; rw [show c.sys.jobState id = none from hid] at hjob; cases hjob
    exact (update_of_ne hidx ..).trans (h.closed id hid)
  · change update c.deadlineNode t none u = some id at hid
    by_cases hu : u = t
    · rw [hu, update_self] at hid; cases hid
    · rw [update_of_ne hu] at hid; exact (hmem' _ u).mpr ⟨h.node u id hid, fun hc => hu hc.1⟩

theorem Ok.performCancel {x : Id} {t : Thread} (hr : s.Reachable)
    (he : c.sys.JobEffect s (some (.cancel x t)))
    (hrem : c.deadlineNode t = some x ∨ c.deadlineNode t = none ∧ .job x ∉ c.contributors t) :
    ∃ c1, c.perform (.cancel x t) = some c1 ∧ (c1.moved s).Ok := by
  obtain ⟨⟨b, hx⟩, hx', -⟩ := id he
  rcases hrem with hnode | ⟨hnode, hnot⟩
  · obtain ⟨a, hcan, -, hok⟩ := h.forgot hnode
    refine ⟨_, hcan, hok.moved hr fun id => ?_⟩
    by_cases hid : id = x
    · rw [hid]; exact .inr ⟨update_self .., fun _ _ _ => update_self ..⟩
    · exact .inl (he.of_ne hid)
  · have hout := h.outstanding_of_not_mem hx hnot
    have hsame : update c.outstanding x false = c.outstanding := by rw [← hout, update_eq_self]
    refine ⟨c, by simp [perform, Cbs.cancelJob, hnode, hsame], h.moved hr fun id => ?_⟩
    by_cases hid : id = x
    · rw [hid]
      refine .inr ⟨hout, fun _ _ _ => ?_⟩
      rw [(h.tracked x).offTree t b hx, hout]
      rfl
    · exact .inl (he.of_ne hid)

theorem Ok.congr (hedf : c'.edf = c.edf) (hout : c'.outstanding = c.outstanding)
    (hnode : c'.deadlineNode = c.deadlineNode) : c'.Ok where
  reachable := by rw [sys, hedf]; exact h.reachable
  sorted := by rw [hedf]; exact h.sorted
  real := by simp only [contributors, hedf]; exact h.real
  tracked id := (h.tracked id).congr (by simp only [contributors, hedf, implies_true])
    (by rw [sys, sys, hedf]) (by rw [hedf]) (by rw [hout])
  closed := by rw [hout, sys, hedf]; exact h.closed
  node := by simp only [contributors, hedf, hnode]; exact h.node

theorem Ok.endJob (t : Thread) : ∃ c1, c.endJob t = some c1 ∧ c1.Ok := by
  cases hx : c.deadlineNode t with
  | none => exact ⟨c, by rw [Cbs.endJob, hx], h⟩
  | some x =>
    obtain ⟨a, hcan, -, hok⟩ := h.forgot hx
    exact ⟨_, by rw [Cbs.endJob, hx]; exact hcan, hok⟩

theorem Ok.tick (t : Thread) : ∃ c1, c.tick t = some c1 ∧ c1.Ok := by
  have hcharge : (c.charge t).Ok := h.congr rfl rfl rfl
  rw [Cbs.tick]
  split_ifs with hr hb
  · exact ⟨c, rfl, h⟩
  · obtain ⟨c2, hc2, hok⟩ := hcharge.endJob t
    exact ⟨c2.notify t, by rw [budgetCallout, hc2]; rfl, hok.congr rfl rfl rfl⟩
  · exact ⟨_, rfl, hcharge⟩

theorem Ok.endLate (t : Thread) : ∃ c1, c.endLate t = some c1 ∧ c1.Ok := by
  rw [Cbs.endLate]
  split
  · split_ifs
    · exact h.endJob t
    · exact ⟨c, rfl, h⟩
  · exact ⟨c, rfl, h⟩

theorem Ok.unblock (t : Thread) : ∃ c1, c.unblock t = some c1 ∧ c1.Ok := by
  obtain ⟨c1, hc1, hok⟩ := h.endLate t
  exact ⟨{ c1 with ready := update c1.ready t true }, by rw [Cbs.unblock, hc1]; rfl,
    hok.congr rfl rfl rfl⟩

/-! ## Runs -/

theorem Ok.perform {a : Action} (hrem : c.Remembered (.sys a)) (hr : s.Reachable)
    (hs : c.sys.step a = some s) {call : JobCall} (hc : c.sys.jobCall a = some call) :
    ∃ c1, c.perform call = some c1 ∧ (c1.moved s).Ok := by
  have he := Sys.step_jobEffect h.reachable.books hs
  rw [hc] at he
  cases call with
  | create x => exact h.performCreate hr he
  | release x t d => exact h.performRelease hr he
  | cancel x t => exact h.performCancel hr he (hrem x t hc)

/-- **An action of the period manager can be made**, and keeps the invariant. -/
theorem Ok.stepSys {a : Action} (hrem : c.Remembered (.sys a))
    (hs : c.sys.step a = some s) : ∃ c', c.step (.sys a) = some c' ∧ c'.Ok := by
  have hr : s.Reachable := by
    obtain ⟨s0, as, h0, hrun⟩ := h.reachable
    refine ⟨s0, as ++ [a], h0, (run_append_eq_some Sys.step).mpr ⟨c.sys, hrun, ?_⟩⟩
    rw [run_cons, hs]
    rfl
  cases hc : c.sys.jobCall a with
  | none =>
    refine ⟨c.moved s, by simp [Cbs.step, hs, hc], h.moved hr fun id => .inl ?_⟩
    have he := Sys.step_jobEffect h.reachable.books hs
    rw [hc] at he
    exact he id
  | some call =>
    obtain ⟨c1, hc1, hok⟩ := h.perform hrem hr hs hc
    exact ⟨_, by simp [Cbs.step, hs, hc, hc1], hok⟩

theorem Ok.step {a : CbsJobAction} (hrem : c.Remembered a) (hs : c.step a = some c') : c'.Ok := by
  cases a with
  | sys a =>
    obtain ⟨s, hsys, -⟩ := bind_eq_some_iff.mp hs
    obtain ⟨c1, hc1, hok⟩ := h.stepSys hrem hsys
    rw [hs] at hc1
    cases hc1
    exact hok
  | tick t => obtain ⟨c1, hc1, hok⟩ := h.tick t; cases hs.symm.trans hc1; exact hok
  | block t => cases hs; exact h.congr rfl rfl rfl
  | unblock t =>
    obtain ⟨c1, hc1, hok⟩ := h.unblock t
    simp only [Cbs.step] at hs
    split_ifs at hs
    cases hs.symm.trans hc1
    exact hok

end

theorem Boot.ok (h : c.Boot) : c.Ok where
  reachable := ⟨c.sys, [], h.edf.sys, rfl⟩
  sorted t := by rw [h.edf.aggregation]; exact .initializeOne
  real t := by rw [contributors, h.edf.aggregation]; exact List.mem_singleton_self _
  tracked id := by
    refine .of_idle (fun t => ?_) (h.outstanding id) fun t b ht => ?_
    · rw [contributors, h.edf.aggregation]; simp [Aggregation.initializeOne]
    · rw [Sys.jobState, show c.sys.periods.live id = none from h.edf.sys.periods id] at ht
      cases ht
  closed id _ := h.outstanding id
  node t id ht := by
    rw [h.deadlineNode t] at ht; cases ht

theorem ok_of_run {c0 : Cbs} {as : List CbsJobAction} (hb : c0.Boot)
    (hrem : Along step Remembered c0 as) (hr : run step c0 as = some c) : c.Ok :=
  run_invariant_along step (fun _ _ _ h hrem hs => h.step hrem hs) hb.ok hrem hr

/-- **A node is in the aggregation exactly while its job is outstanding**, if each cancelled job is
remembered. -/
theorem contributes_iff_outstanding {c₀ c : Cbs} {as : List CbsJobAction} (hb : c₀.Boot)
    (hrem : Along step Remembered c₀ as) (hr : run step c₀ as = some c) :
    (∀ id t p, c.sys.periods.live id = some p → p.owner = t →
      (.job id ∈ c.contributors t ↔ c.outstanding id = true)) ∧
    (∀ id t, .job id ∈ c.contributors t → ∃ p, c.sys.periods.live id = some p ∧ p.owner = t) ∧
    (∀ a s, c.Remembered (.sys a) → c.sys.step a = some s → (c.step (.sys a)).isSome) ∧
    (∀ t, (c.step (.tick t)).isSome) ∧
    ∀ t, c.ready t = false → (c.step (.unblock t)).isSome := by
  have h := ok_of_run hb hrem hr
  refine ⟨fun id t p hl ho => ?_, fun id t hid => ?_, fun a s hrem hs => ?_, fun t => ?_,
    fun t ht => ?_⟩
  · rw [(h.tracked id).job, Sys.jobState_of_live hl, ho]
    exact ⟨And.right, fun hout => ⟨⟨_, rfl⟩, hout⟩⟩
  · obtain ⟨⟨b, hb⟩, -⟩ := ((h.tracked id).job t).mp hid
    obtain ⟨p, hl, hp⟩ := map_eq_some_iff.mp hb
    exact ⟨p, hl, congrArg Prod.fst hp⟩
  · obtain ⟨c', hc', -⟩ := h.stepSys hrem hs; rw [hc']; rfl
  · obtain ⟨c', hc', -⟩ := h.tick t; rw [step, hc']; rfl
  · obtain ⟨c', hc', -⟩ := h.unblock t; rw [step, if_pos ht, hc']; rfl

/-- A started system with so many period objects. -/
def initial (nPeriods : ℕ) (server : Thread → Option CbsServer) : Cbs where
  edf := .initial nPeriods fun _ => 2 ^ 63 + 100
  server := server
  cpuTimeBudget _ := 0
  deadlineNode _ := none
  ready _ := true
  overruns := []
  outstanding _ := false
  charged _ := 0

theorem initial_boot (nPeriods : ℕ) (server : Thread → Option CbsServer) :
    (initial nPeriods server).Boot where
  edf := Edf.initial_boot nPeriods _
  background _ := Nat.le_add_right _ _
  deadlineNode _ := rfl
  outstanding _ := rfl
  charged _ := rfl

/-- A test for `Remembered`. -/
def remembered (c : Cbs) : CbsJobAction → Bool
  | .sys a => (c.sys.jobCall a).all fun
    | .cancel id t =>
      c.deadlineNode t == some id || (c.deadlineNode t == none && !(c.contributors t).contains (.job id))
    | _ => true
  | _ => true

theorem remembered_spec {a : CbsJobAction} (h : c.remembered a = true) : c.Remembered a := by
  cases a with
  | sys a => intro id t hc; simp only [remembered, hc, all_some] at h; simpa using h
  | tick t | block t => exact trivial
  | unblock t => exact trivial

/-- Thread 1 is attached to a server with budget 2 and deadline 10. -/
def serverOfOne (t : Thread) : Option CbsServer :=
  if t = 1 then some ⟨1, ⟨10, 2⟩, some 3, true⟩ else none

theorem contributes_of_two : ∃ c : Cbs,
    (.job 2 ∈ c.contributors 1 ↔ c.outstanding 2 = true) ∧ .job 1 ∉ c.contributors 1 ∧
      c.outstanding 2 = true ∧ c.overruns = [(3, 1)] := by
  let as : List CbsJobAction := [.sys (.create 1 1 true default), .sys (.create 1 2 true default),
    .sys (.period 1 1 5), .sys (.compensate 1 .granted), .tick 1, .tick 1, .sys (.cancel 1 1),
    .sys (.period 1 2 7), .sys (.compensate 1 .granted), .tick 1]
  have hrem : Along step Remembered (initial 4 serverOfOne) as :=
    along_of_check step (fun _ _ => remembered_spec) (by decide +kernel)
  obtain ⟨c, hr, hp, hq, h1, h2, hov⟩ := exists_of_any (o := run step (initial 4 serverOfOne) as)
    (P := fun c => (c.sys.periods.live 1).map (fun p => p.owner) = some 1 ∧
      (c.sys.periods.live 2).map (fun p => p.owner) = some 1 ∧ c.outstanding 1 = false ∧
      c.outstanding 2 = true ∧ c.overruns = [(3, 1)]) (by decide +kernel)
  obtain ⟨p, hp, hpo⟩ := map_eq_some_iff.mp hp
  obtain ⟨q, hq, hqo⟩ := map_eq_some_iff.mp hq
  obtain ⟨hmem, -, -⟩ := contributes_iff_outstanding (initial_boot 4 serverOfOne) hrem hr
  refine ⟨c, hmem 2 1 q hq hqo, ?_, h2, hov⟩
  rw [hmem 1 1 p hp hpo, h1]
  decide

/-- **The scheduler forgets a job**: after the first cancel of two, the node of the other job stays
in the aggregation. -/
theorem exists_forgotten : (∃ c as, (initial 4 serverOfOne).Boot ∧
      run step (initial 4 serverOfOne) as = some c ∧ .job 2 ∈ c.contributors 1 ∧
      c.outstanding 2 = false ∧ (c.sys.periods.live 2).isNone) ∧
    ∃ c as, (initial 4 serverOfOne).Boot ∧
      run step (initial 4 serverOfOne) as = some c ∧ .job 2 ∉ c.contributors 1 ∧
      (c.sys.step (.cancel 1 2)).isSome ∧ c.step (.sys (.cancel 1 2)) = none := by
  constructor
  · let as : List CbsJobAction := [.sys (.create 1 1 true default), .sys (.create 1 2 true default),
      .sys (.period 1 1 5), .sys (.compensate 1 .granted), .sys (.period 1 2 7),
      .sys (.compensate 1 .granted), .sys (.cancel 1 1), .sys (.cancel 1 2), .sys (.delete 2)]
    exact (exists_of_any (by decide +kernel)).imp fun c hc => ⟨as, initial_boot 4 _, hc⟩
  · let as : List CbsJobAction := [.sys (.create 1 1 true default), .sys (.create 1 2 true default),
      .sys (.period 1 1 5), .sys (.compensate 1 .granted)]
    obtain ⟨c, hr, hnot, hs, hnone⟩ := exists_of_any (o := run step (initial 4 serverOfOne) as)
      (P := fun c => .job 2 ∉ c.contributors 1 ∧ (c.sys.step (.cancel 1 2)).isSome ∧
        (c.step (.sys (.cancel 1 2))).isNone) (by decide +kernel)
    exact ⟨c, as, initial_boot 4 _, hr, hnot, hs, isNone_iff_eq_none.mp hnone⟩

end Cbs

end Rtems
