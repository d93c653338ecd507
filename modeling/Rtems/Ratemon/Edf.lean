import Rtems.Ratemon.Conserve
import Rtems.Score.Priority

/-!
# Periods under the EDF scheduler

`scheduleredfreleasejob.c`: a released job contributes its deadline to the priority of the owner of
the period, through the priority node of the period, and a cancelled one takes it back.

* `Edf`, `step`: the period manager with the priority nodes and the aggregations of the owners;
* **`contributes_iff`**: who contributes, and what is extracted, when no period is cancelled or
  deleted while it is inactive, and **`exists_absent_extraction`** without this;
* **`priority_earliest`**: the priority of a thread.
-/

namespace Rtems

open Function PartialRun

/-- What the period manager does to the priority node of a period. -/
inductive JobCall
  | create (id : Id)
  | release (id : Id) (owner : Thread) (deadline : ℕ)
  | cancel (id : Id) (owner : Thread)
  deriving DecidableEq

/-- The deadline of the latest job of a period since the last cancel. -/
def lastReleased (id : Id) : List JobCall → Option ℕ
  | [] => none
  | .create x :: calls => if x = id then none else lastReleased id calls
  | .release x _ deadline :: calls => if x = id then some deadline else lastReleased id calls
  | .cancel x _ :: calls => if x = id then none else lastReleased id calls

namespace Sys

def jobCall (s : Sys) : Action → Option JobCall
  | .create t name id old =>
    if name = 0 ∨ id = false then none
    else (s.periods.allocate (old.initBlock t)).map fun x => .create x.1
  | .createFts t c old =>
    if c.name = 0 ∨ c.id = false then none
    else (s.periods.allocate (old.initBlock t)).map fun x => .create x.1
  | .delete id => (s.periods.live id).map fun p => .cancel id p.owner
  | .cancel t id =>
    (s.periods.live id).bind fun p => if t ≠ p.owner then none else some (.cancel id p.owner)
  | .period t id length =>
    (s.periods.live id).bind fun p =>
      if t ≠ p.owner ∨ length = 0 then none
      else match p.state with
        | .active =>
          if p.postponedJobs > 0 then some (.release id p.owner p.latestDeadline) else none
        | .inactive => some (.release id p.owner (s.clock.ticks + length))
        | .expired => some (.release id p.owner p.latestDeadline)
  | .timeout id _ =>
    (s.periods.live id).bind fun p =>
      if s.Waiting id p then some (.release id p.owner (s.clock.ticks + p.nextLength)) else none
  | _ => none

/-- The owner of a period, and whether the period is not inactive. -/
def jobState (s : Sys) (id : Id) : Option (Thread × Bool) :=
  (s.periods.live id).map fun p => (p.owner, decide (p.state ≠ .inactive))

end Sys

/-- A node in an aggregation: the real priority, or the job of a period. -/
inductive JobNode
  | real
  | job (id : Id)
  deriving DecidableEq

/-- The period manager, the nodes of the periods and the aggregations of the threads. -/
structure Edf where
  sys : Sys
  priority : Id → ℕ
  offTree : Id → Bool
  realPriority : Thread → ℕ
  aggregation : Thread → Aggregation JobNode
  calls : List JobCall

namespace Edf

variable (e : Edf)

def key (t : Thread) : JobNode → ℕ
  | .real => e.realPriority t
  | .job id => e.priority id

def releaseJob (id : Id) (t : Thread) (deadline : ℕ) : Option Edf :=
  let e₁ := { e with priority := update e.priority id deadline }
  if e₁.offTree id = false then do
    let (a, _) ← (e₁.aggregation t).changed (e₁.key t) (.job id)
    some { e₁ with aggregation := update e₁.aggregation t a }
  else
    let (a, _) := (e₁.aggregation t).nonEmptyInsert (e₁.key t) (.job id)
    some { e₁ with
      aggregation := update e₁.aggregation t a
      offTree := update e₁.offTree id false }

def cancelJob (id : Id) (t : Thread) : Option Edf := do
  let (a, _) ← (e.aggregation t).extractNonEmpty (e.key t) (.job id)
  some { e with
    aggregation := update e.aggregation t a
    offTree := update e.offTree id true }

def perform : JobCall → Option Edf
  | .create id =>
    some { e with
      priority := update e.priority id 0
      offTree := update e.offTree id true }
  | .release id t deadline => e.releaseJob id t deadline
  | .cancel id t => e.cancelJob id t

/-- The node that a call extracts, and from whose aggregation. -/
def extraction : JobCall → Option (Thread × JobNode)
  | .create _ => none
  | .release id t _ => if e.offTree id = false then some (t, .job id) else none
  | .cancel id t => some (t, .job id)

def step (a : Action) : Option Edf := do
  let s ← e.sys.step a
  match e.sys.jobCall a with
  | none => some { e with sys := s }
  | some c =>
    let e₁ ← e.perform c
    some { e₁ with sys := s, calls := c :: e.calls }

/-- A started system: every thread has its real priority alone. -/
structure Boot (e : Edf) : Prop where
  sys : e.sys.Boot
  aggregation : ∀ t, e.aggregation t = .initializeOne (e.key t) .real
  calls : e.calls = []

/-- No period is cancelled or deleted while it is inactive. -/
def Prudent (a : Action) : Prop :=
  ∀ id t, e.sys.jobCall a = some (.cancel id t) → e.sys.jobState id ≠ some (t, false)

end Edf

/-! ## The calls of the period manager -/

namespace Sys

variable {s s' : Sys}

/-- What a call goes with: the period it is for before the step, and after it. -/
def JobEffect (s s' : Sys) : Option JobCall → Prop
  | none => ∀ id, s'.jobState id = s.jobState id
  | some (.create x) => s.jobState x = none ∧ (∃ t, s'.jobState x = some (t, false)) ∧
      ∀ id, id ≠ x → s'.jobState id = s.jobState id
  | some (.release x t _) => (∃ b, s.jobState x = some (t, b)) ∧ s'.jobState x = some (t, true) ∧
      ∀ id, id ≠ x → s'.jobState id = s.jobState id
  | some (.cancel x t) => (∃ b, s.jobState x = some (t, b)) ∧
      (s'.jobState x = none ∨ s'.jobState x = some (t, false)) ∧
      ∀ id, id ≠ x → s'.jobState id = s.jobState id

variable {id : Id} {p q : RateMonotonicControl} {t : Thread}

theorem jobState_of_live (hl : s.periods.live id = some p) :
    s.jobState id = some (p.owner, decide (p.state ≠ .inactive)) := by
  rw [jobState, hl]
  rfl

variable {periods : Objects RateMonotonicControl}

theorem jobState_congr (h : periods.live id = s.periods.live id) (hs' : s'.periods = periods) :
    s'.jobState id = s.jobState id := by
  rw [jobState, jobState, hs', h]

variable {old : RateMonotonicControl}

theorem jobEffect_create {x : Id}
    (ha : s.periods.allocate (old.initBlock t) = some (x, periods)) (hs' : s'.periods = periods) :
    JobEffect s s' (some (.create x)) := by
  obtain ⟨hx, hlive, -, -⟩ := Objects.allocate_eq_some ha
  have hnone : s.periods.live x = none := s.periods.closed x (List.mem_append_left _ hx)
  refine ⟨by rw [jobState, hnone]; rfl, ⟨t, ?_⟩, fun id hid => jobState_congr ?_ hs'⟩
  · rw [jobState, hs', hlive, update_self]; rfl
  · rw [hlive, update_of_ne hid]

theorem jobState_put (hl : s.periods.live id = some p) (hs' : s'.periods = s.periods.put id q) :
    s'.jobState id = some (q.owner, decide (q.state ≠ .inactive)) ∧
      ∀ x, x ≠ id → s'.jobState x = s.jobState x := by
  have hlive : s'.periods.live = update s.periods.live id (some q) := by
    rw [hs', Objects.put_live (by rw [hl]; rfl)]
  refine ⟨?_, fun x hx => ?_⟩
  · rw [jobState, hlive, update_self]; rfl
  · rw [jobState, jobState, hlive, update_of_ne hx]

theorem jobEffect_release {deadline : ℕ}
    (hl : s.periods.live id = some p) (hs' : s'.periods = s.periods.put id q)
    (ho : q.owner = p.owner) (hst : q.state ≠ .inactive) :
    JobEffect s s' (some (.release id p.owner deadline)) := by
  obtain ⟨hid, hne⟩ := jobState_put hl hs'
  rw [ho, decide_eq_true hst] at hid
  exact ⟨⟨_, jobState_of_live hl⟩, hid, hne⟩

theorem jobEffect_none (hl : s.periods.live id = some p)
    (hs' : s'.periods = s.periods.put id q) (ho : q.owner = p.owner) (hp : p.state ≠ .inactive)
    (hq : q.state ≠ .inactive) : JobEffect s s' none := by
  obtain ⟨hid, hne⟩ := jobState_put hl hs'
  intro x
  by_cases hx : x = id
  · rw [hx, hid, jobState_of_live hl, ho, decide_eq_true hp, decide_eq_true hq]
  · exact hne x hx

theorem Books.state_ne (hs : s.Books) {deadline : ℕ}
    (hl : s.periods.live id = some p) (htm : p.timer = some deadline) : p.state ≠ .inactive := by
  intro hst
  rw [hs.timer id p hl hst] at htm
  cases htm

theorem jobEffect_createFts {c : CreateFts}
    (h : Step s (.createFts t c old) s') : JobEffect s s' (s.jobCall (.createFts t c old)) := by
  cases h with
  | rejected ha =>
    have hnone : s.jobCall (.createFts t c old) = none := by
      simp only [ftsCall] at ha
      simp only [jobCall]
      split_ifs at ha ⊢ with hc
      · rfl
      · simpa using ha
    rw [hnone]
    exact fun id => rfl
  | unregistered hpc hn hi ha hr | createdFts hpc hn hi ha hr h1 =>
    simp only [jobCall, hn, hi, ha, Bool.true_eq_false, or_self, if_false, Option.map_some]
    exact jobEffect_create ha rfl

theorem jobEffect_period {length : ℕ}
    (h : Step s (.period t id length) s') : JobEffect s s' (s.jobCall (.period t id length)) := by
  cases h with
  | rejected ha =>
    have hl : s.periods.live id = none := by simpa [ftsCall] using ha
    simp only [jobCall, hl]
    exact fun id => rfl
  | queried hpc hl hb hq =>
    simp only [jobCall, hl, Option.bind_some, if_pos hq]; exact fun id => rfl
  | @activated _ _ _ p _ hpc hl hb ht h0 hst =>
    have hq : ¬ (t ≠ p.owner ∨ length = 0) := not_or.mpr ⟨not_not.mpr ht, h0⟩
    simp only [jobCall, hl, Option.bind_some, if_neg hq, hst]
    exact jobEffect_release hl rfl rfl (fun hin => by cases hin)
  | @blocking _ _ _ p _ hpc hl hb ht h0 hst hj =>
    have hq : ¬ (t ≠ p.owner ∨ length = 0) := not_or.mpr ⟨not_not.mpr ht, h0⟩
    simp only [jobCall, hl, Option.bind_some, if_neg hq, hst, hj, gt_iff_lt, lt_self_iff_false,
      if_false]
    have hact : p.state ≠ .inactive := by rw [hst]; decide
    exact jobEffect_none hl rfl rfl hact hact
  | @postponed _ _ _ p _ hpc hl hb ht h0 hst =>
    have hq : ¬ (t ≠ p.owner ∨ length = 0) := not_or.mpr ⟨not_not.mpr ht, h0⟩
    have hcall : s.jobCall (.period t id length) = some (.release id p.owner p.latestDeadline) := by
      rcases hst with ⟨hst, hj⟩ | hst
      · simp only [jobCall, hl, Option.bind_some, if_neg hq, hst, gt_iff_lt, if_pos hj]
      · simp only [jobCall, hl, Option.bind_some, if_neg hq, hst]
    rw [hcall]
    exact jobEffect_release hl rfl rfl (fun hin => by cases hin)

theorem jobEffect_timeout {g : Grant} (hs : s.Books) (h : Step s (.timeout id g) s') :
    JobEffect s s' (s.jobCall (.timeout id g)) := by
  cases h with
  | rejected ha =>
    have hnone : s.jobCall (.timeout id g) = none := by
      simp only [ftsCall] at ha
      simp only [jobCall]
      cases hl : s.periods.live id with
      | none => rfl
      | some p =>
        rw [hl, Option.bind_some] at ha
        rw [Option.bind_some]
        split_ifs at ha ⊢ with hw
        rfl
    rw [hnone]
    exact fun id => rfl
  | restarted hl htm hw hc =>
    simp only [jobCall, hl, Option.bind_some, if_pos hw]
    have hst := hs.state_ne hl htm
    exact jobEffect_release hl rfl rfl hst
  | renewed hl htm hw =>
    simp only [jobCall, hl, Option.bind_some, if_neg hw]
    exact jobEffect_none hl rfl rfl (hs.state_ne hl htm) (fun hin => by cases hin)

/-- **A step makes the call of its action**, and the period follows it. -/
theorem step_jobEffect {a : Action} (hs : s.Books) (h : s.step a = some s') :
    JobEffect s s' (s.jobCall a) := by
  cases a with
  | create t name id old =>
    simp only [step, Option.ite_none_right_eq_some, Option.some.injEq] at h
    obtain ⟨-, rfl⟩ := h
    unfold rtemsRateMonotonicCreate
    by_cases hn : name = 0
    · simp only [jobCall, hn, true_or, if_true]; exact fun id => rfl
    by_cases hi : id = false
    · simp only [jobCall, hn, hi, or_true, if_true, if_false]; exact fun id => rfl
    simp only [jobCall, hn, hi, if_false]
    cases ha : s.periods.allocate (old.initBlock t) with
    | none => exact fun id => rfl
    | some x => exact jobEffect_create ha rfl
  | createFts t c old => exact jobEffect_createFts (step_cases_createFts h)
  | delete id =>
    cases h
    unfold rtemsRateMonotonicDelete
    cases hl : s.periods.live id with
    | none => simp only [jobCall, hl]; exact fun id => rfl
    | some p =>
      simp only [jobCall, hl, Option.map_some]
      refine ⟨⟨_, jobState_of_live hl⟩, .inl ?_, fun x hx => jobState_congr ?_ rfl⟩
      · simp [jobState]
      · simp [hx]
  | cancel t id =>
    simp only [step, Option.ite_none_right_eq_some, Option.some.injEq] at h
    obtain ⟨-, rfl⟩ := h
    unfold rtemsRateMonotonicCancel
    cases hl : s.periods.live id with
    | none => simp only [jobCall, hl]; exact fun id => rfl
    | some p =>
      by_cases ht : t = p.owner
      · simp only [jobCall, hl, Option.bind_some, ht, ne_eq, not_true_eq_false, if_false]
        have hput : (s.setPeriod id p.cancel).periods = s.periods.put id p.cancel := rfl
        obtain ⟨hid, hne⟩ := jobState_put hl hput
        exact ⟨⟨_, jobState_of_live hl⟩, .inr hid, hne⟩
      · simp only [jobCall, hl, Option.bind_some, ne_eq, ht, not_false_eq_true, if_true]
        exact fun id => rfl
  | period t id length => exact jobEffect_period (step_cases_period h)
  | timeout id g => exact jobEffect_timeout hs (step_cases_timeout h)
  | compensate t g | block t | call c | wait clk => cases step_cases h <;> exact fun id => rfl

end Sys

/-! ## The aggregations of the owners -/

def JobCall.period : JobCall → Id
  | .create x => x
  | .release x _ _ => x
  | .cancel x _ => x

variable {c : JobCall}

theorem lastReleased_cons_of_ne {id : Id} {calls : List JobCall}
    (h : id ≠ c.period) : lastReleased id (c :: calls) = lastReleased id calls := by
  cases c with
  | create x | release x t d => exact if_neg h.symm
  | cancel x t => exact if_neg h.symm

theorem Sys.JobEffect.of_ne {s s' : Sys} (h : s.JobEffect s' (some c)) {id : Id}
    (hid : id ≠ c.period) : s'.jobState id = s.jobState id := by
  cases c with
  | create x | release x t d => exact h.2.2 id hid
  | cancel x t => exact h.2.2 id hid

namespace Edf

variable {e e' : Edf}

/-- The priority node of a period fits the period and the calls for it. -/
structure Tracked (e : Edf) (id : Id) : Prop where
  job : ∀ t, .job id ∈ (e.aggregation t).contributors ↔ e.sys.jobState id = some (t, true)
  offTree : ∀ t b, e.sys.jobState id = some (t, b) → e.offTree id = !b
  last : (lastReleased id e.calls).isSome ↔ ∃ t, e.sys.jobState id = some (t, true)
  value : ∀ d, lastReleased id e.calls = some d → e.priority id = d

structure Ok (e : Edf) : Prop where
  reachable : e.sys.Reachable
  sorted : ∀ t, (e.aggregation t).Ok (e.key t)
  real : ∀ t, .real ∈ (e.aggregation t).contributors
  tracked : ∀ id, e.Tracked id

theorem Tracked.congr {id : Id} (h : e.Tracked id)
    (hmem : ∀ t, .job id ∈ (e'.aggregation t).contributors ↔
      .job id ∈ (e.aggregation t).contributors)
    (hsys : e'.sys.jobState id = e.sys.jobState id) (hoff : e'.offTree id = e.offTree id)
    (hpri : e'.priority id = e.priority id)
    (hcalls : lastReleased id e'.calls = lastReleased id e.calls) : e'.Tracked id where
  job t := by rw [hmem, hsys, h.job]
  offTree t b := by rw [hsys, hoff]; exact h.offTree t b
  last := by rw [hcalls, hsys, h.last]
  value d := by rw [hcalls, hpri]; exact h.value d

variable {x : Id} {t : Thread} {n : JobNode} {a : Action}

theorem key_of_ne {d : ℕ} (hn : n ≠ .job x) :
    { e with priority := update e.priority x d }.key t n = e.key t n := by
  cases n with
  | real => rfl
  | job id => exact update_of_ne (fun he => hn (congrArg JobNode.job he)) d e.priority

section

variable (h : (e.aggregation t).Ok (e.key t))

include h

theorem sorted_update (hx : .job x ∉ (e.aggregation t).contributors) (d : ℕ) :
    (e.aggregation t).Ok ({ e with priority := update e.priority x d }.key t) :=
  h.congr fun _ hc => key_of_ne fun he => hx (he ▸ hc)

theorem releaseJob_of (hoff : e.offTree x = false ↔ .job x ∈ (e.aggregation t).contributors) (d : ℕ) :
    ∃ a,
      e.releaseJob x t d = some { e with
        priority := update e.priority x d
        aggregation := update e.aggregation t a
        offTree := update e.offTree x false } ∧
      a.Ok ({ e with priority := update e.priority x d }.key t) ∧
      ∀ n, n ∈ a.contributors ↔ n = .job x ∨ n ∈ (e.aggregation t).contributors := by
  by_cases hmem : .job x ∈ (e.aggregation t).contributors
  · have hrest : Aggregation.Sorted ({ e with priority := update e.priority x d }.key t)
        ((e.aggregation t).contributors.erase (.job x)) :=
      (h.toSorted.erase (.job x)).congr fun n hn =>
        key_of_ne fun he => h.nodup.not_mem_erase (he ▸ hn)
    obtain ⟨a, c, hch, hok, hperm, -⟩ := Aggregation.Ok.changed h.nodup hrest hmem
    have hfalse := hoff.mpr hmem
    refine ⟨a, ?_, hok, fun n => ?_⟩
    · have hsame : update e.offTree x false = e.offTree := by rw [← hfalse, update_eq_self]
      simp [Edf.releaseJob, hfalse, hch, hsame]
    · rw [hperm.mem_iff]; exact ⟨.inr, fun hn => hn.elim (fun he => he ▸ hmem) id⟩
  · have htrue : e.offTree x = true := by rw [← Bool.not_eq_false, hoff]; exact hmem
    obtain ⟨a, c, hins, hok, hperm, -⟩ := (sorted_update h hmem d).nonEmptyInsert hmem
    refine ⟨a, ?_, hok, fun n => by rw [hperm.mem_iff, List.mem_cons]⟩
    simp [Edf.releaseJob, htrue, hins]

theorem cancelJob_of (hreal : .real ∈ (e.aggregation t).contributors)
    (hmem : .job x ∈ (e.aggregation t).contributors) : ∃ a, e.cancelJob x t = some { e with
        aggregation := update e.aggregation t a
        offTree := update e.offTree x true } ∧
      a.Ok (e.key t) ∧
      ∀ n, n ∈ a.contributors ↔ n ≠ .job x ∧ n ∈ (e.aggregation t).contributors := by
  obtain ⟨a, c, hext, hok, hcon, -⟩ := h.extractNonEmpty hmem hreal (by simp)
  refine ⟨a, by simp [Edf.cancelJob, hext], hok, fun n => ?_⟩
  rw [hcon, h.nodup.mem_erase_iff]

end

theorem mem_update {a : Aggregation JobNode}
    (ha : n ∈ a.contributors ↔ n ∈ (e.aggregation t).contributors) (u : Thread) :
    n ∈ (update e.aggregation t a u).contributors ↔ n ∈ (e.aggregation u).contributors := by
  by_cases hu : u = t
  · rw [hu, update_self, ha]
  · rw [update_of_ne hu]

section

variable {s : Sys} (h : e.Ok) (hr : s.Reachable)

include h hr

theorem Ok.performCreate (he : e.sys.JobEffect s (some (.create x))) :
    ∃ e1, e.perform (.create x) = some e1 ∧
      Ok { e1 with sys := s, calls := .create x :: e.calls } := by
  obtain ⟨hx, ⟨t, ht⟩, -⟩ := id he
  have hnot : ∀ u, .job x ∉ (e.aggregation u).contributors := by
    intro u; rw [(h.tracked x).job, hx]; simp
  refine ⟨_, rfl, hr, fun u => sorted_update (h.sorted u) (hnot u) 0, h.real, fun id => ?_⟩
  by_cases hid : id = x
  · rw [hid]
    exact {
      job := fun u => ⟨fun hu => absurd hu (hnot u), fun hu => by simp [ht] at hu⟩
      offTree := fun u b hu => by
        rw [show s.jobState x = some (u, b) from hu] at ht
        cases ht
        exact update_self ..
      last := by simp [lastReleased, ht]
      value := by simp [lastReleased] }
  · exact (h.tracked id).congr (fun u => Iff.rfl) (he.of_ne hid) (update_of_ne hid ..)
      (update_of_ne hid ..) (lastReleased_cons_of_ne hid)

theorem Ok.performRelease {d : ℕ} (he : e.sys.JobEffect s (some (.release x t d))) :
    ∃ e1, e.perform (.release x t d) = some e1 ∧
      Ok { e1 with sys := s, calls := .release x t d :: e.calls } := by
  obtain ⟨⟨b, hx⟩, ht, -⟩ := id he
  have hoff : e.offTree x = false ↔ .job x ∈ (e.aggregation t).contributors := by
    rw [(h.tracked x).offTree t b hx, (h.tracked x).job, hx]; simp
  obtain ⟨a, hrel, hok, hmem⟩ := releaseJob_of (h.sorted t) hoff d
  have hnot : ∀ u, u ≠ t → .job x ∉ (e.aggregation u).contributors := by
    intro u hu; rw [(h.tracked x).job, hx]; simp [Ne.symm hu]
  refine ⟨_, hrel, hr, fun u => ?_, fun u => ?_, fun id => ?_⟩
  · by_cases hu : u = t
    · simp only [hu, update_self]; exact hok
    · simp only [update_of_ne hu]; exact sorted_update (h.sorted u) (hnot u hu) d
  · exact (mem_update (by simp [hmem]) u).mpr (h.real u)
  by_cases hid : id = x
  · rw [hid]
    exact {
      job := fun u => by
        by_cases hu : u = t
        · simp [hu, hmem, ht]
        · simp [update_of_ne hu, hnot u hu, ht, Ne.symm hu]
      offTree := fun u b hu => by
        rw [show s.jobState x = some (u, b) from hu] at ht
        cases ht
        exact update_self ..
      last := by simp [lastReleased, ht]
      value := by simp [lastReleased] }
  · exact (h.tracked id).congr (fun u => mem_update (by simp [hmem, hid]) u) (he.of_ne hid)
      (update_of_ne hid ..) (update_of_ne hid ..) (lastReleased_cons_of_ne hid)

theorem Ok.performCancel (he : e.sys.JobEffect s (some (.cancel x t)))
    (hp : e.sys.jobState x ≠ some (t, false)) : ∃ e1, e.perform (.cancel x t) = some e1 ∧
      Ok { e1 with sys := s, calls := .cancel x t :: e.calls } := by
  obtain ⟨⟨b, hx⟩, ht, -⟩ := id he
  obtain rfl : b = true := by
    cases b with
    | true => rfl
    | false => exact absurd hx hp
  obtain ⟨a, hcan, hok, hmem⟩ :=
    cancelJob_of (h.sorted t) (h.real t) (((h.tracked x).job t).mpr hx)
  have hoff : ∀ u b, s.jobState x = some (u, b) → b = false := by
    intro u b hu
    rcases ht with ht | ht
    · rw [ht] at hu; cases hu
    · rw [ht] at hu; cases hu; rfl
  refine ⟨_, hcan, hr, fun u => ?_, fun u => ?_, fun id => ?_⟩
  · by_cases hu : u = t
    · simp only [hu, update_self]; exact hok
    · simp only [update_of_ne hu]; exact h.sorted u
  · exact (mem_update (by simp [hmem]) u).mpr (h.real u)
  by_cases hid : id = x
  · rw [hid]
    exact {
      job := fun u => by
        refine ⟨fun hu => ?_, fun hu => absurd (hoff u true hu) (by simp)⟩
        by_cases hut : u = t
        · simp [hut, hmem] at hu
        · simp [update_of_ne hut, (h.tracked x).job, hx, Ne.symm hut] at hu
      offTree := fun u b hu => by
        rw [hoff u b hu]
        exact update_self ..
      last := by
        simp only [lastReleased, if_true, Option.isSome_none, Bool.false_eq_true, false_iff]
        exact fun ⟨u, hu⟩ => absurd (hoff u true hu) (by simp)
      value := by simp [lastReleased] }
  · exact (h.tracked id).congr (fun u => mem_update (by simp [hmem, hid]) u) (he.of_ne hid)
      (update_of_ne hid ..) rfl (lastReleased_cons_of_ne hid)

end

theorem Ok.step (h : e.Ok) (hp : e.Prudent a) {s : Sys}
    (hs : e.sys.step a = some s) : ∃ e', e.step a = some e' ∧ e'.Ok := by
  have hr : s.Reachable := by
    obtain ⟨s0, as, h0, hrun⟩ := h.reachable
    refine ⟨s0, as ++ [a], h0, (run_append_eq_some Sys.step).mpr ⟨e.sys, hrun, ?_⟩⟩
    rw [run_cons, hs]
    rfl
  have he := Sys.step_jobEffect h.reachable.books hs
  have hperform : ∀ c, e.sys.jobCall a = some c →
      ∃ e1, e.perform c = some e1 ∧ Ok { e1 with sys := s, calls := c :: e.calls } := by
    intro c hc
    rw [hc] at he
    cases c with
    | create x => exact h.performCreate hr he
    | release x t d => exact h.performRelease hr he
    | cancel x t => exact h.performCancel hr he (hp x t hc)
  cases hc : e.sys.jobCall a with
  | none =>
    refine ⟨{ e with sys := s }, by simp [Edf.step, hs, hc], hr, h.sorted, h.real, fun id => ?_⟩
    rw [hc] at he
    exact (h.tracked id).congr (fun u => Iff.rfl) (he id) rfl rfl rfl
  | some c =>
    obtain ⟨e1, he1, hok⟩ := hperform c hc; exact ⟨_, by simp [Edf.step, hs, hc, he1], hok⟩

theorem Boot.ok (h : e.Boot) : e.Ok where
  reachable := ⟨e.sys, [], h.sys, rfl⟩
  sorted t := by rw [h.aggregation]; exact .initializeOne
  real t := by rw [h.aggregation]; exact List.mem_singleton_self _
  tracked id := by
    have hnone : e.sys.jobState id = none := by rw [Sys.jobState, h.sys.periods]; rfl
    exact {
      job := fun t => by simp [h.aggregation, Aggregation.initializeOne, hnone]
      offTree := by simp [hnone]
      last := by simp [h.calls, lastReleased, hnone]
      value := by simp [h.calls, lastReleased] }

theorem ok_of_run {e0 : Edf} {as : List Action} (h0 : e0.Boot)
    (hG : Along step Prudent e0 as) (h : run step e0 as = some e) :
    e.Ok := by
  refine run_invariant_along step ?_ h0.ok hG h
  intro e a e' he hp hs
  obtain ⟨s, hsys, -⟩ := Option.bind_eq_some_iff.mp hs
  obtain ⟨e1, he1, hok⟩ := he.step hp hsys
  rw [hs] at he1
  cases he1
  exact hok

theorem Ok.extraction_mem (h : e.Ok) (hp : e.Prudent a) {s : Sys}
    (hs : e.sys.step a = some s) (hc : e.sys.jobCall a = some c)
    (hn : e.extraction c = some (t, n)) : n ∈ (e.aggregation t).contributors := by
  have he := Sys.step_jobEffect h.reachable.books hs
  rw [hc] at he
  cases c with
  | create x => cases hn
  | release x u d =>
    obtain ⟨⟨b, hx⟩, -, -⟩ := he
    simp only [extraction, Option.ite_none_right_eq_some] at hn
    obtain ⟨hoff, hn⟩ := hn
    cases hn
    rw [(h.tracked x).offTree _ b hx, Bool.not_eq_false'] at hoff
    rw [(h.tracked x).job, hx, hoff]
  | cancel x u =>
    cases hn
    obtain ⟨⟨b, hx⟩, -, -⟩ := he
    rw [(h.tracked x).job, hx]
    cases b with
    | true => rfl
    | false => exact absurd hx (hp x _ hc)

/-- **A period contributes its latest deadline exactly while a job is active**, if no inactive
period is cancelled or deleted. -/
theorem contributes_iff {e₀ e : Edf} {as : List Action} (h₀ : e₀.Boot)
    (hG : Along step Prudent e₀ as) (h : run step e₀ as = some e) :
    (∀ id t, .job id ∈ (e.aggregation t).contributors ↔
      (∃ p, e.sys.periods.live id = some p ∧ p.owner = t) ∧ (lastReleased id e.calls).isSome) ∧
    (∀ id d, lastReleased id e.calls = some d → e.priority id = d) ∧
    ∀ a s, e.Prudent a → e.sys.step a = some s →
      (∀ c t n, e.sys.jobCall a = some c → e.extraction c = some (t, n) →
        n ∈ (e.aggregation t).contributors) ∧ (e.step a).isSome := by
  have hok := ok_of_run h₀ hG h
  refine ⟨fun id t => ?_, fun id d => (hok.tracked id).value d, fun a s hp hs => ⟨?_, ?_⟩⟩
  · rw [(hok.tracked id).job, (hok.tracked id).last, Sys.jobState]
    cases hl : e.sys.periods.live id with
    | none | some p => simp
  · exact fun c t n hc hn => hok.extraction_mem hp hs hc hn
  · obtain ⟨e', he', -⟩ := hok.step hp hs; rw [he']; rfl

/-- A started system with so many period objects. -/
def initial (nPeriods : ℕ) (realPriority : Thread → ℕ) : Edf where
  sys := .initial 4 nPeriods
  priority _ := 0
  offTree _ := false
  realPriority := realPriority
  aggregation t := ⟨realPriority t, [.real]⟩
  calls := []

theorem initial_boot (nPeriods : ℕ) (realPriority : Thread → ℕ) :
    (initial nPeriods realPriority).Boot where
  sys := Sys.initial_boot 4 nPeriods
  aggregation _ := rfl
  calls := rfl

/-- A test for `Prudent`. -/
def prudent (e : Edf) (a : Action) : Bool :=
  (e.sys.jobCall a).all fun
    | .cancel id t => e.sys.jobState id != some (t, false)
    | _ => true

theorem prudent_spec (h : e.prudent a = true) : e.Prudent a := by
  intro id t hc; rw [prudent, hc] at h; simpa using h

/-- A period whose second job is late, that is cancelled and activated again. -/
def again : List Action :=
  [.createFts 1 (.oneOfTwo 0 .sre) default, .period 1 1 5, .compensate 1 .granted,
    .wait (.tick 5), .timeout 1 .granted, .period 1 1 5, .compensate 1 .granted, .cancel 1 1,
    .wait (.tick 7), .period 1 1 5]

theorem contributes_again : ∃ e : Edf, (initial 4 fun _ => 100).Boot ∧
    Along step Prudent (initial 4 fun _ => 100) again ∧
    run step (initial 4 fun _ => 100) again = some e ∧
    .job 1 ∈ (e.aggregation 1).contributors ∧ .job 1 ∉ (e.aggregation 2).contributors ∧
    e.priority 1 = 12 := by
  have hG : Along step Prudent (initial 4 fun _ => 100) again :=
    along_of_check step (fun _ _ => prudent_spec) (by decide +kernel)
  obtain ⟨e, hr, he⟩ := Option.map_eq_some_iff.mp
    (show (run step (initial 4 fun _ => 100) again).map (fun e =>
        ((e.sys.periods.live 1).map fun p => p.owner, lastReleased 1 e.calls)) =
      some (some 1, some 12) by decide +kernel)
  simp only [Prod.mk.injEq, Option.map_eq_some_iff] at he
  obtain ⟨⟨p, hl, ho⟩, hlast⟩ := he
  obtain ⟨hmem, hval, -⟩ := contributes_iff (initial_boot 4 _) hG hr
  refine ⟨e, initial_boot 4 _, hG, hr, (hmem 1 1).mpr ⟨⟨p, hl, ho⟩, by rw [hlast]; rfl⟩, ?_,
    hval 1 12 hlast⟩
  rw [hmem 1 2]
  rintro ⟨⟨q, hq, hoq⟩, -⟩
  rw [hl] at hq
  cases hq
  rw [ho] at hoq
  cases hoq

/-- The deadlines of the latest jobs of the periods of a thread. -/
def deadlines (e : Edf) (t : Thread) : Set ℕ :=
  {d | ∃ id p, e.sys.periods.live id = some p ∧ p.owner = t ∧ lastReleased id e.calls = some d}

/-- **The priority of a thread** is the least of its real one and of the deadlines of its jobs. -/
theorem priority_earliest {e₀ e : Edf} {as : List Action} (h₀ : e₀.Boot)
    (hG : Along step Prudent e₀ as) (h : run step e₀ as = some e) (t : Thread) :
    IsLeast ({e.realPriority t} ∪ e.deadlines t) (e.aggregation t).priority := by
  have hok := ok_of_run h₀ hG h
  have hleast := (hok.sorted t).isLeast
  refine ⟨?_, ?_⟩
  · obtain ⟨n, hn, hp⟩ := hleast.1
    cases n with
    | real => exact .inl hp.symm
    | job id =>
      have hs := ((hok.tracked id).job t).mp hn
      obtain ⟨d, hd⟩ := Option.isSome_iff_exists.mp ((hok.tracked id).last.mpr ⟨t, hs⟩)
      obtain ⟨p, hl, ho⟩ := Option.map_eq_some_iff.mp hs
      refine .inr ⟨id, p, hl, congrArg Prod.fst ho, ?_⟩
      rw [hd, ← hp, key, (hok.tracked id).value d hd]
  · rintro d (rfl | ⟨id, p, hl, rfl, hd⟩)
    · exact hleast.2 ⟨.real, hok.real t, rfl⟩
    · obtain ⟨u, hu⟩ := (hok.tracked id).last.mp (by rw [hd]; rfl)
      refine hleast.2 ⟨.job id, ((hok.tracked id).job _).mpr ?_, (hok.tracked id).value d hd⟩
      rw [Sys.jobState, hl, Option.map_some, Option.some.injEq, Prod.mk.injEq] at hu ⊢
      exact ⟨rfl, hu.2⟩

theorem priority_earliest_again : ∃ e : Edf, run step (initial 4 fun _ => 100) again = some e ∧
    IsLeast ({e.realPriority 1} ∪ e.deadlines 1) 12 := by
  refine exists_imp_of_any (P := fun e => (e.aggregation 1).priority = 12) (by decide +kernel) ?_
  intro e hr hp
  rw [← hp]
  exact priority_earliest (initial_boot 4 _)
    (along_of_check step (fun _ _ => prudent_spec) (by decide +kernel)) hr 1

/-- A never activated period is cancelled: its node is in no aggregation. -/
theorem exists_absent_extraction : ∃ (e : Edf) (s : Sys) (c : JobCall),
    (initial 4 fun _ => 100).Boot ∧
    run step (initial 4 fun _ => 100) [.create 1 1 true default] = some e ∧
    e.sys.step (.cancel 1 1) = some s ∧ e.sys.jobCall (.cancel 1 1) = some c ∧
    e.extraction c = some (1, .job 1) ∧ .job 1 ∉ (e.aggregation 1).contributors := by
  obtain ⟨e, hr, he⟩ := Option.map_eq_some_iff.mp
    (show (run step (initial 4 fun _ => 100) [.create 1 1 true default]).map (fun e =>
        ((e.sys.step (.cancel 1 1)).isSome, e.sys.jobCall (.cancel 1 1),
          (e.aggregation 1).contributors)) =
      some (true, some (.cancel 1 1), [.real]) by decide +kernel)
  simp only [Prod.mk.injEq] at he
  obtain ⟨hs, hc, hcon⟩ := he
  obtain ⟨s, hs⟩ := Option.isSome_iff_exists.mp hs
  exact ⟨e, s, .cancel 1 1, initial_boot 4 _, hr, hs, hc, rfl, by rw [hcon]; decide⟩

end Edf

end Rtems
