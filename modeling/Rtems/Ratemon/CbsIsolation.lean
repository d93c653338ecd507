import Rtems.Ratemon.Cbs

/-!
# The isolation of a thread by its CBS server

A server with budget `B` and deadline `D` shall let its thread run for at most `B` ticks of each job
with the deadline of the job, and shall not let a thread that was unblocked late catch up: with
budget `q` left and deadline `d`, it needs `q * D ≤ (d - now) * B`.

* `InTime`: this inequality; `Isolating`: one job at a time, and no late unblock that
  `_Scheduler_CBS_Unblock` mistakes for one in time;
* `Isolated`: what is charged and what is left make up the budget;
* **`isolated_of_isolating`**, and **`exists_late`** without the condition.
-/

namespace Rtems

open PartialRun Option

namespace Cbs

/-- The rest of the budget fits the time to the deadline of a job. -/
def InTime (c : Cbs) (params : CbsParameters) (t : Thread) (id : Id) : Prop :=
  (c.cpuTimeBudget t : ℤ) * params.deadline ≤
    ((c.edf.priority id : ℤ) - c.sys.clock.ticks) * params.budget

/-- The test of `_Scheduler_CBS_Unblock` compares the time left for the whole budget with the budget
left for the whole deadline. -/
def FoundLate (c : Cbs) (params : CbsParameters) (t : Thread) (id : Id) : Prop :=
  c.edf.priority id < 2 ^ 63 ∧ c.sys.clock.ticks ≤ c.edf.priority id ∧
    params.deadline.toNat * (c.edf.priority id - c.sys.clock.ticks) < 2 ^ 64 ∧
    params.budget.toNat * c.cpuTimeBudget t <
      params.deadline.toNat * (c.edf.priority id - c.sys.clock.ticks)

/-- Jobs are of one period at a time, cancels recognized, and a late unblock found. -/
def Isolating (t : Thread) (params : CbsParameters) (c : Cbs) (a : CbsJobAction) : Prop :=
  c.Remembered a ∧
    match a with
    | .sys a => ∀ id d, c.sys.jobCall a = some (.release id t d) →
        ∀ id', .job id' ∈ c.contributors t → id' = id
    | .unblock u => u = t → ∀ id, .job id ∈ c.contributors t →
        c.InTime params t id ∨ c.FoundLate params t id
    | _ => True

/-- A thread has at most its remembered job, charged at most its budget. -/
structure Bounded (t : Thread) (server : CbsServer) (c : Cbs) : Prop where
  attached : c.server t = some server
  only : ∀ id, .job id ∈ c.contributors t → c.deadlineNode t = some id
  charged : c.charged t ≤ server.parameters.budget.toNat
  background : 2 ^ 63 ≤ c.edf.realPriority t

/-- While a thread has a job, the ticks charged and left make up the budget. -/
structure Isolated (t : Thread) (server : CbsServer) (c : Cbs) : Prop extends Bounded t server c where
  budget : ∀ id, c.deadlineNode t = some id →
    c.charged t + c.cpuTimeBudget t = server.parameters.budget.toNat ∧ 0 < c.cpuTimeBudget t

variable {c c' : Cbs} {t : Thread} {server : CbsServer}

theorem Isolated.congr (h : Isolated t server c) (hs : c'.server t = c.server t)
    (hc : c'.contributors t = c.contributors t) (hn : c'.deadlineNode t = c.deadlineNode t)
    (hb : c'.cpuTimeBudget t = c.cpuTimeBudget t) (hch : c'.charged t = c.charged t)
    (hr : c'.edf.realPriority = c.edf.realPriority) : Isolated t server c' where
  attached := hs.trans h.attached
  only := by rw [hc, hn]; exact h.only
  charged := by rw [hch]; exact h.charged
  background := by rw [hr]; exact h.background
  budget := by rw [hn, hb, hch]; exact h.budget

theorem Bounded.active_iff (h : Bounded t server c) (hok : c.Ok) :
    c.Active t ↔ ∃ id, c.deadlineNode t = some id :=
  ⟨fun ⟨id, hid⟩ => ⟨id, h.only id hid⟩, fun ⟨id, hid⟩ => ⟨id, hok.node t id hid⟩⟩

/-! ## The end of a job -/

variable {a : Aggregation JobNode}

theorem Bounded.forgot (h : Bounded t server c) {x : Id} (hx : c.deadlineNode t = some x)
    (ha : ∀ n, n ∈ a.contributors ↔ n ≠ .job x ∧ n ∈ c.contributors t) :
    Isolated t server (c.forgot t x a) ∧ ¬ (c.forgot t x a).Active t := by
  have hnone : ∀ id, .job id ∉ (c.forgot t x a).contributors t := by
    intro id hid
    rw [forgot_contributors, if_pos rfl] at hid
    obtain ⟨hne, hin⟩ := (ha _).mp hid
    have hnode := h.only id hin
    rw [hx] at hnode
    cases hnode
    exact hne rfl
  refine ⟨⟨⟨h.attached, fun id hid => absurd hid (hnone id), h.charged, h.background⟩,
    fun id hid => ?_⟩, fun ⟨id, hid⟩ => hnone id hid⟩
  rw [forgot_deadlineNode, if_pos rfl] at hid
  cases hid

theorem Bounded.endJob (h : Bounded t server c) (hok : c.Ok) (hs : c.endJob t = some c') :
    Isolated t server c' ∧ ¬ c'.Active t := by
  cases hx : c.deadlineNode t with
  | none =>
    rw [Cbs.endJob, hx] at hs
    cases hs
    have hno : ¬ ∃ id, c.deadlineNode t = some id := by
      rintro ⟨id, hid⟩; rw [hx] at hid; cases hid
    exact ⟨⟨h, fun id hid => absurd ⟨id, hid⟩ hno⟩, fun hact => hno ((h.active_iff hok).mp hact)⟩
  | some x =>
    obtain ⟨a, hcan, hmem, -⟩ := hok.forgot hx
    rw [Cbs.endJob, hx] at hs
    cases hs.symm.trans hcan
    exact h.forgot hx hmem

variable {u : Thread}

section

variable (h : Isolated t server c)

include h

theorem Isolated.forgot_of_ne (hu : t ≠ u) (x : Id)
    (a : Aggregation JobNode) : Isolated t server (c.forgot u x a) := by
  refine h.congr rfl ?_ ?_ rfl rfl rfl
  · rw [forgot_contributors, if_neg hu]
  · rw [forgot_deadlineNode, if_neg hu]

theorem Isolated.endJob_of_ne (hok : c.Ok) (hu : t ≠ u)
    (hs : c.endJob u = some c') : Isolated t server c' := by
  cases hx : c.deadlineNode u with
  | none => rw [Cbs.endJob, hx] at hs; cases hs; exact h
  | some x =>
    obtain ⟨a, hcan, -, -⟩ := hok.forgot hx
    rw [Cbs.endJob, hx] at hs
    cases hs.symm.trans hcan
    exact h.forgot_of_ne hu x a

/-! ## Ticks -/

theorem Isolated.charge_of_ne (hu : t ≠ u) : Isolated t server (c.charge u) := by
  refine h.congr rfl rfl rfl ?_ ?_ rfl
  · rw [charge_cpuTimeBudget, if_neg hu]
  · rw [charge_charged, if_neg fun hc => hu hc.1]

variable (hB : server.parameters.budget.toNat < 2 ^ 32)

include hB

theorem Isolated.charge (hok : c.Ok) : Bounded t server (c.charge t) ∧
      ((c.charge t).cpuTimeBudget t ≠ 0 → Isolated t server (c.charge t)) := by
  by_cases hact : c.Active t
  · obtain ⟨id, hid⟩ := (h.active_iff hok).mp hact
    obtain ⟨hsum, hpos⟩ := h.budget id hid
    have hb : (c.charge t).cpuTimeBudget t = c.cpuTimeBudget t - 1 := by
      rw [charge_cpuTimeBudget, if_pos rfl]; omega
    have hch : (c.charge t).charged t = c.charged t + 1 := by
      rw [charge_charged, if_pos ⟨rfl, hact⟩]
    have hbound : Bounded t server (c.charge t) := 
      ⟨h.attached, h.only, by rw [hch]; omega, h.background⟩
    refine ⟨hbound, fun hne => ⟨hbound, fun _ _ => ⟨?_, Nat.pos_of_ne_zero hne⟩⟩⟩
    omega
  · have hch : (c.charge t).charged t = c.charged t := by
      rw [charge_charged, if_neg fun hc => hact hc.2]
    have hbound : Bounded t server (c.charge t) :=
      ⟨h.attached, h.only, by rw [hch]; exact h.charged, h.background⟩
    exact ⟨hbound, fun _ => ⟨hbound, fun id hid => absurd ((h.active_iff hok).mpr ⟨id, hid⟩) hact⟩⟩

theorem Isolated.tick_last (hok : c.Ok) (hready : c.ready t = true)
    (hlast : (c.charge t).cpuTimeBudget t = 0) (hs : c.tick t = some c') :
    Isolated t server c' ∧ ¬ c'.Active t := by
  have hrun : ¬ (c.ready t = false ∨ c.server t = none) := by rw [hready, h.attached]; simp
  rw [Cbs.tick, if_neg hrun, if_pos hlast] at hs
  obtain ⟨c1, hc1, rfl⟩ := map_eq_some_iff.mp hs
  have hok1 : (c.charge t).Ok := hok.congr rfl rfl rfl
  obtain ⟨hi, hna⟩ := (h.charge hB hok).1.endJob hok1 hc1
  exact ⟨hi.congr rfl rfl rfl rfl rfl rfl, hna⟩

theorem Isolated.tick (hok : c.Ok) (hs : c.tick u = some c') : Isolated t server c' := by
  by_cases hidle : c.ready u = false ∨ c.server u = none
  · rw [Cbs.tick, if_pos hidle] at hs; cases hs; exact h
  by_cases hu : t = u
  · subst hu
    by_cases hlast : (c.charge t).cpuTimeBudget t = 0
    · exact (h.tick_last hB hok (by simpa using (not_or.mp hidle).1) hlast hs).1
    · rw [Cbs.tick, if_neg hidle, if_neg hlast] at hs; cases hs; exact (h.charge hB hok).2 hlast
  · rw [Cbs.tick, if_neg hidle] at hs
    split_ifs at hs with hlast
    · obtain ⟨c1, hc1, rfl⟩ := map_eq_some_iff.mp hs
      have hok1 : (c.charge u).Ok := hok.congr rfl rfl rfl
      exact ((h.charge_of_ne hu).endJob_of_ne hok1 hu hc1).congr rfl rfl rfl rfl rfl rfl
    · cases hs; exact h.charge_of_ne hu

/-! ## Releases and cancels -/

theorem Isolated.released (hpos : 0 < server.parameters.budget) {x : Id} {d : ℕ}
    (ha : ∀ n, n ∈ a.contributors ↔ n = .job x ∨ n ∈ c.contributors u)
    (halone : t = u → ∀ id, .job id ∈ c.contributors t → id = x) :
    Isolated t server (c.released u x d a) := by
  by_cases hu : t = u
  · subst hu
    have hb : (c.released t x d a).cpuTimeBudget t = server.parameters.budget.toNat := by
      change c.replenished t t = _
      rw [replenished, h.attached]
      exact (Function.update_self ..).trans (Nat.mod_eq_of_lt hB)
    have hch : (c.released t x d a).charged t = 0 := by rw [released_charged, if_pos rfl]
    refine ⟨⟨h.attached, fun id hid => ?_, by rw [hch]; exact Nat.zero_le _, h.background⟩,
      fun id _ => ?_⟩
    · rw [released_contributors, if_pos rfl] at hid
      rw [released_deadlineNode, if_pos rfl]
      rcases (ha _).mp hid with he | hin
      · cases he; rfl
      · rw [halone rfl id hin]
    · omega
  · refine h.congr rfl ?_ ?_ ?_ ?_ rfl
    · rw [released_contributors, if_neg hu]
    · rw [released_deadlineNode, if_neg hu]
    · change c.replenished u t = _
      rw [replenished]
      cases c.server u with
      | none => rfl
      | some v => exact Function.update_of_ne hu ..
    · rw [released_charged, if_neg hu]

theorem Isolated.perform (hok : c.Ok) (hpos : 0 < server.parameters.budget)
    {a : Action} {call : JobCall} (hcall : c.sys.jobCall a = some call)
    (hiso : Isolating t server.parameters c (.sys a)) {s : Sys} (hsys : c.sys.step a = some s)
    (hs : c.perform call = some c') : Isolated t server c' := by
  have he := Sys.step_jobEffect hok.reachable.books hsys
  rw [hcall] at he
  cases call with
  | create x => cases hs; exact h.congr rfl rfl rfl rfl rfl rfl
  | release x u d =>
    obtain ⟨⟨b, hx⟩, -, -⟩ := he
    obtain ⟨a', hrel, -, hmem⟩ := hok.releaseJob hx d
    cases hs.symm.trans hrel
    refine h.released hB hpos hmem ?_
    rintro rfl id hid
    exact hiso.2 x d hcall id hid
  | cancel x u =>
    rcases hiso.1 x u hcall with hnode | ⟨hnode, -⟩
    · obtain ⟨a', hcan, hmem, -⟩ := hok.forgot hnode
      cases hs.symm.trans hcan
      by_cases hu : t = u
      · subst hu; exact (h.toBounded.forgot hnode hmem).1
      · exact h.forgot_of_ne hu x a'
    · have hc : c.cancelJob x u = some c := by rw [Cbs.cancelJob, if_neg (not_not.mpr hnode)]
      rw [Cbs.perform, hc] at hs
      cases hs
      exact h.congr rfl rfl rfl rfl rfl rfl

end

/-! ## Unblocking -/

theorem FoundLate.late {id : Id} (h : c.FoundLate server.parameters t id)
    (hp : (c.edf.aggregation t).priority = c.edf.priority id) : c.late server t = true := by
  obtain ⟨hlt, hle, hprod, hcmp⟩ := h
  have hleft : (c.edf.priority id + 2 ^ 64 - c.sys.clock.ticks % 2 ^ 64) % 2 ^ 64 =
      c.edf.priority id - c.sys.clock.ticks := by
    omega
  have hbit : (c.edf.priority id).testBit 63 = false := Nat.testBit_lt_two_pow hlt
  simp only [Cbs.late, hp, hbit, hleft, Bool.not_false, Bool.true_and, decide_eq_true_eq]
  rw [Nat.mod_eq_of_lt hprod, Nat.mod_eq_of_lt (hcmp.trans hprod)]
  exact hcmp

theorem Bounded.priority_eq (h : Bounded t server c) (hok : c.Ok) {id : Id}
    (hid : .job id ∈ c.contributors t) (hlt : c.edf.priority id < 2 ^ 63) :
    (c.edf.aggregation t).priority = c.edf.priority id := by
  obtain ⟨⟨n, hn, hkey⟩, hle⟩ := (hok.sorted t).isLeast
  cases n with
  | real =>
    have hmin : (c.edf.aggregation t).priority ≤ c.edf.priority id := hle ⟨.job id, hid, rfl⟩
    have hreal : c.edf.realPriority t = (c.edf.aggregation t).priority := hkey
    have hback := h.background
    omega
  | job id' =>
    have he := h.only id' hn
    rw [h.only id hid] at he
    cases he
    exact hkey.symm

theorem Ok.priority_real (hok : c.Ok) (hna : ¬ c.Active t) :
    (c.edf.aggregation t).priority = c.edf.realPriority t := by
  obtain ⟨⟨n, hn, hkey⟩, -⟩ := (hok.sorted t).isLeast
  cases n with
  | real => exact hkey.symm
  | job id => exact absurd ⟨id, hn⟩ hna

section

variable (h : Isolated t server c) (hok : c.Ok)

include h hok

theorem Isolated.unblock (hiso : Isolating t server.parameters c (.unblock t))
    (hs : c.unblock t = some c') :
    Isolated t server c' ∧ ∀ id, .job id ∈ c'.contributors t → c'.InTime server.parameters t id := by
  obtain ⟨c1, hc1, rfl⟩ := map_eq_some_iff.mp hs
  rw [endLate, h.attached] at hc1
  by_cases hlate : c.late server t = true
  · simp only [if_pos hlate] at hc1
    obtain ⟨hi, hna⟩ := h.toBounded.endJob hok hc1
    exact ⟨hi.congr rfl rfl rfl rfl rfl rfl, fun id hid => absurd ⟨id, hid⟩ hna⟩
  · simp only [if_neg hlate] at hc1
    cases hc1
    refine ⟨h.congr rfl rfl rfl rfl rfl rfl, fun id hid => ?_⟩
    rcases hiso.2 rfl id hid with hin | hfound
    · exact hin
    · exact absurd (hfound.late (h.priority_eq hok hid hfound.1)) hlate

theorem Isolated.unblock_of_ne (hu : t ≠ u) (hs : c.unblock u = some c') :
    Isolated t server c' := by
  obtain ⟨c1, hc1, rfl⟩ := map_eq_some_iff.mp hs
  have hi : Isolated t server c1 := by
    rw [endLate] at hc1
    split at hc1
    · split_ifs at hc1
      · exact h.endJob_of_ne hok hu hc1
      · cases hc1; exact h
    · cases hc1; exact h
  exact hi.congr rfl rfl rfl rfl rfl rfl

/-! ## Runs -/

theorem Isolated.step (hB : server.parameters.budget.toNat < 2 ^ 32)
    (hpos : 0 < server.parameters.budget) {a : CbsJobAction}
    (hiso : Isolating t server.parameters c a) (hs : c.step a = some c') :
    Isolated t server c' := by
  cases a with
  | sys a =>
    obtain ⟨s, hsys, hs⟩ := bind_eq_some_iff.mp hs
    cases hcall : c.sys.jobCall a with
    | none => simp only [hcall] at hs; cases hs; exact h.congr rfl rfl rfl rfl rfl rfl
    | some call =>
      simp only [hcall] at hs
      obtain ⟨c1, hc1, rfl⟩ := map_eq_some_iff.mp hs
      exact (h.perform hB hok hpos hcall hiso hsys hc1).congr rfl rfl rfl rfl rfl rfl
  | tick u => exact h.tick hB hok hs
  | block u => cases hs; exact h.congr rfl rfl rfl rfl rfl rfl
  | unblock u =>
    simp only [Cbs.step] at hs
    split_ifs at hs
    by_cases hu : t = u
    · subst hu; exact (h.unblock hok hiso hs).1
    · exact h.unblock_of_ne hok hu hs

end

theorem Boot.isolated (hb : c.Boot) (hs : c.server t = some server) : Isolated t server c where
  attached := hs
  only id hid := by
    rw [contributors, hb.edf.aggregation] at hid; simp [Aggregation.initializeOne] at hid
  charged := by rw [hb.charged]; exact Nat.zero_le _
  background := hb.background t
  budget id hid := by
    rw [hb.deadlineNode] at hid; cases hid

instance (params : CbsParameters) (id : Id) : Decidable (c.InTime params t id) :=
  inferInstanceAs (Decidable (_ ≤ _))

instance (params : CbsParameters) (id : Id) : Decidable (c.FoundLate params t id) :=
  inferInstanceAs (Decidable (_ ∧ _))

/-- A test for `Isolating`. -/
def isolating (t : Thread) (params : CbsParameters) (c : Cbs) (a : CbsJobAction) : Bool :=
  c.remembered a &&
    match a with
    | .sys a => (c.sys.jobCall a).all fun
      | .release id u _ => u != t || (c.contributors t).all fun n => n == .real || n == .job id
      | _ => true
    | .unblock u => u != t || (c.contributors t).all fun
      | .real => true
      | .job id => decide (c.InTime params t id ∨ c.FoundLate params t id)
    | _ => true

theorem isolating_spec {params : CbsParameters} {a : CbsJobAction}
    (h : isolating t params c a = true) : Isolating t params c a := by
  cases a with
  | sys a =>
    simp only [isolating, Bool.and_eq_true] at h
    refine ⟨remembered_spec h.1, fun id d hcall id' hid' => ?_⟩
    have hall := h.2
    simp only [hcall, all_some, bne_self_eq_false, Bool.false_or, List.all_eq_true] at hall
    simpa using hall _ hid'
  | tick u | block u => exact ⟨trivial, trivial⟩
  | unblock u =>
    simp only [isolating, Bool.and_eq_true] at h
    refine ⟨remembered_spec h.1, ?_⟩
    rintro rfl id hid
    have hall := h.2
    simp only [bne_self_eq_false, Bool.false_or, List.all_eq_true] at hall
    simpa using hall _ hid

end Cbs

end Rtems
