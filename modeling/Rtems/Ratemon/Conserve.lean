import Rtems.Ratemon.Step

/-!
# No job is lost or released twice

Every expiration of the timer of an active period is a job: released at once when the owner waits,
postponed otherwise. Counted since the last activation, the jobs add up.

* `Conserved`: the books of one period, and what each event does to them;
* **`jobs_conserved`**: the law for every reachable state.
-/

namespace Rtems

open Objects

/-! ## Counting events -/

def Event.period : Event → Id
  | .activated id => id
  | .expired id => id
  | .saturated id => id
  | .restarted id => id
  | .postponedReleased id _ => id
  | .compensated id _ => id
  | .createdFts id => id
  | .deleted id => id

/-- The events since the last activation of `id`. -/
def since (id : Id) (trace : List Event) : List Event :=
  trace.takeWhile fun e => e != .activated id

def expirations (id : Id) (trace : List Event) : ℕ := (since id trace).count (.expired id)

/-- The jobs released by `_Rate_monotonic_Timeout` through `_Rate_monotonic_Restart`. -/
def restarts (id : Id) (trace : List Event) : ℕ := (since id trace).count (.restarted id)

/-- The jobs released by `_Rate_monotonic_Release_postponed_job`. -/
def postponedReleases (id : Id) (trace : List Event) : ℕ :=
  (since id trace).countP fun e =>
    match e with
    | .postponedReleased x _ => x == id
    | _ => false

/-- The calls of `fts_compensate_t` for jobs, by the owner or the timeout. -/
def compensations (id : Id) (owner : Thread) (trace : List Event) : ℕ :=
  (since id trace).countP fun e => e == .compensated id none || e == .compensated id (some owner)

section Counts

variable {id : Id} {e : Event} {trace : List Event}

@[simp] theorem since_activated : since id (.activated id :: trace) = [] := by simp [since]

theorem since_cons (h : e ≠ .activated id) : since id (e :: trace) = e :: since id trace := by
  simp [since, h]

theorem expirations_cons (h : e ≠ .activated id) : expirations id (e :: trace) =
    expirations id trace + if e = .expired id then 1 else 0 := by
  simp [expirations, since_cons h, List.count_cons]

theorem restarts_cons (h : e ≠ .activated id) : restarts id (e :: trace) =
    restarts id trace + if e = .restarted id then 1 else 0 := by
  simp [restarts, since_cons h, List.count_cons]

theorem postponedReleases_released (n : ℕ) :
    postponedReleases id (.postponedReleased id n :: trace) = postponedReleases id trace + 1 := by
  rw [postponedReleases, postponedReleases, since_cons (by simp), List.countP_cons_of_pos (by simp)]

theorem postponedReleases_cons (h : e ≠ .activated id) (hn : ∀ n, e ≠ .postponedReleased id n) :
    postponedReleases id (e :: trace) = postponedReleases id trace := by
  rw [postponedReleases, postponedReleases, since_cons h, List.countP_cons_of_neg]
  cases e with
  | postponedReleased x n =>
    have hx : x ≠ id := fun hx => hn n (by rw [hx])
    simpa using hx
  | _ => simp

theorem compensations_cons (h : e ≠ .activated id) (owner : Thread) :
    compensations id owner (e :: trace) = compensations id owner trace +
      if e = .compensated id none ∨ e = .compensated id (some owner) then 1 else 0 := by
  simp [compensations, since_cons h, List.countP_cons]

theorem mem_since_cons (h : e ≠ .activated id) {f : Event} :
    f ∈ since id (e :: trace) ↔ f = e ∨ f ∈ since id trace := by
  rw [since_cons h, List.mem_cons]

theorem counts_of_ne (h : e.period ≠ id) (owner : Thread) (trace : List Event) :
    expirations id (e :: trace) = expirations id trace ∧
      restarts id (e :: trace) = restarts id trace ∧
      postponedReleases id (e :: trace) = postponedReleases id trace ∧
      compensations id owner (e :: trace) = compensations id owner trace ∧
      (.saturated id ∈ since id (e :: trace) ↔ .saturated id ∈ since id trace) := by
  have hne : ∀ f : Event, f.period = id → e ≠ f := by intro f hf he; exact h (he ▸ hf)
  rw [expirations_cons (hne _ rfl), restarts_cons (hne _ rfl),
    postponedReleases_cons (hne _ rfl) (fun n => hne _ rfl), compensations_cons (hne _ rfl),
    mem_since_cons (hne _ rfl), if_neg (hne _ rfl), if_neg (hne _ rfl),
    if_neg (fun he => he.elim (hne _ rfl) (hne _ rfl))]
  exact ⟨rfl, rfl, rfl, rfl, or_iff_right (hne _ rfl).symm⟩

theorem counts_append {l : List Event} (h : ∀ e ∈ l, e.period ≠ id) (owner : Thread)
    (trace : List Event) :
    expirations id (l ++ trace) = expirations id trace ∧
      restarts id (l ++ trace) = restarts id trace ∧
      postponedReleases id (l ++ trace) = postponedReleases id trace ∧
      compensations id owner (l ++ trace) = compensations id owner trace ∧
      (.saturated id ∈ since id (l ++ trace) ↔ .saturated id ∈ since id trace) := by
  induction l with
  | nil => exact ⟨rfl, rfl, rfl, rfl, Iff.rfl⟩
  | cons e l ih =>
    obtain ⟨h1, h2, h3, h4, h5⟩ := ih fun e he => h e (List.mem_cons_of_mem _ he)
    obtain ⟨k1, k2, k3, k4, k5⟩ := counts_of_ne (h e List.mem_cons_self) owner (l ++ trace)
    exact ⟨k1.trans h1, k2.trans h2, k3.trans h3, k4.trans h4, k5.trans h5⟩

end Counts

namespace Sys

/-- The books of a period: expirations are jobs released or postponed, and each release calls
`fts_compensate_t` once. -/
structure Conserved (s : Sys) (id : Id) (p : RateMonotonicControl) : Prop where
  jobs : .saturated id ∉ since id s.trace →
    expirations id s.trace =
      restarts id s.trace + postponedReleases id s.trace + p.postponedJobs
  expired : p.state = .expired → 0 < p.postponedJobs
  bound : p.postponedJobs < 2 ^ 32
  once : compensations id p.owner s.trace +
      (if (s.threads p.owner).pc = .compensating id then 1 else 0) =
    1 + restarts id s.trace + postponedReleases id s.trace

section Books

variable {s s' : Sys} {id : Id} {p p' : RateMonotonicControl}

theorem Conserved.frame (h : s.Conserved id p) (hst : p'.state = p.state)
    (hpj : p'.postponedJobs = p.postponedJobs) (how : p'.owner = p.owner) {l : List Event}
    (he : ∀ e ∈ l, e.period ≠ id) (htr : s'.trace = l ++ s.trace)
    (hpc : (s'.threads p.owner).pc = .compensating id ↔ (s.threads p.owner).pc = .compensating id) :
    s'.Conserved id p' := by
  obtain ⟨h1, h2, h3, h4, h5⟩ := counts_append he p.owner s.trace
  refine ⟨?_, ?_, ?_, ?_⟩
  · rw [htr, hpj, h1, h2, h3, h5]; exact h.jobs
  · rw [hst, hpj]; exact h.expired
  · rw [hpj]; exact h.bound
  · rw [htr, how, h2, h3, h4, if_congr hpc rfl rfl]; exact h.once

theorem Conserved.of_activated {trace : List Event} (hst : p.state = .active)
    (hpj : p.postponedJobs = 0) (htr : s.trace = .activated id :: trace)
    (hpc : (s.threads p.owner).pc = .compensating id) : s.Conserved id p where
  jobs _ := by
    rw [htr, hpj]; simp [expirations, restarts, postponedReleases]
  expired he := by
    rw [hst] at he; cases he
  bound := by omega
  once := by
    rw [htr, if_pos hpc]; simp [compensations, restarts, postponedReleases]

section

variable (h : s.Conserved id p)

include h

/-- The owner releases a postponed job and has yet to call `fts_compensate_t`. -/
theorem Conserved.postponed (hst : p'.state = .active)
    (hpj : p'.postponedJobs + 1 = p.postponedJobs) (how : p'.owner = p.owner) {n : ℕ}
    (htr : s'.trace = .postponedReleased id n :: s.trace)
    (hold : (s.threads p.owner).pc ≠ .compensating id)
    (hnew : (s'.threads p.owner).pc = .compensating id) : s'.Conserved id p' := by
  obtain ⟨hjobs, -, hbound, honce⟩ := h
  have hne : Event.postponedReleased id n ≠ .activated id := by simp
  have hpost : postponedReleases id s'.trace = postponedReleases id s.trace + 1 := by
    rw [htr, postponedReleases_released]
  have hrest : restarts id s'.trace = restarts id s.trace := by
    rw [htr, restarts_cons hne, if_neg (by simp), add_zero]
  refine ⟨fun hns => ?_, fun he => ?_, by omega, ?_⟩
  · rw [htr, mem_since_cons hne, not_or] at hns
    have hexp : expirations id s'.trace = expirations id s.trace := by
      rw [htr, expirations_cons hne, if_neg (by simp), add_zero]
    have := hjobs hns.2
    omega
  · rw [hst] at he; cases he
  · have hcomp : compensations id p.owner s'.trace = compensations id p.owner s.trace := by
      rw [htr, compensations_cons hne, if_neg (by simp), add_zero]
    rw [if_neg hold] at honce
    rw [how, if_pos hnew]
    omega

/-- The timeout releases a job of the waiting owner and calls `fts_compensate_t`. -/
theorem Conserved.restarted (hst : p'.state = p.state)
    (hpj : p'.postponedJobs = p.postponedJobs) (how : p'.owner = p.owner)
    (htr : s'.trace = .compensated id none :: .restarted id :: .expired id :: s.trace)
    (hold : (s.threads p.owner).pc ≠ .compensating id)
    (hnew : (s'.threads p.owner).pc ≠ .compensating id) : s'.Conserved id p' := by
  obtain ⟨hjobs, hexpired, hbound, honce⟩ := h
  have hpost : postponedReleases id s'.trace = postponedReleases id s.trace := by
    simp [htr, postponedReleases_cons]
  have hrest : restarts id s'.trace = restarts id s.trace + 1 := by simp [htr, restarts_cons]
  refine ⟨fun hns => ?_, ?_, by omega, ?_⟩
  · have hexp : expirations id s'.trace = expirations id s.trace + 1 := by
      simp [htr, expirations_cons]
    have := hjobs (by simpa [htr, mem_since_cons] using hns)
    omega
  · rw [hst, hpj]; exact hexpired
  · have hcomp : compensations id p.owner s'.trace = compensations id p.owner s.trace + 1 := by
      simp [htr, compensations_cons]
    rw [if_neg hold] at honce
    rw [how, if_neg hnew]
    omega

/-- The timer expires while the owner does not wait: the job is postponed. -/
theorem Conserved.renewed (hpj : p'.postponedJobs = p.postponedJobs + 1)
    (how : p'.owner = p.owner) (hsat : p.postponedJobs ≠ 2 ^ 32 - 1)
    (htr : s'.trace = .expired id :: s.trace) (hthreads : s'.threads = s.threads) :
    s'.Conserved id p' := by
  obtain ⟨hjobs, -, hbound, honce⟩ := h
  refine ⟨fun hns => ?_, fun _ => by omega, by omega, ?_⟩
  · have := hjobs (by simpa [htr, mem_since_cons] using hns)
    rw [hpj, htr]
    simp only [ne_eq, reduceCtorEq, not_false_eq_true, expirations_cons, restarts_cons,
      postponedReleases_cons, implies_true, if_true, if_false]
    omega
  · rw [how, hthreads, htr]
    simpa [compensations_cons, restarts_cons, postponedReleases_cons] using honce

/-- The timer expires when `postponed_jobs` cannot count the job. -/
theorem Conserved.saturated (hpj : p'.postponedJobs = p.postponedJobs)
    (how : p'.owner = p.owner) (hsat : p.postponedJobs = 2 ^ 32 - 1)
    (htr : s'.trace = .saturated id :: .expired id :: s.trace)
    (hthreads : s'.threads = s.threads) : s'.Conserved id p' := by
  refine ⟨fun hns => absurd ?_ hns, fun _ => by omega, by omega, ?_⟩
  · rw [htr, mem_since_cons (by simp)]; exact .inl rfl
  · rw [how, hthreads, htr]
    simpa [compensations_cons, restarts_cons, postponedReleases_cons] using h.once

/-- The call of a thread that does not own the period any more is not counted. -/
theorem Conserved.compensated {t : Thread} (htr : s'.trace = .compensated id (some t) :: s.trace)
    (hold : (s.threads t).pc = .compensating id) (hnew : (s'.threads t).pc ≠ .compensating id)
    (hother : ∀ u, u ≠ t → s'.threads u = s.threads u) : s'.Conserved id p := by
  obtain ⟨hjobs, hexpired, hbound, honce⟩ := h
  refine ⟨?_, hexpired, hbound, ?_⟩
  · rw [htr]
    simpa [expirations_cons, restarts_cons, postponedReleases_cons, mem_since_cons] using hjobs
  · rw [htr, compensations_cons (by simp), restarts_cons (by simp),
      postponedReleases_cons (by simp) (by simp)]
    by_cases how : p.owner = t
    · rw [how, if_pos hold] at honce; rw [how, if_neg hnew]; simpa using honce
    · rw [hother p.owner how]; simpa [Ne.symm how] using honce

end

end Books

/-! ## The books over a run -/

structure Books (s : Sys) : Prop where
  thread : ∀ t, (s.threads t).Ok
  timer : ∀ id p, s.periods.live id = some p → p.state = .inactive → p.timer = none
  conserved : ∀ id p, s.periods.live id = some p → p.state ≠ .inactive → s.Conserved id p
  released : ∀ id n, .postponedReleased id n ∈ s.trace → 0 < n

section Step

variable {s s' : Sys} {a : Action}

theorem Books.postponed_pos (hs : s.Books) {id : Id} {p : RateMonotonicControl}
    (hl : s.periods.live id = some p)
    (hst : p.state = .active ∧ 0 < p.postponedJobs ∨ p.state = .expired) : 0 < p.postponedJobs := by
  rcases hst with ⟨-, hj⟩ | hst
  · exact hj
  · exact (hs.conserved id p hl (by rw [hst]; decide)).expired hst

theorem Step.timer (h : Step s a s') (hs : s.Books) :
    ∀ id p, s'.periods.live id = some p → p.state = .inactive → p.timer = none := by
  intro x q hq hin
  cases h with
  | created hpc ha | unregistered hpc hn hi ha hr | createdFts hpc hn hi ha hr h1 =>
    rcases allocate_cases ha hq with ⟨-, rfl⟩ | ⟨-, hq⟩
    · rfl
    · exact hs.timer x q hq hin
  | deleted hl => exact hs.timer x q (close_cases hq).2 hin
  | canceled hpc hl ht =>
    rcases put_cases hl hq with ⟨-, rfl⟩ | ⟨-, hq⟩
    · rfl
    · exact hs.timer x q hq hin
  | activated hpc hl hb ht h0 hst | postponed hpc hl hb ht h0 hst | renewed hl htm hw =>
    rcases put_cases hl hq with ⟨-, rfl⟩ | ⟨-, hq⟩
    · cases hin
    · exact hs.timer x q hq hin
  | blocking hpc hl hb ht h0 hst hj =>
    rcases put_cases hl hq with ⟨-, rfl⟩ | ⟨-, hq⟩
    · cases hst.symm.trans hin
    · exact hs.timer x q hq hin
  | restarted hl htm hw hc =>
    rcases put_cases hl hq with ⟨-, rfl⟩ | ⟨-, hq⟩
    · have := hs.timer _ _ hl hin; rw [htm] at this; cases this
    · exact hs.timer x q hq hin
  | _ => exact hs.timer x q hq hin

theorem Step.released (h : Step s a s') (hs : s.Books) :
    ∀ id n, .postponedReleased id n ∈ s'.trace → 0 < n := by
  intro x n hn
  cases h with
  | postponed hpc hl hb ht h0 hst =>
    rcases List.mem_cons.mp hn with he | hn
    · cases he; exact hs.postponed_pos hl hst
    · exact hs.released x n hn
  | restarted hl htm hw hc | createdFts hpc hn' hi ha hr h1 =>
    exact hs.released x n (by simpa using hn)
  | renewed hl htm hw =>
    refine hs.released x n ?_
    simp only [] at hn
    split_ifs at hn <;> simpa using hn
  | deleted hl | compensated hpc hc => exact hs.released x n (by simpa using hn)
  | activated hpc hl hb ht h0 hst => exact hs.released x n (by simpa [activate] using hn)
  | _ => exact hs.released x n hn

theorem pc_iff_of_ne {t : Thread} {th : ThreadControl} {id : Id}
    (hold : (s.threads t).pc ≠ .compensating id) (hnew : th.pc ≠ .compensating id) (u : Thread) :
    (Function.update s.threads t th u).pc = .compensating id ↔
      (s.threads u).pc = .compensating id := by
  by_cases hu : u = t
  · rw [hu, Function.update_self]; exact ⟨fun h => absurd h hnew, fun h => absurd h hold⟩
  · rw [Function.update_of_ne hu]

theorem Step.conserved (h : Step s a s') (hs : s.Books) :
    ∀ id p, s'.periods.live id = some p → p.state ≠ .inactive → s'.Conserved id p := by
  intro x q hq hact
  -- a period whose block, events and threads the step does not touch
  have hkeep : ∀ {l : List Event}, s.periods.live x = some q → (∀ e ∈ l, e.period ≠ x) →
      s'.trace = l ++ s.trace → ((s'.threads q.owner).pc = .compensating x ↔
        (s.threads q.owner).pc = .compensating x) → s'.Conserved x q := by
    intro l hl he htr hpc
    exact (hs.conserved x q hl hact).frame rfl rfl rfl he htr hpc
  cases h with
  | rejected ha | queried hpc hl hb hq' | called he hc =>
    exact hkeep (l := []) hq (by simp) rfl Iff.rfl
  | created hpc ha | unregistered hpc hn hi ha hr =>
    rcases allocate_cases ha hq with ⟨-, rfl⟩ | ⟨-, hq⟩
    · exact absurd rfl hact
    · exact hkeep (l := []) hq (by simp) rfl Iff.rfl
  | createdFts hpc hn hi ha hr h1 =>
    rcases allocate_cases ha hq with ⟨-, rfl⟩ | ⟨hx, hq⟩
    · exact absurd rfl hact
    · exact hkeep (l := [_]) hq (by simpa [Event.period] using hx.symm) rfl Iff.rfl
  | deleted hl =>
    obtain ⟨hx, hq⟩ := close_cases hq
    exact hkeep (l := [_]) hq (by simpa [Event.period] using hx.symm) rfl Iff.rfl
  | canceled hpc hl ht =>
    rcases put_cases hl hq with ⟨-, rfl⟩ | ⟨-, hq⟩
    · exact absurd rfl hact
    · exact hkeep (l := []) hq (by simp) rfl Iff.rfl
  | @activated t id length p fts hpc hl hb ht h0 hst =>
    rcases put_cases hl hq with ⟨rfl, rfl⟩ | ⟨hx, hq⟩
    · refine .of_activated rfl rfl rfl ?_
      rw [← show t = (p.activate length s.clock).owner from ht]
      simp [activate]
    · refine hkeep (l := [_]) hq (by simpa [Event.period] using hx.symm) rfl ?_
      exact pc_iff_of_ne (s := s) (by rw [hpc]; simp) (by simpa using hx.symm) _
  | @blocking t id length p fts hpc hl hb ht h0 hst hj =>
    rcases put_cases hl hq with ⟨rfl, rfl⟩ | ⟨hx, hq⟩
    · refine (hs.conserved _ _ hl (by rw [hst]; decide)).frame (l := []) rfl rfl rfl (by simp) rfl ?_
      exact pc_iff_of_ne (s := s) (by rw [hpc]; simp) (by simp) _
    · refine hkeep (l := []) hq (by simp) rfl ?_
      exact pc_iff_of_ne (s := s) (by rw [hpc]; simp) (by simp) _
  | @postponed t id length p fts hpc hl hb ht h0 hst =>
    rcases put_cases hl hq with ⟨rfl, rfl⟩ | ⟨hx, hq⟩
    · have hne : p.state ≠ .inactive := by rcases hst with ⟨h, -⟩ | h <;> rw [h] <;> decide
      have hbooks := hs.conserved _ _ hl hne
      have hpos := hs.postponed_pos hl hst
      have hbound := hbooks.bound
      refine hbooks.postponed rfl ?_ rfl rfl (by rw [← ht, hpc]; simp) ?_
      · change (p.postponedJobs + (2 ^ 32 - 1)) % 2 ^ 32 + 1 = p.postponedJobs; omega
      · rw [← ht]; simp [blockWhileExpired]
    · refine hkeep (l := [_]) hq (by simpa [Event.period] using hx.symm) rfl ?_
      exact pc_iff_of_ne (s := s) (by rw [hpc]; simp) (by simpa using hx.symm) _
  | @compensated t g id v fts hpc hc =>
    by_cases hx : id = x
    · subst hx
      refine (hs.conserved _ _ hq hact).compensated rfl hpc (by simp) fun u hu => ?_
      exact Function.update_of_ne hu _ _
    · refine hkeep (l := [_]) hq (by simpa [Event.period] using hx) rfl ?_
      exact pc_iff_of_ne (by rw [hpc]; simpa using hx) (by simp) _
  | @blocked t id hpc hf | @readyAgain t id hpc hf =>
    refine hkeep (l := []) hq (by simp) rfl ?_
    exact pc_iff_of_ne (by rw [hpc]; simp) (by simp) _
  | @restarted id g p deadline v fts hl htm hw hc =>
    -- the waiting owner is not at `fts_compensate_t`, before or after
    have hpc : ∀ y, (s.threads p.owner).pc ≠ .compensating y := by
      intro y
      rcases hw.pc (hs.thread _) with ⟨h, -⟩ | ⟨h, -⟩ <;> rw [h] <;> simp
    have hpc' : ∀ y, (if (s.threads p.owner).waitFlags = .intendToBlock
        then (s.threads p.owner).pc else .user) ≠ .compensating y := by
      intro y
      split_ifs
      · exact hpc y
      · simp
    rcases put_cases hl hq with ⟨rfl, rfl⟩ | ⟨hx, hq⟩
    · exact (hs.conserved _ _ hl hact).restarted rfl rfl rfl rfl (hpc _) (by simpa using hpc' _)
    · refine hkeep (l := [_, _, _]) hq (by simpa [Event.period] using hx.symm) rfl ?_
      exact pc_iff_of_ne (hpc x) (hpc' x) _
  | @renewed id g p deadline hl htm hw =>
    rcases put_cases hl hq with ⟨rfl, rfl⟩ | ⟨hx, hq⟩
    · have hne : p.state ≠ .inactive := by
        intro hin
        have := hs.timer _ _ hl hin
        rw [htm] at this
        cases this
      have hbooks := hs.conserved _ _ hl hne
      by_cases hsat : p.postponedJobs = 2 ^ 32 - 1
      · exact hbooks.saturated (if_neg (not_not.mpr hsat)) rfl hsat (if_pos hsat) rfl
      · exact hbooks.renewed (if_pos hsat) rfl hsat (if_neg hsat) rfl
    · by_cases hsat : p.postponedJobs = 2 ^ 32 - 1
      · exact hkeep (l := [.saturated id, .expired id]) hq
          (by simpa [Event.period] using hx.symm) (if_pos hsat) Iff.rfl
      · exact hkeep (l := [.expired id]) hq (by simpa [Event.period] using hx.symm)
          (if_neg hsat) Iff.rfl
  | waited => exact hkeep (l := []) hq (by simp) rfl Iff.rfl

theorem Reachable.books (h : s.Reachable) : s.Books := by
  obtain ⟨s0, as, h0, h⟩ := h
  refine PartialRun.run_invariant step (fun s a s' hs h => ?_) ?_ h
  · have hst := step_cases h
    exact ⟨hst.threadsOk hs.thread, hst.timer hs, hst.conserved hs, hst.released hs⟩
  · refine ⟨fun t => ?_, fun x q hq => ?_, fun x q hq => ?_, fun x n hn => ?_⟩
    · rw [h0.threads t]; exact rfl
    · rw [h0.periods x] at hq; cases hq
    · rw [h0.periods x] at hq; cases hq
    · rw [h0.trace] at hn; cases hn

end Step

/-- **No job of a period is lost or released twice.** An expiration is a job released or still
postponed, and each release calls `fts_compensate_t` once. -/
theorem jobs_conserved {s : Sys} (hs : s.Reachable) {id : Id} {p : RateMonotonicControl}
    (hl : s.periods.live id = some p) (hact : p.state ≠ .inactive) :
    (.saturated id ∉ since id s.trace → expirations id s.trace =
      restarts id s.trace + postponedReleases id s.trace + p.postponedJobs) ∧
    (p.state = .expired → 0 < p.postponedJobs) ∧
    (∀ n, .postponedReleased id n ∈ s.trace → 0 < n) ∧
    compensations id p.owner s.trace +
        (if (s.threads p.owner).pc = .compensating id then 1 else 0) =
      1 + restarts id s.trace + postponedReleases id s.trace := by
  have hb := hs.books
  obtain ⟨h1, h2, -, h4⟩ := hb.conserved id p hl hact
  exact ⟨h1, h2, hb.released id, h4⟩

theorem jobs_conserved_twice : ∃ (s : Sys) (p : RateMonotonicControl), s.Reachable ∧
    s.periods.live 1 = some p ∧ p.state ≠ .inactive ∧ p.postponedJobs = 1 ∧
    expirations 1 s.trace = restarts 1 s.trace + postponedReleases 1 s.trace + 1 ∧
    compensations 1 p.owner s.trace + (if (s.threads p.owner).pc = .compensating 1 then 1 else 0) =
      1 + restarts 1 s.trace + postponedReleases 1 s.trace := by
  obtain ⟨s, hr, hs⟩ := Option.map_eq_some_iff.mp (show (PartialRun.run step (initial 4 4)
      [.createFts 1 (.oneOfTwo 0 .sre) default, .period 1 1 5, .compensate 1 .granted,
        .wait (.tick 5), .timeout 1 .granted, .wait (.tick 10), .timeout 1 .granted,
        .period 1 1 5]).map (fun s => ((s.periods.live 1).map fun p => (p.state, p.postponedJobs),
          (since 1 s.trace).contains (.saturated 1))) =
      some (some (.active, 1), false) by rfl)
  simp only [Prod.mk.injEq, Option.map_eq_some_iff] at hs
  obtain ⟨⟨p, hl, hst, hj⟩, hsat⟩ := hs
  have hact : p.state ≠ .inactive := by rw [hst]; decide
  have hreach : s.Reachable := ⟨_, _, initial_boot 4 4, hr⟩
  obtain ⟨h1, -, -, h4⟩ := jobs_conserved hreach hl hact
  exact ⟨s, p, hreach, hl, hact, hj, hj ▸ h1 (by simpa using hsat), h4⟩

end Sys

end Rtems
