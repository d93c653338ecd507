import Rtems.Fts.Step
import Rtems.Ratemon.Model

/-!
# The steps of the system, case by case

* `Step`: what an action does, one constructor for each way through its directive;
* **`step_cases`**: every step of the machine is one of these;
* `ftsCall`: the call of the fault-tolerance manager that an action makes, if it makes one;
* **`Step.fts`**, `Reachable.fts`: on the tables, a run of the system is a run of the
  fault-tolerance manager;
* `ThreadControl.Ok`, **`Reachable.waitFlags_fit`**: the wait flags fit the place in the code.
-/

namespace Rtems

open PartialRun Option

namespace Sys

/-- The call of the fault-tolerance manager that an action makes. -/
def ftsCall (s : Sys) : Action → Option Call
  | .createFts t c old =>
    if c.name = 0 ∨ c.id = false then none
    else (s.periods.allocate (old.initBlock t)).map fun x => .register (c.request x.1)
  | .period _ id _ => (s.periods.live id).map fun _ => .periodBegin id
  | .compensate t g =>
    match (s.threads t).pc with
    | .compensating id => some (.compensate .release id g)
    | _ => none
  | .timeout id g =>
    (s.periods.live id).bind fun p =>
      if s.Waiting id p then some (.compensate .release id g) else none
  | .call c => some c
  | _ => none

/-- What an action does in state `s`. -/
inductive Step (s : Sys) : Action → Sys → Prop
  /-- The directive returns an error and does nothing. -/
  | rejected {a : Action} (ha : s.ftsCall a = none) : Step s a s
  | created {t : Thread} {name : ℕ} {id : Bool} {old : RateMonotonicControl} {x : Id}
      {periods : Objects RateMonotonicControl}
      (hpc : (s.threads t).pc = .user)
      (ha : s.periods.allocate (old.initBlock t) = some (x, periods)) :
      Step s (.create t name id old) { s with periods := periods }
  /-- The period is created, but its registration is refused. -/
  | unregistered {t : Thread} {c : CreateFts} {old : RateMonotonicControl} {x : Id}
      {periods : Objects RateMonotonicControl} {fts : Fts}
      (hpc : (s.threads t).pc = .user) (hn : c.name ≠ 0) (hi : c.id = true)
      (ha : s.periods.allocate (old.initBlock t) = some (x, periods))
      (hr : s.fts.ftsRtemsTaskRegister (c.request x) = some (0, fts)) :
      Step s (.createFts t c old) { s with periods := periods, fts := fts }
  | createdFts {t : Thread} {c : CreateFts} {old : RateMonotonicControl} {x : Id}
      {periods : Objects RateMonotonicControl} {reg : ℕ} {fts : Fts}
      (hpc : (s.threads t).pc = .user) (hn : c.name ≠ 0) (hi : c.id = true)
      (ha : s.periods.allocate (old.initBlock t) = some (x, periods))
      (hr : s.fts.ftsRtemsTaskRegister (c.request x) = some (reg, fts)) (h1 : reg ≠ 0) :
      Step s (.createFts t c old)
        ({ s with periods := periods, fts := fts }.note (.createdFts x))
  | deleted {id : Id} {p : RateMonotonicControl} (hl : s.periods.live id = some p) :
      Step s (.delete id) ({ s with periods := s.periods.close id }.note (.deleted id))
  | canceled {t : Thread} {id : Id} {p : RateMonotonicControl} (hpc : (s.threads t).pc = .user)
      (hl : s.periods.live id = some p) (ht : t = p.owner) :
      Step s (.cancel t id) (s.setPeriod id p.cancel)
  /-- A call that starts no job: not by the owner, or for the status. -/
  | queried {t : Thread} {id : Id} {length : ℕ} {p : RateMonotonicControl} {fts : Fts}
      (hpc : (s.threads t).pc = .user) (hl : s.periods.live id = some p)
      (hb : s.fts.periodBegin id = some fts) (hq : t ≠ p.owner ∨ length = 0) :
      Step s (.period t id length) { s with fts := fts }
  | activated {t : Thread} {id : Id} {length : ℕ} {p : RateMonotonicControl} {fts : Fts}
      (hpc : (s.threads t).pc = .user) (hl : s.periods.live id = some p)
      (hb : s.fts.periodBegin id = some fts) (ht : t = p.owner) (h0 : length ≠ 0)
      (hst : p.state = .inactive) :
      Step s (.period t id length) ({ s with fts := fts }.activate t id p length)
  | blocking {t : Thread} {id : Id} {length : ℕ} {p : RateMonotonicControl} {fts : Fts}
      (hpc : (s.threads t).pc = .user) (hl : s.periods.live id = some p)
      (hb : s.fts.periodBegin id = some fts) (ht : t = p.owner) (h0 : length ≠ 0)
      (hst : p.state = .active) (hj : p.postponedJobs = 0) :
      Step s (.period t id length) ({ s with fts := fts }.blockWhileActive t id p length)
  | postponed {t : Thread} {id : Id} {length : ℕ} {p : RateMonotonicControl} {fts : Fts}
      (hpc : (s.threads t).pc = .user) (hl : s.periods.live id = some p)
      (hb : s.fts.periodBegin id = some fts) (ht : t = p.owner) (h0 : length ≠ 0)
      (hst : p.state = .active ∧ 0 < p.postponedJobs ∨ p.state = .expired) :
      Step s (.period t id length) ({ s with fts := fts }.blockWhileExpired t id p length)
  | compensated {t : Thread} {g : Grant} {id : Id} {v : FtsVersion} {fts : Fts}
      (hpc : (s.threads t).pc = .compensating id)
      (hc : s.fts.ftsCompensate .release id g = some (v, fts)) :
      Step s (.compensate t g)
        (({ s with fts := fts }.setPc t .user).note (.compensated id (some t)))
  | blocked {t : Thread} {id : Id} (hpc : (s.threads t).pc = .intending id)
      (hf : (s.threads t).waitFlags = .intendToBlock) :
      Step s (.block t)
        (s.setThread t { s.threads t with waitFlags := .blocked, pc := .blocked id })
  | readyAgain {t : Thread} {id : Id} (hpc : (s.threads t).pc = .intending id)
      (hf : (s.threads t).waitFlags ≠ .intendToBlock) : Step s (.block t) (s.setPc t .user)
  | restarted {id : Id} {g : Grant} {p : RateMonotonicControl} {deadline : ℕ} {v : FtsVersion}
      {fts : Fts} (hl : s.periods.live id = some p) (htm : p.timer = some deadline)
      (hw : s.Waiting id p) (hc : s.fts.ftsCompensate .release id g = some (v, fts)) :
      Step s (.timeout id g)
        { s.setThread p.owner
            { waitFlags := .readyAgain
              returnArgument := none
              pc := if (s.threads p.owner).waitFlags = .intendToBlock then (s.threads p.owner).pc
                else .user } with
          periods := s.periods.put id (p.restart s.clock)
          fts := fts
          trace := .compensated id none :: .restarted id :: .expired id :: s.trace }
  | renewed {id : Id} {g : Grant} {p : RateMonotonicControl} {deadline : ℕ}
      (hl : s.periods.live id = some p) (htm : p.timer = some deadline) (hw : ¬ s.Waiting id p) :
      Step s (.timeout id g)
        { s.setPeriod id (p.renewDeadline s.clock) with
          trace := if p.postponedJobs = 2 ^ 32 - 1 then .saturated id :: .expired id :: s.trace
            else .expired id :: s.trace }
  | called {c : Call} {fts : Fts} (he : c.external = true) (hc : s.fts.step c = some fts) :
      Step s (.call c) { s with fts := fts }
  | waited {clk : Clock} : Step s (.wait clk) { s with clock := clk }

section

variable {s s' : Sys}

theorem step_cases_createFts {t : Thread} {c : CreateFts} {old : RateMonotonicControl}
    (h : s.step (.createFts t c old) = some s') : Step s (.createFts t c old) s' := by
  simp only [step, ite_none_right_eq_some, map_eq_some_iff, Prod.exists, exists_eq_right] at h
  obtain ⟨hpc, status, h⟩ := h
  unfold rtemsRateMonotonicCreateFts at h
  split_ifs at h with hn hi
  · cases h; exact .rejected (by simp [ftsCall, hn])
  · cases h; exact .rejected (by simp [ftsCall, hi])
  · cases ha : s.periods.allocate (old.initBlock t) with
    | none => rw [ha] at h; cases h; exact .rejected (by simp [ftsCall, ha])
    | some x =>
      rw [ha] at h
      simp only [bind_eq_bind, bind_eq_some_iff, Prod.exists] at h
      obtain ⟨reg, fts, hr, h⟩ := h
      split_ifs at h with h1
      · cases h; subst h1; exact .unregistered hpc hn (by simpa using hi) ha hr
      · cases h; exact .createdFts hpc hn (by simpa using hi) ha hr h1

theorem step_cases_period {t : Thread} {id : Id} {length : ℕ}
    (h : s.step (.period t id length) = some s') : Step s (.period t id length) s' := by
  simp only [step, ite_none_right_eq_some, map_eq_some_iff, Prod.exists, exists_eq_right] at h
  obtain ⟨hpc, status, h⟩ := h
  unfold rtemsRateMonotonicPeriod at h
  split at h
  · next hl =>
    cases h; exact .rejected (by simp [ftsCall, hl])
  · next p hl =>
    simp only [bind_eq_bind, bind_eq_some_iff] at h
    obtain ⟨fts, hb, h⟩ := h
    by_cases ht : t = p.owner
    · rw [if_neg (not_not.mpr ht)] at h
      by_cases h0 : length = 0
      · rw [if_pos h0] at h; cases h; exact .queried hpc hl hb (.inr h0)
      rw [if_neg h0] at h
      split at h
      · next hst =>
        split_ifs at h with hj
        · cases h; exact .postponed hpc hl hb ht h0 (.inl ⟨hst, hj⟩)
        · cases h; exact .blocking hpc hl hb ht h0 hst (by omega)
      · next hst =>
        cases h; exact .activated hpc hl hb ht h0 hst
      · next hst =>
        cases h; exact .postponed hpc hl hb ht h0 (.inr hst)
    · rw [if_pos ht] at h; cases h; exact .queried hpc hl hb (.inl ht)

theorem step_cases_timeout {id : Id} {g : Grant} (h : s.step (.timeout id g) = some s') :
    Step s (.timeout id g) s' := by
  simp only [step, rateMonotonicTimeout] at h
  split at h
  · cases h
  · next p hl =>
    split at h
    · cases h
    · next deadline htm =>
      split_ifs at h with hd hw hsat
      · simp only [timeoutRestart, bind_eq_bind, bind_eq_some_iff, Prod.exists,
          Option.some.injEq] at h
        obtain ⟨v, fts, hc, rfl⟩ := h
        exact .restarted hl htm hw hc
      · cases h
        have := Step.renewed (g := g) hl htm hw
        rw [if_pos hsat] at this
        exact this
      · cases h
        have := Step.renewed (g := g) hl htm hw
        rw [if_neg hsat] at this
        exact this

theorem step_cases {a : Action} (h : s.step a = some s') : Step s a s' := by
  cases a with
  | create t name id old =>
    simp only [step, ite_none_right_eq_some, Option.some.injEq] at h
    obtain ⟨hpc, rfl⟩ := h
    unfold rtemsRateMonotonicCreate
    split_ifs
    · exact .rejected rfl
    · exact .rejected rfl
    · split
      · exact .rejected rfl
      · next x periods ha => exact .created hpc ha
  | createFts t c old => exact step_cases_createFts h
  | delete id =>
    cases h
    unfold rtemsRateMonotonicDelete
    split
    · next p hl => exact .deleted hl
    · exact .rejected rfl
  | cancel t id =>
    simp only [step, ite_none_right_eq_some, Option.some.injEq] at h
    obtain ⟨hpc, rfl⟩ := h
    unfold rtemsRateMonotonicCancel
    split
    · exact .rejected rfl
    · next p hl =>
      split_ifs with ht
      · exact .rejected rfl
      · exact .canceled hpc hl (not_not.mp ht)
  | period t id length => exact step_cases_period h
  | compensate t g =>
    simp only [step, compensate] at h
    split at h
    · next id hpc =>
      simp only [bind_eq_bind, bind_eq_some_iff, Prod.exists, Option.some.injEq] at h
      obtain ⟨v, fts, hc, rfl⟩ := h
      exact .compensated hpc hc
    · cases h
  | block t =>
    simp only [step, block] at h
    split at h
    · next id hpc =>
      split_ifs at h with hf
      · cases h; exact .blocked hpc hf
      · cases h; exact .readyAgain hpc hf
    · cases h
  | timeout id g => exact step_cases_timeout h
  | call c =>
    simp only [step, ite_none_right_eq_some, map_eq_some_iff] at h
    obtain ⟨he, fts, hc, rfl⟩ := h
    exact .called he hc
  | wait clk =>
    simp only [step, ite_none_right_eq_some, Option.some.injEq] at h
    obtain ⟨-, rfl⟩ := h
    exact .waited

end

theorem Step.fts {s s' : Sys} {a : Action} (h : Step s a s') : match s.ftsCall a with
    | none => s'.fts = s.fts
    | some c => s.fts.step c = some s'.fts := by
  cases h with
  | rejected ha => rw [ha]
  | created hpc ha | deleted hl | canceled hpc hl ht | blocked hpc hf | readyAgain hpc hf => rfl
  | unregistered hpc hn hi ha hr | createdFts hpc hn hi ha hr h1 =>
    simp [ftsCall, hn, hi, ha, Fts.step, hr]
  | queried hpc hl hb hq => simp [ftsCall, hl, Fts.step, hb]
  | activated hpc hl hb ht h0 hst => simp [ftsCall, hl, Fts.step, hb, activate]
  | blocking hpc hl hb ht h0 hst hj => simp [ftsCall, hl, Fts.step, hb, blockWhileActive]
  | postponed hpc hl hb ht h0 hst => simp [ftsCall, hl, Fts.step, hb, blockWhileExpired]
  | compensated hpc hc => simp [ftsCall, hpc, Fts.step, hc]
  | restarted hl htm hw hc => simp [ftsCall, hl, hw, Fts.step, hc]
  | renewed hl htm hw => simp [ftsCall, hl, hw]
  | called he hc => exact hc
  | waited => rfl

theorem Step.fts_cases {s s' : Sys} {a : Action} (h : Step s a s') :
    s'.fts = s.fts ∨ ∃ c, s.ftsCall a = some c ∧ s.fts.Step c s'.fts := by
  have hf := h.fts
  split at hf
  · exact .inl hf
  · next c hc => exact .inr ⟨c, hc, Fts.step_cases hf⟩

/-- **What the fault-tolerance manager keeps, a run of the system keeps.** -/
theorem fts_invariant_along {P : Fts → Prop} {G : Fts → Call → Prop}
    (hstep : ∀ s c s', P s → G s c → Fts.Step s c s' → P s') {s0 s : Sys} {as : List Action}
    (h0 : P s0.fts)
    (hG : Along step (fun s a => ∀ c, s.ftsCall a = some c → G s.fts c) s0 as)
    (h : run step s0 as = some s) : P s.fts := by
  refine run_invariant_along step (P := fun s => P s.fts) ?_ h0 hG h
  intro s a s' hs hG hs'
  rcases (step_cases hs').fts_cases with e | ⟨c, hc, hf⟩
  · rw [e]; exact hs
  · exact hstep _ _ _ hs (hG c hc) hf

theorem Reachable.fts {s : Sys} (h : s.Reachable) : s.fts.Reachable := by
  obtain ⟨s0, as, h0, h⟩ := h
  refine run_invariant step (P := fun s => s.fts.Reachable) ?_
    ⟨s0.fts.mem, s0.fts.tasks, [], congrArg some h0.fts.symm⟩ h
  rintro s a s' ⟨mem, tasks, cs, hr⟩ hs
  have hf := (step_cases hs).fts
  split at hf
  · exact ⟨mem, tasks, cs, by rw [hf]; exact hr⟩
  · next c hc =>
    refine ⟨mem, tasks, cs ++ [c], (run_append_eq_some Fts.step).mpr ⟨s.fts, hr, ?_⟩⟩
    rw [run_cons, hf]
    rfl

end Sys

/-! ## Threads inside the period manager -/

/-- The wait flags and the return argument fit the place in the code. -/
def ThreadControl.Ok (th : ThreadControl) : Prop :=
  match th.pc with
  | .user => th.returnArgument = none
  | .compensating _ => th.returnArgument = none
  | .intending id => th.waitFlags = .intendToBlock ∧ th.returnArgument = some id ∨
      th.waitFlags = .readyAgain ∧ th.returnArgument = none
  | .blocked id => th.waitFlags = .blocked ∧ th.returnArgument = some id

namespace Sys

variable {s s' : Sys} {a : Action}

theorem Waiting.pc {id : Id} {p : RateMonotonicControl} (h : s.Waiting id p)
    (hok : (s.threads p.owner).Ok) :
    (s.threads p.owner).pc = .intending id ∧ (s.threads p.owner).waitFlags = .intendToBlock ∨
      (s.threads p.owner).pc = .blocked id ∧ (s.threads p.owner).waitFlags = .blocked := by
  obtain ⟨-, hr⟩ := h
  unfold ThreadControl.Ok at hok
  split at hok
  · rw [hr] at hok; cases hok
  · rw [hr] at hok; cases hok
  · next x hpc =>
    rcases hok with ⟨hf, hx⟩ | ⟨-, hx⟩
    · rw [hr] at hx; cases hx; exact .inl ⟨hpc, hf⟩
    · rw [hr] at hx; cases hx
  · next x hpc =>
    obtain ⟨hf, hx⟩ := hok
    rw [hr] at hx
    cases hx
    exact .inr ⟨hpc, hf⟩

theorem Step.threadsOk (h : Step s a s') (hs : ∀ t, (s.threads t).Ok) : ∀ t, (s'.threads t).Ok := by
  have hset : ∀ {u : Thread} {th : ThreadControl}, th.Ok →
      ∀ t, (Function.update s.threads u th t).Ok := by
    intro u th hth t
    by_cases ht : t = u
    · rw [ht, Function.update_self]; exact hth
    · rw [Function.update_of_ne ht]; exact hs t
  -- a thread outside a call, or before `fts_compensate_t`, has no return argument
  have huser : ∀ {u : Thread}, (s.threads u).pc = .user → (s.threads u).returnArgument = none := by
    intro u hpc
    have := hs u
    rw [ThreadControl.Ok, hpc] at this
    exact this
  cases h with
  | activated hpc hl hb ht h0 hst | postponed hpc hl hb ht h0 hst => exact hset (huser hpc)
  | blocking hpc hl hb ht h0 hst hj => exact hset (.inl ⟨rfl, rfl⟩)
  | @compensated t g id v fts hpc hc =>
    have := hs t; rw [ThreadControl.Ok, hpc] at this; exact hset this
  | @blocked t id hpc hf =>
    have := hs t
    rw [ThreadControl.Ok, hpc] at this
    rcases this with ⟨-, hr⟩ | ⟨hf', -⟩
    · exact hset ⟨rfl, hr⟩
    · rw [hf] at hf'; cases hf'
  | @readyAgain t id hpc hf =>
    have := hs t
    rw [ThreadControl.Ok, hpc] at this
    rcases this with ⟨hf', -⟩ | ⟨-, hr⟩
    · exact absurd hf' hf
    · exact hset hr
  | @restarted id g p deadline v fts hl htm hw hc =>
    rcases hw.pc (hs _) with ⟨hpc, hf⟩ | ⟨hpc, hf⟩
    · refine hset ?_; rw [if_pos hf, hpc]; exact .inr ⟨rfl, rfl⟩
    · refine hset ?_
      rw [if_neg (by rw [hf]; decide)]
      exact rfl
  | _ => exact hs

/-- **The wait flags of a thread fit the place in the code**, and a timer wakes up a thread that waits
for its period only. -/
theorem Reachable.waitFlags_fit (h : s.Reachable) : (∀ t, (s.threads t).Ok) ∧
    ∀ id p, s.Waiting id p →
      (s.threads p.owner).pc = .intending id ∨ (s.threads p.owner).pc = .blocked id := by
  obtain ⟨s0, as, h0, h⟩ := h
  have hok : ∀ t, (s.threads t).Ok := by
    refine run_invariant step
      (fun s a s' hs h => (step_cases h).threadsOk hs) (fun t => ?_) h
    rw [h0.threads t]
    exact rfl
  exact ⟨hok, fun id p hw => (hw.pc (hok _)).imp And.left And.left⟩

theorem waitFlags_fit_blocked : ∃ s : Sys, s.Reachable ∧ (s.threads 1).pc = .blocked 1 ∧
    (s.threads 1).Ok := by
  obtain ⟨s, hr, hpc⟩ := exists_of_any (o := run step (initial 4 4) ((twoJobs .sre []).take 5))
    (P := fun s => (s.threads 1).pc = .blocked 1) (by decide +kernel)
  have hs : s.Reachable := ⟨_, _, initial_boot 4 4, hr⟩
  exact ⟨s, hs, hpc, hs.waitFlags_fit.1 1⟩

end Sys

end Rtems
