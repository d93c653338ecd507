import Rtems.Fts.Versions
import Rtems.Ratemon.Step

/-!
# Versions of two jobs never coexist

Jobs are released by the owner's call, by a postponed job and by the timer interrupt; the versions
of the last job are deleted in one place only, when the owner calls.

* `ThreadControl.Armed`: the next job of a period is released on behalf of this thread;
* `Orderly`: nothing is signed off, `fts_compensate_t` is left to the period manager, and no period
  is deleted under a thread that waits for it;
* `VersionsOk`: the period of an armed thread is its own, and idle;
* **`releases_clean`**: in such a run a release finds no recorded version and overwrites none.
-/

namespace Rtems

open Function PartialRun

/-- The next job of `id` is released by this thread, or by a timeout for it. -/
def ThreadControl.Armed (th : ThreadControl) (id : Id) : Prop :=
  th.pc = .compensating id ∨ th.returnArgument = some id

namespace Sys

variable {s s' : Sys} {a : Action}

/-- Nothing is signed off, only the period manager calls `fts_compensate_t`, and no period with an
armed thread is deleted. -/
def Orderly (s : Sys) (a : Action) : Prop :=
  (∀ id, a ≠ .call (.off id)) ∧ (∀ caller id g, a ≠ .call (.compensate caller id g)) ∧
    ∀ id, a = .delete id → ∀ t, ¬ (s.threads t).Armed id

/-- The period of an armed thread is its own and has no recorded versions. -/
structure VersionsOk (s : Sys) : Prop where
  fts : s.fts.VersionsOk
  threads : ∀ t, (s.threads t).Ok
  armed : ∀ t id, (s.threads t).Armed id →
    (∃ p, s.periods.live id = some p ∧ p.owner = t) ∧ s.fts.Idle id

variable {id : Id}

theorem Step.owner (h : Step s a s') {p : RateMonotonicControl}
    (hl : s.periods.live id = some p) (hd : a ≠ .delete id) :
    ∃ p', s'.periods.live id = some p' ∧ p'.owner = p.owner := by
  have hput : ∀ {x : Id} {q q' : RateMonotonicControl}, s.periods.live x = some q →
      q'.owner = q.owner →
      ∃ p', (s.periods.put x q').live id = some p' ∧ p'.owner = p.owner := by
    intro x q q' hx ho
    rw [Objects.put_live (by rw [hx]; rfl)]
    by_cases he : id = x
    · subst he
      rw [hl] at hx
      cases hx
      exact ⟨q', update_self .., ho⟩
    · exact ⟨p, by rw [update_of_ne he, hl], rfl⟩
  have halloc : ∀ {c : RateMonotonicControl} {x o'}, s.periods.allocate c = some (x, o') →
      ∃ p', o'.live id = some p' ∧ p'.owner = p.owner := by
    intro c x o' ha
    obtain ⟨hx, hlive, -, -⟩ := Objects.allocate_eq_some ha
    have hne : id ≠ x := by
      intro e; rw [e, s.periods.closed x (List.mem_append_left _ hx)] at hl; cases hl
    exact ⟨p, by rw [hlive, update_of_ne hne, hl], rfl⟩
  cases h with
  | created hpc ha | unregistered hpc hn hi ha hr | createdFts hpc hn hi ha hr h1 => exact halloc ha
  | @deleted x q hx =>
    have hne : id ≠ x := fun e => hd (by rw [e])
    refine ⟨p, ?_, rfl⟩
    simp [update_of_ne hne, hl]
  | canceled hpc hx ht | activated hpc hx hb ht h0 hst | blocking hpc hx hb ht h0 hst hj =>
    exact hput hx rfl
  | postponed hpc hx hb ht h0 hst | restarted hx htm hw hc | renewed hx htm hw => exact hput hx rfl
  | _ => exact ⟨p, hl, rfl⟩

theorem ftsCall_eq_off (h : s.ftsCall a = some (.off id)) : a = .call (.off id) := by
  cases a with
  | call c => cases h; rfl
  | compensate t g =>
    simp only [ftsCall] at h
    split at h <;> cases h
  | _ => simp [ftsCall, Option.bind_eq_some_iff] at h

theorem Orderly.not_off (ho : s.Orderly a) {c : Call} (hc : s.ftsCall a = some c) (id : Id) :
    c ≠ .off id := fun e => ho.1 id (ftsCall_eq_off (by rw [hc, e]))

theorem ftsCall_eq_compensate {caller : Caller} {g : Grant}
    (h : s.ftsCall a = some (.compensate caller id g)) :
    a = .call (.compensate caller id g) ∨
    (∃ t, a = .compensate t g ∧ (s.threads t).pc = .compensating id) ∨
    ∃ p, a = .timeout id g ∧ s.periods.live id = some p ∧ s.Waiting id p := by
  cases a with
  | call c => cases h; exact .inl rfl
  | compensate t g' =>
    simp only [ftsCall] at h
    split at h
    · next id' hpc =>
      cases h; exact .inr (.inl ⟨t, rfl, hpc⟩)
    · cases h
  | timeout id' g' =>
    simp only [ftsCall, Option.bind_eq_some_iff, Option.ite_none_right_eq_some] at h
    obtain ⟨p, hl, hw, he⟩ := h
    cases he
    exact .inr (.inr ⟨p, rfl, hl, hw⟩)
  | _ => simp [ftsCall] at h

theorem Step.compensates (h : Step s a s') (hs : ∀ t, (s.threads t).Ok) {caller : Caller}
    {g : Grant} (hc : s.ftsCall a = some (.compensate caller id g))
    (hdirect : a ≠ .call (.compensate caller id g)) :
    ∃ t, (s.threads t).Armed id ∧ ¬ (s'.threads t).Armed id := by
  rcases ftsCall_eq_compensate hc with rfl | ⟨t, rfl, hpc⟩ | ⟨p, rfl, hl, hw⟩
  · exact absurd rfl hdirect
  · refine ⟨t, .inl hpc, ?_⟩
    have hr : (s.threads t).returnArgument = none := by
      have := hs t
      rwa [ThreadControl.Ok, hpc] at this
    cases h with
    | rejected ha => rw [hc] at ha; cases ha
    | compensated hpc' hcomp => simp [ThreadControl.Armed, hr]
  · refine ⟨p.owner, .inr hw.2, ?_⟩
    cases h with
    | rejected ha => rw [hc] at ha; cases ha
    | renewed hl' htm hw' => rw [hl] at hl'; cases hl'; exact absurd hw hw'
    | restarted hl' htm hw' hcomp =>
      rw [hl] at hl'
      cases hl'
      rcases hw.pc (hs _) with ⟨hpc, hf⟩ | ⟨hpc, hf⟩ <;> simp [ThreadControl.Armed, hf, hpc]

theorem Step.armed (h : Step s a s') {t : Thread} (hA : (s'.threads t).Armed id) :
    (s.threads t).Armed id ∨ (∃ p, s.periods.live id = some p ∧ p.owner = t) ∧
      (∃ length, a = .period t id length ∧ length ≠ 0) ∧ s.fts.periodBegin id = some s'.fts := by
  -- writing a control block arms no other thread
  have hset : ∀ {u : Thread} {th : ThreadControl}, (update s.threads u th t).Armed id →
      (t = u ∧ th.Armed id) ∨ (s.threads t).Armed id := by
    intro u th hA
    by_cases ht : t = u
    · rw [ht, update_self] at hA; exact .inl ⟨ht, hA⟩
    · rw [update_of_ne ht] at hA; exact .inr hA
  cases h with
  | @activated u x length p fts hpc hl hb ht h0 hst
  | @postponed u x length p fts hpc hl hb ht h0 hst =>
    rcases hset hA with ⟨rfl, hA | hA⟩ | hA
    · cases hA; exact .inr ⟨⟨p, hl, ht.symm⟩, ⟨length, rfl, h0⟩, hb⟩
    · exact .inl (.inr hA)
    · exact .inl hA
  | @blocking u x length p fts hpc hl hb ht h0 hst hj =>
    rcases hset hA with ⟨rfl, hA | hA⟩ | hA
    · cases hA
    · cases hA; exact .inr ⟨⟨p, hl, ht.symm⟩, ⟨length, rfl, h0⟩, hb⟩
    · exact .inl hA
  | @compensated u g x v fts hpc hc | @blocked u x hpc hf | @readyAgain u x hpc hf =>
    rcases hset hA with ⟨rfl, hA | hA⟩ | hA
    · cases hA
    · exact .inl (.inr hA)
    · exact .inl hA
  | @restarted x g p deadline v fts hl htm hw hc =>
    rcases hset hA with ⟨rfl, hA | hA⟩ | hA
    · dsimp only at hA; split_ifs at hA; exact .inl (.inl hA)
    · cases hA
    · exact .inl hA
  | _ => exact .inl hA

theorem Step.not_compensate (h : Step s a s') (hs : s.VersionsOk) (ho : s.Orderly a) {t : Thread}
    (hA : (s.threads t).Armed id) (hA' : (s'.threads t).Armed id) {c : Call}
    (hc : s.ftsCall a = some c) (caller : Caller) (g : Grant) : c ≠ .compensate caller id g := by
  intro e
  obtain ⟨u, hu, hu'⟩ := h.compensates hs.threads (hc.trans (congrArg some e)) (ho.2.1 _ _ _)
  obtain ⟨⟨p, hl, hp⟩, -⟩ := hs.armed t id hA
  obtain ⟨⟨q, hq, hqo⟩, -⟩ := hs.armed u id hu
  rw [hl] at hq
  cases hq
  rw [hp] at hqo
  exact hu' (hqo ▸ hA')

theorem Step.versionsOk (h : Step s a s') (hs : s.VersionsOk) (ho : s.Orderly a) :
    s'.VersionsOk := by
  refine ⟨?_, h.threadsOk hs.threads, fun t id hA => ?_⟩
  · rcases h.fts_cases with e | ⟨c, hc, hstep⟩
    · rw [e]; exact hs.fts
    · exact hstep.versionsOk hs.fts (ho.not_off hc) fun caller id g e => by
        obtain ⟨t, hA, -⟩ := h.compensates hs.threads (hc.trans (congrArg some e)) (ho.2.1 _ _ _)
        exact (hs.armed t id hA).2
  · rcases h.armed hA with hA0 | ⟨⟨p, hl, hp⟩, ⟨length, rfl, -⟩, hb⟩
    · obtain ⟨⟨p, hl, hp⟩, hid⟩ := hs.armed t id hA0
      obtain ⟨p', hl', hp'⟩ := h.owner hl fun e => ho.2.2 id e t hA0
      refine ⟨⟨p', hl', hp'.trans hp⟩, ?_⟩
      rcases h.fts_cases with e | ⟨c, hc, hstep⟩
      · rw [e]; exact hid
      · exact hstep.idle_of_idle hs.fts (ho.not_off hc) (h.not_compensate hs ho hA0 hA hc) hid
    · obtain ⟨p', hl', hp'⟩ := h.owner hl (by simp)
      exact ⟨⟨p', hl', hp'.trans hp⟩, Fts.periodBegin_idle hb⟩

theorem Boot.versionsOk (h : Boot s) : s.VersionsOk where
  fts := by
    rw [h.fts]; exact Fts.boot_versionsOk h.tasks
  threads t := by
    rw [h.threads t]; exact rfl
  armed t id hA := by
    rw [h.threads t] at hA
    rcases hA with hA | hA <;> cases hA

/-- **Versions of two jobs never coexist**: at a release the running ids of the slot are zero, and
versions are recorded over zero. -/
theorem releases_clean {s₀ : Sys} (h₀ : Boot s₀) {as : List Action}
    (ho : Along step Orderly s₀ as) (h : run step s₀ as = some s) :
    ∀ o ∈ s.fts.log, o.Clean :=
  (run_invariant_along step (fun _ _ _ hs ho h => (step_cases h).versionsOk hs ho)
    h₀.versionsOk ho h).fts.clean

theorem releases_clean_twice : ∃ s : Sys, run step (initial 4 4)
      (twoJobs .ddr [.call (.report 1 .fault .granted)]) = some s ∧
    s.fts.log.count (.entered .release 0 0 0 0) = 2 ∧ ∀ o ∈ s.fts.log, o.Clean := by
  refine exists_imp_of_any
    (by decide +kernel) fun s hr hs => ⟨hs, ?_⟩
  refine releases_clean (initial_boot 4 4) (along_of_forall step ?_ _) hr
  intro a ha s
  simp only [twoJobs, List.cons_append, List.nil_append, List.mem_cons, List.not_mem_nil,
    or_false] at ha
  rcases ha with rfl | rfl | rfl | rfl | rfl | rfl | rfl | rfl <;> simp [Orderly]

end Sys

end Rtems
