import Rtems.Fts.Table

/-!
# Jobs in the log

* `Obs.about`, **`Step.log`**: a call adds to the log what is about its own id;
* `history`: the log since an id was registered;
* `Job`, `jobs`: the jobs released for an id since then, newest first, each with the report of its
  detection version.
-/

namespace Rtems

def Obs.about : Obs → Option Id
  | .registered id => some id
  | .version id _ => some id
  | .report id _ _ => some id
  | .decremented id _ => some id
  | _ => none

/-- The log since `id` was registered. -/
def history (id : Id) (log : List Obs) : List Obs := log.takeWhile fun o => o ≠ .registered id

/-- A released job: its version, the report, and whether a correction was released. -/
structure Job where
  version : FtsVersion
  report : Option FaultStatus
  recovered : Bool
  deriving DecidableEq

namespace Job

def start (v : FtsVersion) : Job where
  version := v
  report := none
  recovered := false

@[simp] theorem start_version (v : FtsVersion) : (start v).version = v := rfl

/-- A correction is released for the job, or its detection version reports no fault. -/
def correct (j : Job) : Bool := j.version == .correction || j.report == some .noFault || j.recovered

/-- The detection version of the job, if it has one, has reported. -/
def settled (j : Job) : Bool := j.version != .detection || j.report.isSome

end Job

/-- The jobs in a part of the log; a report belongs to the last job before it. -/
def jobsIn (id : Id) : List Obs → List Job
  | [] => []
  | .version x v :: log => if x = id then .start v :: jobsIn id log else jobsIn id log
  | .report x fs recovered :: log =>
    if x = id then
      match jobsIn id log with
      | [] => []
      | j :: js => { j with report := some fs, recovered := recovered } :: js
    else jobsIn id log
  | _ :: log => jobsIn id log

/-- The jobs of `id` since it was registered. -/
def jobs (id : Id) (log : List Obs) : List Job := jobsIn id (history id log)

section Log

variable {id : Id} {o : Obs} {log : List Obs}

@[simp] theorem history_registered : history id (.registered id :: log) = [] := by simp [history]

theorem history_cons (h : o ≠ .registered id) : history id (o :: log) = o :: history id log := by
  simp [history, h]

theorem mem_history_cons {o' : Obs} (h : o' ∈ history id (o :: log)) :
    o' = o ∨ o' ∈ history id log := by
  by_cases ho : o = .registered id
  · rw [ho, history_registered] at h; cases h
  · rw [history_cons ho] at h; exact List.mem_cons.mp h

@[simp] theorem jobs_registered : jobs id (.registered id :: log) = [] := by simp [jobs, jobsIn]

@[simp] theorem jobs_version (v : FtsVersion) :
    jobs id (.version id v :: log) = .start v :: jobs id log := by
  simp [jobs, history_cons, jobsIn]

theorem jobs_report {fs : FaultStatus} {recovered : Bool} {j : Job} {js : List Job}
    (h : jobs id log = j :: js) : jobs id (.report id fs recovered :: log) =
      { j with report := some fs, recovered := recovered } :: js := by
  unfold jobs at h ⊢
  rw [history_cons (by simp), jobsIn, if_pos rfl, h]

theorem map_version_jobs_report (fs : FaultStatus) (recovered : Bool) :
    (jobs id (.report id fs recovered :: log)).map Job.version = (jobs id log).map Job.version := by
  cases h : jobs id log with
  | nil => unfold jobs at h ⊢; rw [history_cons (by simp), jobsIn, if_pos rfl, h]
  | cons j js => rw [jobs_report h]; rfl

theorem jobs_cons_of_ne (h : o.about ≠ some id) : jobs id (o :: log) = jobs id log := by
  have hne : o ≠ .registered id := fun e => h (by rw [e]; rfl)
  rw [jobs, history_cons hne, jobs]
  cases o <;> simp only [Obs.about, ne_eq, Option.some.injEq] at h <;> simp [jobsIn, h]

@[simp] theorem jobs_entered (caller : Caller) (i : ℕ) (b d c : Id) :
    jobs id (.entered caller i b d c :: log) = jobs id log := jobs_cons_of_ne (by simp [Obs.about])

@[simp] theorem jobs_recorded (i : ℕ) (v : FtsVersion) (x y : Id) :
    jobs id (.recorded i v x y :: log) = jobs id log := jobs_cons_of_ne (by simp [Obs.about])

@[simp] theorem jobs_decremented (x : Id) (n : ℕ) :
    jobs id (.decremented x n :: log) = jobs id log := by
  rfl

theorem jobs_append_of_ne {l : List Obs} (h : ∀ o ∈ l, o.about ≠ some id) :
    jobs id (l ++ log) = jobs id log := by
  induction l with
  | nil => rfl
  | cons o l ih =>
    rw [List.cons_append, jobs_cons_of_ne (h o List.mem_cons_self),
      ih fun o ho => h o (List.mem_cons_of_mem _ ho)]

theorem mem_history_append {l : List Obs} (h : ∀ o ∈ l, o.about ≠ some id)
    (ho : o ∈ history id (l ++ log)) (hid : o.about = some id) : o ∈ history id log := by
  induction l with
  | nil => exact ho
  | cons o' l ih =>
    have h' := h o' List.mem_cons_self
    rw [List.cons_append, history_cons (fun e => h' (by rw [e]; rfl))] at ho
    rcases List.mem_cons.mp ho with rfl | ho
    · exact absurd hid h'
    · exact ih (fun o ho => h o (List.mem_cons_of_mem _ ho)) ho

end Log

namespace Fts

section Fields

variable (s : Fts) (i : ℕ)

@[simp] theorem note_log (o : Obs) : (s.note o).log = o :: s.log := rfl

@[simp] theorem launch_log (v : FtsVersion) (g : Grant) : (s.launch i v g).log =
    .recorded i v (s.runningId v i) (s.launchId i v g) :: s.log := rfl

@[simp] theorem noteEntry_log (caller : Caller) : (s.noteEntry caller i).log =
    .entered caller i (s.runningId .basic i) (s.runningId .detection i)
      (s.runningId .correction i) :: s.log := rfl

@[simp] theorem advance_log : (s.advance i).log = s.log := rfl

@[simp] theorem decO_log (id : Id) : (s.decO i id).log = .decremented id (s.o i) :: s.log := rfl

@[simp] theorem decA_log (id : Id) : (s.decA i id).log = .decremented id (s.a i) :: s.log := rfl

@[simp] theorem markReported_log (x : Id) (t : VersionTask) : (s.markReported x t).log = s.log := rfl

end Fields

variable {s s' : Fts} {c : Call}

theorem deleteVersion_log_append (s : Fts) (i : ℕ) (v : FtsVersion) :
    ∃ l, (s.deleteVersion i v).log = l ++ s.log ∧ ∀ o ∈ l, o.about = none := by
  unfold deleteVersion
  split_ifs
  · exact ⟨[_], rfl, by simp [Obs.about]⟩
  · exact ⟨[], rfl, by simp⟩

theorem deleteVersions_log_append (s : Fts) (i : ℕ) :
    ∃ l, (s.deleteVersions i).log = l ++ s.log ∧ ∀ o ∈ l, o.about = none := by
  obtain ⟨l1, h1, ha1⟩ := deleteVersion_log_append s i .basic
  obtain ⟨l2, h2, ha2⟩ := deleteVersion_log_append (s.deleteVersion i .basic) i .detection
  obtain ⟨l3, h3, ha3⟩ := deleteVersion_log_append
    ((s.deleteVersion i .basic).deleteVersion i .detection) i .correction
  refine ⟨l3 ++ (l2 ++ l1), by rw [deleteVersions, h3, h2, h1]; simp, fun o ho => ?_⟩
  simp only [List.mem_append] at ho
  rcases ho with ho | ho | ho
  · exact ha3 o ho
  · exact ha2 o ho
  · exact ha1 o ho

@[simp] theorem jobs_deleteVersions (s : Fts) (i : ℕ) (id : Id) :
    jobs id (s.deleteVersions i).log = jobs id s.log := by
  obtain ⟨l, hl, ha⟩ := deleteVersions_log_append s i
  rw [hl, jobs_append_of_ne fun o ho => by rw [ha o ho]; simp]

theorem mem_history_of_deleteVersions {i : ℕ} {id : Id} {o : Obs}
    (h : o ∈ history id (s.deleteVersions i).log) (hid : o.about = some id) : o ∈ history id s.log := by
  obtain ⟨l, hl, ha⟩ := deleteVersions_log_append s i
  rw [hl] at h
  exact mem_history_append (fun o ho => by rw [ha o ho]; simp) h hid

theorem Step.log (h : Step s c s') :
    ∃ l, s'.log = l ++ s.log ∧ ∀ o ∈ l, o.about = none ∨ o.about = s.about c := by
  have hdel : ∀ i, ∃ l, (s.deleteVersions i).log = l ++ s.log ∧
      ∀ o ∈ l, o.about = none ∨ o.about = s.about c := by
    intro i
    obtain ⟨l, hl, ha⟩ := deleteVersions_log_append s i
    exact ⟨l, hl, fun o ho => .inl (ha o ho)⟩
  cases h with
  | registered hi hn hmk hp hc =>
    obtain ⟨-, -, -, hlog⟩ := setCounters_frame hc
    exact ⟨[_], congrArg _ hlog, by simp [Obs.about, Fts.about]⟩
  | compensatedAbsent h => exact ⟨[_], rfl, by simp [Obs.about, Fts.about]⟩
  | compensatedNone h hi ht => exact ⟨[_, _], rfl, by simp [Obs.about, Fts.about]⟩
  | compensatedStatic h hi ht hb hv | compensatedTolerant h hi ht hx ho =>
    exact ⟨[_, _, _], rfl, by simp [Obs.about, Fts.about]⟩
  | compensatedSafe h hi ht hx ho hv => exact ⟨[_, _, _, _], rfl, by simp [Obs.about, Fts.about]⟩
  | reportedQuiet hx hd hr hq => exact ⟨[_], rfl, by simp [Obs.about, Fts.about, hx]⟩
  | reportedTolerated hx hd hr h hi ht hp ho | reportedRecovered hx hd hr h hi ht =>
    exact ⟨[_, _], rfl, by simp [Obs.about, Fts.about, hx]⟩
  | begun h hi hk | begunNext h hi ht hx ha hn => exact hdel _
  | begunReplenished h hi ht ha hn hu => rw [(tolcUpdate_eq_some.mp hu).2]; exact hdel _
  | _ => exact ⟨[], rfl, by simp⟩

theorem Step.jobs_of_ne (h : Step s c s') {id : Id} (hne : s.about c ≠ some id) :
    jobs id s'.log = jobs id s.log ∧
      ∀ o, o.about = some id → o ∈ history id s'.log → o ∈ history id s.log := by
  obtain ⟨l, hl, ha⟩ := h.log
  have hl' : ∀ o ∈ l, o.about ≠ some id := by
    intro o ho e
    rcases ha o ho with h0 | h0
    · rw [h0] at e; cases e
    · exact hne (h0 ▸ e)
  rw [hl]
  exact ⟨jobs_append_of_ne hl', fun o hid ho => mem_history_append hl' ho hid⟩

theorem Step.jobs_periodBegin {x : Id} (h : Step s (.periodBegin x) s') (id : Id) :
    jobs id s'.log = jobs id s.log := by
  cases h with
  | idle => rfl
  | begun h hi hk | begunNext h hi ht hx ha hn => exact jobs_deleteVersions s _ id
  | begunReplenished h hi ht ha hn hu =>
    rw [(tolcUpdate_eq_some.mp hu).2]; exact jobs_deleteVersions s _ id

/-- A tolerance counter is decremented above zero, or by a release without a check. -/
theorem Step.decremented_cases (h : Step s c s') {id : Id} {n : ℕ}
    (hd : .decremented id n ∈ history id s'.log) : .decremented id n ∈ history id s.log ∨ 0 < n ∨
    ∃ caller g i, c = .compensate caller id g ∧ s.taskInList id = some i ∧
      (s.slot i).tech.dynamic = true ∧ n = s.a i := by
  by_cases hne : s.about c = some id
  swap
  · exact .inl ((h.jobs_of_ne hne).2 _ rfl hd)
  cases h with
  | @registered r mem s1 hi hn hmk hp hc =>
    rw [note_log, Option.some.inj hne, history_registered] at hd; cases hd
  | compensatedAbsent h | compensatedNone h hi ht | compensatedStatic h hi ht hb hv
  | compensatedTolerant h hi ht hx ho | reportedQuiet hx hdet hr hq =>
    exact .inl (by simpa [history_cons] using hd)
  | @compensatedSafe caller x g i v h hi ht hx ho hv =>
    simp only [note_log, decA_log, launch_log, noteEntry_log, history_cons, ne_eq, reduceCtorEq,
      not_false_eq_true, List.mem_cons, false_or] at hd
    rcases hd with e | hd
    · cases e; exact .inr (.inr ⟨caller, g, i, rfl, h, ht, rfl⟩)
    · exact .inl hd
  | @reportedTolerated x g t i hx hdet hr h hi ht hp ho =>
    simp only [note_log, decO_log, markReported_log, history_cons, ne_eq, reduceCtorEq,
      not_false_eq_true, List.mem_cons, false_or] at hd
    rcases hd with e | hd
    · cases e; exact .inr (.inl ho)
    · exact .inl hd
  | reportedRecovered hx hdet hr h hi ht => exact .inl (by simpa [history_cons] using hd)
  | begun h hi hk | begunNext h hi ht hx ha hn =>
    exact .inl (mem_history_of_deleteVersions hd rfl)
  | begunReplenished h hi ht ha hn hu =>
    rw [(tolcUpdate_eq_some.mp hu).2] at hd; exact .inl (mem_history_of_deleteVersions hd rfl)
  | _ => exact .inl hd

theorem Step.report_cases (h : Step s c s') {id : Id} {fs : FaultStatus} {r : Bool}
    (hr : .report id fs r ∈ history id s'.log) : .report id fs r ∈ history id s.log ∨
    ∃ x g t, c = .report x fs g ∧ s.tasks.live x = some (.version t) ∧ t.period = id ∧
      (r = false → fs = .noFault ∨ ∃ i, (s.taskInList id).getD 65535 = i ∧
        (s.list.tech i = .none ∨ s.list.tech i = .sre ∨ (s.list.tech i).dynamic = true)) := by
  cases h with
  | registered hi hn hmk hp hc =>
    obtain ⟨-, -, -, hlog⟩ := setCounters_frame hc
    rcases mem_history_cons hr with e | hr
    · cases e
    · rw [show (Fts.attach _ _ _).log = s.log from hlog] at hr; exact .inl hr
  | compensatedAbsent h | compensatedNone h hi ht | compensatedStatic h hi ht hb hv
  | compensatedTolerant h hi ht hx ho | compensatedSafe h hi ht hx ho hv =>
    exact .inl (by simpa [history_cons] using hr)
  | @reportedQuiet x fs' g t hx hd hrep hq =>
    rcases mem_history_cons hr with e | hr
    · cases e
      refine .inr ⟨x, g, t, rfl, hx, rfl, fun _ => hq.imp_right ?_⟩
      rintro ⟨i, hi, -, ht | ht⟩
      · exact ⟨i, hi, .inl ht⟩
      · exact ⟨i, hi, .inr (.inl ht)⟩
    · exact .inl hr
  | @reportedTolerated x g t i hx hd hrep h hi ht hp ho =>
    rcases mem_history_cons hr with e | hr
    · cases e
      exact .inr ⟨x, g, t, rfl, hx, rfl, fun _ => .inr ⟨i, by rw [h]; rfl, .inr (.inr ht)⟩⟩
    · exact .inl (by simpa [history_cons] using hr)
  | @reportedRecovered x g t i hx hd hrep h hi ht =>
    rcases mem_history_cons hr with e | hr
    · cases e; exact .inr ⟨x, g, t, rfl, hx, rfl, fun e => by cases e⟩
    · exact .inl (by simpa [history_cons] using hr)
  | begun h hi hk | begunNext h hi ht hx ha hn =>
    exact .inl (mem_history_of_deleteVersions hr rfl)
  | begunReplenished h hi ht ha hn hu =>
    rw [(tolcUpdate_eq_some.mp hu).2] at hr; exact .inl (mem_history_of_deleteVersions hr rfl)
  | _ => exact .inl hr

end Fts

end Rtems
