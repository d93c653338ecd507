import Rtems.Fts.Stage

/-!
# Jobs along a pattern

* `Fits`: a periodic word with at most `k - m` zeros in any `k` letters;
* `Tracked`: the jobs of a task follow such a word, and no counter of it wrapped around;
* `Careful`: the technique of a task stays static or dynamic, its pattern is not overwritten;
* **`Step.trackOk`**: calls that are careful, made for ready tasks, keep the jobs on track;
* **`Tracked.windows`**: the `(m, k)` constraint of the jobs.
-/

namespace Rtems

open WeaklyHard TolCounter

namespace Fts

variable {s s' : Fts} {c : Call} {id : Id} {i : ℕ} {p : ℕ → Bool}

/-- A word of period `k` with at most `k - m` zeros in a period. -/
structure Fits (p : ℕ → Bool) (m k : ℕ) : Prop where
  periodic : Function.Periodic p k
  zeros : ∀ a, zeros p a (a + k) ≤ k - m

/-- The jobs of `id` follow a word that fits, and no counter was decremented at zero. -/
structure Tracked (s : Fts) (id : Id) (i : ℕ) : Prop where
  stage : ∃ p, Fits p (s.slot i).m (s.slot i).k ∧ s.Stage id i p
  decs : ∀ n, .decremented id n ∈ history id s.log → 0 < n

/-- The last job of `id` has reported, and the current partition has some left. -/
def Ready (s : Fts) (id : Id) : Prop :=
  ∀ i, s.taskInList id = some i → s.Settled id ∧
    ((s.slot i).Exact → (s.slot i).tech.dynamic = true → (s.slot i).a ≠ 0)

/-- The technique of `id` stays static or dynamic, becomes `SRE` after all reports, and no pattern
is written over one that is walked. -/
structure Careful (id : Id) (s : Fts) (c : Call) : Prop where
  switch : ∀ tech, c = .changeTech id tech → ∀ i, s.taskInList id = some i →
    (s.slot i).tech.Alike tech ∧ ((s.slot i).tech = .sdr → tech = .sre → s.Settled id)
  buffer : ∀ r, c = .register r → ∀ i, s.taskInList id = some i →
    (s.slot i).tech = .sre ∨ (s.slot i).tech = .sdr →
    ∀ a, (s.slot i).patternStart ≤ a → a ≤ (s.slot i).patternEnd →
      ¬ (r.patternS.patternStart ≤ a ∧ a ≤ r.patternS.patternEnd)

/-- Nothing is signed off, and `fts_compensate_t` is for idle ids or a ready `id`. -/
structure Regular (id : Id) (s : Fts) (c : Call) : Prop extends Careful id s c where
  off : ∀ x, c ≠ .off x
  idle : ∀ caller x g, c = .compensate caller x g → s.Idle x
  ready : ∀ caller g, c = .compensate caller id g → s.Ready id

/-- The task of `id` is on track, if its pattern has exactly `k` bits. -/
structure TrackOk (s : Fts) (id : Id) : Prop where
  versions : s.VersionsOk
  /-- The counters of a free slot are zero. -/
  pristine : ∀ i, s.list.taskListIndex ≤ i → s.tolCounterConst i = zero
  tracked : ∀ i, s.taskInList id = some i → (s.slot i).Exact → (s.slot i).tech ≠ .none →
    s.Tracked id i

/-! ## Registration -/

section Registration

variable {r : Request} (hr : s.ftsRtemsTaskRegister r = some (1, s'))

include hr

theorem register_slot : (s'.slot s.list.taskListIndex).m = r.m.toNat % 2 ^ 8 ∧
    (s'.slot s.list.taskListIndex).k = r.k.toNat % 2 ^ 8 ∧
    (s'.slot s.list.taskListIndex).tech = r.tech ∧
    (s'.slot s.list.taskListIndex).patternStart = r.patternS.patternStart ∧
    (s'.slot s.list.taskListIndex).patternEnd = r.patternS.patternEnd ∧
    (s'.slot s.list.taskListIndex).maxBitpos = r.patternS.maxBitpos := by
  obtain ⟨-, mem, s1, -, hc, rfl⟩ := ftsRtemsTaskRegister_eq_some.mp hr
  simp [slot, attach, note, setCounters_list hc, setMem, enter]

theorem register_exact (hx : (s'.slot s.list.taskListIndex).Exact) :
    r.patternS.Exact (s'.slot s.list.taskListIndex).k := by
  obtain ⟨-, -, -, hstart, hend, hmax⟩ := register_slot hr
  obtain ⟨-, -, h1, h2, h3⟩ := hx
  rw [hstart, hend] at h1
  rw [hmax] at h2
  rw [Slot.length, hstart, hend, hmax] at h3
  exact ⟨h1, h2, h3⟩

/-- **The counters of a new task stand for its pattern**, if they were zero. -/
theorem register_counting (hzero : s.tolCounterConst s.list.taskListIndex = zero)
    (hx : (s'.slot s.list.taskListIndex).Exact)
    (hd : (s'.slot s.list.taskListIndex).tech.dynamic = true) :
    (s'.slot s.list.taskListIndex).Counting (repeating
      (memBit s'.mem r.patternS.patternStart) (s'.slot s.list.taskListIndex).k) 0 ∧
    (s'.slot s.list.taskListIndex).a ≠ 0 := by
  obtain ⟨hm, hk, htech, -, -, -⟩ := register_slot hr
  have hb := register_exact hr hx
  have hkpos := hx.m_pos.trans_le hx.m_le
  obtain ⟨-, mem, s1, hp, hc, rfl⟩ := ftsRtemsTaskRegister_eq_some.mp hr
  rcases setCounters_eq_some.mp hc with ⟨hst, rfl⟩ | ⟨-, nr, c, hnr, hl, rfl⟩
  · rw [htech] at hd; simp [setMem, enter, hd] at hst
  -- one period of the word is the pattern, which ends with a one
  obtain ⟨-, hlast⟩ := createPattern_bits (hm ▸ hk ▸ hp) hx.m_pos hx.m_le (by rw [hk]; omega) hb.le
    hb.max hb.length
  have hl' : tolCounterLoop ((List.range (r.k.toNat % 2 ^ 8)).map
      (repeating (memBit mem r.patternS.patternStart) (r.k.toNat % 2 ^ 8))) false 0 zero =
        some (nr, c) := by
    rw [← hzero, List.map_congr_left fun y hy => repeating_of_lt _ (List.mem_range.mp hy),
      show r.k.toNat % 2 ^ 8 = _ + 1 from hk.symm.trans hb.length.symm,
      ← patternBits_eq_map mem hb.le hb.max]
    exact hl
  refine Slot.Counting.of_loop hkpos (by rw [hk]; omega) ?_ (by rw [hk]; exact hl') ?_ ?_ ?_ ?_
  · rw [repeating_of_lt _ (by omega)]; exact hlast
  all_goals simp +contextual [slot, attach, note, withCounters]

theorem register_tracked (hs : s.VersionsOk) (hs' : s'.VersionsOk)
    (hzero : s.tolCounterConst s.list.taskListIndex = zero)
    (hx : (s'.slot s.list.taskListIndex).Exact)
    (ht : (s'.slot s.list.taskListIndex).tech ≠ .none) : s'.Tracked r.id s.list.taskListIndex := by
  have hb := register_exact hr hx
  obtain ⟨hm, hk, -, hstart, -, -⟩ := register_slot hr
  have hz := register_zeros hr hb (by rw [← hm]; exact hx.m_pos) (by rw [← hm]; exact hx.m_le) hk.symm
  rw [← hm] at hz
  -- the cursor is at the start, or the counters are full
  have hstand : (s'.slot s.list.taskListIndex).Standing s'.mem
      (repeating (memBit s'.mem r.patternS.patternStart) (s'.slot s.list.taskListIndex).k) 0 := by
    by_cases hd : (s'.slot s.list.taskListIndex).tech.dynamic = true
    · exact .counters hd (register_counting hr hzero hx hd).1
    · obtain ⟨⟨j, hj, hwalk⟩, hmem⟩ := register_walk hs.table hr hb
      rw [(register_taskInList hs.table hr).2] at hj
      cases hj
      refine .cursor ?_ (by simpa using hwalk.cursor) fun y hy => ?_
      · cases e : (s'.slot s.list.taskListIndex).tech <;> simp [e, FtsTech.dynamic] at ht hd ⊢
      · rw [hstart]; exact hmem y (by rw [hb.length]; exact hy)
  obtain ⟨-, mem, s1, -, hc, rfl⟩ := ftsRtemsTaskRegister_eq_some.mp hr
  obtain ⟨-, hrun, -, -⟩ := setCounters_frame hc
  refine ⟨⟨_, ⟨repeating_periodic _ _, hz⟩, .settled ?_ ?_ hstand (hs'.noPending ?_)⟩, fun n hn => ?_⟩
  · simp
  · simpa using Stretched.nil 0
  · show s1.runningId .detection s.list.taskListIndex = 0
    rw [hrun]
    exact hs.fresh _ _ le_rfl
  · simp at hn

end Registration

/-! ## Steps -/

section

variable (h : Step s c s') (hoff : ∀ x, c ≠ .off x)

include h hoff

theorem Step.pristine (hs : ∀ i, s.list.taskListIndex ≤ i → s.tolCounterConst i = zero) :
    ∀ i, s'.list.taskListIndex ≤ i → s'.tolCounterConst i = zero := by
  intro i hi
  by_cases hreg : ∃ r, c = .register r
  · obtain ⟨r, rfl⟩ := hreg
    cases h with
    | idle => exact hs i hi
    | registered _ hn hmk hp hc =>
      rw [(registered_ids hc _).2] at hi
      have hslot := setCounters_slot_of_ne (show i ≠ s.list.taskListIndex by omega) hc
      exact (congrArg Slot.tolCounterConst hslot).trans (hs i (by omega))
  · rw [h.tolCounterConst fun r e => hreg ⟨r, e⟩]
    refine hs i ?_
    rcases h.ids with ⟨-, hn⟩ | ⟨r, e, -⟩ | ⟨x, e, -⟩
    · rwa [← hn]
    · exact absurd ⟨r, e⟩ hreg
    · exact absurd e (hoff x)

theorem Step.taskInList_eq (hreg : ∀ r, c ≠ .register r)
    (x : Id) : s'.taskInList x = s.taskInList x := by
  rcases h.ids with ⟨hi, hn⟩ | ⟨r, e, -⟩ | ⟨y, e, -⟩
  · exact taskInList_congr hi hn x
  · exact absurd e (hreg r)
  · exact absurd e (hoff y)

theorem Step.exact_of_exact (hreg : ∀ r, c ≠ .register r)
    (hx : (s'.slot i).Exact) : (s.slot i).Exact := by
  obtain ⟨hm, hk, hstart, hend, hmax⟩ := h.pattern_eq hoff hreg
  exact hx.congr (congrFun hm i).symm (congrFun hk i).symm (congrFun hstart i).symm
    (congrFun hend i).symm (congrFun hmax i).symm

end

theorem TrackOk.counting (hs : s.TrackOk id) (hf : s.taskInList id = some i) (hj : s.Settled id)
    (hx : (s.slot i).Exact) (hd : (s.slot i).tech.dynamic = true) :
    ∃ p n, (s.slot i).Counting p n := by
  obtain ⟨⟨p, -, hst⟩, -⟩ := hs.tracked i hf hx fun e => by
    rw [e] at hd
    cases hd
  obtain ⟨n, -, hat, -⟩ := hst.of_settled hj
  exact ⟨p, n, hat.counting hd⟩

/-- **After all reports, the start of a period leaves the task ready.** -/
theorem Step.ready_of_periodBegin (h : Step s (.periodBegin id) s') (hs : s.TrackOk id)
    (hj : s.Settled id) : s'.Ready id := by
  intro i hf
  rw [h.taskInList_eq (by simp) (by simp)] at hf
  refine ⟨by rw [Settled, h.jobs_periodBegin]; exact hj, fun hx hd => ?_⟩
  have htech := congrFun (h.tech_eq (by simp) (by simp) (by simp)) i
  rw [show (s'.slot i).tech = s.list.tech i from htech] at hd
  obtain ⟨p, n, hc⟩ := hs.counting hf hj (h.exact_of_exact (by simp) (by simp) hx) hd
  cases h with
  | idle hn => rw [hn id rfl] at hf; cases hf
  | begun hf' hi hk =>
    rw [hf] at hf'
    cases hf'
    rcases hk with hk | hk
    · rw [hd] at hk; cases hk
    · rw [deleteVersions_slot]; exact hk
  | begunReplenished hf' hi ht ha hn hu =>
    rw [hf] at hf'
    cases hf'
    rw [(tolcUpdate_eq_some.mp hu).2]
    simpa [slot, Slot.a] using (hc.pos 0 (Nat.zero_le _)).ne'
  | begunNext hf' hi ht hx' ha hn =>
    rw [hf] at hf'
    cases hf'
    have hlt : s.partitionIndex i < 16 := hx'
    have hmod : (s.partitionIndex i + 1) % 65536 = s.partitionIndex i + 1 :=
      Nat.mod_eq_of_lt (by omega)
    simpa [slot, Slot.a, hmod] using hc.next_a hn

/-- **A task stays ready** until its job is released. -/
theorem Step.ready (h : Step s c s') (hs : s.TrackOk id) (hg : Regular id s c) (hid : s.Idle id)
    (hr : s.Ready id) (hc : ∀ caller g, c ≠ .compensate caller id g) : s'.Ready id := by
  intro i hf
  by_cases hne : s.about c = some id
  swap
  · have hf' := h.taskInList_of_ne hs.versions.table hg.off hne hf
    obtain ⟨hi, he⟩ := taskInList_eq_some hf'
    rw [h.slot_of_ne hi hg.off (by rw [he]; exact hne), Settled, (h.jobs_of_ne hne).1]
    exact hr i hf'
  cases c with
  | register r =>
    obtain rfl : r.id = id := Option.some.inj hne
    cases h with
    | idle => exact hr i hf
    | @registered _ mem s1 hi hn hmk hp hct =>
      have hreg := ftsRtemsTaskRegister_eq_some.mpr ⟨⟨hi, hn, hmk⟩, mem, s1, hp, hct, rfl⟩
      rw [(register_taskInList hs.versions.table hreg).2] at hf
      cases hf
      exact ⟨fun j hj => by simp at hj, fun hx hd =>
        (register_counting hreg (hs.pristine _ le_rfl) hx hd).2⟩
  | off x => exact absurd rfl (hg.off x)
  | changeTech x tech =>
    obtain rfl : x = id := Option.some.inj hne
    rw [h.taskInList_eq (by simp) (by simp)] at hf
    obtain ⟨hj, ha⟩ := hr i hf
    cases h with
    | idle => exact ⟨hj, ha⟩
    | techChanged hf' hi =>
      rw [hf] at hf'
      cases hf'
      refine ⟨hj, fun hx hd => ha (hx.congr rfl rfl rfl rfl rfl) ?_⟩
      have hd : tech.dynamic = true := by simpa [slot] using hd
      rcases (hg.switch tech rfl i hf).1 with ⟨-, rfl | rfl⟩ | hdyn
      · cases hd
      · cases hd
      · exact hdyn.1
  | compensate caller x g =>
    obtain rfl : x = id := Option.some.inj hne; exact absurd rfl (hc caller g)
  | report x fs g =>
    -- a version of `id` that has still to report would be recorded
    have hnone : ∀ {t}, s.tasks.live x = some (.version t) → t.version = .detection →
        t.reported = false → False := by
      intro t hx hd hr'
      simp only [about, hx, Option.some.injEq] at hne
      have hslot := hs.versions.slot_of_pending hx hd hr'
      rw [hne] at hslot
      exact (hs.versions.pending x t hx hd hr').not_zero hx (hid _ hslot _)
    cases h with
    | idle => exact hr i hf
    | reportedQuiet hx hd hr' hq | reportedTolerated hx hd hr' _ _ _ _ _ =>
      exact (hnone hx hd hr').elim
    | reportedRecovered hx hd hr' _ _ _ => exact (hnone hx hd hr').elim
  | periodBegin x =>
    obtain rfl : x = id := Option.some.inj hne
    have hf' := hf
    rw [h.taskInList_eq (by simp) (by simp)] at hf'
    exact h.ready_of_periodBegin hs (hr i hf').1 i hf
  | _ => cases hne

theorem Tracked.of_ne (ht : s.Tracked id i) (h : Step s c s') (hg : Regular id s c)
    (hne : s.about c ≠ some id) (hf : s.taskInList id = some i) (hx : (s.slot i).Exact) :
    s'.Tracked id i := by
  obtain ⟨⟨p, hfit, hst⟩, hdecs⟩ := ht
  obtain ⟨hi, he⟩ := taskInList_eq_some hf
  have hslot := h.slot_of_ne hi hg.off (by rw [he]; exact hne)
  obtain ⟨hjobs, hobs⟩ := h.jobs_of_ne hne
  refine ⟨⟨p, by rwa [hslot], hst.frame hslot hjobs (h.noPending hg.off hf hne) fun hs y hy => ?_⟩,
    fun n hn => hdecs n (hobs _ rfl hn)⟩
  have hlen : 8 * ((s.slot i).patternEnd - (s.slot i).patternStart) + (s.slot i).maxBitpos + 1 =
      (s.slot i).k := hx.length_eq
  have hmax := hx.max_le
  exact h.memBit_eq hx.start_le (by omega) fun r hr => hg.buffer r hr i hf hs

theorem Stage.of_call (hst : s.Stage id i p) (h : Step s c s') (hs : s.VersionsOk)
    (hg : Regular id s c) (hc : s.about c = some id) (hreg : ∀ r, c ≠ .register r)
    (hf : s.taskInList id = some i) (hx : (s.slot i).Exact)
    (hp : Function.Periodic p (s.slot i).k) : s'.Stage id i p := by
  have hs' := h.versionsOk hs hg.off hg.idle
  cases c with
  | register r => exact absurd rfl (hreg r)
  | off x => exact absurd rfl (hg.off x)
  | changeTech x tech =>
    obtain rfl : x = id := Option.some.inj hc
    obtain ⟨halike, hset⟩ := hg.switch tech rfl i hf
    exact hst.switched h hf halike hset
  | compensate caller x g =>
    obtain rfl : x = id := Option.some.inj hc
    obtain ⟨hj, ha⟩ := hg.ready caller g rfl i hf
    exact hst.compensated h hf hx hp hj (ha hx)
  | report x fs g =>
    simp only [about] at hc
    split at hc
    · next t hlive => exact hst.reported h hs hlive (Option.some.inj hc) hf
    · cases hc
  | periodBegin x => obtain rfl : x = id := Option.some.inj hc; exact hst.begun h hs' hf hp
  | _ => cases hc

theorem Step.tech_ne_none (h : Step s c s') (hg : Regular id s c) (hc : s.about c = some id)
    (hreg : ∀ r, c ≠ .register r) (hf : s.taskInList id = some i)
    (ht : (s'.slot i).tech ≠ .none) : (s.slot i).tech ≠ .none := by
  intro e
  by_cases hct : ∃ x tech, c = .changeTech x tech
  · obtain ⟨x, tech, rfl⟩ := hct
    obtain rfl : x = id := Option.some.inj hc
    rcases (hg.switch tech rfl i hf).1 with ⟨e' | e', -⟩ | ⟨e', -⟩ <;> rw [e] at e' <;> cases e'
  · exact ht ((congrFun (h.tech_eq hg.off hreg fun x tech e => hct ⟨x, tech, e⟩) i).trans e)

theorem Step.trackOk (h : Step s c s') (hs : s.TrackOk id) (hg : Regular id s c) :
    s'.TrackOk id := by
  have hs' := h.versionsOk hs.versions hg.off hg.idle
  refine ⟨hs', h.pristine hg.off hs.pristine, fun i hf hx ht => ?_⟩
  by_cases hne : s.about c = some id
  swap
  · have hf' := h.taskInList_of_ne hs.versions.table hg.off hne hf
    obtain ⟨hi, he⟩ := taskInList_eq_some hf'
    rw [h.slot_of_ne hi hg.off (by rw [he]; exact hne)] at hx ht
    exact (hs.tracked i hf' hx ht).of_ne h hg hne hf' hx
  by_cases hreg : ∃ r, c = .register r
  · obtain ⟨r, rfl⟩ := hreg
    obtain rfl : r.id = id := Option.some.inj hne
    cases h with
    | idle => exact hs.tracked i hf hx ht
    | @registered _ mem s1 hi hn hmk hp hct =>
      have hr := ftsRtemsTaskRegister_eq_some.mpr ⟨⟨hi, hn, hmk⟩, mem, s1, hp, hct, rfl⟩
      rw [(register_taskInList hs.versions.table hr).2] at hf
      cases hf
      exact register_tracked hr hs.versions hs' (hs.pristine _ le_rfl) hx ht
  have hreg : ∀ r, c ≠ .register r := fun r e => hreg ⟨r, e⟩
  rw [h.taskInList_eq hg.off hreg] at hf
  have hx' := h.exact_of_exact hg.off hreg hx
  obtain ⟨⟨p, hfit, hst⟩, hdecs⟩ := hs.tracked i hf hx' (h.tech_ne_none hg hne hreg hf ht)
  refine ⟨⟨p, ?_, hst.of_call h hs.versions hg hne hreg hf hx' hfit.periodic⟩, fun n hn => ?_⟩
  · obtain ⟨hm, hk, -⟩ := h.pattern_eq hg.off hreg
    rw [show (s'.slot i).m = (s.slot i).m from congrFun hm i,
      show (s'.slot i).k = (s.slot i).k from congrFun hk i]
    exact hfit
  · rcases h.decremented_cases hn with hn | hn | ⟨caller, g, j, rfl, hj, hd, rfl⟩
    · exact hdecs n hn
    · exact hn
    · rw [hf] at hj; cases hj; exact Nat.pos_of_ne_zero ((hg.ready caller g rfl i hf).2 hx' hd)

theorem boot_trackOk {mem : Mem} {tasks : Objects Task}
    (ht : ∀ x t, tasks.live x ≠ some (.version t)) (id : Id) : (boot mem tasks).TrackOk id where
  versions := boot_versionsOk ht
  pristine _ _ := rfl
  tracked i hf := absurd (taskInList_eq_some hf).1 (Nat.not_lt_zero i)

/-! ## Windows -/

theorem Tracked.windows (h : s.Tracked id i) (hx : (s.slot i).Exact) {window : List Job}
    (hw : window <:+: jobs id s.log) (hj : ∀ j ∈ window, j.settled = true)
    (hl : window.length = (s.slot i).k) : (s.slot i).m ≤ window.countP Job.correct := by
  obtain ⟨⟨p, hfit, hst⟩, -⟩ := h
  obtain ⟨n, js, hjs, he⟩ := hst.stretched
  -- an open job is not in the window
  have hw' : window <:+: js := by
    rcases he with he | he
    · rwa [he] at hw
    · rw [he, List.infix_cons_iff] at hw
      rcases hw with hw | hw
      · cases window with
        | nil => have := hx.m_pos.trans_le hx.m_le; simp only [List.length_nil] at hl; omega
        | cons j window =>
          rw [List.cons_prefix_cons] at hw
          have := hj j List.mem_cons_self
          rw [hw.1] at this
          cases this
      · exact hw
  have hcount := hjs.count_true_infix hx.m_le hfit.zeros (hw'.map Job.correct) (by simpa using hl)
  rw [List.count_eq_countP, List.countP_map] at hcount
  refine hcount.trans_eq (List.countP_congr fun j _ => ?_)
  simp

end Fts

end Rtems
