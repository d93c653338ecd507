import Rtems.Fts.Partition
import Rtems.Fts.Static
import Rtems.Fts.Versions

/-!
# Where a task stands in its pattern

A static technique keeps its place in the pattern with a cursor, a dynamic one with counters. Under
a dynamic technique the place of a job is known when its version has reported only.

* `Standing`: the slot is at a position of a periodic word, by its cursor or by its counters;
* `Stage`: the jobs of a task follow the word, up to a last one that may be open;
* **`Stage.compensated`**, **`Stage.reported`**, **`Stage.begun`**, **`Stage.switched`**: what the
  calls do to it.
-/

namespace Rtems

open WeaklyHard

/-- Both techniques are static, or both are dynamic. -/
def FtsTech.Alike (old new : FtsTech) : Prop :=
  (old = .sre ∨ old = .sdr) ∧ (new = .sre ∨ new = .sdr) ∨ old.dynamic = true ∧ new.dynamic = true

instance (old new : FtsTech) : Decidable (old.Alike new) :=
  inferInstanceAs (Decidable (_ ∨ _))

theorem FtsTech.Alike.static {old new : FtsTech} (h : old.Alike new) (hs : old = .sre ∨ old = .sdr) :
    new = .sre ∨ new = .sdr := by
  rcases h with h | h
  · exact h.2
  · rcases hs with rfl | rfl <;> cases h.1

theorem FtsTech.Alike.dynamic {old new : FtsTech} (h : old.Alike new) (hd : old.dynamic = true) :
    new.dynamic = true := by
  rcases h with h | h
  · rcases h.1 with rfl | rfl <;> cases hd
  · exact h.2

namespace Slot

/-- The pattern of the slot has exactly `k` bits, for a constraint `(m, k)`. -/
structure Exact (x : Slot) : Prop where
  m_pos : 0 < x.m
  m_le : x.m ≤ x.k
  start_le : x.patternStart ≤ x.patternEnd
  max_le : x.maxBitpos ≤ 7
  length_eq : x.length = x.k

instance (x : Slot) : Decidable x.Exact :=
  decidable_of_iff (0 < x.m ∧ x.m ≤ x.k ∧ x.patternStart ≤ x.patternEnd ∧ x.maxBitpos ≤ 7 ∧
      x.length = x.k)
    ⟨fun ⟨h1, h2, h3, h4, h5⟩ => ⟨h1, h2, h3, h4, h5⟩, fun ⟨h1, h2, h3, h4, h5⟩ => ⟨h1, h2, h3, h4, h5⟩⟩

theorem Exact.congr {x y : Slot} (h : x.Exact) (hm : y.m = x.m) (hk : y.k = x.k)
    (hs : y.patternStart = x.patternStart) (he : y.patternEnd = x.patternEnd)
    (hb : y.maxBitpos = x.maxBitpos) : y.Exact := by
  obtain ⟨h1, h2, h3, h4, h5⟩ := h
  refine ⟨by rw [hm]; exact h1, by rw [hm, hk]; exact h2, by rw [hs, he]; exact h3,
    by rw [hb]; exact h4, ?_⟩
  rw [length, hs, he, hb, hk]
  exact h5

/-- The slot is at position `n` of the word `p`. -/
inductive Standing (x : Slot) (mem : Mem) (p : ℕ → Bool) (n : ℕ) : Prop
  | cursor (ht : x.tech = .sre ∨ x.tech = .sdr) (hc : x.Cursor (n % x.k))
      (hm : ∀ y, y < x.k → memBit mem x.patternStart y = p y)
  | counters (ht : x.tech.dynamic = true) (hc : x.Counting p n)

section

variable {x : Slot} {mem mem' : Mem} {p : ℕ → Bool} {n : ℕ}

theorem Standing.tech_ne (h : x.Standing mem p n) : x.tech ≠ .none := by
  intro e
  cases h with
  | cursor ht hc hm =>
    rw [e] at ht
    rcases ht with ht | ht <;> cases ht
  | counters ht hc => rw [e] at ht; cases ht

theorem Counting.congr (h : x.Counting p n) (tech : FtsTech) (running : FtsVersion → Id) :
    { x with tech := tech, runningId := running }.Counting p n :=
  { h with }

theorem Standing.congr (h : x.Standing mem p n) (tech : FtsTech) (running : FtsVersion → Id)
    (hs : x.tech = .sre ∨ x.tech = .sdr → tech = .sre ∨ tech = .sdr)
    (hd : x.tech.dynamic = true → tech.dynamic = true) :
    { x with tech := tech, runningId := running }.Standing mem p n := by
  cases h with
  | cursor ht hc hm => exact .cursor (hs ht) ⟨hc.start, hc.stop, hc.bit, hc.pos⟩ hm
  | counters ht hc => exact .counters (hd ht) (hc.congr tech running)

theorem Standing.next (ht : x.tech = .sre ∨ x.tech = .sdr) (h : x.Standing mem p n) (hx : x.Exact)
    (hp : Function.Periodic p x.k) :
    bitAt (mem x.currPos) x.bitpos = p n ∧ x.next.Standing mem p (n + 1) := by
  cases h with
  | cursor _ hc hm =>
    have hlt : n % x.k < x.k := Nat.mod_lt _ (hx.m_pos.trans_le hx.m_le)
    refine ⟨by rw [hc.bitAt_eq, hm _ hlt, hp.map_mod_nat], .cursor (by simpa using ht) ?_ ?_⟩
    · have hnext := hc.next hx.max_le (by rw [hx.length_eq]; exact hlt)
      rwa [hx.length_eq, Nat.mod_add_mod, ← next_k x] at hnext
    · simpa using hm
  | counters hd hc => rcases ht with e | e <;> rw [e] at hd <;> cases hd

theorem Standing.counting (ht : x.tech.dynamic = true) (h : x.Standing mem p n) : x.Counting p n := by
  cases h with
  | cursor hs hc hm => rcases hs with e | e <;> rw [e] at ht <;> cases ht
  | counters _ hc => exact hc

theorem Standing.setRunning (h : x.Standing mem p n) (running : FtsVersion → Id) :
    { x with runningId := running }.Standing mem p n :=
  h.congr x.tech running (fun ht => ht) fun ht => ht

end

end Slot

namespace Fts

variable {s s' : Fts} {id : Id} {i : ℕ} {p : ℕ → Bool}

/-! ## Versions that report -/

variable {tech : FtsTech}

theorem staticVersion_detection {b : Bool} (h : staticVersion tech b = .detection) :
    tech ≠ .sre ∧ b = true := by
  cases tech <;> cases b <;> cases h <;> exact ⟨by decide, rfl⟩

theorem staticVersion_true (h : staticVersion tech true ≠ .detection) :
    staticVersion tech true = .correction := by
  cases tech <;> first | rfl | exact absurd rfl h

theorem safeVersion_correction (h : safeVersion tech ≠ .detection) :
    safeVersion tech = .correction := by
  cases tech <;> first | rfl | exact absurd rfl h

/-! ## The slot after a call for it -/

theorem deleteVersions_slot (s : Fts) (i : ℕ) : (s.deleteVersions i).slot i =
    { s.slot i with runningId := fun w => (s.deleteVersions i).runningId w i } := by
  simp [slot]

theorem decO_slot (s : Fts) (i : ℕ) (id : Id) : (s.decO i id).slot i = { s.slot i with
      tolCounterTemp := (s.slot i).tolCounterTemp.spendO (s.slot i).partitionIndex } := by
  simp [slot, decO, setTemp, note, TolCounter.spendO, o]

theorem decA_slot (s : Fts) (i : ℕ) (id : Id) : (s.decA i id).slot i = { s.slot i with
      tolCounterTemp := (s.slot i).tolCounterTemp.spendA (s.slot i).partitionIndex } := by
  simp [slot, decA, setTemp, note, TolCounter.spendA, a]

/-! ## The jobs and the position -/

/-- The jobs of `id` in slot `i` follow the word `p`. -/
inductive Stage (s : Fts) (id : Id) (i : ℕ) (p : ℕ → Bool) : Prop
  /-- All jobs have reported. -/
  | settled {n : ℕ} (hj : ∀ j ∈ jobs id s.log, j.settled = true)
      (hw : Stretched p n ((jobs id s.log).map Job.correct))
      (hat : (s.slot i).Standing s.mem p n) (hno : s.NoPending i)
  /-- The last job may fail: its fault will be tolerated. -/
  | tolerant {n : ℕ} {js : List Job} (hj : jobs id s.log = .start .detection :: js)
      (hjs : ∀ j ∈ js, j.settled = true) (hw : Stretched p n (js.map Job.correct))
      (ht : (s.slot i).tech.dynamic = true) (hat : (s.slot i).Counting p n) (ho : 0 < (s.slot i).o)
  /-- The last job must not fail: its fault will release a correction version. -/
  | safe {n : ℕ} {js : List Job} (hj : jobs id s.log = .start .detection :: js)
      (hjs : ∀ j ∈ js, j.settled = true) (hw : Stretched p n (js.map Job.correct))
      (hp : p n = true) (hat : (s.slot i).Standing s.mem p (n + 1))
      (ht : (s.slot i).tech = .sdr ∨ (s.slot i).tech.dynamic = true ∧ (s.slot i).o = 0)
  /-- The version of the last job was deleted before it reported. -/
  | dead {n : ℕ} {js : List Job} (hj : jobs id s.log = .start .detection :: js)
      (hjs : ∀ j ∈ js, j.settled = true) (hw : Stretched p n (js.map Job.correct))
      (hno : s.NoPending i)

/-- The detection versions of all jobs of `id` have reported. -/
def Settled (s : Fts) (id : Id) : Prop := ∀ j ∈ jobs id s.log, j.settled = true

instance (s : Fts) (id : Id) : Decidable (s.Settled id) :=
  inferInstanceAs (Decidable (∀ j ∈ jobs id s.log, j.settled = true))

namespace Stage

theorem frame (h : s.Stage id i p) (hslot : s'.slot i = s.slot i)
    (hjobs : jobs id s'.log = jobs id s.log) (hno : s.NoPending i → s'.NoPending i)
    (hmem : (s.slot i).tech = .sre ∨ (s.slot i).tech = .sdr → ∀ y, y < (s.slot i).k →
      memBit s'.mem (s.slot i).patternStart y = memBit s.mem (s.slot i).patternStart y) :
    s'.Stage id i p := by
  have hstand : ∀ {n}, (s.slot i).Standing s.mem p n → (s'.slot i).Standing s'.mem p n := by
    intro n hat
    rw [hslot]
    cases hat with
    | cursor ht hc hm => exact .cursor ht hc fun y hy => by rw [hmem ht y hy, hm y hy]
    | counters ht hc => exact .counters ht hc
  cases h with
  | settled hj hw hat hno' =>
    exact .settled (by rwa [hjobs]) (by rwa [hjobs]) (hstand hat) (hno hno')
  | tolerant hj hjs hw ht hat ho =>
    exact .tolerant (hjobs.trans hj) hjs hw (by rwa [hslot]) (by rwa [hslot]) (by rwa [hslot])
  | safe hj hjs hw hp hat ht =>
    exact .safe (hjobs.trans hj) hjs hw hp (hstand hat) (by rwa [hslot])
  | dead hj hjs hw hno' => exact .dead (hjobs.trans hj) hjs hw (hno hno')

theorem of_settled (h : s.Stage id i p) (hj : s.Settled id) :
    ∃ n, Stretched p n ((jobs id s.log).map Job.correct) ∧ (s.slot i).Standing s.mem p n ∧
      s.NoPending i := by
  have hopen : ∀ {js}, jobs id s.log ≠ .start .detection :: js := by
    intro js e
    have := hj (.start .detection) (by rw [e]; exact List.mem_cons_self)
    cases this
  cases h with
  | settled _ hw hat hno => exact ⟨_, hw, hat, hno⟩
  | tolerant hj _ _ _ _ _ | safe hj _ _ _ _ _ => exact absurd hj hopen
  | dead hj _ _ _ => exact absurd hj hopen

theorem stretched (h : s.Stage id i p) : ∃ n js, Stretched p n (js.map Job.correct) ∧
    (jobs id s.log = js ∨ jobs id s.log = .start .detection :: js) := by
  cases h with
  | settled _ hw _ _ => exact ⟨_, _, hw, .inl rfl⟩
  | tolerant hj _ hw _ _ _ | safe hj _ hw _ _ _ => exact ⟨_, _, hw, .inr hj⟩
  | dead hj _ hw _ => exact ⟨_, _, hw, .inr hj⟩

theorem close {n : ℕ} {j : Job} {js : List Job} (hjobs : jobs id s.log = j :: js)
    (hj : j.settled = true) (hjs : ∀ j ∈ js, j.settled = true)
    (hw : Stretched p n (j.correct :: js.map Job.correct)) (hat : (s.slot i).Standing s.mem p n)
    (hno : s.NoPending i) : s.Stage id i p :=
  .settled (by rw [hjobs]; exact List.forall_mem_cons.mpr ⟨hj, hjs⟩) (by rw [hjobs]; exact hw) hat hno

/-- **A release takes a letter of the word**, at once or with the report. -/
theorem compensated {caller : Caller} {g : Grant} (h : s.Stage id i p)
    (hstep : Step s (.compensate caller id g) s') (hf : s.taskInList id = some i)
    (hx : (s.slot i).Exact) (hp : Function.Periodic p (s.slot i).k) (hj : s.Settled id)
    (ha : (s.slot i).tech.dynamic = true → (s.slot i).a ≠ 0) : s'.Stage id i p := by
  obtain ⟨n, hw, hat, hno⟩ := h.of_settled hj
  -- a version without a report is released
  have hdone : ∀ {v}, v ≠ .detection → (p n = true → v = .correction) →
      jobs id s'.log = .start v :: jobs id s.log → (s'.slot i).Standing s'.mem p (n + 1) →
      s'.NoPending i → s'.Stage id i p := fun {v} hv hpv hjobs =>
    close hjobs (by simp [Job.settled, hv]) hj (hw.follow fun hpn => by simp [Job.correct, hpv hpn])
  cases hstep with
  | idle => exact h
  | compensatedAbsent hf' => rw [hf] at hf'; cases hf'
  | compensatedNone hf' hi ht => rw [hf] at hf'; cases hf'; exact absurd ht hat.tech_ne
  | @compensatedStatic _ _ _ _ v hf' hi ht hb hv =>
    rw [hf] at hf'
    cases hf'
    obtain ⟨hbit, hnext⟩ := hat.next ht hx hp
    rw [← advance_slot] at hnext
    have hv : v = staticVersion (s.slot i).tech (p n) := by rw [hv, ← hbit]; rfl
    by_cases hd : v = .detection
    · obtain ⟨hne, hpn⟩ := staticVersion_detection (hv.symm.trans hd)
      subst hd
      refine .safe (by simp) hj hw hpn (hnext.setRunning _) (.inl ?_)
      show ((s.advance i).slot i).tech = .sdr
      rw [advance_slot, Slot.next_tech]
      exact ht.resolve_left hne
    · refine hdone hd (fun hpn => ?_) (by simp) (hnext.setRunning _)
        (NoPending.launch (s := (s.noteEntry caller i).advance i) hno (.inr hd) g)
      rw [hpn] at hv
      rw [hv] at hd ⊢
      exact staticVersion_true hd
  | compensatedTolerant hf' hi ht hx' ho =>
    rw [hf] at hf'
    cases hf'
    exact .tolerant (by simp) hj hw ht ((hat.counting ht).congr (s.slot i).tech _) ho
  | @compensatedSafe _ _ _ _ v hf' hi ht hx' ho hv =>
    rw [hf] at hf'
    cases hf'
    obtain ⟨hpn, hnext⟩ := (hat.counting ht).spendA ho (Nat.pos_of_ne_zero (ha ht))
    have hat' : (((((s.noteEntry caller i).launch i v g).decA i id).note (.version id v)).slot
        i).Standing s.mem p (n + 1) := by
      rw [note_slot, decA_slot]
      exact .counters ht (hnext.congr (s.slot i).tech _)
    by_cases hd : v = .detection
    · subst hd
      exact .safe (by simp) hj hw hpn hat' (.inr ⟨ht, by rw [note_slot, decA_slot]; exact ho⟩)
    · refine hdone hd (fun _ => ?_) (by simp) hat'
        (NoPending.launch hno (.inr hd) g)
      rw [hv] at hd ⊢
      exact safeVersion_correction hd

/-- **A report settles the last job**, with the letter of a tolerated fault. -/
theorem reported {x : Id} {fs : FaultStatus} {g : Grant} {t : VersionTask} (h : s.Stage id i p)
    (hstep : Step s (.report x fs g) s') (hs : s.VersionsOk)
    (hx : s.tasks.live x = some (.version t)) (hid : t.period = id)
    (hf : s.taskInList id = some i) : s'.Stage id i p := by
  -- the version that reports is the one of the last job
  have hlast : ∀ {t'}, s.tasks.live x = some (.version t') → t'.version = .detection →
      t'.reported = false → t' = t ∧ t.slot = i ∧ ¬ s.NoPending i := by
    intro t' hx' hd hr
    rw [hx] at hx'
    cases hx'
    have hslot := hs.slot_of_pending hx hd hr
    rw [hid, hf] at hslot
    cases hslot
    exact ⟨rfl, rfl, fun hno => hno x t hx hd hr rfl⟩
  cases hstep with
  | idle => exact h
  | @reportedQuiet _ _ _ t' hx' hd hr hq =>
    obtain ⟨rfl, rfl, hpend⟩ := hlast hx' hd hr
    subst hid
    have hno := hs.noPending_markReported hx hd hr
    -- a technique that reacts to faults
    have hfs : (s.slot t'.slot).tech = .sdr ∨ (s.slot t'.slot).tech.dynamic = true →
        fs = .noFault := by
      intro ht
      rcases hq with e | ⟨j, hj, -, hq⟩
      · exact e
      · rw [hf, Option.getD_some] at hj
        subst hj
        change (s.slot t'.slot).tech = _ ∨ (s.slot t'.slot).tech = _ at hq
        rcases hq with hq | hq <;> rw [hq] at ht <;> rcases ht with ht | ht <;> cases ht
    cases h with
    | settled hj hw hat hno' | dead hj hjs hw hno' => exact absurd hno' hpend
    | tolerant hj hjs hw ht hat ho =>
      rw [hfs (.inr ht)]; exact close (jobs_report hj) rfl hjs hw.insert (.counters ht hat) hno
    | safe hj hjs hw hp hat ht =>
      rw [hfs (ht.imp_right And.left)]
      exact close (jobs_report hj) rfl hjs (hw.follow fun _ => rfl) hat hno
  | @reportedTolerated _ _ t' j hx' hd hr hf' hi ht hpi ho =>
    obtain ⟨rfl, rfl, hpend⟩ := hlast hx' hd hr
    subst hid
    rw [hf] at hf'
    cases hf'
    cases h with
    | settled hj hw hat hno | dead hj hjs hw hno => exact absurd hno hpend
    | tolerant hj hjs hw ht' hat ho' =>
      obtain ⟨hpn, hnext⟩ := hat.spendO ho'
      refine close (jobs_report ((jobs_decremented _ _).trans hj)) rfl hjs
        (hw.follow fun e => by rw [hpn] at e; cases e) (.counters ht ?_)
        (hs.noPending_markReported hx hd hr)
      rw [note_slot, decO_slot]
      exact hnext
    | safe hj hjs hw hp hat ht' =>
      rcases ht' with e | ⟨-, ho'⟩
      · rw [show s.list.tech t'.slot = .sdr from e] at ht; cases ht
      · exact absurd ho' ho.ne'
  | @reportedRecovered _ _ t' j hx' hd hr hf' hi ht =>
    obtain ⟨rfl, rfl, hpend⟩ := hlast hx' hd hr
    subst hid
    rw [hf] at hf'
    cases hf'
    cases h with
    | settled hj hw hat hno | dead hj hjs hw hno => exact absurd hno hpend
    | tolerant hj hjs hw ht' hat ho' =>
      rcases ht with e | ⟨-, ho⟩
      · rw [show (s.slot t'.slot).tech = .sdr from e] at ht'; cases ht'
      · exact absurd ho ho'.ne'
    | safe hj hjs hw hp hat ht' =>
      exact close (jobs_report ((jobs_recorded _ _ _ _).trans hj)) rfl hjs (hw.follow fun _ => rfl)
        (hat.setRunning _) ((hs.noPending_markReported hx hd hr).launch (.inr (by decide)) g)

/-- **The start of a period keeps the position** and deletes an open version. -/
theorem begun (h : s.Stage id i p) (hstep : Step s (.periodBegin id) s') (hs' : s'.VersionsOk)
    (hf : s.taskInList id = some i) (hp : Function.Periodic p (s.slot i).k) : s'.Stage id i p := by
  -- nothing is recorded when the versions are deleted
  have hjobs := hstep.jobs_periodBegin id
  have hkeep : (∀ v, s'.runningId v i = 0) →
      (∀ {n}, (s.slot i).Standing s.mem p n → (s'.slot i).Standing s'.mem p n) →
      s'.Stage id i p := by
    intro hz hstand
    have hno := hs'.noPending (hz .detection)
    cases h with
    | settled hj hw hat _ => exact .settled (by rwa [hjobs]) (by rwa [hjobs]) (hstand hat) hno
    | tolerant hj hjs hw _ _ _ | safe hj hjs hw _ _ _ | dead hj hjs hw _ =>
      exact .dead (hjobs.trans hj) hjs hw hno
  have hzero : ∀ v, (s.deleteVersions i).runningId v i = 0 := by
    intro v; rw [deleteVersions_runningId, if_pos rfl]
  cases hstep with
  | idle => exact h
  | begun hf' hi hk =>
    rw [hf] at hf'
    cases hf'
    refine hkeep hzero fun hat => ?_
    rw [deleteVersions_slot, (deleteVersions_tables _ _).2.1]
    exact hat.setRunning _
  | @begunReplenished _ _ s1 hf' hi ht ha hn hu =>
    rw [hf] at hf'
    cases hf'
    obtain ⟨-, rfl⟩ := tolcUpdate_eq_some.mp hu
    refine hkeep hzero fun {n} hat => ?_
    have hfull := (hat.counting ht).replenish hp ha hn
      (c := { tolCounterO := fun j => if j ≤ s.nrPartitions i then (s.tolCounterConst i).tolCounterO j
                else (s.tolCounterTemp i).tolCounterO j
              tolCounterA := fun j => if j ≤ s.nrPartitions i then (s.tolCounterConst i).tolCounterA j
                else (s.tolCounterTemp i).tolCounterA j })
      fun q hq => ⟨if_pos hq, if_pos hq⟩
    refine .counters (by simpa [slot] using ht) ?_
    simpa [slot] using hfull.congr (s.slot i).tech fun w => (s.deleteVersions i).runningId w i
  | begunNext hf' hi ht hx ha hn =>
    rw [hf] at hf'
    cases hf'
    refine hkeep hzero fun {n} hat => ?_
    have hnext := (hat.counting ht).nextPartition ha hn
    have hlt : s.partitionIndex i < 16 := hx
    refine .counters (by simpa [slot] using ht) ?_
    simp only [Nat.mod_eq_of_lt (show s.partitionIndex i + 1 < 2 ^ 16 by omega)]
    simpa [slot] using hnext.congr (s.slot i).tech fun w => (s.deleteVersions i).runningId w i

/-- **A change of technique keeps the position**, within the static or the dynamic ones. -/
theorem switched (h : s.Stage id i p) (hstep : Step s (.changeTech id tech) s')
    (hf : s.taskInList id = some i) (ht : (s.slot i).tech.Alike tech)
    (hset : (s.slot i).tech = .sdr → tech = .sre → s.Settled id) : s'.Stage id i p := by
  cases hstep with
  | idle => exact h
  | techChanged hf' hi =>
    rw [hf] at hf'
    cases hf'
    have hslot : Fts.slot { s with list := { s.list with tech := Function.update s.list.tech i tech } }
        i = { s.slot i with tech := tech } := by simp [slot]
    have hstand : ∀ {n}, (s.slot i).Standing s.mem p n →
        { s.slot i with tech := tech }.Standing s.mem p n := fun hat =>
      hat.congr tech (s.slot i).runningId ht.static ht.dynamic
    cases h with
    | settled hj hw hat hno => exact .settled hj hw (by rw [hslot]; exact hstand hat) hno
    | tolerant hj hjs hw hd hat ho =>
      exact .tolerant hj hjs hw (by rw [hslot]; exact ht.dynamic hd)
        (by rw [hslot]; exact (hstand (.counters hd hat)).counting (ht.dynamic hd))
        (by rw [hslot]; exact ho)
    | safe hj hjs hw hp hat hsafe =>
      refine .safe hj hjs hw hp (by rw [hslot]; exact hstand hat) ?_
      rw [hslot]
      rcases hsafe with e | ⟨hd, ho⟩
      · rcases ht.static (.inr e) with e' | e'
        · -- the open job has not reported
          have := hset e e' _ (by rw [hj]; exact List.mem_cons_self)
          cases this
        · exact .inl e'
      · exact .inr ⟨ht.dynamic hd, ho⟩
    | dead hj hjs hw hno => exact .dead hj hjs hw hno

end Stage

end Fts

end Rtems
