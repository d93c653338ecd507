import Rtems.Fts.Counter

/-!
# Registering in a slot that was used before

`tol_counter_set` adds to `tol_counter_const`, which nothing ever clears, and a static technique
does not set `nr_partitions` and `partition_index` at all. So a task may start from what the last
task of its slot left behind.

* `Alike`, `Alike.reply`: two slots from which the answers are the same;
* **`register_like_fresh_iff`**: when a registration behaves as in a started system.
-/

namespace Rtems

open Function PartialRun Option Objects

inductive Use
  /-- `rtems_rate_monotonic_period` begins. -/
  | period
  | compensate (g : Grant)
  | report (fs : FaultStatus) (g : Grant)
  | changeTech (tech : FtsTech)
  deriving DecidableEq

inductive Reply
  | silent
  | version (v : FtsVersion)
  /-- Whether a correction version is released for a fault. -/
  | reaction (recovered : Bool)
  deriving DecidableEq

namespace Fts

/-- The answer of the manager, read from its log for a fault report. -/
def reply (id : Id) (s : Fts) : Use → Option (Reply × Fts)
  | .period => (s.periodBegin id).map (Prod.mk .silent)
  | .compensate g => (s.ftsCompensate .release id g).map fun r => (.version r.1, r.2)
  | .report fs g => (s.faultDetectionRoutine id fs g).map fun s' =>
      (.reaction (s'.log.head? == some (.report id fs true)), s')
  | .changeTech tech => (s.ftsChangeTech id tech).map fun r => (.silent, r.2)

/-! ## Slots that are alike -/

/-- Slots `i` of `s` and `j` of `f` hold `id`, with the same pattern, cursor and counters. -/
structure Alike (id : Id) (i j : ℕ) (s f : Fts) : Prop where
  found : s.taskInList id = some i
  found' : f.taskInList id = some j
  lt : i < pTasks
  lt' : j < pTasks
  mem : s.mem = f.mem
  tech : s.list.tech i = f.list.tech j
  patternStart : s.list.patternStart i = f.list.patternStart j
  patternEnd : s.list.patternEnd i = f.list.patternEnd j
  currPos : s.list.currPos i = f.list.currPos j
  bitpos : s.list.bitpos i = f.list.bitpos j
  maxBitpos : s.list.maxBitpos i = f.list.maxBitpos j
  nr : s.nrPartitions i = f.nrPartitions j
  index : s.partitionIndex i = f.partitionIndex j
  index_le : f.partitionIndex j ≤ f.nrPartitions j
  constO : ∀ p, p ≤ f.nrPartitions j →
    (s.tolCounterConst i).tolCounterO p = (f.tolCounterConst j).tolCounterO p
  constA : ∀ p, p ≤ f.nrPartitions j →
    (s.tolCounterConst i).tolCounterA p = (f.tolCounterConst j).tolCounterA p
  tempO : ∀ p, p ≤ f.nrPartitions j →
    (s.tolCounterTemp i).tolCounterO p = (f.tolCounterTemp j).tolCounterO p
  tempA : ∀ p, p ≤ f.nrPartitions j →
    (s.tolCounterTemp i).tolCounterA p = (f.tolCounterTemp j).tolCounterA p

namespace Alike

variable {id : Id} {i j : ℕ} {s f : Fts}

section

variable (h : Alike id i j s f)

include h

theorem o_eq : s.o i = f.o j := by
  rw [o, o, h.index]; exact h.tempO _ h.index_le

theorem a_eq : s.a i = f.a j := by
  rw [a, a, h.index]; exact h.tempA _ h.index_le

theorem note (x y : Obs) : Alike id i j (s.note x) (f.note y) :=
  { h with }

theorem launch (v : FtsVersion) (g : Grant) : Alike id i j (s.launch i v g) (f.launch j v g) :=
  { h with }

theorem deleteVersions : Alike id i j (s.deleteVersions i) (f.deleteVersions j) := by
  obtain ⟨_, _, _, hs⟩ := deleteVersions_eq s i
  obtain ⟨_, _, _, hf⟩ := deleteVersions_eq f j
  rw [hs, hf]
  exact { h with }

theorem setTemp {c c' : TolCounter}
    (hO : ∀ p, p ≤ f.nrPartitions j → c.tolCounterO p = c'.tolCounterO p)
    (hA : ∀ p, p ≤ f.nrPartitions j → c.tolCounterA p = c'.tolCounterA p) :
    Alike id i j (s.setTemp i c) (f.setTemp j c') :=
  { h with
    tempO := fun p hp => by
      simp only [Fts.setTemp, update_self]
      exact hO p hp
    tempA := fun p hp => by
      simp only [Fts.setTemp, update_self]
      exact hA p hp }

theorem decO : Alike id i j (s.decO i id) (f.decO j id) := by
  refine note (h.setTemp (fun p hp => ?_) ?_) _ _
  case refine_2 => exact h.tempA
  dsimp only
  rw [h.index, h.o_eq]
  by_cases hpx : p = f.partitionIndex j
  · rw [hpx, update_self, update_self]
  · rw [update_of_ne hpx, update_of_ne hpx]; exact h.tempO p hp

theorem decA : Alike id i j (s.decA i id) (f.decA j id) := by
  refine note (h.setTemp ?_ fun p hp => ?_) _ _
  case refine_1 => exact h.tempO
  dsimp only
  rw [h.index, h.a_eq]
  by_cases hpx : p = f.partitionIndex j
  · rw [hpx, update_self, update_self]
  · rw [update_of_ne hpx, update_of_ne hpx]; exact h.tempA p hp

theorem advance : Alike id i j (s.advance i) (f.advance j) := by
  simp only [Fts.advance, h.patternEnd, h.currPos, h.bitpos, h.maxBitpos, h.patternStart]
  split_ifs
  all_goals refine { h with currPos := ?_, bitpos := ?_ }
  all_goals simp [h.currPos]

theorem changeTech (tech : FtsTech) : Alike id i j
      { s with list := { s.list with tech := update s.list.tech i tech } }
      { f with list := { f.list with tech := update f.list.tech j tech } } :=
  { h with tech := by simp }

theorem nextPartition (hne : f.nrPartitions j ≠ f.partitionIndex j) (n : ℕ) : Alike id i j
      { s with partitionIndex := update s.partitionIndex i ((s.partitionIndex i + 1) % n) }
      { f with
        partitionIndex := update f.partitionIndex j ((f.partitionIndex j + 1) % n) } := by
  refine { h with index := ?_, index_le := ?_ }
  · simp [h.index]
  · have := h.index_le
    have := Nat.mod_le (f.partitionIndex j + 1) n
    simp only [update_self]
    omega

theorem tolcUpdate : Option.Rel (Alike id i j) (s.tolcUpdate i) (f.tolcUpdate j) := by
  simp only [Fts.tolcUpdate, h.nr]
  split_ifs
  · refine .some { h.setTemp (fun p hp => ?_) fun p hp => ?_ with index := ?_, index_le := ?_ }
    · simp only [if_pos hp, h.constO p hp]
    · simp only [if_pos hp, h.constA p hp]
    · simp
    · simp
  · exact .none

theorem staticNextVersion (g : Grant) : Option.Rel (fun r r' => r.1 = r'.1 ∧ Alike id i j r.2 r'.2)
      (s.staticNextVersion i g) (f.staticNextVersion j g) := by
  simp only [Fts.staticNextVersion, releaseTask, if_pos h.lt, if_pos h.lt', map_some, h.bitpos,
    h.tech, h.currPos, h.mem]
  split_ifs
  · exact .some ⟨rfl, h.advance.launch _ g⟩
  · exact .none

theorem dynamicNextVersion (g : Grant) : Option.Rel (fun r r' => r.1 = r'.1 ∧ Alike id i j r.2 r'.2)
      (s.dynamicNextVersion i id g) (f.dynamicNextVersion j id g) := by
  simp only [Fts.dynamicNextVersion, releaseTask, if_pos h.lt, if_pos h.lt', map_some, h.index,
    h.o_eq, h.tech]
  split_ifs
  · exact .some ⟨rfl, h.launch _ g⟩
  · exact .some ⟨rfl, (h.launch _ g).decA⟩
  · exact .none

theorem nextVersion (caller : Caller) (g : Grant) :
    Option.Rel (fun r r' => r.1 = r'.1 ∧ Alike id i j r.2 r'.2)
      (s.nextVersion caller id g) (f.nextVersion caller id g) := by
  have hn : Alike id i j (s.noteEntry caller i) (f.noteEntry caller j) := h.note _ _
  simp only [Fts.nextVersion, h.found, h.found', if_pos h.lt, if_pos h.lt', hn.tech]
  cases (f.noteEntry caller j).list.tech j with
  | none => exact .some ⟨rfl, hn⟩
  | sre | sdr => exact hn.staticNextVersion g
  | dre | ddr => exact hn.dynamicNextVersion g

theorem tolerateOrRecover (g : Grant) : Option.Rel (fun r r' => r.1 = r'.1 ∧ Alike id i j r.2 r'.2)
      (s.tolerateOrRecover i id g) (f.tolerateOrRecover j id g) := by
  simp only [Fts.tolerateOrRecover, releaseTask, if_pos h.lt, if_pos h.lt', map_some, h.index,
    h.o_eq]
  split_ifs
  · exact .some ⟨rfl, h.decO⟩
  · exact .some ⟨rfl, h.launch _ g⟩
  · exact .none

theorem reaction (fs : FaultStatus) (g : Grant) :
    Option.Rel (fun r r' => r.1 = r'.1 ∧ Alike id i j r.2 r'.2)
      (s.reaction i id fs g) (f.reaction j id fs g) := by
  cases fs with
  | noFault => exact .some ⟨rfl, h⟩
  | fault =>
    simp only [Fts.reaction, releaseTask, if_pos h.lt, if_pos h.lt', h.tech]
    cases f.list.tech j with
    | none | sre => exact .some ⟨rfl, h⟩
    | sdr => exact .some ⟨rfl, h.launch _ g⟩
    | dre | ddr => exact h.tolerateOrRecover g

theorem replenish : Option.Rel (Alike id i j) (s.replenish i) (f.replenish j) := by
  have hat := h.tempA _ le_rfl
  simp only [Fts.replenish, h.tech, h.index, h.a_eq, h.nr, hat]
  split_ifs with h1 h2 h3 h4
  · exact h.tolcUpdate
  · refine .some ?_
    have hne : f.nrPartitions j ≠ f.partitionIndex j := fun e => h4 ⟨e, by rw [e]; exact h3⟩
    have := h.nextPartition hne (2 ^ 16)
    rw [h.index] at this
    exact this
  · exact .some h
  · exact .none
  · exact .some h

theorem reply (u : Use) :
    Option.Rel (fun r r' => r.1 = r'.1 ∧ Alike id i j r.2 r'.2) (s.reply id u) (f.reply id u) := by
  cases u with
  | period =>
    simp only [Fts.reply, periodBegin, h.found, h.found', if_pos h.lt, if_pos h.lt']
    exact rel_map h.deleteVersions.replenish fun _ _ hr => ⟨rfl, hr⟩
  | compensate g =>
    simp only [Fts.reply, ftsCompensate, map_map]
    exact rel_map (h.nextVersion .release g) fun x y hr =>
      ⟨congrArg Reply.version hr.1, hr.2.note _ _⟩
  | report fs g =>
    simp only [Fts.reply, faultDetectionRoutine, h.found, h.found', getD_some, map_map]
    refine rel_map (h.reaction fs g) fun x y hr => ⟨?_, hr.2.note _ _⟩
    simp [Fts.note, hr.1]
  | changeTech tech =>
    simp only [Fts.reply, ftsChangeTech, h.found, h.found', if_pos h.lt, if_pos h.lt']
    exact .some ⟨rfl, h.changeTech tech⟩

end

end Alike

/-! ## Registration -/

/-- The slots start from the same partitions and counters. -/
structure SameStart (s : Fts) (i : ℕ) (f : Fts) (j : ℕ) : Prop where
  nr : s.nrPartitions i = f.nrPartitions j
  index : s.partitionIndex i = f.partitionIndex j
  constO : ∀ p, p ≤ f.nrPartitions j →
    (s.tolCounterConst i).tolCounterO p = (f.tolCounterConst j).tolCounterO p
  constA : ∀ p, p ≤ f.nrPartitions j →
    (s.tolCounterConst i).tolCounterA p = (f.tolCounterConst j).tolCounterA p
  tempO : ∀ p, p ≤ f.nrPartitions j →
    (s.tolCounterTemp i).tolCounterO p = (f.tolCounterTemp j).tolCounterO p
  tempA : ∀ p, p ≤ f.nrPartitions j →
    (s.tolCounterTemp i).tolCounterA p = (f.tolCounterTemp j).tolCounterA p

/-- What a registration reads of slot `i`, and does not set, is as at the start. -/
def Untouched (s : Fts) (i : ℕ) (tech : FtsTech) (nr : ℕ) : Prop :=
  if tech.dynamic then
    ∀ p, p ≤ nr → (s.tolCounterConst i).tolCounterO p = 0 ∧ (s.tolCounterConst i).tolCounterA p = 0
  else
    s.nrPartitions i = 0 ∧ s.partitionIndex i = 0 ∧
      ((s.tolCounterConst i).tolCounterO 0 = 0 ∧ (s.tolCounterConst i).tolCounterA 0 = 0) ∧
      (s.tolCounterTemp i).tolCounterO 0 = 0 ∧ (s.tolCounterTemp i).tolCounterA 0 = 0

section Register

variable {s s₁ : Fts} {r : Request} {mem₀ : Mem} (tasks₀ : Objects Task)

/-- Pattern, cursor and technique of a new registration come from the request. -/
theorem alike_of_sameStart {f f1 : Fts} (hs : s.TableOk) (hf : f.TableOk)
    (hr : s.ftsRtemsTaskRegister r = some (1, s₁)) (hr' : f.ftsRtemsTaskRegister r = some (1, f1))
    (hmem : s₁.mem = f1.mem) (hle : f1.partitionIndex f.list.taskListIndex ≤
      f1.nrPartitions f.list.taskListIndex)
    (h : SameStart s₁ s.list.taskListIndex f1 f.list.taskListIndex) :
    Alike r.id s.list.taskListIndex f.list.taskListIndex s₁ f1 := by
  have hok := (step_cases (by rw [step, hr]; rfl)).tableOk hs
  have hok' := (step_cases (by rw [step, hr']; rfl)).tableOk hf
  obtain ⟨⟨hi, -, -⟩, mem, s2, -, hc, rfl⟩ := ftsRtemsTaskRegister_eq_some.mp hr
  obtain ⟨⟨hi', -, -⟩, mem', f2, -, hc', rfl⟩ := ftsRtemsTaskRegister_eq_some.mp hr'
  have hl := setCounters_list hc
  have hl' := setCounters_list hc'
  have hfound := hok.taskInList (i := s.list.taskListIndex) (by simp [attach, note, hl, setMem, enter])
  have hfound' := hok'.taskInList (i := f.list.taskListIndex)
    (by simp [attach, note, hl', setMem, enter])
  constructor
  case found => simpa [attach, note, hl, setMem, enter] using hfound
  case found' => simpa [attach, note, hl', setMem, enter] using hfound'
  case lt => exact hi
  case lt' => exact hi'
  case mem => exact hmem
  case nr => exact h.nr
  case index => exact h.index
  case index_le => exact hle
  case constO => exact h.constO
  case constA => exact h.constA
  case tempO => exact h.tempO
  case tempA => exact h.tempA
  all_goals simp [attach, note, hl, hl', setMem, enter]

theorem added_eq_iff {c0 d c : TolCounter} (h : Added c0 d c) (hc0 : Bounded c0) (hd : Bounded d)
    (p : ℕ) :
    (c.tolCounterO p = d.tolCounterO p ↔ c0.tolCounterO p = 0) ∧
      (c.tolCounterA p = d.tolCounterA p ↔ c0.tolCounterA p = 0) := by
  have ho := h.o p
  have ha := h.a p
  obtain ⟨h1, h2⟩ := hc0 p
  obtain ⟨h3, h4⟩ := hd p
  constructor <;> constructor <;> intro he <;> omega

theorem register_fresh (hs : s.Reachable) (hr : s.ftsRtemsTaskRegister r = some (1, s₁))
    (hmem : ∀ a, ¬ (r.patternS.patternStart ≤ a ∧ a ≤ r.patternS.patternEnd) → mem₀ a = s.mem a) :
    ∃ f1, (boot mem₀ tasks₀).ftsRtemsTaskRegister r = some (1, f1) ∧ s₁.mem = f1.mem ∧
      f1.partitionIndex 0 = 0 ∧
      (SameStart s₁ s.list.taskListIndex f1 0 ↔
        s.Untouched s.list.taskListIndex r.tech (f1.nrPartitions 0)) := by
  obtain ⟨⟨-, -, hmk⟩, mem, s2, hp, hc, rfl⟩ := ftsRtemsTaskRegister_eq_some.mp hr
  have hp0 := createPattern_congr hp hmem
  have hacc : (boot mem₀ tasks₀).list.taskListIndex < pTasks ∧
      (boot mem₀ tasks₀).taskInList r.id = none ∧ r.m ≤ r.k := ⟨Nat.zero_lt_succ 9, rfl, hmk⟩
  have htech : ((((boot mem₀ tasks₀).enter 0 r).setMem mem).list.tech 0) = r.tech := by
    simp [setMem, enter]
  rcases setCounters_eq_some.mp hc with ⟨ht, rfl⟩ | ⟨ht, nr, c, hnr, hl, rfl⟩
  · have ht : r.tech.dynamic = false := by simpa [setMem, enter] using ht
    have hc0 := (setCounters_eq_some (p := r.patternS)).mpr (.inl ⟨htech ▸ ht, rfl⟩)
    refine ⟨_, ftsRtemsTaskRegister_eq_some.mpr ⟨hacc, mem, _, hp0, hc0, rfl⟩, rfl, rfl, ?_⟩
    simp only [Untouched, ht, Bool.false_eq_true, if_false]
    constructor
    · rintro ⟨h1, h2, h3, h4, h5, h6⟩
      exact ⟨h1, h2, ⟨h3 0 le_rfl, h4 0 le_rfl⟩, h5 0 le_rfl, h6 0 le_rfl⟩
    · rintro ⟨h1, h2, ⟨h3, h4⟩, h5, h6⟩
      refine ⟨h1, h2, fun p hp => ?_, fun p hp => ?_, fun p hp => ?_, fun p hp => ?_⟩
      all_goals
        obtain rfl : p = 0 := Nat.le_zero.mp hp
        assumption
  · have ht : r.tech.dynamic = true := by simpa [setMem, enter] using ht
    have hb := hs.countersOk s.list.taskListIndex
    obtain ⟨d, hd, hadd⟩ := tolCounterLoop_add (Added.zero hb) hl
    have hc0 := (setCounters_eq_some).mpr
      (.inr ⟨htech ▸ ht, nr, d, hnr, hd, rfl⟩)
    refine ⟨_, ftsRtemsTaskRegister_eq_some.mpr ⟨hacc, mem, _, hp0, hc0, rfl⟩, rfl,
      by simp [attach, note, withCounters], ?_⟩
    have key := added_eq_iff hadd hb (Bounded.zero.loop hd)
    simp only [Untouched, ht, if_true]
    constructor
    · rintro ⟨-, -, h3, h4, -, -⟩ p hp
      have h3 := h3 p hp
      have h4 := h4 p hp
      simp only [attach, note, withCounters, update_self] at h3 h4
      exact ⟨(key p).1.mp h3, (key p).2.mp h4⟩
    · simp only [attach, note, withCounters, update_self]
      intro h
      have hO : ∀ p, p ≤ nr → c.tolCounterO p = d.tolCounterO p := fun p hp =>
        (key p).1.mpr (h p hp).1
      have hA : ∀ p, p ≤ nr → c.tolCounterA p = d.tolCounterA p := fun p hp =>
        (key p).2.mpr (h p hp).2
      constructor <;> simp only [update_self]
      · exact hO
      · exact hA
      · intro p hp; rw [if_pos hp, if_pos hp, hO p hp]
      · intro p hp; rw [if_pos hp, if_pos hp, hA p hp]

/-- **A registration behaves as in a started system** iff its slot is untouched. -/
theorem register_like_fresh_iff (hs : s.Reachable) (hr : s.ftsRtemsTaskRegister r = some (1, s₁))
    (hmem : ∀ a, ¬ (r.patternS.patternStart ≤ a ∧ a ≤ r.patternS.patternEnd) → mem₀ a = s.mem a) :
    ∃ f₁, (boot mem₀ tasks₀).ftsRtemsTaskRegister r = some (1, f₁) ∧
      (((∀ us, outputs (reply r.id) s₁ us = outputs (reply r.id) f₁ us) ∧
          SameStart s₁ s.list.taskListIndex f₁ 0) ↔
        s.Untouched s.list.taskListIndex r.tech (f₁.nrPartitions 0)) := by
  obtain ⟨f₁, hf₁, hm, hx, hiff⟩ := register_fresh tasks₀ hs hr hmem
  refine ⟨f₁, hf₁, ⟨fun h => hiff.mp h.2, fun h => ?_⟩⟩
  have hstart := hiff.mpr h
  have hboot : (boot mem₀ tasks₀).TableOk :=
    ⟨Nat.zero_le _, fun i j hi => absurd hi (Nat.not_lt_zero i)⟩
  have halike := alike_of_sameStart hs.tableOk hboot hr hf₁ hm
    (show f₁.partitionIndex 0 ≤ f₁.nrPartitions 0 by omega) hstart
  exact ⟨fun us => outputs_eq (fun _ _ u ha => ha.reply u) halike us, hstart⟩

end Register

theorem register_like_fresh_first : ∃ s₁ f₁ : Fts,
    (boot (fun _ => 0) (initial 1)).ftsRtemsTaskRegister (.oneOfTwo 1 0 .dre) = some (1, s₁) ∧
    (boot (fun _ => 0) (initial 2)).ftsRtemsTaskRegister (.oneOfTwo 1 0 .dre) = some (1, f₁) ∧
    (∀ us, outputs (reply 1) s₁ us = outputs (reply 1) f₁ us) ∧
    SameStart s₁ 0 f₁ 0 := by
  obtain ⟨r, hr, hr1⟩ := map_eq_some_iff.mp
    (show ((boot (fun _ => 0) (initial 1)).ftsRtemsTaskRegister
      (.oneOfTwo 1 0 .dre)).map Prod.fst = some 1 by rfl)
  have hacc : (boot (fun _ => 0) (initial 1)).ftsRtemsTaskRegister
      (.oneOfTwo 1 0 .dre) = some (1, r.2) := by rw [hr, ← hr1]
  obtain ⟨f₁, hf₁, hiff⟩ := register_like_fresh_iff (initial 2) ⟨_, _, [], rfl⟩ hacc
    (fun a _ => (rfl : (fun _ => 0 : Mem) a = 0))
  exact ⟨r.2, f₁, hacc, hf₁, hiff.mpr fun p _ => ⟨rfl, rfl⟩⟩

/-- A task in a used slot gets the counters of both, and tolerates one fault more. -/
theorem register_reused_differs : ∃ s s₁ f₁ : Fts, s.Reachable ∧
    s.ftsRtemsTaskRegister (.oneOfTwo 2 0 .dre) = some (1, s₁) ∧
    (boot s.mem (initial 4)).ftsRtemsTaskRegister (.oneOfTwo 2 0 .dre) = some (1, f₁) ∧
    outputs (reply 2) s₁
        [.compensate .granted, .report .fault .granted, .period, .compensate .granted] =
      some [.version .detection, .reaction false, .silent, .version .detection] ∧
    outputs (reply 2) f₁
        [.compensate .granted, .report .fault .granted, .period, .compensate .granted] =
      some [.version .detection, .reaction false, .silent, .version .correction] := by
  obtain ⟨s, hr, hs⟩ := map_eq_some_iff.mp (show (run step (boot (fun _ => 0) (initial 4))
      [.register (.oneOfTwo 1 0 .dre), .off 1]).map (fun s =>
        ((s.ftsRtemsTaskRegister (.oneOfTwo 2 0 .dre)).map fun r => (r.1, outputs (reply 2) r.2
            [.compensate .granted, .report .fault .granted, .period, .compensate .granted]),
        ((boot s.mem (initial 4)).ftsRtemsTaskRegister (.oneOfTwo 2 0 .dre)).map
          fun r => (r.1, outputs (reply 2) r.2
            [.compensate .granted, .report .fault .granted, .period, .compensate .granted]))) =
      some (some (1, some [.version .detection, .reaction false, .silent, .version .detection]),
        some (1, some [.version .detection, .reaction false, .silent, .version .correction]))
      by rfl)
  simp only [Prod.mk.injEq, map_eq_some_iff, Prod.exists] at hs
  obtain ⟨⟨n, s₁, h₁, rfl, ho₁⟩, n', f₁, hf₁, rfl, ho'⟩ := hs
  exact ⟨s, s₁, f₁, ⟨_, _, _, hr⟩, h₁, hf₁, ho₁, ho'⟩

end Fts

end Rtems
