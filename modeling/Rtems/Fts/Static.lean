import Rtems.Fts.Jobs

/-!
# Walking a pattern

`static_next_version_t` takes the bit under its cursor and moves the cursor, back to the start after
the last bit.

* `Cursor`, **`Cursor.next`**: the cursor as a position of the pattern, modulo its length;
* `Walking`, `Walk`: a registered task stands at a position of a periodic word;
* **`static_cyclic`**: the calls of `static_next_version_t` read the pattern cyclically;
* **`Step.walk`**: the versions that `fts_compensate_t` returns follow the word.
-/

namespace Rtems

open WeaklyHard Nat

def PatternSpecs.length (b : PatternSpecs) : ℕ :=
  8 * (b.patternEnd - b.patternStart) + b.maxBitpos + 1

/-- The pattern is in a buffer and has exactly `k` bits. -/
structure PatternSpecs.Exact (b : PatternSpecs) (k : ℕ) : Prop where
  le : b.patternStart ≤ b.patternEnd
  max : b.maxBitpos ≤ 7
  length : b.length = k

namespace Slot

/-- The number of bits of the pattern of a slot. -/
def length (x : Slot) : ℕ := 8 * (x.patternEnd - x.patternStart) + x.maxBitpos + 1

/-- The cursor is at bit `q` of the pattern. -/
structure Cursor (x : Slot) (q : ℕ) : Prop where
  start : x.patternStart ≤ x.currPos
  stop : x.currPos ≤ x.patternEnd
  bit : x.bitpos ≤ 7
  pos : 8 * (x.currPos - x.patternStart) + x.bitpos = q

def next (x : Slot) : Slot :=
  if x.bitpos < (if x.patternEnd = x.currPos then x.maxBitpos else 7) then
    { x with bitpos := x.bitpos + 1 }
  else
    { x with
      bitpos := 0
      currPos := if x.patternEnd = x.currPos then x.patternStart else x.currPos + 1 }

/-- The data that a static technique works with. -/
def walkData (x : Slot) : FtsTech × ℕ × ℕ × ℕ × ℕ × ℕ :=
  (x.tech, x.patternStart, x.patternEnd, x.maxBitpos, x.currPos, x.bitpos)

/-- The slot has technique `tech` and is at bit `q` of the pattern in the buffer `b`. -/
structure Walking (x : Slot) (tech : FtsTech) (b : PatternSpecs) (q : ℕ) : Prop where
  tech_eq : x.tech = tech
  start_eq : x.patternStart = b.patternStart
  end_eq : x.patternEnd = b.patternEnd
  max_eq : x.maxBitpos = b.maxBitpos
  cursor : x.Cursor q

section

variable {x y : Slot} {q : ℕ}

variable {tech : FtsTech} {b : PatternSpecs}

theorem Walking.of_cursor (h : x.Walking tech b q) (he : y.walkData.2 = x.walkData.2) :
    y.Walking y.tech b q := by
  simp only [walkData, Prod.mk.injEq] at he
  obtain ⟨e2, e3, e4, e5, e6⟩ := he
  obtain ⟨-, h2, h3, h4, h5, h6, h7, h8⟩ := h
  exact ⟨rfl, e2.trans h2, e3.trans h3, e4.trans h4, by rw [e2, e5]; exact h5,
    by rw [e5, e3]; exact h6, by rw [e6]; exact h7, by rw [e5, e2, e6]; exact h8⟩

theorem Walking.congr (h : x.Walking tech b q) (he : y.walkData = x.walkData) :
    y.Walking tech b q := by
  have ht : y.tech = tech := (congrArg Prod.fst he).trans h.tech_eq
  exact ht ▸ h.of_cursor (congrArg Prod.snd he)

@[simp] theorem next_tech (x : Slot) : x.next.tech = x.tech := by
  unfold next
  split_ifs <;> rfl

@[simp] theorem next_k (x : Slot) : x.next.k = x.k := by
  unfold next
  split_ifs <;> rfl

@[simp] theorem next_patternStart (x : Slot) : x.next.patternStart = x.patternStart := by
  unfold next
  split_ifs <;> rfl

@[simp] theorem next_patternEnd (x : Slot) : x.next.patternEnd = x.patternEnd := by
  unfold next
  split_ifs <;> rfl

@[simp] theorem next_maxBitpos (x : Slot) : x.next.maxBitpos = x.maxBitpos := by
  unfold next
  split_ifs <;> rfl

theorem Cursor.bitAt_eq (h : x.Cursor q) (mem : Mem) :
    bitAt (mem x.currPos) x.bitpos = memBit mem x.patternStart q := by
  obtain ⟨h1, -, h3, h4⟩ := h
  have hd : q / 8 = x.currPos - x.patternStart := by omega
  have hm : q % 8 = x.bitpos := by omega
  rw [memBit, hd, hm, Nat.add_sub_cancel' h1]

theorem Cursor.next (h : x.Cursor q) (hb : x.maxBitpos ≤ 7) (hq : q < x.length) :
    x.next.Cursor ((q + 1) % x.length) := by
  obtain ⟨h1, h2, h3, h4⟩ := h
  have hlen : x.length = 8 * (x.patternEnd - x.patternStart) + x.maxBitpos + 1 := rfl
  unfold Slot.next
  by_cases hl : x.patternEnd = x.currPos
  · rw [if_pos hl, if_pos hl]
    by_cases hlt : x.bitpos < x.maxBitpos
    · rw [if_pos hlt, mod_eq_of_lt (by omega)]
      exact ⟨h1, h2, show x.bitpos + 1 ≤ 7 by omega,
        show 8 * (x.currPos - x.patternStart) + (x.bitpos + 1) = q + 1 by omega⟩
    · have he : q + 1 = x.length := by omega
      rw [if_neg hlt, he, mod_self]
      exact ⟨le_refl x.patternStart, h1.trans h2, zero_le 7,
        show 8 * (x.patternStart - x.patternStart) + 0 = 0 by omega⟩
  · rw [if_neg hl, if_neg hl, mod_eq_of_lt (by omega)]
    by_cases hlt : x.bitpos < 7
    · rw [if_pos hlt]
      exact ⟨h1, h2, show x.bitpos + 1 ≤ 7 by omega,
        show 8 * (x.currPos - x.patternStart) + (x.bitpos + 1) = q + 1 by omega⟩
    · rw [if_neg hlt]
      exact ⟨show x.patternStart ≤ x.currPos + 1 by omega,
        show x.currPos + 1 ≤ x.patternEnd by omega, zero_le 7,
        show 8 * (x.currPos + 1 - x.patternStart) + 0 = q + 1 by omega⟩

theorem Walking.next (h : x.Walking tech b q) (hb : b.maxBitpos ≤ 7) (hq : q < b.length) :
    x.next.Walking tech b ((q + 1) % b.length) := by
  obtain ⟨h1, h2, h3, h4, hcur⟩ := h
  have hlen : x.length = b.length := by rw [Slot.length, h2, h3, h4, PatternSpecs.length]
  exact ⟨by simpa using h1, by simpa using h2, by simpa using h3, by simpa using h4,
    hlen ▸ hcur.next (h4 ▸ hb) (hlen ▸ hq)⟩

end

end Slot

namespace Fts

variable {s s' : Fts} {i : ℕ}

theorem advance_slot (s : Fts) (i : ℕ) : (s.advance i).slot i = (s.slot i).next := by
  by_cases hl : s.list.patternEnd i = s.list.currPos i
  · by_cases hb : s.list.bitpos i < s.list.maxBitpos i <;> simp [advance, Slot.next, slot, hl, hb]
  · by_cases hb : s.list.bitpos i < 7 <;> simp [advance, Slot.next, slot, hl, hb]

/-- The task `id` is at position `n` of the word `p`, whose period is in the buffer `b`. -/
structure Walk (s : Fts) (id : Id) (tech : FtsTech) (b : PatternSpecs) (p : ℕ → Bool) (n : ℕ) :
    Prop where
  slot : ∃ i, s.taskInList id = some i ∧ (s.slot i).Walking tech b (n % b.length)
  mem : ∀ x, x < b.length → memBit s.mem b.patternStart x = p x

/-- The call keeps the technique of `id` and the buffer `b`, and does not sign off the first task
`id`. -/
structure Steady (id : Id) (b : PatternSpecs) (s : Fts) (c : Call) : Prop where
  tech : ∀ t, c ≠ .changeTech id t
  off : ∀ x, c = .off x → s.taskInList id ≠ some 0
  buffer : ∀ r, c = .register r → ∀ a, b.patternStart ≤ a → a ≤ b.patternEnd →
    ¬ (r.patternS.patternStart ≤ a ∧ a ≤ r.patternS.patternEnd)

section Walk

variable {c : Call} {id : Id} {tech : FtsTech} {b : PatternSpecs} {p : ℕ → Bool} {n : ℕ}

theorem Step.memBit_eq (h : Step s c s') {start stop x : ℕ} (hse : start ≤ stop)
    (hx : x / 8 ≤ stop - start) (hbuf : ∀ r, c = .register r → ∀ a, start ≤ a → a ≤ stop →
      ¬ (r.patternS.patternStart ≤ a ∧ a ≤ r.patternS.patternEnd)) :
    memBit s'.mem start x = memBit s.mem start x := by
  unfold memBit
  rw [h.mem_apply fun r hr => hbuf r hr _ (by omega) (by omega)]

section

variable (hw : s.Walk id tech b p n)

include hw

theorem Walk.start_le : b.patternStart ≤ b.patternEnd := by
  obtain ⟨i, -, h⟩ := hw.slot
  rw [← h.start_eq, ← h.end_eq]
  exact h.cursor.start.trans h.cursor.stop

theorem Walk.signedOff (hs' : s'.TableOk) (hne : s.taskInList id ≠ some 0) {l : TaskIdList}
    (hl : offLoop s.list.taskListIndex 0 s.list = some l)
    (he : s' = { s with list := { l with taskListIndex := l.taskListIndex - 1 } }) :
    s'.Walk id tech b p n := by
  obtain ⟨i, hf, hslot⟩ := hw.slot
  obtain ⟨hi, hid⟩ := taskInList_eq_some hf
  obtain ⟨j, rfl⟩ : ∃ j, i = j + 1 := ⟨i - 1, by
    have : i ≠ 0 := fun e => hne (by rw [hf, e])
    omega⟩
  have hc : 0 ≤ j ∧ j < 0 + s.list.taskListIndex := by omega
  have hl := (offLoop_eq_some hl).2
  have hidx : s'.list.taskListIndex = s.list.taskListIndex - 1 := by rw [he, hl]
  have hf' : s'.taskInList id = some j := by
    have hj : s'.list.taskListId j = id := by rw [he, hl]; exact (if_pos hc).trans hid
    rw [← hj]
    exact hs'.taskInList (by omega)
  refine ⟨⟨j, hf', hslot.congr ?_⟩, by rw [he]; exact hw.mem⟩
  rw [he, hl]
  simp only [Slot.walkData, Prod.mk.injEq]
  exact ⟨if_pos hc, if_pos hc, if_pos hc, if_pos hc, if_pos hc, if_pos hc⟩

theorem Walk.of_ne (h : Step s c s') (hs : s.TableOk)
    (hb : b.maxBitpos ≤ 7) (hg : Steady id b s c) (hne : s.about c ≠ some id)
    (hoff : ∀ x, c ≠ .off x) : s'.Walk id tech b p n := by
  obtain ⟨i, hf, hslot⟩ := hw.slot
  obtain ⟨hi, hid⟩ := taskInList_eq_some hf
  refine ⟨⟨i, h.taskInList_of_some hs hoff hf, ?_⟩, fun x hx => ?_⟩
  · rw [h.slot_of_ne hi hoff (by rw [hid]; exact hne)]
    exact hslot
  · have hlen : b.length = 8 * (b.patternEnd - b.patternStart) + b.maxBitpos + 1 := rfl
    rw [h.memBit_eq hw.start_le (by omega) hg.buffer, hw.mem x hx]

theorem Walk.congr (hl : s'.list = s.list) (hm : s'.mem = s.mem) : s'.Walk id tech b p n := by
  obtain ⟨i, hf, hslot⟩ := hw.slot
  refine ⟨⟨i, ?_, hslot.congr ?_⟩, by rw [hm]; exact hw.mem⟩
  · rw [taskInList_congr (congrArg _ hl) (congrArg _ hl), hf]
  · simp only [Slot.walkData, Fts.slot, hl]

theorem Walk.advance (hf : s.taskInList id = some i)
    (hp : Function.Periodic p b.length) (hb : b.maxBitpos ≤ 7) :
    bitAt (s.mem (s.list.currPos i)) (s.list.bitpos i) = p n ∧
      (s.advance i).Walk id tech b p (n + 1) := by
  obtain ⟨j, hj, h⟩ := hw.slot
  rw [hf] at hj
  cases hj
  have hlt : n % b.length < b.length := mod_lt _ (succ_pos _)
  refine ⟨?_, ⟨i, ?_, ?_⟩, hw.mem⟩
  · have hbit := h.cursor.bitAt_eq s.mem
    rw [h.start_eq, hw.mem _ hlt, hp.map_mod_nat] at hbit
    exact hbit
  · obtain ⟨hids, hidx⟩ := advance_ids s i; rw [taskInList_congr hids hidx, hf]
  · rw [advance_slot, ← mod_add_mod]; exact h.next hb hlt

end

theorem Step.walk (h : Step s c s') (hs : s.TableOk) (hw : s.Walk id tech b p n)
    (hg : Steady id b s c) (ht : tech = .sre ∨ tech = .sdr) (hp : Function.Periodic p b.length)
    (hb : b.maxBitpos ≤ 7) :
    (s'.Walk id tech b p n ∧ (jobs id s'.log).map Job.version = (jobs id s.log).map Job.version) ∨
    (s'.Walk id tech b p (n + 1) ∧ (jobs id s'.log).map Job.version =
      staticVersion tech (p n) :: (jobs id s.log).map Job.version) := by
  obtain ⟨i, hf, hslot⟩ := hw.slot
  have htech : s.list.tech i = tech := hslot.tech_eq
  have hstatic : (s.list.tech i).dynamic = false := by
    rw [htech]
    rcases ht with rfl | rfl <;> rfl
  have hdyn : ∀ {x j}, some x = some id → s.taskInList x = some j →
      (s.list.tech j).dynamic ≠ true := by
    intro x j hx hj hd
    rw [Option.some.inj hx, hf] at hj
    cases hj
    rw [hstatic] at hd
    cases hd
  by_cases hoff : ∃ x, c = .off x
  · obtain ⟨x, rfl⟩ := hoff
    have hs' := h.tableOk hs
    cases h with
    | idle => exact .inl ⟨hw, rfl⟩
    | signedOff h hl => exact .inl ⟨hw.signedOff hs' (hg.off x rfl) hl rfl, rfl⟩
  by_cases hne : s.about c ≠ some id
  · exact .inl ⟨hw.of_ne h hs hb hg hne fun x e => hoff ⟨x, e⟩, by rw [(h.jobs_of_ne hne).1]⟩
  -- the calls for `id` itself; a dynamic technique is excluded
  rw [not_not] at hne
  cases h with
  | idle => exact .inl ⟨hw, rfl⟩
  | registered hi hn hmk hpat hc => rw [Option.some.inj hne, hf] at hn; cases hn
  | signedOff h hl => exact absurd ⟨_, rfl⟩ hoff
  | techChanged h hi => exact absurd (by rw [Option.some.inj hne]) (hg.tech _)
  | compensatedAbsent h => rw [Option.some.inj hne, hf] at h; cases h
  | compensatedNone h hi hnone =>
    rw [Option.some.inj hne, hf] at h
    cases h
    rw [htech] at hnone
    rcases ht with rfl | rfl <;> cases hnone
  | @compensatedStatic caller x g j v h hi ht' hbit hv =>
    obtain rfl : x = id := Option.some.inj hne
    rw [hf] at h
    cases h
    have hentry : (s.noteEntry caller i).Walk x tech b p n := hw.congr rfl rfl
    obtain ⟨hpn, hadv⟩ := hentry.advance hf hp hb
    have hv : v = staticVersion tech (p n) := by rw [hv, htech, ← hpn]; rfl
    exact .inr ⟨hadv.congr rfl rfl, by simp [hv]⟩
  | compensatedTolerant h hi hd hx ho | compensatedSafe h hi hd hx ho hv =>
    exact absurd hd (hdyn hne h)
  | @reportedQuiet x fs g t hx hd hr hq | @reportedRecovered x g t j hx hd hr h hi hrec =>
    simp only [about, hx, Option.some.injEq] at hne
    subst hne
    exact .inl ⟨hw.congr rfl rfl, by simp [map_version_jobs_report]⟩
  | @reportedTolerated x g t j hx hd hr h hi hd' hpi ho =>
    simp only [about, hx] at hne; exact absurd hd' (hdyn hne h)
  | begun h hi hk => exact .inl ⟨hw.congr (by simp) (by simp), by simp⟩
  | begunReplenished h hi hd ha hn hu | begunNext h hi hd hx ha hn => exact absurd hd (hdyn hne h)
  | _ => cases hne

/-- Every fault reported for a task under `SDR` releases a correction. -/
theorem Step.recovered (h : Step s c s') (hw : s.Walk id .sdr b p n) {r : Bool}
    (hr : .report id .fault r ∈ history id s'.log) :
    .report id .fault r ∈ history id s.log ∨ r = true := by
  rcases h.report_cases hr with hr | ⟨x, g, t, -, -, -, hfalse⟩
  · exact .inl hr
  · refine .inr ?_
    by_contra hne
    obtain ⟨i, hf, hslot⟩ := hw.slot
    have htech : s.list.tech i = .sdr := hslot.tech_eq
    rcases hfalse (by simpa using hne) with e | ⟨j, hj, hq⟩
    · cases e
    · rw [hf, Option.getD_some] at hj
      subst hj
      rw [htech] at hq
      rcases hq with hq | hq | hq <;> cases hq

/-- The versions follow the word `p`, and under `SDR` each fault is corrected. -/
structure StaticOk (s : Fts) (id : Id) (tech : FtsTech) (b : PatternSpecs) (p : ℕ → Bool) :
    Prop where
  table : s.TableOk
  versions : ∃ n w, s.Walk id tech b p n ∧ Stretched p n w ∧
    (jobs id s.log).map Job.version = w.map (staticVersion tech)
  reports : tech = .sdr → ∀ r, .report id .fault r ∈ history id s.log → r = true

theorem Step.staticOk (h : Step s c s') (hs : s.StaticOk id tech b p) (hg : Steady id b s c)
    (ht : tech = .sre ∨ tech = .sdr) (hp : Function.Periodic p b.length) (hb : b.maxBitpos ≤ 7) :
    s'.StaticOk id tech b p := by
  obtain ⟨n, w, hw, hst, hv⟩ := hs.versions
  refine ⟨h.tableOk hs.table, ?_, fun he r hr => ?_⟩
  · rcases h.walk hs.table hw hg ht hp hb with ⟨hw', hj⟩ | ⟨hw', hj⟩
    · exact ⟨n, w, hw', hst, hj.trans hv⟩
    · exact ⟨n + 1, p n :: w, hw', hst.follow fun hb => hb, by rw [hj, hv, List.map_cons]⟩
  · subst he; exact (h.recovered hw hr).elim (hs.reports rfl r) fun hr => hr

theorem register_walking {r : Request} {s₁ : Fts} (hr : s.ftsRtemsTaskRegister r = some (1, s₁))
    (hle : r.patternS.patternStart ≤ r.patternS.patternEnd) :
    (s₁.slot s.list.taskListIndex).Walking r.tech r.patternS 0 := by
  obtain ⟨-, mem, s2, -, hc, rfl⟩ := ftsRtemsTaskRegister_eq_some.mp hr
  have hl := setCounters_list hc
  have hstart : (((s2.attach s.list.taskListIndex r).note (.registered r.id)).slot
      s.list.taskListIndex).walkData = (r.tech, r.patternS.patternStart, r.patternS.patternEnd,
        r.patternS.maxBitpos, r.patternS.patternStart, 0) := by
    simp [Slot.walkData, slot, attach, note, hl, setMem, enter]
  simp only [Slot.walkData, Prod.mk.injEq] at hstart
  obtain ⟨h1, h2, h3, h4, h5, h6⟩ := hstart
  refine ⟨h1, h2, h3, h4, by rw [h2, h5], by rw [h5, h3]; exact hle, by rw [h6]; decide, ?_⟩
  rw [h5, h2, h6, Nat.sub_self]

section

variable {r : Request} {s₁ : Fts} {k : ℕ} (hs : s.TableOk)
  (hr : s.ftsRtemsTaskRegister r = some (1, s₁)) (hb : r.patternS.Exact k)

include hs hr hb

theorem register_walk :
    s₁.Walk r.id r.tech r.patternS (repeating (memBit s₁.mem r.patternS.patternStart) k) 0 := by
  obtain ⟨-, hf⟩ := register_taskInList hs hr
  refine ⟨⟨s.list.taskListIndex, hf, ?_⟩, fun x hx => ?_⟩
  · exact register_walking hr hb.le
  · rw [repeating_of_lt _ (by rw [← hb.length]; exact hx)]

theorem register_staticOk :
    s₁.StaticOk r.id r.tech r.patternS (repeating (memBit s₁.mem r.patternS.patternStart) k) := by
  have hwalk := register_walk hs hr hb
  obtain ⟨hs1, -⟩ := register_taskInList hs hr
  obtain ⟨-, mem, s2, -, hc, rfl⟩ := ftsRtemsTaskRegister_eq_some.mp hr
  refine ⟨hs1, ⟨0, [], hwalk, .nil 0, ?_⟩, fun _ r' hr' => ?_⟩
  · simp
  · simp at hr'

end

/-! ## Calls of `static_next_version_t` -/

/-- `n` calls of `static_next_version_t` for slot `i`, whose cursor and pattern are kept. -/
inductive StaticCalls (i : ℕ) (b : PatternSpecs) (s₁ : Fts) : ℕ → Fts → Prop
  | registered : StaticCalls i b s₁ 0 s₁
  | call {n : ℕ} {s s' : Fts} {g : Grant} {v : FtsVersion} : StaticCalls i b s₁ n s →
      s.staticNextVersion i g = some (v, s') → StaticCalls i b s₁ (n + 1) s'
  | between {n : ℕ} {s s' : Fts} : StaticCalls i b s₁ n s →
      (s'.slot i).walkData.2 = (s.slot i).walkData.2 →
      (∀ x, x < b.length → memBit s'.mem b.patternStart x = memBit s.mem b.patternStart x) →
      StaticCalls i b s₁ n s'

theorem StaticCalls.walking {s₁ : Fts} (h : StaticCalls i b s₁ n s) (hmax : b.maxBitpos ≤ 7)
    (h1 : (s₁.slot i).Walking tech b 0) : (s.slot i).Walking (s.list.tech i) b (n % b.length) ∧
      ∀ x, x < b.length → memBit s.mem b.patternStart x = memBit s₁.mem b.patternStart x := by
  induction h with
  | registered => exact ⟨h1.of_cursor rfl, fun _ _ => rfl⟩
  | @call n s s' g v h hc ih =>
    simp only [staticNextVersion, releaseTask, Option.ite_none_right_eq_some,
      Option.map_eq_some_iff, Prod.mk.injEq] at hc
    obtain ⟨-, _, ⟨-, he⟩, -, rfl⟩ := hc
    cases he
    have hnext := ih.1.next hmax (mod_lt _ (succ_pos _))
    rw [mod_add_mod, ← advance_slot] at hnext
    exact ⟨hnext.of_cursor rfl, ih.2⟩
  | between h hw hm ih => exact ⟨ih.1.of_cursor hw, fun x hx => (hm x hx).trans (ih.2 x hx)⟩

/-- **The pattern is read cyclically**: after `n` calls bit `n % L` is read. -/
theorem static_cyclic {s₀ s₁ : Fts} {r : Request} (hr : s₀.ftsRtemsTaskRegister r = some (1, s₁))
    (hse : r.patternS.patternStart ≤ r.patternS.patternEnd) (hmax : r.patternS.maxBitpos ≤ 7)
    (hi : i = s₀.list.taskListIndex) (h : StaticCalls i r.patternS s₁ n s) (g : Grant) :
    (r.patternS.patternStart ≤ s.list.currPos i ∧ s.list.currPos i ≤ r.patternS.patternEnd ∧
      s.list.bitpos i ≤ 7 ∧
      (s.list.currPos i = r.patternS.patternEnd → s.list.bitpos i ≤ r.patternS.maxBitpos)) ∧
    bitAt (s.mem (s.list.currPos i)) (s.list.bitpos i) =
      memBit s₁.mem r.patternS.patternStart (n % r.patternS.length) ∧
    ∃ v s', s.staticNextVersion i g = some (v, s') ∧ (v = .basic ↔
      memBit s₁.mem r.patternS.patternStart (n % r.patternS.length) = false) := by
  obtain ⟨hw, hmem⟩ := h.walking hmax (hi ▸ register_walking hr hse)
  have hlt : n % r.patternS.length < r.patternS.length := mod_lt _ (succ_pos _)
  have hbit := hw.cursor.bitAt_eq s.mem
  have hpos := hw.cursor.pos
  rw [hw.start_eq] at hbit hpos
  rw [hmem _ hlt] at hbit
  unfold PatternSpecs.length at hlt hpos
  refine ⟨⟨hw.start_eq ▸ hw.cursor.start, hw.end_eq ▸ hw.cursor.stop, hw.cursor.bit, fun he => ?_⟩,
    hbit, ?_⟩
  · change 8 * (s.list.currPos i - _) + s.list.bitpos i = _ at hpos; rw [he] at hpos; omega
  · have hv : ∀ t b, staticVersion t b = .basic ↔ b = false := by
      intro t b; cases b <;> cases t <;> decide
    have h32 : s.list.bitpos i < 32 := hw.cursor.bit.trans_lt (by decide)
    have hlt : i < pTasks := hi ▸ (ftsRtemsTaskRegister_eq_some.mp hr).1.1
    exact ⟨_, _, (if_pos h32).trans (congrArg (Option.map _) (if_pos hlt)), by rw [hv, ← hbit]; rfl⟩

theorem static_cyclic_oneOfTwo : ∃ s₁ v s',
    (boot (fun _ => 0) (Objects.initial 0)).ftsRtemsTaskRegister (.oneOfTwo 1 0 .sre) =
      some (1, s₁) ∧ s₁.staticNextVersion 0 .granted = some (v, s') ∧
      (v = .basic ↔ memBit s₁.mem 0 0 = false) := by
  obtain ⟨s₁, hr⟩ : ∃ s₁, (boot (fun _ => 0) (Objects.initial 0)).ftsRtemsTaskRegister
    (.oneOfTwo 1 0 .sre) = some (1, s₁) := ⟨_, rfl⟩
  obtain ⟨-, -, v, s', h⟩ := static_cyclic hr (le_refl 0) (by decide) rfl .registered .granted
  exact ⟨s₁, v, s', hr, h⟩

theorem StaticOk.windows {s : Fts} {id : Id} {tech : FtsTech} {b : PatternSpecs} {p : ℕ → Bool}
    {m k : ℕ} (hs : s.StaticOk id tech b p) (hmk : m ≤ k)
    (hz : ∀ a, zeros p a (a + k) ≤ k - m) {window : List FtsVersion}
    (hw : window <:+: (jobs id s.log).map Job.version) (hl : window.length = k) :
    m ≤ window.count (staticVersion tech true) := by
  obtain ⟨n, w, -, hst, hv⟩ := hs.versions
  rw [hv] at hw
  obtain ⟨l, hlw, rfl⟩ : ∃ l, l <:+: w ∧ l.map (staticVersion tech) = window := by
    obtain ⟨l1, l2, he⟩ := hw
    obtain ⟨w1, w2, rfl, h1, -⟩ := List.map_eq_append_iff.mp he.symm
    obtain ⟨u1, u2, rfl, -, h2⟩ := List.map_eq_append_iff.mp h1
    exact ⟨u2, ⟨u1, w2, rfl⟩, h2⟩
  calc m ≤ l.count true := hst.count_true_infix hmk hz hlw (by rw [← hl, List.length_map])
    _ ≤ _ := List.count_le_count_map ..

theorem register_zeros {s s₁ : Fts} {r : Request} {k : ℕ}
    (hr : s.ftsRtemsTaskRegister r = some (1, s₁)) (hb : r.patternS.Exact k)
    (hm : 0 < r.m.toNat % 2 ^ 8) (hmk : r.m.toNat % 2 ^ 8 ≤ k) (hk : r.k.toNat % 2 ^ 8 = k) (a : ℕ) :
    zeros (repeating (memBit s₁.mem r.patternS.patternStart) k) a (a + k) ≤
      k - r.m.toNat % 2 ^ 8 := by
  obtain ⟨-, mem, s2, hp, hc, rfl⟩ := ftsRtemsTaskRegister_eq_some.mp hr
  have hmem : s2.mem = mem := by
    rcases setCounters_eq_some.mp hc with ⟨-, rfl⟩ | ⟨-, nr, c, -, -, rfl⟩ <;> rfl
  rw [hk] at hp
  rw [zeros_periodic (repeating_periodic _ k), zeros_congr fun x _ hx => repeating_of_lt _ hx,
    show ((s2.attach _ r).note (.registered r.id)).mem = mem from hmem]
  exact (createPattern_bits hp hm hmk (by omega) hb.le hb.max hb.length).1

end Walk

end Fts

end Rtems
