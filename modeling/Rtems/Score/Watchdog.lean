import Rtems.Lib.Run
import Rtems.Lib.SearchTree

/-!
# The watchdogs

The watchdogs of one `Watchdog_Header`, as `watchdoginsert.c`, `watchdogremove.c` and
`watchdogtick.c` keep them: a tree sorted by the time of expiration and a pointer to its first node.
The service routines run with the lock released, so what they do, and what anyone else does
meanwhile, are actions between two passes of the loop of `_Watchdog_Do_tickle`. The actions are
recorded in `log`, newest first.

* `pending`: the watchdogs that are set according to the log, in the order of insertion;
* `Ok`: the tree is `pending`, sorted, and `first` its leftmost node;
* **`tickle_exact`**: what a tickle fires, in which order, and that it ends.
-/

namespace Rtems

open Function SearchTree PartialRun List

/-- The address of a `Watchdog_Control`. -/
abbrev Watchdog : Type := ℕ

/-- What happens to the watchdogs. A time is the `expire` of the watchdog. -/
inductive WatchdogEvent
  | inserted (w : Watchdog) (expire : ℕ)
  /-- A scheduled watchdog is removed. -/
  | removed (w : Watchdog) (expire : ℕ)
  | began (now : ℕ)
  /-- The routine of `w` is called. -/
  | fired (w : Watchdog) (expire : ℕ)
  | ended
  deriving DecidableEq

/-- The header, the control blocks it refers to, and the tickle that is running. -/
structure Watchdogs where
  /-- `expire` of each watchdog. -/
  expire : Watchdog → ℕ
  /-- The state of each watchdog is below `WATCHDOG_INACTIVE`. -/
  isScheduled : Watchdog → Bool
  watchdogs : BinaryTree Watchdog
  first : Option Watchdog
  /-- The time of the running `_Watchdog_Do_tickle`, if there is one. -/
  tickling : Option ℕ
  log : List WatchdogEvent

inductive WatchdogAction
  | insert (w : Watchdog) (expire : ℕ)
  | remove (w : Watchdog)
  /-- `_Watchdog_Do_tickle` is called. -/
  | tickle (now : ℕ)
  /-- A pass of its loop, up to the call of a routine. -/
  | pass
  deriving DecidableEq

namespace Watchdogs

section Functions

variable (rb : Balancer Watchdog)

def note (s : Watchdogs) (e : WatchdogEvent) : Watchdogs := { s with log := e :: s.log }

/-- `_Watchdog_Insert`. Its watchdog has to be inactive. -/
def watchdogInsert (s : Watchdogs) (w : Watchdog) (expire : ℕ) : Option Watchdogs :=
  if s.isScheduled w then none
  else
    let key := update s.expire w expire
    let (tree, newFirst) := insertLoop key w s.first s.watchdogs (some w)
    some ({ s with
      expire := key
      first := newFirst
      watchdogs := rb.insertColor tree w
      isScheduled := update s.isScheduled w true }.note (.inserted w expire))

def watchdogNextFirst (s : Watchdogs) (w : Watchdog) : Watchdogs :=
  { s with first := successor w s.watchdogs }

/-- `_RBTree_Extract`, and `_Watchdog_Set_state` to `WATCHDOG_INACTIVE`. -/
def extract (s : Watchdogs) (w : Watchdog) : Watchdogs :=
  { s with
    watchdogs := rb.extract s.watchdogs w
    isScheduled := update s.isScheduled w false }

def watchdogRemove (s : Watchdogs) (w : Watchdog) : Watchdogs :=
  if s.isScheduled w then
    let s₁ := if s.first = some w then s.watchdogNextFirst w else s
    (s₁.extract rb w).note (.removed w (s.expire w))
  else s

/-- A pass of the loop of `_Watchdog_Do_tickle`, for the time `now`. -/
def watchdogDoTickle (s : Watchdogs) (now : ℕ) : Watchdogs :=
  match s.first with
  | none => { s with tickling := none }.note .ended
  | some w =>
    if s.expire w ≤ now then
      ((s.watchdogNextFirst w).extract rb w).note (.fired w (s.expire w))
    else { s with tickling := none }.note .ended

def step (s : Watchdogs) : WatchdogAction → Option Watchdogs
  | .insert w expire => s.watchdogInsert rb w expire
  | .remove w => some (s.watchdogRemove rb w)
  | .tickle now =>
    if s.tickling = none then some ({ s with tickling := some now }.note (.began now)) else none
  | .pass => s.tickling.map fun now => s.watchdogDoTickle rb now

end Functions

def initial : Watchdogs where
  expire _ := 0
  isScheduled _ := false
  watchdogs := .nil
  first := none
  tickling := none
  log := []

def Reachable (rb : Balancer Watchdog) (s : Watchdogs) : Prop :=
  ∃ as, run (step rb) initial as = some s

def entries (s : Watchdogs) : List (Watchdog × ℕ) :=
  (inorder s.watchdogs).map fun w => (w, s.expire w)

end Watchdogs

/-! ## What the log says -/

/-- The watchdogs that are set, in the order in which they were inserted. -/
def pending : List WatchdogEvent → List (Watchdog × ℕ)
  | [] => []
  | .inserted w e :: log => pending log ++ [(w, e)]
  | .removed w e :: log => (pending log).erase (w, e)
  | .fired w e :: log => (pending log).erase (w, e)
  | .began _ :: log => pending log
  | .ended :: log => pending log

def firings : List WatchdogEvent → List (Watchdog × ℕ)
  | [] => []
  | .fired w e :: log => firings log ++ [(w, e)]
  | _ :: log => firings log

def running : List WatchdogEvent → Option ℕ
  | [] => none
  | .began now :: _ => some now
  | .ended :: _ => none
  | _ :: log => running log

/-- An event that may come after `log`. -/
def WatchdogEvent.Justified (log : List WatchdogEvent) : WatchdogEvent → Prop
  | .inserted w _ => ∀ e, (w, e) ∉ pending log
  | .removed w e => (w, e) ∈ pending log
  | .began _ => running log = none
  -- no earlier time is set, and this watchdog was inserted before the others of its time
  | .fired w e => (∃ now, running log = some now ∧ e ≤ now) ∧ (∀ p ∈ pending log, e ≤ p.2) ∧
      ((pending log).filter fun p => p.2 = e).head? = some (w, e)
  | .ended => ∃ now, running log = some now ∧ ∀ p ∈ pending log, now < p.2

/-- Every event of the log is justified by those before it. -/
def Lawful : List WatchdogEvent → Prop
  | [] => True
  | e :: log => e.Justified log ∧ Lawful log

variable {w : Watchdog}

section Log

variable {log seg : List WatchdogEvent} {p q : Watchdog × ℕ} {now : ℕ}

theorem Lawful.of_append (h : Lawful (seg ++ log)) : Lawful log := by
  induction seg with
  | nil => exact h
  | cons e seg ih => exact ih h.2

theorem WatchdogEvent.Justified.mem_of_fired {e : ℕ}
    (h : (WatchdogEvent.fired w e).Justified log) : (w, e) ∈ pending log :=
  mem_of_mem_filter (mem_of_head? h.2.2)

theorem Lawful.nodup (h : Lawful log) : (pending log).Nodup := by
  induction log with
  | nil => exact nodup_nil
  | cons e log ih =>
    have hrest := ih h.2
    cases e with
    | inserted w e =>
      refine nodup_append.mpr ⟨hrest, nodup_singleton _, fun a ha b hb => ?_⟩
      rw [mem_singleton.mp hb]
      rintro rfl
      exact h.1 e ha
    | removed w e | fired w e => exact hrest.erase _
    | began now => exact hrest
    | ended => exact hrest

theorem Lawful.running_eq (h : Lawful (seg ++ .began now :: log)) (hseg : .ended ∉ seg) :
    running (seg ++ .began now :: log) = some now := by
  induction seg with
  | nil => rfl
  | cons e seg ih =>
    have hrest := ih h.2 fun hmem => hseg (mem_cons_of_mem e hmem)
    cases e with
    | ended => exact absurd mem_cons_self hseg
    | began now' =>
      have hnone : running (seg ++ .began now :: log) = none := h.1
      rw [hrest] at hnone
      cases hnone
    | _ => exact hrest

theorem Lawful.account (h : Lawful (seg ++ log)) (p : Watchdog × ℕ) :
    (firings seg).count p + seg.count (.removed p.1 p.2) + (pending (seg ++ log)).count p =
      (pending log).count p + seg.count (.inserted p.1 p.2) := by
  induction seg with
  | nil => simp [firings]
  | cons e seg ih =>
    have hrest := ih h.2
    -- an erased watchdog was set
    have herase : ∀ {r : Watchdog × ℕ}, r ∈ pending (seg ++ log) →
        ((pending (seg ++ log)).erase r).count p + (if r = p then 1 else 0) =
          (pending (seg ++ log)).count p := by
      intro r hr
      rw [count_erase]
      by_cases he : r = p
      · have := count_pos_iff.mpr (he ▸ hr); simp only [he, beq_self_eq_true, if_true]; omega
      · simp [he]
    cases e with
    | inserted w e =>
      have hp : (WatchdogEvent.inserted w e = .inserted p.1 p.2) ↔ (w, e) = p := by
        simp [Prod.ext_iff]
      simp only [cons_append, pending, firings, count_cons, count_append, count_nil, beq_iff_eq, hp,
        reduceCtorEq, if_false]
      omega
    | removed w e =>
      have hp : (WatchdogEvent.removed w e = .removed p.1 p.2) ↔ (w, e) = p := by
        simp [Prod.ext_iff]
      have := herase h.1
      simp only [cons_append, pending, firings, count_cons, beq_iff_eq, hp, reduceCtorEq, if_false]
      omega
    | fired w e =>
      have := herase h.1.mem_of_fired
      simp only [cons_append, pending, firings, count_cons, count_append, count_nil, beq_iff_eq,
        reduceCtorEq, if_false]
      omega
    | began now | ended => simpa [pending, firings] using hrest

theorem mem_firings : p ∈ firings seg ↔ .fired p.1 p.2 ∈ seg := by
  induction seg with
  | nil => simp [firings]
  | cons e seg ih => cases e <;> simp [firings, ih, Prod.ext_iff, or_comm]

theorem Lawful.due (h : Lawful (seg ++ .began now :: log)) (hseg : .ended ∉ seg)
    (hp : p ∈ firings seg) : p.2 ≤ now := by
  obtain ⟨post, pre, rfl⟩ := append_of_mem (mem_firings.mp hp)
  rw [append_assoc] at h
  obtain ⟨⟨⟨now', hr, hle⟩, -⟩, hpre⟩ := h.of_append
  rw [append_eq, hpre.running_eq fun hmem => hseg (by simp [hmem])] at hr
  cases hr
  exact hle

theorem pending_sublist (hseg : ∀ w e, .inserted w e ∉ seg) :
    (pending (seg ++ log)).Sublist (pending log) := by
  induction seg with
  | nil => exact List.Sublist.refl _
  | cons e seg ih =>
    have hrest := ih fun w e' hmem => hseg w e' (mem_cons_of_mem e hmem)
    cases e with
    | inserted w e => exact absurd mem_cons_self (hseg w e)
    | removed w e | fired w e => exact erase_sublist.trans hrest
    | began now => exact hrest
    | ended => exact hrest

section

variable (h : Lawful (seg ++ log)) (hseg : ∀ w e, .inserted w e ∉ seg)

include h hseg

theorem Lawful.fired_before (hq : q ∈ pending (seg ++ log)) (hp : p ∈ firings seg) :
    p.2 < q.2 ∨ p.2 = q.2 ∧ [p, q].Sublist (pending log) := by
  induction seg with
  | nil => cases hp
  | cons e seg ih =>
    have hseg' : ∀ w e', .inserted w e' ∉ seg := by
      intro w e' hmem; exact hseg w e' (mem_cons_of_mem e hmem)
    cases e with
    | inserted w e => exact absurd mem_cons_self (hseg w e)
    | removed w e => exact ih h.2 hseg' (mem_of_mem_erase hq) hp
    | began now | ended => exact ih h.2 hseg' hq hp
    | fired w e =>
      have hq' : q ∈ pending (seg ++ log) := mem_of_mem_erase hq
      rcases mem_append.mp hp with hp | hp
      · exact ih h.2 hseg' hq' hp
      obtain rfl := mem_singleton.mp hp
      have hfired : (WatchdogEvent.fired w e).Justified (seg ++ log) := h.1
      obtain ⟨-, hmin, hhead⟩ := hfired
      rcases (hmin q hq').lt_or_eq with hlt | heq
      · exact .inl hlt
      -- the other one is behind the head of the watchdogs of this time
      refine .inr ⟨heq, ?_⟩
      have hne : q ≠ (w, e) := ((Lawful.nodup h.2).mem_erase_iff.mp hq).1
      have hmem : q ∈ (pending (seg ++ log)).filter fun p => p.2 = e :=
        mem_filter.mpr ⟨hq', by simpa using heq.symm⟩
      obtain ⟨rest, hrest⟩ := head?_eq_some_iff.mp hhead
      rw [hrest] at hmem
      have hin : q ∈ rest := (mem_cons.mp hmem).resolve_left hne
      have hsub : [(w, e), q].Sublist ((pending (seg ++ log)).filter fun p => p.2 = e) := by
        rw [hrest]; exact (singleton_sublist.mpr hin).cons_cons _
      exact hsub.trans (filter_sublist.trans (pending_sublist hseg'))

/-- Without insertions, a tickle fires by time, then by insertion. -/
theorem Lawful.ordered :
    (firings seg).Pairwise fun p q => p.2 < q.2 ∨ p.2 = q.2 ∧ [p, q].Sublist (pending log) := by
  induction seg with
  | nil => exact List.Pairwise.nil
  | cons e seg ih =>
    have hseg' : ∀ w e', .inserted w e' ∉ seg := by
      intro w e' hmem; exact hseg w e' (mem_cons_of_mem e hmem)
    cases e with
    | fired w e =>
      refine pairwise_append.mpr ⟨ih h.2 hseg', pairwise_singleton _ _, ?_⟩
      intro p hp q hq
      rw [mem_singleton.mp hq]
      exact Lawful.fired_before h.2 hseg' h.1.mem_of_fired hp
    | _ => exact ih h.2 hseg'

end

end Log

namespace Watchdogs

variable {rb : Balancer Watchdog} {s s' : Watchdogs}

/-! ## The tree is what the log says -/

/-- The tree holds the set watchdogs, by time and insertion; `first` is the first. -/
structure Ok (s : Watchdogs) : Prop where
  first_eq : s.first = (inorder s.watchdogs).head?
  nodup : (inorder s.watchdogs).Nodup
  mem_iff : ∀ w, w ∈ inorder s.watchdogs ↔ s.isScheduled w = true
  sorted : (inorder s.watchdogs).Pairwise fun a b => s.expire a ≤ s.expire b
  stable : ∀ e, (s.entries.filter fun p => p.2 = e) = (pending s.log).filter fun p => p.2 = e
  tickling_eq : s.tickling = running s.log
  lawful : Lawful s.log

theorem mem_entries {p : Watchdog × ℕ} :
    p ∈ s.entries ↔ p.1 ∈ inorder s.watchdogs ∧ s.expire p.1 = p.2 := by
  simp only [entries, mem_map, Prod.ext_iff]
  constructor
  · rintro ⟨w, hw, rfl, he⟩; exact ⟨hw, he⟩
  · rintro ⟨hw, he⟩; exact ⟨p.1, hw, rfl, he⟩

namespace Ok

section

variable (h : s.Ok)

include h

theorem mem_pending {p : Watchdog × ℕ} :
    p ∈ pending s.log ↔ s.isScheduled p.1 = true ∧ s.expire p.1 = p.2 := by
  have hfilter : p ∈ s.entries ↔ p ∈ pending s.log := by
    have := congrArg (p ∈ ·) (h.stable p.2); simpa using this
  rw [← hfilter, mem_entries, h.mem_iff]

theorem head_filter (hf : s.first = some w) :
    ((pending s.log).filter fun p => p.2 = s.expire w).head? = some (w, s.expire w) := by
  obtain ⟨rest, hrest⟩ := head?_eq_some_iff.mp (h.first_eq.symm.trans hf)
  rw [← h.stable, entries, hrest, map_cons, filter_cons_of_pos (by simp)]
  rfl

theorem first_le (hf : s.first = some w) {p : Watchdog × ℕ}
    (hp : p ∈ pending s.log) : s.expire w ≤ p.2 := by
  obtain ⟨rest, hrest⟩ := head?_eq_some_iff.mp (h.first_eq.symm.trans hf)
  obtain ⟨hsch, he⟩ := h.mem_pending.mp hp
  have hin := (h.mem_iff p.1).mpr hsch
  have hsorted := h.sorted
  rw [hrest] at hin hsorted
  rw [← he]
  rcases mem_cons.mp hin with hw | hin
  · rw [hw]
  · exact (pairwise_cons.mp hsorted).1 _ hin

theorem insert {e : ℕ} (hs : s.watchdogInsert rb w e = some s') : s'.Ok := by
  unfold watchdogInsert at hs
  split_ifs at hs with hsch
  have hw : w ∉ inorder s.watchdogs := fun hmem => hsch ((h.mem_iff w).mp hmem)
  have hkey : ∀ a ∈ inorder s.watchdogs, update s.expire w e a = s.expire a := by
    intro a ha
    have hne : a ≠ w := by rintro rfl; exact hw ha
    exact update_of_ne hne _ _
  have hsorted : (inorder s.watchdogs).Pairwise fun a b =>
      update s.expire w e a ≤ update s.expire w e b := by
    refine h.sorted.imp_of_mem fun ha hb hab => ?_
    rw [hkey _ ha, hkey _ hb]
    exact hab
  have hin := inorder_insertLoop (x := w) s.first (some w) hsorted
  cases hs
  refine ⟨?_, ?_, fun a => ?_, ?_, fun e' => ?_, h.tickling_eq, fun e' hmem => ?_, h.lawful⟩
  · simp only [note]; rw [rb.inorder_insertColor, h.first_eq]; exact insertLoop_first hsorted
  · simp only [note]
    rw [rb.inorder_insertColor, hin]
    exact perm_insertBehind.nodup_iff.mpr (nodup_cons.mpr ⟨hw, h.nodup⟩)
  · simp only [note]
    rw [rb.inorder_insertColor, hin, mem_insertBehind, h.mem_iff]
    by_cases ha : a = w
    · simp [ha]
    · simp [ha]
  · simp only [note]; rw [rb.inorder_insertColor, hin]; exact pairwise_insertBehind hsorted
  · -- the new watchdog is the last one of its time in both lists
    have hold : ((inorder s.watchdogs).filter fun a => update s.expire w e a = e').map
        (fun a => (a, update s.expire w e a)) = (pending s.log).filter fun p => p.2 = e' := by
      rw [← h.stable, entries, filter_map, filter_congr fun a ha => by rw [hkey a ha]]
      refine map_congr_left fun a ha => ?_
      rw [hkey a (mem_of_mem_filter ha)]
    have hnew : ((insertBehind (update s.expire w e) w (inorder s.watchdogs)).filter
        fun a => update s.expire w e a = e') =
          ((inorder s.watchdogs).filter fun a => update s.expire w e a = e') ++
            if update s.expire w e w = e' then [w] else [] :=
      filter_insertBehind hsorted e'
    change List.filter _ (List.map _ (inorder (rb.insertColor _ w))) =
      List.filter _ (pending s.log ++ [(w, e)])
    rw [rb.inorder_insertColor, hin, filter_map, filter_append, ← hold]
    refine (congrArg _ hnew).trans ?_
    rw [map_append, update_self]
    split_ifs with he <;> simp [he, note]
  · have hset := h.mem_pending.mp hmem; exact hsch hset.1

theorem extract {o : WatchdogEvent} {first : Option Watchdog} (hw : s.isScheduled w = true)
    (hfirst : first = if s.first = some w then successor w s.watchdogs else s.first)
    (hpending : pending (o :: s.log) = (pending s.log).erase (w, s.expire w))
    (hrunning : running (o :: s.log) = running s.log) (ho : o.Justified s.log) :
    (({ s with first := first }.extract rb w).note o).Ok := by
  have hmem := (h.mem_iff w).mpr hw
  have hin : inorder (rb.extract s.watchdogs w) = (inorder s.watchdogs).erase w :=
    rb.inorder_extract _ _ hmem
  refine ⟨?_, ?_, fun a => ?_, ?_, fun e => ?_, ?_, ho, h.lawful⟩
  · simp only [note, Watchdogs.extract]
    rw [hin, hfirst]
    split_ifs with hf
    · obtain ⟨rest, hrest⟩ := head?_eq_some_iff.mp (h.first_eq.symm.trans hf)
      rw [successor_eq h.nodup hrest, hrest, erase_cons_head]
    · rw [h.first_eq] at hf ⊢
      cases hl : inorder s.watchdogs with
      | nil => rfl
      | cons a l =>
        rw [hl] at hf
        have hne : a ≠ w := by rintro rfl; exact hf rfl
        rw [erase_cons_tail (by simpa using hne)]
        rfl
  · simp only [note, Watchdogs.extract]; rw [hin]; exact h.nodup.erase w
  · simp only [note, Watchdogs.extract]
    rw [hin, h.nodup.mem_erase_iff, h.mem_iff]
    by_cases ha : a = w
    · simp [ha]
    · simp [ha]
  · simp only [note, Watchdogs.extract]; rw [hin]; exact h.sorted.sublist erase_sublist
  · have hinj : Injective fun a : Watchdog => (a, s.expire a) := by
      intro a b hab; exact (Prod.ext_iff.mp hab).1
    have hent : (({ s with first := first }.extract rb w).note o).entries =
        s.entries.erase (w, s.expire w) := by
      simp only [entries, note, Watchdogs.extract]
      rw [hin, map_erase hinj]
    rw [hent]
    simp only [note, Watchdogs.extract]
    rw [hpending, ← erase_filter, ← erase_filter, h.stable]
  · simp only [note, Watchdogs.extract]; rw [hrunning]; exact h.tickling_eq

theorem remove (w : Watchdog) : (s.watchdogRemove rb w).Ok := by
  unfold watchdogRemove
  split_ifs with hw hf
  · exact h.extract hw (if_pos hf).symm rfl rfl (h.mem_pending.mpr ⟨hw, rfl⟩)
  · exact h.extract hw (if_neg hf).symm rfl rfl (h.mem_pending.mpr ⟨hw, rfl⟩)
  · exact h

theorem ended {now : ℕ} (ht : s.tickling = some now)
    (hlate : ∀ p ∈ pending s.log, now < p.2) : ({ s with tickling := none }.note .ended).Ok :=
  ⟨h.first_eq, h.nodup, h.mem_iff, h.sorted, h.stable, rfl, ⟨now, h.tickling_eq.symm.trans ht, hlate⟩,
    h.lawful⟩

theorem doTickle {now : ℕ} (ht : s.tickling = some now) : (s.watchdogDoTickle rb now).Ok := by
  unfold watchdogDoTickle
  split
  · next hf =>
    refine h.ended ht fun p hp => ?_
    have hnil : inorder s.watchdogs = [] := head?_eq_none_iff.mp (h.first_eq.symm.trans hf)
    have hin := (h.mem_iff p.1).mpr (h.mem_pending.mp hp).1
    rw [hnil] at hin
    cases hin
  · next w hf =>
    split_ifs with hle
    · have hw : s.isScheduled w = true := by
        rw [← h.mem_iff]; exact mem_of_head? (h.first_eq.symm.trans hf)
      refine h.extract hw (if_pos hf).symm rfl rfl ⟨?_, fun p hp => h.first_le hf hp, ?_⟩
      · exact ⟨now, h.tickling_eq.symm.trans ht, hle⟩
      · exact h.head_filter hf
    · exact h.ended ht fun p hp => (not_le.mp hle).trans_le (h.first_le hf hp)

end

end Ok

theorem step_ok {a : WatchdogAction} (h : s.Ok) (hs : step rb s a = some s') : s'.Ok := by
  cases a with
  | insert w e => exact h.insert hs
  | remove w => cases hs; exact h.remove w
  | tickle now =>
    simp only [step, Option.ite_none_right_eq_some, Option.some.injEq] at hs
    obtain ⟨ht, rfl⟩ := hs
    exact { h with tickling_eq := rfl, lawful := ⟨h.tickling_eq.symm.trans ht, h.lawful⟩ }
  | pass => obtain ⟨now, ht, rfl⟩ := Option.map_eq_some_iff.mp hs; exact h.doTickle ht

theorem Reachable.ok (h : Reachable rb s) : s.Ok := by
  obtain ⟨as, hr⟩ := h
  refine run_invariant (step rb) (fun s a s' hs h => step_ok hs h) ?_ hr
  exact ⟨rfl, nodup_nil, fun w => by simp [initial, inorder], List.Pairwise.nil,
    fun e => rfl, rfl, trivial⟩

/-! ## A tickle -/

/-- A tickle fired due watchdogs in `seg`, after `log`, each once, and without insertions in order.
-/
structure Exact (now : ℕ) (log seg : List WatchdogEvent) : Prop where
  due : ∀ p ∈ firings seg, p.2 ≤ now
  account : ∀ p, (firings seg).count p + seg.count (.removed p.1 p.2) +
      (pending (seg ++ .began now :: log)).count p =
    (pending log).count p + seg.count (.inserted p.1 p.2)
  ordered : (∀ w e, .inserted w e ∉ seg) →
    (firings seg).Pairwise fun p q => p.2 < q.2 ∨ p.2 = q.2 ∧ [p, q].Sublist (pending log)

theorem Ok.exact {now : ℕ} {log seg : List WatchdogEvent} (h : s.Ok)
    (hlog : s.log = seg ++ .began now :: log) (hseg : .ended ∉ seg) : Exact now log seg := by
  have hlaw := h.lawful
  rw [hlog] at hlaw
  exact ⟨fun p hp => hlaw.due hseg hp, hlaw.account, fun hins => hlaw.ordered hins⟩

theorem Ok.pass_cases {now : ℕ} (rb : Balancer Watchdog) (h : s.Ok) (ht : s.tickling = some now) :
    ((s.watchdogDoTickle rb now).tickling = none ∧ ∀ p ∈ pending s.log, now < p.2) ∨
      (s.watchdogDoTickle rb now).tickling = some now ∧
        (inorder (s.watchdogDoTickle rb now).watchdogs).length < (inorder s.watchdogs).length := by
  have hok : (s.watchdogDoTickle rb now).Ok := h.doTickle ht
  unfold watchdogDoTickle at hok ⊢
  split at hok
  · next hf =>
    obtain ⟨now', hr, hlate⟩ := hok.lawful.1
    rw [← h.tickling_eq, ht] at hr
    cases hr
    exact .inl ⟨rfl, hlate⟩
  · next w hf =>
    split_ifs at hok ⊢ with hle
    · refine .inr ⟨ht, ?_⟩
      have hmem : w ∈ inorder s.watchdogs := mem_of_head? (h.first_eq.symm.trans hf)
      simp only [note, Watchdogs.extract, watchdogNextFirst]
      rw [rb.inorder_extract _ _ hmem, length_erase_of_mem hmem]
      have := length_pos_of_mem hmem
      omega
    · obtain ⟨now', hr, hlate⟩ := hok.lawful.1
      rw [← h.tickling_eq, ht] at hr
      cases hr
      exact .inl ⟨rfl, hlate⟩

/-- The loop ends, after at most one pass more than there are watchdogs. -/
theorem Ok.ends {now : ℕ} (h : s.Ok) (ht : s.tickling = some now) :
    ∃ n s', run (step rb) s (List.replicate n .pass) = some s' ∧ s'.tickling = none := by
  induction hn : (inorder s.watchdogs).length using Nat.strong_induction_on generalizing s with
  | _ n ih =>
    have hstep : step rb s .pass = some (s.watchdogDoTickle rb now) := by rw [step, ht]; rfl
    rcases h.pass_cases rb ht with ⟨hend, -⟩ | ⟨hgo, hlt⟩
    · refine ⟨1, s.watchdogDoTickle rb now, ?_, hend⟩; rw [replicate_one, run_cons, hstep]; rfl
    · obtain ⟨m, s', hr, hend⟩ := ih _ (hn ▸ hlt) (h.doTickle ht) hgo rfl
      refine ⟨m + 1, s', ?_, hend⟩
      rw [replicate_succ, run_cons, hstep]
      exact hr

end Watchdogs

end Rtems
