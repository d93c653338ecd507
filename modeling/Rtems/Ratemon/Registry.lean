import Rtems.Fts.Counter
import Rtems.Ratemon.Step

/-!
# The registry and the protected periods

`rtems_rate_monotonic_create_fts` enters its period into the task list of the fault-tolerance
manager; `rtems_rate_monotonic_delete` does not take it out again.

* `Mirror`: the list holds exactly these, and has room for a valid `create_fts`;
* **`mirror_iff`**: so it is if and only if no protected period was deleted;
* **`createFts_failed_iff`**: a failed `create_fts` may keep its period.
-/

namespace Rtems

open Function PartialRun List

/-- The periods of `rtems_rate_monotonic_create_fts`, unless deleted. -/
def protectedIds : List Event → List Id
  | [] => []
  | .createdFts id :: trace => id :: protectedIds trace
  | .deleted id :: trace => (protectedIds trace).erase id
  | _ :: trace => protectedIds trace

/-- A name, an id pointer, `m ≤ k`, and a pattern that fits its buffer and the partitions of a
dynamic technique. -/
structure CreateFts.Valid (c : CreateFts) (mem : Mem) : Prop where
  name : c.name ≠ 0
  id : c.id = true
  le : c.m.toNat ≤ c.k.toNat
  pattern : ∃ mem', createPattern c.patternS.pattern c.m.toNat c.k.toNat c.patternS.patternStart
      c.patternS.patternEnd mem = some mem' ∧
    (c.tech.dynamic = true → (Fts.tolCounterLoop (patternBits mem' c.patternS.patternStart
      c.patternS.patternEnd c.patternS.maxBitpos) false 0 TolCounter.zero).isSome)

/-- The directives that create and delete protected periods. -/
def Action.registry : Action → Bool
  | .createFts .. => true
  | .delete _ => true
  | _ => false

namespace Fts

def ids (s : Fts) : List Id := ((List.range s.list.taskListIndex).map s.list.taskListId).reverse

theorem mem_ids {s : Fts} {id : Id} : id ∈ s.ids ↔ (s.taskInList id).isSome := by
  rw [Option.isSome_iff_ne_none, ne_eq, taskInList_eq_none]; simp [ids]

theorem ids_push {s s' : Fts} {id : Id}
    (hi : s'.list.taskListId = update s.list.taskListId s.list.taskListIndex id)
    (hn : s'.list.taskListIndex = s.list.taskListIndex + 1) : s'.ids = id :: s.ids := by
  have hsame : ∀ i ∈ List.range s.list.taskListIndex,
      update s.list.taskListId s.list.taskListIndex id i = s.list.taskListId i :=
    fun i hi => update_of_ne (mem_range.mp hi).ne _ _
  rw [ids, ids, hi, hn, range_succ, map_append, reverse_append, map_congr_left hsame]
  simp

theorem ids_of_register {s s' : Fts} {r : Request} {n : ℕ}
    (h : s.ftsRtemsTaskRegister r = some (n, s')) (hn : n ≠ 0) :
    s.taskInList r.id = none ∧ s'.ids = r.id :: s.ids ∧ (s.TableOk → s'.TableOk) := by
  rcases ftsRtemsTaskRegister_cases h with rfl | ⟨h0, -⟩
  · obtain ⟨⟨hlt, hnew, -⟩, mem, s1, -, hc, rfl⟩ := ftsRtemsTaskRegister_eq_some.mp h
    obtain ⟨hid, hidx⟩ := registered_ids hc (.registered r.id)
    exact ⟨hnew, ids_push hid hidx, fun hs => hs.push hlt hnew hid hidx⟩
  · exact absurd h0 hn

theorem TableOk.nodup_ids {s : Fts} (h : s.TableOk) : s.ids.Nodup := by
  rw [ids, nodup_reverse]
  refine List.Nodup.map_on (fun i hi j hj he => ?_) nodup_range
  exact h.inj i j (mem_range.mp hi) (mem_range.mp hj) he

theorem register_of_valid {s : Fts} {c : CreateFts} (hc : c.Valid s.mem)
    (hi : s.list.taskListIndex < pTasks) {x : Id} (hx : s.taskInList x = none) :
    ∃ s', s.ftsRtemsTaskRegister (c.request x) = some (1, s') := by
  obtain ⟨mem', hp, hfit⟩ := hc.pattern
  have hset : ∃ s1, ((s.enter s.list.taskListIndex (c.request x)).setMem mem').setCounters
      s.list.taskListIndex c.patternS = some s1 := by
    have htech : (((s.enter s.list.taskListIndex (c.request x)).setMem mem').list.tech
        s.list.taskListIndex) = c.tech := by simp [setMem, enter, CreateFts.request]
    by_cases hd : c.tech.dynamic = true
    · obtain ⟨⟨nr, d⟩, hl⟩ := Option.isSome_iff_exists.mp (hfit hd)
      have hfst := tolCounterLoop_fst (patternBits mem' c.patternS.patternStart
        c.patternS.patternEnd c.patternS.maxBitpos) false 0 TolCounter.zero
        (s.tolCounterConst s.list.taskListIndex)
      rw [hl, Option.map_some, eq_comm, Option.map_eq_some_iff] at hfst
      obtain ⟨⟨_, d'⟩, hl', rfl⟩ := hfst
      exact ⟨_, setCounters_eq_some.mpr (.inr ⟨by rw [htech, hd], _, d',
        tolCounterLoop_lt (by decide) hl', hl', rfl⟩)⟩
    · exact ⟨_, setCounters_eq_some.mpr (.inl ⟨by rw [htech]; simpa using hd, rfl⟩)⟩
  obtain ⟨s1, hs1⟩ := hset
  refine ⟨_, ftsRtemsTaskRegister_eq_some.mpr ⟨⟨hi, hx, ?_⟩, mem', s1, ?_, hs1, rfl⟩⟩
  · exact (c.request_le x).mpr hc.le
  · rw [(c.request_mod x).1, (c.request_mod x).2]; exact hp

end Fts

namespace Sys

variable {s s' : Sys} {a : Action}

/-- The registry mirrors the protected periods. -/
structure Mirror (s : Sys) : Prop where
  found : ∀ id, (s.fts.taskInList id).isSome ↔ id ∈ protectedIds s.trace
  succeeds : ∀ t c old, c.Valid s.fts.mem → (protectedIds s.trace).length < pTasks →
    s.periods.inactive ≠ [] →
    (s.rtemsRateMonotonicCreateFts t c old).map Prod.fst = some .successful

/-- The list of the fault-tolerance manager has the protected periods, all open. -/
structure Registry (s : Sys) : Prop where
  table : s.fts.TableOk
  ids : protectedIds s.trace = s.fts.ids
  live : ∀ id ∈ protectedIds s.trace, (s.periods.live id).isSome

theorem Registry.found (h : s.Registry) (id : Id) :
    (s.fts.taskInList id).isSome ↔ id ∈ protectedIds s.trace := by
  rw [h.ids, Fts.mem_ids]

theorem Registry.mirror (h : s.Registry) : s.Mirror where
  found := h.found
  succeeds t c old hc hlen hfree := by
    have hidx : s.fts.list.taskListIndex < pTasks := by
      rw [h.ids, Fts.ids] at hlen; simpa using hlen
    unfold rtemsRateMonotonicCreateFts
    rw [if_neg hc.name, if_neg (by simp [hc.id])]
    cases ha : s.periods.allocate (old.initBlock t) with
    | none => exact absurd (Objects.allocate_eq_none.mp ha) hfree
    | some r =>
      obtain ⟨x, periods⟩ := r
      -- the new id is not open, the registered ones are
      have hx : s.fts.taskInList x = none := by
        rw [← Option.not_isSome_iff_eq_none, h.found x]
        intro hmem
        have hlive := h.live x hmem
        rw [s.periods.closed x (mem_append_left _ (Objects.allocate_eq_some ha).1)] at hlive
        cases hlive
      obtain ⟨fts, hreg⟩ := Fts.register_of_valid hc hidx hx
      simp [hreg]

def KeepsProtected (s : Sys) (a : Action) : Prop := ∀ id, a = .delete id → id ∉ protectedIds s.trace

theorem Step.registry (h : Step s a s') (ha : a.registry = true) (hk : s.KeepsProtected a)
    (hs : s.Registry) : s'.Registry := by
  have halloc : ∀ {c : RateMonotonicControl} {x o'}, s.periods.allocate c = some (x, o') →
      ∀ id, (s.periods.live id).isSome ∨ id = x → (o'.live id).isSome := by
    intro c x o' hal id hid
    rw [(Objects.allocate_eq_some hal).2.1]
    by_cases he : id = x
    · rw [he, update_self]; rfl
    · rw [update_of_ne he]; exact hid.resolve_right he
  cases h with
  | rejected hc => exact hs
  | unregistered hpc hn hi hal hr =>
    rcases Fts.ftsRtemsTaskRegister_cases hr with h1 | ⟨-, rfl⟩
    · cases h1
    · exact ⟨hs.table, hs.ids, fun id hid => halloc hal id (.inl (hs.live id hid))⟩
  | @createdFts t c old x periods reg fts hpc hn hi hal hr h1 =>
    obtain ⟨-, hids, htable⟩ := Fts.ids_of_register hr h1
    refine ⟨htable hs.table, ?_, fun id hmem => halloc hal id ?_⟩
    · show x :: protectedIds s.trace = fts.ids
      rw [hs.ids, hids]
      rfl
    · rcases mem_cons.mp hmem with he | hmem
      · exact .inr he
      · exact .inl (hs.live id hmem)
  | @deleted id p hl =>
    have hnot := hk id rfl
    refine ⟨hs.table, ?_, fun x hx => ?_⟩
    · show (protectedIds s.trace).erase id = s.fts.ids
      rw [erase_of_not_mem hnot, hs.ids]
    · have hx : x ∈ protectedIds s.trace := mem_of_mem_erase hx
      have hne : x ≠ id := fun e => hnot (e ▸ hx)
      simpa [update_of_ne hne] using hs.live x hx
  | _ => cases ha

/-- A registered id that is not protected cannot be registered again. -/
theorem Step.stale (h : Step s a s') (ha : a.registry = true) {id : Id}
    (hs : id ∈ s.fts.ids ∧ id ∉ protectedIds s.trace) :
    id ∈ s'.fts.ids ∧ id ∉ protectedIds s'.trace := by
  obtain ⟨hmem, hnot⟩ := hs
  cases h with
  | rejected hc => exact ⟨hmem, hnot⟩
  | unregistered hpc hn hi hal hr =>
    rcases Fts.ftsRtemsTaskRegister_cases hr with h1 | ⟨-, rfl⟩
    · cases h1
    · exact ⟨hmem, hnot⟩
  | @createdFts t c old x periods reg fts hpc hn hi hal hr h1 =>
    obtain ⟨hnew, hids, -⟩ := Fts.ids_of_register hr h1
    have hne : id ≠ x := by
      intro e; rw [e, Fts.mem_ids, show s.fts.taskInList x = none from hnew] at hmem; cases hmem
    refine ⟨?_, fun hx => (mem_cons.mp hx).elim hne hnot⟩
    show id ∈ fts.ids
    rw [hids]
    exact mem_cons_of_mem _ hmem
  | deleted hl => exact ⟨hmem, fun hx => hnot (mem_of_mem_erase hx)⟩
  | _ => cases ha

theorem Registry.mirror_iff_along {as : List Action} (hs : s.Registry)
    (hops : ∀ a ∈ as, a.registry = true) (h : run step s as = some s') :
    s'.Mirror ↔ Along step KeepsProtected s as := by
  induction as generalizing s with
  | nil => cases h; exact ⟨fun _ => trivial, fun _ => hs.mirror⟩
  | cons a as ih =>
    obtain ⟨s1, hstep, hr⟩ := (run_cons_eq_some step).mp h
    have ha := hops a mem_cons_self
    have hops' : ∀ b ∈ as, b.registry = true := fun b hb => hops b (mem_cons_of_mem a hb)
    by_cases hk : s.KeepsProtected a
    · rw [ih ((step_cases hstep).registry ha hk hs) hops' hr]
      refine ⟨fun hA => ⟨hk, fun s2 hs2 => ?_⟩, fun hA => hA.2 s1 hstep⟩
      rw [hstep] at hs2
      cases hs2
      exact hA
    · refine ⟨fun hm => ?_, fun hA => absurd hA.1 hk⟩
      -- a protected period is deleted and stays in the list
      simp only [KeepsProtected, not_forall, not_not] at hk
      obtain ⟨id, rfl, hid⟩ := hk
      have hnodup : (protectedIds s.trace).Nodup := by rw [hs.ids]; exact hs.table.nodup_ids
      have hstale : id ∈ s1.fts.ids ∧ id ∉ protectedIds s1.trace := by
        obtain ⟨p, hl⟩ := Option.isSome_iff_exists.mp (hs.live id hid)
        simp only [step, rtemsRateMonotonicDelete, hl, Option.some.injEq] at hstep
        subst hstep
        exact ⟨hs.ids ▸ hid, hnodup.not_mem_erase⟩
      have hend := run_invariant_along step
        (fun s a s' hs (ha : a.registry = true) h => (step_cases h).stale ha hs) hstale
        (along_of_forall step (fun a ha _ => hops' a ha) s1) hr
      exact absurd ((hm.found id).mp (Fts.mem_ids.mp hend.1)) hend.2

/-- **The registry mirrors the protected periods** iff no protected period was deleted. -/
theorem mirror_iff {s₀ : Sys} (h₀ : Boot s₀) {as : List Action}
    (hops : ∀ a ∈ as, a.registry = true) (h : run step s₀ as = some s) :
    s.Mirror ↔ Along step KeepsProtected s₀ as := by
  refine Registry.mirror_iff_along ⟨?_, ?_, fun id hid => ?_⟩ hops h
  · rw [h₀.fts]; exact Fts.Reachable.tableOk ⟨_, _, [], rfl⟩
  · rw [h₀.trace, h₀.fts]; rfl
  · rw [h₀.trace] at hid; cases hid

theorem mirror_refused : ∃ s : Sys, run step (initial 4 4)
      [.createFts 1 { CreateFts.oneOfTwo 0 .sre with m := 3 } default, .delete 1,
        .createFts 1 (.oneOfTwo 0 .dre) default] = some s ∧
    s.fts.taskInList 2 = some 0 ∧ s.Mirror := by
  obtain ⟨s₁, hr₁, hs₁⟩ := exists_of_any (o := run step (initial 4 4)
    [.createFts 1 { CreateFts.oneOfTwo 0 .sre with m := 3 } default]) (P := fun s => s.trace = [])
    (by decide +kernel)
  refine exists_imp_of_any (by decide +kernel)
    fun s hr hs => ⟨hs, ?_⟩
  have hcreate : ∀ (s : Sys) t c old, s.KeepsProtected (.createFts t c old) :=
    fun s t c old id he => by cases he
  have hdelete : s₁.KeepsProtected (.delete 1) := by intro id _; rw [hs₁]; exact not_mem_nil
  have hrest : Along step KeepsProtected s₁ [.delete 1, .createFts 1 (.oneOfTwo 0 .dre) default] :=
    ⟨hdelete, fun _ _ => ⟨hcreate _ _ _ _, fun _ _ => trivial⟩⟩
  exact (mirror_iff (initial_boot 4 4) (by simp [Action.registry]) hr).mpr
    (along_append step hr₁ ⟨hcreate _ _ _ _, fun _ _ => trivial⟩ hrest)

/-- The id of a deleted period stays listed, and its next period cannot be protected. -/
theorem not_mirror_deleted : ∃ s : Sys, run step (initial 4 1)
      [.createFts 1 (.oneOfTwo 0 .sre) default, .delete 1] = some s ∧
    s.fts.taskInList 1 = some 0 ∧ protectedIds s.trace = [] ∧
    (s.rtemsRateMonotonicCreateFts 1 (.oneOfTwo 0 .sre) default).map Prod.fst =
      some .invalidNumber ∧ ¬ s.Mirror := by
  refine exists_imp_of_any (P := fun s => s.fts.taskInList 1 = some 0 ∧ protectedIds s.trace = [] ∧
    (s.rtemsRateMonotonicCreateFts 1 (.oneOfTwo 0 .sre) default).map Prod.fst =
      some .invalidNumber) (by decide +kernel) fun s _ ⟨hf, ht, hc⟩ => ⟨hf, ht, hc, fun hm => ?_⟩
  have := (hm.found 1).mp (by rw [hf]; rfl)
  rw [ht] at this
  cases this

/-! ## Calls that fail -/

/-- **A failing `create_fts` has no effect** iff it fails in front of the allocation. -/
theorem createFts_failed_iff {t : Thread} {c : CreateFts} {old : RateMonotonicControl}
    {status : StatusCode} (h : s.rtemsRateMonotonicCreateFts t c old = some (status, s'))
    (hne : status ≠ .successful) :
    ((∀ x, (s'.periods.live x).isSome = (s.periods.live x).isSome) ∧
      s'.periods.inactive.length = s.periods.inactive.length ∧ s'.fts.list = s.fts.list) ↔
      c.name = 0 ∨ c.id = false ∨ s.periods.inactive = [] := by
  unfold rtemsRateMonotonicCreateFts at h
  split_ifs at h with hn hi
  · cases h; exact iff_of_true ⟨fun _ => rfl, rfl, rfl⟩ (.inl hn)
  · cases h; exact iff_of_true ⟨fun _ => rfl, rfl, rfl⟩ (.inr (.inl hi))
  · cases ha : s.periods.allocate (old.initBlock t) with
    | none =>
      rw [ha] at h
      cases h
      exact iff_of_true ⟨fun _ => rfl, rfl, rfl⟩ (.inr (.inr (Objects.allocate_eq_none.mp ha)))
    | some r =>
      rw [ha] at h
      simp only [Option.bind_eq_bind, Option.bind_eq_some_iff, Prod.exists] at h
      obtain ⟨reg, fts, -, h⟩ := h
      split_ifs at h
      · cases h
        have hfree := (Objects.allocate_eq_some ha).2.2.1
        refine iff_of_false (fun hc => ?_) (by simp [hn, hi, hfree])
        have := hc.2.1
        rw [hfree] at this
        simp at this
      · cases h; exact absurd rfl hne

theorem createFts_failed_name : ∃ s', (initial 4 4).rtemsRateMonotonicCreateFts 1
      { CreateFts.oneOfTwo 0 .sre with name := 0 } default = some (.invalidName, s') ∧
    s'.periods.inactive.length = 4 := by
  obtain ⟨s', h⟩ : ∃ s', (initial 4 4).rtemsRateMonotonicCreateFts 1
    { CreateFts.oneOfTwo 0 .sre with name := 0 } default = some (.invalidName, s') := ⟨_, rfl⟩
  exact ⟨s', h, ((createFts_failed_iff h (by decide)).mpr (.inl rfl)).2.1⟩

/-- With `m > k` one of four periods is taken. -/
theorem createFts_failed_taken : ((initial 4 4).rtemsRateMonotonicCreateFts 1
      { CreateFts.oneOfTwo 0 .sre with m := 3 } default).map
        (fun r => (r.1, r.2.periods.inactive.length, (r.2.periods.live 1).isSome)) =
    some (.invalidNumber, 3, true) := by
  decide +kernel

end Sys

end Rtems
