import Rtems.Score.SchedulerPriority

/-!
# The ready chains while priorities change

An operation may set the priorities of several threads before the scheduler is told about them. So
the chains are kept for the priorities that the threads are queued at.

* `Running`: the chains hold the ready threads, and the heir is one of them;
* **`Running.updatePriority`**, `Running.updatePriorities`: the threads that the scheduler is told
  about are queued at their priority then; `Running.block`, `Running.unblock`.
-/

namespace Rtems

open Function

namespace SchedulerPriority

/-- The chains hold the ready threads, and the heir is one of them. -/
structure Running (s : SchedulerPriority) : Prop where
  chains : Chains (fun t => s.isReady t = true) s
  heir : s.isReady s.heir = true

def Current (s : SchedulerPriority) (t : Thread) : Prop :=
  (s.node t).readyQueue.currentPriority = (s.node t).value

/-- The priorities are the same, and the places of all threads but `t`. -/
structure Keeps (t : Thread) (s s' : SchedulerPriority) : Prop where
  value : ∀ u, (s'.node u).value = (s.node u).value
  current : ∀ u, u ≠ t → (s'.node u).readyQueue = (s.node u).readyQueue
  isReady : ∀ u, u ≠ t → s'.isReady u = s.isReady u

variable {s s' : SchedulerPriority} {t u : Thread}

theorem Keeps.refl (t : Thread) (s : SchedulerPriority) : s.Keeps t s :=
  ⟨fun _ => rfl, fun _ _ => rfl, fun _ _ => rfl⟩

theorem Keeps.of_ne (h : s.Keeps t s') (hu : u ≠ t) : s'.Current u ↔ s.Current u := by
  rw [Current, Current, h.value, h.current u hu]

theorem scheduleBody_of_ready (h : Chains (fun t => s.isReady t = true) s) (ht : s.isReady t = true)
    {b : Bool} (hb : b = true ∨ s.isReady s.heir = true) :
    ∃ u, s.scheduleBody b = some { s with heir := u } ∧ Running { s with heir := u } := by
  obtain ⟨u, hu, -⟩ := h.first_eq ht
  have hrun : ∀ v, s.isReady v = true → Running { s with heir := v } :=
    fun v hv => ⟨h.of_same rfl rfl fun _ => rfl, hv⟩
  simp only [scheduleBody, hu, Option.bind_eq_bind, Option.bind_some, updateHeir]
  split_ifs with hc
  · exact ⟨u, rfl, hrun u (h.of_first hu)⟩
  · refine ⟨s.heir, rfl, hrun _ ?_⟩
    rcases hb with rfl | hr
    · have he : s.heir = u := by
        by_contra hne
        exact hc ⟨hne, .inr rfl⟩
      rw [he]
      exact h.of_first hu
    · exact hr

section

variable (h : s.Running)

include h

theorem Running.withHeir (hu : s.isReady u = true) : Running { s with heir := u } :=
  ⟨h.chains.of_same rfl rfl fun _ => rfl, hu⟩

theorem Running.move (ht : s.isReady t = true) (hv : (s.node t).value < 256) :
    ∃ s', (let s1 := (s.extract t).updateQueue t (s.node t).value
        if (s.node t).prependIt then s1.enqueueFirst t else s1.enqueue t) = s' ∧ s'.Running ∧
      s.Keeps t s' ∧ s'.isReady t = true ∧ s'.Current t := by
  have hc := (h.chains.extract ht).updateQueue (t := t) (by simp) (s.node t).value
  set s1 := (s.extract t).updateQueue t (s.node t).value with hs1
  have hready : s1.isReady = s.isReady := extract_fields.2.1
  have hheir : s1.heir = s.heir := extract_fields.2.2.2
  have hnode : ∀ u, u ≠ t → s1.node u = s.node u := by
    intro u hu; simp [hs1, SchedulerPriority.updateQueue, extract_node, hu]
  have hself : s1.node t = { s.node t with readyQueue := readyQueueUpdate (s.node t).value } := by
    simp [hs1, SchedulerPriority.updateQueue, extract_node]
  have hq : (s1.node t).readyQueue.currentPriority < 256 := by rw [hself]; exact hv
  have hiff : ∀ u, s1.isReady u = true ↔ u = t ∨ s.isReady u = true ∧ u ≠ t := by
    intro u
    rw [hready]
    by_cases hut : u = t
    · simp [hut, ht]
    · simp [hut]
  have hkeeps : s.Keeps t s1 := by
    refine ⟨fun u => ?_, fun u hu => by rw [hnode u hu], fun u _ => by rw [hready]⟩
    by_cases hu : u = t
    · rw [hu, hself]
    · rw [hnode u hu]
  have hcur : s1.Current t := by rw [Current, hself]; rfl
  have hrun : ∀ {s'}, Chains (fun u => u = t ∨ s.isReady u = true ∧ u ≠ t) s' →
      s'.node = s1.node → s'.isReady = s1.isReady → s'.heir = s1.heir →
      s'.Running ∧ s.Keeps t s' ∧ s'.isReady t = true ∧ s'.Current t := by
    intro s' hc' hn hr hh
    have ht' : s'.isReady t = true := by rw [hr]; exact (hiff t).mpr (.inl rfl)
    refine ⟨⟨hc'.congr fun u => by rw [hr]; exact hiff u, ?_⟩, ?_, ht', ?_⟩
    · rw [hr, hh, hready, hheir]; exact h.heir
    · exact ⟨fun u => by rw [hn]; exact hkeeps.value u,
        fun u hu => by rw [hn]; exact hkeeps.current u hu,
        fun u hu => by rw [hr]; exact hkeeps.isReady u hu⟩
    · rw [Current, hn]; exact hcur
  cases (s.node t).prependIt with
  | true => exact ⟨_, rfl, hrun (hc.enqueueFirst (by simp) hq) rfl rfl rfl⟩
  | false => exact ⟨_, rfl, hrun (hc.enqueue (by simp) hq) rfl rfl rfl⟩

theorem Running.updatePriority (t : Thread) (hv : (s.node t).value < 256) :
    ∃ s', s.schedulerUpdatePriority t = some s' ∧ s'.Running ∧ s.Keeps t s' ∧
      s'.isReady t = s.isReady t ∧ (s.isReady t = true → s'.Current t) := by
  simp only [schedulerUpdatePriority]
  by_cases hr : s.isReady t = false
  · rw [if_pos hr]; exact ⟨s, rfl, h, .refl t s, rfl, fun ht => by simp [hr] at ht⟩
  rw [if_neg hr]
  by_cases hsame : (s.node t).value = (s.node t).readyQueue.currentPriority
  · rw [if_pos hsame]; exact ⟨s, rfl, h, .refl t s, rfl, fun _ => hsame.symm⟩
  rw [if_neg hsame]
  have hr : s.isReady t = true := by simpa using hr
  obtain ⟨s', heq, hrun, hk, ht, hcur⟩ := h.move hr hv
  simp only at heq
  rw [heq]
  obtain ⟨u, hu, hrun'⟩ := scheduleBody_of_ready hrun.chains ht (.inr hrun.heir)
  exact ⟨_, hu, hrun', ⟨hk.value, hk.current, hk.isReady⟩, ht.trans hr.symm, fun _ => hcur⟩

theorem Running.updatePriorities (l : List Thread) (hv : ∀ t, (s.node t).value < 256) :
    ∃ s', l.foldlM (fun x t => x.schedulerUpdatePriority t) s = some s' ∧ s'.Running ∧
      (∀ t, (s'.node t).value = (s.node t).value) ∧ s'.isReady = s.isReady ∧
      ∀ t, s.isReady t = true → s.Current t ∨ t ∈ l → s'.Current t := by
  induction l generalizing s with
  | nil => exact ⟨s, rfl, h, fun _ => rfl, rfl, fun t _ ht => by simpa using ht⟩
  | cons u l ih =>
    obtain ⟨s1, h1, hrun, hk, hu, hcur⟩ := h.updatePriority u (hv u)
    have hready : s1.isReady = s.isReady := by
      funext t
      by_cases ht : t = u
      · rw [ht, hu]
      · exact hk.isReady t ht
    obtain ⟨s', hs', hrun', hval, hready', hcur'⟩ := ih hrun fun t => by rw [hk.value]; exact hv t
    refine ⟨s', by simp [h1, hs'], hrun', fun t => (hval t).trans (hk.value t),
      hready'.trans hready, fun t ht hor => hcur' t (by rw [hready]; exact ht) ?_⟩
    by_cases htu : t = u
    · exact .inl (htu ▸ hcur (htu ▸ ht))
    · rw [hk.of_ne htu]; simpa [htu] using hor

theorem Running.block (ht : s.isReady t = true) (hu : u ≠ t) (hr : s.isReady u = true) :
    ∃ s', { s with isReady := update s.isReady t false }.schedulerBlock t = some s' ∧
      s'.Running ∧ s.Keeps t s' ∧ s'.isReady t = false := by
  set s1 := { s with isReady := update s.isReady t false } with hs1
  have hc : Chains (fun u => s.isReady u = true) s1 := h.chains.of_same rfl rfl fun _ => rfl
  have hready : (s1.extract t).isReady = update s.isReady t false := extract_fields.2.1
  have hheir : (s1.extract t).heir = s.heir := extract_fields.2.2.2
  have hchains : Chains (fun v => (s1.extract t).isReady v = true) (s1.extract t) := by
    refine (hc.extract ht).congr fun v => ?_
    rw [hready]
    by_cases hv : v = t
    · simp [hv]
    · simp [hv]
  have hk : s.Keeps t (s1.extract t) := by
    refine ⟨fun v => by rw [extract_node], fun v _ => by rw [extract_node], fun v hv => ?_⟩
    rw [hready, update_of_ne hv]
  have hnot : (s1.extract t).isReady t = false := by rw [hready, update_self]
  simp only [schedulerBlock]
  split_ifs with hc'
  · obtain ⟨v, hv, hrun⟩ := scheduleBody_of_ready hchains (t := u) (by simp [hready, hu, hr]) (.inl rfl)
    exact ⟨_, hv, hrun, ⟨hk.value, hk.current, hk.isReady⟩, hnot⟩
  · refine ⟨_, rfl, ⟨hchains, ?_⟩, hk, hnot⟩
    have hne : s.heir ≠ t := by rintro rfl; exact hc' (.inr hheir.symm)
    rw [hheir, hready, update_of_ne hne]
    exact h.heir

theorem Running.block_last (hlast : ∀ u, s.isReady u = true → u = t) :
    { s with isReady := update s.isReady t false }.schedulerBlock t = none := by
  set s1 := { s with isReady := update s.isReady t false } with hs1
  have hc : Chains (fun u => s.isReady u = true) s1 := h.chains.of_same rfl rfl fun _ => rfl
  have hheir : (s1.extract t).heir = s.heir := extract_fields.2.2.2
  have ht : s.heir = t := hlast _ h.heir
  simp only [schedulerBlock]
  rw [if_pos (.inr (by rw [hheir, ht]))]
  have hfirst : (s1.extract t).first = none := by
    refine Option.eq_none_iff_forall_ne_some.mpr fun u hu => ?_
    obtain ⟨hr, hne⟩ := (hc.extract (ht ▸ h.heir)).of_first hu
    exact hne (hlast u hr)
  rw [scheduleBody, hfirst]
  rfl

theorem Running.unblock (ht : s.isReady t = false) (hv : (s.node t).value < 256) :
    ∃ s', { s with isReady := update s.isReady t true }.schedulerUnblock t = s' ∧
      s'.Running ∧ s.Keeps t s' ∧ s'.isReady t = true ∧ s'.Current t := by
  set s1 := { s with isReady := update s.isReady t true } with hs1
  have hc : Chains (fun u => s.isReady u = true) s1 := h.chains.of_same rfl rfl fun _ => rfl
  obtain ⟨s2, hif, hc2, hq, hval, hqo, -, hi, -, hheir⟩ :=
    unblock_queue hc (show ¬ s.isReady t = true by simp [ht]) rfl
  have hself : (s2.enqueue t).isReady t = true := by
    change s2.isReady t = true; rw [hi]; simp [hs1]
  have hrun : (s2.enqueue t).Running := by
    refine ⟨(hc2.enqueue (by simp [ht]) (by rw [hq]; exact hv)).congr fun u => ?_, ?_⟩
    · change s2.isReady u = true ↔ _
      rw [hi]
      by_cases hu : u = t
      · simp [hs1, hu]
      · simp [hs1, hu]
    · change s2.isReady s2.heir = true
      rw [hi, hheir]
      by_cases hu : s.heir = t
      · simp [hs1, hu]
      · simp [hs1, hu, h.heir]
  have hk : s.Keeps t (s2.enqueue t) := by
    refine ⟨fun u => hval u, fun u hu => hqo u hu, fun u hu => ?_⟩
    change s2.isReady u = s.isReady u
    rw [hi]
    simp [hs1, hu]
  have hcur : (s2.enqueue t).Current t := by
    change (s2.node t).readyQueue.currentPriority = (s2.node t).value; rw [hq, hval]; rfl
  refine ⟨_, rfl, ?_⟩
  simp only [schedulerUnblock, hif, updateHeir]
  split_ifs
  · exact ⟨hrun.withHeir hself, ⟨hk.value, hk.current, hk.isReady⟩, hself, hcur⟩
  · exact ⟨hrun, hk, hself, hcur⟩
  · exact ⟨hrun, hk, hself, hcur⟩

end

end SchedulerPriority

end Rtems
