import Rtems.Rfs.Buffer
import Mathlib.Data.List.Perm.Basic
import Mathlib.Data.List.Nodup

/-!
# The chains of the buffers

* `Sound`: each buffer is on one chain, the counts are the lengths of the chains, and a buffer that
  is handed back has no references; some buffers may be off the chains for a while;
* `Kept`: a buffer that was marked has a dirty handle, is on the chain of the modified buffers, or
  was handed back as modified.
-/

namespace Rtems.Rfs

open Function List

namespace BufferState

variable {H : Type} {fs fs' : BufferState H} {h : H} {b : ℕ} {loose loose' : List ℕ}

/-! ## The invariants -/

def Holds (fs : BufferState H) (h : H) (b : ℕ) : Prop := (fs.handles h).buffer = some b

/-- A buffer has at least `k` references more than handles. -/
def Bound (fs : BufferState H) (b k : ℕ) : Prop :=
  ∃ hs : List H, hs.length + k ≤ fs.references b ∧ ∀ h, fs.Holds h b → h ∈ hs

def chains (fs : BufferState H) : List ℕ := fs.buffers ++ fs.release ++ fs.releaseModified

/-- Chains, counts and references, with some buffers off the chains. -/
structure Sound (fs : BufferState H) (loose : List ℕ) : Prop where
  nodup : (fs.chains ++ loose).Nodup
  buffersCount : fs.buffersCount = fs.buffers.length
  releaseCount : fs.releaseCount = fs.release.length
  releaseModifiedCount : fs.releaseModifiedCount = fs.releaseModified.length
  active : ∀ b ∈ fs.buffers, 0 < fs.references b
  idle : ∀ modified, ∀ b ∈ fs.cache modified, fs.references b = 0
  held : ∀ h b, fs.Holds h b → b ∈ fs.buffers ++ loose
  bound : ∀ b, fs.Bound b 0
  known : ∀ b ∈ fs.chains ++ loose, b < fs.next
  handed : ∀ e ∈ fs.handedBack, e.references = 0 ∧ e.buffer < fs.next ∧
    e.buffer ∉ fs.chains ++ loose

/-- A buffer with a dirty handle, or a reference that no handle releases. -/
def Dirty (fs : BufferState H) (b : ℕ) : Prop :=
  (∃ h, fs.Holds h b ∧ (fs.handles h).dirty = true) ∨ fs.Bound b 1

/-- The marked buffers are still known to be modified, but for some. -/
structure Kept (fs : BufferState H) (exempt : List ℕ) : Prop where
  known : ∀ b, fs.marked b = true → b < fs.next
  active : ∀ b ∈ fs.buffers, b ∉ exempt → fs.marked b = true → fs.Dirty b
  release : ∀ b ∈ fs.release, fs.marked b = false
  handed : ∀ e ∈ fs.handedBack, fs.marked e.buffer = true → e.modified = true

theorem Bound.congr {k : ℕ} (hb : fs.Bound b k) (hrefs : fs'.references b = fs.references b)
    (hholds : ∀ h, fs'.Holds h b → fs.Holds h b) : fs'.Bound b k := by
  obtain ⟨hs, hlen, hin⟩ := hb
  exact ⟨hs, by omega, fun h hh => hin h (hholds h hh)⟩

theorem Bound.eq_of_holds {h' : H} (hb : fs.Bound b 0) (hrefs : fs.references b ≤ 1)
    (hh : fs.Holds h b) (hh' : fs.Holds h' b) : h' = h := by
  obtain ⟨hs, hlen, hin⟩ := hb
  have h1 := hin h hh
  have h2 := hin h' hh'
  match hs, hlen with
  | [x], _ => exact (mem_singleton.mp h2).trans (mem_singleton.mp h1).symm
  | [], _ => cases h1
  | _ :: _ :: hs, hlen => simp only [length_cons] at hlen; omega

theorem mem_chains_of_cache (modified : Bool) (hb : b ∈ fs.cache modified) : b ∈ fs.chains := by
  cases modified
  · exact mem_append_left _ (mem_append_right _ hb)
  · exact mem_append_right _ hb

theorem Sound.loose_notMem (hs : fs.Sound (b :: loose)) : b ∉ fs.chains ++ loose := by
  have hperm : (fs.chains ++ b :: loose).Perm (b :: (fs.chains ++ loose)) := perm_middle
  exact (nodup_cons.mp (hperm.nodup_iff.mp hs.nodup)).1

/-! ## Buffers between the chains -/

/-- Buffers that move between the chains and the loose ones. -/
structure Moved (fs fs' : BufferState H) (loose loose' : List ℕ) : Prop where
  perm : (fs'.chains ++ loose').Perm (fs.chains ++ loose)
  buffersCount : fs'.buffersCount = fs'.buffers.length
  releaseCount : fs'.releaseCount = fs'.release.length
  releaseModifiedCount : fs'.releaseModifiedCount = fs'.releaseModified.length
  references : fs'.references = fs.references
  handles : fs'.handles = fs.handles
  next : fs'.next = fs.next
  handedBack : fs'.handedBack = fs.handedBack

theorem Sound.moved (hs : fs.Sound loose) (hm : Moved fs fs' loose loose')
    (hactive : ∀ b ∈ fs'.buffers, 0 < fs.references b)
    (hidle : ∀ modified, ∀ b ∈ fs'.cache modified, fs.references b = 0)
    (hheld : ∀ h b, fs.Holds h b → b ∈ fs'.buffers ++ loose') : fs'.Sound loose' where
  nodup := hm.perm.nodup_iff.mpr hs.nodup
  buffersCount := hm.buffersCount
  releaseCount := hm.releaseCount
  releaseModifiedCount := hm.releaseModifiedCount
  active := by
    rw [hm.references]; exact hactive
  idle := by
    rw [hm.references]; exact hidle
  held := by
    unfold Holds; rw [hm.handles]; exact hheld
  bound := by
    intro b
    unfold Bound Holds
    rw [hm.handles, hm.references]
    exact hs.bound b
  known := by
    intro b hb; rw [hm.next]; exact hs.known b (hm.perm.mem_iff.mp hb)
  handed := by
    intro e he
    rw [hm.handedBack] at he
    rw [hm.next, hm.perm.mem_iff]
    exact hs.handed e he

theorem Sound.not_holds_of_cache (hs : fs.Sound loose) {modified : Bool}
    (hb : b ∈ fs.cache modified) : ¬ fs.Holds h b := by
  intro hh
  have hzero := hs.idle modified b hb
  rcases mem_append.mp (hs.held h b hh) with hin | hin
  · have := hs.active b hin; omega
  · exact (nodup_append.mp hs.nodup).2.2 b (mem_chains_of_cache modified hb) b hin rfl

theorem Sound.dequeued (hs : fs.Sound loose) {modified : Bool} {rest : List ℕ}
    (hc : fs.cache modified = b :: rest) : (fs.dequeued modified rest).Sound (b :: loose) := by
  have hsub : ∀ m, ∀ c ∈ (fs.dequeued modified rest).cache m, c ∈ fs.cache m := by
    intro m c hcin
    cases modified <;> cases m
    · exact hc ▸ mem_cons_of_mem _ hcin
    · exact hcin
    · exact hcin
    · exact hc ▸ mem_cons_of_mem _ hcin
  have hm : Moved fs (fs.dequeued modified rest) loose (b :: loose) := by
    cases modified
    · change fs.release = b :: rest at hc
      refine ⟨?_, hs.buffersCount, ?_, hs.releaseModifiedCount, rfl, rfl, rfl, rfl⟩
      · change (fs.buffers ++ rest ++ fs.releaseModified ++ b :: loose).Perm
          (fs.buffers ++ fs.release ++ fs.releaseModified ++ loose)
        rw [hc, perm_iff_count]
        intro c
        simp only [count_append, count_cons]
        omega
      · change fs.releaseCount - 1 = rest.length; rw [hs.releaseCount, hc, length_cons]; omega
    · change fs.releaseModified = b :: rest at hc
      refine ⟨?_, hs.buffersCount, hs.releaseCount, ?_, rfl, rfl, rfl, rfl⟩
      · change (fs.buffers ++ fs.release ++ rest ++ b :: loose).Perm
          (fs.buffers ++ fs.release ++ fs.releaseModified ++ loose)
        rw [hc, perm_iff_count]
        intro c
        simp only [count_append, count_cons]
        omega
      · change fs.releaseModifiedCount - 1 = rest.length
        rw [hs.releaseModifiedCount, hc, length_cons]
        omega
  refine hs.moved hm ?_ (fun m c hcin => hs.idle m c (hsub m c hcin)) ?_
  · have hsame : (fs.dequeued modified rest).buffers = fs.buffers := by cases modified <;> rfl
    rw [hsame]
    exact hs.active
  · intro h' c hh
    have hsame : (fs.dequeued modified rest).buffers = fs.buffers := by cases modified <;> rfl
    rw [hsame]
    rcases mem_append.mp (hs.held h' c hh) with hin | hin
    · exact mem_append_left _ hin
    · exact mem_append_right _ (mem_cons_of_mem _ hin)

section

variable (hs : fs.Sound (b :: loose)) (hzero : fs.references b = 0) (hfree : ∀ h, ¬ fs.Holds h b)
  (modified : Bool)

include hs hzero hfree modified

theorem Sound.enqueued : (fs.enqueued modified b).Sound loose := by
  have hm : Moved fs (fs.enqueued modified b) (b :: loose) loose := by
    cases modified
    · refine ⟨?_, hs.buffersCount, ?_, hs.releaseModifiedCount, rfl, rfl, rfl, rfl⟩
      · change (fs.buffers ++ (fs.release ++ [b]) ++ fs.releaseModified ++ loose).Perm
          (fs.buffers ++ fs.release ++ fs.releaseModified ++ b :: loose)
        rw [perm_iff_count]
        intro c
        simp only [count_append, count_cons, count_nil]
        omega
      · change fs.releaseCount + 1 = ((fs.release ++ [b]).length : ℤ)
        rw [hs.releaseCount, length_append, length_singleton]
        omega
    · refine ⟨?_, hs.buffersCount, hs.releaseCount, ?_, rfl, rfl, rfl, rfl⟩
      · change (fs.buffers ++ fs.release ++ (fs.releaseModified ++ [b]) ++ loose).Perm
          (fs.buffers ++ fs.release ++ fs.releaseModified ++ b :: loose)
        rw [perm_iff_count]
        intro c
        simp only [count_append, count_cons, count_nil]
        omega
      · change fs.releaseModifiedCount + 1 = ((fs.releaseModified ++ [b]).length : ℤ)
        rw [hs.releaseModifiedCount, length_append, length_singleton]
        omega
  have hsame : (fs.enqueued modified b).buffers = fs.buffers := by cases modified <;> rfl
  refine hs.moved hm (hsame ▸ hs.active) ?_ ?_
  · intro m c hcin
    have hcases : c ∈ fs.cache m ∨ c = b := by
      cases modified <;> cases m
      · exact (mem_append.mp hcin).imp_right mem_singleton.mp
      · exact .inl hcin
      · exact .inl hcin
      · exact (mem_append.mp hcin).imp_right mem_singleton.mp
    rcases hcases with hin | rfl
    · exact hs.idle m c hin
    · exact hzero
  · intro h' c hh
    rw [hsame]
    rcases mem_append.mp (hs.held h' c hh) with hin | hin
    · exact mem_append_left _ hin
    · rcases mem_cons.mp hin with rfl | hin
      · exact absurd hh (hfree h')
      · exact mem_append_right _ hin

theorem Sound.ioRelease : (fs.ioRelease b modified).Sound loose := by
  have hsub : (fs.chains ++ loose).Sublist (fs.chains ++ b :: loose) :=
    (sublist_cons_self b loose).append_left _
  refine { hs with
    nodup := hs.nodup.sublist hsub
    held := ?_
    known := fun c hc => hs.known c (hsub.subset hc)
    handed := ?_ }
  · intro h' c hh
    rcases mem_append.mp (hs.held h' c hh) with hin | hin
    · exact mem_append_left _ hin
    · rcases mem_cons.mp hin with rfl | hin
      · exact absurd hh (hfree h')
      · exact mem_append_right _ hin
  · intro e he
    rcases mem_append.mp he with he | he
    · obtain ⟨hrefs, hlt, hnot⟩ := hs.handed e he
      exact ⟨hrefs, hlt, fun hin => hnot (hsub.subset hin)⟩
    · obtain rfl := mem_singleton.mp he
      exact ⟨hzero, hs.known b (mem_append_right _ mem_cons_self), hs.loose_notMem⟩

end

section

variable (hs : fs.Sound loose)

include hs

theorem Sound.extract_perm (hb : b ∈ fs.chains) :
    ((fs.extract b).chains ++ b :: loose).Perm (fs.chains ++ loose) := by
  have hone : (fs.chains ++ loose).count b ≤ 1 := nodup_iff_count_le_one.mp hs.nodup b
  have hpos := count_pos_iff.mpr hb
  rw [perm_iff_count]
  intro c
  unfold chains at hone hpos ⊢
  unfold extract
  simp only [count_append, count_cons, count_erase] at hone hpos ⊢
  by_cases hcb : b = c
  · subst hcb; simp only [beq_self_eq_true, if_true] at *; omega
  · simp only [beq_iff_eq, hcb, if_false] at *; omega

theorem Sound.extract (hb : b ∈ fs.chains) {fs' : BufferState H} (hfs' : fs' = { fs.extract b with
      buffersCount := fs'.buffersCount
      releaseCount := fs'.releaseCount
      releaseModifiedCount := fs'.releaseModifiedCount })
    (hbuffers : fs'.buffersCount = (fs.buffers.erase b).length)
    (hrelease : fs'.releaseCount = (fs.release.erase b).length)
    (hmodified : fs'.releaseModifiedCount = (fs.releaseModified.erase b).length) :
    fs'.Sound (b :: loose) := by
  have hlists : fs'.buffers = fs.buffers.erase b ∧ fs'.release = fs.release.erase b ∧
      fs'.releaseModified = fs.releaseModified.erase b := by
    rw [hfs']
    exact ⟨rfl, rfl, rfl⟩
  have hm : Moved fs fs' loose (b :: loose) := by
    refine ⟨?_, ?_, ?_, ?_, ?_, ?_, ?_, ?_⟩
    · rw [hfs']; exact hs.extract_perm hb
    · rw [hlists.1]; exact hbuffers
    · rw [hlists.2.1]; exact hrelease
    · rw [hlists.2.2]; exact hmodified
    · rw [hfs']; rfl
    · rw [hfs']; rfl
    · rw [hfs']; rfl
    · rw [hfs']; rfl
  refine hs.moved hm ?_ ?_ ?_
  · intro c hc; rw [hlists.1] at hc; exact hs.active c (mem_of_mem_erase hc)
  · intro m c hc
    refine hs.idle m c ?_
    cases m
    · change c ∈ fs'.release at hc; rw [hlists.2.1] at hc; exact mem_of_mem_erase hc
    · change c ∈ fs'.releaseModified at hc; rw [hlists.2.2] at hc; exact mem_of_mem_erase hc
  · intro h' c hh
    rw [hlists.1]
    by_cases hcb : c = b
    · subst hcb; exact mem_append_right _ mem_cons_self
    · rcases mem_append.mp (hs.held h' c hh) with hin | hin
      · exact mem_append_left _ ((mem_erase_of_ne hcb).mpr hin)
      · exact mem_append_right _ (mem_cons_of_mem _ hin)

theorem Sound.notMem_cache (hb : b ∈ fs.buffers) : b ∉ fs.release ∧ b ∉ fs.releaseModified := by
  have hpos := hs.active b hb
  constructor
  · intro hin; have := hs.idle false b hin; omega
  · intro hin; have := hs.idle true b hin; omega

theorem Sound.notMem_releaseModified (hb : b ∈ fs.release) : b ∉ fs.releaseModified := by
  have hnodup := (nodup_append.mp hs.nodup).1
  unfold chains at hnodup
  rw [append_assoc] at hnodup
  intro hin
  exact (nodup_append.mp (nodup_append.mp hnodup).2.1).2.2 b hb b hin rfl

theorem Sound.extract_buffers (hb : b ∈ fs.buffers) :
    ({ fs.extract b with buffersCount := fs.buffersCount - 1 } : BufferState H).Sound
      (b :: loose) := by
  refine hs.extract (mem_append_left _ (mem_append_left _ hb)) rfl ?_ ?_ ?_
  · have := length_pos_of_mem hb
    change fs.buffersCount - 1 = _
    rw [hs.buffersCount, length_erase_of_mem hb]
    omega
  · change fs.releaseCount = _; rw [hs.releaseCount, erase_of_not_mem (hs.notMem_cache hb).1]
  · change fs.releaseModifiedCount = _
    rw [hs.releaseModifiedCount, erase_of_not_mem (hs.notMem_cache hb).2]

theorem Sound.extract_release (hb : b ∈ fs.release) :
    ({ fs.extract b with releaseCount := fs.releaseCount - 1 } : BufferState H).Sound
      (b :: loose) := by
  have hnot : b ∉ fs.buffers := fun hin => (hs.notMem_cache hin).1 hb
  refine hs.extract (mem_chains_of_cache false hb) rfl ?_ ?_ ?_
  · change fs.buffersCount = _; rw [hs.buffersCount, erase_of_not_mem hnot]
  · have := length_pos_of_mem hb
    change fs.releaseCount - 1 = _
    rw [hs.releaseCount, length_erase_of_mem hb]
    omega
  · change fs.releaseModifiedCount = _
    rw [hs.releaseModifiedCount, erase_of_not_mem (hs.notMem_releaseModified hb)]

theorem Sound.extract_releaseModified (hb : b ∈ fs.releaseModified) : ({ fs.extract b with
      releaseModifiedCount := fs.releaseModifiedCount - 1 } : BufferState H).Sound
      (b :: loose) := by
  have hnot : b ∉ fs.buffers := fun hin => (hs.notMem_cache hin).2 hb
  have hnot' : b ∉ fs.release := fun hin => hs.notMem_releaseModified hin hb
  refine hs.extract (mem_chains_of_cache true hb) rfl ?_ ?_ ?_
  · change fs.buffersCount = _; rw [hs.buffersCount, erase_of_not_mem hnot]
  · change fs.releaseCount = _; rw [hs.releaseCount, erase_of_not_mem hnot']
  · have := length_pos_of_mem hb
    change fs.releaseModifiedCount - 1 = _
    rw [hs.releaseModifiedCount, length_erase_of_mem hb]
    omega

theorem Sound.of_handles {handles : H → BufferHandle}
    (hholds : ∀ h b, (handles h).buffer = some b → fs.Holds h b) :
    ({ fs with handles := handles } : BufferState H).Sound loose :=
  { hs with
    held := fun h b hh => hs.held h b (hholds h b hh)
    bound := fun b => (hs.bound b).congr rfl fun h hh => hholds h b hh }

end

theorem Sound.setReferences (hs : fs.Sound (b :: loose)) {n : ℕ} (hbound : ({ fs with
      references := update fs.references b n } : BufferState H).Bound b 0) :
    ({ fs with references := update fs.references b n } : BufferState H).Sound (b :: loose) := by
  refine { hs with active := ?_, idle := ?_, bound := ?_ }
  · intro c hc
    have hne : c ≠ b := by
      rintro rfl
      exact hs.loose_notMem (mem_append_left _ (mem_append_left _ (mem_append_left _ hc)))
    change 0 < update fs.references b n c
    rw [update_of_ne hne]
    exact hs.active c hc
  · intro m c hc
    have hne : c ≠ b := by
      rintro rfl; exact hs.loose_notMem (mem_append_left _ (mem_chains_of_cache m hc))
    change update fs.references b n c = 0
    rw [update_of_ne hne]
    exact hs.idle m c hc
  · intro c
    by_cases hcb : c = b
    · subst hcb; exact hbound
    · exact (hs.bound c).congr (update_of_ne hcb _ _) fun _ hh => hh

theorem Sound.fresh (hs : fs.Sound []) : ({ fs with
      next := fs.next + 1
      references := update fs.references fs.next 0 } : BufferState H).Sound [fs.next] := by
  have hnew : fs.next ∉ fs.chains := by
    intro hin; exact absurd (hs.known fs.next (mem_append_left _ hin)) (Nat.lt_irrefl _)
  have hheld : ∀ h, ¬ fs.Holds h fs.next := by
    intro h hh
    have hin := hs.held h _ hh
    rw [append_nil] at hin
    exact hnew (mem_append_left _ (mem_append_left _ hin))
  have hloose : ({ fs with next := fs.next + 1 } : BufferState H).Sound [fs.next] := by
    refine { hs with nodup := ?_, held := ?_, known := ?_, handed := ?_ }
    · have hnodup := hs.nodup
      rw [append_nil] at hnodup
      exact nodup_append.mpr ⟨hnodup, nodup_singleton _, fun a ha c hc heq =>
        hnew (by rw [mem_singleton.mp hc] at heq; exact heq ▸ ha)⟩
    · intro h b hh
      have hin := hs.held h b hh
      rw [append_nil] at hin
      exact mem_append_left _ hin
    · intro c hc
      rcases mem_append.mp hc with hc | hc
      · exact Nat.lt_succ_of_lt (hs.known c (mem_append_left _ hc))
      · rw [mem_singleton.mp hc]; exact Nat.lt_succ_self _
    · intro e he
      obtain ⟨hrefs, hlt, hnot⟩ := hs.handed e he
      refine ⟨hrefs, Nat.lt_succ_of_lt hlt, fun hin => ?_⟩
      rcases mem_append.mp hin with hin | hin
      · exact hnot (mem_append_left _ hin)
      · rw [mem_singleton.mp hin] at hlt; exact Nat.lt_irrefl _ hlt
  exact hloose.setReferences ⟨[], Nat.zero_le _, fun h hh => absurd hh (hheld h)⟩

variable [DecidableEq H]

theorem Bound.leave {k : ℕ} (hb : fs.Bound b k) (hh : fs.Holds h b)
    (hrefs : fs'.references b = fs.references b)
    (hholds : ∀ h', fs'.Holds h' b → fs.Holds h' b ∧ h' ≠ h) : fs'.Bound b (k + 1) := by
  obtain ⟨hs, hlen, hin⟩ := hb
  have hmem := hin h hh
  refine ⟨hs.erase h, ?_, ?_⟩
  · have := length_pos_of_mem hmem; rw [length_erase_of_mem hmem]; omega
  · intro h' hh'
    obtain ⟨hold, hne⟩ := hholds h' hh'
    exact (mem_erase_of_ne hne).mpr (hin h' hold)

theorem holds_update {handles : H → BufferHandle} {x : BufferHandle} {h' : H}
    (hh : (update handles h x h').buffer = some b) :
    h' = h ∧ x.buffer = some b ∨ h' ≠ h ∧ (handles h').buffer = some b := by
  by_cases heq : h' = h
  · subst heq; rw [update_self] at hh; exact .inl ⟨rfl, hh⟩
  · rw [update_of_ne heq] at hh; exact .inr ⟨heq, hh⟩

theorem Sound.setHandle (hs : fs.Sound loose) {x : BufferHandle}
    (hx : x.buffer = none ∨ x.buffer = (fs.handles h).buffer) : (fs.setHandle h x).Sound loose := by
  refine hs.of_handles fun h' b hh => ?_
  rcases holds_update hh with ⟨rfl, hb⟩ | ⟨-, hb⟩
  · rcases hx with hx | hx
    · rw [hx] at hb; cases hb
    · exact hx.symm.trans hb
  · exact hb

theorem bound_drop {k : ℕ} (hb : fs.Bound b k) (hh : fs.Holds h b) :
    (fs.drop h).Bound b (k + 1) := by
  refine hb.leave hh rfl fun h' hh' => ?_
  rcases holds_update hh' with ⟨-, hnone⟩ | ⟨hne, hb'⟩
  · cases hnone
  · exact ⟨hb', hne⟩

theorem Sound.attach (hs : fs.Sound (b :: loose)) (hnone : (fs.handles h).buffer = none)
    (block : ℕ) : (fs.attach h block b).Sound loose := by
  have hperm : ((fs.attach h block b).chains ++ loose).Perm (fs.chains ++ b :: loose) := by
    change (fs.buffers ++ [b] ++ fs.release ++ fs.releaseModified ++ loose).Perm
      (fs.buffers ++ fs.release ++ fs.releaseModified ++ b :: loose)
    rw [perm_iff_count]
    intro c
    simp only [count_append, count_cons, count_nil]
    omega
  have hrefs : ∀ c, c ≠ b → (fs.attach h block b).references c = fs.references c :=
    fun c hc => update_of_ne hc _ _
  have hrefsb : (fs.attach h block b).references b = fs.references b + 1 := update_self _ _ _
  have hholds : ∀ h' c, (fs.attach h block b).Holds h' c → h' = h ∧ c = b ∨ fs.Holds h' c := by
    intro h' c hh
    rcases holds_update hh with ⟨rfl, hb⟩ | ⟨-, hb⟩
    · exact .inl ⟨rfl, (Option.some_inj.mp hb).symm⟩
    · exact .inr hb
  constructor
  · exact hperm.nodup_iff.mpr hs.nodup
  · change fs.buffersCount + 1 = ((fs.buffers ++ [b]).length : ℤ)
    rw [hs.buffersCount, length_append, length_singleton]
    omega
  · exact hs.releaseCount
  · exact hs.releaseModifiedCount
  · intro c hc
    by_cases hcb : c = b
    · rw [hcb, hrefsb]; omega
    · rw [hrefs c hcb]
      rcases mem_append.mp hc with hc | hc
      · exact hs.active c hc
      · exact absurd (mem_singleton.mp hc) hcb
  · intro m c hc
    have hc' : c ∈ fs.cache m := by cases m <;> exact hc
    have hcb : c ≠ b := by
      rintro rfl; exact hs.loose_notMem (mem_append_left _ (mem_chains_of_cache m hc'))
    rw [hrefs c hcb]
    exact hs.idle m c hc'
  · intro h' c hh
    change c ∈ fs.buffers ++ [b] ++ loose
    rw [append_assoc]
    rcases hholds h' c hh with ⟨-, rfl⟩ | hh
    · exact mem_append_right _ mem_cons_self
    · exact hs.held h' c hh
  · intro c
    obtain ⟨hs', hlen, hin⟩ := hs.bound c
    by_cases hcb : c = b
    · refine ⟨h :: hs', ?_, ?_⟩
      · rw [hcb, hrefsb, length_cons]; rw [hcb] at hlen; omega
      · intro h' hh
        rcases hholds h' c hh with ⟨rfl, -⟩ | hh
        · exact mem_cons_self
        · exact mem_cons_of_mem _ (hin h' hh)
    · refine ⟨hs', by rw [hrefs c hcb]; exact hlen, ?_⟩
      intro h' hh
      rcases hholds h' c hh with ⟨-, heq⟩ | hh
      · exact absurd heq hcb
      · exact hin h' hh
  · intro c hc; exact hs.known c (hperm.mem_iff.mp hc)
  · intro e he; rw [hperm.mem_iff]; exact hs.handed e he

end BufferState

end Rtems.Rfs
