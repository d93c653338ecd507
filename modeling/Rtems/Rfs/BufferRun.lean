import Rtems.Rfs.BufferChain

/-!
# No modification of a buffer is lost

* `releaseBuffer_spec`, `locate_spec`: the parts of the operations keep the chains sound and the
  modifications known;
* `BufferOperation`, `step`: the operations of the handles;
* `LeavesDirty`: a dirty handle leaves a shared buffer only to another dirty handle;
* **`buffer_exact`**: over every sequence of operations the chains are sound, and no modification is
  lost if the operations leave the buffers dirty.
-/

namespace Rtems.Rfs

open Function PartialRun List

namespace BufferState

variable {H : Type} {fs fs' : BufferState H} {h : H} {b : ℕ} {loose exempt : List ℕ}

/-! ## Modified buffers -/

theorem Dirty.congr (hd : fs.Dirty b) (hrefs : fs'.references b = fs.references b)
    (hhandles : fs'.handles = fs.handles) : fs'.Dirty b := by
  unfold Dirty Holds at hd ⊢
  rw [hhandles]
  refine hd.imp_right fun hb => hb.congr hrefs fun h hh => ?_
  unfold Holds at hh ⊢
  rwa [hhandles] at hh

/-- The buffers of the handles are not concerned. -/
structure Aside (fs fs' : BufferState H) : Prop where
  buffers : fs'.buffers = fs.buffers
  references : fs'.references = fs.references
  handles : fs'.handles = fs.handles
  maxHeldBuffers : fs'.maxHeldBuffers = fs.maxHeldBuffers
  next : fs'.next = fs.next
  marked : fs'.marked = fs.marked

theorem Aside.refl (fs : BufferState H) : Aside fs fs := ⟨rfl, rfl, rfl, rfl, rfl, rfl⟩

theorem Aside.trans {fs'' : BufferState H} (h1 : Aside fs fs') (h2 : Aside fs' fs'') :
    Aside fs fs'' :=
  ⟨h2.buffers.trans h1.buffers, h2.references.trans h1.references, h2.handles.trans h1.handles,
    h2.maxHeldBuffers.trans h1.maxHeldBuffers, h2.next.trans h1.next, h2.marked.trans h1.marked⟩

theorem Kept.aside (hk : fs.Kept exempt) (ha : Aside fs fs')
    (hrelease : ∀ b ∈ fs'.release, fs.marked b = false)
    (hhanded : ∀ e ∈ fs'.handedBack, fs.marked e.buffer = true → e.modified = true) :
    fs'.Kept exempt where
  known := by
    rw [ha.marked, ha.next]; exact hk.known
  active := by
    rw [ha.marked, ha.buffers]
    intro b hb hnot hmarked
    exact (hk.active b hb hnot hmarked).congr (congrFun ha.references b) ha.handles
  release := by
    rw [ha.marked]; exact hrelease
  handed := by
    rw [ha.marked]; exact hhanded

theorem aside_dequeued (fs : BufferState H) (modified : Bool) (rest : List ℕ) :
    Aside fs (fs.dequeued modified rest) := by
  cases modified <;> exact ⟨rfl, rfl, rfl, rfl, rfl, rfl⟩

theorem aside_enqueued (fs : BufferState H) (b : ℕ) (modified : Bool) :
    Aside fs (fs.enqueued modified b) := by
  cases modified <;> exact ⟨rfl, rfl, rfl, rfl, rfl, rfl⟩

theorem aside_ioRelease (modified : Bool) : Aside fs (fs.ioRelease b modified) :=
  ⟨rfl, rfl, rfl, rfl, rfl, rfl⟩

theorem Kept.dequeued (hk : fs.Kept exempt) {modified : Bool} {rest : List ℕ}
    (hc : fs.cache modified = b :: rest) : (fs.dequeued modified rest).Kept exempt := by
  refine hk.aside (aside_dequeued fs modified rest) ?_ ?_
  · intro c hin
    refine hk.release c ?_
    cases modified
    · change fs.release = b :: rest at hc; rw [hc]; exact mem_cons_of_mem _ hin
    · exact hin
  · have hsame : (fs.dequeued modified rest).handedBack = fs.handedBack := by
      cases modified <;> rfl
    rw [hsame]
    exact hk.handed

theorem Kept.modified_of_cache (hk : fs.Kept exempt) {modified : Bool} (hb : b ∈ fs.cache modified)
    (hmarked : fs.marked b = true) : modified = true := by
  cases modified
  · have := hk.release b hb; rw [hmarked] at this; cases this
  · rfl

section

variable (hk : fs.Kept exempt) {modified : Bool} (hb : fs.marked b = true → modified = true)

include hk hb

theorem Kept.enqueued : (fs.enqueued modified b).Kept exempt := by
  refine hk.aside (aside_enqueued fs b modified) ?_ ?_
  · intro c hin
    cases modified
    · rcases mem_append.mp hin with hin | hin
      · exact hk.release c hin
      · rw [mem_singleton.mp hin]
        by_contra hmarked
        cases hb (Bool.not_eq_false _ ▸ hmarked)
    · exact hk.release c hin
  · have hsame : (fs.enqueued modified b).handedBack = fs.handedBack := by cases modified <;> rfl
    rw [hsame]
    exact hk.handed

theorem Kept.ioRelease : (fs.ioRelease b modified).Kept exempt := by
  refine hk.aside (aside_ioRelease modified) hk.release ?_
  intro e he
  rcases mem_append.mp he with he | he
  · exact hk.handed e he
  · rw [mem_singleton.mp he]; exact hb

end

/-! ## Release -/

theorem handBack_spec (hs : fs.Sound loose) {modified : Bool} {rest : List ℕ}
    (hc : fs.cache modified = b :: rest) :
    ((fs.dequeued modified rest).ioRelease b modified).Sound loose ∧
      Aside fs ((fs.dequeued modified rest).ioRelease b modified) ∧
      ∀ exempt, fs.Kept exempt →
        ((fs.dequeued modified rest).ioRelease b modified).Kept exempt := by
  have hin : b ∈ fs.cache modified := by rw [hc]; exact mem_cons_self
  have ha := aside_dequeued fs modified rest
  refine ⟨?_, ha.trans (aside_ioRelease modified), ?_⟩
  · refine (hs.dequeued hc).ioRelease ?_ ?_ modified
    · rw [ha.references]; exact hs.idle modified b hin
    · intro h hh
      unfold Holds at hh
      rw [ha.handles] at hh
      exact hs.not_holds_of_cache hin hh
  · intro exempt hk
    refine (hk.dequeued hc).ioRelease ?_
    rw [ha.marked]
    exact hk.modified_of_cache hin

theorem evict_spec (hs : fs.Sound loose) (hmax : 1 ≤ fs.maxHeldBuffers) :
    ∃ r, fs.evict = some r ∧ r.2.Sound loose ∧ Aside fs r.2 ∧
      ∀ exempt, fs.Kept exempt → r.2.Kept exempt := by
  unfold evict
  by_cases hfull : (fs.maxHeldBuffers : ℤ) ≤ fs.releaseCount + fs.releaseModifiedCount
  · rw [if_pos hfull]
    have hrelease := hs.releaseCount
    have hmodified := hs.releaseModifiedCount
    obtain ⟨b, rest, hc⟩ : ∃ b rest, fs.cache
        (!decide (fs.releaseModifiedCount < fs.releaseCount)) = b :: rest := by
      refine exists_cons_of_length_pos ?_
      by_cases hlt : fs.releaseModifiedCount < fs.releaseCount
      · rw [decide_eq_true hlt]; change 0 < fs.release.length; omega
      · rw [decide_eq_false hlt]; change 0 < fs.releaseModified.length; omega
    simp only [hc]
    obtain ⟨hsound, ha, hk⟩ := handBack_spec hs hc
    exact ⟨_, rfl, hsound, ha, hk⟩
  · rw [if_neg hfull]; exact ⟨_, rfl, hs, .refl fs, fun _ hk => hk⟩

theorem releaseChain_spec (modified : Bool) (chain : List ℕ) :
    ∀ fs : BufferState H, fs.Sound [] → fs.cache modified = chain →
      (releaseChain modified chain fs).Sound [] ∧ Aside fs (releaseChain modified chain fs) ∧
      (fs.Kept [] → (releaseChain modified chain fs).Kept []) := by
  induction chain with
  | nil => exact fun fs hs _ => ⟨hs, .refl fs, fun hk => hk⟩
  | cons b rest ih =>
    intro fs hs hc
    obtain ⟨hsound, ha, hkept⟩ := handBack_spec hs hc
    have hrest : ((fs.dequeued modified rest).ioRelease b modified).cache modified = rest := by
      cases modified <;> rfl
    obtain ⟨hsound', ha', hkept'⟩ := ih _ hsound hrest
    exact ⟨hsound', ha.trans ha', fun hk => hkept' (hkept [] hk)⟩

theorem buffersRelease_spec (hs : fs.Sound []) : fs.buffersRelease.Sound [] ∧
    fs.buffersRelease.maxHeldBuffers = fs.maxHeldBuffers ∧
    (fs.Kept [] → fs.buffersRelease.Kept []) := by
  obtain ⟨h1, ha1, hk1⟩ := releaseChain_spec false _ fs hs rfl
  obtain ⟨h2, ha2, hk2⟩ := releaseChain_spec true _ _ h1 rfl
  exact ⟨h2, (ha1.trans ha2).maxHeldBuffers, fun hk => hk2 (hk1 hk)⟩

theorem Bound.down {k : ℕ} (hb : fs.Bound b (k + 1)) : ({ fs with
    references := update fs.references b (fs.references b - 1) } : BufferState H).Bound b k := by
  obtain ⟨hs, hlen, hin⟩ := hb
  refine ⟨hs, ?_, hin⟩
  change hs.length + k ≤ update fs.references b (fs.references b - 1) b
  rw [update_self]
  omega

theorem Sound.refsDown (hs : fs.Sound loose) (hrefs : 1 < fs.references b)
    (hbound : fs.Bound b 1) : (fs.refsDown b).Sound loose := by
  unfold BufferState.refsDown
  rw [if_pos (by omega)]
  have hother : ∀ c, c ≠ b → update fs.references b (fs.references b - 1) c =
      fs.references c := fun c hc => update_of_ne hc _ _
  refine { hs with active := ?_, idle := ?_, bound := ?_ }
  · intro c hc
    change 0 < update fs.references b (fs.references b - 1) c
    by_cases hcb : c = b
    · rw [hcb, update_self]; omega
    · rw [hother c hcb]; exact hs.active c hc
  · intro m c hc
    have hzero : fs.references c = 0 := hs.idle m c (by cases m <;> exact hc)
    change update fs.references b (fs.references b - 1) c = 0
    rw [hother c (by rintro rfl; omega)]
    exact hzero
  · intro c
    by_cases hcb : c = b
    · exact hcb ▸ hbound.down
    · exact (hs.bound c).congr (hother c hcb) fun _ hh => hh

/-- A buffer keeps a dirty handle, or a reference that no handle can release. -/
theorem Kept.refsDown (hk : fs.Kept [b]) (hrefs : 1 < fs.references b)
    (hdirty : fs.marked b = true →
      (∃ h, fs.Holds h b ∧ (fs.handles h).dirty = true) ∨ fs.Bound b 2) :
    (fs.refsDown b).Kept [] := by
  unfold BufferState.refsDown
  rw [if_pos (by omega)]
  refine ⟨hk.known, ?_, hk.release, hk.handed⟩
  intro c hc _ hmarked
  by_cases hcb : c = b
  · subst hcb; exact (hdirty hmarked).imp_right Bound.down
  · exact (hk.active c hc (fun hin => hcb (mem_singleton.mp hin)) hmarked).congr
      (update_of_ne hcb _ _) rfl

theorem lastDown_spec (hs : fs.Sound []) (hb : b ∈ fs.buffers) (hrefs : fs.references b = 1)
    (hbound : fs.Bound b 1) : ∃ fs' : BufferState H, { (fs.refsDown b).extract b with
        buffersCount := (fs.refsDown b).buffersCount - 1 } = fs' ∧
      fs'.Sound [b] ∧ fs'.references b = 0 ∧ (∀ h, ¬ fs'.Holds h b) ∧ fs'.handles = fs.handles ∧
      fs'.marked = fs.marked ∧ fs'.maxHeldBuffers = fs.maxHeldBuffers ∧
      (fs.Kept [b] → fs'.Kept []) := by
  have hbound' : ({ fs.extract b with
      buffersCount := fs.buffersCount - 1 } : BufferState H).Bound b 1 := hbound
  have hsound := (hs.extract_buffers hb).setReferences hbound'.down
  unfold BufferState.refsDown
  rw [if_pos (by omega)]
  refine ⟨_, rfl, hsound, ?_, ?_, rfl, rfl, rfl, ?_⟩
  · change update fs.references b (fs.references b - 1) b = 0; rw [update_self]; omega
  · intro h hh
    obtain ⟨hs', hlen, hin⟩ := hbound
    have := length_pos_of_mem (hin h hh)
    omega
  · intro hk
    refine ⟨hk.known, ?_, fun c hc => hk.release c (mem_of_mem_erase hc), hk.handed⟩
    intro c hc _ hmarked
    have hne : c ≠ b := by
      rintro rfl
      exact hsound.loose_notMem (mem_append_left _ (mem_append_left _ (mem_append_left _ hc)))
    have hold : fs.Dirty c := hk.active c (mem_of_mem_erase hc)
      (fun hin => hne (mem_singleton.mp hin)) hmarked
    exact hold.congr (update_of_ne hne _ _) rfl

theorem releaseBuffer_spec (hs : fs.Sound []) (hb : b ∈ fs.buffers) (hbound : fs.Bound b 1)
    (hmax : 1 ≤ fs.maxHeldBuffers) (dirty released : Bool) :
    ∃ r, fs.releaseBuffer b dirty released = some r ∧ r.2.Sound [] ∧ r.2.handles = fs.handles ∧
      r.2.maxHeldBuffers = fs.maxHeldBuffers ∧
      (fs.Kept [b] → (fs.marked b = true → fs.references b = 1 → dirty = true) →
        (fs.marked b = true → 1 < fs.references b →
          (∃ h, fs.Holds h b ∧ (fs.handles h).dirty = true) ∨ fs.Bound b 2) → r.2.Kept []) := by
  have hpos := hs.active b hb
  have hdown : (fs.refsDown b).references b = fs.references b - 1 := by
    unfold refsDown; rw [if_pos hpos]; exact update_self _ _ _
  unfold releaseBuffer
  by_cases hone : fs.references b = 1
  · obtain ⟨fs', heq, hsound, hzero, hfree, hhandles, hmarked, hmax', hkept⟩ :=
      lastDown_spec hs hb hone hbound
    simp only [heq, if_pos (show (fs.refsDown b).references b = 0 by omega)]
    by_cases hcache : ((fs.refsDown b).extract b).noLocalCache = true
    · rw [if_pos hcache]
      refine ⟨_, rfl, hsound.ioRelease hzero hfree dirty, hhandles, hmax', ?_⟩
      intro hk hlast _
      exact (hkept hk).ioRelease fun hm => hlast (by rw [← hmarked]; exact hm) hone
    · rw [if_neg hcache]
      obtain ⟨r, hr, hr1, ha, hk1⟩ := evict_spec hsound (hmax' ▸ hmax)
      rw [hr]
      have hqueue := aside_enqueued r.2 b dirty
      refine ⟨_, rfl, hr1.enqueued ?_ ?_ dirty, ?_, ?_, ?_⟩
      · rw [ha.references]; exact hzero
      · intro h hh
        unfold Holds at hh
        rw [ha.handles] at hh
        exact hfree h hh
      · exact (hqueue.handles.trans ha.handles).trans hhandles
      · exact (hqueue.maxHeldBuffers.trans ha.maxHeldBuffers).trans hmax'
      · intro hk hlast _
        refine (hk1 [] (hkept hk)).enqueued ?_
        rw [ha.marked, hmarked]
        exact fun hm => hlast hm hone
  · simp only [if_neg (show ¬ (fs.refsDown b).references b = 0 by omega)]
    have hmany : 1 < fs.references b := by omega
    refine ⟨_, rfl, hs.refsDown hmany hbound, ?_, ?_, ?_⟩
    · unfold refsDown; rw [if_pos hpos]
    · unfold refsDown; rw [if_pos hpos]
    · intro hk _ hdirty; exact hk.refsDown hmany fun hm => hdirty hm hmany

theorem Kept.extract (hk : fs.Kept []) (b : ℕ)
    (buffersCount releaseCount releaseModifiedCount : ℤ) :
    ({ fs.extract b with
      buffersCount := buffersCount
      releaseCount := releaseCount
      releaseModifiedCount := releaseModifiedCount } : BufferState H).Kept [] := by
  refine ⟨hk.known, ?_, fun c hc => hk.release c (mem_of_mem_erase hc), hk.handed⟩
  intro c hc _ hmarked
  exact (hk.active c (mem_of_mem_erase hc) not_mem_nil hmarked).congr rfl rfl

theorem mem_of_scanChain {chain : List ℕ} {block : ℕ} (hf : fs.scanChain chain block = some b) :
    b ∈ chain := mem_reverse.mp (mem_of_find?_eq_some hf)

variable [DecidableEq H]

theorem evict_drop (fs : BufferState H) (h : H) :
    (fs.drop h).evict = fs.evict.map fun r => (r.1, r.2.drop h) := by
  have hmove : ∀ m rest b, ((fs.drop h).dequeued m rest).ioRelease b m =
      ((fs.dequeued m rest).ioRelease b m).drop h := by
    intro m rest b
    cases m <;> rfl
  have hcache : ∀ m, (fs.drop h).cache m = fs.cache m := by intro m; cases m <;> rfl
  have hcount : (fs.drop h).releaseCount = fs.releaseCount ∧
      (fs.drop h).releaseModifiedCount = fs.releaseModifiedCount ∧
      (fs.drop h).maxHeldBuffers = fs.maxHeldBuffers := ⟨rfl, rfl, rfl⟩
  unfold evict
  simp only [hmove, hcache, hcount]
  split
  · cases fs.cache (!decide (fs.releaseModifiedCount < fs.releaseCount)) <;> rfl
  · rfl

theorem releaseBuffer_drop (fs : BufferState H) (h : H) (b : ℕ) (dirty released : Bool) :
    (fs.drop h).releaseBuffer b dirty released =
      (fs.releaseBuffer b dirty released).map fun r => (r.1, r.2.drop h) := by
  have hdown : (fs.drop h).refsDown b = (fs.refsDown b).drop h := by
    unfold refsDown
    by_cases hpos : 0 < fs.references b
    · rw [if_pos hpos, if_pos (show 0 < (fs.drop h).references b from hpos)]; rfl
    · rw [if_neg hpos, if_neg (show ¬ 0 < (fs.drop h).references b from hpos)]
  unfold releaseBuffer
  rw [hdown]
  generalize fs.refsDown b = fs
  change (if fs.references b = 0 then _ else _) = _
  by_cases hzero : fs.references b = 0
  · rw [if_pos hzero, if_pos hzero]
    change (if fs.noLocalCache = true then _ else _) = _
    by_cases hcache : fs.noLocalCache = true
    · rw [if_pos hcache, if_pos (show ({ fs.extract b with
        buffersCount := fs.buffersCount - 1 } : BufferState H).noLocalCache = true from hcache)]
      rfl
    · rw [if_neg hcache, if_neg (show ¬ ({ fs.extract b with
        buffersCount := fs.buffersCount - 1 } : BufferState H).noLocalCache = true from hcache)]
      have hevict := evict_drop { fs.extract b with buffersCount := fs.buffersCount - 1 } h
      change Option.map _ (({ fs.extract b with
        buffersCount := fs.buffersCount - 1 } : BufferState H).drop h).evict = _
      rw [hevict, Option.map_map, Option.map_map]
      refine congrArg (Option.map · _) (funext fun r => ?_)
      cases dirty <;> rfl
  · rw [if_neg hzero, if_neg hzero]; rfl

/-- A handle leaves its buffer as the last one, or its dirty flag is not needed. -/
def LeavesDirty (fs : BufferState H) (h : H) : Prop :=
  ∀ b, fs.Holds h b → (fs.handles h).dirty = true → 1 < fs.references b →
    ∃ h', h' ≠ h ∧ fs.Holds h' b ∧ (fs.handles h').dirty = true

theorem handleRelease_spec (hs : fs.Sound []) (hmax : 1 ≤ fs.maxHeldBuffers) (h : H)
    (released : Bool) :
    ∃ r, fs.handleRelease h released = some r ∧ r.2.Sound [] ∧ (r.2.handles h).buffer = none ∧
      r.2.maxHeldBuffers = fs.maxHeldBuffers ∧
      (fs.Kept [] → fs.LeavesDirty h → r.2.Kept []) := by
  unfold handleRelease
  cases hbuf : (fs.handles h).buffer with
  | none => exact ⟨_, rfl, hs, hbuf, rfl, fun hk _ => hk⟩
  | some b =>
    have hin : b ∈ fs.buffers := by
      have := hs.held h b hbuf
      rwa [append_nil] at this
    have hdrop : (fs.drop h).Sound [] := hs.setHandle (.inl rfl)
    have hbound : (fs.drop h).Bound b 1 := bound_drop (hs.bound b) hbuf
    obtain ⟨r, hr, hsound, hhandles, hmax', hkept⟩ :=
      releaseBuffer_spec hdrop hin hbound hmax (fs.handles h).dirty released
    rw [releaseBuffer_drop] at hr
    refine ⟨r, hr, hsound, ?_, hmax', ?_⟩
    · rw [hhandles]; change (update fs.handles h _ h).buffer = none; rw [update_self]
    · intro hk hleaves
      -- A dirty holder of a buffer is the handle itself or keeps it.
      have hother : ∀ c, fs.Dirty c →
          (∃ h', h' ≠ h ∧ fs.Holds h' c ∧ (fs.handles h').dirty = true) ∨
          fs.Holds h c ∧ (fs.handles h).dirty = true ∨ fs.Bound c 1 := by
        rintro c (⟨h', hh, hd⟩ | hb)
        · by_cases heq : h' = h
          · exact .inr (.inl (heq ▸ ⟨hh, hd⟩))
          · exact .inl ⟨h', heq, hh, hd⟩
        · exact .inr (.inr hb)
      have hkeep : ∀ h' c, h' ≠ h → fs.Holds h' c → (fs.handles h').dirty = true →
          ∃ h', (fs.drop h).Holds h' c ∧ ((fs.drop h).handles h').dirty = true := by
        intro h' c hne hh hd
        have hsame : (fs.drop h).handles h' = fs.handles h' := update_of_ne hne _ _
        exact ⟨h', by unfold Holds; rwa [hsame], by rwa [hsame]⟩
      refine hkept ⟨hk.known, ?_, hk.release, hk.handed⟩ ?_ ?_
      · intro c hc hnot hmarked
        rcases hother c (hk.active c hc not_mem_nil hmarked) with
          ⟨h', hne, hh, hd⟩ | ⟨hh, -⟩ | hb
        · exact .inl (hkeep h' c hne hh hd)
        · exact absurd (mem_singleton.mpr (Option.some_inj.mp (hh.symm.trans hbuf))) hnot
        · refine .inr (hb.congr rfl fun h' hh => ?_)
          rcases holds_update hh with ⟨-, hnone⟩ | ⟨-, hb⟩
          · cases hnone
          · exact hb
      · intro hmarked hone
        change fs.references b = 1 at hone
        rcases hother b (hk.active b hin not_mem_nil hmarked) with
          ⟨h', hne, hh, -⟩ | ⟨-, hd⟩ | hb
        · exact absurd ((hs.bound b).eq_of_holds (by omega) hbuf hh) hne
        · exact hd
        · obtain ⟨hs', hlen, hmem⟩ := hb; have := length_pos_of_mem (hmem h hbuf); omega
      · intro hmarked hmany
        rcases hother b (hk.active b hin not_mem_nil hmarked) with
          ⟨h', hne, hh, hd⟩ | ⟨-, hd⟩ | hb
        · exact .inl (hkeep h' b hne hh hd)
        · obtain ⟨h', hne, hh, hd⟩ := hleaves b hbuf hd hmany; exact .inl (hkeep h' b hne hh hd)
        · exact .inr (bound_drop hb hbuf)

/-! ## Request -/

theorem Dirty.attach {c : ℕ} (hd : fs.Dirty c) (hnone : (fs.handles h).buffer = none)
    (block b : ℕ) : (fs.attach h block b).Dirty c := by
  rcases hd with ⟨h', hh, hdirty⟩ | ⟨hs', hlen, hin⟩
  · have hne : h' ≠ h := by
      rintro rfl
      unfold Holds at hh
      rw [hnone] at hh
      cases hh
    have hsame : (fs.attach h block b).handles h' = fs.handles h' := update_of_ne hne _ _
    exact .inl ⟨h', by unfold Holds; rwa [hsame], by rwa [hsame]⟩
  · right
    by_cases hcb : c = b
    · subst hcb
      refine ⟨h :: hs', ?_, ?_⟩
      · change (h :: hs').length + 1 ≤ update fs.references c (fs.references c + 1) c
        rw [update_self, length_cons]
        omega
      · intro h' hh
        rcases holds_update hh with ⟨rfl, -⟩ | ⟨-, hold⟩
        · exact mem_cons_self
        · exact mem_cons_of_mem _ (hin h' hold)
    · refine Bound.congr ⟨hs', hlen, hin⟩ (update_of_ne hcb _ _) fun h' hh => ?_
      rcases holds_update hh with ⟨-, hb⟩ | ⟨-, hold⟩
      · exact absurd (Option.some_inj.mp hb).symm hcb
      · exact hold

theorem Dirty.setHandle {c : ℕ} (hd : fs.Dirty c) {x : BufferHandle}
    (hbuffer : x.buffer = (fs.handles h).buffer)
    (hdirty : fs.Holds h c → (fs.handles h).dirty = true → x.dirty = true) :
    (fs.setHandle h x).Dirty c := by
  rcases hd with ⟨h', hh, hd'⟩ | hb
  · left
    by_cases heq : h' = h
    · subst heq
      refine ⟨h', ?_, ?_⟩
      · change (update fs.handles h' x h').buffer = some c; rw [update_self, hbuffer]; exact hh
      · change (update fs.handles h' x h').dirty = true; rw [update_self]; exact hdirty hh hd'
    · have hsame : (fs.setHandle h x).handles h' = fs.handles h' := update_of_ne heq _ _
      exact ⟨h', by unfold Holds; rwa [hsame], by rwa [hsame]⟩
  · refine .inr (hb.congr rfl fun h' hh => ?_)
    rcases holds_update hh with ⟨rfl, hx⟩ | ⟨-, hold⟩
    · exact hbuffer.symm.trans hx
    · exact hold

theorem Kept.setHandle (hk : fs.Kept []) {x : BufferHandle}
    (hbuffer : x.buffer = (fs.handles h).buffer)
    (hdirty : ∀ b, fs.Holds h b → (fs.handles h).dirty = true → x.dirty = true) :
    (fs.setHandle h x).Kept [] :=
  ⟨hk.known, fun c hc hnot hmarked => (hk.active c hc hnot hmarked).setHandle hbuffer (hdirty c),
    hk.release, hk.handed⟩

theorem Kept.attach (hk : fs.Kept []) (hnone : (fs.handles h).buffer = none) {block : ℕ}
    (hb : fs.marked b = true → (fs.attach h block b).Dirty b) : (fs.attach h block b).Kept [] := by
  refine ⟨hk.known, ?_, hk.release, hk.handed⟩
  intro c hc _ hmarked
  rcases mem_append.mp hc with hin | hin
  · exact (hk.active c hin not_mem_nil hmarked).attach hnone block b
  · obtain rfl := mem_singleton.mp hin; exact hb hmarked

theorem attach_handles_self (fs : BufferState H) (h : H) (block b : ℕ) :
    (fs.attach h block b).handles h = { fs.handles h with buffer := some b, bnum := block } :=
  update_self _ _ _

theorem attachDirty_spec (hs : fs.Sound [b]) (hnone : (fs.handles h).buffer = none) (block : ℕ) :
    ((fs.setHandle h { fs.handles h with dirty := true }).attach h block b).Sound [] ∧ (fs.Kept [] →
        ((fs.setHandle h { fs.handles h with dirty := true }).attach h block b).Kept []) := by
  have hself : (fs.setHandle h { fs.handles h with dirty := true }).handles h =
      { fs.handles h with dirty := true } := update_self _ _ _
  have hnone' : ((fs.setHandle h { fs.handles h with dirty := true }).handles h).buffer = none := by
    rw [hself]; exact hnone
  have hset : (fs.setHandle h { fs.handles h with dirty := true }).Sound [b] :=
    hs.setHandle (.inr rfl)
  refine ⟨hset.attach hnone' block, fun hk => ?_⟩
  have hkset : (fs.setHandle h { fs.handles h with dirty := true }).Kept [] :=
    hk.setHandle rfl fun _ _ _ => rfl
  refine hkset.attach hnone' fun _ => .inl ⟨h, ?_, ?_⟩
  · unfold Holds; rw [attach_handles_self]
  · rw [attach_handles_self, hself]

section

variable (hs : fs.Sound []) (hnone : (fs.handles h).buffer = none) (block : ℕ) (requested : Bool)

include hs hnone block requested

theorem obtain_spec : (fs.obtain h block requested).2.Sound [] ∧
      (fs.obtain h block requested).2.maxHeldBuffers = fs.maxHeldBuffers ∧
      (fs.Kept [] → (fs.obtain h block requested).2.Kept []) := by
  cases requested
  · exact ⟨hs, rfl, fun hk => hk⟩
  · refine ⟨hs.fresh.attach hnone block, rfl, fun hk => ?_⟩
    have hnew : fs.next ∉ fs.buffers := by
      intro hin
      exact absurd (hs.known fs.next (mem_append_left _ (mem_append_left _
        (mem_append_left _ hin)))) (Nat.lt_irrefl _)
    have hkept : ({ fs with
        next := fs.next + 1
        references := update fs.references fs.next 0 } : BufferState H).Kept [] := by
      refine ⟨fun c hc => Nat.lt_succ_of_lt (hk.known c hc), ?_, hk.release, hk.handed⟩
      intro c hc _ hmarked
      have hne : c ≠ fs.next := by rintro rfl; exact hnew hc
      exact (hk.active c hc not_mem_nil hmarked).congr (update_of_ne hne _ _) rfl
    refine hkept.attach hnone fun hmarked => ?_
    exact absurd (hk.known fs.next hmarked) (Nat.lt_irrefl _)

theorem locate_spec : (fs.locate h block requested).2.Sound [] ∧
      (fs.locate h block requested).2.maxHeldBuffers = fs.maxHeldBuffers ∧
      (fs.Kept [] → (fs.locate h block requested).2.Kept []) := by
  unfold locate
  split
  · next b hf =>
    have hin : b ∈ fs.buffers := by
      split at hf
      · cases hf
      · exact mem_of_scanChain hf
    refine ⟨(hs.extract_buffers hin).attach hnone block, rfl, fun hk => ?_⟩
    refine (hk.extract b _ _ _).attach hnone fun hmarked => ?_
    exact ((hk.active b hin not_mem_nil hmarked).congr rfl rfl).attach hnone block b
  · by_cases hcache : fs.noLocalCache = true
    · rw [if_pos hcache]; exact obtain_spec hs hnone block requested
    · rw [if_neg hcache]
      split
      · next b hf =>
        have hin : b ∈ fs.release := by
          split at hf
          · cases hf
          · exact mem_of_scanChain hf
        refine ⟨(hs.extract_release hin).attach hnone block, rfl, fun hk => ?_⟩
        refine (hk.extract b _ _ _).attach hnone fun hmarked => ?_
        change fs.marked b = true at hmarked
        rw [hk.release b hin] at hmarked
        cases hmarked
      · split
        · next b hf =>
          have hin : b ∈ fs.releaseModified := by
            split at hf
            · cases hf
            · exact mem_of_scanChain hf
          obtain ⟨hsound, hkept⟩ := attachDirty_spec (hs.extract_releaseModified hin) hnone block
          exact ⟨hsound, rfl, fun hk => hkept (hk.extract b _ _ _)⟩
        · exact obtain_spec hs hnone block requested

end

section

variable (hs : fs.Sound [])

include hs

theorem handleRequest_spec (hmax : 1 ≤ fs.maxHeldBuffers) (h : H) (block : ℕ)
    (requested released : Bool) :
    ∃ r, fs.handleRequest h block requested released = some r ∧ r.2.Sound [] ∧
      r.2.maxHeldBuffers = fs.maxHeldBuffers ∧
      (fs.Kept [] → (¬ (block ≠ 0 ∧ (fs.handles h).bnum = block) → fs.LeavesDirty h) →
        r.2.Kept []) := by
  unfold handleRequest
  by_cases hnone : (fs.handles h).buffer = none
  · rw [if_pos hnone]
    obtain ⟨hsound, hmax', hkept⟩ := locate_spec hs hnone block requested
    exact ⟨_, rfl, hsound, hmax', fun hk _ => hkept hk⟩
  · rw [if_neg hnone]
    by_cases hsame : block ≠ 0 ∧ (fs.handles h).bnum = block
    · rw [if_pos hsame]; exact ⟨_, rfl, hs, rfl, fun hk _ => hk⟩
    · rw [if_neg hsame]
      obtain ⟨r, hr, hsound, hnone', hmax', hkept⟩ := handleRelease_spec hs hmax h released
      rw [hr]
      refine ⟨_, rfl, ?_⟩
      by_cases hok : r.1 = true
      · simp only [if_pos hok]
        have hself : (r.2.setHandle h { r.2.handles h with dirty := false, bnum := 0 }).handles h =
            { r.2.handles h with dirty := false, bnum := 0 } := update_self _ _ _
        have hset : (r.2.setHandle h { r.2.handles h with dirty := false, bnum := 0 }).Sound [] :=
          hsound.setHandle (.inr rfl)
        obtain ⟨hsound', hmax'', hkept'⟩ := locate_spec hset
          ((congrArg BufferHandle.buffer hself).trans hnone') block requested
        refine ⟨hsound', hmax''.trans hmax', fun hk hleaves => ?_⟩
        refine hkept' ((hkept hk (hleaves hsame)).setHandle rfl fun b hh => ?_)
        unfold Holds at hh
        rw [hnone'] at hh
        cases hh
      · simp only [if_neg hok]; exact ⟨hsound, hmax', fun hk hleaves => hkept hk (hleaves hsame)⟩

/-! ## Handles -/

/-- A handle that is opened again leaves a reference of its buffer behind. -/
theorem handleOpen_spec (h : H) : (fs.handleOpen h).Sound [] ∧
    (fs.Kept [] → (fs.handleOpen h).Kept []) := by
  refine ⟨hs.setHandle (.inl rfl), fun hk => ⟨hk.known, ?_, hk.release, hk.handed⟩⟩
  intro c hc hnot hmarked
  by_cases hh : fs.Holds h c
  · refine .inr (Bound.leave (hs.bound c) hh rfl fun h' hh' => ?_)
    rcases holds_update hh' with ⟨-, hnone⟩ | ⟨hne, hold⟩
    · cases hnone
    · exact ⟨hold, hne⟩
  · rcases hk.active c hc hnot hmarked with ⟨h', hh', hd⟩ | hb
    · have hne : h' ≠ h := by rintro rfl; exact hh hh'
      have hsame : (fs.handleOpen h).handles h' = fs.handles h' := update_of_ne hne _ _
      exact .inl ⟨h', by unfold Holds; rwa [hsame], by rwa [hsame]⟩
    · refine .inr (hb.congr rfl fun h' hh' => ?_)
      rcases holds_update hh' with ⟨-, hnone⟩ | ⟨-, hold⟩
      · cases hnone
      · exact hold

theorem handleClose_spec (hmax : 1 ≤ fs.maxHeldBuffers) (h : H) (released : Bool) :
    ∃ fs', fs.handleClose h released = some fs' ∧ fs'.Sound [] ∧
      fs'.maxHeldBuffers = fs.maxHeldBuffers ∧
      (fs.Kept [] → fs.LeavesDirty h → fs'.Kept []) := by
  obtain ⟨r, hr, hsound, -, hmax', hkept⟩ := handleRelease_spec hs hmax h released
  obtain ⟨hopen, hopenKept⟩ := handleOpen_spec hsound h
  unfold handleClose
  rw [hr]
  exact ⟨_, rfl, hopen, hmax', fun hk hleaves => hopenKept (hkept hk hleaves)⟩

theorem markDirty_spec (h : H) : (fs.markDirty h).Sound [] ∧
    (fs.Kept [] → (fs.markDirty h).Kept []) := by
  have hset : (fs.setHandle h { fs.handles h with dirty := true }).Sound [] :=
    hs.setHandle (.inr rfl)
  refine ⟨{ hset with }, fun hk => ?_⟩
  have hmarked : ∀ c, (fs.markDirty h).marked c = true → fs.Holds h c ∨ fs.marked c = true := by
    intro c
    unfold markDirty Holds
    cases (fs.handles h).buffer with
    | none => exact .inr
    | some b =>
      change update fs.marked b true c = true → _
      by_cases hcb : c = b
      · exact fun _ => .inl (congrArg some hcb.symm)
      · rw [update_of_ne hcb]; exact .inr
  have hin : ∀ c, fs.Holds h c → c ∈ fs.buffers := by
    intro c hh
    have := hs.held h c hh
    rwa [append_nil] at this
  constructor
  · intro c hc
    rcases hmarked c hc with hh | hold
    · exact hs.known c (mem_append_left _ (mem_append_left _ (mem_append_left _ (hin c hh))))
    · exact hk.known c hold
  · intro c hc _ hm
    have hdirty : (fs.setHandle h { fs.handles h with dirty := true }).Dirty c := by
      rcases hmarked c hm with hh | hold
      · refine .inl ⟨h, ?_, ?_⟩
        · change (update fs.handles h _ h).buffer = some c; rw [update_self]; exact hh
        · change (update fs.handles h _ h).dirty = true; rw [update_self]
      · exact (hk.active c hc not_mem_nil hold).setHandle rfl fun _ _ => rfl
    exact hdirty.congr rfl rfl
  · intro c hc
    by_contra hm
    rcases hmarked c (Bool.not_eq_false _ ▸ hm) with hh | hold
    · have hcache : c ∈ fs.cache false := hc; exact hs.not_holds_of_cache hcache hh
    · rw [hk.release c hc] at hold; cases hold
  · intro e he hm
    rcases hmarked e.buffer hm with hh | hold
    · exact absurd (mem_append_left _ (mem_append_left _ (mem_append_left _
        (hin _ hh)))) (hs.handed e he).2.2
    · exact hk.handed e he hold

/-! ## Sequences of operations -/

/-- The operations of the handles, with the results of the I/O layer. -/
inductive BufferOperation (H : Type)
  | openHandle (h : H)
  | request (h : H) (block : ℕ) (requested released : Bool)
  | markDirty (h : H)
  | release (h : H) (released : Bool)
  | close (h : H) (released : Bool)
  | buffersRelease

def step (fs : BufferState H) : BufferOperation H → Option (BufferState H)
  | .openHandle h => some (fs.handleOpen h)
  | .request h block requested released =>
    (fs.handleRequest h block requested released).map Prod.snd
  | .markDirty h => some (fs.markDirty h)
  | .release h released => (fs.handleRelease h released).map Prod.snd
  | .close h released => fs.handleClose h released
  | .buffersRelease => some fs.buffersRelease

/-- A dirty handle leaves its buffer only to another dirty handle. -/
def StaysDirty (fs : BufferState H) : BufferOperation H → Prop
  | .request h block _ _ => ¬ (block ≠ 0 ∧ (fs.handles h).bnum = block) → fs.LeavesDirty h
  | .release h _ | .close h _ => fs.LeavesDirty h
  | .openHandle _ | .markDirty _ | .buffersRelease => True

theorem step_spec (hmax : 1 ≤ fs.maxHeldBuffers) (op : BufferOperation H) :
    ∃ fs', fs.step op = some fs' ∧ fs'.Sound [] ∧ fs'.maxHeldBuffers = fs.maxHeldBuffers ∧
      (fs.Kept [] → fs.StaysDirty op → fs'.Kept []) := by
  cases op with
  | openHandle h =>
    obtain ⟨hsound, hkept⟩ := handleOpen_spec hs h
    exact ⟨_, rfl, hsound, rfl, fun hk _ => hkept hk⟩
  | request h block requested released =>
    obtain ⟨r, hr, hsound, hmax', hkept⟩ := handleRequest_spec hs hmax h block requested released
    exact ⟨r.2, by rw [step, hr]; rfl, hsound, hmax', hkept⟩
  | markDirty h =>
    obtain ⟨hsound, hkept⟩ := markDirty_spec hs h
    exact ⟨_, rfl, hsound, rfl, fun hk _ => hkept hk⟩
  | release h released =>
    obtain ⟨r, hr, hsound, -, hmax', hkept⟩ := handleRelease_spec hs hmax h released
    exact ⟨r.2, by rw [step, hr]; rfl, hsound, hmax', hkept⟩
  | close h released => exact handleClose_spec hs hmax h released
  | buffersRelease =>
    obtain ⟨hsound, hmax', hkept⟩ := buffersRelease_spec hs
    exact ⟨_, rfl, hsound, hmax', fun hk _ => hkept hk⟩

end

theorem run_spec (ops : List (BufferOperation H)) : ∀ fs : BufferState H, fs.Sound [] →
    1 ≤ fs.maxHeldBuffers → ∃ fs', run step fs ops = some fs' ∧ fs'.Sound [] ∧
      (fs.Kept [] → Along step StaysDirty fs ops → fs'.Kept []) := by
  induction ops with
  | nil => exact fun fs hs _ => ⟨fs, rfl, hs, fun hk _ => hk⟩
  | cons op ops ih =>
    intro fs hs hmax
    obtain ⟨fs1, hstep, hs1, hmax1, hkept1⟩ := step_spec hs hmax op
    obtain ⟨fs', hrun, hs', hkept'⟩ := ih fs1 hs1 (hmax1 ▸ hmax)
    refine ⟨fs', (run_cons_eq_some step).mpr ⟨fs1, hstep, hrun⟩, hs', ?_⟩
    rintro hk ⟨hdirty, hrest⟩
    exact hkept' (hkept1 hk hdirty) (hrest fs1 hstep)

omit [DecidableEq H] in
theorem sound_initial (noLocalCache : Bool) (maxHeldBuffers : ℕ) :
    (initial noLocalCache maxHeldBuffers : BufferState H).Sound [] ∧
      (initial noLocalCache maxHeldBuffers : BufferState H).Kept [] := by
  refine ⟨⟨nodup_nil, rfl, rfl, rfl, ?_, ?_, ?_, ?_, ?_, ?_⟩, ?_, ?_, ?_, ?_⟩
  · exact fun b hb => absurd hb not_mem_nil
  · exact fun m b _ => rfl
  · intro h b hh; cases hh
  · exact fun b => ⟨[], Nat.zero_le _, fun h hh => by cases hh⟩
  · exact fun b hb => absurd hb not_mem_nil
  · exact fun e he => absurd he not_mem_nil
  · intro b hb; cases hb
  · exact fun b hb => absurd hb not_mem_nil
  · exact fun b _ => rfl
  · exact fun e he => absurd he not_mem_nil

/-- **No modification of a buffer is lost**, if it stays with a dirty handle. -/
theorem buffer_exact (noLocalCache : Bool) (maxHeldBuffers : ℕ) (hmax : 1 ≤ maxHeldBuffers)
    (ops : List (BufferOperation H)) :
    ∃ fs, run step (initial noLocalCache maxHeldBuffers) ops = some fs ∧
      (fs.buffers ++ fs.release ++ fs.releaseModified).Nodup ∧
      fs.buffersCount = fs.buffers.length ∧ fs.releaseCount = fs.release.length ∧
      fs.releaseModifiedCount = fs.releaseModified.length ∧
      (∀ e ∈ fs.handedBack, e.references = 0) ∧
      (Along step StaysDirty (initial noLocalCache maxHeldBuffers) ops →
        ∀ e ∈ fs.handedBack, fs.marked e.buffer = true → e.modified = true) := by
  obtain ⟨hs₀, hk₀⟩ := sound_initial noLocalCache maxHeldBuffers
  obtain ⟨fs, hrun, hs, hkept⟩ := run_spec ops _ hs₀ hmax
  have hnodup := hs.nodup
  rw [append_nil] at hnodup
  exact ⟨fs, hrun, hnodup, hs.buffersCount, hs.releaseCount, hs.releaseModifiedCount,
    fun e he => (hs.handed e he).1, fun halong => (hkept hk₀ halong).handed⟩

/-- The handles are the only ones of their buffers. -/
def alone (fs : BufferState H) : BufferOperation H → Bool
  | .request h _ _ _ | .release h _ | .close h _ =>
    (fs.handles h).buffer.all fun b => decide (fs.references b ≤ 1)
  | .openHandle _ | .markDirty _ | .buffersRelease => true

omit [DecidableEq H] in
theorem staysDirty_of_alone {op : BufferOperation H} (ha : fs.alone op = true) :
    fs.StaysDirty op := by
  have hleaves : ∀ h, ((fs.handles h).buffer.all fun b => decide (fs.references b ≤ 1)) = true →
      fs.LeavesDirty h := by
    intro h hall b hh _ hmany
    rw [hh, Option.all_some, decide_eq_true_eq] at hall
    omega
  cases op with
  | openHandle h | markDirty h => trivial
  | request h block requested released => exact fun _ => hleaves h ha
  | release h released | close h released => exact hleaves h ha
  | buffersRelease => trivial

theorem buffer_exact_write : ∃ fs : BufferState Bool, run step (initial false 1)
    [.request false 5 true true, .markDirty false, .request false 6 true true, .close false true,
      .buffersRelease] = some fs ∧ fs.handedBack = [⟨0, 0, true⟩, ⟨1, 0, false⟩] ∧
      ∀ e ∈ fs.handedBack, fs.marked e.buffer = true → e.modified = true := by
  refine exists_imp_of_any
    (by decide +kernel) fun fs hrun hall => ⟨hall, ?_⟩
  obtain ⟨fs', hrun', -, -, -, -, -, hmod⟩ := buffer_exact (H := Bool) false 1 Nat.le.refl _
  cases hrun.symm.trans hrun'
  exact hmod (along_of_check step (fun _ _ => staysDirty_of_alone) (by decide +kernel))

/-- The handle that marked the block releases it first, as not modified. -/
theorem exists_lost_modification : ∃ fs : BufferState Bool, run step (initial false 1)
    [.request false 5 true true, .request true 5 true true, .markDirty false, .release false true,
      .release true true, .buffersRelease] = some fs ∧
      ∃ e ∈ fs.handedBack, fs.marked e.buffer = true ∧ e.modified = false :=
  exists_of_any (by decide +kernel)

end BufferState

end Rtems.Rfs
