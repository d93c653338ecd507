import Rtems.Rfs.BlockMapStore

/-!
# Growth of a block map

* `Prepared`: the table for a new block is in its buffer, and the tables above it are complete;
* **`growOne_spec`**: one iteration of `rtems_rfs_block_map_grow` appends a block, or it leaves the
  map and the held blocks as they were.
-/

namespace Rtems.Rfs

open Function IndexTable List Option

namespace MapState

variable {A : BlockAllocator} {Ok : A.State → Prop} {Other : ℕ → Prop} {g : Geometry}
  {s s' : MapState A} {l ts ds : List ℕ}

/-- The table for the next block is in `singly`, those above it are complete. -/
structure Prepared (g : Geometry) (s : MapState A) (t : ℕ) (l ts ds : List ℕ) : Prop where
  buffer : s.map.singlyBuffer = some t
  count : s.map.size.count = l.length
  entries : Covers g.blocksPerBlock (number s.disk) ts l ∧ l.length % g.blocksPerBlock ≠ 0 ∧
      ts[l.length / g.blocksPerBlock]? = some t ∨
    ∃ ts', Covers g.blocksPerBlock (number s.disk) ts' l ∧ l.length % g.blocksPerBlock = 0 ∧
      ts = ts' ++ [t]
  top : l.length < 5 * g.blocksPerBlock ∧ ds = [] ∧ s.map.Holds ts ∨
    5 * g.blocksPerBlock ≤ l.length ∧ Covers g.blocksPerBlock (number s.disk) ds ts ∧
      s.map.Holds ds

theorem Prepared.append (hg : g.Fits) {t b : ℕ} (h : Prepared g s t l ts ds)
    (hnodup : (ts ++ ds).Nodup) (hb : b < 2 ^ 32) (hge : 5 ≤ l.length)
    (hroom : l.length + 1 < g.blockMapDoublyBlocks) :
    ∃ s', s.setNumber .singly (l.length % g.blocksPerBlock) b = some s' ∧
      Stored g (s'.appended b) (l ++ [b]) ts ds ∧ s'.allocator = s.allocator ∧
      (∀ c, c ≠ t → s'.disk c = s.disk c) ∧ s'.map = s.map := by
  have hper := hg.per
  have hset : s.setNumber .singly (l.length % g.blocksPerBlock) b = some { s with
      disk := update s.disk t ((s.disk t).writeU32 (4 * (l.length % g.blocksPerBlock)) b) } := by
    unfold setNumber BlockMap.buffer
    rw [h.buffer]
    rfl
  refine ⟨_, hset, ⟨?_, ?_⟩, rfl, fun c hc => update_of_ne hc _ _, rfl⟩
  · change s.map.size.count + 1 = (l ++ [b]).length
    rw [h.count, length_append, length_singleton]
  · have ht : t ∈ ts := by
      rcases h.entries with ⟨-, -, ht⟩ | ⟨ts', -, -, rfl⟩
      · exact mem_of_getElem? ht
      · exact mem_append_right _ mem_cons_self
    have hlength : (l ++ [b]).length = l.length + 1 := by rw [length_append, length_singleton]
    have hcovers : Covers g.blocksPerBlock (number (update s.disk t
        ((s.disk t).writeU32 (4 * (l.length % g.blocksPerBlock)) b))) ts (l ++ [b]) := by
      rcases h.entries with ⟨hl, hmod, htable⟩ | ⟨ts', hl, hmod, rfl⟩
      · exact hl.append_old (nodup_append.mp hnodup).1 hmod htable
          (fun _ _ _ hne => number_write_of_ne hne) (number_write hb)
      · refine hl.append_new (by omega) hmod ?_ ?_
        · intro t' ht' i
          have hne : t' ≠ t := by
            intro heq
            have := (nodup_append.mp (nodup_append.mp hnodup).1).2.2 t' ht' t mem_cons_self
            exact this heq
          exact number_write_of_ne (.inl hne)
        · rw [hmod]; exact number_write hb
    rcases h.top with ⟨hlt, rfl, htop⟩ | ⟨hge', hts, htop⟩
    · exact .singly (by omega) (by omega) hcovers (htop.congr rfl)
    · refine .doubly (by omega) (by omega) hcovers (hts.congr ?_) (htop.congr rfl)
      intro d hd i
      have hne : d ≠ t := fun heq => (nodup_append.mp hnodup).2.2 t ht d hd heq.symm
      exact number_write_of_ne (.inl hne)

section

variable (b : MapBuffer) (upping : Bool) (t : ℕ) (a : A.State) {c : ℕ} (hc : c ≠ t)

include b upping t a hc

theorem newTable_disk : (s.newTable g b upping t a).disk c = s.disk c := update_of_ne hc _ _

theorem newTable_number (i : ℕ) : number (s.newTable g b upping t a).disk c i = number s.disk c i :=
  number_update_of_ne hc i

end

theorem newTable_slot (b : MapBuffer) (t : ℕ) (a : A.State) {i v : ℕ}
    (hslot : s.map.slot i = some v) (hv : v < 2 ^ 32) :
    number (s.newTable g b true t a).disk t i = v := by
  have hi := BlockMap.slot_lt hslot
  unfold BlockMap.slot at hslot
  rw [dif_pos hi] at hslot
  have hv' : s.map.blocks ⟨i, hi⟩ = v := some_inj.mp hslot
  change (update s.disk t _ t).readU32 (4 * i) = v
  rw [update_self]
  exact (readU32_writeSlots (i := ⟨i, hi⟩) (by rw [hv']; exact hv)).trans hv'

/-- Of the allocated blocks only the tables of the map change. -/
structure Frame (s s' : MapState A) (tables : List ℕ) : Prop where
  disk : ∀ c, c ∉ tables → ¬ A.IsFree s.allocator c → s'.disk c = s.disk c
  bpos : s'.map.bpos = s.map.bpos

/-- The table for a block is ready, or the block is free again. -/
inductive Readied (Ok : A.State → Prop) (Other : ℕ → Prop) (g : Geometry) (s : MapState A) (b : ℕ)
    (l ts ds : List ℕ) : Option (Option Errno × MapState A) → Prop
  | failed {s' : MapState A} (hstored : Stored g s' l ts ds)
      (hold : Holding Ok g.blocks Other s'.allocator (l ++ ts ++ ds))
      (hframe : Frame s s' (ts ++ ds)) (hsize : s'.map.size = s.map.size) :
      Readied Ok Other g s b l ts ds (some (some .enospc, s'))
  | ready {s' : MapState A} (t : ℕ) (ts' ds' : List ℕ) (hready : Prepared g s' t l ts' ds')
      (hold : Holding Ok g.blocks Other s'.allocator (b :: (l ++ ts' ++ ds')))
      (hframe : Frame s s' (ts ++ ds)) (htable : t ∈ ts ∨ A.IsFree s.allocator t) :
      Readied Ok Other g s b l ts ds (some (none, s'))

theorem free_spec (hA : A.Correct Ok g.blocks) {b : ℕ} {held : List ℕ}
    (hold : Holding Ok g.blocks Other s.allocator (b :: held)) :
    ∃ a, s.free b = some { s with allocator := a } ∧ Holding Ok g.blocks Other a held := by
  obtain ⟨a, hfree, hold'⟩ := hold.free hA
  unfold free
  rw [hfree]
  exact ⟨a, rfl, hold'⟩

theorem setSlot_spec {i v : ℕ} (hi : i < 5) : ∃ m, s.setSlot i v = some { s with map := m } ∧
    m.slot i = some v ∧ (∀ j, j ≠ i → m.slot j = s.map.slot j) ∧
    m = { s.map with blocks := m.blocks } := by
  obtain ⟨m, hm, hslot, hsame, heq⟩ := BlockMap.setSlot_spec hi
  unfold setSlot
  rw [hm]
  exact ⟨m, rfl, hslot, hsame, heq⟩

theorem isFree_of_alloc (hA : A.Correct Ok g.blocks) {held : List ℕ}
    (hold : Holding Ok g.blocks Other s.allocator held) {goal t : ℕ} {a : A.State}
    (halloc : A.alloc s.allocator goal = some (t, a)) : A.IsFree s.allocator t :=
  (hA.alloc _ _ _ _ hold.ok halloc).2.2.2.1

theorem holds_singleton {m : BlockMap} {t : ℕ} (h : m.slot 0 = some t) : m.Holds [t] := by
  intro i v hv
  have hi : i = 0 := by
    have := (List.getElem?_eq_some_iff.mp hv).1; rw [length_singleton] at this; omega
  subst hi
  cases hv
  exact h

theorem not_new_table {x n : ℕ} (hmod : x % n ≠ 0) (hx : 5 < x) :
    ¬ (x % n = 0 ∨ x / n = 0 ∧ x % n = 5) := by
  rintro (hzero | ⟨hdiv, hfive⟩)
  · exact hmod hzero
  · have := Nat.div_add_mod x n; rw [hdiv, hfive, Nat.mul_zero] at this; omega

theorem nodup_tables {b : ℕ} {a : A.State}
    (hold : Holding Ok g.blocks Other a (b :: (l ++ ts ++ ds))) : (ts ++ ds).Nodup := by
  have hnodup := (nodup_cons.mp hold.nodup).2
  rw [append_assoc] at hnodup
  exact (nodup_append.mp hnodup).2.1

theorem setTable_spec {d t i j : ℕ} (hbuffer : s.map.doublyBuffer = some d) (hj : j < 5) :
    ∃ m, ((s.setSlot j d).bind fun s =>
        (s.setNumber .doubly i t).map fun s => ((none : Option Errno), s)) =
      some (none, { s with
        disk := update s.disk d ((s.disk d).writeU32 (4 * i) t)
        map := m }) ∧
      m.slot j = some d ∧ (∀ k, k ≠ j → m.slot k = s.map.slot k) ∧
      m = { s.map with blocks := m.blocks } := by
  obtain ⟨m, hm, hslot, hsame, heq⟩ := setSlot_spec hj
  refine ⟨m, ?_, hslot, hsame, heq⟩
  have hbuffer' : m.doublyBuffer = some d := by rw [heq]; exact hbuffer
  rw [hm, bind_some]
  unfold setNumber BlockMap.buffer
  rw [hbuffer']
  rfl

variable {b t : ℕ} {a : A.State}

theorem ne_of_isFree (hold : Holding Ok g.blocks Other s.allocator (b :: (l ++ ts ++ ds)))
    (hfree : A.IsFree s.allocator t) {c : ℕ} (hc : c ∈ ts ++ ds) : c ≠ t := by
  intro heq
  refine (hold.allocated c).mpr (.inr (mem_cons_of_mem _ ?_)) (heq ▸ hfree)
  rw [append_assoc]
  exact mem_append_right _ hc

/-- The disk with the number of the new table in a new table of tables. -/
def newTables (g : Geometry) (s : MapState A) (t : ℕ) (a : A.State) (upping : Bool) (d : ℕ)
    (a₂ : A.State) (i : ℕ) : ℕ → Block :=
  let s₂ := (s.newTable g .singly false t a).newTable g .doubly upping d a₂
  update s₂.disk d ((s₂.disk d).writeU32 (4 * i) t)

theorem newTables_of_ne {upping : Bool} {d i : ℕ} {a2 : A.State} {c : ℕ} (hct : c ≠ t)
    (hcd : c ≠ d) : newTables g s t a upping d a2 i c = s.disk c :=
  (update_of_ne hcd _ _).trans ((newTable_disk .doubly upping d a2 hcd).trans
    (newTable_disk .singly false t a hct))

variable (hA : A.Correct Ok g.blocks) (hg : g.Fits)

include hA hg

theorem growSingly_spec (h : Stored g s l ts ds)
    (hold : Holding Ok g.blocks Other s.allocator (b :: (l ++ ts ++ ds))) (hge : 5 ≤ l.length)
    (hlt : l.length < 5 * g.blocksPerBlock) :
    Readied Ok Other g s b l ts ds (s.growSingly g b) := by
  have hper := hg.per
  obtain ⟨a0, hfree, hold0⟩ := free_spec hA hold
  unfold growSingly
  rw [h.count]
  cases h.shape with
  | direct hle htop =>
    have hfive : l.length = 5 := by omega
    have hmod : l.length % g.blocksPerBlock = 5 := by rw [hfive, Nat.mod_eq_of_lt hper]
    have hdiv : l.length / g.blocksPerBlock = 0 := by rw [hfive, Nat.div_eq_of_lt hper]
    rw [if_pos (.inr ⟨hdiv, hmod⟩), hdiv, decide_eq_true hfive]
    unfold indirectAlloc
    cases halloc : A.alloc s.allocator s.map.lastMapBlock with
    | none =>
      rw [hfree]
      exact .failed ⟨h.count, .direct hle htop⟩ hold0 ⟨fun _ _ _ => rfl, rfl⟩ rfl
    | some r =>
      obtain ⟨t, a⟩ := r
      have hold1 := hold.alloc hA halloc
      have htfree := isFree_of_alloc hA hold halloc
      rw [map_some]
      dsimp only
      obtain ⟨m, hm, hslot, -, heq⟩ :=
        setSlot_spec (show 0 < 5 by decide)
      rw [hm, map_some]
      refine .ready t [t] [] ⟨?_, ?_, .inl ⟨?_, ?_, ?_⟩, .inl ⟨hlt, rfl, ?_⟩⟩
        ?_ ⟨?_, ?_⟩ (.inr htfree)
      · rw [heq]; rfl
      · rw [heq]; exact h.count
      · refine Covers.single (by omega) (by omega) ?_
        intro i e he
        have hin : e ∈ b :: (l ++ [] ++ []) := by
          rw [append_nil, append_nil]; exact mem_cons_of_mem _ (mem_of_getElem? he)
        have := (hold.range e hin).2
        have := hg.blocks
        exact newTable_slot .singly t a (htop i e he) (by omega)
      · omega
      · rw [hdiv]; rfl
      · exact holds_singleton hslot
      · exact hold1.of_count
      · intro c _ hc; exact newTable_disk .singly true t a fun heq => hc (heq ▸ htfree)
      · rw [heq]; rfl
  | singly hgt hle hl htop =>
    by_cases hmod : l.length % g.blocksPerBlock = 0
    · rw [if_pos (.inl hmod), decide_eq_false (show ¬ l.length = 5 by omega)]
      have hlength := hl.length_of_mod (by omega) hmod
      have hslotlt : l.length / g.blocksPerBlock < 5 := (Nat.div_lt_iff_lt_mul (by omega)).mpr hlt
      unfold indirectAlloc
      cases halloc : A.alloc s.allocator s.map.lastMapBlock with
      | none =>
        rw [hfree]
        exact .failed ⟨h.count, .singly hgt hle hl htop⟩ hold0 ⟨fun _ _ _ => rfl, rfl⟩ rfl
      | some r =>
        obtain ⟨t, a⟩ := r
        have hold1 := hold.alloc hA halloc
        have htfree := isFree_of_alloc hA hold halloc
        rw [map_some]
        dsimp only
        obtain ⟨m, hm, hslot, hsame, heq⟩ :=
          setSlot_spec hslotlt
        rw [hm, map_some]
        have hnotin : ∀ t' ∈ ts, t' ≠ t := by
          intro t' ht' heq'
          have hin : t' ∈ b :: (l ++ ts ++ []) := by
            rw [append_nil]; exact mem_cons_of_mem _ (mem_append_right _ ht')
          exact (hold.allocated t').mpr (.inr hin) (heq' ▸ htfree)
        refine .ready t (ts ++ [t]) []
          ⟨?_, ?_, .inr ⟨ts, ?_, hmod, rfl⟩, .inl ⟨hlt, rfl, ?_⟩⟩ ?_ ⟨?_, ?_⟩ (.inr htfree)
        · rw [heq]; rfl
        · rw [heq]; exact h.count
        · exact hl.congr fun t' ht' i => newTable_number .singly false t a (hnotin t' ht') i
        · rw [← hlength] at hslot hsame; exact htop.append hslot hsame
        · exact hold1.of_count
        · intro c _ hc; exact newTable_disk .singly false t a fun heq => hc (heq ▸ htfree)
        · rw [heq]; rfl
    · rw [if_neg (not_new_table hmod hgt)]
      obtain ⟨t, ht⟩ := hl.exists_open hmod
      rw [htop _ t ht, map_some]
      exact .ready t ts [] ⟨rfl, h.count, .inl ⟨hl, hmod, ht⟩, .inl ⟨hlt, rfl, htop.congr rfl⟩⟩ hold
        ⟨fun _ _ _ => rfl, rfl⟩ (.inl (mem_of_getElem? ht))
  | doubly hgt => omega

omit hg in
/-- The block and its table are free again when the table above it has no room. -/
theorem growTable_failed (h : Stored g s l ts ds)
    (hold : Holding Ok g.blocks Other s.allocator (b :: (l ++ ts ++ ds)))
    (halloc : A.alloc s.allocator s.map.lastMapBlock = some (t, a)) :
    Readied Ok Other g s b l ts ds (((s.newTable g .singly false t a).free t).bind fun s =>
      (s.free b).map fun s => (some .enospc, s)) := by
  have hold1 : Holding Ok g.blocks Other a (t :: b :: (l ++ ts ++ ds)) := hold.alloc hA halloc
  have htfree := isFree_of_alloc hA hold halloc
  obtain ⟨a1, hfree1, hold2⟩ := free_spec (s := s.newTable g .singly false t a) hA hold1
  rw [hfree1, bind_some]
  obtain ⟨a2, hfree2, hold3⟩ :=
    free_spec (s := { s.newTable g .singly false t a with allocator := a1 }) hA hold2
  rw [hfree2, map_some]
  refine .failed (h.congr rfl ?_ rfl) hold3 ⟨?_, rfl⟩ rfl
  · intro c hc; exact newTable_disk .singly false t a (ne_of_isFree hold htfree hc)
  · intro c _ hc; exact newTable_disk .singly false t a fun heq => hc (heq ▸ htfree)

section

variable (halloc : A.alloc s.allocator s.map.lastMapBlock = some (t, a)) (h : Stored g s l ts ds)
  (hold : Holding Ok g.blocks Other s.allocator (b :: (l ++ ts ++ ds)))

include halloc h hold

section

variable (hl : Covers g.blocksPerBlock (number s.disk) ts l)

include hl

/-- The new table is in a new table of tables, or there is no room for that. -/
theorem growTable_alloc (hge : 5 * g.blocksPerBlock ≤ l.length) (hmod : l.length % g.blocksPerBlock = 0)
    {i j : ℕ} {upping : Bool} (hi : l.length / g.blocksPerBlock % g.blocksPerBlock = i)
    (hj : l.length / g.blocksPerBlock / g.blocksPerBlock = j) (hj5 : j < 5)
    (hij : i = 0 ∨ j = 0 ∧ i = 5) (hup : decide (l.length = 5 * g.blocksPerBlock) = upping)
    (hnew : ∀ d a2 (m : BlockMap), m.slot j = some d →
      (upping = false → ∀ k, k ≠ j → m.slot k = s.map.slot k) →
      (∀ c ∈ ts ++ ds, ∀ k, number (newTables g s t a upping d a2 i) c k = number s.disk c k) →
      Covers g.blocksPerBlock (number (newTables g s t a upping d a2 i)) (ds ++ [d]) (ts ++ [t]) ∧
        m.Holds (ds ++ [d])) :
    Readied Ok Other g s b l ts ds ((s.newTable g .singly false t a).growTable g t b) := by
  have hold1 : Holding Ok g.blocks Other a (t :: b :: (l ++ ts ++ ds)) := hold.alloc hA halloc
  have htfree := isFree_of_alloc hA hold halloc
  have hcount : (s.newTable g .singly false t a).map.size.count = l.length := h.count
  unfold growTable
  rw [hcount]
  dsimp only
  rw [hi, hj, if_pos hij, hg.singly, hup]
  unfold indirectAlloc
  cases halloc2 : A.alloc (s.newTable g .singly false t a).allocator
      (s.newTable g .singly false t a).map.lastMapBlock with
  | none => exact growTable_failed hA h hold halloc
  | some r =>
    obtain ⟨d, a2⟩ := r
    have hold2 := hold1.alloc hA halloc2
    obtain ⟨-, -, -, hdfree, -⟩ := hA.alloc _ _ _ _ hold1.ok halloc2
    have hd := (hA.alloc _ _ _ _ hold.ok halloc).2.2.2.2 d |>.mp hdfree
    rw [map_some]
    dsimp only
    obtain ⟨m, hm, hslot, hsame, heq⟩ := setTable_spec
      (s := (s.newTable g .singly false t a).newTable g .doubly upping d a2)
      rfl hj5
    rw [hm]
    have hread : ∀ c ∈ ts ++ ds, ∀ k,
        number (newTables g s t a upping d a2 i) c k = number s.disk c k :=
      fun c hc k => congrArg (fun x => Block.readU32 x _)
        (newTables_of_ne (ne_of_isFree hold htfree hc) (ne_of_isFree hold hd.1 hc))
    obtain ⟨hts, htop⟩ := hnew d a2 m hslot (fun hf => by subst hf; exact hsame) hread
    refine .ready t (ts ++ [t]) (ds ++ [d]) ⟨?_, ?_, .inr ⟨ts, ?_, hmod, rfl⟩,
      .inr ⟨hge, hts, htop⟩⟩ hold2.of_count ⟨?_, ?_⟩ (.inr htfree)
    · rw [heq]; rfl
    · rw [heq]; exact h.count
    · exact hl.congr fun c hc => hread c (mem_append_left _ hc)
    · intro c _ hc
      exact newTables_of_ne (fun heq' => hc (heq' ▸ htfree)) fun heq' => hc (heq' ▸ hd.1)
    · rw [heq]; rfl

theorem growTable_up (hds : ds = []) (htop : s.map.Holds ts)
    (hlength : l.length = 5 * g.blocksPerBlock) :
    Readied Ok Other g s b l ts ds ((s.newTable g .singly false t a).growTable g t b) := by
  subst hds
  have hper := hg.per
  have hblocks := hg.blocks
  have hn : 0 < g.blocksPerBlock := by omega
  have hmod : l.length % g.blocksPerBlock = 0 := by rw [hlength, Nat.mul_mod_left]
  have hfive : l.length / g.blocksPerBlock = 5 := by rw [hlength, Nat.mul_div_cancel _ hn]
  have hts : ts.length = 5 := (hl.length_of_mod hn hmod).trans hfive
  have htlt := ((hold.alloc hA halloc).range t mem_cons_self).2
  refine growTable_alloc hA hg halloc h hold hl (by omega) hmod
    (by rw [hfive, Nat.mod_eq_of_lt hper]) (by rw [hfive, Nat.div_eq_of_lt hper]) (by decide)
    (.inr ⟨rfl, rfl⟩) (decide_eq_true hlength) fun d a2 m hslot _ _ =>
      ⟨Covers.single (by simp) (by simp [hts]; omega) ?_, holds_singleton hslot⟩
  intro i e he
  by_cases hi : i < ts.length
  · rw [List.getElem?_append_left hi] at he
    have hin : e ∈ b :: (l ++ ts ++ []) := mem_cons_of_mem _
      (mem_append_left _ (mem_append_right _ (mem_of_getElem? he)))
    have helt := (hold.range e hin).2
    exact (number_write_of_ne (.inr (by omega))).trans (newTable_slot .doubly d a2 (htop i e he) (by omega))
  · have hi' : i = ts.length := by
      have := (List.getElem?_eq_some_iff.mp he).1
      rw [length_append, length_singleton] at this
      omega
    subst hi'
    rw [getElem?_concat_length] at he
    cases he
    rw [hts]
    exact number_write (by omega)

section

variable (hts : Covers g.blocksPerBlock (number s.disk) ds ts) (htop : s.map.Holds ds)
  (hgt : 5 * g.blocksPerBlock < l.length) (hmod : l.length % g.blocksPerBlock = 0)

include hts htop hgt hmod

theorem growTable_new (hslotlt : l.length / g.blocksPerBlock / g.blocksPerBlock < 5)
    (hkmod : l.length / g.blocksPerBlock % g.blocksPerBlock = 0) :
    Readied Ok Other g s b l ts ds ((s.newTable g .singly false t a).growTable g t b) := by
  have hper := hg.per
  have hblocks := hg.blocks
  have hn : 0 < g.blocksPerBlock := by omega
  have hlength := hl.length_of_mod hn hmod
  have hdlength := hts.length_of_mod hn (by rw [hlength]; exact hkmod)
  have htlt := ((hold.alloc hA halloc).range t mem_cons_self).2
  refine growTable_alloc hA hg halloc h hold hl (by omega) hmod hkmod rfl hslotlt (.inl rfl)
    (decide_eq_false (by omega)) fun d a2 m hslot hsame hread => ⟨?_, ?_⟩
  · exact hts.append_new hn (by rw [hlength]; exact hkmod)
      (fun c hc => hread c (mem_append_right _ hc)) (number_write (by omega))
  · have hsame' := hsame rfl
    rw [← hlength, ← hdlength] at hslot hsame'
    exact htop.append hslot hsame'

theorem growTable_open (hkmod : l.length / g.blocksPerBlock % g.blocksPerBlock ≠ 0) :
    Readied Ok Other g s b l ts ds ((s.newTable g .singly false t a).growTable g t b) := by
  have hper := hg.per
  have hblocks := hg.blocks
  have hn : 0 < g.blocksPerBlock := by omega
  have hk := Nat.mul_div_cancel' (Nat.dvd_of_mod_eq_zero hmod)
  have hlength := hl.length_of_mod hn hmod
  have hold1 : Holding Ok g.blocks Other a (t :: b :: (l ++ ts ++ ds)) := hold.alloc hA halloc
  have htfree := isFree_of_alloc hA hold halloc
  have htlt := (hold1.range t mem_cons_self).2
  have hcount : (s.newTable g .singly false t a).map.size.count = l.length := h.count
  have hfive : 5 < l.length / g.blocksPerBlock := by
    rw [← hk, Nat.mul_comm] at hgt; exact Nat.lt_of_mul_lt_mul_left hgt
  obtain ⟨d, hd⟩ := hts.exists_open (by rw [hlength]; exact hkmod)
  have hdin := mem_of_getElem? hd
  rw [hlength] at hd
  have hslot : (s.newTable g .singly false t a).map.slot
      (l.length / g.blocksPerBlock / g.blocksPerBlock) = some d := htop _ d hd
  have hnodup := nodup_tables hold
  unfold growTable
  rw [hcount]
  rw [if_neg (not_new_table hkmod hfive), hslot, bind_some]
  refine .ready t (ts ++ [t]) ds ⟨rfl, h.count, .inr ⟨ts, ?_, hmod, rfl⟩,
    .inr ⟨by omega, ?_, htop.congr rfl⟩⟩ ?_ ⟨?_, rfl⟩ (.inr htfree)
  · refine hl.congr fun c hc i => ?_
    have hne : c ≠ d := (nodup_append.mp hnodup).2.2 c hc d hdin
    exact (number_update_of_ne hne i).trans (newTable_number .singly false t a
      (ne_of_isFree hold htfree (mem_append_left _ hc)) i)
  · refine hts.append_old (nodup_append.mp hnodup).2.1 (by rw [hlength]; exact hkmod)
      (by rw [hlength]; exact hd) ?_ ?_
    · intro c hc i hne
      rw [hlength] at hne
      exact (number_write_of_ne hne).trans (newTable_number .singly false t a
        (ne_of_isFree hold htfree (mem_append_right _ hc)) i)
    · rw [hlength]; exact number_write (by omega)
  · exact hold1.of_count
  · intro c hcin hc
    have hcd : c ≠ d := fun heq' => hcin (heq' ▸ mem_append_right _ hdin)
    exact (update_of_ne hcd _ _).trans
      (newTable_disk .singly false t a fun heq' => hc (heq' ▸ htfree))

end

end

/-- A singly indirect table is in those above it, or one of them has no room. -/
theorem growTable_spec (hmod : l.length % g.blocksPerBlock = 0) (hge : 5 * g.blocksPerBlock ≤ l.length)
    (hlt : l.length < 5 * (g.blocksPerBlock * g.blocksPerBlock)) :
    Readied Ok Other g s b l ts ds ((s.newTable g .singly false t a).growTable g t b) := by
  have hper := hg.per
  have hn : 0 < g.blocksPerBlock := by omega
  cases h.shape with
  | direct hle => omega
  | singly hgt hle hl htop => exact growTable_up hA hg halloc h hold hl rfl htop (by omega)
  | doubly hgt hltd hl hts htop =>
    by_cases hkmod : l.length / g.blocksPerBlock % g.blocksPerBlock = 0
    · have hslotlt : l.length / g.blocksPerBlock / g.blocksPerBlock < 5 := by
        rw [Nat.div_div_eq_div_mul]; exact (Nat.div_lt_iff_lt_mul (Nat.mul_pos hn hn)).mpr hlt
      exact growTable_new hA hg halloc h hold hl hts htop hgt hmod hslotlt hkmod
    · exact growTable_open hA hg halloc h hold hl hts htop hgt hmod hkmod

end

theorem growDoubly_spec (h : Stored g s l ts ds)
    (hold : Holding Ok g.blocks Other s.allocator (b :: (l ++ ts ++ ds)))
    (hge : 5 * g.blocksPerBlock ≤ l.length)
    (hlt : l.length < 5 * (g.blocksPerBlock * g.blocksPerBlock)) :
    Readied Ok Other g s b l ts ds (s.growDoubly g b) := by
  have hper := hg.per
  obtain ⟨a0, hfree, hold0⟩ := free_spec hA hold
  unfold growDoubly
  rw [h.count]
  by_cases hmod : l.length % g.blocksPerBlock = 0
  · rw [if_pos hmod]
    cases halloc : A.alloc s.allocator s.map.lastMapBlock with
    | none =>
      have hnone : s.indirectAlloc g .singly false = none := by
        unfold indirectAlloc; rw [halloc, map_none]
      rw [hnone]
      rw [hfree]
      exact .failed (h.congr rfl (fun _ _ => rfl) rfl) hold0 ⟨fun _ _ _ => rfl, rfl⟩ rfl
    | some r =>
      have hsome : s.indirectAlloc g .singly false =
          some (r.1, s.newTable g .singly false r.1 r.2) := by
        unfold indirectAlloc
        rw [halloc, map_some]
      rw [hsome]
      exact growTable_spec hA hg halloc h hold hmod hge hlt
  · rw [if_neg hmod]
    cases h.shape with
    | direct hle => omega
    | singly hgt hle =>
      have hfive : l.length = 5 * g.blocksPerBlock := by omega
      rw [hfive, Nat.mul_mod_left] at hmod
      exact absurd rfl hmod
    | doubly hgt hltd hl hts htop =>
      obtain ⟨t, ht⟩ := hl.exists_open hmod
      obtain ⟨d, hd, hnumber⟩ := hts.entry _ t ht
      rw [htop _ d hd, bind_some]
      have hget : (s.handleRequest .doubly d).getNumber .doubly
          (l.length / g.blocksPerBlock % g.blocksPerBlock) = some t := congrArg some hnumber
      rw [hget, map_some]
      exact .ready t ts ds ⟨rfl, h.count, .inl ⟨hl, hmod, ht⟩, .inr ⟨hge, hts, htop.congr rfl⟩⟩
        hold ⟨fun _ _ _ => rfl, rfl⟩ (.inl (mem_of_getElem? ht))

theorem growOne_spec (h : Represents g s l ts ds)
    (hold : Holding Ok g.blocks Other s.allocator (l ++ ts ++ ds))
    (hroom : l.length + 1 < g.blockMapDoublyBlocks) :
    (∃ b s' ts' ds', s.growOne g = some (.ok b, s') ∧ Represents g s' (l ++ [b]) ts' ds' ∧
      Holding Ok g.blocks Other s'.allocator (l ++ [b] ++ ts' ++ ds') ∧ Frame s s' (ts ++ ds) ∧
      s'.map.size.offset = 0) ∨
    ∃ s', s.growOne g = some (.error .enospc, s') ∧ Represents g s' l ts ds ∧
      Holding Ok g.blocks Other s'.allocator (l ++ ts ++ ds) ∧ Frame s s' (ts ++ ds) ∧
      s'.map.size = s.map.size := by
  have hdoubly := hg.doubly
  have hcached {s' : MapState A} {b : ℕ} (hbpos : s'.map.bpos = s.map.bpos) :
      s'.map.bpos.block ≠ 0 → (l ++ [b])[s'.map.bpos.bno]? = some s'.map.bpos.block := by
    intro hne
    rw [hbpos] at hne ⊢
    have hc := h.cached hne
    rw [List.getElem?_append_left (List.getElem?_eq_some_iff.mp hc).1]
    exact hc
  unfold growOne
  cases halloc : A.alloc s.allocator s.map.lastDataBlock with
  | none => exact .inr ⟨s, rfl, h, hold, ⟨fun _ _ _ => rfl, rfl⟩, rfl⟩
  | some r =>
    obtain ⟨b, a⟩ := r
    have hold1 := hold.alloc hA halloc
    have hallocated : ∀ c, ¬ A.IsFree s.allocator c → ¬ A.IsFree a c := by
      intro c hc hfree; exact hc ((hA.alloc _ _ _ _ hold.ok halloc).2.2.2.2 c |>.mp hfree).1
    dsimp only
    rw [h.count]
    by_cases hfive : l.length < 5
    · rw [if_pos hfive]
      left
      cases h.shape with
      | singly hgt => omega
      | doubly hgt => have := hg.per; omega
      | direct hle htop =>
        obtain ⟨m, hm, hslot, hsame, heq⟩ :=
          setSlot_spec hfive
        rw [hm, map_some]
        refine ⟨b, _, [], [], rfl, ⟨⟨?_, ?_⟩, hcached ?_⟩, ?_, ⟨fun _ _ _ => rfl, ?_⟩, rfl⟩
        · rw [heq, length_append, length_singleton]
          exact congrArg (· + 1) h.count
        · refine .direct ?_ ((htop.append hslot hsame).congr rfl)
          rw [length_append, length_singleton]
          omega
        · change m.bpos = s.map.bpos; rw [heq]
        · exact hold1.of_count
        · change m.bpos = s.map.bpos; rw [heq]
    · rw [if_neg hfive, hg.singly]
      have hready : Readied Ok Other g { s with allocator := a } b l ts ds
          (if l.length < 5 * g.blocksPerBlock then ({ s with allocator := a }).growSingly g b
            else ({ s with allocator := a }).growDoubly g b) := by
        have hstored : Stored g { s with allocator := a } l ts ds :=
          h.toStored.congr rfl (fun _ _ => rfl) rfl
        by_cases hlt : l.length < 5 * g.blocksPerBlock
        · rw [if_pos hlt]; exact growSingly_spec hA hg hstored hold1 (by omega) hlt
        · rw [if_neg hlt]; exact growDoubly_spec hA hg hstored hold1 (by omega) (by omega)
      generalize (if l.length < 5 * g.blocksPerBlock then
        ({ s with allocator := a } : MapState A).growSingly g b
        else ({ s with allocator := a } : MapState A).growDoubly g b) = r at hready ⊢
      cases hready with
      | failed hstored hold2 hframe hsize =>
        refine .inr ⟨_, rfl, ⟨hstored, ?_⟩, hold2,
          ⟨fun c hc hc' => hframe.disk c hc (hallocated c hc'), hframe.bpos⟩, hsize⟩
        rw [hframe.bpos]
        exact h.cached
      | ready t ts' ds' hready hold2 hframe htable =>
        have hblt : b < 2 ^ 32 := by
          have := (hold2.range b mem_cons_self).2; have := hg.blocks; omega
        obtain ⟨s2, hs2, hstored, hallocator, hdisk, hmap⟩ :=
          hready.append hg (nodup_tables hold2) hblt (by omega) hroom
        rw [bind_some]
        rw [hs2, map_some]
        have hbpos : s2.map.bpos = s.map.bpos := by rw [hmap]; exact hframe.bpos
        refine .inl ⟨b, _, ts', ds', rfl, ⟨hstored, hcached hbpos⟩, ?_, ⟨?_, hbpos⟩, rfl⟩
        · change Holding Ok g.blocks Other s2.allocator _; rw [hallocator]; exact hold2.of_count
        · intro c hc hc'
          have hct : c ≠ t := by
            intro heq
            subst heq
            rcases htable with hin | hfree
            · exact hc (mem_append_left _ hin)
            · exact hallocated c hc' hfree
          exact (hdisk c hct).trans (hframe.disk c hc (hallocated c hc'))

omit hA hg in
theorem Frame.of_held (hframe : Frame s s' (ts ++ ds))
    (hold : Holding Ok g.blocks Other s.allocator (l ++ ts ++ ds)) {c : ℕ}
    (hc : Other c ∨ c ∈ l) : s'.disk c = s.disk c := by
  have hallocated : ¬ A.IsFree s.allocator c := by
    refine (hold.allocated c).mpr (hc.imp_right fun hc => ?_)
    exact mem_append_left _ (mem_append_left _ hc)
  refine hframe.disk c ?_ hallocated
  intro hin
  have hin' : c ∈ l ++ ts ++ ds := by rw [append_assoc]; exact mem_append_right _ hin
  have hnodup := hold.nodup
  rw [append_assoc] at hnodup
  rcases hc with hother | hc
  · exact hold.own c hin' hother
  · exact (nodup_append.mp hnodup).2.2 c hc c hin rfl

theorem growLoop_spec {n : ℕ} (newBlock : Option ℕ) (h : Represents g s l ts ds)
    (hold : Holding Ok g.blocks Other s.allocator (l ++ ts ++ ds))
    (hroom : l.length + n < g.blockMapDoublyBlocks) :
    ∃ r news s' ts' ds', growLoop g n newBlock s = some (r, newBlock.or news.head?, s') ∧
      Represents g s' (l ++ news) ts' ds' ∧
      Holding Ok g.blocks Other s'.allocator (l ++ news ++ ts' ++ ds') ∧
      (r = none ∧ news.length = n ∨ r = some .enospc ∧ news.length < n) ∧
      (∀ c, Other c ∨ c ∈ l → s'.disk c = s.disk c) ∧
      s'.map.bpos = s.map.bpos ∧
      s'.map.size.offset = if news = [] then s.map.size.offset else 0 := by
  induction n generalizing s l ts ds newBlock with
  | zero =>
    refine ⟨none, [], s, ts, ds, ?_, ?_, ?_, .inl ⟨rfl, rfl⟩, fun _ _ => rfl, rfl, rfl⟩
    · rw [growLoop, head?_nil, or_none]
    · rw [append_nil]; exact h
    · rw [append_nil]; exact hold
  | succ n ih =>
    rw [growLoop]
    rcases growOne_spec hA hg h hold (by omega) with
      ⟨b, s1, ts1, ds1, hs1, h1, hold1, hframe, hoffset⟩ |
      ⟨s1, hs1, h1, hold1, hframe, hsize⟩
    · rw [hs1, bind_some]
      dsimp only
      have hlength : (l ++ [b]).length = l.length + 1 := by rw [length_append, length_singleton]
      obtain ⟨r, news, s2, ts2, ds2, hs2, h2, hold2, hr, hdisk, hbpos, hoffset'⟩ :=
        ih (newBlock.or (some b)) h1 hold1 (by omega)
      refine ⟨r, b :: news, s2, ts2, ds2, ?_, ?_, ?_, ?_, ?_, hbpos.trans hframe.bpos, ?_⟩
      · rw [hs2, Option.or_assoc, head?_cons, Option.some_or]
      · rw [append_cons]; exact h2
      · rw [append_cons]; exact hold2
      · exact hr.imp (And.imp_right (congrArg (· + 1))) (And.imp_right Nat.succ_lt_succ)
      · intro c hc
        exact (hdisk c (hc.imp_right (mem_append_left _))).trans (hframe.of_held hold hc)
      · rw [if_neg (cons_ne_nil _ _), hoffset']
        split_ifs
        · exact hoffset
        · rfl
    · rw [hs1, bind_some]
      refine ⟨_, [], s1, ts, ds, ?_, ?_, ?_, .inr ⟨rfl, ?_⟩, ?_, hframe.bpos, ?_⟩
      · rw [head?_nil, or_none]
      · rw [append_nil]; exact h1
      · rw [append_nil]; exact hold1
      · exact Nat.succ_pos n
      · intro c hc; exact hframe.of_held hold hc
      · rw [if_pos rfl, hsize]

theorem blockMapGrow_spec {n : ℕ} (h : Represents g s l ts ds)
    (hold : Holding Ok g.blocks Other s.allocator (l ++ ts ++ ds))
    (hsize : l.length + n < 2 ^ g.sizeBits) :
    g.blockMapDoublyBlocks ≤ l.length + n ∧ s.blockMapGrow g n = some (some .efbig, none, s) ∨
    l.length + n < g.blockMapDoublyBlocks ∧
    ∃ r news s' ts' ds', s.blockMapGrow g n = some (r, news.head?, s') ∧
      Represents g s' (l ++ news) ts' ds' ∧
      Holding Ok g.blocks Other s'.allocator (l ++ news ++ ts' ++ ds') ∧
      (r = none ∧ news.length = n ∨ r = some .enospc ∧ news.length < n) ∧
      (∀ c, Other c ∨ c ∈ l → s'.disk c = s.disk c) ∧ s'.map.bpos = s.map.bpos ∧
      s'.map.size.offset = if news = [] then s.map.size.offset else 0 := by
  unfold blockMapGrow
  rw [h.count, Nat.mod_eq_of_lt hsize]
  by_cases hbig : g.blockMapDoublyBlocks ≤ l.length + n
  · rw [if_pos hbig]; exact .inl ⟨hbig, rfl⟩
  · rw [if_neg hbig]; exact .inr ⟨by omega, growLoop_spec hA hg none h hold (by omega)⟩

end MapState

end Rtems.Rfs
