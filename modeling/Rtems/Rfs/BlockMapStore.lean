import Rtems.Lib.IndexTable
import Rtems.Rfs.BlockMap
import Mathlib.Data.List.Perm.Basic

/-!
# The list of blocks in a block map

* `Holding`: the blocks that a map holds are allocated, distinct, and no others are;
* `Shape`: the data blocks, the singly and the doubly indirect tables of a map;
* `Stored`, `Represents`: an open map and its current position;
* **`blockMapFind_spec`**, **`blockMapFind_past`**: a find in the list.
-/

namespace Rtems.Rfs

open Function IndexTable List

/-! ## Held blocks -/

/-- An allocation hands out free blocks, and others can be freed. -/
structure BlockAllocator.Correct (A : BlockAllocator) (Ok : A.State → Prop) (blocks : ℕ) :
    Prop where
  alloc : ∀ (a : A.State) (goal b : ℕ) (a' : A.State), Ok a → A.alloc a goal = some (b, a') →
    Ok a' ∧ 0 < b ∧ b < blocks ∧ A.IsFree a b ∧ ∀ c, A.IsFree a' c ↔ A.IsFree a c ∧ c ≠ b
  free : ∀ (a : A.State) (b : ℕ), Ok a → 0 < b → b < blocks → ¬ A.IsFree a b →
    ∃ a', A.free a b = some a' ∧ Ok a' ∧ ∀ c, A.IsFree a' c ↔ A.IsFree a c ∨ c = b

/-- The allocated blocks are those of others and the distinct held ones. -/
structure Holding {A : BlockAllocator} (Ok : A.State → Prop) (blocks : ℕ) (Other : ℕ → Prop)
    (a : A.State) (held : List ℕ) : Prop where
  ok : Ok a
  nodup : held.Nodup
  range : ∀ b ∈ held, 0 < b ∧ b < blocks
  own : ∀ b ∈ held, ¬ Other b
  allocated : ∀ b, ¬ A.IsFree a b ↔ Other b ∨ b ∈ held

namespace Holding

variable {A : BlockAllocator} {Ok : A.State → Prop} {blocks : ℕ} {Other : ℕ → Prop}
  {a a' : A.State} {held held' : List ℕ} {b : ℕ}

theorem perm (h : Holding Ok blocks Other a held) (hperm : held.Perm held') :
    Holding Ok blocks Other a held' where
  ok := h.ok
  nodup := hperm.nodup_iff.mp h.nodup
  range := fun c hc => h.range c (hperm.mem_iff.mpr hc)
  own := fun c hc => h.own c (hperm.mem_iff.mpr hc)
  allocated := fun c => by rw [h.allocated c, hperm.mem_iff]

theorem of_count (h : Holding Ok blocks Other a held)
    (hcount : ∀ c, held'.count c = held.count c := by
      intro c
      simp only [count_cons, count_append, count_nil]
      omega) : Holding Ok blocks Other a held' :=
  h.perm (perm_iff_count.mpr fun c => (hcount c).symm)

theorem alloc (hA : A.Correct Ok blocks) (h : Holding Ok blocks Other a held) {goal : ℕ}
    (halloc : A.alloc a goal = some (b, a')) : Holding Ok blocks Other a' (b :: held) := by
  obtain ⟨hok, hpos, hlt, hfree, hiff⟩ := hA.alloc a goal b a' h.ok halloc
  have hnew : ¬ (Other b ∨ b ∈ held) := fun hin => (h.allocated b).mpr hin hfree
  refine ⟨hok, nodup_cons.mpr ⟨fun hin => hnew (.inr hin), h.nodup⟩, ?_, ?_, ?_⟩
  · intro c hc
    rcases mem_cons.mp hc with rfl | hc
    · exact ⟨hpos, hlt⟩
    · exact h.range c hc
  · intro c hc
    rcases mem_cons.mp hc with rfl | hc
    · exact fun hother => hnew (.inl hother)
    · exact h.own c hc
  · intro c
    have hc := h.allocated c
    rw [hiff c, mem_cons]
    by_cases hcb : c = b
    · simp [hcb]
    · simp only [hcb, false_or, ne_eq, not_false_eq_true, and_true]; exact hc

theorem free (hA : A.Correct Ok blocks) (h : Holding Ok blocks Other a (b :: held)) :
    ∃ a', A.free a b = some a' ∧ Holding Ok blocks Other a' held := by
  have hb : b ∈ b :: held := mem_cons_self
  obtain ⟨hnotin, hnodup⟩ := nodup_cons.mp h.nodup
  obtain ⟨a', hfree, hok, hiff⟩ := hA.free a b h.ok (h.range b hb).1 (h.range b hb).2
    ((h.allocated b).mpr (.inr hb))
  refine ⟨a', hfree, hok, hnodup, fun c hc => h.range c (mem_cons_of_mem _ hc),
    fun c hc => h.own c (mem_cons_of_mem _ hc), ?_⟩
  intro c
  have hc := h.allocated c
  rw [mem_cons] at hc
  rw [hiff c]
  by_cases hcb : c = b
  · subst hcb; have := h.own c hb; simp [hnotin, this]
  · simp only [hcb, or_false, false_or] at hc ⊢; exact hc

end Holding

/-! ## Numbers in tables and slots -/

/-- The number with the index `i` in the table of a block. -/
def number (disk : ℕ → Block) (t i : ℕ) : ℕ := (disk t).readU32 (4 * i)

variable {disk : ℕ → Block}

theorem number_write {t j v : ℕ} (hv : v < 2 ^ 32) :
    number (update disk t ((disk t).writeU32 (4 * j) v)) t j = v := by
  unfold number
  rw [update_self, Block.readU32_writeU32 hv]

theorem number_write_of_ne {t j v t' i : ℕ} (h : t' ≠ t ∨ i ≠ j) :
    number (update disk t ((disk t).writeU32 (4 * j) v)) t' i = number disk t' i := by
  unfold number
  by_cases ht : t' = t
  · subst ht; rw [update_self]; exact Block.readU32_writeU32_of_ne (by omega)
  · rw [update_of_ne ht]

theorem number_update_of_ne {t : ℕ} {d : Block} {t' : ℕ} (h : t' ≠ t) (i : ℕ) :
    number (update disk t d) t' i = number disk t' i := by
  unfold number
  rw [update_of_ne h]

theorem readU32_writeSlots {d : Block} {blocks : Fin 5 → ℕ} {i : Fin 5} (h : blocks i < 2 ^ 32) :
    (MapState.writeSlots d blocks).readU32 (4 * i.val) = blocks i := by
  have hunfold : MapState.writeSlots d blocks =
      ((((d.writeU32 0 (blocks 0)).writeU32 4 (blocks 1)).writeU32 8 (blocks 2)).writeU32 12
        (blocks 3)).writeU32 16 (blocks 4) := rfl
  rw [hunfold]
  have hne {d : Block} {o v o' : ℕ} (h : o' + 4 ≤ o) :
      (d.writeU32 o v).readU32 o' = d.readU32 o' := Block.readU32_writeU32_of_ne (.inl h)
  match i with
  | 0 => rw [hne (by decide), hne (by decide), hne (by decide), hne (by decide)]
         exact Block.readU32_writeU32 h
  | 1 => rw [hne (by decide), hne (by decide), hne (by decide)]
         exact Block.readU32_writeU32 h
  | 2 => rw [hne (by decide), hne (by decide)]
         exact Block.readU32_writeU32 h
  | 3 => rw [hne (by decide)]
         exact Block.readU32_writeU32 h
  | 4 => exact Block.readU32_writeU32 h

namespace BlockMap

variable {m m' : BlockMap} {top : List ℕ} {i v : ℕ}

/-- The slots of the inode hold a list of blocks. -/
def Holds (m : BlockMap) (top : List ℕ) : Prop :=
  ∀ (i v : ℕ), top[i]? = some v → m.slot i = some v

theorem slot_lt (h : m.slot i = some v) : i < 5 := by
  unfold slot at h
  split_ifs at h with hi
  exact hi

theorem slot_congr (h : m'.blocks = m.blocks) : m'.slot i = m.slot i := by
  unfold slot; rw [h]

theorem Holds.congr (h : m.Holds top) (hblocks : m'.blocks = m.blocks) : m'.Holds top :=
  fun i v hv => (slot_congr hblocks).trans (h i v hv)

theorem setSlot_spec (hi : i < 5) : ∃ m', m.setSlot i v = some m' ∧ m'.slot i = some v ∧
    (∀ j, j ≠ i → m'.slot j = m.slot j) ∧ m' = { m with blocks := m'.blocks } := by
  refine ⟨_, dif_pos hi, ?_, ?_, rfl⟩
  · unfold slot; rw [dif_pos hi]; exact congrArg some (update_self _ _ _)
  · intro j hj
    unfold slot
    by_cases hj5 : j < 5
    · rw [dif_pos hj5, dif_pos hj5]
      refine congrArg some (update_of_ne ?_ _ _)
      intro heq
      exact hj (Fin.mk.inj_iff.mp heq)
    · rw [dif_neg hj5, dif_neg hj5]

theorem Holds.append (h : m.Holds top) (hslot : m'.slot top.length = some v)
    (hsame : ∀ j, j ≠ top.length → m'.slot j = m.slot j) : m'.Holds (top ++ [v]) := by
  intro i x hx
  by_cases hi : i < top.length
  · rw [getElem?_append_left hi] at hx; exact (hsame i (by omega)).trans (h i x hx)
  · have hi' : i = top.length := by
      have := (List.getElem?_eq_some_iff.mp hx).1
      rw [length_append, length_singleton] at this
      omega
    subst hi'
    rw [getElem?_concat_length] at hx
    cases hx
    exact hslot

theorem Holds.dropLast (h : m.Holds (top ++ [v]))
    (hsame : ∀ j, j ≠ top.length → m'.slot j = m.slot j) : m'.Holds top := by
  intro i x hx
  have hi := (List.getElem?_eq_some_iff.mp hx).1
  exact (hsame i (by omega)).trans (h i x ((getElem?_append_left hi).trans hx))

end BlockMap

/-! ## The shape of a map -/

/-- A geometry whose tables have room for more than five numbers. -/
structure Geometry.Fits (g : Geometry) : Prop where
  per : 5 < g.blocksPerBlock
  singly : g.blockMapSinglyBlocks = 5 * g.blocksPerBlock
  doubly : g.blockMapDoublyBlocks ≤ 5 * (g.blocksPerBlock * g.blocksPerBlock)
  blocks : g.blocks < 2 ^ 32

/-- The data blocks, the singly and the doubly indirect tables of a map. -/
inductive Shape (g : Geometry) (disk : ℕ → Block) (m : BlockMap) :
    List ℕ → List ℕ → List ℕ → Prop
  | direct {l : List ℕ} (hle : l.length ≤ 5) (htop : m.Holds l) : Shape g disk m l [] []
  | singly {l ts : List ℕ} (hgt : 5 < l.length) (hle : l.length ≤ 5 * g.blocksPerBlock)
      (hl : Covers g.blocksPerBlock (number disk) ts l) (htop : m.Holds ts) : Shape g disk m l ts []
  | doubly {l ts ds : List ℕ} (hgt : 5 * g.blocksPerBlock < l.length)
      (hlt : l.length < g.blockMapDoublyBlocks)
      (hl : Covers g.blocksPerBlock (number disk) ts l)
      (hts : Covers g.blocksPerBlock (number disk) ds ts) (htop : m.Holds ds) :
      Shape g disk m l ts ds

namespace MapState

variable {A : BlockAllocator} {Ok : A.State → Prop} {Other : ℕ → Prop} {g : Geometry}
  {s s' : MapState A} {l ts ds : List ℕ}

/-- The map stores a list of data blocks in its tables. -/
structure Stored (g : Geometry) (s : MapState A) (l ts ds : List ℕ) : Prop where
  count : s.map.size.count = l.length
  shape : Shape g s.disk s.map l ts ds

/-- A map that is open: its current position is a block of the map. -/
structure Represents (g : Geometry) (s : MapState A) (l ts ds : List ℕ) : Prop
    extends Stored g s l ts ds where
  cached : s.map.bpos.block ≠ 0 → l[s.map.bpos.bno]? = some s.map.bpos.block

theorem Stored.congr (h : Stored g s l ts ds) (hcount : s'.map.size.count = s.map.size.count)
    (hdisk : ∀ t ∈ ts ++ ds, s'.disk t = s.disk t) (hblocks : s'.map.blocks = s.map.blocks) :
    Stored g s' l ts ds := by
  have hread : ∀ t ∈ ts ++ ds, ∀ i, number s'.disk t i = number s.disk t i := by
    intro t ht i; unfold number; rw [hdisk t ht]
  refine ⟨hcount.trans h.count, ?_⟩
  cases h.shape with
  | direct hle htop => exact .direct hle (htop.congr hblocks)
  | singly hgt hle hl htop =>
    exact .singly hgt hle (hl.congr fun t ht => hread t (mem_append_left _ ht)) (htop.congr hblocks)
  | doubly hgt hlt hl hts htop =>
    exact .doubly hgt hlt (hl.congr fun t ht => hread t (mem_append_left _ ht))
      (hts.congr fun t ht => hread t (mem_append_right _ ht)) (htop.congr hblocks)

theorem represents_empty (hmap : s.map = BlockMap.empty) : Represents g s [] [] [] := by
  refine ⟨⟨by rw [hmap]; rfl, .direct (Nat.zero_le _) ?_⟩, ?_⟩
  · intro i v hv; cases hv
  · intro hne; rw [hmap] at hne; exact absurd rfl hne

/-! ## Find -/

theorem findIndirect_eq {b : MapBuffer} {t i v : ℕ} (hv : number s.disk t i = v)
    (hlt : v < g.blocks) (hblocks : g.blocks < 2 ^ 32) :
    s.findIndirect g b t i = some (v, s.handleRequest b t) := by
  have hget : (s.handleRequest b t).getNumber b i = some v := by
    cases b <;> exact congrArg some hv
  unfold findIndirect
  rw [hget, Option.map_some, if_neg (by omega), if_neg (by omega)]

/-- A find changes only the handles and the position of the map. -/
structure Found (s s' : MapState A) : Prop where
  allocator : s'.allocator = s.allocator
  disk : s'.disk = s.disk
  blocks : s'.map.blocks = s.map.blocks
  size : s'.map.size = s.map.size

theorem Found.handleRequest (h : Found s s') (b : MapBuffer) (t : ℕ) :
    Found s (s'.handleRequest b t) := by
  cases b <;> exact ⟨h.allocator, h.disk, h.blocks, h.size⟩

theorem Found.refl (s : MapState A) : Found s s := ⟨rfl, rfl, rfl, rfl⟩

theorem findBlock_spec (hg : g.Fits) (h : Stored g s l ts ds)
    (hrange : ∀ b ∈ l ++ ts ++ ds, 0 < b ∧ b < g.blocks) {bno b : ℕ} (hb : l[bno]? = some b) :
    ∃ s', s.findBlock g bno = some (.ok b, s') ∧ Found s s' := by
  have hbrange := hrange b (mem_append_left _ (mem_append_left _ (mem_of_getElem? hb)))
  unfold findBlock
  rw [h.count]
  cases h.shape with
  | direct hle htop => rw [if_pos hle, htop bno b hb]; exact ⟨s, rfl, .refl s⟩
  | singly hgt hle hl htop =>
    rw [if_neg (by omega), hg.singly]
    rw [if_pos hle]
    obtain ⟨t, ht, hnumber⟩ := hl.entry bno b hb
    rw [htop _ t ht, Option.bind_some, findIndirect_eq hnumber hbrange.2 hg.blocks]
    exact ⟨_, rfl, (Found.refl s).handleRequest _ _⟩
  | doubly hgt hlt hl hts htop =>
    have hper := hg.per
    rw [if_neg (by omega), hg.singly]
    rw [if_neg (by omega), if_pos hlt]
    obtain ⟨t, ht, hnumber⟩ := hl.entry bno b hb
    obtain ⟨d, hd, hnumber'⟩ := hts.entry _ t ht
    have htrange := hrange t (mem_append_left _ (mem_append_right _ (mem_of_getElem? ht)))
    rw [htop _ d hd, Option.bind_some, findIndirect_eq hnumber' htrange.2 hg.blocks,
      Option.bind_some]
    rw [findIndirect_eq (s := s.handleRequest .doubly d) hnumber hbrange.2 hg.blocks]
    exact ⟨_, rfl, ((Found.refl s).handleRequest _ _).handleRequest _ _⟩

theorem blockMapFind_spec (hg : g.Fits) (h : Represents g s l ts ds)
    (hrange : ∀ b ∈ l ++ ts ++ ds, 0 < b ∧ b < g.blocks) {bpos : BlockPos} {b : ℕ}
    (hb : l[bpos.bno]? = some b) :
    ∃ s', s.blockMapFind g bpos = some (.ok b, s') ∧ Found s s' ∧
      s'.map.bpos = ⟨bpos.bno, bpos.boff, b⟩ ∧ Represents g s' l ts ds := by
  have hlt := (List.getElem?_eq_some_iff.mp hb).1
  have hpast : ¬ bpos.BlockPastEnd s.map.size := by
    unfold BlockPos.BlockPastEnd; rw [h.count]; omega
  unfold blockMapFind
  rw [if_neg hpast]
  by_cases hcached : bpos.bno = s.map.bpos.bno ∧ s.map.bpos.block ≠ 0
  · rw [if_pos hcached]
    have hsame : s.map.bpos.block = b := by
      have := h.cached hcached.2
      rw [← hcached.1, hb] at this
      exact (Option.some_inj.mp this).symm
    rw [hsame]
    exact ⟨_, rfl, ⟨rfl, rfl, rfl, rfl⟩, rfl, ⟨h.toStored.congr rfl (fun _ _ => rfl) rfl,
      fun _ => hb⟩⟩
  · rw [if_neg hcached]
    obtain ⟨s', hs', hfound⟩ := findBlock_spec hg h.toStored hrange hb
    rw [hs', Option.map_some]
    refine ⟨_, rfl, ⟨hfound.allocator, hfound.disk, hfound.blocks, hfound.size⟩, rfl, ?_,
      fun _ => hb⟩
    exact h.toStored.congr (congrArg BlockSize.count hfound.size)
      (fun t _ => congrFun hfound.disk t) hfound.blocks

theorem blockMapFind_past (h : Represents g s l ts ds) {bpos : BlockPos}
    (hpast : l.length ≤ bpos.bno) : s.blockMapFind g bpos = some (.error .enxio, s) := by
  unfold blockMapFind
  rw [if_pos]
  unfold BlockPos.BlockPastEnd
  rw [h.count]
  exact .inr hpast

end MapState

end Rtems.Rfs
