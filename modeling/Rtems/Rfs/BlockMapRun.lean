import Rtems.Rfs.BlockMapGrow

/-!
# A block map is a list of blocks

* `shrinkSingly_spec`, `shrinkDoubly_spec`, **`shrinkOne_spec`**: one iteration of
  `rtems_rfs_block_map_shrink` frees the last block and the tables that are empty with it;
* `MapOperation`, `ListStep`: the operations, and what they do with a list;
* **`block_map_exact`**: over every sequence of operations the map is the list of the blocks that
  were appended, it holds exactly the allocated blocks, and `rtems_rfs_block_map_free_all` frees all
  of them.
-/

namespace Rtems.Rfs

open IndexTable List Option Nat Rtems.Rfs.Geometry

namespace MapState

variable {A : BlockAllocator} {Ok : A.State → Prop} {Other : ℕ → Prop} {g : Geometry}
  {s s' : MapState A} {l ts ds : List ℕ}

/-! ## Shrink -/

section

variable (hA : A.Correct Ok g.blocks)

include hA

/-- **A number less in the tables of the slots.** An empty table is freed, and the only one if the
slots have room for it. -/
theorem indirectShrink_spec (hper : 5 < g.blocksPerBlock) {b : MapBuffer} {x t : ℕ} {held : List ℕ}
    (hl : Covers g.blocksPerBlock (number s.disk) ts (l ++ [x])) (htop : s.map.Holds ts)
    (ht : ts[l.length / g.blocksPerBlock]? = some t) (hbuffer : s.map.buffer b = some t)
    (hge : 5 ≤ l.length) (hold : Holding Ok g.blocks Other s.allocator (ts ++ held)) :
    ∃ m a ts', s.indirectShrink b (l.length / g.blocksPerBlock) (l.length % g.blocksPerBlock) =
        some { s with allocator := a, map := m } ∧
      Holding Ok g.blocks Other a (ts' ++ held) ∧ m.size = s.map.size ∧ m.bpos = s.map.bpos ∧
      (l.length = 5 ∧ ts' = [] ∧ m.Holds l ∨
        5 < l.length ∧ Covers g.blocksPerBlock (number s.disk) ts' l ∧ m.Holds ts') := by
  have hn : 0 < g.blocksPerBlock := by omega
  have hslot := htop _ t ht
  unfold indirectShrink
  by_cases hmod : l.length % g.blocksPerBlock = 0
  · obtain ⟨ts', t', rfl, hl', -⟩ := hl.pop_new hn hmod
    have hlen := hl'.length_of_mod hn hmod
    rw [← hlen] at ht hslot ⊢
    rw [getElem?_concat_length] at ht
    cases ht
    have hle : g.blocksPerBlock ≤ l.length := le_of_dvd (by omega) (Nat.dvd_of_mod_eq_zero hmod)
    have hfive : ¬ (ts'.length = 0 ∧ l.length % g.blocksPerBlock = 5) := by omega
    obtain ⟨m, hm, -, hsame, heq⟩ := setSlot_spec (BlockMap.slot_lt hslot)
    obtain ⟨a, hfree, hold'⟩ := free_spec (s := { s with map := m }) hA
      (hold.of_count : Holding _ _ _ _ (t :: (ts' ++ held)))
    rw [if_pos (.inl hmod), hslot, bind_some, if_neg hfive, hm, bind_some, hfree, map_some]
    refine ⟨_, a, ts', rfl, hold', ?_, ?_, .inr ⟨by omega, hl', (htop.dropLast hsame).congr rfl⟩⟩
    · rw [heq]
    · rw [heq]
  · by_cases hfive : l.length = 5
    · have hmod5 : l.length % g.blocksPerBlock = 5 := by rw [hfive, Nat.mod_eq_of_lt hper]
      have hdiv5 : l.length / g.blocksPerBlock = 0 := by rw [hfive, div_eq_of_lt hper]
      have hlength : (l ++ [x]).length = 6 := by rw [length_append, hfive, length_singleton]
      rw [hdiv5] at ht hslot
      rw [hmod5, hdiv5]
      obtain rfl := hl.eq_singleton (by omega) ht
      have hread : s.readSlots b = some { s with map := { s.map with
          blocks := fun i => (s.disk t).readU32 (4 * i.val) } } := by
        unfold readSlots
        rw [hbuffer]
        rfl
      obtain ⟨a, hfree, hold'⟩ := free_spec (s := { s with map := { s.map with
          blocks := fun i => (s.disk t).readU32 (4 * i.val) } }) hA hold
      rw [if_pos (.inr ⟨rfl, rfl⟩), hslot, bind_some, if_pos ⟨rfl, rfl⟩, hread, bind_some, hfree,
        map_some]
      refine ⟨_, a, [], rfl, hold', rfl, rfl, .inl ⟨hfive, rfl, fun i v hv => ?_⟩⟩
      have hi := (List.getElem?_eq_some_iff.mp hv).1
      exact (dif_pos (hfive ▸ hi)).trans (congrArg some (hl.read_single (by omega)
        ((getElem?_append_left hi).trans hv)))
    · rw [if_neg]
      · exact ⟨s.map, s.allocator, ts, rfl, hold, rfl, rfl, .inr ⟨by omega, hl.pop_old hmod, htop⟩⟩
      · rintro (hzero | ⟨hdiv, hmod5⟩)
        · exact hmod hzero
        · have := div_add_mod l.length g.blocksPerBlock
          rw [hdiv, hmod5, Nat.mul_zero] at this
          omega

section

variable (hg : g.Fits) {b : ℕ} (h : Stored g s (l ++ [b]) ts ds)
  (hold : Holding Ok g.blocks Other s.allocator (l ++ [b] ++ ts ++ ds))

include hg h hold

theorem shrinkSingly_spec (hge : 5 ≤ l.length) (hlt : l.length < 5 * g.blocksPerBlock) :
    ∃ s' ts' ds', s.shrinkSingly g l.length = some (b, s') ∧ Shape g s'.disk s'.map l ts' ds' ∧
      Holding Ok g.blocks Other s'.allocator (b :: (l ++ ts' ++ ds')) ∧ s'.disk = s.disk ∧
      s'.map.size = s.map.size ∧ s'.map.bpos = s.map.bpos := by
  have hlength : (l ++ [b]).length = l.length + 1 := length_append
  cases h.shape with
  | direct hle | doubly hgt => omega
  | singly hgt hle hl htop =>
    obtain ⟨t, ht, hnumber⟩ := hl.entry l.length b getElem?_concat_length
    have hget : (s.handleRequest .singly t).getNumber .singly (l.length % g.blocksPerBlock) =
        some b := congrArg some hnumber
    obtain ⟨m, a, ts', hs', hold', hsize, hbpos, hcases⟩ := indirectShrink_spec
      (s := s.handleRequest .singly t) (b := .singly) hA hg.per hl (htop.congr rfl) ht rfl hge
      (hold.of_count : Holding _ _ _ _ (ts ++ b :: l))
    unfold shrinkSingly
    dsimp only
    rw [htop _ t ht, bind_some, hget, bind_some, hs', map_some]
    refine ⟨_, ts', [], rfl, ?_, hold'.of_count, rfl, hsize, hbpos⟩
    rcases hcases with ⟨hfive, rfl, hm⟩ | ⟨hgt', hl', hm⟩
    · exact .direct (by omega) hm
    · exact .singly hgt' (by omega) hl' hm

theorem shrinkDoubly_spec (hge : 5 * g.blocksPerBlock ≤ l.length) :
    ∃ s' ts' ds', s.shrinkDoubly g l.length = some (b, s') ∧ Shape g s'.disk s'.map l ts' ds' ∧
      Holding Ok g.blocks Other s'.allocator (b :: (l ++ ts' ++ ds')) ∧ s'.disk = s.disk ∧
      s'.map.size = s.map.size ∧ s'.map.bpos = s.map.bpos := by
  have hper := hg.per
  have hn : 0 < g.blocksPerBlock := by omega
  have hlength : (l ++ [b]).length = l.length + 1 := length_append
  cases h.shape with
  | direct hle | singly hgt hle => omega
  | doubly hgt hlt hl hts htop =>
    obtain ⟨t, ht, hnumber⟩ := hl.entry l.length b getElem?_concat_length
    obtain ⟨d, hd, hnumber'⟩ := hts.entry _ t ht
    have hget' : (s.handleRequest .doubly d).getNumber .doubly
        (l.length / g.blocksPerBlock % g.blocksPerBlock) = some t := congrArg some hnumber'
    have hget : ((s.handleRequest .doubly d).handleRequest .singly t).getNumber .singly
        (l.length % g.blocksPerBlock) = some b := congrArg some hnumber
    unfold shrinkDoubly
    dsimp only
    rw [htop _ d hd, bind_some, hget', bind_some, hget, bind_some]
    by_cases hmod : l.length % g.blocksPerBlock = 0
    · rw [if_pos hmod]
      obtain ⟨ts', t', rfl, hl', -⟩ := hl.pop_new hn hmod
      have hlen := hl'.length_of_mod hn hmod
      rw [← hlen] at hd ⊢
      rw [← hlen, getElem?_concat_length] at ht
      cases ht
      have hk : g.blocksPerBlock * ts'.length = l.length := by
        rw [hlen]; exact Nat.mul_div_cancel' (Nat.dvd_of_mod_eq_zero hmod)
      have hk5 : 5 ≤ ts'.length := by
        by_contra hlt5
        have := mul_le_mul_left g.blocksPerBlock (show ts'.length ≤ 4 by omega)
        omega
      obtain ⟨a, hfree, hold2⟩ := free_spec
        (s := (s.handleRequest .doubly d).handleRequest .singly t) hA
        (hold.of_count : Holding _ _ _ _ (t :: (ds ++ b :: (l ++ ts'))))
      rw [hfree, bind_some]
      obtain ⟨m, a2, ds', hs', hold', hsize, hbpos, hcases⟩ := indirectShrink_spec (s := { s with
          allocator := a
          map := { ((s.handleRequest .doubly d).handleRequest .singly t).map with
            lastMapBlock := t } })
        (b := .doubly) hA hper hts (htop.congr rfl) hd rfl hk5 hold2
      refine ⟨_, ts', ds', congrArg (Option.map _) hs', ?_, hold'.of_count, rfl, hsize, hbpos⟩
      rcases hcases with ⟨hfive, rfl, hm⟩ | ⟨hgt', hts', hm⟩
      · rw [hfive] at hk; exact .singly (by omega) (by omega) hl' hm
      · have hgt6 := mul_le_mul_left g.blocksPerBlock (show 6 ≤ ts'.length by omega)
        exact .doubly (by omega) (by omega) hl' hts' hm
    · rw [if_neg hmod]
      have hgt' : 5 * g.blocksPerBlock ≠ l.length := by
        intro heq; rw [← heq, mul_mod_left] at hmod; exact hmod rfl
      exact ⟨_, ts, ds, rfl, .doubly (by omega) (by omega) (hl.pop_old hmod) hts (htop.congr rfl),
        hold.of_count, rfl, rfl, rfl⟩

theorem shrinkOne_spec : ∃ s' ts' ds', s.shrinkOne g = some (some s') ∧ Stored g s' l ts' ds' ∧
      Holding Ok g.blocks Other s'.allocator (l ++ ts' ++ ds') ∧ s'.disk = s.disk ∧
      s'.map.bpos = s.map.bpos ∧ s'.map.size.offset = 0 := by
  have hlength : (l ++ [b]).length = l.length + 1 := by rw [length_append, length_singleton]
  have hlast : s.map.size.count - 1 = l.length := by rw [h.count, hlength, Nat.add_sub_cancel]
  -- what remains after the tables are in order
  have hfinish {s1 : MapState A} (ts' ds' : List ℕ) (hshape : Shape g s1.disk s1.map l ts' ds')
      (hold1 : Holding Ok g.blocks Other s1.allocator (b :: (l ++ ts' ++ ds')))
      (hdisk : s1.disk = s.disk) (hsize : s1.map.size = s.map.size)
      (hbpos : s1.map.bpos = s.map.bpos) :
      ∃ s' ts' ds', (s1.free b).map (fun s => some (s.removed b)) = some (some s') ∧
        Stored g s' l ts' ds' ∧ Holding Ok g.blocks Other s'.allocator (l ++ ts' ++ ds') ∧
        s'.disk = s.disk ∧ s'.map.bpos = s.map.bpos ∧ s'.map.size.offset = 0 := by
    obtain ⟨a, hfree, hold2⟩ := free_spec hA hold1
    rw [hfree, map_some]
    have hcount : s1.map.size.count - 1 = l.length := by rw [hsize]; exact hlast
    have hstored : Stored g { s1 with map := { s1.map with size := ⟨l.length, 0⟩ } } l ts' ds' := by
      refine ⟨rfl, ?_⟩
      cases hshape with
      | direct hle htop => exact .direct hle (htop.congr rfl)
      | singly hgt hle hl htop => exact .singly hgt hle hl (htop.congr rfl)
      | doubly hgt hlt hl hts htop => exact .doubly hgt hlt hl hts (htop.congr rfl)
    exact ⟨_, ts', ds', rfl, hstored.congr hcount (fun _ _ => rfl) rfl, hold2, hdisk, hbpos, rfl⟩
  unfold shrinkOne
  rw [hlast, hg.singly]
  by_cases hfive : l.length < 5
  · rw [if_pos hfive]
    cases h.shape with
    | singly hgt => omega
    | doubly hgt => have := hg.per; omega
    | direct hle htop =>
      have hslot := htop l.length b getElem?_concat_length
      obtain ⟨m, hm, -, hsame, heq⟩ := setSlot_spec hfive
      rw [hslot, bind_some, hm, bind_some]
      refine hfinish [] [] (.direct (by omega) (htop.dropLast hsame)) ?_ rfl ?_ ?_
      · exact hold.of_count
      · rw [heq]
      · rw [heq]
  · rw [if_neg hfive]
    by_cases hlt : l.length < 5 * g.blocksPerBlock
    · rw [if_pos hlt]
      obtain ⟨s1, ts1, ds1, hs1, hshape, hold1, hdisk, hsize, hbpos⟩ :=
        shrinkSingly_spec hA hg h hold (by omega) hlt
      rw [hs1, bind_some]
      exact hfinish ts1 ds1 hshape hold1 hdisk hsize hbpos
    · rw [if_neg hlt]
      have hdoubly : l.length < g.blockMapDoublyBlocks := by
        cases h.shape with
        | direct hle | singly hgt hle | doubly hgt hltd => omega
      rw [if_pos hdoubly]
      obtain ⟨s1, ts1, ds1, hs1, hshape, hold1, hdisk, hsize, hbpos⟩ :=
        shrinkDoubly_spec hA hg h hold (by omega)
      rw [hs1, bind_some]
      exact hfinish ts1 ds1 hshape hold1 hdisk hsize hbpos

end

theorem shrinkLoop_spec (hg : g.Fits) {n : ℕ}
    (h : Stored g s l ts ds) (hold : Holding Ok g.blocks Other s.allocator (l ++ ts ++ ds))
    (hn : n ≤ l.length) :
    ∃ s' ts' ds', shrinkLoop g n s = some s' ∧ Stored g s' (l.take (l.length - n)) ts' ds' ∧
      Holding Ok g.blocks Other s'.allocator (l.take (l.length - n) ++ ts' ++ ds') ∧
      s'.disk = s.disk ∧ s'.map.bpos = s.map.bpos ∧
      s'.map.size.offset = if n = 0 then s.map.size.offset else 0 := by
  induction n generalizing s l ts ds with
  | zero => rw [Nat.sub_zero, take_length]; exact ⟨s, ts, ds, rfl, h, hold, rfl, rfl, rfl⟩
  | succ n ih =>
    have hne : l ≠ [] := by intro hnil; rw [hnil] at hn; exact absurd hn (not_succ_le_zero n)
    obtain ⟨l, b, rfl⟩ : ∃ l' b, l = l' ++ [b] :=
      ⟨l.dropLast, l.getLast hne, (dropLast_append_getLast hne).symm⟩
    rw [length_append, length_singleton] at hn
    obtain ⟨s1, ts1, ds1, hs1, h1, hold1, hdisk, hbpos, hoffset⟩ := shrinkOne_spec hA hg h hold
    obtain ⟨s2, ts2, ds2, hs2, h2, hold2, hdisk', hbpos', hoffset'⟩ := ih h1 hold1 (by omega)
    have htake : (l ++ [b]).take ((l ++ [b]).length - (n + 1)) = l.take (l.length - n) := by
      rw [length_append, length_singleton, Nat.add_sub_add_right,
        take_append_of_le_length (sub_le _ _)]
    rw [shrinkLoop, hs1, bind_some, htake]
    refine ⟨s2, ts2, ds2, hs2, h2, hold2, hdisk'.trans hdisk, hbpos'.trans hbpos, ?_⟩
    rw [if_neg (succ_ne_zero n), hoffset']
    split_ifs
    · exact hoffset
    · rfl

end

theorem shrunk_size (s : MapState A) : s.shrunk.map.size = s.map.size := by
  unfold shrunk
  dsimp only
  split_ifs <;> rfl

theorem shrunk_blocks (s : MapState A) : s.shrunk.map.blocks = s.map.blocks := by
  unfold shrunk
  dsimp only
  split_ifs <;> rfl

theorem shrunk_bpos (s : MapState A) : s.shrunk.map.bpos.block = 0 ∨
    s.shrunk.map.bpos = s.map.bpos ∧ s.map.bpos.bno < s.map.size.count := by
  have hcases : s.shrunk.map.bpos =
      if s.map.bpos.PastEnd s.map.size then s.map.size.getBpos else s.map.bpos := by
    unfold shrunk
    dsimp only
    split_ifs <;> rfl
  rw [hcases]
  by_cases hpast : s.map.bpos.PastEnd s.map.size
  · rw [if_pos hpast]; exact .inl rfl
  · rw [if_neg hpast]; unfold BlockPos.PastEnd at hpast; exact .inr ⟨rfl, by omega⟩

section

variable (hA : A.Correct Ok g.blocks) (hg : g.Fits) (h : Represents g s l ts ds)
  (hold : Holding Ok g.blocks Other s.allocator (l ++ ts ++ ds))

include hA hg h hold

theorem blockMapShrink_spec {n : ℕ} :
    ∃ s' ts' ds', s.blockMapShrink g n = some s' ∧ Represents g s' (l.take (l.length - n)) ts' ds' ∧
      Holding Ok g.blocks Other s'.allocator (l.take (l.length - n) ++ ts' ++ ds') ∧
      s'.disk = s.disk ∧ (0 < n → 0 < l.length → s'.map.size.offset = 0) := by
  unfold blockMapShrink
  rw [h.count]
  by_cases hzero : l.length = 0
  · have hnil := length_eq_zero_iff.mp hzero
    subst hnil
    rw [take_nil]
    exact ⟨s, ts, ds, rfl, h, hold, rfl, fun _ hlt => absurd hlt (Nat.lt_irrefl 0)⟩
  · rw [if_neg hzero]
    obtain ⟨s1, ts1, ds1, hs1, h1, hold1, hdisk, hbpos, hoffset⟩ :=
      shrinkLoop_spec hA hg h.toStored hold (Nat.min_le_right _ _)
    have htake : l.take (l.length - min n l.length) = l.take (l.length - n) := by
      congr 1
      omega
    rw [htake] at h1 hold1
    rw [hs1, map_some]
    refine ⟨_, ts1, ds1, rfl, ⟨h1.congr (congrArg BlockSize.count (shrunk_size s1))
      (fun _ _ => rfl) (shrunk_blocks s1), ?_⟩, hold1, hdisk, ?_⟩
    · intro hne
      rcases shrunk_bpos s1 with hnone | ⟨hsame, hlt⟩
      · exact absurd hnone hne
      · rw [hsame, hbpos] at hne ⊢
        rw [hbpos, h1.count, length_take] at hlt
        rw [getElem?_take_of_lt (by omega)]
        exact h.cached hne
    · intro hpos hpos'; rw [shrunk_size, hoffset, if_neg (by omega)]

theorem blockMapFreeAll_spec : ∃ s', s.blockMapFreeAll g = some s' ∧ Represents g s' [] [] [] ∧
      Holding Ok g.blocks Other s'.allocator [] ∧ s'.disk = s.disk ∧
      (0 < l.length → s'.map.size.offset = 0) := by
  obtain ⟨s', ts', ds', hs', h', hold', hdisk, hoffset⟩ :=
    blockMapShrink_spec hA hg h hold
  rw [Nat.sub_self, take_zero] at h' hold'
  unfold blockMapFreeAll
  rw [h.count]
  have hnil : ts' = [] ∧ ds' = [] := by
    cases h'.shape with
    | direct => exact ⟨rfl, rfl⟩
    | singly hgt | doubly hgt => exact absurd hgt (not_lt_zero _)
  obtain ⟨rfl, rfl⟩ := hnil
  exact ⟨s', hs', h', hold', hdisk, fun hpos => hoffset hpos hpos⟩

/-! ## Runs -/

inductive MapOperation
  | grow (blocks : ℕ)
  | shrink (blocks : ℕ)
  | find (bpos : BlockPos)
  deriving DecidableEq

inductive MapOutcome
  | grown (error : Option Errno) (newBlock : Option ℕ)
  | shrunk
  | found (block : Except Errno ℕ)

def step (g : Geometry) (s : MapState A) : MapOperation → Option (MapOutcome × MapState A)
  | .grow blocks => (s.blockMapGrow g blocks).map fun r => (.grown r.1 r.2.1, r.2.2)
  | .shrink blocks => (s.blockMapShrink g blocks).map fun s => (.shrunk, s)
  | .find bpos => (s.blockMapFind g bpos).map fun r => (.found r.1, r.2)

def run (g : Geometry) : MapState A → List MapOperation → Option (List MapOutcome × MapState A)
  | s, [] => some ([], s)
  | s, op :: ops => (s.step g op).bind fun r =>
    (run g r.2 ops).map fun r' => (r.1 :: r'.1, r'.2)

/-- What an operation does with the list of blocks, fewer than `limit`. -/
inductive ListStep (limit : ℕ) : List ℕ → MapOperation → MapOutcome → List ℕ → Prop
  | grown {l news : List ℕ} {n : ℕ} (hall : news.length = n) :
      ListStep limit l (.grow n) (.grown none news.head?) (l ++ news)
  | full {l news : List ℕ} {n : ℕ} (hshort : news.length < n) :
      ListStep limit l (.grow n) (.grown (some .enospc) news.head?) (l ++ news)
  | large {l : List ℕ} {n : ℕ} (hlarge : limit ≤ l.length + n) :
      ListStep limit l (.grow n) (.grown (some .efbig) none) l
  | shrunk {l : List ℕ} {n : ℕ} : ListStep limit l (.shrink n) .shrunk (l.take (l.length - n))
  | found {l : List ℕ} {bpos : BlockPos} {b : ℕ} (hb : l[bpos.bno]? = some b) :
      ListStep limit l (.find bpos) (.found (.ok b)) l
  | past {l : List ℕ} {bpos : BlockPos} (hpast : l.length ≤ bpos.bno) :
      ListStep limit l (.find bpos) (.found (.error .enxio)) l

/-- What a sequence of operations does with the list of the blocks. -/
inductive ListRun (limit : ℕ) : List ℕ → List MapOperation → List MapOutcome → List ℕ → Prop
  | nil {l : List ℕ} : ListRun limit l [] [] l
  | cons {l l' l'' : List ℕ} {op : MapOperation} {out : MapOutcome} {ops : List MapOperation}
      {outs : List MapOutcome} (hstep : ListStep limit l op out l')
      (hrun : ListRun limit l' ops outs l'') : ListRun limit l (op :: ops) (out :: outs) l''

/-- The blocks of a growth and those of a map do not overflow `size_t`. -/
def Meets (g : Geometry) : MapOperation → Prop
  | .grow blocks => g.blockMapDoublyBlocks + blocks < 2 ^ g.sizeBits
  | _ => True

instance (g : Geometry) (op : MapOperation) : Decidable (Meets g op) := by
  cases op <;> unfold Meets <;> infer_instance

theorem step_spec {op : MapOperation} (hlimit : l = [] ∨ l.length < g.blockMapDoublyBlocks) (hop : Meets g op) :
    ∃ out s' l' ts' ds', s.step g op = some (out, s') ∧
      ListStep g.blockMapDoublyBlocks l op out l' ∧ Represents g s' l' ts' ds' ∧
      Holding Ok g.blocks Other s'.allocator (l' ++ ts' ++ ds') ∧
      (l' = [] ∨ l'.length < g.blockMapDoublyBlocks) ∧
      ∀ c, Other c → s'.disk c = s.disk c := by
  cases op with
  | grow n =>
    have hsize : l.length + n < 2 ^ g.sizeBits := by
      have hn : g.blockMapDoublyBlocks + n < 2 ^ g.sizeBits := hop
      rcases hlimit with rfl | hlt
      · rw [length_nil]; omega
      · omega
    rw [step]
    rcases blockMapGrow_spec hA hg h hold hsize with
      ⟨hlarge, hs'⟩ | ⟨hlt, r, news, s', ts', ds', hs', h', hold', hr, hdisk, -⟩
    · rw [hs', map_some]
      exact ⟨_, s, l, ts, ds, rfl, .large hlarge, h, hold, hlimit, fun _ _ => rfl⟩
    · rw [hs', map_some]
      have hlength : (l ++ news).length < g.blockMapDoublyBlocks := by
        rw [length_append]
        rcases hr with ⟨-, hall⟩ | ⟨-, hshort⟩ <;> omega
      have hstep : ListStep g.blockMapDoublyBlocks l (.grow n) (.grown r news.head?)
          (l ++ news) := by
        rcases hr with ⟨rfl, hall⟩ | ⟨rfl, hshort⟩
        · exact .grown hall
        · exact .full hshort
      exact ⟨_, s', _, ts', ds', rfl, hstep, h', hold', .inr hlength, fun c hc => hdisk c (.inl hc)⟩
  | shrink n =>
    obtain ⟨s', ts', ds', hs', h', hold', hdisk, -⟩ := blockMapShrink_spec hA hg h hold
    rw [step]
    rw [hs', map_some]
    refine ⟨_, s', _, ts', ds', rfl, .shrunk, h', hold', ?_, fun c _ => congrFun hdisk c⟩
    rcases hlimit with rfl | hlt
    · exact .inl take_nil
    · rw [length_take]; exact .inr (by omega)
  | find bpos =>
    rw [step]
    by_cases hpast : l.length ≤ bpos.bno
    · rw [blockMapFind_past h hpast, map_some]
      exact ⟨_, s, l, ts, ds, rfl, .past hpast, h, hold, hlimit, fun _ _ => rfl⟩
    · have hb := getElem?_eq_getElem (show bpos.bno < l.length by omega)
      obtain ⟨s', hs', hfound, -, h'⟩ := blockMapFind_spec hg h hold.range hb
      rw [hs', map_some]
      refine ⟨_, s', l, ts, ds, rfl, .found hb, h', ?_, hlimit, fun c _ => congrFun hfound.disk c⟩
      rw [hfound.allocator]
      exact hold

theorem run_spec {ops : List MapOperation} (hlimit : l = [] ∨ l.length < g.blockMapDoublyBlocks) (hops : ∀ op ∈ ops, Meets g op) :
    ∃ outs s' l' ts' ds', s.run g ops = some (outs, s') ∧
      ListRun g.blockMapDoublyBlocks l ops outs l' ∧ Represents g s' l' ts' ds' ∧
      Holding Ok g.blocks Other s'.allocator (l' ++ ts' ++ ds') ∧
      ∀ c, Other c → s'.disk c = s.disk c := by
  induction ops generalizing s l ts ds with
  | nil => exact ⟨[], s, l, ts, ds, rfl, .nil, h, hold, fun _ _ => rfl⟩
  | cons op ops ih =>
    obtain ⟨out, s1, l1, ts1, ds1, hs1, hstep, h1, hold1, hlimit1, hdisk⟩ :=
      step_spec hA hg h hold hlimit (hops op mem_cons_self)
    obtain ⟨outs, s2, l2, ts2, ds2, hs2, hrun, h2, hold2, hdisk'⟩ :=
      ih h1 hold1 hlimit1 fun op hop => hops op (mem_cons_of_mem _ hop)
    rw [run, hs1, bind_some, hs2, map_some]
    exact ⟨_, s2, l2, ts2, ds2, rfl, .cons hstep hrun, h2, hold2,
      fun c hc => (hdisk' c hc).trans (hdisk c hc)⟩

end

/-- The geometry for a block size whose five tables `size_t` can count. -/
theorem ofBlockSize_fits {w blocks blockSize : ℕ} (hper : 5 < blockSize / 4)
    (hw : blockSize / 4 * 5 < 2 ^ w) (hblocks : blocks < 2 ^ 32) :
    (ofBlockSize w blocks blockSize).Fits := by
  refine ⟨hper, ?_, ?_, hblocks⟩
  · change blockSize / 4 * 5 % 2 ^ w = 5 * (blockSize / 4)
    rw [Nat.mod_eq_of_lt hw, Nat.mul_comm]
  · rw [Nat.mul_comm 5]
    exact mod_le _ _

/-- **A block map is a list of blocks.** Operations act as on the list; the blocks and tables are
the allocated ones, and `rtems_rfs_block_map_free_all` frees them. -/
theorem block_map_exact {w blocks blockSize : ℕ} (hA : A.Correct Ok blocks)
    (hper : 5 < blockSize / 4) (hw : blockSize / 4 * 5 < 2 ^ w) (hblocks : blocks < 2 ^ 32)
    (h : Represents (ofBlockSize w blocks blockSize) s l ts ds)
    (hold : Holding Ok blocks Other s.allocator (l ++ ts ++ ds))
    (hlimit : l = [] ∨ l.length < (ofBlockSize w blocks blockSize).blockMapDoublyBlocks)
    {ops : List MapOperation}
    (hops : ∀ op ∈ ops, Meets (ofBlockSize w blocks blockSize) op) :
    ∃ outs s' l' ts' ds', s.run (ofBlockSize w blocks blockSize) ops = some (outs, s') ∧
      ListRun (ofBlockSize w blocks blockSize).blockMapDoublyBlocks l ops outs l' ∧
      Represents (ofBlockSize w blocks blockSize) s' l' ts' ds' ∧
      Holding Ok blocks Other s'.allocator (l' ++ ts' ++ ds') ∧
      (∀ c, Other c → s'.disk c = s.disk c) ∧
      ∃ s'', s'.blockMapFreeAll (ofBlockSize w blocks blockSize) = some s'' ∧
        Represents (ofBlockSize w blocks blockSize) s'' [] [] [] ∧
        Holding Ok blocks Other s''.allocator [] := by
  have hg := ofBlockSize_fits hper hw hblocks
  obtain ⟨outs, s', l', ts', ds', hrun, hlist, h', hold', hdisk⟩ :=
    run_spec hA hg h hold hlimit hops
  obtain ⟨s'', hs'', h'', hold'', -⟩ :=
    blockMapFreeAll_spec hA hg h' hold'
  exact ⟨outs, s', l', ts', ds', hrun, hlist, h', hold', hdisk, s'', hs'', h'', hold''⟩

end MapState

/-! ## Concrete maps -/

def freeList : BlockAllocator where
  State := List ℕ
  IsFree a b := b ∈ a
  alloc
    | [], _ => none
    | b :: a, _ => some (b, a)
  free a b := if b ∈ a then none else some (b :: a)

/-- The free blocks are distinct and on the disk. -/
def FreeListOk (blocks : ℕ) (a : List ℕ) : Prop := a.Nodup ∧ ∀ b ∈ a, 0 < b ∧ b < blocks

theorem freeList_correct (blocks : ℕ) : freeList.Correct (FreeListOk blocks) blocks where
  alloc := by
    intro a goal b a' hok halloc
    match a, halloc with
    | b :: a, rfl =>
      obtain ⟨hnodup, hrange⟩ := hok
      obtain ⟨hnotin, hnodup⟩ := nodup_cons.mp hnodup
      refine ⟨⟨hnodup, fun c hc => hrange c (mem_cons_of_mem _ hc)⟩, (hrange b mem_cons_self).1,
        (hrange b mem_cons_self).2, mem_cons_self, ?_⟩
      intro c
      change c ∈ a ↔ c ∈ b :: a ∧ c ≠ b
      rw [mem_cons]
      constructor
      · intro hc; exact ⟨.inr hc, fun heq => hnotin (heq ▸ hc)⟩
      · rintro ⟨rfl | hc, hne⟩
        · exact absurd rfl hne
        · exact hc
  free := by
    intro a b hok hpos hlt hnotin
    refine ⟨b :: a, if_neg hnotin, ⟨nodup_cons.mpr ⟨hnotin, hok.1⟩, ?_⟩, ?_⟩
    · intro c hc
      rcases mem_cons.mp hc with rfl | hc
      · exact ⟨hpos, hlt⟩
      · exact hok.2 c hc
    · intro c; exact mem_cons.trans or_comm

/-- A map without blocks, and nineteen free blocks. -/
def emptyMap : MapState freeList := ⟨List.range' 1 19, fun _ _ => 0, BlockMap.empty⟩

namespace MapState

theorem block_map_exact_seven : ∃ outs s' l' ts' ds', emptyMap.run (ofBlockSize 32 20 24)
      [.grow 7, .find ⟨6, 0, 0⟩, .shrink 3, .find ⟨6, 0, 0⟩] = some (outs, s') ∧
    ListRun 180 [] [.grow 7, .find ⟨6, 0, 0⟩, .shrink 3, .find ⟨6, 0, 0⟩] outs l' ∧
    Represents (ofBlockSize 32 20 24) s' l' ts' ds' ∧
    Holding (FreeListOk 20) 20 (fun b => b ∉ List.range' 1 19) s'.allocator (l' ++ ts' ++ ds') := by
  have hold : Holding (FreeListOk 20) 20 (fun b => b ∉ List.range' 1 19) emptyMap.allocator
      ([] ++ [] ++ []) := by
    refine ⟨⟨(show (List.range' 1 19).Nodup by decide), ?_⟩, nodup_nil, by simp, by simp, ?_⟩
    · exact (show ∀ b ∈ List.range' 1 19, 0 < b ∧ b < 20 by decide)
    · intro b; simp only [append_nil, not_mem_nil, or_false]; exact Iff.rfl
  obtain ⟨outs, s', l', ts', ds', hrun, hlist, h, hold', -⟩ := block_map_exact
    (freeList_correct 20) (show 5 < 24 / 4 by decide) (show 24 / 4 * 5 < 2 ^ 32 by decide)
    (by decide) (represents_empty rfl) hold (.inl rfl)
    (show ∀ op ∈ [.grow 7, .find ⟨6, 0, 0⟩, .shrink 3, .find ⟨6, 0, 0⟩],
      Meets (ofBlockSize 32 20 24) op by decide)
  exact ⟨outs, s', l', ts', ds', hrun, hlist, h, hold'⟩

end MapState

def tableBytes (v : ℕ → ℕ) : Block := fun i => UInt8.ofNat (v (i / 4) / 2 ^ (8 * (3 - i % 4)))

theorem readU32_tableBytes {v : ℕ → ℕ} {r : ℕ} (h : v r < 2 ^ 32) :
    (tableBytes v).readU32 (4 * r) = v r := by
  unfold Block.readU32 tableBytes
  rw [show 4 * r / 4 = r by omega, show (4 * r + 1) / 4 = r by omega,
    show (4 * r + 2) / 4 = r by omega, show (4 * r + 3) / 4 = r by omega,
    show 4 * r % 4 = 0 by omega, show (4 * r + 1) % 4 = 1 by omega,
    show (4 * r + 2) % 4 = 2 by omega, show (4 * r + 3) % 4 = 3 by omega, UInt8.toNat_ofNat',
    UInt8.toNat_ofNat', UInt8.toNat_ofNat', UInt8.toNat_ofNat']
  omega

/-- The numbers in the tables of `nearlyFull`. -/
def nearlyFullNumber (t r : ℕ) : ℕ :=
  if t < 11 then 11 + (t - 1) * 6 + r else 101 + (t - 11) * 6 + r

/-- A map with 179 blocks of 24 bytes, one less than the limit. -/
def nearlyFull (free : List ℕ) : MapState freeList where
  allocator := free
  disk t := tableBytes (nearlyFullNumber t)
  map := ⟨false, ⟨179, 0⟩, ⟨0, 0, 0⟩, 40, 279, fun i => i.val + 1, none, none⟩

namespace MapState

theorem nearlyFull_covers {first first' n m : ℕ} (disk : ℕ → Block) (hsize : ∀ j, j < n ↔ 6 * j < m)
    (hnumber : ∀ i < m, number disk (first + i / 6) (i % 6) = first' + i) :
    Covers 6 (number disk) (List.range' first n) (List.range' first' m) := by
  constructor
  · intro j; rw [length_range', length_range']; exact hsize j
  · intro i e he
    have hi := (List.getElem?_eq_some_iff.mp he).1
    rw [length_range'] at hi
    rw [getElem?_range' hi, Nat.one_mul] at he
    cases he
    have hj : i / 6 < n := (hsize _).mpr (by omega)
    refine ⟨first + i / 6, ?_, hnumber i hi⟩
    rw [getElem?_range' hj, Nat.one_mul]

theorem nearlyFull_represents (free : List ℕ) :
    Represents (ofBlockSize 32 1000 24) (nearlyFull free) (List.range' 101 179)
      (List.range' 11 30) (List.range' 1 5) := by
  have hread (t r : ℕ) (h : nearlyFullNumber t r < 2 ^ 32) :
      number (nearlyFull free).disk t r = nearlyFullNumber t r := readU32_tableBytes h
  refine ⟨⟨rfl, .doubly ?_ ?_ ?_ ?_ ?_⟩, fun hne => absurd rfl hne⟩
  · rw [length_range']; decide
  · rw [length_range']; decide
  · refine nearlyFull_covers _ (by omega) fun i hi => ?_
    have hv : nearlyFullNumber (11 + i / 6) (i % 6) = 101 + i := by
      unfold nearlyFullNumber; rw [if_neg (by omega)]; omega
    rw [hread _ _ (by omega), hv]
  · refine nearlyFull_covers _ (by omega) fun i hi => ?_
    have hv : nearlyFullNumber (1 + i / 6) (i % 6) = 11 + i := by
      unfold nearlyFullNumber; rw [if_pos (by omega)]; omega
    rw [hread _ _ (by omega), hv]
  · intro i v hv
    have hi := (List.getElem?_eq_some_iff.mp hv).1
    rw [length_range'] at hi
    rw [getElem?_range' hi, Nat.one_mul] at hv
    cases hv
    unfold BlockMap.slot
    rw [dif_pos hi]
    exact congrArg some (Nat.add_comm _ _)

/-- A find fails with `ENXIO`. -/
def isPast : Except Errno ℕ → Bool
  | .error .enxio => true
  | _ => false

theorem eq_of_isPast {r : Except Errno ℕ} (h : isPast r = true) : r = .error .enxio := by
  unfold isPast at h
  split at h
  · rfl
  · cases h

/-- **A growth that overflows**: of 179 blocks by `2 ^ 32 - 179`, past the limit of 180, with
`size_t` of 32 bits. -/
theorem exists_growth_past_limit :
    Represents (ofBlockSize 32 1000 24) (nearlyFull [280]) (List.range' 101 179)
      (List.range' 11 30) (List.range' 1 5) ∧
    (∃ s s' newBlock, (nearlyFull [280]).blockMapGrow (ofBlockSize 32 1000 24)
        (2 ^ 32 - 179) = some (some .enospc, newBlock, s) ∧ s.map.size.count = 180 ∧
      s.blockMapFind (ofBlockSize 32 1000 24) ⟨0, 0, 0⟩ = some (.error .enxio, s')) ∧
    (nearlyFull [280, 281, 282, 283]).blockMapGrow (ofBlockSize 32 1000 24)
      (2 ^ 32 - 179) = none := by
  refine ⟨nearlyFull_represents [280], ?_, ?_⟩
  · obtain ⟨⟨e, newBlock, s⟩, hs, h⟩ := bind_eq_some_iff.mp
      (show ((nearlyFull [280]).blockMapGrow (ofBlockSize 32 1000 24) (2 ^ 32 - 179)).bind (fun r =>
          (r.2.2.blockMapFind (ofBlockSize 32 1000 24) ⟨0, 0, 0⟩).map fun q =>
            decide (r.1 = some .enospc ∧ r.2.2.map.size.count = 180) && isPast q.1) = some true by
        decide +kernel)
    obtain ⟨⟨r, s'⟩, hs', hcheck⟩ := map_eq_some_iff.mp h
    simp only [Bool.and_eq_true, decide_eq_true_eq] at hcheck
    obtain ⟨⟨rfl, hcount⟩, hpast⟩ := hcheck
    obtain rfl := eq_of_isPast hpast
    exact ⟨s, s', newBlock, hs, hcount, hs'⟩
  · have hnone : ((nearlyFull [280, 281, 282, 283]).blockMapGrow
        (ofBlockSize 32 1000 24) (2 ^ 32 - 179)).isNone = true := by
      decide +kernel
    exact isNone_iff_eq_none.mp hnone

end MapState

end Rtems.Rfs
