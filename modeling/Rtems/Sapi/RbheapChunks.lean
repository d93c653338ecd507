import Rtems.Sapi.Rbheap
import Mathlib.Data.List.Nodup
import Mathlib.Data.List.Perm.Basic
import Mathlib.Data.List.Chain

/-!
# The chunks of the red-black tree heap

* `Base`, `Apart`: the chunks tile the area, the chain has the free ones, and no two of them are
  side by side;
* `Same`: only spare descriptors are different;
* `getChunk_spec`: a descriptor for a new chunk;
* `takeChunk_spec`, `splitChunk_spec`, **`allocate_spec`**: a chunk becomes used.
-/

namespace Rtems.Sapi

open Function List Nat

namespace RbHeap

variable {word al a b : ℕ} {h h' : RbHeap}

/-- The chunks tile the area from `a` to `b`, and the chain has the free ones. -/
structure Base (word al a b : ℕ) (h : RbHeap) : Prop where
  tiles : Segment.Tiles a (h.tree.map h.chunk) b
  alignment_eq : h.alignment = al
  two_le : 2 ≤ h.alignment
  alignment_le : h.alignment ≤ word
  aligned : ∀ d ∈ h.tree, h.alignment ∣ (h.chunk d).begin ∧ h.alignment ∣ (h.chunk d).size
  nodup : (h.tree ++ h.spareChain).Nodup
  fresh : ∀ d ∈ h.tree ++ h.spareChain, d < h.fresh
  chain_nodup : h.freeChain.Nodup
  chain : ∀ d, d ∈ h.freeChain ↔ d ∈ h.tree ∧ h.isFree d = true

def Apart (linked : ℕ → Bool) (l : List ℕ) : Prop :=
  l.IsChain fun d d' => ¬ (linked d = true ∧ linked d' = true)

structure Same (h h' : RbHeap) : Prop where
  tree : h'.tree = h.tree
  freeChain : h'.freeChain = h.freeChain
  alignment : h'.alignment = h.alignment
  chunk : ∀ d ∈ h.tree, h'.chunk d = h.chunk d
  linked : ∀ d ∈ h.tree, h'.linked d = h.linked d

def used (linked : ℕ → Bool) (chunk : ℕ → Segment) (l : List ℕ) : List Segment :=
  (l.filter fun d => !linked d).map chunk

def usedChunks (h : RbHeap) : List Segment := used h.linked h.chunk h.tree

theorem Same.refl (h : RbHeap) : h.Same h := ⟨rfl, rfl, rfl, fun _ _ => rfl, fun _ _ => rfl⟩

theorem Same.trans {h'' : RbHeap} (h1 : h.Same h') (h2 : h'.Same h'') : h.Same h'' := by
  refine ⟨h2.tree.trans h1.tree, h2.freeChain.trans h1.freeChain, h2.alignment.trans h1.alignment,
    fun d hd => ?_, fun d hd => ?_⟩
  · rw [h2.chunk d (h1.tree ▸ hd), h1.chunk d hd]
  · rw [h2.linked d (h1.tree ▸ hd), h1.linked d hd]

theorem Same.map_chunk (hsame : h.Same h') : h'.tree.map h'.chunk = h.tree.map h.chunk := by
  rw [hsame.tree]; exact map_congr_left hsame.chunk

section Lists

variable {linked linked' : ℕ → Bool} {chunk chunk' : ℕ → Segment} {l m : List ℕ} {d : ℕ}

theorem used_append : used linked chunk (l ++ m) = used linked chunk l ++ used linked chunk m := by
  unfold used; rw [filter_append, map_append]

theorem used_cons_free (hd : linked d = true) :
    used linked chunk (d :: l) = used linked chunk l := by
  unfold used
  rw [filter_cons_of_neg (by rw [hd]; exact Bool.false_ne_true)]

theorem used_cons_used (hd : linked d = false) :
    used linked chunk (d :: l) = chunk d :: used linked chunk l := by
  unfold used
  rw [filter_cons_of_pos (by rw [hd]; rfl), map_cons]

theorem used_congr (hlinked : ∀ d ∈ l, linked' d = linked d)
    (hchunk : ∀ d ∈ l, chunk' d = chunk d) : used linked' chunk' l = used linked chunk l := by
  unfold used
  rw [filter_congr fun d hd => by rw [hlinked d hd]]
  exact map_congr_left fun d hd => hchunk d (mem_of_mem_filter hd)

theorem Apart.congr (hl : Apart linked l) (heq : ∀ d ∈ l, linked' d = linked d) :
    Apart linked' l := by
  refine hl.imp_of_mem_imp fun d d' hd hd' hnot => ?_
  rwa [heq d hd, heq d' hd']

end Lists

theorem Same.usedChunks (hsame : h.Same h') : h'.usedChunks = h.usedChunks := by
  unfold RbHeap.usedChunks; rw [hsame.tree]; exact used_congr hsame.linked hsame.chunk

/-- The descriptors of the tree and the spare ones are different, and exist. -/
structure Described (h : RbHeap) : Prop where
  nodup : (h.tree ++ h.spareChain).Nodup
  fresh : ∀ d ∈ h.tree ++ h.spareChain, d < h.fresh

/-- A descriptor that is neither in the tree nor spare. -/
structure Loose (h : RbHeap) (d : ℕ) : Prop where
  not_mem : d ∉ h.tree ++ h.spareChain
  lt : d < h.fresh

theorem Base.same (hb : h.Base word al a b) (hsame : h.Same h') (hd : h'.Described) :
    h'.Base word al a b := by
  refine ⟨?_, hsame.alignment.trans hb.alignment_eq, ?_, ?_, ?_, hd.nodup, hd.fresh, ?_, ?_⟩
  · rw [hsame.map_chunk]; exact hb.tiles
  · rw [hsame.alignment]; exact hb.two_le
  · rw [hsame.alignment]; exact hb.alignment_le
  · intro d hd
    rw [hsame.tree] at hd
    rw [hsame.alignment, hsame.chunk d hd]
    exact hb.aligned d hd
  · rw [hsame.freeChain]; exact hb.chain_nodup
  · intro d
    rw [hsame.freeChain, hsame.tree, hb.chain]
    refine and_congr_right fun hd => ?_
    unfold isFree
    rw [hsame.linked d hd]

theorem extend_one (hd : h.Described) :
    ({ h.addToSpare h.fresh with fresh := h.fresh + 1 } : RbHeap).Described ∧
      h.Same { h.addToSpare h.fresh with fresh := h.fresh + 1 } := by
  have hnew : h.fresh ∉ h.tree ++ h.spareChain := fun hmem => lt_irrefl _ (hd.fresh _ hmem)
  refine ⟨⟨?_, ?_⟩, rfl, rfl, rfl, fun _ _ => rfl, ?_⟩
  · exact (perm_middle.nodup_iff.mpr (nodup_cons.mpr ⟨hnew, hd.nodup⟩))
  · intro d hmem
    obtain rfl | hmem := mem_cons.mp (perm_middle.mem_iff.mp hmem)
    · exact lt_succ_self _
    · exact lt_succ_of_lt (hd.fresh d hmem)
  · intro d hmem
    have hne : d ≠ h.fresh := by rintro rfl; exact hnew (mem_append_left _ hmem)
    exact update_of_ne hne _ _

theorem extendDescriptors_spec (hd : h.Described) (n : ℕ) :
    (h.extendDescriptors n).Described ∧ h.Same (h.extendDescriptors n) := by
  induction n generalizing h with
  | zero => exact ⟨hd, Same.refl h⟩
  | succ n ih =>
    obtain ⟨hd1, hsame1⟩ := extend_one hd
    obtain ⟨hd', hsame'⟩ := ih hd1
    exact ⟨hd', hsame1.trans hsame'⟩

theorem getSpare_spec (hd : h.Described) {d : ℕ} (hget : h.getSpare = some (d, h')) :
    h'.Described ∧ h.Same h' ∧ h'.Loose d := by
  unfold getSpare at hget
  split at hget
  · cases hget
  · rename_i x rest hspare
    obtain ⟨⟩ := hget
    have hnodup := hd.nodup
    have hfresh := hd.fresh
    rw [hspare] at hnodup hfresh
    have hcons := nodup_cons.mp (perm_middle.nodup_iff.mp hnodup)
    have hmem : ∀ x ∈ h.tree ++ rest, x < h.fresh := fun x hx =>
      hfresh x (perm_middle.mem_iff.mpr (mem_cons_of_mem _ hx))
    exact ⟨⟨hcons.2, hmem⟩, ⟨rfl, rfl, rfl, fun _ _ => rfl, fun _ _ => rfl⟩, hcons.1,
      hfresh d (perm_middle.mem_iff.mpr mem_cons_self)⟩

theorem getChunk_spec (hd : h.Described) (more : ℕ) :
    (h.getChunk more).2.Described ∧ h.Same (h.getChunk more).2 ∧
      ∀ d, (h.getChunk more).1 = some d → (h.getChunk more).2.Loose d := by
  unfold getChunk
  split
  · rename_i d h' hget
    obtain ⟨hd', hsame, hloose⟩ := getSpare_spec hd hget
    refine ⟨hd', hsame, ?_⟩
    rintro _ ⟨⟩
    exact hloose
  · obtain ⟨hd1, hsame1⟩ := extendDescriptors_spec hd more
    dsimp only
    split
    · rename_i d h' hget
      obtain ⟨hd', hsame, hloose⟩ := getSpare_spec hd1 hget
      refine ⟨hd', hsame1.trans hsame, ?_⟩
      rintro _ ⟨⟩
      exact hloose
    · refine ⟨hd1, hsame1, ?_⟩
      rintro _ ⟨⟩

/-! ## The order of the tree -/

section Order

variable {l m : List ℕ} {d : ℕ}

theorem treeInsert_middle {key : ℕ → ℕ} (hl : ∀ x ∈ l, key x < key d)
    (hm : ∀ x ∈ m, key d < key x) : treeInsert key d (l ++ m) = l ++ d :: m := by
  induction l with
  | nil =>
    cases m with
    | nil => rfl
    | cons x m =>
      have hlt := hm x mem_cons_self
      rw [nil_append, treeInsert, if_neg (Nat.ne_of_lt hlt), if_pos hlt, nil_append]
  | cons x l ih =>
    have hlt := hl x mem_cons_self
    rw [cons_append, treeInsert, if_neg (ne_of_gt hlt), if_neg (not_lt_of_gt hlt),
      ih fun y hy => hl y (mem_cons_of_mem x hy), cons_append]

theorem pairwise_key {chunk : ℕ → Segment} {l : List ℕ}
    (htiles : Segment.Tiles a (l.map chunk) b) (hsize : ∀ d ∈ l, 2 ≤ (chunk d).size) :
    l.Pairwise fun d d' => (chunk d).begin / 2 < (chunk d').begin / 2 := by
  refine (pairwise_map.mp htiles.pairwise).imp_of_mem fun hd hd' hle => ?_
  have := hsize _ hd
  omega

theorem Base.two_le_size (hb : h.Base word al a b) (hd : d ∈ h.tree) : 2 ≤ (h.chunk d).size := by
  obtain ⟨-, hpos, -⟩ := hb.tiles.mem (mem_map_of_mem hd)
  exact hb.two_le.trans (le_of_dvd hpos (hb.aligned d hd).2)

theorem Base.key_inj (hb : h.Base word al a b) {d d' : ℕ} (hd : d ∈ h.tree) (hd' : d' ∈ h.tree)
    (heq : h.key d = h.key d') : d = d' := by
  have hpairs := pairwise_key hb.tiles fun _ hd => hb.two_le_size hd
  have hnodup : (h.tree.map h.key).Nodup :=
    (pairwise_map.mpr hpairs).imp fun hlt => Nat.ne_of_lt hlt
  exact inj_on_of_nodup_map hnodup hd hd' heq

end Order

/-! ## Allocation -/

section Allocate

variable {d new size : ℕ} {l m : List ℕ}

theorem Base.mem_split (hb : h.Base word al a b) (hd : d ∈ h.tree) :
    ∃ l m, h.tree = l ++ d :: m ∧ d ∉ l ∧ d ∉ m := by
  obtain ⟨l, m, htree⟩ := append_of_mem hd
  have hnodup := (nodup_append.mp hb.nodup).1
  rw [htree] at hnodup
  have hnot := (nodup_cons.mp (perm_middle.nodup_iff.mp hnodup)).1
  rw [mem_append, not_or] at hnot
  exact ⟨l, m, htree, hnot⟩

theorem takeChunk_spec (hb : h.Base word al a b) (hapart : Apart h.linked h.tree)
    (hd : d ∈ h.freeChain) :
    (h.takeChunk d).Base word al a b ∧ Apart (h.takeChunk d).linked (h.takeChunk d).tree ∧
      (h.takeChunk d).usedChunks.Perm (h.chunk d :: h.usedChunks) := by
  obtain ⟨hmem, hfree⟩ := (hb.chain d).mp hd
  have hfree : h.linked d = true := hfree
  refine ⟨{ hb with chain_nodup := hb.chain_nodup.erase d, chain := fun x => ?_ }, ?_, ?_⟩
  · show x ∈ h.freeChain.erase d ↔ x ∈ h.tree ∧ update h.linked d false x = true
    rw [hb.chain_nodup.mem_erase_iff, hb.chain]
    by_cases hx : x = d
    · rw [hx, update_self]
      simp only [ne_eq, not_true_eq_false, false_and, Bool.false_eq_true, and_false]
    · rw [update_of_ne hx]; simp only [ne_eq, hx, not_false_eq_true, true_and]; rfl
  · refine hapart.imp fun x y hnot hboth => hnot ?_
    have hkeep : ∀ z, update h.linked d false z = true → h.linked z = true := by
      intro z hz
      by_cases hzd : z = d
      · rw [hzd, hfree]
      · rwa [update_of_ne hzd] at hz
    exact ⟨hkeep x hboth.1, hkeep y hboth.2⟩
  · obtain ⟨l, m, htree, hl, hm⟩ := hb.mem_split hmem
    have hkeep : ∀ k : List ℕ, d ∉ k →
        used (update h.linked d false) h.chunk k = used h.linked h.chunk k := fun k hk =>
      used_congr (fun x hx => update_of_ne (ne_of_mem_of_not_mem hx hk) _ _) fun _ _ => rfl
    show (used (update h.linked d false) h.chunk h.tree).Perm
      (h.chunk d :: used h.linked h.chunk h.tree)
    rw [htree, used_append, used_append, used_cons_free hfree,
      used_cons_used (update_self d false h.linked), hkeep l hl, hkeep m hm]
    exact perm_middle

def splitMap (chunk : ℕ → Segment) (d new size : ℕ) : ℕ → Segment :=
  update (update chunk d ⟨(chunk d).begin, (chunk d).size - size⟩) new
    ⟨(chunk d).begin + ((chunk d).size - size), size⟩

theorem splitMap_new {chunk : ℕ → Segment} : splitMap chunk d new size new =
    ⟨(chunk d).begin + ((chunk d).size - size), size⟩ := update_self _ _ _

theorem splitMap_old {chunk : ℕ → Segment} (hne : d ≠ new) : splitMap chunk d new size d =
    ⟨(chunk d).begin, (chunk d).size - size⟩ := by
  unfold splitMap
  rw [update_of_ne hne, update_self]

theorem splitMap_of_mem {chunk : ℕ → Segment} (hd : d ∉ l) (hnew : new ∉ l) :
    ∀ x ∈ l, splitMap chunk d new size x = chunk x := by
  intro x hx
  unfold splitMap
  rw [update_of_ne (ne_of_mem_of_not_mem hx hnew), update_of_ne (ne_of_mem_of_not_mem hx hd)]

/-- A free chunk whose end becomes a used chunk, between the other chunks. -/
structure Split (h : RbHeap) (d new size : ℕ) (l m : List ℕ) : Prop where
  tree : h.tree = l ++ d :: m
  old_left : d ∉ l
  old_right : d ∉ m
  ne : d ≠ new
  new_left : new ∉ l
  new_right : new ∉ m
  pos : 0 < size
  dvd : h.alignment ∣ size
  lt : size < (h.chunk d).size

namespace Split

section

variable (hs : h.Split d new size l m) (hb : h.Base word al a b)

include hs hb

theorem tiles : Segment.Tiles a ((l ++ d :: new :: m).map (splitMap h.chunk d new size)) b := by
  have htiles := hb.tiles
  rw [hs.tree, map_append, map_cons] at htiles
  rw [map_append, map_cons, map_cons, splitMap_old hs.ne, splitMap_new,
    map_congr_left (splitMap_of_mem hs.old_left hs.new_left),
    map_congr_left (splitMap_of_mem hs.old_right hs.new_right)]
  exact htiles.split hs.pos hs.lt

theorem aligned : ∀ x ∈ l ++ d :: new :: m, h.alignment ∣ (splitMap h.chunk d new size x).begin ∧
      h.alignment ∣ (splitMap h.chunk d new size x).size := by
  intro x hx
  have hmem : ∀ x ∈ l ++ d :: m, x ∈ h.tree := fun x hx => hs.tree ▸ hx
  obtain ⟨hbegin, hsize⟩ := hb.aligned d (hmem d (mem_append_right _ mem_cons_self))
  have hrest := dvd_sub hsize hs.dvd
  obtain hleft | hright := mem_append.mp hx
  · rw [splitMap_of_mem hs.old_left hs.new_left x hleft]
    exact hb.aligned x (hmem x (mem_append_left _ hleft))
  · obtain rfl | hright := mem_cons.mp hright
    · rw [splitMap_old hs.ne]; exact ⟨hbegin, hrest⟩
    · obtain rfl | hright := mem_cons.mp hright
      · rw [splitMap_new]; exact ⟨Nat.dvd_add hbegin hrest, hs.dvd⟩
      · rw [splitMap_of_mem hs.old_right hs.new_right x hright]
        exact hb.aligned x (hmem x (mem_append_right _ (mem_cons_of_mem _ hright)))

theorem treeInsert :
    RbHeap.treeInsert (fun x => (splitMap h.chunk d new size x).begin / 2) new h.tree =
      l ++ d :: new :: m := by
  have hsize : ∀ x ∈ l ++ d :: new :: m, 2 ≤ (splitMap h.chunk d new size x).size := by
    intro x hx
    obtain ⟨-, hpos, -⟩ := (hs.tiles hb).mem (mem_map_of_mem hx)
    exact hb.two_le.trans (le_of_dvd hpos (hs.aligned hb x hx).2)
  have hpairs := pairwise_key (hs.tiles hb) hsize
  rw [append_cons, pairwise_append, pairwise_cons] at hpairs
  obtain ⟨-, ⟨hright, -⟩, hleft⟩ := hpairs
  rw [hs.tree, append_cons, treeInsert_middle (fun x hx => hleft x hx new mem_cons_self)
    hright, append_assoc]
  rfl

end

end Split

theorem splitChunk_spec (hb : h.Base word al a b) (hapart : Apart h.linked h.tree)
    (hd : d ∈ h.tree) (hnew : h.Loose new) (hpos : 0 < size)
    (hdvd : h.alignment ∣ size) (hlt : size < (h.chunk d).size) (hfree : h.linked d = true) :
    (h.splitChunk d new size).Base word al a b ∧
      Apart (h.splitChunk d new size).linked (h.splitChunk d new size).tree ∧
      (h.splitChunk d new size).chunk new = ⟨(h.chunk d).begin + ((h.chunk d).size - size), size⟩ ∧
      (h.splitChunk d new size).usedChunks.Perm
        ((h.splitChunk d new size).chunk new :: h.usedChunks) := by
  obtain ⟨l, m, htree, hl, hm⟩ := hb.mem_split hd
  have hnot : new ∉ h.tree := fun hmem => hnew.not_mem (mem_append_left _ hmem)
  have hnl : new ∉ l := fun hmem => hnot (htree ▸ mem_append_left _ hmem)
  have hnm : new ∉ m := fun hmem =>
    hnot (htree ▸ mem_append_right _ (mem_cons_of_mem _ hmem))
  have hs : h.Split d new size l m :=
    ⟨htree, hl, hm, ne_of_mem_of_not_mem hd hnot, hnl, hnm, hpos, hdvd, hlt⟩
  have htree' : (h.splitChunk d new size).tree = l ++ d :: new :: m := hs.treeInsert hb
  have hchunk : (h.splitChunk d new size).chunk = splitMap h.chunk d new size := rfl
  have hlinked : (h.splitChunk d new size).linked = update h.linked new false := rfl
  have hperm : (l ++ d :: new :: m).Perm (new :: h.tree) := by
    rw [htree, append_cons l d (new :: m), append_cons l d m]; exact perm_middle
  have hkeep : ∀ x ∈ h.tree, update h.linked new false x = h.linked x := fun x hx =>
    update_of_ne (ne_of_mem_of_not_mem hx hnot) _ _
  refine ⟨⟨?_, hb.alignment_eq, hb.two_le, hb.alignment_le, ?_, ?_, ?_, hb.chain_nodup, ?_⟩, ?_,
    splitMap_new, ?_⟩
  · rw [htree', hchunk]; exact hs.tiles hb
  · rw [htree', hchunk]; exact hs.aligned hb
  · rw [htree']
    show ((l ++ d :: new :: m) ++ h.spareChain).Nodup
    rw [(hperm.append_right h.spareChain).nodup_iff, cons_append]
    exact nodup_cons.mpr ⟨hnew.not_mem, hb.nodup⟩
  · intro x hx
    rw [htree'] at hx
    have hx' : x ∈ new :: (h.tree ++ h.spareChain) :=
      (hperm.append_right h.spareChain).mem_iff.mp hx
    obtain rfl | hx' := mem_cons.mp hx'
    · exact hnew.lt
    · exact hb.fresh x hx'
  · intro x
    show x ∈ h.freeChain ↔ x ∈ (h.splitChunk d new size).tree ∧ update h.linked new false x = true
    rw [htree', hperm.mem_iff, hb.chain, mem_cons]
    by_cases hx : x = new
    · rw [hx, update_self]; simp only [hnot, false_and, Bool.false_eq_true, and_false]
    · rw [update_of_ne hx]; simp only [hx, false_or]; rfl
  · rw [htree', hlinked]
    have hapart' := hapart.congr hkeep
    rw [htree] at hapart'
    obtain ⟨hleft, hright⟩ := isChain_split.mp hapart'
    refine isChain_append_cons_cons.mpr ⟨hleft, ?_, hright.tail.cons fun y _ => ?_⟩
    · rw [update_self]; exact fun hboth => Bool.false_ne_true hboth.2
    · rw [update_self]; exact fun hboth => Bool.false_ne_true hboth.1
  · have hfree' : update h.linked new false d = true := by rw [hkeep d hd, hfree]
    have hleft : ∀ x ∈ l, x ∈ h.tree := fun x hx => htree ▸ mem_append_left _ hx
    have hright : ∀ x ∈ m, x ∈ h.tree := fun x hx =>
      htree ▸ mem_append_right _ (mem_cons_of_mem _ hx)
    unfold usedChunks
    rw [htree', hlinked, hchunk, htree, used_append, used_append, used_cons_free hfree,
      used_cons_free hfree', used_cons_used (update_self _ _ _),
      used_congr (fun x hx => hkeep x (hleft x hx)) (splitMap_of_mem hl hnl),
      used_congr (fun x hx => hkeep x (hright x hx)) (splitMap_of_mem hm hnm)]
    exact perm_middle

theorem dvd_alignUp {alignment : ℕ} (hpos : 0 < alignment) (hle : alignment ≤ word)
    (haccept : size ≤ alignUp word alignment size) : alignment ∣ alignUp word alignment size := by
  unfold alignUp at haccept ⊢
  dsimp only at haccept ⊢
  have hmod := mod_lt size hpos
  split_ifs at haccept ⊢ with hexcess
  · by_cases hlt : size + (alignment - size % alignment) < word
    · have hdiv := div_add_mod size alignment
      rw [mod_eq_of_lt hlt]
      refine ⟨size / alignment + 1, ?_⟩
      rw [mul_succ]
      omega
    · rw [Nat.mod_eq_sub_mod (Nat.le_of_not_lt hlt)] at haccept
      have := mod_le (size + (alignment - size % alignment) - word) word
      omega
  · exact dvd_of_mod_eq_zero (by omega)

theorem allocate_spec (hb : h.Base word al a b) (hapart : Apart h.linked h.tree) (size more : ℕ) :
    (h.allocate word size more).2.Base word al a b ∧
      Apart (h.allocate word size more).2.linked (h.allocate word size more).2.tree ∧
      ((h.allocate word size more).1 = 0 ∧ h.Same (h.allocate word size more).2 ∨
        ∃ n, size ≤ n ∧ h.alignment ∣ (h.allocate word size more).1 ∧
          (h.allocate word size more).2.usedChunks.Perm
            (⟨(h.allocate word size more).1, n⟩ :: h.usedChunks)) := by
  unfold allocate
  dsimp only
  split_ifs with haccept
  · have hdvd := dvd_alignUp (Nat.lt_of_lt_of_le Nat.two_pos hb.two_le) hb.alignment_le haccept.2
    generalize alignUp word h.alignment size = alignedSize at haccept hdvd
    cases hsearch : h.searchFreeChunk alignedSize with
    | none => exact ⟨hb, hapart, .inl ⟨rfl, Same.refl h⟩⟩
    | some d =>
      have hd := mem_of_find?_eq_some hsearch
      have hfits : alignedSize ≤ (h.chunk d).size := by
        have hdec := find?_some hsearch
        exact of_decide_eq_true hdec
      obtain ⟨hmem, hfree⟩ := (hb.chain d).mp hd
      dsimp only
      split_ifs with hlt
      · obtain ⟨hd1, hsame, hloose⟩ := getChunk_spec ⟨hb.nodup, hb.fresh⟩ more
        have hb1 := hb.same hsame hd1
        have hapart1 : Apart (h.getChunk more).2.linked (h.getChunk more).2.tree :=
          hsame.tree ▸ hapart.congr hsame.linked
        generalize h.getChunk more = r at hd1 hb1 hsame hloose hapart1
        obtain ⟨new, h1⟩ := r
        cases new with
        | none => exact ⟨hb1, hapart1, .inl ⟨rfl, hsame⟩⟩
        | some new =>
          have hchunk : h1.chunk d = h.chunk d := hsame.chunk d hmem
          have hdvd1 : h1.alignment ∣ alignedSize := by rw [hsame.alignment]; exact hdvd
          have hfree1 : h1.linked d = true := (hsame.linked d hmem).trans hfree
          have hmem1 : d ∈ h1.tree := hsame.tree.symm ▸ hmem
          obtain ⟨hb', hapart', hnew, hperm⟩ := splitChunk_spec hb1 hapart1 hmem1
            (hloose new rfl) (haccept.1.trans_le haccept.2) hdvd1 (hchunk.symm ▸ hlt) hfree1
          refine ⟨hb', hapart', .inr ⟨alignedSize, haccept.2, ?_, ?_⟩⟩
          · dsimp only
            rw [hnew, hchunk]
            exact Nat.dvd_add (hb.aligned d hmem).1 (dvd_sub (hb.aligned d hmem).2 hdvd)
          · rw [← hsame.usedChunks]
            have hseg : (h1.splitChunk d new alignedSize).chunk new =
                ⟨((h1.splitChunk d new alignedSize).chunk new).begin, alignedSize⟩ := by
              rw [hnew]
            rwa [hseg] at hperm
      · obtain ⟨hb', hapart', hperm⟩ := takeChunk_spec hb hapart hd
        refine ⟨hb', hapart', .inr ⟨(h.chunk d).size, ?_, (hb.aligned d hmem).1, hperm⟩⟩
        exact haccept.2.trans hfits
  · exact ⟨hb, hapart, .inl ⟨rfl, Same.refl h⟩⟩

end Allocate

end RbHeap

end Rtems.Sapi
