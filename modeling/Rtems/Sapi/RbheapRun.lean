import Rtems.Sapi.RbheapChunks

/-!
# The red-black tree heap tiles its area

* `merge_spec`, **`free_spec`**: a chunk becomes free, and is merged with the free chunks on both
  sides;
* `good_of_created`: the heap after it was set up;
* **`rbheap_tiled`**: the state after every sequence of operations.
-/

namespace Rtems.Sapi

open Function List

namespace RbHeap

variable {word al a b : ℕ} {h h' : RbHeap}

/-! ## Free -/

section Free

variable {d x y : ℕ} {l m : List ℕ}

theorem idxOf_middle (hl : d ∉ l) : (l ++ d :: m).idxOf d = l.length := by
  rw [idxOf_append_of_notMem hl, idxOf_cons_self, Nat.add_zero]

theorem succ_eq (htree : h.tree = l ++ d :: m) (hl : d ∉ l) : h.succ d = m.head? := by
  unfold succ
  rw [htree, idxOf_middle hl, getElem?_append_right (Nat.le_add_right _ _), Nat.add_sub_cancel_left,
    getElem?_cons_succ, head?_eq_getElem?]

theorem pred_eq (htree : h.tree = l ++ d :: m) (hl : d ∉ l) : h.pred d = l.getLast? := by
  unfold pred
  rw [htree, idxOf_middle hl]
  obtain rfl | ⟨k, p, rfl⟩ := l.eq_nil_or_concat'
  · rfl
  · rw [length_append, length_singleton, if_neg (Nat.succ_ne_zero _), Nat.add_sub_cancel,
      append_assoc, getElem?_append_right (Nat.le_refl _), Nat.sub_self, getLast?_concat]
    rfl

theorem merge_spec (hb : h.Base word al a b) (htree : h.tree = l ++ x :: y :: m)
    (hx : h.linked x = true) (hy : h.linked y = true) :
    (h.merge x y).Base word al a b ∧ (h.merge x y).tree = l ++ x :: m ∧
      (h.merge x y).linked = h.linked ∧ (h.merge x y).usedChunks = h.usedChunks := by
  have hnodup := (nodup_append.mp hb.nodup).1
  rw [htree] at hnodup
  have hperm : (l ++ x :: y :: m).Perm (y :: (l ++ x :: m)) := by
    rw [append_cons l x (y :: m), append_cons l x m]; exact perm_middle
  have hynot := (nodup_cons.mp (hperm.nodup_iff.mp hnodup)).1
  have hxnot := (nodup_cons.mp (perm_middle.nodup_iff.mp
    (nodup_cons.mp (hperm.nodup_iff.mp hnodup)).2)).1
  have hlinked : (h.merge x y).linked = h.linked := by
    show update h.linked y true = h.linked
    rw [← hy, update_eq_self]
  have htree' : (h.merge x y).tree = l ++ x :: m := by
    show h.tree.erase y = l ++ x :: m
    rw [htree, append_cons l x (y :: m), erase_append_right, erase_cons_head, append_assoc]
    · rfl
    · intro hmem
      apply hynot
      rw [append_cons]
      exact mem_append_left _ hmem
  rw [mem_append, not_or] at hxnot
  generalize hseg : (⟨(h.chunk x).begin, (h.chunk x).size + (h.chunk y).size⟩ : Segment) = seg
  have hchunk : (h.merge x y).chunk = update h.chunk x seg := by rw [← hseg]; rfl
  have hleft : ∀ z ∈ l, update h.chunk x seg z = h.chunk z := fun z hz =>
    update_of_ne (ne_of_mem_of_not_mem hz hxnot.1) _ _
  have hright : ∀ z ∈ m, update h.chunk x seg z = h.chunk z := fun z hz =>
    update_of_ne (ne_of_mem_of_not_mem hz hxnot.2) _ _
  have hspare : ((l ++ x :: m) ++ y :: h.spareChain).Perm (h.tree ++ h.spareChain) := by
    rw [htree]; exact perm_middle.trans (hperm.symm.append_right h.spareChain)
  have hmem : ∀ z, z ∈ h.tree ↔ z = y ∨ z ∈ l ++ x :: m := fun z => by
    rw [htree, hperm.mem_iff, mem_cons]
  refine ⟨⟨?_, hb.alignment_eq, hb.two_le, hb.alignment_le, ?_, ?_, ?_, hb.chain_nodup.erase y, ?_⟩,
    htree', hlinked, ?_⟩
  · have htiles := hb.tiles
    rw [htree, map_append, map_cons, map_cons] at htiles
    rw [htree', hchunk, map_append, map_cons, update_self, map_congr_left hleft,
      map_congr_left hright, ← hseg]
    exact htiles.merge
  · intro z hz
    rw [htree'] at hz
    rw [hchunk]
    by_cases hzx : z = x
    · have hx' := hb.aligned x ((hmem x).mpr (.inr (hzx ▸ hz)))
      have hy' := hb.aligned y ((hmem y).mpr (.inl rfl))
      rw [hzx, update_self, ← hseg]
      exact ⟨hx'.1, Nat.dvd_add hx'.2 hy'.2⟩
    · rw [update_of_ne hzx]; exact hb.aligned z ((hmem z).mpr (.inr hz))
  · rw [htree']; exact hspare.nodup_iff.mpr hb.nodup
  · intro z hz; rw [htree'] at hz; exact hb.fresh z (hspare.mem_iff.mp hz)
  · intro z
    unfold isFree
    rw [htree', hlinked]
    show z ∈ h.freeChain.erase y ↔ z ∈ l ++ x :: m ∧ h.linked z = true
    rw [hb.chain_nodup.mem_erase_iff, hb.chain, hmem]
    by_cases hzy : z = y
    · rw [hzy]; simp only [ne_eq, not_true_eq_false, false_and, hynot]
    · simp only [ne_eq, hzy, not_false_eq_true, true_and, false_or]; rfl
  · unfold usedChunks
    rw [htree', hlinked, hchunk, htree, used_append, used_append, used_cons_free hx,
      used_cons_free hx, used_cons_free hy, used_congr (fun _ _ => rfl) hleft,
      used_congr (fun _ _ => rfl) hright]

theorem addToFree_spec (hb : h.Base word al a b) (hd : d ∈ h.tree) (hused : h.linked d = false) :
    (h.addToFree d).Base word al a b ∧
      h.usedChunks.Perm (h.chunk d :: (h.addToFree d).usedChunks) := by
  have hnot : d ∉ h.freeChain := by
    intro hmem
    have hfree : h.linked d = true := ((hb.chain d).mp hmem).2
    rw [hused] at hfree
    cases hfree
  refine ⟨{ hb with chain_nodup := nodup_cons.mpr ⟨hnot, hb.chain_nodup⟩,
                    chain := fun x => ?_ }, ?_⟩
  · show x ∈ d :: h.freeChain ↔ x ∈ h.tree ∧ update h.linked d true x = true
    rw [mem_cons, hb.chain]
    by_cases hx : x = d
    · rw [hx, update_self]; simp only [true_or, hd, and_self]
    · rw [update_of_ne hx]; simp only [hx, false_or]; rfl
  · obtain ⟨l, m, htree, hl, hm⟩ := hb.mem_split hd
    have hkeep : ∀ k : List ℕ, d ∉ k →
        used (update h.linked d true) h.chunk k = used h.linked h.chunk k := fun k hk =>
      used_congr (fun x hx => update_of_ne (ne_of_mem_of_not_mem hx hk) _ _) fun _ _ => rfl
    show (used h.linked h.chunk h.tree).Perm
      (h.chunk d :: used (update h.linked d true) h.chunk h.tree)
    rw [htree, used_append, used_append, used_cons_used hused,
      used_cons_free (update_self d true h.linked), hkeep l hl, hkeep m hm]
    exact perm_middle

section

variable (hb : h.Base word al a b) (htree : h.tree = l ++ d :: m)

include hb htree

theorem Base.not_mem_left : d ∉ l := by
  have hnodup := (nodup_append.mp hb.nodup).1
  rw [htree] at hnodup
  intro hmem
  exact (nodup_cons.mp (perm_middle.nodup_iff.mp hnodup)).1 (mem_append_left _ hmem)

theorem mergeSucc_spec (hd : h.linked d = true) (hapart : Apart h.linked m) :
    ∃ m', (h.mergeSucc d).Base word al a b ∧ (h.mergeSucc d).tree = l ++ d :: m' ∧
      (h.mergeSucc d).linked = h.linked ∧ (h.mergeSucc d).usedChunks = h.usedChunks ∧
      Apart h.linked (d :: m') := by
  unfold mergeSucc
  rw [succ_eq htree (hb.not_mem_left htree)]
  cases m with
  | nil => exact ⟨[], hb, htree, rfl, rfl, isChain_singleton d⟩
  | cons other m =>
    dsimp only [head?_cons]
    split_ifs with hother
    · obtain ⟨hb', htree', hlinked, hused⟩ := merge_spec hb htree hd hother
      refine ⟨m, hb', htree', hlinked, hused, hapart.tail.cons fun y hy hboth => ?_⟩
      exact (isChain_cons.mp hapart).1 y hy ⟨hother, hboth.2⟩
    · refine ⟨other :: m, hb, htree, rfl, rfl, hapart.cons fun y hy hboth => ?_⟩
      obtain ⟨⟩ := hy
      exact hother hboth.2

theorem mergePred_spec
    (hd : h.linked d = true) (hleft : Apart h.linked l) (hright : Apart h.linked (d :: m)) :
    (h.mergePred d).Base word al a b ∧ Apart (h.mergePred d).linked (h.mergePred d).tree ∧
      (h.mergePred d).usedChunks = h.usedChunks := by
  unfold mergePred
  rw [pred_eq htree (hb.not_mem_left htree)]
  obtain rfl | ⟨k, other, rfl⟩ := l.eq_nil_or_concat'
  · refine ⟨hb, ?_, rfl⟩
    dsimp only [getLast?_nil]
    rw [htree]
    exact hright
  · rw [getLast?_concat]
    dsimp only
    rw [append_assoc, singleton_append] at htree
    split_ifs with hother
    · obtain ⟨hb', htree', hlinked, hused⟩ := merge_spec hb htree hother hd
      refine ⟨hb', ?_, hused⟩
      rw [htree', hlinked]
      refine isChain_split.mpr ⟨hleft, hright.tail.cons fun y hy hboth => ?_⟩
      exact (isChain_cons.mp hright).1 y hy ⟨hd, hboth.2⟩
    · refine ⟨hb, ?_, rfl⟩
      rw [htree]
      exact isChain_append_cons_cons.mpr ⟨hleft, fun hboth => hother hboth.1, hright⟩

end

/-- No chunk begins at the other one of two addresses. -/
def Exact (h : RbHeap) (ptr : ℕ) : Prop :=
  ∀ d ∈ h.tree, (h.chunk d).begin / 2 = ptr / 2 → (h.chunk d).begin = ptr

/-- `rtems_rbheap_free` makes a used chunk free, or fails and changes nothing. -/
def Freed (h : RbHeap) (ptr : ℕ) (sc : RbStatus) (h' : RbHeap) : Prop :=
  (∃ c ∈ h.usedChunks, c.begin = ptr ∧ sc = .successful ∧ h.usedChunks.Perm (c :: h'.usedChunks)) ∨
    (∀ c ∈ h.usedChunks, c.begin ≠ ptr) ∧ (sc = .invalidId ∨ sc = .incorrectState) ∧ h' = h

theorem mem_usedChunks {c : Segment} :
    c ∈ h.usedChunks ↔ ∃ d ∈ h.tree, h.linked d = false ∧ h.chunk d = c := by
  unfold usedChunks used
  rw [mem_map]
  simp only [mem_filter, Bool.not_eq_true', and_assoc]

theorem free_spec (hb : h.Base word al a b) (hapart : Apart h.linked h.tree) (ptr : ℕ) :
    (h.free ptr).2.Base word al a b ∧ Apart (h.free ptr).2.linked (h.free ptr).2.tree ∧
      (ptr = 0 → h.free ptr = (.successful, h)) ∧
      (ptr ≠ 0 → h.Exact ptr → h.Freed ptr (h.free ptr).1 (h.free ptr).2) := by
  unfold free
  split_ifs with hptr
  · exact ⟨hb, hapart, fun _ => rfl, fun hne => absurd hptr hne⟩
  · cases hfind : h.find ptr with
    | none =>
      refine ⟨hb, hapart, fun hzero => absurd hzero hptr, fun _ _ => .inr ⟨?_, .inl rfl, rfl⟩⟩
      intro c hc hbegin
      obtain ⟨d, hd, -, rfl⟩ := mem_usedChunks.mp hc
      have hnot := find?_eq_none.mp hfind d hd
      apply hnot
      rw [decide_eq_true_eq]
      unfold key
      rw [hbegin]
    | some d =>
      have hd := mem_of_find?_eq_some hfind
      have hkey := find?_some hfind
      have hkey : h.key d = ptr / 2 := of_decide_eq_true hkey
      dsimp only
      split_ifs with hfree
      · refine ⟨hb, hapart, fun hzero => absurd hzero hptr, fun _ _ => .inr ⟨?_, .inr rfl, rfl⟩⟩
        intro c hc hbegin
        obtain ⟨d', hd', hused, rfl⟩ := mem_usedChunks.mp hc
        have heq : d = d' := by apply hb.key_inj hd hd'; rw [hkey, ← hbegin]; rfl
        rw [← heq] at hused
        exact Bool.false_ne_true (hused.symm.trans hfree)
      · have hused : h.linked d = false := Bool.eq_false_iff.mpr hfree
        obtain ⟨l, m, htree, hl, hm⟩ := hb.mem_split hd
        obtain ⟨hb1, hperm⟩ := addToFree_spec hb hd hused
        have hkeep : ∀ k : List ℕ, d ∉ k → Apart h.linked k → Apart (h.addToFree d).linked k :=
          fun k hk hk' => hk'.congr fun x hx =>
            update_of_ne (ne_of_mem_of_not_mem hx hk) _ _
        rw [htree] at hapart
        obtain ⟨hleft, hright⟩ := isChain_split.mp hapart
        have hfree1 : (h.addToFree d).linked d = true := update_self _ _ _
        obtain ⟨m', hb2, htree2, hlinked2, hused2, hright2⟩ :=
          mergeSucc_spec hb1 htree hfree1 (hkeep m hm hright.tail)
        obtain ⟨hb3, hapart3, hused3⟩ := mergePred_spec hb2 htree2 (hlinked2 ▸ hfree1)
          (hlinked2 ▸ hkeep l hl (List.IsChain.left_of_append hleft)) (hlinked2 ▸ hright2)
        refine ⟨hb3, hapart3, fun hzero => absurd hzero hptr, fun _ hexact => .inl
          ⟨h.chunk d, mem_usedChunks.mpr ⟨d, hd, hused, rfl⟩, hexact d hd hkey, rfl, ?_⟩⟩
        rw [hused3, hused2]
        exact hperm

end Free

/-! ## Every sequence of operations -/

inductive Action
  | allocate (size more : ℕ)
  | free (ptr : ℕ)

def step (word : ℕ) (h : RbHeap) : Action → RbHeap
  | .allocate size more => (h.allocate word size more).2
  | .free ptr => (h.free ptr).2

structure Good (word al a b : ℕ) (h : RbHeap) : Prop where
  base : h.Base word al a b
  apart : Apart h.linked h.tree

theorem Good.step (hg : h.Good word al a b) (action : Action) :
    (h.step word action).Good word al a b := by
  cases action with
  | allocate size more =>
    obtain ⟨hb, hapart, -⟩ := allocate_spec hg.base hg.apart size more; exact ⟨hb, hapart⟩
  | free ptr => obtain ⟨hb, hapart, -⟩ := free_spec hg.base hg.apart ptr; exact ⟨hb, hapart⟩

theorem Good.run (hg : h.Good word al a b) (actions : List Action) :
    (actions.foldl (RbHeap.step word) h).Good word al a b := by
  induction actions generalizing h with
  | nil => exact hg
  | cons action actions ih => exact ih (hg.step action)

def chunkAlignment (alignment : ℕ) : ℕ := if alignment < 2 then 2 else alignment

theorem two_le_chunkAlignment (alignment : ℕ) : 2 ≤ chunkAlignment alignment := by
  unfold chunkAlignment
  split_ifs <;> omega

theorem dvd_alignDown (alignment value : ℕ) : alignment ∣ alignDown alignment value :=
  Nat.dvd_sub_mod value

theorem good_first {first : ℕ} (htree : h.tree = []) (hchain : h.freeChain = [])
    (hd : h.Described) (hloose : h.Loose first) (halign : h.alignment = al) (htwo : 2 ≤ al)
    (hle : al ≤ word) (hlt : a < b) (ha : al ∣ a) (hb : al ∣ b) :
    (((h.setChunk first ⟨a, b - a⟩).addToFree first).insertIntoTree first).Good word al a b := by
  have htree' : (((h.setChunk first ⟨a, b - a⟩).addToFree first).insertIntoTree first).tree =
      [first] := by
    show treeInsert _ first h.tree = [first]
    rw [htree]
    rfl
  have hchunk : (update h.chunk first ⟨a, b - a⟩) first = ⟨a, b - a⟩ := update_self _ _ _
  have hfirst : ∀ d ∈ [first], d = first := fun d hd => mem_singleton.mp hd
  refine ⟨⟨?_, halign, halign.symm ▸ htwo, halign.symm ▸ hle, ?_, ?_, ?_, ?_, ?_⟩, ?_⟩
  · rw [htree']
    show Segment.Tiles a [update h.chunk first ⟨a, b - a⟩ first] b
    rw [hchunk]
    exact ⟨rfl, Nat.sub_pos_of_lt hlt, Nat.add_sub_cancel' hlt.le⟩
  · intro d hmem
    rw [htree'] at hmem
    rw [hfirst d hmem]
    show h.alignment ∣ (update h.chunk first ⟨a, b - a⟩ first).begin ∧
      h.alignment ∣ (update h.chunk first ⟨a, b - a⟩ first).size
    rw [hchunk, halign]
    exact ⟨ha, Nat.dvd_sub hb ha⟩
  · rw [htree']
    have hnot := hloose.not_mem
    have hnodup := hd.nodup
    rw [htree, nil_append] at hnot hnodup
    exact nodup_cons.mpr ⟨hnot, hnodup⟩
  · intro d hmem
    rw [htree'] at hmem
    obtain rfl | hmem := mem_cons.mp hmem
    · exact hloose.lt
    · exact hd.fresh d (mem_append_right _ hmem)
  · show (first :: h.freeChain).Nodup
    rw [hchain]
    exact nodup_singleton first
  · intro d
    rw [htree']
    show d ∈ first :: h.freeChain ↔ d ∈ [first] ∧ update h.linked first true d = true
    rw [hchain]
    refine ⟨fun hmem => ⟨hmem, ?_⟩, fun hmem => hmem.1⟩
    rw [hfirst d hmem, update_self]
  · rw [htree']; exact isChain_singleton first

theorem good_of_created (hword : 0 < word) {areaBegin areaSize alignment more : ℕ}
    (hinit : rbheapInitialize word areaBegin areaSize alignment more = (.successful, h)) :
    h.Good word (chunkAlignment alignment) (alignUp word (chunkAlignment alignment) areaBegin)
      (alignDown (chunkAlignment alignment) ((areaBegin + areaSize) % word)) := by
  have htwo := two_le_chunkAlignment alignment
  unfold rbheapInitialize at hinit
  dsimp only at hinit
  rw [← chunkAlignment.eq_def] at hinit
  have hlt := Nat.mod_lt (areaBegin + areaSize) hword
  generalize chunkAlignment alignment = align at hinit htwo
  generalize (areaBegin + areaSize) % word = areaEnd at hinit hlt
  have hend : alignDown align areaEnd ≤ areaEnd := Nat.sub_le _ _
  have hdvdEnd := dvd_alignDown align areaEnd
  split_ifs at hinit with haccept
  · obtain ⟨-, hbegin, hpos⟩ := haccept
    have hle : align ≤ word := by have := Nat.le_of_dvd (by omega) hdvdEnd; omega
    have hdvd := dvd_alignUp (by omega) hle hbegin
    have hempty : (⟨[], [], [], align, fun _ => ⟨0, 0⟩, fun _ => false, 0⟩ : RbHeap).Described :=
      ⟨nodup_nil, fun _ hmem => absurd hmem not_mem_nil⟩
    obtain ⟨hd, hsame, hloose⟩ := getChunk_spec hempty more
    generalize getChunk _ more = r at hinit hd hsame hloose
    obtain ⟨first, h1⟩ := r
    cases first with
    | none => cases hinit
    | some first =>
      obtain ⟨⟩ := hinit
      exact good_first hsame.tree hsame.freeChain hd (hloose first rfl) hsame.alignment htwo hle
        hpos hdvd hdvdEnd
  · cases hinit

/-- The allocation adds spare descriptors only, or uses a large, aligned chunk. -/
def Allocated (h : RbHeap) (al size ptr : ℕ) (h' : RbHeap) : Prop :=
  ptr = 0 ∧ h.Same h' ∨
    ptr ≠ 0 ∧ al ∣ ptr ∧ ∃ n, size ≤ n ∧ h'.usedChunks.Perm (⟨ptr, n⟩ :: h.usedChunks)

theorem Base.le_begin (hb : h.Base word al a b) {c : Segment} (hc : c ∈ h.usedChunks) :
    a ≤ c.begin := by
  obtain ⟨d, hd, -, rfl⟩ := mem_usedChunks.mp hc
  exact (hb.tiles.mem (mem_map_of_mem hd)).1

theorem Base.pairwise_used (hb : h.Base word al a b) :
    h.usedChunks.Pairwise fun c c' => c.begin + c.size ≤ c'.begin :=
  hb.tiles.pairwise.sublist (filter_sublist.map h.chunk)

/-- **The red-black tree heap keeps its area tiled** and does what it should, if the area is not at
address zero. -/
theorem rbheap_tiled (hword : 0 < word) {areaBegin areaSize alignment more : ℕ} {h₀ : RbHeap}
    (hinit : rbheapInitialize word areaBegin areaSize alignment more = (.successful, h₀))
    (hzero : 0 < alignUp word (chunkAlignment alignment) areaBegin) (actions : List Action)
    (hh : actions.foldl (RbHeap.step word) h₀ = h) :
    Segment.Tiles (alignUp word (chunkAlignment alignment) areaBegin) (h.tree.map h.chunk)
        (alignDown (chunkAlignment alignment) ((areaBegin + areaSize) % word)) ∧
      h.freeChain.Nodup ∧ (∀ d, d ∈ h.freeChain ↔ d ∈ h.tree ∧ h.isFree d = true) ∧
      Apart h.isFree h.tree ∧
      (h.usedChunks.Pairwise fun c c' => c.begin + c.size ≤ c'.begin) ∧
      (∀ size more, h.Allocated (chunkAlignment alignment) size (h.allocate word size more).1
        (h.allocate word size more).2) ∧
      h.free 0 = (.successful, h) ∧
      ∀ ptr, ptr ≠ 0 → h.Exact ptr → h.Freed ptr (h.free ptr).1 (h.free ptr).2 := by
  have hg := (good_of_created hword hinit).run actions
  rw [hh] at hg
  refine ⟨hg.base.tiles, hg.base.chain_nodup, hg.base.chain, hg.apart, hg.base.pairwise_used, ?_,
    (free_spec hg.base hg.apart 0).2.2.1 rfl, fun ptr => (free_spec hg.base hg.apart ptr).2.2.2⟩
  intro size more
  obtain ⟨hb', -, hfail | ⟨n, hn, hdvd, hperm⟩⟩ := allocate_spec hg.base hg.apart size more
  · exact .inl hfail
  · have hle := hb'.le_begin (hperm.mem_iff.mpr mem_cons_self)
    rw [hg.base.alignment_eq] at hdvd
    exact .inr ⟨Nat.ne_of_gt (hzero.trans_le hle), hdvd, n, hn, hperm⟩

theorem rbheap_tiled_again : ∃ h₀ h : RbHeap,
    rbheapInitialize (2 ^ 32) 10 80 8 1 = (.successful, h₀) ∧
    [Action.allocate 10 1, .allocate 20 1, .allocate 8 1, .free 48, .allocate 5 1].foldl
      (RbHeap.step (2 ^ 32)) h₀ = h ∧
    h.usedChunks = [⟨40, 8⟩, ⟨64, 8⟩, ⟨72, 16⟩] ∧
    Segment.Tiles 16 (h.tree.map h.chunk) 88 ∧ h.free 0 = (.successful, h) := by
  have hinit : rbheapInitialize (2 ^ 32) 10 80 8 1 =
      (.successful, (rbheapInitialize (2 ^ 32) 10 80 8 1).2) := Prod.ext (by decide +kernel) rfl
  obtain ⟨htiles, -, -, -, -, -, hfree, -⟩ := rbheap_tiled (by decide) hinit (by decide)
    [Action.allocate 10 1, .allocate 20 1, .allocate 8 1, .free 48, .allocate 5 1] rfl
  exact ⟨_, _, hinit, rfl, by decide +kernel, htiles, hfree⟩

/-- A free of `NULL` or inside a chunk succeeds; a chunk at zero looks like a failure. -/
theorem exists_free_of_other : (∃ h : RbHeap,
      ((rbheapInitialize (2 ^ 32) 16 64 8 1).2.allocate (2 ^ 32) 8 1).2 = h ∧
      h.usedChunks = [⟨72, 8⟩] ∧ (h.free 0).1 = .successful ∧ (h.free 73).1 = .successful) ∧
    ∃ h₀ : RbHeap, rbheapInitialize (2 ^ 32) 0 16 8 1 = (.successful, h₀) ∧
      (h₀.allocate (2 ^ 32) 16 0).1 = 0 ∧
      (h₀.allocate (2 ^ 32) 16 0).2.usedChunks ≠ h₀.usedChunks := by
  refine ⟨⟨_, rfl, by decide +kernel, by decide +kernel, by decide +kernel⟩, _,
    Prod.ext (by decide +kernel) rfl, by decide +kernel, by decide +kernel⟩

end RbHeap

end Rtems.Sapi
