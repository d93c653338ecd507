import Rtems.Score.HeapLayout

/-!
# Blocks of a heap

What the operations of `heap.c`, `heapfree.c` and `heapresizeblock.c` do to the layout of a heap.

* **`blockSplit`**: a used block is split behind what is allocated;
* `removeFree`, **`blockAllocate`**: a free block is taken for an allocation;
* **`free`**: a used block becomes free, with the free blocks on its two sides;
* **`resizeBlock`**: a used block takes what it needs of a free block behind it.
-/

namespace Rtems

open Function BoundaryTag Circular List Heap Cpu Nat HeapRef

variable {c : Cpu} {h h' : Heap} {e : ℕ} {ex : Option ℕ} {ts pre mid mid' post rest : List Tile}
  {t : Tile} {fl fl' fl1 fl2 : List ℕ} {b n x y : ℕ} {r anchor : HeapRef}

/-! ## Splitting -/

variable {f : HeapStatistics → HeapStatistics}

namespace Heap

theorem blockSize_setFree (hn : 2 ∣ n) :
    (h.setFree b n x).blockSize y = if y = b then n else h.blockSize y := by
  rw [setFree, blockSize_clearFlag, blockSize_setPrevSize, blockSize_setSizeAndFlag,
    withoutFlag_withFlag, withoutFlag_even hn]

theorem isPrevUsed_setFree : (h.setFree b n x).IsPrevUsed y ↔ y ≠ x ∧ (y = b ∨ h.IsPrevUsed y) := by
  rw [setFree, isPrevUsed_clearFlag, isPrevUsed_setPrevSize, isPrevUsed_setSizeAndFlag,
    withFlag_mod]
  by_cases hy : y = b
  · simp [hy]
  · simp [hy]

theorem prevSizeOf_setFree :
    (h.setFree b n x).prevSizeOf y = if y = x then n else h.prevSizeOf y := by
  rw [setFree, prevSizeOf_clearFlag, prevSizeOf_setPrevSize, prevSizeOf_setSizeAndFlag]

theorem isUsed_setSize (hn : 2 ∣ n) (hy : y ≠ b) :
    ((h.setSize b n).withStats f).IsUsed c y ↔ h.IsUsed c y := by
  rw [IsUsed, blockSize_withStats, isPrevUsed_withStats, blockSize_setSize hn, if_neg hy,
    isPrevUsed_setSize hn]
  rfl

end Heap

/-- The parts of a used block of size `n` that serves an allocation. -/
inductive Cut (c : Cpu) (allocSize n : ℕ) : List Tile → Prop
  | whole : allocSize + c.headerSize ≤ n + c.allocBonus → Cut c allocSize n [⟨n, .used⟩]
  | parts (n₁ n₂ : ℕ) : n₁ + n₂ = n → allocSize + c.headerSize ≤ n₁ →
    Cut c allocSize n [⟨n₁, .used⟩, ⟨n₂, .free⟩]

theorem split_sizes {allocSize M p : ℕ} (hp : 0 < p) (hpM : p ∣ M) (hpn : p ∣ n)
    (hM : 4 * c.word ≤ M) (hMn : M ≤ n) (hn : n + c.word < c.modulus)
    (hsize : allocSize + c.headerSize ≤ n + c.allocBonus) :
    let usedSize := c.add (max allocSize (c.sub M c.headerSize)) c.headerSize
    allocSize + c.headerSize ≤ usedSize ∧ M ≤ usedSize ∧
      (c.add M c.allocBonus ≤ c.sub (c.add n c.allocBonus) usedSize →
        p ∣ c.alignUp usedSize p ∧ usedSize ≤ c.alignUp usedSize p ∧
          c.alignUp usedSize p + M ≤ n) := by
  intro usedSize
  rw [Cpu.headerSize, Cpu.allocBonus] at hsize
  have hused : usedSize = max allocSize (M - 2 * c.word) + 2 * c.word := by
    have hsub : c.sub M c.headerSize = M - 2 * c.word := sub_eq (by rw [Cpu.headerSize]; omega)
      (by omega)
    change c.add (max allocSize (c.sub M c.headerSize)) (2 * c.word) = _
    rw [hsub]
    exact add_eq (by omega)
  refine ⟨by rw [Cpu.headerSize]; omega, by omega, fun hle => ?_⟩
  rw [add_eq (by rw [Cpu.allocBonus]; omega), add_eq (by rw [Cpu.allocBonus]; omega),
    sub_eq (by rw [Cpu.allocBonus]; omega) (by rw [Cpu.allocBonus]; omega), Cpu.allocBonus] at hle
  have hpM' : p ≤ M := le_of_dvd (by have := c.word_pos; omega) hpM
  have hspec := alignUp_spec (c := c) (v := usedSize) hp (by omega)
  have hup := alignUp_le (c := c) (v := usedSize) hp (by omega)
    (dvd_sub hpn hpM) (by omega)
  exact ⟨hspec.1, hspec.2.1, by omega⟩

/-- What changes when the block at `b` with the end `x` is split or grows: a free block left behind
gets a header, and the next block is told. -/
structure Changes (h h' : Heap) (b x : ℕ) (fl : List ℕ) : Prop where
  size : ∀ y, y ≠ b → y ≠ b + h'.blockSize b → y ≠ x →
    h'.blockSize y = h.blockSize y ∧ (h'.IsPrevUsed y ↔ h.IsPrevUsed y)
  prevSize : ∀ y, y ≠ x ∨ b + h'.blockSize b = x → h'.prevSizeOf y = h.prevSizeOf y
  links : ∀ y, y ∉ fl → y ≠ b + h'.blockSize b ∨ b + h'.blockSize b = x →
    h'.nextOf (.block y) = h.nextOf (.block y) ∧ h'.prevOf (.block y) = h.prevOf (.block y)

theorem Changes.trans {h1 : Heap} (ha : Changes h h1 b x fl) (hx : b + h1.blockSize b = x)
    (hb : Changes h1 h' b x fl') (hfl : fl' ⊆ fl) : Changes h h' b x fl := by
  refine ⟨fun y hy hy1 hy2 => ?_, fun y hy => ?_, fun y hy hy1 => ?_⟩
  · obtain ⟨hs, hf⟩ := hb.size y hy hy1 hy2
    obtain ⟨hs', hf'⟩ := ha.size y hy (hx.symm ▸ hy2) hy2
    exact ⟨hs.trans hs', hf.trans hf'⟩
  · exact (hb.prevSize y hy).trans (ha.prevSize y (.inr hx))
  · obtain ⟨hn, hp⟩ := hb.links y (fun hm => hy (hfl hm)) hy1
    obtain ⟨hn', hp'⟩ := ha.links y hy (.inr hx)
    exact ⟨hn.trans hn', hp.trans hp'⟩

namespace Layout

section

variable (L : Layout c h e ex ts fl)

include L

theorem size_pos (ht : IsBlock h.control t) : 0 < t.size := by
  have hmin := ht.min
  have hh := L.geometry.header_min
  have hw := c.word_pos
  omega

theorem size_even (ht : IsBlock h.control t) : 2 ∣ t.size :=
  dvd_trans L.geometry.page_even ht.pages

theorem freeSize_add_le (hts : ts = pre ++ ⟨n, .used⟩ :: rest) :
    h.stats.freeSize + n ≤ h.lastBlock := by
  have hend : h.firstBlock + total pre + n + total rest = h.lastBlock := L.le_lastBlock hts
  have hpre : totalOf isFree pre ≤ total pre := totalOf_le
  have hrest : totalOf isFree rest ≤ total rest := totalOf_le
  rw [L.freeSize, hts, totalOf_append]
  change _ + totalOf isFree rest + n ≤ _
  omega

theorem sub_freeSize (hts : ts = pre ++ ⟨n, .free⟩ :: rest) :
    c.sub h.stats.freeSize n + n = h.stats.freeSize := by
  have hlast := L.lastBlock_lt
  have hends : h.firstBlock + total ts = h.lastBlock := L.geometry.ends
  have hle : n ≤ h.stats.freeSize := by
    rw [L.freeSize, hts, totalOf_append]
    exact Nat.le_trans (Nat.le_add_right n (totalOf isFree rest)) (Nat.le_add_left ..)
  have hbelow : h.stats.freeSize ≤ total ts := L.freeSize ▸ totalOf_le
  rw [sub_eq hle (by omega), Nat.sub_add_cancel hle]

theorem add_freeSize (hts : ts = pre ++ ⟨n, .used⟩ :: rest) :
    c.add h.stats.freeSize n = h.stats.freeSize + n := by
  have hbelow := L.freeSize_add_le hts
  have hlast := L.lastBlock_lt
  exact add_eq (by omega)

end

theorem perm_remove : (fl1 ++ fl2 ++ [x]).Perm (fl1 ++ x :: fl2 ++ []) := by
  rw [append_nil]; exact (perm_append_singleton _ _).trans perm_middle.symm

theorem increment_freeBlocks (L : Layout c h e ex ts (fl1 ++ fl2)) :
    increment h.stats.freeBlocks = (fl1 ++ x :: fl2).length % 2 ^ 32 := by
  rw [L.freeBlocks, increment_mod]
  simp [add_assoc]

theorem decrement_freeBlocks (L : Layout c h e ex ts (fl1 ++ x :: fl2)) :
    decrement h.stats.freeBlocks = (fl1 ++ fl2).length % 2 ^ 32 := by
  rw [L.freeBlocks, length_append, length_cons, ← add_assoc, decrement_mod, length_append]

theorem circle_remove (L : Layout c h e ex ts (fl1 ++ x :: fl2)) :
    Circle (h.freeListRemove x).nextOf (h.freeListRemove x).prevOf .freeList
      ((fl1 ++ fl2).map .block) := by
  have hcircle := L.circle
  rw [map_append, map_cons] at hcircle
  rw [map_append, nextOf_freeListRemove, prevOf_freeListRemove]
  exact hcircle.remove

theorem setFlag (L : Layout c h e (some (b + n)) (pre ++ [⟨n, .used⟩] ++ rest) fl)
    (hb : h.firstBlock + total pre = b) :
    Layout c (h.setFlag (b + n)) e none (pre ++ [⟨n, .used⟩] ++ rest) fl := by
  obtain ⟨t, post, ht, -⟩ := exists_next h.control e rest
  have hpos : 0 < n := L.geometry.pos ⟨n, .used⟩ (by simp)
  have hmid := L.tiled_mid ht
  rw [hb, tiled_one] at hmid
  obtain ⟨⟨hsize, hbehind⟩, hsize', -⟩ := hmid
  refine L.splice ht hb total_one total_one (by simp) (by simp) ?_ (L.apart_mid ht)
    rfl ?_ ?_ ?_ ?_ ?_ (.refl _) rfl L.freeBlocks
  · simpa using L.geometry.isBlock (by simp) (.inr rfl)
  · intro x hx; cases hx; omega
  · intro x hx
    have hne : x ≠ b + n := by omega
    refine ⟨?_, ?_, ?_⟩
    · simp [Heap.tags]
    · simp [Heap.tags, hne]
    · simp [Heap.tags]
  · simp
  · refine tiled_one.mpr ⟨⟨?_, fun _ => ?_⟩, ?_, fun _ => ⟨?_, ?_⟩⟩
    · simpa [Heap.tags] using hsize
    · refine (hbehind ?_).congr ?_ ?_
      · simpa using ne_of_gt hpos
      · simp [Heap.tags, ne_of_gt hpos]
      · simp [Heap.tags]
    · simpa [Heap.tags] using hsize'
    · simp [Heap.tags]
    · simp
  · simpa using L.circle

theorem splitFree {n1 n2 : ℕ} {g : HeapStatistics → HeapStatistics}
    (L : Layout c h e (some (b + (n1 + n2))) (pre ++ [⟨n1 + n2, .used⟩] ++ rest) (fl1 ++ fl2))
    (hb : h.firstBlock + total pre = b) (ht : rest ++ [h.control.lastTile e] = t :: post)
    (hfree : t.kind ≠ .free)
    (hanchor : (freeList :: fl1.map .block).getLast? = some anchor)
    (hn1 : IsBlock h.control ⟨n1, .used⟩) (hn2 : IsBlock h.control ⟨n2, .free⟩)
    (hfreeSize : (g (f h.stats)).freeSize = h.stats.freeSize + n2)
    (hfreeBlocks : (g (f h.stats)).freeBlocks = increment h.stats.freeBlocks)
    (hh' : h' = ((((h.setSize b n1).withStats f).freeListInsertAfter anchor (b + n1)).withStats
      g).setFree (b + n1) n2 (b + (n1 + n2))) :
    Layout c h' e none (pre ++ [⟨n1, .used⟩, ⟨n2, .free⟩] ++ rest) (fl1 ++ (b + n1) :: fl2) ∧
      Changes h h' b (b + (n1 + n2)) (fl1 ++ fl2) := by
  have hpos1 : 0 < n1 := L.size_pos hn1
  have hpos2 : 0 < n2 := L.size_pos hn2
  have heven1 : 2 ∣ n1 := L.size_even hn1
  have heven2 : 2 ∣ n2 := L.size_even hn2
  have hsizes : ∀ y, h'.blockSize y =
      if y = b + n1 then n2 else if y = b then n1 else h.blockSize y := by
    intro y
    rw [hh', blockSize_setFree heven2, blockSize_withStats,
      blockSize_of_tags tags_freeListInsertAfter, blockSize_withStats, blockSize_setSize heven1]
  have hflags : ∀ y, h'.IsPrevUsed y ↔ y ≠ b + (n1 + n2) ∧ (y = b + n1 ∨ h.IsPrevUsed y) := by
    intro y
    rw [hh', isPrevUsed_setFree, isPrevUsed_withStats, isPrevUsed_of_tags tags_freeListInsertAfter,
      isPrevUsed_withStats, isPrevUsed_setSize heven1]
  have hprevs : ∀ y, h'.prevSizeOf y = if y = b + (n1 + n2) then n2 else h.prevSizeOf y := by
    intro y
    rw [hh', prevSizeOf_setFree, prevSizeOf_withStats, prevSizeOf_of_tags tags_freeListInsertAfter,
      prevSizeOf_withStats, prevSizeOf_setSize]
  have hmid := L.tiled_mid ht
  rw [hb, tiled_one] at hmid
  obtain ⟨⟨hsize, hbehind⟩, hsize', -⟩ := hmid
  have hapart := L.apart_mid ht
  have hnexts : h'.nextOf = update (update h.nextOf (.block (b + n1)) (h.nextOf anchor)) anchor
      (.block (b + n1)) := by
    rw [hh']
    simp only [Heap.setFree, nextOf_clearFlag, nextOf_setPrevSize, nextOf_setSizeAndFlag,
      nextOf_withStats, nextOf_freeListInsertAfter, nextOf_setSize]
  have hlinks : h'.prevOf = update (update h.prevOf (.block (b + n1)) anchor) (h.nextOf anchor)
      (.block (b + n1)) := by
    rw [hh']
    simp only [Heap.setFree, prevOf_clearFlag, prevOf_setPrevSize, prevOf_setSizeAndFlag,
      prevOf_withStats, prevOf_freeListInsertAfter, prevOf_setSize, nextOf_withStats,
      nextOf_setSize]
  have hcircle := L.circle
  rw [map_append] at hcircle
  have hb1 : h'.blockSize b = n1 := (hsizes b).trans (by rw [if_neg (by omega), if_pos rfl])
  refine ⟨L.splice ht hb total_one total_two (by simp) (by simp) ?_ ?_ (hh' ▸ rfl) ?_ ?_ ?_ ?_ ?_
    ?_ ?_ ?_, ?_, ?_, ?_⟩
  · simpa using ⟨hn1, hn2⟩
  · exact ⟨hapart.1, fun hk => Kind.noConfusion hk, fun _ => hfree, trivial⟩
  · intro x hx; cases hx; omega
  · intro x hx
    have hx1 : x ≠ b := by omega
    have hx2 : x ≠ b + n1 := by omega
    have hx3 : x ≠ b + (n1 + n2) := by omega
    refine ⟨?_, ?_, ?_⟩
    · exact (hsizes x).trans (by rw [if_neg hx2, if_neg hx1]; rfl)
    · exact (hflags x).trans (by simp [hx2, hx3, Heap.tags])
    · exact (hprevs x).trans (by rw [if_neg hx3]; rfl)
  · exact (hprevs b).trans (if_neg (by omega))
  · refine tiled_two.mpr ⟨⟨?_, fun _ => ?_⟩, ⟨?_, fun _ => ⟨?_, ?_⟩⟩, ?_, fun _ => ⟨?_, ?_⟩⟩
    · exact hb1
    · have hb1 : b ≠ b + n1 := by omega
      have hb2 : b ≠ b + (n1 + n2) := by omega
      refine (hbehind (by simp; omega)).congr ((hflags b).trans ?_) ((hprevs b).trans (if_neg hb2))
      rw [and_iff_right hb2, or_iff_right hb1]
      rfl
    · exact (hsizes _).trans (if_pos rfl)
    · refine (hflags _).trans ?_
      simp
      omega
    · exact fun hk => Kind.noConfusion hk
    · refine (hsizes _).trans ?_; rw [if_neg (by omega), if_neg (by omega)]; exact hsize'
    · exact (hflags _).trans (by simp)
    · exact fun _ => (hprevs _).trans (if_pos rfl)
  · have hnew : b + n1 ∉ fl1 ++ fl2 := by
      refine L.not_mem_of_used (append_assoc ..) Kind.noConfusion (by omega) ?_
      change b + n1 < h.firstBlock + total pre + (n1 + n2)
      omega
    rw [map_append, hnexts, hlinks]
    exact hcircle.insertAfter hanchor (by simpa using hnew)
  · exact perm_remove.symm
  · exact hh' ▸ hfreeSize
  · exact hh' ▸ hfreeBlocks.trans L.increment_freeBlocks
  · intro y hy hy1 hy2
    rw [hb1] at hy1
    rw [hsizes, hflags, if_neg hy1, if_neg hy]
    simp [hy1, hy2]
  · intro y hy; rw [hb1] at hy; exact (hprevs y).trans (if_neg (by omega))
  · intro y hy hy1
    have hne : block y ≠ .block (b + n1) := fun he => by cases he; omega
    obtain ⟨ha, hn⟩ := hcircle.next_last hanchor
    have hya : block y ≠ anchor := by
      rintro rfl; exact hy (mem_append_left _ (by simpa using ha))
    have hyn : block y ≠ h.nextOf anchor := by
      intro he; rw [← he] at hn; exact hy (mem_append_right _ (by simpa using hn))
    rw [hnexts, hlinks, update_of_ne hya, update_of_ne hne, update_of_ne hyn, update_of_ne hne]
    exact ⟨rfl, rfl⟩

theorem blockSplit {allocSize : ℕ}
    (L : Layout c h e (some (b + n)) (pre ++ [⟨n, .used⟩] ++ rest) (fl1 ++ fl2))
    (hb : h.firstBlock + total pre = b) (he : e = c.sub h.firstBlock h.lastBlock)
    (ht : rest ++ [h.control.lastTile e] = t :: post) (hfree : t.kind ≠ .free)
    (hanchor : (freeList :: fl1.map .block).getLast? = some anchor)
    (hsize : allocSize + c.headerSize ≤ n + c.allocBonus) :
    ∃ mid fl', Cut c allocSize n mid ∧
      Layout c (h.blockSplit c b anchor allocSize) e none (pre ++ mid ++ rest) fl' ∧
      Changes h (h.blockSplit c b anchor allocSize) b (b + n) (fl1 ++ fl2) := by
  have hts : pre ++ [⟨n, .used⟩] ++ rest = pre ++ ⟨n, .used⟩ :: rest := by simp
  have hend := L.le_lastBlock hts
  have hlast := L.lastBlock_lt
  have hMn : h.minBlockSize ≤ n := L.geometry.min ⟨n, .used⟩ (by simp) (.inr rfl)
  have hpn : h.pageSize ∣ n := L.geometry.pages ⟨n, .used⟩ (by simp)
  have hpos : 0 < n := L.geometry.pos ⟨n, .used⟩ (by simp)
  have hadd := L.add_size hts
  have hblock := L.size_at hts
  simp only [hb] at hend hadd hblock
  obtain ⟨hused, hmin, hparts⟩ := split_sizes (M := h.minBlockSize) (p := h.pageSize)
    L.geometry.page_pos L.geometry.page_min hpn L.geometry.header_min hMn (by omega) hsize
  unfold Heap.blockSplit
  simp only [hblock, hadd]
  by_cases hlimit : c.add h.minBlockSize c.allocBonus ≤ c.sub (c.add n c.allocBonus)
      (c.add (max allocSize (c.sub h.minBlockSize c.headerSize)) c.headerSize)
  · rw [if_pos hlimit]
    obtain ⟨hpn1, hle1, hle2⟩ := hparts hlimit
    generalize hn1 : c.alignUp (c.add (max allocSize (c.sub h.minBlockSize c.headerSize))
      c.headerSize) h.pageSize = n1 at hpn1 hle1 hle2
    obtain ⟨n2, rfl⟩ : ∃ n2, n = n1 + n2 := ⟨n - n1, by omega⟩
    have hb1 : IsBlock h.control ⟨n1, .used⟩ := ⟨.inr rfl, hpn1, Nat.le_trans hmin hle1⟩
    have hb2 : IsBlock h.control ⟨n2, .free⟩ :=
      ⟨.inl rfl, (Nat.dvd_add_right hpn1).mp hpn, Nat.le_of_add_le_add_left hle2⟩
    have haddb : c.add b n1 = b + n1 := add_eq (by omega)
    have hsub : c.sub (n1 + n2) n1 = n2 := by
      rw [sub_eq (Nat.le_add_right ..) (by omega), Nat.add_sub_cancel_left]
    have hbelow := L.freeSize_add_le hts
    have hfreeAdd : c.add h.stats.freeSize n2 = h.stats.freeSize + n2 := add_eq (by omega)
    have hnext := L.isUsed_next he ht (by
        intro x hx
        cases hx
        rw [total_append, total_one]
        omega)
    rw [total_append, total_one, ← add_assoc, hb] at hnext
    rw [if_pos ((isUsed_setSize (L.size_even hb1) (by omega)).mpr (hnext.mpr hfree)), haddb, hsub]
    exact ⟨_, _, .parts n1 n2 rfl (by omega),
      L.splitFree hb ht hfree hanchor hb1 hb2 hfreeAdd rfl rfl⟩
  · rw [if_neg hlimit]
    refine ⟨[⟨n, .used⟩], fl1 ++ fl2, .whole hsize, L.setFlag hb, ?_, fun y _ => ?_, fun y _ _ => ?_⟩
    · intro y _ _ hy; simp [hy]
    · rw [prevSizeOf_setFlag]
    · rw [nextOf_setFlag, prevOf_setFlag]; exact ⟨rfl, rfl⟩

end Layout

namespace Heap

variable {allocSize allocBegin : ℕ}

@[simp]
theorem control_blockSplit : (h.blockSplit c b r allocSize).control = h.control := by
  unfold blockSplit
  dsimp only
  split_ifs
  · rfl
  · rfl
  · rfl

@[simp]
theorem usedBlocks_blockSplit :
    (h.blockSplit c b r allocSize).stats.usedBlocks = h.stats.usedBlocks := by
  unfold blockSplit
  dsimp only
  split_ifs
  · rfl
  · rfl
  · rfl

theorem blockAllocateFromEnd_spec :
    (h.blockAllocateFromEnd c b r allocBegin allocSize).2.control = h.control ∧
      (h.blockAllocateFromEnd c b r allocBegin allocSize).2.stats.usedBlocks =
        h.stats.usedBlocks := by
  unfold blockAllocateFromEnd
  dsimp only
  split_ifs
  · exact ⟨control_blockSplit, usedBlocks_blockSplit⟩
  · exact ⟨control_blockSplit, usedBlocks_blockSplit⟩

theorem blockAllocate_spec (c : Cpu) (h : Heap) (b allocBegin allocSize : ℕ) :
    (h.blockAllocate c b allocBegin allocSize).2.control = h.control ∧
      (h.blockAllocate c b allocBegin allocSize).2.stats.usedBlocks =
        if h.IsUsed c b then h.stats.usedBlocks else increment h.stats.usedBlocks := by
  unfold blockAllocate
  by_cases hu : h.IsUsed c b
  · simp only [hu, not_true_eq_false, if_false, if_true]
    split_ifs
    · exact ⟨control_blockSplit, usedBlocks_blockSplit⟩
    · exact blockAllocateFromEnd_spec
  · simp only [hu, not_false_eq_true, if_true, if_false]
    split_ifs
    · exact ⟨control_blockSplit, usedBlocks_blockSplit⟩
    · exact blockAllocateFromEnd_spec

end Heap

namespace Layout

/-! ## Allocation -/

theorem removeFree (L : Layout c h e none (pre ++ [⟨n, .free⟩] ++ rest) (fl1 ++ b :: fl2))
    (hb : h.firstBlock + total pre = b)
    (hfreeSize : (f h.stats).freeSize + n = h.stats.freeSize)
    (hfreeBlocks : (f h.stats).freeBlocks = decrement h.stats.freeBlocks) :
    Layout c ((h.freeListRemove b).withStats f) e (some (b + n))
      (pre ++ [⟨n, .used⟩] ++ rest) (fl1 ++ fl2) := by
  obtain ⟨t, post, ht, -⟩ := exists_next h.control e rest
  have hmid := L.tiled_mid ht
  rw [hb, tiled_one] at hmid
  have hblock := L.geometry.isBlock (t := ⟨n, .free⟩) (by simp) (.inl rfl)
  have htags : ((h.freeListRemove b).withStats f).tags = h.tags := tags_freeListRemove
  refine L.splice ht hb total_one total_one (by simp) (by simp) ?_ ?_ rfl ?_ ?_ ?_ ?_ ?_ ?_ ?_ ?_
  · simpa using ⟨.inr rfl, hblock.pages, hblock.min⟩
  · exact ⟨fun _ => Kind.noConfusion, fun hk => Kind.noConfusion hk, trivial⟩
  · intro x hx; cases hx
  · intro x _; rw [htags]; exact ⟨rfl, .rfl, rfl⟩
  · rw [prevSizeOf_of_tags htags]
  · rw [htags, tiled_one]
    exact ⟨⟨hmid.1.1, fun _ => hmid.1.2 (by simp)⟩, hmid.2.1, fun hne => absurd rfl hne⟩
  · exact L.circle_remove
  · exact perm_remove
  · exact hfreeSize
  · exact hfreeBlocks.trans L.decrement_freeBlocks

theorem allocateEnd {n1 n2 : ℕ} {g : HeapStatistics → HeapStatistics}
    (L : Layout c h e (some (b + (n1 + n2))) (pre ++ [⟨n1 + n2, .used⟩] ++ rest) (fl1 ++ fl2))
    (hb : h.firstBlock + total pre = b) (hpred : (final (h.control.lastTile e) pre).kind ≠ .free)
    (hanchor : (freeList :: fl1.map .block).getLast? = some anchor)
    (hn1 : IsBlock h.control ⟨n1, .free⟩) (hn2 : IsBlock h.control ⟨n2, .used⟩)
    (hfreeSize : (g (f h.stats)).freeSize = h.stats.freeSize + n1)
    (hfreeBlocks : (g (f h.stats)).freeBlocks = increment h.stats.freeBlocks)
    (hh' : h' = (((((h.withStats f).freeListInsertAfter anchor b).withStats g).setSizeAndFlag b
      (withFlag n1)).setPrevSize (b + n1) n1).setSizeAndFlag (b + n1) n2) :
    Layout c h' e (some (b + (n1 + n2))) (pre ++ [⟨n1, .free⟩, ⟨n2, .used⟩] ++ rest)
      (fl1 ++ b :: fl2) := by
  obtain ⟨t, post, ht, -⟩ := exists_next h.control e rest
  have hpos1 : 0 < n1 := L.size_pos hn1
  have hpos2 : 0 < n2 := L.size_pos hn2
  have heven1 : 2 ∣ n1 := L.size_even hn1
  have heven2 : 2 ∣ n2 := L.size_even hn2
  have hsizes : ∀ y, h'.blockSize y =
      if y = b + n1 then n2 else if y = b then n1 else h.blockSize y := by
    intro y
    rw [hh', blockSize_setSizeAndFlag, blockSize_setPrevSize, blockSize_setSizeAndFlag,
      blockSize_withStats, blockSize_of_tags tags_freeListInsertAfter, blockSize_withStats,
      withoutFlag_withFlag, withoutFlag_even heven1, withoutFlag_even heven2]
  have hflags : ∀ y, h'.IsPrevUsed y ↔ y ≠ b + n1 ∧ (y = b ∨ h.IsPrevUsed y) := by
    intro y
    rw [hh', isPrevUsed_setSizeAndFlag, isPrevUsed_setPrevSize, isPrevUsed_setSizeAndFlag,
      isPrevUsed_withStats, isPrevUsed_of_tags tags_freeListInsertAfter, isPrevUsed_withStats,
      withFlag_mod, mod_eq_zero_of_dvd heven2]
    by_cases hy : y = b + n1
    · simp [hy]
    · by_cases hy' : y = b
      · simp [hy']
      · simp [hy, hy']
  have hprevs : ∀ y, h'.prevSizeOf y = if y = b + n1 then n1 else h.prevSizeOf y := by
    intro y
    rw [hh', prevSizeOf_setSizeAndFlag, prevSizeOf_setPrevSize, prevSizeOf_setSizeAndFlag,
      prevSizeOf_withStats, prevSizeOf_of_tags tags_freeListInsertAfter, prevSizeOf_withStats]
  have hmid := L.tiled_mid ht
  rw [hb, tiled_one] at hmid
  obtain ⟨⟨hsize, hbehind⟩, hsize', -⟩ := hmid
  refine L.splice ht hb total_one total_two (by simp) (by simp) ?_ ?_ (hh' ▸ rfl) ?_ ?_ ?_ ?_ ?_ ?_
    ?_ ?_
  · simpa using ⟨hn1, hn2⟩
  · exact ⟨fun hk => absurd hk hpred, fun _ => Kind.noConfusion, fun hk => Kind.noConfusion hk,
      trivial⟩
  · intro x hx; cases hx; omega
  · intro x hx
    have hx1 : x ≠ b := by omega
    have hx2 : x ≠ b + n1 := by omega
    refine ⟨?_, ?_, ?_⟩
    · exact (hsizes x).trans (by rw [if_neg hx2, if_neg hx1]; rfl)
    · exact (hflags x).trans (by rw [and_iff_right hx2, or_iff_right hx1]; rfl)
    · exact (hprevs x).trans (if_neg hx2)
  · exact (hprevs b).trans (if_neg (by omega))
  · have hb1 : b ≠ b + n1 := by omega
    have hbn : b + (n1 + n2) ≠ b + n1 := by omega
    refine tiled_two.mpr ⟨⟨?_, fun _ => ?_⟩, ⟨?_, fun _ => ⟨?_, ?_⟩⟩, ?_, fun hne => absurd rfl hne⟩
    · exact (hsizes b).trans (by rw [if_neg hb1, if_pos rfl])
    · have hold := hbehind (by simp; omega)
      refine hold.congr ((hflags b).trans ?_) ((hprevs b).trans (if_neg hb1))
      exact iff_of_true ⟨hb1, .inl rfl⟩ (hold.prevUsed.mpr hpred)
    · exact (hsizes _).trans (if_pos rfl)
    · exact (hflags _).trans (by simp)
    · exact fun _ => (hprevs _).trans (if_pos rfl)
    · refine (hsizes _).trans ?_; rw [if_neg hbn, if_neg (by omega)]; exact hsize'
  · have hnew : b ∉ fl1 ++ fl2 := by
      refine L.not_mem_of_used (append_assoc ..) Kind.noConfusion (le_of_eq hb) ?_
      change b < h.firstBlock + total pre + (n1 + n2)
      omega
    have hcircle := L.circle
    rw [map_append] at hcircle ⊢
    rw [hh']
    simp only [nextOf_setPrevSize, nextOf_setSizeAndFlag, nextOf_withStats,
      nextOf_freeListInsertAfter, prevOf_setPrevSize, prevOf_setSizeAndFlag, prevOf_withStats,
      prevOf_freeListInsertAfter]
    exact hcircle.insertAfter hanchor (by simpa using hnew)
  · exact perm_remove.symm
  · exact hh' ▸ hfreeSize
  · exact hh' ▸ hfreeBlocks.trans L.increment_freeBlocks

end Layout

/-- An area in the free block at `b`, at its begin or with a free block before it. -/
structure Fit (c : Cpu) (k : HeapControl) (b n allocSize allocBegin : ℕ) : Prop where
  low : b + c.headerSize ≤ allocBegin
  high : allocBegin + allocSize ≤ b + n + c.allocBonus
  place : c.blockOfAllocArea allocBegin k.pageSize = b ∨
    b + k.minBlockSize ≤ c.blockOfAllocArea allocBegin k.pageSize ∧
      c.blockOfAllocArea allocBegin k.pageSize + k.minBlockSize ≤ b + n

theorem Cpu.blockOfAllocArea_eq {p q : ℕ} (hp : 0 < p) (hb : p ∣ b + c.headerSize)
    (hle : b + c.headerSize ≤ q) (hq : q < c.modulus) :
    ∃ m, c.blockOfAllocArea q p = b + m ∧ p ∣ m ∧ b + m + c.headerSize ≤ q ∧
      q < b + m + c.headerSize + p := by
  have hdown := alignDown_le q p
  have hlt := lt_alignDown (v := q) hp
  have hge := le_alignDown hp hb hle
  have hdvd := dvd_sub (dvd_alignDown q p) hb
  refine ⟨Cpu.alignDown q p - (b + c.headerSize), ?_, hdvd, by omega, by omega⟩
  rw [Cpu.blockOfAllocArea, sub_eq (by omega) (by omega)]
  omega

theorem Cpu.sub_allocArea {q : ℕ} (hle : b + c.headerSize ≤ q) (hq : q < c.modulus) :
    c.sub q (c.allocAreaOfBlock b) = q - (b + c.headerSize) := by
  rw [Cpu.allocAreaOfBlock, add_eq (by omega), sub_eq hle hq]

/-- The parts of a free block at `b` after an allocation: one is used. -/
structure Taken (b n block : ℕ) (mid : List Tile) : Prop where
  sum : total mid = n
  blocks : ∀ t ∈ mid, t.kind = .free ∨ t.kind = .used
  used : addresses isUsed b mid = [block]

theorem Cut.taken {allocSize : ℕ} (hcut : Cut c allocSize n mid) : Taken b n b mid := by
  cases hcut with
  | whole hsize => exact ⟨total_one, by simp, rfl⟩
  | parts n1 n2 hn hsize => exact ⟨hn, by simp, rfl⟩

theorem Cut.taken_end {allocSize n1 n2 : ℕ} (hcut : Cut c allocSize n2 mid) :
    Taken b (n1 + n2) (b + n1) (⟨n1, .free⟩ :: mid) := by
  have ht : Taken (b + n1) n2 (b + n1) mid := hcut.taken
  refine ⟨by rw [total_cons, ht.sum], ?_, ht.used⟩
  intro t hmem
  rcases mem_cons.mp hmem with rfl | hmem
  · exact .inl rfl
  · exact ht.blocks t hmem

theorem Cut.room {allocSize : ℕ} (hcut : Cut c allocSize n mid)
    (L : Layout c h e none (pre ++ mid ++ rest) fl) (hb : h.firstBlock + total pre = b) :
    allocSize + c.headerSize ≤ h.blockSize b + c.allocBonus ∧
      (h.blockSize b = n ∨ h.blockSize b + 4 * c.word ≤ n) := by
  cases hcut with
  | whole hsize =>
    rw [← hb, L.size_at (append_assoc pre [⟨n, .used⟩] rest)]; exact ⟨hsize, .inl rfl⟩
  | parts n1 n2 hn hsize =>
    rw [← hb, L.size_at (append_assoc pre [⟨n1, .used⟩, ⟨n2, .free⟩] rest)]
    have hmin := L.geometry.min ⟨n2, .free⟩ (by simp) (.inl rfl)
    exact ⟨le_add_right_of_le hsize,
      .inr (hn ▸ Nat.add_le_add_left (L.geometry.header_min.trans hmin) n1)⟩

theorem Heap.firstBlock_blockSplit {allocSize : ℕ} :
    (h.blockSplit c b r allocSize).firstBlock = h.firstBlock :=
  congrArg HeapControl.firstBlock control_blockSplit

namespace Layout

theorem blockAllocateFromEnd {allocSize allocBegin n1 n2 : ℕ}
    (L : Layout c h e (some (b + (n1 + n2))) (pre ++ [⟨n1 + n2, .used⟩] ++ rest) (fl1 ++ fl2))
    (hb : h.firstBlock + total pre = b) (he : e = c.sub h.firstBlock h.lastBlock)
    (hpred : (final (h.control.lastTile e) pre).kind ≠ .free)
    (ht : rest ++ [h.control.lastTile e] = t :: post) (hfree : t.kind ≠ .free)
    (hanchor : (freeList :: fl1.map .block).getLast? = some anchor)
    (hn1 : IsBlock h.control ⟨n1, .free⟩) (hn2 : IsBlock h.control ⟨n2, .used⟩)
    (hblock : c.blockOfAllocArea allocBegin h.pageSize = b + n1)
    (hsize : allocSize + c.headerSize ≤ n2 + c.allocBonus) :
    ∃ mid fl', Taken b (n1 + n2) (b + n1) mid ∧
      Layout c (h.blockAllocateFromEnd c b anchor allocBegin allocSize).2 e none
        (pre ++ mid ++ rest) fl' ∧
      allocSize + c.headerSize ≤
        (h.blockAllocateFromEnd c b anchor allocBegin allocSize).2.blockSize (b + n1) +
          c.allocBonus := by
  have hts : pre ++ [⟨n1 + n2, .used⟩] ++ rest = pre ++ ⟨n1 + n2, .used⟩ :: rest := by simp
  have hpos : 0 < n1 := L.size_pos hn1
  have hend := L.le_lastBlock hts
  have hlast := L.lastBlock_lt
  have hadd := L.add_size hts
  have hsize' := L.size_at hts
  simp only [hb] at hend hadd hsize'
  have hsub1 : c.sub (b + (n1 + n2)) (b + n1) = n2 := by rw [sub_eq (by omega) (by omega)]; omega
  have hsub2 : c.sub (b + n1) b = n1 := by rw [sub_eq (by omega) (by omega)]; omega
  have hbelow := L.freeSize_add_le hts
  have hfreeAdd : c.add h.stats.freeSize n1 = h.stats.freeSize + n1 := add_eq (by omega)
  have hused : h.IsPrevUsed b := by
    have hmid := L.tiled_mid ht
    rw [hb, tiled_one] at hmid
    exact (hmid.1.2 (by simp; omega)).prevUsed.mpr hpred
  have L' := L.allocateEnd (f := fun s => { s with freeSize := c.add s.freeSize n1 })
    (g := fun s => { s with freeBlocks := increment s.freeBlocks }) hb hpred hanchor hn1 hn2
    hfreeAdd rfl rfl
  have htiles : pre ++ [⟨n1, .free⟩, ⟨n2, .used⟩] ++ rest =
      pre ++ [⟨n1, .free⟩] ++ [⟨n2, .used⟩] ++ rest := by simp
  have hlist : fl1 ++ b :: fl2 = fl1 ++ [b] ++ fl2 := by simp
  rw [htiles, hlist, ← add_assoc] at L'
  have hplace : h.firstBlock + total (pre ++ [⟨n1, .free⟩]) = b + n1 := by
    rw [total_append, total_one, ← add_assoc, hb]
  have hanchor' : (freeList :: (fl1 ++ [b]).map .block).getLast? = some (.block b) := by
    rw [map_append, ← cons_append]; exact getLast?_concat
  obtain ⟨mid, fl', hcut, L'', -⟩ := L'.blockSplit hplace he ht hfree hanchor' hsize
  refine ⟨⟨n1, .free⟩ :: mid, fl', hcut.taken_end, ?_⟩
  unfold Heap.blockAllocateFromEnd
  simp only [blockSize_withStats, hsize', hadd, hblock, hsub1, hsub2, isPrevUsed_withStats,
    if_pos hused]
  rw [append_cons]
  refine ⟨L'', (hcut.room L'' ?_).1⟩
  rw [firstBlock_blockSplit]
  exact hplace

theorem blockAllocate {allocSize allocBegin : ℕ}
    (L : Layout c h e none (pre ++ [⟨n, .free⟩] ++ rest) fl)
    (hb : h.firstBlock + total pre = b) (he : e = c.sub h.firstBlock h.lastBlock)
    (hfit : Fit c h.control b n allocSize allocBegin) :
    ∃ mid fl', Taken b n (c.blockOfAllocArea allocBegin h.pageSize) mid ∧
      Layout c (h.blockAllocate c b allocBegin allocSize).2 e none (pre ++ mid ++ rest) fl' ∧
      allocSize + c.headerSize ≤ (h.blockAllocate c b allocBegin allocSize).2.blockSize
        (c.blockOfAllocArea allocBegin h.pageSize) + c.allocBonus := by
  obtain ⟨t, post, ht, -⟩ := exists_next h.control e rest
  have hts : pre ++ [⟨n, .free⟩] ++ rest = pre ++ ⟨n, .free⟩ :: rest := by simp
  have hend := L.le_lastBlock hts
  have hlast := L.lastBlock_lt
  have hfree : ¬ h.IsUsed c b := by
    have hu := L.isUsed_iff hts (by simp); rw [hb] at hu; exact fun hk => hu.mp hk rfl
  have hblock := L.size_at hts
  have hpage := L.geometry.page_at hts
  simp only [hb] at hend hblock
  change h.pageSize ∣ h.firstBlock + total pre + c.headerSize at hpage
  rw [hb] at hpage
  have hhigh := hfit.high
  have hlow := hfit.low
  rw [Cpu.allocBonus] at hhigh
  obtain ⟨m, hm, hpm, hm1, hm2⟩ := blockOfAllocArea_eq L.geometry.page_pos hpage hlow (by omega)
  change c.blockOfAllocArea allocBegin h.pageSize = b + m at hm
  change allocBegin < b + m + c.headerSize + h.pageSize at hm2
  obtain ⟨fl1, fl2, rfl⟩ := L.mem_of_free hts rfl
  rw [hb] at L
  have hanchor : (freeList :: fl1.map .block).getLast? = some (h.header b).prev := by
    have hcircle := L.circle; rw [map_append, map_cons] at hcircle; exact hcircle.prev_eq
  -- the block becomes a used one; the tags behind it still say that it is free
  have L1 := L.removeFree (f := fun s =>
    { s with
      freeBlocks := decrement s.freeBlocks
      usedBlocks := increment s.usedBlocks
      freeSize := c.sub s.freeSize n }) hb (L.sub_freeSize hts) rfl
  have hapart := L.apart_mid ht
  have hoffset := sub_allocArea hlow (by omega)
  unfold Heap.blockAllocate
  simp only [if_pos hfree, hblock, hoffset, hm]
  rcases Nat.eq_zero_or_pos m with rfl | hpos
  · rw [if_pos (by omega)]
    have hsize : c.add allocSize (allocBegin - (b + c.headerSize)) + c.headerSize ≤
        n + c.allocBonus := by
      rw [add_eq (by omega), Cpu.allocBonus]
      omega
    obtain ⟨mid, fl', hcut, L2, -⟩ := L1.blockSplit hb he ht (hapart.2.1 rfl) hanchor hsize
    have hroom := hcut.room (b := b) L2 (by rw [firstBlock_blockSplit]; exact hb)
    have hle : allocSize ≤ c.add allocSize (allocBegin - (b + c.headerSize)) := by
      rw [add_eq (by omega)]; exact Nat.le_add_right ..
    exact ⟨mid, fl', hcut.taken, L2.withStats rfl rfl, (Nat.add_le_add_right hle _).trans hroom.1⟩
  · have hple : h.pageSize ≤ m := le_of_dvd hpos hpm
    rw [if_neg (by omega)]
    have hplace := hfit.place
    rw [show h.control.pageSize = h.pageSize from rfl, hm] at hplace
    obtain ⟨hM1, hM2⟩ : b + h.minBlockSize ≤ b + m ∧ b + m + h.minBlockSize ≤ b + n :=
      hplace.resolve_left (by omega)
    obtain ⟨n2, rfl⟩ : ∃ n2, n = m + n2 := ⟨n - m, by omega⟩
    have hpn := L.geometry.pages ⟨m + n2, .free⟩ (by simp)
    have hMm : h.minBlockSize ≤ m := by omega
    have hMn : h.minBlockSize ≤ n2 := by omega
    obtain ⟨mid, fl', htaken, L2, hroom⟩ := L1.blockAllocateFromEnd hb he (fun hk => hapart.1 hk rfl) ht
      (hapart.2.1 rfl) hanchor ⟨.inl rfl, hpm, hMm⟩
      ⟨.inr rfl, (Nat.dvd_add_right hpm).mp hpn, hMn⟩ hm
      (show allocSize + c.headerSize ≤ n2 + c.allocBonus by rw [Cpu.allocBonus]; omega)
    exact ⟨mid, fl', htaken, L2.withStats rfl rfl, hroom⟩

/-! ## Freeing -/

theorem merge {h1 : Heap} (L : Layout c h e none (pre ++ mid ++ rest) fl)
    (hb : h.firstBlock + total pre = b) (hn : total mid = n)
    (hold : ∀ t ∈ mid, IsBlock h.control t) (hne : mid ≠ [])
    (hpred : (final (h.control.lastTile e) pre).kind ≠ .free)
    (ht : rest ++ [h.control.lastTile e] = t :: post) (hfree : t.kind ≠ .free)
    (hk : h1.control = h.control) (htags : h1.tags = h.tags)
    (hcircle : Circle h1.nextOf h1.prevOf .freeList (fl'.map .block))
    (hmembers : (fl' ++ addresses isFree b mid).Perm (fl ++ [b]))
    (hfreeSize : (f h1.stats).freeSize + totalOf isFree mid = h.stats.freeSize + n)
    (hfreeBlocks : (f h1.stats).freeBlocks = fl'.length % 2 ^ 32) :
    Layout c ((((h1.setSizeAndFlag b (withFlag n)).clearFlag (b + n)).setPrevSize (b + n)
      n).withStats f) e none (pre ++ [⟨n, .free⟩] ++ rest) fl' := by
  set h' := (((h1.setSizeAndFlag b (withFlag n)).clearFlag (b + n)).setPrevSize (b + n)
    n).withStats f with hh'
  have hmin : h.minBlockSize ≤ n := by
    cases mid with
    | nil => exact absurd rfl hne
    | cons u us =>
      have hu : h.minBlockSize ≤ u.size := (hold u mem_cons_self).min
      rw [total_cons] at hn
      omega
  have hblock : IsBlock h.control ⟨n, .free⟩ :=
    ⟨.inl rfl, hn ▸ dvd_total fun t ht => (hold t ht).pages, hmin⟩
  have heven : 2 ∣ n := L.size_even hblock
  have hpos : 0 < n := L.size_pos hblock
  have hb1 : b ≠ b + n := by omega
  have hsizes : ∀ y, h'.blockSize y = if y = b then n else h.blockSize y := by
    intro y
    rw [hh', blockSize_withStats, blockSize_setPrevSize, blockSize_clearFlag,
      blockSize_setSizeAndFlag, blockSize_of_tags htags, withoutFlag_withFlag,
      withoutFlag_even heven]
  have hflags : ∀ y, h'.IsPrevUsed y ↔ y ≠ b + n ∧ (y = b ∨ h.IsPrevUsed y) := by
    intro y
    rw [hh', isPrevUsed_withStats, isPrevUsed_setPrevSize, isPrevUsed_clearFlag,
      isPrevUsed_setSizeAndFlag, isPrevUsed_of_tags htags, withFlag_mod]
    by_cases hy : y = b
    · simp [hy]
    · simp [hy]
  have hprevs : ∀ y, h'.prevSizeOf y = if y = b + n then n else h.prevSizeOf y := by
    intro y
    rw [hh', prevSizeOf_withStats, prevSizeOf_setPrevSize, prevSizeOf_clearFlag,
      prevSizeOf_setSizeAndFlag, prevSizeOf_of_tags htags]
  refine L.splice ht hb hn total_one (by simp) (fun t ht => (hold t ht).kind) ?_ ?_ hk ?_ ?_ ?_ ?_
    ?_ hmembers hfreeSize hfreeBlocks
  · simpa using hblock
  · exact ⟨fun hp => absurd hp hpred, fun _ => hfree, trivial⟩
  · intro x hx; cases hx
  · intro x hx
    have hx1 : x ≠ b := by omega
    have hx2 : x ≠ b + n := by omega
    refine ⟨(hsizes x).trans (if_neg hx1), (hflags x).trans ?_, (hprevs x).trans (if_neg hx2)⟩
    rw [and_iff_right hx2, or_iff_right hx1]
    rfl
  · exact (hprevs b).trans (if_neg hb1)
  · have hmid := L.tiled_mid ht
    rw [tiled_append, tiled_singleton, hb, hn] at hmid
    refine tiled_one.mpr ⟨⟨?_, fun _ => ⟨?_, fun hp => absurd hp hpred⟩⟩, ?_, fun _ => ⟨?_, ?_⟩⟩
    · exact (hsizes b).trans (if_pos rfl)
    · exact (hflags b).trans (iff_of_true ⟨hb1, .inl rfl⟩ hpred)
    · exact (hsizes _).trans ((if_neg hb1.symm).trans hmid.2.1)
    · exact (hflags _).trans (by simp)
    · exact fun _ => (hprevs _).trans (if_pos rfl)
  · simpa [hh'] using hcircle

end Layout

theorem Heap.clearFlag_eq (hx : ¬ h.IsPrevUsed x) : h.clearFlag x = h := by
  have hs : withoutFlag (h.header x).sizeAndFlag = (h.header x).sizeAndFlag := by
    refine withoutFlag_even (dvd_of_mod_eq_zero ?_)
    have hne : (h.header x).sizeAndFlag % 2 ≠ 1 := hx
    omega
  rw [clearFlag, hs]
  exact congrArg (fun m => { h with block := m }) (Function.update_eq_self (.block x) h.block)

/-- The block of size `n` is free, with the free ones on its two sides. -/
def Coalesced (pre : List Tile) (n : ℕ) (rest ts : List Tile) : Prop :=
  ∃ pre₀ before behind rest₀, pre = pre₀ ++ before ∧ rest = behind ++ rest₀ ∧
    (∀ t ∈ before ++ behind, t.kind = .free) ∧
    ts = pre₀ ++ [⟨total (before ++ [⟨n, .used⟩] ++ behind), .free⟩] ++ rest₀

namespace Heap

variable {allocBegin : ℕ}

@[simp]
theorem control_free : (h.free c allocBegin).2.control = h.control := by
  unfold free
  dsimp only
  split_ifs
  all_goals rfl

theorem usedBlocks_free (hne : allocBegin ≠ 0) (hfreed : (h.free c allocBegin).1 = true) :
    (h.free c allocBegin).2.stats.usedBlocks = decrement h.stats.usedBlocks := by
  unfold free at hfreed ⊢
  rw [if_neg hne] at hfreed ⊢
  dsimp only at hfreed ⊢
  split_ifs at hfreed ⊢
  · simp [countFree, coalesceNext]
  · simp [countFree, noCoalesce]
  · simp [countFree, coalesceBoth]
  · simp [countFree, coalescePrev]

end Heap

namespace Layout

variable {m k : ℕ}

theorem isBlock_mid (L : Layout c h e ex (pre ++ mid ++ rest) fl)
    (hk : ∀ t ∈ mid, t.kind = .free ∨ t.kind = .used) : ∀ t ∈ mid, IsBlock h.control t :=
  fun t ht => L.geometry.isBlock (mem_append_left _ (mem_append_right _ ht)) (hk t ht)

theorem free_behind (L : Layout c h e none ts fl) (hts : ts = pre ++ ⟨k, .free⟩ :: rest)
    (hb : h.firstBlock + total pre = b) :
    (∃ fl1 fl2, fl = fl1 ++ b :: fl2) ∧ ¬ h.IsPrevUsed (b + k) ∧ b + k < c.modulus := by
  have hend := L.le_lastBlock hts
  have hlast := L.lastBlock_lt
  have hclear := mt (L.behind hts (by simp)).prevUsed.mp (by simp)
  have hmem := L.mem_of_free hts rfl
  simp only [hb] at hend hclear hmem
  exact ⟨hmem, hclear, by omega⟩

section Coalesce

variable (hb : h.firstBlock + total pre = b)

include hb

theorem coalesceBoth
    (L : Layout c h e none (pre ++ [⟨m, .free⟩, ⟨n, .used⟩, ⟨k, .free⟩] ++ rest) fl) :
    ∃ fl', Layout c ((h.coalesceBoth c b (b + m + n) (m + n + k)).countFree c n) e none
      (pre ++ [⟨m + n + k, .free⟩] ++ rest) fl' := by
  obtain ⟨t, post, ht, -⟩ := exists_next h.control e rest
  have hapart := L.apart_mid ht
  have hnext : pre ++ [⟨m, .free⟩, ⟨n, .used⟩, ⟨k, .free⟩] ++ rest =
      pre ++ [⟨m, .free⟩, ⟨n, .used⟩] ++ ⟨k, .free⟩ :: rest := by simp
  have hused : pre ++ [⟨m, .free⟩, ⟨n, .used⟩, ⟨k, .free⟩] ++ rest =
      pre ++ [⟨m, .free⟩] ++ ⟨n, .used⟩ :: ⟨k, .free⟩ :: rest := by simp
  have hpos : 0 < n := L.geometry.pos ⟨n, .used⟩ (by simp)
  have hplace : h.firstBlock + total (pre ++ [⟨m, .free⟩, ⟨n, .used⟩]) = b + m + n := by
    rw [total_append, total_two, ← add_assoc, ← add_assoc, hb]
  have hfreeAdd := L.add_freeSize hused
  obtain ⟨⟨fl1, fl2, rfl⟩, hclear, hlt⟩ := L.free_behind hnext hplace
  have hadd : c.add b (m + n + k) = b + (m + n + k) := add_eq (by omega)
  have hblocks := L.isBlock_mid (by simp)
  have hsum : total [⟨m, .free⟩, ⟨n, .used⟩, ⟨k, .free⟩] = m + n + k := by
    exact (add_assoc m n k).symm
  have hclear' : ¬ (((h.freeListRemove (b + m + n)).withStats fun s =>
      { s with freeBlocks := decrement s.freeBlocks }).setSizeAndFlag b
        (withFlag (m + n + k))).IsPrevUsed (b + (m + n + k)) := by
    rw [isPrevUsed_setSizeAndFlag, if_neg (by omega), isPrevUsed_withStats,
      isPrevUsed_of_tags tags_freeListRemove, ← add_assoc, ← add_assoc]
    exact hclear
  refine ⟨fl1 ++ fl2, ?_⟩
  rw [Heap.coalesceBoth, hadd, ← clearFlag_eq hclear']
  refine L.merge hb hsum hblocks (by simp) (fun hk => hapart.1 hk rfl) ht (hapart.2.2.2.1 rfl) rfl
    ?_ ?_ ?_ ?_ ?_
  · rw [tags_withStats, tags_freeListRemove]
  · exact L.circle_remove
  · change (fl1 ++ fl2 ++ [b, b + m + n]).Perm (fl1 ++ (b + m + n) :: fl2 ++ [b])
    refine perm_iff_count.mpr fun x => ?_
    simp only [count_append, count_cons, count_nil]
    omega
  · have hfree : totalOf isFree [⟨m, .free⟩, ⟨n, .used⟩, ⟨k, .free⟩] = m + k := rfl
    rw [hfree, stats_withStats, stats_freeListRemove]
    dsimp only
    omega
  · exact L.decrement_freeBlocks

theorem coalescePrev (L : Layout c h e none (pre ++ [⟨m, .free⟩, ⟨n, .used⟩] ++ rest) fl)
    (ht : rest ++ [h.control.lastTile e] = t :: post) (hfree : t.kind ≠ .free) :
    Layout c ((h.coalescePrev b (b + (m + n)) (m + n)).countFree c n) e none
      (pre ++ [⟨m + n, .free⟩] ++ rest) fl := by
  have hapart := L.apart_mid ht
  have hused : pre ++ [⟨m, .free⟩, ⟨n, .used⟩] ++ rest =
      pre ++ [⟨m, .free⟩] ++ ⟨n, .used⟩ :: rest := by simp
  have hfreeAdd := L.add_freeSize hused
  refine L.merge hb total_two (L.isBlock_mid (by simp)) (by simp) (fun hk => hapart.1 hk rfl) ht
    hfree rfl rfl L.circle (.refl _) ?_ L.freeBlocks
  have hmid : totalOf isFree [⟨m, .free⟩, ⟨n, .used⟩] = m := rfl
  dsimp only
  omega

theorem coalesceNext (L : Layout c h e none (pre ++ [⟨n, .used⟩, ⟨k, .free⟩] ++ rest) fl)
    (hpred : (final (h.control.lastTile e) pre).kind ≠ .free) :
    ∃ fl', Layout c ((h.coalesceNext c b (b + n) (n + k)).countFree c n) e none
      (pre ++ [⟨n + k, .free⟩] ++ rest) fl' := by
  obtain ⟨t, post, ht, -⟩ := exists_next h.control e rest
  have hapart := L.apart_mid ht
  have hnext : pre ++ [⟨n, .used⟩, ⟨k, .free⟩] ++ rest =
      pre ++ [⟨n, .used⟩] ++ ⟨k, .free⟩ :: rest := by simp
  have hused : pre ++ [⟨n, .used⟩, ⟨k, .free⟩] ++ rest =
      pre ++ ⟨n, .used⟩ :: ⟨k, .free⟩ :: rest := by simp
  have hpos : 0 < n := L.geometry.pos ⟨n, .used⟩ (by simp)
  have hplace : h.firstBlock + total (pre ++ [⟨n, .used⟩]) = b + n := by
    rw [total_append, total_one, ← add_assoc, hb]
  have hfreeAdd := L.add_freeSize hused
  have hnew : b ∉ fl := L.not_mem_of_used hused Kind.noConfusion (le_of_eq hb)
    (by rw [hb]; exact Nat.lt_add_of_pos_right hpos)
  obtain ⟨⟨fl1, fl2, rfl⟩, hclear, hlt⟩ := L.free_behind hnext hplace
  have hadd : c.add b (n + k) = b + (n + k) := add_eq (by omega)
  have hcircle := L.circle
  rw [map_append, map_cons] at hcircle
  have hclear' : ¬ ((h.freeListReplace (b + n) b).setSizeAndFlag b
      (withFlag (n + k))).IsPrevUsed (b + (n + k)) := by
    rw [isPrevUsed_setSizeAndFlag, if_neg (by omega), isPrevUsed_of_tags tags_freeListReplace,
      ← add_assoc]
    exact hclear
  refine ⟨fl1 ++ b :: fl2, ?_⟩
  rw [Heap.coalesceNext, hadd, ← clearFlag_eq hclear']
  refine L.merge hb total_two (L.isBlock_mid (by simp)) (by simp) hpred ht (hapart.2.2.1 rfl) rfl
    tags_freeListReplace ?_ ?_ ?_ ?_
  · rw [map_append, nextOf_freeListReplace, prevOf_freeListReplace]
    refine hcircle.replace ?_
    simp only [mem_append, mem_cons, not_or] at hnew
    simpa using ⟨hnew.1, hnew.2.2⟩
  · change (fl1 ++ b :: fl2 ++ [b + n]).Perm (fl1 ++ (b + n) :: fl2 ++ [b])
    refine perm_iff_count.mpr fun x => ?_
    simp only [count_append, count_cons, count_nil]
    omega
  · have hmid : totalOf isFree [⟨n, .used⟩, ⟨k, .free⟩] = k := rfl
    rw [hmid, stats_freeListReplace]
    dsimp only
    omega
  · rw [stats_freeListReplace]
    rw [L.freeBlocks]
    simp

theorem noCoalesce (L : Layout c h e none (pre ++ [⟨n, .used⟩] ++ rest) fl)
    (hpred : (final (h.control.lastTile e) pre).kind ≠ .free)
    (ht : rest ++ [h.control.lastTile e] = t :: post) (hfree : t.kind ≠ .free) :
    Layout c ((h.noCoalesce b (b + n) n).countFree c n) e none
      (pre ++ [⟨n, .free⟩] ++ rest) (b :: fl) := by
  have hused : pre ++ [⟨n, .used⟩] ++ rest = pre ++ ⟨n, .used⟩ :: rest := by simp
  have hpos : 0 < n := L.geometry.pos ⟨n, .used⟩ (by simp)
  have hfreeAdd := L.add_freeSize hused
  have hnew : b ∉ fl := L.not_mem_of_used hused Kind.noConfusion (le_of_eq hb)
    (by rw [hb]; exact Nat.lt_add_of_pos_right hpos)
  have hcircle : Circle h.nextOf h.prevOf .freeList ([] ++ fl.map .block) := L.circle
  rw [Heap.countFree, Heap.noCoalesce, withStats_withStats]
  refine L.merge hb total_one (L.isBlock_mid (by simp)) (by simp) hpred ht hfree rfl
    tags_freeListInsertAfter ?_ ?_ ?_ ?_
  · rw [nextOf_freeListInsertAfter, prevOf_freeListInsertAfter]
    exact hcircle.insertAfter rfl (by simpa using hnew)
  · change (b :: fl ++ []).Perm (fl ++ [b])
    rw [append_nil]
    exact (perm_append_singleton b fl).symm
  · rw [stats_freeListInsertAfter]
    rw [hfreeAdd]
    rfl
  · rw [stats_freeListInsertAfter]; dsimp only; rw [L.freeBlocks, increment_mod, length_cons]

theorem nextIsFree_iff (L : Layout c h e none (pre ++ rest) fl)
    (ht : rest ++ [h.control.lastTile e] = t :: post) :
    b ≠ h.lastBlock ∧ ¬ h.IsPrevUsed (c.add b (h.blockSize b)) ↔ t.kind = .free := by
  cases rest with
  | nil =>
    obtain ⟨rfl, -⟩ := List.cons.inj ht
    have hends := L.geometry.ends
    rw [append_nil] at hends
    exact iff_of_false (fun hl => hl.1 (hb.symm.trans hends)) Kind.noConfusion
  | cons u rest =>
    obtain ⟨rfl, -⟩ := List.cons.inj ht
    have hpos := L.geometry.pos u (by simp)
    have hend := L.le_lastBlock rfl
    have hused := L.isUsed_iff rfl (by simp)
    rw [hb] at hend hused
    rw [and_iff_right (by omega)]
    exact (not_congr hused).trans not_not

end Coalesce

theorem exists_free_before {k : HeapControl} (hk : (final (k.lastTile e) pre).kind = .free) :
    ∃ pre0 m, pre = pre0 ++ [⟨m, .free⟩] := by
  obtain rfl | ⟨pre0, ⟨m, k'⟩, hpre⟩ := eq_nil_or_concat pre
  · exact Kind.noConfusion hk
  · rw [concat_eq_append] at hpre
    rw [hpre, final_append] at hk
    cases hk
    exact ⟨pre0, m, hpre⟩

theorem exists_free_behind {k : HeapControl} (ht : rest ++ [k.lastTile e] = t :: post)
    (hk : t.kind = .free) : ∃ m rest0, rest = ⟨m, .free⟩ :: rest0 := by
  cases rest with
  | nil => obtain ⟨rfl, -⟩ := List.cons.inj ht; exact Kind.noConfusion hk
  | cons u rest =>
    obtain ⟨rfl, -⟩ := List.cons.inj ht
    obtain ⟨m, k'⟩ := u
    cases hk
    exact ⟨m, rest, rfl⟩

theorem free {allocBegin : ℕ} (L : Layout c h e none (pre ++ ⟨n, .used⟩ :: rest) fl)
    (hb : h.firstBlock + total pre = b) (hne : allocBegin ≠ 0)
    (hblock : c.blockOfAllocArea allocBegin h.pageSize = b) :
    (h.free c allocBegin).1 = true ∧ ∃ ts fl', Coalesced pre n rest ts ∧
      Layout c (h.free c allocBegin).2 e none ts fl' := by
  obtain ⟨t, post, ht, -⟩ := exists_next h.control e rest
  have hsize := L.size_at rfl
  have hadd := L.add_size rfl
  have hend := L.le_lastBlock rfl
  have hlast := L.lastBlock_lt
  have hflag : h.IsPrevUsed (h.firstBlock + total pre + n) :=
    (L.behind rfl (by simp)).prevUsed.mpr Kind.noConfusion
  simp only [hb] at hsize hadd hend hflag
  have hin : h.IsBlockInHeap b := ⟨by omega, by omega⟩
  have hin' : h.IsBlockInHeap (b + n) := ⟨by omega, by omega⟩
  have hplace : h.firstBlock + total (pre ++ [⟨n, .used⟩]) = b + n := by
    rw [total_append, total_one, ← add_assoc, hb]
  rw [append_cons] at L
  have hnext := L.nextIsFree_iff hplace ht
  have hmid := L.tiled_mid ht
  rw [hb, tiled_one] at hmid
  have hprev := hmid.1.2 (by simp)
  have hprevUsed : h.IsPrevUsed b ↔ (final (h.control.lastTile e) pre).kind ≠ .free :=
    hprev.prevUsed
  unfold Heap.free
  rw [if_neg hne]
  simp only [hblock, hsize, hadd, decide_eq_true_eq]
  rw [if_neg (not_not.mpr hin), if_neg (not_not.mpr hin'), if_neg (not_not.mpr hflag)]
  by_cases hp : (final (h.control.lastTile e) pre).kind = .free
  · obtain ⟨pre0, m, rfl⟩ := exists_free_before hp
    have hprevSize : (h.header b).prevSize = m := by
      have hs := hprev.prevSize hp
      rwa [final_append] at hs
    rw [total_append, total_one, ← add_assoc] at hb
    obtain ⟨a, ha⟩ : ∃ a, h.firstBlock + total pre0 = a := ⟨_, rfl⟩
    rw [ha] at hb
    subst hb
    have hsub : c.sub (a + m) m = a := by rw [sub_eq (by omega) (by omega), Nat.add_sub_cancel]
    have htiles : pre0 ++ [⟨m, .free⟩] ++ [⟨n, .used⟩] ++ rest =
        pre0 ++ [⟨m, .free⟩, ⟨n, .used⟩] ++ rest := by simp
    rw [htiles] at L
    have hina : h.IsBlockInHeap a := ⟨by omega, by omega⟩
    have hflaga : h.IsPrevUsed a := by
      have hmid := L.tiled_mid ht
      rw [ha] at hmid
      exact (hmid.1.2 (by simp)).prevUsed.mpr fun hk => (L.apart_mid ht).1 hk rfl
    rw [if_pos (mt hprevUsed.mp (not_not.mpr hp)), hprevSize, hsub, if_neg (not_not.mpr hina),
      if_neg (not_not.mpr hflaga)]
    by_cases hf : t.kind = .free
    · obtain ⟨k, rest0, rfl⟩ := exists_free_behind ht hf
      obtain ⟨rfl, -⟩ := List.cons.inj ht
      have hsize' : h.blockSize (a + m + n) = k := hmid.2.1
      have hsum : c.add (c.add n m) k = m + n + k := by
        change a + m + n + (k + total rest0) = h.lastBlock at hend
        rw [add_eq (a := n) (by omega), add_eq (by omega), add_comm n m]
      have htiles' : pre0 ++ [⟨m, .free⟩, ⟨n, .used⟩] ++ ⟨k, .free⟩ :: rest0 =
          pre0 ++ [⟨m, .free⟩, ⟨n, .used⟩, ⟨k, .free⟩] ++ rest0 := by simp
      rw [htiles'] at L
      rw [if_pos (hnext.mpr hf), hsize', hsum]
      obtain ⟨fl', L'⟩ := L.coalesceBoth ha
      exact ⟨rfl, _, fl', ⟨pre0, [⟨m, .free⟩], [⟨k, .free⟩], rest0, rfl, rfl, by simp,
        by simp [add_assoc]⟩, L'⟩
    · have hsum : c.add n m = m + n := by rw [add_eq (by omega), add_comm]
      rw [if_neg (mt hnext.mp hf), hsum, add_assoc]
      exact ⟨rfl, _, _, ⟨pre0, [⟨m, .free⟩], [], rest, rfl, rfl, by simp, by simp⟩,
        L.coalescePrev ha ht hf⟩
  · rw [if_neg (not_not.mpr (hprevUsed.mpr hp))]
    by_cases hf : t.kind = .free
    · obtain ⟨k, rest0, rfl⟩ := exists_free_behind ht hf
      obtain ⟨rfl, -⟩ := List.cons.inj ht
      have hsize' : h.blockSize (b + n) = k := hmid.2.1
      have hsum : c.add n k = n + k := by
        change b + n + (k + total rest0) = h.lastBlock at hend; exact add_eq (by omega)
      have htiles : pre ++ [⟨n, .used⟩] ++ ⟨k, .free⟩ :: rest0 =
          pre ++ [⟨n, .used⟩, ⟨k, .free⟩] ++ rest0 := by simp
      rw [htiles] at L
      rw [if_pos (hnext.mpr hf), hsize', hsum]
      obtain ⟨fl', L'⟩ := L.coalesceNext hb hp
      exact ⟨rfl, _, fl', ⟨pre, [], [⟨k, .free⟩], rest0, by simp, rfl, by simp, by simp⟩, L'⟩
    · rw [if_neg (mt hnext.mp hf)]
      exact ⟨rfl, _, _, ⟨pre, [], [], rest, by simp, rfl, by simp, by simp⟩,
        L.noCoalesce hb hp ht hf⟩

/-! ## Resizing -/

theorem swallow
    (L : Layout c h e none (pre ++ [⟨n, .used⟩, ⟨k, .free⟩] ++ rest) (fl1 ++ (b + n) :: fl2))
    (hb : h.firstBlock + total pre = b)
    (hfreeSize : (f h.stats).freeSize + k = h.stats.freeSize)
    (hfreeBlocks : (f h.stats).freeBlocks = decrement h.stats.freeBlocks)
    (hh' : h' =
      (((h.setSize b (n + k)).freeListRemove (b + n)).setFlag (b + (n + k))).withStats f) :
    Layout c h' e none (pre ++ [⟨n + k, .used⟩] ++ rest) (fl1 ++ fl2) ∧
      Changes h h' b (b + (n + k)) (fl1 ++ (b + n) :: fl2) ∧ h'.blockSize b = n + k := by
  obtain ⟨t, post, ht, -⟩ := exists_next h.control e rest
  have hblocks := L.isBlock_mid (by simp)
  have hn := hblocks ⟨n, .used⟩ (by simp)
  have hk := hblocks ⟨k, .free⟩ (by simp)
  have hblock : IsBlock h.control ⟨n + k, .used⟩ :=
    ⟨.inr rfl, Nat.dvd_add hn.pages hk.pages, Nat.le_trans hn.min (Nat.le_add_right n k)⟩
  have heven : 2 ∣ n + k := L.size_even hblock
  have hpos : 0 < n + k := L.size_pos hblock
  have hb1 : b ≠ b + (n + k) := by omega
  have hsizes : ∀ y, h'.blockSize y = if y = b then n + k else h.blockSize y := by
    intro y
    rw [hh', blockSize_withStats, blockSize_setFlag, blockSize_of_tags tags_freeListRemove,
      blockSize_setSize heven]
  have hflags : ∀ y, h'.IsPrevUsed y ↔ y = b + (n + k) ∨ h.IsPrevUsed y := by
    intro y
    rw [hh', isPrevUsed_withStats, isPrevUsed_setFlag, isPrevUsed_of_tags tags_freeListRemove,
      isPrevUsed_setSize heven]
  have hprevs : h'.prevSizeOf = h.prevSizeOf := by
    rw [hh', prevSizeOf_withStats, prevSizeOf_setFlag, prevSizeOf_of_tags tags_freeListRemove,
      prevSizeOf_setSize]
  have hapart := L.apart_mid ht
  have hmid := L.tiled_mid ht
  rw [hb, tiled_two] at hmid
  have hnexts : h'.nextOf = (h.freeListRemove (b + n)).nextOf := by
    rw [hh', nextOf_withStats, nextOf_setFlag, nextOf_freeListRemove, nextOf_setSize,
      prevOf_setSize, ← nextOf_freeListRemove]
  have hlinks : h'.prevOf = (h.freeListRemove (b + n)).prevOf := by
    rw [hh', prevOf_withStats, prevOf_setFlag, prevOf_freeListRemove, nextOf_setSize,
      prevOf_setSize, ← prevOf_freeListRemove]
  refine ⟨L.splice ht hb total_two total_one (by simp) (by simp) ?_ ?_ (hh' ▸ rfl) ?_ ?_ ?_ ?_ ?_
    ?_ ?_ ?_, ⟨?_, fun y _ => congrFun hprevs y, ?_⟩, (hsizes b).trans (if_pos rfl)⟩
  · simpa using hblock
  · exact ⟨hapart.1, fun hk => Kind.noConfusion hk, trivial⟩
  · intro x hx; cases hx
  · intro x hx
    have hx1 : x ≠ b := by omega
    have hx2 : x ≠ b + (n + k) := by omega
    exact ⟨(hsizes x).trans (if_neg hx1), (hflags x).trans (or_iff_right hx2), congrFun hprevs x⟩
  · rw [hprevs]
  · refine tiled_one.mpr ⟨⟨?_, fun _ => ?_⟩, ?_, fun _ => ⟨?_, fun hk => Kind.noConfusion hk⟩⟩
    · exact (hsizes b).trans (if_pos rfl)
    · exact (hmid.1.2 (by simp)).congr ((hflags b).trans (or_iff_right hb1)) (congrFun hprevs b)
    · exact (hsizes _).trans ((if_neg hb1.symm).trans hmid.2.2.1)
    · exact (hflags _).trans (iff_of_true (.inl rfl) Kind.noConfusion)
  · rw [hnexts, hlinks]; exact L.circle_remove
  · exact perm_remove
  · exact hh' ▸ hfreeSize
  · exact hh' ▸ hfreeBlocks.trans L.decrement_freeBlocks
  · intro y hy _ hy2; exact ⟨(hsizes y).trans (if_neg hy), (hflags y).trans (or_iff_right hy2)⟩
  · intro y hy _
    have hcircle := L.circle
    rw [map_append, map_cons] at hcircle
    obtain ⟨hp, hn⟩ := hcircle.neighbours
    simp only [mem_append, mem_cons, not_or] at hy
    have hyp : block y ≠ h.prevOf (.block (b + n)) := by
      intro he; rw [← he] at hp; exact hy.1 (by simpa using hp)
    have hyn : block y ≠ h.nextOf (.block (b + n)) := by
      intro he; rw [← he] at hn; exact hy.2.2 (by simpa using hn)
    rw [hnexts, hlinks, nextOf_freeListRemove, prevOf_freeListRemove, update_of_ne hyp,
      update_of_ne hyn]
    exact ⟨rfl, rfl⟩

theorem blockAllocate_used {allocSize allocBegin : ℕ}
    (L : Layout c h e none (pre ++ [⟨n, .used⟩] ++ rest) fl)
    (hb : h.firstBlock + total pre = b) (he : e = c.sub h.firstBlock h.lastBlock)
    (ht : rest ++ [h.control.lastTile e] = t :: post) (hfree : t.kind ≠ .free)
    (hlow : b + c.headerSize ≤ allocBegin) (hpage : allocBegin < b + c.headerSize + h.pageSize)
    (hsize : allocBegin + allocSize ≤ b + n + c.allocBonus) :
    let r := h.blockAllocate c b allocBegin allocSize
    r.2.stats.usedBlocks = h.stats.usedBlocks ∧ r.1 = b ∧
      allocBegin + allocSize ≤ b + r.2.blockSize b + c.allocBonus ∧
      (r.2.blockSize b = n ∨ r.2.blockSize b + 4 * c.word ≤ n) ∧
      Changes h r.2 b (b + n) fl ∧
      ∃ mid fl', Taken b n b mid ∧ Layout c r.2 e none (pre ++ mid ++ rest) fl' := by
  intro r
  have hts : pre ++ [⟨n, .used⟩] ++ rest = pre ++ ⟨n, .used⟩ :: rest := by simp
  have hend := L.le_lastBlock hts
  have hlast := L.lastBlock_lt
  have hused := (L.isUsed_iff hts (by simp)).mpr Kind.noConfusion
  simp only [hb] at hend hused
  rw [Cpu.allocBonus] at hsize
  have hoffset := sub_allocArea hlow (by omega)
  have hsum : c.add allocSize (allocBegin - (b + c.headerSize)) + c.headerSize ≤
      n + c.allocBonus := by
    rw [add_eq (by omega), Cpu.allocBonus]
    omega
  have L0 : Layout c h e (some (b + n)) (pre ++ [⟨n, .used⟩] ++ rest) ([] ++ fl) := L.weaken
  have hanchor : (freeList :: ([] : List ℕ).map .block).getLast? = some .freeList := rfl
  obtain ⟨mid, fl', hcut, L', hchanges⟩ := L0.blockSplit hb he ht hfree hanchor hsum
  obtain ⟨hroom, hle⟩ := hcut.room (b := b) L' (by rw [firstBlock_blockSplit]; exact hb)
  have hresult : r = (b, (h.blockSplit c b .freeList
      (c.add allocSize (allocBegin - (b + c.headerSize)))).minFree) := by
    unfold r Heap.blockAllocate
    simp only [if_neg (not_not.mpr hused), hoffset]
    rw [if_pos (by omega)]
    rfl
  refine ⟨(blockAllocate_spec ..).2.trans (if_pos hused), ?_⟩
  rw [hresult]
  refine ⟨rfl, ?_, hle, ⟨hchanges.size, hchanges.prevSize, hchanges.links⟩, mid, fl', hcut.taken,
    L'.withStats (f := fun s => { s with minFreeSize := min s.minFreeSize s.freeSize }) rfl rfl⟩
  change _ ≤ b + (h.blockSplit c b .freeList _).blockSize b + c.allocBonus
  have hadd : c.add allocSize (allocBegin - (b + c.headerSize)) =
      allocSize + (allocBegin - (b + c.headerSize)) := add_eq (by omega)
  omega

end Layout

/-- The block at `b` took a part of the free block behind, or left one. -/
def Resized (b : ℕ) (pre : List Tile) (n : ℕ) (rest ts : List Tile) : Prop :=
  ∃ behind mid rest₀, rest = behind ++ rest₀ ∧ (∀ t ∈ behind, t.kind = .free) ∧
    Taken b (n + total behind) b mid ∧ ts = pre ++ mid ++ rest₀

theorem Resized.same : Resized b pre n rest (pre ++ [⟨n, .used⟩] ++ rest) :=
  ⟨[], [⟨n, .used⟩], rest, rfl, by simp, ⟨total_one, by simp, rfl⟩, rfl⟩

/-- What `_Heap_Resize_block` returns, with a free block of size `k` behind or not. -/
inductive Resizing (c : Cpu) (h : Heap) (b n k allocBegin newAllocSize : ℕ) (fl : List ℕ) :
    HeapResizeStatus × ℕ × ℕ × Heap → Prop
  | unsatisfied (hsize : b + n + c.allocBonus - allocBegin + k < newAllocSize) :
    Resizing c h b n k allocBegin newAllocSize fl
      (.unsatisfied, b + n + c.allocBonus - allocBegin, 0, h)
  | successful (h' : Heap) (hsize : newAllocSize ≤ b + n + c.allocBonus - allocBegin + k)
    (hroom : allocBegin + newAllocSize ≤ b + h'.blockSize b + c.allocBonus)
    (hle : h'.blockSize b = n + k ∨ h'.blockSize b + 4 * c.word ≤ n + k)
    (hfree : k = 0 ∨ b + n ∈ fl ∧ h.blockSize (b + n) = k)
    (hchanges : Changes h h' b (b + (n + k)) fl) :
    Resizing c h b n k allocBegin newAllocSize fl (.successful, b + n + c.allocBonus - allocBegin,
      b + h'.blockSize b + c.allocBonus - allocBegin, h')

theorem Resizing.withStats {k allocBegin newAllocSize : ℕ}
    (hr : Resizing c h b n k allocBegin newAllocSize fl (.successful, x, y, h')) :
    Resizing c h b n k allocBegin newAllocSize fl (.successful, x, y, h'.withStats f) := by
  cases hr with
  | successful _ hsize hroom hle hfree hchanges =>
    exact .successful (h'.withStats f) hsize hroom hle hfree
      ⟨hchanges.size, hchanges.prevSize, hchanges.links⟩

theorem Heap.newSize_eq {allocBegin : ℕ} (hlt : allocBegin < c.modulus)
    (hle : allocBegin ≤ b + n + c.allocBonus) (htop : b + n + c.allocBonus < c.modulus) :
    c.add (c.sub (c.add b n) allocBegin) c.allocBonus = b + n + c.allocBonus - allocBegin := by
  rw [add_eq (a := b) (by omega)]
  exact add_sub hlt hle htop

namespace Layout

theorem resizeBlock {allocBegin newAllocSize : ℕ}
    (L : Layout c h e none (pre ++ ⟨n, .used⟩ :: rest) fl)
    (hb : h.firstBlock + total pre = b) (he : e = c.sub h.firstBlock h.lastBlock)
    (hblock : c.blockOfAllocArea allocBegin h.pageSize = b)
    (hlow : b + c.headerSize ≤ allocBegin) (hpage : allocBegin < b + c.headerSize + h.pageSize)
    (hlt : allocBegin < c.modulus)
    (hok : allocBegin ≤ b + n + c.allocBonus ∨ ¬ h.IsUsed c (b + n)) :
    (h.resizeBlock c allocBegin newAllocSize).2.2.2.stats.usedBlocks = h.stats.usedBlocks ∧
      (∃ ts fl', Resized b pre n rest ts ∧
        Layout c (h.resizeBlock c allocBegin newAllocSize).2.2.2 e none ts fl') ∧
      (allocBegin ≤ b + n + c.allocBonus →
        Resizing c h b n (if h.IsUsed c (b + n) then 0 else h.blockSize (b + n)) allocBegin
          newAllocSize fl (h.resizeBlock c allocBegin newAllocSize)) := by
  obtain ⟨t, post, ht, -⟩ := exists_next h.control e rest
  have hsize := L.size_at rfl
  have hadd := L.add_size rfl
  have hend := L.le_lastBlock rfl
  have hlast := L.lastBlock_lt
  simp only [hb] at hsize hadd hend
  have hin : h.IsBlockInHeap b := ⟨by omega, by omega⟩
  rw [append_cons] at L
  have hnext := L.isUsed_next he ht (by simp)
  rw [total_append, total_one, ← add_assoc, hb] at hnext
  unfold Heap.resizeBlock
  simp only [hblock]
  rw [if_pos hin]
  unfold Heap.resizeBlockChecked
  simp only [hsize, hadd]
  by_cases hf : t.kind = .free
  · obtain ⟨k, rest0, rfl⟩ := exists_free_behind ht hf
    have hunused : ¬ h.IsUsed c (b + n) := fun hu => hnext.mp hu hf
    have htiles : pre ++ [⟨n, .used⟩] ++ ⟨k, .free⟩ :: rest0 =
        pre ++ [⟨n, .used⟩, ⟨k, .free⟩] ++ rest0 := by simp
    have hplace : h.firstBlock + total (pre ++ [⟨n, .used⟩]) = b + n := by
      rw [total_append, total_one, ← add_assoc, hb]
    have hsize' := L.size_at rfl
    obtain ⟨fl1, fl2, rfl⟩ := L.mem_of_free rfl rfl
    rw [hplace] at hsize' L ⊢
    rw [htiles] at L
    have hn := L.isBlock_mid (by simp) ⟨n, .used⟩ (by simp)
    have hk := L.isBlock_mid (by simp) ⟨k, .free⟩ (by simp)
    -- the area ends before the end of the free block
    have hle : allocBegin ≤ b + n + (c.allocBonus + k) := by
      have hmin := L.geometry.header_min
      have hp : h.pageSize ≤ h.minBlockSize :=
        le_of_dvd (by have := c.word_pos; exact lt_of_lt_of_le (by omega) hmin) L.geometry.page_min
      have hn' : h.minBlockSize ≤ n := hn.min
      have hk' : h.minBlockSize ≤ k := hk.min
      have hmin' : 4 * c.word ≤ h.minBlockSize := hmin
      rw [Cpu.headerSize] at hpage
      omega
    change b + n + (k + total rest0) = h.lastBlock at hend
    have harea : c.add (c.sub (b + n) allocBegin) (c.allocBonus + k) =
        b + n + (c.allocBonus + k) - allocBegin :=
      add_sub hlt hle (by rw [Cpu.allocBonus]; omega)
    have hsum : c.add n k = n + k := add_eq (by omega)
    have hsum' : c.add b (n + k) = b + (n + k) := add_eq (by omega)
    simp only [hunused, not_false_eq_true, decide_true, if_true, hsize', add_add, harea, hsum,
      hsum', if_false]
    by_cases hs : b + n + (c.allocBonus + k) - allocBegin < newAllocSize
    · rw [if_pos hs]
      rw [← htiles] at L
      refine ⟨rfl, ⟨_, _, .same, L⟩, fun hle' => ?_⟩
      rw [add_sub hlt hle' (by rw [Cpu.allocBonus]; omega)]
      exact .unsatisfied (by omega)
    · rw [if_neg hs]
      obtain ⟨u, post0, hu, -⟩ := exists_next h.control e rest0
      obtain ⟨L1, hchanges, hend'⟩ := L.swallow (f := fun s =>
        { s with
          freeBlocks := decrement s.freeBlocks
          freeSize := c.sub s.freeSize k }) hb (L.sub_freeSize htiles.symm) rfl rfl
      obtain ⟨hcount, hsame, hroom, hmost, hchanges', mid, fl', htaken, L'⟩ :=
        L1.blockAllocate_used hb he hu ((L.apart_mid hu).2.2.1 rfl) hlow hpage
          (show allocBegin + newAllocSize ≤ b + (n + k) + c.allocBonus by omega)
      refine ⟨hcount, ⟨_, fl', ⟨[⟨k, .free⟩], mid, rest0, rfl, by simp, ?_, rfl⟩, ?_⟩, fun hle' => ?_⟩
      · rwa [total_one]
      · exact L'.withStats (f := fun s => { s with resizes := increment s.resizes }) rfl rfl
      · have hnew := newSize_eq hlt (le_of_add_right_le hroom) (by rw [Cpu.allocBonus]; omega)
        rw [add_sub hlt hle' (by rw [Cpu.allocBonus]; omega), hsame, hnew]
        exact .withStats (.successful _ (by omega) hroom hmost (.inr ⟨by simp, hsize'⟩)
          (hchanges.trans (by rw [hend']) hchanges' (by simp)))
  · have hused := hnext.mpr hf
    have hle := hok.resolve_right (not_not.mpr hused)
    have harea : c.add (c.sub (b + n) allocBegin) c.allocBonus =
        b + n + c.allocBonus - allocBegin := add_sub hlt hle (by rw [Cpu.allocBonus]; omega)
    simp only [hused, not_true_eq_false, decide_false, Bool.false_eq_true, if_false, harea, if_true]
    by_cases hs : b + n + c.allocBonus - allocBegin < newAllocSize
    · rw [if_pos hs]; exact ⟨rfl, ⟨_, fl, .same, L⟩, fun _ => .unsatisfied hs⟩
    · rw [if_neg hs]
      obtain ⟨hcount, hsame, hroom, hmost, hchanges, mid, fl', htaken, L'⟩ :=
        L.blockAllocate_used hb he ht hf hlow hpage
          (show allocBegin + newAllocSize ≤ b + n + c.allocBonus by omega)
      refine ⟨hcount, ⟨_, fl', ⟨[], mid, rest, rfl, by simp, htaken, rfl⟩, ?_⟩, fun _ => ?_⟩
      · exact L'.withStats (f := fun s => { s with resizes := increment s.resizes }) rfl rfl
      · have hnew := newSize_eq hlt (le_of_add_right_le hroom) (by rw [Cpu.allocBonus]; omega)
        rw [hsame, hnew]
        exact .withStats (.successful _ (Nat.le_of_not_lt hs) hroom hmost (.inl rfl) hchanges)

end Layout

theorem Heap.control_resizeBlock {allocBegin newAllocSize : ℕ} :
    (h.resizeBlock c allocBegin newAllocSize).2.2.2.control = h.control := by
  unfold resizeBlock
  dsimp only
  split_ifs
  · unfold resizeBlockChecked
    dsimp only
    split_ifs
    · rfl
    · exact (blockAllocate_spec ..).1
    · rfl
    · exact (blockAllocate_spec ..).1
  · rfl

end Rtems
