import Rtems.Score.HeapAllocate

/-!
# Runs of a heap

* **`getFirstAndLastBlock_spec`**, **`Layout.initial`**: the layout of a new heap;
* `Ok`: the blocks that are used are those that the users have got;
* **`Ok.step`**: an allocation, a free and a resize keep this;
* **`one_block_of_freed`**: nothing is lost.
-/

namespace Rtems

open BoundaryTag Circular PartialRun List Heap Cpu

variable {c : Cpu}

/-! ## A new heap -/

namespace Cpu

theorem overhead_eq {a x : ℕ} (ha : a ≤ c.modulus) :
    c.add c.headerSize (c.sub (c.sub x c.headerSize) a) = c.sub x a := by
  have hw := c.le_modulus
  have hh : c.headerSize = 2 * c.word := rfl
  have h1 : (x + c.modulus - c.headerSize) % c.modulus + c.modulus - a =
      (x + c.modulus - c.headerSize) % c.modulus + (c.modulus - a) := by omega
  have h2 : c.headerSize + (x + c.modulus - c.headerSize + (c.modulus - a)) =
      x + c.modulus - a + c.modulus := by omega
  rw [add, sub, sub, h1, Nat.mod_add_mod, Nat.add_mod_mod, h2, Nat.add_mod_right]
  rfl

end Cpu

structure AreaBlocks (c : Cpu) (p M areaBegin areaSize first last : ℕ) : Prop where
  lt : areaBegin + areaSize < c.modulus
  low : areaBegin ≤ first
  near : first < areaBegin + p
  page : p ∣ first + c.headerSize
  le : first + M ≤ last
  pages : p ∣ last - first
  high : last + c.headerSize ≤ areaBegin + areaSize
  nearEnd : areaBegin + areaSize < last + c.headerSize + p

variable {p areaBegin areaSize : ℕ} {α : Type}

theorem alignUp_area (hp : 0 < p) (hp' : p < c.modulus)
    (ha : areaBegin < c.modulus) (hlt : areaBegin + areaSize < c.modulus)
    (hover : c.sub (c.alignUp (areaBegin + c.headerSize) p) areaBegin < areaSize)
    (hroom : p ≤ areaSize ∧ 4 * c.word ≤ areaSize) :
    p ∣ c.alignUp (areaBegin + c.headerSize) p ∧
      areaBegin + c.headerSize ≤ c.alignUp (areaBegin + c.headerSize) p ∧
      c.alignUp (areaBegin + c.headerSize) p < areaBegin + c.headerSize + p := by
  have hh : c.headerSize = 2 * c.word := rfl
  have hrle := Nat.mod_le (areaBegin + c.headerSize) p
  refine alignUp_bounds hp (by omega) fun hne => ?_
  by_contra hwrap
  -- the aligned begin wraps around: then the overhead is the distance to it, or also wraps around
  have hup : c.alignUp (areaBegin + c.headerSize) p = areaBegin + c.headerSize -
      (areaBegin + c.headerSize) % p + p - c.modulus := by
    rw [Cpu.alignUp]
    simp only [ne_eq, hne, not_false_eq_true, if_true]
    rw [sub_eq hrle (by omega), Cpu.add, Nat.mod_eq_sub_mod (by omega), Nat.mod_eq_of_lt (by omega)]
  have hsub : c.sub (c.alignUp (areaBegin + c.headerSize) p) areaBegin =
      (c.headerSize + p - (areaBegin + c.headerSize) % p) % c.modulus := by
    rw [hup, Cpu.sub]
    congr 1
    omega
  rw [hsub] at hover
  by_cases hlt' : c.headerSize + p - (areaBegin + c.headerSize) % p < c.modulus
  · rw [Nat.mod_eq_of_lt hlt'] at hover; omega
  · have hsmall : (areaBegin + c.headerSize) % p = areaBegin + c.headerSize :=
      Nat.mod_eq_of_lt (by omega)
    omega

theorem getFirstAndLastBlock_spec {M first last : ℕ} (hp : 0 < p)
    (hp' : p < c.modulus) (hpM : p ≤ M) (hM : 4 * c.word ≤ M) (ha : areaBegin < c.modulus)
    (hs : areaSize < c.modulus)
    (hget : getFirstAndLastBlock c areaBegin areaSize p M = some (first, last)) :
    AreaBlocks c p M areaBegin areaSize first last := by
  have hh : c.headerSize = 2 * c.word := rfl
  unfold getFirstAndLastBlock at hget
  dsimp only at hget
  rw [overhead_eq (Nat.le_of_lt ha)] at hget
  split_ifs at hget with hfail
  simp only [not_or, Nat.not_lt, Nat.not_le] at hfail
  obtain ⟨hend, hover, hsize⟩ := hfail
  have hlt : areaBegin + areaSize < c.modulus := by
    by_contra hge
    rw [Cpu.add, Nat.mod_eq_sub_mod (by omega), Nat.mod_eq_of_lt (by omega)] at hend
    omega
  rw [sub_eq (Nat.le_of_lt hover) hs] at hsize hget
  have hdown := alignDown_le
    (areaSize - c.sub (c.alignUp (c.add areaBegin c.headerSize) p) areaBegin) p
  have hadd : c.add areaBegin c.headerSize = areaBegin + c.headerSize := add_eq (by omega)
  rw [hadd] at hover hsize hget hdown
  obtain ⟨hdvd, hge, hnear⟩ := alignUp_area hp hp' ha hlt hover (by omega)
  have hx : c.alignUp (areaBegin + c.headerSize) p < c.modulus := alignUp_lt (by omega)
  generalize c.alignUp (areaBegin + c.headerSize) p = x at *
  have hoverhead : c.sub x areaBegin = x - areaBegin := sub_eq (by omega) hx
  have hfirst : c.sub x c.headerSize = x - c.headerSize := sub_eq (by omega) hx
  rw [hoverhead] at hover hsize hdown hget
  rw [hfirst] at hget
  have hnearEnd := lt_alignDown (v := areaSize - (x - areaBegin)) hp
  have hpages := dvd_alignDown (areaSize - (x - areaBegin)) p
  generalize Cpu.alignDown (areaSize - (x - areaBegin)) p = n at *
  rw [add_eq (by omega)] at hget
  cases hget
  have hsub : x - c.headerSize + n - (x - c.headerSize) = n := by omega
  have hcancel : x - c.headerSize + c.headerSize = x := by omega
  exact ⟨hlt, by omega, by omega, hcancel.symm ▸ hdvd, by omega, hsub.symm ▸ hpages, by omega,
    by omega⟩

theorem page_spec (hp : p < c.modulus)
    (hle : c.alignment ≤ if p = 0 then c.alignment else c.alignUp p c.alignment) :
    2 ∣ (if p = 0 then c.alignment else c.alignUp p c.alignment) ∧
      (if p = 0 then c.alignment else c.alignUp p c.alignment) < c.modulus := by
  have hlt := c.alignment_lt
  have hpos := c.alignment_pos
  split_ifs at hle ⊢ with h0
  · exact ⟨c.alignment_even, hlt⟩
  · have hrle := Nat.mod_le p c.alignment
    refine ⟨Nat.dvd_trans c.alignment_even (alignUp_bounds hpos hp fun hne => ?_).1, alignUp_lt hp⟩
    by_contra hwrap
    have hup : c.alignUp p c.alignment = p - p % c.alignment + c.alignment - c.modulus := by
      rw [Cpu.alignUp]
      simp only [ne_eq, hne, not_false_eq_true, if_true]
      rw [sub_eq hrle hp, Cpu.add, Nat.mod_eq_sub_mod (by omega),
        Nat.mod_eq_of_lt (by rw [Cpu.modulus] at *; omega)]
    omega

theorem minBlockSize_spec (hp : 0 < p) (hlt : p < c.modulus) :
    p ∣ c.minBlockSize p ∧ 4 * c.word ≤ c.minBlockSize p := by
  have hw := c.le_modulus
  have hspec := alignUp_bounds (c := c) (v := 4 * c.word) hp (by omega) (by
    intro _
    by_cases hle : p ≤ 4 * c.word
    · omega
    · rw [Nat.mod_eq_of_lt (by omega), Nat.sub_self]
      omega)
  exact ⟨hspec.1, hspec.2.1⟩

theorem Layout.lastHeader {h : Heap} {n : ℕ} (hg : Geometry c h.control [⟨n, .free⟩])
    (hsize : h.blockSize h.firstBlock = n) (hflag : h.IsPrevUsed h.firstBlock)
    (hstart : h.prevSizeOf h.firstBlock = h.areaEnd)
    (hnext : h.nextOf .freeList = .block h.firstBlock ∧
      h.nextOf (.block h.firstBlock) = .freeList)
    (hprev : h.prevOf .freeList = .block h.firstBlock ∧
      h.prevOf (.block h.firstBlock) = .freeList)
    (hfreeSize : h.stats.freeSize = n) (hfreeBlocks : h.stats.freeBlocks = 1) :
    Layout c (((h.setPrevSize h.lastBlock n).setSizeAndFlag h.lastBlock 0).setLastBlockSize c)
      (c.sub h.firstBlock h.lastBlock) none [⟨n, .free⟩] [h.firstBlock] := by
  have hends : h.firstBlock + n = h.lastBlock := by
    have hends := hg.ends
    rwa [total_one] at hends
  have hlast : h.lastBlock + 2 * c.word < c.modulus := hg.last_lt
  have hpos : 0 < n := hg.pos ⟨n, .free⟩ (by simp)
  have heven : 2 ∣ n := hg.even (t := ⟨n, .free⟩) (by simp)
  have hclosed : 2 ∣ c.sub h.firstBlock h.lastBlock := by
    rw [← hends, sub_lt hpos (by omega)]; exact Nat.dvd_sub c.two_dvd_modulus heven
  have hne : h.firstBlock ≠ h.lastBlock := by omega
  set h' := ((h.setPrevSize h.lastBlock n).setSizeAndFlag h.lastBlock 0).setLastBlockSize c
    with hh'
  have hsizes : ∀ y, h'.blockSize y =
      if y = h.lastBlock then c.sub h.firstBlock h.lastBlock else h.blockSize y := by
    intro y
    refine (blockSize_setSize hclosed).trans ?_
    change (if y = h.lastBlock then _ else _) = _
    rw [blockSize_setSizeAndFlag, blockSize_setPrevSize]
    split_ifs
    · rfl
    · rfl
  have hflags : ∀ y, h'.IsPrevUsed y ↔ y ≠ h.lastBlock ∧ h.IsPrevUsed y := by
    intro y
    refine (isPrevUsed_setSize hclosed).trans ?_
    by_cases hy : y = h.lastBlock
    · simp [hy]
    · simp [hy]
  have hprevs : ∀ y, h'.prevSizeOf y = if y = h.lastBlock then n else h.prevSizeOf y := by
    intro y
    rw [hh', Heap.setLastBlockSize, prevSizeOf_setSize, prevSizeOf_setSizeAndFlag,
      prevSizeOf_setPrevSize]
  refine
    { geometry := hg
      tiled := ?_
      starts := ?_
      circle := ⟨?_, by simp⟩
      members := .refl _
      freeSize := hfreeSize
      freeBlocks := hfreeBlocks }
  · refine tiled_one.mpr ⟨⟨?_, fun _ => ⟨?_, fun hk => Kind.noConfusion hk⟩⟩, ?_,
      fun _ => ⟨?_, fun _ => ?_⟩⟩
    · exact (hsizes _).trans ((if_neg hne).trans hsize)
    · exact (hflags _).trans (iff_of_true ⟨hne, hflag⟩ Kind.noConfusion)
    · change h'.blockSize (h.firstBlock + n) = _; rw [hends]; exact (hsizes _).trans (if_pos rfl)
    · change h'.IsPrevUsed (h.firstBlock + n) ↔ _
      rw [hends]
      exact (hflags _).trans (iff_of_false (fun hl => hl.1 rfl) fun hk => hk rfl)
    · change h'.prevSizeOf (h.firstBlock + n) = _
      rw [hends]
      exact (hprevs _).trans (if_pos rfl)
  · intro s hs; rw [mem_singleton.mp hs]; exact (hprevs _).trans ((if_neg hne).trans hstart)
  · have hlinks : h'.nextOf = h.nextOf ∧ h'.prevOf = h.prevOf := by
      rw [hh', Heap.setLastBlockSize]; simp
    rw [hlinks.1, hlinks.2]
    exact .cons_cons ⟨hnext.1, hprev.2⟩ (.cons_cons ⟨hnext.2, hprev.1⟩ (.singleton _))

theorem Layout.initial {memory : HeapRef → HeapBlock} {pageSize : ℕ} {h : Heap}
    (ha : areaBegin < c.modulus) (hs : areaSize < c.modulus) (hp : pageSize < c.modulus)
    (hh : Heap.initial c memory areaBegin areaSize pageSize = some h) :
    (∃ n, Layout c h (c.sub h.firstBlock h.lastBlock) none [⟨n, .free⟩] [h.firstBlock]) ∧
      AreaBlocks c h.pageSize h.minBlockSize areaBegin areaSize h.firstBlock h.lastBlock ∧
      h.areaBegin = areaBegin ∧ h.areaEnd = areaBegin + areaSize ∧ h.stats.usedBlocks = 0 := by
  unfold Heap.initial at hh
  dsimp only at hh
  generalize hpage : (if pageSize = 0 then c.alignment else c.alignUp pageSize c.alignment) = p
    at hh
  split_ifs at hh with hsmall
  have hspec := page_spec hp (by rw [hpage]; omega)
  rw [hpage] at hspec
  have hpos : 0 < p := by have := c.alignment_pos; omega
  obtain ⟨hpM, hM⟩ := minBlockSize_spec hpos hspec.2
  obtain ⟨⟨first, last⟩, hget, hh⟩ := Option.bind_eq_some_iff.mp hh
  have hblocks := getFirstAndLastBlock_spec hpos hspec.2
    (Nat.le_of_dvd (by have := c.word_pos; omega) hpM) hM ha hs hget
  obtain ⟨n, hn⟩ : ∃ n, last = first + n := ⟨last - first, by have := hblocks.le; omega⟩
  have hhigh := hblocks.high
  have hlt := hblocks.lt
  have hle := hblocks.le
  have hpages := hblocks.pages
  have hw := c.word_pos
  subst hn
  rw [Nat.add_sub_cancel_left] at hpages
  have hsub : c.sub (first + n) first = n := by
    rw [sub_eq (by omega) (by omega), Nat.add_sub_cancel_left]
  have hend : c.add areaBegin areaSize = areaBegin + areaSize := add_eq hlt
  have heven : 2 ∣ n := Nat.dvd_trans hspec.1 hpages
  simp only [hsub, hend] at hh
  cases hh
  refine ⟨⟨n, .lastHeader ⟨hspec.1, hpos, hpM, hM, hblocks.page, by rw [total_one]; rfl, hhigh, hlt,
    by simp, ?_, ?_, ?_, ⟨fun hk => Kind.noConfusion hk, trivial⟩⟩ ?_ ?_ ?_ ?_ ?_ rfl rfl⟩, hblocks,
    rfl, rfl, rfl⟩
  · simpa using show 0 < n by omega
  · intro t ht; rw [mem_singleton.mp ht]; exact hpages
  · intro t ht _; rw [mem_singleton.mp ht]; exact Nat.le_of_add_le_add_left hle
  · simp [Heap.blockSize, Heap.header, withoutFlag_withFlag, withoutFlag_even heven]
  · simp [Heap.IsPrevUsed, Heap.header, withFlag_mod]
  · simp [Heap.prevSizeOf, Heap.header]
  · simp [Heap.nextOf]
  · simp [Heap.prevOf]

/-! ## Tiles of an operation -/

section Tiles

variable {pre mid rest ts : List Tile} {f a b n block : ℕ} {u : Tile}

theorem Taken.spans_eq (h : Taken b n block mid) : spans f a (pre ++ mid ++ rest ++ [u]) =
      spans f a (pre ++ [⟨n, .free⟩] ++ rest ++ [u]) := by
  rw [append_assoc, append_assoc (pre ++ [_])]
  exact spans_splice (by simp) h.blocks (h.sum.trans total_one.symm)

theorem Taken.used_addresses (h : Taken (a + total pre) n block mid) :
    (addresses isUsed a (pre ++ mid ++ rest)).Perm
      (block :: addresses isUsed a (pre ++ [⟨n, .free⟩] ++ rest)) := by
  have hmid : total (pre ++ [(⟨n, .free⟩ : Tile)]) = total (pre ++ mid) := by
    rw [total_append, total_append, h.sum, total_one]
  have hfree : addresses isUsed (a + total pre) [⟨n, .free⟩] = [] := rfl
  rw [addresses_append, addresses_append, h.used, addresses_append, addresses_append, hfree,
    append_nil, hmid, append_assoc]
  exact perm_middle

theorem Coalesced.spans_eq (h : Coalesced pre n rest ts) :
    spans f a (ts ++ [u]) = spans f a (pre ++ ⟨n, .used⟩ :: rest ++ [u]) := by
  obtain ⟨pre0, before, behind, rest0, rfl, rfl, hfree, rfl⟩ := h
  have hlist : pre0 ++ before ++ ⟨n, .used⟩ :: (behind ++ rest0) ++ [u] =
      pre0 ++ (before ++ [⟨n, .used⟩] ++ behind) ++ (rest0 ++ [u]) := by simp
  rw [hlist, append_assoc]
  refine spans_splice ?_ (by simp) total_one
  intro t ht
  simp only [mem_append, mem_singleton] at ht hfree
  rcases ht with (ht | rfl) | ht
  · exact .inl (hfree t (.inl ht))
  · exact .inr rfl
  · exact .inl (hfree t (.inr ht))

theorem Coalesced.used_addresses (h : Coalesced pre n rest ts) :
    (addresses isUsed a (pre ++ ⟨n, .used⟩ :: rest)).Perm
      ((a + total pre) :: addresses isUsed a ts) := by
  obtain ⟨pre0, before, behind, rest0, rfl, rfl, hfree, rfl⟩ := h
  have hnone : ∀ us x, (∀ t ∈ us, t.kind = .free) → addresses isUsed x us = [] := by
    intro us x hus
    refine addresses_eq_nil fun t ht => ?_
    rw [hus t ht]
    rfl
  have hused : ∀ x us, addresses isUsed x (⟨n, .used⟩ :: us) =
      x :: addresses isUsed (x + n) us := fun x us => rfl
  have hbefore := hnone before (a + total pre0) fun t ht => hfree t (mem_append_left _ ht)
  have hbehind := hnone behind (a + total (pre0 ++ before) + n)
    fun t ht => hfree t (mem_append_right _ ht)
  have hone := hnone [⟨total (before ++ [⟨n, .used⟩] ++ behind), .free⟩] (a + total pre0) (by simp)
  have hplace : a + total (pre0 ++ [⟨total (before ++ [⟨n, .used⟩] ++ behind), .free⟩]) =
      a + total (pre0 ++ before) + n + total behind := by
    simp only [total_append, total_one]
    omega
  rw [addresses_append, addresses_append, hbefore, append_nil, hused, addresses_append, hbehind,
    nil_append, addresses_append, addresses_append, hone, append_nil, hplace]
  exact perm_middle

theorem Resized.spans_eq (h : Resized b pre n rest ts) :
    spans f a (ts ++ [u]) = spans f a (pre ++ ⟨n, .used⟩ :: rest ++ [u]) := by
  obtain ⟨behind, mid, rest0, rfl, hfree, htaken, rfl⟩ := h
  have hlist : pre ++ ⟨n, .used⟩ :: (behind ++ rest0) ++ [u] =
      pre ++ (⟨n, .used⟩ :: behind) ++ (rest0 ++ [u]) := by simp
  rw [hlist, append_assoc]
  refine spans_splice ?_ htaken.blocks htaken.sum
  intro t ht
  rcases mem_cons.mp ht with rfl | ht
  · exact .inr rfl
  · exact .inl (hfree t ht)

theorem Resized.used_addresses (h : Resized (a + total pre) pre n rest ts) :
    addresses isUsed a ts = addresses isUsed a (pre ++ ⟨n, .used⟩ :: rest) := by
  obtain ⟨behind, mid, rest0, rfl, hfree, htaken, rfl⟩ := h
  have hnone : addresses isUsed (a + total pre + n) behind = [] := by
    refine addresses_eq_nil fun t ht => ?_
    rw [hfree t ht]
    rfl
  have hused : addresses isUsed (a + total pre) (⟨n, .used⟩ :: (behind ++ rest0)) =
      (a + total pre) :: addresses isUsed (a + total pre + n) (behind ++ rest0) := rfl
  rw [addresses_append, addresses_append, htaken.used, addresses_append, hused, addresses_append,
    hnone, nil_append, total_append, htaken.sum, append_assoc, singleton_append]
  simp only [Nat.add_assoc]

end Tiles

/-! ## Users -/

namespace HeapSystem

/-- **The blocks in use are those of the users.** -/
structure Ok (c : Cpu) (s : HeapSystem) (ts : List Tile) (fl : List ℕ) : Prop where
  layout : Layout c s.heap (c.sub s.heap.firstBlock s.heap.lastBlock) none ts fl
  owned : (s.live.map (c.blockOfAllocArea · s.heap.pageSize)).Perm
    (addresses isUsed s.heap.firstBlock ts)
  bounds : ∀ q ∈ s.live, q < c.modulus ∧
    c.blockOfAllocArea q s.heap.pageSize + c.headerSize ≤ q ∧
    q < c.blockOfAllocArea q s.heap.pageSize + c.headerSize + s.heap.pageSize
  usedBlocks : s.heap.stats.usedBlocks = s.live.length % 2 ^ 32

def spans (c : Cpu) (s : HeapSystem) (ts : List Tile) : List Span :=
  BoundaryTag.spans s.heap.firstBlock s.heap.firstBlock
    (ts ++ [s.heap.control.lastTile (c.sub s.heap.firstBlock s.heap.lastBlock)])

/-- What all operations but extensions keep; the block at `b` may be resized. -/
structure Kept (c : Cpu) (s : HeapSystem) (ts : List Tile) (b : Option ℕ) (s' : HeapSystem)
    (ts' : List Tile) (fl' : List ℕ) : Prop where
  ok : Ok c s' ts' fl'
  control : s'.heap.control = s.heap.control
  spans : spans c s' ts' = spans c s ts
  sizes : ∀ x ∈ addresses isUsed s.heap.firstBlock ts, x ∈ addresses isUsed s.heap.firstBlock ts' →
    b ≠ some x → s'.heap.blockSize x = s.heap.blockSize x

variable {s s' : HeapSystem} {ts : List Tile} {fl : List ℕ} {b : Option ℕ}

theorem of_guard {α : Type} {p : Prop} [Decidable p] {x y : α}
    (h : (if p then some x else none) = some y) : p ∧ y = x := by
  by_cases hp : p
  · rw [if_pos hp] at h; exact ⟨hp, (Option.some.inj h).symm⟩
  · rw [if_neg hp] at h; cases h

theorem step_allocate {allocSize alignment boundary : ℕ}
    (h : step c s (.allocate allocSize alignment boundary) = some s') :
    (allocSize < c.modulus ∧ alignment < c.modulus ∧ boundary < c.modulus) ∧ s' = { s with
        heap := (s.heap.allocate c allocSize alignment boundary).2
        live := if (s.heap.allocate c allocSize alignment boundary).1 = 0 then s.live
          else (s.heap.allocate c allocSize alignment boundary).1 :: s.live } :=
  of_guard h

variable {allocBegin : ℕ}

theorem Ok.exists_tile {q : ℕ} (ok : Ok c s ts fl) (hq : q ∈ s.live) :
    ∃ pre n rest, ts = pre ++ ⟨n, .used⟩ :: rest ∧
      s.heap.firstBlock + total pre = c.blockOfAllocArea q s.heap.pageSize := by
  obtain ⟨pre, ⟨n, k⟩, rest, hts, hk, hx⟩ :=
    mem_addresses.mp (ok.owned.mem_iff.mp (mem_map_of_mem hq))
  obtain rfl : k = .used := by simpa [isUsed] using hk
  exact ⟨pre, n, rest, hts, hx.symm⟩

theorem Ok.ne_zero {q : ℕ} (ok : Ok c s ts fl) (hq : q ∈ s.live) : q ≠ 0 := by
  have hle := (ok.bounds q hq).2.1
  have hw := c.word_pos
  have hh : c.headerSize = 2 * c.word := rfl
  omega

theorem blockSize_splice {h h' : Heap} {e x : ℕ} {pre mid mid' rest : List Tile} {fl' : List ℕ}
    (L : Layout c h e none (pre ++ mid ++ rest) fl)
    (L' : Layout c h' e none (pre ++ mid' ++ rest) fl') (hfirst : h'.firstBlock = h.firstBlock)
    (htotal : total mid' = total mid) (hx : x ∈ addresses isUsed h.firstBlock (pre ++ mid ++ rest))
    (hmid : x ∉ addresses isUsed (h.firstBlock + total pre) mid) :
    h'.blockSize x = h.blockSize x := by
  rw [addresses_append, addresses_append, mem_append, mem_append, or_assoc,
    or_iff_right_of_imp (fun hm => (hmid hm).elim), mem_addresses, mem_addresses] at hx
  rcases hx with ⟨pre1, t, post, rfl, -, rfl⟩ | ⟨pre1, t, post, rfl, -, rfl⟩
  · have hold : pre1 ++ t :: post ++ mid ++ rest = pre1 ++ t :: (post ++ mid ++ rest) := by simp
    have hnew : pre1 ++ t :: post ++ mid' ++ rest = pre1 ++ t :: (post ++ mid' ++ rest) := by simp
    rw [L.size_at hold, ← hfirst, L'.size_at hnew]
  · have hplace : total (pre ++ mid ++ pre1) = total (pre ++ mid' ++ pre1) := by
      simp only [total_append, htotal]
    rw [Nat.add_assoc, ← total_append, L.size_at (append_assoc ..).symm, hplace, ← hfirst,
      L'.size_at (append_assoc ..).symm]

theorem Kept.of_control {h' : Heap} {live : List ℕ} {ts' : List Tile} {fl' : List ℕ}
    (hcontrol : h'.control = s.heap.control)
    (hlayout : Layout c h' (c.sub s.heap.firstBlock s.heap.lastBlock) none ts' fl')
    (howned : (live.map (c.blockOfAllocArea · s.heap.pageSize)).Perm
      (addresses isUsed s.heap.firstBlock ts'))
    (hbounds : ∀ q ∈ live, q < c.modulus ∧ c.blockOfAllocArea q s.heap.pageSize + c.headerSize ≤ q ∧
      q < c.blockOfAllocArea q s.heap.pageSize + c.headerSize + s.heap.pageSize)
    (hcount : h'.stats.usedBlocks = live.length % 2 ^ 32)
    (hspans : BoundaryTag.spans s.heap.firstBlock s.heap.firstBlock
        (ts' ++ [s.heap.control.lastTile (c.sub s.heap.firstBlock s.heap.lastBlock)]) =
      HeapSystem.spans c s ts)
    (hsizes : ∀ x ∈ addresses isUsed s.heap.firstBlock ts,
      x ∈ addresses isUsed s.heap.firstBlock ts' → b ≠ some x →
        h'.blockSize x = s.heap.blockSize x) :
    Kept c s ts b { s with heap := h', live := live } ts' fl' := by
  have hfirst : h'.firstBlock = s.heap.firstBlock := congrArg HeapControl.firstBlock hcontrol
  have hlast : h'.lastBlock = s.heap.lastBlock := congrArg HeapControl.lastBlock hcontrol
  have hpageSize : h'.pageSize = s.heap.pageSize := congrArg HeapControl.pageSize hcontrol
  refine ⟨⟨?_, ?_, ?_, hcount⟩, hcontrol, ?_, hsizes⟩
  · rwa [hfirst, hlast]
  · rwa [hfirst, hpageSize]
  · rwa [hpageSize]
  · change BoundaryTag.spans h'.firstBlock h'.firstBlock
      (_ ++ [h'.control.lastTile (c.sub h'.firstBlock h'.lastBlock)]) = _
    rwa [hfirst, hlast, hcontrol]

theorem Ok.allocate {allocSize alignment boundary : ℕ} (ok : Ok c s ts fl)
    (hstep : step c s (.allocate allocSize alignment boundary) = some s') :
    ∃ ts' fl', Kept c s ts none s' ts' fl' := by
  obtain ⟨hlt, rfl⟩ := step_allocate hstep
  have hres : Allocated c s.heap (c.sub s.heap.firstBlock s.heap.lastBlock) ts fl allocSize
      alignment boundary (s.heap.allocate c allocSize alignment boundary) :=
    ok.layout.allocate rfl hlt.1
  generalize s.heap.allocate c allocSize alignment boundary = r at hres
  cases hres with
  | failed f hfreeSize hfreeBlocks husedBlocks =>
    exact ⟨ts, fl, ⟨ok.layout.withStats hfreeSize hfreeBlocks, ok.owned, ok.bounds,
      husedBlocks.trans ok.usedBlocks⟩, rfl, rfl, fun _ _ _ _ => rfl⟩
  | served pre rest mid n fl' q h' htiles _ _ hfit htaken hlayout _ hcontrol husedBlocks =>
    subst htiles
    have hts : pre ++ [⟨n, .free⟩] ++ rest = pre ++ ⟨n, .free⟩ :: rest := by simp
    have hend : s.heap.firstBlock + total pre + n + total rest = s.heap.lastBlock :=
      ok.layout.le_lastBlock hts
    have htop := ok.layout.lastBlock_lt
    have hlow := hfit.low
    have hhigh := hfit.high
    have hh : c.headerSize = 2 * c.word := rfl
    have hb : c.allocBonus = c.word := rfl
    have hw := c.word_pos
    obtain ⟨m, hm, -, hm1, hm2⟩ := blockOfAllocArea_eq ok.layout.geometry.page_pos
      (ok.layout.geometry.page_at hts) hlow (by omega)
    change c.blockOfAllocArea q s.heap.pageSize = _ at hm
    have hne : q ≠ 0 := by omega
    rw [if_neg hne]
    refine ⟨pre ++ mid ++ rest, fl', .of_control hcontrol hlayout ?_ ?_ ?_ htaken.spans_eq ?_⟩
    · exact (ok.owned.cons _).trans htaken.used_addresses.symm
    · intro q' hq'
      rcases mem_cons.mp hq' with rfl | hq'
      · rw [hm]; exact ⟨by omega, hm1, hm2⟩
      · exact ok.bounds q' hq'
    · rw [husedBlocks, ok.usedBlocks, increment_mod, length_cons]
    · exact fun x hx _ _ => blockSize_splice ok.layout hlayout
        (congrArg HeapControl.firstBlock hcontrol) (htaken.sum.trans total_one.symm) hx not_mem_nil

theorem Ok.free (ok : Ok c s ts fl)
    (hstep : step c s (.free allocBegin) = some s') : ∃ ts' fl', Kept c s ts none s' ts' fl' := by
  obtain ⟨hq, rfl⟩ := of_guard hstep
  obtain ⟨pre, n, rest, rfl, hb⟩ := ok.exists_tile hq
  obtain ⟨hfreed, ts', fl', hcoal, hlayout⟩ := ok.layout.free hb (ok.ne_zero hq) rfl
  have hcontrol : (s.heap.free c allocBegin).2.control = s.heap.control := control_free
  have hcount := usedBlocks_free (ok.ne_zero hq) hfreed
  have hperm := perm_cons_erase hq
  refine ⟨ts', fl', .of_control hcontrol hlayout ?_ ?_ ?_ hcoal.spans_eq ?_⟩
  · have hcons := (hperm.map (c.blockOfAllocArea · s.heap.pageSize)).symm.trans
      (ok.owned.trans hcoal.used_addresses)
    rw [map_cons, hb] at hcons
    exact (perm_cons _).mp hcons
  · exact fun q' hq' => ok.bounds q' (mem_of_mem_erase hq')
  · rw [hcount, ok.usedBlocks, hperm.length_eq, length_cons, decrement_mod]
  · intro x _ hx _
    have hfirst := congrArg HeapControl.firstBlock hcontrol
    change (s.heap.free c allocBegin).2.firstBlock = s.heap.firstBlock at hfirst
    obtain ⟨pre0, before, behind, rest0, rfl, rfl, -, rfl⟩ := hcoal
    have hlist : pre0 ++ before ++ ⟨n, .used⟩ :: (behind ++ rest0) =
        pre0 ++ (before ++ [⟨n, .used⟩] ++ behind) ++ rest0 := by simp
    rw [← hfirst] at hx
    exact (blockSize_splice hlayout (hlist ▸ ok.layout) hfirst.symm total_one.symm hx
      not_mem_nil).symm

/-- The area is not behind its block, or the next block is free. -/
def Resizable (c : Cpu) (s : HeapSystem) : HeapOperation → Prop
  | .resize allocBegin _ =>
    allocBegin ≤ c.blockOfAllocArea allocBegin s.heap.pageSize +
        s.heap.blockSize (c.blockOfAllocArea allocBegin s.heap.pageSize) + c.allocBonus ∨
      ¬ s.heap.IsUsed c (c.blockOfAllocArea allocBegin s.heap.pageSize +
        s.heap.blockSize (c.blockOfAllocArea allocBegin s.heap.pageSize))
  | _ => True

theorem Ok.resize {newAllocSize : ℕ} (ok : Ok c s ts fl)
    (hok : Resizable c s (.resize allocBegin newAllocSize))
    (hstep : step c s (.resize allocBegin newAllocSize) = some s') :
    ∃ ts' fl', Kept c s ts (some (c.blockOfAllocArea allocBegin s.heap.pageSize)) s' ts' fl' := by
  obtain ⟨⟨hq, -⟩, rfl⟩ := of_guard hstep
  obtain ⟨pre, n, rest, rfl, hb⟩ := ok.exists_tile hq
  obtain ⟨hlt, hlow, hpage⟩ := ok.bounds _ hq
  have hsize := ok.layout.size_at rfl
  rw [Resizable, ← hb, hsize] at hok
  rw [← hb] at hlow hpage
  obtain ⟨hcount, ⟨ts', fl', hres, hlayout⟩, -⟩ :=
    ok.layout.resizeBlock rfl rfl hb.symm hlow hpage hlt hok
  refine ⟨ts', fl', .of_control control_resizeBlock hlayout ?_ ok.bounds
    (hcount.trans ok.usedBlocks) hres.spans_eq ?_⟩
  · rw [hres.used_addresses]; exact ok.owned
  · intro x hx _ hne
    obtain ⟨behind, mid, rest0, rfl, hfree, htaken, rfl⟩ := hres
    have hlist : pre ++ ⟨n, .used⟩ :: (behind ++ rest0) = pre ++ (⟨n, .used⟩ :: behind) ++ rest0 := by
      simp
    have hnone : addresses isUsed (s.heap.firstBlock + total pre + n) behind = [] := by
      refine addresses_eq_nil fun t ht => ?_
      rw [hfree t ht]
      rfl
    have hold := ok.layout
    rw [hlist] at hx hold
    refine blockSize_splice hold hlayout
      (congrArg HeapControl.firstBlock control_resizeBlock) htaken.sum hx ?_
    change x ∉ _ :: addresses isUsed _ behind
    rw [hnone, hb, mem_singleton]
    exact fun he => hne (congrArg some he.symm)

theorem Ok.boot (hboot : Boot c s) : ∃ n, Ok c s [⟨n, .free⟩] [s.heap.firstBlock] := by
  obtain ⟨memory, areaBegin, areaSize, pageSize, ha, hs, hp, hinit, hlive, -⟩ := hboot
  obtain ⟨⟨n, hlayout⟩, -, -, -, hused⟩ := Layout.initial ha hs hp hinit
  refine ⟨n, hlayout, ?_, ?_, ?_⟩
  · rw [hlive]; exact .nil
  · rw [hlive]; intro q hq; cases hq
  · rw [hlive]; exact hused

/-- A call that does not give the heap more memory. -/
def InPlace : HeapOperation → Prop
  | .extend _ _ => False
  | _ => True

theorem Ok.step {op : HeapOperation} (ok : Ok c s ts fl) (hop : InPlace op)
    (hres : Resizable c s op) (hstep : HeapSystem.step c s op = some s') :
    ∃ b ts' fl', Kept c s ts b s' ts' fl' := by
  cases op with
  | allocate allocSize alignment boundary => exact ⟨_, ok.allocate hstep⟩
  | free allocBegin => exact ⟨_, ok.free hstep⟩
  | resize allocBegin newAllocSize => exact ⟨_, ok.resize hres hstep⟩
  | extend areaBegin areaSize => exact hop.elim

/-- **The representation of a heap with one area**, if resizes are of areas in blocks. -/
theorem representation_exact {s₀ : HeapSystem} {ops : List HeapOperation} (hboot : Boot c s₀)
    (hops : Along (HeapSystem.step c) (fun s op => InPlace op ∧ Resizable c s op) s₀ ops)
    (hrun : run (HeapSystem.step c) s₀ ops = some s) :
    ∃ ts fl, Layout c s.heap (c.sub s.heap.firstBlock s.heap.lastBlock) none ts fl ∧
      (∀ t ∈ ts, t.kind = .free ∨ t.kind = .used) ∧
      s.heap.stats.usedBlocks = (addresses isUsed s.heap.firstBlock ts).length % 2 ^ 32 := by
  obtain ⟨n, ok⟩ := Ok.boot hboot
  obtain ⟨ts, fl, ok, hspans⟩ := run_invariant_along (HeapSystem.step c)
    (P := fun s => ∃ ts fl, Ok c s ts fl ∧ (HeapSystem.spans c s ts).length = 1)
    (by
      rintro s op s' ⟨ts, fl, ok, hspans⟩ ⟨hop, hres⟩ hstep
      obtain ⟨_, ts', fl', hkept⟩ := ok.step hop hres hstep
      exact ⟨ts', fl', hkept.ok, by rw [hkept.spans, hspans]⟩)
    ⟨_, _, ok, rfl⟩ hops hrun
  have hnone : BoundaryTag.spans s.heap.firstBlock s.heap.firstBlock ts = [] := by
    rw [HeapSystem.spans, spans_append, length_append] at hspans
    exact eq_nil_of_length_eq_zero (Nat.succ.inj hspans)
  refine ⟨ts, fl, ok.layout, blocks_of_spans_eq_nil hnone, ?_⟩
  rw [ok.usedBlocks, ← ok.owned.length_eq, length_map]

/-- **When all is freed, the heap is one free block again.** -/
theorem one_block_of_freed {s₀ : HeapSystem} {ops : List HeapOperation} (hboot : Boot c s₀)
    (hops : Along (HeapSystem.step c) (fun s op => InPlace op ∧ Resizable c s op) s₀ ops)
    (hrun : run (HeapSystem.step c) s₀ ops = some s) (hlive : s.live = []) :
    Layout c s.heap (c.sub s.heap.firstBlock s.heap.lastBlock) none
      [⟨s.heap.stats.freeSize, .free⟩] [s.heap.firstBlock] := by
  obtain ⟨n, ok⟩ := Ok.boot hboot
  obtain ⟨ts, fl, ok, hspans⟩ := run_invariant_along (HeapSystem.step c)
    (P := fun s => ∃ ts fl, Ok c s ts fl ∧ (HeapSystem.spans c s ts).length = 1)
    (by
      rintro s op s' ⟨ts, fl, ok, hspans⟩ ⟨hop, hres⟩ hstep
      obtain ⟨_, ts', fl', hkept⟩ := ok.step hop hres hstep
      exact ⟨ts', fl', hkept.ok, by rw [hkept.spans, hspans]⟩)
    ⟨_, _, ok, rfl⟩ hops hrun
  rw [HeapSystem.spans, spans_append, length_append] at hspans
  have hblocks := blocks_of_spans_eq_nil (eq_nil_of_length_eq_zero (Nat.succ.inj hspans))
  have hfree : ∀ t ∈ ts, t.kind = .free := by
    intro t ht
    refine (hblocks t ht).resolve_right fun hused => ?_
    obtain ⟨pre, post, hts⟩ := append_of_mem ht
    have hmem : s.heap.firstBlock + total pre ∈ addresses isUsed s.heap.firstBlock ts :=
      mem_addresses.mpr ⟨pre, t, post, hts, by rw [hused]; rfl, rfl⟩
    rw [← ok.owned.mem_iff, hlive] at hmem
    cases hmem
  have L := ok.layout
  cases ts with
  | nil => exact absurd rfl L.geometry.nonempty
  | cons t ts => cases ts with
    | nil =>
      obtain ⟨size, kind⟩ := t
      cases hfree _ mem_cons_self
      have hsize : s.heap.stats.freeSize = size := L.freeSize
      rw [hsize, ← perm_singleton.mp L.members]
      exact L
    | cons u ts =>
      -- two free blocks are not side by side
      exact absurd (hfree u (by simp)) (L.geometry.apart.2.1 (hfree t mem_cons_self))

theorem freeSize_le_lastBlock {h : Heap} {e : ℕ} {ex : Option ℕ} (L : Layout c h e ex ts fl) :
    h.stats.freeSize ≤ h.lastBlock := by
  have hends : h.firstBlock + total ts = h.lastBlock := L.geometry.ends
  rw [L.freeSize, ← hends]
  exact totalOf_le.trans (Nat.le_add_left _ _)

instance (s : HeapSystem) (op : HeapOperation) : Decidable (InPlace op ∧ Resizable c s op) := by
  cases op <;> unfold InPlace Resizable <;> infer_instance

end HeapSystem

/-! ## Evaluation -/

def HeapRef.force {α : Type} (k : HeapRef → α) : HeapRef → α
  | .freeList => k .freeList
  | .block address => forceNat (fun address => k (.block address)) address

theorem HeapRef.force_eq (k : HeapRef → α) (r : HeapRef) : r.force k = k r := by
  cases r with
  | freeList => rfl
  | block address => exact forceNat_eq (fun address => k (.block address)) address

def HeapBlock.force {α : Type} (k : HeapBlock → α) (b : HeapBlock) : α :=
  forceNat (fun prevSize =>
    forceNat (fun sizeAndFlag =>
      b.next.force fun next => b.prev.force fun prev => k ⟨prevSize, sizeAndFlag, next, prev⟩)
      b.sizeAndFlag) b.prevSize

theorem HeapBlock.force_eq (k : HeapBlock → α) (b : HeapBlock) : b.force k = k b := by
  rw [HeapBlock.force, forceNat_eq, forceNat_eq, HeapRef.force_eq, HeapRef.force_eq]

def forceMemory {α : Type} (k : (HeapRef → HeapBlock) → α) :
    List HeapRef → (HeapRef → HeapBlock) → α
  | [], memory => k memory
  | r :: rs, memory => (memory r).force fun b => forceMemory k rs (Function.update memory r b)

theorem forceMemory_eq (k : (HeapRef → HeapBlock) → α) (rs : List HeapRef)
    (memory : HeapRef → HeapBlock) : forceMemory k rs memory = k memory := by
  induction rs generalizing memory with
  | nil => rfl
  | cons r rs ih => rw [forceMemory, HeapBlock.force_eq, Function.update_eq_self, ih]

/-- Evaluate the headers at some addresses and the size of the free blocks. -/
def HeapSystem.force {α : Type} (rs : List HeapRef) (s : HeapSystem) (k : HeapSystem → α) : α :=
  forceMemory (fun memory =>
    forceNat (fun freeSize =>
      k { s with
        heap := { s.heap with
          block := memory
          stats := { s.heap.stats with freeSize := freeSize } } })
      s.heap.stats.freeSize) rs s.heap.block

theorem HeapSystem.force_eq (rs : List HeapRef) (s : HeapSystem)
    (k : HeapSystem → α) : s.force rs k = k s := by
  rw [HeapSystem.force, forceMemory_eq, forceNat_eq]

def cpu32 : Cpu := ⟨4, 4, by decide, by decide, by decide, by decide⟩

/-- A heap of 108 bytes with pages of 20 bytes. -/
def heap108 : HeapSystem :=
  ⟨(Heap.initial cpu32 (fun _ => ⟨0, 0, .freeList, .freeList⟩) 32 108 20).get rfl, [],
    [(32, 140)]⟩

theorem heap108_boot : HeapSystem.Boot cpu32 heap108 :=
  ⟨fun _ => ⟨0, 0, .freeList, .freeList⟩, 32, 108, 20, by decide, by decide, by decide,
    (Option.some_get rfl).symm, rfl, rfl⟩

namespace HeapSystem

theorem representation_exact_resized : ∃ s,
    run (HeapSystem.step cpu32) heap108 [.allocate 30 0 0, .resize 40 50, .free 40] = some s ∧
    ∃ ts fl, Layout cpu32 s.heap (cpu32.sub s.heap.firstBlock s.heap.lastBlock) none ts fl ∧
      (∀ t ∈ ts, t.kind = .free ∨ t.kind = .used) ∧
      s.heap.stats.usedBlocks = (addresses isUsed s.heap.firstBlock ts).length % 2 ^ 32 :=
  exists_imp_of_any (P := fun s => s.live = []) (by decide +kernel) fun _ hs _ =>
    representation_exact heap108_boot (along_of_decide _ (by decide +kernel)) hs

theorem one_block_of_two : ∃ s, run (HeapSystem.step cpu32) heap108
      [.allocate 30 0 0, .allocate 10 0 0, .free 40, .free 80] = some s ∧
    Layout cpu32 s.heap (cpu32.sub s.heap.firstBlock s.heap.lastBlock) none
      [⟨s.heap.stats.freeSize, .free⟩] [s.heap.firstBlock] :=
  exists_imp_of_any (P := fun s => s.live = []) (by decide +kernel) fun _ hs hlive =>
    one_block_of_freed heap108_boot (along_of_decide _ (by decide +kernel)) hs hlive

/-- The first area is behind its block, and its resize computes a negative size. -/
theorem representation_broken : ∃ s, run (HeapSystem.step cpu32) heap108
      [.allocate 11 1 64, .allocate 4 128 0, .resize 117 100] = some s ∧
    s.heap.lastBlock = 132 ∧ s.heap.stats.freeSize = 4294967236 ∧
    ∀ e ts fl, ¬ Layout cpu32 s.heap e none ts fl := by
  rw [← runForced_eq _ (HeapSystem.force_eq [.freeList, .block 32, .block 92, .block 112,
    .block 132])]
  refine exists_imp_of_any (P := fun s => s.heap.lastBlock = 132 ∧
    s.heap.stats.freeSize = 4294967236) (by decide +kernel) ?_
  intro s _ ⟨hlast, hfree⟩
  refine ⟨hlast, hfree, ?_⟩
  intro e ts fl hlayout
  have hle := freeSize_le_lastBlock hlayout
  omega

end HeapSystem

end Rtems
