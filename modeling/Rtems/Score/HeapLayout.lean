import Rtems.Lib.BoundaryTag
import Rtems.Lib.Circle
import Rtems.Score.Heap
import Mathlib.Data.Nat.ModEq
import Mathlib.Tactic.Ring

/-!
# The layout of a heap

* `tags`, `nextOf`, `prevOf`: the tags and the links of the blocks, with what each write does to
  them;
* `Layout`: the tiles of a heap from its first block on, and the members of its free list.
-/

namespace Rtems

open Function BoundaryTag Circular List Nat

/-! ## Addresses -/

namespace Cpu

variable {c : Cpu} {a b : ℕ}

theorem le_modulus (c : Cpu) : 256 * c.word ≤ c.modulus := by
  obtain ⟨n, hn⟩ : ∃ n, c.word = n + 1 := ⟨c.word - 1, by have := c.word_pos; omega⟩
  have hlt : n < 2 ^ n := Nat.lt_two_pow_self
  have hmono : 2 ^ n ≤ 2 ^ (8 * n) := Nat.pow_le_pow_right (by decide) (by omega)
  rw [modulus, hn, mul_succ 8, pow_add]
  omega

theorem add_eq (h : a + b < c.modulus) : c.add a b = a + b := Nat.mod_eq_of_lt h

theorem sub_eq (hb : b ≤ a) (ha : a < c.modulus) : c.sub a b = a - b := by
  rw [sub, Nat.sub_add_comm hb, Nat.add_mod_right]; exact Nat.mod_eq_of_lt (by omega)

theorem two_dvd_modulus (c : Cpu) : 2 ∣ c.modulus := by
  have hpos := c.word_pos
  exact dvd_trans (Nat.dvd_refl 2) (Dvd.intro_left (2 ^ (8 * c.word - 1))
    (by rw [modulus, ← pow_succ]; congr 1; omega))

theorem sub_lt {d : ℕ} (hd : 0 < d) (hlt : a + d < c.modulus) :
    c.sub a (a + d) = c.modulus - d := by
  have hsum : a + c.modulus - (a + d) = c.modulus - d := by omega
  rw [sub, hsum]
  exact Nat.mod_eq_of_lt (by omega)

theorem add_add {d : ℕ} : c.add (c.add a b) d = c.add a (b + d) := by
  rw [add, add, mod_add_mod, add_assoc]; rfl

theorem add_sub {d : ℕ} (hb : b < c.modulus) (hle : b ≤ a + d) (hlt : a + d < c.modulus) :
    c.add (c.sub a b) d = a + d - b := by
  have hsum : a + c.modulus - b + d = a + d - b + c.modulus := by omega
  rw [add, sub, mod_add_mod, hsum, Nat.add_mod_right]
  exact Nat.mod_eq_of_lt (by omega)

theorem alignDown_le (v p : ℕ) : alignDown v p ≤ v := sub_le _ _

theorem dvd_alignDown (v p : ℕ) : p ∣ alignDown v p := Nat.dvd_sub_mod v

theorem lt_alignDown {v p : ℕ} (hp : 0 < p) : v < alignDown v p + p := by
  have hmod := mod_lt v hp
  rw [alignDown]
  omega

theorem le_alignDown {v p n : ℕ} (hp : 0 < p) (hn : p ∣ n) (hle : n ≤ v) : n ≤ alignDown v p := by
  have hlt := lt_alignDown (v := v) hp
  obtain ⟨i, rfl⟩ := hn
  obtain ⟨j, hj⟩ := dvd_alignDown v p
  rw [hj] at hlt ⊢
  have hij : i < j + 1 := by refine Nat.lt_of_mul_lt_mul_left (a := p) ?_; rw [mul_succ]; omega
  exact mul_le_mul_left p (le_of_lt_succ hij)

theorem alignUp_bounds {v p : ℕ} (hp : 0 < p) (hv : v < c.modulus)
    (h : v % p ≠ 0 → v - v % p + p < c.modulus) :
    p ∣ c.alignUp v p ∧ v ≤ c.alignUp v p ∧ c.alignUp v p < v + p := by
  have hmod := mod_lt v hp
  have hle := mod_le v p
  rw [alignUp]
  by_cases hr : v % p = 0
  · simp only [hr, ne_eq, not_true_eq_false, if_false]
    exact ⟨dvd_of_mod_eq_zero hr, le_refl v, by omega⟩
  · simp only [ne_eq, hr, not_false_eq_true, if_true]
    rw [sub_eq hle hv, add_eq (h hr)]
    exact ⟨Nat.dvd_add (Nat.dvd_sub_mod v) (Nat.dvd_refl p), by omega, by omega⟩

theorem alignUp_lt {v p : ℕ} (hv : v < c.modulus) : c.alignUp v p < c.modulus := by
  rw [alignUp]
  split_ifs
  · exact mod_lt _ (by omega)
  · exact hv

theorem alignUp_spec {v p : ℕ} (hp : 0 < p) (h : v + p ≤ c.modulus) :
    p ∣ c.alignUp v p ∧ v ≤ c.alignUp v p ∧ c.alignUp v p < v + p := by
  have hle := mod_le v p
  exact alignUp_bounds hp (by omega) fun hr => by omega

theorem alignUp_le {v p n : ℕ} (hp : 0 < p) (h : v + p ≤ c.modulus) (hn : p ∣ n) (hle : v ≤ n) :
    c.alignUp v p ≤ n := by
  obtain ⟨hdvd, -, hlt⟩ := alignUp_spec hp h
  obtain ⟨i, rfl⟩ := hn
  obtain ⟨j, hj⟩ := hdvd
  rw [hj] at hlt ⊢
  have hij : j < i + 1 := by refine Nat.lt_of_mul_lt_mul_left (a := p) ?_; rw [mul_succ]; omega
  exact mul_le_mul_left p (le_of_lt_succ hij)

end Cpu

/-! ## Tags and links -/

theorem withoutFlag_even {x : ℕ} (h : 2 ∣ x) : withoutFlag x = x := by
  rw [withoutFlag, mod_eq_zero_of_dvd h]; rfl

theorem withoutFlag_withFlag (x : ℕ) : withoutFlag (withFlag x) = withoutFlag x := by
  rw [withoutFlag, withFlag, withoutFlag]
  omega

theorem withFlag_mod (x : ℕ) : withFlag x % 2 = 1 := by
  rw [withFlag]; omega

theorem withoutFlag_mod (x : ℕ) : withoutFlag x % 2 = 0 := by
  rw [withoutFlag]; omega

theorem withoutFlag_withoutFlag (x : ℕ) : withoutFlag (withoutFlag x) = withoutFlag x := by
  rw [withoutFlag, withoutFlag]
  omega

theorem increment_mod (n : ℕ) : increment (n % 2 ^ 32) = (n + 1) % 2 ^ 32 := by
  unfold increment
  split_ifs
  · omega
  · omega

theorem decrement_mod (n : ℕ) : decrement ((n + 1) % 2 ^ 32) = n % 2 ^ 32 := by
  unfold decrement
  split_ifs
  · omega
  · omega

namespace Heap

variable {c : Cpu} {h : Heap} {b x y n : ℕ} {r r' q : HeapRef} {f : HeapStatistics → HeapStatistics}

/-- `prev_size` of the block at an address. -/
def prevSizeOf (h : Heap) (b : ℕ) : ℕ := (h.header b).prevSize

def nextOf (h : Heap) (r : HeapRef) : HeapRef := (h.block r).next

def prevOf (h : Heap) (r : HeapRef) : HeapRef := (h.block r).prev

def tags (h : Heap) : Tags := ⟨h.blockSize, h.IsPrevUsed, h.prevSizeOf⟩

section Writes

theorem field_write {α : Type} (g : HeapBlock → α) {h' : Heap} {v : HeapBlock}
    (hb : h'.block = update h.block r v) (hv : g v = g (h.block r)) (r' : HeapRef) :
    g (h'.block r') = g (h.block r') := by
  rw [hb, update_apply]
  split_ifs with hr
  · rw [hr, hv]
  · rfl

theorem block_setSizeAndFlag : (h.setSizeAndFlag b x).block r =
    if r = .block b then { h.header b with sizeAndFlag := x } else h.block r :=
  update_apply ..

theorem block_setPrevSize : (h.setPrevSize b x).block r =
    if r = .block b then { h.header b with prevSize := x } else h.block r :=
  update_apply ..

@[simp]
theorem blockSize_setSizeAndFlag :
    (h.setSizeAndFlag b x).blockSize y = if y = b then withoutFlag x else h.blockSize y := by
  simp only [blockSize, header, block_setSizeAndFlag, HeapRef.block.injEq]
  split_ifs <;> rfl

@[simp]
theorem isPrevUsed_setSizeAndFlag :
    (h.setSizeAndFlag b x).IsPrevUsed y ↔ if y = b then x % 2 = 1 else h.IsPrevUsed y := by
  simp only [IsPrevUsed, header, block_setSizeAndFlag, HeapRef.block.injEq]
  split_ifs <;> rfl

@[simp]
theorem prevSizeOf_setSizeAndFlag : (h.setSizeAndFlag b x).prevSizeOf = h.prevSizeOf :=
  funext fun y => field_write HeapBlock.prevSize (by rfl) (by rfl) (.block y)

@[simp]
theorem blockSize_setPrevSize : (h.setPrevSize b x).blockSize = h.blockSize :=
  funext fun y => congrArg withoutFlag
    (field_write HeapBlock.sizeAndFlag (by rfl) (by rfl) (.block y))

@[simp]
theorem isPrevUsed_setPrevSize : (h.setPrevSize b x).IsPrevUsed = h.IsPrevUsed :=
  funext fun y => congrArg (fun n => n % 2 = 1)
    (field_write HeapBlock.sizeAndFlag (by rfl) (by rfl) (.block y))

@[simp]
theorem prevSizeOf_setPrevSize :
    (h.setPrevSize b x).prevSizeOf y = if y = b then x else h.prevSizeOf y := by
  simp only [prevSizeOf, header, block_setPrevSize, HeapRef.block.injEq]
  split_ifs <;> rfl

theorem tags_write {h' : Heap} {v : HeapBlock} (hb : h'.block = update h.block r v)
    (hs : v.sizeAndFlag = (h.block r).sizeAndFlag) (hp : v.prevSize = (h.block r).prevSize) :
    h'.tags = h.tags := by
  have hfield : ∀ y, (h'.header y).sizeAndFlag = (h.header y).sizeAndFlag := fun y =>
    field_write HeapBlock.sizeAndFlag hb hs (.block y)
  have hsizes : h'.blockSize = h.blockSize := funext fun y => congrArg withoutFlag (hfield y)
  have hflags : h'.IsPrevUsed = h.IsPrevUsed := funext fun y =>
    congrArg (fun n => n % 2 = 1) (hfield y)
  have hprevs : h'.prevSizeOf = h.prevSizeOf := funext fun y =>
    field_write HeapBlock.prevSize hb hp (.block y)
  rw [tags, hsizes, hflags, hprevs]
  rfl

@[simp]
theorem tags_setNext : (h.setNext r q).tags = h.tags := tags_write (by rfl) (by rfl) (by rfl)

@[simp]
theorem tags_setPrev : (h.setPrev r q).tags = h.tags := tags_write (by rfl) (by rfl) (by rfl)

@[simp]
theorem nextOf_setNext : (h.setNext r q).nextOf = update h.nextOf r q := by
  funext r'
  change (update h.block r { h.block r with next := q } r').next = _
  rw [update_apply, update_apply]
  split_ifs <;> rfl

@[simp]
theorem prevOf_setNext : (h.setNext r q).prevOf = h.prevOf :=
  funext fun r => field_write HeapBlock.prev (by rfl) (by rfl) r

@[simp]
theorem nextOf_setPrev : (h.setPrev r q).nextOf = h.nextOf :=
  funext fun r => field_write HeapBlock.next (by rfl) (by rfl) r

@[simp]
theorem prevOf_setPrev : (h.setPrev r q).prevOf = update h.prevOf r q := by
  funext r'
  change (update h.block r { h.block r with prev := q } r').prev = _
  rw [update_apply, update_apply]
  split_ifs <;> rfl

@[simp]
theorem nextOf_setSizeAndFlag : (h.setSizeAndFlag b x).nextOf = h.nextOf :=
  funext fun r => field_write HeapBlock.next (by rfl) (by rfl) r

@[simp]
theorem prevOf_setSizeAndFlag : (h.setSizeAndFlag b x).prevOf = h.prevOf :=
  funext fun r => field_write HeapBlock.prev (by rfl) (by rfl) r

@[simp]
theorem nextOf_setPrevSize : (h.setPrevSize b x).nextOf = h.nextOf :=
  funext fun r => field_write HeapBlock.next (by rfl) (by rfl) r

@[simp]
theorem prevOf_setPrevSize : (h.setPrevSize b x).prevOf = h.prevOf :=
  funext fun r => field_write HeapBlock.prev (by rfl) (by rfl) r

@[simp]
theorem blockSize_withStats : (h.withStats f).blockSize = h.blockSize := rfl

@[simp]
theorem isPrevUsed_withStats : (h.withStats f).IsPrevUsed = h.IsPrevUsed := rfl

@[simp]
theorem prevSizeOf_withStats : (h.withStats f).prevSizeOf = h.prevSizeOf := rfl

@[simp]
theorem nextOf_withStats : (h.withStats f).nextOf = h.nextOf := rfl

@[simp]
theorem prevOf_withStats : (h.withStats f).prevOf = h.prevOf := rfl

@[simp]
theorem stats_withStats : (h.withStats f).stats = f h.stats := rfl

/-! Sizes and flags -/

theorem blockSize_setSize (hn : 2 ∣ n) :
    (h.setSize b n).blockSize y = if y = b then n else h.blockSize y := by
  rw [setSize, blockSize_setSizeAndFlag]
  split_ifs
  · rw [withoutFlag_withFlag, withoutFlag_even hn]
  · rw [withoutFlag_even hn]
  · rfl

theorem isPrevUsed_setSize (hn : 2 ∣ n) : (h.setSize b n).IsPrevUsed y ↔ h.IsPrevUsed y := by
  rw [setSize, isPrevUsed_setSizeAndFlag]
  by_cases hy : y = b
  · subst hy
    by_cases hu : h.IsPrevUsed y
    · simp [hu, withFlag_mod]
    · simp [hu, mod_eq_zero_of_dvd hn]
  · rw [if_neg hy]

@[simp]
theorem prevSizeOf_setSize : (h.setSize b n).prevSizeOf = h.prevSizeOf :=
  prevSizeOf_setSizeAndFlag

@[simp]
theorem nextOf_setSize : (h.setSize b n).nextOf = h.nextOf := nextOf_setSizeAndFlag

@[simp]
theorem prevOf_setSize : (h.setSize b n).prevOf = h.prevOf := prevOf_setSizeAndFlag

@[simp]
theorem blockSize_setFlag : (h.setFlag b).blockSize = h.blockSize := by
  funext y
  rw [setFlag, blockSize_setSizeAndFlag, withoutFlag_withFlag]
  split_ifs with hy
  · rw [hy]; rfl
  · rfl

@[simp]
theorem isPrevUsed_setFlag : (h.setFlag b).IsPrevUsed y ↔ y = b ∨ h.IsPrevUsed y := by
  rw [setFlag, isPrevUsed_setSizeAndFlag, withFlag_mod]
  by_cases hy : y = b
  · simp [hy]
  · simp [hy]

@[simp]
theorem prevSizeOf_setFlag : (h.setFlag b).prevSizeOf = h.prevSizeOf := prevSizeOf_setSizeAndFlag

@[simp]
theorem nextOf_setFlag : (h.setFlag b).nextOf = h.nextOf := nextOf_setSizeAndFlag

@[simp]
theorem prevOf_setFlag : (h.setFlag b).prevOf = h.prevOf := prevOf_setSizeAndFlag

@[simp]
theorem blockSize_clearFlag : (h.clearFlag b).blockSize = h.blockSize := by
  funext y
  rw [clearFlag, blockSize_setSizeAndFlag, withoutFlag_withoutFlag]
  split_ifs with hy
  · rw [hy]; rfl
  · rfl

@[simp]
theorem isPrevUsed_clearFlag : (h.clearFlag b).IsPrevUsed y ↔ y ≠ b ∧ h.IsPrevUsed y := by
  rw [clearFlag, isPrevUsed_setSizeAndFlag, withoutFlag_mod]
  by_cases hy : y = b
  · simp [hy]
  · simp [hy]

@[simp]
theorem prevSizeOf_clearFlag : (h.clearFlag b).prevSizeOf = h.prevSizeOf :=
  prevSizeOf_setSizeAndFlag

@[simp]
theorem nextOf_clearFlag : (h.clearFlag b).nextOf = h.nextOf := nextOf_setSizeAndFlag

@[simp]
theorem prevOf_clearFlag : (h.clearFlag b).prevOf = h.prevOf := prevOf_setSizeAndFlag

section

variable {h' : Heap} (ht : h'.tags = h.tags)

include ht

theorem blockSize_of_tags : h'.blockSize = h.blockSize :=
  congrArg Tags.size ht

theorem isPrevUsed_of_tags : h'.IsPrevUsed = h.IsPrevUsed :=
  congrArg Tags.prevUsed ht

theorem prevSizeOf_of_tags : h'.prevSizeOf = h.prevSizeOf :=
  congrArg Tags.prevSize ht

end

@[simp]
theorem tags_withStats : (h.withStats f).tags = h.tags := rfl

theorem withStats_withStats {g : HeapStatistics → HeapStatistics} :
    (h.withStats f).withStats g = h.withStats fun s => g (f s) := rfl

@[simp]
theorem stats_setSizeAndFlag : (h.setSizeAndFlag b x).stats = h.stats := rfl

@[simp]
theorem stats_setPrevSize : (h.setPrevSize b x).stats = h.stats := rfl

@[simp]
theorem stats_clearFlag : (h.clearFlag b).stats = h.stats := rfl

@[simp]
theorem stats_freeListRemove : (h.freeListRemove b).stats = h.stats := rfl

@[simp]
theorem stats_freeListReplace : (h.freeListReplace x b).stats = h.stats := rfl

@[simp]
theorem stats_freeListInsertAfter : (h.freeListInsertAfter r b).stats = h.stats := rfl

/-! The free list -/

@[simp]
theorem tags_freeListRemove : (h.freeListRemove b).tags = h.tags := by
  simp [freeListRemove]

theorem nextOf_freeListRemove : (h.freeListRemove b).nextOf =
    update h.nextOf (h.prevOf (.block b)) (h.nextOf (.block b)) := by
  rw [freeListRemove, nextOf_setPrev, nextOf_setNext]
  rfl

theorem prevOf_freeListRemove : (h.freeListRemove b).prevOf =
    update h.prevOf (h.nextOf (.block b)) (h.prevOf (.block b)) := by
  rw [freeListRemove, prevOf_setPrev, prevOf_setNext]
  rfl

@[simp]
theorem tags_freeListReplace : (h.freeListReplace x b).tags = h.tags := by
  simp [freeListReplace]

theorem nextOf_freeListReplace : (h.freeListReplace x b).nextOf =
    update (update h.nextOf (.block b) (h.nextOf (.block x))) (h.prevOf (.block x)) (.block b) := by
  simp only [freeListReplace, nextOf_setPrev, nextOf_setNext]
  rfl

theorem prevOf_freeListReplace : (h.freeListReplace x b).prevOf =
    update (update h.prevOf (.block b) (h.prevOf (.block x))) (h.nextOf (.block x)) (.block b) := by
  simp only [freeListReplace, prevOf_setPrev, prevOf_setNext]
  rfl

@[simp]
theorem tags_freeListInsertAfter : (h.freeListInsertAfter r b).tags = h.tags := by
  simp [freeListInsertAfter]

theorem nextOf_freeListInsertAfter : (h.freeListInsertAfter r b).nextOf =
    update (update h.nextOf (.block b) (h.nextOf r)) r (.block b) := by
  simp only [freeListInsertAfter, nextOf_setPrev, nextOf_setNext]
  rfl

theorem prevOf_freeListInsertAfter : (h.freeListInsertAfter r b).prevOf =
    update (update h.prevOf (.block b) r) (h.nextOf r) (.block b) := by
  simp only [freeListInsertAfter, prevOf_setPrev, prevOf_setNext]
  rfl

end Writes

end Heap

/-! ## Layouts -/

/-- The fields of `Heap_Control` that allocation does not change. -/
structure HeapControl where
  pageSize : ℕ
  minBlockSize : ℕ
  areaBegin : ℕ
  areaEnd : ℕ
  firstBlock : ℕ
  lastBlock : ℕ
  deriving DecidableEq

def Heap.control (h : Heap) : HeapControl :=
  ⟨h.pageSize, h.minBlockSize, h.areaBegin, h.areaEnd, h.firstBlock, h.lastBlock⟩

/-- The last block, with the size `e`. -/
def HeapControl.lastTile (k : HeapControl) (e : ℕ) : Tile := ⟨e, .gap k.areaEnd⟩

structure Geometry (c : Cpu) (k : HeapControl) (ts : List Tile) : Prop where
  page_even : 2 ∣ k.pageSize
  page_pos : 0 < k.pageSize
  page_min : k.pageSize ∣ k.minBlockSize
  header_min : 4 * c.word ≤ k.minBlockSize
  begins : k.pageSize ∣ k.firstBlock + c.headerSize
  ends : k.firstBlock + total ts = k.lastBlock
  top : k.lastBlock + c.headerSize ≤ k.areaEnd
  top_lt : k.areaEnd < c.modulus
  nonempty : ts ≠ []
  pos : ∀ t ∈ ts, 0 < t.size
  pages : ∀ t ∈ ts, k.pageSize ∣ t.size
  min : ∀ t ∈ ts, t.kind = .free ∨ t.kind = .used → k.minBlockSize ≤ t.size
  apart : Apart (.gap k.areaEnd) ts

structure IsBlock (k : HeapControl) (t : Tile) : Prop where
  kind : t.kind = .free ∨ t.kind = .used
  pages : k.pageSize ∣ t.size
  min : k.minBlockSize ≤ t.size

def isFree (k : Kind) : Bool := k = .free

def isUsed (k : Kind) : Bool := k = .used

/-- **The layout of a heap.** The tiles `ts` are between its first and last block, of size `e`, and
`fl` is its free list. The tags at `ex` may be out of date. -/
structure Layout (c : Cpu) (h : Heap) (e : ℕ) (ex : Option ℕ) (ts : List Tile) (fl : List ℕ) :
    Prop where
  geometry : Geometry c h.control ts
  tiled : Tiled h.tags ex (h.control.lastTile e) h.firstBlock (ts ++ [h.control.lastTile e])
  starts : ∀ s ∈ spans h.firstBlock h.firstBlock (ts ++ [h.control.lastTile e]),
    h.prevSizeOf s.first = s.areaEnd
  circle : Circle h.nextOf h.prevOf .freeList (fl.map .block)
  members : fl.Perm (addresses isFree h.firstBlock ts)
  freeSize : h.stats.freeSize = totalOf isFree ts
  freeBlocks : h.stats.freeBlocks = fl.length % 2 ^ 32

section Geometry

variable {c : Cpu} {k : HeapControl} {ts pre mid mid' post rest : List Tile} {t : Tile} {e : ℕ}

theorem Geometry.le_last (g : Geometry c k ts) (hts : ts = pre ++ post) :
    k.firstBlock + total pre + total post = k.lastBlock := by
  rw [← g.ends, hts, total_append, add_assoc]

theorem Geometry.last_lt (g : Geometry c k ts) : k.lastBlock + 2 * c.word < c.modulus :=
  lt_of_le_of_lt g.top g.top_lt

theorem dvd_total {p : ℕ} (h : ∀ t ∈ ts, p ∣ t.size) : p ∣ total ts := by
  induction ts with
  | nil => exact dvd_zero _
  | cons u us ih =>
    exact Nat.dvd_add (h u mem_cons_self) (ih fun t ht => h t (mem_cons_of_mem u ht))

section

variable (g : Geometry c k ts)

include g

theorem Geometry.page_at (hts : ts = pre ++ post) :
    k.pageSize ∣ k.firstBlock + total pre + c.headerSize := by
  rw [add_right_comm]
  refine Nat.dvd_add g.begins (dvd_total fun t ht => g.pages t ?_)
  rw [hts]
  exact mem_append_left _ ht

theorem Geometry.first_lt_last : k.firstBlock < k.lastBlock := by
  have hpos : 0 < total ts := by
    cases hts : ts with
    | nil => exact absurd hts g.nonempty
    | cons t us =>
      have ht := g.pos t (by rw [hts]; exact mem_cons_self)
      rw [total_cons]
      omega
  rw [← g.ends]
  omega

theorem Geometry.even (ht : t ∈ ts) : 2 ∣ t.size :=
  dvd_trans g.page_even (g.pages t ht)

theorem Geometry.add_lastBlock :
    c.add k.lastBlock (c.sub k.firstBlock k.lastBlock) = k.firstBlock := by
  have hlt := g.first_lt_last
  have hlast := g.last_lt
  rw [Cpu.sub, Nat.mod_eq_of_lt (by omega), Cpu.add, Nat.add_sub_cancel' (by omega),
    Nat.add_mod_right]
  exact Nat.mod_eq_of_lt (by omega)

end

theorem exists_next (k : HeapControl) (e : ℕ) (rest : List Tile) :
    ∃ t post, rest ++ [k.lastTile e] = t :: post ∧ (post ≠ [] → t ∈ rest) := by
  cases rest with
  | nil => exact ⟨k.lastTile e, [], rfl, fun h => absurd rfl h⟩
  | cons t rest => exact ⟨t, rest ++ [k.lastTile e], rfl, fun _ => mem_cons_self⟩

theorem Geometry.isBlock (g : Geometry c k ts) (ht : t ∈ ts)
    (hk : t.kind = .free ∨ t.kind = .used) : IsBlock k t := ⟨hk, g.pages t ht, g.min t ht hk⟩

theorem Geometry.splice (g : Geometry c k (pre ++ mid ++ rest)) (htotal : total mid' = total mid)
    (hne : mid' ≠ []) (hblocks : ∀ t ∈ mid', IsBlock k t)
    (hapart : Apart (final (k.lastTile e) pre).kind (mid' ++ rest)) :
    Geometry c k (pre ++ mid' ++ rest) := by
  have hmem : ∀ t ∈ pre ++ mid' ++ rest, t ∈ pre ++ mid ++ rest ∨ t ∈ mid' := by
    intro t ht
    simp only [mem_append] at ht ⊢
    tauto
  refine { g with ends := ?_, nonempty := ?_, pos := ?_, pages := ?_, min := ?_, apart := ?_ }
  · rw [← g.ends]; simp only [total_append, htotal]
  · simp [hne]
  · refine fun t ht => (hmem t ht).elim (g.pos t) fun ht => ?_
    have hle := (hblocks t ht).min
    have hh := g.header_min
    have hw := c.word_pos
    omega
  · exact fun t ht => (hmem t ht).elim (g.pages t) fun ht => (hblocks t ht).pages
  · exact fun t ht => (hmem t ht).elim (g.min t) fun ht _ => (hblocks t ht).min
  · have hold := g.apart
    change Apart (k.lastTile e).kind _ at hold ⊢
    rw [append_assoc, apart_append] at hold ⊢
    exact ⟨hold.1, hapart⟩

end Geometry

namespace Layout

variable {c : Cpu} {h h' : Heap} {e : ℕ} {ex ex' : Option ℕ}
  {ts pre mid mid' post rest : List Tile} {t : Tile} {fl fl' : List ℕ}

section

variable (L : Layout c h e ex ts fl)

include L

theorem block_at (hts : ts ++ [h.control.lastTile e] = pre ++ t :: post) :
    h.blockSize (h.firstBlock + total pre) = t.size ∧ (ex ≠ some (h.firstBlock + total pre) →
      h.tags.Behind (final (h.control.lastTile e) pre) (h.firstBlock + total pre)) := by
  have ht := L.tiled
  rw [hts, tiled_append] at ht
  exact ht.2.1

theorem behind (hts : ts = pre ++ t :: rest) (hex : ex ≠ some (h.firstBlock + total pre + t.size)) :
    h.tags.Behind t (h.firstBlock + total pre + t.size) := by
  obtain ⟨u, post, hu, -⟩ := exists_next h.control e rest
  have hts' : ts ++ [h.control.lastTile e] = (pre ++ [t]) ++ u :: post := by rw [hts, ← hu]; simp
  have hb := (L.block_at hts').2
  rw [total_append, total_cons, total_nil, add_zero, ← add_assoc, final_append] at hb
  exact hb hex

theorem isPrevUsed_firstBlock (hex : ex ≠ some h.firstBlock) : h.IsPrevUsed h.firstBlock := by
  obtain ⟨t, post, hts, -⟩ := exists_next h.control e ts
  have hts' : ts ++ [h.control.lastTile e] = [] ++ t :: post := hts
  exact ((L.block_at hts').2 hex).prevUsed.mpr Kind.noConfusion

theorem le_lastBlock (hts : ts = pre ++ t :: rest) :
    h.firstBlock + total pre + t.size + total rest = h.lastBlock := by
  have hend := L.geometry.le_last hts
  rw [total_cons, ← add_assoc] at hend
  exact hend

theorem lastBlock_lt : h.lastBlock + 2 * c.word < c.modulus :=
  L.geometry.last_lt

theorem add_size (hts : ts = pre ++ t :: rest) :
    c.add (h.firstBlock + total pre) t.size = h.firstBlock + total pre + t.size := by
  have hend := L.le_lastBlock hts
  have hlast := L.lastBlock_lt
  exact Cpu.add_eq (by omega)

theorem size_at (hts : ts = pre ++ t :: rest) :
    h.blockSize (h.firstBlock + total pre) = t.size := by
  have hts' : ts ++ [h.control.lastTile e] = pre ++ t :: (rest ++ [h.control.lastTile e]) := by
    rw [hts]; simp
  exact (L.block_at hts').1

theorem isUsed_iff (hts : ts = pre ++ t :: rest)
    (hex : ex ≠ some (h.firstBlock + total pre + t.size)) :
    h.IsUsed c (h.firstBlock + total pre) ↔ t.kind ≠ .free := by
  rw [Heap.IsUsed, L.size_at hts, L.add_size hts]
  exact (L.behind hts hex).prevUsed

end

theorem isUsed_next (L : Layout c h e ex (pre ++ rest) fl)
    (he : e = c.sub h.firstBlock h.lastBlock) (ht : rest ++ [h.control.lastTile e] = t :: post)
    (hex : ∀ x, ex = some x → h.firstBlock < x ∧ x ≤ h.firstBlock + total pre) :
    h.IsUsed c (h.firstBlock + total pre) ↔ t.kind ≠ .free := by
  cases rest with
  | nil =>
    obtain ⟨rfl, -⟩ := List.cons.inj ht
    have hends := L.geometry.ends
    rw [append_nil] at hends
    change h.firstBlock + total pre = h.lastBlock at hends
    have hts : pre ++ [] ++ [h.control.lastTile e] = pre ++ h.control.lastTile e :: [] := by
      rw [append_nil]
    have hb := (L.block_at hts).1
    rw [hends] at hb
    have hadd := L.geometry.add_lastBlock
    change c.add h.lastBlock (c.sub h.firstBlock h.lastBlock) = h.firstBlock at hadd
    rw [Heap.IsUsed, hends, hb, he]
    change h.IsPrevUsed (c.add h.lastBlock (c.sub h.firstBlock h.lastBlock)) ↔ _
    rw [hadd]
    refine iff_of_true (L.isPrevUsed_firstBlock fun hx => ?_) Kind.noConfusion
    have hlt := (hex _ hx).1
    omega
  | cons u rest =>
    obtain ⟨rfl, -⟩ := List.cons.inj ht
    refine L.isUsed_iff rfl fun hx => ?_
    have hle := (hex _ hx).2
    have hpos := L.geometry.pos u (by simp)
    omega

theorem not_mem_of_used {x : ℕ} (L : Layout c h e ex ts fl) (hts : ts = pre ++ t :: rest)
    (hk : t.kind ≠ .free) (hle : h.firstBlock + total pre ≤ x)
    (hlt : x < h.firstBlock + total pre + t.size) : x ∉ fl := by
  have hused : isFree t.kind = false := by simpa [isFree] using hk
  rw [L.members.mem_iff, hts, addresses_append, addresses, hused, mem_append]
  rintro (hx | hx)
  · have hpre := lt_of_mem_addresses (fun u hu => L.geometry.pos u (by simp [hts, hu])) hx; omega
  · have hrest := le_of_mem_addresses hx; omega

theorem weaken (L : Layout c h e none ts fl) : Layout c h e ex ts fl :=
  { L with
    tiled := L.tiled.congr (fun _ _ => ⟨rfl, .rfl, rfl⟩) fun _ _ hx => absurd hx (by simp) }

theorem withStats {f : HeapStatistics → HeapStatistics} (L : Layout c h e ex ts fl)
    (hs : (f h.stats).freeSize = h.stats.freeSize)
    (hb : (f h.stats).freeBlocks = h.stats.freeBlocks) : Layout c (h.withStats f) e ex ts fl :=
  { geometry := L.geometry
    tiled := L.tiled
    starts := L.starts
    circle := L.circle
    members := L.members
    freeSize := hs.trans L.freeSize
    freeBlocks := hb.trans L.freeBlocks }

theorem exists_free {b : ℕ} (L : Layout c h e ex ts fl) (hb : b ∈ fl) :
    ∃ pre n rest, ts = pre ++ ⟨n, .free⟩ :: rest ∧ h.firstBlock + total pre = b := by
  obtain ⟨pre, ⟨n, k⟩, rest, hts, hk, hx⟩ := mem_addresses.mp (L.members.mem_iff.mp hb)
  obtain rfl : k = .free := by simpa [isFree] using hk
  exact ⟨pre, n, rest, hts, hx.symm⟩

theorem mem_of_free (L : Layout c h e ex ts fl) (hts : ts = pre ++ t :: rest)
    (hfree : t.kind = .free) : ∃ fl1 fl2, fl = fl1 ++ (h.firstBlock + total pre) :: fl2 := by
  refine append_of_mem (L.members.mem_iff.mpr ?_)
  exact mem_addresses.mpr ⟨pre, t, rest, hts, by rw [hfree]; rfl, rfl⟩

section

variable (L : Layout c h e ex (pre ++ mid ++ rest) fl)
  (ht : rest ++ [h.control.lastTile e] = t :: post)

include L ht

theorem tiled_mid :
    Tiled h.tags ex (final (h.control.lastTile e) pre) (h.firstBlock + total pre) (mid ++ [t]) := by
  have hts : pre ++ mid ++ rest ++ [h.control.lastTile e] = pre ++ (mid ++ [t]) ++ post := by
    rw [append_assoc, ht]; simp
  have hold := L.tiled
  rw [hts, tiled_append, tiled_append] at hold
  exact hold.1.2

theorem apart_mid : Apart (final (h.control.lastTile e) pre).kind (mid ++ [t]) := by
  have hold : Apart (h.control.lastTile e).kind (pre ++ mid ++ rest) := L.geometry.apart
  rw [append_assoc, apart_append, apart_append] at hold
  refine apart_append.mpr ⟨hold.2.1, ?_, trivial⟩
  cases rest with
  | nil => obtain ⟨rfl, -⟩ := List.cons.inj ht; exact fun _ => Kind.noConfusion
  | cons u rest => obtain ⟨rfl, -⟩ := List.cons.inj ht; exact hold.2.2.1

theorem apart_rest (hapart : Apart (final (h.control.lastTile e) pre).kind (mid' ++ [t])) :
    Apart (final (h.control.lastTile e) pre).kind (mid' ++ rest) := by
  have hold : Apart (h.control.lastTile e).kind (pre ++ mid ++ rest) := L.geometry.apart
  rw [apart_append] at hold hapart ⊢
  refine ⟨hapart.1, ?_⟩
  cases rest with
  | nil => trivial
  | cons u rest => obtain ⟨rfl, -⟩ := List.cons.inj ht; exact ⟨hapart.2.1, hold.2.2⟩

theorem splice {b n : ℕ}
    (hb : h.firstBlock + total pre = b) (hn : total mid = n) (hn' : total mid' = n)
    (hne : mid' ≠ []) (hold : ∀ t ∈ mid, t.kind = .free ∨ t.kind = .used)
    (hnew : ∀ t ∈ mid', IsBlock h.control t)
    (hapart : Apart (final (h.control.lastTile e) pre).kind (mid' ++ [t]))
    (hk : h'.control = h.control) (hex : ∀ x, ex = some x → b ≤ x ∧ x ≤ b + n)
    (hm : ∀ x, x < b ∨ b + n < x → h.tags.Agree h'.tags x)
    (hstart : h'.prevSizeOf b = h.prevSizeOf b)
    (hmid : Tiled h'.tags ex' (final (h.control.lastTile e) pre) b (mid' ++ [t]))
    (hcircle : Circle h'.nextOf h'.prevOf .freeList (fl'.map .block))
    (hmembers : (fl' ++ addresses isFree b mid).Perm (fl ++ addresses isFree b mid'))
    (hfreeSize : h'.stats.freeSize + totalOf isFree mid = h.stats.freeSize + totalOf isFree mid')
    (hfreeBlocks : h'.stats.freeBlocks = fl'.length % 2 ^ 32) :
    Layout c h' e ex' (pre ++ mid' ++ rest) fl' := by
  subst hb
  subst hn
  have hf : h'.firstBlock = h.firstBlock := congrArg HeapControl.firstBlock hk
  have hout : ∀ x, x < h.firstBlock + total pre ∨ h.firstBlock + total pre + total mid < x →
      ex ≠ some x := by
    intro x hx he
    have hin := hex x he
    omega
  have hpre : ∀ u ∈ pre, 0 < u.size := by intro u hu; exact L.geometry.pos u (by simp [hu])
  have hpost : post ≠ [] → 0 < t.size := by
    intro hne
    cases rest with
    | nil => obtain ⟨-, rfl⟩ := List.cons.inj ht; exact absurd rfl hne
    | cons u rest => obtain ⟨rfl, -⟩ := List.cons.inj ht; exact L.geometry.pos u (by simp)
  refine
    { geometry := hk.symm ▸ L.geometry.splice hn' hne hnew (L.apart_rest ht hapart)
      tiled := ?_
      starts := ?_
      circle := hcircle
      members := ?_
      freeSize := ?_
      freeBlocks := hfreeBlocks }
  · have hold := L.tiled
    rw [append_assoc, ht] at hold
    rw [hk, hf, append_assoc, ht]
    exact hold.splice hpre hpost hn' hm (fun x hx he => absurd he (hout x hx)) hmid
  · have hspans : spans h.firstBlock h.firstBlock (pre ++ mid' ++ rest ++ [h.control.lastTile e]) =
        spans h.firstBlock h.firstBlock (pre ++ mid ++ rest ++ [h.control.lastTile e]) := by
      rw [append_assoc, append_assoc (pre ++ mid)]
      exact spans_splice hold (fun t ht => (hnew t ht).kind) hn'
    rw [hf, hk, hspans]
    intro s hs
    rw [← L.starts s hs]
    -- an area begins before the middle, with it, or behind it
    rw [append_assoc] at hs
    have hplace : s.first ≤ h.firstBlock + total pre ∨
        h.firstBlock + total pre + total mid < s.first :=
      first_of_mem_spans_blocks (le_refl _) hold
        (fun u hu => L.geometry.pos u (mem_append_right _ hu)) hs
    rcases hplace with hle | hlt
    · rcases lt_or_eq_of_le hle with hlt | heq
      · exact (hm _ (.inl hlt)).prevSize
      · rw [heq, hstart]
    · exact (hm _ (.inr hlt)).prevSize
  · have hold := L.members
    rw [hf]
    simp only [addresses_append, total_append, hn'] at hold ⊢
    refine (perm_append_right_iff _).mp
      (hmembers.trans ((hold.append_right _).trans (perm_iff_count.mpr fun x => ?_)))
    simp only [count_append]
    omega
  · have hold := L.freeSize; simp only [totalOf_append] at hold ⊢; omega

end

end Layout

end Rtems
