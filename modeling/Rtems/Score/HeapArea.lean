import Rtems.Score.HeapRun

/-!
# The areas of the users

The split for an area at the end of a free block takes no account of the place of the area in its
page, so that an area may end behind its block. This is not so for alignments that are multiples of
the page size.

* `Valid`, **`Valid.step`**: each area is inside the block of its user;
* **`allocate_served`**: what an allocation returns;
* **`resize_served`**: what a resize returns, and what it does not write.
-/

namespace Rtems

open Function BoundaryTag Circular PartialRun Cpu PartialRun HeapControl
open Cpu (alignDown)

variable {c : Cpu} {h h' : Heap} {b q allocSize alignment boundary : ℕ} {ts : List Tile}
  {fl : List ℕ}

namespace Heap

/-- The end of an area in the block of `q`, with a word of the next block. -/
def areaLimit (c : Cpu) (h : Heap) (q : ℕ) : ℕ :=
  c.blockOfAllocArea q h.pageSize + h.blockSize (c.blockOfAllocArea q h.pageSize) + c.allocBonus

/-- The size of a free block behind the one at `b`. -/
def freeBehind (c : Cpu) (h : Heap) (b : ℕ) : ℕ :=
  if h.IsUsed c (b + h.blockSize b) then 0 else h.blockSize (b + h.blockSize b)

/-! ## The begin of an area -/

/-- The last boundary line before the end of the area is inside of it. -/
def Crosses (c : Cpu) (allocSize boundary q : ℕ) : Prop :=
  q < alignDown (c.add q allocSize) boundary ∧
    alignDown (c.add q allocSize) boundary < c.add q allocSize

/-- A round of the loop of `_Heap_Check_block`, from the begin `q` to `q'`. -/
def Round (c : Cpu) (allocSize alignment boundary boundaryFloor q' q : ℕ) : Prop :=
  Crosses c allocSize boundary q ∧ ¬ alignDown (c.add q allocSize) boundary < boundaryFloor ∧
  q' = alignDown (c.sub (alignDown (c.add q allocSize) boundary) allocSize) alignment

variable {boundaryFloor q' : ℕ}

theorem wellFounded_round (alignment boundary : ℕ) (hfloor : allocSize ≤ boundaryFloor) :
    WellFounded (Round c allocSize alignment boundary boundaryFloor) := by
  refine Subrelation.wf ?_ Nat.lt_wfRel.wf
  rintro q' q ⟨⟨-, hlt⟩, hge, rfl⟩
  have hend : c.add q allocSize ≤ q + allocSize := Nat.mod_le _ _
  have hmod : c.add q allocSize < c.modulus := Nat.mod_lt _ (Nat.two_pow_pos _)
  refine (alignDown_le _ _).trans_lt ?_
  rw [sub_eq (by omega) (by omega)]
  omega

theorem boundaryLoop_spec {fuel : ℕ} (hdvd : alignment ∣ q)
    (hq : boundaryLoop c allocSize alignment boundary boundaryFloor fuel q = some q') :
    alignment ∣ q' ∧ ¬ Crosses c allocSize boundary q' := by
  induction fuel generalizing q with
  | zero => cases hq
  | succ fuel ih =>
    rw [boundaryLoop] at hq
    split_ifs at hq with hline hfloor
    · exact ih (dvd_alignDown _ _) hq
    · cases hq; exact ⟨hdvd, hline⟩

theorem boundary_outside (hb : boundary ≠ 0) (hle : allocSize ≤ boundary)
    (hlt : q + allocSize < c.modulus)
    (hline : ¬ Crosses c allocSize boundary q) {m : ℕ} (hm : boundary ∣ m) :
    m ≤ q ∨ q + allocSize ≤ m := by
  rw [Crosses, add_eq hlt] at hline
  by_contra hout
  have hge := le_alignDown (Nat.pos_of_ne_zero hb) hm (v := q + allocSize) (by omega)
  have hdown := alignDown_le (q + allocSize) boundary
  -- the end of the area is a line, and the one before it is not behind the begin
  have hdvd := dvd_alignDown (q + allocSize) boundary
  have hsub := Nat.le_of_dvd (by omega) (Nat.dvd_sub hdvd hm)
  omega

theorem checkBlock_spec (hq : h.checkBlock c b allocSize alignment boundary = some q) :
    alignment ∣ q ∧ (boundary ≠ 0 → ¬ Crosses c allocSize boundary q) := by
  obtain ⟨q', hloop, hq⟩ := Option.bind_eq_some_iff.mp hq
  dsimp only at hq hloop
  split_ifs at hq with hlow
  cases hq
  have hdvd : ∀ x, x = alignDown (c.sub (c.add (c.add b (h.blockSize b)) c.allocBonus) allocSize)
      alignment → alignment ∣ x := fun x hx => hx ▸ dvd_alignDown _ _
  split_ifs at hloop with hb hceiling hceiling
  · cases hloop; exact ⟨dvd_alignDown _ _, fun hne => (hne hb).elim⟩
  · cases hloop; exact ⟨hdvd _ rfl, fun hne => (hne hb).elim⟩
  · obtain ⟨hd, hline⟩ := boundaryLoop_spec (dvd_alignDown _ _) hloop; exact ⟨hd, fun _ => hline⟩
  · obtain ⟨hd, hline⟩ := boundaryLoop_spec (hdvd _ rfl) hloop; exact ⟨hd, fun _ => hline⟩

theorem fits_spec (hq : h.fits c allocSize alignment boundary b = some q) :
    alignment = 0 ∧ q = c.allocAreaOfBlock b ∨
    alignment ≠ 0 ∧ alignment ∣ q ∧ (boundary ≠ 0 → ¬ Crosses c allocSize boundary q) := by
  unfold fits at hq
  dsimp only at hq
  split_ifs at hq with hsize hal
  · cases hq; exact .inl ⟨hal, rfl⟩
  · exact .inr ⟨hal, checkBlock_spec hq⟩

end Heap

/-! ## Users and their sizes -/

/-- A heap with its users, and the sizes they have asked for. -/
structure HeapUsers where
  system : HeapSystem
  size : ℕ → ℕ

namespace HeapUsers

/-- The sizes after a call. -/
def sizes (c : Cpu) (u : HeapUsers) : HeapOperation → ℕ → ℕ
  | .allocate allocSize alignment boundary =>
    update u.size (u.system.heap.allocate c allocSize alignment boundary).1 allocSize
  | .resize allocBegin newAllocSize =>
    if (u.system.heap.resizeBlock c allocBegin newAllocSize).1 = .successful then
      update u.size allocBegin newAllocSize
    else u.size
  | _ => u.size

def step (c : Cpu) (u : HeapUsers) (op : HeapOperation) : Option HeapUsers :=
  (u.system.step c op).map fun s => ⟨s, u.sizes c op⟩

/-- **A valid heap**: the used blocks are those of the users, with the areas inside. -/
structure Valid (c : Cpu) (u : HeapUsers) (ts : List Tile) (fl : List ℕ) : Prop where
  ok : u.system.Ok c ts fl
  inside : ∀ q ∈ u.system.live, q + u.size q ≤ u.system.heap.areaLimit c q

/-- An alignment is a multiple of the page size, and no memory is added. -/
def Meets (u : HeapUsers) : HeapOperation → Prop
  | .allocate _ alignment _ => u.system.heap.pageSize ∣ alignment
  | .extend _ _ => False
  | _ => True

/-- The area that an allocation returns, in a heap with the free blocks `fl`. -/
structure Area (c : Cpu) (u : HeapUsers) (fl : List ℕ) (allocSize alignment boundary p : ℕ)
    (h' : Heap) : Prop where
  noWrap : p + allocSize < c.modulus
  inFree : ∃ b ∈ fl, b + c.headerSize ≤ p ∧
    p + allocSize ≤ b + u.system.heap.blockSize b + c.allocBonus
  disjoint : ∀ q ∈ u.system.live, p + allocSize ≤ q ∨ q + u.size q ≤ p
  aligned : alignment ≠ 0 → alignment ∣ p
  line : boundary ≠ 0 → ∀ m, boundary ∣ m → m ≤ p ∨ p + allocSize ≤ m
  used : ∃ ts' fl',
    { u.system with heap := h', live := p :: u.system.live : HeapSystem }.Ok c ts' fl'
  inBlock : u.system.heap.pageSize ∣ alignment → p + allocSize ≤ h'.areaLimit c p

/-- What `_Heap_Allocate_aligned_with_boundary` returns. -/
structure Served (c : Cpu) (u : HeapUsers) (fl : List ℕ) (allocSize alignment boundary : ℕ)
    (r : ℕ × Heap) : Prop where
  area : r.1 ≠ 0 → Area c u fl allocSize alignment boundary r.1 r.2
  null : r.1 = 0 → ∃ f, r.2 = u.system.heap.withStats f
  loopEnds : ∀ b ∈ fl, ¬ c.sub (c.add allocSize c.headerSize) c.allocBonus < allocSize →
    c.sub (c.add allocSize c.headerSize) c.allocBonus < (u.system.heap.header b).sizeAndFlag →
    ∀ alignment, WellFounded (Heap.Round c allocSize alignment boundary
      (c.add (c.allocAreaOfBlock b) allocSize))

/-- No word of the memory from `lo` to `hi` is another one. -/
structure Untouched (c : Cpu) (h h' : Heap) (lo hi : ℕ) : Prop where
  prevSize : ∀ y, y < hi → lo < y + c.word → (h'.header y).prevSize = (h.header y).prevSize
  sizeAndFlag : ∀ y, y + c.word < hi → lo < y + 2 * c.word →
    (h'.header y).sizeAndFlag = (h.header y).sizeAndFlag
  next : ∀ y, y + 2 * c.word < hi → lo < y + 3 * c.word → (h'.header y).next = (h.header y).next
  prev : ∀ y, y + 3 * c.word < hi → lo < y + 4 * c.word → (h'.header y).prev = (h.header y).prev

/-- What `_Heap_Resize_block` returns: the status, both sizes and the heap. -/
structure ResizeServed (c : Cpu) (u : HeapUsers) (p newAllocSize : ℕ)
    (r : HeapResizeStatus × ℕ × ℕ × Heap) : Prop where
  status : r.1 = if u.system.heap.areaLimit c p - p + u.system.heap.freeBehind c
    (c.blockOfAllocArea p u.system.heap.pageSize) < newAllocSize then .unsatisfied else .successful
  unchanged : r.1 = .unsatisfied → r.2.2.2 = u.system.heap
  sameBlock : ∃ ts' fl', { u.system with heap := r.2.2.2 : HeapSystem }.Ok c ts' fl'
  oldSize : r.2.1 = u.system.heap.areaLimit c p - p
  newSize : r.1 = .successful →
    r.2.2.1 = r.2.2.2.areaLimit c p - p ∧ newAllocSize ≤ r.2.2.1
  kept : Untouched c u.system.heap r.2.2.2 p
    (p + min (u.system.heap.areaLimit c p - p) r.2.2.1)
  others : ∀ q ∈ u.system.live, q ≠ p →
    Untouched c u.system.heap r.2.2.2 q (u.system.heap.areaLimit c q)

/-! ## Blocks -/

variable {s s' : HeapSystem} {p x y : ℕ}

theorem free_apart (ok : s.Ok c ts fl) (hq : q ∈ s.live)
    (hx : c.blockOfAllocArea q s.heap.pageSize = x) (hy : y ∈ fl) :
    (x + s.heap.blockSize x ≤ y ∨ y + s.heap.blockSize y ≤ x) ∧
      4 * c.word ≤ s.heap.blockSize y := by
  obtain ⟨pre, n, rest, hts, hx'⟩ := ok.exists_tile hq
  obtain ⟨pre', n', rest', hts', rfl⟩ := ok.layout.exists_free hy
  have hmin := ok.layout.geometry.min ⟨n', .free⟩ (by simp [hts']) (.inl rfl)
  rw [← hx, ← hx', ok.layout.size_at hts, ok.layout.size_at hts']
  refine ⟨?_, ok.layout.geometry.header_min.trans hmin⟩
  rcases disjoint_or_eq (hts.symm.trans hts') with hle | hle | ⟨-, he⟩
  · exact .inl (by rw [Nat.add_assoc]; exact Nat.add_le_add_left hle _)
  · exact .inr (by rw [Nat.add_assoc]; exact Nat.add_le_add_left hle _)
  · cases he

theorem live_apart (ok : s.Ok c ts fl) (hp : p ∈ s.live) (hq : q ∈ s.live) (hne : q ≠ p)
    (hx : c.blockOfAllocArea q s.heap.pageSize = x)
    (hy : c.blockOfAllocArea p s.heap.pageSize = y) :
    x ≠ y ∧ (x + s.heap.blockSize x ≤ y ∨ y + s.heap.blockSize y ≤ x) := by
  subst hx hy
  have hnodup := ok.owned.nodup_iff.mpr (nodup_addresses ok.layout.geometry.pos)
  have hblocks := fun he => hne (List.inj_on_of_nodup_map hnodup hq hp he)
  refine ⟨hblocks, ?_⟩
  obtain ⟨pre, n, rest, hts, hx⟩ := ok.exists_tile hq
  obtain ⟨pre', n', rest', hts', hx'⟩ := ok.exists_tile hp
  rw [← hx, ← hx', ok.layout.size_at hts, ok.layout.size_at hts', Nat.add_assoc, Nat.add_assoc]
  rcases disjoint_or_eq (hts.symm.trans hts') with hle | hle | ⟨he, -⟩
  · exact .inl (Nat.add_le_add_left hle _)
  · exact .inr (Nat.add_le_add_left hle _)
  · exact (hblocks (by rw [← hx, ← hx', he])).elim

theorem four_words_le (ok : s.Ok c ts fl) (hq : q ∈ s.live) :
    4 * c.word ≤ s.heap.blockSize (c.blockOfAllocArea q s.heap.pageSize) := by
  obtain ⟨pre, n, rest, hts, hx⟩ := ok.exists_tile hq
  have hmin := ok.layout.geometry.min ⟨n, .used⟩ (by simp [hts]) (.inr rfl)
  rw [← hx, ok.layout.size_at hts]
  exact ok.layout.geometry.header_min.trans hmin

theorem areaLimit_eq {b : Option ℕ} {ts' : List Tile} {fl' : List ℕ} (ok : s.Ok c ts fl)
    (hk : HeapSystem.Kept c s ts b s' ts' fl') (hq : q ∈ s.live) (hq' : q ∈ s'.live)
    (hb : b ≠ some (c.blockOfAllocArea q s.heap.pageSize)) :
    s'.heap.areaLimit c q = s.heap.areaLimit c q := by
  have hpage : s'.heap.pageSize = s.heap.pageSize := congrArg pageSize hk.control
  have hfirst : s'.heap.firstBlock = s.heap.firstBlock := congrArg firstBlock hk.control
  have hmem := ok.owned.mem_iff.mp (List.mem_map_of_mem hq)
  have hmem' := hk.ok.owned.mem_iff.mp (List.mem_map_of_mem hq')
  rw [hpage, hfirst] at hmem'
  rw [Heap.areaLimit, Heap.areaLimit, hpage, hk.sizes _ hmem hmem' hb]

/-! ## Allocations -/

variable {u u' : HeapUsers}

variable (allocSize) in
theorem floor_le (ok : s.Ok c ts fl) (hb : b ∈ fl)
    (hfloor : ¬ c.sub (c.add allocSize c.headerSize) c.allocBonus < allocSize)
    (hsize : c.sub (c.add allocSize c.headerSize) c.allocBonus < (s.heap.header b).sizeAndFlag) :
    allocSize ≤ c.add (c.allocAreaOfBlock b) allocSize := by
  obtain ⟨pre, n, rest, hts, rfl⟩ := ok.layout.exists_free hb
  have hle := ok.layout.sizeAndFlag_le hts rfl
  have hend : s.heap.firstBlock + total pre + n + total rest = s.heap.lastBlock :=
    ok.layout.le_lastBlock hts
  have hlast := ok.layout.lastBlock_lt
  have hheader : c.headerSize = 2 * c.word := rfl
  rw [Cpu.allocAreaOfBlock, add_add, add_eq (by omega)]
  omega

theorem blockOfAllocArea_page {pageSize : ℕ} (hpage : pageSize ∣ q) (hle : c.headerSize ≤ q)
    (hlt : q < c.modulus) : c.blockOfAllocArea q pageSize + c.headerSize = q := by
  rw [Cpu.blockOfAllocArea, alignDown, Nat.mod_eq_zero_of_dvd hpage, Nat.sub_zero, sub_eq hle hlt]
  omega

theorem Valid.served (hv : Valid c u ts fl) (hs : allocSize < c.modulus)
    (ha : alignment < c.modulus) (hb : boundary < c.modulus) :
    Served c u fl allocSize alignment boundary
      (u.system.heap.allocate c allocSize alignment boundary) := by
  have L := hv.ok.layout
  have hloop := fun b (hb : b ∈ fl) hfloor hsize alignment =>
    Heap.wellFounded_round (c := c) alignment boundary (floor_le allocSize hv.ok hb hfloor hsize)
  have hstep : HeapSystem.step c u.system (.allocate allocSize alignment boundary) =
      some { u.system with
        heap := (u.system.heap.allocate c allocSize alignment boundary).2
        live := if (u.system.heap.allocate c allocSize alignment boundary).1 = 0 then u.system.live
          else (u.system.heap.allocate c allocSize alignment boundary).1 :: u.system.live } :=
    if_pos ⟨hs, ha, hb⟩
  obtain ⟨ts', fl', hk⟩ := hv.ok.allocate hstep
  clear hstep
  have hres : Allocated c _ _ ts fl allocSize alignment boundary _ := L.allocate rfl hs
  generalize u.system.heap.allocate c allocSize alignment boundary = r at hres hk
  cases hres with
  | failed f _ _ _ => exact ⟨fun hne => (hne rfl).elim, fun _ => ⟨f, rfl⟩, hloop⟩
  | served pre rest mid n fl' q h' htiles hbound hfits hfit htaken hlayout hroom hcontrol hcount =>
    have hts : ts = pre ++ ⟨n, .free⟩ :: rest := htiles.trans (by simp)
    have hfree : u.system.heap.firstBlock + total pre ∈ fl :=
      L.members.mem_iff.mpr (mem_addresses.mpr ⟨pre, _, rest, hts, rfl, rfl⟩)
    have hend : u.system.heap.firstBlock + total pre + n + total rest = u.system.heap.lastBlock :=
      L.le_lastBlock hts
    have hlast := L.lastBlock_lt
    have hlow := hfit.low
    have hhigh := hfit.high
    have hheader : c.headerSize = 2 * c.word := rfl
    have hbonus : c.allocBonus = c.word := rfl
    have hword := c.word_pos
    have hlt : q + allocSize < c.modulus := by omega
    rw [if_neg (show (q, h').1 ≠ 0 by dsimp only; omega)] at hk
    refine ⟨fun _ => ⟨hlt, ⟨_, hfree, hlow, ?_⟩, fun q' hq' => ?_, fun hne => ?_,
      fun hne m hm => ?_, ⟨ts', _, hk.ok⟩, fun hpage => ?_⟩, fun h0 => by dsimp only at h0; omega, hloop⟩
    · rw [L.size_at hts]; exact hhigh
    · -- the block of another area is on one side of the free one
      have hin := hv.inside q' hq'
      have hlow' := (hv.ok.bounds q' hq').2.1
      obtain ⟨happart, -⟩ := free_apart hv.ok hq' rfl hfree
      rw [L.size_at hts] at happart
      rw [Heap.areaLimit] at hin
      dsimp only at happart ⊢
      omega
    · rcases Heap.fits_spec hfits with ⟨hal, -⟩ | ⟨-, hdvd, -⟩
      · rw [if_neg fun hb => hne hb.2] at hal; exact (hne hal).elim
      · rwa [if_neg fun hb => hne hb.2] at hdvd
    · rcases Heap.fits_spec hfits with ⟨hal, -⟩ | ⟨-, -, hline⟩
      · have hpage : 0 < u.system.heap.pageSize := L.geometry.page_pos
        split_ifs at hal with hz
        · omega
        · exact (hz ⟨hne, hal⟩).elim
      · exact Heap.boundary_outside hne (hbound hne) hlt (hline hne) hm
    · have hdvd : u.system.heap.pageSize ∣ q := by
        rcases Heap.fits_spec hfits with ⟨-, rfl⟩ | ⟨-, hdvd, -⟩
        · rw [Cpu.allocAreaOfBlock, add_eq (by omega)]; exact L.geometry.page_at hts
        · refine Nat.dvd_trans ?_ hdvd
          split_ifs
          · exact Nat.dvd_refl _
          · exact hpage
      have hbegin := blockOfAllocArea_page (c := c) hdvd (by omega) (by omega)
      have hsame : h'.pageSize = u.system.heap.pageSize := congrArg pageSize hcontrol
      rw [Heap.areaLimit, hsame]
      dsimp only
      omega

/-! ## Resizes -/

variable {newAllocSize : ℕ}

theorem Valid.resizing (hv : Valid c u ts fl) (newAllocSize : ℕ) (hp : p ∈ u.system.live)
    (hx : c.blockOfAllocArea p u.system.heap.pageSize = x) :
    Resizing c u.system.heap x (u.system.heap.blockSize x) (u.system.heap.freeBehind c x) p
      newAllocSize fl (u.system.heap.resizeBlock c p newAllocSize) := by
  subst hx
  obtain ⟨pre, n, rest, rfl, hb⟩ := hv.ok.exists_tile hp
  obtain ⟨hlt, hlow, hpage⟩ := hv.ok.bounds p hp
  have hsize := hv.ok.layout.size_at rfl
  have hle := Nat.le_of_add_right_le (hv.inside p hp)
  rw [← hb] at hlow hpage
  rw [Heap.areaLimit, ← hb, hsize] at hle
  rw [Heap.freeBehind, ← hb, hsize]
  exact (hv.ok.layout.resizeBlock rfl rfl hb.symm hlow hpage hlt (.inl hle)).2.2 hle

theorem Untouched.of_changes {x lo hi : ℕ} (hc : Changes h h' b x fl)
    (hs : ∀ y, y = b ∨ y = b + h'.blockSize b ∨ y = x → hi ≤ y + c.word ∨ y + 2 * c.word ≤ lo)
    (hx : b + h'.blockSize b ≠ x → hi ≤ x ∨ x + c.word ≤ lo)
    (hl : ∀ y, y ∈ fl ∨ y = b + h'.blockSize b ∧ b + h'.blockSize b ≠ x →
      hi ≤ y + 2 * c.word ∨ y + 4 * c.word ≤ lo) : Untouched c h h' lo hi := by
  have hlinks : ∀ y, y + 2 * c.word < hi → lo < y + 4 * c.word →
      h'.nextOf (.block y) = h.nextOf (.block y) ∧ h'.prevOf (.block y) = h.prevOf (.block y) := by
    intro y h1 h2
    have hout : ¬ (y ∈ fl ∨ y = b + h'.blockSize b ∧ b + h'.blockSize b ≠ x) := fun hy => by
      have hclear := hl y hy
      omega
    exact hc.links y (fun hm => hout (.inl hm)) (by tauto)
  refine ⟨fun y h1 h2 => hc.prevSize y ?_, fun y h1 h2 => ?_,
    fun y h1 h2 => (hlinks y h1 (by omega)).1, fun y h1 h2 => (hlinks y (by omega) h2).2⟩
  · by_contra hy
    push Not at hy
    omega
  · have hout : ¬ (y = b ∨ y = b + h'.blockSize b ∨ y = x) := fun hy => by
      have hclear := hs y hy
      omega
    push Not at hout
    obtain ⟨hsize, hflag⟩ := hc.size y hout.1 hout.2.1 hout.2.2
    unfold Heap.blockSize withoutFlag at hsize
    unfold Heap.IsPrevUsed at hflag
    omega

section

variable (hv : Valid c u ts fl)

include hv

theorem Valid.resizable (hp : p ∈ u.system.live) :
    HeapSystem.Resizable c u.system (.resize p newAllocSize) :=
  .inl (Nat.le_of_add_right_le (hv.inside p hp))

theorem Valid.resizeServed (hp : p ∈ u.system.live) (hs : newAllocSize < c.modulus) :
    ResizeServed c u p newAllocSize (u.system.heap.resizeBlock c p newAllocSize) := by
  have hstep : HeapSystem.step c u.system (.resize p newAllocSize) =
      some { u.system with heap := (u.system.heap.resizeBlock c p newAllocSize).2.2.2 } :=
    if_pos ⟨hp, hs⟩
  obtain ⟨ts', fl', hk⟩ := hv.ok.resize (hv.resizable hp) hstep
  have hpage : (u.system.heap.resizeBlock c p newAllocSize).2.2.2.pageSize =
    u.system.heap.pageSize := congrArg pageSize Heap.control_resizeBlock
  have hres := hv.resizing newAllocSize hp rfl
  clear hstep
  generalize u.system.heap.resizeBlock c p newAllocSize = r at hres hk hpage
  have hin := hv.inside p hp
  have hlow := (hv.ok.bounds p hp).2.1
  have hheader : c.headerSize = 2 * c.word := rfl
  have hbonus : c.allocBonus = c.word := rfl
  have hlimit : u.system.heap.areaLimit c p = c.blockOfAllocArea p u.system.heap.pageSize +
    u.system.heap.blockSize (c.blockOfAllocArea p u.system.heap.pageSize) + c.allocBonus := rfl
  cases hres with
  | unsatisfied hsize =>
    exact ⟨(if_pos hsize).symm, fun _ => rfl, ⟨ts', fl', hk.ok⟩, rfl, nofun,
      ⟨fun _ _ _ => rfl, fun _ _ _ => rfl, fun _ _ _ => rfl, fun _ _ _ => rfl⟩,
      fun _ _ _ => ⟨fun _ _ _ => rfl, fun _ _ _ => rfl, fun _ _ _ => rfl, fun _ _ _ => rfl⟩⟩
  | successful h' hsize hroom hle hfree hchanges =>
    refine ⟨(if_neg (Nat.not_lt.mpr hsize)).symm, nofun, ⟨ts', fl', hk.ok⟩, rfl, fun _ => ⟨?_, ?_⟩,
      .of_changes hchanges ?_ ?_ ?_, fun q hq hne => ?_⟩
    · rw [Heap.areaLimit, hpage]
    · dsimp only; omega
    · dsimp only; omega
    · dsimp only; omega
    · rintro z (hz | ⟨rfl, hne⟩)
      · obtain ⟨hapart, hmin⟩ := free_apart hv.ok hp rfl hz; dsimp only; omega
      · dsimp only; omega
    · -- the block of another area is before the block, or behind it and the free one
      have hlow' := (hv.ok.bounds q hq).2.1
      have hword := c.word_pos
      have hsize'' := four_words_le hv.ok hq
      generalize hx : c.blockOfAllocArea q u.system.heap.pageSize = x at hlow' hsize''
      generalize hy : c.blockOfAllocArea p u.system.heap.pageSize = y at *
      obtain ⟨-, hapart⟩ := live_apart hv.ok hp hq hne hx hy
      have hbehind : x + u.system.heap.blockSize x ≤ y ∨
          y + (u.system.heap.blockSize y + u.system.heap.freeBehind c y) ≤ x := by
        rcases hfree with hk0 | ⟨hmem, hk0⟩
        · omega
        · obtain ⟨hapart', -⟩ := free_apart hv.ok hq hx hmem; omega
      rw [Heap.areaLimit, hx]
      change Untouched c u.system.heap h' q _
      refine .of_changes hchanges ?_ ?_ ?_
      · omega
      · omega
      · rintro z (hz | ⟨rfl, hne⟩)
        · obtain ⟨hapart', hmin⟩ := free_apart hv.ok hq hx hz; omega
        · omega

/-! ## Runs -/

theorem Valid.step {op : HeapOperation} (hop : Meets u op) (hstep : step c u op = some u') :
    ∃ ts' fl', Valid c u' ts' fl' := by
  obtain ⟨s', hs', rfl⟩ := Option.map_eq_some_iff.mp hstep
  cases op with
  | allocate allocSize alignment boundary =>
    obtain ⟨ts', fl', hk⟩ := hv.ok.allocate hs'
    refine ⟨ts', fl', hk.ok, fun q hq => ?_⟩
    have hne := hk.ok.ne_zero hq
    obtain ⟨⟨hs, ha, hb⟩, rfl⟩ := HeapSystem.step_allocate hs'
    by_cases he : q = (u.system.heap.allocate c allocSize alignment boundary).1
    · subst he
      change _ + update u.size _ allocSize _ ≤ _
      rw [update_self]
      exact ((hv.served hs ha hb).area hne).inBlock hop
    · have hmem : q ∈ u.system.live := by
        split_ifs at hq
        · exact hq
        · exact (List.mem_cons.mp hq).resolve_left he
      change _ + update u.size _ allocSize _ ≤ _
      rw [update_of_ne he, areaLimit_eq hv.ok hk hmem hq nofun]
      exact hv.inside q hmem
  | free allocBegin =>
    obtain ⟨ts', fl', hk⟩ := hv.ok.free hs'
    refine ⟨ts', fl', hk.ok, fun q hq => ?_⟩
    obtain ⟨-, rfl⟩ := HeapSystem.of_guard hs'
    have hmem := List.mem_of_mem_erase hq
    rw [areaLimit_eq hv.ok hk hmem hq nofun]
    exact hv.inside q hmem
  | resize p newAllocSize =>
    have hmem := (HeapSystem.of_guard hs').1.1
    obtain ⟨ts', fl', hk⟩ := hv.ok.resize (hv.resizable hmem) hs'
    refine ⟨ts', fl', hk.ok, fun q hq => ?_⟩
    have hpage : s'.heap.pageSize = u.system.heap.pageSize := congrArg pageSize hk.control
    by_cases he : q = p
    · subst he
      obtain ⟨-, rfl⟩ := HeapSystem.of_guard hs'
      have hres := hv.resizing newAllocSize hmem rfl
      clear hk hs' hstep hq
      change q + (if (u.system.heap.resizeBlock c q newAllocSize).1 = .successful then
        update u.size q newAllocSize else u.size) q ≤
          (u.system.heap.resizeBlock c q newAllocSize).2.2.2.areaLimit c q
      generalize u.system.heap.resizeBlock c q newAllocSize = r at hres hpage
      cases hres with
      | unsatisfied hsize => exact hv.inside q hmem
      | successful h' hsize hroom hle hfree hchanges =>
        rw [if_pos rfl, update_self, Heap.areaLimit, hpage]; exact hroom
    · have hq' : q ∈ u.system.live := by obtain ⟨-, rfl⟩ := HeapSystem.of_guard hs'; exact hq
      have hsize : u.sizes c (.resize p newAllocSize) q = u.size q := by
        change (if _ then update u.size p newAllocSize else u.size) q = u.size q
        split_ifs
        · exact update_of_ne he _ _
        · rfl
      change q + u.sizes c (.resize p newAllocSize) q ≤ _
      rw [hsize, areaLimit_eq hv.ok hk hq' hq fun hb =>
        (live_apart hv.ok hmem hq' he rfl rfl).1 (Option.some.inj hb).symm]
      exact hv.inside q hq'
  | extend areaBegin areaSize => exact hop.elim

theorem Valid.run {ops : List HeapOperation} (hops : Along (HeapUsers.step c) Meets u ops)
    (hrun : run (HeapUsers.step c) u ops = some u') : ∃ ts' fl', Valid c u' ts' fl' := by
  refine run_invariant_along (HeapUsers.step c) (P := fun u => ∃ ts fl, Valid c u ts fl) ?_
    ⟨ts, fl, hv⟩ hops hrun
  rintro u op u' ⟨ts, fl, hv⟩ hop hstep
  exact hv.step hop hstep

end

theorem Valid.boot (hboot : HeapSystem.Boot c s) (size : ℕ → ℕ) :
    ∃ ts fl, Valid c ⟨s, size⟩ ts fl := by
  obtain ⟨n, ok⟩ := HeapSystem.Ok.boot hboot
  refine ⟨_, _, ok, fun q hq => ?_⟩
  obtain ⟨_, _, _, _, _, _, _, _, hlive, -⟩ := hboot
  rw [hlive] at hq
  cases hq

instance (u : HeapUsers) : (op : HeapOperation) → Decidable (Meets u op)
  | .allocate _ _ _ => inferInstanceAs (Decidable (_ ∣ _))
  | .extend _ _ => inferInstanceAs (Decidable False)
  | .free _ | .resize _ _ => inferInstanceAs (Decidable True)

variable {u₀ : HeapUsers} {ops : List HeapOperation}

/-- A heap with users that have nothing. -/
def users108 : HeapUsers := ⟨heap108, fun _ => 0⟩

def force {α : Type} (rs : List HeapRef) (u : HeapUsers) (k : HeapUsers → α) : α :=
  u.system.force rs fun s => k ⟨s, u.size⟩

theorem force_eq {α : Type} (rs : List HeapRef) (u : HeapUsers) (k : HeapUsers → α) :
    u.force rs k = k u :=
  HeapSystem.force_eq rs u.system fun s => k ⟨s, u.size⟩

end HeapUsers

end Rtems
