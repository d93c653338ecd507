import Rtems.Score.HeapBlock

/-!
# The search for a block

* `fits`, **`fit`**: an area that `_Heap_Check_block` finds is in a free block;
* **`search_eq`**: the search finds the first block of the free list that fits;
* **`allocate`**: an allocation takes a part of a free block, or changes the statistics only.
-/

namespace Rtems

open BoundaryTag Circular Cpu Nat

variable {c : Cpu} {h : Heap} {e : ℕ} {ts pre rest : List Tile} {fl : List ℕ}
  {b n allocSize alignment boundary : ℕ}

/-! ## Areas that fit -/

theorem le_of_dvd_lt_add {x y p : ℕ} (hx : p ∣ x) (hy : p ∣ y) (hlt : x < y + p) : x ≤ y := by
  by_contra hle
  have hge := le_of_dvd (by omega) (dvd_sub hx hy)
  omega

namespace Heap

theorem boundaryLoop_le {boundaryFloor fuel allocBegin q : ℕ}
    (hfloor : allocSize ≤ boundaryFloor) (hlt : allocBegin + allocSize < c.modulus)
    (hq : boundaryLoop c allocSize alignment boundary boundaryFloor fuel allocBegin = some q) :
    q ≤ allocBegin := by
  induction fuel generalizing allocBegin with
  | zero => cases hq
  | succ fuel ih =>
    rw [boundaryLoop, add_eq hlt] at hq
    by_cases hline : allocBegin < Cpu.alignDown (allocBegin + allocSize) boundary ∧
        Cpu.alignDown (allocBegin + allocSize) boundary < allocBegin + allocSize
    · rw [if_pos hline] at hq
      by_cases hf : Cpu.alignDown (allocBegin + allocSize) boundary < boundaryFloor
      · rw [if_pos hf] at hq; cases hq
      · rw [if_neg hf, sub_eq (by omega) (by omega)] at hq
        have hdown := alignDown_le
          (Cpu.alignDown (allocBegin + allocSize) boundary - allocSize) alignment
        have hle := ih (by omega) hq
        omega
    · rw [if_neg hline] at hq; cases hq; exact le_refl _

end Heap

namespace Layout

section Fit

variable (L : Layout c h e none ts fl) (hts : ts = pre ++ ⟨n, .free⟩ :: rest)
  (hb : h.firstBlock + total pre = b)

include L hts hb

theorem sizeAndFlag_le : (h.header b).sizeAndFlag ≤ n + 1 := by
  have hsize : withoutFlag (h.header (h.firstBlock + total pre)).sizeAndFlag = n := L.size_at hts
  rw [hb, withoutFlag] at hsize
  omega

theorem fit_begin (hsize : allocSize + c.word ≤ n) :
    Fit c h.control b n allocSize (b + c.headerSize) := by
  have hend := L.le_lastBlock hts
  have hlast := L.lastBlock_lt
  have hpage := L.geometry.page_at hts
  change h.pageSize ∣ h.firstBlock + total pre + c.headerSize at hpage
  have hheader : c.headerSize = 2 * c.word := rfl
  have hbonus : c.allocBonus = c.word := rfl
  simp only [hb] at hend hpage
  obtain ⟨m, hm, -, hm1, -⟩ := blockOfAllocArea_eq L.geometry.page_pos hpage (le_refl _) (by omega)
  refine ⟨le_refl _, by omega, .inl ?_⟩
  omega

theorem fit_checkBlock {q : ℕ} (hsize : allocSize + c.word ≤ n)
    (hq : h.checkBlock c b allocSize alignment boundary = some q) :
    Fit c h.control b n allocSize q := by
  have hend := L.le_lastBlock hts
  have hlast := L.lastBlock_lt
  have hpage := L.geometry.page_at hts
  change h.pageSize ∣ h.firstBlock + total pre + c.headerSize at hpage
  have hblock := L.size_at hts
  have hadd := L.add_size hts
  have hmem : ⟨n, .free⟩ ∈ ts := by simp [hts]
  have hn : h.minBlockSize ≤ n := L.geometry.min _ hmem (.inl rfl)
  have hpn : h.pageSize ∣ n := L.geometry.pages _ hmem
  have hpM : h.pageSize ∣ h.minBlockSize := L.geometry.page_min
  have hM : 4 * c.word ≤ h.minBlockSize := L.geometry.header_min
  have hpM' : h.pageSize ≤ h.minBlockSize := le_of_dvd (by have := c.word_pos; omega) hpM
  have hp : 0 < h.pageSize := L.geometry.page_pos
  have hheader : c.headerSize = 2 * c.word := rfl
  have hbonus : c.allocBonus = c.word := rfl
  simp only [hb] at hend hpage hblock hadd
  -- the ceiling leaves room for a block behind the begin of the area
  have hceiling : c.sub (c.add (c.add (c.sub (b + n) h.minBlockSize) c.headerSize) h.pageSize) 1 =
      b + n - h.minBlockSize + c.headerSize + h.pageSize - 1 := by
    rw [sub_eq (a := b + n) (by omega) (by omega), add_add, add_eq (by omega),
      sub_eq (by omega) (by omega)]
    omega
  have hstart :
      c.sub (c.add (b + n) c.allocBonus) allocSize = b + n + c.allocBonus - allocSize := by
    rw [add_eq (by omega), sub_eq (by omega) (by omega)]
  have hfloor : c.allocAreaOfBlock b = b + c.headerSize := add_eq (by omega)
  have hbfloor : c.add (b + c.headerSize) allocSize = b + c.headerSize + allocSize :=
    add_eq (by omega)
  unfold Heap.checkBlock at hq
  simp only [hblock, hadd, hceiling, hstart, hfloor, hbfloor] at hq
  clear hceiling hstart hfloor hbfloor
  replace hq := Option.bind_eq_some_iff.mp hq
  obtain ⟨q', hloop, hq⟩ := hq
  obtain ⟨begin2, hbegin2⟩ : ∃ x, (if b + n - h.minBlockSize + c.headerSize + h.pageSize - 1 <
      Cpu.alignDown (b + n + c.allocBonus - allocSize) alignment
      then Cpu.alignDown (b + n - h.minBlockSize + c.headerSize + h.pageSize - 1) alignment
      else Cpu.alignDown (b + n + c.allocBonus - allocSize) alignment) = x := ⟨_, rfl⟩
  rw [hbegin2] at hloop
  have hle : begin2 + allocSize ≤ b + n + c.allocBonus ∧
      begin2 + h.minBlockSize < b + n + c.headerSize + h.pageSize := by
    have hd1 := alignDown_le (b + n + c.allocBonus - allocSize) alignment
    have hd2 := alignDown_le (b + n - h.minBlockSize + c.headerSize + h.pageSize - 1) alignment
    rw [← hbegin2]
    split_ifs
    · omega
    · omega
  have hq' : q' ≤ begin2 := by
    by_cases hbd : boundary = 0
    · rw [if_pos hbd] at hloop; cases hloop; exact le_refl _
    · rw [if_neg hbd] at hloop; exact Heap.boundaryLoop_le (by omega) (by omega) hloop
  clear hbegin2 hloop
  split_ifs at hq with hlow hfree
  cases hq
  obtain ⟨m, hm, hpm, hm1, hm2⟩ := blockOfAllocArea_eq hp hpage hlow (by omega)
  rw [hm, sub_eq (by omega) (by omega), Nat.add_sub_cancel_left] at hfree
  refine ⟨hlow, by omega, ?_⟩
  change c.blockOfAllocArea q h.pageSize = b ∨ b + h.minBlockSize ≤
    c.blockOfAllocArea q h.pageSize ∧ c.blockOfAllocArea q h.pageSize + h.minBlockSize ≤ b + n
  have hmn : m ≤ n - h.minBlockSize := le_of_dvd_lt_add hpm (dvd_sub hpn hpM) (by omega)
  omega

theorem fit {q : ℕ}
    (hfloor : c.sub (c.add allocSize c.headerSize) c.allocBonus = allocSize + c.word)
    (hq : h.fits c allocSize alignment boundary b = some q) : Fit c h.control b n allocSize q := by
  have hsize := L.sizeAndFlag_le hts hb
  have hend := L.le_lastBlock hts
  have hlast := L.lastBlock_lt
  unfold Heap.fits at hq
  dsimp only at hq
  split_ifs at hq with hlt halign
  · cases hq
    rw [Cpu.allocAreaOfBlock, add_eq (by rw [Cpu.headerSize]; omega)]
    exact L.fit_begin hts hb (by omega)
  · exact L.fit_checkBlock hts hb (by omega) hq

end Fit

end Layout

/-! ## The free list -/

theorem Heap.search_eq {fuel count : ℕ}
    (hl : Linked h.nextOf h.prevOf (fl.map .block ++ [.freeList])) (hfuel : fl.length < fuel) :
    (h.search c allocSize alignment boundary fuel ((fl.map .block).headD .freeList) count).1 =
      fl.findSome? fun b => (h.fits c allocSize alignment boundary b).map fun q => (b, q) := by
  induction fl generalizing fuel count with
  | nil => obtain ⟨fuel, rfl⟩ := exists_eq_succ_of_ne_zero (ne_of_gt hfuel); rfl
  | cons b fl ih =>
    obtain ⟨fuel, rfl⟩ := exists_eq_succ_of_ne_zero (ne_of_gt (zero_lt_of_lt hfuel))
    have hnext : (h.header b).next = (fl.map HeapRef.block).headD .freeList := by
      cases fl with
      | nil | cons b' fl => exact (List.isChain_cons_cons.mp hl).1.1
    rw [List.findSome?_cons, List.map_cons, List.headD_cons, Heap.search]
    cases hfit : h.fits c allocSize alignment boundary b with
    | some q => rfl
    | none => rw [hnext]; exact ih (List.isChain_cons.mp hl).2 (lt_of_succ_lt_succ hfuel)

namespace Layout

theorem length_lt (L : Layout c h e none ts fl) : fl.length < c.modulus := by
  have hlast := L.lastBlock_lt
  have hends : h.firstBlock + total ts = h.lastBlock := L.geometry.ends
  have hle : (addresses isFree h.firstBlock ts).length ≤ total ts :=
    length_addresses_le L.geometry.pos
  rw [L.members.length_eq]
  omega

theorem search_eq {count : ℕ} (L : Layout c h e none ts fl) :
    (h.search c allocSize alignment boundary c.modulus (h.block .freeList).next count).1 =
      fl.findSome? fun b => (h.fits c allocSize alignment boundary b).map fun q => (b, q) := by
  have hl := L.circle.linked
  have hnext : (h.block .freeList).next = (fl.map HeapRef.block).headD .freeList := by
    cases fl with
    | nil | cons b fl => exact (List.isChain_cons_cons.mp hl).1.1
  rw [hnext]
  exact Heap.search_eq (List.isChain_cons.mp hl).2 L.length_lt

end Layout

theorem Cpu.floor_eq (hs : allocSize < c.modulus)
    (hfloor : ¬ c.sub (c.add allocSize c.headerSize) c.allocBonus < allocSize) :
    c.sub (c.add allocSize c.headerSize) c.allocBonus = allocSize + c.word := by
  have hw := c.le_modulus
  have hsum : c.sub (c.add allocSize c.headerSize) c.allocBonus =
      (allocSize + c.word) % c.modulus := by
    have hle : c.add allocSize c.headerSize + c.modulus - c.word =
        c.add allocSize c.headerSize + (c.modulus - c.word) := by omega
    have hle' : allocSize + c.headerSize + (c.modulus - c.word) =
        allocSize + c.word + c.modulus := by
      rw [Cpu.headerSize]
      omega
    rw [Cpu.sub, Cpu.allocBonus, hle, Cpu.add, mod_add_mod, hle', add_mod_right]
  rw [hsum] at hfloor ⊢
  by_cases hlt : allocSize + c.word < c.modulus
  · exact mod_eq_of_lt hlt
  · rw [mod_eq_sub_mod (by omega), mod_eq_of_lt (by omega)] at hfloor; omega

/-- An allocation changes the statistics only, or makes a free block used. -/
inductive Allocated (c : Cpu) (h : Heap) (e : ℕ) (ts : List Tile) (fl : List ℕ)
    (allocSize alignment boundary : ℕ) : ℕ × Heap → Prop
  | failed (f : HeapStatistics → HeapStatistics)
      (hfreeSize : (f h.stats).freeSize = h.stats.freeSize)
      (hfreeBlocks : (f h.stats).freeBlocks = h.stats.freeBlocks)
      (husedBlocks : (f h.stats).usedBlocks = h.stats.usedBlocks) :
      Allocated c h e ts fl allocSize alignment boundary (0, h.withStats f)
  | served (pre rest mid : List Tile) (n : ℕ) (fl' : List ℕ) (allocBegin : ℕ) (h' : Heap)
      (htiles : ts = pre ++ [⟨n, .free⟩] ++ rest)
      (hboundary : boundary ≠ 0 → allocSize ≤ boundary)
      (hfits : h.fits c allocSize (if boundary ≠ 0 ∧ alignment = 0 then h.pageSize else alignment)
        boundary (h.firstBlock + total pre) = some allocBegin)
      (hfit : Fit c h.control (h.firstBlock + total pre) n allocSize allocBegin)
      (htaken : Taken (h.firstBlock + total pre) n
        (c.blockOfAllocArea allocBegin h.pageSize) mid)
      (hlayout : Layout c h' e none (pre ++ mid ++ rest) fl')
      (hroom : allocSize + c.headerSize ≤
        h'.blockSize (c.blockOfAllocArea allocBegin h.pageSize) + c.allocBonus)
      (hcontrol : h'.control = h.control)
      (husedBlocks : h'.stats.usedBlocks = increment h.stats.usedBlocks) :
      Allocated c h e ts fl allocSize alignment boundary (allocBegin, h')

namespace Layout

theorem allocate (L : Layout c h e none ts fl) (he : e = c.sub h.firstBlock h.lastBlock)
    (hs : allocSize < c.modulus) :
    Allocated c h e ts fl allocSize alignment boundary
      (h.allocate c allocSize alignment boundary) := by
  unfold Heap.allocate
  by_cases hfloor : c.sub (c.add allocSize c.headerSize) c.allocBonus < allocSize
  · simp only [if_pos hfloor]; exact .failed id rfl rfl rfl
  by_cases hbound : boundary ≠ 0 ∧ boundary < allocSize
  · simp only [if_neg hfloor, if_pos hbound]; exact .failed id rfl rfl rfl
  simp only [if_neg hfloor, if_neg hbound]
  obtain ⟨al, hal⟩ : ∃ al, (if boundary ≠ 0 ∧ alignment = 0 then h.pageSize else alignment) = al :=
    ⟨_, rfl⟩
  rw [hal]
  have hfloor' := floor_eq hs hfloor
  have hsearch : (h.search c allocSize al boundary c.modulus (h.block .freeList).next 0).1 = _ :=
    L.search_eq
  generalize h.search c allocSize al boundary c.modulus (h.block .freeList).next 0 = r at hsearch
  obtain ⟨found, count⟩ := r
  cases found with
  | none =>
    exact .failed (fun s =>
      { s with
        failedAllocs := increment s.failedAllocs
        maxSearch := max s.maxSearch count }) rfl rfl rfl
  | some found =>
    obtain ⟨b, q⟩ := found
    -- the block is a member of the free list, and so it is a free tile
    obtain ⟨b', hmem, hfit⟩ := List.exists_of_findSome?_eq_some hsearch.symm
    obtain ⟨q', hq', he'⟩ := Option.map_eq_some_iff.mp hfit
    cases he'
    obtain ⟨pre, n, rest, hts, rfl⟩ := L.exists_free hmem
    have hfit := L.fit hts rfl hfloor' hq'
    have hts' : ts = pre ++ [⟨n, .free⟩] ++ rest := by rw [hts]; simp
    rw [hts'] at L
    obtain ⟨mid, fl', htaken, L', hroom⟩ := L.blockAllocate rfl he hfit
    have hunused : ¬ h.IsUsed c (h.firstBlock + total pre) := by
      rw [L.isUsed_iff (hts'.symm.trans hts) (by simp)]; exact not_not.mpr rfl
    have hspec := Heap.blockAllocate_spec c h (h.firstBlock + total pre) q allocSize
    rw [if_neg hunused] at hspec
    refine .served pre rest mid n fl' q _ hts' (by omega) (hal ▸ hq') hfit htaken ?_ hroom hspec.1
      hspec.2
    rw [Heap.withStats_withStats]
    exact L'.withStats rfl rfl

end Layout

end Rtems
