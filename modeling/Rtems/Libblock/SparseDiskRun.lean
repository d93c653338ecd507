import Rtems.Lib.Trace
import Rtems.Libblock.SparseDisk
import Mathlib.Data.Finset.Card
import Mathlib.Data.Finset.Dedup

/-!
# A sparse disk is an array of blocks

* `BlockArray`, `ArrayStep`: an array of blocks, and what the requests do with it;
* `Shows`: the table is sorted, and its buffers have the blocks of the array;
* `ascends`: a block that gets a buffer is behind all blocks that have one;
* **`disk_exact`**: over every sequence of requests of this kind the disk is an array of blocks.
  `exists_wrong_buffer` is a request of another kind.
-/

namespace Rtems.Libblock

open Function List Trace

/-! ## Arrays of blocks -/

/-- The blocks, and which were written with more than the fill pattern. -/
structure BlockArray where
  contents : ℕ → List UInt8
  buffered : Finset ℕ

/-- The numbers of blocks one behind the other. -/
def numbers : ℕ → ℕ → List ℕ
  | 0, _ => []
  | n + 1, block => block :: numbers n ((block + 1) % 2 ^ 32)

def pieces (size : ℕ) : ℕ → ℕ → List UInt8 → List (ℕ × List UInt8)
  | 0, _, _ => []
  | n + 1, block, buffer =>
    (block, buffer.take size) :: pieces size n ((block + 1) % 2 ^ 32) (buffer.drop size)

def SgBuffer.count (size : ℕ) (b : SgBuffer) : ℕ := b.buffer.length / size

def DiskRequest.pieces (size : ℕ) (req : DiskRequest) : List (ℕ × List UInt8) :=
  req.bufs.flatMap fun b => Libblock.pieces size (b.count size) b.block b.buffer

namespace BlockArray

def initial (fill : List UInt8) : BlockArray := ⟨fun _ => fill, ∅⟩

def store (fill : List UInt8) (a : BlockArray) (p : ℕ × List UInt8) : BlockArray :=
  ⟨update a.contents p.1 p.2,
    if p.2 = fill then a.buffered else insert p.1 a.buffered⟩

def storeAll (fill : List UInt8) (a : BlockArray) (ps : List (ℕ × List UInt8)) : BlockArray :=
  ps.foldl (store fill) a

/-- A new block needs a buffer, and all are in use. -/
def Refuses (limit : ℕ) (fill : List UInt8) (a : BlockArray) (p : ℕ × List UInt8) : Prop :=
  p.1 ∉ a.buffered ∧ p.2 ≠ fill ∧ a.buffered.card = limit

def load (size : ℕ) (a : BlockArray) (b : SgBuffer) : List UInt8 :=
  (numbers (b.count size) b.block).flatMap a.contents

end BlockArray

/-- A read gives the blocks of an array, a write stores them, up to a refused one. -/
inductive ArrayStep (size limit : ℕ) (fill : List UInt8) :
    BlockArray → DiskRequest → DiskStatus × List (List UInt8) → BlockArray → Prop
  | read {a : BlockArray} {bufs : List SgBuffer} : ArrayStep size limit fill a ⟨true, bufs⟩
      (.successful, bufs.map (a.load size)) a
  | wrote {a : BlockArray} {bufs : List SgBuffer} : ArrayStep size limit fill a ⟨false, bufs⟩
      (.successful, bufs.map SgBuffer.buffer)
      (a.storeAll fill (DiskRequest.pieces size ⟨false, bufs⟩))
  | refused {a : BlockArray} {bufs : List SgBuffer} {before after : List (ℕ × List UInt8)}
      {p : ℕ × List UInt8} (hpieces : DiskRequest.pieces size ⟨false, bufs⟩ = before ++ p :: after)
      (hrefuses : (a.storeAll fill before).Refuses limit fill p) :
      ArrayStep size limit fill a ⟨false, bufs⟩ (.ioError, bufs.map SgBuffer.buffer)
        (a.storeAll fill before)

variable {r : DiskStatus × List (List UInt8)} {bufs : List SgBuffer}

theorem ArrayStep.of_read {size limit : ℕ} {fill : List UInt8} {a a' : BlockArray}
    (h : ArrayStep size limit fill a ⟨true, bufs⟩ r a') : r.2 = bufs.map (a.load size) := by
  cases h
  rfl

theorem ArrayStep.of_wrote {size limit : ℕ} {fill : List UInt8} {a a' : BlockArray}
    (h : ArrayStep size limit fill a ⟨false, bufs⟩ r a') (hr : r.1 = .successful) :
    a' = a.storeAll fill (DiskRequest.pieces size ⟨false, bufs⟩) := by
  cases h with
  | wrote => rfl
  | refused hpieces hrefuses => cases hr

/-- Each block that gets a buffer is behind all blocks that have one. -/
def ascends (limit : ℕ) (fill : List UInt8) : List ℕ → List (ℕ × List UInt8) → Bool
  | _, [] => true
  | blocks, p :: ps =>
    if p.1 ∈ blocks ∨ p.2 = fill then ascends limit fill blocks ps
    else if blocks.length < limit then
      blocks.all (fun b => b < p.1) && ascends limit fill (blocks ++ [p.1]) ps
    else true

namespace SparseDisk

variable {sd : SparseDisk} {a : BlockArray} {size limit : ℕ} {fill : UInt8}

/-! ## The table -/

structure Shows (size limit : ℕ) (fill : UInt8) (sd : SparseDisk) (a : BlockArray) : Prop where
  size_eq : sd.mediaBlockSize = size
  limit_eq : sd.blocksWithBuffer = limit
  fill_eq : sd.fillPattern = fill
  table_length : sd.keyTable.length = limit
  used_le : sd.usedCount ≤ limit
  sorted : sd.blocks.Pairwise (· < ·)
  areas : (sd.keyTable.map DiskKey.data).Nodup
  lengths : ∀ i, (sd.data i).length = size
  buffered : a.buffered = sd.blocks.toFinset
  stored : ∀ k ∈ sd.keyTable.take sd.usedCount, a.contents k.block = sd.data k.data
  filled : ∀ b ∉ sd.blocks, a.contents b = List.replicate size fill

theorem shows_initial (size limit : ℕ) (fill : UInt8) :
    Shows size limit fill (initial size limit fill)
      (BlockArray.initial (List.replicate size fill)) := by
  refine ⟨rfl, rfl, rfl, ?_, Nat.zero_le _, ?_, ?_, fun _ => length_replicate, rfl, ?_,
    fun _ _ => rfl⟩
  · unfold initial; rw [length_map, length_range]
  · exact List.Pairwise.nil
  · unfold initial; rw [map_map]; exact (map_id _).symm ▸ nodup_range
  · intro k hmem; cases hmem

namespace Shows

theorem length_blocks (h : Shows size limit fill sd a) : sd.blocks.length = sd.usedCount := by
  have := h.table_length
  have := h.used_le
  unfold blocks
  rw [length_map, length_take]
  omega

theorem card_buffered (h : Shows size limit fill sd a) : a.buffered.card = sd.usedCount := by
  have hnodup : sd.blocks.Nodup := h.sorted.imp fun hlt => ne_of_lt hlt
  rw [h.buffered, toFinset_card_of_nodup hnodup, h.length_blocks]

variable {key block : ℕ} {k : DiskKey}

theorem keyData_eq
    (hk : (sd.keyTable.take sd.usedCount)[key]? = some k) : sd.keyData key = k.data := by
  obtain ⟨hlt, -⟩ := List.getElem?_eq_some_iff.mp hk
  rw [length_take] at hlt
  rw [getElem?_take_of_lt (by omega)] at hk
  unfold keyData
  rw [getD_eq_getElem?_getD, hk, Option.getD_some]

section

variable (h : Shows size limit fill sd a)

include h

theorem search_some (hsearch : sd.search block = some key) :
    ∃ k, (sd.keyTable.take sd.usedCount)[key]? = some k ∧ k.block = block := by
  have hget := (SortedTable.bsearch_eq_some_iff h.sorted).mp hsearch
  unfold blocks at hget
  rwa [getElem?_map, Option.map_eq_some_iff] at hget

theorem search_none : sd.search block = none ↔ block ∉ sd.blocks :=
  SortedTable.bsearch_eq_none_iff h.sorted

theorem key_inj {k' : DiskKey}
    (hk : k ∈ sd.keyTable.take sd.usedCount) (hk' : k' ∈ sd.keyTable.take sd.usedCount)
    (heq : k.block = k'.block ∨ k.data = k'.data) : k = k' := by
  obtain hblock | hdata := heq
  · have hnodup : sd.blocks.Nodup := h.sorted.imp fun hlt => ne_of_lt hlt
    exact inj_on_of_nodup_map hnodup hk hk' hblock
  · exact inj_on_of_nodup_map h.areas (mem_of_mem_take hk) (mem_of_mem_take hk') hdata

theorem copyTo (hk : (sd.keyTable.take sd.usedCount)[key]? = some k) {bytes : List UInt8}
    (hbytes : bytes.length = size) :
    Shows size limit fill (sd.copyTo key bytes) ⟨update a.contents k.block bytes, a.buffered⟩ := by
  have hmem := mem_of_getElem? hk
  have hdata : (sd.copyTo key bytes).data = update sd.data k.data bytes := by
    unfold SparseDisk.copyTo
    dsimp only
    rw [keyData_eq hk, hbytes, drop_of_length_le (h.lengths _).le, append_nil]
  refine { h with lengths := ?_, stored := ?_, filled := ?_ }
  · intro i
    rw [hdata]
    by_cases hi : i = k.data
    · rw [hi, update_self, hbytes]
    · rw [update_of_ne hi, h.lengths]
  · intro k' hk'
    rw [hdata]
    dsimp only
    by_cases heq : k' = k
    · rw [heq, update_self, update_self]
    · rw [update_of_ne fun hb => heq (h.key_inj hk' hmem (.inl hb)),
        update_of_ne fun hd => heq (h.key_inj hk' hmem (.inr hd))]
      exact h.stored k' hk'
  · intro b hb
    have hne : b ≠ k.block := by rintro rfl; exact hb (mem_map_of_mem hmem)
    dsimp only
    rw [update_of_ne hne]
    exact h.filled b hb

theorem table_split (hused : sd.usedCount < limit) :
    ∃ before key after, sd.keyTable = before ++ key :: after ∧ before.length = sd.usedCount ∧
      ∀ f, sd.keyTable.modify sd.usedCount f = before ++ f key :: after := by
  have hlt : sd.usedCount < sd.keyTable.length := by rw [h.table_length]; exact hused
  refine ⟨sd.keyTable.take sd.usedCount, sd.keyTable[sd.usedCount],
    sd.keyTable.drop (sd.usedCount + 1), ?_, ?_, fun f => modify_eq_take_cons_drop hlt⟩
  · rw [getElem_cons_drop, take_append_drop]
  · rw [length_take]; omega

end

/-- A new key behind the others stays at its place when the table is sorted. -/
theorem getNewBlock_eq {before after : List DiskKey} {key : DiskKey}
    (hused : sd.usedCount < sd.blocksWithBuffer) (hbefore : before.length = sd.usedCount)
    (hmodify : ∀ f, sd.keyTable.modify sd.usedCount f = before ++ f key :: after)
    (hsorted : (before.map DiskKey.block).Pairwise (· < ·))
    (hlast : ∀ b ∈ before.map DiskKey.block, b < block) :
    sd.getNewBlock block = some (sd.usedCount, { sd with
      usedCount := sd.usedCount + 1
      keyTable := before ++ ⟨block, key.data⟩ :: after }) := by
  have hlen : (before ++ [(⟨block, key.data⟩ : DiskKey)]).length = sd.usedCount + 1 := by
    rw [length_append, hbefore]; rfl
  have hpairs : (before ++ [(⟨block, key.data⟩ : DiskKey)]).Pairwise
      fun a b => a.block ≤ b.block := by
    rw [pairwise_append]
    refine ⟨(pairwise_map.mp hsorted).imp Nat.le_of_lt, pairwise_singleton _ _, ?_⟩
    intro k hk k' hk'
    rw [mem_singleton.mp hk']
    exact (hlast _ (mem_map_of_mem hk)).le
  unfold SparseDisk.getNewBlock
  rw [if_pos hused]
  dsimp only
  rw [hmodify, append_cons, take_left' hlen, drop_left' hlen, hpairs.insertionSort_eq]

theorem getNewBlock (h : Shows size limit fill sd a) (hused : sd.usedCount < limit)
    (hlast : ∀ b ∈ sd.blocks, b < block) :
    ∃ sd' k bytes, sd.getNewBlock block = some (sd.usedCount, sd') ∧
      (sd'.keyTable.take sd'.usedCount)[sd.usedCount]? = some k ∧ k.block = block ∧
      sd'.blocks = sd.blocks ++ [block] ∧
      Shows size limit fill sd' ⟨update a.contents block bytes, insert block a.buffered⟩ := by
  obtain ⟨before, key, after, htable, hbefore, hmodify⟩ := h.table_split hused
  have hblocks : sd.blocks = before.map DiskKey.block := by
    unfold blocks; rw [htable, take_left' hbefore]
  have hnew := getNewBlock_eq (h.limit_eq.symm ▸ hused) hbefore hmodify (hblocks ▸ h.sorted)
    (hblocks ▸ hlast)
  have hlen : (before ++ [(⟨block, key.data⟩ : DiskKey)]).length = sd.usedCount + 1 := by
    rw [length_append, hbefore]; rfl
  have htake : (before ++ (⟨block, key.data⟩ : DiskKey) :: after).take (sd.usedCount + 1) =
      before ++ [⟨block, key.data⟩] := by
    rw [append_cons, take_left' hlen]
  have hblocks' : ((before ++ (⟨block, key.data⟩ : DiskKey) :: after).take
      (sd.usedCount + 1)).map DiskKey.block = sd.blocks ++ [block] := by
    rw [htake, map_append, hblocks]
    rfl
  refine ⟨_, ⟨block, key.data⟩, sd.data key.data, hnew, ?_, rfl, hblocks', h.size_eq, h.limit_eq,
    h.fill_eq, ?_, hused, ?_, ?_, h.lengths, ?_, ?_, ?_⟩
  · rw [htake, getElem?_append_right hbefore.le, hbefore, Nat.sub_self]; rfl
  · have := h.table_length
    rw [htable] at this
    rw [← this]
    rw [length_append, length_append, length_cons, length_cons]
  · show (((before ++ (⟨block, key.data⟩ : DiskKey) :: after).take
      (sd.usedCount + 1)).map DiskKey.block).Pairwise (· < ·)
    rw [hblocks', pairwise_append]
    refine ⟨h.sorted, pairwise_singleton _ _, fun b hb b' hb' => ?_⟩
    rw [mem_singleton.mp hb']
    exact hlast b hb
  · have := h.areas
    rw [htable] at this
    rw [map_append, map_cons] at this ⊢
    exact this
  · show insert block a.buffered = (((before ++ (⟨block, key.data⟩ : DiskKey) :: after).take
      (sd.usedCount + 1)).map DiskKey.block).toFinset
    rw [hblocks', toFinset_append, h.buffered, Finset.union_comm]
    rfl
  · intro k hk
    have hk' : k ∈ before ++ [(⟨block, key.data⟩ : DiskKey)] := htake ▸ hk
    dsimp only
    obtain hold | hone := mem_append.mp hk'
    · have hlt := hlast k.block (hblocks ▸ mem_map_of_mem hold)
      rw [update_of_ne (ne_of_lt hlt)]
      apply h.stored
      rw [htable, take_left' hbefore]
      exact hold
    · rw [mem_singleton.mp hone, update_self]
  · intro b hb
    have hb' : b ∉ sd.blocks ++ [block] := hblocks' ▸ hb
    rw [mem_append, mem_singleton, not_or] at hb'
    dsimp only
    rw [update_of_ne hb'.2]
    exact h.filled b hb'.1

end Shows

theorem toInt_of_lt {n : ℕ} (h : n < 2 ^ 31) : toInt n = n := by
  unfold toInt; rw [Int.bmod_def]; omega

theorem any_ne_fill {d : List UInt8} (hd : d.length = size) :
    (d.any fun b => b != fill) = true ↔ d ≠ List.replicate size fill := by
  rw [Ne, eq_replicate_iff, any_eq_true]
  simp only [bne_iff_ne, hd, true_and, not_forall]
  exact ⟨fun ⟨b, hb, hne⟩ => ⟨b, hb, hne⟩, fun ⟨b, hb, hne⟩ => ⟨b, hb, hne⟩⟩

variable {buffer : List UInt8} {block fuel : ℕ}

theorem readBlock_spec (h : Shows size limit fill sd a) (hsize : size < 2 ^ 31) (block : ℕ)
    (hbuffer : size ≤ buffer.length) :
    ∃ buffer', sd.readBlock block buffer = ((size : ℤ), buffer') ∧ buffer'.length = buffer.length ∧
      buffer'.take size = a.contents block := by
  unfold readBlock
  dsimp only
  rw [h.size_eq, Nat.min_eq_right hbuffer, toInt_of_lt hsize]
  refine ⟨_, rfl, ?_⟩
  cases hsearch : sd.search block with
  | some key =>
    obtain ⟨k, hk, rfl⟩ := h.search_some hsearch
    dsimp only
    rw [Shows.keyData_eq hk, ← h.stored k (mem_of_getElem? hk)]
    have hlen : (a.contents k.block).length = size := by
      rw [h.stored k (mem_of_getElem? hk), h.lengths]
    rw [take_of_length_le hlen.le]
    refine ⟨?_, take_left' hlen⟩
    rw [length_append, length_drop, hlen]
    omega
  | none =>
    rw [h.filled block (h.search_none.mp hsearch), h.fill_eq]
    refine ⟨length_replicate, ?_⟩
    rw [take_replicate, Nat.min_eq_left hbuffer]

theorem writeBlock_spec (h : Shows size limit fill sd a) (hsize : size < 2 ^ 31)
    (hbuffer : size ≤ buffer.length) {ps : List (ℕ × List UInt8)}
    (hascends : ascends limit (List.replicate size fill) sd.blocks
      ((block, buffer.take size) :: ps) = true) :
    (∃ sd', sd.writeBlock block buffer = ((size : ℤ), sd') ∧
      Shows size limit fill sd' (a.store (List.replicate size fill) (block, buffer.take size)) ∧
      ascends limit (List.replicate size fill) sd'.blocks ps = true) ∨
    sd.writeBlock block buffer = (-1, sd) ∧
      a.Refuses limit (List.replicate size fill) (block, buffer.take size) := by
  have hlen : (buffer.take size).length = size := by rw [length_take]; omega
  unfold writeBlock
  dsimp only
  rw [h.size_eq, Nat.min_eq_right hbuffer, toInt_of_lt hsize, h.fill_eq]
  rw [ascends] at hascends
  unfold BlockArray.store
  cases hsearch : sd.search block with
  | some key =>
    obtain ⟨k, hk, rfl⟩ := h.search_some hsearch
    have hmem : k.block ∈ sd.blocks := mem_map_of_mem (mem_of_getElem? hk)
    rw [if_pos (.inl hmem)] at hascends
    refine .inl ⟨sd.copyTo key (buffer.take size), rfl, ?_, hascends⟩
    have hbuffered : insert k.block a.buffered = a.buffered := by
      rw [h.buffered]; exact Finset.insert_eq_self.mpr (mem_toFinset.mpr hmem)
    rw [hbuffered, ite_self]
    exact h.copyTo hk hlen
  | none =>
    have hnot := h.search_none.mp hsearch
    by_cases hfill : buffer.take size = List.replicate size fill
    · rw [if_neg ((any_ne_fill hlen).not.mpr (not_not.mpr hfill))]
      rw [if_pos (.inr hfill)] at hascends
      refine .inl ⟨sd, rfl, ?_, hascends⟩
      rw [if_pos hfill, hfill, ← h.filled block hnot, update_eq_self]
      exact h
    · rw [if_pos ((any_ne_fill hlen).mpr hfill)]
      rw [if_neg (not_or.mpr ⟨hnot, hfill⟩), h.length_blocks] at hascends
      by_cases hused : sd.usedCount < limit
      · rw [if_pos hused, Bool.and_eq_true, all_eq_true] at hascends
        obtain ⟨sd', k, bytes, hnew, hk, rfl, hblocks, h'⟩ :=
          h.getNewBlock hused fun b hb => of_decide_eq_true (hascends.1 b hb)
        rw [hnew]
        refine .inl ⟨_, rfl, ?_, ?_⟩
        · rw [if_neg hfill]
          have hcopy := h'.copyTo hk hlen
          rwa [update_idem] at hcopy
        · show ascends limit (List.replicate size fill) sd'.blocks ps = true
          rw [hblocks]
          exact hascends.2
      · have hnone : sd.getNewBlock block = none := by
          unfold SparseDisk.getNewBlock; rw [if_neg (h.limit_eq.symm ▸ hused)]
        rw [hnone]
        refine .inr ⟨rfl, ?_, hfill, ?_⟩
        · rw [h.buffered, mem_toFinset]; exact hnot
        · have := h.used_le; rw [h.card_buffered]; omega

/-! ## Requests -/

theorem readLoop_end {rv : ℤ} (hend : ¬ (0 ≤ rv ∧ 0 < buffer.length)) :
    sd.readLoop fuel block buffer rv = some (rv, buffer) := by
  rw [readLoop.eq_def]
  exact if_neg hend

theorem readLoop_spec (h : Shows size limit fill sd a) (hpos : 0 < size) (hsize : size < 2 ^ 31)
    (n block : ℕ) {rv : ℤ} (hrv : 0 ≤ rv) (hfuel : n ≤ fuel)
    (hbuffer : buffer.length = n * size) :
    ∃ rv', sd.readLoop fuel block buffer rv = some (rv', (numbers n block).flatMap a.contents) ∧
      0 ≤ rv' := by
  induction n generalizing fuel block buffer rv with
  | zero =>
    rw [Nat.zero_mul] at hbuffer
    rw [readLoop_end (by omega), length_eq_zero_iff.mp hbuffer]
    exact ⟨rv, rfl, hrv⟩
  | succ n ih =>
    rw [Nat.succ_mul] at hbuffer
    obtain ⟨fuel, rfl⟩ := Nat.exists_eq_add_of_le' hfuel
    obtain ⟨buffer', hread, hlength, hbytes⟩ := readBlock_spec h hsize block
      (show size ≤ buffer.length by omega)
    have hrest : (buffer'.drop size).length = n * size := by rw [length_drop, hlength]; omega
    obtain ⟨rv', hloop, hrv'⟩ := ih ((block + 1) % 2 ^ 32) (Int.natCast_nonneg size)
      (Nat.le_add_left n fuel) hrest
    refine ⟨rv', ?_, hrv'⟩
    rw [← Nat.add_assoc, readLoop, if_pos ⟨hrv, by omega⟩]
    dsimp only
    rw [hread]
    rw [Int.toNat_natCast, hloop, Option.map_some, hbytes, numbers, flatMap_cons]

/-- What a write leads to: all blocks are stored, or those before a refused one. -/
def Outcome (limit : ℕ) (fill : List UInt8) (a : BlockArray) (ps : List (ℕ × List UInt8)) (rv : ℤ)
    (a' : BlockArray) : Prop :=
  0 ≤ rv ∧ a' = a.storeAll fill ps ∨
    rv < 0 ∧ ∃ before p after, ps = before ++ p :: after ∧ a' = a.storeAll fill before ∧
      a'.Refuses limit fill p

section Outcome

variable {a' a'' : BlockArray} {ps qs : List (ℕ × List UInt8)} {p : ℕ × List UInt8} {rv rv' : ℤ}
  {pattern : List UInt8}

theorem Outcome.stop (h : Outcome limit pattern a ps rv a') (hrv : rv < 0)
    (qs : List (ℕ × List UInt8)) : Outcome limit pattern a (ps ++ qs) rv a' := by
  obtain ⟨hpos, -⟩ | ⟨-, before, p, after, hps, ha', hrefuses⟩ := h
  · omega
  · refine .inr ⟨hrv, before, p, after ++ qs, ?_, ha', hrefuses⟩
    rw [hps, append_assoc, cons_append]

theorem Outcome.append (h : Outcome limit pattern a ps rv a') (hrv : 0 ≤ rv)
    (h' : Outcome limit pattern a' qs rv' a'') : Outcome limit pattern a (ps ++ qs) rv' a'' := by
  obtain ⟨-, rfl⟩ | ⟨hneg, -⟩ := h
  · obtain ⟨hpos, ha''⟩ | ⟨hneg, before, p, after, hqs, ha'', hrefuses⟩ := h'
    · refine .inl ⟨hpos, ?_⟩; rw [ha'']; exact foldl_append.symm
    · refine .inr ⟨hneg, ps ++ before, p, after, ?_, ?_, hrefuses⟩
      · rw [hqs, append_assoc]
      · rw [ha'']; exact foldl_append.symm
  · omega

end Outcome

theorem writeLoop_end {rv : ℤ} (hend : ¬ (0 ≤ rv ∧ 0 < buffer.length)) :
    writeLoop fuel sd block buffer rv = some (rv, sd) := by
  rw [writeLoop.eq_def]
  exact if_neg hend

theorem writeLoop_spec (hpos : 0 < size) (hsize : size < 2 ^ 31) (n : ℕ) {rv : ℤ}
    {rest : List (ℕ × List UInt8)} (h : Shows size limit fill sd a)
    (hrv : 0 ≤ rv) (hfuel : n ≤ fuel) (hbuffer : buffer.length = n * size)
    (hascends : ascends limit (List.replicate size fill) sd.blocks
      (pieces size n block buffer ++ rest) = true) :
    ∃ rv' sd' a', writeLoop fuel sd block buffer rv = some (rv', sd') ∧
      Shows size limit fill sd' a' ∧
      Outcome limit (List.replicate size fill) a (pieces size n block buffer) rv' a' ∧
      (0 ≤ rv' → ascends limit (List.replicate size fill) sd'.blocks rest = true) := by
  induction n generalizing sd a fuel block buffer rv with
  | zero =>
    rw [writeLoop_end (by omega)]
    exact ⟨rv, sd, a, rfl, h, .inl ⟨hrv, rfl⟩, fun _ => hascends⟩
  | succ n ih =>
    rw [Nat.succ_mul] at hbuffer
    obtain ⟨fuel, rfl⟩ := Nat.exists_eq_add_of_le' hfuel
    rw [← Nat.add_assoc, writeLoop, if_pos ⟨hrv, by omega⟩]
    dsimp only
    obtain ⟨sd1, hwrite, h1, hascends1⟩ | ⟨hwrite, hrefuses⟩ :=
      writeBlock_spec h hsize (show size ≤ buffer.length by omega) hascends
    · have hrest : (buffer.drop size).length = n * size := by rw [length_drop]; omega
      obtain ⟨rv', sd', a', hloop, h', hout, hnext⟩ := ih h1 (Int.natCast_nonneg size)
        (Nat.le_add_left n fuel) hrest hascends1
      rw [hwrite]
      refine ⟨rv', sd', a', hloop, h', ?_, hnext⟩
      have hone : Outcome limit (List.replicate size fill) a [(block, buffer.take size)] 0
          (a.store (List.replicate size fill) (block, buffer.take size)) :=
        .inl ⟨Int.le_refl 0, rfl⟩
      exact hone.append (Int.le_refl 0) hout
    · rw [hwrite]
      rw [writeLoop_end (by omega)]
      exact ⟨-1, sd, a, rfl, h, .inr ⟨by omega, [], _, _, rfl, rfl, hrefuses⟩, by omega⟩

/-- The lengths of the buffers are multiples of the block size. -/
def Whole (size : ℕ) (bufs : List SgBuffer) : Prop := ∀ b ∈ bufs, size ∣ b.buffer.length

theorem length_eq_count {b : SgBuffer} (hdvd : size ∣ b.buffer.length) :
    b.buffer.length = b.count size * size := (Nat.div_mul_cancel hdvd).symm

theorem count_le (b : SgBuffer) : b.count size ≤ b.buffer.length := Nat.div_le_self _ _

theorem readBuffers_spec (h : Shows size limit fill sd a) (hsize : size < 2 ^ 31)
    (bufs : List SgBuffer) (hwhole : Whole size bufs) {rv : ℤ} (hrv : 0 ≤ rv) :
    ∃ rv', sd.readBuffers bufs rv = some (rv', bufs.map (a.load size)) ∧ 0 ≤ rv' := by
  induction bufs generalizing rv with
  | nil => exact ⟨rv, rfl, hrv⟩
  | cons b bufs ih =>
    have hlength := length_eq_count (hwhole b mem_cons_self)
    obtain ⟨rv1, hloop, hrv1⟩ : ∃ rv1, sd.readLoop b.buffer.length b.block b.buffer rv =
        some (rv1, a.load size b) ∧ 0 ≤ rv1 := by
      obtain hzero | hpos := Nat.eq_zero_or_pos size
      · rw [hzero, Nat.mul_zero] at hlength
        refine ⟨rv, ?_, hrv⟩
        rw [readLoop_end (by omega), length_eq_zero_iff.mp hlength]
        unfold BlockArray.load SgBuffer.count
        rw [hzero, Nat.div_zero]
        rfl
      · exact readLoop_spec h hpos hsize (b.count size) b.block hrv (count_le b) hlength
    obtain ⟨rv', hrest, hrv'⟩ := ih (fun b' hb' => hwhole b' (mem_cons_of_mem b hb')) hrv1
    refine ⟨rv', ?_, hrv'⟩
    rw [readBuffers, if_pos hrv, hloop, Option.bind_some, hrest, Option.map_some, map_cons]

theorem writeBuffers_spec (hsize : size < 2 ^ 31) (bufs : List SgBuffer)
    (hwhole : Whole size bufs) {rv : ℤ} (h : Shows size limit fill sd a) (hrv : 0 ≤ rv)
    (hascends : ascends limit (List.replicate size fill) sd.blocks
      (DiskRequest.pieces size ⟨false, bufs⟩) = true) :
    ∃ rv' sd' a', writeBuffers sd bufs rv = some (rv', sd') ∧ Shows size limit fill sd' a' ∧
      Outcome limit (List.replicate size fill) a (DiskRequest.pieces size ⟨false, bufs⟩) rv'
        a' := by
  induction bufs generalizing sd a rv with
  | nil => exact ⟨rv, sd, a, rfl, h, .inl ⟨hrv, rfl⟩⟩
  | cons b bufs ih =>
    have hlength := length_eq_count (hwhole b mem_cons_self)
    have hpieces : DiskRequest.pieces size ⟨false, b :: bufs⟩ =
        pieces size (b.count size) b.block b.buffer ++ DiskRequest.pieces size ⟨false, bufs⟩ :=
      flatMap_cons
    rw [hpieces] at hascends ⊢
    obtain ⟨rv1, sd1, a1, hloop, h1, hout, hnext⟩ : ∃ rv1 sd1 a1,
        writeLoop b.buffer.length sd b.block b.buffer rv = some (rv1, sd1) ∧
        Shows size limit fill sd1 a1 ∧ Outcome limit (List.replicate size fill) a
          (pieces size (b.count size) b.block b.buffer) rv1 a1 ∧
        (0 ≤ rv1 → ascends limit (List.replicate size fill) sd1.blocks
          (DiskRequest.pieces size ⟨false, bufs⟩) = true) := by
      obtain hzero | hpos := Nat.eq_zero_or_pos size
      · have hcount : b.count size = 0 := by unfold SgBuffer.count; rw [hzero, Nat.div_zero]
        rw [hzero, Nat.mul_zero] at hlength
        rw [writeLoop_end (by omega)]
        rw [hcount] at hascends ⊢
        exact ⟨rv, sd, a, rfl, h, .inl ⟨hrv, rfl⟩, fun _ => hascends⟩
      · exact writeLoop_spec hpos hsize (b.count size) h hrv (count_le b) hlength hascends
    rw [writeBuffers, if_pos hrv, hloop, Option.bind_some]
    by_cases hrv1 : 0 ≤ rv1
    · obtain ⟨rv', sd', a', hrest, h', hout'⟩ :=
        ih (fun b' hb' => hwhole b' (mem_cons_of_mem b hb')) h1 hrv1 (hnext hrv1)
      exact ⟨rv', sd', a', hrest, h', hout.append hrv1 hout'⟩
    · refine ⟨rv1, sd1, a1, ?_, h1, hout.stop (by omega) _⟩
      cases bufs with
      | nil => rfl
      | cons b' bufs => rw [writeBuffers, if_neg hrv1]

/-- Lengths are multiples of the block size; a new block is behind all with a buffer. -/
def Admitted (sd : SparseDisk) (req : DiskRequest) : Prop :=
  Whole sd.mediaBlockSize req.bufs ∧ (req.read = false →
    ascends sd.blocksWithBuffer (List.replicate sd.mediaBlockSize sd.fillPattern) sd.blocks
      (req.pieces sd.mediaBlockSize) = true)

theorem readWrite_spec (hsize : size < 2 ^ 31) (h : Shows size limit fill sd a)
    {req : DiskRequest} (hreq : sd.Admitted req) :
    ∃ response sd' a', sd.readWrite req = some (response, sd') ∧
      ArrayStep size limit (List.replicate size fill) a req response a' ∧
      Shows size limit fill sd' a' := by
  obtain ⟨read, bufs⟩ := req
  obtain ⟨hwhole, hascends⟩ := hreq
  rw [h.size_eq] at hwhole hascends
  rw [h.limit_eq, h.fill_eq] at hascends
  unfold readWrite
  cases read with
  | true =>
    obtain ⟨rv, hread, hrv⟩ := readBuffers_spec h hsize bufs hwhole (Int.le_refl 0)
    have hstatus : status rv = .successful := if_neg (by omega)
    rw [if_pos rfl, hread, Option.map_some, hstatus]
    exact ⟨_, sd, a, rfl, .read, h⟩
  | false =>
    obtain ⟨rv, sd', a', hwrite, h', hout⟩ :=
      writeBuffers_spec hsize bufs hwhole h (Int.le_refl 0) (hascends rfl)
    rw [if_neg Bool.false_ne_true, hwrite, Option.map_some]
    refine ⟨_, sd', a', rfl, ?_, h'⟩
    obtain ⟨hpos, rfl⟩ | ⟨hneg, before, p, after, hpieces, rfl, hrefuses⟩ := hout
    · have hstatus : status rv = .successful := if_neg (by omega); rw [hstatus]; exact .wrote
    · have hstatus : status rv = .ioError := if_pos hneg
      rw [hstatus]
      exact .refused hpieces hrefuses

/-- **A sparse disk is an array of blocks**, if new blocks are behind all with a buffer. -/
theorem disk_exact (hsize : size < 2 ^ 31) (limit : ℕ) (fill : UInt8) {reqs : List DiskRequest}
    (hreqs : Along readWrite Admitted (initial size limit fill) reqs) :
    ∃ responses sd a, results readWrite (initial size limit fill) reqs = some (responses, sd) ∧
      Traced (ArrayStep size limit (List.replicate size fill))
        (BlockArray.initial (List.replicate size fill)) reqs responses a := by
  have hstep : ∀ sd a req, Shows size limit fill sd a → sd.Admitted req →
      ∃ response sd' a', sd.readWrite req = some (response, sd') ∧
        ArrayStep size limit (List.replicate size fill) a req response a' ∧
        Shows size limit fill sd' a' := fun _ _ _ h hreq => readWrite_spec hsize h hreq
  obtain ⟨responses, sd, a, hrun, htrace, -⟩ :=
    traced_of_step hstep (shows_initial size limit fill) hreqs
  exact ⟨responses, sd, a, hrun, htrace⟩

instance (sd : SparseDisk) (req : DiskRequest) : Decidable (sd.Admitted req) := by
  unfold Admitted Whole
  infer_instance

theorem disk_exact_full : ∃ responses sd a,
    results readWrite (initial 2 2 0) [⟨false, [⟨3, [1, 2, 0, 0]⟩]⟩, ⟨false, [⟨5, [3, 4]⟩]⟩,
      ⟨false, [⟨3, [7, 8, 9, 9]⟩]⟩, ⟨true, [⟨3, [6, 6, 6, 6, 6, 6]⟩]⟩] = some (responses, sd) ∧
    responses = [(.successful, [[1, 2, 0, 0]]), (.successful, [[3, 4]]), (.ioError, [[7, 8, 9, 9]]),
      (.successful, [[7, 8, 0, 0, 3, 4]])] ∧
    Traced (ArrayStep 2 2 [0, 0]) (BlockArray.initial [0, 0])
      [⟨false, [⟨3, [1, 2, 0, 0]⟩]⟩, ⟨false, [⟨5, [3, 4]⟩]⟩, ⟨false, [⟨3, [7, 8, 9, 9]⟩]⟩,
        ⟨true, [⟨3, [6, 6, 6, 6, 6, 6]⟩]⟩] responses a := by
  obtain ⟨responses, sd, a, hrun, htrace⟩ := disk_exact (show 2 < 2 ^ 31 by decide) 2 0
    (along_of_check (fun _ _ => of_decide_eq_true) (show check readWrite
      (fun sd req => decide (sd.Admitted req)) (initial 2 2 0)
      [⟨false, [⟨3, [1, 2, 0, 0]⟩]⟩, ⟨false, [⟨5, [3, 4]⟩]⟩, ⟨false, [⟨3, [7, 8, 9, 9]⟩]⟩,
        ⟨true, [⟨3, [6, 6, 6, 6, 6, 6]⟩]⟩] = true by decide +kernel))
  have hresponses := congrArg (Option.map Prod.fst) hrun
  exact ⟨responses, sd, a, hrun, Option.some.inj (hresponses.symm.trans (by decide +kernel)), htrace⟩

/-- The data of a new block before another goes to the buffer of the last. -/
theorem exists_wrong_buffer : ∃ reqs responses,
    (results readWrite (initial 1 2 0) reqs).map Prod.fst = some responses ∧
    ¬ ∃ a, Traced (ArrayStep 1 2 [0]) (BlockArray.initial [0]) reqs responses a := by
  refine ⟨[⟨false, [⟨1, [7]⟩]⟩, ⟨false, [⟨0, [5]⟩]⟩, ⟨true, [⟨0, [9, 9]⟩]⟩],
    [(.successful, [[7]]), (.successful, [[5]]), (.successful, [[0, 5]])], by decide +kernel, ?_⟩
  rintro ⟨a, htrace⟩
  cases htrace with
  | cons hfirst htrace =>
    cases htrace with
    | cons hsecond htrace =>
      cases htrace with
      | cons hthird htrace =>
        have hread := hthird.of_read
        rw [hsecond.of_wrote rfl, hfirst.of_wrote rfl] at hread
        revert hread
        decide +kernel

end SparseDisk

end Rtems.Libblock
