import Rtems.Rfs.BlockMapRun
import Rtems.Rfs.File
import Mathlib.Data.List.Perm.Subperm

/-!
# The blocks and the size of a file

* `Mapped`: the map of a file holds a list of blocks, and the allocation is right;
* `Is`: a count of blocks and an offset are a number of bytes;
* `Is.getSize`, `Is.ended`: the size is this number, also after a transfer that ends behind it.
-/

namespace Rtems.Rfs

open List Nat

/-! ## The blocks -/

structure Geometry.FitsFile (g : Geometry) : Prop extends g.Fits where
  pos : 0 < g.blockSize
  size : g.blockSize < 2 ^ g.sizeBits
  limit : g.blockMapDoublyBlocks < 2 ^ g.sizeBits

theorem Geometry.ofBlockSize_fitsFile {w blocks blockSize : ℕ} (hper : 5 < blockSize / 4)
    (hw : blockSize / 4 * 5 < 2 ^ w) (hblocks : blocks < 2 ^ 32) :
    (Geometry.ofBlockSize w blocks blockSize).FitsFile where
  toFits := MapState.ofBlockSize_fits hper hw hblocks
  pos := by
    change 0 < blockSize; omega
  size := by
    change blockSize < 2 ^ w; omega
  limit := Nat.mod_lt _ (Nat.two_pow_pos w)

section Mapped

variable {A : BlockAllocator} {Ok : A.State → Prop} {Other : ℕ → Prop} {g : Geometry}
  {s : MapState A} {l : List ℕ} {bpos : BlockPos} {b : ℕ}

/-- The map holds a list of blocks, which are allocated for it. -/
structure Mapped (Ok : A.State → Prop) (Other : ℕ → Prop) (g : Geometry) (s : MapState A)
    (l : List ℕ) : Prop where
  stored : ∃ ts ds, s.Represents g l ts ds ∧
    Holding Ok g.blocks Other s.allocator (l ++ ts ++ ds)
  limit : l = [] ∨ l.length < g.blockMapDoublyBlocks

variable (hm : Mapped Ok Other g s l)

include hm

theorem Mapped.count : s.map.size.count = l.length := by
  obtain ⟨ts, ds, hrep, -⟩ := hm.stored; exact hrep.count

theorem Mapped.nodup : l.Nodup := by
  obtain ⟨ts, ds, -, hold⟩ := hm.stored; exact (nodup_append.mp (nodup_append.mp hold.nodup).1).1

theorem Mapped.length_lt (hg : g.Fits) : l.length < 2 ^ 32 := by
  obtain ⟨ts, ds, -, hold⟩ := hm.stored
  have hsub : l ⊆ List.range g.blocks := by
    intro c hc; exact mem_range.mpr (hold.range c (mem_append_left _ (mem_append_left _ hc))).2
  have hlen := (subperm_of_subset hm.nodup hsub).length_le
  rw [length_range] at hlen
  have := hg.blocks
  omega

theorem Mapped.find (hg : g.Fits) (hb : l[bpos.bno]? = some b) :
    ∃ s', s.blockMapFind g bpos = some (.ok b, s') ∧ Mapped Ok Other g s' l ∧ s'.disk = s.disk ∧
      s'.map.size = s.map.size ∧ s'.map.bpos.bno = bpos.bno := by
  obtain ⟨ts, ds, hrep, hold⟩ := hm.stored
  obtain ⟨s', hs', hfound, hbpos, hrep'⟩ := s.blockMapFind_spec hg hrep hold.range hb
  refine ⟨s', hs', ⟨⟨ts, ds, hrep', ?_⟩, hm.limit⟩, hfound.disk, hfound.size, ?_⟩
  · rw [hfound.allocator]; exact hold
  · rw [hbpos]

theorem Mapped.past (hpast : l.length ≤ bpos.bno) :
    s.blockMapFind g bpos = some (.error .enxio, s) := by
  obtain ⟨ts, ds, hrep, -⟩ := hm.stored
  exact s.blockMapFind_past hrep hpast

theorem Mapped.grow (hA : A.Correct Ok g.blocks) (hg : g.FitsFile) :
    (∃ e s', s.blockMapGrow g 1 = some (some e, none, s') ∧ Mapped Ok Other g s' l ∧
      (∀ c, Other c ∨ c ∈ l → s'.disk c = s.disk c) ∧ s'.map.size = s.map.size ∧
      s'.map.bpos = s.map.bpos) ∨
    ∃ b s', s.blockMapGrow g 1 = some (none, some b, s') ∧ Mapped Ok Other g s' (l ++ [b]) ∧
      (∀ c, Other c ∨ c ∈ l → s'.disk c = s.disk c) ∧ s'.map.size = ⟨l.length + 1, 0⟩ ∧
      s'.map.bpos = s.map.bpos := by
  obtain ⟨ts, ds, hrep, hold⟩ := hm.stored
  have hsize : l.length + 1 < 2 ^ g.sizeBits := by
    have hsingly := hg.size
    have hpos := hg.pos
    have hlimit := hg.limit
    rcases hm.limit with rfl | hlt
    · rw [length_nil]; omega
    · omega
  rcases s.blockMapGrow_spec hA hg.toFits hrep hold hsize with
    ⟨-, hs'⟩ | ⟨hlt, r, news, s', ts', ds', hs', hrep', hold', hr, hdisk, hbpos, hoffset⟩
  · exact .inl ⟨_, s, hs', hm, fun _ _ => rfl, rfl, rfl⟩
  · rcases hr with ⟨rfl, hone⟩ | ⟨rfl, hnone⟩
    · obtain ⟨b, rfl⟩ := length_eq_one_iff.mp hone
      refine .inr ⟨b, s', hs', ⟨⟨ts', ds', hrep', hold'⟩, .inr ?_⟩, hdisk, ?_, hbpos⟩
      · rw [length_append, length_singleton]; exact hlt
      · have hcount := hrep'.count
        rw [length_append, length_singleton] at hcount
        rw [if_neg (cons_ne_nil _ _)] at hoffset
        rw [← hcount, ← hoffset]
    · obtain rfl : news = [] := length_eq_zero_iff.mp (by omega)
      rw [append_nil] at hrep' hold'
      refine .inl ⟨_, s', hs', ⟨⟨ts', ds', hrep', hold'⟩, hm.limit⟩, hdisk, ?_, hbpos⟩
      have hcount : s'.map.size.count = s.map.size.count := hrep'.count.trans hrep.count.symm
      rw [if_pos rfl] at hoffset
      cases hsize' : s'.map.size
      cases hsize : s.map.size
      simp_all only

theorem Mapped.write (hb : b ∈ l) (d : Block) :
    Mapped Ok Other g { s with disk := Function.update s.disk b d } l := by
  obtain ⟨ts, ds, hrep, hold⟩ := hm.stored
  refine ⟨⟨ts, ds, ⟨hrep.toStored.congr rfl ?_ rfl, hrep.cached⟩, hold⟩, hm.limit⟩
  intro t ht
  have hnodup := hold.nodup
  rw [append_assoc] at hnodup
  have hne : t ≠ b := fun heq => (nodup_append.mp hnodup).2.2 b hb t ht heq.symm
  exact Function.update_of_ne hne _ _

theorem Mapped.setOffset (offset : ℕ) : Mapped Ok Other g { s with map := { s.map with
      size := ⟨s.map.size.count, offset⟩
      dirty := true } } l := by
  obtain ⟨ts, ds, hrep, hold⟩ := hm.stored
  exact ⟨⟨ts, ds, ⟨hrep.toStored.congr rfl (fun _ _ => rfl) rfl, hrep.cached⟩, hold⟩, hm.limit⟩

end Mapped

/-! ## The size -/

/-- A count of blocks and an offset are a number of bytes. -/
structure BlockSize.Is (g : Geometry) (s : BlockSize) (n : ℕ) : Prop where
  offset : s.offset < g.blockSize
  total : n + (if s.offset = 0 then 0 else g.blockSize - s.offset) = s.count * g.blockSize

namespace BlockSize.Is

variable {g : Geometry} {s : BlockSize} {n e : ℕ}

theorem le (h : s.Is g n) : n ≤ s.count * g.blockSize := by
  rw [← h.total]; exact le_add_right _ _

theorem le_mul_of_pos {c m : ℕ} (hpos : 0 < c * m) : m ≤ c * m :=
  Nat.le_mul_of_pos_left m (Nat.pos_of_mul_pos_right hpos)

section

variable (h : s.Is g n)

include h

theorem getSize : s.getSize g = n := by
  unfold BlockSize.getSize
  have htotal := h.total
  have hoffset := h.offset
  by_cases hzero : s.count = 0
  · rw [hzero, Nat.zero_mul] at htotal; rw [if_pos hzero]; omega
  · have hpos := mul_le_mul_right g.blockSize (one_le_iff_ne_zero.mpr hzero)
    rw [if_neg hzero, Nat.sub_mul]
    split_ifs at htotal ⊢ <;> omega

theorem mod_eq : n % g.blockSize = s.offset := by
  have htotal := h.total
  have hoffset := h.offset
  by_cases hzero : s.offset = 0
  · rw [if_pos hzero, Nat.add_zero] at htotal; rw [htotal, hzero, mul_mod_left]
  · rw [if_neg hzero] at htotal
    have hblock : g.blockSize ≤ s.count * g.blockSize := le_mul_of_pos (by omega)
    have hn : n = (s.count - 1) * g.blockSize + s.offset := by rw [Nat.sub_mul]; omega
    rw [hn, mul_add_mod_self_right, mod_eq_of_lt hoffset]

section

variable (hpos : 0 < g.blockSize)

include hpos

theorem div_lt (he : e < n) : e / g.blockSize < s.count :=
  (Nat.div_lt_iff_lt_mul hpos).mpr (Nat.lt_of_lt_of_le he h.le)

theorem div_lt_of_mod (he : e ≤ n) (hmod : n % g.blockSize ≠ 0) : e / g.blockSize < s.count := by
  have htotal := h.total
  have hoffset := h.offset
  rw [h.mod_eq] at hmod
  rw [if_neg hmod] at htotal
  exact (Nat.div_lt_iff_lt_mul hpos).mpr (by omega)

theorem mod_ne_zero (hlt : n / g.blockSize < s.count) : n % g.blockSize ≠ 0 := by
  intro hzero
  have htotal := h.total
  rw [h.mod_eq] at hzero
  rw [if_pos hzero, Nat.add_zero] at htotal
  rw [htotal, Nat.mul_div_cancel _ hpos] at hlt
  exact Nat.lt_irrefl _ hlt

theorem eq_of_le_div (he : e ≤ n) (hpast : s.count ≤ e / g.blockSize) :
    e = n ∧ n = s.count * g.blockSize := by
  have hle := (Nat.le_div_iff_mul_le hpos).mp hpast
  have := h.le
  omega

end

theorem ended (he : e ≤ s.count * g.blockSize)
    (hfull : ¬ (s.offset = 0 ∧ n < e + g.blockSize ∧ e < n)) (block : ℕ) :
    (if (⟨e / g.blockSize, e % g.blockSize, block⟩ : BlockPos).PastEnd s then
      (⟨s.count, e % g.blockSize⟩ : BlockSize) else s).Is g (max n e) := by
  have hoffset := h.offset
  have htotal := h.total
  have hpos : 0 < g.blockSize := by omega
  have hmod := Nat.mod_lt e hpos
  have hdiv := div_add_mod e g.blockSize
  by_cases hpast : s.count * g.blockSize ≤ e
  · have hle := (Nat.le_div_iff_mul_le hpos).mpr hpast
    rw [if_pos (.inr (.inl hle))]
    have hend : e = s.count * g.blockSize := by omega
    have hzero : e % g.blockSize = 0 := by rw [hend, mul_mod_left]
    refine ⟨by omega, ?_⟩
    have := h.le
    rw [hzero, if_pos rfl]
    change max n e + 0 = s.count * g.blockSize
    omega
  · have hlt : e / g.blockSize < s.count := (Nat.div_lt_iff_lt_mul hpos).mpr (by omega)
    have hblock : g.blockSize ≤ s.count * g.blockSize := le_mul_of_pos (by omega)
    by_cases hlast : e / g.blockSize = s.count - 1
    · have hstart : g.blockSize * (e / g.blockSize) = s.count * g.blockSize - g.blockSize := by
        rw [hlast, Nat.mul_comm, Nat.sub_mul, Nat.one_mul]
      by_cases hbehind : s.offset < e % g.blockSize
      · rw [if_pos (.inr (.inr ⟨hlast, hbehind⟩))]
        refine ⟨hmod, ?_⟩
        rw [if_neg (show ¬ e % g.blockSize = 0 by omega)]
        change max n e + (g.blockSize - e % g.blockSize) = s.count * g.blockSize
        split_ifs at htotal with hzero <;> omega
      · rw [if_neg]
        · refine ⟨hoffset, ?_⟩
          split_ifs at htotal ⊢ with hzero <;> omega
        · rintro (⟨-, hzero⟩ | hle | ⟨-, hlt'⟩)
          · exact not_lt_zero _ (hzero ▸ hlt)
          · exact Nat.not_le_of_lt hlt hle
          · exact hbehind hlt'
    · rw [if_neg]
      · have hless : e < (s.count - 1) * g.blockSize := (Nat.div_lt_iff_lt_mul hpos).mp (by omega)
        rw [Nat.sub_mul, Nat.one_mul] at hless
        refine ⟨hoffset, ?_⟩
        split_ifs at htotal ⊢ with hzero <;> omega
      · rintro (⟨-, hzero⟩ | hle | ⟨heq, -⟩)
        · exact not_lt_zero _ (hzero ▸ hlt)
        · exact Nat.not_le_of_lt hlt hle
        · exact hlast heq

end

theorem ended_new (hpos : 0 < g.blockSize) {count : ℕ} (hlt : count * g.blockSize < e)
    (hle : e ≤ (count + 1) * g.blockSize) (block : ℕ) :
    (⟨e / g.blockSize, e % g.blockSize, block⟩ : BlockPos).PastEnd ⟨count + 1, 0⟩ ∧
      (⟨count + 1, e % g.blockSize⟩ : BlockSize).Is g e := by
  have hmod := Nat.mod_lt e hpos
  have hdiv := div_add_mod e g.blockSize
  rw [Nat.add_mul, Nat.one_mul] at hle
  have hquot : count ≤ e / g.blockSize := (Nat.le_div_iff_mul_le hpos).mpr (by omega)
  by_cases hend : e = (count + 1) * g.blockSize
  · have hzero : e % g.blockSize = 0 := by rw [hend, mul_mod_left]
    refine ⟨.inr (.inl ((Nat.le_div_iff_mul_le hpos).mpr (Nat.le_of_eq hend.symm))), by omega, ?_⟩
    rw [hzero, if_pos rfl, Nat.add_zero]
    exact hend
  · rw [Nat.add_mul, Nat.one_mul] at hend
    have hsame : e / g.blockSize = count := by
      have : e / g.blockSize < count + 1 := (Nat.div_lt_iff_lt_mul hpos).mpr (by
        rw [Nat.add_mul, Nat.one_mul]
        omega)
      omega
    have hstart : g.blockSize * (e / g.blockSize) = count * g.blockSize := by
      rw [hsame, Nat.mul_comm]
    refine ⟨.inr (.inr ⟨hsame, show 0 < e % g.blockSize by omega⟩), hmod, ?_⟩
    rw [if_neg (show ¬ e % g.blockSize = 0 by omega)]
    change e + (g.blockSize - e % g.blockSize) = (count + 1) * g.blockSize
    rw [Nat.add_mul, Nat.one_mul]
    omega

end BlockSize.Is

end Rtems.Rfs
