import Mathlib.Data.Nat.Init
import Mathlib.Algebra.Group.Nat.Defs
import Mathlib.Tactic.SplitIfs

/-!
# Blocks and media blocks

The part of `bdbuf.c` that maps the blocks of a disk to its media blocks.

* `setBlockSize`: `rtems_bdbuf_set_block_size`;
* `getMediaBlock`: the first media block of a block;
* **`maps_iff`**: the blocks of an accepted size are on the disk and apart, if it is a multiple of
  the size of a media block, and otherwise only on a disk with at most one block.
-/

namespace Rtems.Bdbuf

/-- `rtems_bdbuf_config`, `max_bds_per_group` of the cache, and the bits of `size_t`. -/
structure GroupConfig where
  sizeBits : ℕ
  bufferMax : ℕ
  bufferMin : ℕ
  maxBdsPerGroup : ℕ

/-- The loop of `rtems_bdbuf_bds_per_group`, which does not end at zero. -/
def bdsLoop (sizeBits bufsPerSize : ℕ) : ℕ → ℕ → Option ℕ
  | 0, _ => none
  | fuel + 1, bdsPerSize =>
    if bdsPerSize < bufsPerSize then bdsLoop sizeBits bufsPerSize fuel (bdsPerSize * 2 % 2 ^ sizeBits)
    else some bdsPerSize

def GroupConfig.bdsPerGroup (c : GroupConfig) (size : ℕ) : Option ℕ :=
  if c.bufferMax < size then some 0
  else if c.bufferMin = 0 then none
  else (bdsLoop c.sizeBits ((size - 1) / c.bufferMin + 1) (c.sizeBits + 1) 1).map
    (c.maxBdsPerGroup / ·)

/-- `rtems_disk_device`; a shift of -1 is `none`. -/
structure DiskDevice where
  start : ℕ
  size : ℕ
  mediaBlockSize : ℕ
  blockSize : ℕ
  blockCount : ℕ
  mediaBlocksPerBlock : ℕ
  blockToMediaBlockShift : Option ℕ
  bdsPerGroup : ℕ
  deriving DecidableEq

/-- The loop for the shift. A shift by all 32 bits has no result. -/
def shiftLoop (mediaBlocksPerBlock : ℕ) : ℕ → ℕ → Option ℕ
  | 0, _ => none
  | fuel + 1, shift =>
    if 2 ^ shift < mediaBlocksPerBlock then shiftLoop mediaBlocksPerBlock fuel (shift + 1)
    else some shift

namespace DiskDevice

variable (c : GroupConfig) (dd : DiskDevice) (blockSize : ℕ)

/-- `rtems_bdbuf_set_block_size`; the inner `none` is `RTEMS_INVALID_NUMBER`, the outer a division
by zero. -/
def setBlockSize : Option (Option DiskDevice) :=
  if blockSize = 0 then some none
  else
    (c.bdsPerGroup blockSize).bind fun bds =>
      if bds = 0 then some none
      else if dd.mediaBlockSize = 0 then none
      else
        let n := blockSize / dd.mediaBlockSize
        (shiftLoop n 32 0).bind fun shift =>
          if n = 0 then none
          else some (some { dd with
            blockSize := blockSize
            blockCount := dd.size / n
            mediaBlocksPerBlock := n
            blockToMediaBlockShift :=
              if dd.mediaBlockSize * 2 ^ shift % 2 ^ 32 = blockSize then some shift else none
            bdsPerGroup := bds })

def mediaBlock (block : ℕ) : ℕ :=
  match dd.blockToMediaBlockShift with
  | some shift => block * 2 ^ shift % 2 ^ 32
  | none => block * dd.blockSize / dd.mediaBlockSize % 2 ^ 32

def getMediaBlock (block : ℕ) : Option ℕ :=
  if block < dd.blockCount then some ((dd.mediaBlock block + dd.start) % 2 ^ 32) else none

/-- The media blocks that a transfer of a block is for. -/
def Touches (block x : ℕ) : Prop :=
  ∃ m ∈ dd.getMediaBlock block, m ≤ x ∧ (x - m) * dd.mediaBlockSize < dd.blockSize

/-- The sizes for which there are buffers. -/
def Accepts : Prop := 0 < blockSize ∧ ∃ n ∈ c.bdsPerGroup blockSize, 0 < n

/-- The size is set, and blocks are on the disk and apart. -/
def Maps : Prop :=
  ∃ dd', dd.setBlockSize c blockSize = some (some dd') ∧
    (∀ block x, dd'.Touches block x → dd.start ≤ x ∧ x < dd.start + dd.size) ∧
    ∀ block block' x, dd'.Touches block x → dd'.Touches block' x → block = block'

variable {c blockSize}

theorem shiftLoop_spec {n : ℕ} : ∀ fuel shift, fuel + shift = 32 → 2 ^ shift < 2 * n →
    (n ≤ 2 ^ 31 ∧ ∃ r, shiftLoop n fuel shift = some r ∧ n ≤ 2 ^ r ∧ 2 ^ r < 2 * n) ∨
      2 ^ 31 < n ∧ shiftLoop n fuel shift = none := by
  intro fuel
  induction fuel with
  | zero =>
    intro shift hsum hlt; rw [show shift = 32 by omega] at hlt; exact .inr ⟨by omega, rfl⟩
  | succ fuel ih =>
    intro shift hsum hlt
    rw [shiftLoop]
    by_cases hless : 2 ^ shift < n
    · rw [if_pos hless]; exact ih (shift + 1) (by omega) (by rw [Nat.pow_succ]; omega)
    · have := Nat.pow_le_pow_right (show 0 < 2 by decide) (show shift ≤ 31 by omega)
      rw [if_neg hless]
      exact .inl ⟨by omega, shift, rfl, by omega, hlt⟩

/-- The size is set if a block has a media block and the shift is small enough. -/
theorem setBlockSize_spec (h : Accepts c blockSize) (hsize : blockSize < 2 ^ 32) :
    (0 < blockSize / dd.mediaBlockSize ∧ blockSize / dd.mediaBlockSize ≤ 2 ^ 31 ∧
      ∃ dd', dd.setBlockSize c blockSize = some (some dd') ∧ ∀ block x, dd'.Touches block x ↔
        block < dd.size / (blockSize / dd.mediaBlockSize) ∧
        (block * blockSize / dd.mediaBlockSize % 2 ^ 32 + dd.start) % 2 ^ 32 ≤ x ∧
        (x - (block * blockSize / dd.mediaBlockSize % 2 ^ 32 + dd.start) % 2 ^ 32) *
          dd.mediaBlockSize < blockSize) ∨
    ¬ (0 < blockSize / dd.mediaBlockSize ∧ blockSize / dd.mediaBlockSize ≤ 2 ^ 31) ∧
      dd.setBlockSize c blockSize = none := by
  obtain ⟨hpos, bds, hbds, hne⟩ := h
  unfold setBlockSize
  rw [if_neg (by omega), show c.bdsPerGroup blockSize = some bds from hbds, Option.bind_some,
    if_neg (by omega)]
  by_cases hzero : dd.mediaBlockSize = 0
  · rw [if_pos hzero, hzero, Nat.div_zero]; exact .inr ⟨by omega, rfl⟩
  · rw [if_neg hzero]
    have hle := Nat.div_mul_le_self blockSize dd.mediaBlockSize
    dsimp only
    generalize blockSize / dd.mediaBlockSize = n at hle ⊢
    by_cases hn : n = 0
    · rw [hn]; exact .inr ⟨by omega, rfl⟩
    · rcases shiftLoop_spec 32 0 rfl (show 2 ^ 0 < 2 * n by omega) with
        ⟨hn31, r, hr, hge, hlt⟩ | ⟨hn31, hr⟩
      · rw [hr, Option.bind_some, if_neg hn]
        refine .inl ⟨by omega, hn31, _, rfl, fun block x => ?_⟩
        have hpower : dd.mediaBlockSize * 2 ^ r < 2 * (n * dd.mediaBlockSize) := by
          have := Nat.mul_lt_mul_of_pos_left hlt (Nat.pos_of_ne_zero hzero)
          rwa [Nat.mul_left_comm, Nat.mul_comm dd.mediaBlockSize n] at this
        have hmedia : ∀ o, (if dd.mediaBlockSize * 2 ^ r % 2 ^ 32 = blockSize then some r
            else none) = o → (match o with
              | some shift => block * 2 ^ shift % 2 ^ 32
              | none => block * blockSize / dd.mediaBlockSize % 2 ^ 32) =
            block * blockSize / dd.mediaBlockSize % 2 ^ 32 := by
          rintro o rfl
          split_ifs with hshift
          · have hexact : blockSize = dd.mediaBlockSize * 2 ^ r := by omega
            rw [hexact, Nat.mul_left_comm, Nat.mul_div_cancel_left _ (Nat.pos_of_ne_zero hzero)]
          · rfl
        unfold Touches getMediaBlock mediaBlock
        rw [hmedia _ rfl]
        by_cases hblock : block < dd.size / n <;> simp [hblock]
      · rw [hr]; exact .inr ⟨by omega, rfl⟩

/-- **Blocks are on the disk and apart** if and only if the size is a multiple of the media block's,
or at most one block is there and does not end with the disk. -/
theorem maps_iff (h : Accepts c blockSize) (hsize : blockSize < 2 ^ 32)
    (hdisk : dd.start + dd.size ≤ 2 ^ 32) : dd.Maps c blockSize ↔
      0 < blockSize / dd.mediaBlockSize ∧ blockSize / dd.mediaBlockSize ≤ 2 ^ 31 ∧
      (dd.mediaBlockSize ∣ blockSize ∨ dd.size < blockSize / dd.mediaBlockSize ∨
        blockSize / dd.mediaBlockSize < dd.size ∧
          dd.size < 2 * (blockSize / dd.mediaBlockSize)) := by
  rcases setBlockSize_spec dd h hsize with ⟨hpos, hle, dd', hset, htouches⟩ | ⟨hno, hset⟩
  · have hsum := Nat.div_add_mod blockSize dd.mediaBlockSize
    have hmbs : 0 < dd.mediaBlockSize := Nat.pos_of_ne_zero fun hzero => by
      rw [hzero, Nat.div_zero] at hpos
      omega
    have hmod := Nat.mod_lt blockSize hmbs
    rw [Nat.dvd_iff_mod_eq_zero]
    generalize hn : blockSize / dd.mediaBlockSize = n at *
    constructor
    · rintro ⟨dd₁, hset₁, hin, hapart⟩
      rw [hset] at hset₁
      cases hset₁
      refine ⟨hpos, hle, ?_⟩
      by_cases hrest : blockSize % dd.mediaBlockSize = 0 ∨ dd.size < n
      · exact hrest.imp_right .inl
      · -- The first block goes on into the first media block of the second one.
        have hmul : (dd.start + n - dd.start) * dd.mediaBlockSize < blockSize := by
          rw [Nat.add_sub_cancel_left, Nat.mul_comm]; omega
        have hfirst : dd'.Touches 0 (dd.start + n) := by
          refine (htouches _ _).mpr ⟨Nat.div_pos (by omega) hpos, ?_⟩
          rw [Nat.zero_mul, Nat.zero_div, Nat.zero_mod, Nat.zero_add, Nat.mod_eq_of_lt (by omega)]
          exact ⟨Nat.le_add_right _ _, hmul⟩
        have hlast := hin _ _ hfirst
        refine .inr (.inr ⟨by omega, Nat.lt_of_not_le fun htwo => ?_⟩)
        have hsecond : dd'.Touches 1 (dd.start + n) := by
          refine (htouches _ _).mpr ⟨(Nat.le_div_iff_mul_le hpos).mpr htwo, ?_⟩
          rw [Nat.one_mul, hn, Nat.mod_eq_of_lt (show n < 2 ^ 32 by omega), Nat.add_comm n,
            Nat.mod_eq_of_lt (by omega)]
          exact ⟨Nat.le_refl _, by rw [Nat.sub_self, Nat.zero_mul]; exact h.1⟩
        exact Nat.zero_ne_one (hapart _ _ _ hfirst hsecond)
    · rintro ⟨-, -, hcases⟩
      have hspan : ∃ k, ∀ block x, dd'.Touches block x →
          dd.start ≤ x ∧ x < dd.start + dd.size ∧ (x - dd.start) / k = block := by
        rcases hcases with hrest | hsmall | ⟨hgt, hlt⟩
        · refine ⟨n, fun block x hx => ?_⟩
          obtain ⟨hblock, hm, hx⟩ := (htouches block x).mp hx
          have hend := (Nat.le_div_iff_mul_le hpos).mp hblock
          rw [Nat.succ_mul] at hend
          rw [show blockSize = dd.mediaBlockSize * n by omega, Nat.mul_left_comm,
            Nat.mul_div_cancel_left _ hmbs, Nat.mod_eq_of_lt (by omega : block * n < _),
            Nat.mod_eq_of_lt (by omega)] at hm hx
          rw [Nat.mul_comm] at hx
          have hlt := Nat.lt_of_mul_lt_mul_left hx
          refine ⟨by omega, by omega, Nat.div_eq_of_lt_le (by omega) ?_⟩
          rw [Nat.succ_mul]
          omega
        · refine ⟨n, fun block x hx => ?_⟩
          have hblock := ((htouches block x).mp hx).1
          rw [Nat.div_eq_of_lt hsmall] at hblock
          omega
        · refine ⟨n + 1, fun block x hx => ?_⟩
          obtain ⟨hblock, hm, hx⟩ := (htouches block x).mp hx
          rw [Nat.div_eq_of_lt_le (show 1 * n ≤ dd.size by omega) (by omega)] at hblock
          obtain rfl : block = 0 := by omega
          rw [Nat.zero_mul, Nat.zero_div, Nat.zero_mod, Nat.zero_add, Nat.mod_eq_of_lt (by omega)]
            at hm hx
          have hlt : x - dd.start < n + 1 := by
            refine Nat.lt_of_mul_lt_mul_right (Nat.lt_of_lt_of_le hx ?_)
            rw [Nat.succ_mul, Nat.mul_comm]
            omega
          exact ⟨hm, by omega, Nat.div_eq_of_lt hlt⟩
      obtain ⟨k, hspan⟩ := hspan
      exact ⟨dd', hset, fun block x hx => ⟨(hspan block x hx).1, (hspan block x hx).2.1⟩,
        fun block block' x hx hx' => (hspan block x hx).2.2.symm.trans (hspan block' x hx').2.2⟩
  · refine iff_of_false (fun hmaps => ?_) fun hyes => hno ⟨hyes.1, hyes.2.1⟩
    obtain ⟨dd', hset', -⟩ := hmaps
    rw [hset] at hset'
    cases hset'

/-- Ten media blocks of 512 bytes, with a block size that is not set yet. -/
def sample : DiskDevice := ⟨100, 10, 512, 0, 0, 0, none, 0⟩

theorem maps_sample : sample.Maps ⟨32, 4096, 512, 8⟩ 1536 :=
  (maps_iff sample ⟨by decide, 2, rfl, by decide⟩ (by decide) (by decide)).mpr (by decide)

/-- A small block size divides by zero; two blocks of 700 bytes share a media block. -/
theorem not_maps_sample : Accepts ⟨32, 4096, 512, 8⟩ 256 ∧ Accepts ⟨32, 4096, 512, 8⟩ 700 ∧
    sample.setBlockSize ⟨32, 4096, 512, 8⟩ 256 = none ∧
    ∃ dd, sample.setBlockSize ⟨32, 4096, 512, 8⟩ 700 = some (some dd) ∧ dd.Touches 0 101 ∧
      dd.Touches 1 101 := by
  refine ⟨⟨by decide, 8, rfl, by decide⟩, ⟨by decide, 4, rfl, by decide⟩, rfl, _, rfl, ?_, ?_⟩
  · exact ⟨100, rfl, by decide⟩
  · exact ⟨101, rfl, by decide⟩

end DiskDevice

end Rtems.Bdbuf
