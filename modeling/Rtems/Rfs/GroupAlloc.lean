import Rtems.Rfs.Group

/-!
# The allocation of blocks and inodes

The groups are tried from the group of the goal in both directions. A number of a block or an inode
stands for a bit of a group, and the operations have to agree about this bit.

* `Mounted`: the geometry that `rtems_rfs_fs_read_superblock` gives;
* `Tried`: the groups in which the loop has found nothing;
* **`allocLoop_spec`**: the loop finds a clear bit of a group, if there is one;
* **`group_exact`**: allocation, free and test agree, for goals whose next block is in a group;
  **`exists_refused_block`**: what happens otherwise.
-/

namespace Rtems.Rfs

open PartialRun List Option Direction BitmapControl Int

theorem toInt32_of_lt {x : ℤ} (h : 0 ≤ x) (hlt : x < 2 ^ 31) : toInt32 x = x := by
  unfold toInt32 bmod
  have hmod : x % ((2 ^ 32 : ℕ) : ℤ) = x := emod_eq_of_lt h (by omega)
  rw [hmod, if_pos]
  omega

theorem toSize_of_lt {w : ℕ} (hw : 32 ≤ w) {x : ℤ} (h : 0 ≤ x) (hlt : x < 2 ^ 31) :
    toSize w x = x := by
  have hpow : (2 : ℤ) ^ 32 ≤ 2 ^ w := by
    exact_mod_cast Nat.pow_le_pow_right (show 0 < 2 by decide) hw
  exact emod_eq_of_lt h (by omega)

namespace FileSystem

variable {L : BitmapLayer} {Ok : L.Bitmap → Prop} {w : ℕ} {fs fs' : FileSystem L} {kind : Kind}

/-! ## The geometry of an open file system -/

/-- The groups lie one behind the other after the superblock, the last may be shorter, none has more
inodes than blocks, and numbers have 31 bits. -/
structure Mounted (Ok : L.Bitmap → Prop) (fs : FileSystem L) : Prop where
  count : fs.groupCount = fs.groups.length
  blocks_pos : 0 < fs.groupBlocks
  inodes_pos : 0 < fs.groupInodes
  blocks_fit : fs.groupBlocks * fs.groups.length < 2 ^ 31
  inodes_fit : fs.groupInodes * fs.groups.length < 2 ^ 31
  inodes : fs.inodes = fs.groupInodes * fs.groups.length
  base : ∀ (i : ℕ) (g : Group L), fs.groups[i]? = some g →
    g.base = fs.groupBlocks * i + 1 ∧ g.base < fs.blocks
  block_size : ∀ (i : ℕ) (g : Group L), fs.groups[i]? = some g →
    L.size g.blockBitmap = min fs.groupBlocks (fs.blocks - g.base)
  inode_size : ∀ (i : ℕ) (g : Group L), fs.groups[i]? = some g →
    L.size g.inodeBitmap = min fs.groupInodes (L.size g.blockBitmap)
  ok : ∀ (i : ℕ) (g : Group L), fs.groups[i]? = some g → ∀ kind, Ok (g.bitmap kind)

section Mounted

variable {i : ℕ} {g : Group L}

section

variable (h : fs.Mounted Ok) (hg : fs.groups[i]? = some g)

include h hg

theorem Mounted.size_pos : 0 < L.size (g.bitmap kind) := by
  have hbase := h.base i g hg
  have hblock := h.block_size i g hg
  have hb := h.blocks_pos
  cases kind with
  | block => change 0 < L.size g.blockBitmap; omega
  | inode =>
    change 0 < L.size g.inodeBitmap
    have hi := h.inodes_pos
    rw [h.inode_size i g hg]
    omega

theorem Mounted.size_le : L.size (g.bitmap kind) ≤ fs.groupSize kind := by
  cases kind with
  | block =>
    change L.size g.blockBitmap ≤ fs.groupBlocks
    rw [h.block_size i g hg]
    exact Nat.min_le_left _ _
  | inode =>
    change L.size g.inodeBitmap ≤ fs.groupInodes
    rw [h.inode_size i g hg]
    exact Nat.min_le_left _ _

theorem Mounted.size_eq
    (hi : i + 1 < fs.groups.length) (hkind : kind = .inode → fs.groupInodes ≤ fs.groupBlocks) :
    L.size (g.bitmap kind) = fs.groupSize kind := by
  have hbase := (h.base i g hg).1
  have hnext := h.base (i + 1) _ (getElem?_eq_getElem hi)
  rw [Nat.mul_add, Nat.mul_one] at hnext
  have hblock : L.size g.blockBitmap = fs.groupBlocks := by rw [h.block_size i g hg]; omega
  cases kind with
  | block => exact hblock
  | inode =>
    change L.size g.inodeBitmap = fs.groupInodes
    rw [h.inode_size i g hg, hblock]
    exact Nat.min_eq_left (hkind rfl)

end

theorem Mounted.position_lt (h : fs.Mounted Ok) (hi : i < fs.groups.length) {bit : ℕ}
    (hbit : bit < fs.groupSize kind) : fs.groupSize kind * i + bit + 1 < 2 ^ 31 := by
  have hfit : fs.groupSize kind * fs.groups.length < 2 ^ 31 := by
    cases kind with
    | block => exact h.blocks_fit
    | inode => exact h.inodes_fit
  have hle : fs.groupSize kind * (i + 1) ≤ fs.groupSize kind * fs.groups.length :=
    Nat.mul_le_mul_left _ hi
  rw [Nat.mul_add, Nat.mul_one] at hle
  omega

/-- **The number of a bit** is one more than its position. -/
theorem Mounted.groupNumber_eq (h : fs.Mounted Ok) (hg : fs.groups[i]? = some g) {bit : ℕ}
    (hbit : bit < fs.groupSize kind) :
    fs.groupNumber i g bit kind = fs.groupSize kind * i + bit + 1 := by
  have hi : i < fs.groups.length := (List.getElem?_eq_some_iff.mp hg).1
  have hlt := h.position_lt hi hbit
  cases kind with
  | block =>
    change toInt32 (g.base + bit) = fs.groupBlocks * i + bit + 1
    change fs.groupBlocks * i + bit + 1 < 2 ^ 31 at hlt
    rw [(h.base i g hg).1, toInt32_of_lt (by omega) (by push_cast; omega)]
    omega
  | inode =>
    change toInt32 (fs.groupInodes * i + bit + 1) = fs.groupInodes * i + bit + 1
    change fs.groupInodes * i + bit + 1 < 2 ^ 31 at hlt
    have hcast : (fs.groupInodes * i + bit + 1 : ℤ) = (fs.groupInodes * i + bit + 1 : ℕ) := by
      rfl
    rw [hcast, toInt32_of_lt (by omega) (by omega)]

theorem setBitmap_self (hg : fs.groups[i]? = some g) :
    fs.setBitmap i kind (g.bitmap kind) = fs := by
  have hsame : g.setBitmap (g.bitmap kind) kind = g := by cases kind <;> rfl
  have hgroups : fs.groups.modify i (fun g' => g'.setBitmap (g.bitmap kind) kind) = fs.groups := by
    apply ext_getElem?
    intro j
    by_cases hij : i = j
    · subst hij; rw [getElem?_modify_eq, hg]; exact congrArg some hsame
    · exact getElem?_modify_ne _ _ hij
  unfold setBitmap
  rw [hgroups]

theorem groups_setBitmap (hg : fs.groups[i]? = some g) (m : L.Bitmap) {j : ℕ} {g' : Group L}
    (hg' : (fs.setBitmap i kind m).groups[j]? = some g') :
    (j = i ∧ g' = g.setBitmap m kind) ∨ (j ≠ i ∧ fs.groups[j]? = some g') := by
  unfold setBitmap at hg'
  by_cases hij : i = j
  · subst hij; rw [getElem?_modify_eq, hg] at hg'; exact .inl ⟨rfl, (some_inj.mp hg').symm⟩
  · rw [getElem?_modify_ne _ _ hij] at hg'; exact .inr ⟨Ne.symm hij, hg'⟩

theorem Mounted.setBitmap (h : fs.Mounted Ok) (hg : fs.groups[i]? = some g) {m : L.Bitmap}
    (hok : Ok m) (hsize : L.size m = L.size (g.bitmap kind)) :
    (fs.setBitmap i kind m).Mounted Ok := by
  have hlength : (fs.setBitmap i kind m).groups.length = fs.groups.length :=
    length_modify ..
  have hbase : (g.setBitmap m kind).base = g.base := by cases kind <;> rfl
  have hblock : L.size (g.setBitmap m kind).blockBitmap = L.size g.blockBitmap := by
    cases kind with
    | block => exact hsize
    | inode => rfl
  have hinode : L.size (g.setBitmap m kind).inodeBitmap = L.size g.inodeBitmap := by
    cases kind with
    | block => rfl
    | inode => exact hsize
  refine
    { count := h.count.trans (by rw [hlength]), blocks_pos := h.blocks_pos
      inodes_pos := h.inodes_pos
      blocks_fit := by rw [hlength]; exact h.blocks_fit
      inodes_fit := by rw [hlength]; exact h.inodes_fit
      inodes := by rw [hlength]; exact h.inodes
      base := ?_, block_size := ?_, inode_size := ?_, ok := ?_ }
  · intro j g' hg'
    rcases groups_setBitmap hg m hg' with ⟨rfl, rfl⟩ | ⟨-, hg'⟩
    · rw [hbase]; exact h.base j g hg
    · exact h.base j g' hg'
  · intro j g' hg'
    rcases groups_setBitmap hg m hg' with ⟨rfl, rfl⟩ | ⟨-, hg'⟩
    · rw [hbase, hblock]; exact h.block_size j g hg
    · exact h.block_size j g' hg'
  · intro j g' hg'
    rcases groups_setBitmap hg m hg' with ⟨rfl, rfl⟩ | ⟨-, hg'⟩
    · rw [hinode, hblock]; exact h.inode_size j g hg
    · exact h.inode_size j g' hg'
  · intro j g' hg' kind'
    rcases groups_setBitmap hg m hg' with ⟨rfl, rfl⟩ | ⟨-, hg'⟩
    · cases kind <;> cases kind'
      · exact hok
      · exact h.ok j g hg .inode
      · exact h.ok j g hg .block
      · exact hok
    · exact h.ok j g' hg' kind'

end Mounted

/-! ## The loop over the groups -/

def Full (m : L.Bitmap) : Prop := ∀ b : ℤ, 0 ≤ b → b < L.size m → ¬ L.IsClear m b

/-- The groups tried when the loop is at an offset from the first. -/
def Tried (groupStart offset : ℤ) : Bool → Direction → ℤ → Prop
  | true, .up, i => groupStart - offset ≤ i ∧ i < groupStart + offset
  | true, .down, i => groupStart - offset < i ∧ i < groupStart + offset
  | false, .up, i => i < groupStart + offset
  | false, .down, i => groupStart - offset < i

def rounds (n offset : ℤ) : Bool → Direction → ℤ
  | true, .up => 2 * (n - offset) + 1 + (n + 3)
  | true, .down => 2 * (n - offset) + 2 + (n + 3)
  | false, _ => n - offset + 2

/-- An allocation takes a clear bit of a group, or no group has one. -/
def Served (Ok : L.Bitmap → Prop) (fs : FileSystem L) (kind : Kind)
    (r : Option (Except Errno (ℤ × FileSystem L))) : Prop :=
  (∃ (i : ℕ) (g : Group L) (bit : ℕ) (m : L.Bitmap), fs.groups[i]? = some g ∧
    bit < L.size (g.bitmap kind) ∧ L.IsClear (g.bitmap kind) bit ∧ Ok m ∧
    L.size m = L.size (g.bitmap kind) ∧
    (∀ b : ℤ, L.IsClear m b ↔ L.IsClear (g.bitmap kind) b ∧ b ≠ bit) ∧
    r = some (.ok (fs.groupNumber i g bit kind, fs.setBitmap i kind m))) ∨
  (r = some (.error .enospc) ∧
    ∀ (i : ℕ) (g : Group L), fs.groups[i]? = some g → Full (g.bitmap kind))

theorem allocLoop_spec (hL : L.Correct Ok) (h : fs.Mounted Ok)
    (hkind : kind = .inode → fs.groupInodes ≤ fs.groupBlocks) {s : ℕ} (hs : s < fs.groups.length)
    {bit : ℤ} (fuel : ℕ) {offset : ℤ} {updown : Bool} {d : Direction} (hoffset : 0 ≤ offset)
    (hstart : offset = 0 → updown = true ∧ d = .up ∧ ∀ g, fs.groups[s]? = some g →
      0 ≤ bit ∧ bit < L.size (g.bitmap kind))
    (htried : ∀ (i : ℕ) (g : Group L), fs.groups[i]? = some g → Tried s offset updown d i →
      Full (g.bitmap kind))
    (hle : offset ≤ fs.groups.length) (hfuel : rounds fs.groups.length offset updown d ≤ fuel) :
    Served Ok fs kind (allocLoop kind s fuel offset updown d bit fs) := by
  induction fuel generalizing offset updown d bit with
  | zero =>
    exfalso
    unfold rounds at hfuel
    cases updown <;> cases d <;> dsimp only at hfuel <;> omega
  | succ fuel ih =>
    have hcount := h.count
    rw [allocLoop]
    by_cases hout : (s : ℤ) + d.delta * offset < 0 ∨ fs.groupCount ≤ s + d.delta * offset
    · rw [if_pos hout]
      have hne : offset ≠ 0 := by rintro rfl; rw [Int.mul_zero, Int.add_zero] at hout; omega
      cases updown with
      | true =>
        refine ih hoffset (fun hzero => absurd hzero hne) ?_ hle ?_
        · intro i g hg hi
          have hlt := (List.getElem?_eq_some_iff.mp hg).1
          refine htried i g hg ?_
          unfold Tried Direction.flip delta at *
          cases d <;> dsimp only at * <;> omega
        · unfold rounds at hfuel ⊢; cases d <;> dsimp only at * <;> omega
      | false =>
        refine .inr ⟨rfl, fun i g hg => htried i g hg ?_⟩
        have hlt := (List.getElem?_eq_some_iff.mp hg).1
        unfold Tried delta at *
        cases d <;> dsimp only at * <;> omega
    rw [if_neg hout]
    -- the group is one of the file system, and the seed is in its bitmap
    obtain ⟨i, hi⟩ : ∃ i : ℕ, (s : ℤ) + d.delta * offset = i :=
      ⟨_, (toNat_of_nonneg (by omega)).symm⟩
    have hlt : i < fs.groups.length := by omega
    have hg := getElem?_eq_getElem hlt
    generalize fs.groups[i] = g at hg
    rw [hi, toNat_natCast, hg, bind_some]
    generalize hseed : (if offset = 0 then bit else fs.entrySeed kind d) = seed
    have hrange : 0 ≤ seed ∧ seed < L.size (g.bitmap kind) := by
      have hpos : 0 < L.size (g.bitmap kind) := h.size_pos hg
      rw [← hseed]
      by_cases hzero : offset = 0
      · rw [if_pos hzero]
        rw [hzero, Int.mul_zero, Int.add_zero] at hi
        have his : s = i := by omega
        exact (hstart hzero).2.2 g (his ▸ hg)
      · cases d with
        | up => rw [entrySeed]; omega
        | down =>
          have hnotlast : i + 1 < fs.groups.length := by
            unfold delta at hi; dsimp only at hi; omega
          have hsize := h.size_eq hg hnotlast hkind
          have hfit : fs.groupSize kind * i + (fs.groupSize kind - 1) + 1 < 2 ^ 31 :=
            h.position_lt hlt (by omega)
          rw [entrySeed, toInt32_of_lt (by omega) (by omega)]
          omega
    rcases hL.alloc _ _ (h.ok i g hg kind) hrange.1 hrange.2 with
      ⟨b, m, halloc, hb, hblt, hclear, hok, hsize, hbits⟩ | ⟨halloc, hfull⟩
    · left
      obtain ⟨bit', rfl⟩ := eq_ofNat_of_zero_le hb
      rw [halloc]
      exact ⟨i, g, bit', m, hg, by omega, hclear, hok, hsize, hbits, rfl⟩
    · rw [halloc]
      dsimp only
      rw [setBitmap_self hg]
      have htried' : ∀ (j : ℕ) (g' : Group L), fs.groups[j]? = some g' →
          j = i ∨ Tried s offset updown d j → Full (g'.bitmap kind) := by
        rintro j g' hg' (rfl | hj)
        · rw [hg] at hg'; cases hg'; exact hfull
        · exact htried j g' hg' hj
      cases updown with
      | true =>
        rw [if_pos rfl]
        cases d with
        | up =>
          rw [if_pos (by rfl)]
          refine ih (by omega) (fun hzero => by omega) ?_ ?_ ?_
          · intro j g' hg' hj
            refine htried' j g' hg' ?_
            unfold Tried Direction.flip delta at *
            dsimp only at *
            omega
          · unfold delta at hi; dsimp only at hi; omega
          · unfold rounds Direction.flip at *; dsimp only at *; omega
        | down =>
          have hne : offset ≠ 0 := by intro hzero; cases (hstart hzero).2.1
          rw [if_neg (by decide)]
          refine ih hoffset (fun hzero => absurd hzero hne) ?_ hle ?_
          · intro j g' hg' hj
            refine htried' j g' hg' ?_
            unfold Tried Direction.flip delta at *
            dsimp only at *
            omega
          · unfold rounds Direction.flip at *; dsimp only at *; omega
      | false =>
        refine ih (by omega) (fun hzero => by omega) ?_ ?_ ?_
        · intro j g' hg' hj
          refine htried' j g' hg' ?_
          unfold Tried delta at *
          cases d <;> dsimp only at * <;> omega
        · unfold delta at hi; cases d <;> dsimp only at hi <;> omega
        · unfold rounds at *; dsimp only at *; omega

/-! ## Numbers -/

def Goal (fs : FileSystem L) (kind : Kind) (goal : ℤ) : Prop :=
  goal = 0 ∨ ∃ (i : ℕ) (g : Group L) (bit : ℕ), fs.groups[i]? = some g ∧
    bit < L.size (g.bitmap kind) ∧ goal = fs.groupNumber i g bit kind

/-- The block behind the goal is in a group, or inodes are no more than blocks. -/
def GoalFits (fs : FileSystem L) (goal : ℤ) : Kind → Prop
  | .block => ∃ g, fs.groups[goal.toNat / fs.groupBlocks]? = some g ∧
      goal.toNat % fs.groupBlocks < L.size g.blockBitmap
  | .inode => goal ≠ 0 ∧ fs.groupInodes ≤ fs.groupBlocks

section Numbers

variable {i : ℕ} {g : Group L} {bit : ℕ}

theorem div_mod_position {n : ℕ} (hbit : bit < n) :
    (n * i + bit) / n = i ∧ (n * i + bit) % n = bit := by
  constructor
  · rw [Nat.mul_add_div (Nat.zero_lt_of_lt hbit), Nat.div_eq_of_lt hbit, Nat.add_zero]
  · rw [Nat.mul_add_mod, Nat.mod_eq_of_lt hbit]

theorem location_eq (hw : 32 ≤ w) {n : ℕ} (hbit : bit < n) (hlt : n * i + bit < 2 ^ 31) {x : ℤ}
    (hx : x = (n * i + bit : ℕ)) : toSize w x / n = i ∧ toInt32 (toSize w x % n) = bit := by
  obtain ⟨hdiv, hmod⟩ := div_mod_position hbit
  rw [hx, toSize_of_lt hw (by omega) (by omega)]
  constructor
  · rw [← natCast_ediv, hdiv]
  · rw [← natCast_emod, hmod]; exact toInt32_of_lt (by omega) (by omega)

section

variable (h : fs.Mounted Ok) (hw : 32 ≤ w) (hg : fs.groups[i]? = some g)

include h hw hg

theorem freeLocation_eq (hbit : bit < L.size (g.bitmap kind)) :
    fs.freeLocation w kind (fs.groupNumber i g bit kind) = ((i : ℤ), (bit : ℤ)) := by
  have hsize : bit < fs.groupSize kind := Nat.lt_of_lt_of_le hbit (h.size_le hg)
  have hlt := h.position_lt (List.getElem?_eq_some_iff.mp hg).1 hsize
  have hno : toInt32 (fs.groupNumber i g bit kind - 1) = (fs.groupSize kind * i + bit : ℕ) := by
    rw [h.groupNumber_eq hg hsize, Int.add_sub_cancel]
    have hcast : (fs.groupSize kind * i + bit : ℤ) = (fs.groupSize kind * i + bit : ℕ) := by
      rfl
    rw [hcast, toInt32_of_lt (by omega) (by omega)]
  unfold freeLocation
  obtain ⟨hdiv, hmod⟩ := location_eq hw hsize (by omega) hno
  dsimp only
  rw [hdiv, hmod]

theorem testLocation_eq (hbit : bit < L.size g.inodeBitmap) :
    fs.testLocation w .inode (fs.groupNumber i g bit .inode) = .ok ((i : ℤ), (bit : ℤ)) := by
  have hsizes : L.size (g.bitmap .inode) ≤ fs.groupSize .inode := h.size_le hg
  have hkind : bit < fs.groupSize .inode := Nat.lt_of_lt_of_le hbit hsizes
  have hsize : bit < fs.groupInodes := hkind
  have hi : i < fs.groups.length := (List.getElem?_eq_some_iff.mp hg).1
  have hlt := h.position_lt hi hkind
  change fs.groupInodes * i + bit + 1 < 2 ^ 31 at hlt
  have hnumber : fs.groupNumber i g bit .inode = (fs.groupInodes * i + bit + 1 : ℕ) := by
    rw [h.groupNumber_eq hg hkind]
    rfl
  have hle : fs.groupInodes * (i + 1) ≤ fs.groupInodes * fs.groups.length :=
    Nat.mul_le_mul_left _ hi
  rw [← h.inodes, Nat.mul_add, Nat.mul_one] at hle
  have hfree : fs.freeLocation w .inode (fs.groupNumber i g bit .inode) = ((i : ℤ), (bit : ℤ)) :=
    freeLocation_eq h hw hg hbit
  unfold testLocation
  dsimp only at hfree ⊢
  rw [if_neg]
  · exact congrArg Except.ok hfree
  · rw [hnumber, toSize_of_lt hw (by omega) (by omega)]; omega

end

theorem groupNumber_injective (h : fs.Mounted Ok) {j : ℕ} {g' : Group L} {bit' : ℕ}
    (hg : fs.groups[i]? = some g) (hg' : fs.groups[j]? = some g')
    (hbit : bit < L.size (g.bitmap kind)) (hbit' : bit' < L.size (g'.bitmap kind))
    (heq : fs.groupNumber i g bit kind = fs.groupNumber j g' bit' kind) : i = j ∧ bit = bit' := by
  have hsize : bit < fs.groupSize kind := Nat.lt_of_lt_of_le hbit (h.size_le hg)
  have hsize' : bit' < fs.groupSize kind := Nat.lt_of_lt_of_le hbit' (h.size_le hg')
  rw [h.groupNumber_eq hg hsize, h.groupNumber_eq hg' hsize'] at heq
  have hposition : fs.groupSize kind * i + bit = fs.groupSize kind * j + bit' := by
    have heq' : ((fs.groupSize kind * i + bit : ℕ) : ℤ) = (fs.groupSize kind * j + bit' : ℕ) := by
      omega
    exact ofNat_inj.mp heq'
  obtain ⟨hdiv, hmod⟩ := div_mod_position (i := i) hsize
  obtain ⟨hdiv', hmod'⟩ := div_mod_position hsize'
  exact ⟨by rw [← hdiv, hposition, hdiv'], by rw [← hmod, hposition, hmod']⟩

end Numbers

theorem groupBitmapAlloc_spec (hL : L.Correct Ok) (h : fs.Mounted Ok) (hw : 32 ≤ w) {goal : ℤ}
    (hgoal : fs.Goal kind goal) (hfits : fs.GoalFits goal kind) :
    Served Ok fs kind (fs.groupBitmapAlloc w goal kind) := by
  have hcount := h.count
  -- the group and the bit of the goal
  obtain ⟨s, g, bit, hg, hbit, hgroup, hseed⟩ : ∃ (s : ℕ) (g : Group L) (bit : ℕ),
      fs.groups[s]? = some g ∧ bit < L.size (g.bitmap kind) ∧
      toInt32 (toSize w (goalPosition goal kind) / fs.groupSize kind) = s ∧
      toInt32 (toSize w (goalPosition goal kind) % fs.groupSize kind) = bit := by
    cases kind with
    | block =>
      obtain ⟨g, hg, hbit⟩ := hfits
      refine ⟨_, g, _, hg, hbit, ?_⟩
      have hs := (List.getElem?_eq_some_iff.mp hg).1
      have hsize : goal.toNat % fs.groupBlocks < fs.groupBlocks := Nat.mod_lt _ h.blocks_pos
      have hkind : goal.toNat % fs.groupBlocks < fs.groupSize .block := hsize
      have hlt := h.position_lt hs hkind
      have hpos : 0 ≤ goal := by
        rcases hgoal with hgoal | ⟨i, g', bit, hg', hbit', hgoal⟩
        · omega
        · rw [hgoal, h.groupNumber_eq hg' (Nat.lt_of_lt_of_le hbit' (h.size_le hg'))]
          have := Int.mul_nonneg (Int.natCast_nonneg (fs.groupSize .block)) (Int.natCast_nonneg i)
          omega
      have hdecompose : goal = (fs.groupBlocks * (goal.toNat / fs.groupBlocks) +
          goal.toNat % fs.groupBlocks : ℕ) := by
        rw [Nat.div_add_mod]
        omega
      change fs.groupBlocks * (goal.toNat / fs.groupBlocks) + goal.toNat % fs.groupBlocks + 1 <
        2 ^ 31 at hlt
      obtain ⟨hdiv, hmod⟩ := location_eq hw hsize (by omega) hdecompose
      rw [goalPosition, groupSize, hdiv]
      refine ⟨?_, hmod⟩
      have hlen : fs.groups.length < 2 ^ 31 := by
        have := Nat.le_mul_of_pos_left fs.groups.length h.blocks_pos; have := h.blocks_fit; omega
      exact toInt32_of_lt (Int.natCast_nonneg _) (by omega)
    | inode =>
      obtain ⟨i, g, bit, hg, hbit, hgoal⟩ := hgoal.resolve_left hfits.1
      have hfree := freeLocation_eq h hw hg hbit
      rw [← hgoal] at hfree
      refine ⟨i, g, bit, hg, hbit, ?_⟩
      obtain ⟨hdiv, hmod⟩ := Prod.mk.inj hfree
      rw [goalPosition, hdiv]
      refine ⟨?_, hmod⟩
      have hi := (List.getElem?_eq_some_iff.mp hg).1
      have hlen : fs.groups.length < 2 ^ 31 := by
        have := Nat.le_mul_of_pos_left fs.groups.length h.inodes_pos; have := h.inodes_fit; omega
      exact toInt32_of_lt (Int.natCast_nonneg _) (by omega)
  unfold groupBitmapAlloc
  dsimp only
  rw [hgroup, hseed]
  have hkind : kind = .inode → fs.groupInodes ≤ fs.groupBlocks := by rintro rfl; exact hfits.2
  refine allocLoop_spec hL h hkind (List.getElem?_eq_some_iff.mp hg).1 _ (Int.le_refl 0) ?_ ?_
    (by omega) ?_
  · intro _
    refine ⟨rfl, rfl, fun g' hg' => ?_⟩
    rw [hg] at hg'
    cases hg'
    omega
  · intro i g' _ htried
    unfold Tried at htried
    omega
  · unfold rounds; dsimp only; omega

end FileSystem

/-! ## Opening -/

section Open

variable {L : BitmapLayer} {Ok : L.Bitmap → Prop} {w : ℕ}
  {openBitmap : ℕ → ℕ → Except Errno L.Bitmap}

/-- A bitmap that is opened has the size it is opened with. -/
def Opens (Ok : L.Bitmap → Prop) (openBitmap : ℕ → ℕ → Except Errno L.Bitmap) : Prop :=
  ∀ size block m, openBitmap size block = .ok m → Ok m ∧ L.size m = size

theorem groupOpen_spec (hopen : Opens Ok openBitmap) {blocks base size inodes : ℕ} {g : Group L}
    (hg : groupOpen blocks base size inodes openBitmap = .ok g) :
    g.base = base ∧ base < blocks ∧ L.size g.blockBitmap = min size (blocks - base) ∧
      L.size g.inodeBitmap = min inodes (L.size g.blockBitmap) ∧ ∀ kind, Ok (g.bitmap kind) := by
  unfold groupOpen at hg
  by_cases hbase : blocks ≤ base
  · rw [if_pos hbase] at hg; cases hg
  rw [if_neg hbase] at hg
  dsimp only at hg
  generalize hsize : (if blocks ≤ base + size then blocks - base else size) = size' at hg
  generalize hinodes : (if size' < inodes then size' else inodes) = inodes' at hg
  cases hblock : openBitmap size' base with
  | error e => rw [hblock] at hg; cases hg
  | ok blockBitmap =>
    cases hinode : openBitmap inodes' (base + 1) with
    | error e => rw [hblock, Except.bind, hinode] at hg; cases hg
    | ok inodeBitmap =>
      rw [hblock, Except.bind, hinode] at hg
      cases hg
      obtain ⟨hok, hsize'⟩ := hopen _ _ _ hblock
      obtain ⟨hok', hsize''⟩ := hopen _ _ _ hinode
      refine ⟨rfl, by omega, ?_, ?_, ?_⟩
      · rw [hsize', ← hsize]
        split_ifs <;> omega
      · rw [hsize'', hsize', ← hinodes]
        split_ifs <;> omega
      · intro kind
        cases kind
        · exact hok
        · exact hok'

theorem openGroups_spec (hopen : Opens Ok openBitmap) (hw : 32 ≤ w)
    {blocks groupBlocks groupInodes group count : ℕ} {gs : List (Group L)}
    (hfit : groupBlocks * (group + count) < 2 ^ 31)
    (hgs : openGroups w blocks groupBlocks groupInodes openBitmap group count = .ok gs) :
    gs.length = count ∧ ∀ (j : ℕ) (g : Group L), gs[j]? = some g →
      g.base = groupBlocks * (group + j) + 1 ∧ g.base < blocks ∧
      L.size g.blockBitmap = min groupBlocks (blocks - g.base) ∧
      L.size g.inodeBitmap = min groupInodes (L.size g.blockBitmap) ∧
      ∀ kind, Ok (g.bitmap kind) := by
  induction count generalizing group gs with
  | zero => cases hgs; exact ⟨rfl, fun j g hg => by cases hg⟩
  | succ count ih =>
    rw [openGroups] at hgs
    cases hg : groupOpen blocks (fsBlock w groupBlocks group 0) groupBlocks groupInodes
        openBitmap with
    | error e => rw [hg] at hgs; cases hgs
    | ok g =>
      cases hrest : openGroups w blocks groupBlocks groupInodes openBitmap (group + 1) count with
      | error e => simp only [hg, Except.bind, hrest] at hgs; cases hgs
      | ok rest =>
        simp only [hg, Except.bind, hrest] at hgs
        cases hgs
        have hshift : group + 1 + count = group + (count + 1) := by omega
        obtain ⟨hlength, hgroups⟩ := ih (by rw [hshift]; exact hfit) hrest
        refine ⟨by rw [length_cons, hlength], ?_⟩
        have hblock : fsBlock w groupBlocks group 0 = groupBlocks * group + 1 := by
          have hle : groupBlocks * group ≤ groupBlocks * (group + (count + 1)) :=
            Nat.mul_le_mul_left _ (by omega)
          have hpow : 2 ^ 32 ≤ 2 ^ w := Nat.pow_le_pow_right (by decide) hw
          exact Nat.mod_eq_of_lt (by omega)
        intro j g' hg'
        cases j with
        | zero =>
          cases hg'
          obtain ⟨hbase, hlt, hsize, hisize, hok⟩ := groupOpen_spec hopen hg
          rw [hblock] at hbase hlt hsize
          exact ⟨hbase, by omega, by rw [hbase]; exact hsize, hisize, hok⟩
        | succ j =>
          have hmember := hgroups j g' hg'
          rw [show group + 1 + j = group + (j + 1) by omega] at hmember
          exact hmember

/-- The numbers of the blocks and inodes fit into 31 bits, and no size is zero. -/
structure Superblock.Fits (sb : Superblock) : Prop where
  blocks_pos : 0 < sb.groupBlocks
  inodes_pos : 0 < sb.groupInodes
  blocks_fit : sb.groupBlocks * sb.groups < 2 ^ 31
  inodes_fit : sb.groupInodes * sb.groups < 2 ^ 31

/-- **A file system that is opened** has the geometry of its superblock. -/
theorem readSuperblock_mounted (hopen : Opens Ok openBitmap) (hw : 32 ≤ w) {mediaSize : ℕ}
    {sb : Superblock} (hfits : sb.Fits) {fs : FileSystem L}
    (hfs : readSuperblock w mediaSize sb openBitmap = .ok fs) : fs.Mounted Ok := by
  unfold readSuperblock at hfs
  split_ifs at hfs
  have hgroups : sb.groups < 2 ^ 31 := by
    have := Nat.le_mul_of_pos_left sb.groups hfits.blocks_pos; have := hfits.blocks_fit; omega
  have hcount : toInt32 sb.groups = sb.groups :=
    toInt32_of_lt (Int.natCast_nonneg _) (by omega)
  dsimp only at hfs
  rw [hcount, toNat_natCast] at hfs
  cases hgs : openGroups w sb.blocks sb.groupBlocks sb.groupInodes openBitmap 0 sb.groups with
  | error e => rw [hgs] at hfs; cases hfs
  | ok gs =>
    rw [hgs] at hfs
    cases hfs
    obtain ⟨hlength, hmembers⟩ := openGroups_spec hopen hw
      (by rw [Nat.zero_add]; exact hfits.blocks_fit) hgs
    simp only [Nat.zero_add] at hmembers
    refine
      { count := congrArg Int.ofNat hlength.symm, blocks_pos := hfits.blocks_pos
        inodes_pos := hfits.inodes_pos
        blocks_fit := by rw [hlength]; exact hfits.blocks_fit
        inodes_fit := by rw [hlength]; exact hfits.inodes_fit
        inodes := ?_
        base := fun i g hg => ⟨(hmembers i g hg).1, (hmembers i g hg).2.1⟩
        block_size := fun i g hg => (hmembers i g hg).2.2.1
        inode_size := fun i g hg => (hmembers i g hg).2.2.2.1
        ok := fun i g hg => (hmembers i g hg).2.2.2.2 }
    have hfit := hfits.inodes_fit
    have hcast : (sb.groups * sb.groupInodes : ℤ) = (sb.groupInodes * sb.groups : ℕ) := by
      rw [Nat.mul_comm]
      rfl
    rw [hlength, hcast, toSize_of_lt hw (Int.natCast_nonneg _) (by omega), toNat_natCast]

end Open

/-! ## The use of the groups -/

inductive GroupOperation
  | alloc (kind : Kind) (goal : ℤ)
  | free (kind : Kind) (no : ℤ)
  deriving DecidableEq

namespace FileSystem

variable {L : BitmapLayer} {Ok : L.Bitmap → Prop} {w : ℕ} {fs fs' : FileSystem L}

/-- One operation; one that fails leaves the file system as it is. -/
def step (w : ℕ) (fs : FileSystem L) : GroupOperation → Option (FileSystem L)
  | .alloc kind goal => (fs.groupBitmapAlloc w goal kind).map fun
    | .ok (_, fs') => fs'
    | .error _ => fs
  | .free kind no => (fs.groupBitmapFree w kind no).map fun
    | .ok fs' => fs'
    | .error _ => fs

/-- The goal of an allocation is zero or fits; a free is of a number. -/
def Meets (fs : FileSystem L) : GroupOperation → Prop
  | .alloc kind goal => fs.Goal kind goal ∧ fs.GoalFits goal kind
  | .free kind no => ∃ (i : ℕ) (g : Group L) (bit : ℕ), fs.groups[i]? = some g ∧
      bit < L.size (g.bitmap kind) ∧ no = fs.groupNumber i g bit kind

theorem groupBitmapFree_spec (hL : L.Correct Ok) (h : fs.Mounted Ok) (hw : 32 ≤ w) {kind : Kind}
    {i : ℕ} {g : Group L} {bit : ℕ} (hg : fs.groups[i]? = some g)
    (hbit : bit < L.size (g.bitmap kind)) :
    ∃ m, Ok m ∧ L.size m = L.size (g.bitmap kind) ∧
      (∀ b : ℤ, L.IsClear m b ↔ L.IsClear (g.bitmap kind) b ∨ b = bit) ∧
      fs.groupBitmapFree w kind (fs.groupNumber i g bit kind) =
        some (.ok (fs.setBitmap i kind m)) := by
  obtain ⟨m, hm, hok, hsize, hbits⟩ :=
    hL.clear (g.bitmap kind) bit (h.ok i g hg kind) (Int.natCast_nonneg bit) (by omega)
  refine ⟨m, hok, hsize, hbits, ?_⟩
  unfold groupBitmapFree
  rw [freeLocation_eq h hw hg hbit]
  dsimp only
  rw [toNat_natCast, hg, map_some, hm]
  rfl

theorem groupBitmapTest_spec (h : fs.Mounted Ok) (hw : 32 ≤ w) {i : ℕ} {g : Group L} {bit : ℕ}
    (hg : fs.groups[i]? = some g) (hbit : bit < L.size g.inodeBitmap) :
    fs.groupBitmapTest w .inode (fs.groupNumber i g bit .inode) =
      some (L.mapTest g.inodeBitmap bit) := by
  rw [groupBitmapTest, testLocation_eq h hw hg hbit]
  dsimp only
  rw [toNat_natCast, hg]
  rfl

theorem Mounted.step (hL : L.Correct Ok) (h : fs.Mounted Ok) (hw : 32 ≤ w) {op : GroupOperation}
    (hop : fs.Meets op) (hstep : fs.step w op = some fs') : fs'.Mounted Ok := by
  cases op with
  | alloc kind goal =>
    rw [FileSystem.step] at hstep
    rcases groupBitmapAlloc_spec hL h hw hop.1 hop.2 with
      ⟨i, g, bit, m, hg, -, -, hok, hsize, -, hr⟩ | ⟨hr, -⟩
    · rw [hr] at hstep; cases hstep; exact h.setBitmap hg hok hsize
    · rw [hr] at hstep; cases hstep; exact h
  | free kind no =>
    obtain ⟨i, g, bit, hg, hbit, rfl⟩ := hop
    obtain ⟨m, hok, hsize, -, hr⟩ := groupBitmapFree_spec hL h hw hg hbit
    rw [FileSystem.step, hr] at hstep
    cases hstep
    exact h.setBitmap hg hok hsize

/-- **The numbers of blocks and inodes are exact.** An allocation takes a clear bit if there is one,
and a free of its number clears this bit. -/
theorem group_exact (hL : L.Correct Ok) (hw : 32 ≤ w)
    {openBitmap : ℕ → ℕ → Except Errno L.Bitmap} (hopen : Opens Ok openBitmap) {mediaSize : ℕ}
    {sb : Superblock} (hfits : sb.Fits) {fs₀ : FileSystem L}
    (hfs : readSuperblock w mediaSize sb openBitmap = .ok fs₀) {ops : List GroupOperation}
    (hops : Along (step w) Meets fs₀ ops)
    (hrun : run (step w) fs₀ ops = some fs) (kind : Kind) :
    (∀ goal, fs.Goal kind goal → fs.GoalFits goal kind →
      Served Ok fs kind (fs.groupBitmapAlloc w goal kind)) ∧
    (∀ (i : ℕ) (g : Group L) (bit : ℕ), fs.groups[i]? = some g → bit < L.size (g.bitmap kind) →
      (∃ m, L.size m = L.size (g.bitmap kind) ∧
        (∀ b : ℤ, L.IsClear m b ↔ L.IsClear (g.bitmap kind) b ∨ b = bit) ∧
        fs.groupBitmapFree w kind (fs.groupNumber i g bit kind) =
          some (.ok (fs.setBitmap i kind m))) ∧
      (kind = .inode → fs.groupBitmapTest w kind (fs.groupNumber i g bit kind) =
        some (L.mapTest (g.bitmap kind) bit))) ∧
    (∀ (i j : ℕ) (g g' : Group L) (bit bit' : ℕ), fs.groups[i]? = some g →
      fs.groups[j]? = some g' → bit < L.size (g.bitmap kind) → bit' < L.size (g'.bitmap kind) →
      fs.groupNumber i g bit kind = fs.groupNumber j g' bit' kind → i = j ∧ bit = bit') := by
  have h : fs.Mounted Ok := run_invariant_along (step w)
    (fun _ _ _ h hop hstep => h.step hL hw hop hstep) (readSuperblock_mounted hopen hw hfits hfs)
    hops hrun
  refine ⟨fun goal hgoal hgfits => groupBitmapAlloc_spec hL h hw hgoal hgfits, ?_, ?_⟩
  · intro i g bit hg hbit
    constructor
    · obtain ⟨m, -, hsize, hbits, hr⟩ := groupBitmapFree_spec hL h hw hg hbit
      exact ⟨m, hsize, hbits, hr⟩
    · rintro rfl; exact groupBitmapTest_spec h hw hg hbit
  · intro i j g g' bit bit' hg hg' hbit hbit' heq
    exact groupNumber_injective h hg hg' hbit hbit' heq

end FileSystem

/-! ## The bitmaps of the groups -/

/-- The bitmaps of `rtems-rfs-bitmaps.c`. -/
def controlLayer : BitmapLayer where
  Bitmap := BitmapControl
  size := size
  IsClear := IsClear
  mapAlloc c seed := (c.mapAlloc seed).getD (none, c)
  mapClear c bit := (c.mapClear bit).getD (.error .eio)
  mapTest c bit := (c.mapTest bit).getD (.error .eio)

/-- A bitmap in which every window is clamped to the map. -/
def ControlOk (c : BitmapControl) : Prop :=
  c.Valid ∧ SizeFits c.size ∧ c.size ≤ 2048

theorem Changed.isClear_iff {c c' : BitmapControl} {b : ℤ} (h : c.Changed c' b false) (b' : ℤ) :
    c'.IsClear b' ↔ c.IsClear b' ∧ b' ≠ b := by
  by_cases hb : b' = b
  · subst hb; simp [h.bit]
  · rw [h.others b' hb]; exact (and_iff_left hb).symm

theorem controlLayer_correct : controlLayer.Correct ControlOk where
  alloc := by
    rintro (c : BitmapControl) seed ⟨hvalid, hsize, hsmall⟩ hseed hlt
    change seed < c.size at hlt
    have hfits : SeedFits c.size seed := by unfold SeedFits searchWindow; omega
    rcases hvalid.mapAlloc hsize hseed hlt hfits with
      ⟨b, c', hc', hb, hltb, hclear, hvalid', hchanged⟩ | ⟨hc, hnone⟩
    · refine .inl ⟨b, c', ?_, hb, hltb, hclear, ⟨hvalid', ?_, ?_⟩, hchanged.size, ?_⟩
      · change (c.mapAlloc seed).getD (none, c) = _; rw [hc']; rfl
      · rw [hchanged.size]; exact hsize
      · rw [hchanged.size]; exact hsmall
      · exact fun b' => Changed.isClear_iff hchanged b'
    · refine .inr ⟨?_, hnone⟩
      change (c.mapAlloc seed).getD (none, c) = _
      rw [hc]
      rfl
  clear := by
    rintro (c : BitmapControl) bit ⟨hvalid, hsize, hsmall⟩ hbit hlt
    obtain ⟨c', hc', hvalid', hchanged⟩ := hvalid.mapClear hbit hlt
    refine ⟨c', ?_, ⟨hvalid', ?_, ?_⟩, hchanged.size, ?_⟩
    · change (c.mapClear bit).getD (.error .eio) = _; rw [hc']; rfl
    · rw [hchanged.size]; exact hsize
    · rw [hchanged.size]; exact hsmall
    · intro b
      change c'.IsClear b ↔ c.IsClear b ∨ b = bit
      by_cases hb : b = bit
      · subst hb; simp [hchanged.bit]
      · rw [hchanged.others b hb]; exact (or_iff_left hb).symm

/-- A bitmap of one element with all bits clear is opened. -/
def openClear (size _block : ℕ) : Except Errno controlLayer.Bitmap :=
  if 1 ≤ size ∧ size ≤ 31 then
    match bitmapOpen size [Element.allClear] fun _ => 0 with
    | some c => .ok c
    | none => .error .eio
  else .error .eio

theorem openClear_opens : Opens ControlOk openClear := by
  intro size block c hc
  unfold openClear at hc
  split_ifs at hc with hsize
  have hfits : SizeFits size := by unfold SizeFits bitmapElements; omega
  have hmap : size ≤ 32 * [Element.allClear].length := by rw [length_singleton]; omega
  obtain ⟨c', hc', hvalid, hsame, -⟩ := bitmapOpen_spec (fun _ => 0) hsize.1 hmap hfits
  rw [hc'] at hc
  cases hc
  exact ⟨⟨hvalid, by rw [hsame]; exact hfits, by omega⟩, hsame⟩

/-- A disk with two groups of eight blocks, of which the second one is shorter. -/
def twoGroups : Superblock := ⟨0x28092001, 0, 512, 15, 0, 512, 2, 8, 4, 56⟩

theorem eq_ok_of_toOption {α : Type} {r : Except Errno α} {x : α} (h : r.toOption = some x) :
    r = .ok x := by
  cases r with
  | error e => cases h
  | ok y => cases h; rfl

theorem eq_some_ok_of_bind {α : Type} {r : Option (Except Errno α)} {x : α}
    (h : r.bind Except.toOption = some x) : r = some (.ok x) := by
  obtain ⟨y, rfl, hy⟩ := bind_eq_some_iff.mp h
  rw [eq_ok_of_toOption hy]

namespace FileSystem

theorem group_exact_two : ∃ fs₀ fs : FileSystem controlLayer,
    readSuperblock 32 8192 twoGroups openClear = .ok fs₀ ∧
    run (step 32) fs₀ [.alloc .block 0] = some fs ∧
    Served ControlOk fs .inode (fs.groupBitmapAlloc 32 1 .inode) := by
  obtain ⟨fs₀, hfs₀, h⟩ := bind_eq_some_iff.mp
    (show ((readSuperblock 32 8192 twoGroups openClear).toOption.bind fun fs₀ =>
      (run (step 32) fs₀ [.alloc .block 0]).map fun fs =>
        (fs₀.groups[0 / fs₀.groupBlocks]?.any fun g =>
          0 % fs₀.groupBlocks < controlLayer.size g.blockBitmap) &&
        (fs.groups[0]?.any fun g => decide (0 < controlLayer.size g.inodeBitmap) &&
          fs.groupNumber 0 g 0 .inode == 1) &&
        decide (fs.groupInodes ≤ fs.groupBlocks)) = some true by decide +kernel)
  obtain ⟨fs, hrun, hcheck⟩ := map_eq_some_iff.mp h
  simp only [Bool.and_eq_true, Option.any_eq_true, decide_eq_true_eq, beq_iff_eq] at hcheck
  obtain ⟨⟨⟨g₀, hg₀, hfits₀⟩, g, hg, hbit, hnumber⟩, hle⟩ := hcheck
  have hfs := eq_ok_of_toOption hfs₀
  have hmeets : Along (step 32) Meets fs₀ [.alloc .block 0] :=
    ⟨⟨.inl rfl, g₀, hg₀, hfits₀⟩, fun _ _ => trivial⟩
  have hexact := group_exact controlLayer_correct (by decide) openClear_opens
    ⟨by decide, by decide, by decide, by decide⟩ hfs hmeets hrun .inode
  exact ⟨fs₀, fs, hfs, hrun, hexact.1 1 (.inr ⟨0, g, 0, hg, hbit, hnumber.symm⟩) ⟨by decide, hle⟩⟩

/-- A disk with one group of two blocks and one inode. -/
def oneGroup : Superblock := ⟨0x28092001, 0, 512, 3, 0, 512, 1, 2, 1, 56⟩

/-- An allocation fails with `ENOSPC`. -/
def refused {L : BitmapLayer} : Option (Except Errno (ℤ × FileSystem L)) → Bool
  | some (.error .enospc) => true
  | _ => false

theorem eq_of_refused {L : BitmapLayer} {r : Option (Except Errno (ℤ × FileSystem L))}
    (h : refused r = true) : r = some (.error .enospc) := by
  unfold refused at h
  split at h
  · rfl
  · cases h

/-- **A goal at the end of the disk** fails though a block is free, as does the inode goal zero; the
test of a block looks at another bit than the free. -/
theorem exists_refused_block : ∃ fs₀ fs₁ fs₂ fs : FileSystem controlLayer,
    readSuperblock 32 1536 oneGroup openClear = .ok fs₀ ∧
    fs₀.groupBitmapAlloc 32 0 .block = some (.ok (1, fs₁)) ∧
    fs₁.groupBitmapAlloc 32 1 .block = some (.ok (2, fs₂)) ∧
    fs₂.groupBitmapFree 32 .block 1 = some (.ok fs) ∧
    fs.groupBitmapAlloc 32 2 .block = some (.error .enospc) ∧
    fs.groupBitmapAlloc 32 0 .inode = some (.error .enospc) ∧
    (∃ g, fs.groups[0]? = some g ∧ IsClear g.blockBitmap 0 ∧ IsClear g.inodeBitmap 0) ∧
    fs.freeLocation 32 .block 1 = (0, 0) ∧ fs.testLocation 32 .block 1 = .ok (0, 1) := by
  obtain ⟨fs₀, h₀, h⟩ := bind_eq_some_iff.mp
    (show ((readSuperblock 32 1536 oneGroup openClear).toOption.bind fun fs₀ =>
      ((fs₀.groupBitmapAlloc 32 0 .block).bind Except.toOption).bind fun r₁ =>
      ((r₁.2.groupBitmapAlloc 32 1 .block).bind Except.toOption).bind fun r₂ =>
      ((r₂.2.groupBitmapFree 32 .block 1).bind Except.toOption).map fun fs =>
        decide (r₁.1 = 1 ∧ r₂.1 = 2) && refused (fs.groupBitmapAlloc 32 2 .block) &&
        refused (fs.groupBitmapAlloc 32 0 .inode) &&
        (fs.groups[0]?.any fun g =>
          bitOf (map g.blockBitmap) 0 && bitOf (map g.inodeBitmap) 0) &&
        decide (fs.freeLocation 32 .block 1 = (0, 0)) &&
        decide ((fs.testLocation 32 .block 1).toOption = some (0, 1))) = some true by
      decide +kernel)
  obtain ⟨⟨n₁, fs₁⟩, h₁, h⟩ := bind_eq_some_iff.mp h
  obtain ⟨⟨n₂, fs₂⟩, h₂, h⟩ := bind_eq_some_iff.mp h
  obtain ⟨fs, h₃, h⟩ := map_eq_some_iff.mp h
  simp only [Bool.and_eq_true, Option.any_eq_true, decide_eq_true_eq] at h
  obtain ⟨⟨⟨⟨⟨⟨rfl, rfl⟩, hblock⟩, hinode⟩, g, hg, hclear⟩, hfree⟩, htest⟩ := h
  exact ⟨fs₀, fs₁, fs₂, fs, eq_ok_of_toOption h₀, eq_some_ok_of_bind h₁, eq_some_ok_of_bind h₂,
    eq_some_ok_of_bind h₃, eq_of_refused hblock, eq_of_refused hinode, ⟨g, hg, hclear⟩, hfree,
    eq_ok_of_toOption htest⟩

end FileSystem

end Rtems.Rfs
