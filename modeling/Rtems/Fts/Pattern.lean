import Mathlib.Data.Int.Basic
import Mathlib.Data.Finset.Card
import Mathlib.Logic.Function.Basic
import Mathlib.Tactic.IntervalCases
import Mathlib.Tactic.NormNum
import Mathlib.Tactic.Positivity
import Rtems.Lib.WeaklyHard

/-!
# `(m, k)` patterns in memory

`create_pattern_t` writes the pattern of an `(m, k)` constraint into the bytes from `pattern_start`
to `pattern_end`, most significant bit first. Every C operation that may be undefined is a `none`
here: a division by zero, a shift by the width of `int` or more, a write outside the buffer.

* `createPattern`: the generator; `patternBits`: the bits that `tol_counter_set` visits;
* **`rPattern_exact`**, **`ePattern_exact`**: when the bits of a pattern are those of its rule;
* **`eBit_even`**: the rule of the E-pattern distributes its zeros evenly;
* **`createPattern_bits`**: a generated pattern of `k` bits has at most `k - m` zeros.
-/

namespace Rtems

open Function WeaklyHard Finset Nat Int

/-- `uint8_t`. -/
abbrev Byte := BitVec 8

/-- The memory that holds the pattern buffers; an address is a number. -/
abbrev Mem := ℕ → Byte

abbrev bit7 : Byte := 128#8

inductive PatternType
  | rPattern
  | ePattern
  deriving DecidableEq

/-- Bit `j` of a byte, most significant bit first: `b & (BIT_7 >> j)`. -/
def bitAt (b : Byte) (j : ℕ) : Bool := b &&& (bit7 >>> j) != 0#8

/-! ## The R-pattern -/

/-- `int8_t k_minus_m = list.k[i]-list.m[i]`. -/
def kMinusM (m k : ℕ) : ℤ := bmod ((k : ℤ) - m) 256

/-- `uint zero_bytes = (k_minus_m)/8 + (k_minus_m % 8 != 0)`. -/
def zeroBytes (m k : ℕ) : ℕ :=
  (((kMinusM m k).tdiv 8 + if (kMinusM m k).tmod 8 ≠ 0 then 1 else 0) % 2 ^ 32).toNat

/-- `uint8_t shift_r = (k_minus_m % 8)`. -/
def shiftR (m k : ℕ) : ℕ := ((kMinusM m k).tmod 8 % 2 ^ 8).toNat

/-- `while( zero_bytes >= 1 )`: the iterator stays on the last byte written. -/
def zeroLoop (patternEnd : ℕ) : ℕ → ℕ → Mem → Option (ℕ × Mem)
  | 0, it, mem => some (it, mem)
  | n + 1, it, mem =>
    if it ≤ patternEnd then
      zeroLoop patternEnd n (if n + 1 > 1 then it + 1 else it) (update mem it 0#8)
    else none

/-- `for (;pattern_it <= list.pattern_end[i]; pattern_it++)` with `n` bytes to go. -/
def onesLoop : ℕ → ℕ → Mem → Mem
  | 0, _, mem => mem
  | n + 1, it, mem => onesLoop n (it + 1) (update mem it 255#8)

/-- The branch `pattern == R_PATTERN` of `create_pattern_t`. -/
def createRPattern (m k : ℕ) (patternStart patternEnd : ℕ) (mem : Mem) : Option Mem := do
  let (it, mem) ← zeroLoop patternEnd (zeroBytes m k) patternStart mem
  if shiftR m k < 32 ∧ it ≤ patternEnd then
    let mem := update mem it (mem it ||| 255#8 >>> shiftR m k)
    some (onesLoop (patternEnd + 1 - (it + 1)) (it + 1) mem)
  else none

/-! ## The E-pattern -/

/-- `int raman`: position `j` is a zero of the pattern when it equals `raman`. -/
def raman (m k j : ℕ) : Option ℤ :=
  let d : ℤ := (k : ℤ) - m
  if k = 0 ∨ d = 0 then none
  else some ((((j * d).tdiv k + if (j * d).tmod k ≠ 0 then 1 else 0) * k).tdiv d)

/-- The inner loop, with `n` bits of the byte to go. -/
def setBits (m k : ℕ) : ℕ → ℕ → Byte → Byte → Option Byte
  | 0, _, _, setByte => some setByte
  | n + 1, j, bitmask, setByte => do
    let r ← raman m k j
    setBits m k n (j + 1) (bitmask >>> 1) (if (j : ℤ) ≠ r then setByte ||| bitmask else setByte)

/-- The outer loop, with `n` bytes to go; `set_byte` is carried along. -/
def eLoop (m k : ℕ) : ℕ → ℕ → ℕ → Byte → Mem → Option Mem
  | 0, _, _, _, mem => some mem
  | n + 1, it, j, setByte, mem => do
    let setByte ← setBits m k 8 j bit7 setByte
    eLoop m k n (it + 1) (j + 8) setByte (update mem it setByte)

/-- The branch `pattern == E_PATTERN` of `create_pattern_t`. -/
def createEPattern (m k : ℕ) (patternStart patternEnd : ℕ) (mem : Mem) : Option Mem :=
  eLoop m k (patternEnd + 1 - patternStart) patternStart 0 0#8 mem

/-- `create_pattern_t` on the memory of the pattern. -/
def createPattern (pattern : PatternType) (m k : ℕ) (patternStart patternEnd : ℕ) (mem : Mem) :
    Option Mem :=
  match pattern with
  | .rPattern => createRPattern m k patternStart patternEnd mem
  | .ePattern => createEPattern m k patternStart patternEnd mem

/-! ## Reading a pattern -/

/-- The first `n` bits of a byte. -/
def byteBits (b : Byte) (n : ℕ) : List Bool := (List.range n).map (bitAt b)

/-- The bits visited by `tol_counter_set`; the last byte stops after `max_bitpos`. -/
def scanBits (mem : Mem) (maxBitpos : ℕ) : ℕ → ℕ → List Bool
  | 0, it => byteBits (mem it) (min (maxBitpos + 1) 8)
  | n + 1, it => byteBits (mem it) 8 ++ scanBits mem maxBitpos n (it + 1)

/-- The bits of the pattern from `pattern_start` to `pattern_end`. -/
def patternBits (mem : Mem) (patternStart patternEnd : ℕ) (maxBitpos : ℕ) : List Bool :=
  if patternStart ≤ patternEnd then scanBits mem maxBitpos (patternEnd - patternStart) patternStart
  else []

/-- Bit `x` of the memory from address `a` on. -/
def memBit (mem : Mem) (a : ℕ) (x : ℕ) : Bool := bitAt (mem (a + x / 8)) (x % 8)

variable {n j i m k e it s : ℕ} {mem mem' : Mem} {b : Byte} {pattern : PatternType}

theorem byteBits_eq_map (mem : Mem) (a : ℕ) (hn : n ≤ 8) :
    byteBits (mem a) n = (List.range n).map (memBit mem a) := by
  refine List.map_congr_left fun x hx => ?_
  rw [List.mem_range] at hx
  rw [memBit, div_eq_of_lt (by omega), mod_eq_of_lt (by omega), Nat.add_zero]

theorem scanBits_eq_map (mem : Mem) (maxBitpos n : ℕ) (a : ℕ) : scanBits mem maxBitpos n a =
      (List.range (8 * n + min (maxBitpos + 1) 8)).map (memBit mem a) := by
  induction n generalizing a with
  | zero => rw [scanBits, byteBits_eq_map mem a (by omega), mul_zero, zero_add]
  | succ n ih =>
    have hr : 8 * (n + 1) + min (maxBitpos + 1) 8 = 8 + (8 * n + min (maxBitpos + 1) 8) := by omega
    rw [scanBits, ih, byteBits_eq_map mem a le_rfl, hr]
    generalize 8 * n + min (maxBitpos + 1) 8 = y
    rw [List.range_add, List.map_append, List.map_map]
    congr 1
    refine List.map_congr_left fun x _ => ?_
    have h1 : a + (8 + x) / 8 = a + 1 + x / 8 := by omega
    have h2 : (8 + x) % 8 = x % 8 := by omega
    rw [comp_apply, memBit, memBit, h1, h2]

theorem patternBits_eq_map (mem : Mem) {patternStart patternEnd : ℕ} {maxBitpos : ℕ}
    (h : patternStart ≤ patternEnd) (hb : maxBitpos ≤ 7) :
    patternBits mem patternStart patternEnd maxBitpos =
      (List.range (8 * (patternEnd - patternStart) + maxBitpos + 1)).map
        (memBit mem patternStart) := by
  rw [patternBits, if_pos h, scanBits_eq_map]
  congr 2
  omega

/-! ## Bits of bytes -/

theorem bitAt_or (b c : Byte) (j : ℕ) : bitAt (b ||| c) j = (bitAt b j || bitAt c j) := by
  have h : (b ||| c) &&& (bit7 >>> j) = (b &&& (bit7 >>> j)) ||| (c &&& (bit7 >>> j)) := by
    ext i
    simp [Bool.and_or_distrib_right]
  unfold bitAt
  rw [h, Bool.eq_iff_iff]
  simp only [bne_iff_ne, ne_eq, BitVec.or_eq_zero_iff, Bool.or_eq_true]
  tauto

theorem bitAt_ones (hj : j < 8) : bitAt 255#8 j = true := by
  interval_cases j <;> decide

theorem bitAt_shift (hi : i < 8) (hj : j < 8) : bitAt (255#8 >>> i) j = decide (i ≤ j) := by
  interval_cases i <;> interval_cases j <;> decide

theorem bitAt_mask (hi : i < 8) (hj : j < 8) : bitAt (bit7 >>> i) j = decide (i = j) := by
  interval_cases i <;> interval_cases j <;> decide

/-! ## The bytes of an R-pattern -/

theorem zeroBytes_of_nonneg (h : 0 ≤ kMinusM m k) :
    zeroBytes m k = ((kMinusM m k).toNat + 7) / 8 := by
  have hlt : kMinusM m k < 128 := by
    have := bmod_lt (x := (k : ℤ) - m) (m := 256) (by norm_num); simpa [kMinusM] using this
  unfold zeroBytes
  rw [Int.tdiv_eq_ediv_of_nonneg h, tmod_eq_emod_of_nonneg h]
  split_ifs <;> omega

theorem shiftR_of_nonneg (h : 0 ≤ kMinusM m k) : shiftR m k = (kMinusM m k).toNat % 8 := by
  unfold shiftR; rw [tmod_eq_emod_of_nonneg h]; omega

/-- A negative `k_minus_m` makes the shift undefined or the zero loop endless. -/
theorem zeroBytes_of_neg (h : kMinusM m k < 0) (hs : shiftR m k < 32) : 2 ^ 31 ≤ zeroBytes m k := by
  have hge : -128 ≤ kMinusM m k := by
    have := le_bmod (x := (k : ℤ) - m) (m := 256) (by norm_num); simpa [kMinusM] using this
  obtain ⟨n, hn⟩ : ∃ n : ℕ, kMinusM m k = -n := ⟨(kMinusM m k).natAbs, by omega⟩
  unfold shiftR at hs
  unfold zeroBytes
  rw [hn, neg_tmod, tmod_eq_emod_of_nonneg (by omega)] at hs ⊢
  rw [Int.neg_tdiv, Int.tdiv_eq_ediv_of_nonneg (by omega)]
  split_ifs <;> omega

theorem zeroLoop_eq_some {it' : ℕ} (h : zeroLoop e n it mem = some (it', mem')) :
    it' = it + (n - 1) ∧ (n ≠ 0 → it' ≤ e) ∧
      ∀ a, mem' a = if it ≤ a ∧ a < it + n then 0#8 else mem a := by
  induction n generalizing it mem with
  | zero =>
    cases h
    refine ⟨by omega, fun h => absurd rfl h, fun a => ?_⟩
    rw [if_neg (by omega)]
  | succ n ih =>
    rw [zeroLoop] at h
    split at h
    · next hit =>
      obtain ⟨h1, h2, h3⟩ := ih h
      -- the iterator moves on unless this was the last byte
      cases n with
      | zero =>
        simp only [zero_add, gt_iff_lt, lt_self_iff_false, if_false] at h1 h3
        refine ⟨by omega, fun _ => by omega, fun a => ?_⟩
        rw [h3 a, if_neg (by omega)]
        by_cases ha : a = it
        · rw [ha, update_self, if_pos (by omega)]
        · rw [update_of_ne ha, if_neg (by omega)]
      | succ n =>
        rw [if_pos (by omega)] at h1 h3
        refine ⟨by omega, fun _ => h2 (by omega), fun a => ?_⟩
        rw [h3 a]
        by_cases ha : a = it
        · rw [ha, if_neg (by omega), update_self, if_pos (by omega)]
        · rw [update_of_ne ha]; exact if_congr (by omega) rfl rfl
    · cases h

theorem onesLoop_apply (n it : ℕ) (mem : Mem) (a : ℕ) :
    onesLoop n it mem a = if it ≤ a ∧ a < it + n then 255#8 else mem a := by
  induction n generalizing it mem with
  | zero => rw [onesLoop, if_neg (by omega)]
  | succ n ih =>
    rw [onesLoop, ih]
    by_cases ha : a = it
    · rw [ha, if_neg (by omega), update_self, if_pos (by omega)]
    · rw [update_of_ne ha]; exact if_congr (by omega) rfl rfl

/-- The byte at offset `x` of an R-pattern. -/
def rByte (m k x : ℕ) : Byte :=
  if x + 1 < zeroBytes m k then 0#8
  else if x + 1 = zeroBytes m k then 255#8 >>> shiftR m k
  else 255#8

theorem zeroLoop_isSome (mem : Mem) (h : n = 0 ∨ it + (n - 1) ≤ e) :
    ∃ r, zeroLoop e n it mem = some r := by
  induction n generalizing it mem with
  | zero => exact ⟨_, rfl⟩
  | succ n ih =>
    rw [zeroLoop, if_pos (by omega)]
    refine ih _ ?_
    split_ifs <;> omega

theorem shiftR_of_zeroBytes (h0 : zeroBytes m k = 0) (hs : shiftR m k < 32) : shiftR m k = 0 := by
  rcases le_or_gt 0 (kMinusM m k) with hk | hk
  · have hzb := zeroBytes_of_nonneg hk; have hsh := shiftR_of_nonneg hk; omega
  · have := zeroBytes_of_neg hk hs; omega

theorem createRPattern_eq_some (h : createRPattern m k s e mem = some mem') :
    shiftR m k < 32 ∧ s + (zeroBytes m k - 1) ≤ e ∧
      ∀ a, mem' a = if s ≤ a ∧ a ≤ e then rByte m k (a - s) else mem a := by
  unfold createRPattern at h
  cases hz : zeroLoop e (zeroBytes m k) s mem with
  | none => rw [hz] at h; cases h
  | some r =>
    obtain ⟨it, mem1⟩ := r
    simp only [hz, Option.bind_eq_bind, Option.bind_some] at h
    split at h
    · next hc =>
      cases h
      obtain ⟨hit, -, hmem⟩ := zeroLoop_eq_some hz
      refine ⟨hc.1, by omega, fun a => ?_⟩
      rw [onesLoop_apply]
      unfold rByte
      by_cases ha : a = it
      · -- the byte that holds the first `1`
        subst ha
        have hin : s ≤ a ∧ a ≤ e := by omega
        rw [if_neg (by omega), update_self, hmem a, if_pos hin]
        by_cases hz0 : zeroBytes m k = 0
        · have h0 := shiftR_of_zeroBytes hz0 hc.1
          rw [if_neg (by omega), if_neg (by omega), if_neg (by omega), h0]
          exact BitVec.or_allOnes
        · rw [if_pos (by omega), if_neg (by omega), if_pos (by omega), BitVec.zero_or]
      · rw [update_of_ne ha, hmem a]
        by_cases hin : s ≤ a ∧ a ≤ e
        · rw [if_pos hin]
          by_cases hlt : a < it
          · rw [if_neg (by omega), if_pos (by omega), if_pos (by omega)]
          · rw [if_pos (by omega), if_neg (by omega), if_neg (by omega)]
        · rw [if_neg hin, if_neg (by omega), if_neg (by omega)]
    · cases h

theorem createRPattern_isSome (mem : Mem) (hs : shiftR m k < 32)
    (hb : s + (zeroBytes m k - 1) ≤ e) : ∃ mem', createRPattern m k s e mem = some mem' := by
  obtain ⟨⟨it, mem1⟩, hz⟩ := zeroLoop_isSome mem (.inr hb : zeroBytes m k = 0 ∨ _)
  have hit := (zeroLoop_eq_some hz).1
  unfold createRPattern
  simp only [hz, Option.bind_eq_bind, Option.bind_some]
  rw [if_pos ⟨hs, by omega⟩]
  exact ⟨_, rfl⟩

/-- In a buffer of any realistic size, `k - m` fits its `int8_t`. -/
theorem kMinusM_nonneg (h : createRPattern m k s e mem = some mem')
    (hbuf : e < s + 2 ^ 30) : 0 ≤ kMinusM m k := by
  obtain ⟨hs, hb, -⟩ := createRPattern_eq_some h
  by_contra hk
  have := zeroBytes_of_neg (by omega) hs
  omega

section

variable (hmk : m ≤ k) (hd : k - m ≤ 127)

include hmk hd

theorem kMinusM_eq : kMinusM m k = (k - m : ℕ) := by
  rw [kMinusM, bmod_def]
  split_ifs <;> omega

theorem zeroBytes_eq : zeroBytes m k = (k - m + 7) / 8 := by
  rw [zeroBytes_of_nonneg (by rw [kMinusM_eq hmk hd]; omega), kMinusM_eq hmk hd, toNat_natCast]

theorem shiftR_eq : shiftR m k = (k - m) % 8 := by
  rw [shiftR_of_nonneg (by rw [kMinusM_eq hmk hd]; omega), kMinusM_eq hmk hd, toNat_natCast]

end

/-- Bit `j` of an R-pattern. A byte that ends the zeros is all ones. -/
theorem memBit_createRPattern (h : createRPattern m k s e mem = some mem') (hmk : m ≤ k)
    (hd : k - m ≤ 127) (hj : j < 8 * (e + 1 - s)) :
    memBit mem' s j = decide (k - m ≤ j ∨ (k - m) % 8 = 0 ∧ k - m ≤ j + 8) := by
  rw [memBit, (createRPattern_eq_some h).2.2, if_pos (by omega), Nat.add_sub_cancel_left, rByte,
    zeroBytes_eq hmk hd, shiftR_eq hmk hd]
  split_ifs
  · rw [decide_eq_false (by omega), bitAt, BitVec.zero_and]; rfl
  · rw [bitAt_shift (by omega) (by omega), decide_eq_decide]; omega
  · rw [bitAt_ones (by omega), decide_eq_true (by omega)]

/-- **An R-pattern is exact** iff it has a bit and its zeros do not end with a byte. -/
theorem rPattern_exact (hmk : m ≤ k) (hd : k - m ≤ 127) (hbuf : e + 1 = s + (k + 7) / 8) :
    (∃ mem', createPattern .rPattern m k s e mem = some mem' ∧
      ∀ j, j < k → memBit mem' s j = decide (k - m ≤ j)) ↔
      k ≠ 0 ∧ (m = k ∨ (k - m) % 8 ≠ 0) := by
  have hzb := zeroBytes_eq hmk hd
  have hsh := shiftR_eq hmk hd
  constructor
  · rintro ⟨mem', h, hbits⟩
    obtain ⟨-, hin, -⟩ := createRPattern_eq_some h
    refine ⟨by omega, ?_⟩
    by_contra hc
    -- the last byte of zeros
    have hj := hbits (k - m - 8) (by omega)
    rw [memBit_createRPattern h hmk hd (by omega), decide_eq_decide] at hj
    omega
  · rintro ⟨hk, hor⟩
    obtain ⟨mem', h⟩ := createRPattern_isSome mem (by omega : shiftR m k < 32)
      (by omega : s + (zeroBytes m k - 1) ≤ e)
    refine ⟨mem', h, fun j hj => ?_⟩
    rw [memBit_createRPattern h hmk hd (by omega), decide_eq_decide]
    omega

theorem rPattern_exact_twelve : ∃ mem', createPattern .rPattern 9 12 0 1 (fun _ => 0) = some mem' ∧
    ∀ j, j < 12 → memBit mem' 0 j = decide (3 ≤ j) :=
  (rPattern_exact (by decide) (by decide) (by decide)).mpr (by decide)

/-- The `(8, 16)` R-pattern is all ones. -/
theorem rPattern_not_exact : ∃ mem', createPattern .rPattern 8 16 0 1 (fun _ => 0) = some mem' ∧
    memBit mem' 0 0 = true :=
  ⟨_, rfl, by decide⟩

/-! ## The bytes of an E-pattern -/

/-- The rule of the E-pattern: position `j` is a `1` unless it equals `raman`. -/
def eBit (m k j : ℕ) : Bool := raman m k j != some (j : ℤ)

theorem setBits_eq_some {b' : Byte} (hin : i + n = 8)
    (h : setBits m k n j (bit7 >>> i) b = some b') {r : ℕ} (hr : r < 8) :
    bitAt b' r = (bitAt b r || (decide (i ≤ r) && eBit m k (j + (r - i)))) := by
  induction n generalizing i j b with
  | zero => cases h; rw [decide_eq_false (by omega), Bool.false_and, Bool.or_false]
  | succ n ih =>
    rw [setBits] at h
    cases hra : raman m k j with
    | none => rw [hra] at h; cases h
    | some v =>
      have hsh : (bit7 >>> i) >>> 1 = bit7 >>> (i + 1) := (BitVec.shiftRight_add bit7 i 1).symm
      simp only [hra, Option.bind_eq_bind, Option.bind_some, hsh] at h
      have hmask : bitAt (if (j : ℤ) ≠ v then b ||| bit7 >>> i else b) r =
          (bitAt b r || (decide (i = r) && eBit m k j)) := by
        unfold eBit
        split_ifs with hj
        · rw [bitAt_or, bitAt_mask (by omega) hr, hra]
          have : (some v != some (j : ℤ)) = true := by simpa using Ne.symm hj
          rw [this, Bool.and_true]
        · have : (some v != some (j : ℤ)) = false := by simpa using (not_not.mp hj).symm
          rw [hra, this, Bool.and_false, Bool.or_false]
      rw [ih (by omega) h, hmask]
      by_cases hir : i = r
      · subst hir
        simp
      · have e1 : decide (i + 1 ≤ r) = decide (i ≤ r) := by rw [decide_eq_decide]; omega
        rw [decide_eq_false hir, e1]
        by_cases hle : i ≤ r
        · have e2 : j + 1 + (r - (i + 1)) = j + (r - i) := by omega
          rw [e2]
          simp
        · simp [hle]

theorem eLoop_eq_some (h : eLoop m k n it j b mem = some mem') :
    (∀ q r, q < n → r < 8 → (bitAt (mem' (it + q)) r = true ↔
      bitAt b r = true ∨ ∃ q', q' ≤ q ∧ eBit m k (j + 8 * q' + r) = true)) ∧
      ∀ a, ¬ (it ≤ a ∧ a < it + n) → mem' a = mem a := by
  induction n generalizing it j b mem with
  | zero => cases h; exact ⟨fun q r hq => absurd hq (by omega), fun a _ => rfl⟩
  | succ n ih =>
    rw [eLoop] at h
    cases hsb : setBits m k 8 j bit7 b with
    | none => rw [hsb] at h; cases h
    | some b1 =>
      simp only [hsb, Option.bind_eq_bind, Option.bind_some] at h
      obtain ⟨hbit, hframe⟩ := ih h
      have hb1 : ∀ r, r < 8 → bitAt b1 r = (bitAt b r || eBit m k (j + r)) := by
        intro r hr
        have h8 : setBits m k 8 j (bit7 >>> 0) b = some b1 := by
          exact hsb
        simpa using setBits_eq_some rfl h8 hr
      refine ⟨fun q r hq hr => ?_, fun a ha => ?_⟩
      · cases q with
        | zero =>
          rw [Nat.add_zero, hframe it (by omega), update_self, hb1 r hr, Bool.or_eq_true]
          refine or_congr Iff.rfl ⟨fun he => ⟨0, le_rfl, by simpa using he⟩, ?_⟩
          rintro ⟨q', hq', he⟩
          obtain rfl : q' = 0 := by omega
          simpa using he
        | succ q =>
          have := hbit q r (by omega) hr
          rw [show it + (q + 1) = it + 1 + q by omega, this, hb1 r hr, Bool.or_eq_true, or_assoc]
          refine or_congr Iff.rfl ⟨?_, ?_⟩
          · rintro (he | ⟨q', hq', he⟩)
            · exact ⟨0, by omega, by simpa using he⟩
            · exact ⟨q' + 1, by omega, by rw [← he]; congr 1; omega⟩
          · rintro ⟨q', hq', he⟩
            cases q' with
            | zero => exact .inl (by simpa using he)
            | succ q' => exact .inr ⟨q', by omega, by rw [← he]; congr 1; omega⟩
      · rw [hframe a (by omega), update_of_ne (by omega)]

theorem eLoop_congr {mem0 : Mem}
    (h : eLoop m k n it j b mem = some mem') (hout : ∀ a, ¬ (it ≤ a ∧ a < it + n) → mem0 a = mem a) :
    eLoop m k n it j b mem0 = some mem' := by
  induction n generalizing it j b mem mem0 with
  | zero => rw [eLoop, ← h, eLoop, show mem0 = mem from funext fun a => hout a (by omega)]
  | succ n ih =>
    rw [eLoop] at h ⊢
    cases hsb : setBits m k 8 j bit7 b with
    | none => rw [hsb] at h; cases h
    | some b1 =>
      simp only [hsb, Option.bind_eq_bind, Option.bind_some] at h ⊢
      refine ih h fun a ha => ?_
      by_cases hit : a = it
      · rw [hit, update_self, update_self]
      · rw [update_of_ne hit, update_of_ne hit]; exact hout a (by omega)

/-- The ones of an E-pattern: each is carried to the bytes behind it. -/
theorem memBit_createEPattern (h : createEPattern m k s e mem = some mem')
    (hj : j < 8 * (e + 1 - s)) :
    memBit mem' s j = true ↔ ∃ q, 8 * q ≤ j ∧ eBit m k (j - 8 * q) = true := by
  rw [memBit, (eLoop_eq_some h).1 (j / 8) (j % 8) (by omega) (by omega)]
  constructor
  · rintro (hz | ⟨q, hq, he⟩)
    · exact absurd hz (by simp [bitAt])
    · exact ⟨j / 8 - q, by omega, by rw [← he]; congr 1; omega⟩
  · rintro ⟨q, hq, he⟩; exact .inr ⟨j / 8 - q, by omega, by rw [← he]; congr 1; omega⟩

/-- Without zeros the first call of `raman` divides by zero. -/
theorem createEPattern_self (hse : s ≤ e) : createEPattern m m s e mem = none := by
  unfold createEPattern
  obtain ⟨n, hn⟩ : ∃ n, e + 1 - s = n + 1 := ⟨e - s, by omega⟩
  rw [hn, eLoop, setBits]
  simp [raman]

/-! ## Counting zeros -/

theorem raman_eq (hmk : m < k) (j : ℕ) :
    raman m k j = some (((j * (k - m) + (k - 1)) / k * k / (k - m) : ℕ) : ℤ) := by
  have hd : ((k : ℤ) - m) = ((k - m : ℕ) : ℤ) := by omega
  have hc : ((j * (k - m) + (k - 1)) / k : ℕ) =
      j * (k - m) / k + if j * (k - m) % k ≠ 0 then 1 else 0 := by
    have h1 := div_add_mod (j * (k - m)) k
    have h2 : j * (k - m) % k < k := mod_lt _ (by omega)
    split_ifs with h
    · rw [Nat.div_eq_of_lt_le]
      · rw [Nat.add_mul, one_mul, mul_comm _ k]; omega
      · rw [Nat.add_mul, Nat.add_mul, one_mul, mul_comm _ k]; omega
    · rw [Nat.div_eq_of_lt_le]
      · rw [Nat.add_zero, mul_comm _ k]; omega
      · rw [Nat.add_zero, Nat.add_mul, one_mul, mul_comm _ k]; omega
  unfold raman
  rw [hd, if_neg (by omega), hc]
  push_cast
  have hnn : (0 : ℤ) ≤ (j : ℤ) * ((k - m : ℕ) : ℤ) := by positivity
  rw [Int.tdiv_eq_ediv_of_nonneg hnn, tmod_eq_emod_of_nonneg hnn,
    Int.tdiv_eq_ediv_of_nonneg (by split_ifs <;> positivity)]
  have hne : ((j : ℤ) * ((k - m : ℕ) : ℤ) % k ≠ 0) ↔ (j * (k - m) % k ≠ 0) := by
    rw [← natCast_mul, ← natCast_mod]; omega
  simp only [hne]

theorem eBit_eq_false_iff (hmk : m < k) (j : ℕ) :
    eBit m k j = false ↔ (j * (k - m) + (k - 1)) / k * k / (k - m) = j := by
  unfold eBit
  rw [raman_eq hmk, bne_eq_false_iff_eq, Option.some.injEq, natCast_inj]

theorem setBits_isSome (hmk : m < k) (n j : ℕ) (mask b : Byte) :
    ∃ b', setBits m k n j mask b = some b' := by
  induction n generalizing j mask b with
  | zero => exact ⟨b, rfl⟩
  | succ n ih => rw [setBits, raman_eq hmk]; exact ih _ _ _

theorem createEPattern_isSome (hmk : m < k) (mem : Mem) :
    ∃ mem', createEPattern m k s e mem = some mem' := by
  have hloop : ∀ n it j b mem, ∃ mem', eLoop m k n it j b mem = some mem' := by
    intro n
    induction n with
    | zero => exact fun _ _ _ mem => ⟨mem, rfl⟩
    | succ n ih =>
      intro it j b mem
      obtain ⟨b', hb⟩ := setBits_isSome hmk 8 j bit7 b
      rw [eLoop, hb]
      exact ih _ _ _ _
  exact hloop _ _ _ _ _

/-- `ceil(j * (k - m) / k)`, the zeros of the rule in front of position `j`. -/
def eRank (m k j : ℕ) : ℕ := (j * (k - m) + (k - 1)) / k

section

variable (hmk : m < k)

include hmk

theorem eRank_bounds (j : ℕ) :
    j * (k - m) ≤ eRank m k j * k ∧ eRank m k j * k < j * (k - m) + k := by
  have hdiv := div_add_mod' (j * (k - m) + (k - 1)) k
  have hmod := mod_lt (j * (k - m) + (k - 1)) (show k > 0 by omega)
  unfold eRank
  omega

theorem eBit_eq_false (j : ℕ) : eBit m k j = false ↔ eRank m k j * k < j * (k - m) + (k - m) := by
  have := (eRank_bounds hmk j).1
  rw [eBit_eq_false_iff hmk, Nat.div_eq_iff (by omega)]
  unfold eRank at *
  omega

theorem zeros_eBit (n : ℕ) : zeros (eBit m k) 0 n = eRank m k n := by
  induction n with
  | zero => rw [zeros_self, eRank, div_eq_of_lt (by omega)]
  | succ n ih =>
    have h0 := eRank_bounds hmk n
    have h1 := eRank_bounds hmk (n + 1)
    rw [succ_mul] at h1
    rw [zeros_succ _ (zero_le n), ih]
    simp only [eBit_eq_false hmk]
    have hle : eRank m k (n + 1) < eRank m k n + 2 :=
      Nat.lt_of_mul_lt_mul_right (a := k) (by rw [Nat.add_mul]; omega)
    have hge : eRank m k n < eRank m k (n + 1) + 1 :=
      Nat.lt_of_mul_lt_mul_right (a := k) (by rw [succ_mul]; omega)
    split_ifs with hz
    · have : eRank m k n < eRank m k (n + 1) := Nat.lt_of_mul_lt_mul_right (a := k) (by omega)
      omega
    · have : eRank m k (n + 1) < eRank m k n + 1 :=
        Nat.lt_of_mul_lt_mul_right (a := k) (by rw [succ_mul]; omega)
      omega

theorem eRank_add_period (j : ℕ) : eRank m k (j + k) = eRank m k j + (k - m) := by
  have h : (j + k) * (k - m) + (k - 1) = j * (k - m) + (k - 1) + k * (k - m) := by
    rw [Nat.add_mul]; omega
  rw [eRank, h, add_mul_div_left _ _ (by omega), eRank]

theorem eBit_periodic : Periodic (eBit m k) k := by
  intro j
  rw [← Bool.not_inj_iff, Bool.eq_iff_iff, Bool.not_eq_true', Bool.not_eq_true', eBit_eq_false hmk,
    eBit_eq_false hmk, eRank_add_period hmk, Nat.add_mul, Nat.add_mul, mul_comm (k - m) k]
  omega

theorem zeros_eBit_period : zeros (eBit m k) 0 k = k - m := by
  have h := eRank_add_period hmk 0
  rwa [zero_add, ← zeros_eBit hmk, ← zeros_eBit hmk, zeros_self, zero_add] at h

theorem eBit_eq_false_iff_exists (hj : j < k) :
    eBit m k j = false ↔ ∃ i, i < k - m ∧ j = i * k / (k - m) := by
  have hb := eRank_bounds hmk j
  constructor
  · intro hz
    refine ⟨eRank m k j, ?_, ((eBit_eq_false_iff hmk j).mp hz).symm⟩
    rw [eBit_eq_false hmk, ← succ_mul] at hz
    have hle : (j + 1) * (k - m) ≤ (k - m) * k := mul_comm k _ ▸ mul_le_mul_right _ hj
    exact Nat.lt_of_mul_lt_mul_right (hz.trans_le hle)
  · rintro ⟨i, -, hi⟩
    rw [eq_comm, Nat.div_eq_iff (by omega)] at hi
    have hle : eRank m k j < i + 1 := Nat.lt_of_mul_lt_mul_right (a := k) (by rw [succ_mul]; omega)
    have := mul_le_mul_right k (le_of_lt_succ hle)
    rw [eBit_eq_false hmk]
    omega

end

theorem eBit_last (hm : 0 < m) (hmk : m < k) : eBit m k (k - 1) = true := by
  rw [← Bool.not_eq_false, eBit_eq_false_iff_exists hmk (by omega)]
  rintro ⟨i, hi, he⟩
  rw [eq_comm, Nat.div_eq_iff (by omega)] at he
  have hk := succ_mul (k - 1) (k - m)
  have hle := mul_le_mul_right k (succ_le_of_lt hi)
  rw [Nat.succ_eq_add_one, Nat.sub_add_cancel (by omega)] at hk
  rw [succ_mul, mul_comm (k - m)] at hle
  omega

/-- **The rule of the E-pattern is evenly distributed.** -/
theorem eBit_even (hm : 0 < m) (hmk : m < k) :
    (∀ j, j < k → (eBit m k j = false ↔ ∃ i, i < k - m ∧ j = i * k / (k - m))) ∧
      zeros (eBit m k) 0 k = k - m ∧ eBit m k 0 = false ∧ eBit m k (k - 1) = true ∧
      Periodic (eBit m k) k ∧
      ∀ a w, w * (k - m) / k ≤ zeros (eBit m k) a (a + w) ∧
        zeros (eBit m k) a (a + w) ≤ (w * (k - m) + (k - 1)) / k := by
  refine ⟨fun j => eBit_eq_false_iff_exists hmk, zeros_eBit_period hmk,
    (eBit_eq_false_iff_exists hmk (by omega)).mpr ⟨0, by omega, by simp⟩, eBit_last hm hmk,
    eBit_periodic hmk, fun a w => ?_⟩
  have hsum := zeros_add (eBit m k) (le_add_right a w)
  have ha := eRank_bounds hmk a
  have haw := eRank_bounds hmk (a + w)
  have hw := eRank_bounds hmk w
  have hf := div_mul_le_self (w * (k - m)) k
  rw [zeros_eBit hmk, zeros_eBit hmk] at hsum
  rw [Nat.add_mul] at haw
  constructor
  · have : eRank m k a + w * (k - m) / k < eRank m k (a + w) + 1 :=
      Nat.lt_of_mul_lt_mul_right (a := k) (by rw [Nat.add_mul, succ_mul]; omega)
    omega
  · have : eRank m k (a + w) < eRank m k a + eRank m k w + 1 :=
      Nat.lt_of_mul_lt_mul_right (a := k) (by rw [succ_mul, Nat.add_mul]; omega)
    exact show _ ≤ eRank m k w by omega

theorem eBit_even_ten : zeros (eBit 7 10) 0 10 = 3 :=
  (eBit_even (by decide) (by decide)).2.1

/-- **An E-pattern is exact** iff no zero of the rule is eight positions behind a one. -/
theorem ePattern_exact (hmk : m < k) (hbuf : e + 1 = s + (k + 7) / 8) :
    (∃ mem', createPattern .ePattern m k s e mem = some mem' ∧
      (∀ j, j < k → (memBit mem' s j = false ↔ (j * (k - m) + (k - 1)) / k * k / (k - m) = j)) ∧
      ((Ico 0 k).filter fun j => memBit mem' s j = true).card = m) ↔
      ∀ j, 8 ≤ j → j < k → eBit m k j = false → eBit m k (j - 8) = false := by
  constructor
  · rintro ⟨mem', h, hbits, -⟩ j h8 hj hz
    rw [eBit_eq_false_iff hmk, ← hbits j hj, ← Bool.not_eq_true,
      memBit_createEPattern h (by omega)] at hz
    rw [← Bool.not_eq_true]
    exact fun he => hz ⟨1, by omega, he⟩
  · intro hall
    have hcarry : ∀ q j, j < k → 8 * q ≤ j → eBit m k j = false → eBit m k (j - 8 * q) = false := by
      intro q
      induction q with
      | zero => exact fun j _ _ hz => hz
      | succ q ih =>
        intro j hj hq hz
        have := hall (j - 8 * q) (by omega) (by omega) (ih j hj (by omega) hz)
        rwa [Nat.sub_sub] at this
    obtain ⟨mem', h⟩ : ∃ mem', createEPattern m k s e mem = some mem' :=
      createEPattern_isSome hmk mem
    have heq : ∀ j, j < k → memBit mem' s j = eBit m k j := by
      intro j hj
      rw [Bool.eq_iff_iff, memBit_createEPattern h (by omega)]
      refine ⟨?_, fun he => ⟨0, by omega, he⟩⟩
      rintro ⟨q, hq, he⟩
      rw [← Bool.not_eq_false]
      exact fun hz => absurd (hcarry q j hj hq hz) (by rw [he]; decide)
    refine ⟨mem', h, fun j hj => by rw [heq j hj, eBit_eq_false_iff hmk], ?_⟩
    have hz := (zeros_congr fun x _ => heq x).trans (zeros_eBit_period hmk)
    have hsum := card_filter_add_card_filter_not (s := Ico 0 k) fun j => memBit mem' s j = false
    simp only [Bool.not_eq_false, Nat.card_Ico] at hsum
    unfold zeros at hz
    omega

theorem ePattern_exact_twelve : ∃ mem', createPattern .ePattern 12 16 0 1 (fun _ => 0) = some mem' ∧
    (∀ j, j < 16 → (memBit mem' 0 j = false ↔ (j * 4 + 15) / 16 * 16 / 4 = j)) ∧
    ((Ico 0 16).filter fun j => memBit mem' 0 j = true).card = 12 :=
  (ePattern_exact (by decide) (by decide)).mpr (by decide)

/-- Zero 9 of the `(8, 12)` E-pattern is lost to the one at position 1. -/
theorem ePattern_not_exact : ∃ mem', createPattern .ePattern 8 12 0 1 (fun _ => 0) = some mem' ∧
    memBit mem' 0 9 = true ∧ (9 * 4 + 11) / 12 * 12 / 4 = 9 :=
  ⟨_, rfl, by decide, by decide⟩

theorem createPattern_congr {mem0 : Mem} (h : createPattern pattern m k s e mem = some mem')
    (hout : ∀ a, ¬ (s ≤ a ∧ a ≤ e) → mem0 a = mem a) :
    createPattern pattern m k s e mem0 = some mem' := by
  cases pattern with
  | rPattern =>
    obtain ⟨hs, hb, hmem⟩ := createRPattern_eq_some h
    obtain ⟨mem1, h1⟩ := createRPattern_isSome mem0 hs hb
    obtain ⟨-, -, hmem1⟩ := createRPattern_eq_some h1
    rw [createPattern, h1]
    congr 1
    funext a
    rw [hmem, hmem1]
    split_ifs with ha
    · rfl
    · exact hout a ha
  | ePattern => exact eLoop_congr h fun a ha => hout a (by omega)

theorem createPattern_frame {a : ℕ}
    (h : createPattern pattern m k s e mem = some mem') (ha : ¬ (s ≤ a ∧ a ≤ e)) :
    mem' a = mem a := by
  cases pattern with
  | rPattern => rw [(createRPattern_eq_some h).2.2 a, if_neg ha]
  | ePattern => exact (eLoop_eq_some h).2 a (by omega)

theorem createPattern_isSome_iff (hmk : m ≤ k) (hse : s ≤ e)
    (hd : pattern = .rPattern → k - m ≤ 127) :
    (∃ mem', createPattern pattern m k s e mem = some mem') ↔
      (pattern = .rPattern → k - m ≤ 8 * (e - s + 1)) ∧ (pattern = .ePattern → m < k) := by
  cases pattern with
  | rPattern =>
    have hzb := zeroBytes_eq hmk (hd rfl)
    have hsh := shiftR_eq hmk (hd rfl)
    refine ⟨fun ⟨mem', h⟩ => ⟨fun _ => ?_, nofun⟩, fun h => ?_⟩
    · have := (createRPattern_eq_some h).2.1; omega
    · have := h.1 rfl; exact createRPattern_isSome mem (by omega) (by omega)
  | ePattern =>
    refine ⟨fun ⟨mem', h⟩ => ⟨nofun, fun _ => lt_of_le_of_ne hmk ?_⟩, fun h =>
      createEPattern_isSome (h.2 rfl) mem⟩
    rintro rfl
    rw [createPattern, createEPattern_self hse] at h
    cases h

theorem createPattern_bits {maxBitpos : ℕ}
    (h : createPattern pattern m k s e mem = some mem') (hm : 0 < m) (hmk : m ≤ k) (hk : k < 256)
    (hse : s ≤ e) (hb : maxBitpos ≤ 7) (hlen : 8 * (e - s) + maxBitpos + 1 = k) :
    zeros (memBit mem' s) 0 k ≤ k - m ∧ memBit mem' s (k - 1) = true := by
  cases pattern with
  | rPattern =>
    have hnn := kMinusM_nonneg h (by omega)
    have hd : k - m ≤ 127 := by
      rw [kMinusM, bmod_def] at hnn
      split_ifs at hnn <;> omega
    have hone : ∀ x, x < k → k - m ≤ x → memBit mem' s x = true := by
      intro x hx hx'; rw [memBit_createRPattern h hmk hd (by omega), decide_eq_true (.inl hx')]
    refine ⟨?_, hone _ (by omega) (by omega)⟩
    calc ((Finset.Ico 0 k).filter fun x => memBit mem' s x = false).card
        ≤ (Finset.range (k - m)).card := by
          refine card_le_card fun x hx => ?_
          simp only [mem_filter, mem_Ico] at hx
          rw [mem_range]
          by_contra hc
          rw [hone x hx.1.2 (by omega)] at hx
          cases hx.2
      _ = k - m := card_range _
  | ePattern =>
    have hlt : m < k := by
      refine lt_of_le_of_ne hmk ?_
      rintro rfl
      rw [createPattern, createEPattern_self hse] at h
      cases h
    have hbit : ∀ x, x < k → eBit m k x = true → memBit mem' s x = true := fun x hx he =>
      (memBit_createEPattern h (by omega)).mpr ⟨0, by omega, he⟩
    refine ⟨le_trans ?_ (zeros_eBit_period hlt).le, hbit _ (by omega) (eBit_last hm hlt)⟩
    refine card_le_card fun x hx => ?_
    simp only [mem_filter, mem_Ico] at hx ⊢
    refine ⟨hx.1, ?_⟩
    rw [← Bool.not_eq_true]
    intro he
    rw [hbit x hx.1.2 he] at hx
    cases hx.2

end Rtems
