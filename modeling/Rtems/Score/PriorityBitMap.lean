import Mathlib.Data.List.Basic
import Mathlib.Logic.Function.Basic
import Mathlib.Order.Basic

/-!
# The priority bit map

`prioritybitmapimpl.h`: one bit for each of the 256 priorities, in sixteen words, and a word that
says which of them are not zero. Bit `0` is the most significant one.

* `PriorityBitMap`, `add`, `remove`, `getHighest`;
* `Has`: a priority is in the map, `Ok`: the two levels agree;
* **`getHighest_eq`**: the highest priority is the least number in the map.
-/

namespace Rtems

open Function

abbrev Word := BitVec 16

/-- `_Bitfield_Find_first_bit`: the leading zeros, undefined for zero. -/
def bitfieldFindFirstBit (value : Word) : Option ℕ := (List.range 16).find? value.getMsbD

def priorityMask (bitNumber : ℕ) : Word := 0x8000#16 >>> bitNumber

/-- `Priority_bit_map_Control`. -/
structure PriorityBitMap where
  majorBitMap : Word
  bitMap : ℕ → Word

/-- `Priority_bit_map_Information`, with the index of the minor word. -/
structure PriorityBitMapInformation where
  minor : ℕ
  readyMajor : Word
  readyMinor : Word
  blockMajor : Word
  blockMinor : Word
  deriving DecidableEq

def priorityBitMapInitializeInformation (newPriority : ℕ) : PriorityBitMapInformation where
  minor := newPriority / 16
  readyMajor := priorityMask (newPriority / 16)
  readyMinor := priorityMask (newPriority % 16)
  blockMajor := ~~~priorityMask (newPriority / 16)
  blockMinor := ~~~priorityMask (newPriority % 16)

namespace PriorityBitMap

/-- `_Priority_bit_map_Initialize`. -/
def initial : PriorityBitMap where
  majorBitMap := 0
  bitMap _ := 0

def add (m : PriorityBitMap) (info : PriorityBitMapInformation) : PriorityBitMap where
  majorBitMap := m.majorBitMap ||| info.readyMajor
  bitMap := update m.bitMap info.minor (m.bitMap info.minor ||| info.readyMinor)

def remove (m : PriorityBitMap) (info : PriorityBitMapInformation) : PriorityBitMap :=
  let minor := m.bitMap info.minor &&& info.blockMinor
  { bitMap := update m.bitMap info.minor minor
    majorBitMap := if minor = 0 then m.majorBitMap &&& info.blockMajor else m.majorBitMap }

def getHighest (m : PriorityBitMap) : Option ℕ := do
  let major ← bitfieldFindFirstBit m.majorBitMap
  let minor ← bitfieldFindFirstBit (m.bitMap major)
  some (major * 16 + minor)

/-- The bit of priority `p` is set in its minor word. -/
def Has (m : PriorityBitMap) (p : ℕ) : Prop := (m.bitMap (p / 16)).getMsbD (p % 16) = true

/-- A bit of the major word is set if and only if the minor word is not zero. -/
structure Ok (m : PriorityBitMap) : Prop where
  major_iff : ∀ j, j < 16 → (m.majorBitMap.getMsbD j = true ↔ m.bitMap j ≠ 0)

end PriorityBitMap

/-! ## Bits -/

theorem getMsbD_priorityMask {i j : ℕ} (hi : i < 16) (hj : j < 16) :
    (priorityMask i).getMsbD j = decide (j = i) := by
  have h : ∀ i j : Fin 16, (priorityMask i).getMsbD j = decide ((j : ℕ) = i) := by decide
  exact h ⟨i, hi⟩ ⟨j, hj⟩

theorem word_ne_zero_iff {w : Word} : w ≠ 0 ↔ ∃ i, i < 16 ∧ w.getMsbD i = true := by
  constructor
  · intro hw
    by_contra hno
    refine hw (BitVec.eq_of_getMsbD_eq fun i hi => ?_)
    have : ¬ w.getMsbD i = true := fun h => hno ⟨i, hi, h⟩
    simpa using this
  · rintro ⟨i, -, hb⟩ rfl; simp at hb

theorem bitfieldFindFirstBit_eq {w : Word} (hw : w ≠ 0) : ∃ i, bitfieldFindFirstBit w = some i ∧
    i < 16 ∧ w.getMsbD i = true ∧ ∀ j, j < i → w.getMsbD j = false := by
  obtain ⟨k, hk, hbit⟩ := word_ne_zero_iff.mp hw
  cases hf : bitfieldFindFirstBit w with
  | none => have := List.find?_eq_none.mp hf k (List.mem_range.mpr hk); exact absurd hbit this
  | some i =>
    obtain ⟨hi, hlt, hfirst⟩ := List.find?_range_eq_some.mp hf
    exact ⟨i, rfl, List.mem_range.mp hlt, hi, fun j hj => by simpa using hfirst j hj⟩

namespace PriorityBitMap

variable {m : PriorityBitMap} {p q : ℕ}

theorem Ok.initial : Ok initial := ⟨fun j _ => by simp [PriorityBitMap.initial]⟩

theorem not_has_initial : ¬ Has initial p := by simp [Has, PriorityBitMap.initial]

theorem has_add : (m.add (priorityBitMapInitializeInformation p)).Has q ↔ q = p ∨ m.Has q := by
  have hbit := getMsbD_priorityMask (i := p % 16) (j := q % 16) (by omega) (by omega)
  simp only [Has, add, priorityBitMapInitializeInformation]
  by_cases hw : q / 16 = p / 16
  · rw [hw, update_self, BitVec.getMsbD_or, Bool.or_eq_true, hbit, decide_eq_true_iff, or_comm]
    have : q % 16 = p % 16 ↔ q = p := by omega
    rw [this]
  · rw [update_of_ne hw]
    have : q ≠ p := fun h => hw (by rw [h])
    simp [this]

theorem has_remove : (m.remove (priorityBitMapInitializeInformation p)).Has q ↔
    q ≠ p ∧ m.Has q := by
  have hbit := getMsbD_priorityMask (i := p % 16) (j := q % 16) (by omega) (by omega)
  simp only [Has, remove, priorityBitMapInitializeInformation]
  by_cases hw : q / 16 = p / 16
  · rw [hw, update_self, BitVec.getMsbD_and, BitVec.getMsbD_not, hbit]
    have : q % 16 = p % 16 ↔ q = p := by omega
    have hlt : q % 16 < 16 := by omega
    simp [this, hlt, and_comm]
  · rw [update_of_ne hw]
    have : q ≠ p := fun h => hw (by rw [h])
    simp [this]

theorem Ok.add (h : m.Ok) (hp : p < 256) : (m.add (priorityBitMapInitializeInformation p)).Ok := by
  refine ⟨fun j hj => ?_⟩
  have hbit := getMsbD_priorityMask (i := p / 16) (by omega) hj
  simp only [PriorityBitMap.add, priorityBitMapInitializeInformation]
  rw [BitVec.getMsbD_or, Bool.or_eq_true, hbit, decide_eq_true_iff, h.major_iff j hj]
  by_cases hw : j = p / 16
  · -- the bit of `p` is set in this word
    refine iff_of_true (.inr hw) (word_ne_zero_iff.mpr ⟨p % 16, by omega, ?_⟩)
    have hself := getMsbD_priorityMask (i := p % 16) (j := p % 16) (by omega) (by omega)
    rw [hw, update_self, BitVec.getMsbD_or, hself]
    simp
  · simp [hw]

theorem Ok.remove (h : m.Ok) (hp : p < 256) :
    (m.remove (priorityBitMapInitializeInformation p)).Ok := by
  refine ⟨fun j hj => ?_⟩
  have hbit := getMsbD_priorityMask (i := p / 16) (by omega) hj
  dsimp only [PriorityBitMap.remove, priorityBitMapInitializeInformation]
  by_cases hw : j = p / 16
  · rw [hw] at hbit ⊢
    rw [update_self]
    split_ifs with hz
    · rw [BitVec.getMsbD_and, BitVec.getMsbD_not, hbit]; simp [hz]
    · refine iff_of_true ((h.major_iff _ (hw ▸ hj)).mpr fun hzero => hz ?_) hz; rw [hzero]; simp
  · rw [update_of_ne hw]
    split_ifs with hz
    · rw [BitVec.getMsbD_and, BitVec.getMsbD_not, hbit, ← h.major_iff j hj]; simp [hw, hj]
    · exact h.major_iff j hj

theorem getHighest_eq (h : m.Ok) (hp : p < 256) (hh : m.Has p) (hmin : ∀ q, q < p → ¬ m.Has q) :
    m.getHighest = some p := by
  have hmajor : m.majorBitMap.getMsbD (p / 16) = true :=
    (h.major_iff _ (by omega)).mpr (word_ne_zero_iff.mpr ⟨p % 16, by omega, hh⟩)
  obtain ⟨i, hi, hi16, hiset, hifirst⟩ :=
    bitfieldFindFirstBit_eq (word_ne_zero_iff.mpr ⟨p / 16, by omega, hmajor⟩)
  obtain ⟨j, hj, hj16, hjset, hjfirst⟩ := bitfieldFindFirstBit_eq ((h.major_iff i hi16).mp hiset)
  -- the number that is found is in the map, so it is not below `p`
  have hhas : m.Has (i * 16 + j) := by
    have h1 : (i * 16 + j) / 16 = i := by omega
    have h2 : (i * 16 + j) % 16 = j := by omega
    rw [Has, h1, h2]
    exact hjset
  have hge : p ≤ i * 16 + j := by
    by_contra hlt
    exact hmin _ (by omega) hhas
  have hile : i ≤ p / 16 := by
    by_contra hlt
    rw [hifirst (p / 16) (by omega)] at hmajor
    cases hmajor
  have hieq : i = p / 16 := by omega
  have hjle : j ≤ p % 16 := by
    by_contra hlt
    have := hjfirst (p % 16) (by omega)
    rw [hieq, hh] at this
    cases this
  have hfound : i * 16 + j = p := by omega
  simp [getHighest, hi, hj, hfound]

end PriorityBitMap

end Rtems
