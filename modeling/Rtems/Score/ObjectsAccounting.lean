import Rtems.Score.Information
import Mathlib.Algebra.BigOperators.Group.List.Basic

/-!
# The accounting of an object class

A class with automatic extension keeps the number of its inactive objects three times: as the length
of the chain, as a counter, and as a counter for each block. `_Objects_Free` gives a block back when
more than one and a half blocks of objects are inactive.

* `Accounted`: the counters agree, each id names one object, and no object in use is in a block that
  was given back;
* **`accounting_exact`**: the accounting holds after any use of the class, and an idle block is
  given back unless it is the last one; **`exists_kept_block`**: the last one is not.
-/

namespace Rtems

open PartialRun List

theorem sum_countP_eq_length {α : Type} {f : α → ℕ} {l : List α} {n : ℕ} (h : ∀ x ∈ l, f x < n) :
    ((List.range n).map fun i => l.countP fun x => f x = i).sum = l.length := by
  induction l with
  | nil => simp
  | cons x l ih =>
    have hone : ∀ m, ((List.range m).map fun i => if f x = i then 1 else 0).sum =
        if f x < m then 1 else 0 := by
      intro m
      induction m with
      | zero => rfl
      | succ m ihm =>
        rw [range_succ, map_append, sum_append, ihm]
        simp only [map_cons, map_nil, sum_singleton]
        split_ifs <;> omega
    simp only [countP_cons, decide_eq_true_eq]
    rw [sum_map_add, ih fun y hy => h y (mem_cons_of_mem x hy), hone, if_pos (h x mem_cons_self),
      length_cons]

namespace ObjectsInformation

variable {c : ObjectsConfig} {s s' : ObjectsInformation} {taken : List ObjectRef}

/-- `_Objects_Free` up to the check of the threshold. -/
def returnObject (c : ObjectsConfig) (s : ObjectsInformation) (o : ObjectRef) :
    ObjectsInformation :=
  { s with chain := s.chain ++ [o] }.countFreed c o

def Idle (s : ObjectsInformation) (i : ℕ) : Prop :=
  ∃ b, s.blocks[i]? = some (some b) ∧ ∀ k < s.allocationSize, ⟨b, k⟩ ∈ s.chain

/-- A block is given back: its place is free and its objects are gone. -/
def Released (s s' : ObjectsInformation) (i : ℕ) : Prop :=
  ∃ b, s.blocks[i]? = some (some b) ∧ s'.blocks[i]? = some none ∧ some b ∉ s'.blocks ∧
    ∀ o ∈ s'.chain, o.block ≠ b

section

variable (h : Ok c s taken)

include h

theorem Ok.count_eq {i n : ℕ} (hn : s.inactivePerBlock[i]? = some n) :
    n = s.chain.countP fun o => s.blockOf c o = i := by
  rw [h.counts i n hn]
  refine countP_congr fun o ho => ?_
  obtain ⟨j, hj, hk⟩ := h.exists_block (mem_append_left taken ho)
  rw [decide_eq_true_eq, decide_eq_true_eq, h.blockOf_eq hj hk]
  constructor
  · intro hi; exact h.distinct j i _ hj hi
  · rintro rfl; exact hj

theorem Ok.sum_eq : s.inactivePerBlock.sum = s.chain.length := by
  have hcounts : s.inactivePerBlock =
      (List.range s.blocks.length).map fun i => s.chain.countP fun o => s.blockOf c o = i := by
    apply ext_getElem
    · rw [length_map, length_range, h.counts_length]
    · intro i hi hi'; rw [getElem_map, getElem_range]; exact h.count_eq (getElem?_eq_getElem hi)
  rw [hcounts]
  apply sum_countP_eq_length
  intro o ho
  obtain ⟨j, hj, hk⟩ := h.exists_block (mem_append_left taken ho)
  rw [h.blockOf_eq hj hk]
  exact (List.getElem?_eq_some_iff.mp hj).1

theorem Ok.idle_iff {i : ℕ} : s.Idle i ↔ s.inactivePerBlock[i]? = some s.allocationSize := by
  constructor
  · rintro ⟨b, hb, hall⟩
    have hlt : i < s.inactivePerBlock.length := by
      rw [h.counts_length]; exact (List.getElem?_eq_some_iff.mp hb).1
    have hn := getElem?_eq_getElem hlt
    have hcount := h.counts i _ hn
    -- the objects of the block on the chain are the objects of the block
    have hperm : (s.chain.filter fun o => s.blocks[i]? = some (some o.block)).Perm
        (blockObjects b s.allocationSize) := by
      have hnodup := (nodup_append.mp h.nodup).1
      rw [perm_ext_iff_of_nodup (hnodup.filter _) (nodup_blockObjects _ _)]
      intro o
      rw [mem_filter, mem_blockObjects, hb, decide_eq_true_eq]
      constructor
      · rintro ⟨ho, heq⟩
        exact ⟨(Option.some_inj.mp (Option.some_inj.mp heq)).symm,
          ((h.objects o).mp (mem_append_left _ ho)).2⟩
      · rintro ⟨rfl, hk⟩; exact ⟨hall _ hk, rfl⟩
    rw [hn, hcount, countP_eq_length_filter, hperm.length_eq, length_blockObjects]
  · intro hcount
    obtain ⟨b, hb, -, htaken⟩ := h.full_block hcount
    refine ⟨b, hb, fun k hk => ?_⟩
    have hmem := (h.objects ⟨b, k⟩).mpr ⟨mem_iff_getElem?.mpr ⟨i, hb⟩, hk⟩
    exact (mem_append.mp hmem).resolve_right fun ht => htaken _ ht rfl

theorem Ok.released {i : ℕ} (hi : i + 1 < s.blocks.length) (hidle : s.Idle i) :
    ∃ j, s.Idle j ∧ s.Released (s.shrinkInformation c) j := by
  rcases h.shrinkInformation_cases with ⟨hnone, -⟩ | ⟨n, hn, hs⟩
  · exact absurd (h.idle_iff.mp hidle) (hnone i hi)
  · obtain ⟨b, hb, -⟩ := h.full_block hn
    refine ⟨n, h.idle_iff.mpr hn, b, hb, ?_⟩
    have hok := h.releaseBlock hn
    have hblocks : (s.releaseBlock c n (1 + n * s.allocationSize)).blocks =
        s.blocks.set n none := blocks_setBlock s n none
    have hlost : some b ∉ (s.releaseBlock c n (1 + n * s.allocationSize)).blocks := by
      rw [hblocks]
      intro hmem
      obtain ⟨j, hj⟩ := mem_iff_getElem?.mp hmem
      rw [getElem?_set_of_some hb] at hj
      split_ifs at hj with hjn
      · cases hj
      · exact hjn (h.distinct j n b hj hb)
    rw [hs]
    refine ⟨?_, hlost, ?_⟩
    · rw [hblocks, getElem?_set_of_some hb, if_pos rfl]
    · rintro o ho rfl; exact hlost ((hok.objects o).mp (mem_append_left _ ho)).1

/-! ## The size of a block -/

theorem Ok.allocationSize_extendInformation {w : WorkspaceReply}
    (hs : s.extendInformation c w = some s') : s'.allocationSize = s.allocationSize := by
  rcases h.extendInformation_cases w with ⟨-, he⟩ | ⟨-, b, i, -, -, he⟩ | ⟨-, b, m, -, -, he⟩
  · rw [he] at hs; cases hs; rfl
  · rw [he, appendObjects_eq] at hs; cases hs; rfl
  · rw [he, appendObjects_eq] at hs; cases hs; rfl

end

theorem allocationSize_getInactive : s.getInactive.2.allocationSize = s.allocationSize := by
  unfold getInactive
  split <;> rfl

theorem Ok.allocationSize_allocateUnprotected (h : Ok c s taken) {w : WorkspaceReply}
    {r : Option ObjectRef × ObjectsInformation} (hs : s.allocateUnprotected c w = some r) :
    r.2.allocationSize = s.allocationSize := by
  unfold ObjectsInformation.allocateUnprotected at hs
  by_cases hsize : s.size = 0
  · rw [if_pos hsize] at hs; cases hs; rfl
  · rw [if_neg hsize] at hs
    obtain ⟨r0, hr0, rfl⟩ := Option.map_eq_some_iff.mp hs
    have hr : r0.2.allocationSize = s.allocationSize := by
      unfold getOrExtend at hr0
      split_ifs at hr0
      · obtain ⟨s1, hs1, rfl⟩ := Option.map_eq_some_iff.mp hr0
        rw [allocationSize_getInactive, h.allocationSize_extendInformation hs1]
      · cases hr0; exact allocationSize_getInactive
    obtain ⟨_ | o, s1⟩ := r0
    · exact hr
    · dsimp only at hr ⊢; rw [if_pos h.auto]; exact hr

theorem allocationSize_shrinkInformation :
    (s.shrinkInformation c).allocationSize = s.allocationSize := by
  unfold shrinkInformation
  rcases shrinkFrom_cases s _ 0 (s.minimumIndex c) with ⟨-, h⟩ | ⟨n, -, h⟩
  · rw [h]
  · rw [h]; rfl

theorem allocationSize_freeObject {o : ObjectRef} :
    (s.freeObject c o).allocationSize = s.allocationSize := by
  unfold freeObject
  dsimp only
  split_ifs
  · exact allocationSize_shrinkInformation
  · rfl
  · rfl

end ObjectsInformation

namespace ObjectsSystem

open ObjectsInformation

variable {c : ObjectsConfig} {s s' : ObjectsSystem}

/-- The numbers of inactive objects agree, ids are unique, used ones in a block. -/
structure Accounted (c : ObjectsConfig) (s : ObjectsSystem) : Prop where
  inactive : s.info.inactive = s.info.chain.length
  sum : s.info.inactive = s.info.inactivePerBlock.sum
  counts : ∀ (i n : ℕ), s.info.inactivePerBlock[i]? = some n →
    n = s.info.chain.countP fun o => s.info.blockOf c o = i
  ids : ∀ o ∈ s.info.chain ++ s.taken, ∀ o' ∈ s.info.chain ++ s.taken,
    s.info.id o = s.info.id o' → o = o'
  taken : ∀ o ∈ s.taken, some o.block ∈ s.info.blocks

theorem accounted_of_ok (h : s.info.Ok c s.taken) : s.Accounted c where
  inactive := h.inactive
  sum := h.inactive.trans h.sum_eq.symm
  counts _ _ hn := h.count_eq hn
  ids _ ho _ ho' hid := h.id_injective ho ho' hid
  taken o ho := ((h.objects o).mp (mem_append_right _ ho)).1

theorem allocationSize_step (h : s.info.Ok c s.taken) {a : ObjectsAction}
    (hs : s.step c a = some s') : s'.info.allocationSize = s.info.allocationSize := by
  cases a with
  | allocate w =>
    rw [step] at hs
    split_ifs at hs
    obtain ⟨r, hr, rfl⟩ := Option.map_eq_some_iff.mp hs
    exact h.allocationSize_allocateUnprotected hr
  | openObject o | closeObject o =>
    rw [step] at hs
    split_ifs at hs
    cases hs
    rfl
  | freeObject o =>
    rw [step] at hs
    split_ifs at hs
    cases hs
    exact allocationSize_freeObject

theorem prudent_of_two_le (h : s.info.Ok c s.taken) (htwo : 2 ≤ s.info.allocationSize)
    (a : ObjectsAction) : s.Prudent c a := by
  cases a with
  | allocate w =>
    intro _ _
    rw [h.minimumIndex_eq, h.maximum]
    intro hone
    have := Nat.eq_one_of_mul_eq_one_left hone
    omega
  | openObject o | closeObject o => exact trivial
  | freeObject o => exact trivial

/-- **The accounting of a class is exact**, for blocks of two or more. -/
theorem accounting_exact {theApi theClass maximum size : ℕ} {w₀ : WorkspaceReply}
    {info : ObjectsInformation}
    (hinit : initializeInformation c theApi theClass maximum size w₀ = some info)
    (hauto : c.format.isUnlimited maximum = true)
    (htwo : 2 ≤ c.format.maximumPerAllocation maximum) {as : List ObjectsAction}
    (hrun : run (step c) ⟨info, []⟩ as = some s) :
    s.Accounted c ∧ ∀ o s', s.step c (.freeObject o) = some s' →
      3 * s.info.allocationSize < 2 * (s.info.returnObject c o).inactive →
      (∃ i, i + 1 < s.info.blocks.length ∧ (s.info.returnObject c o).Idle i) →
      ∃ j, (s.info.returnObject c o).Idle j ∧ (s.info.returnObject c o).Released s'.info j := by
  have hsize : info.allocationSize = c.format.maximumPerAllocation maximum := by
    have hbare : Ok c (bareInformation c theApi theClass maximum size) [] :=
      ok_bareInformation hauto (by omega)
    unfold initializeInformation at hinit
    dsimp only at hinit
    split_ifs at hinit
    · exact hbare.allocationSize_extendInformation hinit
    · cases hinit; rfl
  obtain ⟨h, -⟩ := run_invariant (step c)
    (P := fun s => s.info.Ok c s.taken ∧ 2 ≤ s.info.allocationSize)
    (by
      rintro s a s' ⟨h, htwo⟩ hs
      exact ⟨ok_step h (prudent_of_two_le h htwo a) hs, by rwa [allocationSize_step h hs]⟩)
    ⟨ok_initializeInformation hinit hauto, by rwa [hsize]⟩ hrun
  refine ⟨accounted_of_ok h, ?_⟩
  rintro o s' hs hmany ⟨i, hi, hidle⟩
  rw [step] at hs
  split_ifs at hs with ho
  cases hs
  have hreturned := h.countFreed ho.1 ho.2
  have hshrink : s.info.freeObject c o = (s.info.returnObject c o).shrinkInformation c := by
    unfold freeObject
    rw [if_pos h.auto, if_pos]
    · rfl
    · change s.info.allocationSize + s.info.allocationSize >>> 1 <
        (s.info.returnObject c o).inactive
      omega
  rw [hshrink]
  exact hreturned.released hi hidle

/-- The classes of the examples have blocks of two objects. -/
def pairConfig : ObjectsConfig := ⟨.bits32, 1, 4, 3⟩

/-- The workspace gives a block of objects, and tables. -/
def pairReply (b : ℕ) : WorkspaceReply :=
  ⟨some b, some ⟨fun _ => none, fun n => n, fun _ => none⟩⟩

def pairInformation : ObjectsInformation :=
  (initializeInformation pairConfig 2 1 0x80000002 64 (pairReply 10)).get rfl

/-- Three blocks, of which all objects are in use. -/
def pairActions : List ObjectsAction :=
  [.allocate (pairReply 11), .allocate (pairReply 11), .allocate (pairReply 11),
    .allocate (pairReply 12), .allocate (pairReply 12), .allocate (pairReply 13)]

theorem accounting_exact_first : ∃ s s', run (step pairConfig) ⟨pairInformation, []⟩ (pairActions ++
      [.freeObject ⟨11, 0⟩, .freeObject ⟨12, 0⟩, .freeObject ⟨10, 0⟩]) = some s ∧
    s.Accounted pairConfig ∧ s.step pairConfig (.freeObject ⟨10, 1⟩) = some s' ∧
    ∃ j, (s.info.returnObject pairConfig ⟨10, 1⟩).Released s'.info j := by
  obtain ⟨s, hs, hstep, hmany, hlength, hblock, htwo, hidle⟩ := exists_of_any
      (o := run (step pairConfig) ⟨pairInformation, []⟩ (pairActions ++ [.freeObject ⟨11, 0⟩,
        .freeObject ⟨12, 0⟩, .freeObject ⟨10, 0⟩]))
      (P := fun s => (s.step pairConfig (.freeObject ⟨10, 1⟩)).isSome = true ∧
        3 * s.info.allocationSize < 2 * (s.info.returnObject pairConfig ⟨10, 1⟩).inactive ∧
        s.info.blocks.length = 3 ∧ s.info.blocks[0]? = some (some 10) ∧ s.info.allocationSize = 2 ∧
        ∀ k < 2, ⟨10, k⟩ ∈ (s.info.returnObject pairConfig ⟨10, 1⟩).chain) (by decide +kernel)
  obtain ⟨s', hs'⟩ := Option.isSome_iff_exists.mp hstep
  have hexact := accounting_exact (Option.some_get rfl).symm (by decide) (by decide) hs
  obtain ⟨j, -, hj⟩ := hexact.2 ⟨10, 1⟩ s' hs' hmany
    ⟨0, by omega, 10, hblock, fun k hk => hidle k (htwo ▸ hk)⟩
  exact ⟨s, s', hs, hexact.1, hs', j, hj⟩

/-- **The last block is not looked at.** It is idle, and is not given back. -/
theorem exists_kept_block : ∃ s s', run (step pairConfig) ⟨pairInformation, []⟩ (pairActions ++
      [.freeObject ⟨10, 0⟩, .freeObject ⟨11, 0⟩, .freeObject ⟨12, 0⟩]) = some s ∧
    s.step pairConfig (.freeObject ⟨12, 1⟩) = some s' ∧
    3 * s.info.allocationSize < 2 * (s.info.returnObject pairConfig ⟨12, 1⟩).inactive ∧
    (s.info.returnObject pairConfig ⟨12, 1⟩).Idle 2 ∧
    s'.info.blocks = [some 10, some 11, some 12] ∧ s'.info.inactive = 4 := by
  obtain ⟨s, hs, hstep, hmany, hblock, htwo, hidle⟩ := exists_of_any
      (o := run (step pairConfig) ⟨pairInformation, []⟩ (pairActions ++
        [.freeObject ⟨10, 0⟩, .freeObject ⟨11, 0⟩, .freeObject ⟨12, 0⟩]))
      (P := fun s => ((s.step pairConfig (.freeObject ⟨12, 1⟩)).any fun s' =>
          decide (s'.info.blocks = [some 10, some 11, some 12] ∧ s'.info.inactive = 4)) = true ∧
        3 * s.info.allocationSize < 2 * (s.info.returnObject pairConfig ⟨12, 1⟩).inactive ∧
        s.info.blocks[2]? = some (some 12) ∧ s.info.allocationSize = 2 ∧
        ∀ k < 2, ⟨12, k⟩ ∈ (s.info.returnObject pairConfig ⟨12, 1⟩).chain) (by decide +kernel)
  obtain ⟨s', hs', hkept⟩ := exists_of_any hstep
  exact ⟨s, s', hs, hs', hmany, ⟨12, hblock, fun k hk => hidle k (htwo ▸ hk)⟩, hkept⟩

end ObjectsSystem

end Rtems
