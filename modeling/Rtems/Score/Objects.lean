import Mathlib.Data.List.Rotate
import Mathlib.Logic.Function.Basic

/-!
# Object classes

`Objects κ` is one `Objects_Information` with control blocks of type `κ`: the chain of inactive
objects, the table of open ones, and the closed objects whose memory is still to be freed (only
threads have these, `_Thread_Zombies`). An id is the same each time its object is handed out.

* `allocate`: `_Objects_Allocate` and `_Objects_Open`;
* `free`: `_Objects_Close` and `_Objects_Free`, `bury`: `_Thread_Make_zombie`;
* `killZombies`: `_Thread_Kill_zombies`;
* `extend`, `shrink`: what automatic extension does to the chain.
-/

namespace Rtems

open Function List

/-- Object ids, `rtems_id`. `0` names no object. -/
abbrev Id := ℕ

abbrev Thread := ℕ

/-- An object class: no id is twice on its chains and open, and none is `0`. -/
structure Objects (κ : Type) where
  inactive : List Id
  zombies : List Id
  live : Id → Option κ
  nodup : (inactive ++ zombies).Nodup
  closed : ∀ x ∈ inactive ++ zombies, live x = none
  pos : ∀ x ∈ inactive ++ zombies, x ≠ 0
  live_zero : live 0 = none

namespace Objects

variable {κ : Type}

/-- `_Objects_Initialize_information`: `n` objects, all inactive. -/
def initial (n : ℕ) : Objects κ where
  inactive := List.range' 1 n
  zombies := []
  live _ := none
  nodup := by rw [append_nil]; exact nodup_range'
  closed _ _ := rfl
  pos x hx := by
    rw [append_nil, mem_range'_1] at hx; exact Nat.one_le_iff_ne_zero.mp hx.1
  live_zero := rfl

/-- `_Objects_Allocate` and `_Objects_Open` of the first inactive object. -/
def allocate (o : Objects κ) (c : κ) : Option (Id × Objects κ) :=
  match h : o.inactive with
  | [] => none
  | x :: rest => some (x,
      { inactive := rest
        zombies := o.zombies
        live := update o.live x (some c)
        nodup := by
          have := o.nodup; rw [h, cons_append] at this; exact this.of_cons
        closed := fun y hy => by
          have hnd := o.nodup
          rw [h, cons_append] at hnd
          have hyx : y ≠ x := fun e => (nodup_cons.mp hnd).1 (e ▸ hy)
          rw [update_of_ne hyx]
          exact o.closed y (by rw [h]; exact mem_cons_of_mem x hy)
        pos := fun y hy => o.pos y (by rw [h]; exact mem_cons_of_mem x hy)
        live_zero := by
          rw [update_of_ne (o.pos x (by rw [h]; exact mem_cons_self)).symm]
          exact o.live_zero })

/-- Overwrite the control block of an open object. -/
def set (o : Objects κ) (x : Id) (c : κ) (h : (o.live x).isSome) : Objects κ where
  inactive := o.inactive
  zombies := o.zombies
  live := update o.live x (some c)
  nodup := o.nodup
  closed y hy := by
    have hyx : y ≠ x := fun e => by rw [← e, o.closed y hy] at h; cases h
    rw [update_of_ne hyx]
    exact o.closed y hy
  pos := o.pos
  live_zero := by
    have h0 : (0 : ℕ) ≠ x := fun e => by rw [← e, o.live_zero] at h; cases h
    rw [update_of_ne h0]
    exact o.live_zero

variable {o : Objects κ} {x y : Id} {c d : κ}

theorem notMem_of_live (h : (o.live x).isSome) : x ∉ o.inactive ++ o.zombies := by
  intro hx; rw [o.closed x hx] at h; cases h

theorem ne_zero_of_live (h : (o.live x).isSome) : x ≠ 0 := by
  intro e; rw [e, o.live_zero] at h; cases h

theorem closed_update (h : (o.live x).isSome) {l : List Id}
    (hl : ∀ y ∈ l, y ≠ x → y ∈ o.inactive ++ o.zombies) :
    (∀ y ∈ l, update o.live x none y = none) ∧ ∀ y ∈ l, y ≠ 0 := by
  refine ⟨fun y hy => ?_, fun y hy => ?_⟩
  · by_cases hyx : y = x
    · rw [hyx, update_self]
    · rw [update_of_ne hyx]; exact o.closed y (hl y hy hyx)
  · by_cases hyx : y = x
    · rw [hyx]; exact ne_zero_of_live h
    · exact o.pos y (hl y hy hyx)

/-- `_Objects_Close` and `_Objects_Free`, to the end of the inactive chain. -/
def free (o : Objects κ) (x : Id) (h : (o.live x).isSome) : Objects κ where
  inactive := o.inactive ++ [x]
  zombies := o.zombies
  live := update o.live x none
  nodup := by
    have hx := notMem_of_live h
    rw [append_assoc, singleton_append]
    exact (nodup_middle.mpr (nodup_cons.mpr ⟨hx, o.nodup⟩))
  closed := (closed_update h fun y hy hyx => by simpa [hyx] using hy).1
  pos := (closed_update h fun y hy hyx => by simpa [hyx] using hy).2
  live_zero := by
    rw [update_of_ne (ne_zero_of_live h).symm]; exact o.live_zero

/-- `_Thread_Make_zombie`: the id no longer resolves, the object is not yet free. -/
def bury (o : Objects κ) (x : Id) (h : (o.live x).isSome) : Objects κ where
  inactive := o.inactive
  zombies := o.zombies ++ [x]
  live := update o.live x none
  nodup := by
    have hx := notMem_of_live h
    rw [← append_assoc]
    exact nodup_append.mpr ⟨o.nodup, nodup_singleton x, fun y hy z hz e =>
      hx (by rw [mem_singleton] at hz; rw [← hz, ← e]; exact hy)⟩
  closed := (closed_update h fun y hy hyx => by simpa [hyx] using hy).1
  pos := (closed_update h fun y hy hyx => by simpa [hyx] using hy).2
  live_zero := by
    rw [update_of_ne (ne_zero_of_live h).symm]; exact o.live_zero

/-- `_Thread_Kill_zombies`: the closed objects are freed, oldest first. -/
def killZombies (o : Objects κ) : Objects κ where
  inactive := o.inactive ++ o.zombies
  zombies := []
  live := o.live
  nodup := by rw [append_nil]; exact o.nodup
  closed := by rw [append_nil]; exact o.closed
  pos := by rw [append_nil]; exact o.pos
  live_zero := o.live_zero

/-- An allocation taken back: the first inactive object goes to the end. -/
def rotate (o : Objects κ) : Objects κ where
  inactive := o.inactive.rotate 1
  zombies := o.zombies
  live := o.live
  nodup := (((rotate_perm o.inactive 1).append_right o.zombies).nodup_iff).mpr o.nodup
  closed x hx := o.closed x
    (((rotate_perm o.inactive 1).append_right o.zombies).mem_iff.mp hx)
  pos x hx := o.pos x (((rotate_perm o.inactive 1).append_right o.zombies).mem_iff.mp hx)
  live_zero := o.live_zero

/-- The objects of `_Objects_Extend_information` have new ids. -/
def Fresh (o : Objects κ) (ids : List Id) : Prop :=
  ids.Nodup ∧ ∀ x ∈ ids, x ≠ 0 ∧ (o.live x).isNone ∧ x ∉ o.inactive ++ o.zombies

instance (o : Objects κ) (ids : List Id) : Decidable (o.Fresh ids) := by
  unfold Fresh; infer_instance

/-- `_Objects_Extend_information`: new inactive objects. -/
def extend (o : Objects κ) (ids : List Id) (h : o.Fresh ids) : Objects κ where
  inactive := o.inactive ++ ids
  zombies := o.zombies
  live := o.live
  nodup := by
    have hp : (o.inactive ++ ids ++ o.zombies).Perm (ids ++ (o.inactive ++ o.zombies)) := by
      rw [← append_assoc]; exact perm_append_comm.append_right _
    rw [hp.nodup_iff]
    exact nodup_append.mpr ⟨h.1, o.nodup, fun y hy z hz e => (h.2 y hy).2.2 (e ▸ hz)⟩
  closed x hx := by
    simp only [mem_append] at hx
    rcases hx with (hx | hx) | hx
    · exact o.closed x (mem_append_left _ hx)
    · exact Option.isNone_iff_eq_none.mp (h.2 x hx).2.1
    · exact o.closed x (mem_append_right _ hx)
  pos x hx := by
    simp only [mem_append] at hx
    rcases hx with (hx | hx) | hx
    · exact o.pos x (mem_append_left _ hx)
    · exact (h.2 x hx).1
    · exact o.pos x (mem_append_right _ hx)
  live_zero := o.live_zero

/-- `_Objects_Shrink_information`: the objects of a block leave the inactive chain. -/
def shrink (o : Objects κ) (block : List Id) : Objects κ where
  inactive := o.inactive.filter fun x => x ∉ block
  zombies := o.zombies
  live := o.live
  nodup := o.nodup.sublist (filter_sublist.append_right _)
  closed x hx := o.closed x ((filter_sublist.append_right _).subset hx)
  pos x hx := o.pos x ((filter_sublist.append_right _).subset hx)
  live_zero := o.live_zero

/-- Overwrite the control block of an object, if the id names one. -/
def put (o : Objects κ) (x : Id) (c : κ) : Objects κ :=
  if h : (o.live x).isSome then o.set x c h else o

/-- Close and free the object that an id names, if it names one. -/
def close (o : Objects κ) (x : Id) : Objects κ :=
  if h : (o.live x).isSome then o.free x h else o

/-- Close the thread that an id names; its memory stays on the zombie chain. -/
def kill (o : Objects κ) (x : Id) : Objects κ :=
  if h : (o.live x).isSome then o.bury x h else o

theorem put_live (h : (o.live x).isSome) : (o.put x c).live = update o.live x (some c) := by
  rw [put, dif_pos h]; rfl

@[simp] theorem put_inactive (o : Objects κ) (x : Id) (c : κ) : (o.put x c).inactive = o.inactive := by
  unfold put
  split_ifs <;> rfl

@[simp] theorem put_zombies (o : Objects κ) (x : Id) (c : κ) : (o.put x c).zombies = o.zombies := by
  unfold put
  split_ifs <;> rfl

@[simp] theorem close_live (o : Objects κ) (x : Id) : (o.close x).live = update o.live x none := by
  unfold close
  split_ifs with h
  · rfl
  · rw [Option.not_isSome_iff_eq_none] at h; rw [← h, update_eq_self]

@[simp] theorem kill_live (o : Objects κ) (x : Id) : (o.kill x).live = update o.live x none := by
  unfold kill
  split_ifs with h
  · rfl
  · rw [Option.not_isSome_iff_eq_none] at h; rw [← h, update_eq_self]

theorem allocate_eq_some {o' : Objects κ} (h : o.allocate c = some (x, o')) :
    x ∈ o.inactive ∧ o'.live = update o.live x (some c) ∧
      o.inactive = x :: o'.inactive ∧ o'.zombies = o.zombies := by
  unfold allocate at h
  split at h
  · cases h
  · next y rest hy =>
    cases h; exact ⟨by rw [hy]; exact mem_cons_self, rfl, hy, rfl⟩

theorem update_cases {live : Id → Option κ} {v : Option κ}
    (h : update live x v y = some c) : y = x ∧ v = some c ∨ y ≠ x ∧ live y = some c := by
  by_cases hy : y = x
  · rw [hy, update_self] at h; exact .inl ⟨hy, h⟩
  · rw [update_of_ne hy] at h; exact .inr ⟨hy, h⟩

theorem allocate_cases {o' : Objects κ} (h : o.allocate c = some (x, o'))
    (hd : o'.live y = some d) : y = x ∧ d = c ∨ y ≠ x ∧ o.live y = some d := by
  rw [(allocate_eq_some h).2.1] at hd
  rcases update_cases hd with ⟨hy, he⟩ | hy
  · exact .inl ⟨hy, (Option.some.inj he).symm⟩
  · exact .inr hy

theorem put_cases {c' : κ} (h : o.live x = some c)
    (hd : (o.put x c').live y = some d) : y = x ∧ d = c' ∨ y ≠ x ∧ o.live y = some d := by
  rw [put_live (by rw [h]; rfl)] at hd
  rcases update_cases hd with ⟨hy, he⟩ | hy
  · exact .inl ⟨hy, (Option.some.inj he).symm⟩
  · exact .inr hy

theorem close_cases (hd : (o.close x).live y = some d) : y ≠ x ∧ o.live y = some d := by
  rw [close_live] at hd
  rcases update_cases hd with ⟨-, he⟩ | hy
  · cases he
  · exact hy

theorem allocate_eq_none : o.allocate c = none ↔ o.inactive = [] := by
  unfold allocate
  split
  · next hy => simp [hy]
  · next y rest hy => simp [hy]

end Objects

end Rtems
