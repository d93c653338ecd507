import Mathlib.Data.Tree.Basic
import Mathlib.Data.List.Sort

/-!
# Search trees with a cached minimum

Binary trees sorted by a key, where equal keys stand in the order of insertion, and the pointer to
the leftmost node that goes with them.

* `inorder`, `leftmost`: the sequence of a tree and its first node;
* `insertLoop`: the descent of an insertion; **`inorder_insertLoop`**, **`insertLoop_first`**;
* `successor`, **`successor_eq`**: the node after the leftmost one, from its subtree or its parent;
* `Balancer`: rebalancing and extraction, given by what they do to the sequence.
-/

namespace SearchTree

open List

variable {α κ : Type}

def inorder : BinaryTree α → List α
  | .nil => []
  | .node a l r => inorder l ++ a :: inorder r

def leftmost : BinaryTree α → Option α
  | .nil => none
  | .node a .nil _ => some a
  | .node _ l _ => leftmost l

variable {t : BinaryTree α}

theorem inorder_eq_nil : inorder t = [] ↔ t = .nil := by
  cases t with
  | nil => simp [inorder]
  | node a l r => simp [inorder]

theorem leftmost_eq (t : BinaryTree α) : leftmost t = (inorder t).head? := by
  induction t with
  | nil => rfl
  | node a l r ihl ihr =>
    cases l with
    | nil => rfl
    | node b l1 l2 =>
      rw [leftmost, ihl, inorder, head?_append]
      · simp [inorder]
      · intro h; cases h

/-! ## Insertion -/

section Insert

variable [LinearOrder κ] (key : α → κ)

/-- Insert `x` behind the elements with a key up to its own. -/
def insertBehind (x : α) (l : List α) : List α := l.orderedInsert (fun a b => key a < key b) x

variable {key} {x a : α} {l r : List α}

theorem insertBehind_cons_of_lt (hx : key x < key a) : insertBehind key x (a :: l) = x :: a :: l :=
  if_pos hx

theorem insertBehind_cons_of_le (hx : key a ≤ key x) :
    insertBehind key x (a :: l) = a :: insertBehind key x l :=
  if_neg (not_lt.mpr hx)

theorem head?_insertBehind : (insertBehind key x l).head? = match l.head? with
    | none => some x
    | some a => if key x < key a then some x else some a := by
  cases l with
  | nil => rfl
  | cons a l =>
    simp only [head?_cons]
    split_ifs with hx
    · rw [insertBehind_cons_of_lt hx, head?_cons]
    · rw [insertBehind_cons_of_le (not_lt.mp hx), head?_cons]

theorem insertBehind_append_of_lt (hx : key x < key a) :
    insertBehind key x (l ++ a :: r) = insertBehind key x l ++ a :: r := by
  induction l with
  | nil => exact insertBehind_cons_of_lt hx
  | cons b l ih =>
    rw [cons_append]
    rcases lt_or_ge (key x) (key b) with hb | hb
    · rw [insertBehind_cons_of_lt hb, insertBehind_cons_of_lt hb]; rfl
    · rw [insertBehind_cons_of_le hb, insertBehind_cons_of_le hb, ih, cons_append]

theorem insertBehind_append_of_le (hl : ∀ b ∈ l, key b ≤ key x) :
    insertBehind key x (l ++ r) = l ++ insertBehind key x r := by
  induction l with
  | nil => rfl
  | cons b l ih =>
    rw [cons_append, insertBehind_cons_of_le (hl b mem_cons_self), cons_append]
    rw [ih fun c hc => hl c (mem_cons_of_mem b hc)]

theorem mem_insertBehind {b : α} : b ∈ insertBehind key x l ↔ b = x ∨ b ∈ l :=
  mem_orderedInsert _

theorem perm_insertBehind : (insertBehind key x l).Perm (x :: l) := perm_orderedInsert _ _ _

theorem map_insertBehind {β : Type} (f : β → α) (y : β) (l : List β) :
    (insertBehind (fun b => key (f b)) y l).map f = insertBehind key (f y) (l.map f) := by
  induction l with
  | nil => rfl
  | cons b l ih =>
    rw [map_cons]
    rcases lt_or_ge (key (f y)) (key (f b)) with hb | hb
    · rw [insertBehind_cons_of_lt hb, @insertBehind_cons_of_lt _ _ _ (fun b => key (f b)) y b l hb]
      rfl
    · rw [insertBehind_cons_of_le hb, @insertBehind_cons_of_le _ _ _ (fun b => key (f b)) y b l hb,
        map_cons, ih]

theorem pairwise_insertBehind (hl : l.Pairwise fun a b => key a ≤ key b) :
    (insertBehind key x l).Pairwise fun a b => key a ≤ key b := by
  induction l with
  | nil => exact pairwise_singleton _ x
  | cons b l ih =>
    rw [pairwise_cons] at hl
    rcases lt_or_ge (key x) (key b) with hb | hb
    · rw [insertBehind_cons_of_lt hb]
      refine pairwise_cons.mpr ⟨fun c hc => ?_, pairwise_cons.mpr hl⟩
      rcases mem_cons.mp hc with rfl | hc
      · exact hb.le
      · exact hb.le.trans (hl.1 c hc)
    · rw [insertBehind_cons_of_le hb]
      refine pairwise_cons.mpr ⟨fun c hc => ?_, ih hl.2⟩
      rcases mem_insertBehind.mp hc with rfl | hc
      · exact hb
      · exact hl.1 c hc

theorem filter_insertBehind (hl : l.Pairwise fun a b => key a ≤ key b) (k : κ) :
    (insertBehind key x l).filter (fun a => key a = k) =
      l.filter (fun a => key a = k) ++ if key x = k then [x] else [] := by
  induction l with
  | nil =>
    simp only [insertBehind, orderedInsert_nil, filter_nil, nil_append]
    split_ifs with hk <;> simp [hk]
  | cons b l ih =>
    rw [pairwise_cons] at hl
    rcases lt_or_ge (key x) (key b) with hb | hb
    · rw [insertBehind_cons_of_lt hb]
      by_cases hk : key x = k
      · -- no element behind has the key of the new one
        have hne : ∀ c ∈ b :: l, ¬ key c = k := by
          intro c hc
          rcases mem_cons.mp hc with rfl | hc
          · exact fun h => hb.ne (hk.trans h.symm)
          · exact fun h => (hb.trans_le (hl.1 c hc)).ne (hk.trans h.symm)
        rw [filter_cons_of_pos (by simpa using hk), if_pos hk,
          filter_eq_nil_iff.mpr (by simpa using hne), nil_append]
      · rw [filter_cons_of_neg (by simpa using hk), if_neg hk, append_nil]
    · rw [insertBehind_cons_of_le hb, filter_cons, filter_cons, ih hl.2]
      split_ifs <;> simp

variable (key)

/-- The descent of an insertion: the first node is `new` unless it went right. -/
def insertLoop (x : α) (old : Option α) : BinaryTree α → Option α → BinaryTree α × Option α
  | .nil, new => (.node x .nil .nil, new)
  | .node a l r, new =>
    if key x < key a then
      let (l', first) := insertLoop x old l new
      (.node a l' r, first)
    else
      let (r', first) := insertLoop x old r old
      (.node a l r', first)

variable {key}

theorem inorder_insertLoop (old new : Option α)
    (ht : (inorder t).Pairwise fun a b => key a ≤ key b) :
    inorder (insertLoop key x old t new).1 = insertBehind key x (inorder t) := by
  induction t generalizing new with
  | nil => rfl
  | node a l r ihl ihr =>
    rw [inorder, pairwise_append, pairwise_cons] at ht
    obtain ⟨hl, ⟨ha, hr⟩, hlr⟩ := ht
    rw [insertLoop]
    split_ifs with hx
    · rw [inorder, inorder, ihl new hl, insertBehind_append_of_lt hx]
    · have hax := not_lt.mp hx
      have hle : ∀ b ∈ inorder l ++ [a], key b ≤ key x := by
        intro b hb
        rcases mem_append.mp hb with hb | hb
        · exact (hlr b hb a mem_cons_self).trans hax
        · rw [mem_singleton.mp hb]; exact hax
      rw [inorder, inorder, ihr old hr, append_cons (inorder l) a (inorder r),
        insertBehind_append_of_le hle, ← append_cons]

theorem insertLoop_of_right {old : Option α} : (insertLoop key x old t old).2 = old := by
  induction t with
  | nil => rfl
  | node a l r ihl ihr =>
    rw [insertLoop]
    split_ifs
    · exact ihl
    · exact ihr

theorem insertLoop_snd (old new : Option α) (ht : (inorder t).Pairwise fun a b => key a ≤ key b) :
    (insertLoop key x old t new).2 = match (inorder t).head? with
      | none => new
      | some a => if key x < key a then new else old := by
  induction t with
  | nil => rfl
  | node a l r ihl ihr =>
    rw [inorder, pairwise_append] at ht
    obtain ⟨hl, -, hlr⟩ := ht
    rw [insertLoop, inorder, head?_append]
    cases hh : (inorder l).head? with
    | none =>
      split_ifs with hx
      · simp [ihl hl, hh, hx]
      · simp [insertLoop_of_right, hx]
    | some b =>
      have hba := hlr b (mem_of_head? hh) a mem_cons_self
      split_ifs with hx
      · simp [ihl hl, hh]
      · have hxb : ¬ key x < key b := not_lt.mpr (hba.trans (not_lt.mp hx))
        simp [insertLoop_of_right, hxb]

theorem insertLoop_first (ht : (inorder t).Pairwise fun a b => key a ≤ key b) :
    (insertLoop key x (inorder t).head? t (some x)).2 =
      (inorder (insertLoop key x (inorder t).head? t (some x)).1).head? := by
  rw [insertLoop_snd _ _ ht, inorder_insertLoop _ _ ht, head?_insertBehind]
  cases (inorder t).head? <;> rfl

end Insert

/-! ## The node after the first -/

section Successor

variable [DecidableEq α]

/-- The right subtree of node `x` and its parent, in a tree under `parent`. -/
def place (x : α) : BinaryTree α → Option α → Option (BinaryTree α × Option α)
  | .nil, _ => none
  | .node a l r, parent =>
    if a = x then some (r, parent)
    else (place x l (some a)).or (place x r (some a))

/-- The first node of the right subtree, or the parent. -/
def successor (x : α) (t : BinaryTree α) : Option α :=
  match place x t none with
  | none => none
  | some (.nil, parent) => parent
  | some (r, _) => leftmost r

theorem place_head {x : α} {rest : List α} (parent : Option α)
    (hn : (inorder t).Nodup) (h : inorder t = x :: rest) :
    ∃ r q, place x t parent = some (r, q) ∧ (inorder r).head?.or q = rest.head?.or parent := by
  induction t generalizing parent rest with
  | nil => cases h
  | node a l r ihl ihr =>
    rw [inorder] at h hn
    cases hl : inorder l with
    | nil =>
      rw [hl] at h; obtain ⟨rfl, rfl⟩ := cons_eq_cons.mp h; exact ⟨r, parent, if_pos rfl, rfl⟩
    | cons b l' =>
      rw [hl, cons_append] at h
      obtain ⟨rfl, rfl⟩ := cons_eq_cons.mp h
      have hne : a ≠ b := by rintro rfl; rw [hl] at hn; simp at hn
      obtain ⟨r', q, hp, hq⟩ := ihl (some a) (List.Nodup.of_append_left hn) hl
      refine ⟨r', q, ?_, ?_⟩
      · rw [place, if_neg hne, hp, Option.some_or]
      · rw [hq]; cases l' <;> rfl

theorem successor_eq {x : α} {rest : List α} (hn : (inorder t).Nodup)
    (h : inorder t = x :: rest) : successor x t = rest.head? := by
  obtain ⟨r, q, hp, hq⟩ := place_head none hn h
  rw [Option.or_none] at hq
  rw [successor, hp]
  cases r with
  | nil => exact hq
  | node a l r => rw [← hq]; simp only [leftmost_eq]; simp [inorder]

end Successor

/-! ## Rebalancing -/

/-- A balanced tree, by what it does to the sequence of nodes. -/
structure Balancer (α : Type) [DecidableEq α] where
  /-- Rebalance after `x` became a leaf. -/
  insertColor : BinaryTree α → α → BinaryTree α
  /-- Take the node `x` out. -/
  extract : BinaryTree α → α → BinaryTree α
  inorder_insertColor : ∀ t x, inorder (insertColor t x) = inorder t
  inorder_extract : ∀ t x, x ∈ inorder t → inorder (extract t x) = (inorder t).erase x

def ofList : List α → BinaryTree α
  | [] => .nil
  | a :: l => .node a .nil (ofList l)

theorem inorder_ofList (l : List α) : inorder (ofList l) = l := by
  induction l with
  | nil => rfl
  | cons a l ih => rw [ofList, inorder, inorder, ih, nil_append]

def Balancer.plain [DecidableEq α] : Balancer α where
  insertColor t _ := t
  extract t x := ofList ((inorder t).erase x)
  inorder_insertColor _ _ := rfl
  inorder_extract _ _ _ := inorder_ofList _

end SearchTree
