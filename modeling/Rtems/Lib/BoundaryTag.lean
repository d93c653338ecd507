import Mathlib.Data.List.Basic
import Mathlib.Data.Nat.Notation
import Mathlib.Tactic.SplitIfs

/-!
# Memory with boundary tags

A stretch of memory consists of tiles, each with its size at its beginning, where it also says
whether the tile before is used and, if that is free, what size it has.

* `Tile`: a free block, a used block, or the gap behind an area;
* `Tiled`: the tags from an address on say what the tiles are, but for one address;
* **`Tiled.splice`**: what happens inside a stretch does not matter outside of it;
* `Apart`: no two free tiles are side by side; `addresses`: where the tiles of a kind are.
-/

namespace BoundaryTag

open List

/-- What a tile is. A gap is behind an area that ends at the given address. -/
inductive Kind
  | free
  | used
  | gap (areaEnd : ℕ)
  deriving DecidableEq

structure Tile where
  size : ℕ
  kind : Kind
  deriving DecidableEq

structure Tags where
  size : ℕ → ℕ
  prevUsed : ℕ → Prop
  prevSize : ℕ → ℕ

/-- The tags at an address about the tile before. -/
structure Tags.Behind (m : Tags) (pred : Tile) (a : ℕ) : Prop where
  prevUsed : m.prevUsed a ↔ pred.kind ≠ .free
  prevSize : pred.kind = .free → m.prevSize a = pred.size

structure Tags.Agree (m m' : Tags) (a : ℕ) : Prop where
  size : m'.size a = m.size a
  prevUsed : m'.prevUsed a ↔ m.prevUsed a
  prevSize : m'.prevSize a = m.prevSize a

theorem Tags.Behind.congr {m m' : Tags} {pred : Tile} {a : ℕ} (h : m.Behind pred a)
    (hu : m'.prevUsed a ↔ m.prevUsed a) (hs : m'.prevSize a = m.prevSize a) : m'.Behind pred a :=
  ⟨hu.trans h.prevUsed, fun hf => hs.trans (h.prevSize hf)⟩

/-- The tiles from `a` on, behind the tile `pred`. The tags at `ex` may be out of date. -/
def Tiled (m : Tags) (ex : Option ℕ) : Tile → ℕ → List Tile → Prop
  | _, _, [] => True
  | pred, a, t :: ts =>
    (m.size a = t.size ∧ (ex ≠ some a → m.Behind pred a)) ∧ Tiled m ex t (a + t.size) ts

/-- No two free tiles are side by side, behind a tile of the kind `k`. -/
def Apart : Kind → List Tile → Prop
  | _, [] => True
  | k, t :: ts => (k = .free → t.kind ≠ .free) ∧ Apart t.kind ts

def final (pred : Tile) : List Tile → Tile
  | [] => pred
  | t :: ts => final t ts

def total : List Tile → ℕ
  | [] => 0
  | t :: ts => t.size + total ts

def addresses (p : Kind → Bool) : ℕ → List Tile → List ℕ
  | _, [] => []
  | a, t :: ts => if p t.kind then a :: addresses p (a + t.size) ts else addresses p (a + t.size) ts

def totalOf (p : Kind → Bool) : List Tile → ℕ
  | [] => 0
  | t :: ts => if p t.kind then t.size + totalOf p ts else totalOf p ts

/-- An area: its first tile, the gap behind it, and its end. -/
structure Span where
  first : ℕ
  last : ℕ
  areaEnd : ℕ
  deriving DecidableEq

/-- The areas of the tiles from `a` on. The first of them begins at `f`. -/
def spans : ℕ → ℕ → List Tile → List Span
  | _, _, [] => []
  | f, a, ⟨n, .gap e⟩ :: ts => ⟨f, a, e⟩ :: spans (a + n) (a + n) ts
  | f, a, ⟨n, .free⟩ :: ts => spans f (a + n) ts
  | f, a, ⟨n, .used⟩ :: ts => spans f (a + n) ts

def opening : ℕ → ℕ → List Tile → ℕ
  | f, _, [] => f
  | _, a, ⟨n, .gap _⟩ :: ts => opening (a + n) (a + n) ts
  | f, a, ⟨n, .free⟩ :: ts => opening f (a + n) ts
  | f, a, ⟨n, .used⟩ :: ts => opening f (a + n) ts

variable {m m' : Tags} {ex ex' : Option ℕ} {pred t : Tile} {k : Kind} {a f : ℕ}
  {ts us pre mid mid' post : List Tile} {p : Kind → Bool}

@[simp]
theorem total_nil : total [] = 0 := rfl

@[simp]
theorem total_cons : total (t :: ts) = t.size + total ts := rfl

@[simp]
theorem total_append : total (ts ++ us) = total ts + total us := by
  induction ts with
  | nil => simp
  | cons t ts ih => rw [cons_append, total_cons, total_cons, ih, Nat.add_assoc]

@[simp]
theorem total_one {n : ℕ} : total [⟨n, k⟩] = n := Nat.add_zero n

@[simp]
theorem total_two {n n' : ℕ} {k' : Kind} : total [⟨n, k⟩, ⟨n', k'⟩] = n + n' := rfl

@[simp]
theorem final_append : final pred (ts ++ us) = final (final pred ts) us := by
  induction ts generalizing pred with
  | nil => rfl
  | cons t ts ih => exact ih

@[simp]
theorem final_cons : final pred (t :: ts) = final t ts := rfl

@[simp]
theorem final_nil : final pred [] = pred := rfl

theorem tiled_append : Tiled m ex pred a (ts ++ us) ↔
    Tiled m ex pred a ts ∧ Tiled m ex (final pred ts) (a + total ts) us := by
  induction ts generalizing pred a with
  | nil => simp [Tiled]
  | cons t ts ih =>
    rw [cons_append, Tiled, Tiled, ih, final_cons, total_cons, Nat.add_assoc]
    exact and_assoc.symm

theorem apart_append : Apart pred.kind (ts ++ us) ↔
    Apart pred.kind ts ∧ Apart (final pred ts).kind us := by
  induction ts generalizing pred with
  | nil => simp [Apart]
  | cons t ts ih => rw [cons_append, Apart, Apart, ih, final_cons]; exact and_assoc.symm

theorem tiled_singleton : Tiled m ex pred a [t] ↔
    m.size a = t.size ∧ (ex ≠ some a → m.Behind pred a) := by
  rw [Tiled, Tiled, and_true]

theorem tiled_one {n : ℕ} : Tiled m ex pred a ([⟨n, k⟩] ++ [t]) ↔
    (m.size a = n ∧ (ex ≠ some a → m.Behind pred a)) ∧
      m.size (a + n) = t.size ∧ (ex ≠ some (a + n) → m.Behind ⟨n, k⟩ (a + n)) := by
  rw [tiled_append, tiled_singleton, tiled_singleton]
  rfl

theorem tiled_two {n n' : ℕ} {k' : Kind} : Tiled m ex pred a ([⟨n, k⟩, ⟨n', k'⟩] ++ [t]) ↔
    (m.size a = n ∧ (ex ≠ some a → m.Behind pred a)) ∧
      (m.size (a + n) = n' ∧ (ex ≠ some (a + n) → m.Behind ⟨n, k⟩ (a + n))) ∧
        m.size (a + (n + n')) = t.size ∧
          (ex ≠ some (a + (n + n')) → m.Behind ⟨n', k'⟩ (a + (n + n'))) := by
  rw [← Nat.add_assoc]
  exact and_congr_right fun _ => tiled_one

/-! ## Where the tiles are -/

@[simp]
theorem addresses_nil : addresses p a [] = [] := rfl

theorem addresses_append : addresses p a (ts ++ us) =
    addresses p a ts ++ addresses p (a + total ts) us := by
  induction ts generalizing a with
  | nil => rfl
  | cons t ts ih =>
    rw [cons_append, addresses, addresses, ih, total_cons, Nat.add_assoc]
    split_ifs
    · rfl
    · rfl

theorem totalOf_append : totalOf p (ts ++ us) = totalOf p ts + totalOf p us := by
  induction ts with
  | nil => simp [totalOf]
  | cons t ts ih =>
    rw [cons_append, totalOf, totalOf, ih]
    split_ifs
    · rw [Nat.add_assoc]
    · rfl

theorem totalOf_le : totalOf p ts ≤ total ts := by
  induction ts with
  | nil => exact (Nat.le_refl _)
  | cons t ts ih =>
    rw [totalOf, total_cons]
    split_ifs
    · omega
    · omega

theorem mem_addresses {x : ℕ} : x ∈ addresses p a ts ↔
    ∃ pre t post, ts = pre ++ t :: post ∧ p t.kind = true ∧ x = a + total pre := by
  induction ts generalizing a with
  | nil => simp
  | cons u ts ih =>
    have hshift : x ∈ addresses p (a + u.size) ts ↔ ∃ pre t post, u :: ts = u :: pre ++ t :: post ∧
        p t.kind = true ∧ x = a + total (u :: pre) := by
      simp only [ih, cons_append, List.cons.injEq, true_and, total_cons, Nat.add_assoc]
    rw [addresses]
    constructor
    · intro hx
      by_cases hu : p u.kind = true
      · rw [if_pos hu, mem_cons] at hx
        rcases hx with rfl | hx
        · exact ⟨[], u, ts, rfl, hu, rfl⟩
        · obtain ⟨pre, t, post, he, hp, hx⟩ := hshift.mp hx
          exact ⟨u :: pre, t, post, he, hp, hx⟩
      · rw [if_neg hu] at hx
        obtain ⟨pre, t, post, he, hp, hx⟩ := hshift.mp hx
        exact ⟨u :: pre, t, post, he, hp, hx⟩
    · rintro ⟨pre, t, post, he, hp, rfl⟩
      cases pre with
      | nil => cases he; rw [if_pos hp]; exact mem_cons_self
      | cons v pre =>
        obtain ⟨rfl, he⟩ := List.cons.inj he
        have hm := hshift.mpr ⟨pre, t, post, by rw [he, cons_append], hp, rfl⟩
        split_ifs
        · exact mem_cons_of_mem _ hm
        · exact hm

theorem le_of_mem_addresses {x : ℕ} (h : x ∈ addresses p a ts) : a ≤ x := by
  obtain ⟨pre, t, post, -, -, rfl⟩ := mem_addresses.mp h; exact Nat.le_add_right _ _

theorem lt_of_mem_addresses {x : ℕ} (hpos : ∀ t ∈ ts, 0 < t.size) (h : x ∈ addresses p a ts) :
    x < a + total ts := by
  obtain ⟨pre, t, post, rfl, -, rfl⟩ := mem_addresses.mp h
  have ht := hpos t (by simp)
  rw [total_append, total_cons]
  omega

theorem length_addresses_le (hpos : ∀ t ∈ ts, 0 < t.size) :
    (addresses p a ts).length ≤ total ts := by
  induction ts generalizing a with
  | nil => exact Nat.le_refl _
  | cons t ts ih =>
    have ht := hpos t mem_cons_self
    have htail := ih (a := a + t.size) fun u hu => hpos u (mem_cons_of_mem t hu)
    rw [addresses, total_cons]
    split_ifs
    · rw [length_cons]; omega
    · omega

theorem addresses_eq_nil (h : ∀ t ∈ ts, p t.kind = false) : addresses p a ts = [] := by
  induction ts generalizing a with
  | nil => rfl
  | cons t ts ih =>
    rw [addresses, h t mem_cons_self]; exact ih fun u hu => h u (mem_cons_of_mem t hu)

theorem nodup_addresses (hpos : ∀ t ∈ ts, 0 < t.size) : (addresses p a ts).Nodup := by
  induction ts generalizing a with
  | nil => exact nodup_nil
  | cons t ts ih =>
    have htail := ih (a := a + t.size) fun u hu => hpos u (mem_cons_of_mem t hu)
    have ht := hpos t mem_cons_self
    rw [addresses]
    split_ifs
    · refine nodup_cons.mpr ⟨fun hm => ?_, htail⟩
      have hle := le_of_mem_addresses hm
      omega
    · exact htail

theorem disjoint_or_eq {u : Tile} {post' : List Tile} (h : pre ++ t :: post = us ++ u :: post') :
    total pre + t.size ≤ total us ∨ total us + u.size ≤ total pre ∨ total pre = total us ∧ t = u := by
  induction pre generalizing us with
  | nil =>
    cases us with
    | nil => exact .inr (.inr ⟨rfl, (List.cons.inj h).1⟩)
    | cons v us => obtain ⟨rfl, -⟩ := List.cons.inj h; rw [total_nil, total_cons]; omega
  | cons w pre ih =>
    cases us with
    | nil => obtain ⟨rfl, -⟩ := List.cons.inj h; rw [total_nil, total_cons]; omega
    | cons v us =>
      obtain ⟨rfl, h'⟩ := List.cons.inj h
      rw [total_cons, total_cons]
      rcases ih h' with hle | hle | ⟨he, rfl⟩
      · omega
      · omega
      · exact .inr (.inr ⟨by omega, rfl⟩)

/-! ## What happens in the middle -/

theorem Tiled.congr (h : Tiled m ex pred a ts)
    (hm : ∀ x ∈ addresses (fun _ => true) a ts, m.Agree m' x)
    (hex : ∀ x ∈ addresses (fun _ => true) a ts, ex = some x → ex' = some x) :
    Tiled m' ex' pred a ts := by
  induction ts generalizing pred a with
  | nil => trivial
  | cons t ts ih =>
    obtain ⟨⟨hsize, hbehind⟩, hrest⟩ := h
    have hagree := hm a mem_cons_self
    refine ⟨⟨hagree.size.trans hsize, fun hne => ?_⟩,
      ih hrest (fun x hx => hm x (mem_cons_of_mem a hx)) fun x hx => hex x (mem_cons_of_mem a hx)⟩
    have hb := hbehind fun he => hne (hex a mem_cons_self he)
    exact hb.congr hagree.prevUsed hagree.prevSize

theorem Tiled.splice (h : Tiled m ex pred a (pre ++ mid ++ t :: post))
    (hpos : ∀ u ∈ pre, 0 < u.size) (hpost : post ≠ [] → 0 < t.size)
    (htotal : total mid' = total mid)
    (hm : ∀ x, x < a + total pre ∨ a + total pre + total mid < x → m.Agree m' x)
    (hex : ∀ x, x < a + total pre ∨ a + total pre + total mid < x → ex = some x → ex' = some x)
    (hmid : Tiled m' ex' (final pred pre) (a + total pre) (mid' ++ [t])) :
    Tiled m' ex' pred a (pre ++ mid' ++ t :: post) := by
  rw [tiled_append, tiled_append, final_append, total_append] at h
  obtain ⟨⟨hpre, -⟩, -, hold⟩ := h
  rw [tiled_append] at hmid
  rw [tiled_append, tiled_append, final_append, total_append, htotal]
  have hout : ∀ x ∈ addresses (fun _ => true) (a + (total pre + total mid) + t.size) post,
      a + total pre + total mid < x := by
    intro x hx
    have hle := le_of_mem_addresses hx
    have hlt := hpost (by rintro rfl; cases hx)
    omega
  refine ⟨⟨hpre.congr (fun x hx => hm x (.inl (lt_of_mem_addresses hpos hx)))
    fun x hx => hex x (.inl (lt_of_mem_addresses hpos hx)), hmid.1⟩, ?_,
    hold.congr (fun x hx => hm x (.inr (hout x hx))) fun x hx => hex x (.inr (hout x hx))⟩
  have ht := hmid.2
  rw [tiled_singleton, htotal, Nat.add_assoc] at ht
  exact ht

/-! ## Areas -/

theorem spans_append :
    spans f a (ts ++ us) = spans f a ts ++ spans (opening f a ts) (a + total ts) us := by
  induction ts generalizing f a with
  | nil => rfl
  | cons t ts ih =>
    obtain ⟨n, k⟩ := t
    rw [total_cons, ← Nat.add_assoc]
    cases k with
    | gap e => exact congrArg (_ :: ·) ih
    | free => exact ih
    | used => exact ih

theorem opening_append : opening f a (ts ++ us) = opening (opening f a ts) (a + total ts) us := by
  induction ts generalizing f a with
  | nil => rfl
  | cons t ts ih =>
    obtain ⟨n, k⟩ := t
    rw [total_cons, ← Nat.add_assoc]
    cases k with
    | gap e | free => exact ih
    | used => exact ih

theorem spans_blocks (h : ∀ t ∈ ts, t.kind = .free ∨ t.kind = .used) :
    spans f a ts = [] ∧ opening f a ts = f := by
  induction ts generalizing a with
  | nil => exact ⟨rfl, rfl⟩
  | cons t ts ih =>
    obtain ⟨n, k⟩ := t
    have htail := ih (a := a + n) fun u hu => h u (mem_cons_of_mem _ hu)
    rcases h _ mem_cons_self with hk | hk
    · cases hk; exact htail
    · cases hk; exact htail

theorem blocks_of_spans_eq_nil (h : spans f a ts = []) :
    ∀ t ∈ ts, t.kind = .free ∨ t.kind = .used := by
  induction ts generalizing a with
  | nil => intro t ht; cases ht
  | cons t ts ih =>
    obtain ⟨n, k⟩ := t
    intro u hu
    cases k with
    | gap e => cases h
    | free =>
      rcases mem_cons.mp hu with rfl | hu
      · exact .inl rfl
      · exact ih h u hu
    | used =>
      rcases mem_cons.mp hu with rfl | hu
      · exact .inr rfl
      · exact ih h u hu

theorem spans_splice (hmid : ∀ t ∈ mid, t.kind = .free ∨ t.kind = .used)
    (hmid' : ∀ t ∈ mid', t.kind = .free ∨ t.kind = .used) (htotal : total mid' = total mid) :
    spans f a (pre ++ mid' ++ us) = spans f a (pre ++ mid ++ us) := by
  simp only [spans_append, opening_append, total_append, htotal, spans_blocks hmid,
    spans_blocks hmid']

theorem opening_le (h : f ≤ a) : opening f a ts ≤ a + total ts := by
  induction ts generalizing f a with
  | nil => exact h
  | cons t ts ih =>
    obtain ⟨n, k⟩ := t
    rw [total_cons, ← Nat.add_assoc]
    cases k with
    | gap e => exact ih (Nat.le_refl _)
    | free => exact ih (by omega)
    | used => exact ih (by omega)

theorem first_of_mem_spans {s : Span} {u : Tile} (hpos : ∀ t ∈ ts, 0 < t.size)
    (hs : s ∈ spans f a (ts ++ [u])) : s.first = f ∨ a < s.first := by
  induction ts generalizing f a with
  | nil =>
    obtain ⟨n, k⟩ := u
    cases k with
    | gap e => rw [mem_singleton.mp hs]; exact .inl rfl
    | free | used => cases hs
  | cons t ts ih =>
    obtain ⟨n, k⟩ := t
    have hn : 0 < n := hpos _ mem_cons_self
    have htail := fun g => ih (f := g) (a := a + n) fun t ht => hpos t (mem_cons_of_mem _ ht)
    cases k with
    | gap e =>
      rcases mem_cons.mp hs with rfl | hs
      · exact .inl rfl
      · have hg := htail (a + n) hs; omega
    | free | used => have hg := htail f hs; omega

theorem first_le_of_mem_spans {s : Span} (h : f ≤ a) (hs : s ∈ spans f a ts) :
    s.first ≤ a + total ts := by
  induction ts generalizing f a with
  | nil => cases hs
  | cons t ts ih =>
    obtain ⟨n, k⟩ := t
    rw [total_cons, ← Nat.add_assoc]
    cases k with
    | gap e =>
      rcases mem_cons.mp hs with rfl | hs
      · exact Nat.le_trans h (by omega)
      · exact ih (Nat.le_refl _) hs
    | free => exact ih (by omega) hs
    | used => exact ih (by omega) hs

theorem first_of_mem_spans_blocks {s : Span} {u : Tile} (h : f ≤ a)
    (hmid : ∀ t ∈ mid, t.kind = .free ∨ t.kind = .used) (hpos : ∀ t ∈ us, 0 < t.size)
    (hs : s ∈ spans f a (pre ++ mid ++ (us ++ [u]))) :
    s.first ≤ a + total pre ∨ a + total pre + total mid < s.first := by
  rw [spans_append, spans_append, opening_append, (spans_blocks hmid).1, (spans_blocks hmid).2,
    append_nil, total_append, ← Nat.add_assoc] at hs
  rcases mem_append.mp hs with hs | hs
  · exact .inl (first_le_of_mem_spans h hs)
  · rcases first_of_mem_spans hpos hs with hf | hlt
    · exact .inl (hf ▸ opening_le h)
    · exact .inr hlt

end BoundaryTag
