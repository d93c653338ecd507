import Rtems.Rfs.Bitmap

/-!
# The allocation of bits

The search walks over the map and the search map with separate variables. They fit together as long
as no search ends at the first bit of an element that the search map has in the middle of one of its
elements.

* `Valid`: the search map has no bit set for an element with a clear bit;
* **`mapAlloc_spec`**: an allocation finds a clear bit, if there is one;
* **`alloc_exact`**: any use of a bitmap, for seeds and sizes that keep the variables together;
  **`exists_lost_bits`**: what happens otherwise.
-/

namespace Rtems.Rfs

open PartialRun List Option Direction Element BitmapControl

/-! ## Elements -/

namespace Element

variable {x : Element} {o i : ℕ}

theorem getLsbD_bit (ho : o < 32) : (bit o).getLsbD i = decide (i = o) := by
  unfold bit
  rcases Nat.lt_trichotomy i o with h | rfl | h
  · simp [h, Nat.ne_of_lt h]
  · simp [ho]
  · have hne : i ≠ o := Nat.ne_of_gt h
    have hsub : i - o ≠ 0 := Nat.sub_ne_zero_of_lt h
    simp [hne, hsub]

@[simp]
theorem getLsbD_set (ho : o < 32) (hi : i < 32) :
    (x.set (bit o)).getLsbD i = (x.getLsbD i && decide (i ≠ o)) := by
  unfold set
  rw [BitVec.getLsbD_and, BitVec.getLsbD_not, getLsbD_bit ho]
  simp [hi]

@[simp]
theorem getLsbD_clear (ho : o < 32) :
    (x.clear (bit o)).getLsbD i = (x.getLsbD i || decide (i = o)) := by
  unfold clear
  rw [BitVec.getLsbD_or, getLsbD_bit ho]

theorem test_eq (ho : o < 32) : x.test o = !x.getLsbD o := by
  have hzero : x &&& bit o = 0 ↔ x.getLsbD o = false := by
    constructor
    · intro h
      have hbit := congrArg (BitVec.getLsbD · o) h
      simpa [BitVec.getLsbD_and, getLsbD_bit ho] using hbit
    · intro h
      apply BitVec.eq_of_getLsbD_eq
      intro i _
      rw [BitVec.getLsbD_and, getLsbD_bit ho]
      by_cases hi : i = o
      · subst hi; simp [h]
      · simp [hi]
  unfold test
  rw [Bool.eq_iff_iff, beq_iff_eq, hzero]
  simp

theorem agree_iff {y : Element} : x.agree y = true ↔ x = y := by
  unfold agree; rw [beq_iff_eq]; exact BitVec.xor_eq_zero_iff

end Element

/-! ## One bit of the map -/

def bitOf (elements : List Element) (b : ℤ) : Bool :=
  ((load elements (b / 32)).getD 0).getLsbD (b % 32).toNat

section BitOf

variable {xs : List Element} {x : Element} {b b' : ℤ}

theorem load_of_lt {n : ℤ} (hn : 0 ≤ n) (h : n < xs.length) : ∃ x, load xs n = some x := by
  unfold load; rw [if_pos hn]; exact ⟨_, getElem?_eq_getElem (by omega)⟩

theorem bitOf_eq (hx : load xs (b / 32) = some x) : bitOf xs b = x.getLsbD (b % 32).toNat := by
  unfold bitOf; rw [hx]; rfl

theorem bitOf_of_getElem? (hb : 0 ≤ b) (hx : xs[(b / 32).toNat]? = some x) :
    bitOf xs b = x.getLsbD (b % 32).toNat := by
  refine bitOf_eq ?_
  rw [load, if_pos (by omega), hx]

theorem toNat_mod_lt (b : ℤ) : (b % 32).toNat < 32 := by omega

theorem bitOf_set {n : ℤ} (hx : load xs n = some x) (y : Element) : bitOf (xs.set n.toNat y) b =
      if b / 32 = n then y.getLsbD (b % 32).toNat else bitOf xs b := by
  unfold load at hx
  split_ifs at hx with hn
  have hlt : n.toNat < xs.length := (List.getElem?_eq_some_iff.mp hx).1
  unfold bitOf load
  by_cases hb : b / 32 = n
  · rw [if_pos hb, if_pos (hb ▸ hn), hb, getElem?_set_self hlt]; rfl
  · rw [if_neg hb]
    by_cases hpos : 0 ≤ b / 32
    · have hne : n.toNat ≠ (b / 32).toNat := by omega
      rw [if_pos hpos, if_pos hpos, getElem?_set_ne hne]
    · rw [if_neg hpos, if_neg hpos]

theorem same_bit (hdiv : b' / 32 = b / 32) : (b' % 32).toNat = (b % 32).toNat ↔ b' = b := by
  omega

theorem bitOf_set_bit (hx : load xs (b / 32) = some x) :
    bitOf (xs.set (b / 32).toNat (x.set (bit (b % 32).toNat))) b' =
      (bitOf xs b' && decide (b' ≠ b)) := by
  rw [bitOf_set hx]
  split_ifs with hdiv
  · rw [getLsbD_set (toNat_mod_lt b) (toNat_mod_lt b'), bitOf_eq (hdiv ▸ hx)]
    simp only [ne_eq, same_bit hdiv]
  · have hne : b' ≠ b := by rintro rfl; exact hdiv rfl
    simp [hne]

theorem bitOf_clear_bit (hx : load xs (b / 32) = some x) :
    bitOf (xs.set (b / 32).toNat (x.clear (bit (b % 32).toNat))) b' =
      (bitOf xs b' || decide (b' = b)) := by
  rw [bitOf_set hx]
  split_ifs with hdiv
  · rw [getLsbD_clear (toNat_mod_lt b), bitOf_eq (hdiv ▸ hx)]; simp only [same_bit hdiv]
  · have hne : b' ≠ b := by rintro rfl; exact hdiv rfl
    simp [hne]

end BitOf

namespace BitmapControl

variable {c c' : BitmapControl} {b : ℤ}

def IsClear (c : BitmapControl) (b : ℤ) : Prop := bitOf c.map b = true

instance (b : ℤ) : Decidable (c.IsClear b) := inferInstanceAs (Decidable (_ = _))

/-- The tables have all bits; an element with a clear bit is not marked as full. -/
structure Valid (c : BitmapControl) : Prop where
  map : c.size ≤ 32 * c.map.length
  search : c.size ≤ 1024 * c.searchBits.length
  sound : ∀ b : ℤ, 0 ≤ b → b < c.size → c.IsClear b → bitOf c.searchBits (b / 32) = true

structure Changed (c c' : BitmapControl) (b : ℤ) (clear : Bool) : Prop where
  size : c'.size = c.size
  bit : c'.IsClear b ↔ clear = true
  others : ∀ b', b' ≠ b → (c'.IsClear b' ↔ c.IsClear b')

theorem Valid.load_map (h : c.Valid) (hb : 0 ≤ b) (hlt : b < c.size) :
    ∃ x, load c.map (b / 32) = some x := by
  have := h.map
  exact load_of_lt (by omega) (by omega)

theorem Valid.load_search (h : c.Valid) (hb : 0 ≤ b) (hlt : b < c.size) :
    ∃ x, load c.searchBits (b / 32 / 32) = some x := by
  have := h.search
  exact load_of_lt (by omega) (by omega)

theorem Valid.set_bit (h : c.Valid) {x y : Element} (hx : load c.map (b / 32) = some x)
    (hy : load c.searchBits (b / 32 / 32) = some y) (hsize : c'.size = c.size)
    (hmap : c'.map = c.map.set (b / 32).toNat (x.set (bit (b % 32).toNat)))
    (hsearch : c'.searchBits = if (x.set (bit (b % 32).toNat)).agree allSet
      then c.searchBits.set (b / 32 / 32).toNat (y.set (bit (b / 32 % 32).toNat))
      else c.searchBits) : c'.Valid ∧ Changed c c' b false := by
  have hbits : ∀ b', c'.IsClear b' ↔ c.IsClear b' ∧ b' ≠ b := by
    intro b'; unfold IsClear; rw [hmap, bitOf_set_bit hx, Bool.and_eq_true, decide_eq_true_eq]
  refine ⟨⟨?_, ?_, ?_⟩, hsize, ?_, ?_⟩
  · rw [hsize, hmap, length_set]; exact h.map
  · rw [hsize, hsearch]
    split_ifs
    · rw [length_set]; exact h.search
    · exact h.search
  · intro b' hb' hlt' hclear
    rw [hsize] at hlt'
    have hold := h.sound b' hb' hlt' ((hbits b').mp hclear).1
    rw [hsearch]
    split_ifs with hfull
    · rw [bitOf_set_bit hy, hold, Bool.true_and, decide_eq_true_eq]
      -- no bit of an element that is full is clear
      intro hdiv
      unfold IsClear at hclear
      rw [hmap, agree_iff.mp hfull, bitOf_set hx, if_pos hdiv] at hclear
      simp [allSet] at hclear
    · exact hold
  · simp [hbits]
  · intro b' hne; rw [hbits]; exact and_iff_left hne

section

variable (h : c.Valid) (hb : 0 ≤ b) (hlt : b < c.size)

include h hb hlt

theorem Valid.claim : ∃ c', c.claim (.start b) = some c' ∧ c'.Valid ∧ Changed c c' b false := by
  obtain ⟨x, hx⟩ := h.load_map hb hlt
  obtain ⟨y, hy⟩ := h.load_search hb hlt
  unfold BitmapControl.claim Cursor.start update
  rw [hx, hy]
  dsimp only [bind_some, map_some]
  split_ifs with hfull
  · exact ⟨_, rfl, h.set_bit hx hy rfl rfl (if_pos hfull).symm⟩
  · exact ⟨_, rfl, h.set_bit hx hy rfl rfl (if_neg hfull).symm⟩

theorem Valid.mapSet : ∃ c', c.mapSet b = some (.ok c') ∧ c'.Valid ∧ Changed c c' b false := by
  obtain ⟨x, hx⟩ := h.load_map hb hlt
  obtain ⟨y, hy⟩ := h.load_search hb hlt
  unfold BitmapControl.mapSet update
  rw [if_neg (by omega), hx, hy]
  dsimp only [bind_some, map_some]
  split_ifs with hfull
  · exact ⟨_, rfl, h.set_bit hx hy rfl rfl (if_pos hfull).symm⟩
  · exact ⟨_, rfl, h.set_bit hx hy rfl rfl (if_neg hfull).symm⟩

theorem Valid.mapClear : ∃ c', c.mapClear b = some (.ok c') ∧ c'.Valid ∧ Changed c c' b true := by
  obtain ⟨x, hx⟩ := h.load_map hb hlt
  obtain ⟨y, hy⟩ := h.load_search hb hlt
  unfold BitmapControl.mapClear update
  rw [if_neg (by omega), hx, hy]
  refine ⟨_, rfl, ⟨?_, ?_, ?_⟩, rfl, ?_, ?_⟩
  · rw [length_set]; exact h.map
  · rw [length_set]; exact h.search
  · intro b' hb' hlt' hclear
    change bitOf (c.map.set _ _) b' = true at hclear
    rw [bitOf_clear_bit hx, Bool.or_eq_true, decide_eq_true_eq] at hclear
    rw [bitOf_clear_bit hy, Bool.or_eq_true, decide_eq_true_eq]
    rcases hclear with hclear | rfl
    · exact .inl (h.sound b' hb' hlt' hclear)
    · exact .inr rfl
  · change bitOf (c.map.set _ _) b = true ↔ _; simp [bitOf_clear_bit hx]
  · intro b' hne
    simp [bitOf_clear_bit hx, hne, IsClear]

end

end BitmapControl

/-! ## The search -/

namespace Direction

variable {d : Direction} {t e b : ℤ}

def Between : Direction → ℤ → ℤ → ℤ → Prop
  | up, t, e, b => t ≤ b ∧ b ≤ e
  | down, t, e, b => e ≤ b ∧ b ≤ t

/-- The search ends at no first bit of an element, except of one of the search map. -/
def EndsInside : Direction → ℤ → Prop
  | up, e => e % 32 = 0 → e / 32 % 32 = 0
  | down, e => e % 32 = 31 → e / 32 % 32 = 31

/-- How many elements or bits of an element there are from an offset on. -/
def room : Direction → ℤ → ℤ
  | up, o => 32 - o
  | down, o => o + 1

theorem between_self (he : d.Reached e t) : d.Between t e t := by
  unfold Between Reached at *; cases d <;> exact ⟨by omega, by omega⟩

theorem Between.mono {t' : ℤ} (hb : d.Between t' e b) (ht : d.Reached t' t) : d.Between t e b := by
  unfold Between Reached at *; cases d <;> dsimp only at * <;> omega

theorem not_reached {t' : ℤ} (h : ¬ d.Reached t' t) : d.Reached t t' := by
  unfold Reached at *; cases d <;> dsimp only at * <;> omega

theorem reached_delta : d.Reached (t + d.delta) t := by
  unfold Reached delta; cases d <;> dsimp only <;> omega

theorem room_pos (h : 0 ≤ t ∧ t < 32) : 0 < d.room t ∧ d.room t < 33 := by
  unfold room; cases d <;> dsimp only <;> omega

end Direction

namespace Cursor

variable {d : Direction} {t : ℤ}

def nextBit (d : Direction) (t : ℤ) : ℤ := (t / 32 + d.delta) * 32 + d.entry

theorem testBit_nextElement : ((start t).nextElement d).testBit = nextBit d t := rfl

theorem nextElement_eq (h : 0 ≤ t / 32 % 32 + d.delta ∧ t / 32 % 32 + d.delta < 32) :
    (start t).nextElement d = start (nextBit d t) := by
  unfold nextElement start nextBit
  cases d with
  | up | down =>
    dsimp only [delta, entry] at h ⊢
    congr 1 <;> omega

theorem nextSearch_nextElement (h : ¬ (0 ≤ t / 32 % 32 + d.delta ∧ t / 32 % 32 + d.delta < 32)) :
    ((start t).nextElement d).nextSearch d = start (nextBit d t) := by
  unfold nextElement nextSearch start nextBit
  cases d with
  | up | down =>
    dsimp only [delta, entry] at h ⊢
    congr 1 <;> omega

/-- The first bit of the next element of the search map. -/
def nextSearchBit : Direction → ℤ → ℤ
  | .up, t => (t / 1024 + 1) * 1024
  | .down, t => t / 1024 * 1024 - 1

theorem testBit_skip : ((start t).skip d).testBit = nextSearchBit d t := by
  unfold skip start nextSearchBit; cases d <;> dsimp only <;> omega

theorem nextSearch_skip : ((start t).skip d).nextSearch d = start (nextSearchBit d t) := by
  unfold skip nextSearch start nextSearchBit
  cases d with
  | up | down =>
    dsimp only [delta, entry]
    congr 1 <;> omega

end Cursor

theorem mapLoop_spec {x : Element} {d : Direction} {e t : ℤ} {fuel : ℕ} (he : d.Reached e t)
    (hfuel : d.room (t % 32) < fuel) :
    (∃ b, mapLoop x d e fuel (t % 32) t = some (some (b % 32, b)) ∧ b / 32 = t / 32 ∧
      d.Between t e b ∧ x.getLsbD (b % 32).toNat = true) ∨
    (mapLoop x d e fuel (t % 32) t = some none ∧
      ∀ b, b / 32 = t / 32 → d.Between t e b → x.getLsbD (b % 32).toNat = false) := by
  have hpos := (d.room_pos (t := t % 32) (by omega)).1
  induction fuel generalizing t with
  | zero => omega
  | succ fuel ih =>
    rw [mapLoop, if_pos (by omega), test_eq (toNat_mod_lt t)]
    by_cases hclear : x.getLsbD (t % 32).toNat = true
    · left
      exact ⟨t, by simp [hclear], rfl, between_self he, hclear⟩
    rw [Bool.not_eq_true] at hclear
    rw [hclear, Bool.not_false, if_neg (by simp)]
    by_cases hte : t = e
    · right
      rw [if_pos hte]
      refine ⟨rfl, fun b hb hbetween => ?_⟩
      have hbt : b = t := by
        unfold Between at hbetween; cases d <;> dsimp only at hbetween <;> omega
      rw [hbt, hclear]
    rw [if_neg hte]
    -- the next bit is in the element, or the loop ends
    have hnext : ∀ b, b / 32 = t / 32 → d.Between t e b → b = t ∨ d.Between (t + d.delta) e b := by
      intro b _ hbetween
      unfold Between delta at *
      cases d <;> dsimp only at * <;> omega
    by_cases hin : (t + d.delta) / 32 = t / 32
    · have hoffset : t % 32 + d.delta = (t + d.delta) % 32 := by omega
      rw [hoffset]
      have hreached : d.Reached e (t + d.delta) := by
        unfold Reached delta at *; cases d <;> dsimp only at * <;> omega
      have hroom : d.room ((t + d.delta) % 32) < fuel := by
        unfold room delta at *
        cases d <;> dsimp only at * <;> omega
      rcases ih hreached hroom (d.room_pos (by omega)).1 with
        ⟨b, hb, hdiv, hbetween, hbit⟩ | ⟨hb, hnone⟩
      · left
        exact ⟨b, hb, hdiv.trans hin, hbetween.mono reached_delta, hbit⟩
      · right
        refine ⟨hb, fun b hdiv hbetween => ?_⟩
        rcases hnext b hdiv hbetween with rfl | hbetween
        · exact hclear
        · exact hnone b (hdiv.trans hin.symm) hbetween
    · right
      have hout : ¬ (0 ≤ t % 32 + d.delta ∧ t % 32 + d.delta < 32) := by
        unfold delta at *; cases d <;> dsimp only at * <;> omega
      constructor
      · cases fuel with
        | zero => omega
        | succ fuel => rw [mapLoop, if_neg hout]
      · intro b hdiv hbetween
        rcases hnext b hdiv hbetween with rfl | hbetween
        · exact hclear
        · exfalso
          unfold Between delta at *
          cases d <;> dsimp only at * <;> omega

namespace BitmapControl

variable {c c' : BitmapControl} {d : Direction} {t e : ℤ}

theorem Valid.not_isClear (h : c.Valid) {b : ℤ} (hb : 0 ≤ b) (hlt : b < c.size)
    (hset : bitOf c.searchBits (b / 32) = false) : ¬ c.IsClear b := by
  intro hclear
  rw [h.sound b hb hlt hclear] at hset
  cases hset

section Bounds

variable (h : c.Valid) (hbounds : ∀ b, d.Between t e b → 0 ≤ b ∧ b < c.size)

include h hbounds

theorem Valid.searchElement (ht : 0 ≤ t) (hlt : t < c.size) (he : d.Reached e t) :
    (∃ b, c.searchElement d e (.start t) = some (some (b % 32, b)) ∧ b / 32 = t / 32 ∧
      d.Between t e b ∧ c.IsClear b) ∨
    (c.searchElement d e (.start t) = some none ∧
      ∀ b, b / 32 = t / 32 → d.Between t e b → ¬ c.IsClear b) := by
  obtain ⟨x, hx⟩ := h.load_map ht hlt
  obtain ⟨y, hy⟩ := h.load_search ht hlt
  unfold BitmapControl.searchElement Cursor.start
  rw [hy, hx, bind_some, bind_some, test_eq (toNat_mod_lt _), ← bitOf_eq hy]
  by_cases hset : bitOf c.searchBits (t / 32) = true
  · rw [hset, Bool.not_true, if_neg Bool.false_ne_true]
    have hroom : d.room (t % 32) < 33 := (d.room_pos (by omega)).2
    have hclear : ∀ b, b / 32 = t / 32 → (c.IsClear b ↔ x.getLsbD (b % 32).toNat = true) := by
      intro b hdiv; unfold IsClear; rw [bitOf_eq (hdiv ▸ hx)]
    rcases mapLoop_spec he hroom with ⟨b, hb, hdiv, hbetween, hbit⟩ | ⟨hb, hnone⟩
    · exact .inl ⟨b, hb, hdiv, hbetween, (hclear b hdiv).mpr hbit⟩
    · refine .inr ⟨hb, fun b hdiv hbetween hbit => ?_⟩
      rw [hclear b hdiv, hnone b hdiv hbetween] at hbit
      cases hbit
  · rw [Bool.not_eq_true] at hset
    rw [hset, Bool.not_false, if_pos rfl]
    refine .inr ⟨rfl, fun b hdiv hbetween => ?_⟩
    obtain ⟨hb, hltb⟩ := hbounds b hbetween
    exact h.not_isClear hb hltb (hdiv ▸ hset)

theorem Valid.searchLoop (he : d.Reached e t) (hend : d.EndsInside e) {fuel : ℕ}
    (hfuel : d.room (t / 32 % 32) < fuel) :
    (∃ b, c.searchLoop d e fuel (.start t) = (c.claim (.start b)).map (.found b) ∧
      d.Between t e b ∧ c.IsClear b) ∨
    (∃ cur, c.searchLoop d e fuel (.start t) = some (.left cur) ∧
      ∃ t', cur.testBit = t' ∧ (∀ b, d.Between t e b → ¬ d.Between t' e b → ¬ c.IsClear b) ∧
      (d.Reached e t' → cur.nextSearch d = .start t' ∧ t' ≠ t ∧ d.Reached t' t)) := by
  have hpos := (d.room_pos (t := t / 32 % 32) (by omega)).1
  induction fuel generalizing t with
  | zero => omega
  | succ fuel ih =>
    obtain ⟨ht, hlt⟩ := hbounds t (between_self he)
    rw [searchLoop, if_pos (by unfold Cursor.start; dsimp only; omega)]
    rcases h.searchElement hbounds ht hlt he with ⟨b, hb, hdiv, hbetween, hclear⟩ | ⟨hb, hnone⟩
    · left
      refine ⟨b, ?_, hbetween, hclear⟩
      rw [hb, bind_some]
      unfold Cursor.start
      rw [hdiv]
    rw [hb, bind_some]
    rw [Cursor.testBit_nextElement]
    -- the bits of the search that are not in the next elements are in this one
    have hskipped : ∀ b, d.Between t e b → ¬ d.Between (Cursor.nextBit d t) e b →
        b / 32 = t / 32 := by
      intro b hbetween hnot
      unfold Between Cursor.nextBit delta entry at *
      cases d <;> dsimp only at * <;> omega
    have hnone' : ∀ b, d.Between t e b → ¬ d.Between (Cursor.nextBit d t) e b → ¬ c.IsClear b :=
      fun b hbetween hnot => hnone b (hskipped b hbetween hnot) hbetween
    have hmoved : Cursor.nextBit d t ≠ t ∧ d.Reached (Cursor.nextBit d t) t := by
      unfold Cursor.nextBit delta entry Reached; cases d <;> dsimp only <;> omega
    by_cases hreached : d.Reached (Cursor.nextBit d t) e
    · rw [if_pos hreached]
      refine .inr ⟨_, rfl, Cursor.nextBit d t, rfl, hnone', fun hgoes => ?_⟩
      refine ⟨Cursor.nextSearch_nextElement fun hin => ?_, hmoved⟩
      -- the search ends at the first bit of the next element
      unfold Cursor.nextBit EndsInside Reached delta entry at *
      cases d <;> dsimp only at * <;> omega
    rw [if_neg hreached]
    by_cases hin : 0 ≤ t / 32 % 32 + d.delta ∧ t / 32 % 32 + d.delta < 32
    · rw [Cursor.nextElement_eq hin]
      have hroom : d.room (Cursor.nextBit d t / 32 % 32) < fuel := by
        unfold room Cursor.nextBit delta entry at *; cases d <;> dsimp only at * <;> omega
      rcases ih (fun b hb' => hbounds b (hb'.mono hmoved.2)) (not_reached hreached) hroom
        (d.room_pos (by omega)).1 with
        ⟨b, hb', hbetween, hclear⟩ | ⟨cur, hcur, t', ht', hbits, hgoes⟩
      · exact .inl ⟨b, hb', hbetween.mono hmoved.2, hclear⟩
      · refine .inr ⟨cur, hcur, t', ht', ?_, ?_⟩
        · intro b hbetween hnot
          by_cases hlater : d.Between (Cursor.nextBit d t) e b
          · exact hbits b hlater hnot
          · exact hnone' b hbetween hlater
        · intro hreach
          obtain ⟨hstart, hne, hfrom⟩ := hgoes hreach
          refine ⟨hstart, ?_⟩
          unfold Reached at *
          cases d <;> dsimp only at * <;> omega
    · refine .inr ⟨(Cursor.start t).nextElement d, ?_, Cursor.nextBit d t, rfl, hnone', ?_⟩
      · cases fuel with
        | zero => omega
        | succ fuel => rw [searchLoop, if_neg]; exact hin
      · intro _; exact ⟨Cursor.nextSearch_nextElement hin, hmoved⟩

theorem Valid.skip (hfull : load c.searchBits (t / 32 / 32) = some allSet) (b : ℤ)
    (hbetween : d.Between t e b) (hnot : ¬ d.Between (Cursor.nextSearchBit d t) e b) :
    ¬ c.IsClear b := by
  have hdiv : b / 32 / 32 = t / 32 / 32 := by
    unfold Between Cursor.nextSearchBit at *; cases d <;> dsimp only at * <;> omega
  obtain ⟨hb, hlt⟩ := hbounds b hbetween
  refine h.not_isClear hb hlt ?_
  rw [bitOf_eq (hdiv ▸ hfull)]
  simp [allSet]

theorem Valid.round (he : d.Reached e t) (hend : d.EndsInside e) (fuel : ℕ) :
    (∃ b, c.scanLoop d e (fuel + 1) (.start t) =
        (c.claim (.start b)).map (fun c' => some (b, c')) ∧ d.Between t e b ∧ c.IsClear b) ∨
    (∃ t', (∀ b, d.Between t e b → ¬ d.Between t' e b → ¬ c.IsClear b) ∧
      ((¬ d.Reached e t' ∧ c.scanLoop d e (fuel + 1) (.start t) = some none) ∨
        (d.Reached e t' ∧ t' ≠ t ∧ d.Reached t' t ∧
          c.scanLoop d e (fuel + 1) (.start t) = c.scanLoop d e fuel (.start t')))) := by
  obtain ⟨ht, hlt⟩ := hbounds t (between_self he)
  obtain ⟨y, hy⟩ := h.load_search ht hlt
  rw [scanLoop, show (Cursor.start t).searchIndex = t / 32 / 32 from rfl, hy, bind_some]
  by_cases hfull : y = allSet
  · rw [if_neg (by simp [agree_iff.mpr hfull]), bind_some]
    dsimp only
    rw [Cursor.testBit_skip, Cursor.nextSearch_skip]
    refine .inr ⟨Cursor.nextSearchBit d t, h.skip hbounds (hfull ▸ hy), ?_⟩
    by_cases hgoes : d.Reached e (Cursor.nextSearchBit d t)
    · rw [if_pos hgoes]
      refine .inr ⟨hgoes, ?_, ?_, rfl⟩
      · unfold Cursor.nextSearchBit; cases d <;> dsimp only <;> omega
      · unfold Cursor.nextSearchBit Reached; cases d <;> dsimp only <;> omega
    · rw [if_neg hgoes]; exact .inl ⟨hgoes, rfl⟩
  · rw [if_pos (fun hagree => hfull (agree_iff.mp hagree))]
    rcases h.searchLoop hbounds he hend (d.room_pos (by omega)).2 with
      ⟨b, hb, hbetween, hclear⟩ | ⟨cur, hcur, t', rfl, hbits, hgoes⟩
    · left
      refine ⟨b, ?_, hbetween, hclear⟩
      rw [hb]
      cases c.claim (.start b) <;> rfl
    · rw [hcur, bind_some]
      refine .inr ⟨cur.testBit, hbits, ?_⟩
      dsimp only
      by_cases hreach : d.Reached e cur.testBit
      · obtain ⟨hstart, hne, hfrom⟩ := hgoes hreach
        rw [if_pos hreach, hstart]
        exact .inr ⟨hreach, hne, hfrom, rfl⟩
      · rw [if_neg hreach]; exact .inl ⟨hreach, rfl⟩

theorem Valid.scanLoop (he : d.Reached e t) (hend : d.EndsInside e) (fuel : ℕ)
    (hfuel : e - t < fuel ∧ t - e < fuel) :
    (∃ b, c.scanLoop d e fuel (.start t) = (c.claim (.start b)).map (fun c' => some (b, c')) ∧
      d.Between t e b ∧ c.IsClear b) ∨
    (c.scanLoop d e fuel (.start t) = some none ∧ ∀ b, d.Between t e b → ¬ c.IsClear b) := by
  induction fuel generalizing t with
  | zero => unfold Reached at he; cases d <;> dsimp only at he <;> omega
  | succ fuel ih =>
    rcases h.round hbounds he hend fuel with
      hfound | ⟨t', hbits, ⟨hpast, hscan⟩ | ⟨hreach, hne, hfrom, hscan⟩⟩
    · exact .inl hfound
    · refine .inr ⟨hscan, fun b hbetween => hbits b hbetween ?_⟩
      unfold Between Reached at *
      cases d <;> dsimp only at * <;> omega
    · rw [hscan]
      have hcloser : e - t' < fuel ∧ t' - e < fuel := by
        unfold Reached at *; cases d <;> dsimp only at * <;> omega
      rcases ih (fun b hb => hbounds b (hb.mono hfrom)) hreach hcloser with
        ⟨b, hb, hbetween, hclear⟩ | ⟨hb, hnone⟩
      · exact .inl ⟨b, hb, hbetween.mono hfrom, hclear⟩
      · refine .inr ⟨hb, fun b hbetween => ?_⟩
        by_cases hlater : d.Between t' e b
        · exact hnone b hlater
        · exact hbits b hbetween hlater

end Bounds

/-- **`rtems_rfs_search_map_for_clear_bit`** finds a clear bit of its window. -/
theorem Valid.searchMapForClearBit (h : c.Valid) (ht : 0 ≤ t) (hlt : t < c.size)
    {window : ℤ} (hwindow : 0 ≤ window) (hend : d.EndsInside (c.endBit d t window)) :
    (∃ b, c.searchMapForClearBit t window d =
        (c.claim (.start b)).map (fun c' => some (b, c')) ∧ 0 ≤ b ∧ b < c.size ∧ c.IsClear b) ∨
    (c.searchMapForClearBit t window d = some none ∧
      ∀ b, d.Between t (c.endBit d t window) b → ¬ c.IsClear b) := by
  have he : d.Reached (c.endBit d t window) t := by
    unfold Reached endBit delta; cases d <;> dsimp only <;> split_ifs <;> omega
  have hrange : 0 ≤ c.endBit d t window ∧ c.endBit d t window < c.size := by
    unfold endBit
    dsimp only
    split_ifs <;> omega
  have hbounds : ∀ b, d.Between t (c.endBit d t window) b → 0 ≤ b ∧ b < c.size := by
    intro b hbetween
    unfold Between at hbetween
    cases d <;> dsimp only at hbetween <;> omega
  rcases h.scanLoop hbounds he hend (c.size + 1) (by omega) with
    ⟨b, hb, hbetween, hclear⟩ | hnone
  · exact .inl ⟨b, hb, (hbounds b hbetween).1, (hbounds b hbetween).2, hclear⟩
  · exact .inr hnone

/-! ## The allocation -/

/-- No window ends at the first bit of an element, unless it is the first of one of the search map.
-/
def SeedFits (size : ℕ) (seed : ℤ) : Prop :=
  (seed % 32 = 0 → seed % 1024 = 0 ∨ size ≤ seed + searchWindow) ∧
    (seed % 32 = 31 → seed % 1024 = 1023 ∨ seed < searchWindow)

instance (size : ℕ) (seed : ℤ) : Decidable (SeedFits size seed) :=
  inferInstanceAs (Decidable (_ ∧ _))

/-- The last bit is not alone in its element, unless that is the first of one of the search map, and
the last element is not the last of such. -/
def SizeFits (size : ℕ) : Prop :=
  (size % 32 = 1 → size % 1024 = 1) ∧ bitmapElements size % 32 ≠ 0

instance (size : ℕ) : Decidable (SizeFits size) := inferInstanceAs (Decidable (_ ∧ _))

theorem Valid.searchUp (h : c.Valid) (hsize : SizeFits c.size) {seed : ℤ} (hseed : 0 ≤ seed)
    (hfits : SeedFits c.size seed) {upper : ℤ} (hupper : seed ≤ upper)
    (hmod : upper % 2048 = seed % 2048) :
    (∃ b, (if upper < c.size then c.searchMapForClearBit upper searchWindow .up else some none) =
        (c.claim (.start b)).map (fun c' => some (b, c')) ∧ 0 ≤ b ∧ b < c.size ∧ c.IsClear b) ∨
    ((if upper < c.size then c.searchMapForClearBit upper searchWindow .up else some none) =
        some none ∧ ∀ b : ℤ, b < c.size → upper ≤ b →
      b < (if upper < c.size then upper + searchWindow else upper) → ¬ c.IsClear b) := by
  by_cases hlt : upper < c.size
  · rw [if_pos hlt, if_pos hlt]
    have hend : EndsInside .up (c.endBit .up upper searchWindow) := by
      unfold EndsInside endBit delta
      unfold SizeFits at hsize
      unfold SeedFits searchWindow at hfits
      unfold searchWindow
      dsimp only
      split_ifs <;> omega
    rcases h.searchMapForClearBit (Int.le_trans hseed hupper) hlt (by decide) hend with
      hfound | ⟨hsearch, hnone⟩
    · exact .inl hfound
    · refine .inr ⟨hsearch, fun b hb hle hltb => hnone b ⟨hle, ?_⟩⟩
      unfold endBit delta
      dsimp only
      split_ifs <;> omega
  · rw [if_neg hlt, if_neg hlt]; exact .inr ⟨rfl, fun b hb hle hltb => by omega⟩

theorem Valid.searchDown (h : c.Valid) {seed : ℤ} (hlt : seed < c.size)
    (hfits : SeedFits c.size seed) {lower : ℤ} (hlower : lower ≤ seed)
    (hmod : lower % 2048 = seed % 2048) :
    (∃ b, (if 0 ≤ lower then c.searchMapForClearBit lower searchWindow .down else some none) =
        (c.claim (.start b)).map (fun c' => some (b, c')) ∧ 0 ≤ b ∧ b < c.size ∧ c.IsClear b) ∨
    ((if 0 ≤ lower then c.searchMapForClearBit lower searchWindow .down else some none) =
        some none ∧ ∀ b, 0 ≤ b → b ≤ lower →
      (if 0 ≤ lower then lower - searchWindow else lower) < b → ¬ c.IsClear b) := by
  by_cases hpos : 0 ≤ lower
  · rw [if_pos hpos, if_pos hpos]
    have hend : EndsInside .down (c.endBit .down lower searchWindow) := by
      unfold EndsInside endBit delta
      unfold SeedFits searchWindow at hfits
      unfold searchWindow
      dsimp only
      split_ifs <;> omega
    rcases h.searchMapForClearBit hpos (by omega) (by decide) hend with hfound | ⟨hsearch, hnone⟩
    · exact .inl hfound
    · refine .inr ⟨hsearch, fun b hb hle hltb => hnone b ⟨?_, hle⟩⟩
      unfold endBit delta
      dsimp only
      split_ifs <;> omega
  · rw [if_neg hpos, if_neg hpos]; exact .inr ⟨rfl, fun b hb hle hltb => by omega⟩

section

variable (h : c.Valid) (hsize : SizeFits c.size) {seed : ℤ} (hseed : 0 ≤ seed) (hlt : seed < c.size)
  (hfits : SeedFits c.size seed)

include h hsize hseed hlt hfits

theorem Valid.allocLoop (fuel : ℕ) {upper lower : ℤ}
    (hupper : seed ≤ upper) (hupperMod : upper % 2048 = seed % 2048) (hlower : lower ≤ seed)
    (hlowerMod : lower % 2048 = seed % 2048)
    (hbits : ∀ b, lower < b → b < upper → 0 ≤ b → b < c.size → ¬ c.IsClear b)
    (hfuel : c.size - upper < fuel ∧ lower + 1 < fuel ∧ 0 < fuel) :
    (∃ b, c.allocLoop searchWindow fuel upper lower =
        (c.claim (.start b)).map (fun c' => some (b, c')) ∧ 0 ≤ b ∧ b < c.size ∧ c.IsClear b) ∨
    (c.allocLoop searchWindow fuel upper lower = some none ∧
      ∀ b : ℤ, 0 ≤ b → b < c.size → ¬ c.IsClear b) := by
  induction fuel generalizing upper lower with
  | zero => omega
  | succ fuel ih =>
    rw [BitmapControl.allocLoop]
    by_cases hin : (0 ≤ upper ∧ upper < c.size) ∨ (0 ≤ lower ∧ lower < c.size)
    · rw [if_pos hin]
      rcases h.searchUp hsize hseed hfits hupper hupperMod with ⟨b, hb, hfound⟩ | ⟨hb, hup⟩
      · obtain ⟨c', hc', -⟩ := h.claim hfound.1 hfound.2.1
        refine .inl ⟨b, ?_, hfound⟩
        rw [hb, hc']
        rfl
      rw [hb, bind_some]
      rcases h.searchDown hlt hfits hlower hlowerMod with ⟨b, hb, hfound⟩ | ⟨hb, hdown⟩
      · obtain ⟨c', hc', -⟩ := h.claim hfound.1 hfound.2.1
        refine .inl ⟨b, ?_, hfound⟩
        rw [hb, hc']
        rfl
      rw [hb, bind_some]
      refine ih ?_ ?_ ?_ ?_ ?_ ?_
      · unfold searchWindow
        split_ifs <;> omega
      · unfold searchWindow
        split_ifs <;> omega
      · unfold searchWindow
        split_ifs <;> omega
      · unfold searchWindow
        split_ifs <;> omega
      · intro b hlowerb hupperb hpos hltb
        rcases Int.lt_or_le lower b with hlow | hlow
        · rcases Int.lt_or_le b upper with hhigh | hhigh
          · exact hbits b hlow hhigh hpos hltb
          · exact hup b hltb hhigh hupperb
        · exact hdown b hpos hlow hlowerb
      · unfold searchWindow
        split_ifs <;> omega
    · rw [if_neg hin]
      refine .inr ⟨rfl, fun b hpos hltb => hbits b ?_ ?_ hpos hltb⟩
      · omega
      · omega

/-- **`rtems_rfs_bitmap_map_alloc`** allocates a bit if one is clear. -/
theorem Valid.mapAlloc :
    (∃ b c', c.mapAlloc seed = some (some b, c') ∧ 0 ≤ b ∧ b < c.size ∧ c.IsClear b ∧ c'.Valid ∧
      Changed c c' b false) ∨
    (c.mapAlloc seed = some (none, c) ∧ ∀ b : ℤ, 0 ≤ b → b < c.size → ¬ c.IsClear b) := by
  unfold BitmapControl.mapAlloc
  rcases h.allocLoop hsize hseed hlt hfits (c.size + 1) (Int.le_refl seed) rfl
    (Int.le_refl seed) rfl (fun b h1 h2 => by omega) (by omega) with
    ⟨b, hb, hpos, hltb, hclear⟩ | ⟨hb, hnone⟩
  · obtain ⟨c', hc', hvalid, hchanged⟩ := h.claim hpos hltb
    rw [hb, hc']
    exact .inl ⟨b, c', rfl, hpos, hltb, hclear, hvalid, hchanged⟩
  · rw [hb]; exact .inr ⟨rfl, hnone⟩

end

/-! ## Opening a bitmap -/

theorem update_of_lt {xs : List Element} {n : ℕ} (hn : n < xs.length) {x : Element} :
    update xs n (fun _ => x) = some (xs.set n x) := by
  unfold update load
  rw [if_pos (Int.natCast_nonneg n), Int.toNat_natCast, getElem?_eq_getElem hn]
  rfl

theorem createLoop_spec (fuel size bit searchIndex mapIndex : ℕ)
    (hmap : c.size ≤ 32 * c.map.length) (helements : bitmapElements c.size % 32 ≠ 0)
    (hlength : c.searchBits.length = bitmapElements (bitmapElements c.size)) (hbit : bit < 32)
    (hindex : mapIndex = 32 * searchIndex + bit) (hsize : size = c.size - 32 * mapIndex)
    (hfuel : size ≤ fuel)
    (hclear : ∀ j ≤ searchIndex, c.searchBits[j]? = some allClear) :
    ∃ c', createLoop fuel size bit searchIndex mapIndex c = some c' ∧ c'.size = c.size ∧
      c'.map = c.map ∧ c'.searchBits.length = c.searchBits.length ∧
      ∀ j, 1024 * j < c.size → c'.searchBits[j]? = some allClear := by
  induction fuel generalizing size bit searchIndex mapIndex c with
  | zero =>
    rw [createLoop, if_pos (by omega)]
    exact ⟨c, rfl, rfl, rfl, rfl, fun j hj => hclear j (by omega)⟩
  | succ fuel ih =>
    rw [createLoop]
    by_cases hzero : size = 0
    · rw [if_pos hzero]; exact ⟨c, rfl, rfl, rfl, rfl, fun j hj => hclear j (by omega)⟩
    rw [if_neg hzero]
    obtain ⟨x, hx⟩ := load_of_lt (show (0 : ℤ) ≤ mapIndex by omega)
      (show (mapIndex : ℤ) < c.map.length by omega)
    rw [hx, bind_some]
    have hleft : size - (if size < 32 then size else 32) = c.size - 32 * (mapIndex + 1) := by
      split_ifs <;> omega
    have hless : size - (if size < 32 then size else 32) ≤ fuel := by split_ifs <;> omega
    by_cases hlast : bit = 31
    · have hin : searchIndex + 1 < c.searchBits.length := by
        rw [hlength]; unfold bitmapElements at helements ⊢; omega
      rw [if_pos hlast]
      have hupdate := update_of_lt hin (x := allClear)
      rw [Int.natCast_add, Int.natCast_one] at hupdate
      rw [hupdate, bind_some]
      obtain ⟨c', hc', hcsize, hcmap, hclen, hcclear⟩ := ih _ _ _ _ (c := { c with
          free := _, searchBits := c.searchBits.set (searchIndex + 1) allClear })
        hmap helements ((length_set).trans hlength) (by omega : 0 < 32)
        (by omega : mapIndex + 1 = 32 * (searchIndex + 1) + 0) hleft hless (by
          intro j hj
          by_cases hjs : j = searchIndex + 1
          · rw [hjs, getElem?_set_self hin]
          · rw [getElem?_set_ne (Ne.symm hjs)]
            exact hclear j (by omega))
      exact ⟨c', hc', hcsize, hcmap, hclen.trans length_set, hcclear⟩
    · rw [if_neg hlast]
      exact ih _ _ _ _ hmap helements hlength (by omega) (by omega)
        hleft hless hclear

end BitmapControl

theorem bitmapOpen_spec {size : ℕ} {map : List Element} (memory : ℕ → Element) (hpos : 1 ≤ size)
    (hmap : size ≤ 32 * map.length) (hfits : SizeFits size) :
    ∃ c, bitmapOpen size map memory = some c ∧ c.Valid ∧ c.size = size ∧ c.map = map := by
  unfold bitmapOpen createSearch
  have hlength : ((List.range (bitmapElements (bitmapElements size))).map memory).length =
      bitmapElements (bitmapElements size) := by
    rw [length_map, length_range]
  have hzero : 0 < ((List.range (bitmapElements (bitmapElements size))).map memory).length := by
    rw [hlength]; unfold bitmapElements; omega
  have hupdate := update_of_lt hzero (x := allClear)
  rw [Int.natCast_zero] at hupdate
  rw [hupdate, bind_some]
  obtain ⟨c, hc, hsize, hcmap, hclen, hclear⟩ := createLoop_spec
    (c := { size := size, map := map, dirty := false, free := 0
            searchBits := ((List.range (bitmapElements (bitmapElements size))).map memory).set 0
              allClear })
    size size 0 0 0 hmap hfits.2
    (length_set.trans hlength) (by decide) rfl rfl (Nat.le_refl _) (by
      intro j hj
      rw [Nat.le_zero.mp hj]
      exact getElem?_set_self hzero)
  refine ⟨c, hc, ⟨?_, ?_, ?_⟩, hsize, hcmap⟩
  · rw [hsize, hcmap]; exact hmap
  · rw [hsize, hclen, length_set, hlength]
    unfold bitmapElements
    dsimp only
    omega
  · intro b hb hlt _
    rw [hsize] at hlt
    dsimp only at hlt
    rw [bitOf_of_getElem? (by omega) (hclear _ (by dsimp only; omega)), allClear,
      BitVec.getLsbD_allOnes, decide_eq_true_eq]
    exact toNat_mod_lt _

/-! ## The use of a bitmap -/

inductive BitmapOperation
  | alloc (seed : ℤ)
  | set (bit : ℤ)
  | clear (bit : ℤ)
  deriving DecidableEq

namespace BitmapControl

variable {c c' : BitmapControl}

/-- One operation; one that fails leaves the bitmap as it is. -/
def step (c : BitmapControl) : BitmapOperation → Option BitmapControl
  | .alloc seed => (c.mapAlloc seed).map Prod.snd
  | .set bit => (c.mapSet bit).map fun r => r.toOption.getD c
  | .clear bit => (c.mapClear bit).map fun r => r.toOption.getD c

/-- It allocates a clear bit, if there is one, and changes no other. -/
def Allocates (c : BitmapControl) (seed : ℤ) : Prop :=
  ∃ r c', c.mapAlloc seed = some (r, c') ∧
    (r.isSome = true ↔ ∃ b : ℤ, 0 ≤ b ∧ b < c.size ∧ c.IsClear b) ∧
    (∀ b, r = some b → 0 ≤ b ∧ b < c.size ∧ c.IsClear b ∧ Changed c c' b false) ∧
    (r = none → c' = c)

/-- A seed in the map that keeps the windows inside the elements. -/
def Seeded (size : ℕ) : BitmapOperation → Prop
  | .alloc seed => 0 ≤ seed ∧ seed < size ∧ SeedFits size seed
  | .set _ | .clear _ => True

instance (size : ℕ) (op : BitmapOperation) : Decidable (Seeded size op) := by
  cases op <;> unfold Seeded <;> infer_instance

section

variable (h : c.Valid) (hsize : SizeFits c.size)

include h hsize

theorem Valid.allocates {seed : ℤ} (hseed : 0 ≤ seed)
    (hlt : seed < c.size) (hfits : SeedFits c.size seed) : c.Allocates seed := by
  rcases h.mapAlloc hsize hseed hlt hfits with
    ⟨b, c', hc', hb, hltb, hclear, -, hchanged⟩ | ⟨hc, hnone⟩
  · refine ⟨some b, c', hc', iff_of_true rfl ⟨b, hb, hltb, hclear⟩, ?_, ?_⟩
    · rintro b' hb'; cases hb'; exact ⟨hb, hltb, hclear, hchanged⟩
    · intro hsome; cases hsome
  · refine ⟨none, c, hc, iff_of_false Bool.false_ne_true ?_, ?_, fun _ => rfl⟩
    · rintro ⟨b, hb, hltb, hclear⟩; exact hnone b hb hltb hclear
    · intro b hb; cases hb

/-- **One operation** on a valid bitmap has a result, and this is valid. -/
theorem Valid.step {op : BitmapOperation}
    (hop : Seeded c.size op) : ∃ c', c.step op = some c' ∧ c'.Valid ∧ c'.size = c.size := by
  cases op with
  | alloc seed =>
    obtain ⟨hseed, hlt, hfits⟩ := hop
    rw [BitmapControl.step]
    rcases h.mapAlloc hsize hseed hlt hfits with
      ⟨b, c', hc', -, -, -, hvalid, hchanged⟩ | ⟨hc, -⟩
    · exact ⟨c', by rw [hc']; rfl, hvalid, hchanged.size⟩
    · exact ⟨c, by rw [hc]; rfl, h, rfl⟩
  | set bit =>
    rw [BitmapControl.step]
    by_cases hbit : bit < 0 ∨ c.size ≤ bit
    · refine ⟨c, ?_, h, rfl⟩
      unfold BitmapControl.mapSet
      rw [if_pos hbit]
      rfl
    · obtain ⟨c', hc', hvalid, hchanged⟩ := h.mapSet (b := bit) (by omega) (by omega)
      exact ⟨c', by rw [hc']; rfl, hvalid, hchanged.size⟩
  | clear bit =>
    rw [BitmapControl.step]
    by_cases hbit : bit < 0 ∨ c.size ≤ bit
    · refine ⟨c, ?_, h, rfl⟩
      unfold BitmapControl.mapClear
      rw [if_pos hbit]
      rfl
    · obtain ⟨c', hc', hvalid, hchanged⟩ := h.mapClear (b := bit) (by omega) (by omega)
      exact ⟨c', by rw [hc']; rfl, hvalid, hchanged.size⟩

theorem Valid.run {ops : List BitmapOperation} (hops : ∀ op ∈ ops, Seeded c.size op) :
    ∃ c', run BitmapControl.step c ops = some c' ∧ c'.Valid ∧ c'.size = c.size := by
  induction ops generalizing c with
  | nil => exact ⟨c, rfl, h, rfl⟩
  | cons op ops ih =>
    obtain ⟨c1, hstep, hvalid, hsame⟩ := h.step hsize (hops op mem_cons_self)
    rw [← hsame] at hsize hops
    obtain ⟨c', hrun, hvalid', hsame'⟩ :=
      ih hvalid hsize fun op' hop' => hops op' (mem_cons_of_mem op hop')
    refine ⟨c', ?_, hvalid', hsame'.trans hsame⟩
    rw [run_cons, hstep]
    exact hrun

end

/-- **The allocation of bits is sound and complete** for sizes and seeds that fit. -/
theorem alloc_exact (size : ℕ) (map : List Element) (memory : ℕ → Element)
    (ops : List BitmapOperation) (hpos : 1 ≤ size) (hmap : size ≤ 32 * map.length)
    (hsize : SizeFits size) (hops : ∀ op ∈ ops, Seeded size op) :
    ∃ c₀ c, bitmapOpen size map memory = some c₀ ∧ c₀.map = map ∧
      run step c₀ ops = some c ∧ c.size = size ∧
      (∀ b : ℤ, 0 ≤ b → b < size → c.IsClear b → bitOf c.searchBits (b / 32) = true) ∧
      (∀ seed : ℤ, 0 ≤ seed → seed < size → SeedFits size seed → c.Allocates seed) ∧
      (∀ b : ℤ, 0 ≤ b → b < size → ∃ c', c.mapSet b = some (.ok c') ∧ Changed c c' b false) ∧
      (∀ b : ℤ, 0 ≤ b → b < size → ∃ c', c.mapClear b = some (.ok c') ∧ Changed c c' b true) := by
  obtain ⟨c₀, hopen, hvalid₀, hsize₀, hmap₀⟩ := bitmapOpen_spec memory hpos hmap hsize
  rw [← hsize₀] at hsize hops
  obtain ⟨c, hrun, hvalid, hsame⟩ := hvalid₀.run hsize hops
  rw [← hsame] at hsize
  have hsame₀ : c.size = size := hsame.trans hsize₀
  subst hsame₀
  refine ⟨c₀, c, hopen, hmap₀, hrun, rfl, hvalid.sound, ?_, ?_, ?_⟩
  · intro seed hseed hlt hfits; exact hvalid.allocates hsize hseed hlt hfits
  · intro b hb hlt
    obtain ⟨c', hc', -, hchanged⟩ := hvalid.mapSet hb hlt
    exact ⟨c', hc', hchanged⟩
  · intro b hb hlt
    obtain ⟨c', hc', -, hchanged⟩ := hvalid.mapClear hb hlt
    exact ⟨c', hc', hchanged⟩

theorem alloc_exact_forty : ∃ c₀ c : BitmapControl,
    bitmapOpen 40 [0xfffffffe, 0xffffffff] (fun _ => 0) = some c₀ ∧
    run step c₀ [.alloc 5, .set 33, .clear 0] = some c ∧ c.Allocates 39 := by
  obtain ⟨c₀, c, hopen, -, hrun, -, -, halloc, -⟩ := alloc_exact 40 [0xfffffffe, 0xffffffff]
    (fun _ => 0) [.alloc 5, .set 33, .clear 0] (by decide) (by decide) (by decide) (by decide)
  exact ⟨c₀, c, hopen, hrun, halloc 39 (by decide) (by decide) (by decide)⟩

/-- A map of which only bit 3040 and the last 32 bits are clear. -/
def almostFull : List Element := List.replicate 95 0 ++ [1, 0xffffffff]

/-- **The wrong element is marked as full**: the last 32 clear bits are lost. -/
theorem exists_lost_bits : ∃ c₀ c c' : BitmapControl,
    bitmapOpen 3104 almostFull (fun _ => 0) = some c₀ ∧
    c₀.mapAlloc 992 = some (some 3040, c) ∧ c.IsClear 3072 ∧
    bitOf c.searchBits (3072 / 32) = false ∧ c.mapAlloc 0 = some (none, c') := by
  obtain ⟨c₀, hopen, h⟩ := bind_eq_some_iff.mp
    (show ((bitmapOpen 3104 almostFull fun _ => 0).bind fun c₀ =>
      (c₀.mapAlloc 992).bind fun r => (r.2.mapAlloc 0).map fun r' =>
        decide (r.1 = some 3040 ∧ r.2.IsClear 3072 ∧
          bitOf r.2.searchBits (3072 / 32) = false ∧ r'.1 = none)) = some true by decide +kernel)
  obtain ⟨⟨r, c⟩, hfirst, h⟩ := bind_eq_some_iff.mp h
  obtain ⟨⟨r', c'⟩, hsecond, h⟩ := map_eq_some_iff.mp h
  obtain ⟨rfl, hclear, hset, rfl⟩ := of_decide_eq_true h
  exact ⟨c₀, c, c', hopen, hfirst, hclear, hset, hsecond⟩

end BitmapControl

end Rtems.Rfs
