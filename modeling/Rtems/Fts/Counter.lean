import Rtems.Fts.Table

/-!
# Tolerance counters as a code of the pattern

A partition is a run of zeros followed by a run of ones. `tol_counter_set` counts the runs of the
pattern, partition by partition.

* `word`: the bits that the counters of some partitions stand for;
* **`tolCounterLoop_word`**: counters set from zero stand for the bits of the pattern;
* **`tolCounterSet_word_iff`**: so it is exactly if no run is too long for a `uint16_t`;
* **`tolCounterLoop_add`**: counters that are not zero before are added to.
-/

namespace Rtems

open Function TolCounter List Option Nat

variable {c' : TolCounter}

namespace TolCounter

def zero : TolCounter where
  tolCounterO _ := 0
  tolCounterA _ := 0

def block (c : TolCounter) (p : ℕ) : List Bool :=
  List.replicate (c.tolCounterO p) false ++ List.replicate (c.tolCounterA p) true

/-- The bits of `n` partitions from `p` on. -/
def word (c : TolCounter) : ℕ → ℕ → List Bool
  | _, 0 => []
  | p, n + 1 => c.block p ++ word c (p + 1) n

theorem word_succ_right (c : TolCounter) (p n : ℕ) :
    c.word p (n + 1) = c.word p n ++ c.block (p + n) := by
  induction n generalizing p with
  | zero => simp [word]
  | succ n ih => rw [word, ih (p + 1), word, append_assoc, add_right_comm, add_assoc]

theorem word_congr {c : TolCounter} {p n : ℕ}
    (h : ∀ q, p ≤ q → q < p + n → c.block q = c'.block q) : c.word p n = c'.word p n := by
  induction n generalizing p with
  | zero => rfl
  | succ n ih =>
    rw [word, word, h p le_rfl (by omega), ih fun q h1 h2 => h q (by omega) (by omega)]

/-- One more zero in partition `p`. -/
def addO (c : TolCounter) (p : ℕ) : TolCounter :=
  { c with tolCounterO := update c.tolCounterO p ((c.tolCounterO p + 1) % 2 ^ 16) }

/-- One more one in partition `p`. -/
def addA (c : TolCounter) (p : ℕ) : TolCounter :=
  { c with tolCounterA := update c.tolCounterA p ((c.tolCounterA p + 1) % 2 ^ 16) }

end TolCounter

namespace Fts

/-- The counters after the loop has seen the bits `done`. -/
structure Counted (done : List Bool) (lastBit : Bool) (partition : ℕ) (c : TolCounter) : Prop where
  word : c.word 0 (partition + 1) = done
  above : ∀ q, partition < q → c.tolCounterO q = 0 ∧ c.tolCounterA q = 0
  last : lastBit = true ↔ 0 < c.tolCounterA partition
  below : ∀ q, q < partition → 0 < c.tolCounterA q

/-- A row of equal bits that a `uint16_t` does not count. -/
def LongRun (l : List Bool) : Prop := ∃ b, replicate (2 ^ 16) b <:+: l

theorem lt_of_not_longRun {n : ℕ} {b : Bool} {l u v : List Bool} (h : ¬ LongRun l)
    (he : l = u ++ replicate n b ++ v) : n < 2 ^ 16 := by
  unfold LongRun at h
  generalize 2 ^ 16 = N at *
  by_contra hn
  refine h ⟨b, u, replicate (n - N) b ++ v, ?_⟩
  rw [he, append_assoc, append_assoc, ← append_assoc (replicate N b), replicate_append_replicate,
    Nat.add_sub_cancel' (by omega)]

theorem not_longRun_of_length {l : List Bool} (h : l.length < 2 ^ 16) : ¬ LongRun l := by
  rintro ⟨b, hb⟩
  have := hb.length_le
  rw [length_replicate] at this
  omega

variable {bits : List Bool}

namespace Counted

variable {done : List Bool} {lastBit : Bool} {partition : ℕ} {c : TolCounter}

theorem start : Counted [] false 0 TolCounter.zero where
  word := rfl
  above _ _ := ⟨rfl, rfl⟩
  last := by simp [TolCounter.zero]
  below _ h := absurd h (not_lt_zero _)

theorem split (h : Counted done lastBit partition c) :
    done = c.word 0 partition ++ replicate (c.tolCounterO partition) false ++
      replicate (c.tolCounterA partition) true := by
  rw [← h.word, word_succ_right, zero_add, TolCounter.block, append_assoc]

theorem no_ones (h : Counted done false partition c) : c.tolCounterA partition = 0 := by
  have := h.last; simp only [Bool.false_eq_true, false_iff, not_lt, le_zero] at this; exact this

theorem next (h : Counted done true partition c) : Counted done false (partition + 1) c := by
  obtain ⟨hO, hA⟩ := h.above (partition + 1) (by omega)
  refine ⟨?_, fun q hq => h.above q (by omega), by simp [hA], fun q hq => ?_⟩
  · rw [word_succ_right, h.word, zero_add, TolCounter.block, hO, hA]; simp
  · rcases Nat.lt_succ_iff_lt_or_eq.mp hq with hq | rfl
    · exact h.below q hq
    · exact h.last.mp rfl

theorem addO (h : Counted done false partition c) (hlt : c.tolCounterO partition + 1 < 2 ^ 16) :
    Counted (done ++ [false]) false partition (c.addO partition) := by
  have hA := h.no_ones
  have hw : (c.addO partition).word 0 partition = c.word 0 partition := word_congr fun q _ hq => by
      simp [TolCounter.block, TolCounter.addO, update_of_ne (by omega : q ≠ partition)]
  refine ⟨?_, fun q hq => ?_, by simp [TolCounter.addO, hA], fun q hq => h.below q hq⟩
  · rw [word_succ_right, hw, ← h.word, word_succ_right, zero_add, TolCounter.block,
      TolCounter.block]
    simp only [TolCounter.addO, update_self, hA, replicate_zero, append_nil]
    rw [mod_eq_of_lt hlt, replicate_succ', append_assoc]
  · obtain ⟨hO, hA⟩ := h.above q hq
    exact ⟨by simp [TolCounter.addO, update_of_ne (by omega : q ≠ partition), hO], hA⟩

theorem addA (h : Counted done lastBit partition c) (hlt : c.tolCounterA partition + 1 < 2 ^ 16) :
    Counted (done ++ [true]) true partition (c.addA partition) := by
  have hmod := mod_eq_of_lt hlt
  have hw : (c.addA partition).word 0 partition = c.word 0 partition := word_congr fun q _ hq => by
      simp [TolCounter.block, TolCounter.addA, update_of_ne (by omega : q ≠ partition)]
  refine ⟨?_, fun q hq => ?_, ?_, fun q hq => ?_⟩
  · rw [word_succ_right, hw, ← h.word, word_succ_right, zero_add, TolCounter.block,
      TolCounter.block]
    simp only [TolCounter.addA, update_self, hmod, replicate_succ', append_assoc]
  · obtain ⟨hO, hA⟩ := h.above q hq
    exact ⟨hO, by simp [TolCounter.addA, update_of_ne (by omega : q ≠ partition), hA]⟩
  · simp only [TolCounter.addA, update_self, hmod, succ_pos]
  · simp only [TolCounter.addA, update_of_ne (by omega : q ≠ partition)]; exact h.below q hq

/-- No counter wraps, and each partition but the first begins with a zero. -/
theorem loop {nr : ℕ} (h : Counted done lastBit partition c)
    (hz : ∀ q, 0 < q → q ≤ partition → 0 < c.tolCounterO q) (hrun : ¬ LongRun (done ++ bits))
    (hl : tolCounterLoop bits lastBit partition c = some (nr, c')) :
    (∃ b, Counted (done ++ bits) b nr c' ∧ b = (lastBit :: bits).getLast (by simp)) ∧
      ∀ q, 0 < q → q ≤ nr → 0 < c'.tolCounterO q := by
  induction bits generalizing done lastBit partition c with
  | nil => cases hl; exact ⟨⟨lastBit, by simpa using h, rfl⟩, hz⟩
  | cons bit bits ih =>
    obtain ⟨p, d, hc, hzd, hd⟩ : ∃ p d, Counted (done ++ [bit]) bit p d ∧
        (∀ q, 0 < q → q ≤ p → 0 < d.tolCounterO q) ∧
        tolCounterLoop bits bit p d = some (nr, c') := by
      cases bit with
      | false =>
        simp only [tolCounterLoop, ite_none_right_eq_some] at hl
        -- a zero behind a one is in the next partition
        obtain ⟨p, hc, hzp, hd⟩ : ∃ p, Counted done false p c ∧
            (∀ q, 0 < q → q < p → 0 < c.tolCounterO q) ∧
            tolCounterLoop bits false p (c.addO p) = some (nr, c') := by
          cases lastBit with
          | false => exact ⟨partition, h, fun q h0 hq => hz q h0 hq.le, hl.2⟩
          | true => exact ⟨partition + 1, h.next, fun q h0 hq => hz q h0 (by omega), hl.2⟩
        have hlt : c.tolCounterO p + 1 < 2 ^ 16 :=
          lt_of_not_longRun (b := false) (u := c.word 0 p) (v := bits) hrun <| by
            rw [hc.split, hc.no_ones, replicate_succ']
            simp
        refine ⟨p, c.addO p, hc.addO hlt, fun q h0 hq => ?_, hd⟩
        by_cases hqp : q = p
        · simp only [TolCounter.addO, hqp, update_self, mod_eq_of_lt hlt, succ_pos]
        · simpa [TolCounter.addO, hqp] using hzp q h0 (by omega)
      | true =>
        simp only [tolCounterLoop, ite_none_right_eq_some] at hl
        have hlt : c.tolCounterA partition + 1 < 2 ^ 16 :=
          lt_of_not_longRun (b := true) (u := c.word 0 partition ++
            replicate (c.tolCounterO partition) false) (v := bits) hrun <| by
            nth_rewrite 1 [h.split]
            rw [replicate_succ']
            simp
        exact ⟨partition, c.addA partition, h.addA hlt, hz, hl.2⟩
    obtain ⟨⟨b, hb, hlast⟩, hz'⟩ := ih hc hzd (by simpa using hrun) hd
    refine ⟨⟨b, by simpa using hb, ?_⟩, hz'⟩
    rw [hlast]
    exact (getLast_cons (cons_ne_nil bit bits)).symm

end Counted

theorem tolCounterLoop_word {nr : ℕ} {c : TolCounter}
    (h : tolCounterLoop bits false 0 TolCounter.zero = some (nr, c)) (hlen : bits.length < 2 ^ 16)
    (hlast : bits.getLast? = some true) :
    c.word 0 (nr + 1) = bits ∧ ∀ q, q ≤ nr → 0 < c.tolCounterA q := by
  obtain ⟨⟨b, hc, hb⟩, -⟩ :=
    Counted.start.loop (fun q h0 hq => by omega) (not_longRun_of_length hlen) h
  have hne : bits ≠ [] := fun e => by simp [e] at hlast
  have hbt : b = true := by
    rw [hb, getLast_cons hne]
    rw [getLast?_eq_some_getLast hne] at hlast
    exact Option.some.inj hlast
  refine ⟨by simpa using hc.word, fun q hq => ?_⟩
  rcases lt_or_eq_of_le hq with hq | rfl
  · exact hc.below q hq
  · exact hc.last.mp hbt

theorem not_infix_replicate_append {N n : ℕ} {b d : Bool} {l : List Bool} (hn : n < N)
    (hl : ¬ replicate N b <:+: l) (hd : l.head? ≠ some d) :
    ¬ replicate N b <:+: replicate n d ++ l := by
  induction n with
  | zero => exact hl
  | succ n ih =>
    rw [replicate_succ, cons_append, infix_cons_iff]
    rintro (⟨r, hr⟩ | h)
    · have h0 := congrArg (·[0]?) hr
      have hlast := congrArg (·[n + 1]?) hr
      simp only [getElem?_append_left (show 0 < (replicate N b).length by simp; omega),
        getElem?_append_left (show n + 1 < (replicate N b).length by simpa using hn),
        getElem?_replicate, getElem?_cons_zero, getElem?_cons_succ] at h0 hlast
      rw [if_pos (by omega)] at h0 hlast
      rw [getElem?_append_right (by simp), length_replicate, Nat.sub_self, ← head?_eq_getElem?,
        Option.some.inj h0] at hlast
      exact hd hlast.symm
    · exact ih (by omega) h

/-- Partitions that alternate are runs of the bits. -/
theorem not_longRun_word {c : TolCounter} (hb : ∀ q, c.tolCounterO q < 2 ^ 16 ∧
      c.tolCounterA q < 2 ^ 16) (n p : ℕ) (hO : ∀ q, p < q → q < p + n → 0 < c.tolCounterO q)
    (hA : ∀ q, p ≤ q → q + 1 < p + n → 0 < c.tolCounterA q) : ¬ LongRun (c.word p n) := by
  unfold LongRun
  generalize 2 ^ 16 = N at *
  rintro ⟨b, h⟩
  have hpos := (hb 0).1
  induction n generalizing p with
  | zero =>
    have := h.length_le
    simp [word] at this
    omega
  | succ n ih =>
    rw [word, TolCounter.block, append_assoc] at h
    refine not_infix_replicate_append (hb p).1 (not_infix_replicate_append (hb p).2 (fun h =>
      ih (p + 1) (fun q h1 h2 => hO q (by omega) (by omega))
        (fun q h1 h2 => hA q (by omega) (by omega)) h) ?_) ?_ h
    · cases n with
      | zero => simp [word]
      | succ n =>
        have := hO (p + 1) (by omega) (by omega)
        obtain ⟨o, ho⟩ := exists_eq_succ_of_ne_zero this.ne'
        simp [word, TolCounter.block, ho, replicate_succ]
    · cases n with
      | zero => cases c.tolCounterA p <;> simp [word, replicate_succ]
      | succ n =>
        obtain ⟨a, ha⟩ := exists_eq_succ_of_ne_zero (hA p (by omega) (by omega)).ne'
        simp [ha, replicate_succ]

/-! ## Counters that are not zero before -/

/-- `c` is `c₀` with the counts of `d` added, as `uint16_t`. -/
structure Added (c₀ d c : TolCounter) : Prop where
  o : ∀ q, c.tolCounterO q = (c₀.tolCounterO q + d.tolCounterO q) % 2 ^ 16
  a : ∀ q, c.tolCounterA q = (c₀.tolCounterA q + d.tolCounterA q) % 2 ^ 16

/-- Counters of type `uint16_t`. -/
def Bounded (c : TolCounter) : Prop :=
  ∀ q, c.tolCounterO q < 2 ^ 16 ∧ c.tolCounterA q < 2 ^ 16

section Add

variable {c₀ c d : TolCounter}

theorem Added.zero (h : Bounded c₀) : Added c₀ TolCounter.zero c₀ where
  o q := (mod_eq_of_lt (h q).1).symm
  a q := (mod_eq_of_lt (h q).2).symm

theorem Added.addO (h : Added c₀ d c) (p : ℕ) : Added c₀ (d.addO p) (c.addO p) where
  o q := by
    have := h.o q
    by_cases hq : q = p
    · subst hq; simp only [TolCounter.addO, update_self]; omega
    · simpa [TolCounter.addO, update_of_ne hq] using this
  a := h.a

theorem Added.addA (h : Added c₀ d c) (p : ℕ) : Added c₀ (d.addA p) (c.addA p) where
  o := h.o
  a q := by
    have := h.a q
    by_cases hq : q = p
    · subst hq; simp only [TolCounter.addA, update_self]; omega
    · simpa [TolCounter.addA, update_of_ne hq] using this

theorem tolCounterLoop_add {lastBit : Bool} {p nr : ℕ}
    (h : Added c₀ d c) (hl : tolCounterLoop bits lastBit p c = some (nr, c')) :
    ∃ d', tolCounterLoop bits lastBit p d = some (nr, d') ∧ Added c₀ d' c' := by
  induction bits generalizing lastBit p c d with
  | nil => cases hl; exact ⟨d, rfl, h⟩
  | cons bit bits ih =>
    cases bit with
    | false =>
      simp only [tolCounterLoop, ite_none_right_eq_some] at hl ⊢
      obtain ⟨d', hd', ha⟩ := ih (h.addO _) hl.2
      exact ⟨d', ⟨hl.1, hd'⟩, ha⟩
    | true =>
      simp only [tolCounterLoop, ite_none_right_eq_some] at hl ⊢
      obtain ⟨d', hd', ha⟩ := ih (h.addA _) hl.2
      exact ⟨d', ⟨hl.1, hd'⟩, ha⟩

theorem tolCounterLoop_fst (bits : List Bool) (lastBit : Bool) (p : ℕ) (c c' : TolCounter) :
    (tolCounterLoop bits lastBit p c).map Prod.fst =
      (tolCounterLoop bits lastBit p c').map Prod.fst := by
  induction bits generalizing lastBit p c c' with
  | nil => rfl
  | cons bit bits ih =>
    cases bit <;> simp only [tolCounterLoop] <;> split_ifs
    all_goals first | exact ih _ _ _ _ | rfl

theorem tolCounterLoop_lt {lastBit : Bool} {p nr : ℕ} {c : TolCounter}
    (hp : p < patternPartitions) (h : tolCounterLoop bits lastBit p c = some (nr, c')) :
    nr < patternPartitions := by
  induction bits generalizing lastBit p c with
  | nil => cases h; exact hp
  | cons bit bits ih =>
    cases bit <;>
    · simp only [tolCounterLoop, ite_none_right_eq_some] at h; exact ih h.1 h.2

/-- The places where a zero follows a one. -/
def falls (l : List Bool) : ℕ := (l.zip l.tail).count (true, false)

theorem falls_false_cons (l : List Bool) : falls (false :: l) = falls l := by
  cases l <;> simp [falls]

theorem tolCounterLoop_isSome_iff (bits : List Bool) (lastBit : Bool) {p : ℕ} (c : TolCounter)
    (hp : p < patternPartitions) : (tolCounterLoop bits lastBit p c).isSome ↔
      p + falls (lastBit :: bits) < patternPartitions := by
  induction bits generalizing lastBit p c with
  | nil => exact iff_of_true rfl hp
  | cons bit bits ih =>
    have hf : falls (lastBit :: bit :: bits) =
        falls (bit :: bits) + if lastBit = true ∧ bit = false then 1 else 0 := by
      simp [falls, count_cons]
    rw [hf]
    cases bit with
    | false =>
      rw [tolCounterLoop]
      generalize hq : (if lastBit = true then p + 1 else p) = q
      have hsum : p + (falls (false :: bits) + if lastBit = true ∧ false = false then 1 else 0) =
          q + falls (false :: bits) := by
        subst hq
        cases lastBit
        · simp
        · simp
          omega
      rw [hsum]
      split_ifs with hlt
      · exact ih _ _ hlt
      · exact iff_of_false (by simp) (by omega)
    | true => rw [tolCounterLoop, if_pos hp, ih _ _ hp, if_neg (by simp), add_zero]

theorem Bounded.zero : Bounded TolCounter.zero := fun _ => by simp [TolCounter.zero]

theorem Bounded.addO (h : Bounded c) (p : ℕ) : Bounded (c.addO p) := by
  intro q
  refine ⟨?_, (h q).2⟩
  by_cases hq : q = p
  · subst hq; simpa [TolCounter.addO] using mod_lt _ (by decide)
  · simpa [TolCounter.addO, update_of_ne hq] using (h q).1

theorem Bounded.addA (h : Bounded c) (p : ℕ) : Bounded (c.addA p) := by
  intro q
  refine ⟨(h q).1, ?_⟩
  by_cases hq : q = p
  · subst hq; simpa [TolCounter.addA] using mod_lt _ (by decide)
  · simpa [TolCounter.addA, update_of_ne hq] using (h q).2

theorem Bounded.loop {lastBit : Bool} {p nr : ℕ}
    (h : Bounded c) (hl : tolCounterLoop bits lastBit p c = some (nr, c')) : Bounded c' := by
  induction bits generalizing lastBit p c with
  | nil => cases hl; exact h
  | cons bit bits ih =>
    cases bit with
    | false => simp only [tolCounterLoop, ite_none_right_eq_some] at hl; exact ih (h.addO _) hl.2
    | true => simp only [tolCounterLoop, ite_none_right_eq_some] at hl; exact ih (h.addA _) hl.2

end Add

/-- **The counters are a run-length code of the pattern** iff it has no long run. -/
theorem tolCounterSet_word_iff {s s₁ : Fts} {i start stop maxbit : ℕ}
    (hz : s.tolCounterConst i = TolCounter.zero)
    (h : s.tolCounterSet i start stop maxbit = some s₁) :
    ((s₁.tolCounterConst i).word 0 (s₁.nrPartitions i + 1) = patternBits s.mem start stop maxbit ∧
      (∀ p, 0 < p → p ≤ s₁.nrPartitions i → 0 < (s₁.tolCounterConst i).tolCounterO p) ∧
      (∀ p, p < s₁.nrPartitions i → 0 < (s₁.tolCounterConst i).tolCounterA p) ∧
      ∃ s₂, s₁.tolcUpdate i = some s₂ ∧ s₂.partitionIndex i = 0 ∧ ∀ p, p ≤ s₁.nrPartitions i →
        (s₂.tolCounterTemp i).tolCounterO p = (s₁.tolCounterConst i).tolCounterO p ∧
        (s₂.tolCounterTemp i).tolCounterA p = (s₁.tolCounterConst i).tolCounterA p) ↔
      ¬ LongRun (patternBits s.mem start stop maxbit) := by
  simp only [tolCounterSet, hz, bind_eq_bind, bind_eq_some_iff, Prod.exists, Option.some.injEq] at h
  obtain ⟨nr, c, hl, rfl⟩ := h
  simp only [update_self]
  constructor
  · rintro ⟨hw, hO, hA, -⟩
    rw [← hw]
    exact not_longRun_word (Bounded.zero.loop hl) (nr + 1) 0 (fun q h1 h2 => hO q h1 (by omega))
      fun q _ h2 => hA q (by omega)
  · intro hrun
    obtain ⟨⟨b, hc, -⟩, hO⟩ := Counted.start.loop (fun q h0 hq => by omega) hrun hl
    refine ⟨hc.word, hO, hc.below, _, tolcUpdate_eq_some.mpr ⟨?_, rfl⟩, ?_, fun p hp => ?_⟩
    · simpa using tolCounterLoop_lt (by decide) hl
    · simp
    · simp [hp]

theorem tolCounterSet_word_byte : ∃ s₁,
    (boot (fun _ => 0x5a) (Objects.initial 0)).tolCounterSet 0 0 0 7 = some s₁ ∧
    (s₁.tolCounterConst 0).word 0 (s₁.nrPartitions 0 + 1) = patternBits (fun _ => 0x5a) 0 0 7 := by
  obtain ⟨s₁, h⟩ : ∃ s₁,
    (boot (fun _ => 0x5a) (Objects.initial 0)).tolCounterSet 0 0 0 7 = some s₁ := ⟨_, rfl⟩
  exact ⟨s₁, h, ((tolCounterSet_word_iff rfl h).mpr (not_longRun_of_length (by decide))).1⟩

theorem tolCounterLoop_zeros (n : ℕ) {c : TolCounter} (hc : c.tolCounterO 0 < 2 ^ 16) :
    tolCounterLoop (replicate n false) false 0 c =
    some (0, { c with tolCounterO := update c.tolCounterO 0 ((c.tolCounterO 0 + n) % 2 ^ 16) }) := by
  induction n generalizing c with
  | zero => rw [add_zero, mod_eq_of_lt hc, update_eq_self]; rfl
  | succ n ih =>
    have ih := ih (c := c.addO 0) (by simp only [TolCounter.addO, update_self]; omega)
    simp only [TolCounter.addO, update_self, update_idem, mod_add_mod] at ih
    rw [add_assoc, add_comm 1] at ih
    exact ih

/-- The zeros of `8192` bytes are counted as none. -/
theorem not_tolCounterSet_word : ∃ s₁,
    (boot (fun _ => 0) (Objects.initial 0)).tolCounterSet 0 0 8191 7 = some s₁ ∧
    (s₁.tolCounterConst 0).word 0 (s₁.nrPartitions 0 + 1) ≠ patternBits (fun _ => 0) 0 8191 7 := by
  generalize he : 8191 = e
  have hbits : patternBits (fun _ => 0) 0 e 7 = replicate (8 * e + 8) false := by
    rw [patternBits_eq_map _ (zero_le e) le_rfl, eq_replicate_iff]
    refine ⟨by simp, fun b hb => ?_⟩
    obtain ⟨x, -, rfl⟩ := mem_map.mp hb
    simp [memBit, bitAt]
  have hz := hbits ▸ tolCounterLoop_zeros (8 * e + 8) (c := TolCounter.zero) (by decide)
  refine ⟨_, congrArg (Option.bind · _) hz, fun hw => ?_⟩
  have := congrArg length hw
  rw [hbits, length_replicate, ← he] at this
  simp [word, TolCounter.block, TolCounter.zero] at this

/-- The counters of every slot are `uint16_t`. -/
def CountersOk (s : Fts) : Prop := ∀ i, Bounded (s.tolCounterConst i)

theorem Step.tolCounterConst {s s' : Fts} {c : Call} (h : Step s c s')
    (hreg : ∀ r, c ≠ .register r) : s'.tolCounterConst = s.tolCounterConst := by
  cases h with
  | registered hi hn hmk hp hc => exact absurd rfl (hreg _)
  | begun h hi hk | begunNext h hi ht hx ha hn => simp
  | begunReplenished h hi ht ha hn hu => rw [(tolcUpdate_eq_some.mp hu).2]; simp
  | _ => rfl

theorem Step.countersOk {s s' : Fts} {c : Call} (h : Step s c s') (hs : s.CountersOk) :
    s'.CountersOk := by
  by_cases hreg : ∃ r, c = .register r
  · obtain ⟨r, rfl⟩ := hreg
    cases h with
    | idle => exact hs
    | registered hi hn hmk hp hc =>
      rcases setCounters_eq_some.mp hc with ⟨-, rfl⟩ | ⟨-, nr, c, -, hl, rfl⟩
      · exact hs
      · intro j
        by_cases hj : j = s.list.taskListIndex
        · subst hj; simpa [attach, note, withCounters] using (hs _).loop hl
        · simpa [attach, note, withCounters, setMem, enter, hj] using hs j
  · intro j
    rw [h.tolCounterConst fun r e => hreg ⟨r, e⟩]
    exact hs j

theorem Reachable.countersOk {s : Fts} (h : s.Reachable) : s.CountersOk := by
  obtain ⟨mem, tasks, cs, hr⟩ := h
  exact PartialRun.run_invariant step (fun s c s' hs h => (step_cases h).countersOk hs)
    (fun _ => Bounded.zero) hr

end Fts

end Rtems
