import Mathlib.Algebra.GroupWithZero.Nat
import Mathlib.Logic.Basic

/-!
# Runs of a partial step function

A step function `step : σ → α → Option σ` takes an action and gives the next state, or `none` when
the action is not enabled or its effect is undefined.

* `run`: perform a list of actions, in order;
* `Along`: every action of the list meets a condition in the state it is taken in;
* **`run_invariant`**, **`run_invariant_along`**: what one step keeps, a run keeps;
* **`run_total`**: a run goes to its end if every step is defined;
* **`kept_iff`**: the runs in which every state has a property;
* `outputs`, **`outputs_eq`**: the outputs of a machine, and when two states have the same.
-/

namespace PartialRun

variable {σ α : Type} (step : σ → α → Option σ)

/-- The state after the actions of a list, taken in order. -/
def run : σ → List α → Option σ
  | s, [] => some s
  | s, a :: as => (step s a).bind fun s' => run s' as

@[simp] theorem run_nil (s : σ) : run step s [] = some s := rfl

theorem run_cons (s : σ) (a : α) (as : List α) :
    run step s (a :: as) = (step s a).bind fun s' => run step s' as := rfl

variable {s s' : σ} {as : List α} {G : σ → α → Prop} {P : σ → Prop} {β : Type}

theorem run_cons_eq_some {a : α} :
    run step s (a :: as) = some s' ↔ ∃ s1, step s a = some s1 ∧ run step s1 as = some s' := by
  rw [run_cons, Option.bind_eq_some_iff]

theorem run_singleton {a : α} (h : step s a = some s') : run step s [a] = some s' :=
  (run_cons_eq_some step).mpr ⟨s', h, rfl⟩

theorem run_append (s : σ) (as bs : List α) :
    run step s (as ++ bs) = (run step s as).bind fun s' => run step s' bs := by
  induction as generalizing s with
  | nil => rfl
  | cons a as ih =>
    rw [List.cons_append, run_cons, run_cons, Option.bind_assoc]
    congr 1
    funext s'
    exact ih s'

theorem run_append_eq_some {bs : List α} : run step s (as ++ bs) = some s' ↔
      ∃ s1, run step s as = some s1 ∧ run step s1 bs = some s' := by
  rw [run_append, Option.bind_eq_some_iff]

/-- Every action of the list meets `G` in the state it is taken in. -/
def Along (G : σ → α → Prop) : σ → List α → Prop
  | _, [] => True
  | s, a :: as => G s a ∧ ∀ s', step s a = some s' → Along G s' as

theorem along_append {bs : List α}
    (h : run step s as = some s') (h1 : Along step G s as) (h2 : Along step G s' bs) :
    Along step G s (as ++ bs) := by
  induction as generalizing s with
  | nil => cases h; exact h2
  | cons a as ih =>
    obtain ⟨s1, hs, hr⟩ := (run_cons_eq_some step).mp h
    refine ⟨h1.1, fun s2 hs2 => ?_⟩
    rw [hs] at hs2
    cases hs2
    exact ih hr (h1.2 _ hs)

theorem along_of_forall (h : ∀ a ∈ as, ∀ s, G s a) (s : σ) : Along step G s as := by
  induction as generalizing s with
  | nil => exact trivial
  | cons a as ih =>
    exact ⟨h a List.mem_cons_self s,
      fun s' _ => ih (fun b hb => h b (List.mem_cons_of_mem a hb)) s'⟩

/-- A test of every action in the state it is taken in. -/
def check (g : σ → α → Bool) : σ → List α → Bool
  | _, [] => true
  | s, a :: as => g s a && (step s a).all fun s' => check g s' as

theorem along_of_check {g : σ → α → Bool} (hg : ∀ s a, g s a = true → G s a)
    (h : check step g s as = true) : Along step G s as := by
  induction as generalizing s with
  | nil => exact trivial
  | cons a as ih =>
    rw [check, Bool.and_eq_true] at h
    refine ⟨hg s a h.1, fun s' hs => ih ?_⟩
    have hall := h.2
    rw [hs] at hall
    exact hall

/-- **What a step under `G` keeps, a run along `G` keeps.** -/
theorem run_invariant_along (hstep : ∀ s a s', P s → G s a → step s a = some s' → P s')
    (hs : P s) (hG : Along step G s as) (h : run step s as = some s') : P s' := by
  induction as generalizing s with
  | nil => cases h; exact hs
  | cons a as ih =>
    obtain ⟨s1, h1, hr⟩ := (run_cons_eq_some step).mp h
    exact ih (hstep s a s1 hs hG.1 h1) (hG.2 s1 h1) hr

/-- **What a step keeps, a run keeps.** -/
theorem run_invariant (hstep : ∀ s a s', P s → step s a = some s' → P s') (hs : P s)
    (h : run step s as = some s') : P s' := by
  induction as generalizing s with
  | nil => cases h; exact hs
  | cons a as ih =>
    obtain ⟨s1, h1, hr⟩ := (run_cons_eq_some step).mp h; exact ih (hstep s a s1 hs h1) hr

theorem run_total (hstep : ∀ s a, P s → ∃ s', step s a = some s' ∧ P s')
    (as : List α) (hs : P s) : ∃ s', run step s as = some s' ∧ P s' := by
  induction as generalizing s with
  | nil => exact ⟨s, rfl, hs⟩
  | cons a as ih => obtain ⟨s1, h1, hs1⟩ := hstep s a hs; rw [run_cons, h1]; exact ih hs1

theorem kept_iff (hG : ∀ s a, P s → ((∃ s', step s a = some s' ∧ P s') ↔ G s a)) (hs : P s)
    (as : List α) :
    (∀ n, ∃ s', run step s (as.take n) = some s' ∧ P s') ↔ Along step G s as := by
  induction as generalizing s with
  | nil => exact ⟨fun _ => trivial, fun _ n => ⟨s, by rw [List.take_nil, run_nil], hs⟩⟩
  | cons a as ih =>
    constructor
    · intro h
      obtain ⟨s1, hr, h1⟩ := h 1
      obtain ⟨_, hs1, ⟨⟩⟩ := (run_cons_eq_some step).mp hr
      refine ⟨(hG s a hs).mp ⟨s1, hs1, h1⟩, fun s' hs' => (ih ?_).mp fun n => ?_⟩
      · exact Option.some.inj (hs1.symm.trans hs') ▸ h1
      · have hn := h (n + 1)
        rwa [List.take_succ_cons, run_cons, hs'] at hn
    · rintro ⟨ha, has⟩ (_ | n)
      · exact ⟨s, rfl, hs⟩
      · obtain ⟨s1, hs1, h1⟩ := (hG s a hs).mpr ha
        rw [List.take_succ_cons, run_cons, hs1]
        exact (ih h1).mpr (has s1 hs1) n

/-! ## Evaluation -/

theorem exists_of_any {o : Option σ} {P : σ → Prop} [DecidablePred P]
    (h : o.any (fun s => decide (P s)) = true) : ∃ s, o = some s ∧ P s := by
  obtain ⟨s, hs, hP⟩ := (Option.any_eq_true _ _).mp h
  exact ⟨s, hs, of_decide_eq_true hP⟩

theorem exists_imp_of_any {o : Option σ} {P Q : σ → Prop} [DecidablePred P]
    (h : o.any (fun s => decide (P s)) = true) (hQ : ∀ s, o = some s → P s → Q s) :
    ∃ s, o = some s ∧ Q s := by
  obtain ⟨s, hs, hP⟩ := exists_of_any h
  exact ⟨s, hs, hQ s hs hP⟩

theorem along_of_decide [∀ s a, Decidable (G s a)]
    (h : check step (fun s a => decide (G s a)) s as = true) : Along step G s as :=
  along_of_check step (fun _ _ => of_decide_eq_true) h

/-- A run that evaluates each state before the next action. -/
def runForced (force : σ → (σ → Option σ) → Option σ) : σ → List α → Option σ
  | s, [] => some s
  | s, a :: as => (step s a).bind fun s' => force s' fun s' => runForced force s' as

theorem runForced_eq {force : σ → (σ → Option σ) → Option σ} (hforce : ∀ s k, force s k = k s)
    (s : σ) (as : List α) : runForced step force s as = run step s as := by
  induction as generalizing s with
  | nil => rfl
  | cons a as ih =>
    rw [runForced, run_cons]
    congr 1
    funext s'
    rw [hforce, ih]

def forceNat {β : Type} (k : ℕ → β) : ℕ → β
  | 0 => k 0
  | n + 1 => k (n + 1)

theorem forceNat_eq (k : ℕ → β) (n : ℕ) : forceNat k n = k n := by
  cases n <;> rfl

/-! ## Outputs -/

theorem rel_map {α α' β' : Type} {R : α → α' → Prop} {S : β → β' → Prop} {f : α → β} {g : α' → β'}
    {a : Option α} {b : Option α'} (h : Option.Rel R a b) (hfg : ∀ x y, R x y → S (f x) (g y)) :
    Option.Rel S (a.map f) (b.map g) := by
  cases h with
  | some h => exact .some (hfg _ _ h)
  | none => exact .none

/-- The outputs of a machine along a list of inputs. -/
def outputs {σ α β : Type} (out : σ → α → Option (β × σ)) : σ → List α → Option (List β)
  | _, [] => some []
  | s, a :: as => (out s a).bind fun r => (outputs out r.2 as).map (r.1 :: ·)

theorem outputs_eq {σ τ α : Type} {out : σ → α → Option (β × σ)} {out' : τ → α → Option (β × τ)}
    {R : σ → τ → Prop}
    (hR : ∀ s t a, R s t → Option.Rel (fun r r' => r.1 = r'.1 ∧ R r.2 r'.2) (out s a) (out' t a))
    {s : σ} {t : τ} (h : R s t) (as : List α) : outputs out s as = outputs out' t as := by
  induction as generalizing s t with
  | nil => rfl
  | cons a as ih =>
    have hrel := hR s t a h
    rw [outputs, outputs]
    cases ho : out s a with
    | none =>
      rw [ho] at hrel
      generalize out' t a = o' at hrel ⊢
      cases hrel
      rfl
    | some r =>
      rw [ho] at hrel
      generalize out' t a = o' at hrel ⊢
      cases hrel with
      | some hr => rw [Option.bind_some, Option.bind_some, ih hr.2, hr.1]

end PartialRun
