import Rtems.Lib.Run

/-!
# Runs with results

A machine `out : σ → α → Option (β × σ)` takes an input and gives a result and the next state. What
the machine is for is said by a relation between the states of an abstract model.

* `results`: the results and the last state of a list of inputs;
* `Along`: every input meets a condition in the state it is taken in;
* `Traced`: an abstract model with these results;
* **`traced_of_step`**: if each step is one of the abstract model, then a run is.
-/

namespace Trace

variable {σ τ α β : Type}

/-- The results of a list of inputs, and the state after it. -/
def results (out : σ → α → Option (β × σ)) : σ → List α → Option (List β × σ)
  | s, [] => some ([], s)
  | s, a :: as => (out s a).bind fun r => (results out r.2 as).map fun r' => (r.1 :: r'.1, r'.2)

/-- Each input of the list meets a condition in the state it is taken in. -/
def Along (out : σ → α → Option (β × σ)) (G : σ → α → Prop) : σ → List α → Prop :=
  PartialRun.Along (fun s a => (out s a).map Prod.snd) G

variable {out : σ → α → Option (β × σ)} {G : σ → α → Prop} {s : σ} {as : List α}

def check (out : σ → α → Option (β × σ)) (g : σ → α → Bool) : σ → List α → Bool :=
  PartialRun.check (fun s a => (out s a).map Prod.snd) g

theorem along_of_check {g : σ → α → Bool}
    (hg : ∀ s a, g s a = true → G s a) (h : check out g s as = true) :
    Along out G s as :=
  PartialRun.along_of_check _ hg h

/-- The steps of an abstract model with some results. -/
inductive Traced (R : τ → α → β → τ → Prop) : τ → List α → List β → τ → Prop
  | nil {t : τ} : Traced R t [] [] t
  | cons {t t' t'' : τ} {a : α} {b : β} {as : List α} {bs : List β} (hstep : R t a b t')
      (hrun : Traced R t' as bs t'') : Traced R t (a :: as) (b :: bs) t''

theorem traced_of_step {R : τ → α → β → τ → Prop} {Rel : σ → τ → Prop}
    (hstep : ∀ s t a, Rel s t → G s a → ∃ b s' t', out s a = some (b, s') ∧ R t a b t' ∧ Rel s' t')
    {t : τ} (h : Rel s t) (hG : Along out G s as) :
    ∃ bs s' t', results out s as = some (bs, s') ∧ Traced R t as bs t' ∧ Rel s' t' := by
  induction as generalizing s t with
  | nil => exact ⟨[], s, t, rfl, .nil, h⟩
  | cons a as ih =>
    obtain ⟨b, s1, t1, hout, hR, h1⟩ := hstep s t a h hG.1
    obtain ⟨bs, s', t', hrun, htrace, h'⟩ := ih h1 (hG.2 s1 (congrArg _ hout))
    refine ⟨b :: bs, s', t', ?_, .cons hR htrace, h'⟩
    rw [results, hout, Option.bind_some, hrun]
    rfl

end Trace
