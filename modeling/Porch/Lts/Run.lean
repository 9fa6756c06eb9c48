import Mathlib.Logic.Function.Basic

/- Runs of a system that takes one event after another. `step s e` is the state after
   the event `e`, or none when `e` cannot happen in `s`. Every interleaving of several
   parties is one list of events. -/
namespace Lts

variable {σ ε : Type}

def run (step : σ → ε → Option σ) : σ → List ε → Option σ
  | s, [] => some s
  | s, e :: es => (step s e).bind fun s' => run step s' es

/-- Every event of the list meets the condition in the state it finds. -/
def Along (step : σ → ε → Option σ) (ok : σ → ε → Prop) : σ → List ε → Prop
  | _, [] => True
  | s, e :: es => ok s e ∧ ∀ s', step s e = some s' → Along step ok s' es

instance decidableAlong (step : σ → ε → Option σ) (ok : σ → ε → Prop)
    [∀ s e, Decidable (ok s e)] : ∀ s es, Decidable (Along step ok s es)
  | _, [] => isTrue trivial
  | s, e :: es =>
    have := fun s' => decidableAlong step ok s' es
    inferInstanceAs (Decidable (ok s e ∧ ∀ s' ∈ step s e, Along step ok s' es))

section Reached

variable {o : Option σ} {A B : σ → Prop}

/-- Whether a run leads to such a state is found out by running. -/
instance decidableReached [DecidablePred A] : Decidable (∃ s, o = some s ∧ A s) :=
  match o with
  | none => isFalse nofun
  | some s => decidable_of_iff (A s) (by simp)

theorem exists_reached (hA : ∃ s, o = some s ∧ A s) (hB : ∀ s, o = some s → A s → B s) :
    ∃ s, o = some s ∧ A s ∧ B s :=
  let ⟨s, hs, ha⟩ := hA
  ⟨s, hs, ha, hB s hs ha⟩

theorem exists_reached_of_isSome (ho : o.isSome) (hB : ∀ s, o = some s → B s) : ∃ s, o = some s ∧ B s :=
  let ⟨s, hs⟩ := Option.isSome_iff_exists.mp ho
  ⟨s, hs, hB s hs⟩

end Reached

variable {step : σ → ε → Option σ} {ok : σ → ε → Prop} {inv : σ → Prop} {s s' : σ} {es : List ε}

/-- **The invariant rule.** What every step that meets the condition keeps holds after
    every run whose steps all meet it. -/
theorem run_invariant (hstep : ∀ s e s', inv s → ok s e → step s e = some s' → inv s')
    (hs : inv s) (hok : Along step ok s es) (hrun : run step s es = some s') : inv s' := by
  induction es generalizing s with
  | nil =>
    cases hrun
    exact hs
  | cons e es ih =>
    obtain ⟨s₁, he, hrest⟩ := Option.bind_eq_some_iff.mp hrun
    exact ih (hstep s e s₁ hs hok.1 he) (hok.2 s₁ he) hrest

/-- The invariant rule for what every step keeps. -/
theorem run_keeps (hstep : ∀ s e s', inv s → step s e = some s' → inv s') (hs : inv s)
    (hrun : run step s es = some s') : inv s' := by
  have hall : ∀ (s : σ) es, Along step (fun _ _ => True) s es := by
    intro s es
    induction es generalizing s with
    | nil => trivial
    | cons e es ih => exact ⟨trivial, fun s' _ => ih s'⟩
  exact run_invariant (fun s e s' h _ => hstep s e s' h) hs (hall s es) hrun

theorem along_concat {e : ε} (hes : Along step ok s es)
    (he : ∀ s', run step s es = some s' → ok s' e) : Along step ok s (es ++ [e]) := by
  induction es generalizing s with
  | nil => exact ⟨he s rfl, fun _ _ => trivial⟩
  | cons e₀ es ih =>
    refine ⟨hes.1, fun s₁ h₁ => ih (hes.2 s₁ h₁) fun s' h' => he s' ?_⟩
    rw [run, h₁]
    exact h'

end Lts
