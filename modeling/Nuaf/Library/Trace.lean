import Mathlib.Data.List.Basic

/-! Runs of a system that keeps its whole history, newest step first. What a step
preserves, a run preserves; a limit on the states is assumed of every state reached. -/
namespace Trace

inductive Run {σ ε : Type} (start : σ → Prop) (step : List ε → σ → ε → σ → Prop) :
    List ε → σ → Prop where
  | init {s} (begun : start s) : Run start step [] s
  | next {h s e s'} (before : Run start step h s) (taken : step h s e s') :
      Run start step (e :: h) s'

variable {σ ε : Type} {start : σ → Prop} {step : List ε → σ → ε → σ → Prop}
  {h : List ε} {s : σ}

theorem runInvariant {inv : List ε → σ → Prop} (base : ∀ s, start s → inv [] s)
    (preserve : ∀ h s e s', inv h s → step h s e s' → inv (e :: h) s')
    (run : Run start step h s) : inv h s := by
  induction run with
  | init begun => exact base _ begun
  | next before taken ih => exact preserve _ _ _ _ ih taken

theorem runMono {narrow : List ε → σ → ε → σ → Prop}
    (wider : ∀ h s e s', narrow h s e s' → step h s e s')
    (run : Run start narrow h s) : Run start step h s := by
  induction run with
  | init begun => exact .init begun
  | next _ taken ih => exact .next ih (wider _ _ _ _ taken)

/-- Every event of a history was `good` when it happened. -/
def Always (good : List ε → ε → Prop) : List ε → Prop
  | [] => True
  | e :: h => good h e ∧ Always good h

theorem alwaysIff {left right : List ε → ε → Prop} {inv : List ε → σ → Prop}
    (base : ∀ s, start s → inv [] s)
    (preserve : ∀ h s e s', inv h s → step h s e s' → inv (e :: h) s')
    (same : ∀ h s e s', inv h s → step h s e s' → (left h e ↔ right h e))
    (run : Run start step h s) : Always left h ↔ Always right h := by
  induction run with
  | init begun => exact Iff.rfl
  | next before taken ih => exact and_congr (same _ _ _ _ (runInvariant base preserve before) taken) ih

end Trace
