import Nuaf.Library.Trace

/-! Runs of one system read as runs of another. An event below is one event above, or none;
a relation between the states is kept by every step, so what holds of the runs above holds of
every reading. -/
namespace Simulation
open Trace

variable {σ ε τ δ : Type}

/-- The history above, event by event: `point` says which events are read, and as what. -/
inductive Reads (point : ε → δ → Prop) : List ε → List δ → Prop where
  | nil : Reads point [] []
  | point {h l e d} (before : Reads point h l) (at' : point e d) : Reads point (e :: h) (d :: l)
  | silent {h l e} (before : Reads point h l) (none : ∀ d, ¬ point e d) : Reads point (e :: h) l

variable {start : σ → Prop} {step : List ε → σ → ε → σ → Prop}
  {start' : τ → Prop} {step' : List δ → τ → δ → τ → Prop} {point : ε → δ → Prop}
  {R : List ε → σ → List δ → τ → Prop} {h : List ε} {s : σ}

theorem readsRun (base : ∀ s, start s → ∃ t, start' t ∧ R [] s [] t)
    (follows : ∀ h s e s' l t, Run start step h s → Run start' step' l t → R h s l t →
      step h s e s' → (∀ d, ¬ point e d) ∧ R (e :: h) s' l t ∨
        ∃ d t', point e d ∧ step' l t d t' ∧ R (e :: h) s' (d :: l) t')
    (run : Run start step h s) :
    ∃ l t, Run start' step' l t ∧ Reads point h l ∧ R h s l t := by
  induction run with
  | init begun =>
    obtain ⟨t, begun', related⟩ := base _ begun
    exact ⟨[], t, .init begun', .nil, related⟩
  | next before taken ih =>
    obtain ⟨l, t, above, reads, related⟩ := ih
    rcases follows _ _ _ _ _ _ before above related taken with ⟨none, related'⟩ |
      ⟨d, t', at', taken', related'⟩
    · exact ⟨l, t, above, .silent reads none, related'⟩
    · exact ⟨d :: l, t', .next above taken', .point reads at', related'⟩

theorem readsMap {α : Type} {view : ε → Option α} {seen : δ → Option α}
    (agree : ∀ e d, point e d → view e = seen d) (quiet : ∀ e, (∀ d, ¬ point e d) → view e = none)
    {l : List δ} (reads : Reads point h l) : h.filterMap view = l.filterMap seen := by
  induction reads with
  | nil => rfl
  | point _ at' ih => simp only [List.filterMap_cons, agree _ _ at', ih]
  | silent _ none ih => simp only [List.filterMap_cons, quiet _ none, ih]

end Simulation
