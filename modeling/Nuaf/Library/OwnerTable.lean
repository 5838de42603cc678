import Mathlib.Logic.Function.Basic

/-! Who owns what. Every thread is at a place, and a place tells what a thread there has to own;
threads move, take what is vacant and drop what is theirs. -/
namespace OwnerTable

variable {τ μ π : Type} {holds : π → μ → Prop} {owner : μ → Option τ} {place : τ → π}
  {t u : τ} {m : μ} {p : π}

def Guarded (holds : π → μ → Prop) (owner : μ → Option τ) (place : τ → π) : Prop :=
  ∀ t m, holds (place t) m → owner m = some t

theorem guardedAlone (guarded : Guarded holds owner place) (left : holds (place t) m)
    (right : holds (place u) m) : t = u :=
  Option.some.inj ((guarded t m left).symm.trans (guarded u m right))

variable [DecidableEq τ]

theorem guardedGoto (guarded : Guarded holds owner place)
    (needs : ∀ m, holds p m → owner m = some t) :
    Guarded holds owner (Function.update place t p) := by
  intro u m here
  by_cases same : u = t
  · subst same
    rw [Function.update_self] at here
    exact needs m here
  · rw [Function.update_of_ne same] at here
    exact guarded u m here

variable [DecidableEq μ]

theorem guardedTake (guarded : Guarded holds owner place) (vacant : owner m = none)
    (needs : ∀ n, holds p n → n = m ∨ owner n = some t) :
    Guarded holds (Function.update owner m (some t)) (Function.update place t p) := by
  have taken : Guarded holds (Function.update owner m (some t)) place := by
    intro u n here
    have held := guarded u n here
    have other : n ≠ m := by
      rintro rfl
      rw [vacant] at held
      cases held
    exact (Function.update_of_ne other _ _).trans held
  refine guardedGoto taken fun n here => ?_
  by_cases same : n = m
  · rw [same, Function.update_self]
  · rw [Function.update_of_ne same]
    exact (needs n here).resolve_left same

theorem guardedDrop (guarded : Guarded holds owner place) (mine : owner m = some t)
    (needs : ∀ n, holds p n → n ≠ m ∧ owner n = some t) :
    Guarded holds (Function.update owner m none) (Function.update place t p) := by
  intro u n here
  by_cases same : u = t
  · subst same
    rw [Function.update_self] at here
    exact (Function.update_of_ne (needs n here).1 _ _).trans (needs n here).2
  · rw [Function.update_of_ne same] at here
    have held := guarded u n here
    have other : n ≠ m := by
      rintro rfl
      exact same (Option.some.inj (held.symm.trans mine))
    exact (Function.update_of_ne other _ _).trans held

end OwnerTable
