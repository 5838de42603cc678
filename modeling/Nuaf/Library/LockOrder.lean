import Mathlib.Logic.Function.Basic
import Mathlib.Logic.Relation
import Mathlib.Order.Basic

/-! Locks taken in order. Where every thread asks only for a lock that ranks above all it holds,
no thread waits for itself and no threads wait for each other in a circle. -/
namespace LockOrder

variable {τ μ ρ : Type} [Preorder ρ] {rank : μ → ρ} {asks : τ → Option μ} {owner : μ → Option τ}
  {t u : τ} {m m' : μ}

/-- `t` waits for a lock that `u` holds. -/
def Blocked (asks : τ → Option μ) (owner : μ → Option τ) (t u : τ) : Prop :=
  ∃ m, asks t = some m ∧ owner m = some u

def Ordered (rank : μ → ρ) (asks : τ → Option μ) (owner : μ → Option τ) : Prop :=
  ∀ t m, asks t = some m → ∀ m', owner m' = some t → rank m' < rank m

theorem chainRises (ordered : Ordered rank asks owner)
    (chain : Relation.TransGen (Blocked asks owner) t u) : ∃ m, asks t = some m ∧
      ∀ m', asks u = some m' → rank m < rank m' := by
  induction chain with
  | single edge =>
    obtain ⟨m, asked, held⟩ := edge
    exact ⟨m, asked, fun m' next => ordered _ m' next m held⟩
  | tail _ edge ih =>
    obtain ⟨m, asked, rises⟩ := ih
    obtain ⟨m₁, between, held⟩ := edge
    exact ⟨m, asked, fun m' next => lt_trans (rises m₁ between) (ordered _ m' next m₁ held)⟩

theorem orderedAcyclic (ordered : Ordered rank asks owner) (t : τ) :
    ¬ Relation.TransGen (Blocked asks owner) t t := by
  intro circle
  obtain ⟨m, asked, rises⟩ := chainRises ordered circle
  exact lt_irrefl _ (rises m asked)

section
variable [DecidableEq τ]

theorem orderedAsk (ordered : Ordered rank asks owner)
    (above : ∀ m', owner m' = some t → rank m' < rank m) :
    Ordered rank (Function.update asks t (some m)) owner := by
  intro u n asked n' held
  by_cases same : u = t
  · subst same
    rw [Function.update_self] at asked
    cases asked
    exact above n' held
  · rw [Function.update_of_ne same] at asked
    exact ordered u n asked n' held

theorem orderedRest (ordered : Ordered rank asks owner) (t : τ) :
    Ordered rank (Function.update asks t none) owner := by
  intro u n asked n' held
  by_cases same : u = t
  · subst same
    rw [Function.update_self] at asked
    cases asked
  · rw [Function.update_of_ne same] at asked
    exact ordered u n asked n' held

end

variable [DecidableEq μ]

theorem orderedTake [DecidableEq τ] (ordered : Ordered rank asks owner) (m : μ) :
    Ordered rank (Function.update asks t none) (Function.update owner m (some t)) := by
  intro u n asked n' held
  have other : u ≠ t := by
    rintro rfl
    rw [Function.update_self] at asked
    cases asked
  rw [Function.update_of_ne other] at asked
  by_cases same : n' = m
  · subst same
    rw [Function.update_self] at held
    exact absurd (Option.some.inj held).symm other
  · rw [Function.update_of_ne same] at held
    exact ordered u n asked n' held

theorem orderedNext [DecidableEq τ] (ordered : Ordered rank asks owner) (asked : asks t = some m)
    (above : rank m < rank m') :
    Ordered rank (Function.update asks t (some m')) (Function.update owner m (some t)) := by
  have next := orderedTake (t := t) ordered m
  have merged : Function.update (Function.update asks t none) t (some m') =
      Function.update asks t (some m') := Function.update_idem _ _ _
  rw [← merged]
  refine orderedAsk next fun n held => ?_
  by_cases same : n = m
  · rwa [same]
  · rw [Function.update_of_ne same] at held
    exact lt_trans (ordered t m asked n held) above

theorem orderedDrop (ordered : Ordered rank asks owner) (m : μ) :
    Ordered rank asks (Function.update owner m none) := by
  intro u n asked n' held
  by_cases same : n' = m
  · subst same
    rw [Function.update_self] at held
    cases held
  · rw [Function.update_of_ne same] at held
    exact ordered u n asked n' held

end LockOrder
