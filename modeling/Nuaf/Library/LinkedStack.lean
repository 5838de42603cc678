import Mathlib.Data.List.Nodup

/-! Stacks threaded through a successor function, as an intrusive free list is.
`Linked` says what a walk from the top meets; being finite it cannot repeat a cell. -/
namespace LinkedStack

inductive Linked {α : Type} (next : α → Option α) (nil : α) : α → List α → Prop where
  | done : Linked next nil nil []
  | cell {a b xs} (real : a ≠ nil) (link : next a = some b) (rest : Linked next nil b xs) :
      Linked next nil a (a :: xs)

def walk {α : Type} [DecidableEq α] (next : α → Option α) (nil : α) : Nat → α → Option (List α)
  | 0, a => if a = nil then some [] else none
  | fuel + 1, a => if a = nil then some [] else do
    let b ← next a
    let rest ← walk next nil fuel b
    some (a :: rest)

variable {α : Type} {next other : α → Option α} {nil top a : α} {xs ys : List α}

theorem linkedHead (linked : Linked next nil top (a :: xs)) : top = a ∧ a ≠ nil := by
  cases linked with
  | cell real _ _ => exact ⟨rfl, real⟩

theorem linkedTail (linked : Linked next nil top (a :: xs)) :
    ∃ b, next a = some b ∧ Linked next nil b xs := by
  cases linked with
  | cell _ link rest => exact ⟨_, link, rest⟩

theorem linkedNil (linked : Linked next nil nil xs) : xs = [] := by
  cases linked with
  | done => rfl
  | cell real _ _ => exact absurd rfl real

theorem linkedEmpty (linked : Linked next nil top []) : top = nil := by
  cases linked
  rfl

theorem linkedCongr (linked : Linked next nil top xs) (same : ∀ x ∈ xs, other x = next x) :
    Linked other nil top xs := by
  induction linked with
  | done => exact .done
  | cell real link rest ih =>
    exact .cell real ((same _ (by simp)).trans link) (ih fun x hx => same x (by simp [hx]))

theorem linkedUnique (left : Linked next nil top xs) (right : Linked next nil top ys) : xs = ys := by
  induction left generalizing ys with
  | done => exact (linkedNil right).symm
  | cell real link rest ih =>
    cases right with
    | done => exact absurd rfl real
    | cell _ link' rest' =>
      cases Option.some.inj (link.symm.trans link')
      rw [ih rest']

theorem linkedFrom (linked : Linked next nil top xs) (member : a ∈ xs) :
    ∃ ys, Linked next nil a (a :: ys) ∧ (a :: ys).length ≤ xs.length := by
  induction linked with
  | done => simp at member
  | @cell c d cs real link rest ih =>
    rcases List.mem_cons.mp member with rfl | inside
    · exact ⟨cs, .cell real link rest, Nat.le_refl _⟩
    · obtain ⟨ys, linked, bound⟩ := ih inside
      exact ⟨ys, linked, by simp only [List.length_cons] at bound ⊢; omega⟩

theorem linkedNodup (linked : Linked next nil top xs) : xs.Nodup := by
  induction linked with
  | done => exact List.nodup_nil
  | cell real link rest ih =>
    refine List.nodup_cons.mpr ⟨?_, ih⟩
    intro member
    obtain ⟨ys, again, bound⟩ := linkedFrom rest member
    have same := linkedUnique again (.cell real link rest)
    have := congrArg List.length same
    simp only [List.length_cons] at this bound
    omega

theorem walkLinked [DecidableEq α] (linked : Linked next nil top xs) :
    walk next nil xs.length top = some xs := by
  induction linked with
  | done => simp [walk]
  | cell real link rest ih => simp [walk, real, link, ih]

end LinkedStack
