import Mathlib.Order.Defs.Unbundled

/-! Relations between the states before and after a computation that every outcome respects,
an error like a result. A reflexive and transitive one is checked statement by statement. -/
namespace Outcomes

def final {ε σ α : Type} : EStateM.Result ε σ α → σ
  | .ok _ s => s
  | .error _ s => s

def Respects {ε σ α : Type} (R : σ → σ → Prop) (x : EStateM ε σ α) : Prop := ∀ s, R s (final (x s))

/-- The same result, or the same error, in related states. -/
inductive Alike {ε σ α : Type} (R : σ → σ → Prop) :
    EStateM.Result ε σ α → EStateM.Result ε σ α → Prop where
  | ok {a s t} (related : R s t) : Alike R (.ok a s) (.ok a t)
  | error {e s t} (related : R s t) : Alike R (.error e s) (.error e t)

def Agrees {ε σ α : Type} (R : σ → σ → Prop) (x : EStateM ε σ α) : Prop :=
  ∀ s t, R s t → Alike R (x s) (x t)

variable {ε σ α β : Type} {R : σ → σ → Prop} {x y : EStateM ε σ α} {f : α → EStateM ε σ β}
  {s t : σ}

theorem finalOk {a : α} (h : x s = .ok a t) : final (x s) = t := by rw [h]; rfl

theorem finalError {e : ε} (h : x s = .error e t) : final (x s) = t := by rw [h]; rfl

theorem finalBindPure (b : β) : final ((x >>= fun _ => pure b) s) = final (x s) := by
  simp only [bind, EStateM.bind]
  cases x s with
  | ok a t => rfl
  | error e t => rfl

theorem respectsPure [Std.Refl R] (a : α) : Respects R (pure a : EStateM ε σ α) :=
  fun s => Std.Refl.refl s

theorem respectsThrow [Std.Refl R] (e : ε) : Respects R (throw e : EStateM ε σ α) :=
  fun s => Std.Refl.refl s

theorem respectsGet [Std.Refl R] : Respects R (get : EStateM ε σ σ) := fun s => Std.Refl.refl s

theorem respectsModify {g : σ → σ} (moves : ∀ s, R s (g s)) :
    Respects R (modify g : EStateM ε σ Unit) := moves

theorem respectsBind [IsTrans σ R] (first : Respects R x) (rest : ∀ a, Respects R (f a)) :
    Respects R (x >>= f) := by
  intro s
  have before := first s
  simp only [bind, EStateM.bind]
  cases ran : x s with
  | error e t => rwa [ran] at before
  | ok a t =>
    rw [ran] at before
    exact IsTrans.trans _ _ _ before (rest a t)

theorem respectsIte {p : Prop} [Decidable p] (left : Respects R x) (right : Respects R y) :
    Respects R (if p then x else y) := by
  split
  · exact left
  · exact right

theorem agreesOk {a : α} {s' : σ} (agrees : Agrees R x) (call : x s = .ok a s') (related : R s t) :
    ∃ t', x t = .ok a t' ∧ R s' t' := by
  have same := agrees s t related
  rw [call] at same
  generalize x t = ran at same
  cases same with
  | ok related => exact ⟨_, rfl, related⟩

theorem agreesPure (a : α) : Agrees R (pure a : EStateM ε σ α) := fun _ _ related => .ok related

theorem agreesThrow (e : ε) : Agrees R (throw e : EStateM ε σ α) := fun _ _ related => .error related

theorem agreesModify {g : σ → σ} (moves : ∀ s t, R s t → R (g s) (g t)) :
    Agrees R (modify g : EStateM ε σ Unit) := fun s t related => .ok (moves s t related)

theorem agreesGet {f : σ → EStateM ε σ α} (reads : ∀ s, Agrees R (f s))
    (blind : ∀ s t, R s t → f s = f t) : Agrees R (get >>= f) := by
  intro s t related
  have same : (get >>= f) t = f s t := congrFun (blind s t related).symm t
  rw [same]
  exact reads s s t related

theorem agreesBind (first : Agrees R x) (rest : ∀ a, Agrees R (f a)) : Agrees R (x >>= f) := by
  intro s t related
  have before := first s t related
  simp only [bind, EStateM.bind]
  generalize x s = left, x t = right at before
  cases before with
  | ok related => exact rest _ _ _ related
  | error related => exact .error related

theorem agreesIte {p : Prop} [Decidable p] (left : Agrees R x) (right : Agrees R y) :
    Agrees R (if p then x else y) := by
  split
  · exact left
  · exact right

end Outcomes
