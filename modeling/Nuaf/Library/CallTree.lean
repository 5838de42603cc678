import Nuaf.Library.Trace

/-! Programs over a system they only call. A program is the tree of its calls, with what it does
on every answer; to run it takes one step of the system for each call. -/
namespace CallTree

inductive Program (ι ρ α : Type) where
  | done (a : α)
  | call (op : ι) (next : ρ → Program ι ρ α)

variable {ι ρ α β : Type}

def Program.bind : Program ι ρ α → (α → Program ι ρ β) → Program ι ρ β
  | .done a, f => f a
  | .call op next, f => .call op fun r => (next r).bind f

instance : Monad (Program ι ρ) where
  pure := .done
  bind := .bind

theorem bindDone (x : Program ι ρ α) : x.bind .done = x := by
  induction x with
  | done a => rfl
  | call op next ih => simp only [Program.bind, ih]

theorem bindBind {γ : Type} (x : Program ι ρ α) (f : α → Program ι ρ β) (g : β → Program ι ρ γ) :
    (x.bind f).bind g = x.bind fun a => (f a).bind g := by
  induction x with
  | done a => rfl
  | call op next ih => simp only [Program.bind, ih]

instance : LawfulMonad (Program ι ρ) :=
  LawfulMonad.mk' _ bindDone (fun _ _ => rfl) bindBind

def ask (op : ι) : Program ι ρ ρ := .call op .done

section
variable {ε σ : Type} (step : List ε → σ → ε → σ → Prop) (answers : ε → ι → ρ → Prop)

inductive Does : Program ι ρ α → List ε → σ → α → List ε → σ → Prop where
  | done {a h s} : Does (.done a) h s a h s
  | call {op next h s e s' r a h' s''} (taken : step h s e s') (answer : answers e op r)
      (rest : Does (next r) (e :: h) s' a h' s'') : Does (.call op next) h s a h' s''

/-- Partial correctness: what holds of every run of the program that comes to its end. -/
def Ensures (P : List ε → σ → Prop) (x : Program ι ρ α) (Q : α → List ε → σ → Prop) : Prop :=
  ∀ h s a h' s', P h s → Does step answers x h s a h' s' → Q a h' s'

inductive Comes : Program ι ρ α → List ε → σ → ι → List ε → σ → Prop where
  | now {op next h s} : Comes (.call op next) h s op h s
  | later {op op' next h s e s' r h' s''} (taken : step h s e s') (answer : answers e op r)
      (rest : Comes (next r) (e :: h) s' op' h' s'') : Comes (.call op next) h s op' h' s''

/-- Every call the program comes to is `ok` there, and what it ends in is in `Q`. -/
def Safe (ok : List ε → σ → ι → Prop) (Q : α → List ε → σ → Prop) :
    Program ι ρ α → List ε → σ → Prop
  | .done a, h, s => Q a h s
  | .call op next, h, s =>
    ok h s op ∧ ∀ e s' r, step h s e s' → answers e op r → Safe ok Q (next r) (e :: h) s'

end

variable {ε σ : Type} {step : List ε → σ → ε → σ → Prop} {answers : ε → ι → ρ → Prop}
  {P P' : List ε → σ → Prop} {x y : Program ι ρ α} {f : α → Program ι ρ β}
  {Q Q' : α → List ε → σ → Prop} {R : β → List ε → σ → Prop}

theorem doesBindInv {h h'' : List ε} {s s'' : σ} {b : β}
    (run : Does step answers (x >>= f) h s b h'' s'') : ∃ a h' s',
      Does step answers x h s a h' s' ∧ Does step answers (f a) h' s' b h'' s'' := by
  induction x generalizing h s with
  | done a => exact ⟨a, h, s, .done, run⟩
  | call op next ih =>
    cases run with
    | call taken answer rest =>
      obtain ⟨a, h', s', first, second⟩ := ih _ rest
      exact ⟨a, h', s', .call taken answer first, second⟩

theorem doesBind {h h' h'' : List ε} {s s' s'' : σ} {a : α} {b : β}
    (first : Does step answers x h s a h' s') (second : Does step answers (f a) h' s' b h'' s'') :
    Does step answers (x >>= f) h s b h'' s'' := by
  induction first with
  | done => exact second
  | call taken answer _ ih => exact .call taken answer (ih second)

theorem doesAsk {h : List ε} {s s' : σ} {e : ε} {op : ι} {r : ρ} (taken : step h s e s')
    (answer : answers e op r) : Does step answers (ask op) h s r (e :: h) s' :=
  .call taken answer .done

theorem ensuresPure (a : α) (holds : ∀ h s, P h s → Q a h s) :
    Ensures step answers P (pure a) Q := by
  intro h s b h' s' before run
  cases run with
  | done => exact holds h s before

theorem ensuresAsk {op : ι} {Q : ρ → List ε → σ → Prop}
    (holds : ∀ h s e s' r, P h s → step h s e s' → answers e op r → Q r (e :: h) s') :
    Ensures step answers P (ask op) Q := by
  intro h s r h' s' before run
  cases run with
  | call taken answer rest =>
    cases rest with
    | done => exact holds _ _ _ _ _ before taken answer

theorem ensuresBind (first : Ensures step answers P x Q)
    (second : ∀ a, Ensures step answers (Q a) (f a) R) : Ensures step answers P (x >>= f) R := by
  intro h s b h'' s'' before run
  obtain ⟨a, h', s', left, right⟩ := doesBindInv run
  exact second a _ _ _ _ _ (first _ _ _ _ _ before left) right

theorem ensuresIte {p : Prop} [Decidable p] (left : p → Ensures step answers P x Q)
    (right : ¬ p → Ensures step answers P y Q) :
    Ensures step answers P (if p then x else y) Q := by
  split
  · rename_i holds
    exact left holds
  · rename_i fails
    exact right fails

theorem ensuresMono (weaker : ∀ h s, P h s → P' h s) (ensures : Ensures step answers P' x Q)
    (stronger : ∀ a h s, Q a h s → Q' a h s) : Ensures step answers P x Q' :=
  fun h s a h' s' before run => stronger _ _ _ (ensures h s a h' s' (weaker _ _ before) run)

section
variable {ok : List ε → σ → ι → Prop} {h : List ε} {s : σ}

theorem safePure (a : α) (holds : Q a h s) : Safe step answers ok Q (pure a) h s := holds

theorem safeAsk {op : ι} {Q : ρ → List ε → σ → Prop} (fine : ok h s op)
    (holds : ∀ e s' r, step h s e s' → answers e op r → Q r (e :: h) s') :
    Safe step answers ok Q (ask op) h s := ⟨fine, holds⟩

theorem safeMono (safe : Safe step answers ok Q x h s) (stronger : ∀ a h s, Q a h s → Q' a h s) :
    Safe step answers ok Q' x h s := by
  induction x generalizing h s with
  | done a => exact stronger a h s safe
  | call op next ih =>
    exact ⟨safe.1, fun e s' r taken answer => ih r (safe.2 e s' r taken answer)⟩

theorem safeBind (safe : Safe step answers ok (fun a => Safe step answers ok R (f a)) x h s) :
    Safe step answers ok R (x >>= f) h s := by
  induction x generalizing h s with
  | done a => exact safe
  | call op next ih =>
    exact ⟨safe.1, fun e s' r taken answer => ih r (safe.2 e s' r taken answer)⟩

theorem safeThen (first : Safe step answers ok Q x h s)
    (rest : ∀ a h s, Q a h s → Safe step answers ok R (f a) h s) :
    Safe step answers ok R (x >>= f) h s := safeBind (safeMono first rest)

theorem safeDoes {a : α} {h' : List ε} {s' : σ} (safe : Safe step answers ok Q x h s)
    (run : Does step answers x h s a h' s') : Q a h' s' := by
  induction run with
  | done => exact safe
  | call taken answer _ ih => exact ih (safe.2 _ _ _ taken answer)

theorem safeComes {op : ι} {h' : List ε} {s' : σ} (safe : Safe step answers ok Q x h s)
    (comes : Comes step answers x h s op h' s') : ok h' s' op := by
  induction comes with
  | now => exact safe.1
  | later taken answer _ ih => exact ih (safe.2 _ _ _ taken answer)

/-- A system that does only what another one allows is safe where that one is, with the same
answers: what was shown of a program over the one holds over the other. -/
theorem safeTransfer {δ τ : Type} {step' : List δ → τ → δ → τ → Prop} {answers' : δ → ι → ρ → Prop}
    {ok' : List δ → τ → ι → Prop} {R : List ε → σ → List δ → τ → Prop} {g : List δ} {t : τ}
    (sound : ∀ h s g t op, R h s g t → ok h s op → ok' g t op ∧ ∀ d t' r, step' g t d t' →
      answers' d op r → ∃ e s', step h s e s' ∧ answers e op r ∧ R (e :: h) s' (d :: g) t')
    (safe : Safe step answers ok Q x h s) (related : R h s g t) :
    Safe step' answers' ok' (fun a g t => ∃ h s, Q a h s ∧ R h s g t) x g t := by
  induction x generalizing h s g t with
  | done a => exact ⟨h, s, safe, related⟩
  | call op next ih =>
    obtain ⟨fine, follows⟩ := sound h s g t op related safe.1
    refine ⟨fine, fun d t' r taken answer => ?_⟩
    obtain ⟨e, s', taken', answer', related'⟩ := follows d t' r taken answer
    exact ih r (safe.2 e s' r taken' answer') related'

end

end CallTree
