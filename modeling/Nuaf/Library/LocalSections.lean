import Mathlib.Data.Set.Basic
import Mathlib.Logic.Function.Basic
import Nuaf.Library.CallTree

/-! Programs that get at their own part of the state only. Several of them under way at once, their
accesses in any order, come to what they come to one after the other, each in one go: the state in
which each of them is over is the same, whichever of them has done how much so far. -/
namespace LocalSections
open CallTree

/-- A state that is accessed place by place. An access answers by what is at the places of its
`foot` and changes nothing elsewhere; nothing changes a `fixed` place; of the answer of a `loose`
access, which has no places, nothing is known. -/
structure Device (ι ρ ε σ π : Type) where
  perform : ι → EStateM ε σ ρ
  same : π → σ → σ → Prop
  foot : ι → Set π
  fixed : Set π
  loose : Set ι
  equivalence : ∀ l, Equivalence (same l)
  spares : ∀ {op s r t}, perform op s = .ok r t → ∀ l, l ∉ foot op ∨ l ∈ fixed → same l s t
  depends : ∀ {op s r s' t}, op ∉ loose → perform op s = .ok r s' → (∀ l ∈ foot op, same l s t) →
    ∃ t', perform op t = .ok r t' ∧ ∀ l ∈ foot op, same l s' t'
  blank : ∀ {op}, op ∈ loose → foot op = ∅
  answers : ∀ {op}, op ∈ loose → ∀ s, ∃ r t, perform op s = .ok r t

variable {ι ρ ε σ π α θ : Type} (d : Device ι ρ ε σ π)

def Device.Alike (s t : σ) : Prop := ∀ l, d.same l s t

def Device.Same (part : Set π) (s t : σ) : Prop := ∀ l, l ∈ part ∨ l ∈ d.fixed → d.same l s t

def Device.run : Program ι ρ α → EStateM ε σ α
  | .done a => pure a
  | .call op next => do
    let r ← d.perform op
    Device.run (next r)

/-- Run alone from `s`, the program keeps to `part` and ends in a state like `s'`, with an answer
that no loose access has a say in. -/
inductive Ends (part : Set π) : Program ι ρ α → σ → α → σ → Prop where
  | done {a s s'} (alike : d.Alike s s') : Ends part (.done a) s a s'
  | call {op next s r t a s'} (tight : op ∉ d.loose) (inside : ∀ l ∈ d.foot op, l ∈ part ∨ l ∈ d.fixed)
      (taken : d.perform op s = .ok r t) (rest : Ends part (next r) t a s') :
      Ends part (.call op next) s a s'
  | loose {op next s a s'} (free : op ∈ d.loose) (rest : ∀ r, Ends part (next r) s a s') :
      Ends part (.call op next) s a s'

variable {d} {part : Set π} {x : Program ι ρ α} {s s' t t' : σ} {a v : α} {l : π}

theorem sameRefl (s : σ) : d.same l s s := (d.equivalence l).refl s

theorem sameSymm (left : d.same l s t) : d.same l t s := (d.equivalence l).symm left

theorem sameTrans {u : σ} (left : d.same l s t) (right : d.same l t u) : d.same l s u :=
  (d.equivalence l).trans left right

theorem alikeRefl (s : σ) : d.Alike s s := fun _ => sameRefl s

theorem runCall {op : ι} {next : ρ → Program ι ρ α} {r : ρ} (taken : d.perform op s = .ok r t) :
    d.run (.call op next) s = d.run (next r) t := by
  simp only [Device.run, bind, EStateM.bind, taken]

theorem runBind {β : Type} (x : Program ι ρ α) (f : α → Program ι ρ β) :
    d.run (x >>= f) = d.run x >>= fun a => d.run (f a) := by
  induction x with
  | done a => rfl
  | call op next ih =>
    refine Eq.trans ?_ (bind_assoc _ _ _).symm
    exact bind_congr fun r => ih r

theorem endsTo {s'' : σ} (ends : Ends d part x s a s') (alike : d.Alike s' s'') :
    Ends d part x s a s'' := by
  induction ends with
  | done before => exact .done fun l => sameTrans (before l) (alike l)
  | call tight inside taken _ ih => exact .call tight inside taken (ih alike)
  | loose free _ ih => exact .loose free fun r => ih r alike

theorem endsOutside (ends : Ends d part x s a s') (outside : l ∉ part ∨ l ∈ d.fixed) :
    d.same l s s' := by
  induction ends with
  | done alike => exact alike l
  | @call op _ _ _ _ _ _ tight inside taken _ ih =>
    refine sameTrans (d.spares taken l ?_) ih
    rcases outside with other | fixed
    · exact Classical.or_iff_not_imp_left.mpr fun mine => (inside l (not_not.mp mine)).resolve_left other
    · exact .inr fixed
  | @loose op _ s _ _ free _ ih =>
    obtain ⟨r, _, _⟩ := d.answers free s
    exact ih r

theorem sameAccess {op : ι} {r : ρ} (tight : op ∉ d.loose)
    (inside : ∀ l ∈ d.foot op, l ∈ part ∨ l ∈ d.fixed) (taken : d.perform op s = .ok r s')
    (same : d.Same part s t) : ∃ t', d.perform op t = .ok r t' ∧ d.Same part s' t' := by
  obtain ⟨t', taken', equal⟩ := d.depends tight taken fun l here => same l (inside l here)
  refine ⟨t', taken', fun l here => ?_⟩
  by_cases touched : l ∈ d.foot op
  · exact equal l touched
  · exact sameTrans (sameSymm (d.spares taken l (.inl touched)))
      (sameTrans (same l here) (d.spares taken' l (.inl touched)))

theorem endsFrame (ends : Ends d part x s a s') (same : d.Same part s t) :
    ∃ t', Ends d part x t a t' ∧ d.Same part s' t' := by
  induction ends generalizing t with
  | done alike =>
    exact ⟨t, .done (alikeRefl t), fun l here => sameTrans (sameSymm (alike l)) (same l here)⟩
  | call tight inside taken _ ih =>
    obtain ⟨u, taken', same'⟩ := sameAccess tight inside taken same
    obtain ⟨t', ends, equal⟩ := ih same'
    exact ⟨t', .call tight inside taken' ends, equal⟩
  | @loose op next s a s' free _ ih =>
    obtain ⟨r, _, _⟩ := d.answers free s
    obtain ⟨t', ends, equal⟩ := ih r same
    refine ⟨t', .loose free fun q => ?_, equal⟩
    obtain ⟨u, ends', equal'⟩ := ih q same
    refine endsTo ends' fun l => ?_
    by_cases here : l ∈ part ∨ l ∈ d.fixed
    · exact sameTrans (sameSymm (equal' l here)) (equal l here)
    · rw [not_or] at here
      exact sameTrans (sameSymm (endsOutside ends' (.inl here.1))) (endsOutside ends (.inl here.1))

theorem endsRun (ends : Ends d part x s a s') : ∃ t, d.run x s = .ok a t ∧ d.Alike s' t := by
  obtain ⟨t, run, equal⟩ : ∃ t, d.run x s = .ok a t ∧ d.Alike t s' := by
    suffices more : ∀ u, d.Alike s u → ∃ t, d.run x u = .ok a t ∧ d.Alike t s' from more s (alikeRefl s)
    induction ends with
    | done alike => exact fun u equal => ⟨u, rfl, fun l => sameTrans (sameSymm (equal l)) (alike l)⟩
    | @call op next s r _ _ _ tight inside taken _ ih =>
      intro u equal
      obtain ⟨u', taken', equal'⟩ := sameAccess tight (fun l _ => .inl (Set.mem_univ l)) taken
        fun l _ => equal l
      obtain ⟨t, run, last⟩ := ih u' fun l => equal' l (.inl trivial)
      exact ⟨t, (runCall taken').trans run, last⟩
    | @loose op next _ _ _ free _ ih =>
      intro u equal
      obtain ⟨r, u', taken⟩ := d.answers free u
      obtain ⟨t, run, last⟩ := ih r u' fun l =>
        sameTrans (equal l) (d.spares taken l (.inl (d.blank free ▸ Set.notMem_empty l)))
      exact ⟨t, (runCall taken).trans run, last⟩
  exact ⟨t, run, fun l => sameSymm (equal l)⟩

theorem endsAlike (ends : Ends d part x s a s') (alike : d.Alike s t) : Ends d part x t a s' := by
  obtain ⟨t', ends', equal⟩ := endsFrame ends fun l _ => alike l
  refine endsTo ends' fun l => ?_
  by_cases here : l ∈ part ∨ l ∈ d.fixed
  · exact sameSymm (equal l here)
  · rw [not_or] at here
    exact sameTrans (sameSymm (endsOutside ends' (.inl here.1)))
      (sameTrans (sameSymm (alike l)) (endsOutside ends (.inl here.1)))

theorem endsStep {op : ι} {next : ρ → Program ι ρ α} (ends : Ends d part (.call op next) s a s') :
    (∃ r t, d.perform op s = .ok r t) ∧ ∀ r t, d.perform op s = .ok r t →
      Ends d part (next r) t a s' ∧ ∀ l, l ∉ part ∨ l ∈ d.fixed → d.same l s t := by
  cases ends with
  | call tight inside taken rest =>
    refine ⟨⟨_, _, taken⟩, fun r t again => ?_⟩
    cases taken.symm.trans again
    refine ⟨rest, fun l outside => d.spares taken l ?_⟩
    rcases outside with other | fixed
    · exact Classical.or_iff_not_imp_left.mpr fun mine => (inside l (not_not.mp mine)).resolve_left other
    · exact .inr fixed
  | loose free rest =>
    refine ⟨d.answers free s, fun r t taken => ?_⟩
    have still : d.Alike s t := fun l => d.spares taken l (.inl (d.blank free ▸ Set.notMem_empty l))
    exact ⟨endsAlike (rest r) still, fun l _ => still l⟩

section
variable {op : ι} {r : ρ}

theorem endsAsk {f : ρ → Program ι ρ α} (tight : op ∉ d.loose)
    (inside : ∀ l ∈ d.foot op, l ∈ part ∨ l ∈ d.fixed) (taken : d.perform op s = .ok r t)
    (rest : Ends d part (f r) t a s') : Ends d part (ask op >>= f) s a s' :=
  .call tight inside taken rest

theorem endsBind {β : Type} {f : α → Program ι ρ β} {b : β} (first : Ends d part x s a t)
    (rest : Ends d part (f a) t b s') : Ends d part (x >>= f) s b s' := by
  induction first with
  | done alike => exact endsAlike rest fun l => sameSymm (alike l)
  | call tight inside taken _ ih => exact .call tight inside taken (ih rest)
  | loose free _ ih => exact .loose free fun r => ih r rest

theorem endsLast (tight : op ∉ d.loose) (inside : ∀ l ∈ d.foot op, l ∈ part ∨ l ∈ d.fixed)
    (taken : d.perform op s = .ok r t) : Ends d part (ask op) s r t :=
  .call tight inside taken (.done (alikeRefl t))

end

def Makes (good : ι → Prop) : Program ι ρ α → Prop
  | .done _ => True
  | .call op next => good op ∧ ∀ r, Makes good (next r)

theorem runEnds (makes : Makes (fun op => op ∉ d.loose ∧ ∀ l ∈ d.foot op, l ∈ part ∨ l ∈ d.fixed) x)
    (run : d.run x s = .ok a s') : Ends d part x s a s' := by
  induction x generalizing s with
  | done b =>
    cases run
    exact .done (alikeRefl _)
  | call op next ih =>
    have split := run
    simp only [Device.run, bind, EStateM.bind] at split
    split at split
    · rename_i r t taken
      exact .call makes.1.1 makes.1.2 taken (ih r (makes.2 r) split)
    · cases split

/- The jobs under way, each with the answer it will end with. `s` is where they have got to, `t` the
state in which every one of them is over. -/
structure Overlaid (d : Device ι ρ ε σ π) (parts : θ → Set π) (jobs : θ → Option (Program ι ρ α × α))
    (s t : σ) : Prop where
  apart : ∀ i j l, i ≠ j → l ∈ parts i → l ∉ parts j
  idle : ∀ i, jobs i = none → parts i = ∅
  ends : ∀ i x a, jobs i = some (x, a) → ∃ s', Ends d (parts i) x s a s' ∧ ∀ l ∈ parts i, d.same l s' t
  rest : ∀ l, (∀ i, l ∉ parts i) ∨ l ∈ d.fixed → d.same l s t

variable {parts : θ → Set π} {jobs : θ → Option (Program ι ρ α × α)} {i : θ}

theorem overlaidNone (overlaid : Overlaid d parts jobs s t) (none : ∀ i, jobs i = none) :
    d.Alike s t :=
  fun l => overlaid.rest l (.inl fun i => overlaid.idle i (none i) ▸ Set.notMem_empty l)

theorem overlaidInit (alike : d.Alike s t) :
    Overlaid d (fun _ : θ => ∅) (fun _ => (none : Option (Program ι ρ α × α))) s t :=
  ⟨fun _ _ l _ mine => absurd mine (Set.notMem_empty l), fun _ _ => rfl, fun _ _ _ job => (nomatch job),
    fun l _ => alike l⟩

theorem overlaidFree (overlaid : Overlaid d parts jobs s t)
    (free : ∀ l, l ∈ part → ∀ j, l ∉ parts j) : d.Same part t s := fun l here =>
  sameSymm (overlaid.rest l (here.imp_left fun mine => free l mine))

theorem endsKept {u u' : σ} (overlaid : Overlaid d parts jobs s t) {x : Program ι ρ α}
    (job : jobs i = some (x, a)) (now : ∀ l ∈ parts i, d.same l s u)
    (still : ∀ l ∈ d.fixed, d.same l s u) (last : ∀ l ∈ parts i, d.same l t u') :
    ∃ s', Ends d (parts i) x u a s' ∧ ∀ l ∈ parts i, d.same l s' u' := by
  obtain ⟨s', ends, equal⟩ := overlaid.ends i x a job
  obtain ⟨v, ends', equal'⟩ := endsFrame ends fun l here => here.elim (now l) (still l)
  exact ⟨v, ends', fun l here =>
    sameTrans (sameSymm (equal' l (.inl here))) (sameTrans (equal l here) (last l here))⟩

theorem overlaidLike (overlaid : Overlaid d parts jobs s t) (alike : d.Alike s s') :
    Overlaid d parts jobs s' t :=
  ⟨overlaid.apart, overlaid.idle, fun _ _ _ job => endsKept overlaid job (fun l _ => alike l)
    (fun l _ => alike l) fun _ _ => sameRefl t,
    fun l outside => sameTrans (sameSymm (alike l)) (overlaid.rest l outside)⟩

section
variable [DecidableEq θ]

theorem overlaidBegin (overlaid : Overlaid d parts jobs s t) (idle : jobs i = none)
    (free : ∀ l ∈ part, ∀ j, l ∉ parts j) (ends : Ends d part x t a t') :
    Overlaid d (Function.update parts i part) (Function.update jobs i (some (x, a))) s t' := by
  obtain ⟨s', ends', equal⟩ := endsFrame ends (overlaidFree overlaid free)
  have others : ∀ j, j ≠ i → Function.update parts i part j = parts j :=
    fun j other => Function.update_of_ne other _ _
  refine ⟨fun j k l other mine theirs => ?_, fun j quiet => ?_, fun j y b job => ?_, fun l outside => ?_⟩
  · by_cases here : j = i
    · subst here
      rw [Function.update_self] at mine
      rw [others k (Ne.symm other)] at theirs
      exact free l mine k theirs
    · rw [others j here] at mine
      by_cases there : k = i
      · subst there
        rw [Function.update_self] at theirs
        exact free l theirs j mine
      · rw [others k there] at theirs
        exact overlaid.apart j k l other mine theirs
  · by_cases here : j = i
    · subst here
      rw [Function.update_self] at quiet
      cases quiet
    · rw [Function.update_of_ne here] at quiet
      exact (others j here).trans (overlaid.idle j quiet)
  · by_cases here : j = i
    · subst here
      rw [Function.update_self] at job ⊢
      cases job
      exact ⟨s', ends', fun l mine => sameSymm (equal l (.inl mine))⟩
    · rw [Function.update_of_ne here] at job
      rw [others j here]
      exact endsKept overlaid job (fun l _ => sameRefl s) (fun l _ => sameRefl s)
        fun l mine => endsOutside ends (.inl fun new => free l new j mine)
  · have old : (∀ j, l ∉ parts j) ∨ l ∈ d.fixed := by
      refine outside.imp_left fun none j mine => ?_
      by_cases here : j = i
      · subst here
        rw [overlaid.idle j idle] at mine
        exact mine
      · exact none j (others j here ▸ mine)
    refine sameTrans (overlaid.rest l old) (endsOutside ends ?_)
    exact outside.imp_left fun none => by simpa using none i

theorem overlaidStep {op : ι} {next : ρ → Program ι ρ α} (overlaid : Overlaid d parts jobs s t)
    (job : jobs i = some (.call op next, a)) : (∃ r s', d.perform op s = .ok r s') ∧
      ∀ r s', d.perform op s = .ok r s' →
        Overlaid d parts (Function.update jobs i (some (next r, a))) s' t := by
  obtain ⟨u, ends, equal⟩ := overlaid.ends i _ a job
  obtain ⟨goes, steps⟩ := endsStep ends
  refine ⟨goes, fun r s' taken => ?_⟩
  obtain ⟨rest, still⟩ := steps r s' taken
  refine ⟨overlaid.apart, fun j quiet => ?_, fun j y b job' => ?_, fun l outside => ?_⟩
  · by_cases here : j = i
    · subst here
      rw [Function.update_self] at quiet
      cases quiet
    · rw [Function.update_of_ne here] at quiet
      exact overlaid.idle j quiet
  · by_cases here : j = i
    · subst here
      rw [Function.update_self] at job'
      cases job'
      exact ⟨u, rest, equal⟩
    · rw [Function.update_of_ne here] at job'
      exact endsKept overlaid job' (fun l mine => still l (.inl (overlaid.apart j i l here mine)))
        (fun l fixed => still l (.inr fixed)) fun l _ => sameRefl t
  · exact sameTrans (sameSymm (still l (outside.imp_left fun none => none i))) (overlaid.rest l outside)

theorem overlaidEnd {v : α} (overlaid : Overlaid d parts jobs s t) (job : jobs i = some (.done v, a)) :
    v = a ∧ Overlaid d (Function.update parts i ∅) (Function.update jobs i none) s t := by
  obtain ⟨u, ends, equal⟩ := overlaid.ends i _ a job
  cases ends with
  | done alike =>
  refine ⟨rfl, fun j k l other mine theirs => ?_, fun j quiet => ?_, fun j y b job' => ?_,
    fun l outside => ?_⟩
  · by_cases here : j = i
    · subst here
      rw [Function.update_self] at mine
      exact mine
    · rw [Function.update_of_ne here] at mine
      by_cases there : k = i
      · subst there
        rw [Function.update_self] at theirs
        exact theirs
      · rw [Function.update_of_ne there] at theirs
        exact overlaid.apart j k l other mine theirs
  · by_cases here : j = i
    · subst here
      exact Function.update_self _ _ _
    · rw [Function.update_of_ne here] at quiet ⊢
      exact overlaid.idle j quiet
  · by_cases here : j = i
    · subst here
      rw [Function.update_self] at job'
      cases job'
    · rw [Function.update_of_ne here] at job' ⊢
      exact overlaid.ends j y b job'
  · by_cases mine : l ∈ parts i
    · exact sameTrans (alike l) (equal l mine)
    · refine overlaid.rest l (outside.imp_left fun none j => ?_)
      by_cases here : j = i
      · exact here ▸ mine
      · simpa [here] using none j

end

theorem overlaidWhole {β : Type} {y : Program ι ρ β} {b : β} (overlaid : Overlaid d parts jobs s t)
    (free : ∀ l ∈ part, ∀ j, l ∉ parts j) (ends : Ends d part y t b t') :
    (∃ s', d.run y s = .ok b s') ∧ ∀ s', d.run y s = .ok b s' → Overlaid d parts jobs s' t' := by
  obtain ⟨u, ends', equal⟩ := endsFrame ends (overlaidFree overlaid free)
  obtain ⟨s', run, last⟩ := endsRun ends'
  have outside : ∀ l, l ∉ part ∨ l ∈ d.fixed → d.same l s s' := fun l other =>
    sameTrans (endsOutside ends' other) (last l)
  refine ⟨⟨s', run⟩, fun w again => ?_⟩
  cases run.symm.trans again
  refine ⟨overlaid.apart, overlaid.idle, fun j y b job => ?_, fun l none => ?_⟩
  · exact endsKept overlaid job (fun l mine => outside l (.inl fun new => free l new j mine))
      (fun l fixed => outside l (.inr fixed)) fun l mine =>
        endsOutside ends (.inl fun new => free l new j mine)
  · by_cases here : l ∈ part
    · exact sameTrans (sameSymm (last l)) (sameSymm (equal l (.inl here)))
    · exact sameTrans (sameSymm (outside l (.inl here)))
        (sameTrans (overlaid.rest l none) (endsOutside ends (.inl here)))

end LocalSections
