import Nuaf.Library.Simulation
import Nuaf.RegionSteps

/-! The threads under their locks beside threads whose regions are one step each. A region counts
as done there from the moment its mutex is taken; what is still to be done of it here is a job. -/
namespace Nuaf.LockedThreads
open Layout ByteMemory Machine Source Heap Threads SharedHeap CallTree LocalSections Accesses
open Locks (Region Mutex)

def concerns (τ : Nat) : Threads.Event → Bool
  | .called υ _ | .advanced υ _ _ | .faulted υ _ | .returned υ | .stored υ _ => υ = τ
  | .handedOver giver taker _ => giver = τ ∨ taker = τ

def eventsOf (τ : Nat) (h : Threads.History) : Threads.History := h.filter (concerns τ)

def Spot.pc : Spot → Option Pc
  | .out pc | .asks pc => some pc
  | .counting _ => some .freed
  | .locking _ | .frozen | .thawing => some .idle
  | .inside _ _ => none

abbrev Job := Option (Body Nat × Nat)

inductive Beside (h : History) (s : System) (g : Threads.History) (t : Threads.System) (τ : Nat) :
    Job → Prop where
  | rest {pc} (spot : (s.spot τ).pc = some pc) (place : t.pc τ = pc)
      (events : eventsOf τ g = eventsOf τ (told h)) : Beside h s g t τ none
  | inside {pc x v} (spot : s.spot τ = .inside pc x) (place : t.pc τ = served pc v)
      (events : eventsOf τ g = .advanced τ pc (served pc v) :: eventsOf τ (told h)) :
      Beside h s g t τ (some (x, v))

structure Settles (h : History) (s : System) (g : Threads.History) (t : Threads.System)
    (parts : Nat → Set Place) (jobs : Nat → Job) : Prop where
  overlaid : Overlaid device parts jobs s.heap t.heap
  beside : ∀ τ, Beside h s g t τ (jobs τ)
  within : ∀ τ l, l ∈ parts τ → ∃ pc x r, s.spot τ = .inside pc x ∧ region pc = some r ∧ l ∈ territory r.mutex
  sole : ∀ τ υ o a, υ ≠ τ → Claims g t υ o → Spans o.ptr o.size (a / pageSize) → .byte a ∉ parts τ

variable {pid τ υ : Nat} {h h' : History} {s s' : System} {g g' : Threads.History} {t t' : Threads.System}
  {parts : Nat → Set Place} {jobs : Nat → Job} {own : Owner} {chains : Chains} {pc : Pc} {job : Job}
  {e : Threads.Event} {o : Object}

theorem concernsOwned (h : Threads.History) (τ : Nat) : owned h τ = owned (eventsOf τ h) τ := by
  induction h with
  | nil => rfl
  | cons e h ih =>
    cases e with
    | called υ pc | faulted υ pc | returned υ | stored υ addr =>
      simp only [eventsOf, List.filter_cons]
      split <;> exact ih
    | advanced υ before after =>
      simp only [eventsOf, List.filter_cons, concerns, owned]
      by_cases self : υ = τ
      · simp only [self, decide_true, if_true, owned]
        rw [ih]
        rfl
      · simp only [self, decide_false, Bool.false_eq_true, if_false, if_neg (Ne.symm self)]
        exact ih
    | handedOver giver taker object =>
      simp only [eventsOf, List.filter_cons, concerns, owned]
      by_cases self : giver = τ ∨ taker = τ
      · simp only [self, decide_true, if_true, owned]
        rw [ih]
        rfl
      · rw [not_or] at self
        simp only [self, or_self, decide_false, Bool.false_eq_true, if_false, if_neg (Ne.symm self.1),
          if_neg (Ne.symm self.2)]
        exact ih

theorem sameOwned {a b : Threads.History} (same : eventsOf τ a = eventsOf τ b) : owned a τ = owned b τ := by
  rw [concernsOwned, same, ← concernsOwned]

theorem eventsCons (h : Threads.History) (e : Threads.Event) (τ : Nat) :
    eventsOf τ (e :: h) = if concerns τ e then e :: eventsOf τ h else eventsOf τ h := List.filter_cons

theorem eventsOther (h : Threads.History) (other : concerns τ e = false) :
    eventsOf τ (e :: h) = eventsOf τ h := by
  rw [eventsCons, other]
  rfl

theorem eventsBoth {a b : Threads.History} (same : eventsOf τ a = eventsOf τ b) (e : Threads.Event) :
    eventsOf τ (e :: a) = eventsOf τ (e :: b) := by
  rw [eventsCons, eventsCons, same]

theorem besideJob (beside : Beside h s g t τ job) {pc : Pc} (spot : (s.spot τ).pc = some pc) :
    job = none ∧ t.pc τ = pc ∧ eventsOf τ g = eventsOf τ (told h) := by
  cases beside with
  | rest spot' place events =>
    cases spot.symm.trans spot'
    exact ⟨rfl, place, events⟩
  | inside spot' place events =>
    rw [spot'] at spot
    cases spot

theorem besideInside (beside : Beside h s g t τ job) {pc : Pc} {x : Body Nat} (spot : s.spot τ = .inside pc x) :
    ∃ v, job = some (x, v) ∧ t.pc τ = served pc v ∧
      eventsOf τ g = .advanced τ pc (served pc v) :: eventsOf τ (told h) := by
  cases beside with
  | rest spot' place events =>
    rw [spot] at spot'
    cases spot'
  | inside spot' place events =>
    cases spot.symm.trans spot'
    exact ⟨_, rfl, place, events⟩

theorem besideKept (beside : Beside h s g t τ job) (spot : s'.spot τ = s.spot τ) (place : t'.pc τ = t.pc τ)
    (above : eventsOf τ g' = eventsOf τ g) (below : eventsOf τ (told h') = eventsOf τ (told h)) :
    Beside h' s' g' t' τ job := by
  cases beside with
  | rest spot' place' events =>
    exact .rest (spot ▸ spot') (place.trans place') (above.trans (events.trans below.symm))
  | inside spot' place' events =>
    exact .inside (spot.trans spot') (place.trans place') (by rw [above, below, events])

theorem settlesIdle (settles : Settles h s g t parts jobs) (idle : jobs τ = none) (l : Place) :
    l ∉ parts τ := by
  rw [settles.overlaid.idle τ idle]
  exact Set.notMem_empty l

/- Every step but the beginning and the end of a region: jobs go on at most, and nobody comes to
hold anything that a thread without a job did not hold before. -/
theorem settlesKeep {jobs' : Nat → Job} (settles : Settles h s g t parts jobs)
    (overlaid : Overlaid device parts jobs' s'.heap t'.heap) (beside : ∀ υ, Beside h' s' g' t' υ (jobs' υ))
    (spots : ∀ υ pc x, s.spot υ = .inside pc x → ∃ x', s'.spot υ = .inside pc x')
    (claims : ∀ υ o, Claims g' t' υ o → ∃ υ', Claims g t υ' o ∧ (υ' = υ ∨ jobs υ' = none)) :
    Settles h' s' g' t' parts jobs' := by
  refine ⟨overlaid, beside, fun τ l mine => ?_, fun τ υ o a other claim spans mine => ?_⟩
  · obtain ⟨pc, x, r, spot, locked, here⟩ := settles.within τ l mine
    obtain ⟨x', later⟩ := spots τ pc x spot
    exact ⟨pc, x', r, later, locked, here⟩
  · obtain ⟨υ', before, same | idle⟩ := claims υ o claim
    · exact settles.sole τ υ' o a (same ▸ other) before spans mine
    · refine settles.sole τ υ' o a (fun self => ?_) before spans mine
      exact settlesIdle settles (self ▸ idle) _ mine

theorem settlesMove {pc : Pc} (settles : Settles h s g t parts jobs) (before : (s.spot τ).pc = some pc)
    (after : (s'.spot τ).pc = some (t'.pc τ)) (events : eventsOf τ g' = eventsOf τ (told h'))
    (others : ∀ υ, υ ≠ τ → s'.spot υ = s.spot υ ∧ t'.pc υ = t.pc υ ∧ eventsOf υ g' = eventsOf υ g ∧
      eventsOf υ (told h') = eventsOf υ (told h))
    (overlaid : Overlaid device parts jobs s'.heap t'.heap)
    (claims : ∀ υ o, Claims g' t' υ o → ∃ υ', Claims g t υ' o ∧ (υ' = υ ∨ jobs υ' = none)) :
    Settles h' s' g' t' parts jobs := by
  obtain ⟨idle, _⟩ := besideJob (settles.beside τ) before
  refine settlesKeep settles overlaid (fun υ => ?_) (fun υ pc' x inside => ?_) claims
  · by_cases self : υ = τ
    · subst self
      rw [idle]
      exact .rest after rfl events
    · obtain ⟨spot, place, above, below⟩ := others υ self
      exact besideKept (settles.beside υ) spot place above below
  · refine ⟨x, (others υ fun self => ?_).1.trans inside⟩
    rw [← self, inside] at before
    cases before

theorem settlesWait {pc : Pc} (settles : Settles h s g t parts jobs) (before : (s.spot τ).pc = some pc)
    (after : (s'.spot τ).pc = some pc) (others : ∀ υ, υ ≠ τ → s'.spot υ = s.spot υ)
    (same : told h' = told h) (overlaid : Overlaid device parts jobs s'.heap t.heap) :
    Settles h' s' g t parts jobs := by
  obtain ⟨_, place, events⟩ := besideJob (settles.beside τ) before
  exact settlesMove settles before (after.trans (congrArg some place.symm)) (same ▸ events)
    (fun υ other => ⟨others υ other, rfl, rfl, by rw [same]⟩) overlaid fun υ o claim => ⟨υ, claim, .inl rfl⟩

theorem claimsGoto (quiet : ∀ size shadow, pc ≠ .magic size shadow ∧ pc ≠ .count size shadow)
    (claim : Claims g' (t.goto τ pc) υ o) (same : owned g' υ = owned g υ) : Claims g t υ o := by
  cases claim with
  | held mine => exact .held (same ▸ mine)
  | @making size shadow at' =>
    by_cases self : υ = τ
    · subst self
      rw [gotoSelf] at at'
      exact absurd at' (not_or.mpr (quiet size shadow))
    · rw [gotoOther t pc self] at at'
      exact .making at'

theorem claimsAdvance {pc' : Pc} {σ' : State} {own' : Owner} {chains' : Chains}
    (change : Change g t.heap own chains (t.pc τ) pc' σ' own' chains')
    (claim : Claims (.advanced τ (t.pc τ) pc' :: g) { t.goto τ pc' with heap := σ' } υ o) :
    Claims g t υ o ∨ υ = τ ∧ Fresh pc' o ∧ region (t.pc τ) ≠ none := by
  have place := fun υ => show ({ t.goto τ pc' with heap := σ' } : Threads.System).pc υ = (t.goto τ pc').pc υ from rfl
  cases claim with
  | held mine =>
    rcases ownedBefore change mine with ⟨old, _⟩ | ⟨rfl, new⟩
    · exact .inl (.held old)
    · generalize before : t.pc υ = pc at change
      cases change with
      | serve small grant => exact .inr ⟨rfl, .inl new, by simp [region]⟩
      | header at' writes =>
        cases writes with
        | magic => cases new
        | count =>
          obtain ⟨ptr, size⟩ := o
          cases new
          exact .inl (.making (.inr before))
      | look looks fits =>
        rw [new] at looks
        cases looks
      | _ => cases new
  | @making size shadow at' =>
    rw [place] at at'
    by_cases self : υ = τ
    · subst self
      rw [gotoSelf] at at'
      generalize before : t.pc υ = pc at change
      cases change with
      | map big fits room =>
        rcases at' with at' | at' <;> cases at'
        exact .inr ⟨rfl, .inr ⟨_, rfl, rfl⟩, by simp [region]⟩
      | header at'' writes =>
        cases writes with
        | magic =>
          rcases at' with at' | at' <;> cases at'
          exact .inl (.making (.inl before))
        | count => rcases at' with at' | at' <;> cases at'
      | look looks fits => rcases at' with at' | at' <;> (rw [at'] at looks; cases looks)
      | _ => rcases at' with at' | at' <;> cases at'
    · rw [gotoOther t pc' self] at at'
      exact .inl (.making at')

/- What is read as what: a region as one step, when its mutex is taken, and everything else as it
is. -/
inductive Point : Event → Threads.Event → Prop where
  | stepped {e : Threads.Event} : Point (.stepped e) e
  | acquired {τ v : Nat} {pc : Pc} : Point (.acquired τ pc) (.advanced τ pc (served pc v))

def Follows (pid : Nat) (h : History) (g : Threads.History) (t : Threads.System) (e : Event)
    (s' : System) : Prop :=
  (∀ d, ¬ Point e d) ∧ (∃ parts jobs, Settles (e :: h) s' g t parts jobs) ∨
    ∃ d t', Point e d ∧ Threads.Step pid Owning Within g t d t' ∧
      ∃ parts jobs, Settles (e :: h) s' (d :: g) t' parts jobs

theorem followsSilent {e : Event} (silent : ∀ d, ¬ Point e d)
    (settles : Settles (e :: h) s' g t parts jobs) : Follows pid h g t e s' :=
  .inl ⟨silent, _, _, settles⟩

theorem followsStep {e : Event} {d : Threads.Event} (at' : Point e d)
    (taken : Threads.Step pid Owning Within g t d t')
    (settles : Settles (e :: h) s' (d :: g) t' parts jobs) : Follows pid h g t e s' :=
  .inr ⟨d, t', at', taken, _, _, settles⟩

theorem wentSilent (d : Threads.Event) : ¬ Point (.went τ) d := fun at' => nomatch at'

theorem releasedSilent {after : Pc} (d : Threads.Event) : ¬ Point (.released τ pc after) d :=
  fun at' => nomatch at'

end Nuaf.LockedThreads
