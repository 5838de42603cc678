import Nuaf.ThreadInvariant

/-! Threads that use only what they hold. An object is held by one thread at a time, stays
mapped while it is, and every call under way is on an object its own thread holds. -/
namespace Nuaf.Threads
open Layout ByteMemory Machine Source Heap

structure Shares (h : History) (s : System) : Prop where
  known : ∀ τ, ∀ o ∈ owned h τ, o ∈ handed h
  sole : ∀ τ υ o, o ∈ owned h τ → o ∈ owned h υ → τ = υ
  named : ∀ τ p, (s.pc τ).named = some p → ∃ o ∈ owned h τ, o.ptr = p
  mapped : ∀ τ, ∀ o ∈ owned h τ, s.heap.mem o.ptr ≠ none

variable {pid : Nat} {h : History} {σ σ' : State} {own own' : Owner} {chains chains' : Chains}
  {pc pc' : Pc} {o p : Object} {s s' : System} {e : Event} {τ υ φ : Nat}

theorem ownedHeld (races : Races pid h s own chains) (shares : Shares h s) (mine : o ∈ owned h τ) :
    Held own o.ptr o.size := by
  rcases races.fates o (shares.known τ o mine) with held | dead
  · exact held
  · exact absurd (retiredHole races.inv (dead _ (spansSelf _ _)) rfl) (shares.mapped τ o mine)

theorem leavingNamed (leaving : Leaving o pc) : pc.named = some o.ptr := by
  cases leaving <;> rfl

theorem keepsChange {objects : List Object}
    (change : Change h σ own chains pc pc' σ' own' chains') (member : o ∈ keeps objects pc pc') :
    (o ∈ objects ∧ ∀ p, Leaving p pc → o.ptr ≠ p.ptr) ∨ pc' = .got o.size o.ptr := by
  have named : ∀ {p : Object} {ptr : Nat}, pc.named = some ptr → Leaving p pc → p.ptr = ptr :=
    fun at' leaving => Option.some.inj ((leavingNamed leaving).symm.trans at')
  cases change with
  | serve small grant =>
    rcases List.mem_cons.mp member with rfl | old
    · exact .inr rfl
    · exact .inl ⟨old, fun p leaving => by cases leaving⟩
  | map big fits room => exact .inl ⟨member, fun p leaving => by cases leaving⟩
  | header at' writes =>
    cases writes with
    | magic => exact .inl ⟨member, fun p leaving => by cases leaving⟩
    | count =>
      rcases List.mem_cons.mp member with rfl | old
      · exact .inr rfl
      · exact .inl ⟨old, fun p leaving => by cases leaving⟩
  | release known leaving held release =>
    refine .inl ?_
    cases leaving with
    | moving small =>
      obtain ⟨old, differ⟩ := List.mem_filter.mp member
      exact ⟨old, fun p leaving same => of_decide_eq_true differ (same.trans (named rfl leaving))⟩
    | unmapping big =>
      obtain ⟨old, differ⟩ := List.mem_filter.mp member
      exact ⟨old, fun p leaving same => of_decide_eq_true differ (same.trans (named rfl leaving))⟩
  | stale known big dead =>
    obtain ⟨old, differ⟩ := List.mem_filter.mp member
    exact .inl ⟨old, fun p leaving same => of_decide_eq_true differ (same.trans (named rfl leaving))⟩
  | look looks fits =>
    refine .inl ?_
    cases looks <;> exact ⟨member, fun p leaving => by cases leaving⟩

theorem namedChange (change : Change h σ own chains pc pc' σ' own' chains') {ptr : Nat}
    (at' : pc'.named = some ptr) :
    pc.named = some ptr ∧ ∀ objects, keeps objects pc pc' = objects := by
  cases change with
  | header at'' writes => cases writes <;> cases at'
  | look looks fits => cases looks <;> first | exact ⟨at', fun _ => rfl⟩ | cases at'
  | _ => cases at'

theorem ownedAdvance : owned (.advanced τ pc pc' :: h) υ =
    if υ = τ then keeps (owned h υ) pc pc' else owned h υ := rfl

section
variable (change : Change h s.heap own chains (s.pc τ) pc' σ' own' chains')
include change

theorem ownedBefore {o : Object} (member : o ∈ owned (.advanced τ (s.pc τ) pc' :: h) υ) :
    (o ∈ owned h υ ∧ (υ = τ → ∀ p, Leaving p (s.pc τ) → o.ptr ≠ p.ptr)) ∨
      (υ = τ ∧ pc' = .got o.size o.ptr) := by
  rw [ownedAdvance] at member
  split at member
  · rename_i self
    exact (keepsChange change member).imp (fun old => ⟨old.1, fun _ => old.2⟩) fun new => ⟨self, new⟩
  · rename_i other
    exact .inl ⟨member, fun self => absurd self other⟩

theorem namedAdvance (shares : Shares h s) {p : Nat} (at' : ((s.goto τ pc').pc υ).named = some p) :
    ∃ o ∈ owned (.advanced τ (s.pc τ) pc' :: h) υ, o.ptr = p := by
  rw [ownedAdvance]
  by_cases self : υ = τ
  · subst self
    obtain ⟨before, same⟩ := namedChange change (by simpa using at')
    rw [if_pos rfl, same]
    exact shares.named υ p before
  · rw [if_neg self]
    exact shares.named υ p (by simpa [self] using at')

variable (races : Races pid h s own chains)
include races

theorem servedHeld {o : Object} (new : pc' = .got o.size o.ptr) :
    Held own' o.ptr o.size ∧ (∀ p, Fate s.heap own p → Apart o p) ∧
      o ∈ handed (.advanced τ (s.pc τ) pc' :: h) := by
  subst new
  rcases handedChange (τ := τ) races.inv change with same | ⟨size, ptr, at', added, held, fresh⟩
  · have grown : handed (.advanced τ (s.pc τ) (.got o.size o.ptr) :: h) = o :: handed h := rfl
    exact absurd (congrArg List.length (grown.symm.trans same)) (by simp)
  · cases at'
    exact ⟨held, fresh, List.mem_cons_self⟩

variable (shares : Shares h s)
include shares

theorem knownAdvance {o : Object} (member : o ∈ owned (.advanced τ (s.pc τ) pc' :: h) υ) :
    o ∈ handed (.advanced τ (s.pc τ) pc' :: h) := by
  rcases ownedBefore change member with ⟨old, _⟩ | ⟨_, new⟩
  · exact handedGrows races change o (shares.known υ o old)
  · exact (servedHeld change races new).2.2

theorem soleAdvance {o : Object} (mine : o ∈ owned (.advanced τ (s.pc τ) pc' :: h) υ)
    (theirs : o ∈ owned (.advanced τ (s.pc τ) pc' :: h) φ) : υ = φ := by
  have never : ∀ χ, o ∈ owned h χ → pc' ≠ .got o.size o.ptr := fun χ old new =>
    (servedHeld change races new).2.1 o (races.fates o (shares.known χ o old)) _
      (spansSelf _ _) (spansSelf _ _)
  rcases ownedBefore change mine with ⟨old, _⟩ | ⟨self, new⟩ <;>
    rcases ownedBefore change theirs with ⟨old', _⟩ | ⟨self', new'⟩
  · exact shares.sole υ φ o old old'
  · exact absurd new' (never υ old)
  · exact absurd new (never φ old')
  · exact self.trans self'.symm

theorem mappedAdvance {o : Object} (member : o ∈ owned (.advanced τ (s.pc τ) pc' :: h) υ) :
    σ'.mem o.ptr ≠ none := by
  have inv' := changeInv races.inv change
  rcases ownedBefore change member with ⟨old, stays⟩ | ⟨_, new⟩
  · have held := ownedHeld races shares old
    have untouched : ¬ Touched h own σ' own' (s.pc τ) (o.ptr / pageSize) := by
      intro touched
      cases touched with
      | writing mine at' early low high =>
        exact writingApart races.inv at' early low high (.inl held) (spansSelf _ _)
      | freeing known leaving held' gone page =>
        have same := apartSame races.apart (shares.known υ o old) known (spansSelf _ _) page
        subst same
        obtain ⟨p, mine, at'⟩ := shares.named τ _ (leavingNamed leaving)
        have same := samePointer races known (shares.known τ p mine) at'
        exact stays (shares.sole υ τ o old (same ▸ mine)) o leaving rfl
    have busy := (changeFrame races.inv change).busy _ (heldBusy races.inv held) untouched
    exact insideMapped inv' (heldKept busy held) (insideSelf _ _)
  · exact insideMapped inv' (servedHeld change races new).1 (insideSelf _ _)

theorem sharesAdvance :
    Shares (.advanced τ (s.pc τ) pc' :: h) { s.goto τ pc' with heap := σ' } :=
  ⟨fun _ _ => knownAdvance change races shares, fun _ _ _ => soleAdvance change races shares,
    fun _ _ => namedAdvance change shares, fun _ _ => mappedAdvance change races shares⟩

end

theorem owningRacing (shares : Shares h s) {within : State → Prop}
    (taken : Step pid Owning within h s e s') : Step pid Racing within h s e s' := by
  cases taken with
  | called ready allowed =>
    refine .called ready ?_
    cases allowed with
    | malloc size => exact .malloc size
    | free mine => exact .free (shares.known _ _ mine)
    | query mine => exact .query (shares.known _ _ mine)
  | advanced reliable running call limit => exact .advanced reliable running call limit
  | faulted reliable call limit => exact .faulted reliable call limit
  | returned done => exact .returned done
  | stored ready allowed call =>
    refine .stored ready ?_ call
    cases allowed with
    | store mine inside => exact .store (shares.known _ _ mine) inside
  | handedOver ready allowed => exact .handedOver ready .handOver

theorem ownedHandOver {giver taker : Nat} : p ∈ owned (.handedOver giver taker o :: h) τ ↔
    (p = o ∧ τ = taker) ∨ (p ∈ owned h τ ∧ (τ = giver → p ≠ o)) := by
  simp only [owned]
  split <;> split <;> simp_all

theorem sharesGoto (shares : Shares h s) (same : ∀ υ, owned (e :: h) υ = owned h υ)
    (handed' : handed (e :: h) = handed h)
    (named : ∀ p, pc.named = some p → ∃ o ∈ owned h τ, o.ptr = p) :
    Shares (e :: h) (s.goto τ pc) := by
  refine ⟨?_, ?_, fun υ p at' => ?_, ?_⟩
  · simp only [same, handed']
    exact shares.known
  · simp only [same]
    exact shares.sole
  · rw [same]
    by_cases self : υ = τ
    · subst self
      exact named p (by simpa using at')
    · exact shares.named υ p (by simpa [self] using at')
  · simp only [same]
    exact shares.mapped

theorem sharesHandOver {giver taker : Nat} (shares : Shares h s) (ready : s.pc giver = .idle)
    (mine : o ∈ owned h giver) : Shares (.handedOver giver taker o :: h) s := by
  refine ⟨fun υ p member => ?_, fun υ φ p left right => ?_, fun υ ptr at' => ?_, fun υ p member => ?_⟩
  · rcases ownedHandOver.mp member with ⟨rfl, _⟩ | ⟨old, _⟩
    · exact shares.known giver p mine
    · exact shares.known υ p old
  · rcases ownedHandOver.mp left with ⟨rfl, here⟩ | ⟨old, other⟩ <;>
      rcases ownedHandOver.mp right with ⟨same, there⟩ | ⟨old', other'⟩
    · exact here.trans there.symm
    · exact absurd rfl (other' (shares.sole _ _ _ old' mine))
    · subst same
      exact absurd rfl (other (shares.sole _ _ _ old mine))
    · exact shares.sole υ φ p old old'
  · obtain ⟨p, mine', same⟩ := shares.named υ ptr at'
    refine ⟨p, ownedHandOver.mpr (.inr ⟨mine', fun self => ?_⟩), same⟩
    rw [self, ready] at at'
    cases at'
  · rcases ownedHandOver.mp member with ⟨rfl, _⟩ | ⟨old, _⟩
    · exact shares.mapped giver p mine
    · exact shares.mapped υ p old

theorem sharesStep (races : Races pid h s own chains) (shares : Shares h s)
    (taken : Step pid Owning Within h s e s') : Shares (e :: h) s' := by
  cases taken with
  | called ready allowed =>
    refine sharesGoto shares (fun _ => rfl) rfl fun p at' => ?_
    cases allowed with
    | malloc size => cases at'
    | free mine => exact ⟨_, mine, Option.some.inj at'⟩
    | query mine => exact ⟨_, mine, Option.some.inj at'⟩
  | advanced reliable running call limit =>
    obtain ⟨own', chains', change⟩ := advanceChange races reliable running call limit
    exact sharesAdvance change races shares
  | faulted reliable call limit =>
    obtain ⟨rfl, _⟩ := faultDead races reliable call
    exact sharesGoto shares (fun _ => rfl) rfl fun p at' => by cases at'
  | returned done => exact sharesGoto shares (fun _ => rfl) rfl fun p at' => by cases at'
  | @stored _ _ _ byte ready allowed call =>
    cases allowed with
    | store mine inside =>
      obtain ⟨held, rfl⟩ := storedHeld races (shares.known _ _ mine) inside call
      have inv' : Inv (wrote _ 1 byte.toNat s.heap) own chains :=
        invStore races.inv (insideWritable races.inv held
          ⟨Nat.le_add_right _ _, Nat.add_lt_add_left inside _⟩)
      refine ⟨shares.known, shares.sole, shares.named, fun υ o member => ?_⟩
      rw [Ne, inv'.mapped, ← races.inv.mapped]
      exact shares.mapped υ o member
  | @handedOver giver taker object ready allowed =>
    cases allowed with
    | handOver mine =>
      exact sharesHandOver shares ready mine

theorem sharesInit (begun : Began pid s) : Shares [] s := by
  refine ⟨fun τ o member => ?_, fun τ υ o member => ?_, fun τ p at' => ?_, fun τ o member => ?_⟩
  · cases member
  · cases member
  · rw [begun.2 τ] at at'
    cases at'
  · cases member

theorem sharesRun (run : Run pid Owning Within h s) :
    ∃ own chains, Races pid h s own chains ∧ Shares h s := by
  refine @Trace.runInvariant _ _ _ _ h s
    (fun h s => ∃ own chains, Races pid h s own chains ∧ Shares h s)
    (fun s begun => ⟨_, _, racesInit begun, sharesInit begun⟩) ?_ run
  rintro h s e s' ⟨own, chains, races, shares⟩ taken
  obtain ⟨own', chains', races'⟩ := racesStep races (owningRacing shares taken)
  exact ⟨own', chains', races', sharesStep races shares taken⟩

end Nuaf.Threads
