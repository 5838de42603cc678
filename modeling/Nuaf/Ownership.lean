import Nuaf.Deallocation

/-! What a whole xxmalloc or xxfree leaves alone: the pages of every other live object, and
the pages that have passed out of use for good. -/
namespace Nuaf.Heap
open Layout ByteMemory LinkedStack Machine Source

variable {σ σ' : State} {own own' : Owner} {chains chains' : Chains} {ptr size p q n m g : Nat}

def Spans (ptr size g : Nat) : Prop :=
  ptr / pageSize ≤ g ∧ g < ptr / pageSize + (if size ≤ largestBlockSize then 1 else bigPages size)

theorem spansSmall (small : size ≤ largestBlockSize) : Spans ptr size g ↔ g = ptr / pageSize := by
  rw [Spans, if_pos small]
  omega

theorem spansBig (big : largestBlockSize < size) :
    Spans ptr size g ↔ ptr / pageSize ≤ g ∧ g < ptr / pageSize + bigPages size := by
  rw [Spans, if_neg (Nat.not_le.mpr big)]

theorem spansSelf (ptr size : Nat) : Spans ptr size (ptr / pageSize) := by
  unfold Spans
  have := bigPagesPositive size
  split <;> omega

def Busy (own : Owner) (g : Nat) : Prop :=
  ∃ u, own g = some u ∧ ∀ t offset, u ≠ .small t offset true

theorem heldSpans (inv : Inv σ own chains) (held : Held own p n) (page : Spans p n g) :
    own g = own (p / pageSize) ∧ Busy own g := by
  rcases Nat.lt_or_ge largestBlockSize n with big | small
  · have owned := ((heldBig big).mp held).1
    obtain ⟨low, high⟩ := (spansBig big).mp page
    have here := (inv.big owned).2.2.whole g low high
    exact ⟨here.trans owned.symm, _, here, fun t offset h => by cases h⟩
  · have owned := (heldSmall small).mp held
    rw [(spansSmall small).mp page]
    exact ⟨rfl, _, owned, fun t offset h => by cases h⟩

theorem heldBusy (inv : Inv σ own chains) (held : Held own p n) : Busy own (p / pageSize) :=
  (heldSpans inv held (spansSelf p n)).2

theorem heldApart (inv : Inv σ own chains) (left : Held own p n) (right : Held own q m)
    (here : Spans p n g) (there : Spans q m g) : p = q := by
  have same := (heldSpans inv left here).1.symm.trans (heldSpans inv right there).1
  have splitP := pageSplit p
  have splitQ := pageSplit q
  rcases Nat.lt_or_ge largestBlockSize n with big | small
  · obtain ⟨owned, offset⟩ := (heldBig big).mp left
    rw [owned] at same
    rcases Nat.lt_or_ge largestBlockSize m with big' | small'
    · obtain ⟨owned', offset'⟩ := (heldBig big').mp right
      rw [owned'] at same
      simp only [Option.some.injEq, Use.big.injEq] at same
      rw [same.1] at splitP
      omega
    · rw [(heldSmall small').mp right] at same
      cases same
  · rw [(heldSmall small).mp left] at same
    rcases Nat.lt_or_ge largestBlockSize m with big' | small'
    · rw [((heldBig big').mp right).1] at same
      cases same
    · rw [(heldSmall small').mp right] at same
      simp only [Option.some.injEq, Use.small.injEq] at same
      have pages : p / pageSize = q / pageSize :=
        ((spansSmall small).mp here).symm.trans ((spansSmall small').mp there)
      simp only [pageSize] at *
      omega

theorem insideSpans (inv : Inv σ own chains) (held : Held own p n) (inside : Inside p n q) :
    Spans p n (q / pageSize) := by
  rcases Nat.lt_or_ge largestBlockSize n with big | small
  · obtain ⟨low, high, _⟩ := insideBig big held inside
    exact (spansBig big).mpr ⟨low, high⟩
  · exact (spansSmall small).mpr (insideSmall inv small held inside).1

theorem insideWritable (inv : Inv σ own chains) (held : Held own p n) (inside : Inside p n q) :
    Writable own q := by
  rcases Nat.lt_or_ge largestBlockSize n with big | small
  · have owned := ((heldBig big).mp held).1
    obtain ⟨low, high, past⟩ := insideBig big held inside
    exact .inr ⟨_, _, _, (inv.big owned).2.2.whole _ low high, past⟩
  · obtain ⟨page, _⟩ := insideSmall inv small held inside
    have owned := (heldSmall small).mp held
    rw [← page] at owned
    refine .inl ⟨_, _, owned, ?_⟩
    have low := inside.1
    simp only [pageSize] at *
    omega

theorem insideMapped (inv : Inv σ own chains) (held : Held own p n) (inside : Inside p n q) :
    σ.mem q ≠ none := by
  obtain ⟨u, owned, _⟩ := (heldSpans inv held (insideSpans inv held inside)).2
  rw [Ne, inv.mapped, owned]
  simp

/- Pages behind high_vaddr, or behind large_obj_next_page, that nobody owns: no operation
ever maps them again. -/
def Retired (σ : State) (own : Owner) (g : Nat) : Prop :=
  own g = none ∧ (mmapMinAddr ≤ pageSize * g ∧ pageSize * g + pageSize ≤ σ.highVaddr ∨
    largeObjVaddrStart ≤ pageSize * g ∧ pageSize * g + pageSize ≤ σ.largeObjNextPage)

theorem retiredHole (inv : Inv σ own chains) (retired : Retired σ own g) {a : Nat}
    (page : a / pageSize = g) : σ.mem a = none := by
  rw [inv.mapped, page]
  exact retired.1

theorem retiredAddress (retired : Retired σ own g) {a : Nat} (page : a / pageSize = g) : a ≠ 0 := by
  rintro rfl
  subst page
  rcases retired.2 with low | large
  · exact absurd low.1 (by decide)
  · exact absurd large.1 (by decide)

def Behind (σ : State) (g : Nat) : Prop :=
  (g ≠ σ.highVaddr / pageSize ∨ largeObjVaddrStart < σ.highVaddr + pageSize) ∧
    pageSize * g + pageSize ≤ σ.largeObjNextPage

theorem retiredBehind (inv : Inv σ own chains) (retired : Retired σ own g) : Behind σ g := by
  have base := highPage inv
  have limit := inv.highLimit
  have next := inv.nextLow
  refine ⟨?_, ?_⟩
  · rcases Nat.lt_or_ge largeObjVaddrStart (σ.highVaddr + pageSize) with past | room
    · exact .inr past
    · left
      rintro rfl
      rcases retired.2 with low | large <;> simp only [pageSize] at * <;> omega
  · rcases retired.2 with low | large <;> omega

theorem ownedBehind (inv : Inv σ own chains) (owned : own g ≠ none) : Behind σ g := by
  have aligned := inv.nextAligned
  refine ⟨?_, ?_⟩
  · rcases Nat.lt_or_ge largeObjVaddrStart (σ.highVaddr + pageSize) with past | room
    · exact .inr past
    · exact .inl fun h => owned (h ▸ highUnowned inv room)
  · by_contra past
    exact owned (ownPast inv (by simp only [pageSize] at *; omega))

def Maps (g : Nat) : Call → Prop
  | .mmap addr length _ => addr < pageSize * g + pageSize ∧ pageSize * g < addr + length
  | .mremap _ _ newLength new => new < pageSize * g + pageSize ∧ pageSize * g < new + newLength
  | _ => False

theorem highMaps (inv : Inv σ own chains) {length offset : Nat} (short : length = pageSize) :
    Maps g (.mmap σ.highVaddr length offset) ↔ g = σ.highVaddr / pageSize := by
  have base := highPage inv
  subst short
  simp only [Maps, pageSize] at *
  omega

section
variable (inv : Inv σ own chains) (grant : Grant σ own chains size p σ' own' chains')
include inv grant

theorem grantHeld : Held own' p size := by
  cases grant with
  | carve small _ _ =>
    have base := highPage inv
    have inside := slotCases (inv.canonical _ (blockTypeLt small)).slot
    have split : (σ.highVaddr + (σ.gFlsts (blockType size)).highCanonicalAddr % pageSize) / pageSize =
        σ.highVaddr / pageSize ∧
        (σ.highVaddr + (σ.gFlsts (blockType size)).highCanonicalAddr % pageSize) % pageSize =
        (σ.gFlsts (blockType size)).highCanonicalAddr % pageSize := by
      simp only [pageSize] at *
      omega
    rw [heldSmall small, split.1, split.2]
    exact Function.update_self _ _ _
  | pop small full next =>
    rw [heldSmall small]
    exact Function.update_self _ _ _
  | large big fits room =>
    have base := nextPage inv
    have split : (σ.largeObjNextPage + 16) / pageSize = σ.largeObjNextPage / pageSize ∧
        (σ.largeObjNextPage + 16) % pageSize = 16 := by
      simp only [pageSize] at *
      omega
    rw [heldBig big, split.1]
    exact ⟨rangeIn ⟨Nat.le_refl _, Nat.lt_add_of_pos_right (bigPagesPositive size)⟩, split.2⟩

theorem grantStale : ¬ Busy own (p / pageSize) := by
  rintro ⟨u, owned, busy⟩
  cases grant with
  | carve small _ room =>
    have base := highPage inv
    have inside := slotCases (inv.canonical _ (blockTypeLt small)).slot
    have split : (σ.highVaddr + (σ.gFlsts (blockType size)).highCanonicalAddr % pageSize) / pageSize =
        σ.highVaddr / pageSize := by
      simp only [pageSize] at *
      omega
    rw [split, highUnowned inv room] at owned
    cases owned
  | pop small full next =>
    have freed := (inv.chained _ (blockTypeLt small) p).mp (by simp [full])
    rw [freed] at owned
    cases owned
    exact busy _ _ rfl
  | large big fits room =>
    have base := nextPage inv
    rw [ownPast inv (by simp only [pageSize] at *; omega)] at owned
    cases owned

theorem grantBusy (busy : Busy own g) : own' g = own g := by
  obtain ⟨u, owned, live⟩ := busy
  cases grant with
  | carve small _ room =>
    refine Function.update_of_ne ?_ _ _
    rintro rfl
    rw [highUnowned inv room] at owned
    cases owned
  | pop small full next =>
    refine Function.update_of_ne ?_ _ _
    rintro rfl
    rw [(inv.chained _ (blockTypeLt small) p).mp (by simp [full])] at owned
    cases owned
    exact live _ _ rfl
  | large big fits room =>
    refine rangeOut fun inside => ?_
    rw [ownPast inv (nextPage inv ▸ Nat.mul_le_mul_left pageSize inside.1)] at owned
    cases owned

theorem grantMem {a : Nat} (owned : own (a / pageSize) ≠ none) : σ'.mem a = σ.mem a := by
  cases grant with
  | carve small _ room =>
    have base := highPage inv
    have other : a / pageSize ≠ σ.highVaddr / pageSize := fun h => owned (h ▸ highUnowned inv room)
    refine (writeOut ?_).trans (mapZeroOut ?_) <;> simp only [pageSize] at * <;> omega
  | pop small full next => rfl
  | large big fits room =>
    have base := nextPage inv
    have past : a < σ.largeObjNextPage := by
      by_contra later
      exact owned (ownPast inv (by simp only [pageSize] at *; omega))
    refine (writeOut (by omega)).trans ((writeOut (by omega)).trans ?_)
    rw [(bigMappedFields fits room).1]
    exact mapZeroOut (by omega)

theorem grantRetired (retired : Retired σ own g) : Retired σ' own' g := by
  obtain ⟨fresh, behind⟩ := retiredBehind inv retired
  cases grant with
  | carve small _ room =>
    refine ⟨(Function.update_of_ne ?_ _ _).trans retired.1, ?_⟩
    · exact fresh.resolve_right (Nat.not_lt.mpr room)
    · have grows := (highGrows inv room).1
      exact retired.2.imp_left fun low => ⟨low.1, Nat.le_trans low.2 grows⟩
  | pop small full next =>
    refine ⟨(Function.update_of_ne ?_ _ _).trans retired.1, retired.2⟩
    rintro rfl
    have freed := (inv.chained _ (blockTypeLt small) p).mp (by simp [full])
    rw [retired.1] at freed
    cases freed
  | large big fits room =>
    have base := nextPage inv
    refine ⟨(rangeOut fun inside => ?_).trans retired.1, ?_⟩
    · have := Nat.mul_le_mul_left pageSize inside.1
      simp only [pageSize] at *
      omega
    · have next := (bigMappedFields fits room).2
      refine retired.2.imp_right fun large => ⟨large.1, ?_⟩
      exact Nat.le_trans large.2 (Nat.le_trans (Nat.le_add_right _ _) (Nat.le_of_eq next.symm))

theorem grantMaps (silent : σ.calls = []) (behind : Behind σ g) :
    ∀ c ∈ σ'.calls, ¬ Maps g c := by
  obtain ⟨fresh, behind⟩ := behind
  intro c member
  cases grant with
  | carve small _ room =>
    simp only [carved, silent, List.mem_singleton] at member
    subst member
    rw [highMaps inv rfl]
    exact fresh.resolve_right (Nat.not_lt.mpr room)
  | pop small full next => simp [popped, silent] at member
  | large big fits room =>
    simp only [bigDone, wrote, bigMapped, silent, List.mem_singleton] at member
    subst member
    simp only [Maps]
    omega

end

theorem grantPar (grant : Grant σ own chains size p σ' own' chains') : σ'.parPs = σ.parPs := by
  cases grant <;> rfl

section
variable (inv : Inv σ own chains) (release : Release σ own chains ptr size σ' own' chains')
include inv release

theorem releaseBusy (busy : Busy own g) (other : ¬ Spans ptr size g) : own' g = own g := by
  obtain ⟨u, owned, _⟩ := busy
  cases release with
  | small small room tries =>
    refine (Function.update_of_ne ?_ _ _).trans (Function.update_of_ne ?_ _ _)
    · rintro rfl
      rw [highUnowned inv room] at owned
      cases owned
    · exact fun h => other ((spansSmall small).mpr h)
  | large big => exact rangeOut fun h => other ((spansBig big).mpr h)

theorem releaseMem {a : Nat} (held : Held own ptr size) (owned : own (a / pageSize) ≠ none)
    (other : ¬ Spans ptr size (a / pageSize)) : σ'.mem a = σ.mem a := by
  cases release with
  | small small room tries =>
    have page := (inv.small ((heldSmall small).mp held)).slot
    have inside := slotCases page
    refine recycledOther inv (by simp only [pageSize] at *; omega) ?_ ?_
    · exact fun h => other ((spansSmall small).mpr h)
    · exact fun h => owned (h ▸ highUnowned inv room)
  | large big =>
    exact unmapOut fun h => other ((spansBig big).mpr ((rangePages _ _ _).mpr h))

theorem releaseRetired (retired : Retired σ own g) : Retired σ' own' g := by
  have fresh := (retiredBehind inv retired).1
  cases release with
  | small small room tries =>
    refine ⟨(Function.update_of_ne (fresh.resolve_right (Nat.not_lt.mpr room)) _ _).trans ?_, ?_⟩
    · by_cases here : g = ptr / pageSize
      · rw [here, Function.update_self]
      · rw [Function.update_of_ne here, retired.1]
    · have grows := (highGrows inv room).1
      exact retired.2.imp_left fun low => ⟨low.1, Nat.le_trans low.2 grows⟩
  | large big =>
    refine ⟨?_, retired.2⟩
    unfold setRange
    split
    · rfl
    · exact retired.1

theorem releaseGone (held : Held own ptr size) (page : Spans ptr size g) : Retired σ' own' g := by
  cases release with
  | small small room tries =>
    have here := (spansSmall small).mp page
    have owned := (heldSmall small).mp held
    have page := inv.small owned
    have differ : g ≠ σ.highVaddr / pageSize := by
      rintro rfl
      rw [← here, highUnowned inv room] at owned
      cases owned
    refine ⟨(Function.update_of_ne differ _ _).trans ?_, .inl ?_⟩
    · rw [here, Function.update_self]
    · have grows := (highGrows inv room).1
      rw [here]
      exact ⟨page.low, Nat.le_trans page.high grows⟩
  | large big =>
    have range := (spansBig big).mp page
    have pages := (inv.big ((heldBig big).mp held).1).2.2
    have low := pages.low
    have high := pages.high
    refine ⟨rangeIn range, .inr ?_⟩
    simp only [pageSize, largeObjVaddrStart] at *
    omega

theorem releaseMaps (silent : σ.calls = []) (behind : Behind σ g) :
    ∀ c ∈ σ'.calls, ¬ Maps g c := by
  have fresh := behind.1
  intro c member
  cases release with
  | small small room tries =>
    have target : ∃ old length, c = .mremap old length pageSize σ.highVaddr := by
      simp only [recycled, pushed, relocated, List.mem_cons] at member
      rcases member with rfl | before
      · exact ⟨_, _, rfl⟩
      · rcases tries c before with old | ⟨length, rfl⟩
        · simp [silent] at old
        · exact ⟨_, _, rfl⟩
    obtain ⟨old, length, rfl⟩ := target
    have other := fresh.resolve_right (Nat.not_lt.mpr room)
    have same := @highMaps σ own chains g inv pageSize 0 rfl
    exact fun maps => other (same.mp maps)
  | large big =>
    simp only [silent, List.mem_singleton] at member
    subst member
    exact id

end

theorem releasePar (release : Release σ own chains ptr size σ' own' chains') :
    σ'.parPs = σ.parPs := by
  cases release <;> rfl

theorem heldKept (same : own' (q / pageSize) = own (q / pageSize)) (held : Held own q n) :
    Held own' q n := by
  unfold Held at *
  rwa [same]

/- What runs start from and assume: a process that has just left init_mem, whatever
descriptor mkstemp gave it; README's limit; a kernel that grants what it is asked for. -/
def Started (pid : Nat) (σ : State) : Prop :=
  ∃ k, k.pid = pid ∧ 0 < pid ∧ initMem k image = .ok () σ

def Within (σ : State) : Prop := σ.highVaddr ≤ largeObjVaddrStart
instance (σ : State) : Decidable (Within σ) := by unfold Within; infer_instance

def Reliable (pid : Nat) (k : Kernel) : Prop :=
  k.pid = pid ∧ k.mmapGrants = true ∧ ∀ i, (k.attempt i).grants = true

theorem startedState {pid : Nat} (begun : Started pid σ) : ∃ fd size calls, σ = { image with
    fileSize := size, dataFd := fd, parPs := pid, calls := calls
    gFlsts := fun i => if i < numBlockTypes then ⟨0, i * pageSize + byteAlignment⟩ else ⟨0, 0⟩ } := by
  obtain ⟨k, rfl, some, call⟩ := begun
  rw [initMem, bindOk (getRun _), if_neg (by simp only [image]; omega)] at call
  rcases initBodyCases k image with done | ⟨code, σ', failed, _⟩
  · rw [done] at call
    cases call
    exact ⟨_, _, _, rfl⟩
  · rw [failed] at call
    cases call

theorem startedInv {pid : Nat} (begun : Started pid σ) :
    Inv σ (fun _ => none) (fun _ => []) ∧ σ.parPs = pid := by
  obtain ⟨fd, size, calls, rfl⟩ := startedState begun
  exact ⟨invFresh (fun _ => rfl) rfl rfl fun t cls => if_pos cls, rfl⟩

theorem reliableFirst {pid : Nat} {k : Kernel} (reliable : Reliable pid k) :
    firstGrant k 99 1 = some 1 := by
  rw [firstGrant, if_pos (reliable.2.2 1)]

theorem reliableHarmless {pid : Nat} {k : Kernel} (reliable : Reliable pid k) (σ : State)
    (ptr : Nat) : Harmless k σ ptr := by
  intro j first _ a low high
  cases Option.some.inj ((reliableFirst reliable).symm.trans first)
  omega

end Nuaf.Heap
