import Nuaf.RetryDamage
import Nuaf.Footprint
import Nuaf.FullFile

/-! The exit test of the mremap loop. xxfree concludes from `i == 100` that every attempt
failed, but the counter stands there as well when the 99th and last attempt moved the page. -/
namespace Nuaf.RetryExit
open Layout ByteMemory Machine Source Heap Nuaf.Sequential Exhaustion RetryDamage Outcomes

structure Intact (pid t ptr : Nat) (σ : State) : Prop where
  par : σ.parPs = pid
  aligned : σ.highVaddr % pageSize = 0
  low : mmapMinAddr ≤ ptr
  below : ptr < largeObjVaddrStart
  slot : SlotOffset t (ptr % pageSize)
  page : Mapped σ.mem (pageSize * (ptr / pageSize)) pageSize
  header : load σ.mem (pageSize * (ptr / pageSize)) 4 = some t
  top : (σ.gFlsts t).topOfStack < 2 ^ 64

def Succeeds (k : Kernel) (σ : State) (i : Nat) : Prop :=
  (k.attempt i).grants = true ∧ σ.highVaddr + pageSize ≤ taskSize

def OnlyLast (k : Kernel) (σ : State) : Prop :=
  Succeeds k σ 99 ∧ ∀ i, 1 ≤ i → i < 99 → ¬ Succeeds k σ i

/- What xxfree of `p` should come to: an exit when all attempts failed, and after a successful
one a page more and one block more at the address that attempt returned. -/
structure ExitAgrees (k : Kernel) (σ : State) (t ptr p : Nat) : Prop where
  exits : (∃ code σ', xxfree k p σ = .error (.exit code) σ') ↔
    ∀ i, 1 ≤ i → i < 100 → ¬ Succeeds k σ i
  goesOn : ∀ i, 1 ≤ i → i < 100 → Succeeds k σ i → ∃ σ', xxfree k p σ = .ok () σ' ∧
    σ'.highVaddr = σ.highVaddr + pageSize ∧
    σ'.gFlsts = Function.update σ.gFlsts t
      { σ.gFlsts t with topOfStack := σ.highVaddr + ptr % pageSize } ∧
    load σ'.mem (σ.highVaddr + ptr % pageSize) 8 = some (σ.gFlsts t).topOfStack
  pushes : (final (xxfree k p σ)).gFlsts = σ.gFlsts ∨
    (∃ i, 1 ≤ i ∧ i < 100 ∧ Succeeds k σ i) ∧
    (final (xxfree k p σ)).gFlsts = Function.update σ.gFlsts t
      { σ.gFlsts t with topOfStack := σ.highVaddr + ptr % pageSize }

variable {pid t ptr p : Nat} {h : History} {σ σ' : State} {own : Owner} {chains : Chains}
  {k : Kernel} {b : Block}

theorem loopExits {v : Nat}
    (loop : remapLoop k (roundDown ptr pageSize) σ.highVaddr 99 1 σ = .ok (v, 100) σ') :
    freeSmall k ptr σ = .error (.exit 1) σ' ∧ σ'.gFlsts = σ.gFlsts := by
  have same := keepsRemap (k := k) unlistedBlind (roundDown ptr pageSize) σ.highVaddr 99 1 σ
  rw [finalOk loop] at same
  refine ⟨?_, same⟩
  rw [freeSmall, bindOk (getRun σ), bindOk loop]
  rfl

section
variable (intact : Intact pid t ptr σ)
include intact

theorem intactMapped : Mapped σ.mem (roundDown ptr pageSize) pageSize ∧
    load σ.mem (roundDown ptr pageSize) 4 = some t ∧ ptr % pageSize + 8 ≤ pageSize := by
  have inside := slotCases intact.slot
  rw [roundDownPage]
  exact ⟨intact.page, intact.header, by simp only [pageSize] at *; omega⟩

theorem intactFree (mine : k.pid = pid) (low : ptr ≤ p) (high : p < ptr + blockSize t) :
    xxfree k p σ = freeSmall k ptr σ := by
  have split := pageSplit ptr
  have inside := intact.slot.inside
  have bottom := intact.low
  have below := intact.below
  have page : p / pageSize = ptr / pageSize := by simp only [pageSize] at *; omega
  have small : isLarge p = false := notLarge (by
    simp only [pageSize, largeObjVaddrStart] at *
    omega)
  have header : load σ.mem (roundDown p pageSize) 4 = some t := by
    rw [roundDownPage, page]
    exact intact.header
  have some : p ≠ 0 := by
    simp only [mmapMinAddr] at bottom
    omega
  have start := objStartSmall small (blockSize t) (σ := σ)
  rw [slotStart intact.slot (by rwa [split]) (by rwa [split])
    (by simp only [largeObjVaddrStart, pageSize] at *; omega), split] at start
  rw [xxfreeRun (intact.par.trans mine.symm) some (usableSmall some small intact.slot.cls header) start,
    if_neg (by simp [notLarge below])]

theorem intactExits (stuck : (∀ i, 1 ≤ i → i < 100 → ¬ Succeeds k σ i) ∨ OnlyLast k σ) :
    ∃ σ', freeSmall k ptr σ = .error (.exit 1) σ' ∧ σ'.gFlsts = σ.gFlsts := by
  have source : σ.mem (roundDown ptr pageSize) ≠ none := by
    simpa using (intactMapped intact).1 0 (by decide)
  have gives : ∀ v, (∃ σ', remapLoop k (roundDown ptr pageSize) σ.highVaddr 99 1 σ =
      .ok (v, 100) σ') → ∃ σ', freeSmall k ptr σ = .error (.exit 1) σ' ∧ σ'.gFlsts = σ.gFlsts :=
    fun v ⟨σ', loop⟩ => ⟨σ', loopExits loop⟩
  rcases stuck with none | ⟨⟨last, room⟩, before⟩
  · refine gives _ (remapLoopFails rfl (by decide) (by decide) ?_)
    rcases Nat.lt_or_ge taskSize (σ.highVaddr + pageSize) with full | room
    · exact .inr (.inr full)
    · cases first : firstGrant k 99 1 with
      | none => exact .inl rfl
      | some j =>
        obtain ⟨grants, low, high, _⟩ := grantSome first
        exact absurd ⟨grants, room⟩ (none j low high)
  · cases first : firstGrant k 99 1 with
    | none => rw [grantNone first 99 (by decide) (by decide)] at last; cases last
    | some j =>
      obtain ⟨grants, low, high, _⟩ := grantSome first
      have same : j = 99 := by
        by_contra other
        exact before j low (by omega) ⟨grants, room⟩
      subst same
      obtain ⟨earlier, moves, _⟩ := remapLoopMoves source room rfl (by decide) first
      exact gives _ ⟨_, moves⟩

theorem intactMoves {i : Nat} (low : 1 ≤ i) (high : i < 99) (succeeds : Succeeds k σ i) :
    ∃ j earlier, j < 99 ∧ freeSmall k ptr σ = .ok () (pushed t (σ.highVaddr + ptr % pageSize)
      (relocated j ptr earlier σ)) := by
  obtain ⟨page, header, inside⟩ := intactMapped intact
  cases first : firstGrant k 99 1 with
  | none =>
    have grants := succeeds.1
    rw [grantNone first i low (by omega)] at grants
    cases grants
  | some j =>
    have early : j < 99 := by
      obtain ⟨_, _, bound, before⟩ := grantSome first
      by_contra late
      have refused := before i low (by omega)
      rw [succeeds.1] at refused
      cases refused
    obtain ⟨earlier, moved, _⟩ := freeSmallRun intact.slot.cls page header inside intact.aligned
      succeeds.2 first early
    exact ⟨j, _, early, moved⟩

end

theorem agreesAt (intact : Intact pid t ptr σ) (mine : k.pid = pid) (low : ptr ≤ p)
    (high : p < ptr + blockSize t) : ExitAgrees k σ t ptr p ↔ ¬ OnlyLast k σ := by
  have same := intactFree intact mine low high
  constructor
  · rintro agrees last
    obtain ⟨σ', gone, _⟩ := intactExits intact (.inr last)
    exact agrees.exits.mp ⟨1, σ', same.trans gone⟩ 99 (by decide) (by decide) last.1
  · intro other
    by_cases all : ∀ i, 1 ≤ i → i < 100 → ¬ Succeeds k σ i
    · obtain ⟨σ', gone, kept⟩ := intactExits intact (.inl all)
      refine ⟨iff_of_true ⟨1, σ', same.trans gone⟩ all, fun i le lt yes => absurd yes (all i le lt), ?_⟩
      rw [finalError (same.trans gone)]
      exact .inl kept
    · obtain ⟨i, le, lt, yes⟩ : ∃ i, 1 ≤ i ∧ i < 99 ∧ Succeeds k σ i := by
        by_contra none
        refine all fun i le lt yes => ?_
        have last : i = 99 := by
          by_contra early
          exact none ⟨i, le, by omega, yes⟩
        subst last
        exact other ⟨yes, fun j le lt yes => none ⟨j, le, lt, yes⟩⟩
      obtain ⟨j, earlier, early, moved⟩ := intactMoves intact le lt yes
      have advance : wrap (σ.highVaddr + pageSize) = σ.highVaddr + pageSize := by
        have room := yes.2
        exact wrapSmall (by simp only [taskSize] at room; omega)
      refine ⟨iff_of_false ?_ all, fun _ _ _ _ => ⟨_, same.trans moved, advance, rfl, ?_⟩, ?_⟩
      · rintro ⟨code, σ', exits⟩
        rw [same, moved] at exits
        cases exits
      · refine (loadWritten _ _ _ _).trans ?_
        rw [Nat.mod_eq_of_lt (by exact intact.top)]
        rfl
      · rw [finalOk (same.trans moved)]
        exact .inr ⟨⟨i, le, by omega, yes⟩, rfl⟩

theorem liveIntact (sound : Sound pid h σ own) (owned : b ∈ live h) (small : b.Small) :
    Intact pid (blockType b.size) b.ptr σ := by
  have inv := sound.agrees.inv
  have owns := (heldSmall small).mp (sound.agrees.held b owned)
  obtain ⟨low, high⟩ := smallBelow inv owns
  have page := inv.small owns
  obtain ⟨mapped, _⟩ := slotPage inv owns
  rw [roundDownPage] at mapped
  have split := pageSplit b.ptr
  exact ⟨sound.par, inv.highAligned, by omega, by simp only [pageSize] at *; omega, page.slot,
    mapped, page.header, topBound inv page.slot.cls⟩

/- mremap(2) answers EINVAL when source and target overlap, so no attempt is granted whose source
reaches from the page of `ptr` up to high_vaddr. -/
def Disjointly (k : Kernel) (σ : State) (ptr : Nat) : Prop :=
  ∀ i, (k.attempt i).grants = true → roundDown ptr pageSize + pageSize * i ≤ σ.highVaddr

def lastAttempt : Kernel := { steady with attempt := fun i => ⟨decide (i = 99), false⟩ }

theorem lastDisjointly (room : mmapMinAddr + pageSize * 99 ≤ σ.highVaddr) :
    Disjointly lastAttempt σ leftBlock.ptr := by
  intro i grants
  have last : i = 99 := of_decide_eq_true grants
  rw [last]
  exact room

theorem onePage : Filling 1 0 oneBlock := ⟨rfl, rfl, rfl, rfl⟩

theorem lastOnly (room : σ.highVaddr + pageSize ≤ taskSize) : OnlyLast lastAttempt σ := by
  refine ⟨⟨rfl, room⟩, fun i low high yes => ?_⟩
  have last : i = 99 := of_decide_eq_true yes.1
  omega

end Nuaf.RetryExit
