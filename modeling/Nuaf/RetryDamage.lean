import Nuaf.Exhaustion

/-! The mremap loop of xxfree. Each retry passes a longer source, and the kernel cuts the
pages behind the first one off before it moves that one: whatever lives there is lost. -/
namespace Nuaf.RetryDamage
open Layout ByteMemory Machine Source Heap Nuaf.Sequential Exhaustion

structure OnlyMoves (σ : State) (ptr : Nat) (σ' : State) : Prop where
  others : ∀ a, a / pageSize ≠ ptr / pageSize → a / pageSize ≠ σ.highVaddr / pageSize →
    σ'.mem a = σ.mem a
  moved : ∀ i < pageSize, ¬ (ptr % pageSize ≤ i ∧ i < ptr % pageSize + 8) →
    σ'.mem (σ.highVaddr + i) = σ.mem (pageSize * (ptr / pageSize) + i)
  left : ∀ a, a / pageSize = ptr / pageSize → σ'.mem a = none

variable {pid : Nat} {h : History} {σ σ' : State} {own : Owner} {chains : Chains} {k : Kernel}
  {b : Block} {ptr t : Nat}

section
variable (inv : Inv σ own chains)
  (owned : own (ptr / pageSize) = some (.small t (ptr % pageSize) false))
  (room : σ.highVaddr + pageSize ≤ largeObjVaddrStart)
include inv owned room

theorem harmlessMoves (harmless : Harmless k σ ptr) (call : freeSmall k ptr σ = .ok () σ') :
    OnlyMoves σ ptr σ' := by
  have slot := slotCases (inv.small owned).slot
  have short : ptr % pageSize + 8 ≤ pageSize := by simp only [pageSize] at *; omega
  have differ : ptr / pageSize ≠ σ.highVaddr / pageSize := fun same => by
    rw [same, highUnowned inv room] at owned
    cases owned
  rcases freeSmallCases (k := k) inv owned (taskRoom inv) with
    ⟨_, τ, failed⟩ | ⟨j, earlier, first, early, done, _⟩
  · rw [failed] at call
    cases call
  · rw [done, relocatedHarmless harmless first early] at call
    cases call
    exact ⟨fun a old new => recycledOther inv short old new,
      fun i inside spared => recycledTarget inside spared,
      fun a page => (recycledMapped inv short differ (by simp [owned])).2 page⟩

theorem movesHarmless (only : OnlyMoves σ ptr σ') (call : freeSmall k ptr σ = .ok () σ') :
    Harmless k σ ptr := by
  have base := highPage inv
  have slot := slotCases (inv.small owned).slot
  rcases freeSmallCases (k := k) inv owned (taskRoom inv) with
    ⟨_, τ, failed⟩ | ⟨j, earlier, first, early, done, _⟩
  · rw [failed] at call
    cases call
  · rw [done] at call
    cases call
    intro j' first' _ a low high
    cases Option.some.inj (first.symm.trans first')
    rw [roundDownPage] at low high
    by_cases new : a / pageSize = σ.highVaddr / pageSize
    · rw [inv.mapped, new]
      exact highUnowned inv room
    · rw [← only.others a (by simp only [pageSize] at *; omega) new]
      have fresh : ¬ (σ.highVaddr ≤ a ∧ a < σ.highVaddr + pageSize) := by
        simp only [pageSize] at *
        omega
      refine (writeOut ?_).trans ((moveOut fresh ?_).trans (unmapIn ?_))
      · simp only [pageSize] at *
        omega
      · rw [roundDownPage]
        omega
      · rw [roundDownPage]
        omega

end

def oneBlock : State := carved 0 (begun.gFlsts 0) begun.clear

def twoBlocks : State := carved 0 (oneBlock.gFlsts 0) oneBlock.clear

def leftBlock : Block := ⟨0, 0, 0x100000010, 16⟩

def rightBlock : Block := ⟨1, 0, 0x100001020, 16⟩

def oneHistory : History := [⟨.xxmalloc 16, .value leftBlock.ptr, oneBlock.calls⟩]

def twoHistory : History := ⟨.xxmalloc 16, .value rightBlock.ptr, twoBlocks.calls⟩ :: oneHistory

def secondAttempt : Kernel := { steady with attempt := fun i => ⟨decide (2 ≤ i), true⟩ }

theorem oneRun : Run 1 (reliably 1) Within oneHistory oneBlock :=
  .next (.init begunStarted) (.returned ⟨steadyReliable, .xxmalloc 16⟩
    (carveCall rfl rfl (by decide) (by decide) (by decide)) (by decide))

theorem twoRun : Run 1 (reliably 1) Within twoHistory twoBlocks :=
  .next oneRun (.returned ⟨steadyReliable, .xxmalloc 16⟩
    (carveCall rfl rfl (by decide) (by decide) (by decide)) (by decide))

theorem leftFreed : ∃ σ', xxfree secondAttempt leftBlock.ptr twoBlocks.clear = .ok () σ' := by
  obtain ⟨own, sound⟩ := runSound (runWiden reliablyWider twoRun)
  have clear := soundClear sound
  have held := clear.agrees.held leftBlock (by decide)
  have small : leftBlock.size ≤ largestBlockSize := by decide
  obtain ⟨mapped, header, inside, cls⟩ := slotPage clear.agrees.inv ((heldSmall small).mp held)
  obtain ⟨earlier, freed, _⟩ := freeSmallRun (k := secondAttempt) (j := 2) cls mapped header inside
    (by decide) (by decide) rfl (by decide)
  rw [xxfreeHeldSmall clear.agrees.inv clear.par small held (insideSelf _ _)]
  exact ⟨_, freed⟩

theorem freeOnlyMoves (run : Run pid (calmly pid) Within h σ) (mine : k.pid = pid)
    (owned : b ∈ live h) (small : b.Small) (room : σ.highVaddr + pageSize ≤ largeObjVaddrStart)
    (call : xxfree k b.ptr σ.clear = .ok () σ') :
    OnlyMoves σ.clear b.ptr σ' ↔ Harmless k σ.clear b.ptr := by
  obtain ⟨own, sound⟩ := runSound run
  have clear := soundClear sound
  have inv := clear.agrees.inv
  have held := clear.agrees.held b owned
  have owns := (heldSmall small).mp held
  rw [xxfreeHeldSmall inv (clear.par.trans mine.symm) small held (insideSelf _ _)] at call
  exact ⟨fun only => movesHarmless inv owns room only call,
    fun harmless => harmlessMoves inv owns room harmless call⟩

theorem leftFreedAlone : ∃ σ', xxfree secondAttempt leftBlock.ptr twoBlocks.clear = .ok () σ' ∧
    (OnlyMoves twoBlocks.clear leftBlock.ptr σ' ↔
      Harmless secondAttempt twoBlocks.clear leftBlock.ptr) := by
  obtain ⟨σ', call⟩ := leftFreed
  exact ⟨σ', call, freeOnlyMoves (b := leftBlock) (runWiden reliablyWider twoRun) rfl (by decide)
    (by decide) (by decide) call⟩

theorem neighbourUnmapped : ¬ ∀ h σ, Run 1 (reliably 1) Within h σ → ∀ b ∈ live h, b.Small →
    ∀ k σ', k.pid = 1 → xxfree k b.ptr σ.clear = .ok () σ' → OnlyMoves σ.clear b.ptr σ' := by
  intro always
  obtain ⟨own, sound⟩ := runSound (runWiden reliablyWider twoRun)
  have clear := soundClear sound
  have inv := clear.agrees.inv
  have held := clear.agrees.held leftBlock (by decide)
  have small : leftBlock.size ≤ largestBlockSize := by decide
  obtain ⟨σ', call⟩ := leftFreed
  have only := always _ _ twoRun leftBlock (by decide) (by decide) secondAttempt σ' rfl call
  rw [xxfreeHeldSmall inv clear.par small held (insideSelf _ _)] at call
  have harmless := movesHarmless inv ((heldSmall small).mp held) (by decide) only call
  have lost := harmless 2 rfl (by decide) rightBlock.ptr (by decide) (by decide)
  exact insideMapped inv (clear.agrees.held rightBlock (by decide)) (insideSelf _ _) lost

end Nuaf.RetryDamage
