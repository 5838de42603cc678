import Nuaf.RetryDamage

/-! Interior pointers of small objects. The header word gives the class, the class gives the
grid, and rounding down on the grid gives the object, in runs that free through such pointers. -/
namespace Nuaf.SmallPointers
open Layout Machine Source Heap Nuaf.Sequential Exhaustion RetryDamage

def pointing (pid : Nat) : Policy := fun h σ k op => Reliable pid k ∧ (Disciplined h σ op ∨
  ∃ b ∈ live h, b.Small ∧ ∃ p, b.ptr ≤ p ∧ p < b.ptr + 16 * 2 ^ blockType b.size ∧ op = .xxfree p)

structure Resolves (k : Kernel) (σ : State) (b : Block) (p : Nat) : Prop where
  usable : xxmallocUsableSize p σ = .ok (16 * 2 ^ blockType b.size) σ
  enough : b.size ≤ 16 * 2 ^ blockType b.size
  start : getObjStart p (16 * 2 ^ blockType b.size) σ = .ok b.ptr σ
  frees : xxfree k p σ = xxfree k b.ptr σ

variable {pid p : Nat} {h : History} {σ : State} {own : Owner} {k : Kernel} {b : Block}

theorem smallCovers (small : b.Small) (low : b.ptr ≤ p)
    (high : p < b.ptr + 16 * 2 ^ blockType b.size) : b.Covers p := by
  refine ⟨low, ?_⟩
  rwa [usableOf, if_pos (show b.size ≤ largestBlockSize from small), blockSizePow]

theorem smallClean (sound : Sound pid h σ own) (owned : b ∈ live h) (small : b.Small)
    (covers : b.Covers p) : Clean σ b.ptr p := by
  have page := (insideSmall sound.agrees.inv small (sound.agrees.held b owned) covers).1
  intro g low high
  omega

theorem pointingCalm (run : Run pid (pointing pid) Within h σ) : Run pid (calmly pid) Within h σ := by
  induction run with
  | init begun => exact .init begun
  | @next h σ e σ' before taken ih =>
    obtain ⟨own, sound⟩ := runSound ih
    have wider : ∀ k op, pointing pid h σ k op → calmly pid h σ k op := by
      rintro k op ⟨reliable, disciplined | ⟨b, owned, small, p, low, high, rfl⟩⟩
      · exact reliablyWider h σ k op ⟨reliable, disciplined⟩
      · have covers := smallCovers small low high
        exact ⟨reliableCalm reliable σ _,
          .inr (.inl (.xxfree owned covers (smallClean sound owned small covers)))⟩
    refine .next ih ?_
    cases taken with
    | returned allowed call limit => exact .returned (wider _ _ allowed) call limit
    | faulted allowed call limit => exact .faulted (wider _ _ allowed) call limit

theorem smallResolves (run : Run pid (pointing pid) Within h σ) (mine : k.pid = pid)
    (owned : b ∈ live h) (small : b.Small) (low : b.ptr ≤ p)
    (high : p < b.ptr + 16 * 2 ^ blockType b.size) : Resolves k σ b p := by
  obtain ⟨own, sound⟩ := runSound (pointingCalm run)
  have inv := sound.agrees.inv
  have held := sound.agrees.held b owned
  have covers := smallCovers small low high
  have par := sound.par.trans mine.symm
  have usable := usableInside inv held covers (smallClean sound owned small covers)
  have start := objStartSlot (p := p) inv ((heldSmall small).mp held)
    (by rwa [pageSplit]) (by rwa [pageSplit, blockSizePow])
  rw [usableOf, if_pos (show b.size ≤ largestBlockSize from small), blockSizePow] at usable
  rw [pageSplit, blockSizePow] at start
  refine ⟨usable, blockSizePow _ ▸ blockTypeFits b.size, start, ?_⟩
  rw [xxfreeHeldSmall inv par small held covers, xxfreeHeldSmall inv par small held (insideSelf _ _)]

theorem lastByteResolves : Resolves steady twoBlocks rightBlock (rightBlock.ptr + 15) :=
  smallResolves (runWiden (fun _ _ _ _ ⟨reliable, disciplined⟩ => ⟨reliable, .inl disciplined⟩) twoRun)
    rfl (by decide) (by decide) (by decide) (by decide)

end Nuaf.SmallPointers
