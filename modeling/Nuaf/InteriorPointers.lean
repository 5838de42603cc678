import Nuaf.Exhaustion

/-! Interior pointers of large objects. The header is found by its first word, and on the
pages after the first that word is the program's: the scan ends at the object's own header
unless the program stored the magic number on a page in between. -/
namespace Nuaf.InteriorPointers
open Layout ByteMemory Machine Source Heap Nuaf.Sequential Exhaustion

structure Resolves (k : Kernel) (σ : State) (s count p : Nat) : Prop where
  start : ∀ objSize, getObjStart p objSize σ = .ok s σ
  usable : xxmallocUsableSize p σ = .ok (count * pageSize - 16) σ
  frees : ∃ σ', xxfree k p σ = .ok () σ' ∧ σ'.mem = unmap σ.mem s (pageSize * count) ∧
    σ'.calls = .munmap s (pageSize * count) :: σ.calls

def headerOf (b : Block) : Nat := pageSize * (b.ptr / pageSize)

variable {pid p : Nat} {h : History} {σ : State} {own : Owner} {k : Kernel} {b : Block}

theorem bigCovers (sound : Sound pid h σ own) (owned : b ∈ live h) (big : ¬ b.Small)
    (low : headerOf b + 16 ≤ p) (high : p < headerOf b + bigPages b.size * pageSize) :
    b.Covers p := by
  have offset := ((heldBig (Nat.not_le.mp big)).mp (sound.agrees.held b owned)).2
  have split := pageSplit b.ptr
  have room := bigPagesPositive b.size
  unfold Block.Covers Inside usableOf
  rw [if_neg (show ¬ b.size ≤ largestBlockSize from big)]
  unfold headerOf at *
  simp only [pageSize] at *
  omega

theorem resolvesClean (sound : Sound pid h σ own) (mine : k.pid = pid) (owned : b ∈ live h)
    (big : ¬ b.Small) (covers : b.Covers p) (clean : Clean σ b.ptr p) :
    Resolves k σ (headerOf b) (bigPages b.size) p := by
  have inv := sound.agrees.inv
  have held := sound.agrees.held b owned
  have large := Nat.not_le.mp big
  have owns := ((heldBig large).mp held).1
  obtain ⟨_, last, past⟩ := insideBig large held covers
  have found := scanClean inv large held covers clean
  have above : isLarge p = true := bigLarge inv owns (by omega) (by simp only [pageSize] at *; omega)
  have usable := usableInside inv held covers clean
  rw [usableOf, if_neg (show ¬ b.size ≤ largestBlockSize from big)] at usable
  exact ⟨objStartLarge above found, usable,
    _, xxfreeHeldBig inv (sound.par.trans mine.symm) large held covers clean, rfl, rfl⟩

theorem cleanResolves (sound : Sound pid h σ own) (owned : b ∈ live h) (big : ¬ b.Small)
    (covers : b.Covers p) (resolves : Resolves k σ (headerOf b) (bigPages b.size) p) :
    Clean σ b.ptr p := by
  have inv := sound.agrees.inv
  have held := sound.agrees.held b owned
  have large := Nat.not_le.mp big
  have owns := ((heldBig large).mp held).1
  obtain ⟨_, last, past⟩ := insideBig large held covers
  have above : isLarge p = true := bigLarge inv owns (by omega) (by simp only [pageSize] at *; omega)
  obtain ⟨q, _, _, found, _, nearest⟩ := scanHeld inv large held covers
  have start := (objStartLarge above found 0).symm.trans (resolves.start 0)
  simp only [EStateM.Result.ok.injEq, and_true] at start
  have same : q = b.ptr / pageSize := Nat.eq_of_mul_eq_mul_left (by decide) start
  exact fun g low high => nearest g (same ▸ low) high

def forgedHistory : History :=
  ⟨.store bigBlock.ptr 4083 0x0C, .value 0, []⟩ :: ⟨.store bigBlock.ptr 4081 0x1B, .value 0, []⟩ ::
    ⟨.store bigBlock.ptr 4080 0xE9, .value 0, []⟩ :: bigHistory

def forged : State :=
  wrote (bigBlock.ptr + 4083) 1 0x0C (wrote (bigBlock.ptr + 4081) 1 0x1B
    (wrote (bigBlock.ptr + 4080) 1 0xE9 besideBig.clear).clear).clear

theorem forgedRun : Run 1 (reliably 1) Within forgedHistory forged :=
  storeRun 0x0C (storeRun 0x1B (storeRun 0xE9 (bigRun (by decide)) (by decide) (by decide)
    steadyReliable) (by decide) (by decide) steadyReliable) (by decide) (by decide) steadyReliable

end Nuaf.InteriorPointers
