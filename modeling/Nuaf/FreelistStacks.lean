import Nuaf.Effects
import Nuaf.RetryDamage

/-! The eight intrusive freelists as eight stacks of blocks. The abstract stacks are the
`free` part of the ledger: pushed by xxfree, popped by xxmalloc, most recent block first. -/
namespace Nuaf.FreelistStacks
open Layout ByteMemory LinkedStack Machine Source Heap Nuaf.Sequential Exhaustion
  RetryDamage

structure Stacks (pid : Nat) (h : History) (σ : State) : Prop where
  listed : ∀ t < numBlockTypes,
    walk (fun a => load σ.mem a 8) 0 ((ledger h).free t).length (σ.gFlsts t).topOfStack =
      some (((ledger h).free t).map Block.ptr)
  distinct : ∀ t < numBlockTypes, (((ledger h).free t).map Block.ptr).Nodup
  pages : ∀ t < numBlockTypes, ∀ b ∈ (ledger h).free t,
    Mapped σ.mem (roundDown b.ptr pageSize) pageSize ∧
    load σ.mem (roundDown b.ptr pageSize) 4 = some t ∧
    ∃ i, b.ptr % pageSize = 16 + i * (16 * 2 ^ t)
  separate : ∀ s < numBlockTypes, ∀ t < numBlockTypes, s ≠ t →
    ∀ b ∈ (ledger h).free s, ∀ c ∈ (ledger h).free t, b.ptr ≠ c.ptr
  spared : ∀ t < numBlockTypes, ∀ b ∈ (ledger h).free t, ∀ c ∈ live h, ¬ c.Page (b.ptr / pageSize)
  pops : ∀ k size p σ', Reliable pid k → size ≤ largestBlockSize →
    xxmalloc k size σ.clear = .ok p σ' →
    ∀ b rest, (ledger h).free (blockType size) = b :: rest → p = b.ptr
  classes : (∀ b ∈ live h, b.Small → b.cls = blockType b.size) ∧
    ∀ t, ∀ b ∈ (ledger h).free t, b.cls = t

variable {pid : Nat} {h : History} {σ σ' : State} {own : Owner} {t : Nat}

theorem freedOwner (sound : Sound pid h σ own) (cls : t < numBlockTypes) {b : Block}
    (freed : b ∈ (ledger h).free t) :
    own (b.ptr / pageSize) = some (.small t (b.ptr % pageSize) true) :=
  (sound.agrees.inv.chained t cls b.ptr).mp (List.mem_map.mpr ⟨b, freed, rfl⟩)

theorem slotMultiple {offset : Nat} (slot : SlotOffset t offset) :
    ∃ i, offset = 16 + i * (16 * 2 ^ t) := by
  obtain ⟨i, multiple⟩ := Nat.dvd_of_mod_eq_zero slot.grid
  have start : 16 ≤ offset := slot.start
  rw [blockSizePow, Nat.mul_comm, byteAlignment] at multiple
  exact ⟨i, by omega⟩

theorem popsNewest {k : Kernel} {size p : Nat} {b : Block} {rest : List Block}
    (sound : Sound pid h σ own) (mine : k.pid = pid) (small : size ≤ largestBlockSize)
    (call : xxmalloc k size σ.clear = .ok p σ')
    (full : (ledger h).free (blockType size) = b :: rest) : p = b.ptr := by
  have clear := soundClear sound
  have cls := blockTypeLt small
  have chain : chainsOf (ledger h) (blockType size) = b.ptr :: rest.map Block.ptr :=
    congrArg (List.map Block.ptr) full
  rw [xxmalloc, bindOk (ensureInitRun (clear.par.trans mine.symm)),
    if_neg (Nat.not_lt.mpr small)] at call
  rcases topCases clear.agrees.inv cls with ⟨_, empty⟩ | ⟨_, link, real, top, read⟩
  · rw [chain] at empty
    cases empty
  · rw [popRun cls real read] at call
    cases call
    rw [chain] at top
    exact (List.cons.inj top).1.symm

theorem soundStacks (sound : Sound pid h σ own) : Stacks pid h σ where
  listed t cls := by
    have walked := walkLinked (sound.agrees.inv.linked t cls)
    rwa [chainsOf, List.length_map] at walked
  distinct t cls := linkedNodup (sound.agrees.inv.linked t cls)
  pages t cls b freed := by
    have owned := freedOwner sound cls freed
    obtain ⟨mapped, header, _, _⟩ := slotPage sound.agrees.inv owned
    exact ⟨mapped, header, slotMultiple (sound.agrees.inv.small owned).slot⟩
  separate s left t right differ b freed c freed' same := by
    have one := freedOwner sound left freed
    rw [same, freedOwner sound right freed'] at one
    cases one
    exact differ rfl
  spared t cls b freed c owned page := by
    have held := sound.agrees.held c owned
    obtain ⟨u, owns, busy⟩ := (heldSpans sound.agrees.inv held page).2
    rw [freedOwner sound cls freed] at owns
    cases owns
    exact busy _ _ rfl
  pops k size p σ' reliable small call b rest full :=
    popsNewest sound reliable.1 small call full
  classes := ⟨sound.agrees.sorted, sound.agrees.freed⟩

theorem freelistsAreStacks (run : Run pid (reliably pid) Within h σ) : Stacks pid h σ := by
  obtain ⟨own, sound⟩ := runSound (runWiden reliablyWider run)
  exact soundStacks sound

theorem freedBlocksListed : ∃ h σ, Run 1 (reliably 1) Within h σ ∧
    (ledger h).free 0 = [⟨1, 0, 0x100003020, 16⟩, ⟨0, 0, 0x100002010, 16⟩] ∧ Stacks 1 h σ := by
  obtain ⟨h, σ, run, first, high, _⟩ := @freeSmallNext 1 _ _ steady leftBlock twoRun steadyReliable
    (by decide) (by decide) (by decide)
  have at' : σ.highVaddr = 0x100003000 := high
  have owned : rightBlock ∈ live h := by
    rw [live, first]
    decide
  obtain ⟨h', σ', run', second, _⟩ := freeSmallNext run steadyReliable owned (by decide)
    (by rw [at']; decide)
  refine ⟨h', σ', run', ?_, freelistsAreStacks run'⟩
  rw [second, first, at']
  decide

end Nuaf.FreelistStacks
