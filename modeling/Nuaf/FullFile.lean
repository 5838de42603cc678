import Nuaf.Effects
import Nuaf.Exhaustion

/-! The backing file is finite. A program that only asks for 2048-byte blocks takes every
eighth page of it, and 2^25 blocks later the next one lies past its end. -/
namespace Nuaf.Exhaustion
open Layout ByteMemory Machine Source Heap Nuaf.Sequential

variable {h : History} {σ : State} {before n : Nat}

structure Filling (before n : Nat) (σ : State) : Prop where
  par : σ.parPs = 1
  file : σ.fileSize = dataSize
  high : σ.highVaddr = mmapMinAddr + pageSize * (before + n)
  flst : σ.gFlsts 7 = ⟨0, 7 * pageSize + 16 + 8 * pageSize * n⟩

theorem nextFilling (n : Nat) : nextCanonical 7 (7 * pageSize + 16 + 8 * pageSize * n) =
    7 * pageSize + 16 + 8 * pageSize * (n + 1) := by
  simp only [nextCanonical, roundUp, pageSize, numBlockTypes, magicNumber, byteAlignment,
    show blockSize 7 = 2048 by decide]
  split
  · split <;> omega
  · omega

abbrev fullFile : Nat := 2 ^ 25

theorem fillingClear (filling : Filling before n σ) : Filling before n σ.clear :=
  ⟨filling.par, filling.file, filling.high, filling.flst⟩

theorem fillingPop (filling : Filling before n σ) :
    freelistPop steady 2048 σ = carve steady 7 ⟨0, 7 * pageSize + 16 + 8 * pageSize * n⟩ σ := by
  have pop := @popEmpty steady σ 2048 (by decide)
    (congrArg Freelist.topOfStack (show σ.gFlsts (blockType 2048) = _ from filling.flst))
  exact pop.trans (congrArg (fun fl => carve steady 7 fl σ) filling.flst)

theorem fillingServed (filling : Filling before n σ) (few : before ≤ fullFile)
    (room : n < fullFile) :
    ∃ p σ', freelistPop steady 2048 σ = .ok p σ' ∧ Filling before (n + 1) σ' := by
  have high := filling.high
  have served := @carveRun steady σ 7 ⟨0, 7 * pageSize + 16 + 8 * pageSize * n⟩ rfl
    (by rw [high]; simp only [mmapMinAddr]; omega)
    (by rw [high]; simp only [mmapMinAddr, pageSize, taskSize, fullFile] at *; omega)
    (by
      rw [filling.file, roundDownPage]
      simp only [pageSize, dataSize, fullFile] at *
      omega)
  refine ⟨_, _, (fillingPop filling).trans served, filling.par, filling.file, ?_, ?_⟩
  · have advance : wrap (σ.highVaddr + pageSize) = mmapMinAddr + pageSize * (before + (n + 1)) := by
      rw [high, wrapSmall (by simp only [mmapMinAddr, pageSize, fullFile] at *; omega)]
      simp only [pageSize]
      omega
    exact advance
  · simp only [carved, Function.update_self]
    exact congrArg _ (nextFilling n)

theorem fillingWithin (filling : Filling before n σ) (few : before ≤ fullFile)
    (room : n ≤ fullFile) : Within σ := by
  have high := filling.high
  unfold Within
  rw [high]
  simp only [mmapMinAddr, pageSize, largeObjVaddrStart, fullFile] at *
  omega

theorem fillingStep (filling : Filling before n σ) (few : before ≤ fullFile) (room : n < fullFile) :
    ∃ e σ', Step (reliably 1) Within h σ e σ' ∧ Filling before (n + 1) σ' ∧
      ∀ b ∈ live h, b ∈ live (e :: h) := by
  obtain ⟨p, σ', served, filled⟩ := fillingServed (fillingClear filling) few room
  have call : exec steady (.xxmalloc 2048) σ.clear = .ok p σ' :=
    (mallocSmall (fillingClear filling).par (by decide)).trans served
  obtain ⟨_, _, _, added⟩ := @mallocLive h 2048 p σ'.calls
  refine ⟨_, σ', .returned ⟨steadyReliable, .xxmalloc 2048⟩ call (fillingWithin filled few room),
    filled, fun b owned => ?_⟩
  rw [added]
  exact List.mem_cons_of_mem _ owned

theorem fillingRun (run : Run 1 (reliably 1) Within h σ) (start : Filling before 0 σ)
    (few : before ≤ fullFile) (n : Nat) (room : n ≤ fullFile) :
    ∃ h' σ', Run 1 (reliably 1) Within h' σ' ∧ Filling before n σ' ∧
      ∀ b ∈ live h, b ∈ live h' := by
  induction n with
  | zero => exact ⟨h, σ, run, start, fun _ owned => owned⟩
  | succ n ih =>
    obtain ⟨h', σ', run', filling, kept⟩ := ih (Nat.le_of_lt room)
    obtain ⟨e, σ'', taken, filled, stays⟩ := fillingStep filling few room
    exact ⟨_, σ'', .next run' taken, filled, fun b owned => stays b (kept b owned)⟩

theorem fillingEnds (filling : Filling before fullFile σ) (few : before ≤ fullFile) :
    ∃ σ', freelistPop steady 2048 σ = .error (.bus σ.highVaddr) σ' := by
  have high := filling.high
  obtain ⟨σ', fault⟩ := @carvePastFile steady σ 7 ⟨0, 7 * pageSize + 16 + 8 * pageSize * fullFile⟩
    rfl (by rw [high]; simp only [mmapMinAddr]; omega)
    (by rw [high]; simp only [mmapMinAddr, pageSize, taskSize, fullFile] at *; omega)
    (by rw [filling.file]; decide)
  exact ⟨σ', (fillingPop filling).trans fault⟩

theorem fillingBegun : Filling 0 0 begun := ⟨rfl, rfl, rfl, rfl⟩

end Nuaf.Exhaustion
