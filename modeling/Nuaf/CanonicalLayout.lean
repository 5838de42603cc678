import Nuaf.SourceSteps

/-! Canonical addresses. Only the carving branch of freelist_pop moves high_canonical_addr,
so a run of carvings fixes nothing else: memory, stacks and high_vaddr are free at each one. -/
namespace Nuaf.CanonicalLayout
open Layout Machine Source

structure Carved where
  cls : Nat
  start : Nat
  deriving DecidableEq, Repr

def Carved.Holds (x : Carved) (a : Nat) : Prop := x.start ≤ a ∧ a < x.start + blockSize x.cls

def highCanonical (σ : State) : Nat → Nat := fun t => (σ.gFlsts t).highCanonicalAddr

inductive Carvings : List Carved → (Nat → Nat) → Prop where
  | init {σ σ'} (begun : freelistInit σ = .ok () σ') : Carvings [] (highCanonical σ')
  | next {h k size p σ σ'} (before : Carvings h (highCanonical σ)) (small : size ≤ largestBlockSize)
      (empty : (σ.gFlsts (blockType size)).topOfStack = 0) (call : freelistPop k size σ = .ok p σ') :
      Carvings (⟨blockType size, highCanonical σ (blockType size)⟩ :: h) (highCanonical σ')

structure Packed (h : List Carved) (high : Nat → Nat) : Prop where
  next : ∀ t < numBlockTypes, Canonical t (high t)
  canonical : ∀ x ∈ h, Canonical x.cls x.start
  below : ∀ x ∈ h, x.start + blockSize x.cls ≤ high x.cls
  apart : h.Pairwise fun x y => ∀ a, ¬ (x.Holds a ∧ y.Holds a)

theorem packedInit {σ σ' : State} (begun : freelistInit σ = .ok () σ') :
    Packed [] (highCanonical σ') := by
  cases begun
  refine ⟨?_, by simp, by simp, List.Pairwise.nil⟩
  intro t cls
  simp only [highCanonical, if_pos cls]
  exact canonicalInit cls

theorem samePage {t c a : Nat} (good : Canonical t c) (low : c ≤ a) (high : a < c + blockSize t) :
    a / pageSize = c / pageSize := by
  have inside := good.slot.inside
  simp only [pageSize] at *
  omega

theorem carvedApart {x y : Carved} (left : Canonical x.cls x.start) (right : Canonical y.cls y.start)
    (past : x.cls = y.cls → y.start + blockSize y.cls ≤ x.start) (a : Nat) :
    ¬ (x.Holds a ∧ y.Holds a) := by
  rintro ⟨⟨xl, xh⟩, yl, yh⟩
  by_cases same : x.cls = y.cls
  · have := past same
    omega
  · have page : x.start / pageSize = y.start / pageSize :=
      (samePage left xl xh).symm.trans (samePage right yl yh)
    exact same (by rw [← left.page, ← right.page, page])

theorem packedNext {h : List Carved} {high : Nat → Nat} {t : Nat} (packed : Packed h high)
    (cls : t < numBlockTypes) :
    Packed (⟨t, high t⟩ :: h) (Function.update high t (nextCanonical t (high t))) := by
  have here := packed.next t cls
  have past := nextCanonicalPast t (high t)
  refine ⟨?_, ?_, ?_, List.pairwise_cons.mpr ⟨?_, packed.apart⟩⟩
  · intro s hs
    by_cases same : s = t
    · subst same
      simpa using canonicalNext here
    · simpa [same] using packed.next s hs
  · intro x mem
    rcases List.mem_cons.mp mem with rfl | old
    · exact here
    · exact packed.canonical x old
  · intro x mem
    rcases List.mem_cons.mp mem with rfl | old
    · simpa using past
    · have bound := packed.below x old
      by_cases same : x.cls = t
      · subst same
        simp only [Function.update_self]
        omega
      · simpa [same] using bound
  · intro y mem
    refine carvedApart here (packed.canonical y mem) ?_
    rintro rfl
    exact packed.below y mem

theorem highCarved (t : Nat) (σ : State) :
    highCanonical (carved t (σ.gFlsts t) σ) =
      Function.update (highCanonical σ) t (nextCanonical t (highCanonical σ t)) := by
  funext s
  by_cases same : s = t
  · subst same
    simp [highCanonical, carved]
  · simp [highCanonical, carved, same]

theorem carvingsPacked {h : List Carved} {high : Nat → Nat} (run : Carvings h high) :
    Packed h high := by
  induction run with
  | init begun => exact packedInit begun
  | @next h k size p σ σ' before small empty call ih =>
    have cls := blockTypeLt small
    rw [popEmpty cls empty] at call
    obtain ⟨_, _, _, _, _, rfl⟩ := carveInv call
    rw [highCarved]
    exact packedNext ih cls

def roomy (high : Nat → Nat) (fileSize : Nat) : State :=
  { image with fileSize := fileSize, gFlsts := fun t => ⟨0, high t⟩ }

def granting : Kernel := ⟨1, true, 3, true, true, fun _ => ⟨true, false⟩⟩

theorem carvingsExtend {h : List Carved} {high : Nat → Nat} (run : Carvings h high) {size : Nat}
    (small : size ≤ largestBlockSize) :
    Carvings (⟨blockType size, high (blockType size)⟩ :: h)
      (Function.update high (blockType size) (nextCanonical (blockType size) (high (blockType size)))) := by
  let t := blockType size
  let σ := roomy high (roundDown (high t) pageSize + 1)
  have call : freelistPop granting size σ = .ok (mmapMinAddr + high t % pageSize)
      (carved t (σ.gFlsts t) σ) := by
    rw [popEmpty (blockTypeLt small) rfl]
    exact carveRun rfl (show 0 < mmapMinAddr by decide)
      (show mmapMinAddr + pageSize ≤ taskSize by decide) (Nat.lt_succ_self _)
  have next := Carvings.next (σ := σ) run small rfl call
  rwa [highCarved] at next

theorem everyInterleaving (ts : List Nat) (cls : ∀ t ∈ ts, t < numBlockTypes) :
    ∃ h high, Carvings h high ∧ h.map Carved.cls = ts := by
  induction ts with
  | nil => exact ⟨[], _, @Carvings.init image _ rfl, rfl⟩
  | cons t ts ih =>
    obtain ⟨h, high, run, same⟩ := ih fun s mem => cls s (List.mem_cons_of_mem _ mem)
    obtain ⟨small, back⟩ := blockTypeSize (cls t List.mem_cons_self)
    refine ⟨_, _, carvingsExtend run small, ?_⟩
    simp [back, same]

theorem canonicalRangesInjective {h : List Carved} {high : Nat → Nat} (run : Carvings h high) :
    (h.Pairwise fun x y => ∀ a, ¬ (x.Holds a ∧ y.Holds a)) ∧
    ∀ x ∈ h, x.cls < numBlockTypes ∧ blockSize x.cls = 16 * 2 ^ x.cls ∧
      x.start % pageSize + blockSize x.cls ≤ pageSize ∧
      byteAlignment ≤ x.start % pageSize ∧
      x.start % pageSize % blockSize x.cls = byteAlignment % blockSize x.cls ∧
      x.start / pageSize % numBlockTypes = x.cls := by
  have packed := carvingsPacked run
  refine ⟨packed.apart, ?_⟩
  intro x mem
  obtain ⟨page, cls, start, grid, inside⟩ := packed.canonical x mem
  obtain ⟨index, offset⟩ := Nat.dvd_of_mod_eq_zero grid
  have place : x.start % pageSize = byteAlignment + blockSize x.cls * index := by omega
  exact ⟨cls, blockSizePow _, inside, start, by rw [place, Nat.add_mul_mod_self_left], page⟩

theorem canonicalRangesTwoLargest :
    let h : List Carved := [⟨7, 61456⟩, ⟨7, 28688⟩]
    (h.Pairwise fun x y => ∀ a, ¬ (x.Holds a ∧ y.Holds a)) ∧
    ∀ x ∈ h, x.cls < numBlockTypes ∧ blockSize x.cls = 16 * 2 ^ x.cls ∧
      x.start % pageSize + blockSize x.cls ≤ pageSize ∧
      byteAlignment ≤ x.start % pageSize ∧
      x.start % pageSize % blockSize x.cls = byteAlignment % blockSize x.cls ∧
      x.start / pageSize % numBlockTypes = x.cls :=
  have first := @carvingsExtend [] _ (@Carvings.init image _ rfl) 2048 (by decide)
  canonicalRangesInjective (@carvingsExtend _ _ first 2048 (by decide))

end Nuaf.CanonicalLayout
