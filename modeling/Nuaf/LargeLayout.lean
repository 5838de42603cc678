import Nuaf.Effects
import Nuaf.InteriorPointers

/-! Large objects. Their pages are all that is mapped at or above LARGE_OBJ_VADDR_START, they
lie there in the order they were allocated in, and a free takes one object's pages away. -/
namespace Nuaf.LargeLayout
open Layout ByteMemory Machine Source Heap Nuaf.Sequential InteriorPointers Exhaustion

def bigs (l : Ledger) : List Block := l.live.filter (fun b => ¬ b.Small)

def endOf (b : Block) : Nat := headerOf b + bigPages b.size * pageSize

def InPages (b : Block) (a : Nat) : Prop := headerOf b ≤ a ∧ a < endOf b

def Above (x y : Block) : Prop := y.serial < x.serial ∧ endOf y ≤ headerOf x

structure LaidOut (k : Kernel) (h : History) (σ : State) : Prop where
  mapped : ∀ a, largeObjVaddrStart ≤ a → (σ.mem a ≠ none ↔ ∃ b ∈ bigs (ledger h), InPages b a)
  header : ∀ b ∈ bigs (ledger h), b.ptr = headerOf b + 16 ∧
    load σ.mem (headerOf b) 8 = some largeObjStartMagic ∧
    load σ.mem (headerOf b + 8) 8 = some (bigPages b.size)
  region : ∀ b ∈ bigs (ledger h), largeObjVaddrStart ≤ headerOf b ∧ endOf b ≤ σ.largeObjNextPage
  ordered : (bigs (ledger h)).Pairwise Above
  apart : (bigs (ledger h)).Pairwise (fun x y => ∀ a, ¬ (InPages x a ∧ InPages y a))
  frees : ∀ b ∈ bigs (ledger h), ∃ σ', xxfree k b.ptr σ = .ok () σ' ∧
    σ'.calls = .munmap (headerOf b) (bigPages b.size * pageSize) :: σ.calls ∧
    ∀ a, σ'.mem a ≠ none ↔ σ.mem a ≠ none ∧ ¬ InPages b a

structure Stacked (l : Ledger) : Prop where
  older : ∀ b ∈ bigs l, b.serial < l.made
  ordered : (bigs l).Pairwise Above

variable {pid : Nat} {h : History} {σ σ' : State} {own : Owner} {k : Kernel} {e : Event} {b : Block}
  {l l' : Ledger}

theorem bigsMember : b ∈ bigs l ↔ b ∈ l.live ∧ largestBlockSize < b.size := by
  simp [bigs, Block.Small]

theorem bigHeld (sound : Sound pid h σ own) (member : b ∈ bigs (ledger h)) :
    b.ptr = headerOf b + 16 ∧
      BigPages σ own (b.ptr / pageSize) (bigPages b.size) 2 := by
  obtain ⟨owned, big⟩ := bigsMember.mp member
  obtain ⟨owns, offset⟩ := (heldBig big).mp (sound.agrees.held b owned)
  have split := pageSplit b.ptr
  exact ⟨by unfold headerOf; omega, (sound.agrees.inv.big owns).2.2⟩

theorem bigEnds (sound : Sound pid h σ own) (member : b ∈ bigs (ledger h)) :
    largeObjVaddrStart ≤ headerOf b ∧ endOf b ≤ σ.largeObjNextPage := by
  have pages := (bigHeld sound member).2
  have high := pages.high
  refine ⟨pages.low, ?_⟩
  unfold endOf headerOf
  simp only [pageSize] at *
  omega

theorem inPagesSpans (member : b ∈ bigs l) (a : Nat) : InPages b a ↔ b.Page (a / pageSize) := by
  rw [Block.Page, spansBig (bigsMember.mp member).2, InPages, endOf, headerOf]
  simp only [pageSize]
  omega

theorem stackedFewer (stacked : Stacked l) (fewer : (bigs l').Sublist (bigs l))
    (made : l.made ≤ l'.made) : Stacked l' :=
  ⟨fun b member => Nat.lt_of_lt_of_le (stacked.older b (fewer.subset member)) made,
    stacked.ordered.sublist fewer⟩

theorem bigsSmall {rest : List Block} (small : b.Small) (added : l.live = b :: rest) :
    bigs l = rest.filter (fun b => ¬ b.Small) := by
  rw [bigs, added, List.filter_cons_of_neg (by simpa using small)]

theorem effectStacked (sound : Sound pid h σ own) (stacked : Stacked (ledger h))
    (effect : Effect h σ e σ') : Stacked (ledger (e :: h)) := by
  cases effect with
  | carves small empty room =>
    rw [carvesLedger small empty]
    refine stackedFewer stacked ?_ (Nat.le_succ _)
    rw [bigsSmall (b := ⟨_, _, _, _⟩) small rfl]
    exact List.Sublist.refl _
  | pops small full =>
    rw [popsLedger small full]
    refine stackedFewer stacked ?_ (Nat.le_refl _)
    rw [bigsSmall (b := ⟨_, _, _, _⟩) small rfl]
    exact List.Sublist.refl _
  | @maps size big fits room =>
    rw [mapsLedger big]
    have base := nextPage sound.agrees.inv
    have added : bigs ((ledger h).make size (σ.largeObjNextPage + 16)) =
        ⟨(ledger h).made, blockType size, σ.largeObjNextPage + 16, size⟩ :: bigs (ledger h) :=
      List.filter_cons_of_pos (by simpa [Block.Small] using big)
    refine ⟨fun b member => ?_, ?_⟩
    · rw [added] at member
      rcases List.mem_cons.mp member with rfl | old
      · exact Nat.lt_succ_self _
      · exact Nat.lt_succ_of_lt (stacked.older b old)
    · rw [added]
      refine List.pairwise_cons.mpr ⟨fun b old => ⟨stacked.older b old, ?_⟩, stacked.ordered⟩
      have below := (bigEnds sound old).2
      unfold headerOf
      simp only [pageSize] at *
      omega
  | moves owned found small room tries =>
    rw [movesLedger found small]
    exact stackedFewer stacked (List.filter_sublist.filter _) (Nat.le_refl _)
  | unmaps owned found big =>
    rw [unmapsLedger found big]
    exact stackedFewer stacked (List.filter_sublist.filter _) (Nat.le_refl _)
  | rests quiet =>
    rw [restsLedger quiet]
    exact stacked

theorem bigMapped (sound : Sound pid h σ own) (covered : Covered (ledger h) own) {a : Nat}
    (large : largeObjVaddrStart ≤ a) : σ.mem a ≠ none ↔ ∃ b ∈ bigs (ledger h), InPages b a := by
  have inv := sound.agrees.inv
  constructor
  · intro present
    rw [Ne, inv.mapped] at present
    obtain ⟨u, owned⟩ := Option.ne_none_iff_exists'.mp present
    cases u with
    | small t offset free =>
      have below := (smallBelow inv owned).2
      simp only [pageSize] at *
      omega
    | big first count written =>
      obtain ⟨b, there, page⟩ := covered _ ⟨_, owned, fun t offset h => by cases h⟩
      have member : b ∈ bigs (ledger h) := by
        refine bigsMember.mpr ⟨there, Nat.lt_of_not_le fun small => ?_⟩
        have holds := (heldSpans inv (sound.agrees.held b there) page).1
        rw [owned, (heldSmall small).mp (sound.agrees.held b there)] at holds
        cases holds
      exact ⟨b, member, (inPagesSpans member a).mpr page⟩
  · rintro ⟨b, member, inside⟩
    obtain ⟨u, owned, _⟩ := (heldSpans inv (sound.agrees.held b (bigsMember.mp member).1)
      ((inPagesSpans member a).mp inside)).2
    rw [Ne, inv.mapped, owned]
    simp

theorem bigFrees (sound : Sound pid h σ own) (mine : k.pid = pid) (member : b ∈ bigs (ledger h)) :
    ∃ σ', xxfree k b.ptr σ = .ok () σ' ∧
      σ'.calls = .munmap (headerOf b) (bigPages b.size * pageSize) :: σ.calls ∧
      ∀ a, σ'.mem a ≠ none ↔ σ.mem a ≠ none ∧ ¬ InPages b a := by
  obtain ⟨owned, big⟩ := bigsMember.mp member
  have freed := xxfreeHeldBig sound.agrees.inv (sound.par.trans mine.symm) big
    (sound.agrees.held b owned) (insideSelf _ _) (cleanSelf _ _)
  rw [Nat.mul_comm pageSize (bigPages b.size)] at freed
  refine ⟨_, freed, rfl, fun a => ?_⟩
  by_cases inside : InPages b a
  · have gone : unmap σ.mem (headerOf b) (bigPages b.size * pageSize) a = none := unmapIn inside
    simp [headerOf] at gone
    simp [gone, inside]
  · have kept : unmap σ.mem (headerOf b) (bigPages b.size * pageSize) a = σ.mem a := unmapOut inside
    simp [headerOf] at kept
    simp [kept, inside]

theorem largeObjectsLaidOut (run : Run pid (reliably pid) Within h σ) (mine : k.pid = pid) :
    LaidOut k h σ := by
  obtain ⟨stacked, own, sound, covered⟩ := runEffects (P := fun h _ => Stacked (ledger h))
    (fun _ _ => ⟨by simp [bigs, ledger], by simp [bigs, ledger]⟩)
    (fun _ _ _ _ _ sound stacked effect => effectStacked sound stacked effect)
    (runWiden reliablyWider run)
  refine ⟨fun a => bigMapped sound covered, fun b member => ?_, fun b => bigEnds sound,
    stacked.ordered, stacked.ordered.imp ?_, fun b => bigFrees sound mine⟩
  · obtain ⟨place, pages⟩ := bigHeld sound member
    exact ⟨place, pages.magic (by decide), pages.pages (by decide)⟩
  · rintro x y ⟨_, past⟩ a ⟨⟨low, _⟩, _, high⟩
    omega

theorem gapLaidOut : ∃ h σ, Run 1 (reliably 1) Within h σ ∧
    bigs (ledger h) = [⟨2, blockType 8192, 0xFFFF004010, 8192⟩, ⟨0, blockType 4096, 0xFFFF000010, 4096⟩] ∧
      LaidOut steady h σ := by
  have first := @bigRun Within (by decide)
  obtain ⟨h, σ, run, second, _, next⟩ := @mallocLargeNext 1 _ _ steady 5000 first steadyReliable
    (by decide) (by decide)
  have place : σ.largeObjNextPage = 0xFFFF004000 := next
  obtain ⟨h', σ', run', third, _⟩ := @mallocLargeNext 1 _ _ steady 8192 run steadyReliable
    (by decide) (by rw [place]; decide)
  rw [second, place] at third
  have owned : ⟨1, blockType 5000, 0xFFFF002010, 5000⟩ ∈ live h' := by
    rw [live, third]
    decide
  obtain ⟨h'', σ'', run'', freed, _⟩ := freeLargeNext run' steadyReliable owned (by decide)
  refine ⟨h'', σ'', run'', ?_, largeObjectsLaidOut run'' rfl⟩
  rw [freed, third]
  decide

end Nuaf.LargeLayout
