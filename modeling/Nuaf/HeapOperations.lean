import Nuaf.HeapInvariant

/-! Each atomic part of the allocator, and a store of the program, keeps the invariant. -/
namespace Nuaf.Heap
open Layout ByteMemory LinkedStack Machine Source

variable {σ : State} {own : Owner} {chains : Chains} {g t offset a : Nat}

theorem highPage (inv : Inv σ own chains) : pageSize * (σ.highVaddr / pageSize) = σ.highVaddr :=
  Nat.mul_div_cancel' (Nat.dvd_of_mod_eq_zero inv.highAligned)

theorem nextPage (inv : Inv σ own chains) :
    pageSize * (σ.largeObjNextPage / pageSize) = σ.largeObjNextPage :=
  Nat.mul_div_cancel' (Nat.dvd_of_mod_eq_zero inv.nextAligned)

theorem highAdvance (room : σ.highVaddr + pageSize ≤ largeObjVaddrStart) :
    wrap (σ.highVaddr + pageSize) = σ.highVaddr + pageSize :=
  wrapSmall (by simp only [pageSize, largeObjVaddrStart] at *; omega)

theorem highGrows (inv : Inv σ own chains)
    (room : σ.highVaddr + pageSize ≤ largeObjVaddrStart) :
    σ.highVaddr ≤ wrap (σ.highVaddr + pageSize) ∧ wrap (σ.highVaddr + pageSize) % pageSize = 0 ∧
      wrap (σ.highVaddr + pageSize) ≤ largeObjVaddrStart := by
  rw [highAdvance room]
  have := inv.highAligned
  exact ⟨by omega, by simp only [pageSize] at *; omega, room⟩

theorem highUnowned (inv : Inv σ own chains)
    (room : σ.highVaddr + pageSize ≤ largeObjVaddrStart) : own (σ.highVaddr / pageSize) = none :=
  ownFresh inv (Nat.le_of_eq (highPage inv).symm) (by
    rw [highPage inv]
    simp only [pageSize] at room
    omega)

theorem nextStays (inv : Inv σ own chains) :
    σ.largeObjNextPage ≤ σ.largeObjNextPage ∧ σ.largeObjNextPage % pageSize = 0 ∧
      σ.largeObjNextPage ≤ taskSize := ⟨Nat.le_refl _, inv.nextAligned, inv.nextLimit⟩

theorem highStays (inv : Inv σ own chains) :
    σ.highVaddr ≤ σ.highVaddr ∧ σ.highVaddr % pageSize = 0 ∧ σ.highVaddr ≤ largeObjVaddrStart :=
  ⟨Nat.le_refl _, inv.highAligned, inv.highLimit⟩

theorem topBound (inv : Inv σ own chains) (cls : t < numBlockTypes) :
    (σ.gFlsts t).topOfStack < 256 ^ 8 := by
  have linked := inv.linked t cls
  cases h : chains t with
  | nil =>
    rw [h] at linked
    rw [linkedEmpty linked]
    decide
  | cons a rest =>
    rw [h] at linked
    have owned := (inv.chained t cls a).mp (by simp [h])
    have high := (inv.small owned).high
    have limit := inv.highLimit
    rw [(linkedHead linked).1]
    simp only [pageSize, largeObjVaddrStart] at *
    omega

def carveOwner (t offset : Nat) (σ : State) (own : Owner) : Owner :=
  Function.update own (σ.highVaddr / pageSize) (some (.small t offset false))

theorem invCarve (inv : Inv σ own chains) (cls : t < numBlockTypes)
    (room : σ.highVaddr + pageSize ≤ largeObjVaddrStart) :
    Inv (carved t (σ.gFlsts t) σ)
      (carveOwner t ((σ.gFlsts t).highCanonicalAddr % pageSize) σ own) chains := by
  have base := highPage inv
  have vacant := highUnowned inv room
  have fresh : ∀ a, a / pageSize = σ.highVaddr / pageSize ↔
      σ.highVaddr ≤ a ∧ a < σ.highVaddr + pageSize := fun a => by simp only [pageSize] at *; omega
  have same : ∀ a, ¬ a / pageSize = σ.highVaddr / pageSize →
      (carved t (σ.gFlsts t) σ).mem a = σ.mem a := fun a out => by
    have outside := mt (fresh a).mpr out
    exact (writeOut (by simp only [pageSize] at outside; omega)).trans (mapZeroOut outside)
  have stackTop : ∀ s, ((carved t (σ.gFlsts t) σ).gFlsts s).topOfStack = (σ.gFlsts s).topOfStack := by
    intro s
    by_cases h : s = t
    · subst h; simp [carved]
    · simp [carved, h]
  refine invReplace inv (fun q out => Function.update_of_ne out _ _) same ?_ (highGrows inv room)
    (nextStays inv) ?_ ?_ ?_ ?_ ?_ ?_
  · intro q first count written p owned low high touched
    have := (inv.big owned).2.2.whole p low high
    rw [touched, vacant] at this
    cases this
  · intro a touched
    have inside := (fresh a).mp touched
    have zero : mapZero σ.mem σ.highVaddr pageSize a = some 0 := mapZeroIn inside
    have present : (carved t (σ.gFlsts t) σ).mem a ≠ none := by
      simp only [carved, write]
      split
      · simp
      · simp [zero]
    simp [present, carveOwner, touched]
  · intro q s offset free touched owned
    subst touched
    simp only [carveOwner, Function.update_self, Option.some.injEq, Use.small.injEq] at owned
    obtain ⟨rfl, rfl, _⟩ := owned
    refine ⟨by rw [base]; exact inv.highLow, ?_, (inv.canonical t cls).slot, ?_⟩
    · rw [base]
      exact Nat.le_of_eq (highAdvance room).symm
    · rw [base]
      refine (loadWritten _ _ _ _).trans ?_
      rw [Nat.mod_eq_of_lt (by simp only [numBlockTypes] at cls; omega)]
  · intro q first count written touched owned
    simp [carveOwner, touched] at owned
  · intro s hs
    by_cases h : s = t
    · subst h
      simpa [carved] using canonicalNext (inv.canonical s hs)
    · simpa [carved, h] using inv.canonical s hs
  · intro s hs
    rw [stackTop s]
    refine keepLinked (P := fun q => q = σ.highVaddr / pageSize) inv hs same ?_
    rintro q rfl offset owned
    simp [vacant] at owned
  · intro s hs a
    rw [inv.chained s hs a]
    by_cases touched : a / pageSize = σ.highVaddr / pageSize
    · simp [carveOwner, touched, vacant]
    · simp [carveOwner, touched]

def popOwner (t a : Nat) (own : Owner) : Owner :=
  Function.update own (a / pageSize) (some (.small t (a % pageSize) false))

theorem chainedPop {rest : List Nat} (inv : Inv σ own chains) (cls : t < numBlockTypes)
    (full : chains t = a :: rest) {s : Nat} (hs : s < numBlockTypes) (x : Nat) :
    x ∈ Function.update chains t rest s ↔
      popOwner t a own (x / pageSize) = some (.small s (x % pageSize) true) := by
  have linked := inv.linked t cls
  rw [full] at linked
  have distinct := List.nodup_cons.mp (linkedNodup linked)
  have owned := (inv.chained t cls a).mp (by simp [full])
  have before := inv.chained s hs x
  by_cases touched : x / pageSize = a / pageSize
  · rw [touched, owned] at before
    simp only [popOwner, touched, Function.update_self, Option.some.injEq, Use.small.injEq,
      Bool.false_eq_true, and_false, iff_false]
    intro member
    by_cases h : s = t
    · subst h
      rw [Function.update_self] at member
      have same : x % pageSize = a % pageSize := by
        have := before.mp (by simp [full, member])
        simp only [Option.some.injEq, Use.small.injEq, and_true] at this
        exact this.2.symm
      have : x = a := by simp only [pageSize] at *; omega
      exact distinct.1 (this ▸ member)
    · rw [Function.update_of_ne h] at member
      have := before.mp member
      simp only [Option.some.injEq, Use.small.injEq] at this
      exact h this.1.symm
  · rw [popOwner, Function.update_of_ne touched, ← before]
    by_cases h : s = t
    · subst h
      have : x ≠ a := fun eq => touched (by rw [eq])
      simp [full, this]
    · simp [h]

theorem invPop {rest : List Nat} {link : Nat} (inv : Inv σ own chains) (cls : t < numBlockTypes)
    (full : chains t = a :: rest) (next : load σ.mem a 8 = some link) :
    Inv (popped t link σ) (popOwner t a own) (Function.update chains t rest) := by
  have linked := inv.linked t cls
  rw [full] at linked
  have owned := (inv.chained t cls a).mp (by simp [full])
  obtain ⟨after, read, tail⟩ := linkedTail linked
  cases Option.some.inj (next.symm.trans read)
  refine invReplace (P := fun q => q = a / pageSize) inv
    (fun q out => Function.update_of_ne out _ _) (fun _ _ => rfl) ?_ (highStays inv)
    (nextStays inv) ?_ ?_ ?_ ?_ ?_ fun s hs => chainedPop inv cls full hs
  · rintro q first count written p big low high rfl
    have := (inv.big big).2.2.whole _ low high
    rw [owned] at this
    cases this
  · intro x touched
    refine (inv.mapped x).trans ?_
    simp [popOwner, touched, owned]
  · rintro q s offset free rfl here
    simp only [popOwner, Function.update_self, Option.some.injEq, Use.small.injEq] at here
    obtain ⟨rfl, rfl, _⟩ := here
    exact { inv.small owned with }
  · rintro q first count written rfl here
    simp [popOwner] at here
  · intro s hs
    by_cases h : s = t
    · subst h
      simpa [popped] using inv.canonical s hs
    · simpa [popped, h] using inv.canonical s hs
  · intro s hs
    by_cases h : s = t
    · subst h
      simpa [popped] using tail
    · simpa [popped, h] using inv.linked s hs

def recycleOwner (t g offset : Nat) (σ : State) (own : Owner) : Owner :=
  Function.update (Function.update own g none) (σ.highVaddr / pageSize)
    (some (.small t offset true))

def recycled (t ptr : Nat) (calls : List Call) (σ : State) : State :=
  pushed t (σ.highVaddr + ptr % pageSize) (relocated 1 ptr calls σ)

theorem recycledMem {calls : List Call} (a : Nat) :
    (recycled t a calls σ).mem = write (move σ.mem (roundDown a pageSize) σ.highVaddr pageSize)
      (σ.highVaddr + a % pageSize) 8 (σ.gFlsts t).topOfStack := by
  simp only [recycled, pushed, relocated, Nat.mul_one, Nat.sub_self, unmapNothing]

theorem recycledOther {calls : List Call} {x : Nat} (inv : Inv σ own chains)
    (inside : a % pageSize + 8 ≤ pageSize) (old : x / pageSize ≠ a / pageSize)
    (new : x / pageSize ≠ σ.highVaddr / pageSize) :
    (recycled t a calls σ).mem x = σ.mem x := by
  have base := highPage inv
  rw [recycledMem, roundDownPage, writeOut (by simp only [pageSize] at *; omega),
    moveOut (by simp only [pageSize] at *; omega) (by simp only [pageSize] at *; omega)]

theorem recycledTarget {calls : List Call} {i : Nat} (inside : i < pageSize)
    (spared : ¬ (a % pageSize ≤ i ∧ i < a % pageSize + 8)) :
    (recycled t a calls σ).mem (σ.highVaddr + i) = σ.mem (pageSize * (a / pageSize) + i) := by
  rw [recycledMem, roundDownPage, writeOut (by omega), moveIn ⟨by omega, by omega⟩,
    Nat.add_sub_cancel_left]

theorem recycledLink {calls : List Call} (a : Nat) (bound : (σ.gFlsts t).topOfStack < 256 ^ 8) :
    load (recycled t a calls σ).mem (σ.highVaddr + a % pageSize) 8 =
      some (σ.gFlsts t).topOfStack := by
  rw [recycledMem, loadWritten, Nat.mod_eq_of_lt bound]

theorem recycledMapped {calls : List Call} (inv : Inv σ own chains)
    (inside : a % pageSize + 8 ≤ pageSize) (differ : a / pageSize ≠ σ.highVaddr / pageSize)
    (live : own (a / pageSize) ≠ none) {x : Nat} :
    (x / pageSize = σ.highVaddr / pageSize → (recycled t a calls σ).mem x ≠ none) ∧
    (x / pageSize = a / pageSize → (recycled t a calls σ).mem x = none) := by
  have base := highPage inv
  rw [recycledMem, roundDownPage]
  constructor
  · intro here
    have source : (pageSize * (a / pageSize) + (x - σ.highVaddr)) / pageSize = a / pageSize := by
      simp only [pageSize] at *; omega
    have present : σ.mem (pageSize * (a / pageSize) + (x - σ.highVaddr)) ≠ none := by
      rw [Ne, inv.mapped, source]
      exact live
    simp only [write]
    split
    · simp
    · rwa [moveIn (by simp only [pageSize] at *; omega)]
  · intro there
    rw [writeOut (by simp only [pageSize] at *; omega),
      moveSource (by simp only [pageSize] at *; omega) (by simp only [pageSize] at *; omega)]

theorem targetPage (inv : Inv σ own chains) (a : Nat) :
    (σ.highVaddr + a % pageSize) / pageSize = σ.highVaddr / pageSize ∧
    (σ.highVaddr + a % pageSize) % pageSize = a % pageSize := by
  have base := highPage inv
  simp only [pageSize] at *
  omega

section
variable {calls : List Call} (inv : Inv σ own chains)
  (live : own (a / pageSize) = some (.small t (a % pageSize) false))
  (room : σ.highVaddr + pageSize ≤ largeObjVaddrStart)
include inv live

theorem liveShort : a % pageSize + 8 ≤ pageSize := by
  have inside := slotCases (inv.small live).slot
  simp only [pageSize] at *
  omega

theorem recycledSame (x : Nat)
    (out : ¬ (x / pageSize = a / pageSize ∨ x / pageSize = σ.highVaddr / pageSize)) :
    (recycled t a calls σ).mem x = σ.mem x :=
  recycledOther inv (liveShort inv live) (fun h => out (.inl h)) (fun h => out (.inr h))

include room

theorem linkedFree {s : Nat} (hs : s < numBlockTypes) :
    Linked (fun x => load (recycled t a calls σ).mem x 8) 0
      ((recycled t a calls σ).gFlsts s).topOfStack
      (Function.update chains t ((σ.highVaddr + a % pageSize) :: chains t) s) := by
  have vacant := highUnowned inv room
  have kept : Linked (fun x => load (recycled t a calls σ).mem x 8) 0
      (σ.gFlsts s).topOfStack (chains s) := by
    refine keepLinked (P := fun q => q = a / pageSize ∨ q = σ.highVaddr / pageSize) inv hs
      (recycledSame inv live) ?_
    rintro q (rfl | rfl) offset owned
    · simp [live] at owned
    · simp [vacant] at owned
  by_cases h : s = t
  · subst h
    have real : σ.highVaddr + a % pageSize ≠ 0 := by
      have := slotCases (inv.small live).slot
      omega
    have top : ((recycled s a calls σ).gFlsts s).topOfStack = σ.highVaddr + a % pageSize := by
      simp [recycled, pushed]
    rw [Function.update_self, top]
    exact .cell real (recycledLink a (topBound inv hs)) kept
  · rw [Function.update_of_ne h]
    simpa [recycled, pushed, relocated, h] using kept

theorem chainedFree {s : Nat} (hs : s < numBlockTypes) (x : Nat) :
    x ∈ Function.update chains t ((σ.highVaddr + a % pageSize) :: chains t) s ↔
      recycleOwner t (a / pageSize) (a % pageSize) σ own (x / pageSize) =
        some (.small s (x % pageSize) true) := by
  have base := highPage inv
  have target := targetPage inv a
  have before := inv.chained s hs x
  by_cases new : x / pageSize = σ.highVaddr / pageSize
  · rw [new, highUnowned inv room] at before
    have absent : x ∉ chains s := by simp [before]
    simp only [recycleOwner, new, Function.update_self, Option.some.injEq, Use.small.injEq,
      and_true]
    by_cases h : s = t
    · subst h
      simp only [Function.update_self, List.mem_cons, absent, or_false, true_and]
      constructor
      · rintro rfl
        exact target.2.symm
      · intro offset
        simp only [pageSize] at *
        omega
    · simp [h, absent, Ne.symm h]
  · rw [recycleOwner, Function.update_of_ne new]
    have notTarget : x ≠ σ.highVaddr + a % pageSize := fun h => new (h ▸ target.1)
    by_cases old : x / pageSize = a / pageSize
    · rw [old, live] at before
      have absent : x ∉ chains s := by simp [before]
      by_cases h : s = t
      · subst h
        simp [old, absent, notTarget]
      · simp [h, old, absent]
    · rw [Function.update_of_ne old, ← before]
      by_cases h : s = t
      · subst h
        simp [notTarget]
      · simp [h]

theorem invFree : Inv (recycled t a calls σ) (recycleOwner t (a / pageSize) (a % pageSize) σ own)
    (Function.update chains t ((σ.highVaddr + a % pageSize) :: chains t)) := by
  have base := highPage inv
  have vacant := highUnowned inv room
  have page := inv.small live
  have differ : a / pageSize ≠ σ.highVaddr / pageSize := fun h => by
    rw [h, vacant] at live; cases live
  have mapped := @recycledMapped σ own chains t a calls inv (liveShort inv live) differ (by simp [live])
  refine invReplace (P := fun q => q = a / pageSize ∨ q = σ.highVaddr / pageSize) inv ?_
    (recycledSame inv live) ?_ (highGrows inv room) (nextStays inv) ?_ ?_ ?_ ?_
    (fun s => linkedFree inv live room) (fun s => chainedFree inv live room)
  · intro q out
    rw [recycleOwner, Function.update_of_ne (fun h => out (.inr h)),
      Function.update_of_ne (fun h => out (.inl h))]
  · intro q first count written p owned low high touched
    have whole := (inv.big owned).2.2.whole p low high
    rcases touched with rfl | rfl
    · rw [live] at whole; cases whole
    · rw [vacant] at whole; cases whole
  · rintro x (old | new)
    · simp [(mapped (x := x)).2 old, recycleOwner, old, differ]
    · simp [(mapped (x := x)).1 new, recycleOwner, new]
  · rintro q s offset free (rfl | rfl) owned
    · simp [recycleOwner, differ] at owned
    · simp only [recycleOwner, Function.update_self, Option.some.injEq, Use.small.injEq] at owned
      obtain ⟨rfl, rfl, _⟩ := owned
      refine ⟨by rw [base]; exact inv.highLow, ?_, page.slot, ?_⟩
      · rw [base]
        exact Nat.le_of_eq (highAdvance room).symm
      · have inside := slotCases page.slot
        rw [base]
        refine (loadShift fun i hi => recycledTarget ?_ ?_).trans page.header
        · simp only [pageSize]; omega
        · omega
  · rintro q first count written (rfl | rfl) owned
    · simp [recycleOwner, differ] at owned
    · simp [recycleOwner] at owned
  · intro s hs
    by_cases h : s = t
    · subst h
      simpa [recycled, pushed, relocated] using inv.canonical s hs
    · simpa [recycled, pushed, relocated, h] using inv.canonical s hs

end

end Nuaf.Heap
