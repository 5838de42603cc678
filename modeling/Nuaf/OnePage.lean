import Nuaf.Ownership

/-! A heap with one small page. Freeing its 16-byte block moves the page to high_vaddr and
serving the block again leaves it there, so each round takes a new page. -/
namespace Nuaf.Exhaustion
open Layout ByteMemory Machine Source Heap

def steady : Kernel where
  pid := 1
  sigactionOk := true
  mkstemp := 3
  ftruncateOk := true
  mmapGrants := true
  attempt := fun _ => ⟨true, false⟩

theorem steadyReliable : Reliable 1 steady := ⟨rfl, rfl, fun _ => rfl⟩

def begun : State := { image with
  fileSize := dataSize, dataFd := 3, parPs := 1
  gFlsts := fun i => if i < numBlockTypes then ⟨0, i * pageSize + byteAlignment⟩ else ⟨0, 0⟩
  calls := [.ftruncate dataSize, .mkstemp, .sigaction] }

theorem begunStarted : Started 1 begun := ⟨steady, rfl, by decide, rfl⟩

def pageOver (base : Memory) (g : Nat) : Memory := fun a => if a / pageSize = g then some 0 else base a

variable {base : Memory} {g : Nat} {σ σ' : State}

structure OnPage (base : Memory) (g : Nat) (σ : State) : Prop where
  mem : σ.mem = pageOver base g
  high : σ.highVaddr = pageSize * (g + 1)
  par : σ.parPs = 1

theorem pageOverIn {a : Nat} (page : a / pageSize = g) : pageOver base g a = some 0 := if_pos page

theorem pageOverOut {a : Nat} (page : a / pageSize ≠ g) : pageOver base g a = base a := if_neg page

theorem pageOverLoad {a width : Nat} (low : pageSize * g ≤ a)
    (high : a + width ≤ pageSize * g + pageSize) : load (pageOver base g) a width = some 0 :=
  loadZero fun i hi => pageOverIn (by simp only [pageSize] at *; omega)

theorem pageOverMapped {a width : Nat} (low : pageSize * g ≤ a)
    (high : a + width ≤ pageSize * g + pageSize) : Mapped (pageOver base g) a width :=
  fun i hi => by
    rw [pageOverIn (by simp only [pageSize] at *; omega)]
    simp

theorem pageOverMove (vacant : ∀ a, a / pageSize = g → base a = none) :
    move (pageOver base g) (pageSize * g) (pageSize * (g + 1)) pageSize = pageOver base (g + 1) := by
  funext a
  by_cases target : a / pageSize = g + 1
  · rw [moveIn (by simp only [pageSize] at *; omega), pageOverIn target, pageOverIn]
    simp only [pageSize] at *
    omega
  · rw [pageOverOut target]
    by_cases source : a / pageSize = g
    · rw [moveSource (by simp only [pageSize] at *; omega) (by simp only [pageSize] at *; omega),
        vacant a source]
    · rw [moveOut (by simp only [pageSize] at *; omega) (by simp only [pageSize] at *; omega),
        pageOverOut source]

theorem slotFirst : SlotOffset 0 16 := ⟨by decide, by decide, by decide, by decide⟩

theorem pageSlot (g : Nat) : (pageSize * g + 16) / pageSize = g ∧
    (pageSize * g + 16) % pageSize = 16 ∧ roundDown (pageSize * g + 16) pageSize = pageSize * g := by
  rw [roundDownPage]
  simp only [pageSize]
  omega

abbrev firstPage : Nat := mmapMinAddr / pageSize

theorem mapZeroPage (m : Memory) (g : Nat) : mapZero m (pageSize * g) pageSize = pageOver m g := by
  funext a
  by_cases page : a / pageSize = g
  · rw [pageOverIn page, mapZeroIn (by simp only [pageSize] at *; omega)]
  · rw [pageOverOut page, mapZeroOut (by simp only [pageSize] at *; omega)]

abbrev largePage : Nat := largeObjVaddrStart / pageSize

theorem onPageReads (on : OnPage base g σ) (below : pageSize * g + pageSize ≤ largeObjVaddrStart) :
    isLarge (pageSize * g + 16) = false ∧
    xxmallocUsableSize (pageSize * g + 16) σ = .ok (blockSize 0) σ ∧
    getObjStart (pageSize * g + 16) (blockSize 0) σ = .ok (pageSize * g + 16) σ := by
  have small : isLarge (pageSize * g + 16) = false := notLarge (by simp only [pageSize] at *; omega)
  have user : pageSize * g + 16 < 2 ^ 63 := by
    simp only [pageSize, largeObjVaddrStart] at *
    omega
  have header : load σ.mem (roundDown (pageSize * g + 16) pageSize) 4 = some 0 := by
    rw [on.mem, (pageSlot g).2.2]
    exact pageOverLoad (Nat.le_refl _) (by simp only [pageSize]; omega)
  have start := objStartSmall small (blockSize 0) (σ := σ)
  rw [slotStart slotFirst (Nat.le_refl _) (Nat.lt_add_of_pos_right (by decide)) user] at start
  exact ⟨small, usableSmall (by omega) small (by decide) header, start⟩

theorem onPageMoves (on : OnPage base g σ) (below : pageSize * g + pageSize ≤ largeObjVaddrStart) :
    ∃ earlier, freeSmall steady (pageSize * g + 16) σ = .ok () (recycled 0 (pageSize * g + 16)
      (.mremap (pageSize * g) pageSize pageSize (pageSize * (g + 1)) :: earlier) σ) := by
  obtain ⟨_, offset, down⟩ := pageSlot g
  have header : load σ.mem (roundDown (pageSize * g + 16) pageSize) 4 = some 0 := by
    rw [on.mem, down]
    exact pageOverLoad (Nat.le_refl _) (by simp only [pageSize]; omega)
  have page : Mapped σ.mem (roundDown (pageSize * g + 16) pageSize) pageSize := by
    rw [on.mem, down]
    exact pageOverMapped (Nat.le_refl _) (Nat.le_refl _)
  have aligned : σ.highVaddr % pageSize = 0 := by
    rw [on.high]
    simp only [pageSize]
    omega
  have room : σ.highVaddr + pageSize ≤ taskSize := by
    rw [on.high]
    simp only [pageSize, taskSize, largeObjVaddrStart] at *
    omega
  obtain ⟨earlier, freed, _⟩ := freeSmallRun (k := steady) (j := 1) (by decide) page header
    (by rw [offset]; decide) aligned room rfl (by decide)
  refine ⟨earlier, ?_⟩
  rw [freed, down, on.high, Nat.mul_one, recycled, on.high]

theorem onPageMoved {calls : List Call} (on : OnPage base g σ) (top : (σ.gFlsts 0).topOfStack = 0)
    (below : pageSize * g + pageSize ≤ largeObjVaddrStart)
    (vacant : ∀ a, a / pageSize = g → base a = none) :
    OnPage base (g + 1) (recycled 0 (pageSize * g + 16) calls σ) ∧
    ((recycled 0 (pageSize * g + 16) calls σ).gFlsts 0).topOfStack = pageSize * (g + 1) + 16 := by
  obtain ⟨_, offset, down⟩ := pageSlot g
  have advance : wrap (σ.highVaddr + pageSize) = pageSize * (g + 1 + 1) := by
    rw [on.high, wrapSmall (by simp only [pageSize, largeObjVaddrStart] at *; omega)]
    simp only [pageSize]
    omega
  refine ⟨⟨?_, advance, on.par⟩, ?_⟩
  · refine (recycledMem _).trans ?_
    rw [down, offset, on.high, on.mem, pageOverMove vacant, top, writeZero]
    intro a low high
    exact pageOverIn (by simp only [pageSize] at *; omega)
  · simp [recycled, pushed, relocated, on.high, offset]

theorem onPagePops (on : OnPage base g σ) (top : (σ.gFlsts 0).topOfStack = pageSize * g + 16) :
    freelistPop steady 16 σ = .ok (pageSize * g + 16) (popped 0 0 σ) ∧
    OnPage base g (popped 0 0 σ) ∧ ((popped 0 0 σ).gFlsts 0).topOfStack = 0 := by
  have cls : blockType 16 = 0 := by decide
  have read : load σ.mem (pageSize * g + 16) 8 = some 0 := by
    rw [on.mem]
    exact pageOverLoad (by omega) (by simp only [pageSize]; omega)
  have served := @popRun steady σ 16 0 (by decide) (by rw [cls, top]; omega) (by rwa [cls, top])
  rw [cls, top] at served
  exact ⟨served, ⟨on.mem, on.high, on.par⟩, by simp [popped]⟩

theorem onPageCarves (par : σ.parPs = 1) (high : σ.highVaddr = mmapMinAddr)
    (flst : σ.gFlsts 0 = ⟨0, 16⟩) (file : 0 < σ.fileSize) :
    freelistPop steady 16 σ = .ok (pageSize * firstPage + 16) (carved 0 ⟨0, 16⟩ σ) ∧
    OnPage σ.mem firstPage (carved 0 ⟨0, 16⟩ σ) ∧
    ((carved 0 ⟨0, 16⟩ σ).gFlsts 0).topOfStack = 0 := by
  have cls : blockType 16 = 0 := by decide
  have base : σ.highVaddr = pageSize * firstPage := high
  have served := @carveRun steady σ 0 ⟨0, 16⟩ rfl (by rw [high]; decide) (by rw [high]; decide) file
  have pop := @popEmpty steady σ 16 (by decide) (by rw [cls, flst])
  rw [cls, flst, served, high] at pop
  have advance : wrap (σ.highVaddr + pageSize) = pageSize * (firstPage + 1) := by
    rw [high]
    decide
  refine ⟨pop, ⟨?_, advance, par⟩, by simp [carved]⟩
  refine (congrArg (fun v => write (mapZero σ.mem v pageSize) v 4 0) base).trans ?_
  rw [mapZeroPage, writeZero]
  intro a low top
  exact pageOverIn (by simp only [pageSize] at *; omega)

theorem bigHoles (a : Nat) (below : a < largeObjVaddrStart) :
    (bigDone (bigPages 4096) begun).mem a = none := by
  have next : begun.largeObjNextPage = largeObjVaddrStart := rfl
  have fields := (@bigMappedFields begun (bigPages 4096) (by decide) (by decide)).1
  refine (writeOut ?_).trans ((writeOut ?_).trans ?_)
  · rw [next]
    omega
  · rw [next]
    omega
  · rw [fields, mapZeroOut (by rw [next]; omega)]
    rfl

end Nuaf.Exhaustion
