import Nuaf.AllocatorSource

/-! What each source function does, once, in closed form. Later modules use these
equations and the states named here, and never unfold the functions again. -/
namespace Nuaf.Source
open Layout ByteMemory Machine

variable {k : Kernel} {σ σ' : State} {t : Nat} {fl : Freelist}

def carved (t : Nat) (fl : Freelist) (σ : State) : State :=
  { σ with
    mem := write (mapZero σ.mem σ.highVaddr pageSize) σ.highVaddr 4 t
    numMappings := wrap (σ.numMappings + 1)
    highVaddr := wrap (σ.highVaddr + pageSize)
    gFlsts := Function.update σ.gFlsts t
      { fl with highCanonicalAddr := nextCanonical t fl.highCanonicalAddr }
    calls := .mmap σ.highVaddr pageSize (roundDown fl.highCanonicalAddr pageSize) :: σ.calls }

def popped (t link : Nat) (σ : State) : State :=
  { σ with gFlsts := Function.update σ.gFlsts t { σ.gFlsts t with topOfStack := link } }

def pushed (t objVaddr : Nat) (σ : State) : State :=
  { σ with
    mem := write σ.mem objVaddr 8 (σ.gFlsts t).topOfStack
    gFlsts := Function.update σ.gFlsts t { σ.gFlsts t with topOfStack := objVaddr } }

def bigMapped (numPages : Nat) (σ : State) : State :=
  { σ with
    mem := mapZero σ.mem σ.largeObjNextPage (wrap (numPages * pageSize))
    numMappings := wrap (σ.numMappings + 1)
    largeObjNextPage := wrap (σ.largeObjNextPage + wrap (pageSize * numPages))
    calls := .mmap σ.largeObjNextPage (wrap (numPages * pageSize)) 0 :: σ.calls }

def wrote (addr width value : Nat) (σ : State) : State :=
  { σ with mem := write σ.mem addr width value }

def released (ptr objSize : Nat) (σ : State) : State :=
  { σ with
    mem := unmap σ.mem (roundDown ptr pageSize) (wrap (roundUp objSize pageSize))
    numMappings := subWrap σ.numMappings 1
    calls := .munmap (roundDown ptr pageSize) (wrap (roundUp objSize pageSize)) :: σ.calls }

def initialised (k : Kernel) (σ : State) : State :=
  { σ with
    dataFd := k.mkstemp
    parPs := k.pid
    highVaddr := mmapMinAddr
    largeObjNextPage := largeObjVaddrStart
    numMappings := 0
    fileSize := if k.ftruncateOk then dataSize else 0
    gFlsts := fun i => if i < numBlockTypes then ⟨0, i * pageSize + byteAlignment⟩ else σ.gFlsts i
    calls := .ftruncate dataSize :: .mkstemp :: .sigaction :: σ.calls }

theorem initBodyCases (k : Kernel) (σ : State) :
    (initBody k σ = .ok () (initialised k σ)) ∨
    ∃ code σ', initBody k σ = .error (.exit code) σ' ∧ .sigaction ∈ σ'.calls := by
  rw [initBody, bindOk (modifyRun _ _), bindOk (recordRun _ _)]
  split
  · rw [bindOk (recordRun _ _), bindOk (modifyRun _ _)]
    split
    · exact .inr ⟨_, _, throwRun _ _, by simp⟩
    · rw [bindOk (recordRun _ _), bindOk (modifyRun _ _)]
      exact .inl rfl
  · exact .inr ⟨_, _, throwRun _ _, by simp⟩

theorem ensureInitRun (same : σ.parPs = k.pid) : ensureInit k σ = .ok () σ := by
  rw [ensureInit, bindOk (getRun σ)]
  split
  · rw [initMem, bindOk (getRun σ), if_pos same]
    rfl
  · rfl

theorem mallocSmall (same : σ.parPs = k.pid) {size : Nat} (small : size ≤ largestBlockSize) :
    xxmalloc k size σ = freelistPop k size σ := by
  rw [xxmalloc, bindOk (ensureInitRun same), if_neg (Nat.not_lt.mpr small)]

theorem writeZero {m : Memory} {start width : Nat}
    (zero : ∀ a, start ≤ a → a < start + width → m a = some 0) : write m start width 0 = m := by
  funext a
  by_cases inside : start ≤ a ∧ a < start + width
  · rw [writeIn inside, zero a inside.1 inside.2]
    simp [byteOf]
  · exact writeOut inside

theorem markPageRun {addr : Nat} (zero : ∀ a, addr ≤ a → a < addr + 4 → σ.mem a = some 0) :
    markPage addr t σ = .ok () { σ with mem := write σ.mem addr 4 t } := by
  have word : load σ.mem addr 4 = some 0 := loadZero fun i hi => zero _ (by omega) (by omega)
  rw [markPage, bindOk (readWordOk word)]
  by_cases first : t = 0
  · subst first
    rw [if_neg (by simp [asInt]), writeZero zero]
    rfl
  · have mapped : Mapped σ.mem addr 4 := fun i hi => by simp [zero (addr + i) (by omega) (by omega)]
    rw [if_pos (by simp only [asInt]; omega), writeWordOk mapped]

theorem carveRefused
    (refused : ¬ (k.mmapGrants = true ∧ σ.highVaddr + pageSize ≤ taskSize)) :
    ∃ σ', carve k t fl σ = .error (.exit 1) σ' := by
  have no : ¬ (k.mmapGrants = true ∧ 0 < pageSize ∧ σ.highVaddr + pageSize ≤ taskSize) :=
    fun h => refused ⟨h.1, h.2.2⟩
  rw [carve, bindOk (getRun σ), bindOk (mmapRefused no _)]
  exact ⟨_, rfl⟩

section
variable (grants : k.mmapGrants = true) (started : 0 < σ.highVaddr)
  (room : σ.highVaddr + pageSize ≤ taskSize)
include grants started room

theorem carvePastFile (past : σ.fileSize ≤ roundDown fl.highCanonicalAddr pageSize) :
    ∃ σ', carve k t fl σ = .error (.bus σ.highVaddr) σ' := by
  have valid : ¬ (σ.highVaddr = mapFailed ∨ σ.highVaddr = 0) := by
    simp only [mapFailed, pageSize, taskSize] at *
    omega
  rw [carve, bindOk (getRun σ), bindOk (mmapRun grants (by decide) room _), if_neg valid,
    bindOk (modifyRun _ _)]
  exact ⟨_, bindError (touchFilePast (by exact past) _)⟩

theorem carveRun (file : roundDown fl.highCanonicalAddr pageSize < σ.fileSize) :
    carve k t fl σ = .ok (σ.highVaddr + fl.highCanonicalAddr % pageSize) (carved t fl σ) := by
  have valid : ¬ (σ.highVaddr = mapFailed ∨ σ.highVaddr = 0) := by
    simp only [mapFailed, pageSize, taskSize] at *
    omega
  have zero : ∀ a, σ.highVaddr ≤ a → a < σ.highVaddr + 4 →
      mapZero σ.mem σ.highVaddr pageSize a = some 0 := fun a low high =>
    mapZeroIn ⟨low, by simp only [pageSize]; omega⟩
  rw [carve, bindOk (getRun σ), bindOk (mmapRun grants (by decide) room _), if_neg valid,
    bindOk (modifyRun _ _)]
  refine (bindOk (touchFileRun (by exact file) _)).trans ?_
  refine (bindOk (markPageRun (by exact zero))).trans ?_
  rfl

end

theorem carveInv {p : Nat} (done : carve k t fl σ = .ok p σ') :
    k.mmapGrants = true ∧ 0 < σ.highVaddr ∧ σ.highVaddr + pageSize ≤ taskSize ∧
    roundDown fl.highCanonicalAddr pageSize < σ.fileSize ∧
    p = σ.highVaddr + fl.highCanonicalAddr % pageSize ∧ σ' = carved t fl σ := by
  by_cases granted : k.mmapGrants = true ∧ σ.highVaddr + pageSize ≤ taskSize
  · obtain ⟨grants, room⟩ := granted
    by_cases started : 0 < σ.highVaddr
    · rcases Nat.lt_or_ge (roundDown fl.highCanonicalAddr pageSize) σ.fileSize with file | past
      · rw [carveRun grants started room file] at done
        cases done
        exact ⟨grants, started, room, file, rfl, rfl⟩
      · obtain ⟨τ, failed⟩ := @carvePastFile k σ t fl grants started room past
        rw [failed] at done
        cases done
    · rw [carve, bindOk (getRun σ), bindOk (mmapRun grants (by decide) room _),
        if_pos (Or.inr (by omega))] at done
      cases done
  · obtain ⟨τ, failed⟩ := @carveRefused k σ t fl granted
    rw [failed] at done
    cases done

theorem popEmpty {size : Nat} (cls : blockType size < numBlockTypes)
    (empty : (σ.gFlsts (blockType size)).topOfStack = 0) :
    freelistPop k size σ = carve k (blockType size) (σ.gFlsts (blockType size)) σ := by
  rw [freelistPop, bindOk (getFlstRun cls σ), if_pos empty]

theorem popRun {size link : Nat} (cls : blockType size < numBlockTypes)
    (full : (σ.gFlsts (blockType size)).topOfStack ≠ 0)
    (next : load σ.mem (σ.gFlsts (blockType size)).topOfStack 8 = some link) :
    freelistPop k size σ =
      .ok (σ.gFlsts (blockType size)).topOfStack (popped (blockType size) link σ) := by
  rw [freelistPop, bindOk (getFlstRun cls σ), if_neg full, bindOk (readWordOk next)]
  rfl

theorem pushRun {objVaddr : Nat} (cls : t < numBlockTypes)
    (header : load σ.mem (roundDown objVaddr pageSize) 4 = some t)
    (mapped : Mapped σ.mem objVaddr 8) :
    freelistPush objVaddr σ = .ok () (pushed t objVaddr σ) := by
  have small : asInt t = t := asIntSmall (by simp only [numBlockTypes] at cls; omega)
  rw [freelistPush, bindOk (readWordOk header), small, bindOk (getFlstRun cls σ),
    bindOk (writeWordOk mapped _)]
  rfl

theorem bigMapRefused {numPages : Nat}
    (refused : ¬ (k.mmapGrants = true ∧ 0 < wrap (numPages * pageSize) ∧
      σ.largeObjNextPage + wrap (numPages * pageSize) ≤ taskSize)) :
    ∃ σ', bigMap k numPages σ = .error (.exit 1) σ' := by
  rw [bigMap, bindOk (getRun σ), bindOk (mmapRefused refused _)]
  exact ⟨_, rfl⟩

theorem bigMapRun {numPages : Nat} (grants : k.mmapGrants = true)
    (positive : 0 < wrap (numPages * pageSize))
    (room : σ.largeObjNextPage + wrap (numPages * pageSize) ≤ taskSize) :
    bigMap k numPages σ = .ok σ.largeObjNextPage (bigMapped numPages σ) := by
  have valid : ¬ (σ.largeObjNextPage = mapFailed ∨ σ.largeObjNextPage ≠ σ.largeObjNextPage) := by
    simp only [mapFailed, taskSize] at *
    omega
  rw [bigMap, bindOk (getRun σ), bindOk (mmapRun grants positive room _), if_neg valid]
  rfl

theorem scanHeaderHit {page : Nat}
    (magic : load σ.mem (pageSize * page) 8 = some largeObjStartMagic) :
    scanHeader page σ = .ok page σ := by
  cases page with
  | zero => rw [scanHeader, bindOk (readWordOk magic), if_pos rfl]; rfl
  | succ page => rw [scanHeader, bindOk (readWordOk magic), if_pos rfl]; rfl

theorem scanHeaderFault {page : Nat} (hole : load σ.mem (pageSize * page) 8 = none) :
    scanHeader page σ = .error (.segv (pageSize * page)) σ := by
  cases page with
  | zero => rw [scanHeader, bindError (readWordFault hole)]
  | succ page => rw [scanHeader, bindError (readWordFault hole)]

theorem scanHeaderDown {page word : Nat} (other : load σ.mem (pageSize * (page + 1)) 8 = some word)
    (differs : word ≠ largeObjStartMagic) : scanHeader (page + 1) σ = scanHeader page σ := by
  rw [scanHeader, bindOk (readWordOk other), if_neg differs]

theorem scanHeaderNearest {first page : Nat} (le : first ≤ page)
    (readable : ∀ g, first ≤ g → g ≤ page → load σ.mem (pageSize * g) 8 ≠ none)
    (magic : load σ.mem (pageSize * first) 8 = some largeObjStartMagic) :
    ∃ q, first ≤ q ∧ q ≤ page ∧ scanHeader page σ = .ok q σ ∧
      load σ.mem (pageSize * q) 8 = some largeObjStartMagic ∧
      ∀ g, q < g → g ≤ page → load σ.mem (pageSize * g) 8 ≠ some largeObjStartMagic := by
  induction page, le using Nat.le_induction with
  | base => exact ⟨first, Nat.le_refl _, Nat.le_refl _, scanHeaderHit magic, magic, by omega⟩
  | succ page le ih =>
    obtain ⟨word, read⟩ := Option.ne_none_iff_exists'.mp (readable (page + 1) (by omega) (by omega))
    by_cases hit : word = largeObjStartMagic
    · rw [hit] at read
      exact ⟨page + 1, by omega, Nat.le_refl _, scanHeaderHit read, read, by omega⟩
    · obtain ⟨q, low, high, found, here, above⟩ := ih fun g lg hg => readable g lg (by omega)
      refine ⟨q, low, by omega, (scanHeaderDown read hit).trans found, here, fun g lg hg => ?_⟩
      rcases Nat.lt_or_ge page g with top | below
      · have : g = page + 1 := by omega
        simp [this, read, hit]
      · exact above g lg below

theorem usableLarge {ptr page numPages : Nat} (large : isLarge ptr = true)
    (found : scanHeader (ptr / pageSize) σ = .ok page σ)
    (count : load σ.mem (pageSize * page + 8) 8 = some numPages) :
    xxmallocUsableSize ptr σ = .ok (subWrap (wrap (numPages * pageSize)) 16) σ := by
  have some : ptr ≠ 0 := by
    rintro rfl
    simp [isLarge] at large
  rw [xxmallocUsableSize, if_neg some, if_pos large, bindOk found, bindOk (readWordOk count)]
  rfl

theorem usableSmall {ptr : Nat} (some : ptr ≠ 0) (small : isLarge ptr = false)
    (cls : t < numBlockTypes) (header : load σ.mem (roundDown ptr pageSize) 4 = Option.some t) :
    xxmallocUsableSize ptr σ = .ok (blockSize t) σ := by
  simp only [numBlockTypes, magicNumber] at cls
  have value : asInt t + magicNumber = ((magicNumber + t : Nat) : Int) := by
    rw [asIntSmall (by omega), Nat.cast_add, add_comm]
  rw [xxmallocUsableSize, if_neg some, if_neg (by simp [small]), bindOk (readWordOk header)]
  simp only [value]
  rw [if_pos ⟨Int.natCast_nonneg _, by simp only [magicNumber]; omega⟩]
  rfl

theorem usableFault {ptr : Nat} (some : ptr ≠ 0)
    (hole : ∀ a, a / pageSize = ptr / pageSize → σ.mem a = none) :
    xxmallocUsableSize ptr σ = .error (.segv (pageSize * (ptr / pageSize))) σ := by
  have base : σ.mem (pageSize * (ptr / pageSize)) = none := hole _ (by simp only [pageSize]; omega)
  rw [xxmallocUsableSize, if_neg some]
  split
  · rw [bindError (scanHeaderFault (loadUnmapped (by decide) base))]
  · rw [roundDownPage, bindError (readWordFault (loadUnmapped (by decide) base))]

theorem objStartLarge {ptr page : Nat} (large : isLarge ptr = true)
    (found : scanHeader (ptr / pageSize) σ = .ok page σ) (objSize : Nat) :
    getObjStart ptr objSize σ = .ok (pageSize * page) σ := by
  rw [getObjStart, if_pos large, bindOk found]
  rfl

theorem objStartSmall {ptr : Nat} (small : isLarge ptr = false) (objSize : Nat) :
    getObjStart ptr objSize σ =
      .ok (wrap (roundDown (subWrap ptr byteAlignment) objSize + byteAlignment)) σ := by
  rw [getObjStart, if_neg (by simp [small])]
  rfl

theorem freeLargeRun (ptr objSize : Nat) (σ : State) :
    freeLarge ptr objSize σ = .ok () (released ptr objSize σ) := rfl

def firstGrant (k : Kernel) : Nat → Nat → Option Nat
  | 0, _ => none
  | fuel + 1, i => if (k.attempt i).grants then some i else firstGrant k fuel (i + 1)

theorem grantNone {fuel i : Nat} (never : firstGrant k fuel i = none) (j : Nat) (low : i ≤ j)
    (high : j < i + fuel) : (k.attempt j).grants = false := by
  induction fuel generalizing i with
  | zero => omega
  | succ fuel ih =>
    simp only [firstGrant] at never
    split at never
    · cases never
    · rename_i refused
      rcases Nat.eq_or_lt_of_le low with rfl | past
      · simpa using refused
      · exact ih never past (by omega)

theorem grantSome {fuel i j : Nat} (first : firstGrant k fuel i = some j) :
    (k.attempt j).grants = true ∧ i ≤ j ∧ j < i + fuel ∧
      ∀ l, i ≤ l → l < j → (k.attempt l).grants = false := by
  induction fuel generalizing i with
  | zero => cases first
  | succ fuel ih =>
    simp only [firstGrant] at first
    split at first
    · rename_i grants
      cases first
      exact ⟨grants, Nat.le_refl _, by omega, fun l low high => by omega⟩
    · rename_i refused
      obtain ⟨grants, low, high, before⟩ := ih first
      refine ⟨grants, by omega, by omega, fun l le lt => ?_⟩
      rcases Nat.eq_or_lt_of_le le with rfl | past
      · simpa using refused
      · exact before l past lt

/- xxfree after a move granted at attempt `j`: the neighbouring pages the source length
covered are gone, the page of `ptr` is at the old high_vaddr. -/
def relocated (j ptr : Nat) (calls : List Call) (σ : State) : State :=
  let page := roundDown ptr pageSize
  { σ with
    mem := move (unmap σ.mem (page + pageSize) (pageSize * j - pageSize)) page σ.highVaddr pageSize
    highVaddr := wrap (σ.highVaddr + pageSize)
    calls := calls }

theorem remapLoopMoves {page target fuel i j : Nat} (source : σ.mem page ≠ none)
    (room : target + pageSize ≤ taskSize) (budget : fuel + i = 100) (positive : 0 < i)
    (first : firstGrant k fuel i = some j) :
    ∃ earlier, remapLoop k page target fuel i σ = .ok (target, j + 1) { σ with
      mem := move (unmap σ.mem (page + pageSize) (pageSize * j - pageSize)) page target pageSize
      calls := .mremap page (pageSize * j) pageSize target :: earlier } ∧
      i ≤ j ∧ j < 100 ∧
      ∀ c ∈ earlier, c ∈ σ.calls ∨ ∃ length, c = .mremap page length pageSize target := by
  have valid : target ≠ mapFailed := by
    simp only [mapFailed, pageSize, taskSize] at *
    omega
  induction fuel generalizing i σ with
  | zero => simp [firstGrant] at first
  | succ fuel ih =>
    rw [remapLoop]
    simp only [firstGrant] at first
    split at first
    · rename_i grants
      cases Option.some.inj first
      refine ⟨σ.calls, ?_, Nat.le_refl _, by omega, fun _ member => .inl member⟩
      rw [bindOk (mremapRun grants source room), if_neg (fun h => valid h.1)]
      rfl
    · rename_i refused
      cases fuel with
      | zero => simp [firstGrant] at first
      | succ fuel =>
        have left : i + 1 < 100 := by omega
        have kept : ∀ trims : Bool, (if trims then unmap σ.mem (page + pageSize)
            (pageSize * i - pageSize) else σ.mem) page = σ.mem page := by
          intro trims
          cases trims
          · rfl
          · exact unmapOut (by simp only [pageSize]; omega)
        rw [bindOk (mremapRefused (fun h => refused h.1)), if_pos ⟨rfl, left⟩]
        obtain ⟨earlier, moved, le, lt, tries⟩ := ih (i := i + 1)
          (σ := { σ with
            mem := if (k.attempt i).trims then unmap σ.mem (page + pageSize)
              (pageSize * i - pageSize) else σ.mem
            calls := .mremap page (pageSize * i) pageSize target :: σ.calls })
          (ne_of_eq_of_ne (kept _) source) (by omega) (by omega) first
        refine ⟨earlier, ?_, by omega, lt, fun c member => ?_⟩
        case refine_2 =>
          rcases tries c member with old | tried
          · rcases List.mem_cons.mp old with rfl | old
            · exact .inr ⟨_, rfl⟩
            · exact .inl old
          · exact .inr tried
        rw [moved]
        cases (k.attempt i).trims
        · rfl
        · have shorter : pageSize * i - pageSize ≤ pageSize * j - pageSize := by
            simp only [pageSize]; omega
          simp only [if_true, unmapTwice _ _ shorter]

theorem remapLoopFails {page target fuel i : Nat} (budget : fuel + i = 100) (positive : 0 < i)
    (left : 0 < fuel)
    (refused : firstGrant k fuel i = none ∨ σ.mem page = none ∨ taskSize < target + pageSize) :
    ∃ σ', remapLoop k page target fuel i σ = .ok (mapFailed, 100) σ' := by
  induction fuel generalizing i σ with
  | zero => omega
  | succ fuel ih =>
    have no : ¬ ((k.attempt i).grants = true ∧ σ.mem page ≠ none ∧ target + pageSize ≤ taskSize) := by
      rintro ⟨grants, source, room⟩
      rcases refused with never | hole | full
      · simp [firstGrant, grants] at never
      · exact source hole
      · omega
    rw [remapLoop, bindOk (mremapRefused no)]
    cases fuel with
    | zero =>
      rw [if_neg (by omega), show i + 1 = 100 by omega]
      exact ⟨_, rfl⟩
    | succ fuel =>
      rw [if_pos ⟨rfl, by omega⟩]
      apply ih (by omega) (by omega) (by omega)
      rcases refused with never | hole | full
      · refine Or.inl ?_
        simp only [firstGrant] at never ⊢
        split at never
        · cases never
        · exact never
      · refine Or.inr (Or.inl ?_)
        cases (k.attempt i).trims
        · exact hole
        · simpa using (unmapOut (by simp only [pageSize]; omega)).trans hole
      · exact Or.inr (Or.inr full)

theorem freeSmallExit {ptr : Nat}
    (refused : firstGrant k 99 1 = none ∨ σ.mem (roundDown ptr pageSize) = none ∨
      taskSize < σ.highVaddr + pageSize) : ∃ σ', freeSmall k ptr σ = .error (.exit 1) σ' := by
  have failed := @remapLoopFails k σ _ σ.highVaddr 99 1 rfl (by decide) (by decide) refused
  obtain ⟨σ', failed⟩ := failed
  rw [freeSmall, bindOk (getRun σ), bindOk failed]
  exact ⟨_, rfl⟩

theorem freeSmallLast {ptr : Nat} (source : σ.mem (roundDown ptr pageSize) ≠ none)
    (room : σ.highVaddr + pageSize ≤ taskSize) (last : firstGrant k 99 1 = some 99) :
    ∃ σ', freeSmall k ptr σ = .error (.exit 1) σ' := by
  obtain ⟨earlier, moved, _⟩ := remapLoopMoves source room rfl (by decide) last
  rw [freeSmall, bindOk (getRun σ), bindOk moved]
  exact ⟨_, rfl⟩

theorem freeSmallRun {ptr j : Nat} (cls : t < numBlockTypes)
    (page : Mapped σ.mem (roundDown ptr pageSize) pageSize)
    (header : load σ.mem (roundDown ptr pageSize) 4 = some t)
    (inside : ptr % pageSize + 8 ≤ pageSize) (aligned : σ.highVaddr % pageSize = 0)
    (room : σ.highVaddr + pageSize ≤ taskSize) (first : firstGrant k 99 1 = some j) (early : j < 99) :
    ∃ earlier, freeSmall k ptr σ = .ok () (pushed t (σ.highVaddr + ptr % pageSize)
      (relocated j ptr (.mremap (roundDown ptr pageSize) (pageSize * j) pageSize σ.highVaddr ::
        earlier) σ)) ∧ ∀ c ∈ earlier, c ∈ σ.calls ∨
          ∃ length, c = .mremap (roundDown ptr pageSize) length pageSize σ.highVaddr := by
  have source : σ.mem (roundDown ptr pageSize) ≠ none := by
    simpa using page 0 (by decide)
  obtain ⟨earlier, moved, _, _, tries⟩ := remapLoopMoves source room rfl (by decide) first
  refine ⟨earlier, ?_, tries⟩
  have whole : ∀ i < pageSize, (relocated j ptr [] σ).mem (σ.highVaddr + i) =
      σ.mem (roundDown ptr pageSize + i) := by
    intro i hi
    simp only [relocated]
    rw [moveIn ⟨by omega, by omega⟩, unmapOut (by omega), Nat.add_sub_cancel_left]
  have target : wrap (σ.highVaddr + ptr % pageSize) = σ.highVaddr + ptr % pageSize :=
    wrapSmall (by simp only [pageSize, taskSize] at *; omega)
  have base : roundDown (σ.highVaddr + ptr % pageSize) pageSize = σ.highVaddr := by
    rw [roundDownPage]
    simp only [pageSize] at *
    omega
  rw [freeSmall, bindOk (getRun σ), bindOk moved]
  simp only [if_neg (show ¬ j + 1 = 100 by omega)]
  rw [bindOk (modifyRun _ _), target]
  refine pushRun cls ?_ ?_
  · rw [base]
    exact (loadShift fun i hi => whole i (by simp only [pageSize]; omega)).trans header
  · intro i hi
    refine ne_of_eq_of_ne ?_ (page (ptr % pageSize + i) (by omega))
    exact (congrArg _ (Nat.add_assoc _ _ _)).trans (whole (ptr % pageSize + i) (by omega))

theorem xxfreeRun {ptr objSize start : Nat} (same : σ.parPs = k.pid) (some : ptr ≠ 0)
    (usable : xxmallocUsableSize ptr σ = .ok objSize σ)
    (found : getObjStart ptr objSize σ = .ok start σ) :
    xxfree k ptr σ = (if isLarge start then freeLarge start objSize else freeSmall k start) σ := by
  rw [xxfree, bindOk (ensureInitRun same), if_neg some, bindOk usable, bindOk found]

theorem xxfreeFault {ptr : Nat} (same : σ.parPs = k.pid) (some : ptr ≠ 0)
    (hole : ∀ a, a / pageSize = ptr / pageSize → σ.mem a = none) :
    xxfree k ptr σ = .error (.segv (pageSize * (ptr / pageSize))) σ := by
  rw [xxfree, bindOk (ensureInitRun same), if_neg some, bindError (usableFault some hole)]

end Nuaf.Source
