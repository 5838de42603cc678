import Nuaf.Allocation

/-! xxmalloc_usable_size and xxfree on the pointer of a live object. -/
namespace Nuaf.Heap
open Layout ByteMemory LinkedStack Machine Source

variable {k : Kernel} {σ σ' : State} {own : Owner} {chains : Chains} {ptr size p : Nat}

def Held (own : Owner) (ptr size : Nat) : Prop :=
  if size ≤ largestBlockSize then
    own (ptr / pageSize) = some (.small (blockType size) (ptr % pageSize) false)
  else own (ptr / pageSize) = some (.big (ptr / pageSize) (bigPages size) 2) ∧ ptr % pageSize = 16

def usableOf (size : Nat) : Nat :=
  if size ≤ largestBlockSize then blockSize (blockType size) else bigPages size * pageSize - 16

theorem heldSmall (small : size ≤ largestBlockSize) : Held own ptr size ↔
    own (ptr / pageSize) = some (.small (blockType size) (ptr % pageSize) false) := by
  rw [Held, if_pos small]

theorem heldBig (big : largestBlockSize < size) : Held own ptr size ↔
    own (ptr / pageSize) = some (.big (ptr / pageSize) (bigPages size) 2) ∧
      ptr % pageSize = 16 := by
  rw [Held, if_neg (Nat.not_le.mpr big)]

theorem smallBelow (inv : Inv σ own chains) {g t offset : Nat} {free : Bool}
    (owned : own g = some (.small t offset free)) :
    mmapMinAddr ≤ pageSize * g ∧ pageSize * g + pageSize ≤ largeObjVaddrStart := by
  have page := inv.small owned
  exact ⟨page.low, Nat.le_trans page.high inv.highLimit⟩

theorem notLarge {p : Nat} (below : p < largeObjVaddrStart) : isLarge p = false := by
  simp only [isLarge, decide_eq_false_iff_not]
  omega

theorem bigAddresses (inv : Inv σ own chains) {g first count written : Nat}
    (owned : own g = some (.big first count written)) :
    largeObjVaddrStart ≤ pageSize * first ∧ pageSize * (first + count) ≤ taskSize ∧ 0 < count := by
  have pages := (inv.big owned).2.2
  exact ⟨pages.low, Nat.le_trans pages.high inv.nextLimit, pages.positive⟩

theorem usableSlot (inv : Inv σ own chains) {t offset p : Nat} {free : Bool}
    (owned : own (p / pageSize) = some (.small t offset free)) :
    xxmallocUsableSize p σ = .ok (blockSize t) σ := by
  obtain ⟨low, high⟩ := smallBelow inv owned
  have page := inv.small owned
  have some : p ≠ 0 := by
    rintro rfl
    simp only [mmapMinAddr, pageSize] at low
    omega
  have small : isLarge p = false := notLarge (by simp only [pageSize] at *; omega)
  exact usableSmall some small page.slot.cls (by rw [roundDownPage]; exact page.header)

theorem bigUsable {count : Nat} (positive : 0 < count) (fits : count * pageSize < 2 ^ 64) :
    subWrap (wrap (count * pageSize)) 16 = count * pageSize - 16 := by
  rw [wrapSmall fits, subWrapSmall _ fits]
  simp only [pageSize] at *
  omega

def Inside (ptr size p : Nat) : Prop := ptr ≤ p ∧ p < ptr + usableOf size

/- No page between the header of an object and `p` starts with the magic number: on pages
after the first that word is the program's. -/
def Clean (σ : State) (ptr p : Nat) : Prop :=
  ∀ g, ptr / pageSize < g → g ≤ p / pageSize →
    load σ.mem (pageSize * g) 8 ≠ some largeObjStartMagic

theorem cleanSelf (σ : State) (ptr : Nat) : Clean σ ptr ptr := fun _ low high => by omega

theorem usablePositive (size : Nat) : 0 < usableOf size := by
  unfold usableOf
  split
  · rw [blockSizePow]
    exact Nat.mul_pos (by decide) (Nat.two_pow_pos _)
  · have := bigPagesPositive size
    simp only [pageSize]
    omega

theorem insideSelf (ptr size : Nat) : Inside ptr size ptr :=
  ⟨Nat.le_refl _, Nat.lt_add_of_pos_right (usablePositive size)⟩

theorem insideSmall (inv : Inv σ own chains) (small : size ≤ largestBlockSize)
    (held : Held own ptr size) (inside : Inside ptr size p) :
    p / pageSize = ptr / pageSize ∧ p < ptr + blockSize (blockType size) := by
  have slot := (inv.small ((heldSmall small).mp held)).slot.inside
  obtain ⟨low, high⟩ := inside
  rw [usableOf, if_pos small] at high
  refine ⟨?_, high⟩
  simp only [pageSize] at *
  omega

theorem insideBig (big : largestBlockSize < size) (held : Held own ptr size)
    (inside : Inside ptr size p) : ptr / pageSize ≤ p / pageSize ∧
      p / pageSize < ptr / pageSize + bigPages size ∧ pageSize * (ptr / pageSize) + 16 ≤ p := by
  have offset := ((heldBig big).mp held).2
  obtain ⟨low, high⟩ := inside
  rw [usableOf, if_neg (Nat.not_le.mpr big)] at high
  simp only [pageSize] at *
  omega

theorem bigLarge (inv : Inv σ own chains) {g first count written : Nat}
    (owned : own g = some (.big first count written)) (low : pageSize * first ≤ p)
    (high : p < pageSize * (first + count)) : isLarge p = true := by
  obtain ⟨bottom, top, _⟩ := bigAddresses inv owned
  exact (isLargeIff (by simp only [taskSize] at top; omega)).mpr (by omega)

theorem scanHeld (inv : Inv σ own chains) (big : largestBlockSize < size)
    (held : Held own ptr size) (inside : Inside ptr size p) :
    ∃ q, ptr / pageSize ≤ q ∧ q ≤ p / pageSize ∧ scanHeader (p / pageSize) σ = .ok q σ ∧
      load σ.mem (pageSize * q) 8 = some largeObjStartMagic ∧
      ∀ g, q < g → g ≤ p / pageSize → load σ.mem (pageSize * g) 8 ≠ some largeObjStartMagic := by
  have owned := ((heldBig big).mp held).1
  obtain ⟨low, high, _⟩ := insideBig big held inside
  have pages := (inv.big owned).2.2
  refine scanHeaderNearest low (fun g lg hg => ?_) (pages.magic (by decide))
  obtain ⟨value, read⟩ := @loadTotal σ.mem (pageSize * g) 8 fun i hi => by
    rw [Ne, inv.mapped, show (pageSize * g + i) / pageSize = g by simp only [pageSize]; omega,
      pages.whole g lg (by omega)]
    simp
  simp [read]

theorem scanClean (inv : Inv σ own chains) (big : largestBlockSize < size)
    (held : Held own ptr size) (inside : Inside ptr size p) (clean : Clean σ ptr p) :
    scanHeader (p / pageSize) σ = .ok (ptr / pageSize) σ := by
  obtain ⟨q, low, high, found, magic, _⟩ := scanHeld inv big held inside
  rcases Nat.eq_or_lt_of_le low with same | past
  · rwa [same]
  · exact absurd magic (clean q past high)

theorem usableInside (inv : Inv σ own chains) (held : Held own ptr size)
    (inside : Inside ptr size p) (clean : Clean σ ptr p) :
    xxmallocUsableSize p σ = .ok (usableOf size) σ := by
  rcases Nat.lt_or_ge largestBlockSize size with big | small
  · have owned := ((heldBig big).mp held).1
    obtain ⟨_, high, positive⟩ := bigAddresses inv owned
    obtain ⟨_, last, past⟩ := insideBig big held inside
    have pages := (inv.big owned).2.2
    have large : isLarge p = true := bigLarge inv owned (by omega)
      (by simp only [pageSize] at *; omega)
    rw [usableLarge large (scanClean inv big held inside clean) (pages.pages (by decide)),
      bigUsable positive (by simp only [pageSize, taskSize] at *; omega), usableOf,
      if_neg (Nat.not_le.mpr big)]
  · obtain ⟨page, _⟩ := insideSmall inv small held inside
    have owned := (heldSmall small).mp held
    rw [← page] at owned
    rw [usableSlot inv owned, usableOf, if_pos small]

theorem usableHeld (inv : Inv σ own chains) (held : Held own ptr size) :
    xxmallocUsableSize ptr σ = .ok (usableOf size) σ :=
  usableInside inv held (insideSelf ptr size) (cleanSelf σ ptr)

theorem objStartSlot (inv : Inv σ own chains) {t g offset : Nat} {free : Bool}
    (owned : own g = some (.small t offset free)) (low : pageSize * g + offset ≤ p)
    (high : p < pageSize * g + offset + blockSize t) :
    getObjStart p (blockSize t) σ = .ok (pageSize * g + offset) σ := by
  have top := (smallBelow inv owned).2
  have slot := (inv.small owned).slot
  have inside := slot.inside
  have small : isLarge p = false := notLarge (by simp only [pageSize] at *; omega)
  have start := objStartSmall small (blockSize t) (σ := σ)
  rwa [slotStart slot low high (by simp only [pageSize, largeObjVaddrStart] at *; omega)] at start

theorem xxfreeSlot (inv : Inv σ own chains) (par : σ.parPs = k.pid) {t g offset : Nat}
    {free : Bool} (owned : own g = some (.small t offset free)) (low : pageSize * g + offset ≤ p)
    (high : p < pageSize * g + offset + blockSize t) :
    xxfree k p σ = freeSmall k (pageSize * g + offset) σ := by
  obtain ⟨bottom, top⟩ := smallBelow inv owned
  have inside := (inv.small owned).slot.inside
  have here : p / pageSize = g := by simp only [pageSize] at *; omega
  have smallStart : isLarge (pageSize * g + offset) = false :=
    notLarge (by simp only [pageSize] at *; omega)
  have some : p ≠ 0 := by simp only [mmapMinAddr] at bottom; omega
  rw [xxfreeRun par some (usableSlot inv (by rw [here]; exact owned))
    (objStartSlot inv owned low high), if_neg (by simp [smallStart])]

theorem xxfreeHeldSmall (inv : Inv σ own chains) (par : σ.parPs = k.pid)
    (small : size ≤ largestBlockSize) (held : Held own ptr size) (inside : Inside ptr size p) :
    xxfree k p σ = freeSmall k ptr σ := by
  have owned := (heldSmall small).mp held
  obtain ⟨_, high⟩ := insideSmall inv small held inside
  have free := xxfreeSlot (p := p) inv par owned (by rw [pageSplit]; exact inside.1)
    (by rwa [pageSplit])
  rwa [pageSplit] at free

theorem freeLargePages {first count : Nat} (positive : 0 < count)
    (fits : count * pageSize < 2 ^ 64) :
    freeLarge (pageSize * first) (count * pageSize - 16) σ = .ok () { σ with
      mem := unmap σ.mem (pageSize * first) (pageSize * count)
      numMappings := subWrap σ.numMappings 1
      calls := .munmap (pageSize * first) (pageSize * count) :: σ.calls } := by
  have base : roundDown (pageSize * first) pageSize = pageSize * first := by
    rw [roundDownPage, pageOf]
  rw [freeLargeRun, released, base, roundUpPages positive, wrapSmall fits, Nat.mul_comm count]

theorem xxfreeHeldBig (inv : Inv σ own chains) (par : σ.parPs = k.pid)
    (big : largestBlockSize < size) (held : Held own ptr size) (inside : Inside ptr size p)
    (clean : Clean σ ptr p) :
    xxfree k p σ = .ok () { σ with
      mem := unmap σ.mem (pageSize * (ptr / pageSize)) (pageSize * bigPages size)
      numMappings := subWrap σ.numMappings 1
      calls := .munmap (pageSize * (ptr / pageSize)) (pageSize * bigPages size) :: σ.calls } := by
  have owned := ((heldBig big).mp held).1
  obtain ⟨low, high, positive⟩ := bigAddresses inv owned
  obtain ⟨_, last, past⟩ := insideBig big held inside
  have large : isLarge p = true := bigLarge inv owned (by omega) (by simp only [pageSize] at *; omega)
  have largeStart : isLarge (pageSize * (ptr / pageSize)) = true :=
    bigLarge inv owned (Nat.le_refl _) (by simp only [pageSize]; omega)
  have some : p ≠ 0 := by omega
  have usable := usableInside inv held inside clean
  rw [usableOf, if_neg (Nat.not_le.mpr big)] at usable
  rw [xxfreeRun par some usable (objStartLarge large (scanClean inv big held inside clean) _),
    if_pos largeStart, freeLargePages positive (by simp only [pageSize, taskSize] at *; omega)]

/- The kernel may refuse mremap attempts as long as the one it grants did not have a source
range with other mapped pages in it. -/
def Harmless (k : Kernel) (σ : State) (ptr : Nat) : Prop :=
  ∀ j, firstGrant k 99 1 = some j → j < 99 → ∀ a,
    roundDown ptr pageSize + pageSize ≤ a → a < roundDown ptr pageSize + pageSize * j →
      σ.mem a = none

theorem relocatedHarmless {j : Nat} {calls : List Call} (harmless : Harmless k σ ptr)
    (first : firstGrant k 99 1 = some j) (early : j < 99) :
    relocated j ptr calls σ = relocated 1 ptr calls σ := by
  have positive : 0 < j := by
    rcases Nat.eq_zero_or_pos j with rfl | positive
    · have : ∀ fuel i, 0 < i → firstGrant k fuel i ≠ some 0 := by
        intro fuel
        induction fuel with
        | zero => intro i _ h; cases h
        | succ fuel ih =>
          intro i hi h
          simp only [firstGrant] at h
          split at h
          · cases h; omega
          · exact ih (i + 1) (by omega) h
      exact absurd first (this 99 1 (by decide))
    · exact positive
  have holes := @unmapHoles σ.mem (roundDown ptr pageSize + pageSize) (pageSize * j - pageSize)
    fun a low high => harmless j first early a low (by simp only [pageSize] at *; omega)
  simp only [relocated, holes, Nat.mul_one, Nat.sub_self, unmapNothing]

theorem slotPage (inv : Inv σ own chains) {t : Nat} {free : Bool}
    (owned : own (ptr / pageSize) = some (.small t (ptr % pageSize) free)) :
    Mapped σ.mem (roundDown ptr pageSize) pageSize ∧
    load σ.mem (roundDown ptr pageSize) 4 = some t ∧ ptr % pageSize + 8 ≤ pageSize ∧
    t < numBlockTypes := by
  have page := inv.small owned
  have inside := slotCases page.slot
  rw [roundDownPage]
  refine ⟨fun i hi => ?_, page.header, by simp only [pageSize] at *; omega, page.slot.cls⟩
  rw [Ne, inv.mapped, show (pageSize * (ptr / pageSize) + i) / pageSize = ptr / pageSize by
    simp only [pageSize] at *; omega, owned]
  simp

def Tries (σ : State) (ptr : Nat) (earlier : List Call) : Prop :=
  ∀ c ∈ earlier, c ∈ σ.calls ∨
    ∃ length, c = .mremap (roundDown ptr pageSize) length pageSize σ.highVaddr

theorem freeSmallCases (inv : Inv σ own chains) {t : Nat} {free : Bool}
    (owned : own (ptr / pageSize) = some (.small t (ptr % pageSize) free))
    (task : σ.highVaddr + pageSize ≤ taskSize) :
    ((∀ i, 1 ≤ i → i < 99 → (k.attempt i).grants = false) ∧
      ∃ σ', freeSmall k ptr σ = .error (.exit 1) σ') ∨
    ∃ j earlier, firstGrant k 99 1 = some j ∧ j < 99 ∧
      freeSmall k ptr σ = .ok () (pushed t (σ.highVaddr + ptr % pageSize) (relocated j ptr
        (.mremap (roundDown ptr pageSize) (pageSize * j) pageSize σ.highVaddr :: earlier) σ)) ∧
      Tries σ ptr earlier := by
  obtain ⟨mapped, header, inside, cls⟩ := slotPage inv owned
  have source : σ.mem (roundDown ptr pageSize) ≠ none := by
    simpa using mapped 0 (by decide)
  cases first : firstGrant k 99 1 with
  | none =>
    refine Or.inl ⟨fun i low high => ?_, freeSmallExit (Or.inl first)⟩
    exact grantNone first i low (by omega)
  | some j =>
    rcases Nat.lt_or_ge j 99 with early | last
    · obtain ⟨earlier, done, tries⟩ :=
        freeSmallRun cls mapped header inside inv.highAligned task first early
      exact Or.inr ⟨j, earlier, rfl, early, done, tries⟩
    · obtain ⟨_, _, _, bound, _⟩ := remapLoopMoves (k := k) source task rfl (by decide) first
      have : j = 99 := by omega
      subst this
      exact Or.inl ⟨(grantSome first).2.2.2, freeSmallLast source task first⟩

inductive Release (σ : State) (own : Owner) (chains : Chains) (ptr size : Nat) :
    State → Owner → Chains → Prop where
  | small {length earlier} (small : size ≤ largestBlockSize)
      (room : σ.highVaddr + pageSize ≤ largeObjVaddrStart) (tries : Tries σ ptr earlier) :
      Release σ own chains ptr size
        (recycled (blockType size) ptr
          (.mremap (roundDown ptr pageSize) length pageSize σ.highVaddr :: earlier) σ)
        (recycleOwner (blockType size) (ptr / pageSize) (ptr % pageSize) σ own)
        (Function.update chains (blockType size)
          ((σ.highVaddr + ptr % pageSize) :: chains (blockType size)))
  | large (big : largestBlockSize < size) :
      Release σ own chains ptr size
        { σ with
          mem := unmap σ.mem (pageSize * (ptr / pageSize)) (pageSize * bigPages size)
          numMappings := subWrap σ.numMappings 1
          calls := .munmap (pageSize * (ptr / pageSize)) (pageSize * bigPages size) :: σ.calls }
        (setRange (ptr / pageSize) (bigPages size) none own) chains

theorem releaseInv {own' : Owner} {chains' : Chains} (inv : Inv σ own chains)
    (held : Held own ptr size) (release : Release σ own chains ptr size σ' own' chains') :
    Inv σ' own' chains' := by
  cases release with
  | small small room tries => exact invFree inv ((heldSmall small).mp held) room
  | large big => exact invUnmap inv ((heldBig big).mp held).1

theorem freeSmallRelease (inv : Inv σ own chains) (small : size ≤ largestBlockSize)
    (held : Held own ptr size) (harmless : Harmless k σ ptr)
    (call : freeSmall k ptr σ = .ok () σ') (limit : σ'.highVaddr ≤ largeObjVaddrStart) :
    ∃ own' chains', Release σ own chains ptr size σ' own' chains' := by
  rcases freeSmallCases (k := k) inv ((heldSmall small).mp held) (taskRoom inv) with
    ⟨_, τ, failed⟩ | ⟨j, earlier, first, early, done, tries⟩
  · rw [failed] at call
    cases call
  · rw [done, relocatedHarmless harmless first early] at call
    cases call
    have room : σ.highVaddr + pageSize ≤ largeObjVaddrStart := by
      have advance : wrap (σ.highVaddr + pageSize) = σ.highVaddr + pageSize :=
        wrapSmall (by have := taskRoom inv; simp only [taskSize] at this; omega)
      exact advance ▸ limit
    exact ⟨_, _, .small small room tries⟩

theorem xxfreeRelease (inv : Inv σ own chains) (par : σ.parPs = k.pid) (held : Held own ptr size)
    (inside : Inside ptr size p) (clean : Clean σ ptr p)
    (harmless : size ≤ largestBlockSize → Harmless k σ ptr) (call : xxfree k p σ = .ok () σ')
    (limit : σ'.highVaddr ≤ largeObjVaddrStart) :
    ∃ own' chains', Release σ own chains ptr size σ' own' chains' := by
  rcases Nat.lt_or_ge largestBlockSize size with big | small
  · rw [xxfreeHeldBig inv par big held inside clean] at call
    cases call
    exact ⟨_, _, .large big⟩
  · rw [xxfreeHeldSmall inv par small held inside] at call
    exact freeSmallRelease inv small held (harmless small) call limit

theorem xxfreeCases (inv : Inv σ own chains) (par : σ.parPs = k.pid) (held : Held own ptr size)
    (inside : Inside ptr size p) (clean : Clean σ ptr p) :
    (∃ σ', xxfree k p σ = .ok () σ') ∨ size ≤ largestBlockSize ∧
      (∀ i, 1 ≤ i → i < 99 → (k.attempt i).grants = false) ∧
      ∃ σ', xxfree k p σ = .error (.exit 1) σ' := by
  rcases Nat.lt_or_ge largestBlockSize size with big | small
  · exact Or.inl ⟨_, xxfreeHeldBig inv par big held inside clean⟩
  · rw [xxfreeHeldSmall inv par small held inside]
    rcases freeSmallCases (k := k) inv ((heldSmall small).mp held) (taskRoom inv) with
      stuck | ⟨j, earlier, _, _, done, _⟩
    · exact Or.inr ⟨small, stuck⟩
    · exact Or.inl ⟨_, done⟩

end Nuaf.Heap
