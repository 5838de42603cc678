import Nuaf.Effects
import Nuaf.RetryDamage

/-! What a request of n bytes gets. The model computes sizes and addresses as 64-bit words;
here every intermediate value of the source is shown to fit, and the object to be large enough. -/
namespace Nuaf.Capacity
open Layout ByteMemory Machine Source Heap Nuaf.Sequential Exhaustion RetryDamage

def Granted (k : Kernel) (σ : State) (n : Nat) : Prop := k.mmapGrants = true ∧
  if n ≤ largestBlockSize then σ.highVaddr + pageSize ≤ taskSize
  else σ.largeObjNextPage + bigPages n * pageSize ≤ taskSize

def canonicalOf (σ : State) (n : Nat) : Nat := (σ.gFlsts (blockType n)).highCanonicalAddr

/- Intermediate values of freelist_pop, xxmalloc_big and xxmalloc_usable_size, without any
reduction; signed ones stay below 2^63, those of type int below 2^31. -/
structure NoWrap (n : Nat) (σ : State) : Prop where
  objBytes : n ≤ largestBlockSize → blockSize (blockType n) < 2 ^ 31
  objVaddr : n ≤ largestBlockSize → σ.highVaddr + canonicalOf σ n % pageSize < 2 ^ 63
  highVaddr : n ≤ largestBlockSize → σ.highVaddr + pageSize < 2 ^ 63
  canonical : n ≤ largestBlockSize → canonicalOf σ n + blockSize (blockType n) < 2 ^ 63
  skipped : n ≤ largestBlockSize → roundUp (canonicalOf σ n + blockSize (blockType n)) pageSize +
    pageSize * (numBlockTypes - 1) + byteAlignment < 2 ^ 63
  padded : largestBlockSize < n → n + 16 < 2 ^ 64
  numPages : largestBlockSize < n → bigPages n = (n + 16) / pageSize + 1
  length : largestBlockSize < n → bigPages n * pageSize < 2 ^ 64
  header : largestBlockSize < n → 16 ≤ bigPages n * pageSize
  nextPage : largestBlockSize < n → σ.largeObjNextPage + pageSize * bigPages n < 2 ^ 64
  payload : largestBlockSize < n → σ.largeObjNextPage + 16 < 2 ^ 63

structure Serves (h : History) (n p : Nat) (σ' : State) : Prop where
  aligned : p % byteAlignment = 0
  usable : ∃ size, xxmallocUsableSize p σ' = .ok size σ' ∧ n ≤ size ∧ p + size < 2 ^ 63
  mapped : ∃ b ∈ live (⟨.xxmalloc n, .value p, σ'.calls⟩ :: h), b.ptr = p ∧
    ∀ a, p ≤ a → a < p + n → σ'.mem a ≠ none ∧ b.Page (a / pageSize) ∧
      ∀ c ∈ live (⟨.xxmalloc n, .value p, σ'.calls⟩ :: h), c.Page (a / pageSize) → c = b

variable {pid n p : Nat} {h : History} {σ σ' : State} {own : Owner} {k : Kernel} {e : Event}

theorem nextCanonicalNear {t c : Nat} (good : Canonical t c) :
    nextCanonical t c ≤ c + numBlockTypes * pageSize ∧
    roundUp (c + blockSize t) pageSize ≤ c + pageSize := by
  have inside := good.slot.inside
  have start := good.slot.start
  have near : roundUp (c + blockSize t) pageSize + byteAlignment ≤ c + pageSize := by
    unfold roundUp
    simp only [pageSize, byteAlignment] at *
    split <;> omega
  refine ⟨?_, Nat.le_trans (Nat.le_add_right _ _) near⟩
  unfold nextCanonical
  simp only [pageSize, byteAlignment, numBlockTypes, magicNumber] at *
  split <;> omega

def Paced (σ : State) : Prop := ∀ t < numBlockTypes, (σ.gFlsts t).highCanonicalAddr +
  numBlockTypes * mmapMinAddr ≤ numBlockTypes * σ.highVaddr + numBlockTypes * pageSize

theorem effectPaced (sound : Sound pid h σ own) (paced : Paced σ) (effect : Effect h σ e σ') :
    Paced σ' := by
  have inv := sound.agrees.inv
  intro s cls
  have before := paced s cls
  cases effect with
  | @carves size small empty room =>
    have near := (nextCanonicalNear (inv.canonical s cls)).1
    have advance := highAdvance room
    simp only [carved, State.clear]
    rw [advance]
    by_cases same : s = blockType size
    · subst same
      simp only [Function.update_self]
      simp only [pageSize, numBlockTypes, magicNumber] at *
      omega
    · simp only [Function.update_of_ne same]
      simp only [pageSize, numBlockTypes, magicNumber] at *
      omega
  | @pops size b rest link small full =>
    by_cases same : s = blockType size
    · subst same
      simpa [popped, State.clear] using before
    · simpa [popped, State.clear, same] using before
  | maps big fits room => exact before
  | @moves b ptr v length earlier owned found small room tries =>
    have grows := (highGrows inv room).1
    have later : numBlockTypes * σ.highVaddr ≤ numBlockTypes * wrap (σ.highVaddr + pageSize) :=
      Nat.mul_le_mul_left _ grows
    by_cases same : s = blockType b.size
    · subst same
      simp only [recycled, pushed, relocated, State.clear, Function.update_self]
      omega
    · simp only [recycled, pushed, relocated, State.clear, Function.update_of_ne same]
      omega
  | unmaps owned found big => exact before
  | rests quiet => exact before

theorem startedPaced (begun : Started pid σ) : Paced σ := by
  obtain ⟨fd, size, calls, rfl⟩ := startedState begun
  intro t cls
  simp only [if_pos cls, image]
  simp only [numBlockTypes, magicNumber, pageSize, byteAlignment, mmapMinAddr] at *
  omega

theorem soundNoWrap (sound : Sound pid h σ own) (paced : Paced σ) (request : n < 2 ^ 63) :
    NoWrap n σ := by
  have inv := sound.agrees.inv
  have limit := inv.highLimit
  have top := inv.nextLimit
  have offset : canonicalOf σ n % pageSize < pageSize := Nat.mod_lt _ (by decide)
  have pages : bigPages n = (n + 16) / pageSize + 1 := by
    rw [bigPages, wrapSmall (by omega)]
  have bounds : n ≤ largestBlockSize → canonicalOf σ n ≤ 2 ^ 50 ∧
      blockSize (blockType n) ≤ largestBlockSize ∧
      roundUp (canonicalOf σ n + blockSize (blockType n)) pageSize ≤ canonicalOf σ n + pageSize := by
    intro small
    have cls := blockTypeLt small
    have slow := paced _ cls
    refine ⟨?_, (blockTypeSize cls).1, (nextCanonicalNear (inv.canonical _ cls)).2⟩
    simp only [canonicalOf, numBlockTypes, magicNumber, mmapMinAddr, pageSize, largeObjVaddrStart] at *
    omega
  refine ⟨fun small => ?_, fun small => ?_, fun small => ?_, fun small => ?_, fun small => ?_,
    fun _ => by omega, fun _ => pages, fun _ => ?_, fun _ => ?_, fun _ => ?_, fun _ => ?_⟩
  · exact Nat.lt_of_le_of_lt (bounds small).2.1 (by decide)
  · simp only [pageSize, largeObjVaddrStart] at *
    omega
  · simp only [pageSize, largeObjVaddrStart] at *
    omega
  · obtain ⟨below, short, _⟩ := bounds small
    have half : largestBlockSize = 2048 := rfl
    omega
  · obtain ⟨below, _, near⟩ := bounds small
    simp only [pageSize, numBlockTypes, magicNumber, byteAlignment] at *
    omega
  · rw [pages]
    simp only [pageSize]
    omega
  · rw [pages]
    simp only [pageSize]
    omega
  · rw [pages]
    simp only [pageSize, taskSize] at *
    omega
  · simp only [taskSize] at top
    omega

theorem grantedReturns (sound : Sound pid h σ own) (mine : k.pid = pid)
    (granted : Granted k σ n) : (∃ p σ', xxmalloc k n σ.clear = .ok p σ') ∨
      PastFile σ n ∧ ∃ addr σ', xxmalloc k n σ.clear = .error (.bus addr) σ' := by
  have clear := soundClear sound
  obtain ⟨grants, room⟩ := granted
  rw [xxmalloc, bindOk (ensureInitRun (clear.par.trans mine.symm))]
  rcases Nat.lt_or_ge largestBlockSize n with big | small
  · rw [if_neg (Nat.not_le.mpr big)] at room
    have fits : bigPages n * pageSize < 2 ^ 64 := by
      simp only [taskSize] at room
      omega
    rw [if_pos big]
    exact .inl ⟨_, _, xxmallocBigRun fits room grants⟩
  · rw [if_pos small] at room
    rw [if_neg (Nat.not_lt.mpr small)]
    rcases popStep (k := k) clear.agrees.inv small with done | ⟨refused, _⟩ | ⟨past, σ', stops⟩
    · exact .inl done
    · rw [grants] at refused
      cases refused
    · exact .inr ⟨past, _, σ', stops⟩

theorem heldEnough (n : Nat) (pages : largestBlockSize < n → bigPages n = (n + 16) / pageSize + 1) :
    n ≤ usableOf n := by
  unfold usableOf
  split
  · exact blockTypeFits n
  · rename_i big
    rw [pages (Nat.not_le.mp big)]
    simp only [pageSize]
    omega

theorem heldAligned {chains : Chains} (inv : Inv σ own chains) (held : Held own p n) :
    p % byteAlignment = 0 ∧ p + usableOf n < 2 ^ 63 := by
  unfold usableOf
  rcases Nat.lt_or_ge largestBlockSize n with big | small
  · obtain ⟨owned, offset⟩ := (heldBig big).mp held
    obtain ⟨_, top, positive⟩ := bigAddresses inv owned
    rw [if_neg (Nat.not_le.mpr big)]
    simp only [pageSize, byteAlignment, taskSize] at *
    omega
  · have owned := (heldSmall small).mp held
    have slot := (inv.small owned).slot
    have inside := slotCases slot
    have short := slot.inside
    have below := (smallBelow inv owned).2
    rw [if_pos small]
    simp only [pageSize, byteAlignment, largeObjVaddrStart] at *
    omega

theorem grantServes (sound : Sound pid h σ own) (mine : k.pid = pid) (request : n < 2 ^ 63)
    (call : xxmalloc k n σ.clear = .ok p σ') (limit : Within σ') : Serves h n p σ' := by
  obtain ⟨own', change⟩ := mallocChange sound mine call limit
  have after := changeSound sound change
  obtain ⟨b, rfl, rfl, added⟩ := @mallocLive h n p σ'.calls
  have owned : b ∈ live (⟨.xxmalloc b.size, .value b.ptr, σ'.calls⟩ :: h) :=
    added ▸ List.mem_cons_self
  have inv := after.agrees.inv
  have held := after.agrees.held b owned
  obtain ⟨aligned, top⟩ := heldAligned inv held
  have enough : b.size ≤ usableOf b.size := heldEnough b.size fun _ => by
    rw [bigPages, wrapSmall (by omega)]
  refine ⟨aligned, ⟨_, usableHeld inv held, enough, top⟩, b, owned, rfl, fun a low high => ?_⟩
  have inside : Inside b.ptr b.size a := ⟨low, by omega⟩
  have page := insideSpans inv held inside
  refine ⟨insideMapped inv held inside, page, fun c there other => ?_⟩
  exact List.inj_on_of_nodup_map after.agrees.distinct there owned
    (heldApart inv (after.agrees.held c there) held other page)

end Nuaf.Capacity
