import Nuaf.HeapOperations

/-! Large objects and stores of the program: mapping, the two header words xxmalloc_big
writes after it has dropped its lock, release, and bytes written inside a live object. -/
namespace Nuaf.Heap
open Layout ByteMemory LinkedStack Machine Source

variable {σ : State} {own : Owner} {chains : Chains} {t offset a first count written : Nat}

def setRange (first count : Nat) (use : Option Use) (own : Owner) : Owner :=
  fun q => if first ≤ q ∧ q < first + count then use else own q

theorem rangeIn {use : Option Use} {q : Nat} (inside : first ≤ q ∧ q < first + count) :
    setRange first count use own q = use := if_pos inside

theorem rangeOut {use : Option Use} {q : Nat} (outside : ¬ (first ≤ q ∧ q < first + count)) :
    setRange first count use own q = own q := if_neg outside

theorem rangePages (first count a : Nat) :
    (first ≤ a / pageSize ∧ a / pageSize < first + count) ↔
      pageSize * first ≤ a ∧ a < pageSize * first + pageSize * count := by
  simp only [pageSize]
  omega

theorem invRange {σ' : State} {use : Option Use} (inv : Inv σ own chains)
    (small : σ'.highVaddr = σ.highVaddr ∧ σ'.gFlsts = σ.gFlsts)
    (nexts : σ.largeObjNextPage ≤ σ'.largeObjNextPage ∧ σ'.largeObjNextPage % pageSize = 0 ∧
      σ'.largeObjNextPage ≤ taskSize)
    (same : ∀ x, ¬ (first ≤ x / pageSize ∧ x / pageSize < first + count) → σ'.mem x = σ.mem x)
    (before : (∀ q, first ≤ q → q < first + count → own q = none) ∨
      ∃ written, own first = some (.big first count written))
    (mapped : ∀ x, first ≤ x / pageSize → x / pageSize < first + count →
      (σ'.mem x = none ↔ use = none))
    (after : use = none ∨ ∃ written, use = some (.big first count written) ∧
      BigPages σ' (setRange first count use own) first count written) :
    Inv σ' (setRange first count use own) chains := by
  have notSmall : ∀ q, first ≤ q → q < first + count → ∀ s offset free,
      own q ≠ some (.small s offset free) := by
    intro q low high s offset free owned
    rcases before with vacant | ⟨written, owns⟩
    · rw [vacant q low high] at owned; cases owned
    · rw [(inv.big owns).2.2.whole q low high] at owned; cases owned
  refine invReplace (P := fun q => first ≤ q ∧ q < first + count) inv (fun q out => rangeOut out)
    same ?_ ?_ nexts ?_ ?_ ?_ ?_ ?_ ?_
  · intro g first' count' written' q owned low high touched
    have whole := (inv.big owned).2.2.whole q low high
    rcases before with vacant | ⟨written, owns⟩
    · rw [vacant q touched.1 touched.2] at whole; cases whole
    · rw [(inv.big owns).2.2.whole q touched.1 touched.2] at whole
      cases Option.some.inj whole
      exact ⟨(inv.big owned).1, (inv.big owned).2.1⟩
  · rw [small.1]
    exact highStays inv
  · intro x touched
    rw [rangeIn touched]
    exact mapped x touched.1 touched.2
  · intro q s offset free touched owned
    rw [rangeIn touched] at owned
    rcases after with rfl | ⟨written, rfl, _⟩ <;> cases owned
  · intro q first' count' written' touched owned
    rw [rangeIn touched] at owned
    rcases after with rfl | ⟨written, rfl, pages⟩
    · cases owned
    · cases Option.some.inj owned
      exact ⟨touched.1, touched.2, pages⟩
  · intro s hs
    rw [small.2]
    exact inv.canonical s hs
  · intro s hs
    rw [small.2]
    exact keepLinked (P := fun q => first ≤ q ∧ q < first + count) inv hs same
      fun q touched offset => notSmall q touched.1 touched.2 s offset true
  · intro s hs x
    rw [inv.chained s hs x]
    by_cases touched : first ≤ x / pageSize ∧ x / pageSize < first + count
    · rw [rangeIn touched]
      have := notSmall _ touched.1 touched.2 s (x % pageSize) true
      rcases after with rfl | ⟨written, rfl, _⟩ <;> simp [this]
    · rw [rangeOut touched]

theorem bigMappedFields {numPages : Nat} (fits : numPages * pageSize < 2 ^ 64)
    (room : σ.largeObjNextPage + numPages * pageSize ≤ taskSize) :
    (bigMapped numPages σ).mem = mapZero σ.mem σ.largeObjNextPage (pageSize * numPages) ∧
    (bigMapped numPages σ).largeObjNextPage = σ.largeObjNextPage + pageSize * numPages := by
  have length : wrap (numPages * pageSize) = pageSize * numPages := by
    rw [wrapSmall fits, Nat.mul_comm]
  have next : wrap (σ.largeObjNextPage + pageSize * numPages) =
      σ.largeObjNextPage + pageSize * numPages :=
    wrapSmall (by rw [Nat.mul_comm] at room; simp only [taskSize] at room; omega)
  have advance : wrap (pageSize * numPages) = pageSize * numPages :=
    wrapSmall (by rwa [Nat.mul_comm])
  simp only [bigMapped, length, advance, next, and_self]

theorem invBigMap {numPages : Nat} (inv : Inv σ own chains) (positive : 0 < numPages)
    (fits : numPages * pageSize < 2 ^ 64)
    (room : σ.largeObjNextPage + numPages * pageSize ≤ taskSize) :
    Inv (bigMapped numPages σ) (setRange (σ.largeObjNextPage / pageSize) numPages
      (some (.big (σ.largeObjNextPage / pageSize) numPages 0)) own) chains := by
  have base := nextPage inv
  obtain ⟨mem, next⟩ := bigMappedFields fits room
  have range : ∀ x, (σ.largeObjNextPage / pageSize ≤ x / pageSize ∧
      x / pageSize < σ.largeObjNextPage / pageSize + numPages) ↔
      σ.largeObjNextPage ≤ x ∧ x < σ.largeObjNextPage + pageSize * numPages := fun x => by
    rw [rangePages, base]
  refine invRange inv ⟨rfl, rfl⟩ ?_ ?_ (Or.inl ?_) ?_ (Or.inr ⟨0, rfl, ?_⟩)
  · rw [next]
    have := inv.nextAligned
    exact ⟨by omega, by simp only [pageSize] at *; omega, by rwa [Nat.mul_comm]⟩
  · intro x out
    rw [mem]
    exact mapZeroOut (mt (range x).mpr out)
  · intro q low _
    exact ownPast inv (base ▸ Nat.mul_le_mul_left pageSize low)
  · intro x low high
    rw [mem, mapZeroIn ((range x).mp ⟨low, high⟩)]
    simp
  · refine ⟨?_, positive, ?_, fun q low high => rangeIn ⟨low, high⟩, by omega, by omega⟩
    · rw [base]
      exact inv.nextLow
    · rw [next, Nat.mul_add, base]

theorem invHeader {stage address value : Nat} (inv : Inv σ own chains)
    (owns : own first = some (.big first count written))
    (word : address = pageSize * first ∨ address = pageSize * first + 8)
    (magic : 0 < stage →
      load (write σ.mem address 8 value) (pageSize * first) 8 = some largeObjStartMagic)
    (pages : 1 < stage → load (write σ.mem address 8 value) (pageSize * first + 8) 8 = some count) :
    Inv (wrote address 8 value σ) (setRange first count (some (.big first count stage)) own)
      chains := by
  obtain ⟨_, inside, old⟩ := inv.big owns
  have present : ∀ x, first ≤ x / pageSize → x / pageSize < first + count → σ.mem x ≠ none := by
    intro x low high
    rw [Ne, inv.mapped, old.whole _ low high]
    simp
  have target : ∀ x, address ≤ x → x < address + 8 → x / pageSize = first := by
    intro x low high
    simp only [pageSize] at *
    omega
  refine invRange inv ⟨rfl, rfl⟩ (nextStays inv) ?_ (Or.inr ⟨written, owns⟩) ?_
    (Or.inr ⟨stage, rfl, old.low, old.positive, old.high, fun q low high => rangeIn ⟨low, high⟩,
      magic, pages⟩)
  · intro x out
    refine writeOut fun h => out ?_
    rw [target x h.1 h.2]
    exact ⟨Nat.le_refl _, inside⟩
  · intro x low high
    have here := present x low high
    simp only [wrote, write]
    split <;> simp [here]

theorem invMagic (inv : Inv σ own chains) (owns : own first = some (.big first count written)) :
    Inv (wrote (pageSize * first) 8 largeObjStartMagic σ)
      (setRange first count (some (.big first count 1)) own) chains :=
  invHeader inv owns (.inl rfl) (fun _ => loadWritten _ _ _ _) (fun h => absurd h (by decide))

theorem invCount (inv : Inv σ own chains) (owns : own first = some (.big first count 1)) :
    Inv (wrote (pageSize * first + 8) 8 count σ)
      (setRange first count (some (.big first count 2)) own) chains := by
  have old := (inv.big owns).2.2
  have bound : count < 256 ^ 8 := by
    have := old.high
    have := inv.nextLimit
    simp only [pageSize, taskSize] at *
    omega
  refine invHeader inv owns (.inr rfl) (fun _ => ?_) (fun _ => ?_)
  · refine (loadCongr fun i hi => writeOut ?_).trans (old.magic (by decide))
    omega
  · rw [loadWritten, Nat.mod_eq_of_lt bound]

theorem invUnmap {calls : List Call} {mappings : Nat} (inv : Inv σ own chains)
    (owns : own first = some (.big first count written)) :
    Inv { σ with
        mem := unmap σ.mem (pageSize * first) (pageSize * count)
        numMappings := mappings
        calls := calls }
      (setRange first count none own) chains := by
  refine invRange inv ⟨rfl, rfl⟩ (nextStays inv) ?_ (Or.inr ⟨written, owns⟩) ?_ (Or.inl rfl)
  · intro x out
    exact unmapOut (mt (rangePages first count x).mpr out)
  · intro x low high
    simp [unmapIn ((rangePages first count x).mp ⟨low, high⟩)]

def Writable (own : Owner) (a : Nat) : Prop :=
  (∃ t offset, own (a / pageSize) = some (.small t offset false) ∧ offset ≤ a % pageSize) ∨
  ∃ first count written, own (a / pageSize) = some (.big first count written) ∧
    pageSize * first + 16 ≤ a

theorem invStore {value : Nat} (inv : Inv σ own chains) (inside : Writable own a) :
    Inv (wrote a 1 value σ) own chains := by
  have owned : own (a / pageSize) ≠ none := by
    rcases inside with ⟨t, offset, h, _⟩ | ⟨first, count, written, h, _⟩ <;> simp [h]
  have here : Mapped σ.mem a 1 := fun i hi => by
    rw [Ne, inv.mapped, show a + i = a by omega]
    exact owned
  have spared : ∀ x width, ¬ (x ≤ a ∧ a < x + width) →
      load (write σ.mem a 1 value) x width = load σ.mem x width := fun x width out =>
    loadCongr fun i hi => writeOut (by omega)
  refine invSpares inv ⟨writeMapped here value, ?_, ?_, ?_, ?_⟩
  · intro g t offset free small
    refine spared _ _ fun h => ?_
    have page : a / pageSize = g := by simp only [pageSize] at *; omega
    rcases inside with ⟨t', offset', live, low⟩ | ⟨first, count, written, big, _⟩
    · have := slotCases (inv.small live).slot
      simp only [pageSize] at *
      omega
    · rw [page, small] at big; cases big
  · intro g t offset small
    refine spared _ _ fun h => ?_
    have := slotCases (inv.small small).slot
    have page : a / pageSize = g := by simp only [pageSize] at *; omega
    rcases inside with ⟨t', offset', live, low⟩ | ⟨first, count, written, big, _⟩
    · rw [page, small] at live; cases live
    · rw [page, small] at big; cases big
  all_goals
    intro g first count written owns
    refine spared _ _ fun h => ?_
    have page : a / pageSize = first := by simp only [pageSize] at *; omega
    have pages := (inv.big owns).2.2
    have head := pages.whole first (Nat.le_refl _) (by have := pages.positive; omega)
    rcases inside with ⟨t', offset', live, low⟩ | ⟨first', count', written', big, low⟩
    · rw [page, head] at live; cases live
    · rw [page, head] at big
      cases Option.some.inj big
      omega

end Nuaf.Heap
