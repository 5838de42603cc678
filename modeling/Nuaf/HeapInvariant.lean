import Nuaf.SourceSteps
import Nuaf.Library.LinkedStack

/-! Who owns each page of the two regions, and what the globals, the headers and the links
must then hold. Every atomic part of the allocator keeps it; threads and sequential runs
both rest on these lemmas. The owner of a page is a function, so no page has two. -/
namespace Nuaf.Heap
open Layout ByteMemory LinkedStack Machine Source

/- A small block alone on its page, or one page of a large object; `written` counts the
header words xxmalloc_big has stored so far. -/
inductive Use where
  | small (t offset : Nat) (free : Bool)
  | big (first count written : Nat)
  deriving DecidableEq, Repr

abbrev Owner := Nat → Option Use
abbrev Chains := Nat → List Nat

structure SmallPage (σ : State) (g t offset : Nat) : Prop where
  low : mmapMinAddr ≤ pageSize * g
  high : pageSize * g + pageSize ≤ σ.highVaddr
  slot : SlotOffset t offset
  header : load σ.mem (pageSize * g) 4 = some t

structure BigPages (σ : State) (own : Owner) (first count written : Nat) : Prop where
  low : largeObjVaddrStart ≤ pageSize * first
  positive : 0 < count
  high : pageSize * (first + count) ≤ σ.largeObjNextPage
  whole : ∀ g, first ≤ g → g < first + count → own g = some (.big first count written)
  magic : 0 < written → load σ.mem (pageSize * first) 8 = some largeObjStartMagic
  pages : 1 < written → load σ.mem (pageSize * first + 8) 8 = some count

structure Inv (σ : State) (own : Owner) (chains : Chains) : Prop where
  highAligned : σ.highVaddr % pageSize = 0
  highLow : mmapMinAddr ≤ σ.highVaddr
  highLimit : σ.highVaddr ≤ largeObjVaddrStart
  nextAligned : σ.largeObjNextPage % pageSize = 0
  nextLow : largeObjVaddrStart ≤ σ.largeObjNextPage
  nextLimit : σ.largeObjNextPage ≤ taskSize
  mapped : ∀ a, σ.mem a = none ↔ own (a / pageSize) = none
  small : ∀ {g t offset free}, own g = some (.small t offset free) → SmallPage σ g t offset
  big : ∀ {g first count written}, own g = some (.big first count written) →
    first ≤ g ∧ g < first + count ∧ BigPages σ own first count written
  canonical : ∀ t < numBlockTypes, Canonical t (σ.gFlsts t).highCanonicalAddr
  linked : ∀ t < numBlockTypes,
    Linked (fun a => load σ.mem a 8) 0 (σ.gFlsts t).topOfStack (chains t)
  chained : ∀ t < numBlockTypes, ∀ a,
    a ∈ chains t ↔ own (a / pageSize) = some (.small t (a % pageSize) true)

variable {σ σ' : State} {own : Owner} {chains : Chains} {g t offset a : Nat} {free : Bool}

theorem loadFrame {m n : Memory} {width : Nat} (page : a / pageSize = g)
    (inside : a % pageSize + width ≤ pageSize) (same : ∀ x, x / pageSize = g → m x = n x) :
    load m a width = load n a width :=
  loadCongr fun i hi => same _ (by simp only [pageSize] at *; omega)

theorem pageOf (g : Nat) : pageSize * g / pageSize = g := Nat.mul_div_cancel_left g (by decide)

theorem pageSplit (a : Nat) : pageSize * (a / pageSize) + a % pageSize = a := Nat.div_add_mod a pageSize

theorem headerFrame {m n : Memory} {width : Nat} (short : width ≤ pageSize)
    (same : ∀ x, x / pageSize = g → m x = n x) :
    load m (pageSize * g) width = load n (pageSize * g) width :=
  loadFrame (pageOf g) (by simp only [pageSize] at *; omega) same

structure Spares (σ : State) (own : Owner) (m : Memory) : Prop where
  holes : ∀ a, m a = none ↔ σ.mem a = none
  header : ∀ {g t offset free}, own g = some (.small t offset free) →
    load m (pageSize * g) 4 = load σ.mem (pageSize * g) 4
  link : ∀ {g t offset}, own g = some (.small t offset true) →
    load m (pageSize * g + offset) 8 = load σ.mem (pageSize * g + offset) 8
  magic : ∀ {g first count written}, own g = some (.big first count written) →
    load m (pageSize * first) 8 = load σ.mem (pageSize * first) 8
  pages : ∀ {g first count written}, own g = some (.big first count written) →
    load m (pageSize * first + 8) 8 = load σ.mem (pageSize * first + 8) 8

theorem invSpares {m : Memory} (inv : Inv σ own chains) (spares : Spares σ own m) :
    Inv { σ with mem := m } own chains := by
  refine { inv with mapped := ?_, small := ?_, big := ?_, linked := ?_ }
  · exact fun a => (spares.holes a).trans (inv.mapped a)
  · intro g t offset free owned
    have page := inv.small owned
    exact { page with header := (spares.header owned).trans page.header }
  · intro g first count written owned
    obtain ⟨low, high, pages⟩ := inv.big owned
    exact ⟨low, high, { pages with
      magic := fun h => (spares.magic owned).trans (pages.magic h)
      pages := fun h => (spares.pages owned).trans (pages.pages h) }⟩
  · intro t cls
    refine linkedCongr (inv.linked t cls) fun a member => ?_
    have same := spares.link ((inv.chained t cls a).mp member)
    rwa [pageSplit] at same

theorem ownFresh (inv : Inv σ own chains) (low : σ.highVaddr ≤ pageSize * g)
    (high : pageSize * g < largeObjVaddrStart) : own g = none := by
  cases owned : own g with
  | none => rfl
  | some use =>
    cases use with
    | small t offset free =>
      have := (inv.small owned).high
      simp only [pageSize] at *
      omega
    | big first count written =>
      obtain ⟨le, _, pages⟩ := inv.big owned
      have := pages.low
      have := Nat.mul_le_mul_left pageSize le
      omega

theorem ownPast (inv : Inv σ own chains) (past : σ.largeObjNextPage ≤ pageSize * g) :
    own g = none := by
  cases owned : own g with
  | none => rfl
  | some use =>
    have next := inv.nextLow
    have limit := inv.highLimit
    cases use with
    | small t offset free =>
      have := (inv.small owned).high
      simp only [pageSize] at *
      omega
    | big first count written =>
      obtain ⟨_, lt, pages⟩ := inv.big owned
      have := pages.high
      simp only [pageSize] at *
      omega

theorem keepSmall (page : SmallPage σ g t offset) (grows : σ.highVaddr ≤ σ'.highVaddr)
    (same : ∀ x, x / pageSize = g → σ'.mem x = σ.mem x) : SmallPage σ' g t offset :=
  { page with
    high := Nat.le_trans page.high grows
    header := (headerFrame (by decide) same).trans page.header }

theorem keepBig {own' : Owner} {first count written : Nat}
    (pages : BigPages σ own first count written)
    (grows : σ.largeObjNextPage ≤ σ'.largeObjNextPage)
    (same : ∀ x, x / pageSize = first → σ'.mem x = σ.mem x)
    (kept : ∀ q, first ≤ q → q < first + count → own' q = own q) :
    BigPages σ' own' first count written where
  low := pages.low
  positive := pages.positive
  high := Nat.le_trans pages.high grows
  whole q low high := (kept q low high).trans (pages.whole q low high)
  magic h := (headerFrame (by decide) same).trans (pages.magic h)
  pages h := (loadFrame (by simp only [pageSize]; omega) (by simp only [pageSize]; omega) same).trans
    (pages.pages h)

theorem keepLinked {P : Nat → Prop} (inv : Inv σ own chains) (cls : t < numBlockTypes)
    (same : ∀ a, ¬ P (a / pageSize) → σ'.mem a = σ.mem a)
    (spared : ∀ g, P g → ∀ offset, own g ≠ some (.small t offset true)) :
    Linked (fun a => load σ'.mem a 8) 0 (σ.gFlsts t).topOfStack (chains t) := by
  refine linkedCongr (inv.linked t cls) fun a member => ?_
  have owned := (inv.chained t cls a).mp member
  have inside := slotCases (inv.small owned).slot
  have untouched : ¬ P (a / pageSize) := fun h => spared _ h _ owned
  refine loadFrame rfl (by simp only [pageSize] at *; omega) fun x page => same x ?_
  rwa [page]

/- One lemma carries the invariant over every operation: pages outside `P` keep owner and
contents, a large object lies wholly inside or outside, and `P` itself is checked anew. -/
theorem invReplace {own' : Owner} {chains' : Chains} {P : Nat → Prop} (inv : Inv σ own chains)
    (outside : ∀ g, ¬ P g → own' g = own g)
    (same : ∀ a, ¬ P (a / pageSize) → σ'.mem a = σ.mem a)
    (closed : ∀ {g first count written q}, own g = some (.big first count written) →
      first ≤ q → q < first + count → P q → P g)
    (highs : σ.highVaddr ≤ σ'.highVaddr ∧ σ'.highVaddr % pageSize = 0 ∧
      σ'.highVaddr ≤ largeObjVaddrStart)
    (nexts : σ.largeObjNextPage ≤ σ'.largeObjNextPage ∧ σ'.largeObjNextPage % pageSize = 0 ∧
      σ'.largeObjNextPage ≤ taskSize)
    (mapped : ∀ a, P (a / pageSize) → (σ'.mem a = none ↔ own' (a / pageSize) = none))
    (small : ∀ {g t offset free}, P g → own' g = some (.small t offset free) →
      SmallPage σ' g t offset)
    (big : ∀ {g first count written}, P g → own' g = some (.big first count written) →
      first ≤ g ∧ g < first + count ∧ BigPages σ' own' first count written)
    (canonical : ∀ t < numBlockTypes, Canonical t (σ'.gFlsts t).highCanonicalAddr)
    (linked : ∀ t < numBlockTypes,
      Linked (fun a => load σ'.mem a 8) 0 (σ'.gFlsts t).topOfStack (chains' t))
    (chained : ∀ t < numBlockTypes, ∀ a,
      a ∈ chains' t ↔ own' (a / pageSize) = some (.small t (a % pageSize) true)) :
    Inv σ' own' chains' where
  highAligned := highs.2.1
  highLow := Nat.le_trans inv.highLow highs.1
  highLimit := highs.2.2
  nextAligned := nexts.2.1
  nextLow := Nat.le_trans inv.nextLow nexts.1
  nextLimit := nexts.2.2
  mapped a := by
    by_cases touched : P (a / pageSize)
    · exact mapped a touched
    · rw [same a touched, outside _ touched]
      exact inv.mapped a
  small {g t offset free} owned := by
    by_cases touched : P g
    · exact small touched owned
    · rw [outside g touched] at owned
      exact keepSmall (inv.small owned) highs.1 fun x page => same x (by rwa [page])
  big {g first count written} owned := by
    by_cases touched : P g
    · exact big touched owned
    · rw [outside g touched] at owned
      obtain ⟨low, high, pages⟩ := inv.big owned
      have apart : ∀ q, first ≤ q → q < first + count → ¬ P q :=
        fun q lq hq hP => touched (closed owned lq hq hP)
      refine ⟨low, high, keepBig pages nexts.1 (fun x page => same x ?_)
        fun q lq hq => outside q (apart q lq hq)⟩
      rw [page]
      exact apart first (Nat.le_refl _) (by omega)
  canonical := canonical
  linked := linked
  chained := chained

theorem taskRoom (inv : Inv σ own chains) : σ.highVaddr + pageSize ≤ taskSize := by
  have := inv.highLimit
  simp only [pageSize, taskSize, largeObjVaddrStart] at *
  omega

theorem invFresh (mem : ∀ a, σ.mem a = none) (high : σ.highVaddr = mmapMinAddr)
    (next : σ.largeObjNextPage = largeObjVaddrStart)
    (flsts : ∀ t < numBlockTypes, σ.gFlsts t = ⟨0, t * pageSize + byteAlignment⟩) :
    Inv σ (fun _ => none) (fun _ => []) where
  highAligned := by rw [high]; decide
  highLow := Nat.le_of_eq high.symm
  highLimit := by rw [high]; decide
  nextAligned := by rw [next]; decide
  nextLow := Nat.le_of_eq next.symm
  nextLimit := by rw [next]; decide
  mapped a := by simp [mem]
  small owned := by cases owned
  big owned := by cases owned
  canonical t cls := by rw [flsts t cls]; exact canonicalInit cls
  linked t cls := by rw [flsts t cls]; exact .done
  chained t cls a := by simp

end Nuaf.Heap
