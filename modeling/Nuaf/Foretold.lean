import Nuaf.BackingFile
import Nuaf.ByteArrays

/-! The allocator on paper: no memory, no page table and no kernel, only the operations asked of
it. Every answer of a sequential run, each fault and each byte read among them, is foretold. -/
namespace Nuaf.Foretold
open Layout ByteMemory LinkedStack Machine Source Heap Nuaf.Sequential ByteArrays BackingFile

/- `carved` counts the objects carved of each class, `pages` and `largePages` the pages used up in
the two regions; `bytes` is what every block holds, by the address it starts at. -/
structure Plan where
  ledger : Ledger
  carved : Nat → Nat
  pages : Nat
  largePages : Nat
  bytes : Nat → Nat → UInt8

def Plan.nextPage (P : Plan) : Nat := mmapMinAddr + pageSize * P.pages

def Plan.nextLarge (P : Plan) : Nat := largeObjVaddrStart + pageSize * P.largePages

def Plan.top (P : Plan) (t : Nat) : Nat :=
  match P.ledger.free t with
  | [] => 0
  | b :: _ => b.ptr

def Plan.place (P : Plan) (size : Nat) : Nat :=
  let t := blockType size
  if size ≤ largestBlockSize then
    match P.ledger.free t with
    | [] => P.nextPage + canonicalAt t (P.carved t) % pageSize
    | b :: _ => b.ptr
  else P.nextLarge + 16

def Plan.malloc (P : Plan) (size : Nat) : Plan :=
  let t := blockType size
  let ptr := P.place size
  let served := { P with ledger := P.ledger.malloc size ptr }
  if size ≤ largestBlockSize then
    match P.ledger.free t with
    | [] => { served with
        carved := Function.update P.carved t (P.carved t + 1)
        pages := P.pages + 1
        bytes := Function.update P.bytes ptr fun _ => 0 }
    | _ :: _ => served
  else { served with
    largePages := P.largePages + bigPages size
    bytes := Function.update P.bytes ptr fun _ => 0 }

def Plan.free (P : Plan) (b : Block) : Plan :=
  let released := { P with ledger := P.ledger.release b P.nextPage }
  if b.Small then { released with
    pages := P.pages + 1
    bytes := Function.update P.bytes (P.nextPage + b.ptr % pageSize) fun i =>
      if i < 8 then byteOf (P.top b.cls) i else P.bytes b.ptr i }
  else released

def Plan.after (P : Plan) : Op → Plan
  | .xxmalloc size => P.malloc size
  | .xxfree ptr =>
    match P.ledger.find ptr with
    | some b => P.free b
    | none => P
  | .store ptr index byte =>
    match P.ledger.find (ptr + index) with
    | some b => { P with
        bytes := Function.update P.bytes b.ptr
          (Function.update (P.bytes b.ptr) (ptr + index - b.ptr) byte) }
    | none => P
  | _ => P

def Plan.reply (P : Plan) : Op → Reply
  | .xxmalloc size => .value (P.place size)
  | .xxfree ptr =>
    match P.ledger.find ptr with
    | some _ => .value 0
    | none => .fault (pageSize * (ptr / pageSize))
  | .usableSize ptr =>
    match P.ledger.find ptr with
    | some b => .value (usableOf b.size)
    | none => .fault (pageSize * (ptr / pageSize))
  | .load ptr index =>
    match P.ledger.find (ptr + index) with
    | some b => .value (P.bytes b.ptr (ptr + index - b.ptr)).toNat
    | none => .fault (ptr + index)
  | .store ptr index _ =>
    match P.ledger.find (ptr + index) with
    | some _ => .value 0
    | none => .fault (ptr + index)

def foretold : List Op → Plan
  | [] => ⟨⟨[], fun _ => [], 0⟩, fun _ => 0, 0, 0, fun _ _ => 0⟩
  | op :: ops => (foretold ops).after op

def ops (h : History) : List Op := h.map Event.op

def Piece (h : History) (p n : Nat) : Prop :=
  (∃ b ∈ live h, b.ptr = p ∧ usableOf b.size = n) ∨
    ∃ t < numBlockTypes, ∃ b ∈ (ledger h).free t, b.ptr = p ∧ blockSize t = n

structure Mirrors (P : Plan) (h : History) (σ : State) : Prop where
  ledger : ledger h = P.ledger
  high : σ.highVaddr = P.nextPage
  large : σ.largeObjNextPage = P.nextLarge
  canonical : ∀ t < numBlockTypes, (σ.gFlsts t).highCanonicalAddr = canonicalAt t (P.carved t)
  bytes : ∀ p n, Piece h p n → ∀ i < n, σ.mem (p + i) = some (P.bytes p i)

variable {pid size p n q i : Nat} {h : History} {σ σ' : State} {own own' : Owner} {k : Kernel}
  {e : Event} {op : Op} {P : Plan} {b : Block} {calls : List Call}

theorem blockPositive (t : Nat) : 0 < blockSize t := Nat.lt_of_lt_of_le (by decide) (blockSizePositive t)

theorem freedOwned (sound : Sound pid h σ own) {t : Nat} (cls : t < numBlockTypes)
    (there : b ∈ (ledger h).free t) (inside : i < blockSize t) :
    own ((b.ptr + i) / pageSize) = some (.small t (b.ptr % pageSize) true) := by
  have inv := sound.agrees.inv
  have owned := (inv.chained t cls b.ptr).mp (List.mem_map_of_mem there)
  have slot := (inv.small owned).slot.inside
  rw [show (b.ptr + i) / pageSize = b.ptr / pageSize by simp only [pageSize] at *; omega]
  exact owned

theorem pieceOwned (sound : Sound pid h σ own) (piece : Piece h p n) :
    0 < n ∧ ∀ i < n, own ((p + i) / pageSize) ≠ none := by
  rcases piece with ⟨b, owned, rfl, rfl⟩ | ⟨t, cls, b, there, rfl, rfl⟩
  · refine ⟨usablePositive b.size, fun i inside => ?_⟩
    obtain ⟨u, owns, _⟩ := (coversSpans sound owned (coversIndex inside)).2
    simp [owns]
  · exact ⟨blockPositive t, fun i inside => by simp [freedOwned sound cls there inside]⟩

theorem pieceFresh (sound : Sound pid h σ own) (piece : Piece h p n)
    (fresh : own (q / pageSize) = none) : p ≠ q := by
  obtain ⟨positive, owned⟩ := pieceOwned sound piece
  rintro rfl
  exact owned 0 positive fresh

theorem pieceMake (made : ledger (e :: h) = (ledger h).make size p) (piece : Piece (e :: h) q n) :
    (q = p ∧ n = usableOf size) ∨ Piece h q n := by
  unfold Piece live at piece
  rw [made] at piece
  rcases piece with ⟨b, owned, rfl, rfl⟩ | freed
  · rcases List.mem_cons.mp owned with rfl | old
    · exact .inl ⟨rfl, rfl⟩
    · exact .inr (.inl ⟨b, old, rfl, rfl⟩)
  · exact .inr (.inr freed)

theorem piecePop {rest : List Block} (small : size ≤ largestBlockSize)
    (full : (ledger h).free (blockType size) = b :: rest)
    (piece : Piece (⟨.xxmalloc size, .value b.ptr, calls⟩ :: h) q n) : Piece h q n := by
  have cls := blockTypeLt small
  unfold Piece live at piece
  rw [popsLedger small full] at piece
  rcases piece with ⟨c, owned, rfl, rfl⟩ | ⟨t, cls', c, there, rfl, rfl⟩
  · rcases List.mem_cons.mp owned with rfl | old
    · exact .inr ⟨_, cls, b, full ▸ List.mem_cons_self, rfl, (if_pos small).symm⟩
    · exact .inl ⟨c, old, rfl, rfl⟩
  · refine .inr ⟨t, cls', c, ?_, rfl, rfl⟩
    by_cases same : t = blockType size
    · subst same
      rw [full]
      exact List.mem_cons_of_mem _ (by simpa using there)
    · simpa [same] using there

section
variable (sound : Sound pid h σ own) (owned : b ∈ live h)
include sound owned

theorem pieceApart (piece : Piece h q n) (inside : i < n) (other : q ≠ b.ptr) :
    ¬ b.Page ((q + i) / pageSize) := by
  intro page
  rcases piece with ⟨c, there, rfl, rfl⟩ | ⟨t, cls, c, there, rfl, rfl⟩
  · have inv := sound.agrees.inv
    exact other (heldApart inv (sound.agrees.held c there) (sound.agrees.held b owned)
      (coversSpans sound there (coversIndex inside)).1 page)
  · obtain ⟨u, owns, busy⟩ := (heldSpans sound.agrees.inv (sound.agrees.held b owned) page).2
    rw [freedOwned sound cls there inside] at owns
    cases owns
    exact busy _ _ rfl

theorem freedApart {t : Nat} {c : Block} (cls : t < numBlockTypes) (there : c ∈ (ledger h).free t) :
    c.ptr ≠ b.ptr := by
  intro same
  obtain ⟨u, owns, busy⟩ := heldBusy sound.agrees.inv (sound.agrees.held b owned)
  have freed := freedOwned sound cls there (blockPositive t)
  rw [Nat.add_zero, same, owns] at freed
  cases freed
  exact busy _ _ rfl

theorem pieceFree {ptr v : Nat} (found : (ledger h).find ptr = some b)
    (piece : Piece (⟨.xxfree ptr, .value v, calls⟩ :: h) q n) :
    (b.Small ∧ q = movedTo calls + b.ptr % pageSize ∧ n = blockSize b.cls) ∨
      (Piece h q n ∧ q ≠ b.ptr) := by
  rcases piece with ⟨c, there, rfl, rfl⟩ | ⟨t, cls, c, there, rfl, rfl⟩
  · rw [Sequential.freeLive found] at there
    obtain ⟨old, other⟩ := withoutMember.mp there
    exact .inr ⟨.inl ⟨c, old, rfl, rfl⟩, other⟩
  · have kept : c ∈ (ledger h).free t → Piece h c.ptr (blockSize t) ∧ c.ptr ≠ b.ptr := fun old =>
      ⟨.inr ⟨t, cls, c, old, rfl, rfl⟩, freedApart sound owned cls old⟩
    by_cases small : b.Small
    · rw [movesLedger found small] at there
      by_cases same : t = b.cls
      · subst same
        rcases List.mem_cons.mp (by simpa using there) with rfl | old
        · exact .inl ⟨small, rfl, rfl⟩
        · exact .inr (kept old)
      · exact .inr (kept (by simpa [same] using there))
    · rw [unmapsLedger found small] at there
      exact .inr (kept there)

end

theorem bytesKept {P' : Plan} (mirrors : Mirrors P h σ) (bytes : ∀ p n, Piece (e :: h) p n → (∀ i < n, σ'.mem (p + i) =
      some (P'.bytes p i)) ∨ Piece h p n ∧ P'.bytes p = P.bytes p ∧
        ∀ i < n, σ'.mem (p + i) = σ.mem (p + i)) :
    ∀ p n, Piece (e :: h) p n → ∀ i < n, σ'.mem (p + i) = some (P'.bytes p i) := by
  intro p n piece i inside
  rcases bytes p n piece with here | ⟨old, same, kept⟩
  · exact here i inside
  · rw [kept i inside, same]
    exact mirrors.bytes p n old i inside

section
variable (sound : Sound pid h σ own) (mirrors : Mirrors P h σ)
include sound mirrors

theorem topMirrors {t : Nat} (cls : t < numBlockTypes) : (σ.gFlsts t).topOfStack = P.top t := by
  have linked := sound.agrees.inv.linked t cls
  unfold Plan.top
  rw [← mirrors.ledger]
  cases list : (ledger h).free t with
  | nil =>
    rw [chainsOf, list] at linked
    exact linkedEmpty linked
  | cons b rest =>
    rw [chainsOf, list] at linked
    exact (linkedHead linked).1

theorem carveMirrors (small : size ≤ largestBlockSize)
    (empty : (ledger h).free (blockType size) = [])
    (room : σ.highVaddr + pageSize ≤ largeObjVaddrStart) :
    σ.highVaddr + (σ.gFlsts (blockType size)).highCanonicalAddr % pageSize = P.place size ∧
    Mirrors (P.malloc size) (⟨.xxmalloc size, .value
        (σ.highVaddr + (σ.gFlsts (blockType size)).highCanonicalAddr % pageSize), calls⟩ :: h)
      (carved (blockType size) (σ.gFlsts (blockType size)) σ) := by
  have inv := sound.agrees.inv
  have cls := blockTypeLt small
  have list := mirrors.ledger ▸ empty
  have base := highPage inv
  have slot := (inv.canonical _ cls).slot
  have inside := slotCases slot
  have place : σ.highVaddr + (σ.gFlsts (blockType size)).highCanonicalAddr % pageSize = P.place size := by
    rw [mirrors.high, mirrors.canonical _ cls]
    simp only [Plan.place, if_pos small, list]
  have after : P.malloc size = { P with
      ledger := P.ledger.malloc size (P.place size)
      carved := Function.update P.carved (blockType size) (P.carved (blockType size) + 1)
      pages := P.pages + 1
      bytes := Function.update P.bytes (P.place size) fun _ => 0 } := by
    simp only [Plan.malloc, if_pos small, list]
  have fresh : own (P.place size / pageSize) = none := by
    rw [← place, show (_ + _) / pageSize = σ.highVaddr / pageSize by simp only [pageSize] at *; omega]
    exact highUnowned inv room
  refine ⟨place, ?_⟩
  rw [after, place]
  refine ⟨?_, ?_, mirrors.large, fun t cls' => ?_, bytesKept mirrors fun q n piece => ?_⟩
  · rw [carvesLedger small empty, mirrors.ledger]
    simp only [Ledger.malloc, if_pos small, list]
  · have next := mirrors.high
    simp only [carved, highAdvance room, Plan.nextPage, pageSize] at *
    omega
  · by_cases same : t = blockType size
    · subst same
      simp only [carved, Function.update_self, mirrors.canonical _ cls, canonicalStep cls]
    · simp only [carved, Function.update_of_ne same, mirrors.canonical t cls']
  · rcases pieceMake (carvesLedger small empty) piece with ⟨rfl, rfl⟩ | old
    · refine .inl fun i low => ?_
      have room := slot.inside
      rw [usableOf, if_pos small] at low
      simp only [carved, Function.update_self]
      rw [← place, writeOut (by simp only [pageSize] at *; omega),
        mapZeroIn (by simp only [pageSize] at *; omega)]
    · obtain ⟨_, owned⟩ := pieceOwned sound old
      refine .inr ⟨old, Function.update_of_ne (pieceFresh sound old fresh) _ _, fun i low => ?_⟩
      have other : (q + i) / pageSize ≠ σ.highVaddr / pageSize := fun page =>
        owned i low (page ▸ highUnowned inv room)
      refine (writeOut ?_).trans (mapZeroOut ?_) <;> simp only [pageSize] at * <;> omega

omit sound in
theorem popMirrors {rest : List Block} {link : Nat} (small : size ≤ largestBlockSize)
    (full : (ledger h).free (blockType size) = b :: rest) : b.ptr = P.place size ∧
    Mirrors (P.malloc size) (⟨.xxmalloc size, .value b.ptr, calls⟩ :: h)
      (popped (blockType size) link σ) := by
  have list := mirrors.ledger ▸ full
  have after : P.malloc size = { P with ledger := P.ledger.malloc size b.ptr } := by
    simp only [Plan.malloc, Plan.place, if_pos small, list]
  refine ⟨by simp only [Plan.place, if_pos small, list], ?_⟩
  rw [after]
  refine ⟨?_, mirrors.high, mirrors.large, fun t cls => ?_, fun p n piece => ?_⟩
  · rw [popsLedger small full, live, mirrors.ledger]
    simp only [Ledger.malloc, if_pos small, list]
  · by_cases same : t = blockType size
    · subst same
      simp only [popped, Function.update_self, mirrors.canonical _ cls]
    · simp only [popped, Function.update_of_ne same, mirrors.canonical t cls]
  · exact mirrors.bytes p n (piecePop small full piece)

theorem mapMirrors (big : largestBlockSize < size) (fits : bigPages size * pageSize < 2 ^ 64)
    (room : σ.largeObjNextPage + bigPages size * pageSize ≤ taskSize) :
    σ.largeObjNextPage + 16 = P.place size ∧
    Mirrors (P.malloc size) (⟨.xxmalloc size, .value (σ.largeObjNextPage + 16), calls⟩ :: h)
      (bigDone (bigPages size) σ) := by
  have inv := sound.agrees.inv
  have base := nextPage inv
  have positive := bigPagesPositive size
  have large := Nat.not_le.mpr big
  obtain ⟨mem, next⟩ := bigMappedFields fits room
  have place : σ.largeObjNextPage + 16 = P.place size := by
    simp only [Plan.place, if_neg large, mirrors.large]
  have after : P.malloc size = { P with
      ledger := P.ledger.malloc size (P.place size)
      largePages := P.largePages + bigPages size
      bytes := Function.update P.bytes (P.place size) fun _ => 0 } := by
    simp only [Plan.malloc, if_neg large]
  have past : ∀ {a}, own (a / pageSize) ≠ none → a < σ.largeObjNextPage := fun {a} owned => by
    by_contra later
    exact owned (ownPast inv (by simp only [pageSize] at *; omega))
  refine ⟨place, ?_⟩
  rw [after, place]
  refine ⟨?_, mirrors.high, ?_, mirrors.canonical, bytesKept mirrors fun q n piece => ?_⟩
  · rw [mapsLedger big, mirrors.ledger]
    simp only [Ledger.malloc, if_neg large]
  · have here := mirrors.large
    rw [bigDone, wrote, wrote, next]
    simp only [Plan.nextLarge] at *
    rw [here, Nat.mul_add, Nat.add_assoc]
  · rcases pieceMake (mapsLedger big) piece with ⟨rfl, rfl⟩ | old
    · refine .inl fun i low => ?_
      rw [usableOf, if_neg large] at low
      simp only [bigDone, wrote, Function.update_self]
      rw [← place, writeOut (by omega), writeOut (by omega), mem,
        mapZeroIn (by simp only [pageSize] at *; omega)]
    · obtain ⟨real, owned⟩ := pieceOwned sound old
      have below := past (owned 0 real)
      refine .inr ⟨old, Function.update_of_ne (by omega) _ _, fun i low => ?_⟩
      have below := past (owned i low)
      refine (writeOut (by omega)).trans ((writeOut (by omega)).trans ?_)
      rw [mem]
      exact mapZeroOut (by omega)

theorem moveMirrors {ptr v length : Nat} {earlier : List Call} (owned : b ∈ live h)
    (found : (ledger h).find ptr = some b) (small : b.Small)
    (room : σ.highVaddr + pageSize ≤ largeObjVaddrStart) :
    Mirrors (P.free b) (⟨.xxfree ptr, .value v,
        .mremap (roundDown b.ptr pageSize) length pageSize σ.highVaddr :: earlier⟩ :: h)
      (recycled (blockType b.size) b.ptr
        (.mremap (roundDown b.ptr pageSize) length pageSize σ.highVaddr :: earlier) σ) := by
  have inv := sound.agrees.inv
  have held := (heldSmall small).mp (sound.agrees.held b owned)
  have cls := sound.agrees.sorted b owned small
  have base := highPage inv
  have target := targetPage inv b.ptr
  have slot := (inv.small held).slot
  have inside := slotCases slot
  have after : P.free b = { P with
      ledger := P.ledger.release b P.nextPage
      pages := P.pages + 1
      bytes := Function.update P.bytes (P.nextPage + b.ptr % pageSize) fun i =>
        if i < 8 then byteOf (P.top b.cls) i else P.bytes b.ptr i } := by
    simp only [Plan.free, if_pos small]
  have fresh : own ((σ.highVaddr + b.ptr % pageSize) / pageSize) = none :=
    target.1 ▸ highUnowned inv room
  rw [after]
  refine ⟨?_, ?_, mirrors.large, fun t cls' => ?_, bytesKept mirrors fun q n piece => ?_⟩
  · rw [ledgerFree found, movedTo, mirrors.high, mirrors.ledger]
  · have next := mirrors.high
    simp only [recycled, pushed, relocated, highAdvance room, Plan.nextPage, pageSize] at *
    omega
  · by_cases same : t = blockType b.size
    · subst same
      simp only [recycled, pushed, relocated, Function.update_self, mirrors.canonical _ cls']
    · simp only [recycled, pushed, relocated, Function.update_of_ne same, mirrors.canonical t cls']
  · rcases pieceFree sound owned found piece with ⟨_, rfl, rfl⟩ | ⟨old, other⟩
    · refine .inl fun i low => ?_
      rw [cls] at low ⊢
      have room := slot.inside
      simp only [movedTo, ← mirrors.high, Function.update_self]
      by_cases link : i < 8
      · rw [if_pos link, recycledMem, writeIn (by omega), Nat.add_sub_cancel_left,
          ← topMirrors sound mirrors slot.cls]
      · have there := mirrors.bytes b.ptr _ (.inl ⟨b, owned, rfl, rfl⟩) i (by
          rwa [usableOf, if_pos (show b.size ≤ largestBlockSize from small)])
        have split := pageSplit b.ptr
        rw [if_neg link, Nat.add_assoc, recycledTarget (by omega) (by omega), ← there]
        congr 1
        omega
    · have apart := fun i (low : i < n) => pieceApart sound owned old low other
      obtain ⟨_, mine⟩ := pieceOwned sound old
      refine .inr ⟨old, Function.update_of_ne ?_ _ _, fun i low => ?_⟩
      · rw [← mirrors.high]
        exact pieceFresh sound old fresh
      · refine recycledOther inv (by simp only [pageSize] at *; omega) (fun page => ?_) fun page => ?_
        · exact apart i low ((spansSmall small).mpr page)
        · exact mine i low (page ▸ highUnowned inv room)

theorem unmapMirrors {ptr v mappings : Nat} {calls : List Call} (owned : b ∈ live h)
    (found : (ledger h).find ptr = some b) (big : ¬ b.Small) :
    Mirrors (P.free b) (⟨.xxfree ptr, .value v, calls⟩ :: h) { σ with
      mem := unmap σ.mem (pageSize * (b.ptr / pageSize)) (pageSize * bigPages b.size)
      numMappings := mappings
      calls := calls } := by
  have after : P.free b = { P with ledger := P.ledger.release b P.nextPage } := by
    simp only [Plan.free, if_neg big]
  rw [after]
  refine ⟨?_, mirrors.high, mirrors.large, mirrors.canonical, bytesKept mirrors fun q n piece => ?_⟩
  · rw [ledgerFree found, mirrors.ledger]
    simp only [Ledger.release, if_neg big]
  · rcases pieceFree sound owned found piece with ⟨small, _⟩ | ⟨old, other⟩
    · exact absurd small big
    · refine .inr ⟨old, rfl, fun i low => unmapOut fun range => ?_⟩
      have page := (spansBig (Nat.not_le.mp big)).mpr ((rangePages _ _ _).mpr range)
      exact pieceApart sound owned old low other page

theorem storeMirrors {index v : Nat} {byte : UInt8} (owned : b ∈ live h)
    (inside : index < usableOf b.size) :
    Mirrors (P.after (.store b.ptr index byte)) (⟨.store b.ptr index byte, .value v, []⟩ :: h)
      (wrote (b.ptr + index) 1 byte.toNat σ) := by
  have found := mirrors.ledger ▸ findCovers sound.agrees owned (coversIndex inside)
  have after : P.after (.store b.ptr index byte) = { P with
      bytes := Function.update P.bytes b.ptr (Function.update (P.bytes b.ptr) index byte) } := by
    simp only [Plan.after, found, Nat.add_sub_cancel_left]
  rw [after]
  refine ⟨mirrors.ledger, mirrors.high, mirrors.large, mirrors.canonical, fun q n piece i low => ?_⟩
  have piece : Piece h q n := piece
  by_cases same : q = b.ptr
  · subst same
    dsimp only
    rw [Function.update_self]
    by_cases here : i = index
    · subst here
      rw [Function.update_self]
      refine (writeIn (by omega)).trans ?_
      simp [byteOf]
    · rw [Function.update_of_ne here]
      exact (writeOut (by omega)).trans (mirrors.bytes _ n piece i low)
  · dsimp only
    rw [Function.update_of_ne same]
    refine (writeOut fun at' => ?_).trans (mirrors.bytes q n piece i low)
    have covers := (coversSpans sound owned (coversIndex inside)).1
    rw [show b.ptr + index = q + i by omega] at covers
    exact pieceApart sound owned piece low same covers

end

theorem releaseOf {ptr v : Nat} (change : Change h σ own ⟨.xxfree ptr, .value v, calls⟩ σ' own')
    (found : (ledger h).find ptr = some b) :
    ∃ chains', Release σ.clear own (chainsOf (ledger h)) b.ptr b.size σ' own' chains' := by
  cases change with
  | free owned there release =>
    cases found.symm.trans there
    exact ⟨_, release⟩
  | idle idle => cases idle

theorem mirrorsClear (mirrors : Mirrors P h σ) : Mirrors P h σ.clear :=
  ⟨mirrors.ledger, mirrors.high, mirrors.large, mirrors.canonical, mirrors.bytes⟩

theorem mirrorsInit (begun : Started pid σ) : Mirrors (foretold []) [] σ := by
  obtain ⟨fd, size, calls, rfl⟩ := startedState begun
  refine ⟨rfl, rfl, rfl, fun t cls => ?_, fun p n piece => ?_⟩
  · exact (congrArg Freelist.highCanonicalAddr (if_pos cls)).trans (canonicalStart t).symm
  · rcases piece with ⟨b, owned, _⟩ | ⟨t, _, b, there, _⟩
    · cases owned
    · cases there

theorem mirrorsIdle {reply : Reply} (mirrors : Mirrors P h σ) (idle : Idle op reply) :
    Mirrors P (⟨op, reply, []⟩ :: h) σ.clear := by
  have same : ledger (⟨op, reply, []⟩ :: h) = ledger h := idleLedger idle
  refine ⟨same.trans mirrors.ledger, mirrors.high, mirrors.large, mirrors.canonical, fun p n piece => ?_⟩
  unfold Piece live at piece
  rw [same] at piece
  exact mirrors.bytes p n piece

theorem goneNone (sound : Sound pid h σ own) (gone : Gone h (p / pageSize)) :
    (ledger h).find p = none := by
  refine List.find?_eq_none.mpr fun b owned covers => ?_
  obtain ⟨u, owns, _⟩ := (coversSpans sound owned (of_decide_eq_true covers)).2
  rw [(sound.gone _ gone).1] at owns
  cases owns

section
variable (sound : Sound pid h σ own) (mirrors : Mirrors P h σ)
include sound mirrors

theorem mallocForetold (mine : k.pid = pid) (call : exec k (.xxmalloc size) σ.clear = .ok p σ')
    (limit : Within σ') : p = P.place size ∧
      Mirrors (P.malloc size) (⟨.xxmalloc size, .value p, σ'.calls⟩ :: h) σ' := by
  have clear := soundClear sound
  have clean := mirrorsClear mirrors
  obtain ⟨own', _, grant⟩ := xxmallocGrant clear.agrees.inv (clear.par.trans mine.symm) call limit
  cases grant with
  | carve small empty room => exact carveMirrors clear clean small (List.map_eq_nil_iff.mp empty) room
  | pop small full next =>
    obtain ⟨b, rest, list, rfl, rfl⟩ := List.map_eq_cons_iff.mp full
    exact popMirrors clean small list
  | large big fits room => exact mapMirrors clear clean big fits room

theorem freeForetold {ptr v : Nat} (mine : k.pid = pid) (owned : b ∈ live h) (covers : b.Covers ptr)
    (clean : Clean σ b.ptr ptr) (harmless : isLarge ptr = false → Harmless k σ ptr)
    (call : exec k (.xxfree ptr) σ.clear = .ok v σ') (limit : Within σ') :
    .value v = P.reply (.xxfree ptr) ∧
      Mirrors (P.after (.xxfree ptr)) (⟨.xxfree ptr, .value v, σ'.calls⟩ :: h) σ' := by
  have clear := soundClear sound
  have found := findCovers sound.agrees owned covers
  obtain ⟨_, τ, freed, last⟩ := bindInv call
  cases last
  obtain ⟨own', change⟩ := freeChange (v := 0) sound mine owned covers clean harmless freed limit
  refine ⟨by simp only [Plan.reply, ← mirrors.ledger, found], ?_⟩
  simp only [Plan.after, ← mirrors.ledger, found]
  obtain ⟨_, release⟩ := releaseOf change found
  cases release with
  | small small room tries => exact moveMirrors clear (mirrorsClear mirrors) owned found small room
  | large big => exact unmapMirrors clear (mirrorsClear mirrors) owned found (Nat.not_le.mpr big)

theorem danglingForetold (mine : k.pid = pid) (dangling : Dangling h op) : ∃ addr,
    exec k op σ.clear = .error (.segv addr) σ.clear ∧ P.reply op = .fault addr ∧ P.after op = P := by
  have clear := soundClear sound
  have holes : ∀ {ptr}, Gone h (ptr / pageSize) → P.ledger.find ptr = none ∧ ptr ≠ 0 ∧
      ∀ a, a / pageSize = ptr / pageSize → σ.clear.mem a = none := fun gone =>
    ⟨mirrors.ledger ▸ goneNone sound gone, retiredAddress (clear.gone _ gone) rfl,
      fun a page => retiredHole clear.agrees.inv (clear.gone _ gone) page⟩
  cases dangling with
  | xxfree gone =>
    obtain ⟨none, some, hole⟩ := holes gone
    exact ⟨_, bindError (xxfreeFault (clear.par.trans mine.symm) some hole),
      by simp only [Plan.reply, none], by simp only [Plan.after, none]⟩
  | usableSize gone =>
    obtain ⟨none, some, hole⟩ := holes gone
    exact ⟨_, usableFault some hole, by simp only [Plan.reply, none], rfl⟩
  | load gone =>
    obtain ⟨none, _, hole⟩ := holes gone
    exact ⟨_, readWordFault (loadUnmapped (by decide) (hole _ rfl)),
      by simp only [Plan.reply, none], rfl⟩
  | @store ptr index _ gone =>
    obtain ⟨none, _, hole⟩ := holes gone
    exact ⟨ptr + index, bindError (writeWordFault (fun mapped => mapped 0 (by decide) (hole _ rfl)) _),
      by simp only [Plan.reply, none], by simp only [Plan.after, none]⟩

theorem stepForetold (taken : Step (calmly pid) Within h σ e σ') :
    e.reply = P.reply e.op ∧ Mirrors (P.after e.op) (e :: h) σ' := by
  cases taken with
  | @returned k _ _ _ allowed call limit =>
    obtain ⟨⟨mine, calm⟩, may⟩ := allowed
    rcases allowedCases sound may with ⟨size, rfl⟩ | interior | ⟨b, owned, index, inside, access⟩ |
      dangling
    · obtain ⟨place, after⟩ := mallocForetold sound mirrors mine call limit
      exact ⟨congrArg Reply.value place, after⟩
    · cases interior with
      | xxfree owned covers clean =>
        exact freeForetold sound mirrors mine owned covers clean (calm _ rfl) call limit
      | usableSize owned covers clean =>
        have found := mirrors.ledger ▸ findCovers sound.agrees owned covers
        rw [usableServes sound owned covers clean] at call
        cases call
        exact ⟨by simp only [Plan.reply, found], mirrorsIdle mirrors .usableSize⟩
    · have found := mirrors.ledger ▸ findCovers sound.agrees owned (coversIndex inside)
      have here := mirrors.bytes b.ptr _ (.inl ⟨b, owned, rfl, rfl⟩) index inside
      rcases access with rfl | ⟨byte, rfl⟩
      · have read : exec k (.load b.ptr index) σ.clear = _ := readWordOk (σ := σ.clear)
          (show load σ.mem (b.ptr + index) 1 = some (P.bytes b.ptr index).toNat by simp [load, here])
        rw [read] at call
        cases call
        refine ⟨?_, mirrorsIdle mirrors .load⟩
        simp only [Plan.reply, found, Nat.add_sub_cancel_left]
      · rw [storeServes sound owned inside byte] at call
        cases call
        exact ⟨by simp only [Plan.reply, found],
          storeMirrors (soundClear sound) (mirrorsClear mirrors) owned inside⟩
    · obtain ⟨addr, fault, _⟩ := danglingForetold sound mirrors mine dangling
      rw [fault] at call
      cases call
  | faulted allowed call limit =>
    obtain ⟨⟨mine, calm⟩, may⟩ := allowed
    rcases allowedCases sound may with ⟨size, rfl⟩ | interior | ⟨b, owned, index, inside, access⟩ |
      dangling
    · cases xxmallocStops sound mine call
    · cases interior with
      | xxfree owned covers clean => cases freeStops sound mine owned covers clean call
      | usableSize owned covers clean =>
        rw [usableServes sound owned covers clean] at call
        cases call
    · rcases access with rfl | ⟨byte, rfl⟩
      · obtain ⟨w, read⟩ := @loadServes pid h σ own _ sound b index owned inside
        rw [read] at call
        cases call
      · rw [storeServes sound owned inside byte] at call
        cases call
    · obtain ⟨addr, fault, reply, after⟩ := danglingForetold sound mirrors mine dangling
      rw [fault] at call
      cases call
      refine ⟨reply.symm, ?_⟩
      rw [after]
      exact mirrorsIdle mirrors .fault

end

theorem runForetold (run : Run pid (calmly pid) Within h σ) : Mirrors (foretold (ops h)) h σ := by
  induction run with
  | init begun => exact mirrorsInit begun
  | next before taken ih =>
    obtain ⟨own, sound⟩ := runSound before
    exact (stepForetold sound ih taken).2

theorem runReplies (run : Run pid (calmly pid) Within h σ) :
    Trace.Always (fun g e => e.reply = (foretold (ops g)).reply e.op) h := by
  induction run with
  | init => trivial
  | next before taken ih =>
    obtain ⟨own, sound⟩ := runSound before
    exact ⟨(stepForetold sound (runForetold before) taken).1, ih⟩

example : (foretold [.store 0x100000010 9 7, .xxmalloc 16]).reply (.xxmalloc 16) = .value 0x100001020 ∧
    (foretold [.xxfree 0x100000010, .store 0x100000010 9 7, .xxmalloc 16]).reply (.xxmalloc 16) =
      .value 0x100001010 ∧
    (foretold [.xxmalloc 16, .xxfree 0x100000010, .store 0x100000010 9 7, .xxmalloc 16]).reply
      (.load 0x100001010 9) = .value 7 := by decide

end Nuaf.Foretold
