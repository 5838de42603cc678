import Nuaf.DoubleFree
import Nuaf.FullFile
import Nuaf.LoneThread
import Nuaf.ThreadOwnership

/-! Threads sharing the heap, each using only what it holds. Two locks guard the two regions and
headers are read and written outside of both; what makes that sound is that nobody else ever
gets at the pages of an object held or being made. -/
namespace Nuaf.SharedHeap
open Layout ByteMemory LinkedStack Machine Source Heap Threads Exhaustion LoneThread DoubleFree

inductive Claims (h : History) (s : System) (τ : Nat) : Object → Prop where
  | held {o} (mine : o ∈ owned h τ) : Claims h s τ o
  | making {size shadow} (at' : s.pc τ = .magic size shadow ∨ s.pc τ = .count size shadow) :
      Claims h s τ ⟨shadow + 16, size⟩

structure Headed (σ : State) (o : Object) : Prop where
  small : o.size ≤ largestBlockSize →
    load σ.mem (pageSize * (o.ptr / pageSize)) 4 = some (blockType o.size)
  big : largestBlockSize < o.size →
    load σ.mem (pageSize * (o.ptr / pageSize)) 8 = some largeObjStartMagic ∧
    load σ.mem (pageSize * (o.ptr / pageSize) + 8) 8 = some (bigPages o.size)

def course (o : Object) : Pc → Pc
  | .free ptr =>
    if o.size ≤ largestBlockSize then .moving ptr ptr else .scan true ptr (ptr / pageSize)
  | .query ptr =>
    if o.size ≤ largestBlockSize then .answered (usableOf o.size)
    else .scan false ptr (ptr / pageSize)
  | .scan freeing ptr page => .pages freeing ptr page
  | .pages freeing ptr _ =>
    if freeing then .rescan ptr (usableOf o.size) (ptr / pageSize) else .answered (usableOf o.size)
  | .rescan ptr objSize page => .unmapping ptr (pageSize * page) objSize
  | .unmapping _ _ _ | .moving _ _ => .freed
  | pc => pc

structure Threadsafe (pid : Nat) (h : History) (s : System) : Prop where
  apart : ∀ τ o υ p, Claims h s τ o → Claims h s υ p → τ = υ ∧ o = p ∨ Apart o p
  mapped : ∀ τ o, Claims h s τ o → ∀ a, Spans o.ptr o.size (a / pageSize) → s.heap.mem a ≠ none
  headed : ∀ τ, ∀ o ∈ owned h τ, Headed s.heap o
  calls : ∀ τ p, (s.pc τ).named = some p → ∃ o ∈ owned h τ, o.ptr = p ∧
    ∀ k, Reliable pid k → ∃ σ', next k (s.pc τ) s.heap = .ok (course o (s.pc τ)) σ'
  runs : ∀ τ k, Reliable pid k → ¬ (s.pc τ).Final → (∃ pc σ', next k (s.pc τ) s.heap = .ok pc σ') ∨
    ∃ size, s.pc τ = .malloc size ∧ (PastFile s.heap size ∨ NoRoom s.heap size)
  lists : ∃ chains : Chains, ∀ t < numBlockTypes,
    Linked (fun a => load s.heap.mem a 8) 0 (s.heap.gFlsts t).topOfStack (chains t) ∧
    (chains t).Nodup ∧ ∀ a ∈ chains t, SlotOffset t (a % pageSize) ∧
      load s.heap.mem (pageSize * (a / pageSize)) 4 = some t ∧
      ∀ τ o, Claims h s τ o → ¬ Spans o.ptr o.size (a / pageSize)

variable {pid : Nat} {h : History} {s : System} {own : Owner} {chains : Chains} {k : Kernel}
  {o p : Object} {τ υ g : Nat}

theorem makingAt (races : Races pid h s own chains) {size shadow : Nat}
    (at' : s.pc τ = .magic size shadow ∨ s.pc τ = .count size shadow) :
    (s.pc τ).pending = some shadow ∧ ∃ stage, BigAt own shadow size stage ∧ stage < 2 := by
  have fits := races.fits τ
  rcases at' with magic | count
  · rw [magic] at fits ⊢
    cases fits with
    | magic at' => exact ⟨rfl, 0, at', by decide⟩
  · rw [count] at fits ⊢
    cases fits with
    | count at' => exact ⟨rfl, 1, at', by decide⟩

theorem makingPages {size shadow stage : Nat} (at' : BigAt own shadow size stage) :
    Spans (shadow + 16) size g ↔ shadow / pageSize ≤ g ∧ g < shadow / pageSize + bigPages size := by
  have here : (shadow + 16) / pageSize = shadow / pageSize := by
    have := at'.aligned
    simp only [pageSize] at *
    omega
  rw [spansBig at'.big, here]

theorem claimOwned (races : Races pid h s own chains) (shares : Shares h s) (claim : Claims h s τ o)
    (page : Spans o.ptr o.size g) : Busy own g := by
  cases claim with
  | held mine => exact (heldSpans races.inv (ownedHeld races shares mine) page).2
  | making at' =>
    obtain ⟨_, stage, at', _⟩ := makingAt races at'
    obtain ⟨low, high⟩ := (makingPages at').mp page
    exact ⟨_, (races.inv.big at'.owned).2.2.whole g low high, fun t offset h => by cases h⟩

theorem heldMaking (races : Races pid h s own chains) (shares : Shares h s) (mine : o ∈ owned h τ)
    {size shadow : Nat} (at' : s.pc υ = .magic size shadow ∨ s.pc υ = .count size shadow) :
    Apart ⟨shadow + 16, size⟩ o := by
  obtain ⟨_, stage, at', early⟩ := makingAt races at'
  intro g page
  obtain ⟨low, high⟩ := (makingPages at').mp page
  exact writingApart races.inv at' early low high (.inl (ownedHeld races shares mine))

theorem makingMaking (races : Races pid h s own chains) {size shadow size' shadow' : Nat}
    (mine : s.pc τ = .magic size shadow ∨ s.pc τ = .count size shadow)
    (theirs : s.pc υ = .magic size' shadow' ∨ s.pc υ = .count size' shadow')
    (here : Spans (shadow + 16) size g) (there : Spans (shadow' + 16) size' g) :
    τ = υ ∧ (⟨shadow + 16, size⟩ : Object) = ⟨shadow' + 16, size'⟩ := by
  obtain ⟨pending, stage, at', _⟩ := makingAt races mine
  obtain ⟨pending', stage', at'', _⟩ := makingAt races theirs
  obtain ⟨low, high⟩ := (makingPages at').mp here
  obtain ⟨low', high'⟩ := (makingPages at'').mp there
  have owned := (races.inv.big at'.owned).2.2.whole g low high
  rw [(races.inv.big at''.owned).2.2.whole g low' high'] at owned
  simp only [Option.some.injEq, Use.big.injEq] at owned
  have same : shadow = shadow' := by rw [← bigAtBase at', ← owned.1, bigAtBase at'']
  subst same
  have thread := races.alone τ υ shadow pending pending'
  subst thread
  refine ⟨rfl, ?_⟩
  rcases mine with mine | mine <;> rcases theirs with theirs | theirs <;>
    cases mine.symm.trans theirs <;> rfl

theorem claimsApart (races : Races pid h s own chains) (shares : Shares h s)
    (mine : Claims h s τ o) (theirs : Claims h s υ p) : τ = υ ∧ o = p ∨ Apart o p := by
  cases mine with
  | held mine =>
    cases theirs with
    | held theirs =>
      by_cases same : o = p
      · exact .inl ⟨shares.sole τ υ o mine (same ▸ theirs), same⟩
      · exact .inr (races.apart.forall (shares.known τ o mine) (shares.known υ p theirs) same)
    | making theirs => exact .inr (Std.Symm.symm _ _ (heldMaking races shares mine theirs))
  | making mine =>
    cases theirs with
    | held theirs => exact .inr (heldMaking races shares theirs mine)
    | making theirs =>
      by_contra shared
      rw [not_or] at shared
      exact shared.2 fun g here there => shared.1 (makingMaking races mine theirs here there)

theorem ownedHeaded (races : Races pid h s own chains) (held : Held own o.ptr o.size) :
    Headed s.heap o := by
  refine ⟨fun small => ?_, fun big => ?_⟩
  · exact (races.inv.small ((heldSmall small).mp held)).header
  · have pages := (races.inv.big ((heldBig big).mp held).1).2.2
    exact ⟨pages.magic (by decide), pages.pages (by decide)⟩

theorem callRuns (races : Races pid h s own chains) (known : o ∈ handed h)
    (held : Held own o.ptr o.size) (reliable : Reliable pid k)
    (at' : (s.pc τ).named = some o.ptr) :
    ∃ σ', next k (s.pc τ) s.heap = .ok (course o (s.pc τ)) σ' := by
  have par := races.par.trans reliable.1.symm
  have fits := races.fits τ
  have placed := races.placed o known
  generalize s.pc τ = pc at at' fits
  have same : ∀ {p : Object}, p ∈ handed h → some p.ptr = some o.ptr → p = o :=
    fun known' same => samePointer races known known' (Option.some.inj same)
  cases fits with
  | idle | malloc | magic | count | got | freed | answered => cases at'
  | freeNull => exact absurd (Option.some.inj at').symm (heldAddress races.inv held)
  | free known' =>
    cases same known' at'
    rcases Nat.lt_or_ge largestBlockSize o.size with big | small
    · rw [course, if_neg (Nat.not_le.mpr big)]
      exact ⟨_, (bigCall par (heldAddress races.inv held) (placed.big big).1).1⟩
    · rw [course, if_pos small]
      exact ⟨_, freeLive races.inv held par small⟩
  | query known' =>
    cases same known' at'
    rcases Nat.lt_or_ge largestBlockSize o.size with big | small
    · rw [course, if_neg (Nat.not_le.mpr big)]
      exact ⟨_, (bigCall par (heldAddress races.inv held) (placed.big big).1).2⟩
    · rw [course, if_pos small]
      exact ⟨_, queryLive races.inv held small⟩
  | scan known' big =>
    cases same known' at'
    exact ⟨_, scanLive races.inv held big _⟩
  | pages known' big =>
    cases same known' at'
    exact ⟨_, pagesLive races.inv held big _⟩
  | rescan known' big =>
    cases same known' at'
    exact ⟨_, rescanLive races.inv held big⟩
  | unmapping known' big =>
    cases same known' at'
    exact ⟨_, bindOk (freeLargeRun _ _ _)⟩
  | moving known' small =>
    cases same known' at'
    obtain ⟨σ', done, _⟩ := movingLive races.inv held reliable small
    exact ⟨σ', done⟩

theorem stepRuns (races : Races pid h s own chains) (shares : Shares h s)
    (reliable : Reliable pid k) (running : ¬ (s.pc τ).Final) :
    (∃ pc σ', next k (s.pc τ) s.heap = .ok pc σ') ∨
    ∃ size, s.pc τ = .malloc size ∧ (PastFile s.heap size ∨ NoRoom s.heap size) := by
  have par := races.par.trans reliable.1.symm
  cases at' : (s.pc τ).named with
  | some p =>
    obtain ⟨o, mine, rfl⟩ := shares.named τ p at'
    obtain ⟨σ', done⟩ :=
      callRuns races (shares.known τ o mine) (ownedHeld races shares mine) reliable at'
    exact .inl ⟨_, σ', done⟩
  | none =>
    have fits := races.fits τ
    generalize s.pc τ = pc at at' fits running
    cases fits with
    | idle | got | freed | answered => exact absurd trivial running
    | magic mine => exact .inl ⟨_, _, headerOutcome races.inv mine .magic⟩
    | count mine => exact .inl ⟨_, _, headerOutcome races.inv mine .count⟩
    | @malloc size =>
      cases mallocOutcome (h := h) races.inv par reliable size with
      | runs done => exact .inl ⟨_, _, done⟩
      | faults _ named | exits named => cases named
      | past same past =>
        cases same
        exact .inr ⟨size, rfl, .inl past⟩
      | full same full =>
        cases same
        exact .inr ⟨size, rfl, .inr full⟩
    | _ => cases at'

theorem threadsKeepHeap (run : Run pid Owning Within h s) : Threadsafe pid h s := by
  obtain ⟨own, chains, races, shares⟩ := sharesRun run
  refine ⟨fun τ o υ p => claimsApart races shares, fun τ o claim a page => ?_,
    fun τ o mine => ownedHeaded races (ownedHeld races shares mine), fun τ p at' => ?_,
    fun τ k => stepRuns races shares, chains, fun t cls => ⟨races.inv.linked t cls,
      linkedNodup (races.inv.linked t cls), fun a member => ?_⟩⟩
  · obtain ⟨u, owned, _⟩ := claimOwned races shares claim page
    rw [Ne, races.inv.mapped, owned]
    simp
  · obtain ⟨o, mine, rfl⟩ := shares.named τ p at'
    exact ⟨o, mine, rfl, fun k reliable => callRuns races (shares.known τ o mine)
      (ownedHeld races shares mine) reliable at'⟩
  · have free := (races.inv.chained t cls a).mp member
    have page := races.inv.small free
    refine ⟨page.slot, page.header, fun τ o claim spans => ?_⟩
    obtain ⟨u, owned, busy⟩ := claimOwned races shares claim spans
    rw [free] at owned
    cases owned
    exact busy _ _ rfl

theorem handedOverRun : ∃ h s, Run 1 Owning Within h s ∧ ⟨firstPtr, 16⟩ ∈ owned h 3 ∧
    s.pc 1 = .magic 4096 largeObjVaddrStart := by
  have limit : Within (carved 0 ⟨0, 16⟩ begun) := by decide
  have maps := @mapNext (carved 0 ⟨0, 16⟩ begun) steady 4096 rfl rfl (by decide) (by decide) (by decide)
  have run : Run 1 Owning Within [] ⟨begun, fun _ => .idle⟩ := .init ⟨begunStarted, fun _ => rfl⟩
  have run := Trace.Run.next run (.called (τ := 2) rfl (.malloc 16))
  have run := Trace.Run.next run (.advanced (τ := 2) steadyReliable id firstServed limit)
  have run := Trace.Run.next run (.returned (τ := 2) trivial)
  have gives : ∀ {h s}, s.pc 2 = .idle → ⟨firstPtr, 16⟩ ∈ owned h 2 →
      Step 1 Owning Within h s (.handedOver 2 3 ⟨firstPtr, 16⟩) s :=
    fun ready mine => .handedOver ready (.handOver mine)
  have run := Trace.Run.next run (gives rfl (by decide))
  have run := Trace.Run.next run (.called (τ := 1) rfl (.malloc 4096))
  have run := Trace.Run.next run (.advanced (τ := 1) steadyReliable id maps limit)
  exact ⟨_, _, run, by decide, rfl⟩

theorem handedOverApart : ∃ h s, Threadsafe 1 h s ∧ Claims h s 3 ⟨firstPtr, 16⟩ ∧
    Claims h s 1 ⟨largeObjVaddrStart + 16, 4096⟩ := by
  obtain ⟨h, s, run, mine, making⟩ := handedOverRun
  exact ⟨h, s, threadsKeepHeap run, .held mine, .making (.inl making)⟩

theorem fileEnds : ∃ h s, Run 1 Owning Within h s ∧
    ∃ addr σ, next steady (s.pc 0) s.heap = .error (.bus addr) σ := by
  obtain ⟨l, σ, before, filling, _⟩ :=
    fillingRun (.init begunStarted) fillingBegun (Nat.zero_le _) fullFile (Nat.le_refl _)
  obtain ⟨h, s, run, alone⟩ := aloneRun withinHigh (fun _ limit => limit) before
  have filling : Filling 0 fullFile s.heap := by
    obtain ⟨calls, same⟩ := alone.heap
    rw [same]
    exact ⟨filling.par, filling.file, filling.high, filling.flst⟩
  obtain ⟨σ', fault⟩ := fillingEnds filling (Nat.zero_le _)
  refine ⟨_, _, .next run (.called (τ := 0) alone.idle (.malloc 2048)), s.heap.highVaddr, σ', ?_⟩
  rw [gotoSelf, next, bindOk (ensureInitRun filling.par), if_neg (by decide)]
  exact bindError fault

abbrev bigObject : Object := ⟨bigBlock.ptr, bigBlock.size⟩

abbrev smallObject : Object := ⟨pageSize * largePage + 16, 16⟩

/- The last page below the large objects is freed, which moves it onto the first of them; then the
block on it is handed out again. -/
theorem cyclingOver : ∃ h s, Run 1 Owning (fun _ => True) h s ∧
    smallObject ∈ owned h 0 ∧ bigObject ∈ owned h 0 := by
  obtain ⟨l, σ, before, at'⟩ := @roundsBeside Within (largePage - 1 - firstPage) (by decide)
    fun σ high => Nat.le_trans high (by decide)
  rw [show firstPage + (largePage - 1 - firstPage) = largePage - 1 by decide] at at'
  obtain ⟨own, sound⟩ := Sequential.runSound (Sequential.runWiden Sequential.reliablyWider before)
  have any : ∀ σ σ' : State, σ'.highVaddr = σ.highVaddr → True → True := fun _ _ _ => id
  obtain ⟨h, s, run, alone⟩ := aloneRun any (fun _ _ => trivial) before
  obtain ⟨e, σ₁, freed, rest, _⟩ := @cycleFree _ _ _ _ l σ (fun _ => True) at' (by decide)
    (fun a page => byteHoles a (by simp only [pageSize, largeObjVaddrStart, largePage] at *; omega))
    bigAbove fun _ _ => trivial
  rw [show largePage - 1 + 1 = largePage by decide] at rest
  obtain ⟨h, s, run, alone⟩ := aloneStep any (fun _ => id) sound trivial run alone freed
  obtain ⟨h, s, run, alone⟩ := aloneMalloc any run alone steadyReliable rest.par (popCall rest) trivial
  obtain ⟨serial, kept, _⟩ := rest.block
  obtain ⟨b, place, length, added⟩ :=
    @Sequential.mallocLive (e :: l) 16 (pageSize * largePage + 16) (popped 0 0 σ₁.clear).calls
  refine ⟨h, s, run, ?_, alone.owned bigBlock ?_⟩
  · have mine := alone.owned b (by rw [added]; exact List.mem_cons_self)
    rwa [place, length] at mine
  · rw [added, kept]
    exact List.mem_cons_of_mem _ List.mem_cons_self

theorem boundsCrossed :
    (∃ h s, Run 1 Owning Within h s ∧ ∃ addr σ, next steady (s.pc 0) s.heap = .error (.bus addr) σ) ∧
    ∃ h s, Run 1 Owning (fun _ => True) h s ∧
      ∃ o p, Claims h s 0 o ∧ Claims h s 0 p ∧ o ≠ p ∧ ¬ Apart o p := by
  refine ⟨fileEnds, ?_⟩
  obtain ⟨h, s, run, small, big⟩ := cyclingOver
  have page : Spans bigObject.ptr bigObject.size largePage := spansSelf bigObject.ptr _
  have shared : Spans smallObject.ptr smallObject.size largePage := spansSelf smallObject.ptr _
  exact ⟨h, s, run, _, _, .held small, .held big, by decide, fun apart => apart _ shared page⟩

end Nuaf.SharedHeap
