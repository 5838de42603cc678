import Nuaf.Threads

/-! What one atomic step of a thread can do to a heap that keeps the invariant. An object once
served is either still there or gone for good, and a step on one that is gone faults, exits
or changes nothing. -/
namespace Nuaf.Threads
open Layout ByteMemory LinkedStack Machine Source Heap

def Retires (σ : State) (own : Owner) (o : Object) : Prop :=
  ∀ g, Spans o.ptr o.size g → Retired σ own g

def Fate (σ : State) (own : Owner) (o : Object) : Prop := Held own o.ptr o.size ∨ Retires σ own o

structure Placed (o : Object) : Prop where
  small : o.size ≤ largestBlockSize → isLarge o.ptr = false
  big : largestBlockSize < o.size → isLarge o.ptr = true ∧ isLarge (pageSize * (o.ptr / pageSize)) = true ∧
    bigPages o.size * pageSize < 2 ^ 64
  inside : ∀ index < usableOf o.size, Spans o.ptr o.size ((o.ptr + index) / pageSize)

structure BigAt (own : Owner) (shadow size written : Nat) : Prop where
  big : largestBlockSize < size
  aligned : shadow % pageSize = 0
  owned : own (shadow / pageSize) = some (.big (shadow / pageSize) (bigPages size) written)

inductive Fits (h : History) (own : Owner) : Pc → Prop where
  | idle : Fits h own .idle
  | malloc {size} : Fits h own (.malloc size)
  | magic {size shadow} (at' : BigAt own shadow size 0) : Fits h own (.magic size shadow)
  | count {size shadow} (at' : BigAt own shadow size 1) : Fits h own (.count size shadow)
  | got {size ptr} : Fits h own (.got size ptr)
  | freeNull : Fits h own (.free 0)
  | free {o} (known : o ∈ handed h) : Fits h own (.free o.ptr)
  | query {o} (known : o ∈ handed h) : Fits h own (.query o.ptr)
  | scan {freeing o} (known : o ∈ handed h) (big : largestBlockSize < o.size) :
      Fits h own (.scan freeing o.ptr (o.ptr / pageSize))
  | pages {freeing o} (known : o ∈ handed h) (big : largestBlockSize < o.size) :
      Fits h own (.pages freeing o.ptr (o.ptr / pageSize))
  | rescan {o} (known : o ∈ handed h) (big : largestBlockSize < o.size) :
      Fits h own (.rescan o.ptr (usableOf o.size) (o.ptr / pageSize))
  | unmapping {o} (known : o ∈ handed h) (big : largestBlockSize < o.size) :
      Fits h own (.unmapping o.ptr (pageSize * (o.ptr / pageSize)) (usableOf o.size))
  | moving {o} (known : o ∈ handed h) (small : o.size ≤ largestBlockSize) :
      Fits h own (.moving o.ptr o.ptr)
  | freed : Fits h own .freed
  | answered {size} : Fits h own (.answered size)

inductive Looks : Pc → Pc → Prop where
  | freeNull : Looks (.free 0) .freed
  | free {ptr} : Looks (.free ptr) (.moving ptr ptr)
  | freeBig {ptr page} : Looks (.free ptr) (.scan true ptr page)
  | query {ptr size} : Looks (.query ptr) (.answered size)
  | queryBig {ptr page} : Looks (.query ptr) (.scan false ptr page)
  | scan {freeing ptr page} : Looks (.scan freeing ptr page) (.pages freeing ptr page)
  | counted {ptr page size last} : Looks (.pages true ptr page) (.rescan ptr size last)
  | answer {ptr page size} : Looks (.pages false ptr page) (.answered size)
  | rescan {ptr size page start} : Looks (.rescan ptr size page) (.unmapping ptr start size)

inductive Writes (size shadow : Nat) : Nat → Pc → Pc → Nat → Nat → Prop where
  | magic : Writes size shadow 0 (.magic size shadow) (.count size shadow) shadow largeObjStartMagic
  | count : Writes size shadow 1 (.count size shadow) (.got size (shadow + 16)) (shadow + 8)
      (bigPages size)

inductive Leaving (o : Object) : Pc → Prop where
  | moving (small : o.size ≤ largestBlockSize) : Leaving o (.moving o.ptr o.ptr)
  | unmapping {start objSize} (big : largestBlockSize < o.size) :
      Leaving o (.unmapping o.ptr start objSize)

inductive Change (h : History) (σ : State) (own : Owner) (chains : Chains) :
    Pc → Pc → State → Owner → Chains → Prop where
  | serve {size p σ' own' chains'} (small : size ≤ largestBlockSize)
      (grant : Grant σ own chains size p σ' own' chains') :
      Change h σ own chains (.malloc size) (.got size p) σ' own' chains'
  | map {size} (big : largestBlockSize < size) (fits : bigPages size * pageSize < 2 ^ 64)
      (room : σ.largeObjNextPage + bigPages size * pageSize ≤ taskSize) :
      Change h σ own chains (.malloc size) (.magic size σ.largeObjNextPage)
        (bigMapped (bigPages size) σ)
        (setRange (σ.largeObjNextPage / pageSize) (bigPages size)
          (some (.big (σ.largeObjNextPage / pageSize) (bigPages size) 0)) own) chains
  | header {size shadow stage pc pc' address value} (at' : BigAt own shadow size stage)
      (writes : Writes size shadow stage pc pc' address value) :
      Change h σ own chains pc pc' (wrote address 8 value σ)
        (setRange (shadow / pageSize) (bigPages size)
          (some (.big (shadow / pageSize) (bigPages size) (stage + 1))) own) chains
  | release {o pc σ' own' chains'} (known : o ∈ handed h) (leaving : Leaving o pc)
      (held : Held own o.ptr o.size)
      (release : Release σ own chains o.ptr o.size σ' own' chains') :
      Change h σ own chains pc .freed σ' own' chains'
  | stale {o start objSize mappings calls} (known : o ∈ handed h)
      (big : largestBlockSize < o.size) (dead : Retires σ own o) :
      Change h σ own chains (.unmapping o.ptr start objSize) .freed
        { σ with numMappings := mappings, calls := calls } own chains
  | look {pc pc'} (looks : Looks pc pc') (fits : Fits h own pc') :
      Change h σ own chains pc pc' σ own chains

inductive Outcome (h : History) (k : Kernel) (σ : State) (own : Owner) (chains : Chains) (pc : Pc) :
    Prop where
  | runs {pc' σ'} (call : next k pc σ = .ok pc' σ')
      (change : Within σ' → ∃ own' chains', Change h σ own chains pc pc' σ' own' chains')
  | faults {o addr} (known : o ∈ handed h) (at' : pc.named = some o.ptr) (dead : Retires σ own o)
      (call : next k pc σ = .error (.segv addr) σ)
  | exits {o code σ'} (at' : pc.named = some o.ptr) (dead : Retires σ own o)
      (call : next k pc σ = .error (.exit code) σ')
  | full {size code σ'} (at' : pc = .malloc size) (full : NoRoom σ size)
      (call : next k pc σ = .error (.exit code) σ')
  | past {size addr σ'} (at' : pc = .malloc size) (past : PastFile σ size)
      (call : next k pc σ = .error (.bus addr) σ')

variable {h : History} {σ σ' : State} {own own' : Owner} {chains chains' : Chains} {k : Kernel}
  {o : Object} {pc pc' : Pc}

theorem lookHit {page : Nat} {found : Pc} {below : Nat → Pc}
    (magic : load σ.mem (pageSize * page) 8 = some largeObjStartMagic) :
    look page found below σ = .ok found σ := by
  unfold look
  rw [bindOk (readWordOk magic), if_pos rfl]
  rfl

theorem lookFault {page : Nat} {found : Pc} {below : Nat → Pc}
    (hole : load σ.mem (pageSize * page) 8 = none) :
    look page found below σ = .error (.segv (pageSize * page)) σ := by
  unfold look
  rw [bindError (readWordFault hole)]

theorem carveNext {size : Nat} (grants : k.mmapGrants = true) (par : σ.parPs = k.pid)
    (small : size ≤ largestBlockSize) (empty : (σ.gFlsts (blockType size)).topOfStack = 0)
    (started : 0 < σ.highVaddr) (room : σ.highVaddr + pageSize ≤ taskSize)
    (file : roundDown (σ.gFlsts (blockType size)).highCanonicalAddr pageSize < σ.fileSize) :
    next k (.malloc size) σ =
      .ok (.got size (σ.highVaddr + (σ.gFlsts (blockType size)).highCanonicalAddr % pageSize))
        (carved (blockType size) (σ.gFlsts (blockType size)) σ) := by
  rw [next, bindOk (ensureInitRun par), if_neg (Nat.not_lt.mpr small),
    bindOk ((popEmpty (blockTypeLt small) empty).trans (carveRun grants started room file))]
  rfl

theorem mapNext {size : Nat} (grants : k.mmapGrants = true) (par : σ.parPs = k.pid)
    (big : largestBlockSize < size) (positive : 0 < wrap (bigPages size * pageSize))
    (room : σ.largeObjNextPage + wrap (bigPages size * pageSize) ≤ taskSize) :
    next k (.malloc size) σ =
      .ok (.magic size σ.largeObjNextPage) (bigMapped (bigPages size) σ) := by
  rw [next, bindOk (ensureInitRun par), if_pos big, bindOk (bigMapRun grants positive room)]
  rfl

theorem heldPlaced (inv : Inv σ own chains) (held : Held own o.ptr o.size) : Placed o := by
  refine ⟨fun small => ?_, fun big => ?_, fun index inside => ?_⟩
  · have below := (smallBelow inv ((heldSmall small).mp held)).2
    exact notLarge (by simp only [pageSize] at *; omega)
  · obtain ⟨owned, offset⟩ := (heldBig big).mp held
    obtain ⟨_, high, positive⟩ := bigAddresses inv owned
    refine ⟨bigLarge inv owned ?_ ?_, bigLarge inv owned (Nat.le_refl _) ?_, ?_⟩ <;>
      simp only [pageSize, taskSize] at * <;> omega
  · exact insideSpans inv held ⟨Nat.le_add_right _ _, Nat.add_lt_add_left inside _⟩

theorem heldAddress (inv : Inv σ own chains) (held : Held own o.ptr o.size) : o.ptr ≠ 0 := by
  rcases Nat.lt_or_ge largestBlockSize o.size with big | small
  · have := ((heldBig big).mp held).2
    rintro same
    rw [same] at this
    cases this
  · have := (smallBelow inv ((heldSmall small).mp held)).1
    rintro same
    rw [same] at this
    exact absurd this (by decide)

theorem fateAddress (inv : Inv σ own chains) (fate : Fate σ own o) : o.ptr ≠ 0 :=
  fate.elim (heldAddress inv) fun dead => retiredAddress (dead _ (spansSelf _ _)) rfl

theorem retiresHole (inv : Inv σ own chains) (dead : Retires σ own o) {a : Nat}
    (page : a / pageSize = o.ptr / pageSize) : σ.mem a = none :=
  retiredHole inv (dead _ (spansSelf _ _)) page

theorem retiresWord (inv : Inv σ own chains) (dead : Retires σ own o) {i width : Nat}
    (inside : i < pageSize) (positive : 0 < width) :
    load σ.mem (pageSize * (o.ptr / pageSize) + i) width = none :=
  loadUnmapped positive (retiresHole inv dead (by simp only [pageSize] at *; omega))

theorem notReleased (small : isLarge o.ptr = false) (objSize : Nat) :
    release o.ptr o.ptr objSize = .moving o.ptr o.ptr := if_neg (by simp [small])

section
variable (inv : Inv σ own chains) (held : Held own o.ptr o.size)
include inv held

theorem freeLive (par : σ.parPs = k.pid) (small : o.size ≤ largestBlockSize) :
    next k (.free o.ptr) σ = .ok (.moving o.ptr o.ptr) σ := by
  have low := (heldPlaced inv held).small small
  have owned := (heldSmall small).mp held
  have split := pageSplit o.ptr
  have usable := usableHeld inv held
  have positive := usablePositive o.size
  rw [usableOf, if_pos small] at usable positive
  have start := objStartSlot (p := o.ptr) inv owned (Nat.le_of_eq split) (by rw [split]; omega)
  rw [split] at start
  rw [next, bindOk (ensureInitRun par), if_neg (heldAddress inv held), if_neg (by simp [low]),
    bindOk usable, bindOk start, notReleased low]
  rfl

theorem freeSmallLive {pid : Nat} (reliable : Reliable pid k) (small : o.size ≤ largestBlockSize) :
    ∃ σ', freeSmall k o.ptr σ = .ok () σ' ∧ σ'.highVaddr = wrap (σ.highVaddr + pageSize) := by
  obtain ⟨mapped, header, inside, cls⟩ := slotPage inv ((heldSmall small).mp held)
  obtain ⟨earlier, done, _⟩ := freeSmallRun cls mapped header inside inv.highAligned (taskRoom inv)
    (reliableFirst reliable) (by decide)
  exact ⟨_, done, rfl⟩

theorem movingLive {pid : Nat} (reliable : Reliable pid k) (small : o.size ≤ largestBlockSize) :
    ∃ σ', next k (.moving o.ptr o.ptr) σ = .ok .freed σ' ∧
      σ'.highVaddr = wrap (σ.highVaddr + pageSize) := by
  obtain ⟨σ', done, high⟩ := freeSmallLive inv held reliable small
  exact ⟨σ', bindOk done, high⟩

theorem queryLive (small : o.size ≤ largestBlockSize) :
    next k (.query o.ptr) σ = .ok (.answered (usableOf o.size)) σ := by
  have low := (heldPlaced inv held).small small
  rw [next, if_neg (heldAddress inv held), if_neg (by simp [low]), bindOk (usableHeld inv held)]
  rfl

variable (big : largestBlockSize < o.size)
include big

theorem scanLive (freeing : Bool) : next k (.scan freeing o.ptr (o.ptr / pageSize)) σ =
    .ok (.pages freeing o.ptr (o.ptr / pageSize)) σ := by
  have magic := (inv.big ((heldBig big).mp held).1).2.2.magic (by decide)
  exact lookHit magic

theorem pagesLive (freeing : Bool) : next k (.pages freeing o.ptr (o.ptr / pageSize)) σ =
    .ok (if freeing then .rescan o.ptr (usableOf o.size) (o.ptr / pageSize)
      else .answered (usableOf o.size)) σ := by
  have pages := (inv.big ((heldBig big).mp held).1).2.2
  have room := (heldPlaced inv held).big big
  rw [next, bindOk (readWordOk (pages.pages (by decide))), bigUsable pages.positive room.2.2,
    usableOf, if_neg (Nat.not_le.mpr big)]
  rfl

theorem rescanLive : next k (.rescan o.ptr (usableOf o.size) (o.ptr / pageSize)) σ =
    .ok (.unmapping o.ptr (pageSize * (o.ptr / pageSize)) (usableOf o.size)) σ := by
  have magic := (inv.big ((heldBig big).mp held).1).2.2.magic (by decide)
  have high := (heldPlaced inv held).big big
  refine (lookHit magic).trans ?_
  rw [release, if_pos high.2.1]

end

theorem bigCall (par : σ.parPs = k.pid) (some : o.ptr ≠ 0) (large : isLarge o.ptr = true) :
    next k (.free o.ptr) σ = .ok (.scan true o.ptr (o.ptr / pageSize)) σ ∧
    next k (.query o.ptr) σ = .ok (.scan false o.ptr (o.ptr / pageSize)) σ := by
  constructor
  · rw [next, bindOk (ensureInitRun par), if_neg some, if_pos large]
    rfl
  · rw [next, if_neg some, if_pos large]
    rfl

section
variable (inv : Inv σ own chains) (dead : Retires σ own o)
include inv dead

theorem freeDead (par : σ.parPs = k.pid) (low : isLarge o.ptr = false) :
    ∃ addr, next k (.free o.ptr) σ = .error (.segv addr) σ := by
  have some : o.ptr ≠ 0 := fateAddress inv (.inr dead)
  have fault := usableFault some fun a page => retiresHole inv dead page
  refine ⟨pageSize * (o.ptr / pageSize), ?_⟩
  rw [next, bindOk (ensureInitRun par), if_neg some, if_neg (by simp [low]), bindError fault]

theorem queryDead (low : isLarge o.ptr = false) :
    ∃ addr, next k (.query o.ptr) σ = .error (.segv addr) σ := by
  have some : o.ptr ≠ 0 := fateAddress inv (.inr dead)
  have fault := usableFault some fun a page => retiresHole inv dead page
  refine ⟨pageSize * (o.ptr / pageSize), ?_⟩
  rw [next, if_neg some, if_neg (by simp [low]), bindError fault]

theorem scanDead (freeing : Bool) :
    ∃ addr, next k (.scan freeing o.ptr (o.ptr / pageSize)) σ = .error (.segv addr) σ :=
  ⟨_, lookFault (retiresWord inv dead (by decide : 0 < pageSize) (by decide))⟩

theorem pagesDead (freeing : Bool) :
    ∃ addr, next k (.pages freeing o.ptr (o.ptr / pageSize)) σ = .error (.segv addr) σ := by
  have fault := readWordFault (retiresWord inv dead (by decide : 8 < pageSize) (by decide : 0 < 8))
  refine ⟨pageSize * (o.ptr / pageSize) + 8, ?_⟩
  rw [next, bindError fault]

theorem rescanDead (objSize : Nat) :
    ∃ addr, next k (.rescan o.ptr objSize (o.ptr / pageSize)) σ = .error (.segv addr) σ :=
  ⟨_, lookFault (retiresWord inv dead (by decide : 0 < pageSize) (by decide))⟩

theorem movingDead : ∃ σ', next k (.moving o.ptr o.ptr) σ = .error (.exit 1) σ' := by
  have hole : σ.mem (roundDown o.ptr pageSize) = none := by
    rw [roundDownPage]
    exact retiresHole inv dead (pageOf _)
  obtain ⟨σ', failed⟩ := freeSmallExit (k := k) (.inr (.inl hole))
  exact ⟨σ', bindError failed⟩

end

section
variable {pid : Nat} (inv : Inv σ own chains) (par : σ.parPs = k.pid)
include inv

theorem bigAtMapped {shadow size written : Nat} (at' : BigAt own shadow size written) {a : Nat}
    (page : a / pageSize = shadow / pageSize) : σ.mem a ≠ none := by
  rw [Ne, inv.mapped, page, at'.owned]
  simp

theorem headerOutcome {size shadow stage address value : Nat}
    (at' : BigAt own shadow size stage)
    (writes : Writes size shadow stage pc pc' address value) :
    next k pc σ = .ok pc' (wrote address 8 value σ) := by
  have aligned := at'.aligned
  have words : ∀ i < 16, σ.mem (shadow + i) ≠ none := fun i hi =>
    bigAtMapped inv at' (by simp only [pageSize] at *; omega)
  cases writes with
  | magic => exact bindOk (writeWordOk (fun i hi => words i (by omega)) _)
  | count =>
    refine bindOk (writeWordOk (fun i hi => ?_) _)
    rw [Nat.add_assoc]
    exact words (8 + i) (by omega)

theorem unmappingDead (big : largestBlockSize < o.size) (placed : Placed o)
    (dead : Retires σ own o) : ∃ mappings calls,
      next k (.unmapping o.ptr (pageSize * (o.ptr / pageSize)) (usableOf o.size)) σ =
        .ok .freed { σ with numMappings := mappings, calls := calls } := by
  have done := @freeLargePages σ (o.ptr / pageSize) _ (bigPagesPositive o.size)
    (placed.big big).2.2
  rw [unmapHoles] at done
  · rw [usableOf, if_neg (Nat.not_le.mpr big)]
    exact ⟨_, _, bindOk done⟩
  · intro a low high
    exact retiredHole inv (dead _ ((spansBig big).mpr ((rangePages _ _ _).mpr ⟨low, high⟩))) rfl

include par

theorem mallocOutcome (reliable : Reliable pid k) (size : Nat) :
    Outcome h k σ own chains (.malloc size) := by
  rcases Nat.lt_or_ge largestBlockSize size with big | small
  · by_cases granted : k.mmapGrants = true ∧ 0 < wrap (bigPages size * pageSize) ∧
        σ.largeObjNextPage + wrap (bigPages size * pageSize) ≤ taskSize
    · have fits := bigPagesFits granted.2.1
      exact .runs (mapNext granted.1 par big granted.2.1 granted.2.2) fun _ =>
        ⟨_, _, .map big fits (wrapSmall fits ▸ granted.2.2)⟩
    · obtain ⟨σ', failed⟩ := bigMapRefused granted
      have stops : next k (.malloc size) σ = .error (.exit 1) σ' := by
        rw [next, bindOk (ensureInitRun par), if_pos big, bindError failed]
      have full : NoRoom σ size := ⟨big, by have := reliable.2.1; grind⟩
      exact .full rfl full stops
  · have pops : next k (.malloc size) σ = (freelistPop k size >>= fun p => pure (.got size p)) σ := by
      rw [next, bindOk (ensureInitRun par), if_neg (Nat.not_lt.mpr small)]
    rcases popStep (k := k) inv small with ⟨p, σ', done⟩ | ⟨refused, _⟩ | ⟨past, σ', failed⟩
    · refine .runs (pops.trans (bindOk done)) fun limit => ?_
      obtain ⟨own', chains', grant⟩ := popGrant inv small done limit
      exact ⟨own', chains', .serve small grant⟩
    · rw [reliable.2.1] at refused
      cases refused
    · exact .past rfl past (pops.trans (bindError failed))

variable (known : o ∈ handed h) (placed : Placed o) (fate : Fate σ own o)
include known placed fate

theorem freeOutcome : Outcome h k σ own chains (.free o.ptr) := by
  rcases Nat.lt_or_ge largestBlockSize o.size with big | small
  · have call := bigCall (σ := σ) par (fateAddress inv fate) (placed.big big).1
    exact .runs call.1 fun _ => ⟨_, _, .look .freeBig (.scan known big)⟩
  · rcases fate with held | dead
    · exact .runs (freeLive inv held par small) fun _ => ⟨_, _, .look .free (.moving known small)⟩
    · obtain ⟨addr, fault⟩ := freeDead inv dead par (placed.small small)
      exact .faults known rfl dead fault

theorem queryOutcome : Outcome h k σ own chains (.query o.ptr) := by
  rcases Nat.lt_or_ge largestBlockSize o.size with big | small
  · have call := bigCall (σ := σ) par (fateAddress inv fate) (placed.big big).1
    exact .runs call.2 fun _ => ⟨_, _, .look .queryBig (.scan known big)⟩
  · rcases fate with held | dead
    · exact .runs (queryLive inv held small) fun _ => ⟨_, _, .look .query .answered⟩
    · obtain ⟨addr, fault⟩ := queryDead inv dead (placed.small small)
      exact .faults known rfl dead fault

omit par placed in
theorem scanOutcome (big : largestBlockSize < o.size) (freeing : Bool) :
    Outcome h k σ own chains (.scan freeing o.ptr (o.ptr / pageSize)) := by
  rcases fate with held | dead
  · exact .runs (scanLive inv held big freeing) fun _ => ⟨_, _, .look .scan (.pages known big)⟩
  · obtain ⟨addr, fault⟩ := scanDead inv dead freeing
    exact .faults known rfl dead fault

omit par placed in
theorem pagesOutcome (big : largestBlockSize < o.size) (freeing : Bool) :
    Outcome h k σ own chains (.pages freeing o.ptr (o.ptr / pageSize)) := by
  rcases fate with held | dead
  · have call := pagesLive (k := k) inv held big freeing
    cases freeing with
    | true => exact .runs call fun _ => ⟨_, _, .look .counted (.rescan known big)⟩
    | false => exact .runs call fun _ => ⟨_, _, .look .answer .answered⟩
  · obtain ⟨addr, fault⟩ := pagesDead inv dead freeing
    exact .faults known rfl dead fault

omit par placed in
theorem rescanOutcome (big : largestBlockSize < o.size) :
    Outcome h k σ own chains (.rescan o.ptr (usableOf o.size) (o.ptr / pageSize)) := by
  rcases fate with held | dead
  · exact .runs (rescanLive inv held big) fun _ => ⟨_, _, .look .rescan (.unmapping known big)⟩
  · obtain ⟨addr, fault⟩ := rescanDead inv dead (usableOf o.size)
    exact .faults known rfl dead fault

omit par in
theorem unmappingOutcome (big : largestBlockSize < o.size) : Outcome h k σ own chains
    (.unmapping o.ptr (pageSize * (o.ptr / pageSize)) (usableOf o.size)) := by
  rcases fate with held | dead
  · have done := @freeLargePages σ (o.ptr / pageSize) _ (bigPagesPositive o.size)
      (placed.big big).2.2
    rw [usableOf, if_neg (Nat.not_le.mpr big)]
    exact .runs (bindOk done) fun _ =>
      ⟨_, _, .release known (.unmapping big) held (.large big)⟩
  · obtain ⟨mappings, calls, done⟩ := unmappingDead (k := k) inv big placed dead
    exact .runs done fun _ => ⟨_, _, .stale known big dead⟩

omit par placed in
theorem movingOutcome (reliable : Reliable pid k) (small : o.size ≤ largestBlockSize) :
    Outcome h k σ own chains (.moving o.ptr o.ptr) := by
  rcases fate with held | dead
  · obtain ⟨σ', done, _⟩ := freeSmallLive inv held reliable small
    refine .runs (bindOk done) fun limit => ?_
    obtain ⟨own', chains', release⟩ :=
      freeSmallRelease inv small held (reliableHarmless reliable σ o.ptr) done limit
    exact ⟨own', chains', .release known (.moving small) held release⟩
  · obtain ⟨σ', failed⟩ := movingDead (k := k) inv dead
    exact .exits rfl dead failed

end

theorem nextOutcome {pid : Nat} (inv : Inv σ own chains) (par : σ.parPs = k.pid)
    (reliable : Reliable pid k) (fates : ∀ o ∈ handed h, Fate σ own o)
    (placed : ∀ o ∈ handed h, Placed o) (fits : Fits h own pc) (running : ¬ pc.Final) :
    Outcome h k σ own chains pc := by
  cases fits with
  | idle | got | freed | answered => exact absurd trivial running
  | @malloc size => exact mallocOutcome inv par reliable size
  | magic at' => exact .runs (headerOutcome inv at' .magic) fun _ => ⟨_, _, .header at' .magic⟩
  | count at' => exact .runs (headerOutcome inv at' .count) fun _ => ⟨_, _, .header at' .count⟩
  | freeNull => exact .runs (bindOk (ensureInitRun par)) fun _ => ⟨_, _, .look .freeNull .freed⟩
  | free known => exact freeOutcome inv par known (placed _ known) (fates _ known)
  | query known => exact queryOutcome inv par known (placed _ known) (fates _ known)
  | scan known big => exact scanOutcome inv known (fates _ known) big _
  | pages known big => exact pagesOutcome inv known (fates _ known) big _
  | rescan known big => exact rescanOutcome inv known (fates _ known) big
  | unmapping known big => exact unmappingOutcome inv known (placed _ known) (fates _ known) big
  | moving known small => exact movingOutcome inv known (fates _ known) reliable small

end Nuaf.Threads
