import Nuaf.ClientHeaps

/-! Runs of threads on the exported functions. Whatever the other threads are in the middle of,
each is answered as by a heap of its own, nothing it does faults, and its objects are its alone. -/
namespace Nuaf.Clients
open CallTree ByteHeap Layout ByteMemory Machine Source Heap Threads SharedHeap Nuaf.Sequential Wrapper
  LocalHeap Requests Exhaustion DoubleFree
open Linearization (request before answer)
open Sessions (InMemory Task)

variable {pid : Nat} {u : List Act} {s s' : Host} {e : Act} {h h' : Threads.History}
  {own own' : Owner} {chains chains' : Chains} {K L : Objects} {c d : Cells} {o : Object} {t : Task}
  {v p τ υ giver taker : Nat} {pc : Pc} {op : Op} {k : Kernel} {job : Option (Task × Calls Nat)}

theorem attendsMove (attends : Attends u s h)
    (same : ∀ υ, owned h' υ = owned h υ) (known : handed h' = handed h)
    (pcs : ∀ υ ≠ τ, s'.system.pc υ = s.system.pc υ) (jobs : ∀ υ ≠ τ, s'.job υ = s.job υ)
    (bytes : ∀ υ ≠ τ, ∀ o ∈ owned h υ, ∀ i < usableOf o.size,
      s'.system.heap.mem (o.ptr + i) = s.system.heap.mem (o.ptr + i))
    (kept : ∀ υ, heaps (e :: u) υ = heaps u υ)
    (mine : ∃ L, Attended (heaps u τ) (owned h τ) s'.system.heap.mem (s'.system.pc τ) (s'.job τ) L) :
    Attends (e :: u) s' h' := by
  refine ⟨fun υ => ?_, fun υ => ?_⟩
  · rw [kept, same]
    by_cases self : υ = τ
    · subst self
      exact mine
    · rw [pcs υ self, jobs υ self]
      exact attendedKept (attends.stands υ) (bytes υ self)
  · rw [kept]
    exact reservedKept (attends.reserved υ) (fun o => known ▸ id) fun φ o _ member => same φ ▸ member

def Rests (pid : Nat) (u : List Act) (s : Host) : Prop :=
  ∃ h, Threads.Run pid Owning Within h s.system ∧ Attends u s h

theorem restsBegan (begun : Began pid s.system) (free : ∀ τ, s.job τ = none) : Rests pid [] s := by
  refine ⟨[], .init begun, fun τ => ⟨fun _ => none, fun p c here => (by cases here), ?_⟩,
    fun τ q here => absurd rfl here⟩
  rw [begun.2 τ, free τ]
  exact .between (h := []) ⟨.refl _, fun p c here => by cases here⟩

theorem handedFresh (races : Races pid h s.system own chains) (shares : Shares h s.system)
    (attends : Attends u s h) (held : o ∈ owned h giver) (other : giver ≠ taker) {M : Objects}
    (lying : Local (owned h taker) s.system.heap.mem M) :
    M o.ptr = none ∧ ∀ υ ≠ giver, heaps u υ o.ptr = none := by
  refine ⟨?_, fun υ differs => ?_⟩
  · by_contra there
    obtain ⟨e, there⟩ := Option.ne_none_iff_exists'.mp there
    obtain ⟨q, theirs, place, _⟩ := lying _ e there
    have same := samePointer races (shares.known giver o held) (shares.known taker q theirs) place
    exact other (shares.sole giver taker o held (same ▸ theirs))
  · by_contra there
    obtain ⟨q, known, place, only⟩ := attends.reserved υ _ there
    have same := samePointer races (shares.known giver o held) known place
    exact differs (only giver (same ▸ held)).symm

theorem handedReserved (shares : Shares h s.system) (attends : Attends u s h)
    (held : o ∈ owned h giver) (gave : heaps u giver o.ptr = some c)
    (off : ∀ υ ≠ giver, heaps u υ o.ptr = none) (υ : Nat) :
    Reserved (.handedOver giver taker o :: h) υ (heaps (.handedOver giver taker o.ptr :: u) υ) := by
  have old : ∀ q, q ≠ o.ptr → heaps u υ q ≠ none → ∃ p ∈ handed h, p.ptr = q ∧
      ∀ φ, p ∈ owned (.handedOver giver taker o :: h) φ → φ = υ := fun q differs there => by
    obtain ⟨p, known, place, only⟩ := attends.reserved υ q there
    refine ⟨p, known, place, fun φ member => ?_⟩
    rcases ownedHandOver.mp member with ⟨rfl, _⟩ | ⟨before, _⟩
    · exact absurd place.symm differs
    · exact only φ before
  intro q there
  by_cases self : q = o.ptr
  · subst self
    have mine : υ = taker := by
      by_contra differs
      by_cases first : υ = giver
      · subst first
        simp [heaps, gave, differs] at there
      · simp [heaps, gave, differs, first, off υ first] at there
    refine ⟨o, shares.known giver o held, rfl, fun φ member => ?_⟩
    rcases ownedHandOver.mp member with ⟨_, here⟩ | ⟨before, gone⟩
    · exact here.trans mine.symm
    · exact absurd rfl (gone (shares.sole φ giver o before held))
  · refine old q self ?_
    have same : heaps (.handedOver giver taker o.ptr :: u) υ q = heaps u υ q := by
      simp only [heaps, gave]
      split
      · exact putOther self
      · split
        · exact dropOther self
        · rfl
    rwa [same] at there

section
variable (run : Threads.Run pid Owning Within h s.system) (races : Races pid h s.system own chains)
  (shares : Shares h s.system) (attends : Attends u s h)
include run attends

theorem beganRests (free : s.job τ = none) (allowed : Allowed (heaps u τ) t) :
    Rests pid (.began τ t :: u) (s.turn τ (some (t, t.calls))) := by
  obtain ⟨L, lies, stands⟩ := attends.stands τ
  rw [free] at stands
  obtain ⟨idle, g, knows⟩ := standsBetween stands
  refine ⟨h, run, attendsMove (τ := τ) attends (fun _ => rfl) rfl (fun _ _ => rfl)
    (fun υ => turnOther s _) (fun _ _ _ _ _ _ => rfl) (fun _ => rfl) ⟨L, lies, ?_⟩⟩
  rw [turnSystem, turnSelf, idle]
  exact .ready allowed (taskSafe knows allowed)

theorem returnedRests {next : Nat → Calls Nat} (job : s.job τ = some (t, .call op next))
    (finished : (s.system.pc τ).Final) (reply : answer (s.system.pc τ) = some v) :
    Rests pid (.returned τ :: u)
      ({ s with system := s.system.goto τ .idle }.turn τ (some (t, next v))) := by
  obtain ⟨L, lies, stands⟩ := attends.stands τ
  rw [job] at stands
  obtain ⟨allowed, g, safe⟩ := standsOver stands finished reply
  refine ⟨_, .next run (.returned finished), attendsMove (τ := τ) attends (fun _ => rfl) rfl
    (fun υ => gotoOther s.system _) (fun υ => turnOther _ _) (fun _ _ _ _ _ _ => rfl) (fun _ => rfl)
    ⟨L, lies, ?_⟩⟩
  rw [turnSystem, turnSelf, gotoSelf]
  exact .ready allowed safe

theorem calledRests {next : Nat → Calls Nat} (job : s.job τ = some (t, .call op next))
    (ready : s.system.pc τ = .idle) (long : ¬ Brief op) (entry : request pc = some op) :
    Rests pid (.called τ op :: u) { s with system := s.system.goto τ pc } := by
  obtain ⟨L, lies, stands⟩ := attends.stands τ
  rw [job, ready] at stands
  obtain ⟨allowed, g, safe⟩ := standsReady stands
  have here : before pc = some op := by
    cases pc <;> first | exact entry | cases entry
  have mine : Owning h (.called τ pc) := by
    have permits : Permits L op := safe.1
    cases permits with
    | xxmalloc =>
      cases pc <;> cases entry
      exact .malloc _
    | xxfree there =>
      obtain ⟨o, mine, rfl, _⟩ := lies _ _ there
      cases pc <;> cases entry
      exact .free mine
    | usableSize there =>
      obtain ⟨o, mine, rfl, _⟩ := lies _ _ there
      cases pc <;> cases entry
      exact .query mine
    | freeNull | usableNull => exact absurd rfl long
    | load | store => exact absurd trivial long
  refine ⟨_, .next run (.called ready mine), attendsMove (τ := τ) attends (fun _ => rfl) rfl
    (fun υ => gotoOther s.system _) (fun _ _ => rfl) (fun _ _ _ _ _ _ => rfl) (fun _ => rfl)
    ⟨L, lies, ?_⟩⟩
  rw [gotoSelf, job]
  exact .calling allowed (.call here) safe

include shares

theorem endedRests (job : s.job τ = some (t, .done v)) :
    t.Answered (heaps u τ) v ∧ Rests pid (.ended τ t v :: u) (s.turn τ none) := by
  obtain ⟨L, lies, stands⟩ := attends.stands τ
  rw [job] at stands
  obtain ⟨idle, g, done⟩ := standsDone stands
  have mine : heaps (.ended τ t v :: u) τ = t.after (heaps u τ) v := if_pos rfl
  have theirs : ∀ υ ≠ τ, heaps (.ended τ t v :: u) υ = heaps u υ := fun υ other => if_neg other
  refine ⟨done.answered, h, run, fun υ => ?_, fun υ => ?_⟩ <;> by_cases self : υ = τ
  · subst self
    rw [mine, turnSystem, turnSelf, idle]
    exact ⟨L, lies, .between done.knows⟩
  · rw [theirs υ self, turnOther s none self]
    exact attends.stands υ
  · subst self
    rw [mine]
    exact reservedLocal shares (localBelow lies done.knows.below)
  · rw [theirs υ self]
    exact attends.reserved υ

include races

theorem advancedRests {heap : State} (reliable : Reliable pid k) (running : ¬ (s.system.pc τ).Final)
    (call : Threads.next k (s.system.pc τ) s.system.heap = .ok pc heap) (limit : Within heap) :
    Rests pid (.advanced τ :: u) { s with system := { s.system.goto τ pc with heap := heap } } := by
  obtain ⟨own', chains', change⟩ := advanceChange races reliable running call limit
  obtain ⟨L, lies, stands⟩ := attends.stands τ
  obtain ⟨t, op, next, g, job, allowed, under, safe⟩ := standsRuns stands running
  refine ⟨_, .next run (.advanced reliable running call limit), fun υ => ?_, fun υ =>
    reservedAdvanced races (attends.reserved υ) change⟩
  rw [ownedAdvance]
  by_cases self : υ = τ
  · subst self
    rw [if_pos rfl]
    simp only [gotoSelf]
    rw [job]
    exact callAdvanced races shares lies change allowed under safe reliable call
  · rw [if_neg self]
    simp only [gotoOther s.system pc self]
    refine attendedKept (attends.stands υ) fun o theirs i inside =>
      ownedKept races shares theirs change (fun p leaving same => ?_) inside
    obtain ⟨q, mine, place⟩ := shares.named τ _ (leavingNamed leaving)
    subst same
    have same := samePointer races (shares.known υ p theirs) (shares.known τ q mine) place
    exact self (shares.sole υ τ p theirs (same ▸ mine))

theorem accessedRests {next : Nat → Calls Nat} {heap : State}
    (job : s.job τ = some (t, .call op next)) (ready : s.system.pc τ = .idle) (brief : Brief op)
    (reliable : Reliable pid k) (call : exec k op s.system.heap = .ok v heap) :
    Rests pid (.accessed τ op :: u)
      ({ s with system := { s.system with heap := heap } }.turn τ (some (t, next v))) := by
  obtain ⟨L, lies, stands⟩ := attends.stands τ
  rw [job, ready] at stands
  obtain ⟨allowed, g, safe⟩ := standsReady stands
  obtain ⟨v', heap', L', done⟩ := briefAccessed run races shares lies ready safe.1 brief reliable
  rw [done.call] at call
  cases call
  obtain ⟨h', run', same, known⟩ := done.below
  refine ⟨h', run', attendsMove (τ := τ) attends same known (fun _ _ => rfl)
    (fun υ => turnOther _ _) done.others (fun _ => rfl) ⟨L', done.lies, ?_⟩⟩
  rw [turnSelf, turnSystem, ready]
  exact .ready allowed (safe.2 (op, v) L' v done.gives rfl)

theorem handedRests (other : giver ≠ taker) (free : s.job giver = none)
    (mine : heaps u giver p = some c) : Rests pid (.handedOver giver taker p :: u) s := by
  obtain ⟨L, lies, stands⟩ := attends.stands giver
  obtain ⟨M, lying, stance⟩ := attends.stands taker
  rw [free] at stands
  obtain ⟨idle, g, knows⟩ := standsBetween stands
  obtain ⟨d, here, low⟩ := knows.below p c mine
  obtain ⟨o, held, rfl, at'⟩ := lies p d here
  obtain ⟨empty, off⟩ := handedFresh races shares attends held other lying
  refine ⟨.handedOver giver taker o :: h, .next run (.handedOver idle (.handOver held)), fun υ => ?_,
    handedReserved shares attends held mine off⟩
  by_cases first : υ = giver
  · subst first
    have gave : heaps (.handedOver υ taker o.ptr :: u) υ = (heaps u υ).drop o.ptr := by
      simp [heaps, mine, other]
    rw [gave, free, idle]
    refine ⟨L.drop o.ptr, localKept (localDrop lies) fun q theirs e there => ?_,
      .between (h := []) ⟨knows.below.drop, dropPlaced knows.placed⟩⟩
    refine ⟨ownedHandOver.mpr (.inr ⟨theirs, fun _ same => ?_⟩), fun _ _ => rfl⟩
    rw [same, dropSelf] at there
    cases there
  by_cases second : υ = taker
  · subst second
    have took : heaps (.handedOver giver υ o.ptr :: u) υ = (heaps u υ).put o.ptr c := by
      simp [heaps, mine]
    rw [took]
    obtain ⟨some, aligned, top⟩ := knows.placed _ d here
    refine ⟨M.put o.ptr d, localPut (localKept lying fun q theirs e there => ?_)
      (ownedHandOver.mpr (.inl ⟨rfl, rfl⟩)) at', standsMore stance (off υ first) empty low
        (putPlaced (localPlaced races shares lying) some aligned top)⟩
    exact ⟨ownedHandOver.mpr (.inr ⟨theirs, fun self => absurd self first⟩), fun _ _ => rfl⟩
  · have left : heaps (.handedOver giver taker o.ptr :: u) υ = heaps u υ ∧
        owned (.handedOver giver taker o :: h) υ = owned h υ := by
      simp [heaps, owned, mine, first, second]
    rw [left.1, left.2]
    exact attends.stands υ

end

theorem stepRests (rests : Rests pid u s) (taken : Step pid u s e s') :
    Saw u e ∧ Rests pid (e :: u) s' := by
  obtain ⟨h, run, attends⟩ := rests
  obtain ⟨own, chains, races, shares⟩ := sharesRun run
  cases taken with
  | began free allowed => exact ⟨trivial, beganRests run attends free allowed⟩
  | called job ready long entry => exact ⟨trivial, calledRests run attends job ready long entry⟩
  | advanced reliable running call limit =>
    exact ⟨trivial, advancedRests run races shares attends reliable running call limit⟩
  | returned job finished reply => exact ⟨trivial, returnedRests run attends job finished reply⟩
  | accessed job ready brief reliable call =>
    exact ⟨trivial, accessedRests run races shares attends job ready brief reliable call⟩
  | ended job => exact endedRests run shares attends job
  | handedOver other free mine => exact ⟨trivial, handedRests run races shares attends other free mine⟩

theorem runRests (run : Run pid u s) : Trace.Always Saw u ∧ Rests pid u s := by
  induction run with
  | init begun => exact ⟨trivial, restsBegan begun.1 begun.2⟩
  | next before taken ih =>
    obtain ⟨saw, rests⟩ := stepRests ih.2 taken
    exact ⟨⟨saw, ih.1⟩, rests⟩

structure OwnHeaps (u : List Act) (s : Host) : Prop where
  memory : ∀ τ, s.job τ = none → InMemory (heaps u τ) s.system.heap
  apart : ∀ τ υ, τ ≠ υ → s.job τ = none → s.job υ = none → ∀ p c q d, heaps u τ p = some c →
    heaps u υ q = some d → ∀ i < c.size, ∀ j < d.size, p + i ≠ q + j

structure Unhindered (pid : Nat) (s : Host) : Prop where
  runs : ∀ τ k, Reliable pid k → ¬ (s.system.pc τ).Final →
    (∃ pc heap, Threads.next k (s.system.pc τ) s.system.heap = .ok pc heap) ∨
    ∃ size, s.system.pc τ = .malloc size ∧ (PastFile s.system.heap size ∨ NoRoom s.system.heap size)
  accesses : ∀ τ t op next k, s.job τ = some (t, .call op next) → s.system.pc τ = .idle →
    Brief op → Reliable pid k → ∃ v heap, exec k op s.system.heap = .ok v heap
  returns : ∀ τ, (s.system.pc τ).Final → s.system.pc τ ≠ .idle →
    ∃ t op next v, s.job τ = some (t, .call op next) ∧ answer (s.system.pc τ) = some v
  below : ∃ h, Threads.Run pid Owning Within h s.system

theorem betweenLies (attends : Attends u s h) (free : s.job τ = none) :
    Local (owned h τ) s.system.heap.mem (heaps u τ) := by
  obtain ⟨L, lies, stands⟩ := attends.stands τ
  rw [free] at stands
  obtain ⟨_, g, knows⟩ := standsBetween stands
  exact localBelow lies knows.below

theorem localApart (races : Races pid h s.system own chains) (shares : Shares h s.system)
    (lies : Local (owned h τ) s.system.heap.mem K) (lying : Local (owned h υ) s.system.heap.mem L)
    {q : Nat} (here : K p = some c) (there : L q = some d) (other : τ ≠ υ ∨ p ≠ q) :
    ∀ i < c.size, ∀ j < d.size, p + i ≠ q + j := by
  obtain ⟨o, mine, rfl, room, _⟩ := lies p c here
  obtain ⟨a, theirs, rfl, space, _⟩ := lying q d there
  have differ : o ≠ a := by
    rintro rfl
    exact other.elim (fun threads => threads (shares.sole τ υ o mine theirs)) fun same => same rfl
  exact fun i inside j within => otherByte races shares mine theirs differ
    (Nat.lt_of_lt_of_le inside room) (Nat.lt_of_lt_of_le within space)

theorem localMemory (races : Races pid h s.system own chains) (shares : Shares h s.system)
    (lies : Local (owned h τ) s.system.heap.mem K) : InMemory K s.system.heap := by
  refine ⟨localPlaced races shares lies, fun p c here i inside => ?_, fun p c here i v known => ?_,
    fun p c q d here there other => localApart races shares lies lies here there (.inr other)⟩
  · obtain ⟨o, _, rfl, at', held⟩ := localHeld races shares lies here
    exact insideMapped races.inv held (insideIndex (Nat.lt_of_lt_of_le inside at'.room))
  · obtain ⟨o, _, rfl, at'⟩ := lies p c here
    exact (at'.bytes i v known).2

theorem clientsServed (run : Run pid u s) : Trace.Always Saw u ∧ OwnHeaps u s := by
  obtain ⟨saw, h, below, attends⟩ := runRests run
  obtain ⟨own, chains, races, shares⟩ := sharesRun below
  refine ⟨saw, fun τ free => localMemory races shares (betweenLies attends free),
    fun τ υ other free free' p c q d here there => ?_⟩
  exact localApart races shares (betweenLies attends free) (betweenLies attends free') here there
    (.inl other)

theorem restsAccess {next : Nat → Calls Nat} (rests : Rests pid u s)
    (job : s.job τ = some (t, .call op next)) (ready : s.system.pc τ = .idle) (brief : Brief op)
    (reliable : Reliable pid k) : ∃ v heap, exec k op s.system.heap = .ok v heap := by
  obtain ⟨h, below, attends⟩ := rests
  obtain ⟨own, chains, races, shares⟩ := sharesRun below
  obtain ⟨L, lies, stands⟩ := attends.stands τ
  rw [job, ready] at stands
  obtain ⟨_, g, safe⟩ := standsReady stands
  obtain ⟨v, heap, _, done⟩ := briefAccessed below races shares lies ready safe.1 brief reliable
  exact ⟨v, heap, done.call⟩

theorem clientsUnhindered (run : Run pid u s) : Unhindered pid s := by
  have rests := (runRests run).2
  obtain ⟨h, below, attends⟩ := id rests
  obtain ⟨own, chains, races, shares⟩ := sharesRun below
  refine ⟨fun τ k => stepRuns races shares,
    fun τ t op next k job ready => restsAccess rests job ready, fun τ finished busy => ?_, h, below⟩
  obtain ⟨L, _, stands⟩ := attends.stands τ
  exact standsReplies stands finished busy

theorem handedOverClients : ∃ u s, Run 1 u s ∧ s.system.pc 1 = .magic 4096 largeObjVaddrStart ∧
    heaps u 3 firstPtr = some ((Cells.blank 16).set 0 7) := by
  have limit : Within (carved 0 ⟨0, 16⟩ begun) := by decide
  have maps := @mapNext (carved 0 ⟨0, 16⟩ begun) steady 4096 rfl rfl (by decide) (by decide) (by decide)
  have run : Run 1 [] ⟨⟨begun, fun _ => .idle⟩, fun _ => none⟩ :=
    .init ⟨⟨begunStarted, fun _ => rfl⟩, fun _ => rfl⟩
  have run := Trace.Run.next run (.began (τ := 2) rfl (.ask (.malloc 16)))
  have run := Trace.Run.next run (.called (τ := 2) rfl rfl id (show request (.malloc 16) = _ from rfl))
  have run := Trace.Run.next run (.advanced (τ := 2) steadyReliable id firstServed limit)
  have run := Trace.Run.next run (.returned (τ := 2) rfl trivial rfl)
  have run := Trace.Run.next run (.ended (τ := 2) rfl)
  have run := Trace.Run.next run (.handedOver (p := firstPtr) (show 2 ≠ 3 by decide) rfl rfl)
  have run := Trace.Run.next run (.began (τ := 1) rfl (.ask (.malloc 4096)))
  have run := Trace.Run.next run (.called (τ := 1) rfl rfl id (show request (.malloc 4096) = _ from rfl))
  have run := Trace.Run.next run (.advanced (τ := 1) steadyReliable id maps limit)
  have run := Trace.Run.next run (.began (τ := 3) rfl
    (show Allowed _ (.store firstPtr 0 7) from .store (c := .blank 16) rfl (by decide)))
  obtain ⟨v, heap, call⟩ := restsAccess (τ := 3) (runRests run).2 rfl rfl trivial steadyReliable
  have run := Trace.Run.next run (.accessed (τ := 3) rfl rfl trivial steadyReliable call)
  have run := Trace.Run.next run (.ended (τ := 3) rfl)
  exact ⟨_, _, run, rfl, rfl⟩

theorem clientsServedApart : ∃ u s, heaps u 3 firstPtr = some ((Cells.blank 16).set 0 7) ∧
    Trace.Always Saw u ∧ OwnHeaps u s := by
  obtain ⟨u, s, run, _, wrote⟩ := handedOverClients
  exact ⟨u, s, wrote, clientsServed run⟩

theorem mappingUnhindered : ∃ s, s.system.pc 1 = .magic 4096 largeObjVaddrStart ∧ Unhindered 1 s := by
  obtain ⟨u, s, run, maps, _⟩ := handedOverClients
  exact ⟨s, maps, clientsUnhindered run⟩

end Nuaf.Clients
