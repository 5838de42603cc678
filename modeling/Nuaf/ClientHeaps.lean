import Nuaf.Clients

/-! The byte heaps of threads that run at once. Every thread has a heap of its own in the objects
it holds; a step of another thread changes none of their bytes, and its own steps change them as
the calls of its function say. -/
namespace Nuaf.Clients
open CallTree ByteHeap Layout ByteMemory Machine Source Heap Threads SharedHeap Nuaf.Sequential Wrapper
  LocalHeap Requests
open Linearization (request before answer looksCases courseAnswer)
open Sessions (InMemory Task)

structure Lies (m : Memory) (o : Object) (c : Cells) : Prop where
  room : c.size ≤ usableOf o.size
  bytes : ∀ i v, c.byte i = some v → i < usableOf o.size ∧ m (o.ptr + i) = some v

def Local (objects : List Object) (m : Memory) (L : Objects) : Prop :=
  ∀ p c, L p = some c → ∃ o ∈ objects, o.ptr = p ∧ Lies m o c

structure Done (K : Objects) (t : Task) (v : Nat) (h : List (Op × Nat)) (L : Objects) :
    Prop where
  answered : t.Answered K v
  knows : Knows (t.after K v) h L

inductive Under : Op → Pc → Prop where
  | call {op pc} (here : before pc = some op) : Under op pc
  | magic {size shadow} : Under (.xxmalloc size) (.magic size shadow)
  | count {size shadow} : Under (.xxmalloc size) (.count size shadow)

inductive Replies : Op → Pc → Nat → Prop where
  | xxmalloc {size ptr} : Replies (.xxmalloc size) (.got size ptr) ptr
  | xxfree {ptr} : Replies (.xxfree ptr) .freed 0
  | usableSize {ptr size} : Replies (.usableSize ptr) (.answered size) size

/- Where a thread is in its task, and what is left of it to do. `K` is the heap the task was begun
on, with what was handed over since, and `L` the one it is at now. -/
inductive Stands (K L : Objects) : Pc → Option (Task × Calls Nat) → Prop where
  | between {h} (knows : Knows K h L) : Stands K L .idle none
  | ready {t x h} (allowed : Allowed K t) (safe : Locally x h L (Done K t)) :
      Stands K L .idle (some (t, x))
  | calling {t op next pc h} (allowed : Allowed K t) (under : Under op pc)
      (safe : Locally (.call op next) h L (Done K t)) : Stands K L pc (some (t, .call op next))
  | answered {t op next pc v h} (allowed : Allowed K t) (replies : Replies op pc v)
      (safe : Locally (next v) h L (Done K t)) : Stands K L pc (some (t, .call op next))

structure Attended (K : Objects) (objects : List Object) (m : Memory) (pc : Pc)
    (job : Option (Task × Calls Nat)) (L : Objects) : Prop where
  lies : Local objects m L
  stands : Stands K L pc job

def Reserved (h : Threads.History) (τ : Nat) (K : Objects) : Prop :=
  ∀ q, K q ≠ none → ∃ o ∈ handed h, o.ptr = q ∧ ∀ υ, o ∈ owned h υ → υ = τ

structure Attends (u : List Act) (s : Host) (h : Threads.History) : Prop where
  stands : ∀ τ, ∃ L, Attended (heaps u τ) (owned h τ) s.system.heap.mem (s.system.pc τ) (s.job τ) L
  reserved : ∀ τ, Reserved h τ (heaps u τ)

variable {pid : Nat} {u : List Act} {s s' : Host} {e : Act} {h h' : Threads.History} {own own' : Owner}
  {chains chains' : Chains} {σ σ' : State} {m m' : Memory} {K L : Objects} {c d : Cells}
  {o : Object} {objects : List Object} {t : Task} {g : List (Op × Nat)} {v p τ υ a : Nat} {pc pc' : Pc}
  {op : Op} {k : Kernel} {system : System} {job : Option (Task × Calls Nat)}

theorem taskSafe (knows : Knows K g L) (allowed : Allowed K t) :
    Locally t.calls g L (Done K t) := by
  cases allowed with
  | ask asks => exact safeMono (servedSafe knows asks) fun v g L served => ⟨served.answered, served.knows⟩
  | load mine inside =>
    refine safeMono (loadSafe knows mine rfl inside) fun v g L ⟨read, knows⟩ => ⟨fun d w there known => ?_, knows⟩
    cases mine.symm.trans there
    exact read w known
  | store mine inside =>
    refine safeMono (storeSafe knows mine inside) fun v g L knows => ⟨trivial, ?_⟩
    simpa only [Task.after, mine] using knows

theorem allowedMore {G : Objects} (more : ∀ q d, K q = some d → G q = some d) (allowed : Allowed K t) :
    Allowed G t := by
  cases allowed with
  | ask asks => exact .ask (asksMore more asks)
  | load mine inside => exact .load (more _ _ mine) inside
  | store mine inside => exact .store (more _ _ mine) inside

theorem doneMore (allowed : Allowed K t) (done : Done K t v g L) (fresh : K p = none)
    (empty : L p = none) (some : p ≠ 0) (low : c.Below d) (placed : Placed (L.put p d)) :
    Done (K.put p c) t v g (L.put p d) := by
  cases allowed with
  | ask asks =>
    have more := servedMore asks ⟨done.answered, done.knows⟩ fresh empty some low placed
    exact ⟨more.answered, more.knows⟩
  | load mine inside =>
    have other := freshOther fresh mine
    refine ⟨fun e w there known => done.answered e w ?_ known, done.knows.below.put low, placed⟩
    rwa [putOther other] at there
  | store mine inside =>
    have other := freshOther fresh mine
    have knows := done.knows
    simp only [Task.after, mine] at knows
    refine ⟨trivial, ?_⟩
    simp only [Task.after, putOther other, mine]
    rw [putComm other]
    exact ⟨knows.below.put low, placed⟩

theorem safeMore {x : Calls Nat} (allowed : Allowed K t) (safe : Locally x g L (Done K t))
    (fresh : K p = none) (empty : L p = none) (low : c.Below d) (placed : Placed (L.put p d)) :
    Locally x g (L.put p d) (Done (K.put p c) t) := by
  have some := (placed p d putSelf).1
  refine safeMono (framed safe empty placed) ?_
  rintro v g G ⟨L, done, empty, rfl, placed⟩
  exact doneMore allowed done fresh empty some low placed

theorem standsMore (stands : Stands K L pc job) (fresh : K p = none) (empty : L p = none)
    (low : c.Below d) (placed : Placed (L.put p d)) : Stands (K.put p c) (L.put p d) pc job := by
  have more := fun q e => @morePut p K c e fresh q
  cases stands with
  | between knows => exact .between (h := []) ⟨knows.below.put low, placed⟩
  | ready allowed safe =>
    exact .ready (allowedMore more allowed) (safeMore allowed safe fresh empty low placed)
  | calling allowed under safe =>
    exact .calling (allowedMore more allowed) under (safeMore allowed safe fresh empty low placed)
  | answered allowed replies safe =>
    exact .answered (allowedMore more allowed) replies (safeMore allowed safe fresh empty low placed)

theorem localKept {objects' : List Object} (lies : Local objects m L)
    (kept : ∀ o ∈ objects, ∀ c, L o.ptr = some c →
      o ∈ objects' ∧ ∀ i < usableOf o.size, m' (o.ptr + i) = m (o.ptr + i)) :
    Local objects' m' L := by
  intro p c here
  obtain ⟨o, mine, rfl, room, bytes⟩ := lies p c here
  obtain ⟨still, same⟩ := kept o mine c here
  refine ⟨o, still, rfl, room, fun i v known => ?_⟩
  obtain ⟨inside, there⟩ := bytes i v known
  exact ⟨inside, (same i inside).trans there⟩

theorem localBelow (lies : Local objects m L) (below : K.Below L) : Local objects m K := by
  intro p c here
  obtain ⟨d, there, low⟩ := below p c here
  obtain ⟨o, mine, place, at'⟩ := lies p d there
  exact ⟨o, mine, place, Nat.le_trans low.size at'.room, fun i v known => at'.bytes i v (low.byte i v known)⟩

theorem localPut (lies : Local objects m L) (mine : o ∈ objects) (at' : Lies m o c) :
    Local objects m (L.put o.ptr c) := by
  intro q d here
  by_cases self : q = o.ptr
  · subst self
    rw [putSelf] at here
    cases here
    exact ⟨o, mine, rfl, at'⟩
  · rw [putOther self] at here
    exact lies q d here

theorem localDrop (lies : Local objects m L) : Local objects m (L.drop p) := by
  intro q d here
  by_cases self : q = p
  · subst self
    rw [dropSelf] at here
    cases here
  · rw [dropOther self] at here
    exact lies q d here

theorem insideIndex {i : Nat} (inside : i < usableOf o.size) : Inside o.ptr o.size (o.ptr + i) :=
  ⟨Nat.le_add_right _ _, Nat.add_lt_add_left inside _⟩

theorem changeMem (races : Races pid h system own chains) (known : o ∈ handed h)
    (held : Held own o.ptr o.size)
    (change : Change h system.heap own chains pc pc' σ' own' chains')
    (still : ∀ p, Leaving p pc → p ≠ o) (inside : Inside o.ptr o.size a) :
    σ'.mem a = system.heap.mem a := by
  have inv := races.inv
  have page := insideSpans inv held inside
  obtain ⟨use, owned, _⟩ := (heldSpans inv held page).2
  have busy : own (a / pageSize) ≠ none := by simp [owned]
  cases change with
  | serve small grant => exact grantMem inv grant busy
  | map big fits room =>
    have base := nextPage inv
    rw [(bigMappedFields fits room).1]
    refine mapZeroOut fun mapped => busy (ownPast inv ?_)
    simp only [pageSize] at *
    omega
  | @header _ shadow _ _ _ _ _ at' writes =>
    have early := (writesPending writes).2
    have aligned := at'.aligned
    have off : a / pageSize ≠ shadow / pageSize := fun same => writingApart inv at' early
      (Nat.le_of_eq same.symm) (by rw [same]; exact Nat.lt_add_of_pos_right (bigPagesPositive _))
      (.inl held) page
    refine writeOut ?_
    cases writes <;> simp only [pageSize] at * <;> omega
  | release known' leaving held' release =>
    exact releaseMem inv release held' busy fun there =>
      still _ leaving (apartSame races.apart known' known there page)
  | stale | look => rfl

theorem underMapped {size shadow : Nat} (under : Under op (.malloc size)) :
    Under op (.magic size shadow) := by
  cases under with
  | call here =>
    cases here
    exact .magic

theorem underMarked {size shadow : Nat} (under : Under op (.magic size shadow)) :
    Under op (.count size shadow) := by
  cases under with
  | call here => cases here
  | magic => exact .count

theorem underGot {size ptr : Nat} (change : Change h σ own chains pc (.got size ptr) σ' own' chains')
    (under : Under op pc) : op = .xxmalloc size ∧ (∀ p, ¬ Leaving p pc) ∧
      ∀ objects, keeps objects pc (.got size ptr) = ⟨ptr, size⟩ :: objects := by
  cases change with
  | serve =>
    cases under with
    | call here =>
      cases here
      exact ⟨rfl, fun p leaving => (by cases leaving), fun _ => rfl⟩
  | header at' writes =>
    cases writes with
    | count =>
      cases under with
      | call here => cases here
      | count => exact ⟨rfl, fun p leaving => (by cases leaving), fun _ => rfl⟩
  | look looks => cases looks

section
variable (races : Races pid h system own chains) (shares : Shares h system)
  (lies : Local (owned h τ) system.heap.mem L)
  (change : Change h system.heap own chains (system.pc τ) pc' σ' own' chains')
include races shares

theorem ownedKept (mine : o ∈ owned h υ)
    (change : Change h system.heap own chains pc pc' σ' own' chains')
    (still : ∀ p, Leaving p pc → p ≠ o) {i : Nat} (inside : i < usableOf o.size) :
    σ'.mem (o.ptr + i) = system.heap.mem (o.ptr + i) :=
  changeMem races (shares.known υ o mine) (ownedHeld races shares mine) change still
    (insideIndex inside)

include lies

theorem localHeld {p : Nat} (here : L p = some c) :
    ∃ o ∈ owned h τ, o.ptr = p ∧ Lies system.heap.mem o c ∧ Held own o.ptr o.size := by
  obtain ⟨o, mine, place, at'⟩ := lies p c here
  exact ⟨o, mine, place, at', ownedHeld races shares mine⟩

include change

theorem gotAdvanced {size ptr : Nat} {next : Nat → Calls Nat} (allowed : Allowed K t)
    (under : Under op (system.pc τ)) (safe : Locally (.call op next) g L (Done K t))
    (got : pc' = .got size ptr) :
    ∃ L', Attended K (keeps (owned h τ) (system.pc τ) pc') σ'.mem pc' (some (t, .call op next)) L' := by
  obtain ⟨held, apart, _⟩ := servedHeld (o := ⟨ptr, size⟩) change races got
  have inv' := changeInv races.inv change
  subst got
  obtain ⟨rfl, stays, added⟩ := underGot change under
  have fresh : L ptr = none := by
    cases here : L ptr with
    | none => rfl
    | some c =>
      obtain ⟨o, mine, same, _⟩ := lies ptr c here
      have off := apart o (races.fates o (shares.known τ o mine)) _ (spansSelf ptr size)
      exact absurd (same ▸ spansSelf o.ptr o.size) off
  have short : size < 2 ^ 63 := by
    cases safe.1 with
    | xxmalloc short => exact short
  have enough : size ≤ usableOf size :=
    Capacity.heldEnough size fun _ => by rw [bigPages, wrapSmall (by omega)]
  obtain ⟨aligned, top⟩ := Capacity.heldAligned inv' held
  have gives : Gives L (.xxmalloc size) ptr (L.put ptr (.blank size)) :=
    .xxmalloc (heldAddress (o := ⟨ptr, size⟩) inv' held) aligned
      (Nat.lt_of_le_of_lt (Nat.add_le_add_left enough ptr) top) fresh
  refine ⟨_, ?_, .answered allowed .xxmalloc (safe.2 (.xxmalloc size, ptr) _ ptr gives rfl)⟩
  rw [added]
  refine localPut (o := ⟨ptr, size⟩) (localKept lies fun o mine c here => ?_) List.mem_cons_self
    ⟨enough, fun i v known => by cases known⟩
  exact ⟨List.mem_cons_of_mem _ mine, fun i inside =>
    ownedKept races shares mine change (fun p leaving => absurd leaving (stays p)) inside⟩

theorem stillAdvanced (same : ∀ objects, keeps objects (system.pc τ) pc' = objects)
    (stays : ∀ p, ¬ Leaving p (system.pc τ)) (stands : Stands K L pc' job) :
    ∃ L', Attended K (keeps (owned h τ) (system.pc τ) pc') σ'.mem pc' job L' := by
  rw [same]
  refine ⟨L, localKept lies fun o mine c here => ⟨mine, fun i inside => ?_⟩, stands⟩
  exact ownedKept races shares mine change (fun p leaving => absurd leaving (stays p)) inside

theorem freedAdvanced {next : Nat → Calls Nat} (allowed : Allowed K t)
    (under : Under op (system.pc τ)) (safe : Locally (.call op next) g L (Done K t))
    (leaving : Leaving o (system.pc τ)) (freed : pc' = .freed) (held : Held own o.ptr o.size) :
    ∃ L', Attended K (keeps (owned h τ) (system.pc τ) pc') σ'.mem pc' (some (t, .call op next)) L' := by
  subst freed
  obtain ⟨rfl, left⟩ : op = .xxfree o.ptr ∧ ∀ objects, keeps objects (system.pc τ) .freed =
      objects.filter fun p => p.ptr ≠ o.ptr := by
    generalize system.pc τ = pc at leaving under
    cases leaving <;> cases under <;> rename_i here <;> cases here <;> exact ⟨rfl, fun _ => rfl⟩
  obtain ⟨c, mine⟩ := permitsFree safe.1 (heldAddress races.inv held)
  refine ⟨_, ?_, .answered allowed .xxfree (safe.2 (.xxfree o.ptr, 0) _ 0 (.xxfree mine) rfl)⟩
  rw [left]
  refine localKept (localDrop lies) fun p there c here => ?_
  have other : p.ptr ≠ o.ptr := by
    intro same
    rw [same, dropSelf] at here
    cases here
  refine ⟨List.mem_filter.mpr ⟨there, decide_eq_true other⟩, fun i inside => ?_⟩
  refine ownedKept races shares there change (fun q leaves same => other ?_) inside
  subst same
  exact Option.some.inj ((leavingNamed leaves).symm.trans (leavingNamed leaving))

omit change in
theorem answeredAdvanced {next : Nat → Calls Nat} {ptr n : Nat} {heap : State}
    (allowed : Allowed K t) (under : Under op (system.pc τ))
    (safe : Locally (.call op next) g L (Done K t)) (reliable : Reliable pid k)
    (named : (system.pc τ).named = some ptr) (query : before (system.pc τ) = some (.usableSize ptr))
    (call : Threads.next k (system.pc τ) system.heap = .ok (.answered n) heap) :
    ∃ L', Attended K (owned h τ) system.heap.mem (.answered n) (some (t, .call op next)) L' := by
  obtain ⟨o, mine, rfl⟩ := shares.named τ ptr named
  have held := ownedHeld races shares mine
  obtain ⟨heap', course⟩ := callRuns races (shares.known τ o mine) held reliable named
  rw [course] at call
  obtain rfl := courseAnswer query (EStateM.Result.ok.inj call).1
  obtain rfl : op = .usableSize o.ptr := by
    generalize system.pc τ = pc at under query
    cases under with
    | call here => exact Option.some.inj (here.symm.trans query)
    | magic | count => cases query
  obtain ⟨c, here⟩ := permitsSize safe.1 (heldAddress races.inv held)
  obtain ⟨p, mine', same, at', _⟩ := localHeld races shares lies here
  obtain rfl := samePointer races (shares.known τ o mine) (shares.known τ p mine') same
  have top := (Capacity.heldAligned races.inv held).2
  have gives : Gives L (.usableSize p.ptr) (usableOf p.size)
      (L.put p.ptr { c with size := usableOf p.size }) := .usableSize here at'.room top
  exact ⟨L.put p.ptr { c with size := usableOf p.size }, localPut lies mine ⟨Nat.le_refl _, at'.bytes⟩,
    .answered allowed .usableSize (safe.2 (.usableSize p.ptr, usableOf p.size) _ _ gives rfl)⟩

theorem callAdvanced {next : Nat → Calls Nat} (allowed : Allowed K t)
    (under : Under op (system.pc τ)) (safe : Locally (.call op next) g L (Done K t))
    (reliable : Reliable pid k) (call : Threads.next k (system.pc τ) system.heap = .ok pc' σ') :
    ∃ L', Attended K (keeps (owned h τ) (system.pc τ) pc') σ'.mem pc' (some (t, .call op next)) L' := by
  have step := change
  have stays := fun (stands : Stands K L pc' (some (t, .call op next))) same still =>
    stillAdvanced races shares lies change same still stands
  generalize at' : system.pc τ = pc at change under stays
  cases change with
  | serve small grant => exact at' ▸ gotAdvanced races shares lies step allowed (at' ▸ under) safe rfl
  | map big fits room =>
    exact stays (.calling allowed (underMapped under) safe) (fun _ => rfl) fun p leaving => by
      cases leaving
  | header here writes =>
    cases writes with
    | count => exact at' ▸ gotAdvanced races shares lies step allowed (at' ▸ under) safe rfl
    | magic =>
      exact stays (.calling allowed (underMarked under) safe) (fun _ => rfl) fun p leaving => by
        cases leaving
  | release known leaving held release =>
    subst at'
    exact freedAdvanced races shares lies step allowed under safe leaving rfl held
  | @stale o start objSize mappings calls known big dead =>
    have leaving : Leaving o (system.pc τ) := at' ▸ .unmapping big
    obtain ⟨p, mine, same⟩ := shares.named τ _ (leavingNamed leaving)
    obtain rfl := samePointer races known (shares.known τ p mine) same
    obtain ⟨use, busy, _⟩ := heldBusy races.inv (ownedHeld races shares mine)
    rw [(dead _ (spansSelf _ _)).1] at busy
    cases busy
  | look looks fits =>
    have named : pc.named ≠ some 0 := by
      intro zero
      obtain ⟨o, mine, place⟩ := shares.named τ 0 (at' ▸ zero)
      exact heldAddress races.inv (ownedHeld races shares mine) place
    have same : (∀ objects, keeps objects pc pc' = objects) ∧ ∀ p, ¬ Leaving p pc := by
      cases looks <;> exact ⟨fun _ => rfl, fun p leaving => by cases leaving⟩
    rcases looksCases (τ := τ) looks named with ⟨ptr, n, there, rfl, query, _⟩ | ⟨_, kept, _⟩
    · subst at'
      rw [same.1]
      exact answeredAdvanced races shares lies allowed under safe reliable there query call
    · refine stays (.calling allowed ?_ safe) same.1 same.2
      cases under with
      | call here => exact .call (kept.trans here)
      | magic | count => cases looks

end

theorem standsBetween (stands : Stands K L pc none) : pc = .idle ∧ ∃ g, Knows K g L := by
  cases stands with
  | between knows => exact ⟨rfl, _, knows⟩

theorem standsReady {x : Calls Nat} (stands : Stands K L .idle (some (t, x))) :
    Allowed K t ∧ ∃ g, Locally x g L (Done K t) := by
  cases stands with
  | ready allowed safe => exact ⟨allowed, _, safe⟩
  | calling _ under =>
    cases under with
    | call here => cases here
  | answered _ replies => cases replies

theorem standsDone (stands : Stands K L pc (some (t, .done v))) : pc = .idle ∧ ∃ g, Done K t v g L := by
  cases stands with
  | ready _ safe => exact ⟨rfl, _, safe⟩

theorem underRuns (under : Under op pc) : ¬ pc.Final := by
  cases under with
  | call here => cases pc <;> first | exact id | cases here
  | magic | count => exact id

theorem standsOver {next : Nat → Calls Nat} (stands : Stands K L pc (some (t, .call op next)))
    (finished : pc.Final) (reply : answer pc = some v) :
    Allowed K t ∧ ∃ g, Locally (next v) g L (Done K t) := by
  cases stands with
  | ready => cases reply
  | calling _ under => exact absurd finished (underRuns under)
  | answered allowed replies safe => cases replies <;> cases reply <;> exact ⟨allowed, _, safe⟩

theorem standsReplies (stands : Stands K L pc job) (finished : pc.Final) (busy : pc ≠ .idle) :
    ∃ t op next v, job = some (t, .call op next) ∧ answer pc = some v := by
  cases stands with
  | between | ready => exact absurd rfl busy
  | calling _ under => exact absurd finished (underRuns under)
  | answered _ replies => cases replies <;> exact ⟨_, _, _, _, rfl, rfl⟩

theorem standsRuns (stands : Stands K L pc job) (running : ¬ pc.Final) : ∃ t op next g,
    job = some (t, .call op next) ∧ Allowed K t ∧ Under op pc ∧
      Locally (.call op next) g L (Done K t) := by
  cases stands with
  | between | ready => exact absurd trivial running
  | calling allowed under safe => exact ⟨_, _, _, _, rfl, allowed, under, safe⟩
  | answered _ replies => cases replies <;> exact absurd trivial running

structure Accessed (pid : Nat) (h : Threads.History) (system : System) (τ : Nat) (k : Kernel)
    (L : Objects) (op : Op) (v : Nat) (heap : State) (L' : Objects) : Prop where
  call : exec k op system.heap = .ok v heap
  gives : Gives L op v L'
  lies : Local (owned h τ) heap.mem L'
  others : ∀ υ ≠ τ, ∀ o ∈ owned h υ, ∀ i < usableOf o.size,
    heap.mem (o.ptr + i) = system.heap.mem (o.ptr + i)
  below : ∃ h', Threads.Run pid Owning Within h' { system with heap := heap } ∧
    (∀ υ, owned h' υ = owned h υ) ∧ handed h' = handed h

theorem otherByte (races : Races pid h system own chains) (shares : Shares h system) {q : Object}
    (left : o ∈ owned h τ) (right : q ∈ owned h υ) (other : o ≠ q) {i j : Nat}
    (inside : i < usableOf o.size) (within : j < usableOf q.size) : o.ptr + i ≠ q.ptr + j := by
  intro same
  have here := insideSpans races.inv (ownedHeld races shares left) (insideIndex inside)
  have there := insideSpans races.inv (ownedHeld races shares right) (insideIndex within)
  exact other (apartSame races.apart (shares.known τ o left) (shares.known υ q right) here (same ▸ there))

section
variable (run : Threads.Run pid Owning Within h system) (races : Races pid h system own chains)
  (shares : Shares h system) (lies : Local (owned h τ) system.heap.mem L)
include run lies

theorem quietAccessed (call : exec k op system.heap = .ok v system.heap) (gives : Gives L op v L) :
    Accessed pid h system τ k L op v system.heap L :=
  ⟨call, gives, lies, fun _ _ _ _ _ _ => rfl, h, run, fun _ => rfl, rfl⟩

include races shares

theorem loadAccessed {s i j : Nat} (here : L p = some c) (place : s + i = p + j) (inside : j < c.size) :
    ∃ v, Accessed pid h system τ k L (.load s i) v system.heap L := by
  obtain ⟨o, mine, rfl, at', held⟩ := localHeld races shares lies here
  obtain ⟨w, there⟩ := Option.ne_none_iff_exists'.mp (insideMapped races.inv held
    (insideIndex (Nat.lt_of_lt_of_le inside at'.room)))
  rw [← place] at there
  refine ⟨w.toNat, quietAccessed run lies (readWordOk (by simp [load, there])) (.load ?_)⟩
  intro q d x byte here place _ known
  obtain ⟨p, _, rfl, at'⟩ := lies q d here
  rw [place, (at'.bytes x byte known).2] at there
  cases there
  rfl

theorem storeAccessed (ready : system.pc τ = .idle) {i : Nat} {byte : UInt8} (here : L p = some c)
    (inside : i < c.size) :
    ∃ heap, Accessed pid h system τ k L (.store p i byte) 0 heap (L.put p (c.set i byte)) := by
  obtain ⟨o, mine, rfl, at', held⟩ := localHeld races shares lies here
  have within : i < usableOf o.size := Nat.lt_of_lt_of_le inside at'.room
  have mapped : Mapped system.heap.mem (o.ptr + i) 1 := fun x low => by
    rw [show o.ptr + i + x = o.ptr + i by omega]
    exact insideMapped races.inv held (insideIndex within)
  have call := writeWordOk mapped byte.toNat
  have far : ∀ υ, ∀ q ∈ owned h υ, q ≠ o → ∀ j < usableOf q.size,
      (wrote (o.ptr + i) 1 byte.toNat system.heap).mem (q.ptr + j) = system.heap.mem (q.ptr + j) := by
    intro υ q theirs other j low
    have := otherByte races shares theirs mine other low within
    exact writeOut (by omega)
  refine ⟨_, bindOk call, .store here inside, ?_, fun υ other q theirs => far υ q theirs ?_,
    _, .next run (.stored ready (.store mine within) call), fun υ => rfl, rfl⟩
  · intro q d there
    by_cases self : q = o.ptr
    · subst self
      rw [putSelf] at there
      cases there
      refine ⟨o, mine, rfl, at'.room, fun x v known => ?_⟩
      by_cases index : x = i
      · subst index
        have same : byte = v := by simpa [Cells.set] using known
        subst same
        exact ⟨within, (writeIn (by omega)).trans (by simp [byteOf])⟩
      · obtain ⟨low, old⟩ := at'.bytes x v (by simpa [Cells.set, index] using known)
        exact ⟨low, (writeOut (by omega)).trans old⟩
    · rw [putOther self] at there
      obtain ⟨q, theirs, rfl, room, bytes⟩ := lies _ d there
      refine ⟨q, theirs, rfl, room, fun x v known => ?_⟩
      obtain ⟨low, old⟩ := bytes x v known
      exact ⟨low, (far τ q theirs (fun same => self (congrArg Object.ptr same)) x low).trans old⟩
  · rintro rfl
    exact other (shares.sole υ τ q theirs mine)

theorem briefAccessed (ready : system.pc τ = .idle) (permits : Permits L op) (brief : Brief op)
    (reliable : Reliable pid k) : ∃ v heap L', Accessed pid h system τ k L op v heap L' := by
  cases permits with
  | xxmalloc => exact brief.elim
  | xxfree mine =>
    obtain ⟨o, _, rfl, _, held⟩ := localHeld races shares lies mine
    exact absurd brief (heldAddress races.inv held)
  | freeNull =>
    have none : xxfree k 0 system.heap = .ok () system.heap := by
      rw [xxfree, bindOk (ensureInitRun (races.par.trans reliable.1.symm)), if_pos rfl]
      rfl
    exact ⟨0, _, _, quietAccessed run lies (bindOk none) .freeNull⟩
  | usableSize mine =>
    obtain ⟨o, _, rfl, _, held⟩ := localHeld races shares lies mine
    exact absurd brief (heldAddress races.inv held)
  | usableNull =>
    refine ⟨0, _, _, quietAccessed run lies ?_ .usableNull⟩
    rw [exec, xxmallocUsableSize, if_pos rfl]
    rfl
  | load mine place inside =>
    obtain ⟨v, accessed⟩ := loadAccessed (k := k) run races shares lies mine place inside
    exact ⟨v, _, _, accessed⟩
  | store mine inside =>
    obtain ⟨heap, accessed⟩ := storeAccessed (k := k) run races shares lies ready mine inside
    exact ⟨0, heap, _, accessed⟩

end

theorem attendedKept (there : ∃ L, Attended K objects m pc job L)
    (same : ∀ o ∈ objects, ∀ i < usableOf o.size, m' (o.ptr + i) = m (o.ptr + i)) :
    ∃ L, Attended K objects m' pc job L := by
  obtain ⟨L, lies, stands⟩ := there
  exact ⟨L, localKept lies fun o mine c here => ⟨mine, same o mine⟩, stands⟩

theorem localPlaced (races : Races pid h system own chains) (shares : Shares h system)
    (lies : Local (owned h τ) system.heap.mem L) : Placed L := by
  intro p c here
  obtain ⟨o, _, rfl, at', held⟩ := localHeld races shares lies here
  obtain ⟨aligned, top⟩ := Capacity.heldAligned races.inv held
  exact ⟨heldAddress races.inv held, aligned,
    Nat.lt_of_le_of_lt (Nat.add_le_add_left at'.room o.ptr) top⟩

theorem reservedKept (reserved : Reserved h τ K) (grows : ∀ o ∈ handed h, o ∈ handed h')
    (old : ∀ υ, ∀ o ∈ handed h, o ∈ owned h' υ → o ∈ owned h υ) : Reserved h' τ K := by
  intro q here
  obtain ⟨o, known, at', only⟩ := reserved q here
  exact ⟨o, grows o known, at', fun υ mine => only υ (old υ o known mine)⟩

theorem reservedLocal (shares : Shares h system) (lies : Local (owned h τ) m K) : Reserved h τ K := by
  intro q here
  obtain ⟨c, there⟩ := Option.ne_none_iff_exists'.mp here
  obtain ⟨o, mine, at', _⟩ := lies q c there
  exact ⟨o, shares.known τ o mine, at', fun υ theirs => shares.sole υ τ o theirs mine⟩

theorem reservedAdvanced (races : Races pid h system own chains) (reserved : Reserved h υ K)
    (change : Threads.Change h system.heap own chains (system.pc τ) pc' σ' own' chains') :
    Reserved (.advanced τ (system.pc τ) pc' :: h) υ K := by
  refine reservedKept reserved (handedGrows races change) fun φ o known member => ?_
  rcases ownedBefore change member with ⟨old, _⟩ | ⟨_, new⟩
  · exact old
  · have off := (servedHeld change races new).2.1 o (races.fates o known) _ (spansSelf _ _)
    exact absurd (spansSelf _ _) off

end Nuaf.Clients
