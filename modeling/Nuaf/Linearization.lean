import Nuaf.Library.Simulation
import Nuaf.ByteArrays
import Nuaf.Effects
import Nuaf.SharedHeap

/-! Threads that use only what they hold run as one after the other. Each call takes effect in one
of its steps; the calls in the order of these steps are a sequential run, with the same answers
and, but for the header words still to be written, the same memory. -/
namespace Nuaf.Linearization
open Layout ByteMemory Machine Source Heap Threads SharedHeap DoubleFree
open Nuaf.Sequential (Op live Sound reliably)

/- The step in which a call takes effect, as the sequential call with its answer: under the lock
for xxmalloc and small xxfree, at the munmap for a large one, at the last header read. -/
def effect : Threads.Event → Option (Op × Nat)
  | .advanced _ (.malloc size) (.got _ ptr) => some (.xxmalloc size, ptr)
  | .advanced _ (.malloc size) (.magic _ shadow) => some (.xxmalloc size, shadow + 16)
  | .advanced _ (.moving ptr _) .freed => some (.xxfree ptr, 0)
  | .advanced _ (.unmapping ptr _ _) .freed => some (.xxfree ptr, 0)
  | .advanced _ (.query ptr) (.answered size) => some (.usableSize ptr, size)
  | .advanced _ (.pages false ptr _) (.answered size) => some (.usableSize ptr, size)
  | _ => none

inductive Point (e : Threads.Event) (d : Sequential.Event) : Prop where
  | call {op v} (takes : effect e = some (op, v)) (asked : d.op = op) (replied : d.reply = .value v)
  | store {τ ptr index byte} (stored : e = .stored τ (ptr + index))
      (asked : d.op = .store ptr index byte) (replied : d.reply = .value 0)

def asked (τ : Nat) : Threads.History → Pc
  | [] => .idle
  | .called υ pc :: h => if υ = τ then pc else asked τ h
  | _ :: h => asked τ h

def effects (τ : Nat) : Threads.History → List (Op × Nat)
  | [] => []
  | .called υ _ :: h => if υ = τ then [] else effects τ h
  | .advanced υ before after :: h =>
    if υ = τ then (effect (.advanced υ before after)).toList ++ effects τ h else effects τ h
  | _ :: h => effects τ h

def request : Pc → Option Op
  | .malloc size => some (.xxmalloc size)
  | .free ptr => some (.xxfree ptr)
  | .query ptr => some (.usableSize ptr)
  | _ => none

def before : Pc → Option Op
  | .malloc size => some (.xxmalloc size)
  | .free ptr | .scan true ptr _ | .pages true ptr _ => some (.xxfree ptr)
  | .rescan ptr _ _ | .unmapping ptr _ _ | .moving ptr _ => some (.xxfree ptr)
  | .query ptr | .scan false ptr _ | .pages false ptr _ => some (.usableSize ptr)
  | _ => none

def answer : Pc → Option Nat
  | .magic _ shadow | .count _ shadow => some (shadow + 16)
  | .got _ ptr => some ptr
  | .freed => some 0
  | .answered size => some size
  | _ => none

inductive OneEffect (h : Threads.History) (τ : Nat) (pc : Pc) : Prop where
  | idle (none : pc = .idle)
  | pending {op} (call : request (asked τ h) = some op) (here : before pc = some op)
      (none : effects τ h = [])
  | done {op v} (call : request (asked τ h) = some op) (here : answer pc = some v)
      (one : effects τ h = [(op, v)])

def Unfinished (s : System) (a : Nat) : Prop :=
  ∃ τ shadow, (s.pc τ).pending = some shadow ∧ shadow ≤ a ∧ a < shadow + 16

/- The state after the calls that took effect: the threads' heap, with every header word that is
still to be written in place. num_mappings is left out: the code counts it under either mutex or
none, and two threads may lose an update. -/
structure Completes (s : System) (σ : State) : Prop where
  globals : ∃ m n calls, σ = { s.heap with mem := m, numMappings := n, calls := calls }
  same : ∀ a, ¬ Unfinished s a → σ.mem a = s.heap.mem a

structure Follows (h : Threads.History) (s : System) (l : Sequential.History) (σ : State) :
    Prop where
  completes : Completes s σ
  owned : ∀ τ o, Claims h s τ o → ∃ b ∈ live l, b.ptr = o.ptr ∧ b.size = o.size
  effects : ∀ τ, OneEffect h τ (s.pc τ)

def completed (d : Sequential.Event) : Option (Op × Nat) :=
  match d.op, d.reply with
  | .load _ _, _ | .store _ _ _, _ | _, .fault _ => none
  | op, .value v => some (op, v)

structure Linearized (h : Threads.History) (s : System) (l : Sequential.History) (σ : State) :
    Prop where
  reads : Simulation.Reads Point h l
  order : h.filterMap effect = l.filterMap completed
  follows : Follows h s l σ
  bytes : ∀ τ, ∀ o ∈ owned h τ, ∀ i byte,
    Sequential.arrays l o.ptr i = some byte → s.heap.mem (o.ptr + i) = some byte
  quiet : (∀ τ, (s.pc τ).pending = none) →
    ∃ n calls, σ = { s.heap with numMappings := n, calls := calls }

variable {pid : Nat} {h : Threads.History} {s s' : System} {l : Sequential.History} {σ σ' : State}
  {own own' : Owner} {chains chains' : Chains} {k : Kernel} {e : Threads.Event} {pc : Pc}
  {o : Object} {τ υ a size : Nat}

theorem silent (none : effect e = none) (other : ∀ τ a, e ≠ .stored τ a) : ∀ d, ¬ Point e d := by
  intro d at'
  cases at' with
  | call takes => simp [none] at takes
  | store stored => exact other _ _ stored

theorem unfinishedOwner (races : Races pid h s own chains) (mine : Unfinished s a) :
    ∃ first count written, own (a / pageSize) = some (.big first count written) ∧ written < 2 := by
  obtain ⟨τ, shadow, pending, low, high⟩ := mine
  obtain ⟨size, stage, at', early⟩ := fitsPending (races.fits τ) pending
  have page : a / pageSize = shadow / pageSize := by
    have := at'.aligned
    simp only [pageSize] at *
    omega
  exact ⟨_, _, _, page ▸ at'.owned, early⟩

theorem finishedSmall (races : Races pid h s own chains) {t offset : Nat} {free : Bool}
    (owned : own (a / pageSize) = some (.small t offset free)) : ¬ Unfinished s a := by
  intro mine
  obtain ⟨first, count, written, there, _⟩ := unfinishedOwner races mine
  rw [owned] at there
  cases there

theorem finishedHeld (races : Races pid h s own chains) (held : Held own o.ptr o.size)
    (inside : Inside o.ptr o.size a) : ¬ Unfinished s a := by
  intro mine
  obtain ⟨first, count, written, there, early⟩ := unfinishedOwner races mine
  rw [(heldSpans races.inv held (insideSpans races.inv held inside)).1] at there
  rcases Nat.lt_or_ge largestBlockSize o.size with big | small
  · rw [((heldBig big).mp held).1] at there
    simp only [Option.some.injEq, Use.big.injEq] at there
    omega
  · rw [(heldSmall small).mp held] at there
    cases there

theorem unfinishedGoto (same : pc.pending = (s.pc τ).pending) :
    Unfinished (s.goto τ pc) a ↔ Unfinished s a := by
  have threads : ∀ υ, ((s.goto τ pc).pc υ).pending = (s.pc υ).pending := by
    intro υ
    by_cases self : υ = τ
    · subst self
      rw [gotoSelf, same]
    · rw [gotoOther s pc self]
  simp only [Unfinished, threads]

abbrev withMem (heap : State) (m : Memory) (n : Nat) (calls : List Call) : State :=
  { heap with mem := m, numMappings := n, calls := calls }

def Mirrors (run : AllocM Nat) (v : Nat) (heap heap' : State) (m : Memory) (n : Nat) : Prop :=
  ∃ m' n' calls', run (withMem heap m n []) = .ok v (withMem heap' m' n' calls') ∧
    ∀ a, m a = heap.mem a → m' a = heap'.mem a

section
variable {heap heap' : State} {m : Memory} {n p v : Nat} (inv : Inv heap own chains)
include inv

theorem popMirrors (small : size ≤ largestBlockSize)
    (links : ∀ a t offset, own (a / pageSize) = some (.small t offset true) → m a = heap.mem a)
    (call : freelistPop k size heap = .ok p heap') : Mirrors (freelistPop k size) p heap heap' m n := by
  have cls := blockTypeLt small
  rcases topCases inv cls with ⟨empty, _⟩ | ⟨rest, link, real, full, read⟩
  · rw [popEmpty cls empty] at call
    obtain ⟨grants, started, room, file, rfl, rfl⟩ := carveInv call
    have pops := popEmpty (k := k) (σ := withMem heap m n []) cls empty
    rw [carveRun (σ := withMem heap m n []) grants started room file] at pops
    exact ⟨_, _, _, pops, fun a same => writeCongr (mapZeroCongr same _ _) _ _ _⟩
  · rw [popRun cls real read] at call
    cases call
    have free := (inv.chained _ cls _).mp (by rw [full]; exact List.mem_cons_self)
    have inside := slotCases (inv.small free).slot
    have there : load m (heap.gFlsts (blockType size)).topOfStack 8 = some link := by
      refine (loadCongr fun i hi => links _ _ _ (Eq.trans (congrArg own ?_) free)).trans read
      simp only [pageSize] at *
      omega
    exact ⟨m, n, [], popRun (σ := withMem heap m n []) cls real there, fun a same => same⟩

theorem mallocMirrors (par : heap.parPs = k.pid) (small : size ≤ largestBlockSize)
    (links : ∀ a t offset, own (a / pageSize) = some (.small t offset true) → m a = heap.mem a)
    (call : next k (.malloc size) heap = .ok (.got size p) heap') :
    Mirrors (Sequential.exec k (.xxmalloc size)) p heap heap' m n := by
  rw [next, bindOk (ensureInitRun par), if_neg (Nat.not_lt.mpr small)] at call
  obtain ⟨q, τ, pops, last⟩ := bindInv call
  cases last
  obtain ⟨m', n', calls', done, same⟩ := popMirrors inv small links pops
  refine ⟨m', n', calls', ?_, same⟩
  rw [Sequential.exec, xxmalloc, bindOk (ensureInitRun (σ := withMem heap m n []) par),
    if_neg (Nat.not_lt.mpr small), done]

omit inv in
theorem mapMirrors (par : heap.parPs = k.pid) (grants : k.mmapGrants = true)
    (big : largestBlockSize < size) (fits : bigPages size * pageSize < 2 ^ 64)
    (room : heap.largeObjNextPage + bigPages size * pageSize ≤ taskSize) :
    ∃ m' n' calls', Sequential.exec k (.xxmalloc size) (withMem heap m n []) =
        .ok (heap.largeObjNextPage + 16) (withMem (bigMapped (bigPages size) heap) m' n' calls') ∧
      ∀ a, ¬ (heap.largeObjNextPage ≤ a ∧ a < heap.largeObjNextPage + 16) → m a = heap.mem a →
        m' a = (bigMapped (bigPages size) heap).mem a := by
  have maps := xxmallocBigRun (σ := withMem heap m n []) fits room grants
  refine ⟨(bigDone (bigPages size) (withMem heap m n [])).mem, wrap (n + 1),
    (bigDone (bigPages size) (withMem heap m n [])).calls, ?_, fun a out same => ?_⟩
  · rw [Sequential.exec, xxmalloc, bindOk (ensureInitRun (σ := withMem heap m n []) par), if_pos big]
    exact maps
  · refine (writeOut ?_).trans ((writeOut ?_).trans (mapZeroCongr same _ _)) <;> dsimp only <;> omega

end

theorem recycles {ptr : Nat} (inv : Inv σ own chains) (reliable : Reliable pid k)
    (small : size ≤ largestBlockSize) (held : Held own ptr size) :
    ∃ calls, freeSmall k ptr σ = .ok () (recycled (blockType size) ptr calls σ) := by
  obtain ⟨mapped, header, inside, cls⟩ := slotPage inv ((heldSmall small).mp held)
  obtain ⟨earlier, done, _⟩ := freeSmallRun cls mapped header inside inv.highAligned (taskRoom inv)
    (reliableFirst reliable) (by decide)
  exact ⟨_, done⟩

theorem releaseMirrors {heap heap' : State} {m : Memory} {n ptr : Nat} {above : Owner}
    {links : Chains} (inv : Inv (withMem heap m n []) above links) (reliable : Reliable pid k)
    (par : heap.parPs = k.pid) (held : Held above ptr size)
    (source : size ≤ largestBlockSize → ∀ a, a / pageSize = ptr / pageSize → m a = heap.mem a)
    (release : Release heap own chains ptr size heap' own' chains') :
    Mirrors (Sequential.exec k (.xxfree ptr)) 0 heap heap' m n := by
  cases release with
  | small small room tries =>
    obtain ⟨calls, done⟩ := recycles inv reliable small held
    have freed : xxfree k ptr (withMem heap m n []) = .ok () _ :=
      (xxfreeHeldSmall inv par small held (insideSelf _ _)).trans done
    refine ⟨(recycled (blockType size) ptr calls (withMem heap m n [])).mem, _, calls, bindOk freed,
      fun a same => ?_⟩
    rw [recycledMem, recycledMem, roundDownPage]
    refine writeCongr (moveCongr same fun i hi => source small _ ?_) _ _ _
    simp only [pageSize] at *
    omega
  | large big =>
    exact ⟨_, _, _, bindOk (xxfreeHeldBig inv par big held (insideSelf _ _) (cleanSelf _ _)),
      fun _ same => unmapCongr same _ _⟩

theorem effectsGoto {τ : Nat} (ones : ∀ υ, OneEffect h υ (s.pc υ)) (mine : OneEffect (e :: h) τ pc)
    (others : ∀ υ, υ ≠ τ → asked υ (e :: h) = asked υ h ∧ effects υ (e :: h) = effects υ h)
    (υ : Nat) : OneEffect (e :: h) υ ((s.goto τ pc).pc υ) := by
  by_cases self : υ = τ
  · subst self
    rwa [gotoSelf]
  · obtain ⟨call, made⟩ := others υ self
    rw [gotoOther s pc self]
    cases ones υ with
    | idle none => exact .idle none
    | pending call' here none => exact .pending (call ▸ call') here (made.trans none)
    | done call' here one => exact .done (call ▸ call') here (made.trans one)

theorem beforeAnswer {op : Op} (here : before pc = some op) : answer pc = none := by
  cases pc <;> first | rfl | cases here

section
variable {pc' : Pc} {op : Op} {v : Nat} (one : OneEffect h τ pc)
include one

theorem oneTakes (here : before pc = some op)
    (takes : effect (.advanced τ pc pc') = some (op, v)) (gives : answer pc' = some v) :
    OneEffect (.advanced τ pc pc' :: h) τ pc' := by
  cases one with
  | idle none =>
    subst none
    cases here
  | pending call here' none =>
    cases Option.some.inj (here.symm.trans here')
    exact .done call gives (by rw [effects, if_pos rfl, takes, none]; rfl)
  | done call here' one =>
    rw [beforeAnswer here] at here'
    cases here'

theorem oneStays (running : ¬ pc.Final) (none : effect (.advanced τ pc pc') = none)
    (same : before pc' = before pc) (same' : answer pc' = answer pc) :
    OneEffect (.advanced τ pc pc' :: h) τ pc' := by
  have quiet : effects τ (.advanced τ pc pc' :: h) = effects τ h := by
    rw [effects, if_pos rfl, none]
    rfl
  cases one with
  | idle none =>
    subst none
    exact absurd trivial running
  | pending call here none => exact .pending call (same.trans here) (quiet.trans none)
  | done call here one => exact .done call (same'.trans here) (quiet.trans one)

end

theorem claimsAdvance {pc' : Pc} {heap' : State}
    (change : Change h s.heap own chains (s.pc τ) pc' heap' own' chains')
    (claim : Claims (.advanced τ (s.pc τ) pc' :: h) { s.goto τ pc' with heap := heap' } υ o) :
    (Claims h s υ o ∧ (υ = τ → ∀ p, Leaving p (s.pc τ) → o.ptr ≠ p.ptr)) ∨
      effect (.advanced τ (s.pc τ) pc') = some (.xxmalloc o.size, o.ptr) := by
  cases claim with
  | held mine =>
    rcases ownedBefore change mine with ⟨old, kept⟩ | ⟨rfl, new⟩
    · exact .inl ⟨.held old, kept⟩
    · obtain ⟨ptr, size⟩ := o
      subst new
      generalize at' : s.pc υ = pc at change
      cases change with
      | serve small grant => exact .inr rfl
      | header at'' writes =>
        cases writes with
        | count => exact .inl ⟨.making (.inr at'), fun _ p leaving => by cases leaving⟩
      | look looks fits => cases looks
  | @making size shadow there =>
    by_cases self : υ = τ
    · subst self
      rw [gotoSelf] at there
      generalize at' : s.pc υ = pc at change
      cases change with
      | serve small grant => rcases there with there | there <;> cases there
      | map big fits room =>
        rcases there with there | there
        · cases there
          exact .inr rfl
        · cases there
      | header at'' writes =>
        cases writes with
        | magic =>
          rcases there with there | there
          · cases there
          · cases there
            exact .inl ⟨.making (.inl at'), fun _ p leaving => by cases leaving⟩
        | count => rcases there with there | there <;> cases there
      | release => rcases there with there | there <;> cases there
      | stale => rcases there with there | there <;> cases there
      | look looks fits => rcases there with rfl | rfl <;> cases looks
    · rw [gotoOther s pc' self] at there
      exact .inl ⟨.making there, fun same => absurd same self⟩

theorem completesOver {heap' : State} {m m' : Memory} {n' : Nat} {calls' : List Call}
    (agree : ∀ a, ¬ Unfinished s a → m a = s.heap.mem a)
    (same : ∀ a, m a = s.heap.mem a → m' a = heap'.mem a)
    (pending : pc.pending = (s.pc τ).pending) :
    Completes { s.goto τ pc with heap := heap' } (withMem heap' m' n' calls') :=
  ⟨⟨m', n', calls', rfl⟩, fun a done => same a (agree a (mt (unfinishedGoto pending).mpr done))⟩

def Stays (e : Threads.Event) (h : Threads.History) (s' : System) (l : Sequential.History)
    (σ : State) : Prop := (∀ d, ¬ Point e d) ∧ Follows (e :: h) s' l σ

def Takes (pid : Nat) (e : Threads.Event) (h : Threads.History) (s' : System)
    (l : Sequential.History) (σ : State) : Prop :=
  ∃ d σ', Point e d ∧ Sequential.Step (reliably pid) Within l σ d σ' ∧ Follows (e :: h) s' (d :: l) σ'

section
variable {pc' : Pc} {heap' : State} {op : Op} {v : Nat} (follows : Follows h s l σ)
include follows

theorem followsTaken (reliable : Reliable pid k) (disciplined : Sequential.Disciplined l σ op)
    (takes : effect (.advanced τ (s.pc τ) pc') = some (op, v)) (here : before (s.pc τ) = some op)
    (gives : answer pc' = some v) (call : Sequential.exec k op σ.clear = .ok v σ')
    (limit : Within σ') (completes : Completes { s.goto τ pc' with heap := heap' } σ')
    (owned : ∀ υ o, Claims (.advanced τ (s.pc τ) pc' :: h) { s.goto τ pc' with heap := heap' } υ o →
      ∃ b ∈ live (⟨op, .value v, σ'.calls⟩ :: l), b.ptr = o.ptr ∧ b.size = o.size) :
    Takes pid (.advanced τ (s.pc τ) pc') h { s.goto τ pc' with heap := heap' } l σ := by
  refine ⟨_, _, .call takes rfl rfl, .returned ⟨reliable, disciplined⟩ call limit, completes, owned, ?_⟩
  exact effectsGoto follows.effects (oneTakes (follows.effects τ) here takes gives)
    fun υ other => ⟨rfl, by rw [effects, if_neg (Ne.symm other)]⟩

theorem followsStay (running : ¬ (s.pc τ).Final)
    (none : effect (.advanced τ (s.pc τ) pc') = none) (same : before pc' = before (s.pc τ))
    (same' : answer pc' = answer (s.pc τ))
    (completes : Completes { s.goto τ pc' with heap := heap' } σ)
    (claims : ∀ υ o, Claims (.advanced τ (s.pc τ) pc' :: h) { s.goto τ pc' with heap := heap' } υ o →
      Claims h s υ o) :
    Stays (.advanced τ (s.pc τ) pc') h { s.goto τ pc' with heap := heap' } l σ := by
  refine ⟨silent none (fun _ _ same => by cases same), completes,
    fun υ o claim => follows.owned υ o (claims υ o claim), ?_⟩
  exact effectsGoto follows.effects (oneStays (follows.effects τ) running none same same')
    fun υ other => ⟨rfl, by rw [effects, if_neg (Ne.symm other)]⟩

end

section
variable {pc' : Pc} {heap' : State} {p : Nat} {calls : List Call} {b : Sequential.Block}
  (follows : Follows h s l σ) (change : Change h s.heap own chains (s.pc τ) pc' heap' own' chains')
include follows change

theorem ownedMalloc (takes : effect (.advanced τ (s.pc τ) pc') = some (.xxmalloc size, p)) :
    ∀ υ o, Claims (.advanced τ (s.pc τ) pc' :: h) { s.goto τ pc' with heap := heap' } υ o →
      ∃ b ∈ live (⟨.xxmalloc size, .value p, calls⟩ :: l), b.ptr = o.ptr ∧ b.size = o.size := by
  intro υ o claim
  obtain ⟨b, at', served, added⟩ := @Sequential.mallocLive l size p calls
  rw [added]
  rcases claimsAdvance change claim with ⟨old, _⟩ | fresh
  · obtain ⟨c, owned, same⟩ := follows.owned υ o old
    exact ⟨c, List.mem_cons_of_mem _ owned, same⟩
  · rw [takes] at fresh
    simp only [Option.some.injEq, Prod.mk.injEq, Op.xxmalloc.injEq] at fresh
    exact ⟨b, List.mem_cons_self, at'.trans fresh.2, served.trans fresh.1⟩

theorem ownedFree (calls : List Call) (races : Races pid h s own chains) (shares : Shares h s) {v : Nat}
    (leaving : Leaving o (s.pc τ)) (mine : o ∈ owned h τ)
    (takes : effect (.advanced τ (s.pc τ) pc') = some (.xxfree o.ptr, v))
    (same : b.ptr = o.ptr) (found : (Sequential.ledger l).find b.ptr = some b) :
    ∀ υ q, Claims (.advanced τ (s.pc τ) pc' :: h) { s.goto τ pc' with heap := heap' } υ q →
      ∃ c ∈ live (⟨.xxfree b.ptr, .value v, calls⟩ :: l), c.ptr = q.ptr ∧ c.size = q.size := by
  intro υ q claim
  rcases claimsAdvance change claim with ⟨old, kept⟩ | fresh
  · obtain ⟨c, owned, at', size⟩ := follows.owned υ q old
    have differ : q.ptr ≠ o.ptr := by
      rcases claimsApart races shares old (.held mine) with ⟨self, _⟩ | apart
      · exact kept self o leaving
      · exact fun same => apart _ (spansSelf _ _) (same ▸ spansSelf _ _)
    rw [Sequential.freeLive found]
    exact ⟨c, Sequential.withoutMember.mpr ⟨owned, by rwa [at', same]⟩, at', size⟩
  · rw [takes] at fresh
    cases fresh

end

theorem heldWords {shadow : Nat} (inv : Inv σ own chains) (big : largestBlockSize < size)
    (held : Held own (shadow + 16) size) : load σ.mem shadow 8 = some largeObjStartMagic ∧
      load σ.mem (shadow + 8) 8 = some (bigPages size) := by
  obtain ⟨owned, offset⟩ := (heldBig big).mp held
  have base : pageSize * ((shadow + 16) / pageSize) = shadow := by
    simp only [pageSize] at *
    omega
  have pages := (inv.big owned).2.2
  have words := And.intro (pages.magic (by decide)) (pages.pages (by decide))
  rwa [base] at words

theorem headerSame {m n : Memory} {shadow first second : Nat}
    (left : load m shadow 8 = some first ∧ load m (shadow + 8) 8 = some second)
    (right : load n shadow 8 = some first ∧ load n (shadow + 8) 8 = some second)
    (low : shadow ≤ a) (high : a < shadow + 16) : m a = n a := by
  rcases Nat.lt_or_ge a (shadow + 8) with early | late
  · have same := loadBytes left.1 right.1 (a - shadow) (by omega)
    rwa [show shadow + (a - shadow) = a by omega] at same
  · have same := loadBytes left.2 right.2 (a - (shadow + 8)) (by omega)
    rwa [show shadow + 8 + (a - (shadow + 8)) = a by omega] at same

theorem looksCases {pc pc' : Pc} (looks : Looks pc pc') (real : pc.named ≠ some 0) :
    (∃ ptr n, pc.named = some ptr ∧ pc' = .answered n ∧ before pc = some (.usableSize ptr) ∧
      effect (.advanced τ pc pc') = some (.usableSize ptr, n)) ∨
    (effect (.advanced τ pc pc') = none ∧ before pc' = before pc ∧ answer pc' = answer pc) := by
  cases looks with
  | freeNull => exact absurd rfl real
  | query => exact .inl ⟨_, _, rfl, rfl, rfl, rfl⟩
  | answer => exact .inl ⟨_, _, rfl, rfl, rfl, rfl⟩
  | @scan freeing => cases freeing <;> exact .inr ⟨rfl, rfl, rfl⟩
  | _ => exact .inr ⟨rfl, rfl, rfl⟩

theorem courseAnswer {pc : Pc} {n ptr : Nat} (query : before pc = some (.usableSize ptr))
    (at' : course o pc = .answered n) : n = usableOf o.size := by
  cases pc with
  | query ptr =>
    rw [course] at at'
    split at at' <;> cases at'
    rfl
  | pages freeing ptr page =>
    cases freeing <;> cases query
    cases at'
    rfl
  | scan freeing => cases at'
  | _ => cases query

theorem looksPending {pc pc' : Pc} (looks : Looks pc pc') : pc'.pending = pc.pending := by
  cases looks <;> rfl

section
variable {ledgered : Owner} (races : Races pid h s own chains) (shares : Shares h s)
  (sound : Sound pid l σ ledgered) (follows : Follows h s l σ) (reliable : Reliable pid k)
include races sound follows reliable

theorem serveFollows {p : Nat} {heap' : State} (at' : s.pc τ = .malloc size)
    (small : size ≤ largestBlockSize)
    (change : Change h s.heap own chains (s.pc τ) (.got size p) heap' own' chains')
    (call : next k (s.pc τ) s.heap = .ok (.got size p) heap') (limit : Within heap') :
    Takes pid (.advanced τ (s.pc τ) (.got size p)) h { s.goto τ (.got size p) with heap := heap' }
      l σ := by
  obtain ⟨⟨m, n, calls, rfl⟩, agree⟩ := follows.completes
  rw [at'] at call
  obtain ⟨m', n', calls', done, same⟩ := mallocMirrors (m := m) (n := n) races.inv
    (races.par.trans reliable.1.symm) small (fun a t offset free => agree a (finishedSmall races free)) call
  have takes : effect (.advanced τ (s.pc τ) (.got size p)) = some (.xxmalloc size, p) := by
    rw [at']
    rfl
  exact followsTaken follows reliable (.xxmalloc size) takes (by rw [at']; rfl) rfl done limit
    (completesOver agree same (by rw [at']; rfl)) (ownedMalloc follows change takes)

theorem mapFollows {heap' : State} (at' : s.pc τ = .malloc size) (big : largestBlockSize < size)
    (fits : bigPages size * pageSize < 2 ^ 64)
    (room : s.heap.largeObjNextPage + bigPages size * pageSize ≤ taskSize)
    (change : Change h s.heap own chains (s.pc τ) (.magic size s.heap.largeObjNextPage)
      heap' own' chains') (mapped : heap' = bigMapped (bigPages size) s.heap)
    (limit : Within heap') :
    Takes pid (.advanced τ (s.pc τ) (.magic size s.heap.largeObjNextPage)) h
      { s.goto τ (.magic size s.heap.largeObjNextPage) with heap := heap' } l σ := by
  obtain ⟨⟨m, n, calls, rfl⟩, agree⟩ := follows.completes
  obtain ⟨m', n', calls', done, same⟩ := mapMirrors (m := m) (n := n) (races.par.trans reliable.1.symm)
    reliable.2.1 big fits room
  have takes : effect (.advanced τ (s.pc τ) (.magic size s.heap.largeObjNextPage)) =
      some (.xxmalloc size, s.heap.largeObjNextPage + 16) := by
    rw [at']
    rfl
  refine followsTaken follows reliable (.xxmalloc size) takes (by rw [at']; rfl) rfl done
    (mapped ▸ limit) ⟨⟨m', n', calls', by rw [mapped]⟩, fun a finished => ?_⟩
    (ownedMalloc follows change takes)
  have outside : ¬ (s.heap.largeObjNextPage ≤ a ∧ a < s.heap.largeObjNextPage + 16) := fun inside =>
    finished ⟨τ, _, by rw [gotoSelf]; rfl, inside⟩
  rw [mapped]
  refine same a outside (agree a fun mine => finished ?_)
  obtain ⟨υ, shadow, pending, inside⟩ := mine
  have other : υ ≠ τ := by
    rintro rfl
    rw [at'] at pending
    cases pending
  exact ⟨υ, shadow, by rw [gotoOther s _ other]; exact pending, inside⟩

omit races reliable in
theorem magicFollows {shadow : Nat} (at' : s.pc τ = .magic size shadow)
    (change : Change h s.heap own chains (s.pc τ) (.count size shadow)
      (wrote shadow 8 largeObjStartMagic s.heap) own' chains') :
    Stays (.advanced τ (s.pc τ) (.count size shadow)) h
      { s.goto τ (.count size shadow) with heap := wrote shadow 8 largeObjStartMagic s.heap } l σ := by
  obtain ⟨⟨m, n, calls, rfl⟩, agree⟩ := follows.completes
  have pending : (Pc.count size shadow).pending = (s.pc τ).pending := by
    rw [at']
    rfl
  refine followsStay follows (by rw [at']; exact id) (by rw [at']; rfl) (by rw [at']; rfl)
    (by rw [at']; rfl) ⟨⟨m, n, calls, rfl⟩, fun a finished => ?_⟩ fun υ o claim => ?_
  · have finished' : ¬ Unfinished s a := mt (unfinishedGoto pending).mpr finished
    refine (agree a finished').trans (writeOut fun inside => finished' ?_).symm
    exact ⟨τ, shadow, by rw [at']; rfl, inside.1, by omega⟩
  · rcases claimsAdvance change claim with old | fresh
    · exact old.1
    · rw [at'] at fresh
      cases fresh

omit reliable in
theorem countFollows {shadow : Nat} (at' : s.pc τ = .count size shadow)
    (change : Change h s.heap own chains (s.pc τ) (.got size (shadow + 16))
      (wrote (shadow + 8) 8 (bigPages size) s.heap) own' chains') :
    Stays (.advanced τ (s.pc τ) (.got size (shadow + 16))) h
      { s.goto τ (.got size (shadow + 16)) with
        heap := wrote (shadow + 8) 8 (bigPages size) s.heap } l σ := by
  obtain ⟨pending, stage, here, _⟩ := makingAt races (.inr at')
  obtain ⟨b, owned, place, served⟩ := follows.owned τ _ (.making (.inr at'))
  have above := heldWords sound.agrees.inv here.big (place ▸ served ▸ sound.agrees.held b owned)
  have below := heldWords (changeInv races.inv change) here.big
    (servedHeld change races (o := ⟨shadow + 16, size⟩) rfl).1
  obtain ⟨⟨m, n, calls, rfl⟩, agree⟩ := follows.completes
  refine followsStay follows (by rw [at']; exact id) (by rw [at']; rfl) (by rw [at']; rfl)
    (by rw [at']; rfl) ⟨⟨m, n, calls, rfl⟩, fun a finished => ?_⟩ fun υ o claim => ?_
  · by_cases inside : shadow ≤ a ∧ a < shadow + 16
    · exact headerSame above below inside.1 inside.2
    · refine (agree a fun mine => finished ?_).trans (writeOut (by omega)).symm
      obtain ⟨υ, shadow', theirs, within⟩ := mine
      have other : υ ≠ τ := by
        rintro rfl
        cases Option.some.inj (pending.symm.trans theirs)
        exact inside within
      exact ⟨υ, shadow', by rw [gotoOther s _ other]; exact theirs, within⟩
  · rcases claimsAdvance change claim with old | fresh
    · exact old.1
    · rw [at'] at fresh
      cases fresh

theorem releaseFollows {heap' : State} (shares : Shares h s) (leaving : Leaving o (s.pc τ))
    (mine : o ∈ owned h τ) (change : Change h s.heap own chains (s.pc τ) .freed heap' own' chains')
    (release : Release s.heap own chains o.ptr o.size heap' own' chains') (limit : Within heap') :
    Takes pid (.advanced τ (s.pc τ) .freed) h { s.goto τ .freed with heap := heap' } l σ := by
  obtain ⟨b, owned, place, served⟩ := follows.owned τ o (.held mine)
  have held := ownedHeld races shares mine
  have clear := Sequential.soundClear sound
  obtain ⟨⟨m, n, calls, rfl⟩, agree⟩ := follows.completes
  obtain ⟨takes, here, pending⟩ : effect (.advanced τ (s.pc τ) .freed) = some (.xxfree o.ptr, 0) ∧
      before (s.pc τ) = some (.xxfree o.ptr) ∧ Pc.freed.pending = (s.pc τ).pending := by
    generalize s.pc τ = pc at leaving
    cases leaving <;> exact ⟨rfl, rfl, rfl⟩
  have inv : Inv (withMem s.heap m n []) ledgered _ := clear.agrees.inv
  obtain ⟨m', n', calls', done, same⟩ := releaseMirrors inv reliable
    (races.par.trans reliable.1.symm) (place ▸ served ▸ clear.agrees.held b owned)
    (fun small a page => agree a (finishedSmall races (page ▸ (heldSmall small).mp held))) release
  have claims := ownedFree follows change calls' races shares leaving mine takes place
    (Sequential.findCovers clear.agrees owned (insideSelf b.ptr b.size))
  rw [place] at claims
  exact followsTaken follows reliable (place ▸ .xxfree owned) takes here rfl done limit
    (completesOver agree same pending) claims

theorem lookFollows {pc' : Pc} (shares : Shares h s) (running : ¬ (s.pc τ).Final)
    (looks : Looks (s.pc τ) pc') (limit : Within s.heap)
    (change : Change h s.heap own chains (s.pc τ) pc' s.heap own' chains')
    (call : next k (s.pc τ) s.heap = .ok pc' s.heap) :
    Stays (.advanced τ (s.pc τ) pc') h { s.goto τ pc' with heap := s.heap } l σ ∨
      Takes pid (.advanced τ (s.pc τ) pc') h { s.goto τ pc' with heap := s.heap } l σ := by
  have named : (s.pc τ).named ≠ some 0 := by
    intro zero
    obtain ⟨o, mine, at'⟩ := shares.named τ 0 zero
    exact heldAddress races.inv (ownedHeld races shares mine) at'
  obtain ⟨⟨m, n, calls, rfl⟩, agree⟩ := follows.completes
  have pending := looksPending looks
  have still : ∀ a, ¬ Unfinished (s.goto τ pc') a → m a = s.heap.mem a := fun a finished =>
    agree a (mt (unfinishedGoto pending).mpr finished)
  rcases looksCases (τ := τ) looks named with ⟨ptr, n, at', rfl, here, takes⟩ | ⟨none, same, same'⟩
  · obtain ⟨o, mine, rfl⟩ := shares.named τ ptr at'
    obtain ⟨heap, course⟩ := callRuns races (shares.known τ o mine) (ownedHeld races shares mine)
      reliable at'
    rw [course] at call
    obtain rfl := courseAnswer here (EStateM.Result.ok.inj call).1
    obtain ⟨b, owned, place, served⟩ := follows.owned τ o (.held mine)
    have answers := Sequential.usableServes (k := k) sound owned (insideSelf _ _) (cleanSelf _ _)
    rw [place, served] at answers
    refine .inr (followsTaken follows reliable (place ▸ .usableSize owned) takes here rfl answers limit
      ⟨⟨m, n, [], rfl⟩, still⟩ fun υ o claim => ?_)
    rcases claimsAdvance change claim with old | fresh
    · exact follows.owned υ o old.1
    · rw [takes] at fresh
      cases fresh
  · refine .inl (followsStay follows running none same same' ⟨⟨m, n, calls, rfl⟩, still⟩ ?_)
    intro υ o claim
    rcases claimsAdvance change claim with old | fresh
    · exact old.1
    · rw [none] at fresh
      cases fresh

theorem advanceFollows {pc' : Pc} {heap' : State} (shares : Shares h s)
    (running : ¬ (s.pc τ).Final) (call : next k (s.pc τ) s.heap = .ok pc' heap')
    (limit : Within heap') :
    Stays (.advanced τ (s.pc τ) pc') h { s.goto τ pc' with heap := heap' } l σ ∨
      Takes pid (.advanced τ (s.pc τ) pc') h { s.goto τ pc' with heap := heap' } l σ := by
  obtain ⟨own', chains', change⟩ := advanceChange races reliable running call limit
  have mine : ∀ {o}, o ∈ handed h → Leaving o (s.pc τ) → o ∈ owned h τ := by
    intro o known leaving
    obtain ⟨p, mine, same⟩ := shares.named τ _ (leavingNamed leaving)
    exact samePointer races known (shares.known τ p mine) same ▸ mine
  have step := change
  generalize at' : s.pc τ = pc at change
  cases change with
  | serve small grant =>
    exact .inr (at' ▸ serveFollows races sound follows reliable at' small step call limit)
  | map big fits room =>
    exact .inr (at' ▸ mapFollows races sound follows reliable at' big fits room step rfl limit)
  | header here writes =>
    cases writes with
    | magic => exact .inl (at' ▸ magicFollows sound follows at' step)
    | count => exact .inl (at' ▸ countFollows races sound follows at' step)
  | release known leaving held release =>
    subst at'
    exact .inr (releaseFollows races sound follows reliable shares leaving (mine known leaving) step
      release limit)
  | @stale o start objSize mappings calls known big dead =>
    have leaving : Leaving o (s.pc τ) := at' ▸ .unmapping big
    have held := ownedHeld races shares (mine known leaving)
    exact absurd (dead _ (spansSelf _ _)).1 (by obtain ⟨u, busy, _⟩ := heldBusy races.inv held; simp [busy])
  | look looks fits =>
    subst at'
    exact lookFollows races sound follows reliable shares running looks limit step call

end

theorem claimsGoto (same : ∀ υ, owned (e :: h) υ = owned h υ) (none : pc.pending = none)
    (claim : Claims (e :: h) (s.goto τ pc) υ o) : Claims h s υ o := by
  cases claim with
  | held mine => exact .held (same υ ▸ mine)
  | making there =>
    by_cases self : υ = τ
    · subst self
      rw [gotoSelf] at there
      rcases there with rfl | rfl <;> cases none
    · rw [gotoOther s pc self] at there
      exact .making there

theorem gotoFollows (follows : Follows h s l σ) (quiet : ∀ d, ¬ Point e d)
    (settled : (s.pc τ).pending = none) (none : pc.pending = none)
    (same : ∀ υ, owned (e :: h) υ = owned h υ) (mine : OneEffect (e :: h) τ pc)
    (others : ∀ υ, υ ≠ τ → asked υ (e :: h) = asked υ h ∧ effects υ (e :: h) = effects υ h) :
    Stays e h (s.goto τ pc) l σ := by
  refine ⟨quiet, ⟨follows.completes.globals, fun a finished => ?_⟩, fun υ o claim => ?_,
    effectsGoto follows.effects mine others⟩
  · exact follows.completes.same a (mt (unfinishedGoto (none.trans settled.symm)).mpr finished)
  · exact follows.owned υ o (claimsGoto same none claim)

theorem storedFollows {ledgered : Owner} {index : Nat} {byte : UInt8} {heap' : State}
    (races : Races pid h s own chains) (shares : Shares h s) (sound : Sound pid l σ ledgered)
    (follows : Follows h s l σ) (mine : o ∈ owned h τ) (inside : index < usableOf o.size)
    (call : writeWord (o.ptr + index) 1 byte.toNat s.heap = .ok () heap') :
    Takes pid (.stored τ (o.ptr + index)) h { s with heap := heap' } l σ := by
  obtain ⟨_, rfl⟩ := storedHeld races (shares.known τ o mine) inside call
  obtain ⟨b, owned, place, served⟩ := follows.owned τ o (.held mine)
  rw [← served] at inside
  let k : Kernel := { Exhaustion.steady with pid := pid }
  have reliable : Reliable pid k := ⟨rfl, rfl, fun _ => rfl⟩
  have stores := Sequential.storeServes (k := k) sound owned inside byte
  have disciplined : Sequential.Disciplined l σ (.store b.ptr index byte) :=
    .store owned ((Sequential.usableIndex sound owned).mpr inside)
  rw [place] at stores disciplined
  obtain ⟨⟨m, n, calls, rfl⟩, agree⟩ := follows.completes
  refine ⟨_, _, .store rfl rfl rfl, .returned ⟨reliable, disciplined⟩ stores races.inv.highLimit,
    ⟨⟨_, _, _, rfl⟩, fun a finished => writeCongr (agree a finished) _ _ _⟩, fun υ q claim => ?_,
    fun υ => ?_⟩
  · refine follows.owned υ q ?_
    cases claim with
    | held mine => exact .held mine
    | making at' => exact .making at'
  · cases follows.effects υ with
    | idle none => exact .idle none
    | pending call here none => exact .pending call here none
    | done call here one => exact .done call here one

theorem handedFollows {giver taker : Nat} (follows : Follows h s l σ) (mine : o ∈ owned h giver) :
    Stays (.handedOver giver taker o) h s l σ := by
  refine ⟨silent rfl fun _ _ stored => (by cases stored), follows.completes, fun υ q claim => ?_,
    fun υ => ?_⟩
  · cases claim with
    | held there =>
      rcases ownedHandOver.mp there with ⟨rfl, _⟩ | ⟨old, _⟩
      · exact follows.owned giver q (.held mine)
      · exact follows.owned υ q (.held old)
    | making at' => exact follows.owned υ _ (.making at')
  · cases follows.effects υ with
    | idle none => exact .idle none
    | pending call here none => exact .pending call here none
    | done call here one => exact .done call here one

theorem stepFollows (run : Threads.Run pid Owning Within h s)
    (above : Sequential.Run pid (reliably pid) Within l σ) (follows : Follows h s l σ)
    (taken : Step pid Owning Within h s e s') : Stays e h s' l σ ∨ Takes pid e h s' l σ := by
  obtain ⟨own, chains, races, shares⟩ := sharesRun run
  obtain ⟨ledgered, sound⟩ := Sequential.runSound (Sequential.runWiden Sequential.reliablyWider above)
  cases taken with
  | @called τ pc ready allowed =>
    have idle : (s.pc τ).pending = none := by rw [ready]; rfl
    refine .inl (gotoFollows follows (silent rfl fun _ _ same => by cases same) idle ?_ (fun _ => rfl) ?_
      fun υ other => ⟨by rw [asked, if_neg (Ne.symm other)], by rw [effects, if_neg (Ne.symm other)]⟩)
    · cases allowed <;> rfl
    · have made : asked τ (.called τ pc :: h) = pc := by rw [asked, if_pos rfl]
      have none : effects τ (.called τ pc :: h) = [] := by rw [effects, if_pos rfl]
      cases allowed <;> exact .pending (by rw [made]; rfl) rfl none
  | advanced reliable running call limit =>
    exact advanceFollows races sound follows reliable shares running call limit
  | faulted reliable call limit =>
    obtain ⟨_, o, known, at', dead⟩ := faultDead races reliable call
    obtain ⟨p, mine, same⟩ := shares.named _ _ at'
    obtain ⟨u, busy, _⟩ := heldBusy races.inv (ownedHeld races shares mine)
    have gone := (dead _ (spansSelf _ _)).1
    rw [← same, busy] at gone
    cases gone
  | @returned τ done =>
    refine .inl (gotoFollows follows (silent rfl fun _ _ same => by cases same) ?_ rfl (fun _ => rfl)
      (.idle rfl) fun _ _ => ⟨rfl, rfl⟩)
    cases at' : s.pc τ <;> first | rfl | (rw [at'] at done; cases done)
  | stored ready allowed call =>
    cases allowed with
    | store mine inside => exact .inr (storedFollows races shares sound follows mine inside call)
  | handedOver ready allowed =>
    cases allowed with
    | handOver mine => exact .inl (handedFollows follows mine)

theorem beganFollows (begun : Began pid s) : Follows [] s [] s.heap := by
  refine ⟨⟨⟨s.heap.mem, s.heap.numMappings, s.heap.calls, rfl⟩, fun _ _ => rfl⟩, fun τ o claim => ?_,
    fun τ => .idle (begun.2 τ)⟩
  cases claim with
  | held mine => cases mine
  | making at' =>
    rw [begun.2 τ] at at'
    rcases at' with at' | at' <;> cases at'

theorem effectCompleted {takes : Op × Nat} (some : effect e = some takes) :
    completed ⟨takes.1, .value takes.2, []⟩ = Option.some takes := by
  unfold effect at some
  split at some <;> cases some <;> rfl

theorem pointCompleted {d : Sequential.Event} (at' : Point e d) : effect e = completed d := by
  cases at' with
  | @call op v takes asked replied =>
    rw [takes, ← effectCompleted takes]
    simp only [completed, asked, replied]
  | store stored asked replied =>
    subst stored
    simp only [completed, asked, replied]
    rfl

theorem quietEffect (none : ∀ d, ¬ Point e d) : effect e = Option.none := by
  cases takes : effect e with
  | none => rfl
  | some call => exact absurd (.call takes rfl rfl) (none ⟨call.1, .value call.2, []⟩)

theorem runFollows (run : Threads.Run pid Owning Within h s) :
    ∃ l σ, Sequential.Run pid (reliably pid) Within l σ ∧ Simulation.Reads Point h l ∧ Follows h s l σ :=
  Simulation.readsRun (R := Follows) (fun s begun => ⟨s.heap, begun.1, beganFollows begun⟩)
    (fun _ _ _ _ _ _ => stepFollows) run

theorem readsOrder (reads : Simulation.Reads Point h l) : h.filterMap effect = l.filterMap completed :=
  Simulation.readsMap (fun _ _ at' => pointCompleted at') (fun _ none => quietEffect none) reads

theorem threadsLinearize (run : Threads.Run pid Owning Within h s) :
    ∃ l σ, Sequential.Run pid (reliably pid) Within l σ ∧ Linearized h s l σ := by
  obtain ⟨l, σ, above, reads, follows⟩ := runFollows run
  refine ⟨l, σ, above, reads, readsOrder reads, follows, fun τ o mine i byte last => ?_, fun idle => ?_⟩
  · obtain ⟨own, chains, races, shares⟩ := sharesRun run
    obtain ⟨ledgered, sound, stored⟩ :=
      ByteArrays.runStored (Sequential.runWiden Sequential.reliablyWider above)
    obtain ⟨b, owned, place, served⟩ := follows.owned τ o (.held mine)
    obtain ⟨inside, there⟩ := stored b owned i byte (place ▸ last)
    rw [place] at there
    have covers : Inside o.ptr o.size (o.ptr + i) :=
      ⟨Nat.le_add_right _ _, Nat.add_lt_add_left (served ▸ inside) _⟩
    have finished := finishedHeld races (ownedHeld races shares mine) covers
    exact (follows.completes.same _ finished).symm.trans there
  · obtain ⟨⟨m, n, calls, rfl⟩, same⟩ := follows.completes
    have whole : m = s.heap.mem := funext fun a => same a fun ⟨τ, shadow, pending, _⟩ => by
      rw [idle τ] at pending
      cases pending
    exact ⟨n, calls, by rw [whole]⟩

theorem handedOverLinearizes : ∃ h s l σ, ⟨firstPtr, 16⟩ ∈ owned h 3 ∧
    s.pc 1 = .magic 4096 largeObjVaddrStart ∧ Sequential.Run 1 (reliably 1) Within l σ ∧
      Linearized h s l σ := by
  obtain ⟨h, s, run, mine, making⟩ := handedOverRun
  obtain ⟨l, σ, above, linear⟩ := threadsLinearize run
  exact ⟨h, s, l, σ, mine, making, above, linear⟩

end Nuaf.Linearization
