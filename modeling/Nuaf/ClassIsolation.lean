import Nuaf.Census
import Nuaf.PageTable

/-! What a program can learn of the layout of one size class. A class is a machine of its own:
its allocations and frees alone decide the places its objects get in their pages and in the
backing file and the order of reuse; for large objects their sizes decide the addresses. -/
namespace Nuaf.ClassIsolation
open Layout LinkedStack Machine Source Heap Nuaf.Sequential Census PageTable Exhaustion

inductive Kind where
  | small (t : Nat)
  | large
  deriving DecidableEq, Repr

def Kind.Of : Kind → Nat → Prop
  | .small t, size => size ≤ largestBlockSize ∧ blockType size = t
  | .large, size => largestBlockSize < size
instance (kind : Kind) (size : Nat) : Decidable (kind.Of size) := by
  cases kind <;> unfold Kind.Of <;> infer_instance

inductive Act where
  | alloc (label : Nat)
  | free (number : Nat)
  deriving DecidableEq, Repr

def Kind.label : Kind → Nat → Nat
  | .small _, _ => 0
  | .large, size => size

inductive Seen where
  | alloc (size ptr : Nat)
  | free (b : Block)
  | other

def seen (kind : Kind) (h : History) (e : Event) : Seen :=
  match e.op, e.reply with
  | .xxmalloc size, .value p => if kind.Of size then .alloc size p else .other
  | .xxfree ptr, .value _ =>
    match (ledger h).find ptr with
    | some b => if kind.Of b.size then .free b else .other
    | none => .other
  | _, _ => .other

def allocs (kind : Kind) : History → Nat
  | [] => 0
  | e :: h => match seen kind h e with
    | .alloc _ _ => allocs kind h + 1
    | _ => allocs kind h

/- The allocation number, within its kind, of the object at an address; a freed object takes
its number along to the page it is moved to. -/
def numbers (kind : Kind) : History → Nat → Nat
  | [] => fun _ => 0
  | e :: h => match seen kind h e with
    | .alloc _ p => Function.update (numbers kind h) p (allocs kind h)
    | .free b => Function.update (numbers kind h) (movedTo e.calls + b.ptr % pageSize)
        (numbers kind h b.ptr)
    | .other => numbers kind h

def acts (kind : Kind) : History → List Act
  | [] => []
  | e :: h => match seen kind h e with
    | .alloc size _ => .alloc (kind.label size) :: acts kind h
    | .free b => .free (numbers kind h b.ptr) :: acts kind h
    | .other => acts kind h

/- One object handed out: its offset in the page, the start of its canonical range, and the
number of the freed object it reuses, when it is not a new one. -/
structure Handout where
  offset : Nat
  canonical : Option Nat
  reused : Option Nat
  deriving DecidableEq, Repr

def handouts (t : Nat) : History → List Handout
  | [] => []
  | e :: h => match seen (.small t) h e with
    | .alloc _ p => ⟨p % pageSize, canonicalOf (e :: h) p,
        if e.calls.any isMmap then none else some (numbers (.small t) h p)⟩ :: handouts t h
    | _ => handouts t h

def largeAddresses : History → List Nat
  | [] => []
  | e :: h => match seen .large h e with
    | .alloc _ p => p :: largeAddresses h
    | _ => largeAddresses h

structure Stock where
  next : Nat
  spare : List (Nat × Nat)
  place : Nat → Nat
  made : Nat
  served : List Handout

def Stock.init (t : Nat) : Stock := ⟨t * pageSize + byteAlignment, [], fun _ => 0, 0, []⟩

def Stock.act (t : Nat) (s : Stock) : Act → Stock
  | .alloc _ =>
    match s.spare with
    | [] => { s with
        next := nextCanonical t s.next
        place := Function.update s.place s.made s.next
        made := s.made + 1
        served := ⟨s.next % pageSize, some s.next, none⟩ :: s.served }
    | (c, m) :: rest => { s with
        spare := rest
        place := Function.update s.place s.made c
        made := s.made + 1
        served := ⟨c % pageSize, some c, some m⟩ :: s.served }
  | .free number => { s with spare := (s.place number, number) :: s.spare }

def stockOf (t : Nat) : List Act → Stock
  | [] => .init t
  | a :: as => (stockOf t as).act t a

def largeNext : List Act → Nat
  | [] => largeObjVaddrStart
  | .alloc size :: as => largeNext as + bigPages size * pageSize
  | .free _ :: as => largeNext as

def largeServed : List Act → List Nat
  | [] => []
  | .alloc _ :: as => (largeNext as + 16) :: largeServed as
  | .free _ :: as => largeServed as

structure Follows (t : Nat) (h : History) (σ : State) (s : Stock) : Prop where
  next : (σ.gFlsts t).highCanonicalAddr = s.next
  made : allocs (.small t) h = s.made
  spare : ((ledger h).free t).map (fun b => (canonicalOf h b.ptr, numbers (.small t) h b.ptr)) =
    s.spare.map (fun x => (some x.1, x.2))
  place : ∀ b ∈ live h, OfClass t b → numbers (.small t) h b.ptr < s.made ∧
    canonicalOf h b.ptr = some (s.place (numbers (.small t) h b.ptr))
  served : handouts t h = s.served

variable {pid t : Nat} {h : History} {σ σ' : State} {own : Owner} {e : Event} {s : Stock}

def Stands (own : Owner) (t p : Nat) : Prop :=
  ∃ free, own (p / pageSize) = some (.small t (p % pageSize) free)

theorem liveStands (sound : Sound pid h σ own) {b : Block} (owned : b ∈ live h) (cls : OfClass t b) :
    Stands own t b.ptr := by
  obtain ⟨small, rfl⟩ := cls
  exact ⟨false, (heldSmall small).mp (sound.agrees.held b owned)⟩

theorem freeStands (sound : Sound pid h σ own) (low : t < numBlockTypes) {b : Block}
    (freed : b ∈ (ledger h).free t) : Stands own t b.ptr :=
  ⟨true, (sound.agrees.inv.chained t low b.ptr).mp (List.mem_map.mpr ⟨b, freed, rfl⟩)⟩

theorem seenMalloc {kind : Kind} {size p : Nat} {calls : List Call} :
    seen kind h ⟨.xxmalloc size, .value p, calls⟩ =
      if kind.Of size then .alloc size p else .other := rfl

theorem seenFree {kind : Kind} {ptr v : Nat} {calls : List Call} {b : Block}
    (found : (ledger h).find ptr = some b) :
    seen kind h ⟨.xxfree ptr, .value v, calls⟩ = if kind.Of b.size then .free b else .other := by
  simp only [seen, found]

theorem seenQuiet {kind : Kind} {op : Op} {reply : Reply} {calls : List Call}
    (quiet : Quiet op reply) : seen kind h ⟨op, reply, calls⟩ = .other := by
  cases quiet with
  | idle idle =>
    cases idle with
    | usableSize => rfl
    | load => rfl
    | @fault op => cases op <;> rfl
  | store => rfl

theorem otherKept {kind : Kind} (other : seen kind h e = .other) :
    allocs kind (e :: h) = allocs kind h ∧ numbers kind (e :: h) = numbers kind h ∧
      acts kind (e :: h) = acts kind h := by
  simp only [allocs, numbers, acts, other, and_self]

theorem followsOther (follows : Follows t h σ s) (other : seen (.small t) h e = .other)
    (next : (σ'.gFlsts t).highCanonicalAddr = (σ.gFlsts t).highCanonicalAddr)
    (free : (ledger (e :: h)).free t = (ledger h).free t)
    (fewer : ∀ b ∈ live (e :: h), OfClass t b → b ∈ live h)
    (kept : ∀ b, b ∈ (ledger h).free t ∨ (b ∈ live (e :: h) ∧ OfClass t b) →
      canonicalOf (e :: h) b.ptr = canonicalOf h b.ptr) : Follows t (e :: h) σ' s := by
  obtain ⟨made, numbered, _⟩ := otherKept other
  refine ⟨next.trans follows.next, made.trans follows.made, ?_, fun b there cls => ?_, ?_⟩
  · rw [← follows.spare, free, numbered]
    exact List.map_congr_left fun b freed => by rw [kept b (.inl freed)]
  · rw [numbered, kept b (.inr ⟨there, cls⟩)]
    exact follows.place b (fewer b there cls) cls
  · simp only [handouts, other]
    exact follows.served

theorem followsCarve {size p : Nat} {calls : List Call} (follows : Follows t h σ s)
    (cls : Kind.Of (.small t) size) (empty : (ledger h).free t = [])
    (carves : calls.any isMmap = true)
    (place : canonicalOf (⟨.xxmalloc size, .value p, calls⟩ :: h) p =
      some (σ.gFlsts t).highCanonicalAddr)
    (offset : p % pageSize = (σ.gFlsts t).highCanonicalAddr % pageSize)
    (next : (σ'.gFlsts t).highCanonicalAddr = nextCanonical t (σ.gFlsts t).highCanonicalAddr)
    (fresh : ∀ b ∈ live h, OfClass t b → b.ptr ≠ p ∧
      canonicalOf (⟨.xxmalloc size, .value p, calls⟩ :: h) b.ptr = canonicalOf h b.ptr) :
    Follows t (⟨.xxmalloc size, .value p, calls⟩ :: h) σ' (s.act t (.alloc 0)) := by
  have small := cls.1
  obtain rfl := cls.2
  have none : s.spare = [] := by simpa [empty] using follows.spare.symm
  have grown := @carvesLedger h size p calls small empty
  have act : seen (.small (blockType size)) h ⟨.xxmalloc size, .value p, calls⟩ = .alloc size p := by
    rw [seenMalloc, if_pos cls]
  rw [follows.next] at place offset next
  simp only [Stock.act, none]
  refine ⟨next, ?_, ?_, fun b there ofCls => ?_, ?_⟩
  · simp only [allocs, act, follows.made]
  · rw [grown]
    simp [Ledger.make, empty]
  · simp only [numbers, act, follows.made]
    rw [live, grown] at there
    rcases List.mem_cons.mp there with rfl | old
    · simp only [Function.update_self]
      exact ⟨Nat.lt_succ_self _, place⟩
    · obtain ⟨apart, kept⟩ := fresh b old ofCls
      obtain ⟨below, known⟩ := follows.place b old ofCls
      rw [Function.update_of_ne apart, Function.update_of_ne (Nat.ne_of_lt below), kept]
      exact ⟨Nat.lt_succ_of_lt below, known⟩
  · simp only [handouts, act, carves, if_true, follows.served, place, offset]

theorem followsPop {size : Nat} {b : Block} {rest : List Block} (follows : Follows t h σ s)
    (cls : Kind.Of (.small t) size) (full : (ledger h).free t = b :: rest)
    (aligned : Aligned (backing h))
    (next : (σ'.gFlsts t).highCanonicalAddr = (σ.gFlsts t).highCanonicalAddr)
    (fresh : ∀ c, c ∈ rest ∨ (c ∈ live h ∧ OfClass t c) → c.ptr ≠ b.ptr) :
    Follows t (⟨.xxmalloc size, .value b.ptr, []⟩ :: h) σ' (s.act t (.alloc 0)) := by
  have small := cls.1
  obtain rfl := cls.2
  have moved := @popsLedger h size b.ptr [] b rest small full
  have act : seen (.small (blockType size)) h ⟨.xxmalloc size, .value b.ptr, []⟩ =
      .alloc size b.ptr := by
    rw [seenMalloc, if_pos cls]
  have spare := follows.spare
  rw [full, List.map_cons] at spare
  obtain ⟨⟨c, m⟩, left, list, head, tail⟩ := List.map_eq_cons_iff.mp spare.symm
  simp only [Prod.mk.injEq] at head
  obtain ⟨place, number⟩ := head
  have offset : b.ptr % pageSize = c % pageSize := by
    obtain ⟨o, there, here⟩ := Option.map_eq_some_iff.mp place.symm
    have file := aligned _ _ there
    simp only [pageSize] at *
    omega
  have still : ∀ p, canonicalOf (⟨.xxmalloc size, .value b.ptr, []⟩ :: h) p = canonicalOf h p :=
    fun _ => rfl
  simp only [Stock.act, list]
  refine ⟨next.trans follows.next, ?_, ?_, fun d there ofCls => ?_, ?_⟩
  · simp only [allocs, act, follows.made]
  · rw [moved]
    simp only [Function.update_self, numbers, act]
    rw [tail]
    refine List.map_congr_left fun d freed => ?_
    rw [still, Function.update_of_ne (fresh d (.inl freed))]
  · simp only [numbers, act, follows.made, still]
    rw [live, moved] at there
    rcases List.mem_cons.mp there with rfl | old
    · simp only [Function.update_self]
      exact ⟨Nat.lt_succ_self _, place.symm⟩
    · have apart := fresh d (.inr ⟨old, ofCls⟩)
      obtain ⟨below, known⟩ := follows.place d old ofCls
      rw [Function.update_of_ne apart, Function.update_of_ne (Nat.ne_of_lt below)]
      exact ⟨Nat.lt_succ_of_lt below, known⟩
  · simp only [handouts, act, still, List.any_nil, Bool.false_eq_true, if_false, follows.served,
      ← place, ← number, offset]

theorem followsFree {b : Block} {ptr v q : Nat} {calls : List Call} (follows : Follows t h σ s)
    (owned : b ∈ live h) (found : (ledger h).find ptr = some b) (cls : OfClass t b)
    (sorted : b.cls = t) (target : movedTo calls + b.ptr % pageSize = q)
    (next : (σ'.gFlsts t).highCanonicalAddr = (σ.gFlsts t).highCanonicalAddr)
    (place : canonicalOf (⟨.xxfree ptr, .value v, calls⟩ :: h) q = canonicalOf h b.ptr)
    (fresh : ∀ c, c ∈ (ledger h).free t ∨ (c ∈ without h b ∧ OfClass t c) → c.ptr ≠ q ∧
      canonicalOf (⟨.xxfree ptr, .value v, calls⟩ :: h) c.ptr = canonicalOf h c.ptr) :
    Follows t (⟨.xxfree ptr, .value v, calls⟩ :: h) σ'
      (s.act t (.free (numbers (.small t) h b.ptr))) := by
  have act : seen (.small t) h ⟨.xxfree ptr, .value v, calls⟩ = .free b := by
    rw [seenFree found]
    exact if_pos cls
  have moved := @movesLedger h b ptr v calls found cls.1
  rw [sorted, target] at moved
  simp only [Stock.act]
  refine ⟨next.trans follows.next, ?_, ?_, fun d there ofCls => ?_, ?_⟩
  · simp only [allocs, act, follows.made]
  · rw [moved]
    simp only [Function.update_self, numbers, act, target, List.map_cons, place,
      (follows.place b owned cls).2, ← follows.spare]
    congr 1
    refine List.map_congr_left fun d freed => ?_
    obtain ⟨apart, kept⟩ := fresh d (.inl freed)
    rw [kept, Function.update_of_ne apart]
  · rw [live, moved] at there
    obtain ⟨apart, kept⟩ := fresh d (.inr ⟨there, ofCls⟩)
    simp only [numbers, act, target]
    rw [kept, Function.update_of_ne apart]
    exact follows.place d (withoutMember.mp there).1 ofCls
  · simp only [handouts, act, follows.served]

theorem canonicalKept {p : Nat} (sound : Sound pid h σ own) (effect : Effect h σ e σ')
    (stands : Stands own t p)
    (apart : ∀ ptr v b, e.op = .xxfree ptr → e.reply = .value v → (ledger h).find ptr = some b →
      b.Small → p / pageSize ≠ b.ptr / pageSize) : canonicalOf (e :: h) p = canonicalOf h p := by
  obtain ⟨free, owned⟩ := stands
  rw [canonicalOf, effectBacking sound effect owned apart, canonicalOf]

theorem freedApart {ptr v p : Nat} {calls : List Call} {b : Block}
    (found : (ledger h).find ptr = some b) (apart : b.Small → p / pageSize ≠ b.ptr / pageSize) :
    ∀ ptr' v' b', (⟨.xxfree ptr, .value v, calls⟩ : Event).op = .xxfree ptr' →
      (⟨.xxfree ptr, .value v, calls⟩ : Event).reply = .value v' →
      (ledger h).find ptr' = some b' → b'.Small → p / pageSize ≠ b'.ptr / pageSize := by
  rintro ptr' v' b' call _ found' small
  cases call
  cases Option.some.inj (found.symm.trans found')
  exact apart small

theorem followsElse (low : t < numBlockTypes) (sound : Sound pid h σ own)
    (follows : Follows t h σ (stockOf t (acts (.small t) h))) (effect : Effect h σ e σ')
    (other : seen (.small t) h e = .other)
    (next : (σ'.gFlsts t).highCanonicalAddr = (σ.gFlsts t).highCanonicalAddr)
    (free : (ledger (e :: h)).free t = (ledger h).free t)
    (fewer : ∀ b ∈ live (e :: h), OfClass t b → b ∈ live h)
    (apart : ∀ p, Stands own t p → ∀ ptr v b, e.op = .xxfree ptr → e.reply = .value v →
      (ledger h).find ptr = some b → b.Small → p / pageSize ≠ b.ptr / pageSize) :
    Follows t (e :: h) σ' (stockOf t (acts (.small t) (e :: h))) := by
  rw [(otherKept other).2.2]
  refine followsOther follows other next free fewer fun b relevant => ?_
  have stands : Stands own t b.ptr := by
    rcases relevant with freed | ⟨there, cls⟩
    · exact freeStands sound low freed
    · exact liveStands sound (fewer b there cls) cls
  exact canonicalKept sound effect stands (apart _ stands)

theorem actsAlloc {kind : Kind} {size p : Nat} {calls : List Call} (cls : kind.Of size) :
    acts kind (⟨.xxmalloc size, .value p, calls⟩ :: h) = .alloc (kind.label size) :: acts kind h := by
  simp only [acts, seenMalloc, if_pos cls]

theorem actsFree {kind : Kind} {ptr v : Nat} {calls : List Call} {b : Block}
    (found : (ledger h).find ptr = some b) (cls : kind.Of b.size) :
    acts kind (⟨.xxfree ptr, .value v, calls⟩ :: h) = .free (numbers kind h b.ptr) :: acts kind h := by
  simp only [acts, seenFree found, if_pos cls]

theorem fewerMalloc {size p : Nat} {calls : List Call} (other : ¬ Kind.Of (.small t) size) :
    ∀ b ∈ live (⟨.xxmalloc size, .value p, calls⟩ :: h), OfClass t b → b ∈ live h := by
  obtain ⟨c, rfl, rfl, added⟩ := @mallocLive h size p calls
  intro b there cls
  rw [added] at there
  rcases List.mem_cons.mp there with rfl | old
  · exact absurd cls other
  · exact old

theorem fewerFree {ptr v : Nat} {calls : List Call} {b : Block}
    (found : (ledger h).find ptr = some b) :
    ∀ c ∈ live (⟨.xxfree ptr, .value v, calls⟩ :: h), OfClass t c → c ∈ live h := by
  intro c there _
  rw [freeLive found] at there
  exact (withoutMember.mp there).1

section
variable (low : t < numBlockTypes) (sound : Sound pid h σ own)
  (follows : Follows t h σ (stockOf t (acts (.small t) h)))
include low sound follows

theorem carvesFollows {size : Nat} (small : size ≤ largestBlockSize)
    (empty : (ledger h).free (blockType size) = [])
    (room : σ.highVaddr + pageSize ≤ largeObjVaddrStart)
    (event : e = ⟨.xxmalloc size,
      .value (σ.highVaddr + (σ.gFlsts (blockType size)).highCanonicalAddr % pageSize),
      [.mmap σ.highVaddr pageSize
        (roundDown (σ.gFlsts (blockType size)).highCanonicalAddr pageSize)]⟩)
    (effect : Effect h σ e (carved (blockType size) (σ.gFlsts (blockType size)) σ.clear)) :
    Follows t (e :: h) (carved (blockType size) (σ.gFlsts (blockType size)) σ.clear)
      (stockOf t (acts (.small t) (e :: h))) := by
  have inv := sound.agrees.inv
  subst event
  by_cases cls : Kind.Of (.small t) size
  · obtain rfl := cls.2
    rw [actsAlloc cls, stockOf]
    refine followsCarve follows cls empty rfl (carvedCanonical inv.highAligned) ?_ ?_ ?_
    · have page := inv.highAligned
      simp only [pageSize] at *
      omega
    · simp [carved, State.clear]
    · intro b owned ofCls
      have stands := liveStands sound owned ofCls
      refine ⟨fun same => ?_, canonicalKept sound effect stands (by simp)⟩
      obtain ⟨free, owns⟩ := stands
      have place := targetPage inv (σ.gFlsts (blockType size)).highCanonicalAddr
      rw [same, place.1, highUnowned inv room] at owns
      cases owns
  · have differ : t ≠ blockType size := fun same => cls ⟨small, same.symm⟩
    refine followsElse low sound follows effect (if_neg cls) ?_ ?_ (fewerMalloc cls) (by simp)
    · simp [carved, State.clear, differ]
    · rw [carvesLedger small empty]
      rfl

theorem popsFollows {size link : Nat} {b : Block} {rest : List Block}
    (aligned : Aligned (backing h)) (small : size ≤ largestBlockSize)
    (full : (ledger h).free (blockType size) = b :: rest)
    (effect : Effect h σ ⟨.xxmalloc size, .value b.ptr, []⟩
      (popped (blockType size) link σ.clear)) :
    Follows t (⟨.xxmalloc size, .value b.ptr, []⟩ :: h) (popped (blockType size) link σ.clear)
      (stockOf t (acts (.small t) (⟨.xxmalloc size, .value b.ptr, []⟩ :: h))) := by
  have inv := sound.agrees.inv
  by_cases cls : Kind.Of (.small t) size
  · obtain rfl := cls.2
    rw [actsAlloc cls, stockOf]
    refine followsPop follows cls full aligned (by simp [popped, State.clear]) ?_
    rintro c (left | ⟨owned, ofCls⟩) same
    · have distinct := linkedNodup (inv.linked (blockType size) low)
      rw [chainsOf, full, List.map_cons, List.nodup_cons] at distinct
      exact distinct.1 (same ▸ List.mem_map_of_mem left)
    · have used := (heldSmall ofCls.1).mp (sound.agrees.held c owned)
      have freed := (inv.chained (blockType size) low b.ptr).mp
        (List.mem_map.mpr ⟨b, full ▸ List.mem_cons_self, rfl⟩)
      rw [same, freed] at used
      simp at used
  · have differ : t ≠ blockType size := fun same => cls ⟨small, same.symm⟩
    refine followsElse low sound follows effect (if_neg cls) ?_ ?_ (fewerMalloc cls) (by simp)
    · simp [popped, State.clear, differ]
    · rw [popsLedger small full]
      exact Function.update_of_ne differ _ _

theorem movesFollows {b : Block} {ptr v length : Nat} {earlier : List Call} (owned : b ∈ live h)
    (found : (ledger h).find ptr = some b) (small : b.Small)
    (room : σ.highVaddr + pageSize ≤ largeObjVaddrStart) (tries : Tries σ.clear b.ptr earlier)
    (event : e = ⟨.xxfree ptr, .value v,
      .mremap (roundDown b.ptr pageSize) length pageSize σ.highVaddr :: earlier⟩)
    (effect : Effect h σ e (recycled (blockType b.size) b.ptr e.calls σ.clear)) :
    Follows t (e :: h) (recycled (blockType b.size) b.ptr e.calls σ.clear)
      (stockOf t (acts (.small t) (e :: h))) := by
  have inv := sound.agrees.inv
  have sorted := sound.agrees.sorted b owned small
  have used := (heldSmall small).mp (sound.agrees.held b owned)
  subst event
  by_cases cls : Kind.Of (.small t) b.size
  · obtain rfl := cls.2
    rw [actsFree found cls, stockOf]
    have known := (follows.place b owned cls).2
    have target := targetPage inv b.ptr
    refine followsFree follows owned found cls sorted rfl
      (by simp [recycled, pushed, relocated, State.clear])
      (movedCanonical sound owned small room tries (by simp [known])) fun c relevant => ?_
    have others : Stands own (blockType b.size) c.ptr ∧ c.ptr / pageSize ≠ b.ptr / pageSize := by
      rcases relevant with freed | ⟨there, ofCls⟩
      · have listed := (inv.chained (blockType b.size) low c.ptr).mp
          (List.mem_map.mpr ⟨c, freed, rfl⟩)
        refine ⟨⟨true, listed⟩, fun same => ?_⟩
        rw [same, used] at listed
        simp at listed
      · obtain ⟨there, differ⟩ := withoutMember.mp there
        refine ⟨liveStands sound there ofCls, fun same => differ ?_⟩
        exact heldApart inv (sound.agrees.held c there) (sound.agrees.held b owned)
          (spansSelf _ _) ((spansSmall small).mpr same)
    obtain ⟨stands, apart⟩ := others
    refine ⟨fun same => ?_, canonicalKept sound effect stands (freedApart found fun _ => apart)⟩
    obtain ⟨free, owns⟩ := stands
    rw [same] at owns
    exact (pageSmall sound owns).2 room target.1
  · have differ : t ≠ blockType b.size := fun same => cls ⟨small, same.symm⟩
    refine followsElse low sound follows effect ((seenFree found).trans (if_neg cls)) ?_ ?_
      (fewerFree found) fun p stands => freedApart found fun _ same => ?_
    · simp [recycled, pushed, relocated, State.clear, differ]
    · rw [movesLedger found small, sorted]
      exact Function.update_of_ne differ _ _
    · obtain ⟨free, owns⟩ := stands
      rw [same, used] at owns
      simp only [Option.some.injEq, Use.small.injEq] at owns
      exact differ owns.1.symm

theorem effectFollows (aligned : Aligned (backing h)) (effect : Effect h σ e σ') :
    Follows t (e :: h) σ' (stockOf t (acts (.small t) (e :: h))) := by
  have whole := effect
  cases effect with
  | carves small empty room => exact carvesFollows low sound follows small empty room rfl whole
  | pops small full => exact popsFollows low sound follows aligned small full whole
  | @maps size big fits room =>
    have cls : ¬ Kind.Of (.small t) size := fun h => Nat.not_le.mpr big h.1
    refine followsElse low sound follows whole (if_neg cls) rfl ?_ (fewerMalloc cls) (by simp)
    rw [mapsLedger big]
    rfl
  | moves owned found small room tries =>
    exact movesFollows low sound follows owned found small room tries rfl whole
  | @unmaps b ptr v owned found big =>
    refine followsElse low sound follows whole
      ((seenFree found).trans (if_neg fun h => big h.1)) rfl ?_ (fewerFree found) fun _ _ =>
        freedApart found fun small => absurd small big
    rw [unmapsLedger found big]
  | @rests op reply m quiet =>
    refine followsElse low sound follows whole (seenQuiet quiet) rfl ?_ ?_ ?_
    · rw [restsLedger quiet]
    · intro c there _
      rwa [live, restsLedger quiet] at there
    · rintro p stands ptr v b rfl rfl
      cases quiet with
      | idle idle => cases idle

end

theorem startedFollows (low : t < numBlockTypes) (begun : Started pid σ) :
    Follows t [] σ (stockOf t []) := by
  obtain ⟨fd, size, calls, rfl⟩ := startedState begun
  refine ⟨congrArg Freelist.highCanonicalAddr (if_pos low), rfl, rfl, ?_, rfl⟩
  simp [live, ledger]

theorem effectLarge (effect : Effect h σ e σ')
    (next : σ.largeObjNextPage = largeNext (acts .large h))
    (served : largeAddresses h = largeServed (acts .large h)) :
    σ'.largeObjNextPage = largeNext (acts .large (e :: h)) ∧
      largeAddresses (e :: h) = largeServed (acts .large (e :: h)) := by
  have still : seen .large h e = .other → σ'.largeObjNextPage = σ.largeObjNextPage →
      σ'.largeObjNextPage = largeNext (acts .large (e :: h)) ∧
      largeAddresses (e :: h) = largeServed (acts .large (e :: h)) := by
    intro other same
    rw [(otherKept other).2.2, same, ← next, ← served]
    simp only [largeAddresses, other, and_self]
  cases effect with
  | carves small empty room => exact still (if_neg (Nat.not_lt.mpr small)) rfl
  | pops small full => exact still (if_neg (Nat.not_lt.mpr small)) rfl
  | @maps size big fits room =>
    have cls : Kind.Of .large size := big
    have advance := (@bigMappedFields σ.clear (bigPages size) fits room).2
    rw [actsAlloc cls, largeNext, largeServed, Kind.label, ← next, ← served]
    refine ⟨advance.trans ?_, ?_⟩
    · rw [Nat.mul_comm]
      rfl
    · simp only [largeAddresses, seenMalloc, if_pos cls]
  | moves owned found small room tries =>
    exact still ((seenFree found).trans (if_neg (Nat.not_lt.mpr small))) rfl
  | @unmaps b ptr v owned found big =>
    have cls : Kind.Of .large b.size := Nat.not_le.mp big
    rw [actsFree found cls, largeNext, largeServed, ← next, ← served]
    refine ⟨rfl, ?_⟩
    simp only [largeAddresses, seenFree found, if_pos cls]
  | rests quiet => exact still (seenQuiet quiet) rfl

theorem runFollows (low : t < numBlockTypes) (run : Run pid (reliably pid) Within h σ) :
    Follows t h σ (stockOf t (acts (.small t) h)) :=
  (runEffects (P := fun h σ => Follows t h σ (stockOf t (acts (.small t) h)) ∧ Aligned (backing h))
    (fun _ begun => ⟨startedFollows low begun, fun _ _ none => by cases none⟩)
    (fun _ _ _ _ _ sound ⟨follows, aligned⟩ effect =>
      ⟨effectFollows low sound follows aligned effect, effectAligned sound aligned effect⟩)
    (runWiden reliablyWider run)).1.1

theorem runLarge (run : Run pid (reliably pid) Within h σ) :
    largeAddresses h = largeServed (acts .large h) :=
  (runEffects (P := fun h σ => σ.largeObjNextPage = largeNext (acts .large h) ∧
      largeAddresses h = largeServed (acts .large h))
    (fun σ begun => by
      obtain ⟨fd, size, calls, rfl⟩ := startedState begun
      exact ⟨rfl, rfl⟩)
    (fun _ _ _ _ _ _ ⟨next, served⟩ effect => effectLarge effect next served)
    (runWiden reliablyWider run)).1.2

theorem servedPlaced (t : Nat) (as : List Act) : ∀ x ∈ (stockOf t as).served,
    ∃ c, x.canonical = some c ∧ x.offset = c % pageSize := by
  induction as with
  | nil => simp [stockOf, Stock.init]
  | cons a as ih =>
    intro x member
    cases a with
    | alloc label =>
      simp only [stockOf, Stock.act] at member
      split at member <;> rcases List.mem_cons.mp member with rfl | old
      · exact ⟨_, rfl, rfl⟩
      · exact ih x old
      · exact ⟨_, rfl, rfl⟩
      · exact ih x old
    | free number => exact ih x member

theorem classesIsolated {pid' : Nat} {h' : History} {τ : State}
    (left : Run pid (reliably pid) Within h σ) (right : Run pid' (reliably pid') Within h' τ) :
    (∀ t < numBlockTypes, acts (.small t) h = acts (.small t) h' →
      handouts t h = handouts t h' ∧
      ∀ x ∈ handouts t h, ∃ c, x.canonical = some c ∧ x.offset = c % pageSize) ∧
    (acts .large h = acts .large h' → largeAddresses h = largeAddresses h') := by
  refine ⟨fun t low same => ?_, fun same => ?_⟩
  · have one := (runFollows low left).served
    have other := (runFollows low right).served
    rw [← same] at other
    exact ⟨one.trans other.symm, one ▸ servedPlaced t _⟩
  · rw [runLarge left, runLarge right, same]

def besideOne : State := carved 0 (besideBig.gFlsts 0) besideBig.clear

def besideHistory : History :=
  ⟨.xxmalloc 16, .value RetryDamage.leftBlock.ptr, besideOne.calls⟩ :: bigHistory

theorem besideRun : Run 1 (reliably 1) Within besideHistory besideOne :=
  .next (bigRun (by decide)) (.returned ⟨steadyReliable, .xxmalloc 16⟩
    (carveCall rfl rfl (by decide) (by decide) (by decide)) (by decide))

theorem besideLargeIsolated :
    handouts 0 RetryDamage.oneHistory = handouts 0 besideHistory ∧
    handouts 0 besideHistory = [⟨16, some 16, none⟩] :=
  ⟨((classesIsolated RetryDamage.oneRun besideRun).1 0 (by decide) (by decide)).1, by decide⟩

end Nuaf.ClassIsolation
