import Nuaf.Library.LockOrder
import Nuaf.Library.OwnerTable
import Nuaf.Locks
import Nuaf.OnePage

/-! Deadlock over g_m and g_big_obj_m. The allocator's own paths take the two in one order, so
the only circles are those a handler closes that exit() ran inside a locked region. -/
namespace Nuaf.Locks
open Layout Machine Source Heap LockOrder OwnerTable Exhaustion

/- A thread that exit() left with a mutex takes no other, except g_big_obj_m on top of g_m. A
thread that holds none may always take one. -/
def Orderly (s : Process) : Event → Prop
  | .asked τ r => ∀ m, s.owner m = some τ → m = .gM ∧ r.mutex = .gBigObjM
  | .freezes τ => ∀ m, s.owner m ≠ some τ
  | _ => True

def Mutex.rank : Mutex → Nat
  | .gM => 0
  | .gBigObjM => 1

def Circular (s : Process) (τ : Nat) : Prop := Relation.TransGen (Blocked s.asks s.owner) τ τ

variable {pid τ υ : Nat} {policy : Policy} {h : List Event} {s s' : Process} {e : Event}

def InOrder (s : Process) : Prop := Ordered Mutex.rank s.asks s.owner

theorem stepOrdered (ordered : InOrder s) (taken : Step pid Orderly s e s') : InOrder s' := by
  have quiet : ∀ τ p, p.asking = none → InOrder (s.goto τ p) := by
    intro τ p silent
    rw [InOrder, asksGoto, silent]
    exact orderedRest ordered τ
  have asking : ∀ τ p m, p.asking = some m →
      (∀ m', s.owner m' = some τ → m'.rank < m.rank) → InOrder (s.goto τ p) := by
    intro τ p m asks above
    rw [InOrder, asksGoto, asks]
    exact orderedAsk ordered above
  have grown : ∀ τ m p, p.asking = none → InOrder ((s.take τ m).goto τ p) := by
    intro τ m p silent
    rw [InOrder, asksGoto, silent]
    exact orderedTake ordered m
  have loosened : ∀ τ m p, p.asking = none → InOrder ((s.drop m).goto τ p) := by
    intro τ m p silent
    rw [InOrder, asksGoto, silent]
    exact orderedDrop (orderedRest ordered τ) m
  cases taken with
  | @asked τ k entry r heap mine ready allowed call =>
    refine asking τ (.asks r) r.mutex rfl fun m held => ?_
    obtain ⟨rfl, big⟩ := allowed m held
    rw [big]
    decide
  | passed | failed | stored => exact ordered
  | acquired waits vacant => exact grown _ _ _ rfl
  | returned mine here call => exact loosened _ _ _ rfl
  | exited mine here call exits => exact quiet _ _ rfl
  | left here call => exact quiet _ _ rfl
  | @freezes τ ready allowed =>
    exact asking τ (.locking .gM) .gM rfl fun m held => absurd held (allowed m)
  | @lockedFirst τ waits vacant =>
    have asked : s.asks τ = some .gM := by
      rw [Process.asks, Function.comp_apply, waits]
      rfl
    rw [InOrder, asksGoto]
    exact orderedNext ordered asked (by decide)
  | lockedSecond waits vacant => exact grown _ _ _ rfl
  | thaws here => exact loosened _ _ _ rfl
  | thawed here => exact loosened _ _ _ rfl

theorem runOrdered (run : Run pid Orderly h s) : InOrder s :=
  @Trace.runInvariant _ _ _ _ h s (fun _ s => InOrder s)
    (fun s begun => by subst begun; intro τ m asked; cases asked)
    (fun _ _ _ _ ordered taken => stepOrdered ordered taken) run

def Place.holds : Place → List Mutex
  | .inside r => [r.mutex]
  | .locking .gBigObjM => [.gM]
  | .frozen => [.gM, .gBigObjM]
  | .thawing => [.gBigObjM]
  | _ => []

def Guarded (s : Process) : Prop := OwnerTable.Guarded (fun p m => m ∈ p.holds) s.owner s.place

theorem stepGuarded (guarded : Guarded s) (taken : Step pid policy s e s') : Guarded s' := by
  cases taken with
  | asked => exact guardedGoto guarded (by simp [Place.holds])
  | passed | failed | stored => exact guarded
  | acquired waits vacant =>
    exact guardedTake guarded vacant fun m needs => .inl (List.mem_singleton.mp needs)
  | @returned τ k r v heap mine here call =>
    exact guardedDrop guarded (guarded τ r.mutex (by simp [here, Place.holds])) (by simp [Place.holds])
  | exited | left | freezes => exact guardedGoto guarded (by simp [Place.holds])
  | lockedFirst waits vacant =>
    exact guardedTake guarded vacant fun m needs => .inl (List.mem_singleton.mp needs)
  | @lockedSecond τ waits vacant =>
    have first := guarded τ .gM (by simp [waits, Place.holds])
    refine guardedTake guarded vacant fun m needs => ?_
    cases m with
    | gM => exact .inr first
    | gBigObjM => exact .inl rfl
  | @thaws τ here =>
    have second := guarded τ .gBigObjM (by simp [here, Place.holds])
    refine guardedDrop guarded (guarded τ .gM (by simp [here, Place.holds])) fun n needs => ?_
    rw [List.mem_singleton.mp needs]
    exact ⟨by decide, second⟩
  | @thawed τ here =>
    exact guardedDrop guarded (guarded τ .gBigObjM (by simp [here, Place.holds]))
      (by simp [Place.holds])

theorem runGuarded (run : Run pid policy h s) : Guarded s :=
  @Trace.runInvariant _ _ _ _ h s (fun _ s => Guarded s)
    (fun s begun => by subst begun; intro τ m needs; cases needs)
    (fun _ _ _ _ guarded taken => stepGuarded guarded taken) run

theorem regionsExclusive (run : Run pid policy h s) {r r' : Region} (left : s.place τ = .inside r)
    (right : s.place υ = .inside r') (same : r.mutex = r'.mutex) : τ = υ := by
  exact guardedAlone (runGuarded run) (by simp [left, Place.holds])
    (show r.mutex ∈ _ by simp [right, Place.holds, same])

theorem enterMalloc {k : Kernel} {σ : State} (par : σ.parPs = k.pid) (size : Nat) :
    enter k (.xxmalloc size) σ =
      .ok (some (if largestBlockSize < size then .map size else .pop size)) σ :=
  bindOk (ensureInitRun par)

theorem noCircle (run : Run pid Orderly h s) (τ : Nat) : ¬ Circular s τ :=
  orderedAcyclic (runOrdered run) τ

def refusing : Kernel := { steady with mmapGrants := false }

def entered (r : Region) : Process := { start.goto 0 (.asks r) with heap := begun }

def insideOf (r : Region) : Process := ((entered r).take 0 r.mutex).goto 0 (.inside r)

def exitedFrom (r : Region) (heap : State) : Process :=
  { (insideOf r).goto 0 .host with heap := heap }

def exitTrace (r : Region) : List Event := [.advanced 0, .advanced 0, .asked 0 r]

theorem refusedExits {size : Nat} {r : Region} {heap : State}
    (region : (if largestBlockSize < size then .map size else .pop size) = r)
    (refused : r.body refusing begun = .error (.exit 1) heap)
    (allowed : policy start (.asked 0 r)) : Run 1 policy (exitTrace r) (exitedFrom r heap) := by
  have first : enter refusing (.xxmalloc size) image = .ok (some r) begun := by
    rw [← region]
    rfl
  have asked : Step 1 policy start (.asked 0 r) (entered r) := .asked rfl rfl allowed first
  have acquired : Step 1 policy (entered r) (.advanced 0) (insideOf r) :=
    .acquired (placeSelf start 0 (.asks r)) rfl
  exact .next (.next (.next (.init rfl) asked) acquired)
    (.exited rfl (placeSelf _ 0 (.inside r)) refused trivial)

theorem exitedHost (r : Region) (heap : State) (τ : Nat) : (exitedFrom r heap).place τ = .host := by
  by_cases same : τ = 0
  · subst same
    exact placeSelf (insideOf r) 0 .host
  · exact (@placeOther 0 τ (insideOf r) same _).trans
      ((@placeOther 0 τ ((entered r).take 0 r.mutex) same _).trans (@placeOther 0 τ start same _))

theorem asksAgain {size : Nat} {r : Region} (par : s.heap.parPs = 1) (ready : s.place τ = .host)
    (region : (if largestBlockSize < size then .map size else .pop size) = r)
    (allowed : policy s (.asked τ r)) : Step 1 policy s (.asked τ r) (s.goto τ (.asks r)) :=
  @Step.asked 1 policy s τ refusing (.xxmalloc size) r s.heap rfl ready allowed
    (region ▸ enterMalloc par size)

theorem asksGone (s : Process) (τ : Nat) (r : Region) :
    (s.goto τ (.asks r)).asks τ = some r.mutex := by
  rw [asksGoto, Function.update_self]
  rfl

def popHeap : State := { begun with calls := .mmap mmapMinAddr pageSize 0 :: begun.calls }

def mapHeap : State := { begun with
  calls := .mmap largeObjVaddrStart (wrap (bigPages 4096 * pageSize)) 0 :: begun.calls }

theorem popRefused : Region.body refusing (.pop 16) begun = .error (.exit 1) popHeap := by
  have no : ¬ (refusing.mmapGrants = true ∧ 0 < pageSize ∧ begun.highVaddr + pageSize ≤ taskSize) :=
    by decide
  rw [Region.body, popEmpty (by decide) rfl, carve, bindOk (getRun _), bindOk (mmapRefused no _)]
  rfl

theorem mapRefused : Region.body refusing (.map 4096) begun = .error (.exit 1) mapHeap := by
  have no : ¬ (refusing.mmapGrants = true ∧ 0 < wrap (bigPages 4096 * pageSize) ∧
      begun.largeObjNextPage + wrap (bigPages 4096 * pageSize) ≤ taskSize) := by decide
  rw [Region.body, bigMap, bindOk (getRun _), bindOk (mmapRefused no _)]
  rfl

def nested : Process := (exitedFrom (.pop 16) popHeap).goto 0 (.asks (.map 4096))

theorem nestedRun : Run 1 Orderly (.asked 0 (.map 4096) :: exitTrace (.pop 16)) nested := by
  have run := @refusedExits Orderly 16 (.pop 16) popHeap rfl popRefused fun m held => by cases held
  refine .next run (@asksAgain 0 Orderly _ 4096 _ rfl (exitedHost _ _ 0) rfl fun m held => ?_)
  cases m with
  | gM => exact ⟨rfl, rfl⟩
  | gBigObjM => cases held

theorem nestedNoCircle : ¬ Circular nested 0 := noCircle nestedRun 0

theorem selfWait : ∃ h s, Run 1 (fun _ _ => True) h s ∧ Blocked s.asks s.owner 0 0 := by
  have run := @refusedExits (fun _ _ => True) 16 (.pop 16) popHeap rfl popRefused trivial
  exact ⟨_, _, .next run (@asksAgain 0 _ _ 16 _ rfl (exitedHost _ _ 0) rfl trivial),
    .gM, asksGone _ 0 (.pop 16), rfl⟩

theorem crossedWait : ∃ h s, Run 1 (fun _ _ => True) h s ∧
    Blocked s.asks s.owner 0 1 ∧ Blocked s.asks s.owner 1 0 := by
  let s := exitedFrom (.map 4096) mapHeap
  let locking := s.goto 1 (.locking .gM)
  let locked := (locking.take 1 .gM).goto 1 (.locking .gBigObjM)
  have run := @refusedExits (fun _ _ => True) 4096 (.map 4096) mapHeap rfl mapRefused trivial
  have freezes : Step 1 (fun _ _ => True) s (.freezes 1) locking := .freezes (exitedHost _ _ 1) trivial
  have first : Step 1 (fun _ _ => True) locking (.advanced 1) locked :=
    .lockedFirst (placeSelf s 1 _) rfl
  have host : locked.place 0 = .host :=
    (@placeOther 1 0 (locking.take 1 .gM) (by decide) _).trans
      ((@placeOther 1 0 s (by decide) (.locking .gM)).trans (exitedHost _ _ 0))
  have asked := @asksAgain 0 (fun _ _ => True) locked 16 _ rfl host rfl trivial
  refine ⟨_, _, .next (.next (.next run freezes) first) asked,
    ⟨.gM, asksGone locked 0 (.pop 16), rfl⟩, .gBigObjM, ?_, rfl⟩
  rw [asksGoto, Function.update_of_ne (by decide), asksGoto, Function.update_self]
  rfl

theorem exitDeadlocks : (¬ ∀ pid h s, Run pid (fun _ _ => True) h s →
      ∀ τ, ¬ Blocked s.asks s.owner τ τ) ∧
    ¬ ∀ pid h s, Run pid (fun _ _ => True) h s → ∀ τ υ, τ ≠ υ →
      ¬ (Blocked s.asks s.owner τ υ ∧ Blocked s.asks s.owner υ τ) := by
  constructor
  · intro always
    obtain ⟨h, s, run, waits⟩ := selfWait
    exact always 1 h s run 0 waits
  · intro always
    obtain ⟨h, s, run, left, right⟩ := crossedWait
    exact always 1 h s run 0 1 (by decide) ⟨left, right⟩

end Nuaf.Locks
