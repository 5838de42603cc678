import Nuaf.Library.OwnerTable
import Nuaf.RegionBodies
import Nuaf.SharedHeap

/-! Threads under their locks, access by access. A locked region is its accesses one at a time, with
those of the other threads in between; it is the mutex alone that keeps anybody out. What the region
comes to is decided nowhere but in its accesses. -/
namespace Nuaf.LockedThreads
open Layout Machine Source Heap Threads CallTree Accesses OwnerTable
open Locks (Region Mutex)

def region : Pc → Option Region
  | .malloc size => some (if largestBlockSize < size then .map size else .pop size)
  | .moving _ start => some (.move start)
  | _ => none

def served : Pc → Nat → Pc
  | .malloc size, v => if largestBlockSize < size then .magic size v else .got size v
  | _, _ => .freed

def opens (k : Kernel) : Pc → AllocM Unit
  | .malloc _ => ensureInit k
  | _ => pure ()

theorem nextRegion {pc : Pc} {r : Region} (here : region pc = some r) (k : Kernel) : next k pc = (do
    opens k pc
    let v ← r.body k
    pure (served pc v)) := by
  cases pc with
  | malloc size =>
    cases here
    simp only [next, opens, served]
    refine bind_congr fun _ => ?_
    split <;> rfl
  | moving ptr start =>
    cases here
    simp only [next, opens, served, Region.body, bind_assoc, pure_bind]
  | _ => cases here

/- Where a thread is: outside of all locks, waiting for the one of its region, in the region with
the accesses it has left, counting the mapping it dropped, or about to fork. -/
inductive Spot where
  | out (pc : Pc)
  | asks (pc : Pc)
  | inside (pc : Pc) (x : Body Nat)
  | counting (x : Body Nat)
  | locking (m : Mutex)
  | frozen
  | thawing

structure System where
  heap : State
  owner : Mutex → Option Nat
  spot : Nat → Spot

def System.goto (s : System) (thread : Nat) (p : Spot) : System :=
  { s with spot := Function.update s.spot thread p }

def System.take (s : System) (thread : Nat) (m : Mutex) : System :=
  { s with owner := Function.update s.owner m (some thread) }

def System.drop (s : System) (m : Mutex) : System :=
  { s with owner := Function.update s.owner m none }

def System.withHeap (s : System) (heap : State) : System := { s with heap := heap }

/- `stepped` is a step with nothing under way: what the threads of the coarser system do too. A
region begins where its mutex is taken and is over where it is given back. -/
inductive Event where
  | stepped (e : Threads.Event)
  | acquired (thread : Nat) (before : Pc)
  | released (thread : Nat) (before after : Pc)
  | went (thread : Nat)

abbrev History := List Event

def told : History → Threads.History
  | [] => []
  | .stepped e :: h => e :: told h
  | .released thread before after :: h => .advanced thread before after :: told h
  | _ :: h => told h

/- No region is entered that would end the process, for lack of addresses or of file, or take
high_vaddr past the start of the large objects. -/
def Room (σ : State) : Region → Prop
  | .pop size => (σ.gFlsts (blockType size)).topOfStack = 0 →
      roundDown (σ.gFlsts (blockType size)).highCanonicalAddr pageSize < σ.fileSize ∧
        σ.highVaddr + pageSize ≤ largeObjVaddrStart
  | .map size => 0 < wrap (bigPages size * pageSize) ∧
      σ.largeObjNextPage + wrap (bigPages size * pageSize) ≤ taskSize
  | .move _ => σ.highVaddr + pageSize ≤ largeObjVaddrStart

inductive Step (pid : Nat) (h : History) (s : System) : Event → System → Prop where
  | called {τ pc} (ready : s.spot τ = .out .idle) (allowed : Owning (told h) (.called τ pc)) :
      Step pid h s (.stepped (.called τ pc)) (s.goto τ (.out pc))
  | advanced {τ k pc pc' heap} (reliable : Reliable pid k) (here : s.spot τ = .out pc)
      (running : ¬ pc.Final) (single : region pc = none ∧ ∀ ptr start size, pc ≠ .unmapping ptr start size)
      (call : next k pc s.heap = .ok pc' heap) :
      Step pid h s (.stepped (.advanced τ pc pc')) ((s.goto τ (.out pc')).withHeap heap)
  | faulted {τ k pc addr heap} (reliable : Reliable pid k) (here : s.spot τ = .out pc)
      (single : region pc = none) (call : next k pc s.heap = .error (.segv addr) heap) :
      Step pid h s (.stepped (.faulted τ pc)) ((s.goto τ (.out .idle)).withHeap heap)
  | unmapped {τ ptr start size op next v heap} (here : s.spot τ = .out (.unmapping ptr start size))
      (body : unmapBody start size = .call op next) (access : op.perform s.heap = .ok v heap) :
      Step pid h s (.stepped (.advanced τ (.unmapping ptr start size) .freed))
        ((s.goto τ (.counting (next v))).withHeap heap)
  | counts {τ op next v heap} (here : s.spot τ = .counting (.call op next))
      (access : op.perform s.heap = .ok v heap) :
      Step pid h s (.went τ) ((s.goto τ (.counting (next v))).withHeap heap)
  | counted {τ v} (here : s.spot τ = .counting (.done v)) :
      Step pid h s (.went τ) (s.goto τ (.out .freed))
  | returned {τ pc} (here : s.spot τ = .out pc) (done : pc.Final) :
      Step pid h s (.stepped (.returned τ)) (s.goto τ (.out .idle))
  | stored {τ addr heap} {byte : UInt8} (ready : s.spot τ = .out .idle)
      (allowed : Owning (told h) (.stored τ addr))
      (call : writeWord addr 1 byte.toNat s.heap = .ok () heap) :
      Step pid h s (.stepped (.stored τ addr)) (s.withHeap heap)
  | handedOver {giver taker o pc} (ready : s.spot giver = .out .idle) (out : s.spot taker = .out pc)
      (allowed : Owning (told h) (.handedOver giver taker o)) :
      Step pid h s (.stepped (.handedOver giver taker o)) s
  | asked {τ k pc r heap} (reliable : Reliable pid k) (here : s.spot τ = .out pc)
      (locked : region pc = some r) (call : opens k pc s.heap = .ok () heap) :
      Step pid h s (.went τ) ((s.goto τ (.asks pc)).withHeap heap)
  | acquired {τ k pc r} (reliable : Reliable pid k) (waits : s.spot τ = .asks pc)
      (locked : region pc = some r) (vacant : s.owner r.mutex = none) (room : Room s.heap r) :
      Step pid h s (.acquired τ pc) ((s.take τ r.mutex).goto τ (.inside pc (regionBody k r)))
  | accessed {τ pc op next v heap} (here : s.spot τ = .inside pc (.call op next))
      (access : op.perform s.heap = .ok v heap) :
      Step pid h s (.went τ) ((s.goto τ (.inside pc (next v))).withHeap heap)
  | released {τ pc r v} (here : s.spot τ = .inside pc (.done v)) (locked : region pc = some r) :
      Step pid h s (.released τ pc (served pc v)) ((s.drop r.mutex).goto τ (.out (served pc v)))
  | freezes {τ} (ready : s.spot τ = .out .idle) :
      Step pid h s (.went τ) (s.goto τ (.locking .gM))
  | lockedFirst {τ} (waits : s.spot τ = .locking .gM) (vacant : s.owner .gM = none) :
      Step pid h s (.went τ) ((s.take τ .gM).goto τ (.locking .gBigObjM))
  | lockedSecond {τ} (waits : s.spot τ = .locking .gBigObjM) (vacant : s.owner .gBigObjM = none) :
      Step pid h s (.went τ) ((s.take τ .gBigObjM).goto τ .frozen)
  | thaws {τ} (here : s.spot τ = .frozen) :
      Step pid h s (.went τ) ((s.drop .gM).goto τ .thawing)
  | thawed {τ} (here : s.spot τ = .thawing) :
      Step pid h s (.went τ) ((s.drop .gBigObjM).goto τ (.out .idle))

def Began (pid : Nat) (s : System) : Prop :=
  Started pid s.heap ∧ s.owner = (fun _ => none) ∧ ∀ τ, s.spot τ = .out .idle

abbrev Run (pid : Nat) : History → System → Prop := Trace.Run (Began pid) (Step pid)

variable {pid τ υ : Nat} {h : History} {s s' : System} {e : Event} {m n : Mutex} {p : Spot}

@[simp] theorem spotSelf : (s.goto τ p).spot τ = p := Function.update_self _ _ _

theorem spotOther (other : υ ≠ τ) : (s.goto τ p).spot υ = s.spot υ := Function.update_of_ne other _ _

def Spot.holds : Spot → Mutex → Prop
  | .inside pc _, m => ∃ r, region pc = some r ∧ r.mutex = m
  | .locking .gBigObjM, m => m = .gM
  | .frozen, _ => True
  | .thawing, m => m = .gBigObjM
  | _, _ => False

def Guarded (s : System) : Prop := OwnerTable.Guarded Spot.holds s.owner s.spot

theorem guardedStep (guarded : Guarded s) (taken : Step pid h s e s') : Guarded s' := by
  cases taken with
  | called | counted | returned | freezes | advanced | faulted | unmapped | counts | asked =>
    exact guardedGoto guarded fun m none => False.elim none
  | stored | handedOver => exact guarded
  | acquired reliable waits locked vacant =>
    refine guardedTake guarded vacant fun m needs => .inl ?_
    obtain ⟨r', here, rfl⟩ := needs
    cases locked.symm.trans here
    rfl
  | @accessed τ pc op next v heap here access =>
    refine guardedGoto guarded fun m needs => guarded τ m ?_
    rw [here]
    exact needs
  | @released τ pc r v here locked =>
    exact guardedDrop guarded (guarded τ r.mutex (by rw [here]; exact ⟨r, locked, rfl⟩))
      fun m none => False.elim none
  | lockedFirst waits vacant => exact guardedTake guarded vacant fun m needs => .inl needs
  | @lockedSecond τ waits vacant =>
    have first := guarded τ .gM (by rw [waits]; rfl)
    refine guardedTake guarded vacant fun m needs => ?_
    cases m with
    | gM => exact .inr first
    | gBigObjM => exact .inl rfl
  | @thaws τ here =>
    refine guardedDrop guarded (guarded τ .gM (by rw [here]; trivial)) fun m needs => ?_
    cases needs
    exact ⟨by decide, guarded τ .gBigObjM (by rw [here]; trivial)⟩
  | @thawed τ here =>
    exact guardedDrop guarded (guarded τ .gBigObjM (by rw [here]; rfl)) fun m none => False.elim none

theorem guardedRun (run : Run pid h s) : Guarded s := by
  refine @Trace.runInvariant _ _ _ _ h s (fun _ s => Guarded s) (fun s begun τ m needs => ?_)
    (fun _ _ _ _ guarded taken => guardedStep guarded taken) run
  rw [begun.2.2 τ] at needs
  exact False.elim needs

end Nuaf.LockedThreads
