import Mathlib.Logic.Function.Basic
import Nuaf.AllocatorSource
import Nuaf.Library.Outcomes
import Nuaf.Library.Trace

/-! The two mutexes of allocator.c. A call is cut at its pthread_mutex_lock and its unlock; exit()
inside a locked region runs the host program's handlers with the mutex still held. -/
namespace Nuaf.Locks
open Layout Machine Source

inductive Mutex where
  | gM
  | gBigObjM
  deriving DecidableEq, Repr

inductive Entry where
  | xxmalloc (size : Nat)
  | xxfree (ptr : Nat)
  deriving DecidableEq, Repr

inductive Region where
  | pop (size : Nat)
  | map (size : Nat)
  | move (ptr : Nat)
  deriving DecidableEq, Repr

def Region.mutex : Region → Mutex
  | .pop _ | .move _ => .gM
  | .map _ => .gBigObjM

def enter (k : Kernel) : Entry → AllocM (Option Region)
  | .xxmalloc size => do
    ensureInit k
    pure (some (if largestBlockSize < size then .map size else .pop size))
  | .xxfree ptr => do
    ensureInit k
    if ptr = 0 then pure none
    else
      let objSize ← xxmallocUsableSize ptr
      let start ← getObjStart ptr objSize
      if isLarge start then
        freeLarge start objSize
        pure none
      else pure (some (.move start))

def Region.body (k : Kernel) : Region → AllocM Nat
  | .pop size => freelistPop k size
  | .map size => bigMap k (bigPages size)
  | .move ptr => do
    freeSmall k ptr
    pure 0

def leave : Region → Nat → AllocM Nat
  | .map size, shadow => do
    writeWord shadow 8 largeObjStartMagic
    writeWord (shadow + 8) 8 (bigPages size)
    pure (shadow + 16)
  | .pop _, objVaddr => pure objVaddr
  | .move _, _ => pure 0

def whole (k : Kernel) (entry : Entry) : AllocM Nat := do
  match ← enter k entry with
  | none => pure 0
  | some r =>
    let v ← r.body k
    leave r v

theorem mallocCut (k : Kernel) (size : Nat) : xxmalloc k size = whole k (.xxmalloc size) := by
  simp only [xxmalloc, whole, enter, bind_assoc, pure_bind]
  refine bind_congr fun _ => ?_
  split
  · rfl
  · simp only [Region.body, leave, bind_pure]

theorem freeCut (k : Kernel) (ptr : Nat) :
    (do xxfree k ptr; pure 0) = whole k (.xxfree ptr) := by
  simp only [xxfree, whole, enter, bind_assoc]
  refine bind_congr fun _ => ?_
  split
  · simp only [pure_bind]
  · simp only [bind_assoc]
    refine bind_congr fun objSize => bind_congr fun start => ?_
    split
    · simp only [bind_assoc, pure_bind]
    · simp only [pure_bind, Region.body, leave, bind_assoc]

/- Where a thread is. The handlers exit() runs are code of the program like any other; from
between xxmalloc_lock (locking) and xxmalloc_unlock (thawing) the program makes no call. -/
inductive Place where
  | host
  | asks (r : Region)
  | inside (r : Region)
  | leaving (r : Region) (v : Nat)
  | locking (m : Mutex)
  | frozen
  | thawing
  deriving DecidableEq, Repr

def Place.asking : Place → Option Mutex
  | .asks r => some r.mutex
  | .locking m => some m
  | _ => none

structure Process where
  heap : State
  owner : Mutex → Option Nat
  place : Nat → Place

def Process.asks (s : Process) : Nat → Option Mutex := Place.asking ∘ s.place

def Process.goto (s : Process) (thread : Nat) (p : Place) : Process :=
  { s with place := Function.update s.place thread p }

def Process.take (s : Process) (thread : Nat) (m : Mutex) : Process :=
  { s with owner := Function.update s.owner m (some thread) }

def Process.drop (s : Process) (m : Mutex) : Process :=
  { s with owner := Function.update s.owner m none }

def start : Process := ⟨image, fun _ => none, fun _ => .host⟩

def Exits : Halt → Prop
  | .exit _ | .segv _ => True
  | .bus _ | .undefined => False

inductive Event where
  | asked (thread : Nat) (r : Region)
  | freezes (thread : Nat)
  | advanced (thread : Nat)
  | stored
  deriving DecidableEq, Repr

abbrev Policy := Process → Event → Prop

/- The kernel may answer every call as it likes, and memory and globals may change in any way
between two steps: by the program, or by the parts of calls that take no lock. -/
inductive Step (pid : Nat) (policy : Policy) : Process → Event → Process → Prop where
  | asked {s τ k entry r heap} (mine : k.pid = pid) (ready : s.place τ = .host)
      (allowed : policy s (.asked τ r)) (call : enter k entry s.heap = .ok (some r) heap) :
      Step pid policy s (.asked τ r) { s.goto τ (.asks r) with heap := heap }
  | passed {s τ k entry heap} (mine : k.pid = pid) (ready : s.place τ = .host)
      (call : enter k entry s.heap = .ok none heap) :
      Step pid policy s (.advanced τ) { s with heap := heap }
  | failed {s τ k entry e heap} (mine : k.pid = pid) (ready : s.place τ = .host)
      (call : enter k entry s.heap = .error e heap) (exits : Exits e) :
      Step pid policy s (.advanced τ) { s with heap := heap }
  | acquired {s τ r} (waits : s.place τ = .asks r) (vacant : s.owner r.mutex = none) :
      Step pid policy s (.advanced τ) ((s.take τ r.mutex).goto τ (.inside r))
  | returned {s τ k r v heap} (mine : k.pid = pid) (here : s.place τ = .inside r)
      (call : r.body k s.heap = .ok v heap) :
      Step pid policy s (.advanced τ)
        { (s.drop r.mutex).goto τ (.leaving r v) with heap := heap }
  /- the mutex stays locked, and the handlers of the program run in this thread -/
  | exited {s τ k r e heap} (mine : k.pid = pid) (here : s.place τ = .inside r)
      (call : r.body k s.heap = .error e heap) (exits : Exits e) :
      Step pid policy s (.advanced τ) { s.goto τ .host with heap := heap }
  | left {s τ r v heap} (here : s.place τ = .leaving r v)
      (call : Outcomes.final (leave r v s.heap) = heap) :
      Step pid policy s (.advanced τ) { s.goto τ .host with heap := heap }
  | freezes {s τ} (ready : s.place τ = .host) (allowed : policy s (.freezes τ)) :
      Step pid policy s (.freezes τ) (s.goto τ (.locking .gM))
  | lockedFirst {s τ} (waits : s.place τ = .locking .gM) (vacant : s.owner .gM = none) :
      Step pid policy s (.advanced τ) ((s.take τ .gM).goto τ (.locking .gBigObjM))
  | lockedSecond {s τ} (waits : s.place τ = .locking .gBigObjM) (vacant : s.owner .gBigObjM = none) :
      Step pid policy s (.advanced τ) ((s.take τ .gBigObjM).goto τ .frozen)
  | thaws {s τ} (here : s.place τ = .frozen) :
      Step pid policy s (.advanced τ) ((s.drop .gM).goto τ .thawing)
  | thawed {s τ} (here : s.place τ = .thawing) :
      Step pid policy s (.advanced τ) ((s.drop .gBigObjM).goto τ .host)
  | stored {s} (heap : State) : Step pid policy s .stored { s with heap := heap }

abbrev Run (pid : Nat) (policy : Policy) : List Event → Process → Prop :=
  Trace.Run (fun s => s = start) (fun _ => Step pid policy)

variable {τ υ : Nat} {s : Process}

theorem placeSelf (s : Process) (τ : Nat) (p : Place) : (s.goto τ p).place τ = p :=
  Function.update_self _ _ _

theorem placeOther (other : υ ≠ τ) (p : Place) : (s.goto τ p).place υ = s.place υ :=
  Function.update_of_ne other _ _

theorem asksGoto (s : Process) (τ : Nat) (p : Place) :
    (s.goto τ p).asks = Function.update s.asks τ p.asking :=
  Function.comp_update Place.asking s.place τ p

end Nuaf.Locks
