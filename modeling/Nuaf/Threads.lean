import Nuaf.Ownership
import Nuaf.Library.Trace

/-! Threads inside the allocator. `next` takes one atomic step of a call: a region under a
mutex, or one access to memory outside of any; `finish` runs a call alone and is the source
function. A system step is `next` of any one thread, or the program's own doing. num_mappings is
counted in the step it belongs to here, though the code has no one lock for it. -/
namespace Nuaf.Threads
open Layout Machine Source Heap

/- Where a thread is. `ptr` names the pointer its call was given, `size` the request;
`freeing` tells the scan of xxfree from that of xxmalloc_usable_size. -/
inductive Pc where
  | idle
  | malloc (size : Nat)
  | magic (size shadow : Nat)
  | count (size shadow : Nat)
  | got (size ptr : Nat)
  | free (ptr : Nat)
  | query (ptr : Nat)
  | scan (freeing : Bool) (ptr page : Nat)
  | pages (freeing : Bool) (ptr page : Nat)
  | rescan (ptr objSize page : Nat)
  | unmapping (ptr start objSize : Nat)
  | moving (ptr start : Nat)
  | freed
  | answered (size : Nat)
  deriving DecidableEq, Repr

def Pc.named : Pc → Option Nat
  | .free ptr | .query ptr | .scan _ ptr _ | .pages _ ptr _ => some ptr
  | .rescan ptr _ _ | .unmapping ptr _ _ | .moving ptr _ => some ptr
  | _ => none

def Pc.pending : Pc → Option Nat
  | .magic _ shadow | .count _ shadow => some shadow
  | _ => none

def release (ptr start objSize : Nat) : Pc :=
  if isLarge start then .unmapping ptr start objSize else .moving ptr start

def look (page : Nat) (found : Pc) (below : Nat → Pc) : AllocM Pc := do
  let word ← readWord (pageSize * page) 8
  if word = largeObjStartMagic then pure found
  else match page with
    | 0 => throw (.segv (subWrap 0 pageSize))
    | page + 1 => pure (below page)

def next (k : Kernel) : Pc → AllocM Pc
  | .malloc size => do
    ensureInit k
    if largestBlockSize < size then
      let shadow ← bigMap k (bigPages size)
      pure (.magic size shadow)
    else
      let p ← freelistPop k size
      pure (.got size p)
  | .magic size shadow => do
    writeWord shadow 8 largeObjStartMagic
    pure (.count size shadow)
  | .count size shadow => do
    writeWord (shadow + 8) 8 (bigPages size)
    pure (.got size (shadow + 16))
  | .free ptr => do
    ensureInit k
    if ptr = 0 then pure .freed
    else if isLarge ptr then pure (.scan true ptr (ptr / pageSize))
    else
      let objSize ← xxmallocUsableSize ptr
      let start ← getObjStart ptr objSize
      pure (release ptr start objSize)
  | .query ptr => do
    if ptr = 0 then pure (.answered 0)
    else if isLarge ptr then pure (.scan false ptr (ptr / pageSize))
    else
      let size ← xxmallocUsableSize ptr
      pure (.answered size)
  | .scan freeing ptr page => look page (.pages freeing ptr page) (.scan freeing ptr)
  | .pages freeing ptr page => do
    let numPages ← readWord (pageSize * page + 8) 8
    let size := subWrap (wrap (numPages * pageSize)) 16
    pure (if freeing then .rescan ptr size (ptr / pageSize) else .answered size)
  | .rescan ptr objSize page =>
    look page (release ptr (pageSize * page) objSize) (.rescan ptr objSize)
  | .unmapping _ start objSize => do freeLarge start objSize; pure .freed
  | .moving _ start => do freeSmall k start; pure .freed
  | pc => pure pc

def finish (k : Kernel) : Nat → Pc → AllocM Pc
  | 0, pc => pure pc
  | n + 1, pc => do
    let pc ← next k pc
    finish k n pc

variable {k : Kernel} {n : Nat}

theorem finishGot (size ptr : Nat) : finish k n (.got size ptr) = pure (.got size ptr) := by
  induction n with
  | zero => rfl
  | succ n ih => simp only [finish, next, pure_bind, ih]

theorem finishFreed : finish k n .freed = pure .freed := by
  induction n with
  | zero => rfl
  | succ n ih => simp only [finish, next, pure_bind, ih]

theorem finishAnswered (size : Nat) : finish k n (.answered size) = pure (.answered size) := by
  induction n with
  | zero => rfl
  | succ n ih => simp only [finish, next, pure_bind, ih]

theorem finishMalloc (size : Nat) : finish k (n + 3) (.malloc size) = (do
    let ptr ← xxmalloc k size
    pure (.got size ptr)) := by
  simp only [finish, next, xxmalloc, bind_assoc]
  congr 1
  funext _
  split
  · simp only [xxmallocBig, bind_assoc, pure_bind, finishGot]
    rfl
  · simp only [bind_assoc, pure_bind, finishGot]

theorem finishScan {m : Nat} {place found : Nat → Pc} {f : Nat → AllocM Pc}
    (looks : ∀ page, next k (place page) = look page (found page) place)
    (enough : ∀ n, m ≤ n → ∀ page, finish k n (found page) = f page) (page : Nat)
    (fuel : page + 1 + m ≤ n) : finish k n (place page) = (do
      let page ← scanHeader page
      f page) := by
  induction page generalizing n with
  | zero =>
    obtain ⟨n, rfl⟩ : ∃ i, n = i + 1 := ⟨n - 1, by omega⟩
    simp only [finish, looks, look, scanHeader, bind_assoc]
    congr 1
    funext word
    split
    · simp only [pure_bind, enough n (by omega)]
    · rfl
  | succ page ih =>
    obtain ⟨n, rfl⟩ : ∃ i, n = i + 1 := ⟨n - 1, by omega⟩
    simp only [finish, looks, look, scanHeader, bind_assoc]
    congr 1
    funext word
    split
    · simp only [pure_bind, enough n (by omega)]
    · simp only [pure_bind, ih (by omega : page + 1 + m ≤ n)]

def freeFrom (k : Kernel) (start objSize : Nat) : AllocM Pc :=
  (if isLarge start then freeLarge start objSize else freeSmall k start) >>= fun _ => pure .freed

theorem finishRelease (ptr start objSize : Nat) (fuel : 1 ≤ n) :
    finish k n (release ptr start objSize) = freeFrom k start objSize := by
  obtain ⟨n, rfl⟩ : ∃ i, n = i + 1 := ⟨n - 1, by omega⟩
  unfold release freeFrom
  split <;> simp only [finish, next, bind_assoc, pure_bind, finishFreed]

theorem finishFree (ptr : Nat) (fuel : 2 * (ptr / pageSize) + 5 ≤ n) :
    finish k n (.free ptr) = (do
      xxfree k ptr
      pure .freed) := by
  obtain ⟨n, rfl⟩ : ∃ i, n = i + 1 := ⟨n - 1, by omega⟩
  have rescans : ∀ objSize i, ptr / pageSize + 1 + 1 ≤ i →
      finish k i (.rescan ptr objSize (ptr / pageSize)) = (do
        let page ← scanHeader (ptr / pageSize)
        freeFrom k (pageSize * page) objSize) := fun objSize i enough =>
    finishScan (fun _ => rfl) (fun _ more page => finishRelease ptr (pageSize * page) objSize more)
      (ptr / pageSize) enough
  have counts : ∀ i, ptr / pageSize + 3 ≤ i → ∀ page, finish k i (.pages true ptr page) = (do
      let numPages ← readWord (pageSize * page + 8) 8
      let start ← scanHeader (ptr / pageSize)
      freeFrom k (pageSize * start) (subWrap (wrap (numPages * pageSize)) 16)) := by
    intro i more page
    obtain ⟨i, rfl⟩ : ∃ j, i = j + 1 := ⟨i - 1, by omega⟩
    simp only [finish, next, bind_assoc, pure_bind, if_true, rescans _ i (by omega)]
  have scans := @finishScan k n _ (.scan true ptr) _ _ (fun _ => rfl) counts (ptr / pageSize)
    (by omega : ptr / pageSize + 1 + (ptr / pageSize + 3) ≤ n)
  simp only [finish, next, xxfree, bind_assoc]
  congr 1
  funext _
  split
  · simp only [pure_bind, finishFreed]
  · rename_i some
    split
    · rename_i large
      simp only [pure_bind, scans, xxmallocUsableSize, getObjStart, if_neg some, if_pos large,
        bind_assoc, freeFrom]
    · simp only [bind_assoc, pure_bind, finishRelease ptr _ _ (by omega : 1 ≤ n), freeFrom]

theorem finishQuery (ptr : Nat) (fuel : ptr / pageSize + 3 ≤ n) :
    finish k n (.query ptr) = (do
      let size ← xxmallocUsableSize ptr
      pure (.answered size)) := by
  obtain ⟨n, rfl⟩ : ∃ i, n = i + 1 := ⟨n - 1, by simp only [pageSize] at fuel; omega⟩
  have counts : ∀ i, 1 ≤ i → ∀ page, finish k i (.pages false ptr page) = (do
      let numPages ← readWord (pageSize * page + 8) 8
      pure (.answered (subWrap (wrap (numPages * pageSize)) 16))) := by
    intro i more page
    obtain ⟨i, rfl⟩ : ∃ j, i = j + 1 := ⟨i - 1, by omega⟩
    simp only [finish, next, bind_assoc, pure_bind, Bool.false_eq_true, if_false, finishAnswered]
  have scans := @finishScan k n _ (.scan false ptr) _ _ (fun _ => rfl) counts (ptr / pageSize)
    (by omega : ptr / pageSize + 1 + 1 ≤ n)
  simp only [finish, next, xxmallocUsableSize]
  split
  · simp only [pure_bind, finishAnswered]
  · split
    · simp only [pure_bind, scans, bind_assoc]
    · simp only [bind_assoc, pure_bind, finishAnswered]

structure Object where
  ptr : Nat
  size : Nat
  deriving DecidableEq, Repr

inductive Event where
  | called (thread : Nat) (pc : Pc)
  | advanced (thread : Nat) (before after : Pc)
  | faulted (thread : Nat) (before : Pc)
  | returned (thread : Nat)
  | stored (thread addr : Nat)
  | handedOver (giver taker : Nat) (object : Object)
  deriving DecidableEq, Repr

abbrev History := List Event

structure System where
  heap : State
  pc : Nat → Pc

def System.goto (s : System) (thread : Nat) (pc : Pc) : System :=
  { s with pc := Function.update s.pc thread pc }

def handed : History → List Object
  | .advanced _ _ (.got size ptr) :: h => ⟨ptr, size⟩ :: handed h
  | _ :: h => handed h
  | [] => []

def moved : History → List Nat
  | .advanced _ (.moving ptr _) .freed :: h => ptr :: moved h
  | _ :: h => moved h
  | [] => []

def keeps (objects : List Object) : Pc → Pc → List Object
  | _, .got size ptr => ⟨ptr, size⟩ :: objects
  | .moving ptr _, .freed => objects.filter (fun o => o.ptr ≠ ptr)
  | .unmapping ptr _ _, .freed => objects.filter (fun o => o.ptr ≠ ptr)
  | _, _ => objects

def owned : History → Nat → List Object
  | [], _ => []
  | .advanced thread before after :: h, τ =>
    if τ = thread then keeps (owned h τ) before after else owned h τ
  | .handedOver giver taker object :: h, τ =>
    let rest := if τ = giver then (owned h τ).filter (fun o => o ≠ object) else owned h τ
    if τ = taker then object :: rest else rest
  | _ :: h, τ => owned h τ

def Pc.Final : Pc → Prop
  | .idle | .got _ _ | .freed | .answered _ => True
  | _ => False

inductive Racing (h : History) : Event → Prop where
  | malloc {τ} (size : Nat) : Racing h (.called τ (.malloc size))
  | freeNull {τ} : Racing h (.called τ (.free 0))
  | free {τ o} (known : o ∈ handed h) : Racing h (.called τ (.free o.ptr))
  | query {τ o} (known : o ∈ handed h) : Racing h (.called τ (.query o.ptr))
  | store {τ o index} (known : o ∈ handed h) (inside : index < usableOf o.size) :
      Racing h (.stored τ (o.ptr + index))
  | handOver {giver taker o} : Racing h (.handedOver giver taker o)

inductive Owning (h : History) : Event → Prop where
  | malloc {τ} (size : Nat) : Owning h (.called τ (.malloc size))
  | free {τ o} (mine : o ∈ owned h τ) : Owning h (.called τ (.free o.ptr))
  | query {τ o} (mine : o ∈ owned h τ) : Owning h (.called τ (.query o.ptr))
  | store {τ o index} (mine : o ∈ owned h τ) (inside : index < usableOf o.size) :
      Owning h (.stored τ (o.ptr + index))
  | handOver {giver taker o} (mine : o ∈ owned h giver) : Owning h (.handedOver giver taker o)

abbrev Policy := History → Event → Prop

/- A call that faults is abandoned: the program may survive the signal. One that exits, or
finds no file behind a page, ends the process. -/
inductive Step (pid : Nat) (policy : Policy) (within : State → Prop) :
    History → System → Event → System → Prop where
  | called {h s τ pc} (ready : s.pc τ = .idle) (allowed : policy h (.called τ pc)) :
      Step pid policy within h s (.called τ pc) (s.goto τ pc)
  | advanced {h s τ k pc heap} (reliable : Reliable pid k) (running : ¬ (s.pc τ).Final)
      (call : next k (s.pc τ) s.heap = .ok pc heap) (limit : within heap) :
      Step pid policy within h s (.advanced τ (s.pc τ) pc) { s.goto τ pc with heap := heap }
  | faulted {h s τ k addr heap} (reliable : Reliable pid k)
      (call : next k (s.pc τ) s.heap = .error (.segv addr) heap) (limit : within heap) :
      Step pid policy within h s (.faulted τ (s.pc τ)) { s.goto τ .idle with heap := heap }
  | returned {h s τ} (done : (s.pc τ).Final) :
      Step pid policy within h s (.returned τ) (s.goto τ .idle)
  | stored {h s τ addr heap} {byte : UInt8} (ready : s.pc τ = .idle)
      (allowed : policy h (.stored τ addr))
      (call : writeWord addr 1 byte.toNat s.heap = .ok () heap) :
      Step pid policy within h s (.stored τ addr) { s with heap := heap }
  | handedOver {h s giver taker o} (ready : s.pc giver = .idle)
      (allowed : policy h (.handedOver giver taker o)) :
      Step pid policy within h s (.handedOver giver taker o) s

def Began (pid : Nat) (s : System) : Prop := Started pid s.heap ∧ ∀ τ, s.pc τ = .idle

abbrev Run (pid : Nat) (policy : Policy) (within : State → Prop) : History → System → Prop :=
  Trace.Run (Began pid) (Step pid policy within)

end Nuaf.Threads
