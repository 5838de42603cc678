import Nuaf.Deallocation
import Nuaf.Footprint
import Nuaf.Library.Trace

/-! Processes that fork. Two guards decide whether a call runs the body of init_mem: data_fd in
xxmalloc and xxfree, par_ps in init_mem. `base` tells, from the order of calls and forks and
the descriptors alone, which initialisation a process lives on. -/
namespace Nuaf.Processes
open Layout ByteMemory Machine Source Heap Outcomes

inductive Op where
  | initMem
  | xxmalloc (size : Nat)
  | xxfree (ptr : Nat)
  deriving DecidableEq, Repr

def xxfreeRest (k : Kernel) (ptr : Nat) : AllocM Unit :=
  if ptr = 0 then pure ()
  else do
    let objSize ← xxmallocUsableSize ptr
    let start ← getObjStart ptr objSize
    if isLarge start then freeLarge start objSize else freeSmall k start

def guard (k : Kernel) : Op → AllocM Unit
  | .initMem => initMem k
  | _ => ensureInit k

def rest (k : Kernel) : Op → AllocM Nat
  | .initMem => pure 0
  | .xxmalloc size => if largestBlockSize < size then xxmallocBig k size else freelistPop k size
  | .xxfree ptr => do xxfreeRest k ptr; pure 0

def exec (k : Kernel) : Op → AllocM Nat
  | .initMem => do initMem k; pure 0
  | .xxmalloc size => xxmalloc k size
  | .xxfree ptr => do xxfree k ptr; pure 0

/- `descriptor` is what mkstemp answers if the call asks; no reply when the call ended the
process. -/
inductive Event where
  | called (pid : Nat) (op : Op) (descriptor : Int) (reply : Option Nat) (calls : List Call)
  | forked (parent child : Nat)
  deriving DecidableEq, Repr

abbrev History := List Event

abbrev System := Nat → Option State

structure Object where
  ptr : Nat
  size : Nat
  deriving DecidableEq, Repr

def Object.Covers (o : Object) (p : Nat) : Prop := Inside o.ptr o.size p
instance (o : Object) (p : Nat) : Decidable (o.Covers p) := by
  unfold Object.Covers Inside; infer_instance

def live : History → Nat → List Object
  | [], _ => []
  | .called pid (.xxmalloc size) _ (some ptr) _ :: h, q =>
    if q = pid then ⟨ptr, size⟩ :: live h q else live h q
  | .called pid (.xxfree ptr) _ _ _ :: h, q =>
    if q = pid then (live h q).filter (fun o => ¬ o.Covers ptr) else live h q
  | .forked parent child :: h, q => if q = child then live h parent else live h q
  | _ :: h, q => live h q

structure Base where
  pid : Nat
  descriptor : Int
  deriving DecidableEq, Repr

def due (pid : Nat) : Option Base → Op → Bool
  | none, _ => true
  | some b, .initMem => decide (b.pid ≠ pid)
  | some b, _ => decide (b.descriptor = 0 ∧ b.pid ≠ pid)

def base : History → Nat → Option Base
  | [], _ => none
  | .called pid op descriptor _ _ :: h, q =>
    if q = pid ∧ due pid (base h pid) op then some ⟨pid, descriptor⟩ else base h q
  | .forked parent child :: h, q => if q = child then base h parent else base h q

inductive Step (h : History) (s : System) : Event → System → Prop where
  | returned {pid k op v σ σ'} (alive : s pid = some σ) (here : k.pid = pid)
      (call : exec k op σ.clear = .ok v σ') :
      Step h s (.called pid op k.mkstemp (some v) σ'.calls)
        (Function.update s pid (some σ'))
  | ended {pid k op halt σ σ'} (alive : s pid = some σ) (here : k.pid = pid)
      (call : exec k op σ.clear = .error halt σ') :
      Step h s (.called pid op k.mkstemp none σ'.calls) (Function.update s pid none)
  | forked {parent child σ} (alive : s parent = some σ) (fresh : s child = none)
      (positive : 0 < child) :
      Step h s (.forked parent child) (Function.update s child (some σ))

def Began (root : Nat) (s : System) : Prop :=
  0 < root ∧ s = Function.update (fun _ => none) root (some image)

abbrev Run (root : Nat) : History → System → Prop := Trace.Run (Began root) Step

def Spared (h : History) : Event → Prop
  | .called pid _ _ _ calls => live h pid ≠ [] → .sigaction ∉ calls
  | .forked _ _ => True

/- A process whose live objects are inherited, so that it lives on the initialisation of
another one, makes no constructor call, nor any call at all if that one got descriptor 0. -/
def Homely (h : History) : Event → Prop
  | .called pid op _ _ _ => live h pid ≠ [] → ∀ b, base h pid = some b → b.pid ≠ pid →
      op ≠ .initMem ∧ b.descriptor ≠ 0
  | .forked _ _ => True

variable {root pid : Nat} {h : History} {s s' : System} {e : Event} {k : Kernel} {op : Op}
  {σ σ' : State} {v : Nat}

theorem execGuard (k : Kernel) (op : Op) : exec k op = (guard k op >>= fun _ => rest k op) := by
  cases op with
  | xxfree ptr =>
    have split : xxfree k ptr = (ensureInit k >>= fun _ => xxfreeRest k ptr) := rfl
    simp only [exec, guard, rest, split, bind_assoc]
  | _ => rfl

theorem restSettled (k : Kernel) (op : Op) : Respects Settled (rest k op) := by
  cases op with
  | initMem => exact respectsPure _
  | xxmalloc size => exact settledMalloc size
  | xxfree ptr => exact respectsBind (settledFree ptr) fun _ => respectsPure _

def Restarts (pid : Nat) (σ : State) (op : Op) : Prop :=
  σ.parPs ≠ pid ∧ (op ≠ .initMem → σ.dataFd = 0)

theorem guardSkips (safe : ¬ Restarts k.pid σ op) : guard k op σ = .ok () σ := by
  have skips : σ.parPs = k.pid → initMem k σ = .ok () σ := fun par => by
    rw [initMem, bindOk (getRun σ), if_pos par]
    rfl
  have ensures : ¬ (σ.parPs ≠ k.pid ∧ σ.dataFd = 0) → ensureInit k σ = .ok () σ := fun safe => by
    rw [ensureInit, bindOk (getRun σ)]
    split
    · rename_i closed
      exact skips (by_contra fun par => safe ⟨par, closed⟩)
    · rfl
  cases op with
  | initMem => exact skips (by_contra fun par => safe ⟨par, fun other => absurd rfl other⟩)
  | xxmalloc size => exact ensures fun both => safe ⟨both.1, fun _ => both.2⟩
  | xxfree ptr => exact ensures fun both => safe ⟨both.1, fun _ => both.2⟩

theorem guardRuns (restarts : Restarts k.pid σ op) : guard k op σ = initBody k σ := by
  have runs : initMem k σ = initBody k σ := by
    rw [initMem, bindOk (getRun σ), if_neg restarts.1]
  have ensures : op ≠ .initMem → ensureInit k σ = initBody k σ := fun other => by
    rw [ensureInit, bindOk (getRun σ), if_pos (restarts.2 other), runs]
  cases op with
  | initMem => exact runs
  | xxmalloc size => exact ensures (by simp)
  | xxfree ptr => exact ensures (by simp)

theorem execFinal (k : Kernel) (op : Op) (σ : State) :
    (Restarts k.pid σ op ∧ .sigaction ∈ (final (exec k op σ)).calls) ∨
    (¬ Restarts k.pid σ op ∧ Settled σ (final (exec k op σ))) := by
  rw [execGuard]
  by_cases restarts : Restarts k.pid σ op
  · refine .inl ⟨restarts, ?_⟩
    rcases initBodyCases k σ with done | ⟨code, τ, failed, handler⟩
    · rw [bindOk ((guardRuns restarts).trans done)]
      exact (restSettled k op _).calls.mpr (by simp [initialised])
    · rw [bindError ((guardRuns restarts).trans failed)]
      exact handler
  · rw [bindOk (guardSkips restarts)]
    exact .inr ⟨restarts, restSettled k op σ⟩

theorem handlerRestarts (k : Kernel) (op : Op) (σ : State) :
    .sigaction ∈ (final (exec k op σ.clear)).calls ↔ Restarts k.pid σ op := by
  rcases execFinal k op σ.clear with ⟨restarts, handler⟩ | ⟨safe, settled⟩
  · exact iff_of_true handler restarts
  · exact iff_of_false (fun handler => List.not_mem_nil (settled.calls.mp handler)) safe

theorem restartOk (restarts : Restarts k.pid σ op) (call : exec k op σ = .ok v σ') :
    σ'.parPs = k.pid ∧ σ'.dataFd = k.mkstemp := by
  rw [execGuard] at call
  rcases initBodyCases k σ with done | ⟨code, τ, failed, _⟩
  · rw [bindOk ((guardRuns restarts).trans done)] at call
    have settled := restSettled k op (initialised k σ)
    rw [finalOk call] at settled
    exact ⟨settled.parPs, settled.dataFd⟩
  · rw [bindError ((guardRuns restarts).trans failed)] at call
    cases call

structure Lives (h : History) (pid : Nat) (σ : State) : Prop where
  positive : 0 < pid
  fresh : base h pid = none → σ.parPs = 0 ∧ σ.dataFd = 0 ∧ live h pid = []
  settled : ∀ b, base h pid = some b → σ.parPs = b.pid ∧ σ.dataFd = b.descriptor

def Tracks (h : History) (s : System) : Prop := ∀ pid σ, s pid = some σ → Lives h pid σ

theorem dueRestarts (lives : Lives h pid σ) :
    due pid (base h pid) op = true ↔ Restarts pid σ op := by
  cases known : base h pid with
  | none =>
    obtain ⟨par, closed, _⟩ := lives.fresh known
    have positive := lives.positive
    exact ⟨fun _ => ⟨by omega, fun _ => closed⟩, fun _ => rfl⟩
  | some b =>
    obtain ⟨par, fd⟩ := lives.settled b known
    rw [Restarts, par, fd]
    cases op <;> simp [due, and_comm]

theorem homelyRestarts (lives : Lives h pid σ) (owns : live h pid ≠ []) :
    (∀ b, base h pid = some b → b.pid ≠ pid → op ≠ .initMem ∧ b.descriptor ≠ 0) ↔
      ¬ Restarts pid σ op := by
  obtain ⟨b, known⟩ := Option.ne_none_iff_exists'.mp fun none => owns (lives.fresh none).2.2
  obtain ⟨par, fd⟩ := lives.settled b known
  rw [Restarts, par, fd]
  constructor
  · rintro homely ⟨other, closed⟩
    obtain ⟨late, opened⟩ := homely b known other
    exact opened (closed late)
  · intro safe b' known' other
    cases known.symm.trans known'
    exact ⟨fun early => safe ⟨other, fun late => absurd early late⟩,
      fun closed => safe ⟨other, fun _ => closed⟩⟩

theorem calledElsewhere {q : Nat} (descriptor : Int) (reply : Option Nat) (calls : List Call)
    (other : q ≠ pid) : base (.called pid op descriptor reply calls :: h) q = base h q ∧
      live (.called pid op descriptor reply calls :: h) q = live h q := by
  constructor
  · simp [base, other]
  · cases op <;> cases reply <;> simp [live, other]

theorem returnedLives {calls : List Call} (lives : Lives h k.pid σ)
    (call : exec k op σ.clear = .ok v σ') :
    Lives (.called k.pid op k.mkstemp (some v) calls :: h) k.pid σ' := by
  by_cases restarts : Restarts k.pid σ op
  · obtain ⟨par, fd⟩ := restartOk (σ := σ.clear) restarts call
    have next : base (.called k.pid op k.mkstemp (some v) calls :: h) k.pid =
        some ⟨k.pid, k.mkstemp⟩ := if_pos ⟨rfl, (dueRestarts lives).mpr restarts⟩
    refine ⟨lives.positive, fun none => ?_, fun b known => ?_⟩
    · rw [next] at none
      cases none
    · rw [next] at known
      cases known
      exact ⟨par, fd⟩
  · have later := mt (dueRestarts lives).mp restarts
    have next : base (.called k.pid op k.mkstemp (some v) calls :: h) k.pid = base h k.pid :=
      if_neg fun both => later both.2
    have settled := ((execFinal k op σ.clear).resolve_left fun both => restarts both.1).2
    rw [finalOk call] at settled
    refine ⟨lives.positive, fun none => ?_, fun b known => ?_⟩
    · rw [next] at none
      exact absurd (by rw [none]; rfl) later
    · obtain ⟨par, fd⟩ := lives.settled b (next ▸ known)
      exact ⟨settled.parPs.trans par, settled.dataFd.trans fd⟩

theorem tracksStep (tracks : Tracks h s) (taken : Step h s e s') : Tracks (e :: h) s' := by
  intro q τ alive'
  cases taken with
  | @returned pid k op v σ σ' alive here call =>
    subst here
    by_cases same : q = k.pid
    · subst same
      rw [Function.update_self] at alive'
      cases alive'
      exact returnedLives (tracks _ _ alive) call
    · rw [Function.update_of_ne same] at alive'
      have kept := @calledElsewhere k.pid h op q k.mkstemp (some v) σ'.calls same
      have lives := tracks _ _ alive'
      exact ⟨lives.positive, kept.1 ▸ kept.2 ▸ lives.fresh, kept.1 ▸ lives.settled⟩
  | @ended pid k op halt σ σ' alive here call =>
    by_cases same : q = pid
    · subst same
      rw [Function.update_self] at alive'
      cases alive'
    · rw [Function.update_of_ne same] at alive'
      have kept := @calledElsewhere pid h op q k.mkstemp none σ'.calls same
      have lives := tracks _ _ alive'
      exact ⟨lives.positive, kept.1 ▸ kept.2 ▸ lives.fresh, kept.1 ▸ lives.settled⟩
  | @forked parent child σ alive fresh positive =>
    by_cases same : q = child
    · subst same
      rw [Function.update_self] at alive'
      cases alive'
      have lives := tracks _ _ alive
      refine ⟨positive, ?_, ?_⟩
      · simpa [base, live] using lives.fresh
      · simpa [base] using lives.settled
    · rw [Function.update_of_ne same] at alive'
      have lives := tracks _ _ alive'
      refine ⟨lives.positive, ?_, ?_⟩
      · simpa [base, live, same] using lives.fresh
      · simpa [base, same] using lives.settled

theorem tracksInit (begun : Began root s) : Tracks [] s := by
  intro pid σ alive
  obtain ⟨positive, procs⟩ := begun
  rw [procs] at alive
  by_cases same : pid = root
  · subst same
    rw [Function.update_self] at alive
    cases alive
    exact ⟨positive, fun _ => ⟨rfl, rfl, rfl⟩, fun b known => by cases known⟩
  · rw [Function.update_of_ne same] at alive
    cases alive

theorem sparedHomely (tracks : Tracks h s) (taken : Step h s e s') : Spared h e ↔ Homely h e := by
  cases taken with
  | returned alive here call =>
    subst here
    refine forall_congr' fun owns => ?_
    rw [homelyRestarts (tracks _ _ alive) owns, ← handlerRestarts, finalOk call]
  | ended alive here call =>
    subst here
    refine forall_congr' fun owns => ?_
    rw [homelyRestarts (tracks _ _ alive) owns, ← handlerRestarts, finalError call]
  | forked alive fresh positive => exact Iff.rfl

theorem initSparesLive (run : Run root h s) : Trace.Always Spared h ↔ Trace.Always Homely h :=
  Trace.alwaysIff (fun _ begun => tracksInit begun) (fun _ _ _ _ tracks taken => tracksStep tracks taken)
    (fun _ _ _ _ tracks taken => sparedHomely tracks taken) run

def opening (descriptor : Int) (pid : Nat) : Kernel where
  pid := pid
  sigactionOk := true
  mkstemp := descriptor
  ftruncateOk := true
  mmapGrants := true
  attempt := fun _ => ⟨true, false⟩

theorem restCarves {descriptor : Int} (empty : (σ.gFlsts 0).topOfStack = 0)
    (started : 0 < σ.highVaddr) (room : σ.highVaddr + pageSize ≤ taskSize)
    (file : roundDown (σ.gFlsts 0).highCanonicalAddr pageSize < σ.fileSize) :
    rest (opening descriptor pid) (.xxmalloc 16) σ =
      .ok (σ.highVaddr + (σ.gFlsts 0).highCanonicalAddr % pageSize) (carved 0 (σ.gFlsts 0) σ) := by
  have cls : blockType 16 = 0 := by decide
  rw [rest, if_neg (by decide), popEmpty (by decide) (by rwa [cls]), cls]
  exact carveRun rfl started room file

theorem openedServes {descriptor : Int} (restarts : Restarts pid σ (.xxmalloc 16))
    (opened : initBody (opening descriptor pid) σ =
      .ok () (initialised (opening descriptor pid) σ)) :
    exec (opening descriptor pid) (.xxmalloc 16) σ = .ok (mmapMinAddr + 16)
      (carved 0 ⟨0, 16⟩ (initialised (opening descriptor pid) σ)) := by
  rw [execGuard, bindOk ((guardRuns restarts).trans opened)]
  exact restCarves rfl (by decide : 0 < mmapMinAddr) (by decide : mmapMinAddr + pageSize ≤ taskSize)
    (by decide : 0 < dataSize)

theorem imageRestarts : Restarts 1 image.clear (.xxmalloc 16) := ⟨by decide, fun _ => rfl⟩

theorem forkStep (alive : s 1 = some σ) (fresh : s 2 = none) :
    Step h s (.forked 1 2) (Function.update s 2 (some σ)) := .forked alive fresh (by decide)

/- Descriptor 0 passes for a file not created yet. The child, with 0 still open, gets another one,
maps a fresh page over the object it inherited and hands the address out a second time. -/
theorem descriptorZero : ∃ h s, Run 1 h s ∧ ¬ Trace.Always Spared h ∧
    live h 2 = [⟨mmapMinAddr + 16, 16⟩, ⟨mmapMinAddr + 16, 16⟩] := by
  have first := @openedServes 1 image.clear 0 imageRestarts rfl
  have again := @openedServes 2 (carved 0 ⟨0, 16⟩ (initialised (opening 0 1) image.clear)).clear 3
    ⟨by decide, fun _ => rfl⟩ rfl
  have run : Run 1 [] (Function.update (fun _ => none) 1 (some image)) := .init ⟨by decide, rfl⟩
  have run := Trace.Run.next run (.returned (Function.update_self _ _ _) rfl first)
  have run := Trace.Run.next run (forkStep (Function.update_self _ _ _) rfl)
  have run := Trace.Run.next run (.returned (Function.update_self _ _ _) rfl again)
  refine ⟨_, _, run, fun always => always.1 ?_ ?_, rfl⟩
  · simp [live]
  · simp [carved, initialised]

theorem childKeepsObjects : ∃ h s, Run 1 h s ∧ live h 2 ≠ [] ∧ Trace.Always Spared h := by
  have first := @openedServes 1 image.clear 3 imageRestarts rfl
  have safe : ¬ Restarts 2 (carved 0 ⟨0, 16⟩ (initialised (opening 3 1) image.clear)).clear
      (.xxmalloc 16) := fun restarts => absurd (restarts.2 (by simp)) (by decide)
  have second := (congrFun (execGuard (opening 3 2) (.xxmalloc 16)) _).trans
    ((bindOk (guardSkips safe)).trans (restCarves rfl (by decide) (by decide) (by decide)))
  have run : Run 1 [] (Function.update (fun _ => none) 1 (some image)) := .init ⟨by decide, rfl⟩
  have run := Trace.Run.next run (.returned (Function.update_self _ _ _) rfl first)
  have run := Trace.Run.next run (forkStep (Function.update_self _ _ _) rfl)
  have run := Trace.Run.next run (.returned (Function.update_self _ _ _) rfl second)
  refine ⟨_, _, run, by simp [live], (initSparesLive run).mpr ⟨fun _ b known _ => ?_, trivial, ?_, trivial⟩⟩
  · cases known
    exact ⟨by simp, by decide⟩
  · exact fun owns => absurd rfl owns

end Nuaf.Processes
