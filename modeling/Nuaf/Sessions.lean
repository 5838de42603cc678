import Nuaf.ExportedHeap
import Nuaf.Requests

/-! Programs on the functions of wrapper.h. `heapOf` is the heap a program has after what it asked
for and was answered, and the process never shows it another one. -/
namespace Nuaf.Sessions
open CallTree ByteHeap Layout Machine Source Heap Nuaf.Sequential Wrapper LocalHeap ExportedHeap
  Requests Exhaustion
open UsableExtent (steadyCalm bigReturns)

inductive Task where
  | ask (r : Request)
  | load (p index : Nat)
  | store (p index : Nat) (byte : UInt8)

def Task.calls : Task → Calls Nat
  | .ask r => serve r
  | .load p index => CallTree.ask (.load p index)
  | .store p index byte => CallTree.ask (.store p index byte)

def Task.after (H : Objects) (t : Task) (v : Nat) : Objects :=
  match t with
  | .ask r => Requests.after H r v
  | .load _ _ => H
  | .store p index byte =>
    match H p with
    | some c => H.put p (c.set index byte)
    | none => H

def Task.Answered (H : Objects) (t : Task) (v : Nat) : Prop :=
  match t with
  | .ask r => Requests.Answered H r v
  | .load p index => ∀ c w, H p = some c → c.byte index = some w → v = w.toNat
  | .store _ _ _ => True

inductive Task.Allowed (asks : Request → Prop) (H : Objects) : Task → Prop where
  | ask {r} (may : asks r) : Task.Allowed asks H (.ask r)
  | load {p c index} (mine : H p = some c) (inside : index < c.size) :
      Task.Allowed asks H (.load p index)
  | store {p c index byte} (mine : H p = some c) (inside : index < c.size) :
      Task.Allowed asks H (.store p index byte)

abbrev Use := Task × Nat

def heapOf : List Use → Objects
  | [] => fun _ => none
  | (t, v) :: u => t.after (heapOf u) v

abbrev Runs {α : Type} (pid : Nat) (x : Calls α) (s : History × State) (a : α)
    (s' : History × State) : Prop :=
  Does (Calling pid) Answers x s.1 s.2 a s'.1 s'.2

abbrev Rule := Objects → State → Request → Prop

inductive Goes (pid : Nat) (asks : Rule) (u : List Use) (s : History × State) :
    Use → History × State → Prop where
  | used {t v s'} (allowed : t.Allowed (asks (heapOf u) s.2) (heapOf u))
      (runs : Runs pid t.calls s v s') : Goes pid asks u s (t, v) s'

abbrev Session (pid : Nat) (asks : Rule) : List Use → History × State → Prop :=
  Trace.Run (fun s => s.1 = [] ∧ Started pid s.2) (Goes pid asks)

def plainly : Rule := fun H _ r => Asks H r

def Seen (u : List Use) (e : Use) : Prop := e.1.Answered (heapOf u) e.2

structure InMemory (H : Objects) (σ : State) : Prop where
  placed : ∀ p c, H p = some c → p ≠ 0 ∧ p % byteAlignment = 0 ∧ p + c.size < 2 ^ 63
  mapped : ∀ p c, H p = some c → ∀ i < c.size, σ.mem (p + i) ≠ none
  bytes : ∀ p c, H p = some c → ∀ i v, c.byte i = some v → σ.mem (p + i) = some v
  apart : ∀ p c q d, H p = some c → H q = some d → p ≠ q →
    ∀ i < c.size, ∀ j < d.size, p + i ≠ q + j

variable {u : List Use} {s : History × State}
  {pid n p v : Nat} {H : Objects} {c : Cells} {h h' : History} {σ σ' : State} {t : Task}

theorem showsMemory (shows : Shows pid H h σ) : InMemory H σ := by
  obtain ⟨own, sound, stored⟩ := shows.sound
  refine ⟨fun p c => showsPlace shows, fun p c here i inside => ?_, fun p c here i v known => ?_,
    fun p c q d here there other i left j right same => ?_⟩
  · obtain ⟨b, owned, rfl, room⟩ := (shows.shown p c here).owned
    exact insideMapped sound.agrees.inv (sound.agrees.held b owned)
      (coversIndex (Nat.lt_of_lt_of_le inside room))
  · have shown := shows.shown p c here
    obtain ⟨b, owned, rfl, _⟩ := shown.owned
    exact (stored b owned i v (shown.bytes i v known)).2
  · obtain ⟨b, owned, rfl, room⟩ := (shows.shown p c here).owned
    obtain ⟨b', owned', rfl, room'⟩ := (shows.shown q d there).owned
    exact other (ByteArrays.coversApart sound owned owned' (coversIndex (Nat.lt_of_lt_of_le left room))
      (coversIndex (Nat.lt_of_lt_of_le right room')) (by rw [same]))

theorem sessionKeeps {asks : Rule} (keeps : Objects → History → State → Prop)
    (begins : ∀ σ, Started pid σ → keeps (fun _ => none) [] σ)
    (serves : ∀ H h σ (t : Task), keeps H h σ → t.Allowed (asks H σ) H →
      Serving pid t.calls h σ fun v h σ => keeps (t.after H v) h σ)
    (run : Session pid asks u s) : keeps (heapOf u) s.1 s.2 := by
  induction run with
  | init begun =>
    rw [begun.1]
    exact begins _ begun.2
  | next before goes ih =>
    cases goes with
    | used allowed runs =>
      have after := safeDoes (serves _ _ _ _ ih allowed) runs
      exact after

theorem taskShows (shows : Shows pid H h σ) (allowed : t.Allowed (Asks H) H) :
    Serving pid t.calls h σ fun v h σ => t.Answered H v ∧ Shows pid (t.after H v) h σ := by
  cases allowed with
  | ask may =>
    exact safeMono (servesLocally (servedSafe (h := []) (showsKnows shows) may) shows)
      fun _ _ _ ⟨_, _, served, shows⟩ => ⟨served.answered, showsBelow shows served.knows.below⟩
  | load mine inside =>
    refine safeMono (servesLocally (loadSafe (h := []) (showsKnows shows) mine rfl inside) shows)
      fun _ _ _ ⟨_, _, ⟨read, knows⟩, shows⟩ => ⟨fun d w there known => ?_,
        showsBelow shows knows.below⟩
    cases mine.symm.trans there
    exact read w known
  | store mine inside =>
    refine safeMono (servesLocally (storeSafe (h := []) (showsKnows shows) mine inside) shows)
      fun _ _ _ ⟨_, _, knows, shows⟩ => ⟨trivial, ?_⟩
    simpa only [Task.after, mine] using showsBelow shows knows.below

theorem sessionShows (run : Session pid plainly u s) : Shows pid (heapOf u) s.1 s.2 :=
  sessionKeeps (Shows pid) (fun _ => beginShows) (fun _ _ _ _ shows allowed =>
    safeMono (taskShows shows allowed) fun _ _ _ => And.right) run

theorem sessionsRefine (run : Session pid plainly u s) :
    Trace.Always Seen u ∧ InMemory (heapOf u) s.2 := by
  refine ⟨?_, showsMemory (sessionShows run)⟩
  induction run with
  | init => trivial
  | next before goes ih =>
    cases goes with
    | used allowed runs => exact ⟨(safeDoes (taskShows (sessionShows before) allowed) runs).1, ih⟩

theorem sessionsNeverFault (run : Session pid plainly u s) {t : Task}
    (allowed : t.Allowed (Asks (heapOf u)) (heapOf u)) {op : Op}
    (comes : Comes (Calling pid) Answers t.calls s.1 s.2 op h σ) : Fine pid h σ op :=
  safeComes (taskShows (sessionShows run) allowed) comes

def byteSession : List Use :=
  [(.load bigBlock.ptr 0, 1), (.store bigBlock.ptr 0 1, 0), (.ask (.malloc 4096), bigBlock.ptr)]

def readHistory : History := ⟨.load bigBlock.ptr 0, .value 1, []⟩ :: byteHistory

theorem byteSessionRuns : Session 1 plainly byteSession (readHistory, besideByte.clear) := by
  obtain ⟨own, sound⟩ := runSound (runWiden reliablyWider (@bigRun Within (by decide)))
  have malloced : Session 1 plainly [(.ask (.malloc 4096), bigBlock.ptr)] (bigHistory, besideBig) :=
    .next (.init (s := ([], begun)) ⟨rfl, begunStarted⟩) (.used (.ask (.malloc 4096)) bigReturns)
  have stores := storeServes (k := steady) sound (show bigBlock ∈ live bigHistory by decide)
    (show 0 < usableOf bigBlock.size by decide) 1
  have loads : exec steady (.load bigBlock.ptr 0) besideByte.clear = .ok 1 besideByte.clear :=
    readWordOk (by decide)
  have stored : Runs 1 (ask (.store bigBlock.ptr 0 1)) (bigHistory, besideBig) 0
      (byteHistory, besideByte) :=
    doesAsk (.returned (steadyCalm _ _) stores (by decide)) ⟨rfl, rfl⟩
  have loaded : Runs 1 (ask (.load bigBlock.ptr 0)) (byteHistory, besideByte) 1
      (readHistory, besideByte.clear) :=
    doesAsk (.returned (steadyCalm _ _) loads (by decide)) ⟨rfl, rfl⟩
  exact .next (.next malloced (.used (.store (c := .blank 4096) rfl (by decide)) stored))
    (.used (.load (c := (Cells.blank 4096).set 0 1) rfl (by decide)) loaded)

theorem byteSessionRefines :
    Trace.Always Seen byteSession ∧ InMemory (heapOf byteSession) besideByte.clear :=
  sessionsRefine byteSessionRuns

theorem byteSessionFrees : (Task.ask (.free bigBlock.ptr)).Allowed
    (Asks (heapOf byteSession)) (heapOf byteSession) :=
  .ask (.free (c := (Cells.blank 4096).set 0 1) rfl)

theorem byteSessionNeverFaults : Fine 1 readHistory besideByte.clear (.xxfree bigBlock.ptr) :=
  sessionsNeverFault byteSessionRuns byteSessionFrees .now

end Nuaf.Sessions
