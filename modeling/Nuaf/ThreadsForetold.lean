import Nuaf.Foretold
import Nuaf.Linearization

/-! The allocator on paper, for threads. What every thread is answered is settled by the order in
which the calls take effect: by no store of the program, no kernel and no other timing. -/
namespace Nuaf.ThreadsForetold
open Layout Machine Source Heap Threads Linearization Foretold
open Nuaf.Sequential (Op Reply Sound live reliably calmly)

structure Alike (P Q : Plan) : Prop where
  ledger : P.ledger = Q.ledger
  carved : P.carved = Q.carved
  pages : P.pages = Q.pages
  largePages : P.largePages = Q.largePages

def planOf (calls : List (Op × Nat)) : Plan := foretold (calls.map Prod.fst)

structure Settled (h : Threads.History) (s : System) : Prop where
  answers : Trace.Always (fun g c => (planOf g).reply c.1 = .value c.2) (h.filterMap effect)
  high : s.heap.highVaddr = (planOf (h.filterMap effect)).nextPage
  large : s.heap.largeObjNextPage = (planOf (h.filterMap effect)).nextLarge
  canonical : ∀ t < numBlockTypes, (s.heap.gFlsts t).highCanonicalAddr =
    BackingFile.canonicalAt t ((planOf (h.filterMap effect)).carved t)
  owned : ∀ τ, ∀ o ∈ owned h τ,
    ∃ b ∈ (planOf (h.filterMap effect)).ledger.live, b.ptr = o.ptr ∧ b.size = o.size

variable {pid : Nat} {h : Threads.History} {s : System} {l : Sequential.History} {σ : State}
  {P Q R : Plan} {op : Op} {d : Sequential.Event}

theorem Alike.trans (left : Alike P Q) (right : Alike Q R) : Alike P R :=
  ⟨left.ledger.trans right.ledger, left.carved.trans right.carved, left.pages.trans right.pages,
    left.largePages.trans right.largePages⟩

theorem alikePlace (alike : Alike P Q) (size : Nat) : P.place size = Q.place size := by
  simp only [Plan.place, Plan.nextPage, Plan.nextLarge, alike.ledger, alike.carved, alike.pages,
    alike.largePages]

theorem alikeMalloc (alike : Alike P Q) (size : Nat) : Alike (P.malloc size) (Q.malloc size) := by
  simp only [Plan.malloc, alikePlace alike, alike.ledger, alike.carved, alike.pages, alike.largePages]
  split
  · split <;> exact ⟨rfl, rfl, rfl, rfl⟩
  · exact ⟨rfl, rfl, rfl, rfl⟩

theorem alikeFree (alike : Alike P Q) (b : Sequential.Block) : Alike (P.free b) (Q.free b) := by
  simp only [Plan.free, Plan.nextPage, alike.ledger, alike.carved, alike.pages, alike.largePages]
  split <;> exact ⟨rfl, rfl, rfl, rfl⟩

theorem alikeStore (ptr index : Nat) (byte : UInt8) : Alike (P.after (.store ptr index byte)) P := by
  simp only [Plan.after]
  split <;> exact ⟨rfl, rfl, rfl, rfl⟩

theorem alikeAfter (alike : Alike P Q) (op : Op) : Alike (P.after op) (Q.after op) := by
  cases op with
  | xxmalloc size => exact alikeMalloc alike size
  | xxfree ptr =>
    simp only [Plan.after, alike.ledger]
    split
    · exact alikeFree alike _
    · exact alike
  | usableSize ptr => exact alike
  | load ptr index => exact alike
  | store ptr index byte =>
    have back := alikeStore (P := Q) ptr index byte
    exact ((alikeStore ptr index byte).trans alike).trans
      ⟨back.ledger.symm, back.carved.symm, back.pages.symm, back.largePages.symm⟩

theorem alikeReply {takes : Op × Nat} (alike : Alike P Q) (call : completed d = some takes) :
    P.reply d.op = Q.reply d.op := by
  obtain ⟨op, reply, calls⟩ := d
  cases op with
  | xxmalloc size => exact congrArg Reply.value (alikePlace alike size)
  | xxfree ptr => simp only [Plan.reply, alike.ledger]
  | usableSize ptr => simp only [Plan.reply, alike.ledger]
  | load => cases reply <;> cases call
  | store => cases reply <;> cases call

theorem completedCall {takes : Op × Nat} (call : completed d = some takes) :
    d.op = takes.1 ∧ d.reply = .value takes.2 := by
  obtain ⟨op, reply, calls⟩ := d
  cases reply <;> cases op <;> cases call <;> exact ⟨rfl, rfl⟩

theorem alikeSkip (foretells : d.reply = P.reply d.op) (skips : completed d = none) :
    Alike (P.after d.op) P := by
  obtain ⟨op, reply, calls⟩ := d
  cases op with
  | xxmalloc size =>
    simp only [Plan.reply] at foretells
    subst foretells
    cases skips
  | xxfree ptr =>
    simp only [Plan.reply, Plan.after] at foretells ⊢
    split at foretells
    · subst foretells
      cases skips
    · exact ⟨rfl, rfl, rfl, rfl⟩
  | usableSize ptr => exact ⟨rfl, rfl, rfl, rfl⟩
  | load ptr index => exact ⟨rfl, rfl, rfl, rfl⟩
  | store ptr index byte => exact alikeStore ptr index byte

theorem callsSettle (replies : Trace.Always (fun g e => e.reply = (foretold (ops g)).reply e.op) l) :
    Trace.Always (fun g c => (planOf g).reply c.1 = .value c.2) (l.filterMap completed) ∧
      Alike (foretold (ops l)) (planOf (l.filterMap completed)) := by
  induction l with
  | nil => exact ⟨trivial, ⟨rfl, rfl, rfl, rfl⟩⟩
  | cons d l ih =>
    obtain ⟨answers, alike⟩ := ih replies.2
    cases call : completed d with
    | none =>
      rw [List.filterMap_cons_none call]
      exact ⟨answers, (alikeSkip replies.1 call).trans alike⟩
    | some takes =>
      obtain ⟨asked, replied⟩ := completedCall call
      rw [List.filterMap_cons_some call]
      have reply : (planOf (l.filterMap completed)).reply takes.1 = .value takes.2 := by
        rw [← asked, ← alikeReply alike call, ← replies.1, replied]
      have after : Alike (foretold (ops (d :: l))) ((planOf (l.filterMap completed)).after d.op) :=
        alikeAfter alike d.op
      rw [asked] at after
      exact ⟨⟨reply, answers⟩, after⟩

theorem threadsSettled (run : Threads.Run pid Owning Within h s) : Settled h s := by
  obtain ⟨l, σ, above, reads, follows⟩ := runFollows run
  have calm := Sequential.runWiden Sequential.reliablyWider above
  have mirrors := runForetold calm
  obtain ⟨answers, alike⟩ := callsSettle (runReplies calm)
  obtain ⟨m, n, calls, rfl⟩ := follows.completes.globals
  rw [← readsOrder reads] at answers alike
  refine ⟨answers, mirrors.high.trans ?_, mirrors.large.trans ?_, fun t cls =>
    (mirrors.canonical t cls).trans ?_, fun τ o mine => ?_⟩
  · rw [Plan.nextPage, Plan.nextPage, alike.pages]
  · rw [Plan.nextLarge, Plan.nextLarge, alike.largePages]
  · rw [alike.carved]
  · rw [← alike.ledger, ← mirrors.ledger]
    exact follows.owned τ o (.held mine)

theorem handedOverSettled : ∃ h s, Settled h s ∧ ⟨DoubleFree.firstPtr, 16⟩ ∈ owned h 3 ∧
    s.pc 1 = .magic 4096 largeObjVaddrStart := by
  obtain ⟨h, s, run, mine, making⟩ := SharedHeap.handedOverRun
  exact ⟨h, s, threadsSettled run, mine, making⟩

end Nuaf.ThreadsForetold
