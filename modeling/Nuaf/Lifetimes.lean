import Nuaf.DoubleFree
import Nuaf.ThreadOwnership

/-! How long an object is there when any thread may free, query or write it at any time: until the
first xxfree of it is through, and never again. A call that comes later reads nothing. -/
namespace Nuaf.Lifetimes
open Layout ByteMemory Machine Source Heap Threads DoubleFree

def freed : History → List Nat
  | .advanced _ (.moving ptr _) .freed :: h => ptr :: freed h
  | .advanced _ (.unmapping ptr _ _) .freed :: h => ptr :: freed h
  | _ :: h => freed h
  | [] => []

/- One step of a call on an object that is gone. The unlocked munmap of a second xxfree finds its
pages unmapped already, and counts down all the same. -/
inductive Spent (k : Kernel) (pc : Pc) (σ : State) : Prop where
  | stops (stops : Stops k pc σ)
  | looks {freeing ptr page} (call : next k pc σ = .ok (.scan freeing ptr page) σ)
  | unmaps {mappings calls}
      (call : next k pc σ = .ok .freed { σ with numMappings := mappings, calls := calls })

structure Lifetime (pid : Nat) (h : History) (s : System) : Prop where
  there : ∀ o ∈ handed h, ∀ g, Spans o.ptr o.size g →
    ∀ a, a / pageSize = g → (s.heap.mem a = none ↔ o.ptr ∈ freed h)
  apart : (handed h).Pairwise Apart
  served : ∀ p ∈ freed h, ∃ o ∈ handed h, o.ptr = p
  spent : ∀ p ∈ freed h, ∀ τ k, Reliable pid k → (s.pc τ).named = some p →
    Spent k (s.pc τ) s.heap

variable {pid : Nat} {h : History} {s s' : System} {σ' : State} {own own' : Owner}
  {chains chains' : Chains} {k : Kernel} {o : Object} {e : Event} {pc pc' : Pc} {τ : Nat}

theorem deadSpends (races : Races pid h s own chains) (reliable : Reliable pid k)
    (known : o ∈ handed h) (dead : Retires s.heap own o) (at' : (s.pc τ).named = some o.ptr) :
    Spent k (s.pc τ) s.heap := by
  have inv := races.inv
  have par := races.par.trans reliable.1.symm
  have placed := races.placed o known
  rcases Nat.lt_or_ge largestBlockSize o.size with big | small
  case inr => exact .stops (deadStops races reliable known small dead at')
  have faults : ∀ {pc}, (∃ addr, next k pc s.heap = .error (.segv addr) s.heap) →
      Spent k pc s.heap := fun ⟨addr, fault⟩ => .stops ⟨_, _, fault, .inr ⟨addr, rfl⟩⟩
  have call := bigCall (k := k) (σ := s.heap) par (fateAddress inv (.inr dead)) (placed.big big).1
  have same : ∀ {p : Object}, p ∈ handed h → p.ptr = o.ptr → p = o :=
    fun known' => samePointer races known known'
  have fits := races.fits τ
  generalize s.pc τ = pc at at' fits
  cases fits with
  | idle | malloc | magic | count | got | freed | answered => cases at'
  | freeNull => exact absurd (Option.some.inj at').symm (fateAddress inv (.inr dead))
  | free known' =>
    cases same known' (Option.some.inj at')
    exact .looks call.1
  | query known' =>
    cases same known' (Option.some.inj at')
    exact .looks call.2
  | scan known' =>
    cases same known' (Option.some.inj at')
    exact faults (scanDead inv dead _)
  | pages known' =>
    cases same known' (Option.some.inj at')
    exact faults (pagesDead inv dead _)
  | rescan known' =>
    cases same known' (Option.some.inj at')
    exact faults (rescanDead inv dead _)
  | unmapping known' =>
    cases same known' (Option.some.inj at')
    obtain ⟨mappings, calls, done⟩ := unmappingDead (k := k) inv big placed dead
    exact .unmaps done
  | moving known' small =>
    cases same known' (Option.some.inj at')
    exact absurd big (Nat.not_lt.mpr small)

theorem freedChange (inv : Inv s.heap own chains)
    (change : Change h s.heap own chains pc pc' σ' own' chains') :
    (freed (.advanced τ pc pc' :: h) = freed h ∧ ∀ o, ¬ Leaving o pc) ∨
    ∃ o ∈ handed h, Leaving o pc ∧ freed (.advanced τ pc pc' :: h) = o.ptr :: freed h ∧
      handed (.advanced τ pc pc' :: h) = handed h ∧ Retires σ' own' o := by
  cases change with
  | serve small grant => exact .inl ⟨rfl, fun o leaving => by cases leaving⟩
  | map big fits room => exact .inl ⟨rfl, fun o leaving => by cases leaving⟩
  | header at' writes => cases writes <;> exact .inl ⟨rfl, fun o leaving => by cases leaving⟩
  | look looks fits => cases looks <;> exact .inl ⟨rfl, fun o leaving => by cases leaving⟩
  | release known leaving held release =>
    refine .inr ⟨_, known, leaving, ?_, ?_, fun g page => releaseGone inv release held page⟩ <;>
      cases leaving <;> rfl
  | stale known big dead => exact .inr ⟨_, known, .unmapping big, rfl, rfl, dead⟩

structure Marked (h : History) (s : System) : Prop where
  gone : ∀ o ∈ handed h, (s.heap.mem o.ptr = none ↔ o.ptr ∈ freed h)
  served : ∀ p ∈ freed h, ∃ o ∈ handed h, o.ptr = p

theorem fateMapped (inv : Inv σ' own chains) (fate : Fate σ' own o) :
    (σ'.mem o.ptr = none → Retires σ' own o) ∧ (Retires σ' own o → σ'.mem o.ptr = none) := by
  refine ⟨fun hole => fate.resolve_left fun held => ?_, fun dead => retiresHole inv dead rfl⟩
  exact insideMapped inv held (insideSelf _ _) hole

theorem markedAdvance (races : Races pid h s own chains) (marked : Marked h s)
    (change : Change h s.heap own chains (s.pc τ) pc' σ' own' chains') :
    Marked (.advanced τ (s.pc τ) pc' :: h) { s.goto τ pc' with heap := σ' } := by
  have after := racesAdvance races change
  have inv' : Inv σ' own' chains' := after.inv
  have grows := handedGrows races change
  have fates : ∀ o ∈ handed h, Fate σ' own' o := fun o known => after.fates o (grows o known)
  have kept : ∀ o ∈ handed h, (∀ p, Leaving p (s.pc τ) → p.ptr ≠ o.ptr) →
      (σ'.mem o.ptr = none ↔ s.heap.mem o.ptr = none) := by
    intro o known other
    rcases races.fates o known with held | dead
    · have untouched : ¬ Touched h own σ' own' (s.pc τ) (o.ptr / pageSize) := by
        intro touched
        cases touched with
        | writing mine at' early low high =>
          exact writingApart races.inv at' early low high (.inl held) (spansSelf _ _)
        | freeing known' leaving held' gone page =>
          have same := apartSame races.apart known known' (spansSelf _ _) page
          exact other _ leaving (same ▸ rfl)
      have busy := (changeFrame races.inv change).busy _ (heldBusy races.inv held) untouched
      exact iff_of_false (insideMapped inv' (heldKept busy held) (insideSelf _ _))
        (insideMapped races.inv held (insideSelf _ _))
    · have frame := changeFrame races.inv change
      exact iff_of_true (retiresHole inv' (fun g page => frame.retired g (dead g page)) rfl)
        (retiresHole races.inv dead rfl)
  rcases freedChange (τ := τ) races.inv change with ⟨same, stays⟩ | ⟨p, known, leaving, added, same, dead⟩
  · have old : ∀ o ∈ handed h, (σ'.mem o.ptr = none ↔ o.ptr ∈ freed h) := fun o known =>
      (kept o known fun p leaving => absurd leaving (stays p)).trans (marked.gone o known)
    refine ⟨fun o known => ?_, fun p member => ?_⟩
    · rw [same]
      rcases handedChange (τ := τ) races.inv change with before | ⟨size, ptr, _, new, held, fresh⟩
      · exact old o (before ▸ known)
      · rw [new] at known
        rcases List.mem_cons.mp known with rfl | before
        · refine iff_of_false (insideMapped inv' held (insideSelf _ _)) fun member => ?_
          obtain ⟨q, there, at'⟩ := marked.served _ member
          exact fresh q (races.fates q there) _ (spansSelf _ _) (at' ▸ spansSelf q.ptr q.size)
        · exact old o before
    · rw [same] at member
      obtain ⟨o, known, at'⟩ := marked.served p member
      exact ⟨o, grows o known, at'⟩
  · refine ⟨fun o there => ?_, fun q member => ?_⟩
    · rw [same] at there
      rw [added, List.mem_cons]
      by_cases self : o.ptr = p.ptr
      · cases samePointer races known there self
        exact iff_of_true (retiresHole inv' dead rfl) (.inl rfl)
      · have others : ∀ q, Leaving q (s.pc τ) → q.ptr ≠ o.ptr := fun q leaving' at' => self <|
          at'.symm.trans (Option.some.inj ((leavingNamed leaving').symm.trans (leavingNamed leaving)))
        rw [kept o there others, marked.gone o there, or_iff_right self]
    · rw [added] at member
      rw [same]
      rcases List.mem_cons.mp member with rfl | before
      · exact ⟨p, known, rfl⟩
      · exact marked.served q before

theorem markedStep (races : Races pid h s own chains) (marked : Marked h s)
    (taken : Step pid Racing Within h s e s') : Marked (e :: h) s' := by
  cases taken with
  | called ready allowed => exact ⟨marked.gone, marked.served⟩
  | advanced reliable running call limit =>
    obtain ⟨own', chains', change⟩ := advanceChange races reliable running call limit
    exact markedAdvance races marked change
  | faulted reliable call limit =>
    obtain ⟨rfl, _⟩ := faultDead races reliable call
    exact ⟨marked.gone, marked.served⟩
  | returned done => exact ⟨marked.gone, marked.served⟩
  | stored ready allowed call =>
    cases allowed with
    | store known inside =>
      obtain ⟨held, rfl⟩ := storedHeld races known inside call
      have writable := insideWritable races.inv held
        ⟨Nat.le_add_right _ _, Nat.add_lt_add_left inside _⟩
      refine ⟨fun o known => (?_ : _ ↔ _).trans (marked.gone o known), marked.served⟩
      exact ((invStore races.inv writable).mapped _).trans (races.inv.mapped _).symm
  | handedOver ready allowed => exact ⟨marked.gone, marked.served⟩

theorem runMarked (run : Run pid Racing Within h s) :
    ∃ own chains, Races pid h s own chains ∧ Marked h s := by
  obtain ⟨own, chains, races⟩ := racesRun run
  refine ⟨own, chains, races, ?_⟩
  induction run generalizing own chains with
  | init begun => exact ⟨fun o known => (by cases known), fun p member => (by cases member)⟩
  | next before taken ih =>
    obtain ⟨own, chains, races⟩ := racesRun before
    exact markedStep races (ih own chains races) taken

theorem objectsLiveOnce (run : Run pid Racing Within h s) : Lifetime pid h s := by
  obtain ⟨own, chains, races, marked⟩ := runMarked run
  have dead : ∀ o ∈ handed h, o.ptr ∈ freed h → Retires s.heap own o := fun o known member =>
    (fateMapped races.inv (races.fates o known)).1 ((marked.gone o known).mpr member)
  refine ⟨fun o known g page a at' => ⟨fun hole => ?_, fun member => ?_⟩, races.apart,
    marked.served, fun p member τ k reliable at' => ?_⟩
  · rcases races.fates o known with held | gone
    · obtain ⟨u, owned, _⟩ := (heldSpans races.inv held page).2
      rw [races.inv.mapped, at', owned] at hole
      cases hole
    · exact (marked.gone o known).mp (retiresHole races.inv gone rfl)
  · exact retiredHole races.inv (dead o known member g page) at'
  · obtain ⟨o, known, rfl⟩ := marked.served p member
    exact deadSpends races reliable known (dead o known member) at'

theorem movedFreed {p : Nat} (member : p ∈ moved h) : p ∈ freed h := by
  fun_induction freed h with
  | case1 τ ptr start h ih => exact List.mem_cons.mpr ((List.mem_cons.mp member).imp_right ih)
  | case2 τ ptr start size h ih => exact List.mem_cons_of_mem _ (ih member)
  | case3 e h notMoving notUnmapping ih =>
    rw [moved] at member
    · exact ih member
    · exact notMoving
  | case4 => cases member

theorem racedFreeSpent : ∃ h s, Lifetime 1 h s ∧ firstPtr ∈ freed h ∧
    s.pc 2 = .moving firstPtr firstPtr := by
  obtain ⟨h, s, run, moved, waits⟩ := twoFrees
  refine ⟨h, s, objectsLiveOnce run, ?_, waits⟩
  exact movedFreed moved

end Nuaf.Lifetimes
