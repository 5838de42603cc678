import Nuaf.ThreadInvariant
import Nuaf.OnePage

/-! Racing frees of one small object. The first to take the lock moves the page away for
good; whoever read the header before that finds a hole under the lock, and whoever comes
later finds it at the header. -/
namespace Nuaf.DoubleFree
open Layout ByteMemory LinkedStack Machine Source Heap Threads Exhaustion

def Stops (k : Kernel) (pc : Pc) (σ : State) : Prop :=
  ∃ halt σ', next k pc σ = .error halt σ' ∧ (halt = .exit 1 ∨ ∃ addr, halt = .segv addr)

structure FreedOnce (pid : Nat) (h : History) (s : System) : Prop where
  handedOnce : ((handed h).map Object.ptr).Nodup
  movedOnce : (moved h).Nodup
  movedServed : ∀ p ∈ moved h, ∃ o ∈ handed h, o.ptr = p ∧ o.size ≤ largestBlockSize
  places : ∀ o ∈ handed h, o.size ≤ largestBlockSize → ∀ τ, (s.pc τ).named = some o.ptr →
    s.pc τ = .free o.ptr ∨ s.pc τ = .query o.ptr ∨ s.pc τ = .moving o.ptr o.ptr
  others : ∀ p ∈ moved h, ∀ τ k, Reliable pid k → (s.pc τ).named = some p → Stops k (s.pc τ) s.heap
  lists : ∃ chains : Chains, (∀ t < numBlockTypes,
      Linked (fun a => load s.heap.mem a 8) 0 (s.heap.gFlsts t).topOfStack (chains t)) ∧
    (∀ t < numBlockTypes, (chains t).Nodup) ∧
    ∀ t < numBlockTypes, ∀ u < numBlockTypes, ∀ a ∈ chains t, ∀ b ∈ chains u,
      a / pageSize = b / pageSize → t = u ∧ a = b

variable {pid : Nat} {h : History} {s : System} {own : Owner} {chains : Chains} {k : Kernel}
  {o : Object} {τ : Nat}

theorem smallPlaces (races : Races pid h s own chains) (known : o ∈ handed h)
    (small : o.size ≤ largestBlockSize) (at' : (s.pc τ).named = some o.ptr) :
    s.pc τ = .free o.ptr ∨ s.pc τ = .query o.ptr ∨ s.pc τ = .moving o.ptr o.ptr := by
  have fits := races.fits τ
  have never : ∀ {p : Object}, p ∈ handed h → largestBlockSize < p.size → p.ptr ≠ o.ptr := by
    intro p known' big same
    rw [samePointer races known known' same] at big
    exact absurd big (Nat.not_lt.mpr small)
  generalize s.pc τ = pc at at' fits
  cases fits with
  | idle | malloc | magic | count | got | freed | answered => cases at'
  | freeNull => exact absurd (Option.some.inj at').symm (fateAddress races.inv (races.fates o known))
  | free known' => exact .inl (congrArg _ (Option.some.inj at'))
  | query known' => exact .inr (.inl (congrArg _ (Option.some.inj at')))
  | moving known' small' =>
    have same := Option.some.inj at'
    exact .inr (.inr (by rw [same]))
  | scan known' big | pages known' big | rescan known' big | unmapping known' big =>
    exact absurd (Option.some.inj at') (never known' big)

theorem deadStops (races : Races pid h s own chains) (reliable : Reliable pid k)
    (known : o ∈ handed h) (small : o.size ≤ largestBlockSize) (dead : Retires s.heap own o)
    (at' : (s.pc τ).named = some o.ptr) : Stops k (s.pc τ) s.heap := by
  have low := (races.placed o known).small small
  rcases smallPlaces races known small at' with free | query | moving
  · rw [free]
    obtain ⟨addr, fault⟩ := freeDead races.inv dead (races.par.trans reliable.1.symm) low
    exact ⟨_, _, fault, .inr ⟨_, rfl⟩⟩
  · rw [query]
    obtain ⟨addr, fault⟩ := queryDead (k := k) races.inv dead low
    exact ⟨_, _, fault, .inr ⟨_, rfl⟩⟩
  · rw [moving]
    obtain ⟨σ', failed⟩ := movingDead (k := k) races.inv dead
    exact ⟨_, _, failed, .inl rfl⟩

theorem listsApart (races : Races pid h s own chains) {t u a b : Nat} (left : t < numBlockTypes)
    (right : u < numBlockTypes) (here : a ∈ chains t) (there : b ∈ chains u)
    (page : a / pageSize = b / pageSize) : t = u ∧ a = b := by
  have mine := (races.inv.chained t left a).mp here
  have theirs := (races.inv.chained u right b).mp there
  rw [page, theirs] at mine
  simp only [Option.some.injEq, Use.small.injEq, and_true] at mine
  refine ⟨mine.1.symm, ?_⟩
  rw [← pageSplit a, ← pageSplit b, page, mine.2]

theorem freedAtMostOnce (run : Run pid Racing Within h s) : FreedOnce pid h s := by
  obtain ⟨own, chains, races⟩ := racesRun run
  refine ⟨?_, races.once, ?_, fun o known small τ => smallPlaces races known small, ?_,
    chains, races.inv.linked, fun t cls => linkedNodup (races.inv.linked t cls),
    fun t left u right a here b there => listsApart races left right here there⟩
  · refine List.pairwise_map.mpr (races.apart.imp fun {o p} apart same => ?_)
    exact apart _ (spansSelf o.ptr o.size) (same ▸ spansSelf p.ptr p.size)
  · intro p member
    obtain ⟨o, known, at', small, _⟩ := races.finished p member
    exact ⟨o, known, at', small⟩
  · intro p member τ k reliable at'
    obtain ⟨o, known, rfl, small, dead⟩ := races.finished p member
    exact deadStops races reliable known small dead at'

def firstPtr : Nat := mmapMinAddr + 16

theorem firstServed :
    next steady (.malloc 16) begun = .ok (.got 16 firstPtr) (carved 0 ⟨0, 16⟩ begun) := by
  have carve := @carveNext begun steady 16 rfl rfl (by decide) rfl (by decide) (by decide) (by decide)
  rwa [show blockType 16 = 0 by decide] at carve

theorem twoFrees : ∃ h s, Run 1 Racing Within h s ∧ firstPtr ∈ moved h ∧
    s.pc 2 = .moving firstPtr firstPtr := by
  have cls : blockType 16 = 0 := by decide
  have small : (⟨firstPtr, 16⟩ : Object).size ≤ largestBlockSize := by decide
  have grant : Grant begun (fun _ => none) (fun _ => []) 16 firstPtr (carved 0 ⟨0, 16⟩ begun)
      (carveOwner 0 16 begun fun _ => none) (fun _ => []) := by
    have carve := @Grant.carve begun (fun _ => none) (fun _ => []) 16 small rfl (by decide)
    rwa [cls] at carve
  have fresh := (startedInv begunStarted).1
  have inv := grantInv fresh grant
  have held := grantHeld fresh grant
  have reads := freeLive (k := steady) (o := ⟨firstPtr, 16⟩) inv held rfl small
  obtain ⟨σ, frees, high⟩ := movingLive (o := ⟨firstPtr, 16⟩) inv held steadyReliable small
  have limit : Within (carved 0 ⟨0, 16⟩ begun) := by decide
  have limit' : Within σ := by
    unfold Within
    rw [high]
    decide
  have run : Run 1 Racing Within [] ⟨begun, fun _ => .idle⟩ := .init ⟨begunStarted, fun _ => rfl⟩
  have run := Trace.Run.next run (.called (τ := 1) rfl (.malloc 16))
  have run := Trace.Run.next run (.advanced (τ := 1) steadyReliable id firstServed limit)
  have run := Trace.Run.next run (.returned (τ := 1) trivial)
  have run := Trace.Run.next run (.called (τ := 1) rfl (.free (o := ⟨firstPtr, 16⟩) (by decide)))
  have run := Trace.Run.next run (.called (τ := 2) rfl (.free (o := ⟨firstPtr, 16⟩) (by decide)))
  have run := Trace.Run.next run (.advanced (τ := 1) steadyReliable id reads limit)
  have run := Trace.Run.next run (.advanced (τ := 2) steadyReliable id reads limit)
  have run := Trace.Run.next run (.advanced (τ := 1) steadyReliable id frees limit')
  exact ⟨_, _, run, by decide, rfl⟩

theorem secondFreeExits : ∃ h s, FreedOnce 1 h s ∧ firstPtr ∈ moved h ∧
    s.pc 2 = .moving firstPtr firstPtr := by
  obtain ⟨h, s, run, freed, waits⟩ := twoFrees
  exact ⟨h, s, freedAtMostOnce run, freed, waits⟩

end Nuaf.DoubleFree
