import Nuaf.Settling

/-! Access by access, the threads do nothing that threads whose regions are one step could not have
done. So what is shown of those holds of these, and it is the two mutexes that it rests on. -/
namespace Nuaf.LockedThreads
open Layout ByteMemory Machine Source Heap Threads SharedHeap CallTree LocalSections Accesses
open Locks (Region Mutex)

variable {pid τ υ : Nat} {h : History} {s s' : System} {e : Event} {g : Threads.History}
  {t : Threads.System} {parts : Nat → Set Place} {jobs : Nat → Job} {own : Owner} {chains : Chains}
  {pc pc' : Pc} {r : Region} {k : Kernel} {heap : State} {v : Nat}

theorem countsLoose (run : Run pid h s) : ∀ τ x, s.spot τ = .counting x → Makes (· ∈ device.loose) x := by
  refine @Trace.runInvariant _ _ _ _ h s
    (fun _ s => ∀ τ x, s.spot τ = .counting x → Makes (· ∈ device.loose) x)
    (fun s begun τ x at' => ?_) (fun h s e s' before taken τ x at' => ?_) run
  · rw [begun.2.2 τ] at at'
    cases at'
  · have moved : ∀ {υ : Nat} {p : Spot} {s₀ : System}, s₀.spot = s.spot → (s₀.goto υ p).spot τ = .counting x →
        p = .counting x ∨ s.spot τ = .counting x := by
      intro υ p s₀ same at'
      by_cases self : τ = υ
      · subst self
        exact .inl (spotSelf.symm.trans at')
      · exact .inr (by rw [← same, ← spotOther self, at'])
    cases taken with
    | stored | handedOver => exact before τ x at'
    | @unmapped υ ptr start size op next v heap here body access =>
      rcases moved rfl at' with new | old
      · obtain ⟨rfl, rfl⟩ := Program.call.inj body
        cases new
        exact ⟨trivial, fun _ => ⟨trivial, fun _ => trivial⟩⟩
      · exact before τ x old
    | @counts υ op next v heap here access =>
      rcases moved rfl at' with new | old
      · cases new
        exact (before υ _ here).2 v
      · exact before τ x old
    | _ =>
      rcases moved rfl at' with new | old
      · cases new
      · exact before τ x old

theorem freeMine (settles : Settles h s g t parts jobs) (idle : jobs τ = none) :
    ∀ l ∈ mine g t τ, ∀ j, l ∉ parts j := by
  intro l here j
  by_cases self : j = τ
  · exact self ▸ settlesIdle settles idle l
  · cases l with
    | byte a =>
      obtain ⟨o, claim, spans⟩ := here
      exact settles.sole j τ o a (Ne.symm self) claim spans
    | _ => exact here.elim

theorem freeTerritory (settles : Settles h s g t parts jobs) (guarded : Guarded s) {m : Mutex}
    (vacant : s.owner m = none) : ∀ l ∈ territory m, ∀ j, l ∉ parts j := by
  intro l here j theirs
  obtain ⟨pc, x, r, spot, locked, there⟩ := settles.within j l theirs
  cases territoryOne here there
  have held := guarded j r.mutex (by rw [spot]; exact ⟨r, locked, rfl⟩)
  rw [vacant] at held
  cases held

theorem followsGoto {d : Threads.Event} {p : Pc} (settles : Settles h s g t parts jobs)
    (before : (s.spot τ).pc = some p) (taken : Threads.Step pid Owning Within g t d (t.goto τ pc))
    (only : ∀ υ, υ ≠ τ → concerns υ d = false) (same : ∀ υ, owned (d :: g) υ = owned g υ)
    (quiet : ∀ size shadow, pc ≠ .magic size shadow ∧ pc ≠ .count size shadow) :
    Follows pid h g t (.stepped d) (s.goto τ (.out pc)) := by
  obtain ⟨_, _, events⟩ := besideJob (settles.beside τ) before
  refine followsStep .stepped taken (settlesMove settles before ?_ (eventsBoth events d) (fun υ other => ?_)
    settles.overlaid fun υ o claim => ⟨υ, claimsGoto quiet claim (same υ), .inl rfl⟩)
  · exact (congrArg Spot.pc spotSelf).trans (congrArg some (gotoSelf t τ pc).symm)
  · exact ⟨spotOther other, gotoOther t pc other, eventsOther g (only υ other),
      eventsOther (told h) (only υ other)⟩

theorem followsCalled (settles : Settles h s g t parts jobs) (ready : s.spot τ = .out .idle)
    (allowed : Owning (told h) (.called τ pc)) :
    Follows pid h g t (.stepped (.called τ pc)) (s.goto τ (.out pc)) := by
  have before : (s.spot τ).pc = some .idle := congrArg Spot.pc ready
  obtain ⟨_, place, events⟩ := besideJob (settles.beside τ) before
  have same := sameOwned events
  have allowed' : Owning g (.called τ pc) := by
    cases allowed with
    | malloc size => exact .malloc size
    | free mine => exact .free (same ▸ mine)
    | query mine => exact .query (same ▸ mine)
  refine followsGoto settles before (.called place allowed') (fun υ other => decide_eq_false (Ne.symm other))
    (fun _ => rfl) ?_
  cases allowed <;> exact fun size shadow => ⟨nofun, nofun⟩

theorem followsReturned (settles : Settles h s g t parts jobs) (here : s.spot τ = .out pc) (done : pc.Final) :
    Follows pid h g t (.stepped (.returned τ)) (s.goto τ (.out .idle)) := by
  have before : (s.spot τ).pc = some pc := congrArg Spot.pc here
  obtain ⟨_, place, _⟩ := besideJob (settles.beside τ) before
  exact followsGoto settles before (.returned (place ▸ done)) (fun υ other => decide_eq_false (Ne.symm other))
    (fun _ => rfl) fun size shadow => ⟨nofun, nofun⟩

theorem advancedSelf (g : Threads.History) (before after : Pc) :
    eventsOf τ (.advanced τ before after :: g) = .advanced τ before after :: eventsOf τ g :=
  (eventsCons g _ τ).trans (if_pos (decide_eq_true rfl))

theorem advancedOther {before after : Pc} (other : υ ≠ τ) :
    concerns υ (.advanced τ before after) = false := decide_eq_false (Ne.symm other)

theorem followsAdvanced {p : Spot} {σ : State} (settles : Settles h s g t parts jobs)
    (races : Races pid g t own chains) (reliable : Reliable pid k) (before : (s.spot τ).pc = some (t.pc τ))
    (running : ¬ (t.pc τ).Final) (single : region (t.pc τ) = none)
    (call : next k (t.pc τ) t.heap = .ok pc' σ) (limit : Within σ) (after : p.pc = some pc')
    (overlaid : Overlaid device parts jobs heap σ) :
    Follows pid h g t (.stepped (.advanced τ (t.pc τ) pc')) ((s.goto τ p).withHeap heap) := by
  obtain ⟨_, _, events⟩ := besideJob (settles.beside τ) before
  obtain ⟨own', chains', change⟩ := advanceChange races reliable running call limit
  refine followsStep .stepped (.advanced reliable running call limit) (settlesMove settles before ?_
    (eventsBoth events _) (fun υ other => ?_) overlaid fun υ o claim => ?_)
  · exact (congrArg Spot.pc spotSelf).trans (after.trans (congrArg some (gotoSelf t τ pc').symm))
  · exact ⟨spotOther other, gotoOther t _ other, eventsOther g (advancedOther other),
      eventsOther (told h) (advancedOther other)⟩
  · rcases claimsAdvance change claim with old | ⟨_, _, locked⟩
    · exact ⟨υ, old, .inl rfl⟩
    · exact absurd single locked

theorem settlesPar (settles : Settles h s g t parts jobs) (races : Races pid g t own chains)
    (reliable : Reliable pid k) : s.heap.parPs = k.pid := by
  have setup : s.heap.parPs = t.heap.parPs := (settles.overlaid.rest .setup (.inr rfl)).2.2
  exact setup.trans (races.par.trans reliable.1.symm)

theorem openAlike (settles : Settles h s g t parts jobs) (races : Races pid g t own chains)
    (shares : Shares g t) (reliable : Reliable pid k) (here : s.spot τ = .out (t.pc τ))
    (running : ¬ (t.pc τ).Final) (single : region (t.pc τ) = none)
    (held : ∀ ptr start size, t.pc τ ≠ .unmapping ptr start size) :
    ∃ pc' σ heap, next k (t.pc τ) t.heap = .ok pc' σ ∧ Within σ ∧ next k (t.pc τ) s.heap = .ok pc' heap ∧
      Overlaid device parts jobs heap σ := by
  obtain ⟨idle, _⟩ := besideJob (settles.beside τ) (congrArg Spot.pc here)
  obtain ⟨pc', σ, call, ends⟩ := openEnds races shares reliable running single held
  obtain ⟨⟨heap, ran⟩, whole⟩ := overlaidWhole settles.overlaid (freeMine settles idle) ends
  have high := endsOutside (l := .high) ends (.inl id)
  refine ⟨pc', σ, heap, call, ?_, ?_, whole heap ran⟩
  · rw [Within, ← show t.heap.highVaddr = σ.highVaddr from high]
    exact races.inv.highLimit
  · exact (openSource (settlesPar settles races reliable) single held).symm.trans ran

theorem followsOpen (settles : Settles h s g t parts jobs) (races : Races pid g t own chains)
    (shares : Shares g t) (reliable : Reliable pid k) (here : s.spot τ = .out pc) (running : ¬ pc.Final)
    (single : region pc = none) (held : ∀ ptr start size, pc ≠ .unmapping ptr start size)
    (call : next k pc s.heap = .ok pc' heap) :
    Follows pid h g t (.stepped (.advanced τ pc pc')) ((s.goto τ (.out pc')).withHeap heap) := by
  have before : (s.spot τ).pc = some pc := congrArg Spot.pc here
  obtain ⟨_, place, _⟩ := besideJob (settles.beside τ) before
  subst place
  obtain ⟨_, σ, _, above, limit, below, overlaid⟩ := openAlike settles races shares reliable here running single held
  cases below.symm.trans call
  exact followsAdvanced settles races reliable before running single above limit rfl overlaid

theorem openRuns (settles : Settles h s g t parts jobs) (races : Races pid g t own chains)
    (shares : Shares g t) (reliable : Reliable pid k) (here : s.spot τ = .out pc)
    (single : region pc = none) : ∃ pc' heap, next k pc s.heap = .ok pc' heap := by
  by_cases done : pc.Final
  · cases pc with
    | idle | got | freed | answered => exact ⟨_, _, rfl⟩
    | _ => exact done.elim
  · by_cases held : ∃ ptr start size, pc = .unmapping ptr start size
    · obtain ⟨ptr, start, size, rfl⟩ := held
      exact ⟨_, _, rfl⟩
    · have held : ∀ ptr start size, pc ≠ .unmapping ptr start size :=
        fun ptr start size at' => held ⟨ptr, start, size, at'⟩
      obtain ⟨_, place, _⟩ := besideJob (settles.beside τ) (congrArg Spot.pc here)
      subst place
      obtain ⟨pc', _, heap, _, _, below, _⟩ := openAlike settles races shares reliable here done single held
      exact ⟨pc', heap, below⟩

theorem followsUnmapped {ptr start size : Nat} {op : Access} {after : Nat → Body Nat}
    (settles : Settles h s g t parts jobs) (races : Races pid g t own chains) (shares : Shares g t)
    (here : s.spot τ = .out (.unmapping ptr start size)) (body : unmapBody start size = .call op after)
    (access : op.perform s.heap = .ok v heap) :
    Follows pid h g t (.stepped (.advanced τ (.unmapping ptr start size) .freed))
      ((s.goto τ (.counting (after v))).withHeap heap) := by
  obtain ⟨rfl, rfl⟩ := Program.call.inj body
  have before : (s.spot τ).pc = some (.unmapping ptr start size) := congrArg Spot.pc here
  obtain ⟨idle, place, _⟩ := besideJob (settles.beside τ) before
  have ran : device.run (ask (.munmap (roundDown start pageSize) (wrap (roundUp size pageSize)))) s.heap =
      .ok 0 heap := by
    rw [runAsk]
    cases access
    rfl
  have whole := (overlaidWhole settles.overlaid (freeMine settles idle) (unmapEnds races shares place)).2 heap ran
  let k : Kernel := { Exhaustion.steady with pid := pid }
  have reliable : Reliable pid k := ⟨rfl, rfl, fun _ => rfl⟩
  have call : next k (.unmapping ptr start size) t.heap = .ok .freed (released start size t.heap) := rfl
  have limit : Within (released start size t.heap) := races.inv.highLimit
  rw [← place] at before call ⊢
  refine followsAdvanced settles races reliable before ?_ ?_ call limit rfl whole
  · rw [place]
    exact id
  · rw [place]
    rfl

theorem followsStored {addr : Nat} {byte : UInt8} (settles : Settles h s g t parts jobs)
    (races : Races pid g t own chains) (shares : Shares g t) (ready : s.spot τ = .out .idle)
    (allowed : Owning (told h) (.stored τ addr)) (call : writeWord addr 1 byte.toNat s.heap = .ok () heap) :
    Follows pid h g t (.stepped (.stored τ addr)) (s.withHeap heap) := by
  have before : (s.spot τ).pc = some .idle := congrArg Spot.pc ready
  obtain ⟨idle, place, events⟩ := besideJob (settles.beside τ) before
  have same := sameOwned events
  cases allowed with
  | @store _ o index held inside =>
  have held : o ∈ owned g τ := same ▸ held
  have ends := @storeEnds pid g t own chains τ races shares o index byte.toNat held inside
  have ran : device.run (ask (.store (o.ptr + index) 1 byte.toNat)) s.heap = .ok 0 heap := by
    rw [runAsk]
    exact bindOk call
  have whole := (overlaidWhole settles.overlaid (freeMine settles idle) ends).2 heap ran
  obtain ⟨_, run, _⟩ := endsRun ends
  rw [runAsk] at run
  obtain ⟨mapped, _, _⟩ := storeInv run
  have call' : writeWord (o.ptr + index) 1 byte.toNat t.heap =
      .ok () { t.heap with mem := write t.heap.mem (o.ptr + index) 1 byte.toNat } := writeWordOk mapped _
  refine followsStep .stepped (.stored place (.store held inside) call') (settlesMove settles before ?_ ?_
    (fun υ other => ?_) whole fun υ p claim => ⟨υ, ?_, .inl rfl⟩)
  · exact before.trans (congrArg some place.symm)
  · exact eventsBoth events _
  · have quiet : concerns υ (.stored τ (o.ptr + index)) = false := decide_eq_false (Ne.symm other)
    exact ⟨rfl, rfl, eventsOther g quiet, eventsOther (told h) quiet⟩
  · cases claim with
    | held mine => exact .held mine
    | making at' => exact .making at'

theorem followsHandedOver {giver taker : Nat} {o : Object} (settles : Settles h s g t parts jobs)
    (ready : s.spot giver = .out .idle) (out : s.spot taker = .out pc)
    (allowed : Owning (told h) (.handedOver giver taker o)) :
    Follows pid h g t (.stepped (.handedOver giver taker o)) s := by
  obtain ⟨idle, place, events⟩ := besideJob (settles.beside giver) (congrArg Spot.pc ready)
  have same := sameOwned events
  cases allowed with
  | handOver held =>
  have held : o ∈ owned g giver := same ▸ held
  refine followsStep .stepped (.handedOver place (.handOver held)) (settlesKeep settles settles.overlaid
    (fun υ => ?_) (fun υ pc' x inside => ⟨x, inside⟩) fun υ p claim => ?_)
  · by_cases part : υ = giver ∨ υ = taker
    · have spot : ∃ pc, (s.spot υ).pc = some pc := by
        rcases part with rfl | rfl
        · exact ⟨_, congrArg Spot.pc ready⟩
        · exact ⟨_, congrArg Spot.pc out⟩
      obtain ⟨pc', spot⟩ := spot
      obtain ⟨quiet, place', events'⟩ := besideJob (settles.beside υ) spot
      rw [quiet]
      exact .rest spot place' (eventsBoth events' _)
    · have away : concerns υ (.handedOver giver taker o) = false :=
        decide_eq_false fun both => part (both.imp Eq.symm Eq.symm)
      exact besideKept (settles.beside υ) rfl rfl (eventsOther g away) (eventsOther (told h) away)
  · cases claim with
    | held mine =>
      rcases ownedHandOver.mp mine with ⟨rfl, _⟩ | ⟨old, _⟩
      · exact ⟨giver, .held held, .inr idle⟩
      · exact ⟨υ, .held old, .inl rfl⟩
    | making at' => exact ⟨υ, .making at', .inl rfl⟩

/- A region begins. Nobody is at anything its mutex guards, so it comes to the same wherever the
others have got to with theirs. -/
theorem followsAcquired (settles : Settles h s g t parts jobs) (guarded : Guarded s)
    (races : Races pid g t own chains) (shares : Shares g t) (reliable : Reliable pid k)
    (waits : s.spot τ = .asks pc) (locked : region pc = some r) (vacant : s.owner r.mutex = none)
    (room : Room s.heap r) :
    Follows pid h g t (.acquired τ pc) ((s.take τ r.mutex).goto τ (.inside pc (regionBody k r))) := by
  obtain ⟨idle, place, events⟩ := besideJob (settles.beside τ) (congrArg Spot.pc waits)
  have free := freeTerritory settles guarded vacant
  have equal : ∀ l, l ∈ territory r.mutex ∨ l ∈ device.fixed → same l s.heap t.heap :=
    fun l here => settles.overlaid.rest l (here.imp_left (free l))
  obtain ⟨pages, v, _, comes⟩ := regionComes races shares reliable equal place locked room
  obtain ⟨σ, ends, call, limit⟩ := comesStep races reliable place locked comes
  have within := guardsWithin comes.within
  have overlaid := overlaidBegin settles.overlaid idle (fun l here => free l (within here)) ends
  subst place
  have running : ¬ (t.pc τ).Final := by
    intro done
    cases at' : t.pc τ with
    | malloc | moving => rw [at'] at done; exact done
    | _ => rw [at'] at locked; cases locked
  obtain ⟨own', chains', change⟩ := advanceChange races reliable running call limit
  refine followsStep .acquired (.advanced reliable running call limit) ⟨overlaid, fun υ => ?_,
    fun υ l here => ?_, fun φ υ o a other claim spans here => ?_⟩
  · by_cases self : υ = τ
    · subst self
      rw [Function.update_self]
      refine .inside spotSelf (gotoSelf t υ _) ?_
      rw [advancedSelf, events]
      rfl
    · rw [Function.update_of_ne self]
      exact besideKept (settles.beside υ) (spotOther self) (gotoOther t _ self)
        (eventsOther g (advancedOther self)) rfl
  · by_cases self : υ = τ
    · subst self
      rw [Function.update_self] at here
      exact ⟨_, _, r, spotSelf, locked, within here⟩
    · rw [Function.update_of_ne self] at here
      obtain ⟨pc', x, r', spot, there⟩ := settles.within υ l here
      exact ⟨pc', x, r', (spotOther self).trans spot, there⟩
  · by_cases self : φ = τ
    · subst self
      rw [Function.update_self] at here
      rcases claimsAdvance change claim with old | ⟨same, _⟩
      · exact comes.sole υ o (a / pageSize) other old spans here
      · exact other same
    · rw [Function.update_of_ne self] at here
      rcases claimsAdvance change claim with old | ⟨_, fresh, _⟩
      · exact settles.sole φ υ o a other old spans here
      · -- what is handed out is on the region's own pages
        have new : .byte a ∈ guards r.mutex pages := comes.fresh o (a / pageSize) fresh spans
        exact free _ (within new) φ here

theorem followsAccessed {op : Access} {next : Nat → Body Nat} (settles : Settles h s g t parts jobs)
    (here : s.spot τ = .inside pc (.call op next)) (access : op.perform s.heap = .ok v heap) :
    Follows pid h g t (.went τ) ((s.goto τ (.inside pc (next v))).withHeap heap) := by
  obtain ⟨w, job, place, events⟩ := besideInside (settles.beside τ) here
  have overlaid := (overlaidStep settles.overlaid job).2 v heap access
  refine followsSilent wentSilent (settlesKeep settles overlaid (fun υ => ?_) (fun υ pc' x inside => ?_)
    fun υ o claim => ⟨υ, claim, .inl rfl⟩)
  · by_cases self : υ = τ
    · subst self
      rw [Function.update_self]
      exact .inside spotSelf place events
    · rw [Function.update_of_ne self]
      exact besideKept (settles.beside υ) (spotOther self) rfl rfl rfl
  · by_cases self : υ = τ
    · subst self
      cases here.symm.trans inside
      exact ⟨_, spotSelf⟩
    · exact ⟨x, (spotOther self).trans inside⟩

theorem followsReleased (settles : Settles h s g t parts jobs) (here : s.spot τ = .inside pc (.done v)) :
    Follows pid h g t (.released τ pc (served pc v)) ((s.drop r.mutex).goto τ (.out (served pc v))) := by
  obtain ⟨w, job, place, events⟩ := besideInside (settles.beside τ) here
  obtain ⟨rfl, overlaid⟩ := overlaidEnd settles.overlaid job
  have left : ∀ υ l, l ∈ Function.update parts τ ∅ υ → υ ≠ τ ∧ l ∈ parts υ := by
    intro υ l mine
    by_cases self : υ = τ
    · subst self
      rw [Function.update_self] at mine
      exact absurd mine (Set.notMem_empty l)
    · rw [Function.update_of_ne self] at mine
      exact ⟨self, mine⟩
  refine followsSilent releasedSilent ⟨overlaid, fun υ => ?_, fun υ l mine => ?_,
    fun φ υ o a other claim spans mine => settles.sole φ υ o a other claim spans (left φ _ mine).2⟩
  · by_cases self : υ = τ
    · subst self
      rw [Function.update_self]
      exact .rest (congrArg Spot.pc spotSelf) place (events.trans (advancedSelf (told h) _ _).symm)
    · rw [Function.update_of_ne self]
      exact besideKept (settles.beside υ) (spotOther self) rfl rfl
        (eventsOther (told h) (advancedOther self))
  · obtain ⟨other, mine⟩ := left υ l mine
    obtain ⟨pc', x, r', spot, there⟩ := settles.within υ l mine
    exact ⟨pc', x, r', (spotOther other).trans spot, there⟩

theorem followsWent (settles : Settles h s g t parts jobs) (before : (s.spot τ).pc = some pc)
    (after : (s'.spot τ).pc = some pc) (others : ∀ υ, υ ≠ τ → s'.spot υ = s.spot υ)
    (alike : device.Alike s.heap s'.heap) : Follows pid h g t (.went τ) s' :=
  followsSilent wentSilent (settlesWait settles before after others rfl (overlaidLike settles.overlaid alike))

theorem follows (run : Run pid h s) (above : Threads.Run pid Owning Within g t)
    (settles : Settles h s g t parts jobs) (taken : Step pid h s e s') : Follows pid h g t e s' := by
  obtain ⟨own, chains, races, shares⟩ := sharesRun above
  have guarded := guardedRun run
  cases taken with
  | called ready allowed => exact followsCalled settles ready allowed
  | advanced reliable here running single call =>
    exact followsOpen settles races shares reliable here running single.1 single.2 call
  | faulted reliable here single call =>
    obtain ⟨_, _, runs⟩ := openRuns settles races shares reliable here single
    rw [runs] at call
    cases call
  | unmapped here body access => exact followsUnmapped settles races shares here body access
  | @counts τ op next v heap here access =>
    have free : op ∈ device.loose := (countsLoose run τ _ here).1
    exact followsWent settles (congrArg Spot.pc here) (congrArg Spot.pc spotSelf)
      (fun υ other => spotOther other)
      fun l => device.spares access l (.inl (device.blank free ▸ Set.notMem_empty l))
  | counted here =>
    exact followsWent settles (congrArg Spot.pc here) (congrArg Spot.pc spotSelf)
      (fun υ other => spotOther other) (alikeRefl s.heap)
  | returned here done => exact followsReturned settles here done
  | stored ready allowed call => exact followsStored settles races shares ready allowed call
  | handedOver ready out allowed => exact followsHandedOver settles ready out allowed
  | @asked τ k pc r heap reliable here locked call =>
    have still : heap = s.heap := by
      cases pc with
      | malloc size =>
        cases (ensureInitRun (settlesPar settles races reliable)).symm.trans call
        rfl
      | _ =>
        cases call
        rfl
    subst still
    exact followsWent settles (congrArg Spot.pc here) (congrArg Spot.pc spotSelf)
      (fun υ other => spotOther other) (alikeRefl s.heap)
  | acquired reliable waits locked vacant room =>
    exact followsAcquired settles guarded races shares reliable waits locked vacant room
  | accessed here access => exact followsAccessed settles here access
  | released here locked => exact followsReleased settles here
  | freezes here | lockedFirst here | lockedSecond here | thaws here | thawed here =>
    exact followsWent settles (congrArg Spot.pc here) (congrArg Spot.pc spotSelf)
      (fun υ other => spotOther other) (alikeRefl s.heap)

/- How the threads stand to those whose regions are one step each. Outside of regions they are where
those are and have seen the same; a region under way will come to what it counts as there. -/
structure AsOne (pid : Nat) (h : History) (s : System) (g : Threads.History) (t : Threads.System) : Prop where
  outside : ∀ τ pc, (s.spot τ).pc = some pc → t.pc τ = pc ∧ eventsOf τ g = eventsOf τ (told h)
  inside : ∀ τ pc x, s.spot τ = .inside pc x → ∃ v heap, device.run x s.heap = .ok v heap ∧
    t.pc τ = served pc v ∧ eventsOf τ g = .advanced τ pc (served pc v) :: eventsOf τ (told h)
  vacant : ∀ m, s.owner m = none → ∀ l ∈ territory m, same l s.heap t.heap
  objects : ∀ τ pc o a, (s.spot τ).pc = some pc → Claims g t τ o → Spans o.ptr o.size (a / pageSize) →
    s.heap.mem a = t.heap.mem a
  quiet : (∀ τ, (s.spot τ).pc ≠ none) → ∀ l, same l s.heap t.heap
  runs : ∀ τ pc k, s.spot τ = .out pc → region pc = none → Reliable pid k →
    ∃ pc' heap, next k pc s.heap = .ok pc' heap

theorem settlesAsOne (guarded : Guarded s) (races : Races pid g t own chains) (shares : Shares g t)
    (settles : Settles h s g t parts jobs) : AsOne pid h s g t := by
  refine ⟨fun τ pc spot => (besideJob (settles.beside τ) spot).2, fun τ pc x spot => ?_,
    fun m vacant l here => ?_, fun τ pc o a spot claim spans => ?_, fun out => ?_,
    fun τ pc k here single reliable => openRuns settles races shares reliable here single⟩
  · obtain ⟨v, job, place, events⟩ := besideInside (settles.beside τ) spot
    obtain ⟨_, ends, _⟩ := settles.overlaid.ends τ x v job
    obtain ⟨heap, run, _⟩ := endsRun ends
    exact ⟨v, heap, run, place, events⟩
  · exact settles.overlaid.rest l (.inl (freeTerritory settles guarded vacant l here))
  · obtain ⟨idle, _⟩ := besideJob (settles.beside τ) spot
    exact settles.overlaid.rest (.byte a) (.inl (freeMine settles idle _ ⟨o, claim, spans⟩))
  · refine overlaidNone settles.overlaid fun τ => ?_
    obtain ⟨pc, spot⟩ := Option.ne_none_iff_exists'.mp (out τ)
    exact (besideJob (settles.beside τ) spot).1

theorem settlesBegan (begun : Began pid s) :
    Settles [] s [] ⟨s.heap, fun _ => .idle⟩ (fun _ => ∅) (fun _ => none) :=
  ⟨overlaidInit (alikeRefl s.heap), fun τ => .rest (congrArg Spot.pc (begun.2.2 τ)) rfl rfl,
    fun _ l mine => absurd mine (Set.notMem_empty l), fun _ _ _ _ _ _ _ => Set.notMem_empty _⟩

/- Whatever the threads do access by access, threads that run each locked region in one step could
have done. -/
theorem regionsAtomic (run : Run pid h s) : ∃ g t, Threads.Run pid Owning Within g t ∧
    Simulation.Reads Point h g ∧ AsOne pid h s g t := by
  obtain ⟨g, t, above, reads, parts, jobs, settles⟩ := Simulation.readsRun
    (R := fun h s g t => ∃ parts jobs, Settles h s g t parts jobs)
    (fun s begun => ⟨⟨s.heap, fun _ => .idle⟩, ⟨begun.1, fun _ => rfl⟩, _, _, settlesBegan begun⟩)
    (fun h s e s' g t run above ⟨_, _, settles⟩ taken => follows run above settles taken) run
  obtain ⟨own, chains, races, shares⟩ := sharesRun above
  exact ⟨g, t, above, reads, settlesAsOne (guardedRun run) races shares settles⟩

theorem bothInside : ∃ h s, Run 1 h s ∧ (∃ x, s.spot 1 = .inside (.malloc 16) x) ∧
    ∃ x, s.spot 2 = .inside (.malloc 4096) x := by
  have begins : ∀ pc, opens Exhaustion.steady pc Exhaustion.begun = .ok () Exhaustion.begun := by
    intro pc
    cases pc with
    | malloc size => exact ensureInitRun rfl
    | _ => rfl
  have reads : Access.perform (.loadTop (blockType 16)) Exhaustion.begun = .ok 0 Exhaustion.begun :=
    bindOk (getFlstRun (by decide) Exhaustion.begun)
  have run : Run 1 [] ⟨Exhaustion.begun, fun _ => none, fun _ => .out .idle⟩ :=
    .init ⟨Exhaustion.begunStarted, rfl, fun _ => rfl⟩
  have run := Trace.Run.next run (.called (τ := 1) rfl (.malloc 16))
  have run := Trace.Run.next run (.called (τ := 2) rfl (.malloc 4096))
  have run := Trace.Run.next run (.asked (τ := 1) Exhaustion.steadyReliable rfl rfl (begins _))
  have run := Trace.Run.next run (.asked (τ := 2) Exhaustion.steadyReliable rfl rfl (begins _))
  have run := Trace.Run.next run (.acquired (τ := 1) Exhaustion.steadyReliable rfl rfl rfl
    fun _ => by decide)
  have run := Trace.Run.next run (.acquired (τ := 2) Exhaustion.steadyReliable rfl rfl rfl
    ⟨by decide, by decide⟩)
  have run := Trace.Run.next run (.accessed (τ := 1) rfl reads)
  have run := Trace.Run.next run (.accessed (τ := 2) rfl rfl)
  exact ⟨_, _, run, ⟨_, rfl⟩, _, rfl⟩

theorem bothAtomic : ∃ h s g t, (∃ x, s.spot 1 = .inside (.malloc 16) x) ∧
    (∃ x, s.spot 2 = .inside (.malloc 4096) x) ∧ Threads.Run 1 Owning Within g t ∧
    Simulation.Reads Point h g ∧ AsOne 1 h s g t := by
  obtain ⟨h, s, run, first, second⟩ := bothInside
  obtain ⟨g, t, above, reads, one⟩ := regionsAtomic run
  exact ⟨h, s, g, t, first, second, above, reads, one⟩

end Nuaf.LockedThreads
