import Nuaf.Effects
import Nuaf.Footprint
import Nuaf.ThreadInvariant

/-! Every sequential run is a run of one thread. All that differs is the record of kernel calls,
which each sequential call begins anew. -/
namespace Nuaf.LoneThread
open Layout Machine Source Heap Threads
open Nuaf.Sequential (Op Sound exec live ledger reliably)

variable {pid n ptr size p v : Nat} {k : Kernel} {within : State → Prop} {σ σ' heap : State} {pc pc' : Pc}
  {h : History} {s : System} {l : Sequential.History} {d : Sequential.Event} {own : Owner} {o : Object}
  {b : Sequential.Block}

theorem unchanged {α : Type} {x : AllocM α} {v : α} (keeps : Outcomes.Respects Eq x)
    (call : x σ = .ok v σ') : σ' = σ := ((keeps σ).trans (Outcomes.finalOk call)).symm

theorem unrecordedHigh (same : Unrecorded σ σ') : σ'.highVaddr = σ.highVaddr := by
  obtain ⟨calls, rfl⟩ := same
  rfl

theorem lookCases {page : Nat} {found : Pc} {below : Nat → Pc}
    (call : look page found below σ = .ok pc' σ') : σ' = σ ∧ (pc' = found ∨ ∃ g, pc' = below g) := by
  obtain ⟨word, σ₁, read, rest⟩ := bindInv call
  have still := unchanged (keepsReadWord _ _) read
  subst still
  split at rest
  · cases rest
    exact ⟨rfl, .inl rfl⟩
  · cases page with
    | zero => cases rest
    | succ page =>
      cases rest
      exact ⟨rfl, .inr ⟨page, rfl⟩⟩

/- A call on a pointer only reads until its last step, which takes no other object away. -/
theorem namedStep (par : σ.parPs = k.pid) (named : pc.named = some ptr)
    (call : next k pc σ = .ok pc' σ') :
    (pc'.named = some ptr ∧ σ' = σ ∧ ∀ objects, keeps objects pc pc' = objects) ∨
    ((pc' = .freed ∨ ∃ size, pc' = .answered size) ∧ ∀ objects, ∀ o ∈ objects,
      (pc' = .freed → o.ptr ≠ ptr) → o ∈ keeps objects pc pc') := by
  have releases : ∀ start objSize objects, (release ptr start objSize).named = some ptr ∧
      keeps objects pc (release ptr start objSize) = objects := by
    intro start objSize objects
    unfold release
    cases pc <;> split <;> exact ⟨rfl, rfl⟩
  cases pc with
  | free p =>
    cases named
    rw [next, bindOk (ensureInitRun par)] at call
    split at call
    · cases call
      exact .inr ⟨.inl rfl, fun _ _ member _ => member⟩
    · split at call
      · cases call
        exact .inl ⟨rfl, rfl, fun _ => rfl⟩
      · obtain ⟨objSize, σ₁, usable, rest⟩ := bindInv call
        obtain ⟨start, σ₂, place, last⟩ := bindInv rest
        have still := unchanged (keepsUsable _) usable
        have again := unchanged (keepsStart _ _) place
        subst still again
        cases last
        exact .inl ⟨(releases _ _ []).1, rfl, fun objects => (releases _ _ objects).2⟩
  | query p =>
    cases named
    rw [next] at call
    split at call
    · cases call
      exact .inr ⟨.inr ⟨_, rfl⟩, fun _ _ member _ => member⟩
    · split at call
      · cases call
        exact .inl ⟨rfl, rfl, fun _ => rfl⟩
      · obtain ⟨size, σ₁, usable, last⟩ := bindInv call
        cases last
        exact .inr ⟨.inr ⟨_, rfl⟩, fun _ _ member _ => member⟩
  | scan freeing p page =>
    cases named
    obtain ⟨rfl, rfl | ⟨g, rfl⟩⟩ := lookCases call <;> exact .inl ⟨rfl, rfl, fun _ => rfl⟩
  | pages freeing p page =>
    cases named
    obtain ⟨numPages, σ₁, read, last⟩ := bindInv call
    have still := unchanged (keepsReadWord _ _) read
    subst still
    cases last
    cases freeing
    · exact .inr ⟨.inr ⟨_, rfl⟩, fun _ _ member _ => member⟩
    · exact .inl ⟨rfl, rfl, fun _ => rfl⟩
  | rescan p objSize page =>
    cases named
    obtain ⟨rfl, rfl | ⟨g, rfl⟩⟩ := lookCases call
    · exact .inl ⟨(releases _ _ []).1, rfl, fun objects => (releases _ _ objects).2⟩
    · exact .inl ⟨rfl, rfl, fun _ => rfl⟩
  | unmapping p start objSize =>
    cases named
    obtain ⟨_, σ₁, freed, last⟩ := bindInv call
    cases last
    exact .inr ⟨.inl rfl, fun _ _ member other => List.mem_filter.mpr ⟨member, by simpa using other⟩⟩
  | moving p start =>
    cases named
    obtain ⟨_, σ₁, freed, last⟩ := bindInv call
    cases last
    exact .inr ⟨.inl rfl, fun _ _ member other => List.mem_filter.mpr ⟨member, by simpa using other⟩⟩
  | _ => cases named

theorem namedRunning (named : pc.named = some ptr) : ¬ pc.Final := by
  cases pc <;> first | exact id | cases named

theorem finishNamed (run : Run pid Owning within h s) (reliable : Reliable pid k)
    (par : s.heap.parPs = k.pid) (limit : within s.heap) (here : (s.pc 0).named = some ptr)
    (done : finish k n (s.pc 0) s.heap = .ok pc heap) (ended : pc.Final) (limit' : within heap) :
    ∃ h', Run pid Owning within h' { s.goto 0 pc with heap := heap } ∧
      ∀ o ∈ owned h 0, (pc = .freed → o.ptr ≠ ptr) → o ∈ owned h' 0 := by
  induction n generalizing h s with
  | zero =>
    cases done
    exact absurd ended (namedRunning here)
  | succ n ih =>
    have running := namedRunning here
    obtain ⟨pc₁, σ₁, call, rest⟩ := bindInv done
    rcases namedStep par here call with ⟨named, rfl, same⟩ | ⟨ends, keep⟩
    · have run := Trace.Run.next run (.advanced (τ := 0) reliable running call limit)
      have at' : (s.goto 0 pc₁).pc 0 = pc₁ := gotoSelf s 0 pc₁
      obtain ⟨h', run, keep⟩ := ih run par limit (by rw [at']; exact named) (by rw [at']; exact rest)
      have merged : (s.goto 0 pc₁).goto 0 pc = s.goto 0 pc :=
        congrArg (System.mk s.heap) (Function.update_idem _ _ _)
      refine ⟨h', ?_, fun o member => keep o ?_⟩
      · have last : ({ (s.goto 0 pc₁).goto 0 pc with heap := heap } : System) =
            { s.goto 0 pc with heap := heap } := by rw [merged]
        exact last ▸ run
      · rw [owned, if_pos rfl, same]
        exact member
    · have last : pc₁ = pc ∧ σ₁ = heap := by
        rcases ends with rfl | ⟨size, rfl⟩
        · rw [finishFreed] at rest
          cases rest
          exact ⟨rfl, rfl⟩
        · rw [finishAnswered] at rest
          cases rest
          exact ⟨rfl, rfl⟩
      obtain ⟨rfl, rfl⟩ := last
      refine ⟨_, .next run (.advanced (τ := 0) reliable running call limit'), fun o member other => ?_⟩
      rw [owned, if_pos rfl]
      exact keep _ o member other

theorem writeHigh {addr width value : Nat} {u : Unit} (done : writeWord addr width value σ = .ok u σ') :
    σ'.highVaddr = σ.highVaddr := by
  by_cases mapped : ByteMemory.Mapped σ.mem addr width
  · rw [writeWordOk mapped] at done
    cases done
    rfl
  · rw [writeWordFault mapped] at done
    cases done

theorem withinHigh (σ σ' : State) (same : σ'.highVaddr = σ.highVaddr) (limit : Within σ) : Within σ' :=
  same.trans_le limit

structure Alone (l : Sequential.History) (σ : State) (h : History) (s : System) : Prop where
  heap : Unrecorded σ s.heap
  idle : s.pc 0 = .idle
  owned : ∀ b ∈ live l, ⟨b.ptr, b.size⟩ ∈ owned h 0

theorem aloneClear (alone : Alone l σ h s) : Unrecorded σ.clear s.heap := by
  obtain ⟨calls, same⟩ := alone.heap
  exact ⟨calls, same⟩

theorem alonePar (alone : Alone l σ h s) (par : σ.parPs = k.pid) : s.heap.parPs = k.pid := by
  obtain ⟨calls, same⟩ := alone.heap
  rw [same]
  exact par

section
variable (high : ∀ σ σ', σ'.highVaddr = σ.highVaddr → within σ → within σ')
  (run : Run pid Owning within h s) (alone : Alone l σ h s) (reliable : Reliable pid k)
  (par : σ.parPs = k.pid)
include high run alone reliable par

theorem aloneNamed (limit : within σ) (allowed : Owning h (.called 0 pc)) (named : pc.named = some ptr)
    (done : finish k n pc s.heap = .ok pc' heap) (ended : pc'.Final) (same : Unrecorded σ' heap)
    (limit' : within σ')
    (rest : ∀ b ∈ live (d :: l), b ∈ live l ∧ (pc' = .freed → b.ptr ≠ ptr)) :
    ∃ h' s', Run pid Owning within h' s' ∧ Alone (d :: l) σ' h' s' := by
  have called := Trace.Run.next run (.called (τ := 0) alone.idle allowed)
  have at' : (s.goto 0 pc).pc 0 = pc := gotoSelf s 0 pc
  have par : s.heap.parPs = k.pid := alonePar alone par
  obtain ⟨h', run', keep⟩ := finishNamed called reliable par
    (high _ s.heap (unrecordedHigh alone.heap) limit) (by rw [at']; exact named)
    (by rw [at']; exact done) ended (high _ _ (unrecordedHigh same) limit')
  refine ⟨_, _, .next run' (.returned (τ := 0) (by simpa using ended)), same, gotoSelf _ 0 .idle,
    fun b member => ?_⟩
  obtain ⟨old, other⟩ := rest b member
  exact keep _ (alone.owned b old) other

theorem aloneMalloc (call : exec k (.xxmalloc size) σ.clear = .ok p σ') (limit : within σ') :
    ∃ h' s', Run pid Owning within h' s' ∧ Alone (⟨.xxmalloc size, .value p, σ'.calls⟩ :: l) σ' h' s' := by
  obtain ⟨heap, call, same⟩ := Outcomes.agreesOk (unrecordedMalloc size) call (aloneClear alone)
  have limit := high _ _ (unrecordedHigh same) limit
  rw [xxmalloc, bindOk (ensureInitRun (alonePar alone par))] at call
  have called := Trace.Run.next run (.called (τ := 0) alone.idle (.malloc size))
  obtain ⟨b, place, length, added⟩ := @Sequential.mallocLive l size p σ'.calls
  have holds : ∀ {h'}, owned h' 0 = ⟨p, size⟩ :: owned h 0 →
      ∀ c ∈ live (⟨.xxmalloc size, .value p, σ'.calls⟩ :: l), ⟨c.ptr, c.size⟩ ∈ owned h' 0 := by
    intro h' grown c member
    rw [grown]
    rw [added] at member
    rcases List.mem_cons.mp member with rfl | old
    · rw [place, length]
      exact List.mem_cons_self
    · exact List.mem_cons_of_mem _ (alone.owned c old)
  split at call
  · rename_i big
    obtain ⟨shadow, σ₁, maps, rest⟩ := bindInv call
    obtain ⟨_, σ₂, magic, rest⟩ := bindInv rest
    obtain ⟨_, σ₃, count, last⟩ := bindInv rest
    cases last
    have maps : next k (.malloc size) s.heap = .ok (.magic size shadow) σ₁ := by
      rw [next, bindOk (ensureInitRun (alonePar alone par)), if_pos big]
      exact bindOk maps
    have magic' : next k (.magic size shadow) σ₁ = .ok (.count size shadow) σ₂ := bindOk magic
    have count' : next k (.count size shadow) σ₂ = .ok (.got size (shadow + 16)) heap := bindOk count
    have last := writeHigh count
    have run := Trace.Run.next called (.advanced (τ := 0) reliable (by simp [Pc.Final])
      (by simpa using maps) (high _ _ ((writeHigh magic).symm.trans last.symm) limit))
    have run := Trace.Run.next run (.advanced (τ := 0) reliable (by simp [Pc.Final])
      (by simpa using magic') (high _ _ last.symm limit))
    have run := Trace.Run.next run (.advanced (τ := 0) reliable (by simp [Pc.Final])
      (by simpa using count') limit)
    refine ⟨_, _, .next run (.returned (τ := 0) (by simp [Pc.Final])), same, gotoSelf _ 0 .idle, ?_⟩
    exact holds (by simp [owned, keeps])
  · rename_i small
    have served : next k (.malloc size) s.heap = .ok (.got size p) heap := by
      rw [next, bindOk (ensureInitRun (alonePar alone par)), if_neg small, bindOk call]
      rfl
    have run := Trace.Run.next called (.advanced (τ := 0) reliable (by simp [Pc.Final])
      (by simpa using served) limit)
    refine ⟨_, _, .next run (.returned (τ := 0) (by simp [Pc.Final])), same, gotoSelf _ 0 .idle, ?_⟩
    exact holds (by simp [owned, keeps])

end

section
variable (high : ∀ σ σ', σ'.highVaddr = σ.highVaddr → within σ → within σ')
include high

theorem aloneStep {inner : State → Prop} (wider : ∀ σ, inner σ → within σ) (sound : Sound pid l σ own)
    (limit : within σ) (run : Run pid Owning within h s) (alone : Alone l σ h s)
    (taken : Sequential.Step (reliably pid) inner l σ d σ') :
    ∃ h' s', Run pid Owning within h' s' ∧ Alone (d :: l) σ' h' s' := by
  cases taken with
  | @returned k op v τ allowed call limit' =>
    obtain ⟨reliable, may⟩ := allowed
    have par := sound.par.trans reliable.1.symm
    have limit' := wider _ limit'
    cases may with
    | xxmalloc size => exact aloneMalloc high run alone reliable par call limit'
    | @xxfree b mine =>
      obtain ⟨_, τ, freed, last⟩ := bindInv call
      cases last
      obtain ⟨heap, freed, same⟩ := Outcomes.agreesOk (unrecordedFree b.ptr) freed (aloneClear alone)
      have done : finish k _ (.free b.ptr) s.heap = .ok .freed heap :=
        (congrFun (finishFree b.ptr (Nat.le_refl _)) _).trans (bindOk freed)
      refine aloneNamed high run alone reliable par limit (.free (alone.owned b mine)) rfl done trivial
        same limit' fun c member => ?_
      rw [Sequential.freeLive (Sequential.findCovers sound.agrees mine (insideSelf _ _))] at member
      obtain ⟨old, other⟩ := List.mem_filter.mp member
      exact ⟨old, fun _ => of_decide_eq_true other⟩
    | @usableSize b mine =>
      obtain ⟨heap, answer, same⟩ :=
        Outcomes.agreesOk (unrecordedUsable b.ptr) call (aloneClear alone)
      have done : finish k _ (.query b.ptr) s.heap = .ok (.answered _) heap :=
        (congrFun (finishQuery b.ptr (Nat.le_refl _)) _).trans (bindOk answer)
      exact aloneNamed high run alone reliable par limit (.query (alone.owned b mine)) rfl done trivial
        same limit' fun c member => ⟨member, fun freed => by cases freed⟩
    | load mine inside =>
      have still := unchanged (keepsReadWord _ _) call
      subst still
      exact ⟨h, s, run, aloneClear alone, alone.idle, alone.owned⟩
    | @store b index byte mine inside =>
      obtain ⟨_, τ, wrote, last⟩ := bindInv call
      cases last
      obtain ⟨heap, wrote, same⟩ :=
        Outcomes.agreesOk (unrecordedWriteWord _ _ _) wrote (aloneClear alone)
      exact ⟨_, _, .next run (.stored (τ := 0) alone.idle
        (.store (alone.owned b mine) ((Sequential.usableIndex sound mine).mp inside)) wrote),
        same, alone.idle, alone.owned⟩
  | faulted allowed call limit' =>
    obtain ⟨reliable, may⟩ := allowed
    cases may with
    | xxmalloc size => cases Sequential.xxmallocStops sound reliable.1 call
    | xxfree mine =>
      cases Sequential.freeStops sound reliable.1 mine (insideSelf _ _) (cleanSelf _ _) call
    | usableSize mine =>
      rw [Sequential.usableServes sound mine (insideSelf _ _) (cleanSelf _ _)] at call
      cases call
    | load mine inside =>
      obtain ⟨v, read⟩ := Sequential.loadServes sound mine ((Sequential.usableIndex sound mine).mp inside)
      rw [read] at call
      cases call
    | store mine inside =>
      rw [Sequential.storeServes sound mine ((Sequential.usableIndex sound mine).mp inside)] at call
      cases call

/- What one process does call by call, one of its threads can do while the others rest. -/
theorem aloneRun (wider : ∀ σ, Within σ → within σ)
    (run : Sequential.Run pid (reliably pid) Within l σ) :
    ∃ h s, Run pid Owning within h s ∧ Alone l σ h s := by
  induction run with
  | @init σ begun =>
    exact ⟨[], ⟨σ, fun _ => .idle⟩, .init ⟨begun, fun _ => rfl⟩, ⟨σ.calls, rfl⟩, rfl,
      fun b member => by cases member⟩
  | next before taken ih =>
    obtain ⟨h, s, run, alone⟩ := ih
    obtain ⟨own, sound⟩ := Sequential.runSound (Sequential.runWiden Sequential.reliablyWider before)
    exact aloneStep high wider sound (wider _ sound.agrees.inv.highLimit) run alone taken

end

end Nuaf.LoneThread
