import Mathlib.Data.List.Pairwise
import Nuaf.ThreadSteps

/-! The invariant of racing threads. A step changes pages nobody uses, the pages of the mapping
whose header its own call is writing, or the pages of an object that is gone afterwards. -/
namespace Nuaf.Threads
open Layout ByteMemory LinkedStack Machine Source Heap

def Apart (o p : Object) : Prop := ∀ g, Spans o.ptr o.size g → ¬ Spans p.ptr p.size g

inductive Touched (h : History) (own : Owner) (σ' : State) (own' : Owner) (pc : Pc) (g : Nat) :
    Prop where
  | writing {shadow size stage} (mine : pc.pending = some shadow) (at' : BigAt own shadow size stage)
      (early : stage < 2) (low : shadow / pageSize ≤ g)
      (high : g < shadow / pageSize + bigPages size)
  | freeing {o} (known : o ∈ handed h) (leaving : Leaving o pc) (held : Held own o.ptr o.size)
      (gone : Retires σ' own' o) (page : Spans o.ptr o.size g)

structure Frame (touched : Nat → Prop) (σ : State) (own : Owner) (σ' : State) (own' : Owner) :
    Prop where
  busy : ∀ g, Busy own g → ¬ touched g → own' g = own g
  retired : ∀ g, Retired σ own g → Retired σ' own' g

variable {pid : Nat} {h h' : History} {σ σ' : State} {own own' : Owner} {chains chains' : Chains}
  {pc pc' : Pc} {o : Object} {s s' : System} {e : Event} {τ υ g : Nat}

instance : Std.Symm Apart := ⟨fun _ _ away g there here => away g here there⟩

theorem apartSame {p : Object} (apart : (handed h).Pairwise Apart) (left : o ∈ handed h)
    (right : p ∈ handed h) (here : Spans o.ptr o.size g) (there : Spans p.ptr p.size g) : o = p := by
  by_contra differ
  exact apart.forall left right differ g here there

theorem frameSame (touched : Nat → Prop) (σ : State) (own : Owner) : Frame touched σ own σ own :=
  ⟨fun _ _ _ => rfl, fun _ retired => retired⟩

theorem writesPending {size shadow stage address value : Nat}
    (writes : Writes size shadow stage pc pc' address value) :
    pc.pending = some shadow ∧ stage < 2 := by
  cases writes <;> exact ⟨rfl, by decide⟩

theorem bigAtBase {shadow size stage : Nat} (at' : BigAt own shadow size stage) :
    pageSize * (shadow / pageSize) = shadow := Nat.mul_div_cancel' (Nat.dvd_of_mod_eq_zero at'.aligned)

theorem changeInv (inv : Inv σ own chains) (change : Change h σ own chains pc pc' σ' own' chains') :
    Inv σ' own' chains' := by
  cases change with
  | serve small grant => exact grantInv inv grant
  | map big fits room => exact invBigMap inv (bigPagesPositive _) fits room
  | header at' writes =>
    have base := bigAtBase at'
    cases writes with
    | magic =>
      have magic := invMagic inv at'.owned
      rwa [base] at magic
    | count =>
      have counted := invCount inv at'.owned
      rwa [base] at counted
  | release known leaving held release => exact releaseInv inv held release
  | stale known big dead => exact invSame inv rfl rfl rfl rfl
  | look looks fits => exact inv

theorem changePar (change : Change h σ own chains pc pc' σ' own' chains') :
    σ'.parPs = σ.parPs := by
  cases change with
  | serve small grant => exact grantPar grant
  | release known leaving held release => exact releasePar release
  | _ => rfl

theorem changeFrame (inv : Inv σ own chains)
    (change : Change h σ own chains pc pc' σ' own' chains') :
    Frame (Touched h own σ' own' pc) σ own σ' own' := by
  cases change with
  | serve small grant =>
    exact ⟨fun g busy _ => grantBusy inv grant busy, fun g retired => grantRetired inv grant retired⟩
  | map big fits room =>
    have base := nextPage inv
    have next := (bigMappedFields fits room).2
    refine ⟨fun g busy _ => rangeOut fun inside => ?_, fun g retired => ?_⟩
    · obtain ⟨u, owned, _⟩ := busy
      rw [ownPast inv (base ▸ Nat.mul_le_mul_left pageSize inside.1)] at owned
      cases owned
    · have behind := (retiredBehind inv retired).2
      refine ⟨(rangeOut fun inside => ?_).trans retired.1, retired.2.imp_right fun large => ?_⟩
      · have := Nat.mul_le_mul_left pageSize inside.1
        simp only [pageSize] at *
        omega
      · exact ⟨large.1, Nat.le_trans large.2 (Nat.le_trans (Nat.le_add_right _ _) (Nat.le_of_eq next.symm))⟩
  | header at' writes =>
    obtain ⟨mine, early⟩ := writesPending writes
    refine ⟨fun g _ other => rangeOut fun inside => other ?_, fun g retired => ?_⟩
    · exact .writing mine at' early inside.1 inside.2
    · refine ⟨(rangeOut fun inside => ?_).trans retired.1, retired.2⟩
      have owned := (inv.big at'.owned).2.2.whole g inside.1 inside.2
      rw [retired.1] at owned
      cases owned
  | release known leaving held release =>
    refine ⟨fun g busy other => releaseBusy inv release busy fun page => other ?_,
      fun g retired => releaseRetired inv release retired⟩
    exact .freeing known leaving held (fun q page => releaseGone inv release held page) page
  | stale known big dead => exact ⟨fun _ _ _ => rfl, fun _ retired => retired⟩
  | look looks fits => exact frameSame _ _ _

theorem writingApart {shadow size stage : Nat} (inv : Inv σ own chains)
    (at' : BigAt own shadow size stage) (early : stage < 2) (low : shadow / pageSize ≤ g)
    (high : g < shadow / pageSize + bigPages size) (fate : Fate σ own o) :
    ¬ Spans o.ptr o.size g := by
  intro page
  have owned := (inv.big at'.owned).2.2.whole g low high
  rcases fate with held | dead
  · rw [(heldSpans inv held page).1] at owned
    rcases Nat.lt_or_ge largestBlockSize o.size with big | small
    · rw [((heldBig big).mp held).1] at owned
      simp only [Option.some.injEq, Use.big.injEq] at owned
      omega
    · rw [(heldSmall small).mp held] at owned
      cases owned
  · rw [(dead g page).1] at owned
    cases owned

theorem fateKept (inv : Inv σ own chains) (apart : (handed h).Pairwise Apart)
    (frame : Frame (Touched h own σ' own' pc) σ own σ' own') (known : o ∈ handed h)
    (fate : Fate σ own o) : Fate σ' own' o := by
  rcases fate with held | dead
  · by_cases touched : Touched h own σ' own' pc (o.ptr / pageSize)
    · cases touched with
      | writing mine at' early low high =>
        exact absurd (spansSelf _ _) (writingApart inv at' early low high (.inl held))
      | freeing known' leaving held' gone page =>
        have same := apartSame apart known known' (spansSelf _ _) page
        exact .inr (same ▸ gone)
    · exact .inl (heldKept (frame.busy _ (heldBusy inv held) touched) held)
  · exact .inr fun g page => frame.retired g (dead g page)

theorem fitsKept {touched : Nat → Prop} (frame : Frame touched σ own σ' own') (fits : Fits h own pc)
    (spared : ∀ shadow, pc.pending = some shadow → ¬ touched (shadow / pageSize))
    (grows : ∀ o ∈ handed h, o ∈ handed h') : Fits h' own' pc := by
  have stays : ∀ {shadow size stage}, pc.pending = some shadow → BigAt own shadow size stage →
      BigAt own' shadow size stage := fun mine at' => ⟨at'.big, at'.aligned,
    (frame.busy _ ⟨_, at'.owned, fun _ _ h => by cases h⟩ (spared _ mine)).trans at'.owned⟩
  cases fits with
  | idle => exact .idle
  | malloc => exact .malloc
  | magic at' => exact .magic (stays rfl at')
  | count at' => exact .count (stays rfl at')
  | got => exact .got
  | freeNull => exact .freeNull
  | free known => exact .free (grows _ known)
  | query known => exact .query (grows _ known)
  | scan known big => exact .scan (grows _ known) big
  | pages known big => exact .pages (grows _ known) big
  | rescan known big => exact .rescan (grows _ known) big
  | unmapping known big => exact .unmapping (grows _ known) big
  | moving known small => exact .moving (grows _ known) small
  | freed => exact .freed
  | answered => exact .answered

theorem fitsPending (fits : Fits h own pc) {shadow : Nat} (mine : pc.pending = some shadow) :
    ∃ size stage, BigAt own shadow size stage ∧ stage < 2 := by
  cases fits with
  | magic at' => cases Option.some.inj mine; exact ⟨_, _, at', by decide⟩
  | count at' => cases Option.some.inj mine; exact ⟨_, _, at', by decide⟩
  | _ => cases mine

theorem fitsChange (inv : Inv σ own chains) (change : Change h σ own chains pc pc' σ' own' chains')
    (grows : ∀ o ∈ handed h, o ∈ handed h') : Fits h' own' pc' := by
  cases change with
  | serve small grant => exact .got
  | map big fits room =>
    refine .magic ⟨big, inv.nextAligned, rangeIn ⟨Nat.le_refl _, ?_⟩⟩
    exact Nat.lt_add_of_pos_right (bigPagesPositive _)
  | header at' writes =>
    cases writes with
    | magic =>
      refine .count ⟨at'.big, at'.aligned, rangeIn ⟨Nat.le_refl _, ?_⟩⟩
      exact Nat.lt_add_of_pos_right (bigPagesPositive _)
    | count => exact .got
  | release known leaving held release => exact .freed
  | stale known big dead => exact .freed
  | look looks fits =>
    exact fitsKept (frameSame (fun _ => False) σ own) fits (fun _ _ => id) grows

theorem pendingChange (inv : Inv σ own chains)
    (change : Change h σ own chains pc pc' σ' own' chains') {shadow : Nat}
    (mine : pc'.pending = some shadow) :
    pc.pending = some shadow ∨ own (shadow / pageSize) = none := by
  cases change with
  | map big fits room =>
    cases Option.some.inj mine
    exact .inr (ownPast inv (Nat.le_of_eq (nextPage inv).symm))
  | header at' writes =>
    cases writes with
    | magic => exact .inl mine
    | count => cases mine
  | look looks fits => cases looks <;> cases mine
  | _ => cases mine

theorem handedChange (inv : Inv σ own chains)
    (change : Change h σ own chains pc pc' σ' own' chains') :
    handed (.advanced τ pc pc' :: h) = handed h ∨
    ∃ size ptr, pc' = .got size ptr ∧ handed (.advanced τ pc pc' :: h) = ⟨ptr, size⟩ :: handed h ∧
      Held own' ptr size ∧ ∀ o, Fate σ own o → Apart ⟨ptr, size⟩ o := by
  cases change with
  | @serve size ptr _ _ _ small grant =>
    have held := grantHeld inv grant
    refine .inr ⟨size, ptr, rfl, rfl, held, fun o fate g page there => ?_⟩
    rw [(spansSmall small).mp page] at there
    rcases fate with live | dead
    · exact grantStale inv grant (heldSpans inv live there).2
    · have gone := (grantRetired inv grant (dead _ there)).1
      rw [(heldSmall small).mp held] at gone
      cases gone
  | @header size shadow _ _ _ _ _ at' writes =>
    cases writes with
    | magic => exact .inl rfl
    | count =>
      have here : (shadow + 16) / pageSize = shadow / pageSize ∧ (shadow + 16) % pageSize = 16 := by
        have := at'.aligned
        simp only [pageSize] at *
        omega
      refine .inr ⟨size, shadow + 16, rfl, rfl, (heldBig at'.big).mpr ?_, fun o fate g page => ?_⟩
      · rw [here.1]
        exact ⟨rangeIn ⟨Nat.le_refl _, Nat.lt_add_of_pos_right (bigPagesPositive _)⟩, here.2⟩
      · obtain ⟨low, high⟩ := (spansBig at'.big).mp page
        rw [here.1] at low high
        exact writingApart inv at' (by decide) low high fate
  | look looks fits => cases looks <;> exact .inl rfl
  | _ => exact .inl rfl

theorem movedChange (inv : Inv σ own chains)
    (change : Change h σ own chains pc pc' σ' own' chains') :
    moved (.advanced τ pc pc' :: h) = moved h ∨
    ∃ o ∈ handed h, moved (.advanced τ pc pc' :: h) = o.ptr :: moved h ∧
      o.size ≤ largestBlockSize ∧ Held own o.ptr o.size ∧ Retires σ' own' o := by
  cases change with
  | release known leaving held release =>
    cases leaving with
    | moving small =>
      exact .inr ⟨_, known, rfl, small, held, fun g page => releaseGone inv release held page⟩
    | unmapping big => exact .inl rfl
  | header at' writes => cases writes <;> exact .inl rfl
  | look looks fits => cases looks <;> exact .inl rfl
  | _ => exact .inl rfl

structure Races (pid : Nat) (h : History) (s : System) (own : Owner) (chains : Chains) : Prop where
  inv : Inv s.heap own chains
  par : s.heap.parPs = pid
  fits : ∀ τ, Fits h own (s.pc τ)
  alone : ∀ τ υ shadow, (s.pc τ).pending = some shadow → (s.pc υ).pending = some shadow → τ = υ
  fates : ∀ o ∈ handed h, Fate s.heap own o
  placed : ∀ o ∈ handed h, Placed o
  apart : (handed h).Pairwise Apart
  finished : ∀ p ∈ moved h, ∃ o ∈ handed h, o.ptr = p ∧ o.size ≤ largestBlockSize ∧
    Retires s.heap own o
  once : (moved h).Nodup

theorem racesInit (begun : Began pid s) : Races pid [] s (fun _ => none) (fun _ => []) := by
  obtain ⟨inv, par⟩ := startedInv begun.1
  refine ⟨inv, par, fun τ => ?_, fun τ υ shadow mine => ?_, ?_, ?_, .nil, ?_, .nil⟩
  · rw [begun.2 τ]
    exact .idle
  · rw [begun.2 τ] at mine
    cases mine
  all_goals
    intro o known
    cases known

@[simp] theorem gotoHeap (s : System) (τ : Nat) (pc : Pc) : (s.goto τ pc).heap = s.heap := rfl

@[simp] theorem gotoSelf (s : System) (τ : Nat) (pc : Pc) : (s.goto τ pc).pc τ = pc :=
  Function.update_self _ _ _

@[simp] theorem gotoOther (s : System) {τ υ : Nat} (pc : Pc) (other : υ ≠ τ) :
    (s.goto τ pc).pc υ = s.pc υ := Function.update_of_ne other _ _

theorem pendingSpared (races : Races pid h s own chains) {υ shadow : Nat} (other : υ ≠ τ)
    (theirs : (s.pc υ).pending = some shadow) :
    ¬ Touched h own σ' own' (s.pc τ) (shadow / pageSize) := by
  intro touched
  obtain ⟨size, stage, at', early⟩ := fitsPending (races.fits υ) theirs
  cases touched with
  | @writing mine _ _ pending at'' _ low high =>
    have owned := (races.inv.big at''.owned).2.2.whole _ low high
    rw [at'.owned] at owned
    simp only [Option.some.injEq, Use.big.injEq] at owned
    have same : shadow = mine := by rw [← bigAtBase at', owned.1, bigAtBase at'']
    exact other (races.alone υ τ shadow theirs (same ▸ pending))
  | freeing known leaving held gone page =>
    exact writingApart races.inv at' early (Nat.le_refl _)
      (Nat.lt_add_of_pos_right (bigPagesPositive _)) (.inl held) page

theorem pendingFresh (races : Races pid h s own chains)
    (change : Change h s.heap own chains (s.pc τ) pc' σ' own' chains') {υ shadow : Nat}
    (mine : pc'.pending = some shadow) (theirs : (s.pc υ).pending = some shadow) : υ = τ := by
  rcases pendingChange races.inv change mine with before | vacant
  · exact races.alone υ τ shadow theirs before
  · obtain ⟨size, stage, at', _⟩ := fitsPending (races.fits υ) theirs
    rw [at'.owned] at vacant
    cases vacant

section
variable {chains' : Chains} (races : Races pid h s own chains)
  (change : Change h s.heap own chains (s.pc τ) pc' σ' own' chains')
include races change

theorem handedGrows : ∀ o ∈ handed h, o ∈ handed (.advanced τ (s.pc τ) pc' :: h) := by
  intro o known
  rcases handedChange (τ := τ) races.inv change with same | ⟨size, ptr, _, added, _⟩
  · exact same ▸ known
  · exact added ▸ List.mem_cons_of_mem _ known

theorem fitsAdvance (υ : Nat) :
    Fits (.advanced τ (s.pc τ) pc' :: h) own' ((s.goto τ pc').pc υ) := by
  have grows := handedGrows races change
  by_cases self : υ = τ
  · subst self
    simpa using fitsChange races.inv change grows
  · simpa [self] using fitsKept (changeFrame races.inv change) (races.fits υ)
      (fun _ => pendingSpared races self) grows

theorem aloneAdvance {υ φ shadow : Nat} (mine : ((s.goto τ pc').pc υ).pending = some shadow)
    (theirs : ((s.goto τ pc').pc φ).pending = some shadow) : υ = φ := by
  by_cases here : υ = τ <;> by_cases there : φ = τ
  · rw [here, there]
  · subst here
    exact (pendingFresh races change (by simpa using mine) (by simpa [there] using theirs)).symm
  · subst there
    exact pendingFresh races change (by simpa using theirs) (by simpa [here] using mine)
  · exact races.alone υ φ shadow (by simpa [here] using mine) (by simpa [there] using theirs)

theorem handedAdvance :
    (∀ o ∈ handed (.advanced τ (s.pc τ) pc' :: h), Fate σ' own' o ∧ Placed o) ∧
      (handed (.advanced τ (s.pc τ) pc' :: h)).Pairwise Apart := by
  have old : ∀ o ∈ handed h, Fate σ' own' o ∧ Placed o := fun o known =>
    ⟨fateKept races.inv races.apart (changeFrame races.inv change) known (races.fates o known),
      races.placed o known⟩
  rcases handedChange (τ := τ) races.inv change with same | ⟨size, ptr, _, added, held, fresh⟩
  · rw [same]
    exact ⟨old, races.apart⟩
  · rw [added]
    refine ⟨fun o known => ?_, .cons (fun o known => fresh o (races.fates o known)) races.apart⟩
    rcases List.mem_cons.mp known with rfl | before
    · exact ⟨.inl held, heldPlaced (changeInv races.inv change) held⟩
    · exact old o before

theorem movedAdvance :
    (∀ p ∈ moved (.advanced τ (s.pc τ) pc' :: h), ∃ o ∈ handed (.advanced τ (s.pc τ) pc' :: h),
      o.ptr = p ∧ o.size ≤ largestBlockSize ∧ Retires σ' own' o) ∧
      (moved (.advanced τ (s.pc τ) pc' :: h)).Nodup := by
  have grows := handedGrows races change
  have frame := changeFrame races.inv change
  have old : ∀ p ∈ moved h, ∃ o ∈ handed (.advanced τ (s.pc τ) pc' :: h), o.ptr = p ∧
      o.size ≤ largestBlockSize ∧ Retires σ' own' o := by
    intro p before
    obtain ⟨o, known, at', small, dead⟩ := races.finished p before
    exact ⟨o, grows o known, at', small, fun g page => frame.retired g (dead g page)⟩
  rcases movedChange (τ := τ) races.inv change with same | ⟨o, known, added, small, held, dead⟩
  · rw [same]
    exact ⟨old, races.once⟩
  · rw [added]
    refine ⟨fun p member => ?_, List.nodup_cons.mpr ⟨fun again => ?_, races.once⟩⟩
    · rcases List.mem_cons.mp member with rfl | before
      · exact ⟨o, grows o known, rfl, small, dead⟩
      · exact old p before
    · obtain ⟨p, known', at', _, gone⟩ := races.finished _ again
      have free := (gone _ (spansSelf p.ptr p.size)).1
      rw [at', (heldSmall small).mp held] at free
      cases free

theorem racesAdvance :
    Races pid (.advanced τ (s.pc τ) pc' :: h) { s.goto τ pc' with heap := σ' } own' chains' := by
  obtain ⟨known, apart⟩ := handedAdvance races change
  obtain ⟨finished, once⟩ := movedAdvance races change
  exact ⟨changeInv races.inv change, (changePar change).trans races.par, fitsAdvance races change,
    fun υ φ shadow => aloneAdvance races change, fun o there => (known o there).1,
    fun o there => (known o there).2, apart, finished, once⟩

end

theorem racesQuiet (races : Races pid h s own chains) (inv : Inv s'.heap own chains)
    (par : s'.heap.parPs = s.heap.parPs)
    (highs : s'.heap.highVaddr = s.heap.highVaddr ∧
      s'.heap.largeObjNextPage = s.heap.largeObjNextPage)
    (same : handed (e :: h) = handed h ∧ moved (e :: h) = moved h)
    (fits : ∀ τ, Fits h own (s'.pc τ))
    (pending : ∀ τ shadow, (s'.pc τ).pending = some shadow → (s.pc τ).pending = some shadow) :
    Races pid (e :: h) s' own chains := by
  have retired : ∀ g, Retired s.heap own g → Retired s'.heap own g := fun g gone => by
    unfold Retired
    rw [highs.1, highs.2]
    exact gone
  have frame : Frame (fun _ => False) s.heap own s'.heap own := ⟨fun _ _ _ => rfl, retired⟩
  refine ⟨inv, par.trans races.par, fun τ => ?_, fun τ υ shadow mine theirs => ?_, ?_, ?_, ?_, ?_, ?_⟩
  · exact fitsKept (frameSame (fun _ => False) s'.heap own) (fits τ) (fun _ _ => id)
      (fun o known => same.1 ▸ known)
  · exact races.alone τ υ shadow (pending τ shadow mine) (pending υ shadow theirs)
  · rw [same.1]
    exact fun o known => (races.fates o known).imp_right fun dead g page => retired g (dead g page)
  · rw [same.1]
    exact races.placed
  · rw [same.1]
    exact races.apart
  · rw [same.1, same.2]
    intro p member
    obtain ⟨o, known, at', small, dead⟩ := races.finished p member
    exact ⟨o, known, at', small, fun g page => retired g (dead g page)⟩
  · rw [same.2]
    exact races.once

theorem storedHeld {index : Nat} {byte : UInt8} (races : Races pid h s own chains)
    (known : o ∈ handed h) (inside : index < usableOf o.size)
    (call : writeWord (o.ptr + index) 1 byte.toNat s.heap = .ok () σ') :
    Held own o.ptr o.size ∧ σ' = wrote (o.ptr + index) 1 byte.toNat s.heap := by
  rcases races.fates o known with held | dead
  · have within : Inside o.ptr o.size (o.ptr + index) :=
      ⟨Nat.le_add_right _ _, Nat.add_lt_add_left inside _⟩
    have mapped : Mapped s.heap.mem (o.ptr + index) 1 := fun i hi => by
      rw [show o.ptr + index + i = o.ptr + index by omega]
      exact insideMapped races.inv held within
    rw [writeWordOk mapped] at call
    cases call
    exact ⟨held, rfl⟩
  · have hole := retiredHole races.inv (dead _ ((races.placed o known).inside index inside)) rfl
    have fault := @writeWordFault s.heap (o.ptr + index) 1 (fun mapped => mapped 0 (by decide) hole) byte.toNat
    rw [fault] at call
    cases call

theorem samePointer {p : Object} (races : Races pid h s own chains) (left : o ∈ handed h)
    (right : p ∈ handed h) (same : p.ptr = o.ptr) : p = o :=
  apartSame races.apart right left (spansSelf p.ptr p.size) (same ▸ spansSelf o.ptr o.size)

theorem advanceChange (races : Races pid h s own chains) {k : Kernel} (reliable : Reliable pid k)
    (running : ¬ (s.pc τ).Final) (call : next k (s.pc τ) s.heap = .ok pc' σ') (limit : Within σ') :
    ∃ own' chains', Change h s.heap own chains (s.pc τ) pc' σ' own' chains' := by
  cases nextOutcome races.inv (races.par.trans reliable.1.symm) reliable races.fates races.placed
    (races.fits τ) running with
  | runs done change =>
    rw [done] at call
    cases call
    exact change limit
  | faults _ _ _ failed => rw [failed] at call; cases call
  | exits _ _ failed | full _ _ failed | past _ _ failed => rw [failed] at call; cases call

theorem faultDead (races : Races pid h s own chains) {k : Kernel} {addr : Nat}
    (reliable : Reliable pid k) (call : next k (s.pc τ) s.heap = .error (.segv addr) σ') :
    σ' = s.heap ∧ ∃ o ∈ handed h, (s.pc τ).named = some o.ptr ∧ Retires s.heap own o := by
  have running : ¬ (s.pc τ).Final := by
    intro final
    cases at' : s.pc τ <;> simp only [at', Pc.Final] at final <;> rw [at'] at call <;> cases call
  cases nextOutcome races.inv (races.par.trans reliable.1.symm) reliable races.fates races.placed
    (races.fits τ) running with
  | runs done => rw [done] at call; cases call
  | faults known at' dead failed =>
    rw [failed] at call
    cases call
    exact ⟨rfl, _, known, at', dead⟩
  | exits _ _ failed | full _ _ failed | past _ _ failed => rw [failed] at call; cases call

theorem racesStep (races : Races pid h s own chains) (taken : Step pid Racing Within h s e s') :
    ∃ own' chains', Races pid (e :: h) s' own' chains' := by
  have here : ∀ {τ υ : Nat} {pc : Pc}, Fits h own pc → Fits h own ((s.goto τ pc).pc υ) := by
    intro τ υ pc fits
    by_cases self : υ = τ
    · subst self
      simpa using fits
    · simpa [self] using races.fits υ
  have still : ∀ {τ υ shadow : Nat} {pc : Pc}, pc.pending = none →
      ((s.goto τ pc).pc υ).pending = some shadow → (s.pc υ).pending = some shadow := by
    intro τ υ shadow pc none mine
    by_cases self : υ = τ
    · subst self
      rw [gotoSelf, none] at mine
      cases mine
    · simpa [self] using mine
  cases taken with
  | called ready allowed =>
    refine ⟨own, chains, racesQuiet races races.inv rfl ⟨rfl, rfl⟩ ⟨rfl, rfl⟩ (fun υ => here ?_)
      fun υ shadow => still ?_⟩
    · cases allowed with
      | malloc size => exact .malloc
      | freeNull => exact .freeNull
      | free known => exact .free known
      | query known => exact .query known
    · cases allowed <;> rfl
  | advanced reliable running call limit =>
    obtain ⟨own', chains', change⟩ := advanceChange races reliable running call limit
    exact ⟨own', chains', racesAdvance races change⟩
  | faulted reliable call limit =>
    obtain ⟨rfl, _⟩ := faultDead races reliable call
    exact ⟨own, chains, racesQuiet races races.inv rfl ⟨rfl, rfl⟩ ⟨rfl, rfl⟩
      (fun υ => here .idle) fun υ shadow => still rfl⟩
  | returned done =>
    exact ⟨own, chains, racesQuiet races races.inv rfl ⟨rfl, rfl⟩ ⟨rfl, rfl⟩
      (fun υ => here .idle) fun υ shadow => still rfl⟩
  | stored ready allowed call =>
    cases allowed with
    | store known inside =>
      obtain ⟨held, rfl⟩ := storedHeld races known inside call
      have writable := insideWritable races.inv held
        ⟨Nat.le_add_right _ _, Nat.add_lt_add_left inside _⟩
      exact ⟨own, chains, racesQuiet races (invStore races.inv writable) rfl ⟨rfl, rfl⟩ ⟨rfl, rfl⟩
        races.fits fun _ _ mine => mine⟩
  | handedOver ready allowed =>
    exact ⟨own, chains, racesQuiet races races.inv rfl ⟨rfl, rfl⟩ ⟨rfl, rfl⟩ races.fits
      fun _ _ mine => mine⟩

theorem racesRun (run : Run pid Racing Within h s) : ∃ own chains, Races pid h s own chains := by
  refine @Trace.runInvariant _ _ _ _ h s (fun h s => ∃ own chains, Races pid h s own chains)
    (fun s begun => ⟨_, _, racesInit begun⟩) ?_ run
  rintro h s e s' ⟨own, chains, races⟩ taken
  exact racesStep races taken

end Nuaf.Threads
