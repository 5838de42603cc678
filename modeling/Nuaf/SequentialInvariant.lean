import Nuaf.Sequential

/-! The ledger read off the history agrees with the memory, after every operation of a
sequential run. `Change` says once what an operation can do; every later result about
sequential runs is a case analysis of it. -/
namespace Nuaf.Sequential
open Layout ByteMemory LinkedStack Machine Source Heap

variable {pid : Nat} {h : History} {σ σ' : State} {own own' : Owner} {k : Kernel} {e : Event}

def chainsOf (l : Ledger) : Chains := fun t => (l.free t).map Block.ptr

structure Agrees (l : Ledger) (σ : State) (own : Owner) : Prop where
  inv : Inv σ own (chainsOf l)
  held : ∀ b ∈ l.live, Held own b.ptr b.size
  distinct : (l.live.map Block.ptr).Nodup
  sorted : ∀ b ∈ l.live, b.Small → b.cls = blockType b.size
  freed : ∀ t, ∀ b ∈ l.free t, b.cls = t

structure Sound (pid : Nat) (h : History) (σ : State) (own : Owner) : Prop where
  par : σ.parPs = pid
  agrees : Agrees (ledger h) σ own
  gone : ∀ g, Gone h g → Retired σ own g

theorem agreesClear {l : Ledger} (agrees : Agrees l σ own) : Agrees l σ.clear own :=
  { agrees with inv := invClear agrees.inv }

theorem soundClear (sound : Sound pid h σ own) : Sound pid h σ.clear own :=
  { sound with agrees := agreesClear sound.agrees }

theorem soundInit (begun : Started pid σ) : Sound pid [] σ (fun _ => none) := by
  obtain ⟨inv, par⟩ := startedInv begun
  exact ⟨par, ⟨inv, by simp [ledger], by simp [ledger], by simp [ledger], by simp [ledger]⟩,
    fun g gone => gone.elim⟩

theorem findCovers {l : Ledger} (agrees : Agrees l σ own) {b : Block} {ptr : Nat}
    (owned : b ∈ l.live) (covers : b.Covers ptr) : l.find ptr = some b := by
  have present : (l.find ptr).isSome := List.find?_isSome.mpr ⟨b, owned, by simpa using covers⟩
  obtain ⟨c, found⟩ := Option.isSome_iff_exists.mp present
  have member := List.mem_of_find?_eq_some found
  have covers' : c.Covers ptr := by simpa using List.find?_some found
  have same := heldApart agrees.inv (agrees.held c member) (agrees.held b owned)
    (insideSpans agrees.inv (agrees.held c member) covers')
    (insideSpans agrees.inv (agrees.held b owned) covers)
  rw [found, List.inj_on_of_nodup_map agrees.distinct member owned same]

section
variable {l : Ledger} {chains' : Chains} {size p : Nat} (agrees : Agrees l σ own)
  (grant : Grant σ own (chainsOf l) size p σ' own' chains')
include agrees grant

theorem grantKept : ∀ b ∈ l.live, Held own' b.ptr b.size := fun b owned =>
  heldKept (grantBusy agrees.inv grant (heldBusy agrees.inv (agrees.held b owned)))
    (agrees.held b owned)

theorem grantFresh : p ∉ l.live.map Block.ptr := by
  intro member
  obtain ⟨b, owned, rfl⟩ := List.mem_map.mp member
  exact grantStale agrees.inv grant (heldBusy agrees.inv (agrees.held b owned))

theorem agreesMake (same : chains' = chainsOf l) : Agrees (l.make size p) σ' own' := by
  subst same
  refine ⟨grantInv agrees.inv grant, ?_,
    List.nodup_cons.mpr ⟨grantFresh agrees grant, agrees.distinct⟩, ?_, agrees.freed⟩
  · intro b owned
    rcases List.mem_cons.mp owned with rfl | old
    · exact grantHeld agrees.inv grant
    · exact grantKept agrees grant b old
  · intro b owned
    rcases List.mem_cons.mp owned with rfl | old
    · exact fun _ => rfl
    · exact agrees.sorted b old

end

theorem chainsPop {l : Ledger} {live : List Block} (t : Nat) (rest : List Block) :
    chainsOf { l with live := live, free := Function.update l.free t rest } =
      Function.update (chainsOf l) t (rest.map Block.ptr) := by
  funext s
  by_cases here : s = t
  · subst here
    simp [chainsOf]
  · simp [chainsOf, here]

theorem agreesGrant {l : Ledger} {chains' : Chains} {size p : Nat} (agrees : Agrees l σ own)
    (grant : Grant σ own (chainsOf l) size p σ' own' chains') :
    Agrees (l.malloc size p) σ' own' := by
  have inv := grantInv agrees.inv grant
  have kept := grantKept agrees grant
  have fresh := grantFresh agrees grant
  have served := grantHeld agrees.inv grant
  have made := agreesMake agrees grant
  cases grant with
  | carve small empty room =>
    have none : l.free (blockType size) = [] := List.map_eq_nil_iff.mp empty
    rw [Ledger.malloc, if_pos small, none]
    exact made rfl
  | @pop p' rest link small full next =>
    obtain ⟨b, left, list, rfl, rfl⟩ := List.map_eq_cons_iff.mp full
    rw [Ledger.malloc, if_pos small, list]
    refine ⟨?_, ?_, List.nodup_cons.mpr ⟨fresh, agrees.distinct⟩, ?_, ?_⟩
    · rw [chainsPop]
      exact inv
    · intro c owned
      rcases List.mem_cons.mp owned with rfl | old
      · exact served
      · exact kept c old
    · intro c owned
      rcases List.mem_cons.mp owned with rfl | old
      · exact fun _ => agrees.freed _ b (by simp [list])
      · exact agrees.sorted c old
    · intro s c member
      by_cases here : s = blockType size
      · subst here
        simp only [Function.update_self] at member
        exact agrees.freed _ c (by simp [list, member])
      · simp only [Function.update_of_ne here] at member
        exact agrees.freed s c member
  | large big fits room =>
    rw [Ledger.malloc, if_neg (Nat.not_le.mpr big)]
    exact made rfl

theorem agreesRelease {l : Ledger} {chains' : Chains} {b : Block} (agrees : Agrees l σ own)
    (owned : b ∈ l.live) (release : Release σ own (chainsOf l) b.ptr b.size σ' own' chains') :
    Agrees (l.release b (movedTo σ'.calls)) σ' own' := by
  have mine := agrees.held b owned
  have inv := releaseInv agrees.inv mine release
  have kept : ∀ c ∈ l.live.filter (fun c => c.ptr ≠ b.ptr), Held own' c.ptr c.size := by
    intro c member
    obtain ⟨old, differ⟩ := List.mem_filter.mp member
    have other : ¬ Spans b.ptr b.size (c.ptr / pageSize) := fun page =>
      of_decide_eq_true differ (heldApart agrees.inv (agrees.held c old) mine
        (spansSelf c.ptr c.size) page)
    exact heldKept (releaseBusy agrees.inv release (heldBusy agrees.inv (agrees.held c old)) other)
      (agrees.held c old)
  have distinct : ((l.live.filter (fun c => c.ptr ≠ b.ptr)).map Block.ptr).Nodup :=
    agrees.distinct.sublist (List.filter_sublist.map Block.ptr)
  have sorted : ∀ c ∈ l.live.filter (fun c => c.ptr ≠ b.ptr), c.Small → c.cls = blockType c.size :=
    fun c member => agrees.sorted c (List.mem_filter.mp member).1
  cases release with
  | @small length earlier small room tries =>
    have cls := agrees.sorted b owned small
    rw [Ledger.release, if_pos (show b.Small from small)]
    refine ⟨?_, kept, distinct, sorted, ?_⟩
    · have same : chainsOf { l with
          live := l.live.filter (fun c => c.ptr ≠ b.ptr)
          free := Function.update l.free b.cls
            ({ b with ptr := σ.highVaddr + b.ptr % pageSize } :: l.free b.cls) } =
          Function.update (chainsOf l) (blockType b.size)
            ((σ.highVaddr + b.ptr % pageSize) :: chainsOf l (blockType b.size)) := by
        funext s
        rw [← cls]
        by_cases here : s = b.cls
        · subst here
          simp [chainsOf]
        · simp [chainsOf, here]
      exact same ▸ inv
    · intro s c member
      by_cases here : s = b.cls
      · subst here
        simp only [Function.update_self, List.mem_cons] at member
        rcases member with rfl | old
        · rfl
        · exact agrees.freed _ c old
      · simp only [Function.update_of_ne here] at member
        exact agrees.freed s c member
  | large big =>
    rw [Ledger.release, if_neg (show ¬ b.Small from Nat.not_le.mpr big)]
    exact ⟨inv, kept, distinct, sorted, agrees.freed⟩

inductive Idle : Op → Reply → Prop where
  | usableSize {ptr v} : Idle (.usableSize ptr) (.value v)
  | load {ptr index v} : Idle (.load ptr index) (.value v)
  | fault {op addr} : Idle op (.fault addr)

inductive Change (h : History) (σ : State) (own : Owner) : Event → State → Owner → Prop where
  | malloc {size p σ' own' chains'}
      (grant : Grant σ.clear own (chainsOf (ledger h)) size p σ' own' chains') :
      Change h σ own ⟨.xxmalloc size, .value p, σ'.calls⟩ σ' own'
  | free {b ptr v σ' own' chains'} (owned : b ∈ live h) (found : (ledger h).find ptr = some b)
      (release : Release σ.clear own (chainsOf (ledger h)) b.ptr b.size σ' own' chains') :
      Change h σ own ⟨.xxfree ptr, .value v, σ'.calls⟩ σ' own'
  | store {b index byte v} (owned : b ∈ live h) (inside : index < usableOf b.size) :
      Change h σ own ⟨.store b.ptr index byte, .value v, []⟩
        (wrote (b.ptr + index) 1 byte.toNat σ.clear) own
  | idle {op reply} (idle : Idle op reply) : Change h σ own ⟨op, reply, []⟩ σ.clear own

theorem coversIndex {b : Block} {index : Nat} (inside : index < usableOf b.size) :
    b.Covers (b.ptr + index) := ⟨Nat.le_add_right _ _, Nat.add_lt_add_left inside _⟩

theorem idleLedger {op : Op} {reply : Reply} {calls : List Call} (idle : Idle op reply) :
    ledger (⟨op, reply, calls⟩ :: h) = ledger h := by
  cases idle with
  | usableSize => rfl
  | load => rfl
  | @fault op => cases op <;> rfl

theorem idleArrays {op : Op} {reply : Reply} {calls : List Call} (idle : Idle op reply) :
    arrays (⟨op, reply, calls⟩ :: h) = arrays h := by
  cases idle with
  | usableSize => rfl
  | load => rfl
  | @fault op => cases op <;> rfl

theorem agreesChange (agrees : Agrees (ledger h) σ own) (change : Change h σ own e σ' own') :
    Agrees (ledger (e :: h)) σ' own' := by
  have clear := agreesClear agrees
  cases change with
  | malloc grant => exact agreesGrant clear grant
  | free owned found release =>
    simp only [ledger, Ledger.apply, found]
    exact agreesRelease clear owned release
  | store owned inside =>
    have writable := insideWritable clear.inv (clear.held _ owned) (coversIndex inside)
    exact { clear with inv := invStore clear.inv writable }
  | idle idle =>
    rw [idleLedger idle]
    exact clear

theorem changeSound (sound : Sound pid h σ own) (change : Change h σ own e σ' own') :
    Sound pid (e :: h) σ' own' := by
  have clear := soundClear sound
  have agrees := agreesChange sound.agrees change
  cases change with
  | malloc grant =>
    refine ⟨(grantPar grant).trans clear.par, agrees, fun g gone => ?_⟩
    rcases gone with old | ⟨_, _, _, call, _⟩
    · exact grantRetired clear.agrees.inv grant (clear.gone g old)
    · cases call
  | free owned found release =>
    refine ⟨(releasePar release).trans clear.par, agrees, fun g gone => ?_⟩
    rcases gone with old | ⟨_, _, c, call, _, found', page⟩
    · exact releaseRetired clear.agrees.inv release (clear.gone g old)
    · cases call
      cases Option.some.inj (found.symm.trans found')
      exact releaseGone clear.agrees.inv release (clear.agrees.held _ owned) page
  | store owned inside =>
    refine ⟨clear.par, agrees, fun g gone => ?_⟩
    rcases gone with old | ⟨_, _, _, call, _⟩
    · exact clear.gone g old
    · cases call
  | idle idle =>
    refine ⟨clear.par, agrees, fun g gone => ?_⟩
    rcases gone with old | ⟨_, _, _, call, reply, _⟩
    · exact clear.gone g old
    · dsimp only at call reply
      subst call reply
      cases idle

theorem usableIndex (sound : Sound pid h σ own) {b : Block} {index : Nat} (owned : b ∈ live h) :
    Usable σ b.ptr index ↔ index < usableOf b.size := by
  have usable := usableHeld sound.agrees.inv (sound.agrees.held b owned)
  constructor
  · rintro ⟨size, answer, inside⟩
    rw [usable] at answer
    cases answer
    exact inside
  · exact fun inside => ⟨_, usable, inside⟩

/- What ends the process in a call on live objects: an mmap the kernel refuses, addresses used up,
a first access past the end of the backing file, and an xxfree none of whose mremap attempts but
perhaps the last is granted. -/
inductive Stops (k : Kernel) (σ : State) : Op → Halt → Prop where
  | refused {size} (refused : k.mmapGrants = false) : Stops k σ (.xxmalloc size) (.exit 1)
  | noRoom {size} (full : NoRoom σ size) : Stops k σ (.xxmalloc size) (.exit 1)
  | pastFile {size} (past : PastFile σ size) : Stops k σ (.xxmalloc size) (.bus σ.highVaddr)
  | stuck {ptr} (small : isLarge ptr = false)
      (never : ∀ i, 1 ≤ i → i < 99 → (k.attempt i).grants = false) : Stops k σ (.xxfree ptr) (.exit 1)

section
variable (sound : Sound pid h σ own) (mine : k.pid = pid)
include sound mine

theorem mallocChange {size p : Nat} (call : xxmalloc k size σ.clear = .ok p σ')
    (limit : Within σ') : ∃ own', Change h σ own ⟨.xxmalloc size, .value p, σ'.calls⟩ σ' own' := by
  have clear := soundClear sound
  obtain ⟨own', _, grant⟩ := xxmallocGrant clear.agrees.inv (clear.par.trans mine.symm) call limit
  exact ⟨own', .malloc grant⟩

theorem freeChange {b : Block} {ptr v : Nat} (owned : b ∈ live h) (covers : b.Covers ptr)
    (clean : Clean σ b.ptr ptr) (harmless : isLarge ptr = false → Harmless k σ ptr)
    (call : xxfree k ptr σ.clear = .ok () σ') (limit : Within σ') :
    ∃ own', Change h σ own ⟨.xxfree ptr, .value v, σ'.calls⟩ σ' own' := by
  have clear := soundClear sound
  have held := clear.agrees.held b owned
  have spared : b.size ≤ largestBlockSize → Harmless k σ.clear b.ptr := by
    intro small
    obtain ⟨page, _⟩ := insideSmall clear.agrees.inv small held covers
    have below := smallBelow clear.agrees.inv ((heldSmall small).mp held)
    have same : roundDown b.ptr pageSize = roundDown ptr pageSize := by
      rw [roundDownPage, roundDownPage, page]
    have few := harmless (notLarge (by simp only [pageSize] at *; omega))
    unfold Harmless at *
    rw [same]
    exact few
  obtain ⟨own', _, release⟩ := xxfreeRelease clear.agrees.inv (clear.par.trans mine.symm) held
    covers clean spared call limit
  exact ⟨own', .free owned (findCovers clear.agrees owned covers) release⟩

theorem danglingFault {op : Op} (dangling : Dangling h op) :
    ∃ addr, exec k op σ.clear = .error (.segv addr) σ.clear := by
  have clear := soundClear sound
  have inv := clear.agrees.inv
  have holes : ∀ {ptr}, Gone h (ptr / pageSize) → ptr ≠ 0 ∧
      ∀ a, a / pageSize = ptr / pageSize → σ.clear.mem a = none := fun gone =>
    ⟨retiredAddress (clear.gone _ gone) rfl, fun a page => retiredHole inv (clear.gone _ gone) page⟩
  cases dangling with
  | @xxfree ptr gone =>
    obtain ⟨some, hole⟩ := holes gone
    exact ⟨_, bindError (xxfreeFault (clear.par.trans mine.symm) some hole)⟩
  | usableSize gone =>
    obtain ⟨some, hole⟩ := holes gone
    exact ⟨_, usableFault some hole⟩
  | load gone => exact ⟨_, readWordFault (loadUnmapped (by decide) ((holes gone).2 _ rfl))⟩
  | store gone =>
    refine ⟨_, bindError (writeWordFault ?_ _)⟩
    exact fun mapped => mapped 0 (by decide) ((holes gone).2 _ rfl)

theorem xxmallocStops {size : Nat} {e : Halt}
    (call : exec k (.xxmalloc size) σ.clear = .error e σ') : Stops k σ (.xxmalloc size) e := by
  have clear := soundClear sound
  rw [exec] at call
  rcases @xxmallocCases k σ.clear own _ size clear.agrees.inv (clear.par.trans mine.symm) with
    ⟨_, _, done⟩ | ⟨lacks, _, done⟩ | ⟨past, _, done⟩ <;>
    rw [done] at call <;> cases call
  · rcases lacks with refused | full
    · exact .refused refused
    · exact .noRoom full
  · exact .pastFile past

theorem freeStops {b : Block} {ptr : Nat} {e : Halt} (owned : b ∈ live h) (covers : b.Covers ptr)
    (clean : Clean σ b.ptr ptr) (call : exec k (.xxfree ptr) σ.clear = .error e σ') :
    Stops k σ (.xxfree ptr) e := by
  have clear := soundClear sound
  rcases xxfreeCases clear.agrees.inv (clear.par.trans mine.symm) (clear.agrees.held b owned)
    covers clean with ⟨_, done⟩ | ⟨small, never, _, done⟩
  · rw [exec, bindOk done] at call
    cases call
  · rw [exec, bindError done] at call
    cases call
    obtain ⟨page, _⟩ := insideSmall clear.agrees.inv small (clear.agrees.held b owned) covers
    have below := smallBelow clear.agrees.inv
      ((heldSmall small).mp (clear.agrees.held b owned))
    exact .stuck (notLarge (by simp only [pageSize] at *; omega)) never

end

theorem loadServes (sound : Sound pid h σ own) {b : Block} {index : Nat} (owned : b ∈ live h)
    (inside : index < usableOf b.size) :
    ∃ v, exec k (.load b.ptr index) σ.clear = .ok v σ.clear := by
  have clear := soundClear sound
  have mapped := insideMapped clear.agrees.inv (clear.agrees.held b owned) (coversIndex inside)
  obtain ⟨v, read⟩ := @loadTotal σ.clear.mem (b.ptr + index) 1 fun i hi => by
    rwa [show b.ptr + index + i = b.ptr + index by omega]
  exact ⟨v, readWordOk read⟩

theorem storeServes (sound : Sound pid h σ own) {b : Block} {index : Nat} (owned : b ∈ live h)
    (inside : index < usableOf b.size) (byte : UInt8) :
    exec k (.store b.ptr index byte) σ.clear =
      .ok 0 (wrote (b.ptr + index) 1 byte.toNat σ.clear) := by
  have clear := soundClear sound
  have mapped := insideMapped clear.agrees.inv (clear.agrees.held b owned) (coversIndex inside)
  have here : Mapped σ.clear.mem (b.ptr + index) 1 := fun i hi => by
    rwa [show b.ptr + index + i = b.ptr + index by omega]
  rw [exec, bindOk (writeWordOk here _)]
  rfl

theorem usableServes (sound : Sound pid h σ own) {b : Block} {ptr : Nat} (owned : b ∈ live h)
    (covers : b.Covers ptr) (clean : Clean σ b.ptr ptr) :
    exec k (.usableSize ptr) σ.clear = .ok (usableOf b.size) σ.clear := by
  have clear := soundClear sound
  exact usableInside clear.agrees.inv (clear.agrees.held b owned) covers clean

theorem allowedCases (sound : Sound pid h σ own) {op : Op}
    (allowed : Disciplined h σ op ∨ Interior h σ op ∨ Dangling h op) :
    (∃ size, op = .xxmalloc size) ∨ Interior h σ op ∨
    (∃ b ∈ live h, ∃ index < usableOf b.size, op = .load b.ptr index ∨
      ∃ byte, op = .store b.ptr index byte) ∨ Dangling h op := by
  rcases allowed with disciplined | interior | dangling
  · cases disciplined with
    | xxmalloc size => exact .inl ⟨size, rfl⟩
    | xxfree owned => exact .inr (.inl (.xxfree owned (insideSelf _ _) (cleanSelf _ _)))
    | usableSize owned => exact .inr (.inl (.usableSize owned (insideSelf _ _) (cleanSelf _ _)))
    | load owned inside =>
      exact .inr (.inr (.inl ⟨_, owned, _, (usableIndex sound owned).mp inside, .inl rfl⟩))
    | store owned inside =>
      exact .inr (.inr (.inl ⟨_, owned, _, (usableIndex sound owned).mp inside, .inr ⟨_, rfl⟩⟩))
  · exact .inr (.inl interior)
  · exact .inr (.inr (.inr dangling))

theorem returnedChange (sound : Sound pid h σ own) {op : Op} {v : Nat}
    (allowed : calmly pid h σ k op) (call : exec k op σ.clear = .ok v σ') (limit : Within σ') :
    ∃ own', Change h σ own ⟨op, .value v, σ'.calls⟩ σ' own' := by
  obtain ⟨⟨mine, calm⟩, may⟩ := allowed
  rcases allowedCases sound may with ⟨size, rfl⟩ | interior | ⟨b, owned, index, inside, access⟩ |
    dangling
  · exact mallocChange sound mine call limit
  · cases interior with
    | xxfree owned covers clean =>
      obtain ⟨_, τ, freed, last⟩ := bindInv call
      cases last
      exact freeChange sound mine owned covers clean (calm _ rfl) freed limit
    | usableSize owned covers clean =>
      rw [usableServes sound owned covers clean] at call
      cases call
      exact ⟨own, .idle .usableSize⟩
  · rcases access with rfl | ⟨byte, rfl⟩
    · obtain ⟨w, read⟩ := @loadServes pid h σ own k sound b index owned inside
      rw [read] at call
      cases call
      exact ⟨own, .idle .load⟩
    · rw [storeServes sound owned inside byte] at call
      cases call
      exact ⟨own, .store owned inside⟩
  · obtain ⟨addr, fault⟩ := danglingFault sound mine dangling
    rw [fault] at call
    cases call

theorem faultedChange (sound : Sound pid h σ own) {op : Op} {addr : Nat}
    (allowed : calmly pid h σ k op) (call : exec k op σ.clear = .error (.segv addr) σ') :
    Change h σ own ⟨op, .fault addr, σ'.calls⟩ σ' own := by
  obtain ⟨⟨mine, calm⟩, may⟩ := allowed
  rcases allowedCases sound may with ⟨size, rfl⟩ | interior | ⟨b, owned, index, inside, access⟩ |
    dangling
  · cases xxmallocStops sound mine call
  · cases interior with
    | xxfree owned covers clean => cases freeStops sound mine owned covers clean call
    | usableSize owned covers clean =>
      rw [usableServes sound owned covers clean] at call
      cases call
  · rcases access with rfl | ⟨byte, rfl⟩
    · obtain ⟨w, read⟩ := @loadServes pid h σ own k sound b index owned inside
      rw [read] at call
      cases call
    · rw [storeServes sound owned inside byte] at call
      cases call
  · obtain ⟨addr, fault⟩ := danglingFault sound mine dangling
    rw [fault] at call
    cases call
    exact .idle .fault

theorem stepChange (sound : Sound pid h σ own) (taken : Step (calmly pid) Within h σ e σ') :
    ∃ own', Change h σ own e σ' own' := by
  cases taken with
  | returned allowed call limit => exact returnedChange sound allowed call limit
  | faulted allowed call limit => exact ⟨own, faultedChange sound allowed call⟩

theorem runSound (run : Run pid (calmly pid) Within h σ) : ∃ own, Sound pid h σ own := by
  refine @Trace.runInvariant _ _ _ _ h σ (fun h σ => ∃ own, Sound pid h σ own)
    (fun σ begun => ⟨_, soundInit begun⟩) ?_ run
  rintro h σ e σ' ⟨own, sound⟩ taken
  obtain ⟨own', change⟩ := stepChange sound taken
  exact ⟨own', changeSound sound change⟩

theorem storeRun {b : Block} {index : Nat} (byte : UInt8)
    (run : Run pid (reliably pid) Within h σ) (owned : b ∈ live h) (inside : index < usableOf b.size)
    (reliable : Reliable pid k) : Run pid (reliably pid) Within
      (⟨.store b.ptr index byte, .value 0, []⟩ :: h) (wrote (b.ptr + index) 1 byte.toNat σ.clear) := by
  obtain ⟨own, sound⟩ := runSound (runWiden reliablyWider run)
  exact .next run (.returned ⟨reliable, .store owned ((usableIndex sound owned).mpr inside)⟩
    (storeServes sound owned inside byte) (soundClear sound).agrees.inv.highLimit)

end Nuaf.Sequential
