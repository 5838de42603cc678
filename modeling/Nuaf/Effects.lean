import Nuaf.SequentialInvariant

/-! The six things an operation of a sequential run can do, the owners of the pages left out.
A page that is neither vacant nor holds a freed block belongs to a block of the ledger. -/
namespace Nuaf.Sequential
open Layout ByteMemory LinkedStack Machine Source Heap

variable {pid : Nat} {h : History} {σ σ' : State} {own own' : Owner} {e : Event}

inductive Quiet : Op → Reply → Prop where
  | idle {op reply} (idle : Idle op reply) : Quiet op reply
  | store {ptr index byte v} : Quiet (.store ptr index byte) (.value v)

inductive Effect (h : History) (σ : State) : Event → State → Prop where
  | carves {size} (small : size ≤ largestBlockSize)
      (empty : (ledger h).free (blockType size) = [])
      (room : σ.highVaddr + pageSize ≤ largeObjVaddrStart) :
      Effect h σ ⟨.xxmalloc size,
          .value (σ.highVaddr + (σ.gFlsts (blockType size)).highCanonicalAddr % pageSize),
          [.mmap σ.highVaddr pageSize
            (roundDown (σ.gFlsts (blockType size)).highCanonicalAddr pageSize)]⟩
        (carved (blockType size) (σ.gFlsts (blockType size)) σ.clear)
  | pops {size b rest link} (small : size ≤ largestBlockSize)
      (full : (ledger h).free (blockType size) = b :: rest) :
      Effect h σ ⟨.xxmalloc size, .value b.ptr, []⟩ (popped (blockType size) link σ.clear)
  | maps {size} (big : largestBlockSize < size) (fits : bigPages size * pageSize < 2 ^ 64)
      (room : σ.largeObjNextPage + bigPages size * pageSize ≤ taskSize) :
      Effect h σ ⟨.xxmalloc size, .value (σ.largeObjNextPage + 16),
          [.mmap σ.largeObjNextPage (wrap (bigPages size * pageSize)) 0]⟩
        (bigDone (bigPages size) σ.clear)
  | moves {b ptr v length earlier} (owned : b ∈ live h) (found : (ledger h).find ptr = some b)
      (small : b.Small) (room : σ.highVaddr + pageSize ≤ largeObjVaddrStart)
      (tries : Tries σ.clear b.ptr earlier) :
      Effect h σ ⟨.xxfree ptr, .value v,
          .mremap (roundDown b.ptr pageSize) length pageSize σ.highVaddr :: earlier⟩
        (recycled (blockType b.size) b.ptr
          (.mremap (roundDown b.ptr pageSize) length pageSize σ.highVaddr :: earlier) σ.clear)
  | unmaps {b ptr v} (owned : b ∈ live h) (found : (ledger h).find ptr = some b)
      (big : ¬ b.Small) :
      Effect h σ ⟨.xxfree ptr, .value v,
          [.munmap (pageSize * (b.ptr / pageSize)) (pageSize * bigPages b.size)]⟩
        { σ with
          mem := unmap σ.mem (pageSize * (b.ptr / pageSize)) (pageSize * bigPages b.size)
          numMappings := subWrap σ.numMappings 1
          calls := [.munmap (pageSize * (b.ptr / pageSize)) (pageSize * bigPages b.size)] }
  | rests {op reply m} (quiet : Quiet op reply) :
      Effect h σ ⟨op, reply, []⟩ { σ.clear with mem := m }

theorem changeEffect (change : Change h σ own e σ' own') : Effect h σ e σ' := by
  cases change with
  | malloc grant =>
    cases grant with
    | carve small empty room => exact .carves small (List.map_eq_nil_iff.mp empty) room
    | pop small full next =>
      obtain ⟨b, rest, list, rfl, rfl⟩ := List.map_eq_cons_iff.mp full
      exact .pops small list
    | large big fits room => exact .maps big fits room
  | free owned found release =>
    cases release with
    | small small room tries => exact .moves owned found small room tries
    | large big => exact .unmaps owned found (Nat.not_le.mpr big)
  | store owned inside => exact .rests .store
  | idle idle => exact .rests (.idle idle)

theorem carvesLedger {size p : Nat} {calls : List Call} (small : size ≤ largestBlockSize)
    (empty : (ledger h).free (blockType size) = []) :
    ledger (⟨.xxmalloc size, .value p, calls⟩ :: h) = (ledger h).make size p := by
  simp only [ledger, Ledger.apply, Ledger.malloc, if_pos small, empty]

theorem popsLedger {size p : Nat} {calls : List Call} {b : Block} {rest : List Block}
    (small : size ≤ largestBlockSize) (full : (ledger h).free (blockType size) = b :: rest) :
    ledger (⟨.xxmalloc size, .value p, calls⟩ :: h) = { ledger h with
      live := { b with ptr := p, size := size } :: live h
      free := Function.update (ledger h).free (blockType size) rest } := by
  simp only [ledger, Ledger.apply, Ledger.malloc, if_pos small, full, live]

theorem mapsLedger {size p : Nat} {calls : List Call} (big : largestBlockSize < size) :
    ledger (⟨.xxmalloc size, .value p, calls⟩ :: h) = (ledger h).make size p := by
  simp only [ledger, Ledger.apply, Ledger.malloc, if_neg (Nat.not_le.mpr big)]

def without (h : History) (b : Block) : List Block := (live h).filter (fun c => c.ptr ≠ b.ptr)

theorem movesLedger {b : Block} {ptr v : Nat} {calls : List Call}
    (found : (ledger h).find ptr = some b) (small : b.Small) :
    ledger (⟨.xxfree ptr, .value v, calls⟩ :: h) = { ledger h with
      live := without h b
      free := Function.update (ledger h).free b.cls
        ({ b with ptr := movedTo calls + b.ptr % pageSize } :: (ledger h).free b.cls) } := by
  rw [ledgerFree found, Ledger.release, if_pos small]
  rfl

theorem unmapsLedger {b : Block} {ptr v : Nat} {calls : List Call}
    (found : (ledger h).find ptr = some b) (big : ¬ b.Small) :
    ledger (⟨.xxfree ptr, .value v, calls⟩ :: h) = { ledger h with live := without h b } := by
  rw [ledgerFree found, Ledger.release, if_neg big]
  rfl

theorem restsLedger {op : Op} {reply : Reply} {calls : List Call} (quiet : Quiet op reply) :
    ledger (⟨op, reply, calls⟩ :: h) = ledger h := by
  cases quiet with
  | idle idle => exact idleLedger idle
  | store => rfl

theorem withoutMember {b c : Block} : c ∈ without h b ↔ c ∈ live h ∧ c.ptr ≠ b.ptr := by
  simp [without, List.mem_filter]

theorem liveSplit {b : Block} (sound : Sound pid h σ own) (owned : b ∈ live h) :
    (live h).Perm (b :: without h b) := by
  have distinct := sound.agrees.distinct
  obtain ⟨front, back, split⟩ := List.append_of_mem owned
  have other : ∀ c ∈ front ++ back, c.ptr ≠ b.ptr := by
    rw [show (ledger h).live = live h from rfl, split, List.map_append, List.map_cons,
      List.nodup_middle, List.nodup_cons, ← List.map_append] at distinct
    exact fun c member same => distinct.1 (same ▸ List.mem_map_of_mem member)
  have rest : without h b = front ++ back := by
    rw [without, split, List.filter_append, List.filter_cons_of_neg (by simp), ← List.filter_append,
      List.filter_eq_self]
    exact fun c member => decide_eq_true (other c member)
  rw [rest, split]
  exact List.perm_middle

def Covered (l : Ledger) (own : Owner) : Prop := ∀ g, Busy own g → ∃ b ∈ l.live, b.Page g

section
variable {chains chains' : Chains} {size p g : Nat}

theorem grantCovers (grant : Grant σ own chains size p σ' own' chains') (inv : Inv σ own chains)
    (busy : Busy own' g) : Spans p size g ∨ Busy own g := by
  have served := grantHeld inv grant
  obtain ⟨u, owned, live⟩ := busy
  cases grant with
  | carve small empty room =>
    by_cases here : g = σ.highVaddr / pageSize
    · have base := highPage inv
      have inside := slotCases (inv.canonical _ (blockTypeLt small)).slot
      exact .inl ((spansSmall small).mpr (by simp only [pageSize] at *; omega))
    · exact .inr ⟨u, (Function.update_of_ne here _ _).symm.trans owned, live⟩
  | pop small full next =>
    by_cases here : g = p / pageSize
    · exact .inl ((spansSmall small).mpr here)
    · exact .inr ⟨u, (Function.update_of_ne here _ _).symm.trans owned, live⟩
  | large big fits room =>
    by_cases here : σ.largeObjNextPage / pageSize ≤ g ∧
        g < σ.largeObjNextPage / pageSize + bigPages size
    · have base := nextPage inv
      exact .inl ((spansBig big).mpr (by simp only [pageSize] at *; omega))
    · exact .inr ⟨u, (rangeOut here).symm.trans owned, live⟩

theorem releaseCovers (release : Release σ own chains p size σ' own' chains')
    (busy : Busy own' g) : Busy own g ∧ ¬ Spans p size g := by
  obtain ⟨u, owned, live⟩ := busy
  cases release with
  | small small room tries =>
    by_cases target : g = σ.highVaddr / pageSize
    · subst target
      rw [recycleOwner, Function.update_self] at owned
      cases owned
      exact absurd rfl (live _ _)
    · rw [recycleOwner, Function.update_of_ne target] at owned
      by_cases here : g = p / pageSize
      · subst here
        rw [Function.update_self] at owned
        cases owned
      · rw [Function.update_of_ne here] at owned
        exact ⟨⟨u, owned, live⟩, fun page => here ((spansSmall small).mp page)⟩
  | large big =>
    by_cases here : p / pageSize ≤ g ∧ g < p / pageSize + bigPages size
    · rw [rangeIn here] at owned
      cases owned
    · rw [rangeOut here] at owned
      exact ⟨⟨u, owned, live⟩, fun page => here ((spansBig big).mp page)⟩

end

theorem mallocLive {size p : Nat} {calls : List Call} : ∃ b : Block, b.ptr = p ∧ b.size = size ∧
    live (⟨.xxmalloc size, .value p, calls⟩ :: h) = b :: live h := by
  rcases Nat.lt_or_ge largestBlockSize size with big | small
  · exact ⟨_, rfl, rfl, congrArg Ledger.live (mapsLedger big)⟩
  · cases list : (ledger h).free (blockType size) with
    | nil => exact ⟨_, rfl, rfl, congrArg Ledger.live (carvesLedger small list)⟩
    | cons b rest => exact ⟨_, rfl, rfl, congrArg Ledger.live (popsLedger small list)⟩

theorem freeLive {b : Block} {ptr v : Nat} {calls : List Call}
    (found : (ledger h).find ptr = some b) :
    live (⟨.xxfree ptr, .value v, calls⟩ :: h) = without h b := by
  by_cases small : b.Small
  · exact congrArg Ledger.live (movesLedger found small)
  · exact congrArg Ledger.live (unmapsLedger found small)

theorem changeCovered (sound : Sound pid h σ own) (covered : Covered (ledger h) own)
    (change : Change h σ own e σ' own') : Covered (ledger (e :: h)) own' := by
  have clear := soundClear sound
  intro g busy
  cases change with
  | @malloc size p _ _ _ grant =>
    obtain ⟨b, rfl, rfl, added⟩ := @mallocLive h size p σ'.calls
    rw [show (ledger (_ :: h)).live = b :: live h from added]
    rcases grantCovers grant clear.agrees.inv busy with fresh | old
    · exact ⟨b, List.mem_cons_self, fresh⟩
    · obtain ⟨c, owned, page⟩ := covered g old
      exact ⟨c, List.mem_cons_of_mem _ owned, page⟩
  | @free b ptr v _ _ _ owned found release =>
    obtain ⟨old, other⟩ := releaseCovers release busy
    obtain ⟨c, there, page⟩ := covered g old
    refine ⟨c, ?_, page⟩
    rw [show (ledger (_ :: h)).live = without h b from freeLive found]
    refine withoutMember.mpr ⟨there, fun same => other ?_⟩
    cases List.inj_on_of_nodup_map sound.agrees.distinct there owned same
    exact page
  | store owned inside => exact covered g busy
  | idle idle =>
    rw [idleLedger idle]
    exact covered g busy

theorem runEffects {P : History → State → Prop} (base : ∀ σ, Started pid σ → P [] σ)
    (preserve : ∀ h σ own e σ', Sound pid h σ own → P h σ → Effect h σ e σ' → P (e :: h) σ')
    (run : Run pid (calmly pid) Within h σ) :
    P h σ ∧ ∃ own, Sound pid h σ own ∧ Covered (ledger h) own := by
  refine @Trace.runInvariant _ _ _ _ h σ
    (fun h σ => P h σ ∧ ∃ own, Sound pid h σ own ∧ Covered (ledger h) own) ?_ ?_ run
  · rintro σ begun
    exact ⟨base σ begun, _, soundInit begun, fun g ⟨u, owned, _⟩ => by cases owned⟩
  · rintro h σ e σ' ⟨holds, own, sound, covered⟩ taken
    obtain ⟨own', change⟩ := stepChange sound taken
    exact ⟨preserve h σ own e σ' sound holds (changeEffect change), own', changeSound sound change,
      changeCovered sound covered change⟩

section
variable {k : Kernel} {b : Block} {size : Nat} (run : Run pid (reliably pid) Within h σ)
  (reliable : Reliable pid k)
include run reliable

theorem freeSmallNext (owned : b ∈ live h) (small : b.Small)
    (room : σ.highVaddr + pageSize ≤ largeObjVaddrStart) :
    ∃ h' σ', Run pid (reliably pid) Within h' σ' ∧ ledger h' = (ledger h).release b σ.highVaddr ∧
      σ'.highVaddr = σ.highVaddr + pageSize ∧ σ'.largeObjNextPage = σ.largeObjNextPage := by
  obtain ⟨own, sound⟩ := runSound (runWiden reliablyWider run)
  have clear := soundClear sound
  have inv := clear.agrees.inv
  have held := clear.agrees.held b owned
  have found := findCovers sound.agrees owned (insideSelf b.ptr b.size)
  obtain ⟨mapped, header, inside, cls⟩ := slotPage inv ((heldSmall small).mp held)
  obtain ⟨earlier, done, _⟩ := freeSmallRun cls mapped header inside inv.highAligned (taskRoom inv)
    (reliableFirst reliable) (by decide)
  rw [← xxfreeHeldSmall inv (clear.par.trans reliable.1.symm) small held (insideSelf _ _)] at done
  have high : wrap (σ.highVaddr + pageSize) = σ.highVaddr + pageSize := highAdvance room
  have call : exec k (.xxfree b.ptr) σ.clear = .ok 0 _ := bindOk done
  exact ⟨_, _, .next run (.returned ⟨reliable, .xxfree owned⟩ call (high.trans_le room)),
    ledgerFree found, high, rfl⟩

theorem freeLargeNext (owned : b ∈ live h) (large : ¬ b.Small) :
    ∃ h' σ', Run pid (reliably pid) Within h' σ' ∧ ledger h' = (ledger h).release b 0 ∧
      σ'.highVaddr = σ.highVaddr ∧ σ'.largeObjNextPage = σ.largeObjNextPage := by
  obtain ⟨own, sound⟩ := runSound (runWiden reliablyWider run)
  have clear := soundClear sound
  have found := findCovers sound.agrees owned (insideSelf b.ptr b.size)
  have done := xxfreeHeldBig clear.agrees.inv (clear.par.trans reliable.1.symm) (Nat.not_le.mp large)
    (clear.agrees.held b owned) (insideSelf _ _) (cleanSelf _ _)
  refine ⟨_, _, .next run (.returned ⟨reliable, .xxfree owned⟩ (bindOk done)
    clear.agrees.inv.highLimit), ?_, rfl, rfl⟩
  rw [ledgerFree found]
  exact (if_neg large).trans (if_neg large).symm

theorem mallocLargeNext (large : largestBlockSize < size)
    (room : σ.largeObjNextPage + bigPages size * pageSize ≤ taskSize) :
    ∃ h' σ', Run pid (reliably pid) Within h' σ' ∧
      ledger h' = (ledger h).make size (σ.largeObjNextPage + 16) ∧
      σ'.highVaddr = σ.highVaddr ∧
      σ'.largeObjNextPage = σ.largeObjNextPage + bigPages size * pageSize := by
  obtain ⟨own, sound⟩ := runSound (runWiden reliablyWider run)
  have clear := soundClear sound
  have fits : bigPages size * pageSize < 2 ^ 64 := by
    simp only [taskSize] at room
    omega
  have done := @xxmallocBigRun k σ.clear size fits room reliable.2.1
  have call : exec k (.xxmalloc size) σ.clear =
      .ok (σ.largeObjNextPage + 16) (bigDone (bigPages size) σ.clear) := by
    rw [exec, xxmalloc, bindOk (ensureInitRun (clear.par.trans reliable.1.symm)), if_pos large]
    exact done
  have next : wrap (σ.largeObjNextPage + wrap (pageSize * bigPages size)) =
      σ.largeObjNextPage + bigPages size * pageSize := by
    rw [Nat.mul_comm, wrapSmall fits, wrapSmall (by simp only [taskSize] at room; omega)]
  exact ⟨_, _, .next run (.returned ⟨reliable, .xxmalloc size⟩ call clear.agrees.inv.highLimit),
    mapsLedger large, rfl, next⟩

end

end Nuaf.Sequential
