import Nuaf.Foretold

/-! Which programs the allocator serves to their end. Whether it does is settled on paper: by the
pages left in the two regions and in the backing file, and by nothing else. -/
namespace Nuaf.Feasible
open Layout ByteMemory LinkedStack Machine Source Heap Nuaf.Sequential Exhaustion BackingFile Foretold

inductive Permits (P : Plan) : Op → Prop where
  | xxmalloc (size : Nat) : Permits P (.xxmalloc size)
  | xxfree {b} (owned : b ∈ P.ledger.live) : Permits P (.xxfree b.ptr)
  | usableSize {b} (owned : b ∈ P.ledger.live) : Permits P (.usableSize b.ptr)
  | load {b index} (owned : b ∈ P.ledger.live) (inside : index < usableOf b.size) :
      Permits P (.load b.ptr index)
  | store {b index byte} (owned : b ∈ P.ledger.live) (inside : index < usableOf b.size) :
      Permits P (.store b.ptr index byte)

def PageLeft (P : Plan) : Prop := P.nextPage + pageSize ≤ largeObjVaddrStart

def FileLeft (P : Plan) (t : Nat) : Prop := P.carved t < fullFile * perPage t

def LargeLeft (P : Plan) (size : Nat) : Prop :=
  bigPages size * pageSize < 2 ^ 64 ∧ P.nextLarge + bigPages size * pageSize ≤ taskSize

def Room (P : Plan) : Op → Prop
  | .xxmalloc size =>
    if size ≤ largestBlockSize then
      P.ledger.free (blockType size) ≠ [] ∨ PageLeft P ∧ FileLeft P (blockType size)
    else LargeLeft P size
  | .xxfree ptr => ∀ b, P.ledger.find ptr = some b → b.Small → PageLeft P
  | _ => True

def Affordable : List Op → Prop
  | [] => True
  | op :: l => Affordable l ∧ Permits (foretold l) op ∧ Room (foretold l) op

variable {pid size : Nat} {h : History} {σ σ' σ₀ : State} {own own' : Owner} {k : Kernel} {op : Op}
  {P : Plan} {b : Block} {l : List Op} {e : Event}

theorem pageLeft (mirrors : Mirrors P h σ) :
    PageLeft P ↔ σ.highVaddr + pageSize ≤ largeObjVaddrStart := by
  rw [PageLeft, mirrors.high]

theorem fileLeft (mirrors : Mirrors P h σ) {t : Nat} (cls : t < numBlockTypes) :
    FileLeft P t ↔ roundDown (σ.gFlsts t).highCanonicalAddr pageSize < dataSize := by
  unfold FileLeft
  rw [mirrors.canonical t cls, ← offsetInside cls, roundDownPage]
  simp only [pageSize, dataSize]
  omega

section
variable (sound : Sound pid h σ own) (mirrors : Mirrors P h σ)
include sound mirrors

theorem permitsDisciplined : Permits P op ↔ Disciplined h σ op := by
  have same : live h = P.ledger.live := congrArg Ledger.live mirrors.ledger
  constructor
  · intro permits
    cases permits with
    | xxmalloc size => exact .xxmalloc size
    | xxfree owned => exact .xxfree (same ▸ owned)
    | usableSize owned => exact .usableSize (same ▸ owned)
    | load owned inside => exact .load (same ▸ owned) ((usableIndex sound (same ▸ owned)).mpr inside)
    | store owned inside => exact .store (same ▸ owned) ((usableIndex sound (same ▸ owned)).mpr inside)
  · intro disciplined
    cases disciplined with
    | xxmalloc size => exact .xxmalloc size
    | xxfree owned => exact .xxfree (same ▸ owned)
    | usableSize owned => exact .usableSize (same ▸ owned)
    | load owned inside => exact .load (same ▸ owned) ((usableIndex sound owned).mp inside)
    | store owned inside => exact .store (same ▸ owned) ((usableIndex sound owned).mp inside)

theorem mallocRoom (mine : k.pid = pid) (file : σ.fileSize = dataSize) {v : Nat}
    (call : exec k (.xxmalloc size) σ.clear = .ok v σ') (limit : Within σ') :
    Room P (.xxmalloc size) := by
  have clear := soundClear sound
  have par := clear.par.trans mine.symm
  obtain ⟨_, _, grant⟩ := xxmallocGrant clear.agrees.inv par call limit
  rw [Room]
  cases grant with
  | carve small empty room =>
    have cls := blockTypeLt small
    rw [if_pos small]
    refine .inr ⟨(pageLeft mirrors).mpr room, (fileLeft mirrors cls).mpr ?_⟩
    have top := (linkedEmpty (empty ▸ clear.agrees.inv.linked _ cls))
    rw [exec, mallocSmall (σ := σ.clear) par small, popEmpty cls top] at call
    exact file ▸ (carveInv call).2.2.2.1
  | pop small full next =>
    rw [if_pos small, ← mirrors.ledger]
    refine .inl fun empty => ?_
    rw [chainsOf, empty] at full
    cases full
  | large big fits room =>
    rw [if_neg (Nat.not_le.mpr big)]
    exact ⟨fits, mirrors.large ▸ room⟩

theorem roomMalloc (reliable : Reliable pid k) (file : σ.fileSize = dataSize)
    (room : Room P (.xxmalloc size)) :
    ∃ v σ', exec k (.xxmalloc size) σ.clear = .ok v σ' ∧ Within σ' := by
  have inv := (soundClear sound).agrees.inv
  have par : σ.parPs = k.pid := sound.par.trans reliable.1.symm
  have limit := inv.highLimit
  rw [Room] at room
  split at room
  · rename_i small
    have cls := blockTypeLt small
    rw [exec, mallocSmall (σ := σ.clear) par small]
    rcases topCases inv cls with ⟨top, empty⟩ | ⟨rest, link, real, full, read⟩
    · have none : P.ledger.free (blockType size) = [] := by
        rw [← mirrors.ledger]
        exact List.map_eq_nil_iff.mp empty
      obtain ⟨page, left⟩ := room.resolve_left (fun some => some none)
      have page := (pageLeft mirrors).mp page
      have left := (fileLeft mirrors cls).mp left
      have started := inv.highLow
      rw [popEmpty cls top]
      refine ⟨_, _, carveRun reliable.2.1 ?_ (taskRoom inv) (by rw [← file] at left; exact left), ?_⟩
      · simp only [mmapMinAddr] at started
        omega
      · exact (highAdvance page).trans_le page
    · exact ⟨_, _, popRun cls real read, limit⟩
  · rename_i large
    obtain ⟨fits, room⟩ := room
    rw [exec, xxmalloc, bindOk (@ensureInitRun k σ.clear par), if_pos (Nat.not_le.mp large)]
    exact ⟨_, _, xxmallocBigRun fits (mirrors.large ▸ room) reliable.2.1, limit⟩

theorem freeRoom (reliable : Reliable pid k) (owned : b ∈ live h) :
    (∃ v σ', exec k (.xxfree b.ptr) σ.clear = .ok v σ' ∧ Within σ') ↔ Room P (.xxfree b.ptr) := by
  have clear := soundClear sound
  have inv := clear.agrees.inv
  have par := clear.par.trans reliable.1.symm
  have held := clear.agrees.held b owned
  have found := mirrors.ledger ▸ findCovers sound.agrees owned (insideSelf b.ptr b.size)
  have same : Room P (.xxfree b.ptr) ↔ (b.Small → PageLeft P) := by
    rw [Room, found]
    exact ⟨fun all => all b rfl, fun one c eq => by cases eq; exact one⟩
  rw [same]
  by_cases small : b.Small
  · obtain ⟨mapped, header, inside, cls⟩ := slotPage inv ((heldSmall small).mp held)
    obtain ⟨earlier, done, _⟩ := freeSmallRun cls mapped header inside inv.highAligned (taskRoom inv)
      (reliableFirst reliable) (by decide)
    rw [← xxfreeHeldSmall inv par small held (insideSelf _ _)] at done
    have run : exec k (.xxfree b.ptr) σ.clear = .ok 0 _ := bindOk done
    rw [run, pageLeft mirrors]
    constructor
    · rintro ⟨v, σ', call, limit⟩ _
      cases call
      have task := taskRoom inv
      have advance : wrap (σ.highVaddr + pageSize) = σ.highVaddr + pageSize :=
        wrapSmall (Nat.lt_of_le_of_lt task (by decide))
      exact advance ▸ limit
    · intro left
      exact ⟨_, _, rfl, (highAdvance (left small)).trans_le (left small)⟩
  · have done := xxfreeHeldBig inv par (Nat.not_le.mp small) held (insideSelf _ _) (cleanSelf _ _)
    exact iff_of_true ⟨0, _, bindOk done, inv.highLimit⟩ fun here => absurd here small

theorem roomServes (reliable : Reliable pid k) (file : σ.fileSize = dataSize) (permits : Permits P op)
    (room : Room P op) : ∃ v σ', exec k op σ.clear = .ok v σ' ∧ Within σ' := by
  have same : live h = P.ledger.live := congrArg Ledger.live mirrors.ledger
  have limit := (soundClear sound).agrees.inv.highLimit
  cases permits with
  | xxmalloc size => exact roomMalloc sound mirrors reliable file room
  | xxfree owned => exact (freeRoom sound mirrors reliable (same ▸ owned)).mpr room
  | usableSize owned =>
    exact ⟨_, _, usableServes sound (same ▸ owned) (insideSelf _ _) (cleanSelf _ _), limit⟩
  | load owned inside =>
    obtain ⟨v, read⟩ := loadServes (k := k) sound (same ▸ owned) inside
    exact ⟨v, _, read, limit⟩
  | store owned inside => exact ⟨_, _, storeServes sound (same ▸ owned) inside _, limit⟩

theorem servesRoom (reliable : Reliable pid k) (file : σ.fileSize = dataSize)
    (disciplined : Disciplined h σ op) {v : Nat} (call : exec k op σ.clear = .ok v σ')
    (limit : Within σ') : Room P op := by
  cases disciplined with
  | xxmalloc size => exact mallocRoom sound mirrors reliable.1 file call limit
  | xxfree owned => exact (freeRoom sound mirrors reliable owned).mp ⟨v, σ', call, limit⟩
  | usableSize => trivial
  | load => trivial
  | store => trivial

theorem permitsValue (permits : Permits P op) (addr : Nat) : P.reply op ≠ .fault addr := by
  have found : ∀ b ∈ P.ledger.live, ∀ a, b.Covers a → P.ledger.find a = some b := fun b owned a =>
    mirrors.ledger ▸ findCovers sound.agrees (mirrors.ledger ▸ owned)
  cases permits with
  | xxmalloc size => simp [Plan.reply]
  | xxfree owned => simp [Plan.reply, found _ owned _ (insideSelf _ _)]
  | usableSize owned => simp [Plan.reply, found _ owned _ (insideSelf _ _)]
  | load owned inside => simp [Plan.reply, found _ owned _ (coversIndex inside)]
  | store owned inside => simp [Plan.reply, found _ owned _ (coversIndex inside)]

end

theorem changeFile (change : Change h σ own e σ' own') : σ'.fileSize = σ.fileSize := by
  cases change with
  | malloc grant => cases grant <;> rfl
  | free owned found release => cases release <;> rfl
  | store owned inside => rfl
  | idle idle => rfl

theorem affordableServed (begun : Started pid σ₀) (file : σ₀.fileSize = dataSize)
    (affordable : Affordable l) :
    ∃ h σ, Run pid (reliably pid) Within h σ ∧ σ.fileSize = dataSize ∧ ops h = l := by
  induction l with
  | nil => exact ⟨[], σ₀, .init begun, file, rfl⟩
  | cons op l ih =>
    obtain ⟨before, permits, room⟩ := affordable
    obtain ⟨h, σ, run, file, rfl⟩ := ih before
    have wide := runWiden reliablyWider run
    have mirrors := runForetold wide
    obtain ⟨own, sound⟩ := runSound wide
    have reliable : Reliable pid { steady with pid := pid } := ⟨rfl, rfl, fun _ => rfl⟩
    obtain ⟨v, σ', call, limit⟩ := roomServes sound mirrors reliable file permits room
    have taken : Step (reliably pid) Within h σ ⟨op, .value v, σ'.calls⟩ σ' :=
      .returned ⟨reliable, (permitsDisciplined sound mirrors).mp permits⟩ call limit
    obtain ⟨own', change⟩ := stepChange sound (stepWiden reliablyWider taken)
    exact ⟨_, σ', .next run taken, (changeFile change).trans file, rfl⟩

theorem stepValue (sound : Sound pid h σ own) (mirrors : Mirrors (foretold (ops h)) h σ)
    (taken : Step (reliably pid) Within h σ e σ') : ∃ v, e.reply = .value v := by
  have answer := (stepForetold sound mirrors (stepWiden reliablyWider taken)).1
  cases taken with
  | returned => exact ⟨_, rfl⟩
  | faulted allowed call limit =>
    have permits := (permitsDisciplined sound mirrors).mpr allowed.2
    exact absurd answer.symm (permitsValue sound mirrors permits _)

theorem runValues (run : Run pid (reliably pid) Within h σ) : ∀ e ∈ h, ∃ v, e.reply = .value v := by
  induction run with
  | init begun => exact fun e member => by cases member
  | next before taken ih =>
    have wide := runWiden reliablyWider before
    obtain ⟨own, sound⟩ := runSound wide
    exact List.forall_mem_cons.mpr ⟨stepValue sound (runForetold wide) taken, ih⟩

theorem servedAffordable (run : Run pid (reliably pid) Within h σ) (file : σ.fileSize = dataSize) :
    Affordable (ops h) := by
  induction run with
  | init begun => trivial
  | next before taken ih =>
    have wide := runWiden reliablyWider before
    have mirrors := runForetold wide
    obtain ⟨own, sound⟩ := runSound wide
    obtain ⟨own', change⟩ := stepChange sound (stepWiden reliablyWider taken)
    have file := (changeFile change).symm.trans file
    obtain ⟨v, value⟩ := stepValue sound mirrors taken
    refine ⟨ih file, ?_⟩
    cases taken with
    | returned allowed call limit =>
      exact ⟨(permitsDisciplined sound mirrors).mpr allowed.2,
        servesRoom sound mirrors allowed.1 file allowed.2 call limit⟩
    | faulted => cases value

theorem affordableExactly (begun : Started pid σ₀) (file : σ₀.fileSize = dataSize) (l : List Op) :
    (Affordable l ↔
      ∃ h σ, Run pid (reliably pid) Within h σ ∧ σ.fileSize = dataSize ∧ ops h = l) ∧
    ∀ h σ, Run pid (reliably pid) Within h σ → ∀ e ∈ h, ∃ v, e.reply = .value v :=
  ⟨⟨affordableServed begun file, fun ⟨_, _, run, file, same⟩ => same ▸ servedAffordable run file⟩,
    fun _ _ => runValues⟩

def recycling : List Op :=
  [.load 0x100001010 9, .xxmalloc 16, .xxfree 0x100000010, .store 0x100000010 9 7, .xxmalloc 4096,
    .xxmalloc 16]

theorem recyclingServed : ∃ h σ, Run 1 (reliably 1) Within h σ ∧ σ.fileSize = dataSize ∧
    ops h = recycling := by
  refine (affordableExactly begunStarted rfl recycling).1.mp ?_
  refine ⟨⟨⟨⟨⟨⟨trivial, .xxmalloc 16, ?_⟩, .xxmalloc 4096, ?_⟩, ?_, trivial⟩, ?_, ?_⟩, .xxmalloc 16, ?_⟩,
    ?_, trivial⟩
  · exact .inr ⟨by unfold PageLeft; decide, by unfold FileLeft; decide⟩
  · exact ⟨by decide, by decide⟩
  · exact .store (b := ⟨0, 0, 0x100000010, 16⟩) (by decide) (by decide)
  · exact .xxfree (b := ⟨0, 0, 0x100000010, 16⟩) (by decide)
  · exact fun _ _ _ => by unfold PageLeft; decide
  · exact .inl (by decide)
  · exact .load (b := ⟨0, 0, 0x100001010, 16⟩) (by decide) (by decide)

end Nuaf.Feasible
