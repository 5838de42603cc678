import Nuaf.RegionEnds

/-! The steps a call takes outside of all locks. Each is one access at a header of the object the
call is on, which its thread holds or is making. -/
namespace Nuaf.LockedThreads
open Layout ByteMemory Machine Source Heap Threads SharedHeap CallTree LocalSections Accesses

def lookBody (page : Nat) (found : Pc) (below : Nat → Pc) : Body Pc := do
  let word ← ask (.load (pageSize * page) 8)
  if word = largeObjStartMagic then pure found
  else match page with
    | 0 => do let _ ← ask (.stop (.segv (subWrap 0 pageSize))); pure found
    | page + 1 => pure (below page)

def smallSize (ptr : Nat) (go : Nat → Pc) : Body Pc := do
  let word ← ask (.load (roundDown ptr pageSize) 4)
  let shift := asInt word + magicNumber
  if 0 ≤ shift ∧ shift < 31 then pure (go (1 <<< shift.toNat))
  else do let _ ← ask (.stop .undefined); pure .idle

def openBody : Pc → Body Pc
  | .magic size shadow => do
    let _ ← ask (.store shadow 8 largeObjStartMagic)
    pure (.count size shadow)
  | .count size shadow => do
    let _ ← ask (.store (shadow + 8) 8 (bigPages size))
    pure (.got size (shadow + 16))
  | .free ptr =>
    if ptr = 0 then pure .freed
    else if isLarge ptr then pure (.scan true ptr (ptr / pageSize))
    else smallSize ptr fun objSize =>
      release ptr (wrap (roundDown (subWrap ptr byteAlignment) objSize + byteAlignment)) objSize
  | .query ptr =>
    if ptr = 0 then pure (.answered 0)
    else if isLarge ptr then pure (.scan false ptr (ptr / pageSize))
    else smallSize ptr .answered
  | .scan freeing ptr page => lookBody page (.pages freeing ptr page) (.scan freeing ptr)
  | .pages freeing ptr page => do
    let numPages ← ask (.load (pageSize * page + 8) 8)
    let size := subWrap (wrap (numPages * pageSize)) 16
    pure (if freeing then .rescan ptr size (ptr / pageSize) else .answered size)
  | .rescan ptr objSize page =>
    lookBody page (release ptr (pageSize * page) objSize) (.rescan ptr objSize)
  | pc => pure pc

variable {pid : Nat} {k : Kernel} {σ : State} {pc : Pc} {good : Access → Prop}

theorem lookSource (page : Nat) (found : Pc) (below : Nat → Pc) :
    device.run (lookBody page found below) = look page found below := by
  simp only [lookBody, runBind, runAsk, runIte, Access.perform, look]
  refine bind_congr fun word => ?_
  split
  · rfl
  · cases page <;> rfl

theorem sizeSource {ptr : Nat} (real : ptr ≠ 0) (low : ¬ isLarge ptr = true) (go : Nat → Pc) :
    device.run (smallSize ptr go) = (do
      let size ← xxmallocUsableSize ptr
      pure (go size)) := by
  simp only [smallSize, runBind, runAsk, runIte, Access.perform, xxmallocUsableSize, if_neg real, if_neg low,
    bind_assoc]
  refine bind_congr fun word => ?_
  split <;> rfl

theorem openSource (par : σ.parPs = k.pid) (single : region pc = none)
    (held : ∀ ptr start size, pc ≠ .unmapping ptr start size) :
    device.run (openBody pc) σ = next k pc σ := by
  cases pc with
  | malloc | moving => cases single
  | unmapping ptr start size => exact absurd rfl (held ptr start size)
  | free ptr =>
    rw [next, bindOk (ensureInitRun par), openBody]
    by_cases null : ptr = 0
    · rw [if_pos null, if_pos null]
      rfl
    · rw [if_neg null, if_neg null]
      by_cases large : isLarge ptr = true
      · rw [if_pos large, if_pos large]
        rfl
      · rw [if_neg large, if_neg large, sizeSource null large]
        simp only [getObjStart, if_neg large, pure_bind]
  | query ptr =>
    rw [next, openBody]
    by_cases null : ptr = 0
    · rw [if_pos null, if_pos null]
      rfl
    · rw [if_neg null, if_neg null]
      by_cases large : isLarge ptr = true
      · rw [if_pos large, if_pos large]
        rfl
      · rw [if_neg large, if_neg large, sizeSource null large]
  | scan | rescan => exact congrFun (lookSource _ _ _) σ
  | magic | count =>
    simp only [openBody, next, runBind, runAsk, runPure, Access.perform, bind_assoc, pure_bind]
  | _ => rfl

theorem makesLook {page : Nat} {found : Pc} {below : Nat → Pc} (reads : good (.load (pageSize * page) 8))
    (stops : ∀ e, good (.stop e)) : Makes good (lookBody page found below) := by
  refine ⟨reads, fun word => ?_⟩
  change Makes good (ite _ _ _)
  split
  · trivial
  · cases page with
    | zero => exact ⟨stops _, fun _ => trivial⟩
    | succ page => trivial

theorem makesSize {ptr : Nat} {go : Nat → Pc} (reads : good (.load (roundDown ptr pageSize) 4))
    (stops : ∀ e, good (.stop e)) : Makes good (smallSize ptr go) := by
  refine ⟨reads, fun word => ?_⟩
  change Makes good (ite _ _ _)
  split
  · trivial
  · exact ⟨stops _, fun _ => trivial⟩

variable {h : Threads.History} {s : Threads.System} {own : Owner} {chains : Chains} {τ : Nat}

def Claimed (h : Threads.History) (s : Threads.System) (τ g : Nat) : Prop :=
  ∃ o, Claims h s τ o ∧ Spans o.ptr o.size g

def mine (h : Threads.History) (s : Threads.System) (τ : Nat) : Set Place :=
  bytes fun a => Claimed h s τ (a / pageSize)

theorem claimedNamed (shares : Shares h s) {ptr : Nat} (named : (s.pc τ).named = some ptr) :
    Claimed h s τ (ptr / pageSize) := by
  obtain ⟨o, held, rfl⟩ := shares.named τ ptr named
  exact ⟨o, .held held, spansSelf _ _⟩

theorem goodAccess {op : Access} {a n g : Nat} (claimed : Claimed h s τ g)
    (word : ∀ i < n, (a + i) / pageSize = g) (tight : op ∉ loose)
    (foot : op.foot = bytes fun b => a ≤ b ∧ b < a + n) :
    op ∉ device.loose ∧ ∀ l ∈ device.foot op, l ∈ mine h s τ ∨ l ∈ device.fixed := by
  refine ⟨tight, fun l here => .inl ?_⟩
  rw [show device.foot op = op.foot from rfl, foot] at here
  cases l with
  | byte b =>
    obtain ⟨low, high⟩ := here
    have page := word (b - a) (by omega)
    rw [Nat.add_sub_cancel' low] at page
    rw [← page] at claimed
    exact claimed
  | _ => exact here.elim

theorem goodStop (e : Halt) : Access.stop e ∉ device.loose ∧
    ∀ l ∈ device.foot (Access.stop e), l ∈ mine h s τ ∨ l ∈ device.fixed :=
  ⟨id, fun _ here => here.elim⟩

theorem openMakes (races : Races pid h s own chains) (shares : Shares h s) :
    Makes (fun op => op ∉ device.loose ∧ ∀ l ∈ device.foot op, l ∈ mine h s τ ∨ l ∈ device.fixed)
      (openBody (s.pc τ)) := by
  have named : ∀ ptr, (s.pc τ).named = some ptr → Claimed h s τ (ptr / pageSize) :=
    fun ptr => claimedNamed shares
  have making := @makingAt pid h s own chains τ races
  have header : ∀ g : Nat, ∀ i < 8, (pageSize * g + i) / pageSize = g := fun g i short => by
    simp only [pageSize]
    omega
  have second : ∀ g : Nat, ∀ i < 8, (pageSize * g + 8 + i) / pageSize = g := fun g i short => by
    simp only [pageSize]
    omega
  have small : ∀ ptr : Nat, ∀ i < 4, (roundDown ptr pageSize + i) / pageSize = ptr / pageSize := by
    intro ptr i short
    rw [roundDownPage]
    simp only [pageSize]
    omega
  have made : ∀ size shadow stage, BigAt own shadow size stage →
      (s.pc τ = .magic size shadow ∨ s.pc τ = .count size shadow) →
      Claimed h s τ (shadow / pageSize) := fun size shadow stage at' here =>
    ⟨_, .making here, (makingPages at').mpr ⟨Nat.le_refl _, Nat.lt_add_of_pos_right (bigPagesPositive _)⟩⟩
  have fits := races.fits τ
  generalize s.pc τ = pc at fits named made
  cases fits with
  | idle | malloc | got | freed | answered | freeNull => exact trivial
  | magic at' =>
    have aligned := at'.aligned
    refine ⟨goodAccess (made _ _ _ at' (.inl rfl)) (a := _) (n := 8) (fun i short => ?_) id rfl, fun _ => trivial⟩
    simp only [pageSize] at *
    omega
  | count at' =>
    have aligned := at'.aligned
    refine ⟨goodAccess (made _ _ _ at' (.inr rfl)) (a := _) (n := 8) (fun i short => ?_) id rfl, fun _ => trivial⟩
    simp only [pageSize] at *
    omega
  | @free o known =>
    rw [openBody]
    split
    · trivial
    · split
      · trivial
      · exact makesSize (goodAccess (named _ rfl) (small _) id rfl) goodStop
  | @query o known =>
    rw [openBody]
    split
    · trivial
    · split
      · trivial
      · exact makesSize (goodAccess (named _ rfl) (small _) id rfl) goodStop
  | scan known big => exact makesLook (goodAccess (named _ rfl) (header _) id rfl) goodStop
  | pages known big => exact ⟨goodAccess (named _ rfl) (second _) id rfl, fun _ => trivial⟩
  | rescan known big => exact makesLook (goodAccess (named _ rfl) (header _) id rfl) goodStop
  | unmapping | moving => exact trivial

theorem openEnds (races : Races pid h s own chains) (shares : Shares h s) (reliable : Reliable pid k)
    (running : ¬ (s.pc τ).Final) (single : region (s.pc τ) = none)
    (held : ∀ ptr start size, s.pc τ ≠ .unmapping ptr start size) :
    ∃ pc σ, next k (s.pc τ) s.heap = .ok pc σ ∧
      Ends device (mine h s τ) (openBody (s.pc τ)) s.heap pc σ := by
  have par := races.par.trans reliable.1.symm
  rcases stepRuns races shares reliable running with ⟨pc, σ, call⟩ | ⟨size, at', _⟩
  · exact ⟨pc, σ, call, runEnds (openMakes races shares) ((openSource par single held).trans call)⟩
  · rw [at'] at single
    cases single

theorem unmapEnds (races : Races pid h s own chains) (shares : Shares h s) {ptr start size : Nat}
    (here : s.pc τ = .unmapping ptr start size) :
    Ends device (mine h s τ) (ask (.munmap (roundDown start pageSize) (wrap (roundUp size pageSize)))) s.heap 0
      (released start size s.heap) := by
  have fits := races.fits τ
  rw [here] at fits
  cases fits with
  | @unmapping o known big =>
  obtain ⟨p, held, same⟩ := shares.named τ o.ptr (by rw [here]; rfl)
  cases samePointer races known (shares.known τ p held) same
  obtain ⟨_, _, short⟩ := (races.placed o known).big big
  have base : roundDown (pageSize * (o.ptr / pageSize)) pageSize = pageSize * (o.ptr / pageSize) := by
    rw [roundDownPage, pageOf]
  have length : wrap (roundUp (usableOf o.size) pageSize) = pageSize * bigPages o.size := by
    rw [usableOf, if_neg (Nat.not_le.mpr big), roundUpPages (bigPagesPositive _), wrapSmall short, Nat.mul_comm]
  refine endsTo (endsLast id (fun l inside => ?_) rfl) fun l => ?_
  · cases l with
    | byte a =>
      rw [base, length] at inside
      exact .inl ⟨o, .held held, (spansBig big).mpr ((rangePages _ _ _).mpr inside)⟩
    | _ => exact inside.elim
  · cases l with
    | setup => exact ⟨rfl, rfl, rfl⟩
    | _ => rfl

theorem storeEnds (races : Races pid h s own chains) (shares : Shares h s) {o : Object} {index byte : Nat}
    (held : o ∈ owned h τ) (inside : index < usableOf o.size) :
    Ends device (mine h s τ) (ask (.store (o.ptr + index) 1 byte)) s.heap 0
      { s.heap with mem := write s.heap.mem (o.ptr + index) 1 byte } := by
  have spans := (races.placed o (shares.known τ o held)).inside index inside
  obtain ⟨u, owned, _⟩ := claimOwned races shares (.held held) spans
  have mapped : Mapped s.heap.mem (o.ptr + index) 1 := by
    intro i short
    obtain rfl := Nat.lt_one_iff.mp short
    rw [Nat.add_zero, Ne, races.inv.mapped, owned]
    simp
  refine endsLast id (fun l here => ?_) (bindOk (writeWordOk mapped byte))
  cases l with
  | byte a =>
    obtain ⟨low, high⟩ := here
    obtain rfl : a = o.ptr + index := by omega
    exact .inl ⟨o, .held held, spans⟩
  | _ => exact here.elim

end Nuaf.LockedThreads
