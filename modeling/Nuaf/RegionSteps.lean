import Nuaf.OpenSteps

/-! A region that begins on a heap that keeps the invariant. What it will get at is the territory of
its mutex, and no other thread holds anything there; so it comes to the same on the heap the threads
have made so far and on the one in which every region under way is over. -/
namespace Nuaf.LockedThreads
open Layout ByteMemory LinkedStack Machine Source Heap Threads SharedHeap CallTree LocalSections Accesses
open Locks (Region Mutex)
open Exhaustion (largePage)

def territory (m : Mutex) : Set Place
  | .byte a => largeObjVaddrStart ≤ a ↔ m = .gBigObjM
  | .high | .lists => m = .gM
  | .next => m = .gBigObjM
  | .setup => False

variable {pid : Nat} {k : Kernel} {σ fine : State} {h : Threads.History} {s : Threads.System}
  {own : Owner} {chains : Chains} {τ υ : Nat} {pc : Pc} {r : Region} {m n : Mutex} {l : Place} {v : Nat}
  {pages : Nat → Prop} {size ptr : Nat} {o : Object}

theorem territoryOne (left : l ∈ territory m) (right : l ∈ territory n) : m = n := by
  cases l with
  | byte a =>
    have both : m = .gBigObjM ↔ n = .gBigObjM :=
      (show largeObjVaddrStart ≤ a ↔ m = .gBigObjM from left).symm.trans right
    cases m <;> cases n <;> simp_all
  | high | lists => exact (show m = .gM from left).trans (show n = .gM from right).symm
  | next => exact (show m = .gBigObjM from left).trans (show n = .gBigObjM from right).symm
  | setup => exact left.elim

theorem guardsWithin (small : ∀ g, pages g → (largePage ≤ g ↔ m = .gBigObjM)) :
    guards m pages ⊆ territory m := by
  intro l here
  cases l with
  | byte a =>
    refine Iff.trans ?_ (small (a / pageSize) here)
    simp only [largePage, largeObjVaddrStart, pageSize]
    omega
  | high | lists | next | setup => exact here

def Fresh (pc : Pc) (o : Object) : Prop :=
  pc = .got o.size o.ptr ∨ ∃ shadow, pc = .magic o.size shadow ∧ o.ptr = shadow + 16

/- What a region gets at and comes to on `σ`: pages of its mutex's territory that no other thread
holds anything on, with what it hands out on them. -/
structure Comes (k : Kernel) (h : Threads.History) (s : Threads.System) (τ : Nat) (pc : Pc) (r : Region)
    (pages : Nat → Prop) (v : Nat) (σ : State) : Prop where
  ends : Ends device (guards r.mutex pages) (regionBody k r) s.heap v σ
  within : ∀ g, pages g → (largePage ≤ g ↔ r.mutex = .gBigObjM)
  sole : ∀ υ o g, υ ≠ τ → Claims h s υ o → Spans o.ptr o.size g → ¬ pages g
  fresh : ∀ o g, Fresh (served pc v) o → Spans o.ptr o.size g → pages g
  limit : Within σ

theorem unclaimed (races : Races pid h s own chains) (shares : Shares h s)
    (owner : ∀ g, pages g → ∀ u, own g = some u → ∃ t offset, u = .small t offset true) :
    ∀ υ o g, υ ≠ τ → Claims h s υ o → Spans o.ptr o.size g → ¬ pages g := by
  intro υ o g _ claim spans here
  obtain ⟨u, owned, busy⟩ := claimOwned races shares claim spans
  obtain ⟨t, offset, rfl⟩ := owner g here u owned
  exact busy t offset rfl

section
variable (races : Races pid h s own chains) (shares : Shares h s) (reliable : Reliable pid k)
  (equal : ∀ l, l ∈ territory r.mutex ∨ l ∈ device.fixed → same l fine s.heap)
include races shares reliable equal

theorem popComes (small : ¬ largestBlockSize < size) (kind : r = .pop size) (room : Room fine r) :
    ∃ pages v σ, Comes k h s τ (.malloc size) r pages v σ := by
  subst kind
  have small := Nat.not_lt.mp small
  have cls := blockTypeLt small
  have inv := races.inv
  have lists : fine.gFlsts = s.heap.gFlsts := equal .lists (.inl rfl)
  have high : fine.highVaddr = s.heap.highVaddr := equal .high (.inl rfl)
  have file : fine.fileSize = s.heap.fileSize := (equal .setup (.inr rfl)).1
  have given : ∀ v o, Fresh (served (.malloc size) v) o → o.ptr = v ∧ o.size = size := by
    intro v o fresh
    simp only [served, if_neg (Nat.not_lt.mpr small)] at fresh
    rcases fresh with got | ⟨_, got, _⟩ <;> cases got
    exact ⟨rfl, rfl⟩
  rcases topCases inv cls with ⟨empty, _⟩ | ⟨rest, link, real, full, read⟩
  · -- a page is mapped at high_vaddr
    obtain ⟨backed, above⟩ := room (by rw [lists]; exact empty)
    rw [lists, file] at backed
    rw [high] at above
    have task : s.heap.highVaddr + pageSize ≤ taskSize := taskRoom inv
    have started : 0 < s.heap.highVaddr := Nat.lt_of_lt_of_le (by decide) inv.highLow
    have base := highPage inv
    refine ⟨(· = s.heap.highVaddr / pageSize), _, _, carveEnds cls empty reliable.2.1 started task
      backed (fun i short => ?_), fun g here => ?_, unclaimed races shares fun g here u owned => ?_,
      fun o g fresh spans => ?_, ?_⟩
    · simp only [pageSize] at *
      omega
    · subst here
      refine iff_of_false ?_ (by simp [Region.mutex])
      simp only [largePage, largeObjVaddrStart, pageSize] at *
      omega
    · subst here
      rw [highUnowned inv above] at owned
      cases owned
    · obtain ⟨ptr, length⟩ := given _ o fresh
      have slot := slotCases (inv.canonical _ cls).slot
      rw [length] at spans
      have here := (spansSmall small).mp spans
      rw [here, ptr]
      simp only [pageSize] at *
      omega
    · exact (wrapSmall (by simp only [pageSize, taskSize] at *; omega)).trans_le above
  · have free := (inv.chained _ cls _).mp (by rw [full]; exact List.mem_cons_self)
    have page := inv.small free
    have slot := slotCases page.slot
    have limit := inv.highLimit
    have top := page.high
    refine ⟨(· = (s.heap.gFlsts (blockType size)).topOfStack / pageSize), _, _,
      popEnds cls real read (fun i short => ?_), fun g here => ?_, unclaimed races shares
      fun g here u owned => ?_, fun o g fresh spans => ?_, inv.highLimit⟩
    · simp only [pageSize] at *
      omega
    · subst here
      refine iff_of_false ?_ (by simp [Region.mutex])
      simp only [largePage, largeObjVaddrStart, pageSize] at *
      omega
    · subst here
      rw [free] at owned
      cases owned
      exact ⟨_, _, rfl⟩
    · obtain ⟨ptr, length⟩ := given _ o fresh
      rw [length] at spans
      have here := (spansSmall small).mp spans
      rw [here, ptr]

theorem mapComes (big : largestBlockSize < size) (kind : r = .map size) (room : Room fine r) :
    ∃ pages v σ, Comes k h s τ (.malloc size) r pages v σ := by
  subst kind
  have inv := races.inv
  have next : fine.largeObjNextPage = s.heap.largeObjNextPage := equal .next (.inl rfl)
  obtain ⟨some, task⟩ := room
  rw [next] at task
  have fits := wrapSmall (bigPagesFits some)
  have base := nextPage inv
  have low := inv.nextLow
  refine ⟨fun g => s.heap.largeObjNextPage / pageSize ≤ g ∧
      g < s.heap.largeObjNextPage / pageSize + bigPages size, _, _,
    mapEnds reliable.2.1 some task (fun i short => ?_), fun g here => ?_,
    unclaimed races shares fun g here u owned => ?_, fun o g fresh spans => ?_, inv.highLimit⟩
  · rw [fits] at short
    simp only [pageSize] at *
    omega
  · refine iff_of_true ?_ rfl
    simp only [largePage, largeObjVaddrStart, pageSize] at *
    omega
  · have past : s.heap.largeObjNextPage ≤ pageSize * g := by
      simp only [pageSize] at *
      omega
    rw [ownPast inv past] at owned
    cases owned
  · simp only [served, if_pos big] at fresh
    rcases fresh with got | ⟨shadow, got, ptr⟩
    · cases got
    · cases got
      rw [ptr] at spans
      have here := (spansBig big).mp spans
      simp only [pageSize] at *
      omega

theorem moveComes {start : Nat} (here : s.pc τ = .moving ptr start) (kind : r = .move start)
    (room : Room fine r) : ∃ pages v σ, Comes k h s τ (.moving ptr start) r pages v σ := by
  subst kind
  have inv := races.inv
  have fits := races.fits τ
  rw [here] at fits
  cases fits with
  | @moving o known small =>
  obtain ⟨p, mine, same⟩ := shares.named τ o.ptr (by rw [here]; rfl)
  cases samePointer races known (shares.known τ p mine) same
  have held := ownedHeld races shares mine
  have owned := (heldSmall small).mp held
  obtain ⟨mapped, header, slot, cls⟩ := slotPage inv owned
  have high : fine.highVaddr = s.heap.highVaddr := equal .high (.inl rfl)
  have base := highPage inv
  have above : s.heap.highVaddr + pageSize ≤ largeObjVaddrStart := high ▸ room
  have below := (inv.small owned).high
  refine ⟨fun g => g = o.ptr / pageSize ∨ g = s.heap.highVaddr / pageSize, _, _,
    moveEnds (reliable.2.2 1) cls mapped header slot inv.highAligned (taskRoom inv) (fun i short => ?_)
      (fun i short => ?_), fun g page => ?_, fun υ p g other claim spans page => ?_, fun p g fresh => ?_, ?_⟩
  · rw [roundDownPage]
    simp only [pageSize] at *
    omega
  · simp only [pageSize] at *
    omega
  · refine iff_of_false ?_ (by simp [Region.mutex])
    simp only [largePage, largeObjVaddrStart, pageSize] at *
    omega
  · rcases page with rfl | rfl
    · -- the object that is being freed is its thread's alone
      rcases claimsApart races shares claim (.held mine) with ⟨same, _⟩ | apart
      · exact other same
      · exact apart _ spans (spansSelf _ _)
    · obtain ⟨u, busy, _⟩ := claimOwned races shares claim spans
      rw [highUnowned inv above] at busy
      cases busy
  · rcases fresh with got | ⟨_, got, _⟩ <;> cases got
  · exact (wrapSmall (by simp only [pageSize, largeObjVaddrStart] at *; omega)).trans_le above

theorem regionComes (here : s.pc τ = pc) (locked : region pc = some r) (room : Room fine r) :
    ∃ pages v σ, Comes k h s τ pc r pages v σ := by
  cases pc with
  | malloc size =>
    simp only [region, Option.some.injEq] at locked
    split at locked
    · rename_i big
      exact mapComes races shares reliable equal big locked.symm room
    · rename_i small
      exact popComes races shares reliable equal small locked.symm room
  | moving ptr start => exact moveComes races shares reliable equal here (Option.some.inj locked).symm room
  | _ => cases locked

omit shares equal in
theorem comesStep (here : s.pc τ = pc) (locked : region pc = some r)
    (comes : Comes k h s τ pc r pages v σ) :
    ∃ σ', Ends device (guards r.mutex pages) (regionBody k r) s.heap v σ' ∧
      next k pc s.heap = .ok (served pc v) σ' ∧ Within σ' := by
  have par := races.par.trans reliable.1.symm
  obtain ⟨σ', run, alike⟩ := endsRun comes.ends
  rw [regionSource] at run
  have opened : opens k pc s.heap = .ok () s.heap := by
    cases pc with
    | malloc size => exact ensureInitRun par
    | _ => rfl
  refine ⟨σ', endsTo comes.ends alike, ?_, ?_⟩
  · rw [nextRegion locked, bindOk opened, bindOk run]
    rfl
  · rw [Within, ← show σ.highVaddr = σ'.highVaddr from alike .high]
    exact comes.limit

end

end Nuaf.LockedThreads
