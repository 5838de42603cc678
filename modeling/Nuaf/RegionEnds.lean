import Nuaf.LockedThreads

/-! What each locked region gets at, and what it comes to, whatever the others do in between: its
variables, and one or two pages that are nobody else's while it has the lock. -/
namespace Nuaf.LockedThreads
open Layout ByteMemory LinkedStack Machine Source Heap Threads SharedHeap CallTree LocalSections Accesses
open Locks (Region Mutex)

def guards (m : Mutex) (pages : Nat → Prop) : Set Place
  | .byte a => pages (a / pageSize)
  | .high | .lists => m = .gM
  | .next => m = .gBigObjM
  | .setup => False

variable {pid : Nat} {k : Kernel} {σ σ' : State} {own : Owner} {chains : Chains} {size t link ptr : Nat}
  {pages : Nat → Prop} {m : Mutex}

theorem bytesGuarded {l : Place} {a n : Nat} (inside : ∀ i < n, pages ((a + i) / pageSize))
    (here : l ∈ bytes fun b => a ≤ b ∧ b < a + n) : l ∈ guards m pages ∨ l ∈ device.fixed := by
  cases l with
  | byte b =>
    obtain ⟨low, high⟩ := here
    have page := inside (b - a) (by omega)
    rw [Nat.add_sub_cancel' low] at page
    exact .inl page
  | _ => exact here.elim

theorem popEnds (cls : blockType size < numBlockTypes)
    (real : (σ.gFlsts (blockType size)).topOfStack ≠ 0)
    (read : load σ.mem (σ.gFlsts (blockType size)).topOfStack 8 = some link)
    (inside : ∀ i < 8, pages (((σ.gFlsts (blockType size)).topOfStack + i) / pageSize)) :
    Ends device (guards .gM pages) (popBody k size) σ (σ.gFlsts (blockType size)).topOfStack
      (popped (blockType size) link σ) := by
  have top : Access.perform (.loadTop (blockType size)) σ =
      .ok (σ.gFlsts (blockType size)).topOfStack σ := bindOk (getFlstRun cls σ)
  refine endsAsk id (fun l here => .inl (here ▸ rfl)) top ?_
  rw [if_neg real]
  refine endsAsk id (fun l here => .inl (here ▸ rfl)) top ?_
  refine endsAsk id (fun l here => bytesGuarded inside here) (readWordOk read) ?_
  exact endsAsk id (fun l here => .inl (here ▸ rfl)) rfl (.done (alikeRefl _))

theorem countEnds {α : Type} {f : Nat → Body α} {part : Set Place} {a : α} {s s' : State}
    (rest : ∀ r, Ends device part (f r) s a s') : Ends device part (countUp >>= f) s a s' :=
  .loose trivial fun _ => .loose trivial rest

theorem markEnds {addr : Nat} (zero : ∀ a, addr ≤ a → a < addr + 4 → σ.mem a = some 0)
    (inside : ∀ i < 4, pages ((addr + i) / pageSize)) :
    ∃ r, Ends device (guards .gM pages) (markBody addr t) σ r (wrote addr 4 t σ) := by
  have word : load σ.mem addr 4 = some 0 := loadZero fun i hi => zero _ (by omega) (by omega)
  have reads : Access.perform (.load addr 4) σ = .ok 0 σ := readWordOk word
  by_cases first : t = 0
  · subst first
    refine ⟨0, endsAsk id (fun l here => bytesGuarded inside here) reads ?_⟩
    rw [if_neg (by simp [asInt]), wrote, writeZero zero]
    exact .done (alikeRefl _)
  · have mapped : Mapped σ.mem addr 4 := fun i hi => by simp [zero (addr + i) (by omega) (by omega)]
    refine ⟨0, endsAsk id (fun l here => bytesGuarded inside here) reads ?_⟩
    rw [if_pos (by simp only [asInt]; omega)]
    exact endsLast id (fun l here => bytesGuarded inside here) (bindOk (writeWordOk mapped t))

theorem advanceEnds (cls : t < numBlockTypes) : ∃ r, Ends device (guards .gM pages) (advanceBody t) σ r
    (setCanonical t (nextCanonical t (σ.gFlsts t).highCanonicalAddr) σ) := by
  obtain ⟨r, run⟩ := advanceSource t cls σ
  refine ⟨r, runEnds ?_ run⟩
  have guarded : ∀ op : Access, op ∉ device.loose → op.foot = {.lists} →
      op ∉ device.loose ∧ ∀ l ∈ device.foot op, l ∈ guards .gM pages ∨ l ∈ device.fixed := by
    intro op tight foot
    refine ⟨tight, fun l here => ?_⟩
    rw [show device.foot op = {.lists} from foot] at here
    exact .inl (here ▸ rfl)
  refine ⟨guarded _ id rfl, fun canonical => ⟨guarded _ id rfl, fun _ => ⟨guarded _ id rfl, fun next => ?_⟩⟩⟩
  change Makes _ (ite _ _ _)
  split
  · exact ⟨guarded _ id rfl, fun _ => ⟨guarded _ id rfl, fun _ => trivial⟩⟩
  · trivial

theorem carveEnds (cls : blockType size < numBlockTypes)
    (empty : (σ.gFlsts (blockType size)).topOfStack = 0) (grants : k.mmapGrants = true)
    (started : 0 < σ.highVaddr) (room : σ.highVaddr + pageSize ≤ taskSize)
    (file : roundDown (σ.gFlsts (blockType size)).highCanonicalAddr pageSize < σ.fileSize)
    (inside : ∀ i < pageSize, pages ((σ.highVaddr + i) / pageSize)) :
    Ends device (guards .gM pages) (popBody k size) σ
      (σ.highVaddr + (σ.gFlsts (blockType size)).highCanonicalAddr % pageSize)
      (carved (blockType size) (σ.gFlsts (blockType size)) σ) := by
  have valid : ¬ (σ.highVaddr = mapFailed ∨ σ.highVaddr = 0) := by
    simp only [mapFailed, pageSize, taskSize] at *
    omega
  have top : Access.perform (.loadTop (blockType size)) σ =
      .ok (σ.gFlsts (blockType size)).topOfStack σ := bindOk (getFlstRun cls σ)
  have canonical : Access.perform (.loadCanonical (blockType size)) σ =
      .ok (σ.gFlsts (blockType size)).highCanonicalAddr σ := bindOk (getFlstRun cls σ)
  refine endsAsk id (fun l here => .inl (here ▸ rfl)) top ?_
  rw [if_pos empty]
  refine endsAsk id (fun l here => .inl (here ▸ rfl)) rfl ?_
  refine endsAsk id (fun l here => .inl (here ▸ rfl)) canonical ?_
  refine endsAsk id (fun l here => bytesGuarded inside here) (mmapRun grants (by decide) room _) ?_
  rw [if_neg valid]
  refine countEnds fun _ => endsAsk id (fun l here => .inr here) (bindOk (touchFileRun (by exact file) _)) ?_
  obtain ⟨_, marks⟩ := @markEnds { σ with
      mem := mapZero σ.mem σ.highVaddr pageSize
      calls := .mmap σ.highVaddr pageSize (roundDown (σ.gFlsts (blockType size)).highCanonicalAddr
        pageSize) :: σ.calls } (blockType size) pages σ.highVaddr
    (fun a low high => mapZeroIn ⟨low, by simp only [pageSize]; omega⟩)
    fun i short => inside i (by simp only [pageSize]; omega)
  refine endsBind marks (endsAsk id (fun l here => .inl (here ▸ rfl)) rfl ?_)
  refine endsAsk id (fun l here => .inl (here ▸ rfl)) rfl ?_
  refine endsAsk id (fun l here => .inl (here ▸ rfl)) (bindOk (getFlstRun cls _)) ?_
  obtain ⟨_, advances⟩ := @advanceEnds _ _ pages cls
  refine endsBind advances (.done fun l => ?_)
  cases l with
  | setup => exact ⟨rfl, rfl, rfl⟩
  | _ => rfl

theorem mapEnds {numPages : Nat} (grants : k.mmapGrants = true)
    (positive : 0 < wrap (numPages * pageSize))
    (room : σ.largeObjNextPage + wrap (numPages * pageSize) ≤ taskSize)
    (inside : ∀ i < wrap (numPages * pageSize), pages ((σ.largeObjNextPage + i) / pageSize)) :
    Ends device (guards .gBigObjM pages) (mapBody k numPages) σ σ.largeObjNextPage
      (bigMapped numPages σ) := by
  have valid : ¬ (σ.largeObjNextPage = mapFailed ∨ σ.largeObjNextPage ≠ σ.largeObjNextPage) := by
    simp only [mapFailed, taskSize] at *
    omega
  refine endsAsk id (fun l here => .inl (here ▸ rfl)) rfl ?_
  refine endsAsk id (fun l here => bytesGuarded inside here) (mmapRun grants positive room _) ?_
  refine endsAsk id (fun l here => .inl (here ▸ rfl)) rfl ?_
  rw [if_neg valid]
  refine countEnds fun _ => endsAsk id (fun l here => .inl (here ▸ rfl)) rfl ?_
  refine endsAsk id (fun l here => .inl (here ▸ rfl)) rfl (.done fun l => ?_)
  cases l with
  | setup => exact ⟨rfl, rfl, rfl⟩
  | _ => rfl

theorem moveEnds (grants : (k.attempt 1).grants = true) (cls : t < numBlockTypes)
    (page : Mapped σ.mem (roundDown ptr pageSize) pageSize)
    (header : load σ.mem (roundDown ptr pageSize) 4 = some t) (slot : ptr % pageSize + 8 ≤ pageSize)
    (aligned : σ.highVaddr % pageSize = 0) (room : σ.highVaddr + pageSize ≤ taskSize)
    (source : ∀ i < pageSize, pages ((roundDown ptr pageSize + i) / pageSize))
    (target : ∀ i < pageSize, pages ((σ.highVaddr + i) / pageSize)) :
    Ends device (guards .gM pages) (moveBody k ptr) σ 0
      (pushed t (σ.highVaddr + ptr % pageSize) (relocated 1 ptr [] σ)) := by
  have valid : σ.highVaddr ≠ mapFailed := by
    simp only [mapFailed, pageSize, taskSize] at *
    omega
  have whole : ∀ i < pageSize, (relocated 1 ptr [] σ).mem (σ.highVaddr + i) =
      σ.mem (roundDown ptr pageSize + i) := by
    intro i hi
    simp only [relocated]
    rw [moveIn ⟨by omega, by omega⟩, unmapOut (by omega), Nat.add_sub_cancel_left]
  have small : asInt t = t := asIntSmall (by simp only [numBlockTypes] at cls; omega)
  have fits : wrap (σ.highVaddr + ptr % pageSize) = σ.highVaddr + ptr % pageSize :=
    wrapSmall (by simp only [pageSize, taskSize] at *; omega)
  have base : roundDown (σ.highVaddr + ptr % pageSize) pageSize = σ.highVaddr := by
    rw [roundDownPage]
    simp only [pageSize] at *
    omega
  have sourced : σ.mem (roundDown ptr pageSize) ≠ none := by simpa using page 0 (by decide)
  have moved : Ends device (guards .gM pages) (remapBody k (roundDown ptr pageSize) 99 1) σ
      (σ.highVaddr, 2) { relocated 1 ptr [] σ with highVaddr := σ.highVaddr } := by
    refine endsAsk id (fun l here => .inl (here ▸ rfl)) rfl ?_
    refine endsAsk id (fun l here => ?_) (mremapRun grants sourced room) ?_
    · cases l with
      | byte b =>
        rcases here with rfl | ⟨low, high⟩ | ⟨low, high⟩
        · exact .inl (show pages _ by simpa using source 0 (by decide))
        · have inside := source (b - roundDown ptr pageSize) (by omega)
          rw [Nat.add_sub_cancel' low] at inside
          exact .inl inside
        · have inside := target (b - σ.highVaddr) (by omega)
          rw [Nat.add_sub_cancel' low] at inside
          exact .inl inside
      | _ => exact here.elim
    · rw [if_neg fun both => valid both.1]
      refine .done fun l => ?_
      cases l with
      | setup => exact ⟨rfl, rfl, rfl⟩
      | _ => rfl
  refine endsBind moved ?_
  dsimp only
  rw [if_neg (by decide)]
  refine endsAsk id (fun l here => .inl (here ▸ rfl)) rfl ?_
  refine endsAsk (t := { relocated 1 ptr [] σ with calls := [] }) id (fun l here => .inl (here ▸ rfl)) rfl ?_
  rw [fits]
  have word : load (relocated 1 ptr [] σ).mem (roundDown (σ.highVaddr + ptr % pageSize) pageSize) 4 =
      some t := by
    rw [base]
    exact (loadShift fun i hi => whole i (by simp only [pageSize]; omega)).trans header
  have there : Mapped (relocated 1 ptr [] σ).mem (σ.highVaddr + ptr % pageSize) 8 := by
    intro i hi
    refine ne_of_eq_of_ne ?_ (page (ptr % pageSize + i) (by omega))
    exact (congrArg _ (Nat.add_assoc _ _ _)).trans (whole (ptr % pageSize + i) (by omega))
  have top : Access.perform (.loadTop t) (relocated 1 ptr [] σ) =
      .ok (σ.gFlsts t).topOfStack (relocated 1 ptr [] σ) := bindOk (getFlstRun cls _)
  refine endsAsk id (fun l here => bytesGuarded (fun i short => ?_) here) (readWordOk word) ?_
  · rw [base]
    exact target i (by simp only [pageSize]; omega)
  · rw [small]
    refine endsAsk id (fun l here => .inl (here ▸ rfl)) top ?_
    refine endsAsk id (fun l here => bytesGuarded (fun i short => ?_) here)
      (bindOk (writeWordOk there _)) ?_
    · rw [Nat.add_assoc]
      exact target _ (by omega)
    · exact endsLast id (fun l here => .inl (here ▸ rfl)) rfl

end Nuaf.LockedThreads
