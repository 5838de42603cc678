import Nuaf.OnePage
import Nuaf.SequentialInvariant

/-! high_vaddr never goes back: a program that frees and reallocates one 16-byte block takes
a new page each time, over any distance. Nothing in the source stops it at
LARGE_OBJ_VADDR_START, so the runs here are the ones README's limit excludes. -/
namespace Nuaf.Exhaustion
open Layout ByteMemory Machine Source Heap Nuaf.Sequential

def blockAt (serial g : Nat) : Block := ⟨serial, 0, pageSize * g + 16, 16⟩

variable {base : Memory} {bigs : List Block} {kept : Arrays} {g : Nat} {h : History} {σ σ' : State}
  {within : State → Prop}

structure Cycling (base : Memory) (bigs : List Block) (kept : Arrays) (g : Nat) (h : History)
    (σ : State) : Prop where
  mem : σ.mem = pageOver base g
  high : σ.highVaddr = pageSize * (g + 1)
  top : (σ.gFlsts 0).topOfStack = 0
  par : σ.parPs = 1
  block : ∃ serial, live h = blockAt serial g :: bigs ∧ (ledger h).free 0 = []
  arrays : ∀ p, pageSize * g + 16 < p → arrays h p = kept p

structure Resting (base : Memory) (bigs : List Block) (kept : Arrays) (g : Nat) (h : History)
    (σ : State) : Prop where
  mem : σ.mem = pageOver base g
  high : σ.highVaddr = pageSize * (g + 1)
  top : (σ.gFlsts 0).topOfStack = pageSize * g + 16
  par : σ.parPs = 1
  block : ∃ serial, live h = bigs ∧ (ledger h).free 0 = [blockAt serial g]
  arrays : ∀ p, pageSize * g + 16 ≤ p → arrays h p = kept p

theorem blockAtSmall (serial g : Nat) : (blockAt serial g).Small :=
  (by decide : 16 ≤ largestBlockSize)

theorem cyclingPage (at' : Cycling base bigs kept g h σ) : OnPage base g σ.clear :=
  ⟨at'.mem, at'.high, at'.par⟩

theorem cycleCall (at' : Cycling base bigs kept g h σ)
    (below : pageSize * g + pageSize ≤ largeObjVaddrStart) :
    ∃ earlier, xxfree steady (pageSize * g + 16) σ.clear = .ok ()
      (recycled 0 (pageSize * g + 16)
        (.mremap (pageSize * g) pageSize pageSize (pageSize * (g + 1)) :: earlier) σ.clear) := by
  have on := cyclingPage at'
  obtain ⟨small, usable, start⟩ := onPageReads on below
  obtain ⟨earlier, freed⟩ := onPageMoves on below
  refine ⟨earlier, ?_⟩
  rw [xxfreeRun at'.par (by omega) usable start, if_neg (by simp [small]), freed]

theorem cycleFree (at' : Cycling base bigs kept g h σ)
    (below : pageSize * g + pageSize ≤ largeObjVaddrStart)
    (vacant : ∀ a, a / pageSize = g → base a = none)
    (large : ∀ b ∈ bigs, largeObjVaddrStart ≤ b.ptr)
    (limit : ∀ σ, σ.highVaddr = pageSize * (g + 2) → within σ) :
    ∃ e σ', Step (reliably 1) within h σ e σ' ∧ Resting base bigs kept (g + 1) (e :: h) σ' ∧
      Gone (e :: h) g := by
  obtain ⟨serial, owned, empty⟩ := at'.block
  obtain ⟨_, offset, down⟩ := pageSlot g
  obtain ⟨earlier, call⟩ := cycleCall at' below
  have high : σ.clear.highVaddr = pageSize * (g + 1) := at'.high
  obtain ⟨moved, top⟩ := onPageMoved (cyclingPage at') at'.top below vacant
  have found : (ledger h).find (blockAt serial g).ptr = some (blockAt serial g) := by
    refine (congrArg (List.find? _) owned).trans (List.find?_cons_of_pos ?_)
    exact decide_eq_true (insideSelf _ _)
  have rest : (blockAt serial g :: bigs).filter (fun c => c.ptr ≠ (blockAt serial g).ptr) = bigs := by
    rw [List.filter_cons_of_neg (by simp), List.filter_eq_self]
    intro b member
    have := large b member
    simp only [blockAt, pageSize] at *
    exact decide_eq_true (by omega)
  have page : (blockAt serial g).Page g :=
    (spansSmall (blockAtSmall serial g)).mpr (pageSlot g).1.symm
  refine ⟨_, _, .returned (v := 0) ⟨steadyReliable, .xxfree (b := blockAt serial g) ?_⟩ (bindOk call)
    (limit _ moved.high), ⟨moved.mem, moved.high, top, at'.par, ⟨serial, ?_, ?_⟩, fun p past => ?_⟩,
    .inr ⟨_, _, _, rfl, rfl, found, page⟩⟩
  · rw [owned]
    exact List.mem_cons_self
  · rw [live, ledgerFree found, Ledger.release, if_pos (blockAtSmall serial g)]
    exact (congrArg (List.filter _) owned).trans rest
  · rw [ledgerFree found, Ledger.release, if_pos (blockAtSmall serial g)]
    have slot : (blockAt serial g).ptr % pageSize = 16 := offset
    simp only [Function.update_self, slot, empty, recycled, pushed, relocated, movedTo,
      show (blockAt serial g).cls = 0 from rfl]
    rfl
  · exact at'.arrays p (by simp only [pageSize] at *; omega)

theorem popCall (at' : Resting base bigs kept g h σ) :
    exec steady (.xxmalloc 16) σ.clear = .ok (pageSize * g + 16) (popped 0 0 σ.clear) := by
  have on : OnPage base g σ.clear := ⟨at'.mem, at'.high, at'.par⟩
  exact (mallocSmall at'.par (by decide)).trans (onPagePops on at'.top).1

theorem cyclePop (at' : Resting base bigs kept g h σ)
    (limit : ∀ σ, σ.highVaddr = pageSize * (g + 1) → within σ) :
    ∃ e σ', Step (reliably 1) within h σ e σ' ∧ Cycling base bigs kept g (e :: h) σ' := by
  obtain ⟨serial, owned, free⟩ := at'.block
  have cls : blockType 16 = 0 := by decide
  have on : OnPage base g σ.clear := ⟨at'.mem, at'.high, at'.par⟩
  obtain ⟨_, _, top⟩ := onPagePops on at'.top
  have next : ledger (⟨.xxmalloc 16, .value (pageSize * g + 16), []⟩ :: h) = { ledger h with
      live := blockAt serial g :: (ledger h).live
      free := Function.update (ledger h).free 0 [] } := by
    simp only [ledger, Ledger.apply, Ledger.malloc, cls, free, if_pos (by decide : 16 ≤ largestBlockSize)]
    rfl
  refine ⟨_, _, .returned ⟨steadyReliable, .xxmalloc 16⟩ (popCall at') (limit _ at'.high), at'.mem, at'.high,
    top, at'.par, ⟨serial, ?_, ?_⟩, fun p past => ?_⟩
  · exact (congrArg Ledger.live next).trans (congrArg _ owned)
  · refine (congrArg (fun l => Ledger.free l 0) next).trans ?_
    simp
  · exact (Function.update_of_ne (by omega) _ _).trans (at'.arrays p (Nat.le_of_lt past))

theorem carveCall (par : σ.parPs = 1) (empty : (σ.gFlsts 0).topOfStack = 0)
    (started : 0 < σ.highVaddr) (room : σ.highVaddr + pageSize ≤ taskSize)
    (file : roundDown (σ.gFlsts 0).highCanonicalAddr pageSize < σ.fileSize) :
    exec steady (.xxmalloc 16) σ.clear =
      .ok (σ.highVaddr + (σ.gFlsts 0).highCanonicalAddr % pageSize)
        (carved 0 (σ.gFlsts 0) σ.clear) := by
  have cls : blockType 16 = 0 := by decide
  have top : (σ.clear.gFlsts (blockType 16)).topOfStack = 0 := by
    rw [cls]
    exact empty
  rw [exec, xxmalloc, bindOk (ensureInitRun par), if_neg (by decide), popEmpty (by decide) top, cls]
  exact @carveRun steady σ.clear 0 (σ.gFlsts 0) rfl started room file

theorem cycleBegin (par : σ.parPs = 1) (high : σ.highVaddr = mmapMinAddr)
    (flst : σ.gFlsts 0 = ⟨0, 16⟩) (file : 0 < σ.fileSize) (free : (ledger h).free 0 = [])
    (limit : ∀ σ, σ.highVaddr = mmapMinAddr + pageSize → within σ) :
    ∃ e σ', Step (reliably 1) within h σ e σ' ∧
      Cycling σ.mem (live h) (arrays h) firstPage (e :: h) σ' := by
  obtain ⟨served, on, top⟩ := @onPageCarves σ.clear par high flst file
  have call : exec steady (.xxmalloc 16) σ.clear =
      .ok (pageSize * firstPage + 16) (carved 0 ⟨0, 16⟩ σ.clear) := by
    rw [exec, xxmalloc, bindOk (ensureInitRun par), if_neg (by decide), served]
  have next : ∀ calls, ledger (⟨.xxmalloc 16, .value (pageSize * firstPage + 16), calls⟩ :: h) =
      (ledger h).make 16 (pageSize * firstPage + 16) := by
    intro calls
    simp only [ledger, Ledger.apply, Ledger.malloc, show blockType 16 = 0 by decide, free,
      if_pos (by decide : 16 ≤ largestBlockSize)]
  refine ⟨_, _, .returned ⟨steadyReliable, .xxmalloc 16⟩ call (limit _ on.high), on.mem, on.high,
    top, par, ⟨(ledger h).made, ?_, ?_⟩, fun p past => ?_⟩
  · exact congrArg Ledger.live (next _)
  · exact (congrArg (fun l => Ledger.free l 0) (next _)).trans free
  · exact Function.update_of_ne (by omega) _ _

section
variable (vacant : ∀ a, a < largeObjVaddrStart → base a = none)
  (large : ∀ b ∈ bigs, largeObjVaddrStart ≤ b.ptr)
include vacant large

theorem cycleRounds (n : Nat) (run : Run 1 (reliably 1) within h σ)
    (at' : Cycling base bigs kept g h σ) (below : pageSize * (g + n) ≤ largeObjVaddrStart)
    (limit : ∀ σ, σ.highVaddr ≤ pageSize * (g + n + 1) → within σ) :
    ∃ h σ, Run 1 (reliably 1) within h σ ∧ Cycling base bigs kept (g + n) h σ := by
  induction n with
  | zero => exact ⟨h, σ, run, at'⟩
  | succ n ih =>
    obtain ⟨h, σ, run, at'⟩ := ih (by simp only [pageSize] at *; omega)
      fun σ high => limit σ (by simp only [pageSize] at *; omega)
    have room : pageSize * (g + n) + pageSize ≤ largeObjVaddrStart := by
      simp only [pageSize] at *
      omega
    obtain ⟨e, σ₁, freed, rest, _⟩ := cycleFree at' room
      (fun a page => vacant a (by simp only [pageSize] at *; omega)) large
      fun σ high => limit σ (by simp only [pageSize] at *; omega)
    obtain ⟨e', σ₂, popped, next⟩ := cyclePop rest
      fun σ high => limit σ (by simp only [pageSize] at *; omega)
    exact ⟨_, _, .next (.next run freed) popped, next⟩

end

def bigBlock : Block := ⟨0, blockType 4096, largeObjVaddrStart + 16, 4096⟩

def besideBig : State := bigDone (bigPages 4096) begun.clear

def besideByte : State := wrote (bigBlock.ptr + 0) 1 (1 : UInt8).toNat besideBig.clear

def bigHistory : History := [⟨.xxmalloc 4096, .value bigBlock.ptr, besideBig.calls⟩]

def byteHistory : History := ⟨.store bigBlock.ptr 0 1, .value 0, []⟩ :: bigHistory

theorem bigCall : exec steady (.xxmalloc 4096) begun.clear = .ok bigBlock.ptr besideBig := by
  have served := @xxmallocBigRun steady begun.clear 4096 (by decide) (by decide) rfl
  rw [exec, xxmalloc, bindOk (ensureInitRun rfl), if_pos (by decide), served]
  rfl

theorem bigRun (limit : within besideBig) : Run 1 (reliably 1) within bigHistory besideBig :=
  .next (.init begunStarted) (.returned ⟨steadyReliable, .xxmalloc 4096⟩ bigCall limit)

theorem byteRun (limits : within besideBig ∧ within besideByte) :
    Run 1 (reliably 1) within byteHistory besideByte := by
  obtain ⟨own, sound⟩ := runSound (runWiden reliablyWider (@bigRun Within (by decide)))
  have owned : bigBlock ∈ live bigHistory := by decide
  have inside : 0 < usableOf bigBlock.size := by decide
  refine .next (bigRun limits.1) (.returned ⟨steadyReliable, .store owned ?_⟩
    (storeServes sound owned inside 1) limits.2)
  exact (usableIndex sound owned).mpr inside

theorem byteHoles (a : Nat) (below : a < largeObjVaddrStart) : besideByte.mem a = none := by
  refine (writeOut ?_).trans (bigHoles a below)
  simp only [bigBlock]
  omega

theorem bigAbove : ∀ b ∈ [bigBlock], largeObjVaddrStart ≤ b.ptr := by decide

theorem roundsBeside (n : Nat) (below : pageSize * (firstPage + n) ≤ largeObjVaddrStart)
    (limit : ∀ σ, σ.highVaddr ≤ pageSize * (firstPage + n + 1) → within σ) :
    ∃ h σ, Run 1 (reliably 1) within h σ ∧
      Cycling besideByte.mem [bigBlock] (arrays byteHistory) (firstPage + n) h σ := by
  have first : ∀ σ, σ.highVaddr ≤ mmapMinAddr + pageSize → within σ := fun σ high =>
    limit σ (by simp only [firstPage, mmapMinAddr, pageSize] at *; omega)
  have beside := byteRun ⟨first besideBig (by decide), first besideByte (by decide)⟩
  obtain ⟨e, σ₁, carved, start⟩ := @cycleBegin byteHistory besideByte within rfl rfl rfl
    (by decide : 0 < dataSize) rfl fun σ high => first σ (Nat.le_of_eq high)
  exact cycleRounds byteHoles bigAbove n (.next beside carved) start below limit

theorem freedFirst : ∃ e h σ, Run 1 (reliably 1) Within (e :: h) σ ∧
    Resting besideByte.mem [bigBlock] (arrays byteHistory) (firstPage + 1) (e :: h) σ ∧
    Gone (e :: h) firstPage := by
  obtain ⟨h, σ, run, at'⟩ := @roundsBeside Within 0 (by decide) fun σ high =>
    Nat.le_trans high (by decide)
  obtain ⟨e, σ', freed, rest, gone⟩ := @cycleFree _ _ _ _ h σ Within at' (by decide)
    (fun a page => byteHoles a (by
      simp only [firstPage, mmapMinAddr, pageSize, largeObjVaddrStart] at *; omega))
    bigAbove fun σ high => Nat.le_trans (Nat.le_of_eq high) (by decide)
  exact ⟨e, h, σ', .next run freed, rest, gone⟩

theorem roundsToLarge (limit : ∀ σ, within σ) : ∃ h σ, Run 1 (reliably 1) within h σ ∧
    Resting besideByte.mem [bigBlock] (arrays byteHistory) largePage h σ := by
  obtain ⟨h, σ, run, last⟩ := roundsBeside (largePage - 1 - firstPage) (by decide) fun σ _ => limit σ
  rw [show firstPage + (largePage - 1 - firstPage) = largePage - 1 by decide] at last
  obtain ⟨e', σ', freed, rest, _⟩ := cycleFree last (by decide)
    (fun a page => byteHoles a (by simp only [pageSize, largeObjVaddrStart, largePage] at *; omega))
    bigAbove fun σ _ => limit σ
  exact ⟨_, _, .next run freed, rest⟩

theorem roundsOverLarge (limit : ∀ σ, within σ) : ∃ h σ, Run 1 (reliably 1) within h σ ∧
    Cycling besideByte.mem [bigBlock] (arrays byteHistory) largePage h σ := by
  obtain ⟨h, σ, run, rest⟩ := roundsToLarge limit
  obtain ⟨e, σ', popped, next⟩ := cyclePop rest fun σ _ => limit σ
  exact ⟨_, _, .next run popped, next⟩

end Nuaf.Exhaustion
