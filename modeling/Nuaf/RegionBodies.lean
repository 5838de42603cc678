import Nuaf.Accesses
import Nuaf.Footprint
import Nuaf.Locks

/-! The locked regions, access by access, in the order of the source. Run alone each of them is the
function of the source; the rest of the development is about running them among others. -/
namespace Nuaf.Accesses
open Layout ByteMemory Machine Source CallTree LocalSections Outcomes
open Locks (Region)

abbrev Body := Program Access Nat

def stop (e : Halt) : Body Nat := ask (.stop e)

/- num_mappings++ and num_mappings--: a load and a store, with no lock of its own. -/
def countUp : Body Nat := do
  let n ← ask .loadCount
  ask (.storeCount (wrap (n + 1)))

def countDown : Body Nat := do
  let n ← ask .loadCount
  ask (.storeCount (subWrap n 1))

def markBody (beginning t : Nat) : Body Nat := do
  let word ← ask (.load beginning 4)
  if asInt word ≠ t then ask (.store beginning 4 t) else pure 0

def advanceBody (t : Nat) : Body Nat := do
  let canonical ← ask (.loadCanonical t)
  let _ ← ask (.storeCanonical t (canonical + blockSize t))
  let next ← ask (.loadCanonical t)
  if next % pageSize = 0 ∨ pageSize - 2 * blockSize t ≤ next % pageSize then do
    let next ← ask (.loadCanonical t)
    ask (.storeCanonical t (roundUp next pageSize + pageSize * (numBlockTypes - 1) + byteAlignment))
  else pure 0

def carveBody (k : Kernel) (t : Nat) : Body Nat := do
  let target ← ask .loadHigh
  let canonical ← ask (.loadCanonical t)
  let offset := roundDown canonical pageSize
  let beginning ← ask (.mmap k target pageSize offset)
  if beginning = mapFailed ∨ beginning = 0 then stop (.exit 1)
  else do
    let _ ← countUp
    let _ ← ask (.touch beginning offset)
    let _ ← markBody beginning t
    let highVaddr ← ask .loadHigh
    let _ ← ask (.storeHigh (wrap (highVaddr + pageSize)))
    let canonical ← ask (.loadCanonical t)
    let _ ← advanceBody t
    pure (beginning + canonical % pageSize)

def popBody (k : Kernel) (objSize : Nat) : Body Nat := do
  let t := blockType objSize
  let top ← ask (.loadTop t)
  if top = 0 then carveBody k t
  else do
    let objVaddr ← ask (.loadTop t)
    let link ← ask (.load objVaddr 8)
    let _ ← ask (.storeTop t link)
    pure objVaddr

def mapBody (k : Kernel) (numPages : Nat) : Body Nat := do
  let target ← ask .loadNext
  let shadow ← ask (.mmap k target (wrap (numPages * pageSize)) 0)
  let next ← ask .loadNext
  if shadow = mapFailed ∨ shadow ≠ next then stop (.exit 1)
  else do
    let _ ← countUp
    let next ← ask .loadNext
    let _ ← ask (.storeNext (wrap (next + wrap (pageSize * numPages))))
    pure shadow

def remapBody (k : Kernel) (page : Nat) : Nat → Nat → Body (Nat × Nat)
  | 0, i => pure (mapFailed, i)
  | fuel + 1, i => do
    let target ← ask .loadHigh
    let newVpage ← ask (.mremap (k.attempt i) page (pageSize * i) pageSize target)
    if newVpage = mapFailed ∧ i + 1 < 100 then remapBody k page fuel (i + 1)
    else pure (newVpage, i + 1)

def pushBody (objVaddr : Nat) : Body Nat := do
  let word ← ask (.load (roundDown objVaddr pageSize) 4)
  let t := asInt word
  let top ← ask (.loadTop t)
  let _ ← ask (.store objVaddr 8 top)
  ask (.storeTop t objVaddr)

def moveBody (k : Kernel) (ptr : Nat) : Body Nat := do
  let (newVpage, i) ← remapBody k (roundDown ptr pageSize) 99 1
  if i = 100 then stop (.exit 1)
  else do
    let highVaddr ← ask .loadHigh
    let _ ← ask (.storeHigh (wrap (highVaddr + pageSize)))
    pushBody (wrap (newVpage + ptr % pageSize))

def regionBody (k : Kernel) : Region → Body Nat
  | .pop size => popBody k size
  | .map size => mapBody k (bigPages size)
  | .move ptr => moveBody k ptr

def unmapBody (ptr objSize : Nat) : Body Nat := do
  let _ ← ask (.munmap (roundDown ptr pageSize) (wrap (roundUp objSize pageSize)))
  countDown

variable {k : Kernel} {σ σ' : State} {α β : Type}

theorem runAsk (op : Access) : device.run (ask op) = op.perform := bind_pure _

theorem runPure (a : α) : device.run (pure a : Body α) = pure a := rfl

theorem runIte {p : Prop} [Decidable p] (x y : Body α) :
    device.run (if p then x else y) = if p then device.run x else device.run y := by
  split <;> rfl

theorem bindOn {x : AllocM α} {f g : α → AllocM β} (agree : ∀ a σ', x σ = .ok a σ' → f a σ' = g a σ') :
    (x >>= f) σ = (x >>= g) σ := by
  simp only [bind, EStateM.bind]
  split
  · rename_i a τ run
    exact agree a τ run
  · rfl

theorem unlistedOk {x : AllocM α} {a : α} (quiet : Respects Unlisted x) (run : x σ = .ok a σ') :
    σ'.gFlsts = σ.gFlsts := by
  have kept := quiet σ
  rwa [finalOk run] at kept

theorem countUpRun : device.run countUp =
    (do modify fun σ => { σ with numMappings := wrap (σ.numMappings + 1) }; pure 0) := rfl

theorem markRun (beginning t : Nat) :
    device.run (markBody beginning t) = (do markPage beginning t; pure 0) := by
  simp only [markBody, runBind, runAsk, runIte, runPure, Access.perform, markPage, bind_assoc]
  refine bind_congr fun word => ?_
  split <;> rfl

theorem mmapInv {addr length offset v : Nat} (done : Machine.mmap k addr length offset σ = .ok v σ') :
    ∃ m calls, σ' = { σ with mem := m, calls := calls } := by
  obtain ⟨calls, run⟩ := mmapSteps k addr length offset σ
  cases run.symm.trans done
  exact ⟨_, _, rfl⟩

theorem markInv {beginning t : Nat} (done : markPage beginning t σ = .ok () σ') :
    ∃ m, σ' = { σ with mem := m } := by
  obtain ⟨word, σ₁, read, rest⟩ := bindInv done
  obtain ⟨_, rfl⟩ := loadInv read
  split at rest
  · obtain ⟨_, _, rfl⟩ := storeInv (bindOk rest)
    exact ⟨_, rfl⟩
  · cases rest
    exact ⟨_, rfl⟩

theorem advanceSource (t : Nat) (range : t < numBlockTypes) (σ : State) :
    ∃ v, device.run (advanceBody t) σ =
      .ok v (setCanonical t (nextCanonical t (σ.gFlsts t).highCanonicalAddr) σ) := by
  simp only [advanceBody, runBind, runAsk, runIte, runPure, Access.perform, bind_assoc, pure_bind]
  rw [bindOk (getFlstRun range σ), bindOk (modifyRun _ _), bindOk (getFlstRun range _)]
  simp only [setCanonical, Int.toNat_natCast, Function.update_self, nextCanonical]
  split
  · rw [bindOk (getFlstRun range _), bindOk (modifyRun _ _)]
    refine ⟨0, congrArg (EStateM.Result.ok 0) ?_⟩
    simp only [setCanonical, Int.toNat_natCast, Function.update_self, Function.update_idem]
  · exact ⟨_, rfl⟩

theorem carveSource (t : Nat) (range : t < numBlockTypes) (σ : State) :
    device.run (carveBody k t) σ = carve k t (σ.gFlsts t) σ := by
  simp only [carveBody, runBind, runAsk, runIte, runPure, Access.perform, bind_assoc, pure_bind,
    countUpRun, markRun, stop]
  rw [bindOk (getRun σ), bindOk (getFlstRun range σ), carve, bindOk (getRun σ)]
  refine bindOn fun beginning σ₁ mapped => ?_
  obtain ⟨m, calls, rfl⟩ := mmapInv mapped
  split
  · rfl
  · rw [bindOk (modifyRun _ _), bindOk (modifyRun _ _)]
    refine bindOn fun _ σ₂ touched => bindOn fun _ σ₃ marked => ?_
    obtain ⟨_, _, rfl⟩ := touchInv (bindOk touched)
    obtain ⟨m', rfl⟩ := markInv marked
    rw [bindOk (getRun _), bindOk (modifyRun _ _), bindOk (getFlstRun range _), bindOk (modifyRun _ _)]
    obtain ⟨v, advanced⟩ := advanceSource t range _
    rw [bindOk advanced]
    rfl

theorem popSource (size : Nat) : device.run (popBody k size) = freelistPop k size := by
  funext σ
  simp only [popBody, runBind, runAsk, runIte, runPure, Access.perform, freelistPop, bind_assoc,
    pure_bind]
  refine bindOn fun fl σ' found => ?_
  obtain ⟨range, rfl, rfl⟩ := flstInv found
  split
  · exact carveSource _ (by exact_mod_cast range.2) _
  · rw [bindOk found]
    refine bindOn fun link σ'' read => ?_
    obtain ⟨_, rfl⟩ := loadInv read
    rfl

theorem mapSource (numPages : Nat) : device.run (mapBody k numPages) = bigMap k numPages := by
  funext σ
  simp only [mapBody, runBind, runAsk, runIte, runPure, Access.perform, bigMap, bind_assoc, pure_bind,
    countUpRun, stop]
  rw [bindOk (getRun σ), bindOk (getRun σ)]
  refine bindOn fun shadow σ' mapped => ?_
  obtain ⟨m, calls, rfl⟩ := mmapInv mapped
  rw [bindOk (getRun _)]
  split <;> rfl

theorem remapSource (page fuel i : Nat) (σ : State) :
    device.run (remapBody k page fuel i) σ = remapLoop k page σ.highVaddr fuel i σ ∧
      ∃ answer m calls, remapLoop k page σ.highVaddr fuel i σ =
        .ok answer { σ with mem := m, calls := calls } := by
  induction fuel generalizing i σ with
  | zero => exact ⟨rfl, _, _, _, rfl⟩
  | succ fuel ih =>
    simp only [remapBody, runBind, runAsk, runIte, runPure, Access.perform, remapLoop, bind_assoc, pure_bind]
    obtain ⟨calls, run⟩ := mremapSteps (k.attempt i) page (pageSize * i) pageSize σ.highVaddr σ
    rw [bindOk (getRun σ), bindOk run, bindOk run]
    split
    · obtain ⟨same, answer, m, calls', loop⟩ := ih (i + 1)
        { σ with mem := (remapped (k.attempt i) page (pageSize * i) pageSize σ.highVaddr σ.mem).2, calls := calls }
      exact ⟨same, answer, m, calls', loop⟩
    · exact ⟨rfl, _, _, _, rfl⟩

theorem pushSource (objVaddr : Nat) :
    device.run (pushBody objVaddr) = (do freelistPush objVaddr; pure 0) := by
  funext σ
  simp only [pushBody, runBind, runAsk, Access.perform, freelistPush, bind_assoc, pure_bind]
  refine bindOn fun word σ₁ read => bindOn fun fl σ₂ found => bindOn fun _ σ₃ wrote => ?_
  obtain ⟨range, rfl, rfl⟩ := flstInv found
  simp only [modifyRun, setFlst, bind, EStateM.bind, setTop,
    unlistedOk (keepsWriteWord unlistedBlind _ _ _) wrote]

theorem moveSource (ptr : Nat) : device.run (moveBody k ptr) = (do freeSmall k ptr; pure 0) := by
  funext σ
  obtain ⟨same, ⟨newVpage, i⟩, m, calls, loop⟩ := @remapSource k (roundDown ptr pageSize) 99 1 σ
  simp only [moveBody, runBind, runAsk, runIte, Access.perform, freeSmall, bind_assoc,
    pure_bind, pushSource, stop]
  rw [bindOk (same.trans loop), bindOk (getRun σ), bindOk loop]
  dsimp only
  split
  · rfl
  · rw [bindOk (getRun _)]
    rfl

/- What is run under a lock, access by access, is the locked part of the source function. -/
theorem regionSource (r : Region) : device.run (regionBody k r) = r.body k := by
  cases r with
  | pop size => exact popSource size
  | map size => exact mapSource (bigPages size)
  | move ptr => exact moveSource ptr

theorem unmapSource (ptr objSize : Nat) :
    device.run (unmapBody ptr objSize) = (do freeLarge ptr objSize; pure 0) := rfl

end Nuaf.Accesses
