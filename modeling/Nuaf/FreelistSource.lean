import Nuaf.Machine

/-! freelist.c. The locked callers are in `AllocatorSource`; NULL is 0, and the pointer
`high_vaddr` the source passes is always the address of the global. -/
namespace Nuaf.Source
open Layout Machine

def freelistInit : AllocM Unit :=
  modify fun σ => { σ with gFlsts := fun i =>
    if i < numBlockTypes then ⟨0, i * pageSize + byteAlignment⟩ else σ.gFlsts i }

def freelistPush (objVaddr : Nat) : AllocM Unit := do
  let word ← readWord (roundDown objVaddr pageSize) 4
  let t := asInt word
  let fl ← getFlst t
  writeWord objVaddr 8 fl.topOfStack
  setFlst t { fl with topOfStack := objVaddr }

def markPage (beginning t : Nat) : AllocM Unit := do
  let word ← readWord beginning 4
  if asInt word ≠ t then writeWord beginning 4 t else pure ()

/- The branch of freelist_pop taken when the stack of class `t` is empty: a fresh page of
the file is mapped at high_vaddr and the next canonical object is cut from it. -/
def carve (k : Kernel) (t : Nat) (fl : Freelist) : AllocM Nat := do
  let highVaddr := (← get).highVaddr
  let offset := roundDown fl.highCanonicalAddr pageSize
  let beginning ← mmap k highVaddr pageSize offset
  if beginning = mapFailed ∨ beginning = 0 then throw (.exit 1)
  else do
    modify fun σ => { σ with numMappings := wrap (σ.numMappings + 1) }
    touchFile beginning offset
    markPage beginning t
    modify fun σ => { σ with highVaddr := wrap (highVaddr + pageSize) }
    setFlst t { fl with highCanonicalAddr := nextCanonical t fl.highCanonicalAddr }
    pure (beginning + fl.highCanonicalAddr % pageSize)

def freelistPop (k : Kernel) (objSize : Nat) : AllocM Nat := do
  let t := blockType objSize
  let fl ← getFlst t
  if fl.topOfStack = 0 then carve k t fl
  else do
    let link ← readWord fl.topOfStack 8
    setFlst t { fl with topOfStack := link }
    pure fl.topOfStack

end Nuaf.Source
