import Nuaf.FreelistSource

/-! allocator.c. The parts under a mutex are definitions of their own, so that a thread can take
each of them as one step: `bigMap` of xxmalloc_big, `freeSmall` of xxfree, whose other branch is
`freeLarge`. `initBody` is init_mem past its test of par_ps. -/
namespace Nuaf.Source
open Layout Machine

def initBody (k : Kernel) : AllocM Unit := do
  modify fun σ => { σ with
    dataFd := 0, parPs := k.pid, highVaddr := mmapMinAddr,
    largeObjNextPage := largeObjVaddrStart, numMappings := 0 }
  record .sigaction
  if k.sigactionOk then
    record .mkstemp
    modify fun σ => { σ with dataFd := k.mkstemp, fileSize := 0 }
    if k.mkstemp = -1 then throw (.exit 1)
    else
      record (.ftruncate dataSize)
      modify fun σ => { σ with fileSize := if k.ftruncateOk then dataSize else 0 }
      freelistInit
  else throw (.exit 2)

def initMem (k : Kernel) : AllocM Unit := do
  if (← get).parPs = k.pid then pure () else initBody k

/- `if (!data_fd) init_mem();`, which opens xxmalloc and xxfree. -/
def ensureInit (k : Kernel) : AllocM Unit := do
  if (← get).dataFd = 0 then initMem k else pure ()

def bigMap (k : Kernel) (numPages : Nat) : AllocM Nat := do
  let next := (← get).largeObjNextPage
  let shadow ← mmap k next (wrap (numPages * pageSize)) 0
  if shadow = mapFailed ∨ shadow ≠ next then throw (.exit 1)
  else do
    modify fun σ => { σ with
      numMappings := wrap (σ.numMappings + 1),
      largeObjNextPage := wrap (next + wrap (pageSize * numPages)) }
    pure shadow

def xxmallocBig (k : Kernel) (size : Nat) : AllocM Nat := do
  let size := wrap (size + 16)
  let numPages := size / pageSize + 1
  let shadow ← bigMap k numPages
  writeWord shadow 8 largeObjStartMagic
  writeWord (shadow + 8) 8 numPages
  pure (shadow + 16)

def xxmalloc (k : Kernel) (size : Nat) : AllocM Nat := do
  ensureInit k
  if largestBlockSize < size then xxmallocBig k size else freelistPop k size

/- The downward scan for the header of a large object, as page numbers: the pointer only
matters through its page. Below page 0 it would wrap to an address no process has. -/
def scanHeader : Nat → AllocM Nat
  | 0 => do
    let word ← readWord (pageSize * 0) 8
    if word = largeObjStartMagic then pure 0 else throw (.segv (subWrap 0 pageSize))
  | page + 1 => do
    let word ← readWord (pageSize * (page + 1)) 8
    if word = largeObjStartMagic then pure (page + 1) else scanHeader page

def xxmallocUsableSize (ptr : Nat) : AllocM Nat := do
  if ptr = 0 then pure 0
  else if isLarge ptr then
    let page ← scanHeader (ptr / pageSize)
    let numPages ← readWord (pageSize * page + 8) 8
    pure (subWrap (wrap (numPages * pageSize)) 16)
  else
    let word ← readWord (roundDown ptr pageSize) 4
    let shift := asInt word + magicNumber
    if 0 ≤ shift ∧ shift < 31 then pure (1 <<< shift.toNat) else throw .undefined

def getObjStart (ptr objSize : Nat) : AllocM Nat := do
  if isLarge ptr then
    let page ← scanHeader (ptr / pageSize)
    pure (pageSize * page)
  else pure (wrap (roundDown (subWrap ptr byteAlignment) objSize + byteAlignment))

def freeLarge (ptr objSize : Nat) : AllocM Unit := do
  munmap (roundDown ptr pageSize) (wrap (roundUp objSize pageSize))
  modify fun σ => { σ with numMappings := subWrap σ.numMappings 1 }

/- The mremap loop. `fuel` counts the attempts still allowed; the source tests `i < 100`
after its increment, so started at 1 with fuel 99 the two run out together. -/
def remapLoop (k : Kernel) (page target : Nat) : Nat → Nat → AllocM (Nat × Nat)
  | 0, i => pure (mapFailed, i)
  | fuel + 1, i => do
    let newVpage ← mremap (k.attempt i) page (pageSize * i) pageSize target
    if newVpage = mapFailed ∧ i + 1 < 100 then remapLoop k page target fuel (i + 1)
    else pure (newVpage, i + 1)

def freeSmall (k : Kernel) (ptr : Nat) : AllocM Unit := do
  let highVaddr := (← get).highVaddr
  let (newVpage, i) ← remapLoop k (roundDown ptr pageSize) highVaddr 99 1
  if i = 100 then throw (.exit 1)
  else do
    modify fun σ => { σ with highVaddr := wrap (highVaddr + pageSize) }
    freelistPush (wrap (newVpage + ptr % pageSize))

def xxfree (k : Kernel) (ptr : Nat) : AllocM Unit := do
  ensureInit k
  if ptr = 0 then pure ()
  else
    let objSize ← xxmallocUsableSize ptr
    let start ← getObjStart ptr objSize
    if isLarge start then freeLarge start objSize else freeSmall k start

end Nuaf.Source
