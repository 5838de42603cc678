import Nuaf.Layout
import Nuaf.Library.ByteMemory

/-! The process as the allocator sees it: its globals, the memory of the two regions it
hands out, and the kernel calls of the operation in progress, newest first. What the kernel may
decide is in `Kernel`. -/
namespace Nuaf.Machine
open Layout ByteMemory

structure Freelist where
  topOfStack : Nat
  highCanonicalAddr : Nat
  deriving DecidableEq, Repr

inductive Call where
  | mmap (addr length offset : Nat)
  | munmap (addr length : Nat)
  | mremap (old oldLength newLength new : Nat)
  | sigaction
  | mkstemp
  | ftruncate (length : Nat)
  deriving DecidableEq, Repr

structure State where
  mem : Memory
  fileSize : Nat
  numMappings : Nat
  dataFd : Int
  highVaddr : Nat
  largeObjNextPage : Nat
  parPs : Nat
  gFlsts : Nat → Freelist
  calls : List Call

inductive Halt where
  | segv (addr : Nat)
  | bus (addr : Nat)
  | exit (code : Nat)
  | undefined
  deriving DecidableEq, Repr

/- One mremap attempt: a refused one may still have cut the source range down. -/
structure Attempt where
  grants : Bool
  trims : Bool
  deriving DecidableEq, Repr

structure Kernel where
  pid : Nat
  sigactionOk : Bool
  mkstemp : Int
  ftruncateOk : Bool
  mmapGrants : Bool
  attempt : Nat → Attempt

abbrev AllocM := EStateM Halt State

def image : State where
  mem := fun _ => none
  fileSize := 0
  numMappings := 0
  dataFd := 0
  highVaddr := mmapMinAddr
  largeObjNextPage := largeObjVaddrStart
  parPs := 0
  gFlsts := fun _ => ⟨0, 0⟩
  calls := []

def State.clear (σ : State) : State := { σ with calls := [] }

def setMem (m : Memory) : AllocM Unit := modify fun σ => { σ with mem := m }
def record (call : Call) : AllocM Unit := modify fun σ => { σ with calls := call :: σ.calls }

def readWord (addr width : Nat) : AllocM Nat := do
  match load (← get).mem addr width with
  | some value => pure value
  | none => throw (.segv addr)

def writeWord (addr width value : Nat) : AllocM Unit := do
  match store (← get).mem addr width value with
  | some m => setMem m
  | none => throw (.segv addr)

abbrev mapFailed : Nat := 2 ^ 64 - 1

/- Both mmap calls of the source give zero pages: one is anonymous, the other a private
view of a file nobody writes. -/
def mmap (k : Kernel) (addr length offset : Nat) : AllocM Nat := do
  record (.mmap addr length offset)
  if k.mmapGrants ∧ 0 < length ∧ addr + length ≤ taskSize then
    setMem (mapZero (← get).mem addr length)
    pure addr
  else pure mapFailed

def munmap (addr length : Nat) : AllocM Unit := do
  record (.munmap addr length)
  setMem (unmap (← get).mem addr length)

/- A source longer than the target is first cut to `newLength`, and a call that fails later
need not undo the cut. It fails in any case when the first source page is not mapped. Where
source and target overlap mremap(2) answers EINVAL: an attempt the kernel does not grant. -/
def mremap (a : Attempt) (old oldLength newLength new : Nat) : AllocM Nat := do
  record (.mremap old oldLength newLength new)
  let m := (← get).mem
  let trimmed := unmap m (old + newLength) (oldLength - newLength)
  if a.grants ∧ m old ≠ none ∧ new + newLength ≤ taskSize then
    setMem (move trimmed old new newLength)
    pure new
  else
    setMem (if a.trims then trimmed else m)
    pure mapFailed

/- First access to a fresh page of the file: past its end the page has no backing. -/
def touchFile (addr offset : Nat) : AllocM Unit := do
  if offset < (← get).fileSize then pure () else throw (.bus addr)

def getFlst (t : Int) : AllocM Freelist := do
  if 0 ≤ t ∧ t < numBlockTypes then pure ((← get).gFlsts t.toNat) else throw .undefined

def setFlst (t : Int) (fl : Freelist) : AllocM Unit :=
  modify fun σ => { σ with gFlsts := Function.update σ.gFlsts t.toNat fl }

variable {α β : Type} {x : AllocM α} {f : α → AllocM β} {σ σ' σ'' : State} {a : α} {b : β}

theorem getRun (σ : State) : (get : AllocM State) σ = .ok σ σ := rfl
theorem modifyRun (g : State → State) (σ : State) : (modify g : AllocM Unit) σ = .ok () (g σ) := rfl
theorem throwRun (e : Halt) (σ : State) : (throw e : AllocM α) σ = .error e σ := rfl
theorem recordRun (call : Call) (σ : State) :
    record call σ = .ok () { σ with calls := call :: σ.calls } := rfl

theorem bindOk (h : x σ = .ok a σ') : (x >>= f) σ = f a σ' := by
  simp only [bind, EStateM.bind, h]

theorem bindError {e : Halt} (h : x σ = .error e σ') : (x >>= f) σ = .error e σ' := by
  simp only [bind, EStateM.bind, h]

theorem bindInv (h : (x >>= f) σ = .ok b σ'') : ∃ a σ', x σ = .ok a σ' ∧ f a σ' = .ok b σ'' := by
  simp only [bind, EStateM.bind] at h
  split at h
  · exact ⟨_, _, by assumption, h⟩
  · cases h

theorem readWordOk {addr width value : Nat} (h : load σ.mem addr width = some value) :
    readWord addr width σ = .ok value σ := by
  rw [readWord, bindOk (getRun σ), h]
  rfl

theorem readWordFault {addr width : Nat} (h : load σ.mem addr width = none) :
    readWord addr width σ = .error (.segv addr) σ := by
  rw [readWord, bindOk (getRun σ), h]
  rfl

theorem writeWordOk {addr width : Nat} (mapped : Mapped σ.mem addr width) (value : Nat) :
    writeWord addr width value σ = .ok () { σ with mem := write σ.mem addr width value } := by
  rw [writeWord, bindOk (getRun σ), storeMapped mapped]
  rfl

theorem writeWordFault {addr width : Nat} (hole : ¬ Mapped σ.mem addr width) (value : Nat) :
    writeWord addr width value σ = .error (.segv addr) σ := by
  rw [writeWord, bindOk (getRun σ), store, if_neg hole]
  rfl

theorem mmapRun {k : Kernel} {addr length : Nat} (grants : k.mmapGrants = true)
    (positive : 0 < length) (room : addr + length ≤ taskSize) (offset : Nat) :
    mmap k addr length offset σ = .ok addr { σ with
      mem := mapZero σ.mem addr length, calls := .mmap addr length offset :: σ.calls } := by
  rw [mmap, bindOk (recordRun _ σ), if_pos ⟨grants, positive, room⟩]
  rfl

theorem mmapRefused {k : Kernel} {addr length : Nat}
    (refused : ¬ (k.mmapGrants = true ∧ 0 < length ∧ addr + length ≤ taskSize)) (offset : Nat) :
    mmap k addr length offset σ =
      .ok mapFailed { σ with calls := .mmap addr length offset :: σ.calls } := by
  rw [mmap, bindOk (recordRun _ σ), if_neg refused]
  rfl

theorem mremapRun {a : Attempt} {old oldLength newLength new : Nat} (grants : a.grants = true)
    (source : σ.mem old ≠ none) (room : new + newLength ≤ taskSize) :
    mremap a old oldLength newLength new σ = .ok new { σ with
      mem := move (unmap σ.mem (old + newLength) (oldLength - newLength)) old new newLength,
      calls := .mremap old oldLength newLength new :: σ.calls } := by
  rw [mremap, bindOk (recordRun _ σ), bindOk (getRun _)]
  simp only [if_pos (show a.grants = true ∧ σ.mem old ≠ none ∧ new + newLength ≤ taskSize from
    ⟨grants, source, room⟩)]
  rfl

theorem mremapRefused {a : Attempt} {old oldLength newLength new : Nat}
    (refused : ¬ (a.grants = true ∧ σ.mem old ≠ none ∧ new + newLength ≤ taskSize)) :
    mremap a old oldLength newLength new σ = .ok mapFailed { σ with
      mem := if a.trims then unmap σ.mem (old + newLength) (oldLength - newLength) else σ.mem,
      calls := .mremap old oldLength newLength new :: σ.calls } := by
  rw [mremap, bindOk (recordRun _ σ), bindOk (getRun _)]
  simp only [if_neg refused]
  rfl

theorem touchFileRun {offset : Nat} (file : offset < σ.fileSize) (addr : Nat) :
    touchFile addr offset σ = .ok () σ := by
  rw [touchFile, bindOk (getRun σ), if_pos file]
  rfl

theorem touchFilePast {offset : Nat} (past : σ.fileSize ≤ offset) (addr : Nat) :
    touchFile addr offset σ = .error (.bus addr) σ := by
  rw [touchFile, bindOk (getRun σ), if_neg (Nat.not_lt.mpr past)]
  rfl

theorem getFlstRun {t : Nat} (cls : t < numBlockTypes) (σ : State) :
    getFlst t σ = .ok (σ.gFlsts t) σ := by
  rw [getFlst, if_pos ⟨Int.natCast_nonneg t, by exact_mod_cast cls⟩, bindOk (getRun σ)]
  rfl

end Nuaf.Machine
