import Nuaf.AllocatorSource
import Nuaf.Library.Outcomes

/-! What the source functions leave alone, whatever the kernel answers and however they end:
past the guard that opens xxmalloc and xxfree nothing changes the variables of that guard or
installs a signal handler, and only freelist_push and freelist_pop change the freelists. None of
them reads the record of kernel calls. -/
namespace Nuaf.Source
open Layout ByteMemory Machine Outcomes

structure Settled (σ σ' : State) : Prop where
  dataFd : σ'.dataFd = σ.dataFd
  parPs : σ'.parPs = σ.parPs
  calls : Call.sigaction ∈ σ'.calls ↔ Call.sigaction ∈ σ.calls

instance : Std.Refl Settled := ⟨fun _ => ⟨rfl, rfl, Iff.rfl⟩⟩

instance : IsTrans State Settled := ⟨fun _ _ _ first rest =>
  ⟨rest.dataFd.trans first.dataFd, rest.parPs.trans first.parPs, rest.calls.trans first.calls⟩⟩

def Unlisted (σ σ' : State) : Prop := σ'.gFlsts = σ.gFlsts

instance : Std.Refl Unlisted := ⟨fun _ => rfl⟩

instance : IsTrans State Unlisted := ⟨fun _ _ _ first rest => Eq.trans rest first⟩

structure Blind (R : State → State → Prop) : Prop where
  mem : ∀ σ m, R σ { σ with mem := m }
  high : ∀ σ v, R σ { σ with highVaddr := v }
  mappings : ∀ σ v, R σ { σ with numMappings := v }
  bigs : ∀ σ v w, R σ { σ with numMappings := v, largeObjNextPage := w }
  calls : ∀ σ call, call ≠ .sigaction → R σ { σ with calls := call :: σ.calls }

theorem settledBlind : Blind Settled where
  mem _ _ := ⟨rfl, rfl, Iff.rfl⟩
  high _ _ := ⟨rfl, rfl, Iff.rfl⟩
  mappings _ _ := ⟨rfl, rfl, Iff.rfl⟩
  bigs _ _ _ := ⟨rfl, rfl, Iff.rfl⟩
  calls _ _ other := ⟨rfl, rfl, fun member =>
    (List.mem_cons.mp member).resolve_left fun same => other same.symm, List.mem_cons_of_mem _⟩

theorem unlistedBlind : Blind Unlisted := ⟨fun _ _ => rfl, fun _ _ => rfl, fun _ _ => rfl,
  fun _ _ _ => rfl, fun _ _ _ => rfl⟩

variable {k : Kernel}

section
variable {R : State → State → Prop} [Std.Refl R]

theorem keepsReadWord [IsTrans State R] (addr width : Nat) : Respects R (readWord addr width) := by
  refine respectsBind respectsGet fun σ => ?_
  split
  · exact respectsPure _
  · exact respectsThrow _

theorem keepsGetFlst [IsTrans State R] (t : Int) : Respects R (getFlst t) :=
  respectsIte (respectsBind respectsGet fun _ => respectsPure _) (respectsThrow _)

theorem keepsTouchFile [IsTrans State R] (addr offset : Nat) : Respects R (touchFile addr offset) :=
  respectsBind respectsGet fun _ => respectsIte (respectsPure _) (respectsThrow _)

theorem keepsScan [IsTrans State R] (page : Nat) : Respects R (scanHeader page) := by
  induction page with
  | zero =>
    exact respectsBind (keepsReadWord _ _) fun _ => respectsIte (respectsPure _) (respectsThrow _)
  | succ page ih =>
    exact respectsBind (keepsReadWord _ _) fun _ => respectsIte (respectsPure _) ih

theorem keepsUsable [IsTrans State R] (ptr : Nat) : Respects R (xxmallocUsableSize ptr) := by
  refine respectsIte (respectsPure _) (respectsIte ?_ ?_)
  · exact respectsBind (keepsScan _) fun _ => respectsBind (keepsReadWord _ _) fun _ =>
      respectsPure _
  · exact respectsBind (keepsReadWord _ _) fun _ =>
      respectsIte (respectsPure _) (respectsThrow _)

theorem keepsStart [IsTrans State R] (ptr objSize : Nat) : Respects R (getObjStart ptr objSize) :=
  respectsIte (respectsBind (keepsScan _) fun _ => respectsPure _) (respectsPure _)

variable [IsTrans State R] (blind : Blind R)
include blind

omit [Std.Refl R] [IsTrans State R] in
theorem keepsRecord {call : Call} (other : call ≠ .sigaction) : Respects R (record call) :=
  respectsModify fun σ => blind.calls σ call other

omit [Std.Refl R] [IsTrans State R] in
theorem keepsSetMem (m : Memory) : Respects R (setMem m) := respectsModify fun σ => blind.mem σ m

theorem keepsWriteWord (addr width value : Nat) : Respects R (writeWord addr width value) := by
  refine respectsBind respectsGet fun σ => ?_
  split
  · exact keepsSetMem blind _
  · exact respectsThrow _

theorem keepsMmap (addr length offset : Nat) : Respects R (mmap k addr length offset) := by
  refine respectsBind (keepsRecord blind (by simp)) fun _ => respectsIte ?_ (respectsPure _)
  exact respectsBind respectsGet fun _ => respectsBind (keepsSetMem blind _) fun _ => respectsPure _

theorem keepsMunmap (addr length : Nat) : Respects R (munmap addr length) :=
  respectsBind (keepsRecord blind (by simp)) fun _ => respectsBind respectsGet fun _ =>
    keepsSetMem blind _

theorem keepsMremap (a : Attempt) (old oldLength newLength new : Nat) :
    Respects R (mremap a old oldLength newLength new) := by
  refine respectsBind (keepsRecord blind (by simp)) fun _ => respectsBind respectsGet fun _ =>
    respectsIte ?_ ?_
  · exact respectsBind (keepsSetMem blind _) fun _ => respectsPure _
  · exact respectsBind (keepsSetMem blind _) fun _ => respectsPure _

theorem keepsMarkPage (beginning t : Nat) : Respects R (markPage beginning t) :=
  respectsBind (keepsReadWord _ _) fun _ =>
    respectsIte (keepsWriteWord blind _ _ _) (respectsPure _)

theorem keepsBigMap (numPages : Nat) : Respects R (bigMap k numPages) := by
  refine respectsBind respectsGet fun _ => respectsBind (keepsMmap blind _ _ _) fun _ =>
    respectsIte (respectsThrow _) ?_
  exact respectsBind (respectsModify fun σ => blind.bigs σ _ _) fun _ => respectsPure _

theorem keepsBig (size : Nat) : Respects R (xxmallocBig k size) :=
  respectsBind (keepsBigMap blind _) fun _ => respectsBind (keepsWriteWord blind _ _ _) fun _ =>
    respectsBind (keepsWriteWord blind _ _ _) fun _ => respectsPure _

theorem keepsFreeLarge (ptr objSize : Nat) : Respects R (freeLarge ptr objSize) :=
  respectsBind (keepsMunmap blind _ _) fun _ => respectsModify fun σ => blind.mappings σ _

theorem keepsRemap (page target fuel i : Nat) : Respects R (remapLoop k page target fuel i) := by
  induction fuel generalizing i with
  | zero => exact respectsPure _
  | succ fuel ih =>
    exact respectsBind (keepsMremap blind _ _ _ _ _) fun _ => respectsIte (ih _) (respectsPure _)

variable (push : ∀ objVaddr, Respects R (freelistPush objVaddr))
include push

theorem keepsFreeSmall (ptr : Nat) : Respects R (freeSmall k ptr) := by
  refine respectsBind respectsGet fun _ => respectsBind (keepsRemap blind _ _ _ _) fun _ =>
    respectsIte (respectsThrow _) ?_
  exact respectsBind (respectsModify fun σ => blind.high σ _) fun _ => push _

theorem keepsFree (ptr : Nat) : Respects R (do
    if ptr = 0 then pure ()
    else
      let objSize ← xxmallocUsableSize ptr
      let start ← getObjStart ptr objSize
      if isLarge start then freeLarge start objSize else freeSmall k start) :=
  respectsIte (respectsPure _) (respectsBind (keepsUsable _) fun _ =>
    respectsBind (keepsStart _ _) fun _ =>
      respectsIte (keepsFreeLarge blind _ _) (keepsFreeSmall blind push _))

end

theorem settledSetFlst (t : Int) (fl : Freelist) : Respects Settled (setFlst t fl) :=
  respectsModify fun _ => ⟨rfl, rfl, Iff.rfl⟩

theorem settledCarve (t : Nat) (fl : Freelist) : Respects Settled (carve k t fl) := by
  refine respectsBind respectsGet fun _ => respectsBind (keepsMmap settledBlind _ _ _) fun _ =>
    respectsIte (respectsThrow _) ?_
  refine respectsBind (respectsModify fun _ => ⟨rfl, rfl, Iff.rfl⟩) fun _ =>
    respectsBind (keepsTouchFile _ _) fun _ => respectsBind (keepsMarkPage settledBlind _ _) fun _ => ?_
  exact respectsBind (respectsModify fun _ => ⟨rfl, rfl, Iff.rfl⟩) fun _ =>
    respectsBind (settledSetFlst _ _) fun _ => respectsPure _

theorem settledPop (size : Nat) : Respects Settled (freelistPop k size) := by
  refine respectsBind (keepsGetFlst _) fun _ => respectsIte (settledCarve _ _) ?_
  exact respectsBind (keepsReadWord _ _) fun _ =>
    respectsBind (settledSetFlst _ _) fun _ => respectsPure _

theorem settledPush (objVaddr : Nat) : Respects Settled (freelistPush objVaddr) :=
  respectsBind (keepsReadWord _ _) fun _ => respectsBind (keepsGetFlst _) fun _ =>
    respectsBind (keepsWriteWord settledBlind _ _ _) fun _ => settledSetFlst _ _

theorem settledMalloc (size : Nat) : Respects Settled
    (if largestBlockSize < size then xxmallocBig k size else freelistPop k size) :=
  respectsIte (keepsBig settledBlind size) (settledPop size)

theorem settledFree (ptr : Nat) : Respects Settled (do
    if ptr = 0 then pure ()
    else
      let objSize ← xxmallocUsableSize ptr
      let start ← getObjStart ptr objSize
      if isLarge start then freeLarge start objSize else freeSmall k start) :=
  keepsFree settledBlind settledPush ptr

def Unrecorded (σ τ : State) : Prop := ∃ calls, τ = { σ with calls := calls }

theorem unrecordedGet {α : Type} {f : State → AllocM α} (reads : ∀ σ, Agrees Unrecorded (f σ))
    (blind : ∀ σ calls, f { σ with calls := calls } = f σ) : Agrees Unrecorded (get >>= f) :=
  agreesGet reads fun σ _ ⟨calls, same⟩ => same ▸ (blind σ calls).symm

theorem unrecordedModify {g : State → State}
    (blind : ∀ σ calls, ∃ calls', g { σ with calls := calls } = { g σ with calls := calls' }) :
    Agrees Unrecorded (modify g : AllocM Unit) :=
  agreesModify fun σ _ ⟨calls, same⟩ => same ▸ blind σ calls

theorem unrecordedSetMem (m : Memory) : Agrees Unrecorded (setMem m) :=
  unrecordedModify fun _ _ => ⟨_, rfl⟩

theorem unrecordedRecord (call : Call) : Agrees Unrecorded (record call) :=
  unrecordedModify fun _ calls => ⟨call :: calls, rfl⟩

theorem unrecordedReadWord (addr width : Nat) : Agrees Unrecorded (readWord addr width) := by
  refine unrecordedGet (fun σ => ?_) fun _ _ => rfl
  split
  · exact agreesPure _
  · exact agreesThrow _

theorem unrecordedWriteWord (addr width value : Nat) :
    Agrees Unrecorded (writeWord addr width value) := by
  refine unrecordedGet (fun σ => ?_) fun _ _ => rfl
  split
  · exact unrecordedSetMem _
  · exact agreesThrow _

theorem unrecordedMmap (addr length offset : Nat) : Agrees Unrecorded (mmap k addr length offset) :=
  agreesBind (unrecordedRecord _) fun _ => agreesIte
    (unrecordedGet (fun _ => agreesBind (unrecordedSetMem _) fun _ => agreesPure _) fun _ _ => rfl)
    (agreesPure _)

theorem unrecordedMunmap (addr length : Nat) : Agrees Unrecorded (munmap addr length) :=
  agreesBind (unrecordedRecord _) fun _ =>
    unrecordedGet (fun _ => unrecordedSetMem _) fun _ _ => rfl

theorem unrecordedMremap (a : Attempt) (old oldLength newLength new : Nat) :
    Agrees Unrecorded (mremap a old oldLength newLength new) :=
  agreesBind (unrecordedRecord _) fun _ => unrecordedGet (fun _ => agreesIte
    (agreesBind (unrecordedSetMem _) fun _ => agreesPure _)
    (agreesBind (unrecordedSetMem _) fun _ => agreesPure _)) fun _ _ => rfl

theorem unrecordedGetFlst (t : Int) : Agrees Unrecorded (getFlst t) :=
  agreesIte (unrecordedGet (fun _ => agreesPure _) fun _ _ => rfl) (agreesThrow _)

theorem unrecordedSetFlst (t : Int) (fl : Freelist) : Agrees Unrecorded (setFlst t fl) :=
  unrecordedModify fun _ _ => ⟨_, rfl⟩

theorem unrecordedMarkPage (beginning t : Nat) : Agrees Unrecorded (markPage beginning t) :=
  agreesBind (unrecordedReadWord _ _) fun _ => agreesIte (unrecordedWriteWord _ _ _) (agreesPure _)

theorem unrecordedCarve (t : Nat) (fl : Freelist) : Agrees Unrecorded (carve k t fl) := by
  refine unrecordedGet (fun σ => ?_) fun _ _ => rfl
  refine agreesBind (unrecordedMmap _ _ _) fun _ => agreesIte (agreesThrow _) ?_
  refine agreesBind (unrecordedModify fun _ _ => ⟨_, rfl⟩) fun _ => agreesBind ?_ fun _ =>
    agreesBind (unrecordedMarkPage _ _) fun _ => agreesBind (unrecordedModify fun _ _ => ⟨_, rfl⟩) fun _ =>
    agreesBind (unrecordedSetFlst _ _) fun _ => agreesPure _
  exact unrecordedGet (fun _ => agreesIte (agreesPure _) (agreesThrow _)) fun _ _ => rfl

theorem unrecordedPop (size : Nat) : Agrees Unrecorded (freelistPop k size) :=
  agreesBind (unrecordedGetFlst _) fun _ => agreesIte (unrecordedCarve _ _)
    (agreesBind (unrecordedReadWord _ _) fun _ =>
      agreesBind (unrecordedSetFlst _ _) fun _ => agreesPure _)

theorem unrecordedPush (objVaddr : Nat) : Agrees Unrecorded (freelistPush objVaddr) :=
  agreesBind (unrecordedReadWord _ _) fun _ => agreesBind (unrecordedGetFlst _) fun _ =>
    agreesBind (unrecordedWriteWord _ _ _) fun _ => unrecordedSetFlst _ _

theorem unrecordedBigMap (numPages : Nat) : Agrees Unrecorded (bigMap k numPages) :=
  unrecordedGet (fun _ => agreesBind (unrecordedMmap _ _ _) fun _ => agreesIte (agreesThrow _)
    (agreesBind (unrecordedModify fun _ _ => ⟨_, rfl⟩) fun _ => agreesPure _)) fun _ _ => rfl

theorem unrecordedScan (page : Nat) : Agrees Unrecorded (scanHeader page) := by
  induction page with
  | zero =>
    exact agreesBind (unrecordedReadWord _ _) fun _ => agreesIte (agreesPure _) (agreesThrow _)
  | succ page ih => exact agreesBind (unrecordedReadWord _ _) fun _ => agreesIte (agreesPure _) ih

theorem unrecordedUsable (ptr : Nat) : Agrees Unrecorded (xxmallocUsableSize ptr) :=
  agreesIte (agreesPure _) (agreesIte
    (agreesBind (unrecordedScan _) fun _ => agreesBind (unrecordedReadWord _ _) fun _ => agreesPure _)
    (agreesBind (unrecordedReadWord _ _) fun _ => agreesIte (agreesPure _) (agreesThrow _)))

theorem unrecordedStart (ptr objSize : Nat) : Agrees Unrecorded (getObjStart ptr objSize) :=
  agreesIte (agreesBind (unrecordedScan _) fun _ => agreesPure _) (agreesPure _)

theorem unrecordedFreeLarge (ptr objSize : Nat) : Agrees Unrecorded (freeLarge ptr objSize) :=
  agreesBind (unrecordedMunmap _ _) fun _ => unrecordedModify fun _ _ => ⟨_, rfl⟩

theorem unrecordedRemap (page target fuel i : Nat) :
    Agrees Unrecorded (remapLoop k page target fuel i) := by
  induction fuel generalizing i with
  | zero => exact agreesPure _
  | succ fuel ih =>
    exact agreesBind (unrecordedMremap _ _ _ _ _) fun _ => agreesIte (ih _) (agreesPure _)

theorem unrecordedFreeSmall (ptr : Nat) : Agrees Unrecorded (freeSmall k ptr) :=
  unrecordedGet (fun _ => agreesBind (unrecordedRemap _ _ _ _) fun _ => agreesIte (agreesThrow _)
    (agreesBind (unrecordedModify fun _ _ => ⟨_, rfl⟩) fun _ => unrecordedPush _)) fun _ _ => rfl

theorem unrecordedInit : Agrees Unrecorded (ensureInit k) := by
  refine unrecordedGet (fun _ => agreesIte ?_ (agreesPure _)) fun _ _ => rfl
  refine unrecordedGet (fun _ => agreesIte (agreesPure _) ?_) fun _ _ => rfl
  refine agreesBind (unrecordedModify fun _ _ => ⟨_, rfl⟩) fun _ => agreesBind (unrecordedRecord _)
    fun _ => agreesIte ?_ (agreesThrow _)
  refine agreesBind (unrecordedRecord _) fun _ => agreesBind (unrecordedModify fun _ _ => ⟨_, rfl⟩)
    fun _ => agreesIte (agreesThrow _) ?_
  exact agreesBind (unrecordedRecord _) fun _ => agreesBind (unrecordedModify fun _ _ => ⟨_, rfl⟩)
    fun _ => unrecordedModify fun _ _ => ⟨_, rfl⟩

theorem unrecordedMalloc (size : Nat) : Agrees Unrecorded (xxmalloc k size) := by
  refine agreesBind unrecordedInit fun _ => agreesIte ?_ (unrecordedPop size)
  exact agreesBind (unrecordedBigMap _) fun _ => agreesBind (unrecordedWriteWord _ _ _) fun _ =>
    agreesBind (unrecordedWriteWord _ _ _) fun _ => agreesPure _

theorem unrecordedFree (ptr : Nat) : Agrees Unrecorded (xxfree k ptr) :=
  agreesBind unrecordedInit fun _ => agreesIte (agreesPure _)
    (agreesBind (unrecordedUsable _) fun _ => agreesBind (unrecordedStart _ _) fun _ =>
      agreesIte (unrecordedFreeLarge _ _) (unrecordedFreeSmall _))

end Nuaf.Source
