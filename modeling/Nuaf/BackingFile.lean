import Nuaf.Census
import Nuaf.Footprint
import Nuaf.FullFile

/-! Where in the backing file freelist_pop takes its pages from. The n-th object of a class
has its place from the start, whatever else the program and the kernel do, and nothing
compares that place with the size of the file. -/
namespace Nuaf.BackingFile
open Layout ByteMemory Machine Source Heap Nuaf.Sequential Exhaustion Outcomes Census

def perPage (t : Nat) : Nat :=
  max 1 ((pageSize - byteAlignment + blockSize t - 1) / blockSize t - 2)

def canonicalAt (t n : Nat) : Nat :=
  pageSize * (t + numBlockTypes * (n / perPage t)) + byteAlignment + blockSize t * (n % perPage t)

def anyhow (pid : Nat) : Policy := fun _ _ k _ => k.pid = pid

def Unlimited : State → Prop := fun _ => True

structure Uncarved (σ σ' : State) : Prop where
  par : σ'.parPs = σ.parPs
  canonical : ∀ t, (σ'.gFlsts t).highCanonicalAddr = (σ.gFlsts t).highCanonicalAddr

instance : Std.Refl Uncarved := ⟨fun _ => ⟨rfl, fun _ => rfl⟩⟩

instance : IsTrans State Uncarved := ⟨fun _ _ _ first rest => ⟨rest.par.trans first.par,
  fun t => (rest.canonical t).trans (first.canonical t)⟩⟩

theorem uncarvedBlind : Blind Uncarved := ⟨fun _ _ => ⟨rfl, fun _ => rfl⟩,
  fun _ _ => ⟨rfl, fun _ => rfl⟩, fun _ _ => ⟨rfl, fun _ => rfl⟩, fun _ _ _ => ⟨rfl, fun _ => rfl⟩,
  fun _ _ _ => ⟨rfl, fun _ => rfl⟩⟩

structure Tracks (pid : Nat) (h : History) (σ : State) : Prop where
  par : σ.parPs = pid
  canonical : ∀ t < numBlockTypes, (σ.gFlsts t).highCanonicalAddr = canonicalAt t (carvings t h)

variable {pid t n : Nat} {h : History} {σ σ' : State} {k : Kernel} {e : Event} {fl : Freelist}
  {op : Op} {within : State → Prop}

theorem canonicalStart (t : Nat) : canonicalAt t 0 = t * pageSize + byteAlignment := by
  simp [canonicalAt, Nat.mul_comm]

theorem canonicalStep (cls : t < numBlockTypes) (n : Nat) :
    nextCanonical t (canonicalAt t n) = canonicalAt t (n + 1) := by
  simp only [numBlockTypes, magicNumber] at cls
  simp only [nextCanonical, roundUp, canonicalAt, pageSize, numBlockTypes, magicNumber, byteAlignment]
  interval_cases t <;>
    simp only [perPage, blockSize, magicNumber, byteAlignment, pageSize, Nat.shiftLeft_eq] <;>
    norm_num <;> (split <;> (try split) <;> omega)

theorem offsetInside (cls : t < numBlockTypes) (n : Nat) :
    roundDown (canonicalAt t n) pageSize + pageSize ≤ dataSize ↔ n < fullFile * perPage t := by
  rw [roundDownPage]
  simp only [numBlockTypes, magicNumber] at cls
  simp only [canonicalAt, pageSize, dataSize, fullFile, numBlockTypes, magicNumber, byteAlignment]
  interval_cases t <;>
    simp only [perPage, blockSize, magicNumber, byteAlignment, pageSize, Nat.shiftLeft_eq] <;>
    norm_num <;> omega

theorem setTopKeeps (objVaddr : Nat) (σ : State) (t : Nat) :
    Uncarved σ { σ with
      gFlsts := Function.update σ.gFlsts t { σ.gFlsts t with topOfStack := objVaddr } } := by
  refine ⟨rfl, fun s => ?_⟩
  by_cases same : s = t
  · subst same
    simp
  · simp [same]

theorem uncarvedPush (objVaddr : Nat) : Respects Uncarved (freelistPush objVaddr) := by
  intro σ
  cases word : load σ.mem (roundDown objVaddr pageSize) 4 with
  | none =>
    rw [freelistPush, finalError (bindError (readWordFault word))]
    exact Std.Refl.refl σ
  | some value =>
    rw [freelistPush, bindOk (readWordOk word)]
    by_cases cls : 0 ≤ asInt value ∧ asInt value < numBlockTypes
    · have class_ : getFlst (asInt value) σ = .ok (σ.gFlsts (asInt value).toNat) σ := by
        rw [getFlst, if_pos cls]
        rfl
      rw [bindOk class_]
      by_cases mapped : Mapped σ.mem objVaddr 8
      · rw [bindOk (writeWordOk mapped _)]
        exact IsTrans.trans _ _ _ (uncarvedBlind.mem σ _) (setTopKeeps objVaddr _ _)
      · rw [finalError (bindError (writeWordFault mapped _))]
        exact Std.Refl.refl σ
    · have none : getFlst (asInt value) σ = .error .undefined σ := by
        rw [getFlst, if_neg cls]
        rfl
      rw [finalError (bindError none)]
      exact Std.Refl.refl σ

theorem carveCases (k : Kernel) (t : Nat) (fl : Freelist) (σ : State) :
    (final (carve k t fl σ)).calls =
      .mmap σ.highVaddr pageSize (roundDown fl.highCanonicalAddr pageSize) :: σ.calls ∧
    ((∃ p, carve k t fl σ = .ok p (carved t fl σ)) ∨
      (∃ code τ, carve k t fl σ = .error (.exit code) τ) ∨
      ∃ addr τ, carve k t fl σ = .error (.bus addr) τ) := by
  have ends : ∀ e, (∃ τ, carve k t fl σ = .error e τ ∧ τ.calls =
      .mmap σ.highVaddr pageSize (roundDown fl.highCanonicalAddr pageSize) :: σ.calls) →
      (∃ code, e = .exit code) ∨ (∃ addr, e = .bus addr) →
      (final (carve k t fl σ)).calls =
        .mmap σ.highVaddr pageSize (roundDown fl.highCanonicalAddr pageSize) :: σ.calls ∧
      ((∃ p, carve k t fl σ = .ok p (carved t fl σ)) ∨
        (∃ code τ, carve k t fl σ = .error (.exit code) τ) ∨
        ∃ addr τ, carve k t fl σ = .error (.bus addr) τ) := by
    rintro e ⟨τ, stops, calls⟩ (⟨code, rfl⟩ | ⟨addr, rfl⟩)
    · exact ⟨(congrArg State.calls (finalError stops)).trans calls, .inr (.inl ⟨_, _, stops⟩)⟩
    · exact ⟨(congrArg State.calls (finalError stops)).trans calls, .inr (.inr ⟨_, _, stops⟩)⟩
  by_cases granted : k.mmapGrants = true ∧ σ.highVaddr + pageSize ≤ taskSize
  · obtain ⟨grants, room⟩ := granted
    rcases Nat.eq_zero_or_pos σ.highVaddr with zero | started
    · refine ends (.exit 1) ?_ (.inl ⟨_, rfl⟩)
      rw [carve, bindOk (getRun σ), bindOk (mmapRun grants (by decide) room _), if_pos (.inr zero)]
      exact ⟨_, rfl, rfl⟩
    · rcases Nat.lt_or_ge (roundDown fl.highCanonicalAddr pageSize) σ.fileSize with file | past
      · have done := @carveRun k σ t fl grants started room file
        exact ⟨congrArg State.calls (finalOk done), .inl ⟨_, done⟩⟩
      · have valid : ¬ (σ.highVaddr = mapFailed ∨ σ.highVaddr = 0) := by
          simp only [mapFailed, pageSize, taskSize] at *
          omega
        refine ends (.bus σ.highVaddr) ?_ (.inr ⟨_, rfl⟩)
        rw [carve, bindOk (getRun σ), bindOk (mmapRun grants (by decide) room _), if_neg valid,
          bindOk (modifyRun _ _)]
        exact ⟨_, bindError (touchFilePast (by exact past) _), rfl⟩
  · refine ends (.exit 1) ?_ (.inl ⟨_, rfl⟩)
    rw [carve, bindOk (getRun σ), bindOk (mmapRefused (fun h => granted ⟨h.1, h.2.2⟩) _)]
    exact ⟨_, rfl, rfl⟩

theorem popKeeps {size : Nat} (small : size ≤ largestBlockSize)
    (full : (σ.gFlsts (blockType size)).topOfStack ≠ 0) :
    Uncarved σ (final (freelistPop k size σ)) ∧ (final (freelistPop k size σ)).calls = σ.calls := by
  have cls := blockTypeLt small
  cases link : load σ.mem (σ.gFlsts (blockType size)).topOfStack 8 with
  | none =>
    rw [freelistPop, bindOk (getFlstRun cls σ), if_neg full, bindError (readWordFault link)]
    exact ⟨Std.Refl.refl σ, rfl⟩
  | some value =>
    rw [finalOk (popRun cls full link)]
    exact ⟨setTopKeeps _ _ _, rfl⟩

theorem execUncarved (par : σ.parPs = k.pid)
    (other : ∀ size, op = .xxmalloc size → largestBlockSize < size) :
    Uncarved σ.clear (final (exec k op σ.clear)) := by
  have init := @ensureInitRun k σ.clear par
  cases op with
  | xxmalloc size =>
    rw [exec, xxmalloc, bindOk init, if_pos (other size rfl)]
    exact keepsBig uncarvedBlind size σ.clear
  | xxfree ptr =>
    have freed : exec k (.xxfree ptr) = (xxfree k ptr >>= fun _ => pure 0) := rfl
    rw [freed, finalBindPure, xxfree, bindOk init]
    exact keepsFree uncarvedBlind uncarvedPush ptr σ.clear
  | usableSize ptr => exact keepsUsable ptr σ.clear
  | load ptr index => exact keepsReadWord _ _ σ.clear
  | store ptr index byte =>
    exact respectsBind (keepsWriteWord uncarvedBlind _ _ _) (fun _ => respectsPure _) σ.clear

theorem tracksKept (tracks : Tracks pid h σ) (kept : Uncarved σ.clear σ')
    (silent : ∀ t, carvesOne t e = false) : Tracks pid (e :: h) σ' := by
  refine ⟨kept.par.trans tracks.par, fun t cls => ?_⟩
  rw [kept.canonical t, carvings, silent t]
  exact tracks.canonical t cls

theorem tracksCarved {size p : Nat} (tracks : Tracks pid h σ) (small : size ≤ largestBlockSize) :
    Tracks pid (⟨.xxmalloc size, .value p, (carved (blockType size)
      (σ.gFlsts (blockType size)) σ.clear).calls⟩ :: h)
      (carved (blockType size) (σ.gFlsts (blockType size)) σ.clear) := by
  refine ⟨tracks.par, fun t cls => ?_⟩
  by_cases same : t = blockType size
  · subst same
    simp only [carvings, carvesOne, carved, small, State.clear, Function.update_self]
    rw [tracks.canonical _ cls, canonicalStep cls]
    rfl
  · simp only [carvings, carvesOne, carved, State.clear, Function.update_of_ne same]
    rw [tracks.canonical _ cls]
    simp [Ne.symm same]

theorem stepTracks (tracks : Tracks pid h σ) (taken : Step (anyhow pid) within h σ e σ') :
    Tracks pid (e :: h) σ' := by
  obtain ⟨k, op, reply, mine, rfl, outcome⟩ : ∃ k op reply, k.pid = pid ∧ e = ⟨op, reply, σ'.calls⟩ ∧
      ((∃ v, reply = .value v ∧ exec k op σ.clear = .ok v σ') ∨
        ∃ addr, exec k op σ.clear = .error (.segv addr) σ') := by
    cases taken with
    | returned allowed call limit => exact ⟨_, _, _, allowed, rfl, .inl ⟨_, rfl, call⟩⟩
    | faulted allowed call limit => exact ⟨_, _, _, allowed, rfl, .inr ⟨_, call⟩⟩
  have par := tracks.par.trans mine.symm
  have last : final (exec k op σ.clear) = σ' := by
    rcases outcome with ⟨v, _, call⟩ | ⟨addr, call⟩
    · exact finalOk call
    · exact finalError call
  by_cases other : ∀ size, op = .xxmalloc size → largestBlockSize < size
  · refine tracksKept tracks (last ▸ execUncarved par other) fun t => ?_
    cases op with
    | xxmalloc size => simp [carvesOne, Nat.not_le.mpr (other size rfl)]
    | _ => rfl
  · obtain ⟨size, rfl, small⟩ : ∃ size, op = .xxmalloc size ∧ size ≤ largestBlockSize := by
      by_contra none
      exact other fun size same => Nat.lt_of_not_le fun small => none ⟨size, same, small⟩
    rw [exec, mallocSmall (σ := σ.clear) par small] at outcome last
    by_cases empty : (σ.clear.gFlsts (blockType size)).topOfStack = 0
    · rw [popEmpty (blockTypeLt small) empty] at outcome
      have cases_ := (carveCases k (blockType size) (σ.clear.gFlsts (blockType size)) σ.clear).2
      rcases outcome with ⟨v, rfl, call⟩ | ⟨addr, call⟩
      · obtain ⟨_, _, _, _, _, rfl⟩ := carveInv call
        exact @tracksCarved pid h σ size _ tracks small
      · rw [call] at cases_
        simp at cases_
    · obtain ⟨kept, silent⟩ := popKeeps (k := k) small empty
      rw [last] at kept silent
      refine tracksKept tracks kept fun t => ?_
      rw [silent]
      exact carvesSilent

theorem runTracks (run : Run pid (anyhow pid) within h σ) : Tracks pid h σ := by
  refine @Trace.runInvariant _ _ _ _ h σ (Tracks pid) (fun σ begun => ?_)
    (fun _ _ _ _ tracks taken => stepTracks tracks taken) run
  obtain ⟨fd, size, calls, rfl⟩ := startedState begun
  exact ⟨rfl, fun t cls => (congrArg Freelist.highCanonicalAddr (if_pos cls)).trans
    (canonicalStart t).symm⟩

theorem mallocMaps (tracks : Tracks pid h σ) (mine : k.pid = pid) {size addr length offset : Nat}
    (small : size ≤ largestBlockSize)
    (call : .mmap addr length offset ∈ (final (xxmalloc k size σ.clear)).calls) :
    offset = roundDown (σ.gFlsts (blockType size)).highCanonicalAddr pageSize ∧
    (offset + pageSize ≤ dataSize ↔
      carvings (blockType size) h < fullFile * perPage (blockType size)) := by
  have cls := blockTypeLt small
  rw [mallocSmall (σ := σ.clear) (tracks.par.trans mine.symm) small] at call
  have same : offset = roundDown (σ.gFlsts (blockType size)).highCanonicalAddr pageSize := by
    by_cases empty : (σ.clear.gFlsts (blockType size)).topOfStack = 0
    · rw [popEmpty cls empty, (carveCases k (blockType size) (σ.clear.gFlsts _) σ.clear).1] at call
      simp only [State.clear, List.mem_singleton, Call.mmap.injEq] at call
      exact call.2.2
    · rw [(popKeeps (k := k) small empty).2] at call
      simp [State.clear] at call
  refine ⟨same, ?_⟩
  rw [same, tracks.canonical _ cls]
  exact offsetInside cls _

theorem mappedInsideFile (pid : Nat) :
    (∀ h σ, Run pid (anyhow pid) Unlimited h σ → ∀ k size, k.pid = pid → size ≤ largestBlockSize →
      ∀ addr length offset, .mmap addr length offset ∈ (final (xxmalloc k size σ.clear)).calls →
        offset = roundDown (σ.gFlsts (blockType size)).highCanonicalAddr pageSize ∧
        (offset + pageSize ≤ dataSize ↔
          carvings (blockType size) h < 2 ^ 25 * perPage (blockType size))) ∧
    ∀ h σ, Run pid (reliably pid) Within h σ → ∀ t, carvings t h = peak t h :=
  ⟨fun _ _ run _ _ mine small _ _ _ call => mallocMaps (runTracks run) mine small call,
    fun _ _ run t => ((runBalance run).peaked t).symm⟩

theorem firstPageInside :
    (∃ addr length offset, .mmap addr length offset ∈ (final (xxmalloc steady 16 begun.clear)).calls ∧
      (offset + pageSize ≤ dataSize ↔ carvings (blockType 16) [] < 2 ^ 25 * perPage (blockType 16))) ∧
    carvings 0 RetryDamage.twoHistory = peak 0 RetryDamage.twoHistory := by
  obtain ⟨files, counts⟩ := mappedInsideFile 1
  have served := carveCall (σ := begun) rfl rfl (by decide) (by decide) (by decide)
  have call : .mmap mmapMinAddr pageSize 0 ∈ (final (xxmalloc steady 16 begun.clear)).calls := by
    rw [finalOk (show xxmalloc steady 16 begun.clear = _ from served)]
    exact List.mem_singleton.mpr rfl
  exact ⟨⟨_, _, _, call, (files [] begun (.init begunStarted) steady 16 rfl (by decide) _ _ _ call).2⟩,
    counts _ _ RetryDamage.twoRun 0⟩

theorem mappedPastFile : ¬ ∀ h σ, Run 1 (reliably 1) Within h σ → ∀ k size, k.pid = 1 →
    size ≤ largestBlockSize → ∀ addr length offset,
      .mmap addr length offset ∈ (final (xxmalloc k size σ.clear)).calls →
        offset + pageSize ≤ dataSize := by
  intro always
  obtain ⟨h, σ, run, filling, _⟩ := fillingRun (.init begunStarted) fillingBegun (Nat.zero_le _)
    fullFile (Nat.le_refl _)
  have clear := fillingClear filling
  have calls := (carveCases steady 7 ⟨0, 7 * pageSize + 16 + 8 * pageSize * fullFile⟩ σ.clear).1
  rw [← fillingPop clear, ← mallocSmall (k := steady) (σ := σ.clear) filling.par (by decide)] at calls
  have inside := always h σ run steady 2048 rfl (by decide) _ _ _ (calls ▸ List.mem_cons_self)
  exact absurd inside (by decide)

end Nuaf.BackingFile
