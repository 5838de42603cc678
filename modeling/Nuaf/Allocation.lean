import Nuaf.LargeOperations

/-! What xxmalloc and xxfree do as whole calls on a heap that keeps the invariant. -/
namespace Nuaf.Heap
open Layout ByteMemory LinkedStack Machine Source

variable {k : Kernel} {σ σ' : State} {own : Owner} {chains : Chains} {size p : Nat}

theorem invSame (inv : Inv σ own chains) (mem : σ'.mem = σ.mem)
    (high : σ'.highVaddr = σ.highVaddr) (next : σ'.largeObjNextPage = σ.largeObjNextPage)
    (flsts : σ'.gFlsts = σ.gFlsts) : Inv σ' own chains := by
  refine invReplace (P := fun _ => False) inv (fun _ _ => rfl) (fun a _ => by rw [mem])
    (fun _ _ _ h => h.elim) ?_ ?_ (fun _ h => h.elim) (fun h => h.elim) (fun h => h.elim) ?_ ?_
    inv.chained
  · rw [high]
    exact highStays inv
  · rw [next]
    exact nextStays inv
  · rw [flsts]
    exact inv.canonical
  · rw [flsts, mem]
    exact inv.linked

theorem invClear (inv : Inv σ own chains) : Inv { σ with calls := [] } own chains :=
  invSame inv rfl rfl rfl rfl

theorem rangeTwice (first count : Nat) (use use' : Option Use) (own : Owner) :
    setRange first count use (setRange first count use' own) = setRange first count use own := by
  funext q
  unfold setRange
  split <;> rfl

def bigDone (numPages : Nat) (σ : State) : State :=
  wrote (σ.largeObjNextPage + 8) 8 numPages
    (wrote σ.largeObjNextPage 8 largeObjStartMagic (bigMapped numPages σ))

theorem bigPagesPositive (size : Nat) : 0 < bigPages size := Nat.succ_pos _

theorem bigPagesFits (positive : 0 < wrap (bigPages size * pageSize)) :
    bigPages size * pageSize < 2 ^ 64 := by
  unfold bigPages wrap at *
  simp only [pageSize] at *
  omega

theorem xxmallocBigRefused
    (refused : ¬ (k.mmapGrants = true ∧ 0 < wrap (bigPages size * pageSize) ∧
      σ.largeObjNextPage + wrap (bigPages size * pageSize) ≤ taskSize)) :
    ∃ σ', xxmallocBig k size σ = .error (.exit 1) σ' := by
  obtain ⟨σ', failed⟩ := bigMapRefused refused
  exact ⟨σ', bindError failed⟩

section
variable (fits : bigPages size * pageSize < 2 ^ 64)
  (room : σ.largeObjNextPage + bigPages size * pageSize ≤ taskSize)
include fits room

theorem bigHeaders :
    writeWord σ.largeObjNextPage 8 largeObjStartMagic (bigMapped (bigPages size) σ) =
      .ok () (wrote σ.largeObjNextPage 8 largeObjStartMagic (bigMapped (bigPages size) σ)) ∧
    writeWord (σ.largeObjNextPage + 8) 8 (bigPages size)
        (wrote σ.largeObjNextPage 8 largeObjStartMagic (bigMapped (bigPages size) σ)) =
      .ok () (bigDone (bigPages size) σ) := by
  have positive := bigPagesPositive size
  have mapped : ∀ i < 16, (bigMapped (bigPages size) σ).mem (σ.largeObjNextPage + i) ≠ none := by
    intro i hi
    rw [(bigMappedFields fits room).1, mapZeroIn (by simp only [pageSize]; omega)]
    simp
  have first : Mapped (bigMapped (bigPages size) σ).mem σ.largeObjNextPage 8 :=
    fun i hi => mapped i (by omega)
  have second : Mapped (wrote σ.largeObjNextPage 8 largeObjStartMagic
      (bigMapped (bigPages size) σ)).mem (σ.largeObjNextPage + 8) 8 := fun i hi => by
    rw [Ne, wrote, writeMapped first, Nat.add_assoc]
    exact mapped (8 + i) (by omega)
  exact ⟨writeWordOk first _, writeWordOk second _⟩

theorem xxmallocBigRun (grants : k.mmapGrants = true) :
    xxmallocBig k size σ = .ok (σ.largeObjNextPage + 16) (bigDone (bigPages size) σ) := by
  have length := wrapSmall fits
  have nonempty : 0 < wrap (bigPages size * pageSize) := by
    rw [length]
    exact Nat.mul_pos (bigPagesPositive size) (by decide)
  have map := bigMapRun (σ := σ) grants nonempty (by rwa [length])
  obtain ⟨magic, count⟩ := bigHeaders fits room
  exact (bindOk map).trans ((bindOk magic).trans (bindOk count))

end

inductive Grant (σ : State) (own : Owner) (chains : Chains) (size : Nat) :
    Nat → State → Owner → Chains → Prop where
  | carve (small : size ≤ largestBlockSize) (empty : chains (blockType size) = [])
      (room : σ.highVaddr + pageSize ≤ largeObjVaddrStart) :
      Grant σ own chains size
        (σ.highVaddr + (σ.gFlsts (blockType size)).highCanonicalAddr % pageSize)
        (carved (blockType size) (σ.gFlsts (blockType size)) σ)
        (carveOwner (blockType size) ((σ.gFlsts (blockType size)).highCanonicalAddr % pageSize) σ own)
        chains
  | pop {a rest link} (small : size ≤ largestBlockSize)
      (full : chains (blockType size) = a :: rest) (next : load σ.mem a 8 = some link) :
      Grant σ own chains size a (popped (blockType size) link σ)
        (popOwner (blockType size) a own) (Function.update chains (blockType size) rest)
  | large (big : largestBlockSize < size) (fits : bigPages size * pageSize < 2 ^ 64)
      (room : σ.largeObjNextPage + bigPages size * pageSize ≤ taskSize) :
      Grant σ own chains size (σ.largeObjNextPage + 16) (bigDone (bigPages size) σ)
        (setRange (σ.largeObjNextPage / pageSize) (bigPages size)
          (some (.big (σ.largeObjNextPage / pageSize) (bigPages size) 2)) own) chains

theorem topCases (inv : Inv σ own chains) {t : Nat} (cls : t < numBlockTypes) :
    ((σ.gFlsts t).topOfStack = 0 ∧ chains t = []) ∨
    ∃ rest link, (σ.gFlsts t).topOfStack ≠ 0 ∧ chains t = (σ.gFlsts t).topOfStack :: rest ∧
      load σ.mem (σ.gFlsts t).topOfStack 8 = some link := by
  have linked := inv.linked t cls
  cases full : chains t with
  | nil =>
    rw [full] at linked
    exact Or.inl ⟨linkedEmpty linked, rfl⟩
  | cons a rest =>
    rw [full] at linked
    obtain ⟨same, real⟩ := linkedHead linked
    obtain ⟨link, read, _⟩ := linkedTail linked
    rw [same]
    exact Or.inr ⟨rest, link, real, rfl, read⟩

theorem invBigDone (inv : Inv σ own chains) (fits : bigPages size * pageSize < 2 ^ 64)
    (room : σ.largeObjNextPage + bigPages size * pageSize ≤ taskSize) :
    Inv (bigDone (bigPages size) σ)
      (setRange (σ.largeObjNextPage / pageSize) (bigPages size)
        (some (.big (σ.largeObjNextPage / pageSize) (bigPages size) 2)) own) chains := by
  have positive := bigPagesPositive size
  have base := nextPage inv
  have inside : σ.largeObjNextPage / pageSize ≤ σ.largeObjNextPage / pageSize ∧
      σ.largeObjNextPage / pageSize < σ.largeObjNextPage / pageSize + bigPages size :=
    ⟨Nat.le_refl _, by omega⟩
  have mapped := invBigMap inv positive fits room
  have magic := invMagic mapped (rangeIn inside)
  have counted := invCount magic (rangeIn inside)
  rw [rangeTwice, rangeTwice, base] at counted
  exact counted

def PastFile (σ : State) (size : Nat) : Prop :=
  (σ.gFlsts (blockType size)).topOfStack = 0 ∧
    σ.fileSize ≤ roundDown (σ.gFlsts (blockType size)).highCanonicalAddr pageSize

def NoRoom (σ : State) (size : Nat) : Prop :=
  largestBlockSize < size ∧ (wrap (bigPages size * pageSize) = 0 ∨
    taskSize < σ.largeObjNextPage + wrap (bigPages size * pageSize))

theorem popStep (inv : Inv σ own chains) (small : size ≤ largestBlockSize) :
    (∃ p σ', freelistPop k size σ = .ok p σ') ∨
    (k.mmapGrants = false ∧ ∃ σ', freelistPop k size σ = .error (.exit 1) σ') ∨
    PastFile σ size ∧ ∃ σ', freelistPop k size σ = .error (.bus σ.highVaddr) σ' := by
  have cls := blockTypeLt small
  rcases topCases inv cls with ⟨empty, _⟩ | ⟨rest, link, real, _, read⟩
  · rw [popEmpty cls empty]
    by_cases grants : k.mmapGrants = true
    · have started : 0 < σ.highVaddr := by
        have := inv.highLow
        simp only [mmapMinAddr] at this
        omega
      rcases Nat.lt_or_ge (roundDown (σ.gFlsts (blockType size)).highCanonicalAddr pageSize)
        σ.fileSize with file | past
      · exact Or.inl ⟨_, _, carveRun grants started (taskRoom inv) file⟩
      · exact Or.inr (Or.inr ⟨⟨empty, past⟩, carvePastFile grants started (taskRoom inv) past⟩)
    · exact Or.inr (Or.inl ⟨Bool.eq_false_iff.mpr grants, carveRefused fun granted => grants granted.1⟩)
  · exact Or.inl ⟨_, _, popRun cls real read⟩

theorem xxmallocCases (inv : Inv σ own chains) (par : σ.parPs = k.pid) :
    (∃ p σ', xxmalloc k size σ = .ok p σ') ∨
    ((k.mmapGrants = false ∨ NoRoom σ size) ∧ ∃ σ', xxmalloc k size σ = .error (.exit 1) σ') ∨
    PastFile σ size ∧ ∃ σ', xxmalloc k size σ = .error (.bus σ.highVaddr) σ' := by
  rw [xxmalloc, bindOk (ensureInitRun par)]
  split
  · rename_i big
    by_cases granted : k.mmapGrants = true ∧ 0 < wrap (bigPages size * pageSize) ∧
        σ.largeObjNextPage + wrap (bigPages size * pageSize) ≤ taskSize
    · have fits := bigPagesFits granted.2.1
      exact Or.inl ⟨_, _, xxmallocBigRun fits (wrapSmall fits ▸ granted.2.2) granted.1⟩
    · refine Or.inr (Or.inl ⟨?_, xxmallocBigRefused granted⟩)
      rcases not_and_or.mp granted with refused | full
      · exact .inl (Bool.eq_false_iff.mpr refused)
      · exact .inr ⟨big, by omega⟩
  · rename_i small
    exact (popStep inv (Nat.not_lt.mp small)).imp_right fun stops => stops.imp_left (And.imp_left .inl)

theorem grantInv {own' : Owner} {chains' : Chains} (inv : Inv σ own chains)
    (grant : Grant σ own chains size p σ' own' chains') : Inv σ' own' chains' := by
  cases grant with
  | carve small _ room => exact invCarve inv (blockTypeLt small) room
  | pop small full next => exact invPop inv (blockTypeLt small) full next
  | large _ fits room => exact invBigDone inv fits room

theorem popGrant (inv : Inv σ own chains) (small : size ≤ largestBlockSize)
    (call : freelistPop k size σ = .ok p σ') (limit : σ'.highVaddr ≤ largeObjVaddrStart) :
    ∃ own' chains', Grant σ own chains size p σ' own' chains' := by
  have cls := blockTypeLt small
  rcases topCases inv cls with ⟨empty, none⟩ | ⟨rest, link, real, full, read⟩
  · rw [popEmpty cls empty] at call
    obtain ⟨_, _, task, _, rfl, rfl⟩ := carveInv call
    have room : σ.highVaddr + pageSize ≤ largeObjVaddrStart := by
      have advance : wrap (σ.highVaddr + pageSize) = σ.highVaddr + pageSize :=
        wrapSmall (by simp only [pageSize, taskSize] at *; omega)
      exact advance ▸ limit
    exact ⟨_, _, .carve small none room⟩
  · rw [popRun cls real read] at call
    cases call
    exact ⟨_, _, .pop small full read⟩

theorem xxmallocGrant (inv : Inv σ own chains) (par : σ.parPs = k.pid)
    (call : xxmalloc k size σ = .ok p σ') (limit : σ'.highVaddr ≤ largeObjVaddrStart) :
    ∃ own' chains', Grant σ own chains size p σ' own' chains' := by
  rw [xxmalloc, bindOk (ensureInitRun par)] at call
  split at call
  · rename_i big
    by_cases granted : k.mmapGrants = true ∧ 0 < wrap (bigPages size * pageSize) ∧
        σ.largeObjNextPage + wrap (bigPages size * pageSize) ≤ taskSize
    · have fits := bigPagesFits granted.2.1
      have room := wrapSmall fits ▸ granted.2.2
      rw [xxmallocBigRun fits room granted.1] at call
      cases call
      exact ⟨_, _, .large big fits room⟩
    · obtain ⟨τ, failed⟩ := @xxmallocBigRefused k σ size granted
      rw [failed] at call
      cases call
  · rename_i small
    exact popGrant inv (Nat.not_lt.mp small) call limit

end Nuaf.Heap
