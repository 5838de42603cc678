import Nuaf.AllocatorSource
import Nuaf.Library.LocalSections

/-! The single accesses the locked regions are made of: a word of memory, a variable, a call of the
kernel. Each one gets at few places, which is all that lets regions of different locks overlap. -/
namespace Nuaf.Accesses
open Layout ByteMemory Machine Source CallTree LocalSections

inductive Access where
  | load (addr width : Nat)
  | store (addr width value : Nat)
  | mmap (k : Kernel) (addr length offset : Nat)
  | munmap (addr length : Nat)
  | mremap (a : Attempt) (old oldLength newLength new : Nat)
  | touch (addr offset : Nat)
  | loadHigh
  | storeHigh (v : Nat)
  | loadNext
  | storeNext (v : Nat)
  | loadCount
  | storeCount (v : Nat)
  | loadTop (t : Int)
  | storeTop (t : Int) (v : Nat)
  | loadCanonical (t : Int)
  | storeCanonical (t : Int) (v : Nat)
  | stop (e : Halt)

def setTop (t : Int) (v : Nat) (σ : State) : State :=
  { σ with gFlsts := Function.update σ.gFlsts t.toNat { σ.gFlsts t.toNat with topOfStack := v } }

def setCanonical (t : Int) (v : Nat) (σ : State) : State :=
  { σ with gFlsts := Function.update σ.gFlsts t.toNat { σ.gFlsts t.toNat with highCanonicalAddr := v } }

def Access.perform : Access → AllocM Nat
  | .load addr width => readWord addr width
  | .store addr width value => do writeWord addr width value; pure 0
  | .mmap k addr length offset => Machine.mmap k addr length offset
  | .munmap addr length => do Machine.munmap addr length; pure 0
  | .mremap a old oldLength newLength new => Machine.mremap a old oldLength newLength new
  | .touch addr offset => do touchFile addr offset; pure 0
  | .loadHigh => do pure (← get).highVaddr
  | .storeHigh v => do modify fun σ => { σ with highVaddr := v }; pure 0
  | .loadNext => do pure (← get).largeObjNextPage
  | .storeNext v => do modify fun σ => { σ with largeObjNextPage := v }; pure 0
  | .loadCount => do pure (← get).numMappings
  | .storeCount v => do modify fun σ => { σ with numMappings := v }; pure 0
  | .loadTop t => do pure (← getFlst t).topOfStack
  | .storeTop t v => do modify (setTop t v); pure 0
  | .loadCanonical t => do pure (← getFlst t).highCanonicalAddr
  | .storeCanonical t v => do modify (setCanonical t v); pure 0
  | .stop e => throw e

/- What the state is made of, but for num_mappings, which the three places that count it share
without a common lock, and the record of kernel calls. -/
inductive Place where
  | byte (a : Nat)
  | high
  | next
  | lists
  | setup

def same : Place → State → State → Prop
  | .byte a, σ, τ => σ.mem a = τ.mem a
  | .high, σ, τ => σ.highVaddr = τ.highVaddr
  | .next, σ, τ => σ.largeObjNextPage = τ.largeObjNextPage
  | .lists, σ, τ => σ.gFlsts = τ.gFlsts
  | .setup, σ, τ => σ.fileSize = τ.fileSize ∧ σ.dataFd = τ.dataFd ∧ σ.parPs = τ.parPs

def bytes (inside : Nat → Prop) : Set Place
  | .byte a => inside a
  | _ => False

def Access.foot : Access → Set Place
  | .load addr width | .store addr width _ => bytes fun a => addr ≤ a ∧ a < addr + width
  | .mmap _ addr length _ | .munmap addr length => bytes fun a => addr ≤ a ∧ a < addr + length
  | .mremap _ old oldLength newLength new => bytes fun a => a = old ∨
      old ≤ a ∧ (a < old + oldLength ∨ a < old + newLength) ∨ new ≤ a ∧ a < new + newLength
  | .touch _ _ => {.setup}
  | .loadHigh | .storeHigh _ => {.high}
  | .loadNext | .storeNext _ => {.next}
  | .loadTop _ | .storeTop _ _ | .loadCanonical _ | .storeCanonical _ _ => {.lists}
  | .loadCount | .storeCount _ | .stop _ => ∅

def loose : Set Access
  | .loadCount | .storeCount _ => True
  | _ => False

variable {op : Access} {σ σ' τ : State} {v : Nat}

theorem sameEquivalence (l : Place) : Equivalence (same l) := by
  cases l with
  | byte a => exact ⟨fun _ => rfl, Eq.symm, Eq.trans⟩
  | high => exact ⟨fun _ => rfl, Eq.symm, Eq.trans⟩
  | next => exact ⟨fun _ => rfl, Eq.symm, Eq.trans⟩
  | lists => exact ⟨fun _ => rfl, Eq.symm, Eq.trans⟩
  | setup =>
    exact ⟨fun _ => ⟨rfl, rfl, rfl⟩, fun ⟨a, b, c⟩ => ⟨a.symm, b.symm, c.symm⟩,
      fun ⟨a, b, c⟩ ⟨d, e, f⟩ => ⟨a.trans d, b.trans e, c.trans f⟩⟩

theorem sameMem {m : Memory} {n : Nat} {calls : List Call} (l : Place)
    (mem : ∀ a, l = .byte a → σ.mem a = m a) :
    same l σ { σ with mem := m, numMappings := n, calls := calls } := by
  cases l with
  | byte a => exact mem a rfl
  | high | next | lists => rfl
  | setup => exact ⟨rfl, rfl, rfl⟩

theorem loadInv {addr width : Nat} (done : readWord addr width σ = .ok v σ') :
    load σ.mem addr width = some v ∧ σ' = σ := by
  cases read : load σ.mem addr width with
  | none =>
    rw [readWordFault read] at done
    cases done
  | some w =>
    rw [readWordOk read] at done
    cases done
    exact ⟨rfl, rfl⟩

theorem storeInv {addr width value : Nat} (done : Access.perform (.store addr width value) σ = .ok v σ') :
    Mapped σ.mem addr width ∧ v = 0 ∧ σ' = { σ with mem := write σ.mem addr width value } := by
  by_cases mapped : Mapped σ.mem addr width
  · rw [Access.perform, bindOk (writeWordOk mapped value)] at done
    cases done
    exact ⟨mapped, rfl, rfl⟩
  · rw [Access.perform, bindError (writeWordFault mapped value)] at done
    cases done

def remapped (a : Attempt) (old oldLength newLength new : Nat) (m : Memory) : Nat × Memory :=
  let trimmed := unmap m (old + newLength) (oldLength - newLength)
  if a.grants ∧ m old ≠ none ∧ new + newLength ≤ taskSize then (new, move trimmed old new newLength)
  else (mapFailed, if a.trims then trimmed else m)

theorem mremapSteps (a : Attempt) (old oldLength newLength new : Nat) (σ : State) :
    ∃ calls, Machine.mremap a old oldLength newLength new σ =
      .ok (remapped a old oldLength newLength new σ.mem).1
        { σ with mem := (remapped a old oldLength newLength new σ.mem).2, calls := calls } := by
  by_cases granted : a.grants = true ∧ σ.mem old ≠ none ∧ new + newLength ≤ taskSize
  all_goals refine ⟨.mremap old oldLength newLength new :: σ.calls, ?_⟩
  · simp only [mremapRun granted.1 granted.2.1 granted.2.2, remapped, if_pos granted]
  · simp only [mremapRefused granted, remapped, if_neg granted]

theorem remappedOut {a : Attempt} {old oldLength newLength new b : Nat} (m : Memory)
    (outside : .byte b ∉ (Access.mremap a old oldLength newLength new).foot) :
    (remapped a old oldLength newLength new m).2 b = m b := by
  have away : ¬ (b = old ∨ old ≤ b ∧ (b < old + oldLength ∨ b < old + newLength) ∨
    new ≤ b ∧ b < new + newLength) := outside
  have kept : unmap m (old + newLength) (oldLength - newLength) b = m b := unmapOut (by omega)
  unfold remapped
  split
  · exact (moveOut (by omega) (by omega)).trans kept
  · dsimp only
    split
    · exact kept
    · rfl

theorem remappedCongr {a : Attempt} {old oldLength newLength new : Nat} {m n : Memory}
    (equal : ∀ b, .byte b ∈ (Access.mremap a old oldLength newLength new).foot → m b = n b) :
    (remapped a old oldLength newLength new m).1 = (remapped a old oldLength newLength new n).1 ∧
    ∀ b, .byte b ∈ (Access.mremap a old oldLength newLength new).foot →
      (remapped a old oldLength newLength new m).2 b = (remapped a old oldLength newLength new n).2 b := by
  have source : m old = n old := equal old (.inl rfl)
  have cut : ∀ b, .byte b ∈ (Access.mremap a old oldLength newLength new).foot →
      unmap m (old + newLength) (oldLength - newLength) b =
        unmap n (old + newLength) (oldLength - newLength) b := fun b here => unmapCongr (equal b here) _ _
  unfold remapped
  rw [source]
  split
  · exact ⟨rfl, fun b here => moveCongr (cut b here) fun i short => cut _ (.inr (.inl (by omega)))⟩
  · refine ⟨rfl, fun b here => ?_⟩
    dsimp only
    split
    · exact cut b here
    · exact equal b here

theorem mmapSteps (k : Kernel) (addr length offset : Nat) (σ : State) : ∃ calls,
    Machine.mmap k addr length offset σ = .ok (if k.mmapGrants ∧ 0 < length ∧ addr + length ≤ taskSize
        then addr else mapFailed)
      { σ with
        mem := if k.mmapGrants ∧ 0 < length ∧ addr + length ≤ taskSize
          then mapZero σ.mem addr length else σ.mem
        calls := calls } := by
  by_cases granted : k.mmapGrants = true ∧ 0 < length ∧ addr + length ≤ taskSize
  all_goals refine ⟨.mmap addr length offset :: σ.calls, ?_⟩
  · simp only [mmapRun granted.1 granted.2.1 granted.2.2 offset, if_pos granted]
  · simp only [mmapRefused granted offset, if_neg granted]

theorem flstInv {t : Int} {fl : Freelist} (done : getFlst t σ = .ok fl σ') :
    (0 ≤ t ∧ t < numBlockTypes) ∧ fl = σ.gFlsts t.toNat ∧ σ' = σ := by
  by_cases range : 0 ≤ t ∧ t < numBlockTypes
  · rw [getFlst, if_pos range, bindOk (getRun σ)] at done
    cases done
    exact ⟨range, rfl, rfl⟩
  · rw [getFlst, if_neg range] at done
    cases done

theorem touchInv {addr offset : Nat} (done : Access.perform (.touch addr offset) σ = .ok v σ') :
    offset < σ.fileSize ∧ v = 0 ∧ σ' = σ := by
  by_cases file : offset < σ.fileSize
  · rw [Access.perform, bindOk (touchFileRun file addr)] at done
    cases done
    exact ⟨file, rfl, rfl⟩
  · rw [Access.perform, bindError (touchFilePast (Nat.not_lt.mp file) addr)] at done
    cases done

theorem performSpares (done : op.perform σ = .ok v σ') (l : Place)
    (away : l ∉ op.foot ∨ l ∈ ({.setup} : Set Place)) : same l σ σ' := by
  cases op with
  | load addr width =>
    obtain ⟨_, rfl⟩ := loadInv done
    exact (sameEquivalence l).refl _
  | store addr width value =>
    obtain ⟨_, _, rfl⟩ := storeInv done
    refine sameMem l fun a here => (writeOut fun inside => ?_).symm
    subst here
    exact away.elim (fun other => other inside) fun fixed => nomatch fixed
  | mmap k addr length offset =>
    obtain ⟨calls, run⟩ := mmapSteps k addr length offset σ
    cases run.symm.trans done
    refine sameMem l fun a here => ?_
    subst here
    split
    · exact (mapZeroOut fun inside => away.elim (fun other => other inside) fun fixed => nomatch fixed).symm
    · rfl
  | munmap addr length =>
    cases done
    refine sameMem l fun a here => (unmapOut fun inside => ?_).symm
    subst here
    exact away.elim (fun other => other inside) fun fixed => nomatch fixed
  | mremap a old oldLength newLength new =>
    obtain ⟨calls, run⟩ := mremapSteps a old oldLength newLength new σ
    cases run.symm.trans done
    refine sameMem l fun b here => ?_
    subst here
    exact (remappedOut σ.mem fun inside => away.elim (fun other => other inside) fun fixed =>
      nomatch fixed).symm
  | touch addr offset =>
    obtain ⟨_, _, rfl⟩ := touchInv done
    exact (sameEquivalence l).refl _
  | loadHigh | loadNext | loadCount =>
    cases done
    exact (sameEquivalence l).refl _
  | storeHigh | storeNext =>
    cases done
    cases l with
    | high | next => first | rfl | exact away.elim (fun other => absurd rfl other) fun fixed => nomatch fixed
    | byte | lists => rfl
    | setup => exact ⟨rfl, rfl, rfl⟩
  | storeCount w =>
    cases done
    cases l with
    | setup => exact ⟨rfl, rfl, rfl⟩
    | _ => rfl
  | loadTop t | loadCanonical t =>
    obtain ⟨fl, τ, found, last⟩ := bindInv done
    obtain ⟨_, _, rfl⟩ := flstInv found
    cases last
    exact (sameEquivalence l).refl _
  | storeTop | storeCanonical =>
    cases done
    cases l with
    | lists => exact away.elim (fun other => absurd rfl other) fun fixed => nomatch fixed
    | setup => exact ⟨rfl, rfl, rfl⟩
    | _ => rfl
  | stop e => cases done

theorem performDepends (tight : op ∉ loose) (done : op.perform σ = .ok v σ')
    (equal : ∀ l ∈ op.foot, same l σ τ) : ∃ τ', op.perform τ = .ok v τ' ∧ ∀ l ∈ op.foot, same l σ' τ' := by
  cases op with
  | load addr width =>
    obtain ⟨read, rfl⟩ := loadInv done
    have read' := (loadCongr fun i short => equal (.byte (addr + i)) ⟨by omega, by omega⟩).symm.trans read
    exact ⟨τ, readWordOk read', equal⟩
  | store addr width value =>
    obtain ⟨mapped, rfl, rfl⟩ := storeInv done
    have there : Mapped τ.mem addr width := fun i short =>
      ne_of_eq_of_ne (equal (.byte (addr + i)) ⟨by omega, by omega⟩).symm (mapped i short)
    refine ⟨_, bindOk (writeWordOk there value), fun l here => ?_⟩
    cases l with
    | byte a => exact writeCongr (equal (.byte a) here) _ _ _
    | _ => exact here.elim
  | mmap k addr length offset =>
    obtain ⟨calls, run⟩ := mmapSteps k addr length offset σ
    obtain ⟨calls', run'⟩ := mmapSteps k addr length offset τ
    cases run.symm.trans done
    refine ⟨_, run', fun l here => ?_⟩
    cases l with
    | byte a =>
      dsimp only [same]
      split
      · exact mapZeroCongr (equal (.byte a) here) _ _
      · exact equal (.byte a) here
    | _ => exact here.elim
  | munmap addr length =>
    cases done
    refine ⟨_, rfl, fun l here => ?_⟩
    cases l with
    | byte a => exact unmapCongr (equal (.byte a) here) _ _
    | _ => exact here.elim
  | mremap a old oldLength newLength new =>
    obtain ⟨calls, run⟩ := mremapSteps a old oldLength newLength new σ
    obtain ⟨calls', run'⟩ := mremapSteps a old oldLength newLength new τ
    obtain ⟨answer, bytes⟩ := remappedCongr fun b here => equal (.byte b) here
    cases run.symm.trans done
    refine ⟨_, answer ▸ run', fun l here => ?_⟩
    cases l with
    | byte b => exact bytes b here
    | _ => exact here.elim
  | touch addr offset =>
    obtain ⟨file, rfl, rfl⟩ := touchInv done
    have there := (equal .setup rfl).1 ▸ file
    exact ⟨τ, bindOk (touchFileRun there addr), equal⟩
  | loadHigh =>
    cases done
    exact ⟨τ, congrArg (EStateM.Result.ok · τ) (equal .high rfl).symm, equal⟩
  | loadNext =>
    cases done
    exact ⟨τ, congrArg (EStateM.Result.ok · τ) (equal .next rfl).symm, equal⟩
  | storeHigh | storeNext =>
    cases done
    refine ⟨_, rfl, fun l here => ?_⟩
    cases here
    rfl
  | loadCount | storeCount => exact absurd trivial tight
  | loadTop t | loadCanonical t =>
    obtain ⟨fl, υ, found, last⟩ := bindInv done
    obtain ⟨range, rfl, still⟩ := flstInv found
    cases last
    rw [still]
    refine ⟨τ, ?_, equal⟩
    rw [Access.perform, getFlst, if_pos range, show σ.gFlsts = τ.gFlsts from equal .lists rfl]
    rfl
  | storeTop t w | storeCanonical t w =>
    cases done
    have lists : σ.gFlsts = τ.gFlsts := equal .lists rfl
    refine ⟨_, rfl, fun l here => ?_⟩
    cases here
    dsimp only [same, setTop, setCanonical]
    rw [lists]
  | stop e => cases done

def device : Device Access Nat Halt State Place where
  perform := Access.perform
  same := same
  foot := Access.foot
  fixed := {.setup}
  loose := loose
  equivalence := sameEquivalence
  spares := performSpares
  depends := performDepends
  blank := fun {op} free => by cases op <;> first | rfl | exact free.elim
  answers := fun {op} free σ => by
    cases op <;> first | exact ⟨_, _, rfl⟩ | exact free.elim

end Nuaf.Accesses
