import Mathlib.Logic.Function.Basic

/-! Heaps of byte arrays, as a program thinks of them: disjoint objects by their addresses, each
with a length and what is known of its bytes. `Below` forgets lengths and bytes; what is shown of
a heap is shown of every heap below it. -/
namespace ByteHeap

structure Cells where
  size : Nat
  byte : Nat → Option UInt8

abbrev Objects := Nat → Option Cells

def Cells.blank (size : Nat) : Cells := ⟨size, fun _ => none⟩

def Cells.text (bytes : List UInt8) : Cells := ⟨bytes.length, fun i => bytes[i]?⟩

def Cells.set (c : Cells) (i : Nat) (v : UInt8) : Cells :=
  { c with byte := Function.update c.byte i (some v) }

def Cells.fill (c : Cells) (n : Nat) (v : UInt8) : Cells :=
  { c with byte := fun i => if i < n then some v else c.byte i }

def Cells.copy (c src : Cells) (n : Nat) : Cells :=
  { c with byte := fun i => if i < n then src.byte i else c.byte i }

def Objects.put (H : Objects) (p : Nat) (c : Cells) : Objects := Function.update H p (some c)

def Objects.drop (H : Objects) (p : Nat) : Objects := Function.update H p none

structure Cells.Below (c d : Cells) : Prop where
  size : c.size ≤ d.size
  byte : ∀ i v, c.byte i = some v → d.byte i = some v

def Objects.Below (H G : Objects) : Prop := ∀ p c, H p = some c → ∃ d, G p = some d ∧ c.Below d

variable {H G : Objects} {c d e : Cells} {p q n i : Nat} {v : UInt8}

@[simp] theorem putSelf : (H.put p c) p = some c := Function.update_self _ _ _

@[simp] theorem putOther (other : q ≠ p) : (H.put p c) q = H q := Function.update_of_ne other _ _

@[simp] theorem dropSelf : (H.drop p) p = none := Function.update_self _ _ _

@[simp] theorem dropOther (other : q ≠ p) : (H.drop p) q = H q := Function.update_of_ne other _ _

theorem putTwice : (H.put p c).put p d = H.put p d := Function.update_idem _ _ _

theorem putComm (other : q ≠ p) : (H.put p c).put q d = (H.put q d).put p c :=
  Function.update_comm (Ne.symm other) _ _ _

theorem putDrop (fresh : H p = none) : (H.put p c).drop p = H := by
  funext q
  by_cases here : q = p
  · rw [here, dropSelf, fresh]
  · rw [dropOther here, putOther here]

theorem dropNone (none : H p = none) : H.drop p = H := by
  rw [Objects.drop, ← none, Function.update_eq_self]

theorem putGone : (H.put p c).drop p = H.drop p := Function.update_idem _ _ _

theorem dropPut : (H.drop p).put p c = H.put p c := Function.update_idem _ _ _

theorem dropPutOther (other : q ≠ p) : (H.put q c).drop p = (H.drop p).put q c :=
  Function.update_comm other _ _ _

theorem putHere (here : H p = some c) : H.put p c = H := by
  rw [Objects.put, ← here, Function.update_eq_self]

theorem Cells.Below.refl (c : Cells) : c.Below c := ⟨Nat.le_refl _, fun _ _ known => known⟩

theorem Cells.Below.trans (low : c.Below d) (high : d.Below e) : c.Below e :=
  ⟨Nat.le_trans low.size high.size, fun i v known => high.byte i v (low.byte i v known)⟩

theorem Objects.Below.refl (H : Objects) : H.Below H := fun _ c here => ⟨c, here, .refl c⟩

theorem Objects.Below.trans {K : Objects} (low : K.Below H) (high : H.Below G) : K.Below G := by
  intro p c here
  obtain ⟨d, there, left⟩ := low p c here
  obtain ⟨e, last, right⟩ := high p d there
  exact ⟨e, last, left.trans right⟩

theorem Objects.Below.none (below : H.Below G) (empty : G p = none) : H p = none := by
  cases here : H p with
  | none => rfl
  | some c =>
    obtain ⟨d, there, _⟩ := below p c here
    rw [empty] at there
    cases there

theorem Objects.Below.put (below : H.Below G) (low : c.Below d) : (H.put p c).Below (G.put p d) := by
  intro q x here
  by_cases self : q = p
  · subst self
    rw [putSelf] at here ⊢
    cases here
    exact ⟨d, rfl, low⟩
  · rw [putOther self] at here ⊢
    exact below q x here

theorem Objects.Below.drop (below : H.Below G) : (H.drop p).Below (G.drop p) := by
  intro q x here
  by_cases self : q = p
  · subst self
    rw [dropSelf] at here
    cases here
  · rw [dropOther self] at here ⊢
    exact below q x here

theorem blankBelow (short : n ≤ c.size) : (Cells.blank n).Below c :=
  ⟨short, fun _ _ known => by cases known⟩

theorem setBelow (low : c.Below d) : (c.set i v).Below (d.set i v) := by
  refine ⟨low.size, fun j w known => ?_⟩
  by_cases here : j = i
  · subst here
    simpa [Cells.set] using known
  · have before := low.byte j w (by simpa [Cells.set, here] using known)
    simpa [Cells.set, here] using before

theorem fillNothing : (c.fill 0 v).Below c := by
  refine ⟨Nat.le_refl _, fun i w known => ?_⟩
  simpa [Cells.fill] using known

theorem fillNext : (c.fill (n + 1) v).Below ((c.fill n v).set n v) := by
  refine ⟨Nat.le_refl _, fun i w known => ?_⟩
  by_cases here : i = n
  · subst here
    simpa [Cells.fill, Cells.set] using known
  · have before : i < n + 1 ↔ i < n := by omega
    simp only [Cells.fill, before] at known
    simpa [Cells.fill, Cells.set, here] using known

theorem blankCopied (short : n ≤ d.size)
    (known : ∀ j < i, ∀ v, c.byte j = some v → d.byte j = some v) :
    ((Cells.blank n).copy c i).Below d := by
  refine ⟨short, fun j v here => ?_⟩
  by_cases inside : j < i
  · exact known j inside v (by simpa [Cells.copy, inside] using here)
  · simp [Cells.copy, inside, Cells.blank] at here

theorem copyNothing : (c.copy d 0).Below c := by
  refine ⟨Nat.le_refl _, fun i v known => ?_⟩
  simpa [Cells.copy] using known

theorem copyNext (read : ∀ w, d.byte n = some w → w = v) :
    (c.copy d (n + 1)).Below ((c.copy d n).set n v) := by
  refine ⟨Nat.le_refl _, fun i w known => ?_⟩
  by_cases here : i = n
  · subst here
    have known : d.byte i = some w := by simpa [Cells.copy] using known
    simp [Cells.set, read w known]
  · have before : i < n + 1 ↔ i < n := by omega
    simp only [Cells.copy, before] at known
    simpa [Cells.copy, Cells.set, here] using known

theorem textCopied (bytes : List UInt8) : (Cells.text bytes).Below
    ((Cells.blank bytes.length).copy (.text bytes) bytes.length) := by
  refine ⟨Nat.le_refl _, fun i v known => ?_⟩
  have inside : i < bytes.length := (List.getElem?_eq_some_iff.mp known).1
  simpa [Cells.copy, inside] using known

end ByteHeap
