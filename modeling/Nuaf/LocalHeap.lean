import Nuaf.Library.ByteHeap
import Nuaf.WrapperSource

/-! The calls of wrapper.h as a program may think of them: each takes its byte heap to the next.
`Knows` is what is known of that heap, and there is one rule for each call and each access. -/
namespace Nuaf.LocalHeap
open CallTree ByteHeap Layout Nuaf.Sequential Wrapper

inductive Permits (H : Objects) : Op → Prop where
  | xxmalloc {n} (short : n < 2 ^ 63) : Permits H (.xxmalloc n)
  | xxfree {p c} (mine : H p = some c) : Permits H (.xxfree p)
  | freeNull : Permits H (.xxfree 0)
  | usableSize {p c} (mine : H p = some c) : Permits H (.usableSize p)
  | usableNull : Permits H (.usableSize 0)
  | load {s i p j c} (mine : H p = some c) (place : s + i = p + j) (inside : j < c.size) :
      Permits H (.load s i)
  | store {p i byte c} (mine : H p = some c) (inside : i < c.size) : Permits H (.store p i byte)

inductive Gives (H : Objects) : Op → Nat → Objects → Prop where
  | xxmalloc {n p} (some : p ≠ 0) (aligned : p % byteAlignment = 0) (top : p + n < 2 ^ 63)
      (fresh : H p = none) : Gives H (.xxmalloc n) p (H.put p (.blank n))
  | xxfree {p c v} (mine : H p = some c) : Gives H (.xxfree p) v (H.drop p)
  | freeNull {v} : Gives H (.xxfree 0) v H
  | usableSize {p c n} (mine : H p = some c) (long : c.size ≤ n) (top : p + n < 2 ^ 63) :
      Gives H (.usableSize p) n (H.put p { c with size := n })
  | usableNull : Gives H (.usableSize 0) 0 H
  | load {s i v} (read : ∀ p c j w, H p = some c → s + i = p + j → j < c.size →
      c.byte j = some w → v = w.toNat) : Gives H (.load s i) v H
  | store {p i byte c v} (mine : H p = some c) (inside : i < c.size) :
      Gives H (.store p i byte) v (H.put p (c.set i byte))

def Moves (_ : List (Op × Nat)) (H : Objects) (e : Op × Nat) (H' : Objects) : Prop :=
  Gives H e.1 e.2 H'

def Tells (e : Op × Nat) (op : Op) (v : Nat) : Prop := e = (op, v)

abbrev Locally {α : Type} (x : Calls α) (h : List (Op × Nat)) (H : Objects)
    (Q : α → List (Op × Nat) → Objects → Prop) : Prop :=
  Safe Moves Tells (fun _ H op => Permits H op) Q x h H

def Placed (H : Objects) : Prop :=
  ∀ p c, H p = some c → p ≠ 0 ∧ p % byteAlignment = 0 ∧ p + c.size < 2 ^ 63

structure Knows (K : Objects) (h : List (Op × Nat)) (H : Objects) : Prop where
  below : K.Below H
  placed : Placed H

inductive Given (K : Objects) (refused : Prop) (c : Cells) :
    Nat → List (Op × Nat) → Objects → Prop where
  | null {h H} (refuses : refused) (knows : Knows K h H) : Given K refused c 0 h H
  | made {p h H} (grants : ¬ refused) (some : p ≠ 0) (aligned : p % byteAlignment = 0)
      (fresh : K p = none) (knows : Knows (K.put p c) h H) : Given K refused c p h H

variable {n p s i j : Nat} {K L H : Objects} {c d : Cells} {h : List (Op × Nat)} {op : Op}
  {byte : UInt8}

theorem knowsBelow (knows : Knows L h H) (below : K.Below L) : Knows K h H :=
  ⟨Objects.Below.trans below knows.below, knows.placed⟩

theorem knowsPlace (knows : Knows K h H) (here : K p = some c) :
    p ≠ 0 ∧ p % byteAlignment = 0 ∧ p + c.size < 2 ^ 63 := by
  obtain ⟨d, there, low⟩ := knows.below p c here
  obtain ⟨some, aligned, top⟩ := knows.placed p d there
  have short := low.size
  exact ⟨some, aligned, by omega⟩

theorem putPlaced (placed : Placed H) (some : p ≠ 0) (aligned : p % byteAlignment = 0)
    (top : p + c.size < 2 ^ 63) : Placed (H.put p c) := by
  intro q d here
  by_cases self : q = p
  · subst self
    rw [putSelf] at here
    cases here
    exact ⟨some, aligned, top⟩
  · rw [putOther self] at here
    exact placed q d here

theorem dropPlaced (placed : Placed H) : Placed (H.drop p) := by
  intro q d here
  by_cases self : q = p
  · subst self
    rw [dropSelf] at here
    cases here
  · rw [dropOther self] at here
    exact placed q d here

theorem nullNone (knows : Knows K h H) : K 0 = none := by
  cases here : K 0 with
  | none => rfl
  | some c => exact absurd rfl (knowsPlace knows here).1

theorem givesPlaced (placed : Placed H) {v : Nat} {H' : Objects} (gives : Gives H op v H') :
    Placed H' := by
  cases gives with
  | xxmalloc some aligned top fresh => exact putPlaced placed some aligned top
  | xxfree => exact dropPlaced placed
  | freeNull | usableNull | load => exact placed
  | usableSize mine long top =>
    obtain ⟨some, aligned, _⟩ := placed _ _ mine
    exact putPlaced placed some aligned top
  | store mine inside =>
    obtain ⟨some, aligned, top⟩ := placed _ _ mine
    exact putPlaced placed some aligned top

theorem askSafe {Q : Nat → List (Op × Nat) → Objects → Prop} (permits : Permits H op)
    (holds : ∀ v H', Gives H op v H' → Q v ((op, v) :: h) H') : Locally (ask op) h H Q := by
  refine safeAsk permits fun e H' v gives answer => ?_
  cases answer
  exact holds v H' gives

theorem topBit : n >>> 63 ≠ 0 ↔ 2 ^ 63 ≤ n := by
  rw [Nat.shiftRight_eq_div_pow, Ne, Nat.div_eq_zero_iff]
  omega

theorem mallocSafe (knows : Knows K h H) (n : Nat) :
    Locally (customMalloc n) h H (Given K (2 ^ 63 ≤ n) (.blank n)) := by
  unfold customMalloc
  split
  · rename_i huge
    exact safePure 0 (.null (topBit.mp huge) knows)
  · rename_i short
    have short : n < 2 ^ 63 := Nat.lt_of_not_le (mt topBit.mpr short)
    refine askSafe (.xxmalloc short) fun p H' gives => ?_
    have placed := givesPlaced knows.placed gives
    cases gives with
    | xxmalloc some aligned top fresh =>
      exact .made (Nat.not_le.mpr short) some aligned (knows.below.none fresh)
        ⟨knows.below.put (.refl _), placed⟩

theorem freeSafe (knows : Knows K h H) (here : K p = some c) :
    Locally (customFree p) h H fun _ => Knows (K.drop p) := by
  obtain ⟨d, there, _⟩ := knows.below p c here
  refine safeThen (Q := fun _ => Knows (K.drop p)) (askSafe (.xxfree there) fun v H' gives => ?_)
    fun _ h H after => safePure () after
  have placed := givesPlaced knows.placed gives
  cases gives with
  | xxfree => exact ⟨knows.below.drop, placed⟩
  | freeNull => exact absurd rfl (knows.placed 0 d there).1

theorem nullSafe (knows : Knows K h H) : Locally (customFree 0) h H fun _ => Knows K := by
  refine safeThen (Q := fun _ => Knows K) (askSafe .freeNull fun v H' gives => ?_)
    fun _ h H after => safePure () after
  cases gives with
  | xxfree mine => exact absurd rfl (knows.placed 0 _ mine).1
  | freeNull => exact ⟨knows.below, knows.placed⟩

theorem getsizeSafe (knows : Knows K h H) (here : K p = some c) :
    Locally (customGetsize p) h H fun n h H =>
      c.size ≤ n ∧ Knows (K.put p { c with size := n }) h H := by
  obtain ⟨d, there, low⟩ := knows.below p c here
  refine askSafe (.usableSize there) fun n H' gives => ?_
  have placed := givesPlaced knows.placed gives
  cases gives with
  | usableSize mine long =>
    cases there.symm.trans mine
    exact ⟨Nat.le_trans low.size long, knows.below.put ⟨Nat.le_refl n, low.byte⟩, placed⟩
  | usableNull => exact absurd rfl (knows.placed 0 d there).1

theorem nullSizeSafe (knows : Knows K h H) :
    Locally (customGetsize 0) h H fun n h H => n = 0 ∧ Knows K h H := by
  refine askSafe .usableNull fun n H' gives => ?_
  cases gives with
  | usableSize mine => exact absurd rfl (knows.placed 0 _ mine).1
  | usableNull => exact ⟨rfl, knows.below, knows.placed⟩

theorem loadSafe (knows : Knows K h H) (here : K p = some c) (place : s + i = p + j)
    (inside : j < c.size) : Locally (ask (.load s i)) h H fun v h H =>
      (∀ w, c.byte j = some w → v = w.toNat) ∧ Knows K h H := by
  obtain ⟨d, there, low⟩ := knows.below p c here
  have within : j < d.size := Nat.lt_of_lt_of_le inside low.size
  refine askSafe (.load there place within) fun v H' gives => ?_
  cases gives with
  | load read =>
    exact ⟨fun w known => read p d j w there place within (low.byte j w known), knows.below,
      knows.placed⟩

theorem storeSafe (knows : Knows K h H) (here : K p = some c) (inside : i < c.size) :
    Locally (ask (.store p i byte)) h H fun _ => Knows (K.put p (c.set i byte)) := by
  obtain ⟨d, there, low⟩ := knows.below p c here
  refine askSafe (.store there (Nat.lt_of_lt_of_le inside low.size)) fun v H' gives => ?_
  have placed := givesPlaced knows.placed gives
  cases gives with
  | store mine =>
    cases there.symm.trans mine
    exact ⟨knows.below.put (setBelow low), placed⟩

theorem freshOther (fresh : H p = none) {q : Nat} (here : H q = some d) : q ≠ p := by
  rintro rfl
  rw [fresh] at here
  cases here

theorem permitsFree (permits : Permits H (.xxfree p)) (real : p ≠ 0) : ∃ c, H p = some c := by
  cases permits with
  | xxfree mine => exact ⟨_, mine⟩
  | freeNull => exact absurd rfl real

theorem permitsSize (permits : Permits H (.usableSize p)) (real : p ≠ 0) : ∃ c, H p = some c := by
  cases permits with
  | usableSize mine => exact ⟨_, mine⟩
  | usableNull => exact absurd rfl real

theorem permitsMore {G : Objects} (more : ∀ q d, H q = some d → G q = some d)
    (permits : Permits H op) : Permits G op := by
  cases permits with
  | xxmalloc short => exact .xxmalloc short
  | xxfree mine => exact .xxfree (more _ _ mine)
  | freeNull => exact .freeNull
  | usableSize mine => exact .usableSize (more _ _ mine)
  | usableNull => exact .usableNull
  | load mine place inside => exact .load (more _ _ mine) place inside
  | store mine inside => exact .store (more _ _ mine) inside

theorem morePut (fresh : H p = none) {q : Nat} (here : H q = some d) : (H.put p c) q = some d :=
  (putOther (freshOther fresh here)).trans here

theorem givesFramed (fresh : H p = none) (placed : Placed (H.put p c)) (permits : Permits H op)
    {v : Nat} {G : Objects} (gives : Gives (H.put p c) op v G) :
    ∃ H', Gives H op v H' ∧ H' p = none ∧ G = H'.put p c := by
  have null : ∀ d, (H.put p c) 0 ≠ some d := fun d here => (placed 0 d here).1 rfl
  cases gives with
  | xxmalloc some aligned top new =>
    have other : v ≠ p := by
      rintro rfl
      rw [putSelf] at new
      cases new
    rw [putOther other] at new
    exact ⟨_, .xxmalloc some aligned top new, (putOther (Ne.symm other)).trans fresh, putComm other⟩
  | @xxfree q d v here =>
    cases permits with
    | xxfree mine =>
      have other := freshOther fresh mine
      exact ⟨_, .xxfree mine, (dropOther (Ne.symm other)).trans fresh, dropPutOther (Ne.symm other)⟩
    | freeNull => exact absurd here (null d)
  | freeNull =>
    cases permits with
    | xxfree mine => exact absurd (morePut fresh mine) (null _)
    | freeNull => exact ⟨H, .freeNull, fresh, rfl⟩
  | @usableSize q d n here long top =>
    cases permits with
    | usableSize mine =>
      have other := freshOther fresh mine
      rw [putOther other] at here
      exact ⟨_, .usableSize here long top, (putOther (Ne.symm other)).trans fresh, putComm other⟩
    | usableNull => exact absurd here (null d)
  | usableNull =>
    cases permits with
    | usableSize mine => exact absurd (morePut fresh mine) (null _)
    | usableNull => exact ⟨H, .usableNull, fresh, rfl⟩
  | load read =>
    exact ⟨H, .load fun q d j w here => read q d j w (morePut fresh here), fresh, rfl⟩
  | @store q i byte d v here inside =>
    cases permits with
    | store mine within =>
      have other := freshOther fresh mine
      rw [putOther other] at here
      exact ⟨_, .store here inside, (putOther (Ne.symm other)).trans fresh, putComm other⟩

theorem framed {α : Type} {x : Calls α} {Q : α → List (Op × Nat) → Objects → Prop}
    (safe : Locally x h H Q) (fresh : H p = none) (placed : Placed (H.put p c)) :
    Locally x h (H.put p c) fun a h G =>
      ∃ H, Q a h H ∧ H p = none ∧ G = H.put p c ∧ Placed G := by
  have sound := @safeTransfer Op Nat α (Op × Nat) Objects Moves Tells x Q
    (fun _ H op => Permits H op) h H (Op × Nat) Objects Moves Tells (fun _ H op => Permits H op)
    (fun h H g G => h = g ∧ H p = none ∧ G = H.put p c ∧ Placed G) h (H.put p c) ?_ safe
    ⟨rfl, fresh, rfl, placed⟩
  · refine safeMono sound ?_
    rintro a g G ⟨h, H, holds, rfl, rest⟩
    exact ⟨H, holds, rest⟩
  rintro h H g G op ⟨rfl, fresh, rfl, placed⟩ permits
  refine ⟨permitsMore (fun q d => morePut fresh) permits, fun e G v gives answer => ?_⟩
  cases answer
  obtain ⟨H', given, empty, same⟩ := givesFramed fresh placed permits gives
  exact ⟨(op, v), H', given, rfl, rfl, empty, same, givesPlaced placed gives⟩

end Nuaf.LocalHeap
