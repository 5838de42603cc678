import Nuaf.ExportedCalls
import Nuaf.WrapperRequests

/-! What a program may ask of the exported functions, and what it is answered. `after` is the heap
of the C library's manual, but that a refused realloc frees the old object and sizes are as the
machine wraps them. -/
namespace Nuaf.Requests
open CallTree ByteHeap Layout Nuaf.Sequential Wrapper LocalHeap ExportedCalls

def resized (H : Objects) (ptr size : Nat) : Cells :=
  match H ptr with
  | some c => (Cells.blank size).copy c (min c.size size)
  | none => .blank size

def makes (H : Objects) : Request → Cells
  | .calloc nelem elsize => (Cells.blank (nelem * elsize)).fill (nelem * elsize) 0
  | .realloc ptr size => resized H ptr size
  | .recalloc ptr num size =>
    if ptr = 0 then (Cells.blank (wrap (num * size))).fill (wrap (num * size)) 0
    else resized H ptr (wrap (num * size))
  | .strdup _ text | .strndup _ _ text => .text (text ++ [0])
  | r => .blank r.room

def refused : Request → Prop
  | .malloc size | .new size | .newNothrow size => 2 ^ 63 ≤ size
  | .memalign alignment size | .posixMemalign alignment size =>
    Invalid alignment ∨ 2 ^ 63 ≤ size + padding alignment
  | .alignedAlloc alignment size =>
    Invalid alignment ∨ 2 ^ 63 ≤ roundedSize alignment size + padding alignment
  | .valloc size => 2 ^ 63 ≤ size + padding 8192
  | .pvalloc size => 2 ^ 63 ≤ (Request.pvalloc size).room + padding 8192
  | .calloc nelem elsize => 2 ^ 63 ≤ nelem * elsize
  | .realloc ptr size => ptr ≠ 0 ∧ size = 0 ∨ 2 ^ 63 ≤ size
  | .recalloc ptr num size => ptr ≠ 0 ∧ wrap (num * size) = 0 ∨ 2 ^ 63 ≤ wrap (num * size)
  | .strdup s _ | .strndup s _ _ => s = 0
  | _ => True

def after (H : Objects) (r : Request) (v : Nat) : Objects :=
  match r with
  | .goodSize _ => H
  | .usableSize ptr =>
    match H ptr with
    | some c => H.put ptr { c with size := v }
    | none => H
  | r => if v = 0 then H.drop r.gone else (H.drop r.gone).put v (makes H r)

def Answered (H : Objects) (r : Request) (v : Nat) : Prop :=
  match r with
  | .goodSize size => if 2 ^ 63 ≤ size then v = 0 else size ≤ v
  | .usableSize ptr => (ptr = 0 → v = 0) ∧ ∀ c, H ptr = some c → c.size ≤ v
  | r => (v = 0 ↔ refused r) ∧ (v ≠ 0 → v % byteAlignment = 0 ∧ (H.drop r.gone) v = none)

inductive Asks (H : Objects) : Request → Prop where
  | malloc (size) : Asks H (.malloc size)
  | calloc (nelem elsize) : Asks H (.calloc nelem elsize)
  | realloc {ptr c} (mine : H ptr = some c) (size) : Asks H (.realloc ptr size)
  | reallocNull (size) : Asks H (.realloc 0 size)
  | recalloc {ptr c} (mine : H ptr = some c) (num size) : Asks H (.recalloc ptr num size)
  | recallocNull (num size) : Asks H (.recalloc 0 num size)
  | memalign {alignment} (small : alignment ≤ 16) (size) : Asks H (.memalign alignment size)
  | posixMemalign {alignment} (small : alignment ≤ 16) (size) : Asks H (.posixMemalign alignment size)
  | alignedAlloc {alignment} (real : 0 < alignment) (small : alignment ≤ 16) (size) :
      Asks H (.alignedAlloc alignment size)
  | strdup {p j c text} (here : H p = some c) (at' : TextAt c j text) (closed : Closed c j text) :
      Asks H (.strdup (p + j) text)
  | strdupNull : Asks H (.strdup 0 [])
  | strndup {p j c text size} (here : H p = some c) (at' : TextAt c j text)
      (cut : text.length ≤ size) (closed : text.length < size → Closed c j text) :
      Asks H (.strndup (p + j) size text)
  | strndupNull (size) : Asks H (.strndup 0 size [])
  | new (size) : Asks H (.new size)
  | newNothrow (size) : Asks H (.newNothrow size)
  | free {ptr c} (mine : H ptr = some c) : Asks H (.free ptr)
  | freeNull : Asks H (.free 0)
  | cfree {ptr c} (mine : H ptr = some c) : Asks H (.cfree ptr)
  | cfreeNull : Asks H (.cfree 0)
  | delete {ptr c} (mine : H ptr = some c) : Asks H (.delete ptr)
  | deleteNull : Asks H (.delete 0)
  | usableSize {ptr c} (mine : H ptr = some c) : Asks H (.usableSize ptr)
  | usableNull : Asks H (.usableSize 0)
  | goodSize (size) : Asks H (.goodSize size)

variable {n p v : Nat} {H L : Objects} {c : Cells} {h : List (Op × Nat)} {r : Request}
  {null : Prop}

structure Served (H : Objects) (r : Request) (v : Nat) (h : List (Op × Nat)) (L : Objects) :
    Prop where
  answered : Answered H r v
  knows : Knows (after H r v) h L

def Plain : Request → Prop
  | .usableSize _ | .goodSize _ => False
  | _ => True

theorem afterPlain (plain : Plain r) :
    after H r v = if v = 0 then H.drop r.gone else (H.drop r.gone).put v (makes H r) := by
  cases r <;> first | rfl | cases plain

theorem answeredPlain (plain : Plain r) : Answered H r v ↔ (v = 0 ↔ refused r) ∧
    (v ≠ 0 → v % byteAlignment = 0 ∧ (H.drop r.gone) v = none) := by
  cases r <;> first | exact Iff.rfl | cases plain

theorem givenServed (plain : Plain r) (given : Given (H.drop r.gone) null c v h L)
    (same : null ↔ refused r) (cells : makes H r = c) : Served H r v h L := by
  have effect := @afterPlain v H r plain
  have reply := @answeredPlain v H r plain
  rw [← same] at reply
  cases given with
  | null refuses knows =>
    exact ⟨reply.mpr ⟨⟨fun _ => refuses, fun _ => rfl⟩, fun some => absurd rfl some⟩,
      by rw [effect, if_pos rfl]; exact knows⟩
  | made grants some aligned fresh knows =>
    refine ⟨reply.mpr ⟨⟨fun none => absurd none some, fun refuses => absurd refuses grants⟩,
      fun _ => ⟨aligned, fresh⟩⟩, ?_⟩
    rw [effect, if_neg some, cells]
    exact knows

theorem freshServed (plain : Plain r) (none : r.gone = 0) (knows : Knows H h L)
    {g : List (Op × Nat)} {G : Objects} (given : Given H null c v g G)
    (same : null ↔ refused r) (cells : makes H r = c) : Served H r v g G := by
  refine givenServed plain ?_ same cells
  rwa [none, dropNone (nullNone knows)]

theorem freedSafe (knows : Knows H h L) (mine : H p = some c ∨ p = 0) :
    Locally (do customFree p; pure 0) h L (Given (H.drop p) True (.blank 0)) := by
  rcases mine with mine | rfl
  · exact safeThen (freeSafe knows mine) fun _ h L freed => safePure 0 (.null trivial freed)
  · rw [dropNone (nullNone knows)]
    exact safeThen (nullSafe knows) fun _ h L freed => safePure 0 (.null trivial freed)

theorem newSafe (knows : Knows H h L) (n : Nat) :
    Locally (serve (.new n)) h L (Given H (2 ^ 63 ≤ n) (.blank n)) := by
  simp only [serve, operatorNew, bind_assoc]
  refine safeThen (mallocSafe knows n) fun p h L given => ?_
  by_cases none : p = 0
  · rw [if_pos none]
    exact safePure 0 (none ▸ given)
  · rw [if_neg none]
    exact safePure p given

theorem nullGiven (knows : Knows H h L) : Given (H.drop 0) True c 0 h L :=
  .null trivial (by rwa [dropNone (nullNone knows)])

theorem servedSafe (knows : Knows H h L) (asks : Asks H r) :
    Locally (serve r) h L (Served H r) := by
  cases asks with
  | malloc size =>
    exact safeMono (mallocSafe knows size) fun v h L given => freshServed (by trivial) rfl knows given .rfl rfl
  | calloc nelem elsize =>
    exact safeMono (callocSafe knows nelem elsize) fun v h L given =>
      freshServed (by trivial) rfl knows given .rfl rfl
  | realloc mine size =>
    have some := (knowsPlace knows mine).1
    refine safeMono (reallocSafe knows mine size) fun v h L given => ?_
    exact givenServed (by trivial) given (by simp [refused, some]) (by simp [makes, resized, mine])
  | reallocNull size =>
    refine safeMono (reallocNullSafe knows size) fun v h L given => ?_
    exact freshServed (by trivial) rfl knows given (by simp [refused])
      (by simp [makes, resized, nullNone knows])
  | recalloc mine num size =>
    have some := (knowsPlace knows mine).1
    refine safeMono (recallocSafe knows mine num size) fun v h L given => ?_
    exact givenServed (by trivial) given (by simp [refused, some])
      (by simp [makes, resized, mine, some])
  | recallocNull num size =>
    refine safeMono (recallocNullSafe knows num size) fun v h L given => ?_
    exact freshServed (by trivial) rfl knows given (by simp [refused]) (by simp [makes])
  | memalign small size =>
    exact safeMono (memalignSafe knows small size) fun v h L given =>
      freshServed (by trivial) rfl knows given .rfl rfl
  | posixMemalign small size =>
    rw [posixServes]
    exact safeMono (memalignSafe knows small size) fun v h L given =>
      freshServed (by trivial) rfl knows given .rfl rfl
  | alignedAlloc real small size =>
    rw [alignedServes real]
    exact safeMono (memalignSafe knows small _) fun v h L given =>
      freshServed (by trivial) rfl knows given .rfl rfl
  | strdup here at' closed =>
    have some := (knowsPlace knows here).1
    refine safeMono (strdupSafe knows here at' closed) fun v h L given => ?_
    exact freshServed (by trivial) rfl knows given (by simp [refused, some]) rfl
  | strdupNull =>
    exact safePure 0 (givenServed (by trivial) (nullGiven knows) (by simp [refused]) rfl)
  | strndup here at' cut closed =>
    have some := (knowsPlace knows here).1
    refine safeMono (strndupSafe knows here at' cut closed) fun v h L given => ?_
    exact freshServed (by trivial) rfl knows given (by simp [refused, some]) rfl
  | strndupNull size =>
    exact safePure 0 (givenServed (by trivial) (nullGiven knows) (by simp [refused]) rfl)
  | new size =>
    exact safeMono (newSafe knows size) fun v h L given => freshServed (by trivial) rfl knows given .rfl rfl
  | newNothrow size =>
    exact safeMono (mallocSafe knows size) fun v h L given => freshServed (by trivial) rfl knows given .rfl rfl
  | free mine => exact safeMono (freedSafe knows (.inl mine)) fun v h L given => givenServed (by trivial) given .rfl rfl
  | freeNull =>
    exact safeMono (freedSafe (c := .blank 0) knows (.inr rfl)) fun v h L given =>
      givenServed (by trivial) given .rfl rfl
  | cfree mine => exact safeMono (freedSafe knows (.inl mine)) fun v h L given => givenServed (by trivial) given .rfl rfl
  | cfreeNull =>
    exact safeMono (freedSafe (c := .blank 0) knows (.inr rfl)) fun v h L given =>
      givenServed (by trivial) given .rfl rfl
  | delete mine => exact safeMono (freedSafe knows (.inl mine)) fun v h L given => givenServed (by trivial) given .rfl rfl
  | deleteNull =>
    exact safeMono (freedSafe (c := .blank 0) knows (.inr rfl)) fun v h L given =>
      givenServed (by trivial) given .rfl rfl
  | usableSize mine =>
    have some := (knowsPlace knows mine).1
    refine safeMono (getsizeSafe knows mine) fun v h L ⟨long, sized⟩ => ⟨⟨fun none => absurd none some, ?_⟩, ?_⟩
    · intro d there
      cases mine.symm.trans there
      exact long
    · simpa only [after, mine] using sized
  | usableNull =>
    refine safeMono (nullSizeSafe knows) fun v h L ⟨zero, knows⟩ => ⟨⟨fun _ => zero, ?_⟩, ?_⟩
    · intro d there
      rw [nullNone knows] at there
      cases there
    · simpa only [after, nullNone knows] using knows
  | goodSize size =>
    exact safeMono (goodsizeSafe knows size) fun v h L ⟨answer, knows⟩ => ⟨answer, knows⟩

theorem asksMore {G : Objects} (more : ∀ q d, H q = some d → G q = some d) (asks : Asks H r) :
    Asks G r := by
  cases asks with
  | malloc size => exact .malloc size
  | calloc nelem elsize => exact .calloc nelem elsize
  | realloc mine size => exact .realloc (more _ _ mine) size
  | reallocNull size => exact .reallocNull size
  | recalloc mine num size => exact .recalloc (more _ _ mine) num size
  | recallocNull num size => exact .recallocNull num size
  | memalign small size => exact .memalign small size
  | posixMemalign small size => exact .posixMemalign small size
  | alignedAlloc real small size => exact .alignedAlloc real small size
  | strdup here at' closed => exact .strdup (more _ _ here) at' closed
  | strdupNull => exact .strdupNull
  | strndup here at' cut closed => exact .strndup (more _ _ here) at' cut closed
  | strndupNull size => exact .strndupNull size
  | new size => exact .new size
  | newNothrow size => exact .newNothrow size
  | free mine => exact .free (more _ _ mine)
  | freeNull => exact .freeNull
  | cfree mine => exact .cfree (more _ _ mine)
  | cfreeNull => exact .cfreeNull
  | delete mine => exact .delete (more _ _ mine)
  | deleteNull => exact .deleteNull
  | usableSize mine => exact .usableSize (more _ _ mine)
  | usableNull => exact .usableNull
  | goodSize size => exact .goodSize size

theorem goneOther (asks : Asks H r) (fresh : H p = none) (some : p ≠ 0) : r.gone ≠ p := by
  cases asks with
  | realloc mine | recalloc mine | free mine | cfree mine | delete mine => exact freshOther fresh mine
  | _ => exact Ne.symm some

theorem makesSame {G : Objects} (same : G r.gone = H r.gone) : makes G r = makes H r := by
  cases r <;> simp_all [makes, Request.gone, resized]

theorem servedMore {d : Cells} (asks : Asks H r) (served : Served H r v h L) (fresh : H p = none)
    (empty : L p = none) (some : p ≠ 0) (low : c.Below d) (placed : Placed (L.put p d)) :
    Served (H.put p c) r v h (L.put p d) := by
  suffices more : Answered (H.put p c) r v ∧ after (H.put p c) r v = (after H r v).put p c by
    exact ⟨more.1, more.2 ▸ served.knows.below.put low, placed⟩
  have held : after H r v p = none := served.knows.below.none empty
  by_cases plain : Plain r
  · have off := goneOther asks fresh some
    obtain ⟨null, real⟩ := (answeredPlain plain).mp served.answered
    rw [answeredPlain plain, afterPlain plain, afterPlain plain, dropPutOther (Ne.symm off),
      makesSame (putOther off)]
    rw [afterPlain plain] at held
    split
    · rename_i zero
      exact ⟨⟨null, fun made => absurd zero made⟩, rfl⟩
    · rename_i made
      rw [if_neg made] at held
      have other : v ≠ p := by
        rintro rfl
        rw [putSelf] at held
        cases held
      exact ⟨⟨null, fun _ => (real made).imp_right fun new => (putOther other).trans new⟩,
        putComm other⟩
  · cases asks with
    | goodSize size => exact ⟨served.answered, rfl⟩
    | usableNull =>
      refine ⟨⟨served.answered.1, fun d here => ?_⟩, ?_⟩
      · rw [putOther (Ne.symm some)] at here
        exact served.answered.2 d here
      · simp only [after, putOther (Ne.symm some)]
        cases H 0 with
        | none => rfl
        | some d => exact putComm (Ne.symm some)
    | usableSize mine =>
      have other := freshOther fresh mine
      refine ⟨⟨served.answered.1, fun d here => ?_⟩, ?_⟩
      · rw [putOther other] at here
        exact served.answered.2 d here
      · simp only [after, putOther other, mine]
        exact putComm other
    | _ => exact absurd trivial plain

end Nuaf.Requests
