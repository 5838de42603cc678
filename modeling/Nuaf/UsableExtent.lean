import Nuaf.AlignedCalls
import Nuaf.WrapperRequests
import Nuaf.InteriorPointers

/-! xxmalloc_usable_size as an extent. It answers for the whole object whatever pointer into
it is asked about, so counted from a pointer memalign rounded up it reaches past the end. -/
namespace Nuaf.UsableExtent
open CallTree Layout ByteMemory Machine Source Heap Nuaf.Sequential Exhaustion InteriorPointers Wrapper

def aligns : Request → Option (Nat × Nat)
  | .memalign alignment size | .posixMemalign alignment size => some (alignment, size)
  | .alignedAlloc alignment size => some (alignment, roundedSize alignment size)
  | _ => none

def holding (held : List Nat) (r : Request) (v : Nat) : List Nat :=
  let kept := held.filter (fun p => p ≠ r.gone)
  if r.hands v = 0 then kept else r.hands v :: kept

inductive Asks (held : List Nat) : Request → Prop where
  | malloc (size) : Asks held (.malloc size)
  | calloc (nelem elsize) : Asks held (.calloc nelem elsize)
  | memalign (alignment size) : Asks held (.memalign alignment size)
  | posixMemalign (alignment size) : Asks held (.posixMemalign alignment size)
  | alignedAlloc {alignment} (real : 0 < alignment) (size) : Asks held (.alignedAlloc alignment size)
  | realloc {ptr} (mine : ptr ≠ 0 → ptr ∈ held) (size) : Asks held (.realloc ptr size)
  | free {ptr} (mine : ptr ∈ held) : Asks held (.free ptr)
  | usableSize {ptr} (mine : ptr ∈ held) : Asks held (.usableSize ptr)

inductive Touches (held : List Nat) (h : History) (σ : State) : Op → Prop where
  | load {p index} (mine : p ∈ held) (inside : Usable σ p index) : Touches held h σ (.load p index)
  | store {p index byte} (mine : p ∈ held) (inside : Usable σ p index) :
      Touches held h σ (.store p index byte)
  | dangling {op} (dangling : Dangling h op) : Touches held h σ op

inductive Reaches (pid : Nat) (cond : Request → State → Prop) :
    History → State → List Nat → Prop where
  | begun {σ} (begun : Started pid σ) : Reaches pid cond [] σ []
  | served {h σ held r p h' σ'} (before : Reaches pid cond h σ held) (asks : Asks held r)
      (meets : cond r σ) (returns : Returns pid (serve r) h σ p h' σ') :
      Reaches pid cond h' σ' (holding held r p)
  | touched {h σ held e σ'} (before : Reaches pid cond h σ held)
      (taken : Step (fun h σ k op => Calm pid k σ op ∧ Touches held h σ op) Within h σ e σ') :
      Reaches pid cond (e :: h) σ' held

def Payload (b : Block) (a : Nat) : Prop :=
  if b.Small then b.ptr ≤ a ∧ a < b.ptr + 16 * 2 ^ blockType b.size
  else headerOf b + 16 ≤ a ∧ a < headerOf b + bigPages b.size * pageSize

structure FitsBlock (b : Block) (p : Nat) (σ : State) : Prop where
  inside : Payload b p
  extent : ∃ size, xxmallocUsableSize p σ = .ok size σ ∧ ∀ a, p ≤ a → a < p + size → Payload b a

def Meets (r : Request) (σ : State) : Prop := ∀ alignment size,
  aligns r = some (alignment, size) → alignment ≤ 16 ∨ servedAt σ size < alignment

variable {pid alignment size p : Nat} {h h' : History} {σ σ' : State} {own : Owner} {b : Block}
  {held : List Nat} {r : Request} {cond : Request → State → Prop}

theorem payloadCovers (sound : Sound pid h σ own) (owned : b ∈ live h) (a : Nat) :
    Payload b a ↔ b.Covers a := by
  unfold Payload
  by_cases small : b.Small
  · rw [if_pos small, Block.Covers, Inside, usableOf, if_pos (show b.size ≤ largestBlockSize from small),
      blockSizePow]
  · rw [if_neg small]
    refine ⟨fun inside => bigCovers sound owned small inside.1 inside.2, fun covers => ?_⟩
    have big := Nat.not_le.mp small
    have holds := sound.agrees.held b owned
    have offset := ((heldBig big).mp holds).2
    obtain ⟨_, high, low⟩ := insideBig big holds covers
    refine ⟨low, ?_⟩
    unfold headerOf
    simp only [pageSize] at *
    omega

theorem startFits (sound : Sound pid h σ own) (owned : b ∈ live h) : FitsBlock b b.ptr σ := by
  have inside := payloadCovers sound owned
  refine ⟨(inside _).mpr (insideSelf _ _), _,
    usableHeld sound.agrees.inv (sound.agrees.held b owned), fun a low high => ?_⟩
  exact (inside a).mpr ⟨low, high⟩

theorem misfitsPast (sound : Sound pid h σ own) (misfits : Misfits b p h σ) :
    ¬ ∃ c ∈ live h, FitsBlock c p σ := by
  rintro ⟨c, owned, inside, size, answer, fits⟩
  obtain ⟨mine, past, covers, clean⟩ := misfits
  have found := findCovers sound.agrees owned ((payloadCovers sound owned p).mp inside)
  obtain rfl := Option.some.inj ((findCovers sound.agrees mine covers).symm.trans found)
  rw [usableInside sound.agrees.inv (sound.agrees.held b mine) covers clean] at answer
  cases answer
  have positive := usablePositive b.size
  have last := (payloadCovers sound owned (p + usableOf b.size - 1)).mp
    (fits _ (by omega) (by omega))
  have high := last.2
  omega

theorem reachServes (real : 0 < alignment) (reach : aligns r = some (alignment, size)) :
    serve r = customMemalign alignment size := by
  cases r with
  | memalign => cases reach; rfl
  | posixMemalign => cases reach; exact posixServes alignment size
  | alignedAlloc => cases reach; exact alignedServes real _
  | _ => cases reach

structure Keeps (pid : Nat) (held : List Nat) (h : History) (σ : State) : Prop where
  run : Run pid (calmly pid) Within h σ
  starts : ∀ p ∈ held, ∃ b ∈ live h, b.ptr = p

theorem holdingKeeps (keeps : Keeps pid held h σ)
    (leaves : Leaves pid (live h) r.gone (r.hands p) h' σ') :
    Keeps pid (holding held r p) h' σ' := by
  have rest : ∀ q ∈ held.filter (fun q => q ≠ r.gone), ∃ b ∈ live h', b.ptr = q := by
    intro q member
    obtain ⟨mine, other⟩ := List.mem_filter.mp member
    obtain ⟨b, owned, rfl⟩ := keeps.starts q mine
    exact ⟨b, leaves.kept b owned (of_decide_eq_true other), rfl⟩
  refine ⟨leaves.run, fun q member => ?_⟩
  unfold holding at member
  split at member
  · exact rest q member
  · rename_i some
    rcases List.mem_cons.mp member with rfl | old
    · exact leaves.result (Nat.pos_of_ne_zero some)
    · exact rest q old

theorem alignedLeaves {bs : List Block} (real : 0 < alignment)
    (reach : aligns r = some (alignment, size)) (now : At pid bs h σ) (good : alignment ≤ 16 ∨ servedAt σ size < alignment)
    (returns : Returns pid (serve r) h σ p h' σ') : Leaves pid bs 0 p h' σ' := by
  rw [reachServes real reach] at returns
  exact memalignLeaves _ _ _ _ _ ⟨now, good⟩ returns

theorem servedLeaves (keeps : Keeps pid held h σ) (asks : Asks held r) (meets : Meets r σ)
    (returns : Returns pid (serve r) h σ p h' σ') : Leaves pid (live h) r.gone (r.hands p) h' σ' := by
  have now : At pid (live h) h σ := ⟨keeps.run, rfl⟩
  cases asks with
  | malloc size => exact mallocLeaves _ _ _ _ _ now returns
  | calloc nelem elsize => exact callocLeaves _ _ _ _ _ now returns
  | memalign alignment size => exact memalignLeaves _ _ _ _ _ ⟨now, meets _ _ rfl⟩ returns
  | posixMemalign alignment size =>
    rw [posixServes] at returns
    exact memalignLeaves _ _ _ _ _ ⟨now, meets _ _ rfl⟩ returns
  | alignedAlloc real size => exact alignedLeaves real rfl now (meets _ _ rfl) returns
  | realloc mine size =>
    exact reallocLeaves (fun some => keeps.starts _ (mine some)) _ _ _ _ _ now returns
  | free mine =>
    obtain ⟨b, owned, here⟩ := keeps.starts _ mine
    exact ensuresBind (freeLeaves owned here) (fun _ => ensuresPure 0 fun h σ after => after)
      _ _ _ _ _ now returns
  | usableSize mine =>
    obtain ⟨b, owned, rfl⟩ := keeps.starts _ mine
    exact noneLeaves _ (getsizeRule owned _ _ _ _ _ now returns).2

theorem touchesAllowed {op : Op} (keeps : Keeps pid held h σ) (touches : Touches held h σ op) :
    Disciplined h σ op ∨ Dangling h op := by
  cases touches with
  | load mine inside =>
    obtain ⟨b, owned, rfl⟩ := keeps.starts _ mine
    exact .inl (.load owned inside)
  | store mine inside =>
    obtain ⟨b, owned, rfl⟩ := keeps.starts _ mine
    exact .inl (.store owned inside)
  | dangling dangling => exact .inr dangling

theorem touchedLive {op : Op} {reply : Reply} {calls : List Call}
    (keeps : Keeps pid held h σ) (touches : Touches held h σ op)
    (taken : Calling pid h σ ⟨op, reply, calls⟩ σ') : live (⟨op, reply, calls⟩ :: h) = live h := by
  cases touches with
  | load mine inside => exact congrArg Ledger.live (by cases reply <;> rfl)
  | store mine inside => exact congrArg Ledger.live (by cases reply <;> rfl)
  | dangling dangling =>
    obtain ⟨own, sound⟩ := runSound keeps.run
    cases taken with
    | returned allowed call limit =>
      obtain ⟨addr, fault⟩ := danglingFault sound allowed.1 dangling
      rw [fault] at call
      cases call
    | faulted allowed call limit => exact congrArg Ledger.live (idleLedger .fault)

theorem touchedKeeps {e : Event} (keeps : Keeps pid held h σ)
    (taken : Step (fun h σ k op => Calm pid k σ op ∧ Touches held h σ op) Within h σ e σ') :
    Keeps pid held (e :: h) σ' := by
  have called : Calling pid h σ e σ' := stepWiden (fun _ _ _ _ allowed => allowed.1) taken
  have may : ∀ k op, Calm pid k σ op ∧ Touches held h σ op → calmly pid h σ k op :=
    fun k op allowed => ⟨allowed.1, (touchesAllowed keeps allowed.2).imp_right .inr⟩
  cases taken with
  | returned allowed call limit =>
    refine ⟨.next keeps.run (.returned (may _ _ allowed) call limit), ?_⟩
    rw [touchedLive keeps allowed.2 called]
    exact keeps.starts
  | faulted allowed call limit =>
    refine ⟨.next keeps.run (.faulted (may _ _ allowed) call limit), ?_⟩
    rw [touchedLive keeps allowed.2 called]
    exact keeps.starts

theorem reachesKeeps (run : Reaches pid Meets h σ held) : Keeps pid held h σ := by
  induction run with
  | begun begun => exact ⟨.init begun, fun p member => by cases member⟩
  | served before asks meets returns ih => exact holdingKeeps ih (servedLeaves ih asks meets returns)
  | touched before taken ih => exact touchedKeeps ih taken

theorem usableFits (run : Reaches pid Meets h σ held) :
    (∀ p ∈ held, ∃ b ∈ live h, FitsBlock b p σ) ∧
    ∀ r alignment size p h' σ', aligns r = some (alignment, size) → alignment.isPowerOfTwo →
      Returns pid (serve r) h σ p h' σ' → 0 < p →
      ((∃ b ∈ live h', FitsBlock b p σ') ↔ alignment ≤ 16 ∨ servedAt σ size < alignment) := by
  have keeps := reachesKeeps run
  have now : At pid (live h) h σ := ⟨keeps.run, rfl⟩
  refine ⟨fun p mine => ?_, fun r alignment size p h' σ' reach power returns some => ⟨fun fits => ?_,
    fun good => ?_⟩⟩
  · obtain ⟨own, sound⟩ := runSound keeps.run
    obtain ⟨b, owned, rfl⟩ := keeps.starts p mine
    exact ⟨b, owned, startFits sound owned⟩
  · by_contra bad
    obtain ⟨wide, served⟩ := not_or.mp bad
    obtain ⟨i, rfl⟩ := power
    rw [reachServes (Nat.two_pow_pos i) reach] at returns
    have strays := memalignStrays (Nat.not_le.mp wide) _ _ _ _ _ ⟨now, Nat.not_lt.mp served⟩ returns
    obtain ⟨own, sound⟩ := runSound strays.run
    obtain ⟨b, misfits⟩ := strays.result some
    exact misfitsPast sound misfits fits
  · have leaves := alignedLeaves (Nat.pos_of_isPowerOfTwo power) reach now good returns
    obtain ⟨own, sound⟩ := runSound leaves.run
    obtain ⟨b, owned, rfl⟩ := leaves.result some
    exact ⟨b, owned, startFits sound owned⟩

section
variable {k : Kernel} (calm : ∀ op, Calm pid k σ op) (limit : Within σ')
include calm limit

theorem mallocReturns (top : ¬ size >>> 63 ≠ 0)
    (call : exec k (.xxmalloc size) σ.clear = .ok p σ') : Returns pid (customMalloc size) h σ p
      (⟨.xxmalloc size, .value p, σ'.calls⟩ :: h) σ' := by
  rw [customMalloc, if_neg top]
  exact doesAsk (.returned (calm _) call limit) ⟨rfl, rfl⟩

theorem freeReturns (call : xxfree k p σ.clear = .ok () σ') : Returns pid (customFree p) h σ ()
    (⟨.xxfree p, .value 0, σ'.calls⟩ :: h) σ' :=
  doesBind (doesAsk (.returned (calm _) (bindOk call) limit) ⟨rfl, rfl⟩) .done

end

theorem steadyCalm (σ : State) (op : Op) : Calm 1 steady σ op := reliableCalm steadyReliable σ op

theorem bigReturns : Returns 1 (customMalloc 4096) [] begun bigBlock.ptr bigHistory besideBig :=
  mallocReturns (steadyCalm _) (by decide) (by decide) bigCall

theorem hugeAlignment : Reaches 1 Meets bigHistory besideBig [bigBlock.ptr] := by
  refine .served (.begun begunStarted) (.memalign (2 ^ 40) 4096) ?_ (p := bigBlock.ptr) ?_
  · rintro alignment size aligns
    cases aligns
    decide
  · rw [serve, customMemalign, if_neg (by decide), if_neg (by decide)]
    refine doesBind bigReturns ?_
    rw [if_pos (by decide)]
    exact .done

theorem hugeAlignmentFits : (∀ p ∈ [bigBlock.ptr], ∃ b ∈ live bigHistory, FitsBlock b p besideBig) ∧
    ∀ r alignment size p h' σ', aligns r = some (alignment, size) → alignment.isPowerOfTwo →
      Returns 1 (serve r) bigHistory besideBig p h' σ' → 0 < p → ((∃ b ∈ live h', FitsBlock b p σ') ↔
        alignment ≤ 16 ∨ servedAt besideBig size < alignment) :=
  usableFits hugeAlignment

def bigGone : State := { besideBig with
  mem := unmap besideBig.mem (pageSize * (bigBlock.ptr / pageSize)) (pageSize * bigPages 4096)
  numMappings := subWrap besideBig.numMappings 1
  calls := [.munmap (pageSize * (bigBlock.ptr / pageSize)) (pageSize * bigPages 4096)] }

def goneHistory : History := ⟨.xxfree bigBlock.ptr, .value 0, bigGone.calls⟩ :: bigHistory

def widerState : State := bigDone (bigPages 4224) bigGone.clear

def widerPtr : Nat := largeObjVaddrStart + 0x2010

def widerHistory : History := ⟨.xxmalloc 4224, .value widerPtr, widerState.calls⟩ :: goneHistory

theorem goneReturns : Returns 1 (customFree bigBlock.ptr) bigHistory besideBig () goneHistory bigGone := by
  obtain ⟨own, sound⟩ := runSound (runWiden reliablyWider (@bigRun Within (by decide)))
  have clear := soundClear sound
  have freed := xxfreeHeldBig (k := steady) clear.agrees.inv rfl (by decide)
    (clear.agrees.held bigBlock (by decide)) (insideSelf _ _) (cleanSelf _ _)
  exact freeReturns (steadyCalm _) (by decide) freed

theorem widerReturns : Returns 1 (customMalloc 4224) goneHistory bigGone widerPtr widerHistory
    widerState := by
  have served := @xxmallocBigRun steady bigGone.clear 4224 (by decide) (by decide) rfl
  have call : exec steady (.xxmalloc 4224) bigGone.clear = .ok widerPtr widerState := by
    rw [exec, xxmalloc, bindOk (ensureInitRun rfl), if_pos (by decide), served]
    rfl
  exact mallocReturns (steadyCalm _) (by decide) (by decide) call

theorem usablePastEnd : ¬ ∀ pid h σ held, Reaches pid (fun _ _ => True) h σ held →
    ∀ p ∈ held, ∃ b ∈ live h, FitsBlock b p σ := by
  intro always
  have returns : Returns 1 (customMemalign 64 4096) [] begun (widerPtr + 48) widerHistory
      widerState := by
    rw [customMemalign, if_neg (by decide), if_neg (by decide)]
    refine doesBind bigReturns ?_
    rw [if_neg (by decide)]
    exact doesBind goneReturns (doesBind widerReturns .done)
  have strays := memalignStrays (i := 6) (by decide) _ _ _ _ _
    ⟨⟨.init begunStarted, rfl⟩, by decide⟩ returns
  obtain ⟨own, sound⟩ := runSound strays.run
  obtain ⟨b, misfits⟩ := strays.result (by decide)
  exact misfitsPast sound misfits (always 1 _ _ _
    (.served (.begun begunStarted) (.memalign 64 4096) trivial returns) _ (by decide))

end Nuaf.UsableExtent
