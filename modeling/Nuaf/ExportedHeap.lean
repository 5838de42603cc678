import Nuaf.LocalHeap
import Nuaf.UsableExtent
import Nuaf.ByteArrays

/-! The process behind the byte heap of its program. `Shows` relates the two, and every call the
heap permits is answered as the heap gives it: `servesLocally` takes over what was shown there. -/
namespace Nuaf.ExportedHeap
open CallTree ByteHeap Layout ByteMemory Machine Source Heap Nuaf.Sequential ByteArrays Wrapper LocalHeap

structure Shown (h : History) (p : Nat) (c : Cells) : Prop where
  owned : ∃ b ∈ live h, b.ptr = p ∧ c.size ≤ usableOf b.size
  bytes : ∀ i v, c.byte i = some v → arrays h p i = some v

structure Shows (pid : Nat) (H : Objects) (h : History) (σ : State) : Prop where
  sound : ∃ own, Sound pid h σ own ∧ Stored h σ
  shown : ∀ p c, H p = some c → Shown h p c

/- On every kernel the calls may meet the call returns, or the process ends for want of a mapping,
of addresses, of file or of a move: no address without memory is touched. -/
def Fine (pid : Nat) (_ : History) (σ : State) (op : Op) : Prop :=
  ∀ k e σ', Calm pid k σ op → exec k op σ.clear = .error e σ' → Stops k σ op e

abbrev Serving {α : Type} (pid : Nat) (x : Calls α) (h : History) (σ : State)
    (Q : α → History → State → Prop) : Prop :=
  Safe (Calling pid) Answers (Fine pid) Q x h σ

def Follows (pid : Nat) (H : Objects) (op : Op) (v : Nat) (h : History) (σ : State) : Prop :=
  ∃ H', Gives H op v H' ∧ Shows pid H' h σ

variable {pid n p s i j : Nat} {H G : Objects} {c d : Cells} {h h' : History} {σ σ' : State}
  {own own' : Owner} {e : Event} {op : Op} {v : Nat} {byte : UInt8}

theorem shownBelow (shown : Shown h p d) (low : c.Below d) : Shown h p c := by
  obtain ⟨b, owned, place, room⟩ := shown.owned
  exact ⟨⟨b, owned, place, Nat.le_trans low.size room⟩,
    fun i v known => shown.bytes i v (low.byte i v known)⟩

theorem showsBelow (shows : Shows pid G h σ) (below : H.Below G) : Shows pid H h σ := by
  refine ⟨shows.sound, fun p c here => ?_⟩
  obtain ⟨d, there, low⟩ := below p c here
  exact shownBelow (shows.shown p d there) low

theorem showsPlace (shows : Shows pid H h σ) (here : H p = some c) :
    p ≠ 0 ∧ p % byteAlignment = 0 ∧ p + c.size < 2 ^ 63 := by
  obtain ⟨own, sound, _⟩ := shows.sound
  obtain ⟨b, owned, rfl, room⟩ := (shows.shown p c here).owned
  have held := sound.agrees.held b owned
  obtain ⟨aligned, top⟩ := Capacity.heldAligned sound.agrees.inv held
  exact ⟨Nat.ne_of_gt (heldBounds sound.agrees.inv held).1, aligned, by omega⟩

theorem putShown (mine : Shown h p d) (others : ∀ q ≠ p, ∀ c, H q = some c → Shown h q c) :
    ∀ q c, (H.put p d) q = some c → Shown h q c := by
  intro q c here
  by_cases self : q = p
  · subst self
    rw [putSelf] at here
    cases here
    exact mine
  · rw [putOther self] at here
    exact others q self c here

theorem dropShown (others : ∀ q ≠ p, ∀ c, H q = some c → Shown h q c) :
    ∀ q c, (H.drop p) q = some c → Shown h q c := by
  intro q c here
  by_cases self : q = p
  · subst self
    rw [dropSelf] at here
    cases here
  · rw [dropOther self] at here
    exact others q self c here

theorem beginShows (begun : Started pid σ) : Shows pid (fun _ => none) [] σ :=
  ⟨⟨_, soundInit begun, fun b owned => by cases owned⟩, fun p c here => by cases here⟩

theorem exactSafe {τ : State} {Q : Nat → History → State → Prop}
    (answers : ∀ k, k.pid = pid → exec k op σ.clear = .ok v τ)
    (holds : Q v (⟨op, .value v, τ.calls⟩ :: h) τ) : Serving pid (ask op) h σ Q := by
  refine safeAsk (fun k e σ' calm stops => ?_) fun e σ' w taken answer => ?_
  · rw [answers k calm.1] at stops
    cases stops
  · obtain ⟨k, calm, call, _, rfl⟩ := callingCases taken answer
    rw [answers k calm.1] at call
    cases call
    exact holds

theorem changeShows (sound : Sound pid h σ own) (stored : Stored h σ)
    (change : Change h σ own e σ' own') (shown : ∀ p c, H p = some c → Shown (e :: h) p c) :
    Shows pid H (e :: h) σ' :=
  ⟨⟨own', changeSound sound change, storedChange sound stored change⟩, shown⟩

theorem idleShows {reply : Reply} (shows : Shows pid H h σ) (idle : Idle op reply) :
    Shows pid H (⟨op, reply, []⟩ :: h) σ.clear := by
  obtain ⟨own, sound, stored⟩ := shows.sound
  refine changeShows sound stored (.idle idle) fun p c here => ?_
  obtain ⟨owned, bytes⟩ := shows.shown p c here
  refine ⟨?_, ?_⟩
  · rwa [live, idleLedger idle]
  · rwa [idleArrays idle]

theorem mallocStep (sound : Sound pid h σ own) {Q : Nat → History → State → Prop}
    (holds : ∀ b σ' own' chains', b.size = n →
      Grant σ.clear own (chainsOf (ledger h)) b.size b.ptr σ' own' chains' →
      live (⟨.xxmalloc n, .value b.ptr, σ'.calls⟩ :: h) = b :: live h →
      Sound pid (⟨.xxmalloc n, .value b.ptr, σ'.calls⟩ :: h) σ' own' →
      Q b.ptr (⟨.xxmalloc n, .value b.ptr, σ'.calls⟩ :: h) σ') :
    Serving pid (ask (.xxmalloc n)) h σ Q := by
  have clear := soundClear sound
  refine safeAsk (fun k e σ' calm => xxmallocStops sound calm.1) ?_
  intro e σ' p taken answer
  obtain ⟨k, ⟨mine, _⟩, call, limit, rfl⟩ := callingCases taken answer
  obtain ⟨own', chains', grant⟩ :=
    xxmallocGrant clear.agrees.inv (clear.par.trans mine.symm) call limit
  have after := changeSound sound (.malloc grant)
  obtain ⟨b, rfl, rfl, added⟩ := @mallocLive h n p σ'.calls
  exact holds b σ' own' chains' rfl grant added after

theorem freeStep (sound : Sound pid h σ own) {b : Block} (owned : b ∈ live h) (covers : b.Covers p)
    (clean : Clean σ b.ptr p) {Q : Nat → History → State → Prop}
    (holds : ∀ σ' own', Change h σ own ⟨.xxfree p, .value 0, σ'.calls⟩ σ' own' →
      live (⟨.xxfree p, .value 0, σ'.calls⟩ :: h) = without h b →
      Q 0 (⟨.xxfree p, .value 0, σ'.calls⟩ :: h) σ') :
    Serving pid (ask (.xxfree p)) h σ Q := by
  refine safeAsk (fun k e σ' calm => freeStops sound calm.1 owned covers clean)
    fun e σ' v taken answer => ?_
  obtain ⟨k, ⟨mine, harmless⟩, call, limit, rfl⟩ := callingCases taken answer
  obtain ⟨_, τ, freed, last⟩ := bindInv call
  cases last
  obtain ⟨own', change⟩ :=
    freeChange (v := 0) sound mine owned covers clean (harmless _ rfl) freed limit
  exact holds _ own' change (Sequential.freeLive (findCovers sound.agrees owned covers))

theorem mallocFollows (shows : Shows pid H h σ) (short : n < 2 ^ 63) :
    Serving pid (ask (.xxmalloc n)) h σ (Follows pid H (.xxmalloc n)) := by
  obtain ⟨own, sound, stored⟩ := shows.sound
  refine mallocStep sound fun b σ' own' chains' size grant added after => ?_
  subst size
  have alive : (ledger (⟨.xxmalloc b.size, .value b.ptr, σ'.calls⟩ :: h)).live = b :: live h := added
  have held := after.agrees.held b (alive ▸ List.mem_cons_self)
  have fresh : H b.ptr = none := by
    cases there : H b.ptr with
    | none => rfl
    | some c =>
      obtain ⟨c, owned, same, _⟩ := (shows.shown _ _ there).owned
      have distinct := after.agrees.distinct
      rw [alive, List.map_cons, List.nodup_cons] at distinct
      exact absurd (List.mem_map.mpr ⟨c, owned, same⟩) distinct.1
  have enough : b.size ≤ usableOf b.size :=
    Capacity.heldEnough b.size fun _ => by rw [bigPages, wrapSmall (by omega)]
  obtain ⟨aligned, top⟩ := Capacity.heldAligned after.agrees.inv held
  refine ⟨_, .xxmalloc (Nat.ne_of_gt (heldBounds after.agrees.inv held).1) aligned (by omega) fresh,
    changeShows sound stored (.malloc grant)
    (putShown ⟨⟨b, added ▸ List.mem_cons_self, rfl, enough⟩, fun _ _ known => by cases known⟩ ?_)⟩
  intro q other c here
  obtain ⟨⟨c, owned, rest⟩, bytes⟩ := shows.shown q c here
  refine ⟨⟨c, added ▸ List.mem_cons_of_mem _ owned, rest⟩, fun i v known => ?_⟩
  simpa [arrays, Arrays.apply, other] using bytes i v known

theorem freeFollows (shows : Shows pid H h σ) (here : H p = some c) :
    Serving pid (ask (.xxfree p)) h σ (Follows pid H (.xxfree p)) := by
  obtain ⟨own, sound, stored⟩ := shows.sound
  obtain ⟨b, owned, rfl, _⟩ := (shows.shown p c here).owned
  refine freeStep sound owned (insideSelf _ _) (cleanSelf _ _) fun σ' own' change alive =>
    ⟨_, .xxfree here, changeShows sound stored change (dropShown fun q other c there => ?_)⟩
  obtain ⟨⟨c, owned', rfl, room⟩, bytes⟩ := shows.shown q c there
  refine ⟨?_, bytes⟩
  rw [alive]
  exact ⟨c, withoutMember.mpr ⟨owned', other⟩, rfl, room⟩

theorem nullFound (sound : Sound pid h σ own) : (ledger h).find 0 = none := by
  refine List.find?_eq_none.mpr fun b owned covers => ?_
  have positive := (heldBounds sound.agrees.inv (sound.agrees.held b owned)).1
  have low : b.ptr ≤ 0 := (of_decide_eq_true covers : b.Covers 0).1
  omega

theorem nullLedger (sound : Sound pid h σ own) :
    ledger (⟨.xxfree 0, .value 0, []⟩ :: h) = ledger h := by
  simp only [ledger, Ledger.apply, nullFound sound]

theorem nullSound (sound : Sound pid h σ own) :
    Sound pid (⟨.xxfree 0, .value 0, []⟩ :: h) σ.clear own := by
  have clear := soundClear sound
  refine ⟨clear.par, nullLedger sound ▸ clear.agrees, fun g gone => ?_⟩
  rcases gone with old | ⟨ptr, v, b, call, _, there, _⟩
  · exact clear.gone g old
  · cases call
    rw [nullFound sound] at there
    cases there

theorem nullServes {k : Kernel} (sound : Sound pid h σ own) (mine : k.pid = pid) :
    exec k (.xxfree 0) σ.clear = .ok 0 σ.clear := by
  have none : xxfree k 0 σ.clear = .ok () σ.clear := by
    rw [xxfree, bindOk (ensureInitRun ((soundClear sound).par.trans mine.symm)), if_pos rfl]
    rfl
  exact bindOk none

theorem nullShows (shows : Shows pid H h σ) :
    Shows pid H (⟨.xxfree 0, .value 0, []⟩ :: h) σ.clear := by
  obtain ⟨own, sound, stored⟩ := shows.sound
  have alive : live (⟨.xxfree 0, .value 0, []⟩ :: h) = live h := congrArg Ledger.live (nullLedger sound)
  refine ⟨⟨own, nullSound sound, fun b owned => ?_⟩, fun p c here => ?_⟩
  · rw [alive] at owned
    exact stored b owned
  · obtain ⟨owned, bytes⟩ := shows.shown p c here
    exact ⟨alive ▸ owned, bytes⟩

theorem usableFollows (shows : Shows pid H h σ) (here : H p = some c) :
    Serving pid (ask (.usableSize p)) h σ (Follows pid H (.usableSize p)) := by
  obtain ⟨own, sound, _⟩ := shows.sound
  obtain ⟨b, owned, rfl, room⟩ := (shows.shown p c here).owned
  have after : Shows pid H (⟨.usableSize b.ptr, .value (usableOf b.size), []⟩ :: h) σ.clear :=
    idleShows shows .usableSize
  have top := (Capacity.heldAligned sound.agrees.inv (sound.agrees.held b owned)).2
  refine exactSafe (fun k _ => usableServes sound owned (insideSelf _ _) (cleanSelf _ _))
    ⟨_, .usableSize here room top, after.sound, putShown ⟨⟨b, owned, rfl, Nat.le_refl _⟩, ?_⟩
      fun q _ => after.shown q⟩
  exact (after.shown b.ptr c here).bytes

theorem loadFollows (shows : Shows pid H h σ) (here : H p = some c) (place : s + i = p + j)
    (inside : j < c.size) : Serving pid (ask (.load s i)) h σ (Follows pid H (.load s i)) := by
  obtain ⟨own, sound, stored⟩ := shows.sound
  have known : ∀ q d x w, H q = some d → s + i = q + x → d.byte x = some w →
      σ.mem (s + i) = some w := fun q d x w there place known => by
    obtain ⟨⟨b, owned, rfl, _⟩, bytes⟩ := shows.shown q d there
    exact place ▸ (stored b owned x w (bytes x w known)).2
  obtain ⟨⟨b, owned, rfl, room⟩, _⟩ := shows.shown p c here
  obtain ⟨w, there⟩ := Option.ne_none_iff_exists'.mp (insideMapped sound.agrees.inv
    (sound.agrees.held b owned) (coversIndex (Nat.lt_of_lt_of_le inside room)))
  rw [← place] at there
  refine exactSafe (fun k _ => readWordOk (?_ : load σ.mem (s + i) 1 = some w.toNat))
    ⟨H, .load fun q d x byte here place _ read => ?_, idleShows shows .load⟩
  · simp [load, there]
  · rw [known q d x byte here place read] at there
    cases there
    rfl

theorem storeFollows (shows : Shows pid H h σ) (here : H p = some c) (inside : i < c.size) :
    Serving pid (ask (.store p i byte)) h σ (Follows pid H (.store p i byte)) := by
  obtain ⟨own, sound, stored⟩ := shows.sound
  obtain ⟨⟨b, owned, rfl, room⟩, bytes⟩ := shows.shown p c here
  have within : i < usableOf b.size := Nat.lt_of_lt_of_le inside room
  refine exactSafe (fun k _ => storeServes sound owned within byte) ⟨_, .store here inside,
    changeShows sound stored (.store owned within) (putShown ⟨⟨b, owned, rfl, room⟩, fun x w known => ?_⟩
      fun q other d there => ⟨(shows.shown q d there).owned, fun x w known => ?_⟩)⟩
  · by_cases index : x = i
    · subst index
      simpa [arrays, Arrays.apply, Cells.set] using known
    · have old := bytes x w (by simpa [Cells.set, index] using known)
      simpa [arrays, Arrays.apply, index] using old
  · simpa [arrays, Arrays.apply, other] using (shows.shown q d there).bytes x w known

theorem permittedFollows (shows : Shows pid H h σ) (permits : Permits H op) :
    Serving pid (ask op) h σ (Follows pid H op) := by
  cases permits with
  | xxmalloc short => exact mallocFollows shows short
  | xxfree mine => exact freeFollows shows mine
  | freeNull =>
    obtain ⟨own, sound, _⟩ := shows.sound
    exact exactSafe (fun k => nullServes sound) ⟨H, .freeNull, nullShows shows⟩
  | usableSize mine => exact usableFollows shows mine
  | usableNull =>
    refine exactSafe (τ := σ.clear) (fun k _ => ?_) ⟨H, .usableNull, idleShows shows .usableSize⟩
    rw [exec, xxmallocUsableSize, if_pos rfl]
    rfl
  | load mine place inside => exact loadFollows shows mine place inside
  | store mine inside => exact storeFollows shows mine inside

theorem servesLocally {α : Type} {x : Calls α} {g : List (Op × Nat)} {Q : α → List (Op × Nat) → Objects → Prop}
    (safe : Locally x g H Q) (shows : Shows pid H h σ) :
    Serving pid x h σ fun a h σ => ∃ g H, Q a g H ∧ Shows pid H h σ := by
  refine safeTransfer (R := fun _ H h σ => Shows pid H h σ) (fun g H h σ op shows permits => ?_)
    safe shows
  have follows := permittedFollows shows permits
  refine ⟨follows.1, fun d σ' r taken answer => ?_⟩
  obtain ⟨H', gives, after⟩ := follows.2 d σ' r taken answer
  exact ⟨(op, r), H', gives, rfl, after⟩

theorem showsKnows {g : List (Op × Nat)} (shows : Shows pid H h σ) : Knows H g H :=
  ⟨.refl H, fun _ _ => showsPlace shows⟩

end Nuaf.ExportedHeap
