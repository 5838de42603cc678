import Nuaf.ExportedHeap
import Nuaf.ExportedCalls

/-! The heap of a program that asks for any alignment. An object lies anywhere inside a live block
of its own, and what memalign cut off in front of it is never written. -/
namespace Nuaf.AlignedHeap
open CallTree ByteHeap Layout ByteMemory Machine Source Heap Nuaf.Sequential ByteArrays Wrapper
  ExportedHeap ExportedCalls
open LocalHeap (topBit)

def Front (σ : State) (ptr p : Nat) : Prop :=
  ∀ g, ptr / pageSize < g → pageSize * g < p → load σ.mem (pageSize * g) 8 = some 0

def Unforged (σ : State) (p : Nat) : Prop :=
  p % pageSize = 0 → load σ.mem p 8 ≠ some largeObjStartMagic

structure Lies (h : History) (σ : State) (p : Nat) (c : Cells) : Prop where
  block : ∃ b ∈ live h, b.Covers p ∧ p + c.size ≤ b.ptr + usableOf b.size ∧ Front σ b.ptr p
  aligned : p % byteAlignment = 0
  bytes : ∀ i v, c.byte i = some v → i < c.size ∧ σ.mem (p + i) = some v

structure Houses (pid : Nat) (H : Objects) (h : History) (σ : State) : Prop where
  sound : ∃ own, Sound pid h σ own
  lies : ∀ p c, H p = some c → Lies h σ p c
  apart : ∀ p q, H p ≠ none → H q ≠ none → ∀ b ∈ live h, b.Covers p → b.Covers q → p = q

structure Vacant (pid : Nat) (H : Objects) (b : Block) (h : History) (σ : State) : Prop where
  houses : Houses pid H h σ
  owned : b ∈ live h
  alone : ∀ q, H q ≠ none → ¬ b.Covers q
  front : ∀ p, b.Covers p → Front σ b.ptr p
  enough : b.size ≤ usableOf b.size

variable {pid n p q i : Nat} {H G : Objects} {c : Cells} {h h' : History} {σ σ' : State}
  {own own' : Owner} {e : Event} {b : Block} {byte : UInt8}

theorem beginHouses (begun : Started pid σ) : Houses pid (fun _ => none) [] σ :=
  ⟨⟨_, soundInit begun⟩, by simp, by simp⟩

theorem blockUnique (sound : Sound pid h σ own) {d : Block} (left : b ∈ live h) (right : d ∈ live h)
    (here : b.Covers p) (there : d.Covers p) : b = d :=
  List.inj_on_of_nodup_map sound.agrees.distinct left right
    (coversApart sound left right here there rfl)

theorem frontKept {ptr : Nat} (front : Front σ ptr p) (aligned : p % byteAlignment = 0)
    (same : ∀ a, ptr ≤ a → a < p → σ'.mem a = σ.mem a) : Front σ' ptr p := by
  intro g low high
  have split := pageSplit ptr
  rw [← front g low high]
  refine loadCongr fun j inside => same _ ?_ ?_ <;> simp only [pageSize, byteAlignment] at * <;> omega

theorem liesKept (lies : Lies h σ p c) (kept : ∀ b ∈ live h, b.Covers p → b ∈ live h')
    (same : ∀ b ∈ live h, b.Covers p → ∀ a, b.Covers a → σ'.mem a = σ.mem a) : Lies h' σ' p c := by
  obtain ⟨b, owned, covers, room, front⟩ := lies.block
  have mem := same b owned covers
  refine ⟨⟨b, kept b owned covers, covers, room, frontKept front lies.aligned fun a low high =>
    mem a ⟨low, Nat.lt_trans high covers.2⟩⟩, lies.aligned, fun i v known => ?_⟩
  obtain ⟨inside, there⟩ := lies.bytes i v known
  exact ⟨inside, (mem _ ⟨by have := covers.1; omega, by omega⟩).trans there⟩

theorem coversBusy (sound : Sound pid h σ own) (owned : b ∈ live h) {a : Nat} (covers : b.Covers a) :
    own (a / pageSize) ≠ none := by
  obtain ⟨u, owns, _⟩ := (coversSpans sound owned covers).2
  simp [owns]

theorem changeMem (sound : Sound pid h σ own) (change : Change h σ own e σ' own') {a : Nat}
    (owned : b ∈ live h) (kept : b ∈ live (e :: h)) (covers : b.Covers a)
    (still : ∀ ptr index byte, e.op = .store ptr index byte → a ≠ ptr + index) :
    σ'.mem a = σ.mem a := by
  have clear := soundClear sound
  have busy := coversBusy sound owned covers
  cases change with
  | malloc grant => exact grantMem clear.agrees.inv grant busy
  | free freed found release =>
    refine releaseMem clear.agrees.inv release (clear.agrees.held _ freed) busy fun page => ?_
    exact (liveFree found kept).2 (heldApart clear.agrees.inv (clear.agrees.held b owned)
      (clear.agrees.held _ freed) (coversSpans sound owned covers).1 page)
  | store => exact writeOut (by have := still _ _ _ rfl; omega)
  | idle => rfl

theorem grantFront {chains chains' : Chains} (inv : Inv σ own chains)
    (grant : Grant σ own chains n p σ' own' chains') (inside : Inside p n q) : Front σ' p q := by
  have held := grantHeld inv grant
  have after := grantInv inv grant
  intro g low high
  rcases Nat.lt_or_ge largestBlockSize n with big | small
  · have last := (insideBig big held inside).2.1
    cases grant with
    | carve small => exact absurd small (Nat.not_le.mpr big)
    | pop small => exact absurd small (Nat.not_le.mpr big)
    | large _ fits room =>
      have base := nextPage inv
      refine bigDoneClean inv fits room ?_ ?_ <;> simp only [pageSize] at * <;> omega
  · have page := (insideSmall after small held inside).1
    simp only [pageSize] at *
    omega

theorem xxmallocPlaces (houses : Houses pid H h σ) (short : n < 2 ^ 63) :
    Serving pid (ask (.xxmalloc n)) h σ fun p h' σ' => p = servedAt σ n ∧
      ∃ b, b.ptr = p ∧ b.size = n ∧ Vacant pid H b h' σ' := by
  obtain ⟨own, sound⟩ := houses.sound
  have clear := soundClear sound
  refine mallocStep sound fun b σ' own' chains' size grant added after => ?_
  subst size
  have served : b.ptr = servedAt σ.clear b.size := grantServed clear.agrees.inv grant
  have mine : b ∈ live (⟨.xxmalloc b.size, .value b.ptr, σ'.calls⟩ :: h) := added ▸ List.mem_cons_self
  have old : ∀ d ∈ live h, d ∈ live (⟨.xxmalloc b.size, .value b.ptr, σ'.calls⟩ :: h) :=
    fun d owned => added ▸ List.mem_cons_of_mem b owned
  have new : b ∉ live h := fun owned => by
    have distinct := after.agrees.distinct
    rw [show (ledger _).live = b :: live h from added, List.map_cons, List.nodup_cons] at distinct
    exact distinct.1 (List.mem_map_of_mem owned)
  have alone : ∀ q, H q ≠ none → ¬ b.Covers q := fun q here covers => by
    obtain ⟨c, there⟩ := Option.ne_none_iff_exists'.mp here
    obtain ⟨d, owned, within, _⟩ := (houses.lies q c there).block
    exact new (blockUnique after mine (old d owned) covers within ▸ owned)
  refine ⟨served, b, rfl, rfl, ⟨⟨⟨own', after⟩, fun q c here => ?_,
    fun q r here there d owned left right => ?_⟩, mine, alone,
    fun q covers => grantFront clear.agrees.inv grant covers,
    Capacity.heldEnough b.size fun _ => by rw [bigPages, wrapSmall (by omega)]⟩⟩
  · exact liesKept (houses.lies q c here) (fun d owned _ => old d owned) fun d owned _ a covers =>
      changeMem sound (.malloc grant) owned (old d owned) covers fun _ _ _ store => by cases store
  · rw [added] at owned
    rcases List.mem_cons.mp owned with rfl | before
    · exact absurd left (alone q here)
    · exact houses.apart q r here there d before left right

theorem mallocPlaces (houses : Houses pid H h σ) (n : Nat) :
    Serving pid (customMalloc n) h σ fun p h' σ' => (2 ^ 63 ≤ n ∧ p = 0 ∧ Houses pid H h' σ') ∨
      n < 2 ^ 63 ∧ p = servedAt σ n ∧ ∃ b, b.ptr = p ∧ b.size = n ∧ Vacant pid H b h' σ' := by
  unfold customMalloc
  split
  · rename_i huge
    exact safePure 0 (.inl ⟨topBit.mp huge, rfl, houses⟩)
  · rename_i short
    have short : n < 2 ^ 63 := Nat.lt_of_not_le (mt topBit.mpr short)
    exact safeMono (xxmallocPlaces houses short) fun p h σ placed => .inr ⟨short, placed⟩

theorem settle (vacant : Vacant pid H b h σ) (covers : b.Covers p)
    (room : p + n ≤ b.ptr + usableOf b.size) (aligned : p % byteAlignment = 0) :
    H p = none ∧ Houses pid (H.put p (.blank n)) h σ := by
  have houses := vacant.houses
  have empty : H p = none := by
    by_contra here
    exact vacant.alone p here covers
  have others : ∀ q, (H.put p (.blank n)) q ≠ none → q = p ∨ H q ≠ none := fun q here => by
    by_cases self : q = p
    · exact .inl self
    · exact .inr (by rwa [putOther self] at here)
  refine ⟨empty, houses.sound, fun q c here => ?_, fun q r here there d owned left right => ?_⟩
  · by_cases self : q = p
    · subst self
      rw [putSelf] at here
      cases here
      exact ⟨⟨b, vacant.owned, covers, room, vacant.front q covers⟩, aligned,
        fun i v known => by cases known⟩
    · rw [putOther self] at here
      exact houses.lies q c here
  · obtain ⟨own, sound⟩ := houses.sound
    have full : ∀ x, H x ≠ none → d.Covers x → d.Covers p → False := fun x some inside mine =>
      vacant.alone x some (blockUnique sound owned vacant.owned mine covers ▸ inside)
    rcases others q here with rfl | some <;> rcases others r there with rfl | some'
    · rfl
    · exact (full r some' right left).elim
    · exact (full q some left right).elim
    · exact houses.apart q r some some' d owned left right

theorem releaseHouses (houses : Houses pid H h σ) (owned : b ∈ live h) (covers : b.Covers p)
    (clean : Clean σ b.ptr p) (left : ∀ q c, G q = some c → H q = some c ∧ ¬ b.Covers q) :
    Serving pid (customFree p) h σ fun _ => Houses pid G := by
  obtain ⟨own, sound⟩ := houses.sound
  refine safeThen (Q := fun _ => Houses pid G) (freeStep sound owned covers clean
    fun σ' own' change alive => ?_) fun _ h σ after => safePure () after
  have some : ∀ q, G q ≠ none → H q ≠ none := fun q here => by
    obtain ⟨c, there⟩ := Option.ne_none_iff_exists'.mp here
    simp [(left q c there).1]
  refine ⟨⟨own', changeSound sound change⟩, fun q c here => ?_, fun q r here there d kept => ?_⟩
  · obtain ⟨there, outside⟩ := left q c here
    have kept : ∀ d ∈ live h, d.Covers q → d ∈ live (⟨.xxfree p, .value 0, σ'.calls⟩ :: h) := by
      intro d mine inside
      rw [alive]
      exact withoutMember.mpr ⟨mine, fun same =>
        outside (List.inj_on_of_nodup_map sound.agrees.distinct mine owned same ▸ inside)⟩
    exact liesKept (houses.lies q c there) kept fun d mine inside a within =>
      changeMem sound change mine (kept d mine inside) within fun _ _ _ store => by cases store
  · rw [alive] at kept
    exact houses.apart q r (some q here) (some r there) d (withoutMember.mp kept).1

theorem vacantFree (vacant : Vacant pid H b h σ) :
    Serving pid (customFree b.ptr) h σ fun _ => Houses pid H :=
  releaseHouses vacant.houses vacant.owned (insideSelf _ _) (cleanSelf _ _) fun q c here =>
    ⟨here, vacant.alone q (by simp [here])⟩

theorem liesClean (lies : Lies h σ p c) (unforged : Unforged σ p) :
    ∃ b ∈ live h, b.Covers p ∧ Clean σ b.ptr p := by
  obtain ⟨b, owned, covers, _, front⟩ := lies.block
  refine ⟨b, owned, covers, fun g low high => ?_⟩
  rcases Nat.lt_or_ge (pageSize * g) p with before | past
  · rw [front g low before]
    decide
  · have start : pageSize * g = p := by simp only [pageSize] at *; omega
    rw [start]
    exact unforged (start ▸ Nat.mul_mod_right _ _)

theorem freeHouses (houses : Houses pid H h σ) (here : H p = some c) (unforged : Unforged σ p) :
    Serving pid (customFree p) h σ fun _ => Houses pid (H.drop p) := by
  obtain ⟨b, owned, covers, clean⟩ := liesClean (houses.lies p c here) unforged
  refine releaseHouses houses owned covers clean fun q d there => ?_
  by_cases self : q = p
  · subst self
    rw [dropSelf] at there
    cases there
  · rw [dropOther self] at there
    exact ⟨there, fun inside => self (houses.apart q p (by simp [there]) (by simp [here]) b owned
      inside covers)⟩

theorem idleHouses {op : Op} {reply : Reply} (houses : Houses pid H h σ) (idle : Idle op reply) :
    Houses pid H (⟨op, reply, []⟩ :: h) σ.clear := by
  obtain ⟨own, sound⟩ := houses.sound
  have same : live (⟨op, reply, []⟩ :: h) = live h := congrArg Ledger.live (idleLedger idle)
  refine ⟨⟨own, changeSound sound (.idle idle)⟩, fun q c here => ?_, fun q r here there b owned => ?_⟩
  · exact liesKept (houses.lies q c here) (fun _ owned _ => same ▸ owned) fun _ _ _ _ _ => rfl
  · exact houses.apart q r here there b (same ▸ owned)

theorem nullHouses (houses : Houses pid H h σ) :
    Serving pid (customFree 0) h σ fun _ => Houses pid H := by
  obtain ⟨own, sound⟩ := houses.sound
  have same : live (⟨.xxfree 0, .value 0, []⟩ :: h) = live h := congrArg Ledger.live (nullLedger sound)
  refine safeThen (Q := fun _ => Houses pid H) (exactSafe (fun k => nullServes sound) ?_)
    fun _ h σ after => safePure () after
  refine ⟨⟨own, nullSound sound⟩, fun q c here => ?_, fun q r here there b owned => ?_⟩
  · exact liesKept (houses.lies q c here) (fun _ owned _ => same ▸ owned) fun _ _ _ _ _ => rfl
  · exact houses.apart q r here there b (same ▸ owned)

theorem liesIndex (lies : Lies h σ p c) (inside : i < c.size) :
    ∃ b ∈ live h, b.Covers p ∧ ∃ j < usableOf b.size, p + i = b.ptr + j := by
  obtain ⟨b, owned, covers, room, _⟩ := lies.block
  have low := covers.1
  exact ⟨b, owned, covers, p + i - b.ptr, by omega, by omega⟩

theorem loadHouses (houses : Houses pid H h σ) (here : H p = some c) (inside : i < c.size) :
    Serving pid (ask (.load p i)) h σ fun v h σ =>
      (∀ w, c.byte i = some w → v = w.toNat) ∧ Houses pid H h σ := by
  obtain ⟨own, sound⟩ := houses.sound
  have lies := houses.lies p c here
  obtain ⟨b, owned, _, j, within, place⟩ := liesIndex lies inside
  obtain ⟨w, there⟩ := Option.ne_none_iff_exists'.mp (insideMapped sound.agrees.inv
    (sound.agrees.held b owned) (coversIndex within))
  rw [← place] at there
  refine exactSafe (fun k _ => readWordOk (?_ : load σ.mem (p + i) 1 = some w.toNat))
    ⟨fun x known => ?_, idleHouses houses .load⟩
  · simp [load, there]
  · have last := (lies.bytes i x known).2
    rw [there] at last
    cases last
    rfl

theorem storeSound {b : Block} {j : Nat} (sound : Sound pid h σ own) (owned : b ∈ live h)
    (within : j < usableOf b.size) (place : p + i = b.ptr + j) :
    Sound pid (⟨.store p i byte, .value 0, []⟩ :: h) (wrote (p + i) 1 byte.toNat σ.clear) own := by
  have after := changeSound sound (@Change.store h σ own b j byte 0 owned within)
  rw [← place] at after
  refine ⟨after.par, after.agrees, fun g gone => ?_⟩
  rcases gone with old | ⟨_, _, _, call, _⟩
  · exact after.gone g (.inl old)
  · cases call

theorem storeHouses (houses : Houses pid H h σ) (here : H p = some c) (inside : i < c.size) :
    Serving pid (ask (.store p i byte)) h σ fun _ => Houses pid (H.put p (c.set i byte)) := by
  obtain ⟨own, sound⟩ := houses.sound
  have lies := houses.lies p c here
  obtain ⟨b, owned, covers, j, within, place⟩ := liesIndex lies inside
  have stores : ∀ k, exec k (.store p i byte) σ.clear =
      .ok 0 (wrote (p + i) 1 byte.toNat σ.clear) := fun k => by
    rw [exec, place]
    exact storeServes (k := k) sound owned within byte
  have other : ∀ a, a ≠ p + i → (wrote (p + i) 1 byte.toNat σ.clear).mem a = σ.mem a :=
    fun a differ => writeOut (by omega)
  have some : ∀ q, (H.put p (c.set i byte)) q ≠ none → H q ≠ none := fun q there => by
    by_cases self : q = p
    · simp [self, here]
    · rwa [putOther self] at there
  refine exactSafe (fun k _ => stores k) ⟨⟨own, storeSound sound owned within place⟩,
    fun q d there => ?_, fun q r here there b owned => houses.apart q r (some q here) (some r there) b owned⟩
  by_cases self : q = p
  · subst self
    rw [putSelf] at there
    cases there
    obtain ⟨b, mine, covers, room, front⟩ := lies.block
    refine ⟨⟨b, mine, covers, room, frontKept front lies.aligned fun a _ high => other a (by omega)⟩,
      lies.aligned, fun x v known => ?_⟩
    by_cases index : x = i
    · subst index
      have byte : byte = v := by simpa [Cells.set] using known
      subst byte
      exact ⟨inside, (writeIn (by omega)).trans (by simp [byteOf])⟩
    · obtain ⟨short, old⟩ := lies.bytes x v (by simpa [Cells.set, index] using known)
      exact ⟨short, (other _ (by omega)).trans old⟩
  · rw [putOther self] at there
    refine liesKept (houses.lies q d there) (fun _ mine _ => mine) fun e mine outside a within' =>
      other a ?_
    rintro rfl
    have same := blockUnique sound mine owned within' (place ▸ coversIndex within)
    exact self (houses.apart q p (by simp [there]) (by simp [here]) b owned (same ▸ outside) covers)

def paddingAt (σ : State) (alignment n : Nat) : Nat :=
  if alignment = 8 ∨ servedAt σ n < alignment then 0 else 2 * alignment

def Refused (σ : State) (alignment n : Nat) : Prop :=
  Invalid alignment ∨ 2 ^ 63 ≤ n + paddingAt σ alignment n

inductive Granted (pid : Nat) (H : Objects) (σ : State) (alignment n : Nat) :
    Nat → History → State → Prop where
  | null {h' : History} {σ' : State} (refused : Refused σ alignment n) (houses : Houses pid H h' σ') :
      Granted pid H σ alignment n 0 h' σ'
  | made {p : Nat} {h' : History} {σ' : State} (granted : ¬ Refused σ alignment n) (some : p ≠ 0)
      (aligned : p % byteAlignment = 0) (fresh : H p = none)
      (divides : alignment ∣ p ↔ alignment ≤ 16 ∨ alignment ≤ servedAt σ n)
      (houses : Houses pid (H.put p (.blank n)) h' σ') : Granted pid H σ alignment n p h' σ'

theorem alignUpNear (narrow : i ≤ 64) (fits : p + 2 ^ i - 1 < 2 ^ 64) :
    p ≤ alignUp p (2 ^ i) ∧ alignUp p (2 ^ i) < p + 2 ^ i ∧ 2 ^ i ∣ alignUp p (2 ^ i) := by
  have positive : 0 < 2 ^ i := Nat.two_pow_pos i
  by_cases multiple : 2 ^ i ∣ p
  · rw [alignUpMultiple narrow fits multiple]
    exact ⟨Nat.le_refl p, Nat.lt_add_of_pos_right positive, multiple⟩
  · obtain ⟨past, near⟩ := alignUpMoves narrow fits multiple
    refine ⟨Nat.le_of_lt past, near, ?_⟩
    rw [alignUpPow narrow fits]
    exact Nat.dvd_mul_left _ _

theorem vacantPlace (vacant : Vacant pid H b h σ) : b.ptr ≠ 0 ∧ b.ptr < taskSize ∧
    b.ptr % byteAlignment = 0 ∧ b.ptr + usableOf b.size < 2 ^ 63 := by
  obtain ⟨own, sound⟩ := vacant.houses.sound
  have held := sound.agrees.held b vacant.owned
  obtain ⟨some, user⟩ := heldBounds sound.agrees.inv held
  exact ⟨Nat.ne_of_gt some, user, Capacity.heldAligned sound.agrees.inv held⟩

theorem wholeGranted {alignment : Nat} {σ₀ : State} (vacant : Vacant pid H b h σ)
    (granted : ¬ Refused σ₀ alignment b.size)
    (divides : alignment ∣ b.ptr ↔ alignment ≤ 16 ∨ alignment ≤ servedAt σ₀ b.size) :
    Granted pid H σ₀ alignment b.size b.ptr h σ := by
  obtain ⟨some, _, aligned, _⟩ := vacantPlace vacant
  obtain ⟨fresh, houses⟩ := settle vacant (insideSelf _ _)
    (Nat.add_le_add_left vacant.enough b.ptr) aligned
  exact .made granted some aligned fresh divides houses

theorem movedGranted {σ₀ : State} (vacant : Vacant pid H b h σ) (size : b.size = n + 2 * 2 ^ i)
    (granted : ¬ Refused σ₀ (2 ^ i) n) (reached : 2 ^ i ≤ servedAt σ₀ n) :
    Granted pid H σ₀ (2 ^ i) n (alignUp b.ptr (2 ^ i)) h σ := by
  obtain ⟨some, _, aligned, top⟩ := vacantPlace vacant
  have enough := vacant.enough
  have positive : 0 < 2 ^ i := Nat.two_pow_pos i
  have narrow : i < 64 := (Nat.pow_lt_pow_iff_right (by decide)).mp (show 2 ^ i < 2 ^ 64 by omega)
  obtain ⟨low, high, multiple⟩ := @alignUpNear b.ptr i (Nat.le_of_lt narrow) (by omega)
  have aligned : alignUp b.ptr (2 ^ i) % byteAlignment = 0 := by
    rcases Nat.lt_or_ge i 4 with small | wide
    · have small : 2 ^ i ≤ 16 := Nat.pow_le_pow_right (by decide) (Nat.le_of_lt small)
      rwa [alignUpMultiple (Nat.le_of_lt narrow) (by omega) (divides small aligned)]
    · exact Nat.mod_eq_zero_of_dvd (Nat.dvd_trans (Nat.pow_dvd_pow 2 wide) multiple)
  obtain ⟨fresh, houses⟩ := settle (n := n) vacant ⟨low, by omega⟩ (by omega) aligned
  exact .made granted (by omega) aligned fresh ⟨fun _ => .inr reached, fun _ => multiple⟩ houses

theorem memalignHouses (houses : Houses pid H h σ) (alignment n : Nat) :
    Serving pid (customMemalign alignment n) h σ (Granted pid H σ alignment n) := by
  unfold customMemalign
  split
  · rename_i invalid
    exact safePure 0 (.null (.inl invalid) houses)
  rename_i valid
  have refuses : ∀ m, paddingAt σ alignment n = m →
      (Refused σ alignment n ↔ 2 ^ 63 ≤ n + m) := fun m padded => by
    rw [Refused, padded, or_iff_right (show ¬ Invalid alignment from valid)]
  split
  · rename_i eight
    subst eight
    have refuses := refuses 0 (if_pos (.inl rfl))
    refine safeMono (mallocPlaces houses n) fun p h' σ' placed => ?_
    rcases placed with ⟨huge, rfl, after⟩ | ⟨short, _, b, rfl, rfl, vacant⟩
    · exact .null (refuses.mpr huge) after
    · refine wholeGranted vacant (fun refused => ?_) ⟨fun _ => .inl (by decide), fun _ => ?_⟩
      · have := refuses.mp refused
        omega
      · exact divides (i := 3) (by decide) (vacantPlace vacant).2.2.1
  rename_i other
  obtain ⟨i, rfl⟩ := invalidPower valid
  refine safeThen (mallocPlaces houses n) fun p h' σ' placed => ?_
  rcases placed with ⟨huge, rfl, after⟩ | ⟨short, served, b, rfl, rfl, vacant⟩
  · rw [if_pos (Nat.zero_and _)]
    exact safePure 0 (.null (.inr (Nat.le_trans huge (Nat.le_add_right _ _))) after)
  obtain ⟨some, user, aligned, _⟩ := vacantPlace vacant
  have less := Nat.mod_lt b.ptr (Nat.two_pow_pos i)
  split
  · -- the pointer is below the alignment, so it is no multiple of it
    rename_i below
    rw [Nat.and_two_pow_sub_one_eq_mod] at below
    have refuses := refuses 0 (if_pos (.inr (by omega)))
    refine safePure _ (wholeGranted vacant (fun refused => ?_) ⟨fun multiple => ?_, fun low => ?_⟩)
    · have := refuses.mp refused
      omega
    · rw [Nat.mod_eq_zero_of_dvd multiple] at below
      exact absurd below.symm some
    · simp only [byteAlignment] at aligned
      omega
  · rename_i above
    rw [Nat.and_two_pow_sub_one_eq_mod] at above
    have reached : 2 ^ i ≤ servedAt σ b.size := by
      rw [← served]
      exact Nat.le_of_not_lt fun low => above (Nat.mod_eq_of_lt low)
    have refuses := refuses (2 * 2 ^ i) (if_neg (by omega))
    refine safeThen (vacantFree vacant) fun _ h' σ' freed => ?_
    simp only [taskSize] at user
    rw [wrapSmall (x := 2 * 2 ^ i) (by omega), wrapSmall (by omega)]
    refine safeThen (mallocPlaces freed _) fun p h' σ' placed => safePure _ ?_
    rcases placed with ⟨huge, rfl, after⟩ | ⟨short, _, d, rfl, size, vacant⟩
    · have narrow : i < 64 := (Nat.pow_lt_pow_iff_right (by decide)).mp (show 2 ^ i < 2 ^ 64 by omega)
      rw [alignUpZero (Nat.le_of_lt narrow)]
      exact .null (refuses.mpr huge) after
    · exact movedGranted vacant size (fun refused => by have := refuses.mp refused; omega) reached

end Nuaf.AlignedHeap
