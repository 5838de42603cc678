import Nuaf.Capacity
import Nuaf.WrapperSource

/-! What the exported functions do to the list of live blocks, one rule for each. A function
runs as the calls it makes, with a kernel of its own choice for each of them. -/
namespace Nuaf.Wrapper
open CallTree Layout ByteMemory Machine Source Heap Nuaf.Sequential Capacity

def Calling (pid : Nat) : History → State → Event → State → Prop :=
  Step (fun _ σ k op => Calm pid k σ op) Within

def Answers (e : Event) (op : Op) (v : Nat) : Prop := e.op = op ∧ e.reply = .value v

abbrev Returns {α : Type} (pid : Nat) : Calls α → History → State → α → History → State → Prop :=
  Does (Calling pid) Answers

abbrev Triple {α : Type} (pid : Nat) (P : History → State → Prop) (x : Calls α)
    (Q : α → History → State → Prop) : Prop :=
  Ensures (Calling pid) Answers P x Q

def servedAt (σ : State) (size : Nat) : Nat :=
  if largestBlockSize < size then σ.largeObjNextPage + 16
  else
    let fl := σ.gFlsts (blockType size)
    if fl.topOfStack = 0 then σ.highVaddr + fl.highCanonicalAddr % pageSize else fl.topOfStack

structure At (pid : Nat) (bs : List Block) (h : History) (σ : State) : Prop where
  run : Run pid (calmly pid) Within h σ
  live : live h = bs

structure Newest (pid : Nat) (bs : List Block) (n p : Nat) (b : Block) (h : History)
    (σ : State) : Prop where
  ptr : b.ptr = p
  size : b.size = n
  short : n < 2 ^ 63
  positive : 0 < p
  clean : ∀ q, b.Covers q → Clean σ b.ptr q
  now : At pid (b :: bs) h σ

structure Leaves (pid : Nat) (bs : List Block) (gone : Nat) (ptr : Nat) (h : History)
    (σ : State) : Prop where
  run : Run pid (calmly pid) Within h σ
  kept : ∀ b ∈ bs, b.ptr ≠ gone → b ∈ Sequential.live h
  result : 0 < ptr → ∃ b ∈ Sequential.live h, b.ptr = ptr

variable {pid size n : Nat} {h : History} {σ σ' : State} {own own' : Owner} {chains chains' : Chains}
  {e : Event} {op : Op} {v ptr : Nat} {b c : Block} {bs : List Block}

theorem callingCases (taken : Calling pid h σ e σ') (answer : Answers e op v) : ∃ k,
    Calm pid k σ op ∧ exec k op σ.clear = .ok v σ' ∧ Within σ' ∧ e = ⟨op, .value v, σ'.calls⟩ := by
  obtain ⟨asked, replied⟩ := answer
  cases taken with
  | returned allowed call limit =>
    cases asked
    cases replied
    exact ⟨_, allowed, call, limit, rfl⟩
  | faulted allowed call limit => cases replied

theorem callingRun (run : Run pid (calmly pid) Within h σ) (taken : Calling pid h σ e σ')
    (answer : Answers e op v) (allowed : Disciplined h σ op) :
    Run pid (calmly pid) Within (e :: h) σ' := by
  obtain ⟨k, calm, call, limit, rfl⟩ := callingCases taken answer
  exact .next run (.returned ⟨calm, .inl allowed⟩ call limit)

theorem grantServed {p : Nat} (inv : Inv σ own chains)
    (grant : Grant σ own chains size p σ' own' chains') : p = servedAt σ size := by
  cases grant with
  | carve small empty room =>
    rcases topCases inv (blockTypeLt small) with ⟨top, _⟩ | ⟨rest, _, _, full, _⟩
    · simp only [servedAt, if_neg (Nat.not_lt.mpr small), if_pos top]
    · rw [empty] at full
      cases full
  | @pop _ rest link small full next =>
    rcases topCases inv (blockTypeLt small) with ⟨_, empty⟩ | ⟨left, _, real, list, _⟩
    · rw [full] at empty
      cases empty
    · rw [full] at list
      simp only [servedAt, if_neg (Nat.not_lt.mpr small), if_neg real]
      exact (List.cons.inj list).1
  | large big fits room => simp only [servedAt, if_pos big]

theorem bigDoneClean (inv : Inv σ own chains) (fits : bigPages size * pageSize < 2 ^ 64)
    (room : σ.largeObjNextPage + bigPages size * pageSize ≤ taskSize) {g : Nat}
    (low : σ.largeObjNextPage / pageSize < g)
    (high : g < σ.largeObjNextPage / pageSize + bigPages size) :
    load (bigDone (bigPages size) σ).mem (pageSize * g) 8 = some 0 := by
  have base := nextPage inv
  refine loadZero fun i hi => ?_
  have past : σ.largeObjNextPage + 16 ≤ pageSize * g + i := by
    simp only [pageSize] at *
    omega
  refine (writeOut (by omega)).trans ((writeOut (by omega)).trans ?_)
  rw [(bigMappedFields fits room).1]
  exact mapZeroIn (by simp only [pageSize] at *; omega)

theorem grantClean {p q : Nat} (inv : Inv σ own chains)
    (grant : Grant σ own chains size p σ' own' chains') (inside : Inside p size q) :
    Clean σ' p q := by
  have held := grantHeld inv grant
  have after := grantInv inv grant
  intro g low high
  rcases Nat.lt_or_ge largestBlockSize size with big | small
  · have last := (insideBig big held inside).2.1
    cases grant with
    | carve small => exact absurd small (Nat.not_le.mpr big)
    | pop small => exact absurd small (Nat.not_le.mpr big)
    | large _ fits room =>
      have base := nextPage inv
      rw [bigDoneClean inv fits room (g := g) (by simp only [pageSize] at *; omega)
        (by simp only [pageSize] at *; omega)]
      decide
  · have page := (insideSmall after small held inside).1
    omega

theorem heldBounds (inv : Inv σ own chains) (held : Held own ptr size) :
    0 < ptr ∧ ptr < taskSize := by
  rcases Nat.lt_or_ge largestBlockSize size with big | small
  · obtain ⟨owned, offset⟩ := (heldBig big).mp held
    obtain ⟨low, high, positive⟩ := bigAddresses inv owned
    simp only [pageSize, largeObjVaddrStart] at *
    omega
  · obtain ⟨low, high⟩ := smallBelow inv ((heldSmall small).mp held)
    simp only [pageSize, largeObjVaddrStart, mmapMinAddr, taskSize] at *
    omega

theorem xxmallocNewest (at' : At pid bs h σ) (short : size < 2 ^ 63) (taken : Calling pid h σ e σ')
    (answer : Answers e (.xxmalloc size) v) :
    v = servedAt σ size ∧ ∃ b, Newest pid bs size v b (e :: h) σ' := by
  have after := callingRun at'.run taken answer (.xxmalloc size)
  obtain ⟨k, ⟨mine, _⟩, call, limit, rfl⟩ := callingCases taken answer
  obtain ⟨own, sound⟩ := runSound at'.run
  have clear := soundClear sound
  obtain ⟨own', chains', grant⟩ :=
    xxmallocGrant clear.agrees.inv (clear.par.trans mine.symm) call limit
  obtain ⟨b, rfl, rfl, added⟩ := @mallocLive h size v σ'.calls
  have served : b.ptr = servedAt σ.clear b.size := grantServed clear.agrees.inv grant
  exact ⟨served, b, rfl, rfl, short,
    (heldBounds (grantInv clear.agrees.inv grant) (grantHeld clear.agrees.inv grant)).1,
    fun p covers => grantClean clear.agrees.inv grant covers, after, added.trans (by rw [at'.live])⟩

theorem mallocRule (good : Nat → Prop) :
    Triple pid (fun h σ => At pid bs h σ ∧ good (servedAt σ size)) (customMalloc size)
      (fun p h σ => p = 0 ∧ At pid bs h σ ∨ good p ∧ ∃ b, Newest pid bs size p b h σ) := by
  unfold customMalloc
  refine ensuresIte (fun _ => ensuresPure _ fun h σ before => .inl ⟨rfl, before.1⟩) fun top => ?_
  have short : size < 2 ^ 63 := by
    rw [not_not, Nat.shiftRight_eq_div_pow, Nat.div_eq_zero_iff] at top
    exact top.resolve_left (by decide)
  refine ensuresAsk fun h σ e σ' p ⟨at', holds⟩ taken answer => .inr ?_
  obtain ⟨served, newest⟩ := xxmallocNewest at' short taken answer
  exact ⟨served ▸ holds, newest⟩

theorem mallocPlain : Triple pid (At pid bs) (customMalloc size)
    (fun p h σ => p = 0 ∧ At pid bs h σ ∨ ∃ b, Newest pid bs size p b h σ) :=
  ensuresMono (fun _ _ before => ⟨before, trivial⟩) (mallocRule fun _ => True)
    fun _ _ _ after => after.imp_right And.right

theorem freeRule (owned : b ∈ bs) : Triple pid (At pid bs) (customFree b.ptr)
    (fun _ => At pid (bs.filter (fun c => c.ptr ≠ b.ptr))) := by
  refine ensuresBind (Q := fun _ => At pid (bs.filter (fun c => c.ptr ≠ b.ptr))) ?_
    fun _ => ensuresPure _ fun h σ after => after
  refine ensuresAsk fun h σ e σ' v at' taken answer => ?_
  have there : b ∈ live h := at'.live ▸ owned
  have after := callingRun at'.run taken answer (.xxfree there)
  obtain ⟨k, _, call, _, rfl⟩ := callingCases taken answer
  obtain ⟨own, sound⟩ := runSound at'.run
  refine ⟨after, (freeLive (findCovers sound.agrees there (insideSelf _ _))).trans ?_⟩
  rw [without, at'.live]

theorem newestApart (at' : At pid (b :: bs) h σ) (there : c ∈ bs) : c.ptr ≠ b.ptr := by
  obtain ⟨own, sound⟩ := runSound at'.run
  have distinct := sound.agrees.distinct
  rw [show (ledger h).live = b :: bs from at'.live, List.map_cons, List.nodup_cons] at distinct
  exact fun same => distinct.1 (same ▸ List.mem_map_of_mem there)

theorem freeNewest : Triple pid (At pid (b :: bs)) (customFree b.ptr) (fun _ => At pid bs) := by
  intro h σ a h' σ' before run
  have same : (b :: bs).filter (fun c => c.ptr ≠ b.ptr) = bs := by
    rw [List.filter_cons_of_neg (by simp), List.filter_eq_self]
    exact fun c there => decide_eq_true (newestApart before there)
  exact same ▸ freeRule List.mem_cons_self _ _ _ _ _ before run

theorem getsizeRule (owned : b ∈ bs) : Triple pid (At pid bs) (customGetsize b.ptr)
    (fun v h σ => v = usableOf b.size ∧ At pid bs h σ) := by
  refine ensuresAsk fun h σ e σ' v at' taken answer => ?_
  have there : b ∈ live h := at'.live ▸ owned
  have after := callingRun at'.run taken answer (.usableSize there)
  obtain ⟨k, _, call, _, rfl⟩ := callingCases taken answer
  obtain ⟨own, sound⟩ := runSound at'.run
  rw [usableServes sound there (insideSelf _ _) (cleanSelf _ _)] at call
  cases call
  exact ⟨rfl, after, at'.live⟩

theorem storeRule {index : Nat} (owned : b ∈ bs) (inside : index < usableOf b.size) (byte : UInt8) :
    Triple pid (At pid bs) (ask (.store b.ptr index byte)) (fun _ => At pid bs) := by
  refine ensuresAsk fun h σ e σ' v at' taken answer => ?_
  have there : b ∈ live h := at'.live ▸ owned
  obtain ⟨own, sound⟩ := runSound at'.run
  have after := callingRun at'.run taken answer (.store there ((usableIndex sound there).mpr inside))
  obtain ⟨k, _, _, _, rfl⟩ := callingCases taken answer
  exact ⟨after, at'.live⟩

theorem loadRule {index : Nat} (owned : b ∈ bs) (inside : index < usableOf b.size) :
    Triple pid (At pid bs) (ask (.load b.ptr index)) (fun _ => At pid bs) := by
  refine ensuresAsk fun h σ e σ' v at' taken answer => ?_
  have there : b ∈ live h := at'.live ▸ owned
  obtain ⟨own, sound⟩ := runSound at'.run
  have after := callingRun at'.run taken answer (.load there ((usableIndex sound there).mpr inside))
  obtain ⟨k, _, _, _, rfl⟩ := callingCases taken answer
  exact ⟨after, at'.live⟩

theorem memsetRule (owned : b ∈ bs) (byte : UInt8) (inside : n ≤ usableOf b.size) :
    Triple pid (At pid bs) (memset b.ptr byte n) (fun _ => At pid bs) := by
  induction n with
  | zero => exact ensuresPure _ fun h σ before => before
  | succ n ih =>
    refine ensuresBind (ih (by omega)) fun _ => ensuresBind (storeRule owned inside byte) fun _ => ?_
    exact ensuresPure _ fun h σ after => after

theorem memcpyRule (dst : b ∈ bs) (src : c ∈ bs) (room : n ≤ usableOf b.size)
    (inside : n ≤ usableOf c.size) :
    Triple pid (At pid bs) (memcpy b.ptr c.ptr n) (fun _ => At pid bs) := by
  induction n with
  | zero => exact ensuresPure _ fun h σ before => before
  | succ n ih =>
    refine ensuresBind (ih (by omega) (by omega)) fun _ =>
      ensuresBind (loadRule src inside) fun _ => ensuresBind (storeRule dst room _) fun _ => ?_
    exact ensuresPure _ fun h σ after => after

theorem newestEnough (newest : Newest pid bs size ptr b h σ) : size ≤ usableOf b.size := by
  have short := newest.short
  rw [newest.size]
  exact heldEnough size fun _ => by rw [bigPages, wrapSmall (by omega)]

theorem noneLeaves (gone : Nat) (at' : At pid bs h σ) : Leaves pid bs gone 0 h σ :=
  ⟨at'.run, fun _ owned _ => at'.live ▸ owned, fun positive => absurd positive (Nat.lt_irrefl 0)⟩

theorem newestLeaves (gone : Nat) (at' : At pid (b :: bs) h σ) : Leaves pid bs gone b.ptr h σ :=
  ⟨at'.run, fun _ owned _ => at'.live ▸ List.mem_cons_of_mem _ owned,
    fun _ => ⟨b, at'.live ▸ List.mem_cons_self, rfl⟩⟩

theorem mallocLeaves : Triple pid (At pid bs) (customMalloc size) (Leaves pid bs 0) := by
  refine ensuresMono (fun _ _ before => before) mallocPlain ?_
  rintro p h σ (⟨rfl, at'⟩ | ⟨b, newest⟩)
  · exact noneLeaves 0 at'
  · exact newest.ptr ▸ newestLeaves 0 newest.now

theorem callocLeaves {nelem elsize : Nat} :
    Triple pid (At pid bs) (customCalloc nelem elsize) (Leaves pid bs 0) := by
  refine ensuresIte (fun _ => ensuresPure _ fun h σ => noneLeaves 0) fun _ => ?_
  refine ensuresBind mallocPlain fun p => ?_
  rintro h σ q h' σ' (⟨rfl, at'⟩ | ⟨b, newest⟩) run
  · exact ensuresPure 0 (fun h σ => noneLeaves 0) h σ q h' σ' at' run
  · rw [if_pos (Nat.ne_of_gt newest.positive)] at run
    rw [← newest.ptr] at run
    have cleared := @memsetRule pid _ b (b :: bs) List.mem_cons_self 0 (newestEnough newest)
    exact ensuresBind cleared (fun _ => ensuresPure b.ptr fun h σ => newestLeaves 0)
      h σ q h' σ' newest.now run

theorem freeLeaves {ptr : Nat} (owned : b ∈ bs) (here : b.ptr = ptr) :
    Triple pid (At pid bs) (customFree ptr) (fun _ => Leaves pid bs ptr 0) := by
  subst here
  refine ensuresMono (fun _ _ before => before) (freeRule owned) fun _ h σ after => ?_
  refine ⟨after.run, fun c there other => ?_, fun positive => absurd positive (Nat.lt_irrefl 0)⟩
  rw [after.live]
  exact List.mem_filter.mpr ⟨there, decide_eq_true other⟩

theorem reallocLeaves {sz : Nat} (owned : ptr ≠ 0 → ∃ b ∈ bs, b.ptr = ptr) :
    Triple pid (At pid bs) (customRealloc ptr sz) (Leaves pid bs ptr) := by
  unfold customRealloc
  refine ensuresIte (fun none => none ▸ mallocLeaves) fun some => ?_
  obtain ⟨b, there, rfl⟩ := owned some
  refine ensuresIte (fun _ => ensuresBind (freeLeaves there rfl) fun _ =>
    ensuresPure 0 fun h σ after => after) fun _ => ?_
  refine ensuresBind (getsizeRule there) fun objSize => ?_
  rintro h σ p h' σ' ⟨rfl, at'⟩ run
  refine ensuresBind mallocPlain (fun buf => ?_) h σ p h' σ' at' run
  rintro h σ p h' σ' (⟨rfl, at'⟩ | ⟨c, newest⟩) run
  · rw [if_pos rfl] at run
    exact ensuresBind (freeLeaves there rfl) (fun _ => ensuresPure 0 fun h σ after => after)
      h σ p h' σ' at' run
  · have enough := newestEnough newest
    obtain rfl := newest.ptr
    rw [if_neg (Nat.ne_of_gt newest.positive)] at run
    refine ensuresBind (getsizeRule List.mem_cons_self) (fun bufSize => ?_)
      h σ p h' σ' newest.now run
    rintro h σ p h' σ' ⟨rfl, at'⟩ run
    split at run
    · refine ensuresBind freeNewest (fun _ => ensuresPure b.ptr fun h σ after => ?_)
        h σ p h' σ' at' run
      exact ⟨after.run, fun d here _ => after.live ▸ here, fun _ => ⟨b, after.live ▸ there, rfl⟩⟩
    · have old : b ∈ c :: bs := List.mem_cons_of_mem _ there
      have copied := @memcpyRule pid (if usableOf b.size < sz then usableOf b.size else sz) c b
        (c :: bs) List.mem_cons_self old (by split <;> omega) (by split <;> omega)
      refine ensuresBind copied (fun _ => ensuresBind (freeRule old) fun _ =>
        ensuresPure c.ptr fun h σ after => ?_) h σ p h' σ' at' run
      refine ⟨after.run, fun d here other => ?_, fun _ => ⟨c, ?_, rfl⟩⟩
      · rw [after.live]
        exact List.mem_filter.mpr ⟨List.mem_cons_of_mem _ here, decide_eq_true other⟩
      · rw [after.live]
        exact List.mem_filter.mpr
          ⟨List.mem_cons_self, decide_eq_true (newestApart at' there).symm⟩

end Nuaf.Wrapper
