import Nuaf.AlignedHeap
import Nuaf.Sessions

/-! Programs that ask for any alignment, keep to the size they asked for and give back what they
were handed. What xxmalloc_usable_size and realloc make of such a pointer is left out here. -/
namespace Nuaf.AlignedSessions
open CallTree ByteHeap Layout ByteMemory Machine Source Heap Nuaf.Sequential Wrapper ExportedHeap
  ExportedCalls AlignedHeap Exhaustion
open Requests (after makes)
open Sessions (InMemory Runs Task heapOf Session sessionKeeps)
open UsableExtent (steadyCalm bigReturns goneReturns widerReturns widerPtr widerState
  widerHistory)

inductive Asks (H : Objects) (σ : State) : Request → Prop where
  | malloc (size) : Asks H σ (.malloc size)
  | memalign (alignment size) : Asks H σ (.memalign alignment size)
  | posixMemalign (alignment size) : Asks H σ (.posixMemalign alignment size)
  | alignedAlloc {alignment} (real : 0 < alignment) (size) : Asks H σ (.alignedAlloc alignment size)
  | valloc (size) : Asks H σ (.valloc size)
  | pvalloc (size) : Asks H σ (.pvalloc size)
  | free {ptr c} (mine : H ptr = some c) (unforged : Unforged σ ptr) : Asks H σ (.free ptr)
  | freeNull : Asks H σ (.free 0)

structure Served (H : Objects) (σ : State) (r : Request) (v : Nat) : Prop where
  null : v = 0 ↔ Refused σ r.alignment r.room
  fresh : v ≠ 0 → H v = none
  aligned : v ≠ 0 → (r.alignment ∣ v ↔ r.alignment ≤ 16 ∨ r.alignment ≤ servedAt σ r.room)
  low : v ≠ 0 → r.alignment ≤ mmapMinAddr → r.alignment ∣ v
  room : v ≠ 0 → r.asked < 2 ^ 64 → r.alignment < 2 ^ 64 →
    (r.asked ≤ r.room ↔ r.asked + r.slack < 2 ^ 64)

structure Sits (pid : Nat) (H : Objects) (s : History × State) : Prop where
  memory : InMemory H s.2
  fine : ∀ t : Task, t.Allowed (Asks H s.2) H →
    ∀ op h σ, Comes (Calling pid) Answers t.calls s.1 s.2 op h σ → Fine pid h σ op
  served : ∀ r v s', Asks H s.2 r → Runs pid (serve r) s v s' → Served H s.2 r v

variable {pid n p v i : Nat} {H : Objects} {c : Cells} {h h' : History} {σ σ' : State} {r : Request} {t : Task}
  {u : List Sessions.Use} {s : History × State}

theorem roundedEnough (narrow : i < 64) (fits : n < 2 ^ 64) :
    n ≤ roundedSize (2 ^ i) n ↔ n + 2 ^ i < 2 ^ 64 := by
  have positive : 0 < 2 ^ i := Nat.two_pow_pos i
  have small : 2 ^ i < 2 ^ 64 := Nat.pow_lt_pow_right (by decide) narrow
  have rest := Nat.mod_lt n positive
  unfold roundedSize
  rcases Nat.lt_or_ge (n + 2 ^ i) (2 ^ 64) with inside | past
  · rw [wrapSmall inside, subWrap, wrap]
    omega
  · -- the sum wraps to the remainder itself, and nothing is left
    obtain ⟨q, pages⟩ := Nat.pow_dvd_pow 2 (Nat.le_of_lt narrow)
    have wrapped : wrap (n + 2 ^ i) = n + 2 ^ i - 2 ^ 64 := by
      rw [wrap]
      omega
    have split : n = n + 2 ^ i - 2 ^ 64 + 2 ^ i * (q - 1) := by
      rw [Nat.mul_sub, ← pages]
      omega
    have same : n % 2 ^ i = n + 2 ^ i - 2 ^ 64 := by
      rw [split, Nat.add_mul_mod_self_left, ← split, Nat.mod_eq_of_lt (by omega)]
    rw [wrapped, same, subWrap, wrap]
    omega

theorem roundedPages (fits : n < 2 ^ 64) :
    n ≤ wrap (n + 8191) &&& (2 ^ 64 - 1 - 8191) ↔ n + 8191 < 2 ^ 64 := by
  have clear : wrap (n + 8191) &&& (2 ^ 64 - 1 - 8191) = wrap (n + 8191) / 8192 * 8192 :=
    clearLow (i := 13) (Nat.mod_lt _ (by decide)) (by decide)
  rw [clear, wrap]
  omega

theorem roomEnough (power : r.alignment.isPowerOfTwo) (fits : r.asked < 2 ^ 64)
    (narrow : r.alignment < 2 ^ 64) : r.asked ≤ r.room ↔ r.asked + r.slack < 2 ^ 64 := by
  cases r with
  | alignedAlloc alignment size =>
    obtain ⟨i, rfl⟩ := power
    exact roundedEnough ((Nat.pow_lt_pow_iff_right (by decide)).mp narrow) fits
  | pvalloc size => exact roundedPages fits
  | _ => exact ⟨fun _ => fits, fun _ => Nat.le_refl _⟩

theorem nullNone (houses : Houses pid H h σ) : H 0 = none := by
  cases here : H 0 with
  | none => rfl
  | some c =>
    obtain ⟨own, sound⟩ := houses.sound
    obtain ⟨b, owned, covers, _⟩ := (houses.lies 0 c here).block
    have positive := (heldBounds sound.agrees.inv (sound.agrees.held b owned)).1
    have low := covers.1
    omega

theorem servedHigh (houses : Houses pid H h σ) (n : Nat) : mmapMinAddr ≤ servedAt σ n := by
  obtain ⟨own, sound⟩ := houses.sound
  have inv := sound.agrees.inv
  rcases Nat.lt_or_ge largestBlockSize n with big | small
  · have low := inv.nextLow
    simp only [servedAt, if_pos big, mmapMinAddr, largeObjVaddrStart] at *
    omega
  · rcases topCases inv (blockTypeLt small) with ⟨top, _⟩ | ⟨rest, _, real, full, _⟩
    · simp only [servedAt, if_neg (Nat.not_lt.mpr small), if_pos top]
      exact Nat.le_trans inv.highLow (Nat.le_add_right _ _)
    · have owned := (inv.chained _ (blockTypeLt small) _).mp (full ▸ List.mem_cons_self)
      simp only [servedAt, if_neg (Nat.not_lt.mpr small), if_neg real]
      exact Nat.le_trans (smallBelow inv owned).1 (Nat.mul_div_le _ _)

theorem grantedServed (houses : Houses pid H h σ) (gone : r.gone = 0)
    (plain : ∀ v, after H r v = if v = 0 then H.drop r.gone else (H.drop r.gone).put v (.blank r.room))
    (granted : Granted pid H σ r.alignment r.room v h' σ') :
    Served H σ r v ∧ Houses pid (after H r v) h' σ' := by
  cases granted with
  | null refused after' =>
    refine ⟨⟨⟨fun _ => refused, fun _ => rfl⟩, ?_, ?_, ?_, ?_⟩, ?_⟩
    iterate 4 exact fun some => absurd rfl some
    rw [plain, if_pos rfl, gone, dropNone (nullNone houses)]
    exact after'
  | made granted some aligned fresh divides after' =>
    refine ⟨⟨⟨fun none => absurd none some, fun refused => absurd refused granted⟩, fun _ => fresh,
      fun _ => divides, fun _ low => ?_, fun _ fits narrow => ?_⟩, ?_⟩
    · exact divides.mpr (.inr (Nat.le_trans low (servedHigh houses r.room)))
    · exact roomEnough (invalidPower fun invalid => granted (.inl invalid)) fits narrow
    · rw [plain, if_neg some, gone, dropNone (nullNone houses)]
      exact after'

theorem servedSafe (houses : Houses pid H h σ) (asks : Asks H σ r) :
    Serving pid (serve r) h σ fun v h' σ' => Served H σ r v ∧ Houses pid (after H r v) h' σ' := by
  have aligns : ∀ alignment n, r.alignment = alignment → r.room = n → r.gone = 0 →
      (∀ v, after H r v = if v = 0 then H.drop r.gone else (H.drop r.gone).put v (.blank r.room)) →
      Serving pid (customMemalign alignment n) h σ fun v h' σ' =>
        Served H σ r v ∧ Houses pid (after H r v) h' σ' := by
    rintro _ _ rfl rfl gone plain
    exact safeMono (memalignHouses houses _ _) fun v h' σ' => grantedServed houses gone plain
  have frees : ∀ ptr, r = .free ptr → ∀ h' σ', Houses pid (H.drop ptr) h' σ' →
      Served H σ r 0 ∧ Houses pid (after H r 0) h' σ' := by
    rintro ptr rfl h' σ' freed
    refine ⟨⟨⟨fun _ => .inl (.inl rfl), fun _ => rfl⟩, ?_, ?_, ?_, ?_⟩, freed⟩
    iterate 4 exact fun some => absurd rfl some
  cases asks with
  | malloc size =>
    have same : customMemalign 8 size = customMalloc size := by
      rw [customMemalign, if_neg (by decide), if_pos rfl]
    have served := aligns 8 size rfl rfl rfl fun _ => rfl
    rwa [same] at served
  | memalign alignment size => exact aligns alignment size rfl rfl rfl fun _ => rfl
  | posixMemalign alignment size =>
    rw [posixServes]
    exact aligns alignment size rfl rfl rfl fun _ => rfl
  | alignedAlloc real size =>
    rw [alignedServes real]
    exact aligns _ _ rfl rfl rfl fun _ => rfl
  | valloc size => exact aligns 8192 size rfl rfl rfl fun _ => rfl
  | pvalloc size => exact aligns 8192 _ rfl rfl rfl fun _ => rfl
  | free mine unforged =>
    exact safeThen (freeHouses houses mine unforged) fun _ h' σ' freed =>
      safePure 0 (frees _ rfl h' σ' freed)
  | freeNull =>
    refine safeThen (nullHouses houses) fun _ h' σ' kept => safePure 0 (frees 0 rfl h' σ' ?_)
    rwa [dropNone (nullNone houses)]

theorem housesMemory (houses : Houses pid H h σ) : InMemory H σ := by
  obtain ⟨own, sound⟩ := houses.sound
  refine ⟨fun p c here => ?_, fun p c here i inside => ?_, fun p c here i v known =>
    ((houses.lies p c here).bytes i v known).2, fun p c q d here there other i left j right same => ?_⟩
  · have lies := houses.lies p c here
    obtain ⟨b, owned, covers, room, _⟩ := lies.block
    have held := sound.agrees.held b owned
    have top := (Capacity.heldAligned sound.agrees.inv held).2
    have low := (heldBounds sound.agrees.inv held).1
    have past := covers.1
    exact ⟨by omega, lies.aligned, by omega⟩
  · obtain ⟨b, owned, _, j, within, place⟩ := liesIndex (houses.lies p c here) inside
    exact place ▸ insideMapped sound.agrees.inv (sound.agrees.held b owned) (coversIndex within)
  · obtain ⟨b, owned, covers, k, within, place⟩ := liesIndex (houses.lies p c here) left
    obtain ⟨b', owned', covers', k', within', place'⟩ := liesIndex (houses.lies q d there) right
    have block := blockUnique sound owned owned' (place ▸ coversIndex within)
      (same ▸ place' ▸ coversIndex within')
    exact other (houses.apart p q (by simp [here]) (by simp [there]) b owned covers (block ▸ covers'))

theorem taskHouses (houses : Houses pid H h σ) (allowed : t.Allowed (Asks H σ) H) :
    Serving pid t.calls h σ fun v => Houses pid (t.after H v) := by
  cases allowed with
  | ask may => exact safeMono (servedSafe houses may) fun _ _ _ => And.right
  | load mine inside => exact safeMono (loadHouses houses mine inside) fun _ _ _ => And.right
  | store mine inside =>
    simpa only [Task.calls, Task.after, mine] using storeHouses houses mine inside

theorem sessionHouses (run : Session pid Asks u s) : Houses pid (heapOf u) s.1 s.2 :=
  sessionKeeps (Houses pid) (fun _ => beginHouses) (fun _ _ _ _ => taskHouses) run

theorem alignedSessions (run : Session pid Asks u s) : Sits pid (heapOf u) s := by
  have houses := sessionHouses run
  exact ⟨housesMemory houses, fun t allowed op h σ => safeComes (taskHouses houses allowed),
    fun r v s' asks runs => (safeDoes (servedSafe houses asks) runs).1⟩

theorem widerReturned : Returns 1 (customMemalign 64 4096) [] begun (widerPtr + 48) widerHistory
    widerState := by
  rw [customMemalign, if_neg (by decide), if_neg (by decide)]
  refine doesBind bigReturns ?_
  rw [if_neg (by decide)]
  exact doesBind goneReturns (doesBind widerReturns .done)

def widerUse : List Sessions.Use := [(.ask (.memalign 64 4096), widerPtr + 48)]

theorem widerSession : Sits 1 (heapOf widerUse) (widerHistory, widerState) :=
  alignedSessions (.next (.init (s := ([], begun)) ⟨rfl, begunStarted⟩)
    (.used (.ask (.memalign 64 4096)) widerReturned))

end Nuaf.AlignedSessions
