import Nuaf.Exhaustion

/-! The heap as the program may think of it: independent byte arrays, one for each live
object. Within README's limit the allocator refines it; `arrays` is the abstract side,
folded over the history, and `Refines` what the memory of the process shows of it. -/
namespace Nuaf.ByteArrays
open Layout ByteMemory LinkedStack Machine Source Heap Nuaf.Sequential Exhaustion

def InRange (σ : State) (ptr a : Nat) : Prop := ptr ≤ a ∧ Usable σ ptr (a - ptr)

inductive HeaderByte (h : History) : Nat → Prop where
  | small {a} (below : a < largeObjVaddrStart) (word : a % pageSize < 4) : HeaderByte h a
  | large {b a} (owned : b ∈ live h) (big : ¬ b.Small) (low : pageSize * (b.ptr / pageSize) ≤ a)
      (high : a < pageSize * (b.ptr / pageSize) + 16) : HeaderByte h a

def LinkByte (σ : State) (a : Nat) : Prop :=
  ∃ t < numBlockTypes, ∃ xs, Linked (fun a => load σ.mem a 8) 0 (σ.gFlsts t).topOfStack xs ∧
    ∃ f ∈ xs, f ≤ a ∧ a < f + 8

structure Refines (h : History) (σ : State) : Prop where
  answers : ∀ b ∈ live h, ∃ size, xxmallocUsableSize b.ptr σ = .ok size σ
  disjoint : ∀ b ∈ live h, ∀ c ∈ live h, b ≠ c → ∀ a, InRange σ b.ptr a → ¬ InRange σ c.ptr a
  mapped : ∀ b ∈ live h, ∀ a, InRange σ b.ptr a → σ.mem a ≠ none
  headers : ∀ b ∈ live h, ∀ a, InRange σ b.ptr a → ¬ HeaderByte h a
  links : ∀ b ∈ live h, ∀ a, InRange σ b.ptr a → ¬ LinkByte σ a
  contents : ∀ b ∈ live h, ∀ i byte, arrays h b.ptr i = some byte → σ.mem (b.ptr + i) = some byte

variable {pid : Nat} {h : History} {σ σ' : State} {own own' : Owner} {e : Event}

theorem inRangeIff (sound : Sound pid h σ own) {b : Block} (owned : b ∈ live h) (a : Nat) :
    InRange σ b.ptr a ↔ b.Covers a := by
  unfold InRange Block.Covers Inside
  rw [usableIndex sound owned]
  omega

def Stored (h : History) (σ : State) : Prop := ∀ b ∈ live h, ∀ i byte,
  arrays h b.ptr i = some byte → i < usableOf b.size ∧ σ.mem (b.ptr + i) = some byte

theorem liveMalloc {size p : Nat} {calls : List Call} {b : Block}
    (owned : b ∈ live (⟨.xxmalloc size, .value p, calls⟩ :: h)) : b.ptr = p ∨ b ∈ live h := by
  have made : ∀ l : Ledger, b ∈ (l.malloc size p).live → b.ptr = p ∨ b ∈ l.live := by
    intro l member
    unfold Ledger.malloc at member
    split at member
    · split at member <;>
        exact (List.mem_cons.mp member).imp_left fun same => by rw [same]
    · exact (List.mem_cons.mp member).imp_left fun same => by rw [same]
  exact made (ledger h) owned

theorem liveFree {b c : Block} {ptr v : Nat} {calls : List Call}
    (found : (ledger h).find ptr = some b)
    (owned : c ∈ live (⟨.xxfree ptr, .value v, calls⟩ :: h)) : c ∈ live h ∧ c.ptr ≠ b.ptr := by
  rw [live, ledgerFree found] at owned
  have kept : c ∈ (ledger h).live.filter (fun c => c.ptr ≠ b.ptr) := by
    unfold Ledger.release at owned
    split at owned <;> exact owned
  exact ⟨(List.mem_filter.mp kept).1, of_decide_eq_true (List.mem_filter.mp kept).2⟩

theorem coversSpans (sound : Sound pid h σ own) {b : Block} (owned : b ∈ live h) {a : Nat}
    (covers : b.Covers a) : Spans b.ptr b.size (a / pageSize) ∧ Busy own (a / pageSize) := by
  have held := sound.agrees.held b owned
  have page := insideSpans sound.agrees.inv held covers
  exact ⟨page, (heldSpans sound.agrees.inv held page).2⟩

theorem coversApart (sound : Sound pid h σ own) {b c : Block} (left : b ∈ live h)
    (right : c ∈ live h) {a x : Nat} (here : b.Covers a) (there : c.Covers x)
    (page : a / pageSize = x / pageSize) : b.ptr = c.ptr :=
  heldApart sound.agrees.inv (sound.agrees.held b left) (sound.agrees.held c right)
    (coversSpans sound left here).1 (page ▸ (coversSpans sound right there).1)

theorem storedChange (sound : Sound pid h σ own) (stored : Stored h σ)
    (change : Change h σ own e σ' own') : Stored (e :: h) σ' := by
  have clear := soundClear sound
  have busy : ∀ c ∈ live h, ∀ i < usableOf c.size, own ((c.ptr + i) / pageSize) ≠ none := by
    intro c owned i inside
    obtain ⟨u, owns, _⟩ := (coversSpans sound owned (coversIndex inside)).2
    simp [owns]
  intro c owned i byte last
  cases change with
  | @malloc size p _ _ _ grant =>
    have other : c.ptr ≠ p := by
      rintro rfl
      simp [arrays, Arrays.apply] at last
    have old := (liveMalloc owned).resolve_left other
    have before : arrays h c.ptr i = some byte := by
      simpa [arrays, Arrays.apply, other] using last
    obtain ⟨inside, there⟩ := stored c old i byte before
    exact ⟨inside, (grantMem clear.agrees.inv grant (busy c old i inside)).trans there⟩
  | @free b _ _ _ _ _ live found release =>
    obtain ⟨old, other⟩ := liveFree found owned
    obtain ⟨inside, there⟩ := stored c old i byte last
    refine ⟨inside, (releaseMem clear.agrees.inv release (clear.agrees.held b live)
      (busy c old i inside) fun page => other ?_).trans there⟩
    exact heldApart clear.agrees.inv (clear.agrees.held c old) (clear.agrees.held b live)
      (coversSpans sound old (coversIndex inside)).1 page
  | @store b index v w mine within =>
    have mem : ∀ a, a ≠ b.ptr + index →
        (wrote (b.ptr + index) 1 v.toNat σ.clear).mem a = σ.mem a :=
      fun a other => writeOut (by omega)
    by_cases same : c.ptr = b.ptr ∧ i = index
    · obtain ⟨ptr, rfl⟩ := same
      have byte : v = byte := by simpa [arrays, Arrays.apply, ptr] using last
      have cells := List.inj_on_of_nodup_map sound.agrees.distinct owned mine ptr
      subst byte cells
      refine ⟨within, (writeIn (by omega)).trans ?_⟩
      simp [byteOf]
    · have before : arrays h c.ptr i = some byte := by
        by_cases ptr : c.ptr = b.ptr
        · have differ : i ≠ index := fun h => same ⟨ptr, h⟩
          simpa [arrays, Arrays.apply, ptr, differ] using last
        · simpa [arrays, Arrays.apply, ptr] using last
      obtain ⟨inside, there⟩ := stored c owned i byte before
      refine ⟨inside, (mem _ fun eq => ?_).trans there⟩
      have ptr := coversApart sound owned mine (coversIndex inside) (coversIndex within) (by rw [eq])
      exact same ⟨ptr, by omega⟩
  | idle idle =>
    have old : c ∈ live h := by rwa [live, idleLedger idle] at owned
    rw [idleArrays idle] at last
    exact stored c old i byte last

theorem headerApart (sound : Sound pid h σ own) {b : Block} (owned : b ∈ live h) {a : Nat}
    (covers : b.Covers a) : ¬ HeaderByte h a := by
  have inv := sound.agrees.inv
  have held := sound.agrees.held b owned
  intro header
  cases header with
  | small below word =>
    rcases Nat.lt_or_ge largestBlockSize b.size with big | small
    · have low := (bigAddresses inv ((heldBig big).mp held).1).1
      have := (insideBig big held covers).2.2
      omega
    · have page := (insideSmall inv small held covers).1
      have inside := slotCases (inv.small ((heldSmall small).mp held)).slot
      have := covers.1
      simp only [pageSize] at *
      omega
  | @large c _ other big low high =>
    have page : a / pageSize = c.ptr / pageSize := by simp only [pageSize] at *; omega
    have same := coversApart sound owned other covers (insideSelf c.ptr c.size) page
    have offset := ((heldBig (Nat.not_le.mp big)).mp (sound.agrees.held c other)).2
    have := covers.1
    simp only [pageSize] at *
    omega

theorem linkApart (sound : Sound pid h σ own) {b : Block} (owned : b ∈ live h) {a : Nat}
    (covers : b.Covers a) : ¬ LinkByte σ a := by
  rintro ⟨t, cls, xs, linked, f, member, low, high⟩
  have inv := sound.agrees.inv
  rw [linkedUnique linked (inv.linked t cls)] at member
  have freed := (inv.chained t cls f).mp member
  have inside := slotCases (inv.small freed).slot
  have page : a / pageSize = f / pageSize := by simp only [pageSize] at *; omega
  obtain ⟨u, owns, busy⟩ := (coversSpans sound owned covers).2
  rw [page, freed] at owns
  cases owns
  exact busy _ _ rfl

theorem soundRefines (sound : Sound pid h σ own) (stored : Stored h σ) : Refines h σ where
  answers b owned := ⟨_, usableHeld sound.agrees.inv (sound.agrees.held b owned)⟩
  disjoint b left c right differ a here there := by
    have same := coversApart sound left right ((inRangeIff sound left a).mp here)
      ((inRangeIff sound right a).mp there) rfl
    exact differ (List.inj_on_of_nodup_map sound.agrees.distinct left right same)
  mapped b owned a range :=
    insideMapped sound.agrees.inv (sound.agrees.held b owned) ((inRangeIff sound owned a).mp range)
  headers b owned a range := headerApart sound owned ((inRangeIff sound owned a).mp range)
  links b owned a range := linkApart sound owned ((inRangeIff sound owned a).mp range)
  contents b owned i byte last := (stored b owned i byte last).2

theorem runStored (run : Run pid (calmly pid) Within h σ) :
    ∃ own, Sound pid h σ own ∧ Stored h σ := by
  refine @Trace.runInvariant _ _ _ _ h σ (fun h σ => ∃ own, Sound pid h σ own ∧ Stored h σ)
    (fun σ begun => ⟨_, soundInit begun, fun b owned => by cases owned⟩) ?_ run
  rintro h σ e σ' ⟨own, sound, stored⟩ taken
  obtain ⟨own', change⟩ := stepChange sound taken
  exact ⟨own', changeSound sound change, storedChange sound stored change⟩

theorem refinesByteArrays (run : Run pid (reliably pid) Within h σ) : Refines h σ := by
  obtain ⟨own, sound, stored⟩ := runStored (runWiden reliablyWider run)
  exact soundRefines sound stored

theorem refinesBesideLarge : ∃ h σ serial, Run 1 (reliably 1) Within h σ ∧
    live h = [blockAt serial (firstPage + 1), bigBlock] ∧ arrays h bigBlock.ptr 0 = some 1 ∧
    Refines h σ := by
  obtain ⟨h, σ, run, last⟩ := @roundsBeside Within 1 (by decide) fun σ high =>
    Nat.le_trans high (by decide)
  obtain ⟨serial, alive, _⟩ := last.block
  refine ⟨h, σ, serial, run, alive, ?_, refinesByteArrays run⟩
  rw [last.arrays bigBlock.ptr (by decide)]
  rfl

theorem clobberedLargeObject :
    ¬ ∀ h σ, Run 1 (reliably 1) (fun _ => True) h σ → Refines h σ := by
  intro always
  obtain ⟨h, σ, run, rest⟩ := roundsToLarge fun _ => trivial
  obtain ⟨serial, alive, _⟩ := rest.block
  have wrote : arrays h bigBlock.ptr 0 = some 1 := by
    rw [rest.arrays bigBlock.ptr (by decide)]
    rfl
  have kept := (always h σ run).contents bigBlock (by rw [alive]; simp) 0 1 wrote
  rw [rest.mem, pageOverIn (by decide)] at kept
  cases kept

end Nuaf.ByteArrays
