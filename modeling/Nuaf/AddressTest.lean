import Nuaf.Exhaustion

/-! Three functions tell small objects from large ones by comparing an address with
LARGE_OBJ_VADDR_START, while xxmalloc chose by the size. The tests agree within README's
limit, and only there: high_vaddr is never compared with that bound. -/
namespace Nuaf.AddressTest
open Layout ByteMemory Machine Source Heap Nuaf.Sequential Exhaustion

structure Classified (pid : Nat) (within : State → Prop) (h : History) (σ : State) : Prop where
  small : ∀ b ∈ live h, b.Small → b.ptr < largeObjVaddrStart
  large : ∀ b ∈ live h, ¬ b.Small → largeObjVaddrStart ≤ b.ptr
  paths : ∀ b ∈ live h, isLarge b.ptr = true ↔ ¬ b.Small
  fixed : ∀ e σ', Step (reliably pid) within h σ e σ' → ∀ c ∈ e.calls,
    ∀ b ∈ live h, ¬ b.Small → ∀ g, b.Page g → ¬ Maps g c

variable {pid : Nat} {h : History} {σ σ' : State} {own own' : Owner} {e : Event}

theorem changeMaps (sound : Sound pid h σ own) (change : Change h σ own e σ' own') {g : Nat}
    (owned : own g ≠ none) : ∀ c ∈ e.calls, ¬ Maps g c := by
  have inv := (soundClear sound).agrees.inv
  have behind := ownedBehind inv owned
  cases change with
  | malloc grant => exact grantMaps inv grant rfl behind
  | free _ _ release => exact releaseMaps inv release rfl behind
  | store _ _ => simp
  | idle _ => simp

theorem soundClassified (sound : Sound pid h σ own) : Classified pid Within h σ := by
  have inv := sound.agrees.inv
  have below : ∀ b ∈ live h, b.Small → b.ptr < largeObjVaddrStart := by
    intro b owned small
    have top := (smallBelow inv ((heldSmall small).mp (sound.agrees.held b owned))).2
    simp only [pageSize] at *
    omega
  have above : ∀ b ∈ live h, ¬ b.Small → largeObjVaddrStart ≤ b.ptr ∧ isLarge b.ptr = true := by
    intro b owned big
    obtain ⟨owns, offset⟩ := (heldBig (Nat.not_le.mp big)).mp (sound.agrees.held b owned)
    obtain ⟨low, _, positive⟩ := bigAddresses inv owns
    refine ⟨by simp only [pageSize] at *; omega, bigLarge inv owns ?_ ?_⟩ <;>
      simp only [pageSize] at * <;> omega
  refine ⟨below, fun b owned big => (above b owned big).1, fun b owned => ⟨?_, ?_⟩, ?_⟩
  · intro large small
    rw [notLarge (below b owned small)] at large
    cases large
  · exact fun big => (above b owned big).2
  · intro e σ' taken c member b owned big g page
    obtain ⟨own', change⟩ := stepChange sound (stepWiden reliablyWider taken)
    obtain ⟨u, owns, _⟩ := (heldSpans inv (sound.agrees.held b owned) page).2
    exact changeMaps sound change (by simp [owns]) c member

theorem addressesClassified (run : Run pid (reliably pid) Within h σ) : Classified pid Within h σ := by
  obtain ⟨own, sound⟩ := runSound (runWiden reliablyWider run)
  exact soundClassified sound

theorem classifiedBesideLarge : ∃ h σ serial, Run 1 (reliably 1) Within h σ ∧
    live h = [blockAt serial (firstPage + 1), bigBlock] ∧ Classified 1 Within h σ := by
  obtain ⟨h, σ, run, last⟩ := @roundsBeside Within 1 (by decide) fun σ high =>
    Nat.le_trans high (by decide)
  obtain ⟨serial, alive, _⟩ := last.block
  exact ⟨h, σ, serial, run, alive, addressesClassified run⟩

theorem smallBlockAtLarge :
    ¬ ∀ h σ, Run 1 (reliably 1) (fun _ => True) h σ → Classified 1 (fun _ => True) h σ := by
  intro always
  obtain ⟨h, σ, run, last⟩ := roundsOverLarge fun _ => trivial
  obtain ⟨serial, alive, _⟩ := last.block
  have below := (always h σ run).small (blockAt serial largePage) (by rw [alive]; simp)
    (blockAtSmall serial largePage)
  exact absurd below (by simp only [blockAt]; decide)

end Nuaf.AddressTest
