import Nuaf.Exhaustion

/-! The guarantee the allocator exists for: a page that held an object when the object was
freed stays unmapped for ever, whatever the program goes on to do with dangling pointers. -/
namespace Nuaf.NoUseAfterFree
open Layout ByteMemory Machine Source Heap Nuaf.Sequential Exhaustion

inductive Touches (g : Nat) : Op → Prop where
  | xxfree {ptr} (page : ptr / pageSize = g) : Touches g (.xxfree ptr)
  | usableSize {ptr} (page : ptr / pageSize = g) : Touches g (.usableSize ptr)
  | load {ptr index} (page : (ptr + index) / pageSize = g) : Touches g (.load ptr index)
  | store {ptr index byte} (page : (ptr + index) / pageSize = g) : Touches g (.store ptr index byte)

structure Avoids (g : Nat) (e : Event) : Prop where
  calls : ∀ c ∈ e.calls, ¬ Maps g c
  returns : ∀ size p, e.op = .xxmalloc size → e.reply = .value p → ¬ Spans p size g

structure StaysGone (pid g : Nat) (later : History) (σ : State) : Prop where
  unmapped : ∀ a, a / pageSize = g → σ.mem a = none
  avoided : ∀ e ∈ later, Avoids g e
  faults : ∀ k op, k.pid = pid → Touches g op →
    ∃ addr, addr / pageSize = g ∧ exec k op σ.clear = .error (.segv addr) σ.clear

variable {pid g : Nat} {h before later : History} {σ σ' : State} {own own' : Owner} {e : Event}

theorem goneLater (gone : Gone before g) (later : History) : Gone (later ++ before) g := by
  induction later with
  | nil => exact gone
  | cons e later ih => exact .inl ih

theorem changeAvoids (sound : Sound pid h σ own) (gone : Gone h g)
    (change : Change h σ own e σ' own') : Avoids g e := by
  have clear := soundClear sound
  have inv := clear.agrees.inv
  have retired := clear.gone g gone
  cases change with
  | malloc grant =>
    refine ⟨grantMaps inv grant rfl (retiredBehind inv retired), ?_⟩
    rintro size p rfl' rfl'' page
    cases rfl'
    cases rfl''
    obtain ⟨u, owned, _⟩ := (heldSpans (grantInv inv grant) (grantHeld inv grant) page).2
    rw [(grantRetired inv grant retired).1] at owned
    cases owned
  | free owned found release =>
    exact ⟨releaseMaps inv release rfl (retiredBehind inv retired), fun size p op => by cases op⟩
  | store owned inside => exact ⟨by simp, fun size p op => by cases op⟩
  | idle idle =>
    refine ⟨by simp, fun size p op reply => ?_⟩
    dsimp only at op reply
    subst op reply
    cases idle

theorem laterAvoids (gone : Gone before g) (run : Run pid (calmly pid) Within (later ++ before) σ) :
    ∀ e ∈ later, Avoids g e := by
  induction later generalizing σ with
  | nil => simp
  | cons e later ih =>
    cases run with
    | next run taken =>
      obtain ⟨own, sound⟩ := runSound run
      obtain ⟨own', change⟩ := stepChange sound taken
      intro d member
      rcases List.mem_cons.mp member with rfl | old
      · exact changeAvoids sound (goneLater gone later) change
      · exact ih run d old

theorem goneFaults (sound : Sound pid h σ own) (gone : Gone h g) {k : Kernel} {op : Op}
    (mine : k.pid = pid) (touches : Touches g op) :
    ∃ addr, addr / pageSize = g ∧ exec k op σ.clear = .error (.segv addr) σ.clear := by
  have clear := soundClear sound
  have retired := clear.gone g gone
  have holes : ∀ a, a / pageSize = g → σ.clear.mem a = none := fun a page =>
    retiredHole clear.agrees.inv retired page
  have par := clear.par.trans mine.symm
  cases touches with
  | xxfree page =>
    exact ⟨_, by rw [pageOf]; exact page, bindError (xxfreeFault par (retiredAddress retired page)
      fun a same => holes a (same.trans page))⟩
  | usableSize page =>
    exact ⟨_, by rw [pageOf]; exact page, usableFault (retiredAddress retired page)
      fun a same => holes a (same.trans page)⟩
  | load page => exact ⟨_, page, readWordFault (loadUnmapped (by decide) (holes _ page))⟩
  | store page =>
    exact ⟨_, page, bindError (writeWordFault (fun mapped => mapped 0 (by decide) (holes _ page)) _)⟩

theorem freedPagesStayGone (run : Run pid (misusing pid) Within (later ++ before) σ)
    (gone : Gone before g) : StaysGone pid g later σ := by
  obtain ⟨own, sound⟩ := runSound (runWiden misusingWider run)
  have still := goneLater gone later
  exact ⟨fun a page => retiredHole sound.agrees.inv (sound.gone g still) page,
    laterAvoids gone (runWiden misusingWider run), fun k op mine touches => goneFaults sound still mine touches⟩

theorem firstPageStaysGone : ∃ later before σ, Run 1 (misusing 1) Within (later ++ before) σ ∧
    (∃ e ∈ later, e.op = .load (pageSize * firstPage + 16) 0) ∧ Gone before firstPage ∧
    StaysGone 1 firstPage later σ := by
  obtain ⟨e, h, σ, run, rest, gone⟩ := freedFirst
  have before : Run 1 (misusing 1) Within (e :: h) σ :=
    runWiden (fun _ _ _ _ ⟨reliable, allowed⟩ => ⟨reliable, .inl allowed⟩) run
  have page : (pageSize * firstPage + 16 + 0) / pageSize = firstPage := by decide
  obtain ⟨own, sound⟩ := runSound (runWiden misusingWider before)
  obtain ⟨addr, _, fault⟩ := goneFaults sound gone steadyReliable.1 (Touches.load page)
  have after := Trace.Run.next before (.faulted ⟨steadyReliable, .inr (.load (page.symm ▸ gone))⟩ fault
    (Nat.le_trans (Nat.le_of_eq rest.high) (by decide)))
  exact ⟨[_], e :: h, _, after, ⟨_, List.mem_cons_self, rfl⟩, gone, freedPagesStayGone after gone⟩

end Nuaf.NoUseAfterFree
