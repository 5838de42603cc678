import Nuaf.Lifetimes

/-! No call goes on for ever, and none waits for another thread but at a lock. Whatever the others
do in between, a call is over after five steps of its own, and it can always take the next one
unless its object has been freed or the memory has run out. -/
namespace Nuaf.Progress
open Layout Machine Source Heap Threads DoubleFree Lifetimes

def rank : Pc → Nat
  | .free _ => 5
  | .scan true _ _ => 4
  | .malloc _ | .query _ | .pages true _ _ => 3
  | .magic _ _ | .scan false _ _ | .rescan _ _ _ => 2
  | .count _ _ | .pages false _ _ | .unmapping _ _ _ | .moving _ _ => 1
  | _ => 0

def spent (τ : Nat) : History → Nat
  | [] => 0
  | .called υ _ :: h => if υ = τ then 0 else spent τ h
  | .advanced υ _ _ :: h => if υ = τ then spent τ h + 1 else spent τ h
  | _ :: h => spent τ h

inductive Enabled (h : History) (k : Kernel) (pc : Pc) (σ : State) : Prop where
  | runs {pc' σ'} (call : next k pc σ = .ok pc' σ')
  | dangles {p} (gone : p ∈ freed h) (named : pc.named = some p) (stops : Stops k pc σ)
  | full {size code σ'} (asks : pc = .malloc size) (full : NoRoom σ size)
      (call : next k pc σ = .error (.exit code) σ')
  | past {size addr σ'} (asks : pc = .malloc size) (past : PastFile σ size)
      (call : next k pc σ = .error (.bus addr) σ')

structure Progresses (pid : Nat) (h : History) (s : System) (τ : Nat) : Prop where
  bounded : spent τ h + rank (s.pc τ) ≤ 5
  ends : spent τ h = 5 → (s.pc τ).Final
  enabled : ¬ (s.pc τ).Final → ∀ k, Reliable pid k → Enabled h k (s.pc τ) s.heap

variable {pid τ υ : Nat} {h : History} {s s' : System} {σ σ' : State} {own own' : Owner}
  {chains chains' : Chains} {k : Kernel} {e : Event} {pc pc' : Pc}

theorem rankFinal : rank pc = 0 ↔ pc.Final := by
  cases pc with
  | scan freeing => cases freeing <;> simp [rank, Pc.Final]
  | pages freeing => cases freeing <;> simp [rank, Pc.Final]
  | _ => simp [rank, Pc.Final]

theorem changeRank (change : Change h σ own chains pc pc' σ' own' chains') : rank pc' < rank pc := by
  cases change with
  | serve | map | stale => simp [rank]
  | header at' writes => cases writes <;> simp [rank]
  | release known leaving => cases leaving <;> simp [rank]
  | look looks =>
    cases looks with
    | @scan freeing => cases freeing <;> simp [rank]
    | _ => simp [rank]

def Bounded (h : History) (s : System) : Prop := ∀ τ, spent τ h + rank (s.pc τ) ≤ 5

theorem boundedQuiet (bounded : Bounded h s) (same : ∀ υ, spent υ (e :: h) = spent υ h)
    (pcs : ∀ υ, s'.pc υ = s.pc υ ∨ s'.pc υ = .idle) : Bounded (e :: h) s' := by
  intro υ
  have before := bounded υ
  rw [same υ]
  rcases pcs υ with kept | idle
  · rw [kept]
    exact before
  · rw [idle]
    exact Nat.le_trans (Nat.add_le_add_left (Nat.zero_le _) _) before

theorem gotoIdle (υ : Nat) : (s.goto τ .idle).pc υ = s.pc υ ∨ (s.goto τ .idle).pc υ = .idle := by
  by_cases self : υ = τ
  · subst self
    exact .inr (gotoSelf s υ .idle)
  · exact .inl (gotoOther s .idle self)

theorem boundedStep (races : Races pid h s own chains) (bounded : Bounded h s)
    (taken : Step pid Racing Within h s e s') : Bounded (e :: h) s' := by
  cases taken with
  | @called τ pc ready allowed =>
    intro υ
    by_cases self : υ = τ
    · subst self
      rw [gotoSelf, spent, if_pos rfl]
      cases allowed <;> simp [rank]
    · rw [gotoOther s pc self, spent, if_neg (Ne.symm self)]
      exact bounded υ
  | @advanced τ k pc heap reliable running call limit =>
    obtain ⟨own', chains', change⟩ := advanceChange races reliable running call limit
    intro υ
    by_cases self : υ = τ
    · subst self
      have less := changeRank change
      have before := bounded υ
      simp only [spent, if_pos, gotoSelf]
      omega
    · simp only [spent, if_neg (Ne.symm self), gotoOther s pc self]
      exact bounded υ
  | faulted => exact boundedQuiet bounded (fun _ => rfl) gotoIdle
  | returned => exact boundedQuiet bounded (fun _ => rfl) gotoIdle
  | stored => exact boundedQuiet bounded (fun _ => rfl) fun _ => .inl rfl
  | handedOver => exact boundedQuiet bounded (fun _ => rfl) fun _ => .inl rfl

theorem runBounded (run : Run pid Racing Within h s) : Bounded h s := by
  induction run with
  | init begun =>
    intro τ
    simp [begun.2 τ, spent, rank]
  | next before taken ih =>
    obtain ⟨own, chains, races⟩ := racesRun before
    exact boundedStep races ih taken

theorem namedKnown (races : Races pid h s own chains) {p : Nat} (named : (s.pc τ).named = some p)
    (some : p ≠ 0) : ∃ o ∈ handed h, o.ptr = p := by
  have fits := races.fits τ
  generalize s.pc τ = pc at named fits
  cases fits with
  | freeNull => exact absurd (Option.some.inj named).symm some
  | idle | malloc | magic | count | got | freed | answered => cases named
  | free known => exact ⟨_, known, Option.some.inj named⟩
  | query known => exact ⟨_, known, Option.some.inj named⟩
  | scan known => exact ⟨_, known, Option.some.inj named⟩
  | pages known => exact ⟨_, known, Option.some.inj named⟩
  | rescan known => exact ⟨_, known, Option.some.inj named⟩
  | unmapping known => exact ⟨_, known, Option.some.inj named⟩
  | moving known => exact ⟨_, known, Option.some.inj named⟩

theorem failedDangles (races : Races pid h s own chains) (marked : Marked h s) {o : Object}
    {halt : Halt} (reliable : Reliable pid k) (named : (s.pc τ).named = some o.ptr)
    (dead : Retires s.heap own o) (call : next k (s.pc τ) s.heap = .error halt σ') :
    Enabled h k (s.pc τ) s.heap := by
  obtain ⟨p, known, at'⟩ := namedKnown races named (fateAddress races.inv (.inr dead))
  have hole : s.heap.mem p.ptr = none := retiresHole races.inv dead (by rw [at'])
  have gone : Retires s.heap own p := (fateMapped races.inv (races.fates p known)).1 hole
  have named : (s.pc τ).named = some p.ptr := named.trans (congrArg some at'.symm)
  refine .dangles ((marked.gone p known).mp hole) named ?_
  cases deadSpends races reliable known gone named with
  | stops stops => exact stops
  | looks done | unmaps done =>
    rw [done] at call
    cases call

theorem callsProgress (run : Run pid Racing Within h s) (τ : Nat) : Progresses pid h s τ := by
  obtain ⟨own, chains, races, marked⟩ := runMarked run
  have bounded := runBounded run τ
  refine ⟨bounded, fun five => rankFinal.mp (by omega), fun running k reliable => ?_⟩
  cases nextOutcome races.inv (races.par.trans reliable.1.symm) reliable races.fates races.placed
    (races.fits τ) running with
  | runs done => exact .runs done
  | faults known named dead failed => exact failedDangles races marked reliable named dead failed
  | exits named dead failed => exact failedDangles races marked reliable named dead failed
  | full asks full failed => exact .full asks full failed
  | past asks past failed => exact .past asks past failed

theorem racedFreeProgress : ∃ h s, Progresses 1 h s 2 ∧ s.pc 2 = .moving firstPtr firstPtr ∧
    firstPtr ∈ moved h := by
  obtain ⟨h, s, run, moved, waits⟩ := twoFrees
  exact ⟨h, s, callsProgress run 2, waits, moved⟩

end Nuaf.Progress
