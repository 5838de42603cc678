import Nuaf.Effects

/-! Which page of the backing file stands behind a virtual page, read off the kernel calls in a
history. A page keeps its file page until it is unmapped, wherever mremap takes it. -/
namespace Nuaf.PageTable
open Layout Machine Source Heap Nuaf.Sequential

abbrev Table := Nat → Option Nat

/- A move of a page that is not there fails, so of repeated attempts one goes through. -/
def Table.call (table : Table) : Call → Table
  | .mmap addr length offset => fun g =>
    if addr ≤ pageSize * g ∧ pageSize * g < addr + length then some (offset + (pageSize * g - addr))
    else table g
  | .munmap addr length => fun g =>
    if addr ≤ pageSize * g ∧ pageSize * g < addr + length then none else table g
  | .mremap old _ _ new =>
    match table (old / pageSize) with
    | none => table
    | some o => Function.update (Function.update table (old / pageSize) none) (new / pageSize) (some o)
  | _ => table

def callsOn (calls : List Call) (table : Table) : Table :=
  calls.foldr (fun c table => Table.call table c) table

def backing : History → Table
  | [] => fun _ => none
  | e :: h => callsOn e.calls (backing h)

def canonicalOf (h : History) (p : Nat) : Option Nat :=
  (backing h (p / pageSize)).map (fun o => o + p % pageSize)

def Aligned (table : Table) : Prop := ∀ g o, table g = some o → o % pageSize = 0

variable {pid : Nat} {h : History} {σ σ' : State} {own : Owner} {e : Event} {table : Table}
  {old new length length' : Nat}

theorem remapMoved {o : Nat} (there : table (old / pageSize) = some o) :
    Table.call table (.mremap old length pageSize new) (new / pageSize) = some o := by
  simp [Table.call, there]

theorem remapKept {g : Nat} (source : g ≠ old / pageSize) (target : g ≠ new / pageSize) :
    Table.call table (.mremap old length pageSize new) g = table g := by
  cases there : table (old / pageSize) with
  | none => simp [Table.call, there]
  | some o => simp [Table.call, there, source, target]

theorem remapAgain (differ : old / pageSize ≠ new / pageSize) :
    Table.call (Table.call table (.mremap old length pageSize new)) (.mremap old length' pageSize new) =
      Table.call table (.mremap old length pageSize new) := by
  cases there : table (old / pageSize) with
  | none => simp [Table.call, there]
  | some o => simp [Table.call, there, differ]

theorem remapsOnce {calls : List Call} (differ : old / pageSize ≠ new / pageSize)
    (tries : ∀ c ∈ calls, ∃ length, c = .mremap old length pageSize new) :
    callsOn calls table = table ∨
      callsOn calls table = Table.call table (.mremap old length pageSize new) := by
  induction calls with
  | nil => exact .inl rfl
  | cons c calls ih =>
    obtain ⟨length', rfl⟩ := tries c List.mem_cons_self
    have rest := ih fun c member => tries c (List.mem_cons_of_mem _ member)
    refine .inr ?_
    rw [callsOn, List.foldr_cons, ← callsOn]
    rcases rest with same | moved
    · rw [same]
      rfl
    · rw [moved, remapAgain differ]

theorem alignedMmap {addr offset : Nat} (aligned : Aligned table) (page : addr % pageSize = 0)
    (file : offset % pageSize = 0) : Aligned (Table.call table (.mmap addr length offset)) := by
  intro g o there
  simp only [Table.call] at there
  split at there
  · cases there
    simp only [pageSize] at *
    omega
  · exact aligned g o there

theorem alignedRemap (aligned : Aligned table) :
    Aligned (Table.call table (.mremap old length pageSize new)) := by
  intro g o present
  cases there : table (old / pageSize) with
  | none => exact aligned g o (by simpa [Table.call, there] using present)
  | some moved =>
    simp only [Table.call, there] at present
    by_cases target : g = new / pageSize
    · rw [target, Function.update_self] at present
      cases present
      exact aligned _ _ there
    · rw [Function.update_of_ne target] at present
      by_cases gone : g = old / pageSize
      · rw [gone, Function.update_self] at present
        cases present
      · rw [Function.update_of_ne gone] at present
        exact aligned g o present

theorem pageSmall {s offset g : Nat} {free : Bool} (sound : Sound pid h σ own)
    (owned : own g = some (.small s offset free)) : pageSize * g + pageSize ≤ largeObjVaddrStart ∧
      (σ.highVaddr + pageSize ≤ largeObjVaddrStart → g ≠ σ.highVaddr / pageSize) := by
  refine ⟨(smallBelow sound.agrees.inv owned).2, fun room same => ?_⟩
  rw [same, highUnowned sound.agrees.inv room] at owned
  cases owned

theorem sourceTarget {b : Block} (sound : Sound pid h σ own) (owned : b ∈ live h) (small : b.Small)
    (room : σ.highVaddr + pageSize ≤ largeObjVaddrStart) :
    roundDown b.ptr pageSize / pageSize = b.ptr / pageSize ∧
      b.ptr / pageSize ≠ σ.highVaddr / pageSize := by
  rw [roundDownPage, pageOf]
  exact ⟨rfl, (pageSmall sound ((heldSmall small).mp (sound.agrees.held b owned))).2 room⟩

theorem movesBacking {b : Block} {ptr v length : Nat} {earlier : List Call}
    (sound : Sound pid h σ own) (owned : b ∈ live h) (small : b.Small)
    (room : σ.highVaddr + pageSize ≤ largeObjVaddrStart) (tries : Tries σ.clear b.ptr earlier) :
    backing (⟨.xxfree ptr, .value v,
      .mremap (roundDown b.ptr pageSize) length pageSize σ.highVaddr :: earlier⟩ :: h) =
    Table.call (backing h) (.mremap (roundDown b.ptr pageSize) length pageSize σ.highVaddr) := by
  obtain ⟨source, differ⟩ := sourceTarget sound owned small room
  rw [← source] at differ
  have same : ∀ c ∈ earlier, ∃ length, c =
      .mremap (roundDown b.ptr pageSize) length pageSize σ.highVaddr := fun c member =>
    (tries c member).resolve_left fun none => List.not_mem_nil none
  have once := @remapsOnce (backing h) _ _ length earlier differ same
  rw [backing, callsOn, List.foldr_cons, ← callsOn]
  rcases once with kept | moved
  · rw [kept]
  · rw [moved, remapAgain differ]

theorem effectBacking {s offset g : Nat} {free : Bool} (sound : Sound pid h σ own)
    (effect : Effect h σ e σ') (owned : own g = some (.small s offset free))
    (other : ∀ ptr v b, e.op = .xxfree ptr → e.reply = .value v → (ledger h).find ptr = some b →
      b.Small → g ≠ b.ptr / pageSize) : backing (e :: h) g = backing h g := by
  obtain ⟨below, fresh⟩ := pageSmall sound owned
  have base := highPage sound.agrees.inv
  have next := sound.agrees.inv.nextLow
  cases effect with
  | carves small empty room =>
    have apart := fresh room
    refine if_neg fun inside => apart ?_
    simp only [pageSize] at *
    omega
  | pops small full => rfl
  | maps big fits room =>
    refine if_neg fun inside => ?_
    simp only [pageSize, largeObjVaddrStart] at *
    omega
  | @moves b ptr v length earlier there found small room tries =>
    have source := (sourceTarget sound there small room).1
    rw [movesBacking sound there small room tries]
    exact remapKept (source ▸ other ptr v b rfl rfl found small) (fresh room)
  | @unmaps b ptr v there found big =>
    have held := (heldBig (Nat.not_le.mp big)).mp (sound.agrees.held b there)
    have low := (bigAddresses sound.agrees.inv held.1).1
    refine if_neg fun inside => ?_
    simp only [pageSize, largeObjVaddrStart] at *
    omega
  | rests quiet => rfl

theorem effectAligned (sound : Sound pid h σ own) (aligned : Aligned (backing h))
    (effect : Effect h σ e σ') : Aligned (backing (e :: h)) := by
  have inv := sound.agrees.inv
  cases effect with
  | carves small empty room =>
    refine alignedMmap aligned inv.highAligned ?_
    rw [roundDownPage]
    exact Nat.mul_mod_right _ _
  | pops small full => exact aligned
  | maps big fits room => exact alignedMmap aligned inv.nextAligned rfl
  | moves there found small room tries =>
    rw [movesBacking sound there small room tries]
    exact alignedRemap aligned
  | unmaps there found big =>
    intro g o present
    simp only [backing, callsOn, List.foldr_cons, List.foldr_nil, Table.call] at present
    split at present
    · cases present
    · exact aligned g o present
  | rests quiet => exact aligned

theorem carvedCanonical {op : Op} {reply : Reply} {high c : Nat} (page : high % pageSize = 0) :
    canonicalOf (⟨op, reply, [.mmap high pageSize (roundDown c pageSize)]⟩ :: h)
      (high + c % pageSize) = some c := by
  have place : (high + c % pageSize) / pageSize = high / pageSize ∧
      (high + c % pageSize) % pageSize = c % pageSize := by
    simp only [pageSize] at *
    omega
  have fresh : backing (⟨op, reply, [.mmap high pageSize (roundDown c pageSize)]⟩ :: h)
      (high / pageSize) = some (roundDown c pageSize + (pageSize * (high / pageSize) - high)) :=
    if_pos (by simp only [pageSize] at *; omega)
  rw [canonicalOf, place.1, place.2, fresh, Option.map_some, roundDownPage]
  congr 1
  simp only [pageSize] at *
  omega

theorem movedCanonical {b : Block} {ptr v length : Nat} {earlier : List Call}
    (sound : Sound pid h σ own) (owned : b ∈ live h) (small : b.Small)
    (room : σ.highVaddr + pageSize ≤ largeObjVaddrStart) (tries : Tries σ.clear b.ptr earlier)
    (known : canonicalOf h b.ptr ≠ none) :
    canonicalOf (⟨.xxfree ptr, .value v,
      .mremap (roundDown b.ptr pageSize) length pageSize σ.highVaddr :: earlier⟩ :: h)
      (σ.highVaddr + b.ptr % pageSize) = canonicalOf h b.ptr := by
  have source := (sourceTarget sound owned small room).1
  have place := targetPage sound.agrees.inv b.ptr
  obtain ⟨o, there⟩ := Option.ne_none_iff_exists'.mp (mt (congrArg (Option.map _)) known)
  rw [canonicalOf, canonicalOf, place.1, place.2, movesBacking sound owned small room tries,
    remapMoved (source ▸ there), there]

end Nuaf.PageTable
