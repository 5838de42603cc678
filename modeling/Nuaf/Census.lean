import Mathlib.Algebra.BigOperators.Group.Finset.Piecewise
import Nuaf.LargeLayout
import Nuaf.RetryDamage

/-! Every object the allocator ever made, counted: carved blocks are live or on a freelist, no
more are carved than were live at once, each has a page of its own, and num_mappings is the
number of mappings. -/
namespace Nuaf.Census
open Layout ByteMemory LinkedStack Machine Source Heap Nuaf.Sequential LargeLayout Exhaustion
  RetryDamage
open scoped BigOperators

def OfClass (t : Nat) (b : Block) : Prop := b.Small ∧ blockType b.size = t
instance (t : Nat) (b : Block) : Decidable (OfClass t b) := by
  unfold OfClass; infer_instance

def liveOf (t : Nat) (l : Ledger) : Nat := l.live.countP (fun b => OfClass t b)

def isMmap : Call → Bool
  | .mmap _ _ _ => true
  | _ => false

def carvesOne (t : Nat) (e : Event) : Bool :=
  match e.op with
  | .xxmalloc size => decide (size ≤ largestBlockSize ∧ blockType size = t) && e.calls.any isMmap
  | _ => false

def carvings (t : Nat) : History → Nat
  | [] => 0
  | e :: h => carvings t h + if carvesOne t e then 1 else 0

def peak (t : Nat) : History → Nat
  | [] => 0
  | e :: h => max (peak t h) (liveOf t (ledger (e :: h)))

def carvedTotal (h : History) : Nat := ∑ t ∈ Finset.range numBlockTypes, carvings t h

def holders (h : History) (chains : Chains) : List Nat :=
  ((live h).filter (fun b => b.Small)).map Block.ptr ++ (List.range numBlockTypes).flatMap chains

structure Counted (h : History) (σ : State) (chains : Chains) : Prop where
  linked : ∀ t < numBlockTypes,
    Linked (fun a => load σ.mem a 8) 0 (σ.gFlsts t).topOfStack (chains t)
  conserved : ∀ t < numBlockTypes, carvings t h = liveOf t (ledger h) + (chains t).length
  peaked : ∀ t < numBlockTypes, carvings t h = peak t h
  onePage : ((holders h chains).map (fun a => a / pageSize)).Nodup
  mapped : ∀ a < largeObjVaddrStart,
    σ.mem a ≠ none ↔ a / pageSize ∈ (holders h chains).map (fun a => a / pageSize)
  mappings : σ.numMappings = carvedTotal h + (bigs (ledger h)).length

structure Balance (h : History) (σ : State) : Prop where
  stocked : ∀ t, carvings t h = liveOf t (ledger h) + ((ledger h).free t).length
  peaked : ∀ t, peak t h = carvings t h
  mappings : σ.numMappings = carvedTotal h + (bigs (ledger h)).length
  smallRoom : mmapMinAddr + pageSize * carvedTotal h ≤ σ.highVaddr
  largeRoom : largeObjVaddrStart + pageSize * (bigs (ledger h)).length ≤ σ.largeObjNextPage

variable {pid : Nat} {h : History} {σ σ' : State} {own : Owner} {e : Event} {t : Nat}

theorem carvesSilent {op : Op} {reply : Reply} : carvesOne t ⟨op, reply, []⟩ = false := by
  cases op <;> simp [carvesOne]

theorem totalKept (silent : ∀ t, carvesOne t e = false) : carvedTotal (e :: h) = carvedTotal h :=
  Finset.sum_congr rfl fun t _ => by simp [carvings, silent t]

theorem totalGrows {s : Nat} (cls : s < numBlockTypes)
    (one : ∀ t, carvesOne t e = decide (s = t)) : carvedTotal (e :: h) = carvedTotal h + 1 := by
  have each : ∀ t, carvings t (e :: h) = carvings t h + if s = t then 1 else 0 := fun t => by
    simp [carvings, one t]
  simp only [carvedTotal, each, Finset.sum_add_distrib, Finset.sum_ite_eq]
  rw [if_pos (Finset.mem_range.mpr cls)]

theorem liveOfCons {b : Block} {rest : List Block} {l : Ledger} (added : l.live = b :: rest) :
    liveOf t l = rest.countP (fun b => OfClass t b) + if OfClass t b then 1 else 0 := by
  simp [liveOf, added, List.countP_cons]

theorem liveOfFree {b : Block} (sound : Sound pid h σ own) (owned : b ∈ live h) :
    liveOf t (ledger h) = (without h b).countP (fun b => OfClass t b) +
      if OfClass t b then 1 else 0 := by
  have count := (liveSplit sound owned).countP_eq (fun b => decide (OfClass t b))
  rw [List.countP_cons] at count
  simpa [liveOf, live] using count

theorem bigsFree {b : Block} (sound : Sound pid h σ own) (owned : b ∈ live h) :
    (bigs (ledger h)).length = ((without h b).filter (fun b => ¬ b.Small)).length +
      if b.Small then 0 else 1 := by
  have same := ((liveSplit sound owned).filter (fun b => decide (¬ b.Small))).length_eq
  rw [List.filter_cons] at same
  refine Eq.trans same ?_
  by_cases small : b.Small <;> simp [small]

theorem balanceStill (balance : Balance h σ) (silent : ∀ t, carvesOne t e = false)
    (same : ∀ t, liveOf t (ledger (e :: h)) + ((ledger (e :: h)).free t).length =
      liveOf t (ledger h) + ((ledger h).free t).length)
    (mappings : σ'.numMappings + (bigs (ledger h)).length =
      σ.numMappings + (bigs (ledger (e :: h))).length)
    (high : σ.highVaddr ≤ σ'.highVaddr)
    (large : largeObjVaddrStart + pageSize * (bigs (ledger (e :: h))).length ≤ σ'.largeObjNextPage) :
    Balance (e :: h) σ' := by
  have kept : ∀ t, carvings t (e :: h) = carvings t h := fun t => by simp [carvings, silent t]
  have total := totalKept silent (h := h)
  refine ⟨fun t => ?_, fun t => ?_, ?_, ?_, large⟩
  · rw [kept, balance.stocked, same]
  · have stocked := balance.stocked t
    have now := same t
    rw [kept, peak, balance.peaked]
    exact Nat.max_eq_left (by omega)
  · have before := balance.mappings
    omega
  · rw [total]
    exact Nat.le_trans balance.smallRoom high

theorem balanceCarves {size : Nat} (balance : Balance h σ) (small : size ≤ largestBlockSize)
    (one : ∀ t, carvesOne t e = decide (blockType size = t))
    (empty : (ledger h).free (blockType size) = []) {p : Nat}
    (next : ledger (e :: h) = (ledger h).make size p)
    (mappings : σ'.numMappings = σ.numMappings + 1)
    (high : σ'.highVaddr = σ.highVaddr + pageSize)
    (large : σ'.largeObjNextPage = σ.largeObjNextPage) : Balance (e :: h) σ' := by
  have each : ∀ t, carvings t (e :: h) = carvings t h + if blockType size = t then 1 else 0 :=
    fun t => by simp [carvings, one t]
  have total := totalGrows (h := h) (blockTypeLt small) one
  have grown : ∀ t, liveOf t (ledger (e :: h)) =
      liveOf t (ledger h) + if blockType size = t then 1 else 0 := fun t => by
    rw [next, @liveOfCons t _ (ledger h).live _ rfl]
    simp [liveOf, OfClass, Block.Small, small]
  have same : bigs (ledger (e :: h)) = bigs (ledger h) := by
    rw [next]
    exact bigsSmall (b := ⟨_, _, _, _⟩) small rfl
  refine ⟨fun t => ?_, fun t => ?_, ?_, ?_, ?_⟩
  · rw [each, grown, balance.stocked, next]
    simp only [Ledger.make]
    omega
  · have stocked := balance.stocked t
    rw [each, peak, balance.peaked, grown]
    by_cases here : blockType size = t
    · subst here
      rw [empty] at stocked
      simp only [List.length_nil, if_true] at *
      omega
    · simp only [if_neg here]
      omega
  · rw [mappings, balance.mappings, total, same]
    omega
  · have room := balance.smallRoom
    rw [total, high]
    simp only [pageSize] at *
    omega
  · rw [same, large]
    exact balance.largeRoom

theorem balanceFew (sound : Sound pid h σ own) (balance : Balance h σ) :
    σ.numMappings + 1 < 2 ^ 64 := by
  have limit := sound.agrees.inv.highLimit
  have top := sound.agrees.inv.nextLimit
  have smallRoom := balance.smallRoom
  have largeRoom := balance.largeRoom
  rw [balance.mappings]
  simp only [mmapMinAddr, pageSize, largeObjVaddrStart, taskSize] at *
  omega

theorem popsBalance {size link : Nat} {b : Block} {rest : List Block} (balance : Balance h σ)
    (small : size ≤ largestBlockSize) (full : (ledger h).free (blockType size) = b :: rest) :
    Balance (⟨.xxmalloc size, .value b.ptr, []⟩ :: h) (popped (blockType size) link σ.clear) := by
  have next := @popsLedger h size b.ptr [] b rest small full
  have same : bigs (ledger (⟨.xxmalloc size, .value b.ptr, []⟩ :: h)) = bigs (ledger h) := by
    rw [next]
    exact bigsSmall (b := ⟨_, _, _, _⟩) small rfl
  refine balanceStill balance (fun t => carvesSilent) (fun t => ?_) ?_ (Nat.le_refl _) ?_
  · rw [next, @liveOfCons t _ (live h) _ rfl]
    by_cases here : blockType size = t
    · subst here
      simp [OfClass, Block.Small, small, full, liveOf, live]
      omega
    · simp [OfClass, here, Ne.symm here, liveOf, live]
  · rw [same]
    rfl
  · rw [same]
    exact balance.largeRoom

theorem mapsBalance {size : Nat} (balance : Balance h σ) (few : σ.numMappings + 1 < 2 ^ 64)
    (big : largestBlockSize < size) (fits : bigPages size * pageSize < 2 ^ 64)
    (room : σ.largeObjNextPage + bigPages size * pageSize ≤ taskSize) :
    Balance (⟨.xxmalloc size, .value (σ.largeObjNextPage + 16),
      [.mmap σ.largeObjNextPage (wrap (bigPages size * pageSize)) 0]⟩ :: h)
      (bigDone (bigPages size) σ.clear) := by
  have next := @mapsLedger h size (σ.largeObjNextPage + 16)
    [.mmap σ.largeObjNextPage (wrap (bigPages size * pageSize)) 0] big
  have positive := bigPagesPositive size
  have added : (bigs ((ledger h).make size (σ.largeObjNextPage + 16))).length =
      (bigs (ledger h)).length + 1 :=
    congrArg List.length (List.filter_cons_of_pos (by simpa [Block.Small] using big))
  refine balanceStill balance (fun t => ?_) (fun t => ?_) ?_ (Nat.le_refl _) ?_
  · simp [carvesOne, Nat.not_le.mpr big]
  · rw [next, @liveOfCons t _ (ledger h).live _ rfl]
    simp [OfClass, Block.Small, Nat.not_le.mpr big, liveOf, Ledger.make]
  · rw [next, added, show (bigDone (bigPages size) σ.clear).numMappings = σ.numMappings + 1 from
      wrapSmall few]
    omega
  · have advance := (@bigMappedFields σ.clear (bigPages size) fits room).2
    have largeRoom := balance.largeRoom
    rw [next, added, show (bigDone (bigPages size) σ.clear).largeObjNextPage =
      σ.largeObjNextPage + pageSize * bigPages size from advance]
    simp only [pageSize] at *
    omega

section
variable (sound : Sound pid h σ own) (balance : Balance h σ) {b : Block} {ptr v : Nat}
  (owned : b ∈ live h) (found : (ledger h).find ptr = some b)
include sound balance owned found

theorem movesBalance {length : Nat} {earlier : List Call} (small : b.Small)
    (room : σ.highVaddr + pageSize ≤ largeObjVaddrStart) :
    Balance (⟨.xxfree ptr, .value v,
        .mremap (roundDown b.ptr pageSize) length pageSize σ.highVaddr :: earlier⟩ :: h)
      (recycled (blockType b.size) b.ptr
        (.mremap (roundDown b.ptr pageSize) length pageSize σ.highVaddr :: earlier) σ.clear) := by
  have cls := sound.agrees.sorted b owned small
  have same := bigsFree sound owned
  rw [if_pos small, Nat.add_zero] at same
  have grows := (highGrows sound.agrees.inv room).1
  refine balanceStill balance (fun t => by simp [carvesOne]) (fun t => ?_) ?_ grows ?_
  · rw [movesLedger found small, liveOfFree sound owned]
    by_cases here : blockType b.size = t
    · subst here
      simp [OfClass, small, cls, liveOf]
      omega
    · simp [OfClass, cls, here, Ne.symm here, liveOf]
  · rw [movesLedger found small, same]
    rfl
  · rw [movesLedger found small]
    exact same ▸ balance.largeRoom

theorem unmapsBalance {m : Memory} {calls : List Call} (few : σ.numMappings + 1 < 2 ^ 64)
    (big : ¬ b.Small) : Balance (⟨.xxfree ptr, .value v, calls⟩ :: h)
      { σ with mem := m, numMappings := subWrap σ.numMappings 1, calls := calls } := by
  have same := bigsFree sound owned
  rw [if_neg big] at same
  refine balanceStill balance (fun t => by simp [carvesOne]) (fun t => ?_) ?_ (Nat.le_refl _) ?_
  · rw [unmapsLedger found big, liveOfFree sound owned]
    simp [OfClass, big, liveOf]
  · have mappings := balance.mappings
    have less : subWrap σ.numMappings 1 = σ.numMappings - 1 := subWrapSmall (by omega) (by omega)
    rw [unmapsLedger found big]
    simp only [less, bigs] at mappings same ⊢
    omega
  · have largeRoom := balance.largeRoom
    rw [unmapsLedger found big]
    rw [same] at largeRoom
    exact Nat.le_trans (Nat.add_le_add_left (Nat.mul_le_mul_left _ (Nat.le_succ _)) _) largeRoom

end

theorem effectBalance (sound : Sound pid h σ own) (balance : Balance h σ)
    (effect : Effect h σ e σ') : Balance (e :: h) σ' := by
  have few := balanceFew sound balance
  cases effect with
  | carves small empty room =>
    exact balanceCarves balance small (fun t => by simp [carvesOne, isMmap, small]) empty
      (carvesLedger small empty) (wrapSmall few) (highAdvance room) rfl
  | pops small full => exact popsBalance balance small full
  | maps big fits room => exact mapsBalance balance few big fits room
  | moves owned found small room tries => exact movesBalance sound balance owned found small room
  | unmaps owned found big => exact unmapsBalance sound balance owned found few big
  | rests quiet =>
    have same := @restsLedger h _ _ [] quiet
    refine balanceStill balance (fun t => carvesSilent) (fun t => by rw [same]) ?_ (Nat.le_refl _) ?_
    · rw [same]
      rfl
    · rw [same]
      exact balance.largeRoom

theorem startedBalance (begun : Started pid σ) : Balance [] σ := by
  obtain ⟨fd, size, calls, rfl⟩ := startedState begun
  exact ⟨fun t => by simp [carvings, liveOf, ledger], fun t => rfl,
    by simp [carvedTotal, carvings, bigs, ledger, image],
    by simp [carvedTotal, carvings, image], by simp [bigs, ledger, image]⟩

section
variable {chains : Chains} (sound : Sound pid h σ own)
include sound

theorem holderOwner {a : Nat} (member : a ∈ holders h (chainsOf (ledger h))) :
    ∃ t free, own (a / pageSize) = some (.small t (a % pageSize) free) := by
  rcases List.mem_append.mp member with inUse | listed
  · obtain ⟨b, there, rfl⟩ := List.mem_map.mp inUse
    obtain ⟨owned, small⟩ := List.mem_filter.mp there
    exact ⟨_, _, (heldSmall (of_decide_eq_true small)).mp (sound.agrees.held b owned)⟩
  · obtain ⟨t, cls, there⟩ := List.mem_flatMap.mp listed
    exact ⟨_, _, (sound.agrees.inv.chained t (List.mem_range.mp cls) a).mp there⟩

theorem holdersNodup : (holders h (chainsOf (ledger h))).Nodup := by
  have inv := sound.agrees.inv
  refine List.nodup_append'.mpr ⟨?_, List.nodup_flatMap.mpr ⟨?_, ?_⟩, ?_⟩
  · exact sound.agrees.distinct.sublist (List.filter_sublist.map Block.ptr)
  · exact fun t cls => linkedNodup (inv.linked t (List.mem_range.mp cls))
  · refine List.nodup_range.imp_of_mem fun left right differ a here there => differ ?_
    have one := (inv.chained _ (List.mem_range.mp left) a).mp here
    rw [(inv.chained _ (List.mem_range.mp right) a).mp there] at one
    cases one
    rfl
  · intro a inUse listed
    obtain ⟨b, there, rfl⟩ := List.mem_map.mp inUse
    obtain ⟨owned, small⟩ := List.mem_filter.mp there
    obtain ⟨t, cls, there⟩ := List.mem_flatMap.mp listed
    have used := (heldSmall (of_decide_eq_true small)).mp (sound.agrees.held b owned)
    rw [(inv.chained t (List.mem_range.mp cls) _).mp there] at used
    cases used

theorem holdersApart : ((holders h (chainsOf (ledger h))).map (fun a => a / pageSize)).Nodup := by
  refine (holdersNodup sound).map_on fun a left c right same => ?_
  obtain ⟨s, free, owns⟩ := holderOwner sound left
  obtain ⟨t, free', owns'⟩ := holderOwner sound right
  rw [same, owns'] at owns
  simp only [Option.some.injEq, Use.small.injEq] at owns
  simp only [pageSize] at *
  omega

theorem holdersMapped (covered : Covered (ledger h) own) {a : Nat} (below : a < largeObjVaddrStart) :
    σ.mem a ≠ none ↔ a / pageSize ∈ (holders h (chainsOf (ledger h))).map (fun a => a / pageSize) := by
  have inv := sound.agrees.inv
  constructor
  · intro present
    rw [Ne, inv.mapped] at present
    obtain ⟨u, owned⟩ := Option.ne_none_iff_exists'.mp present
    cases u with
    | small t offset free =>
      have slot := (inv.small owned).slot
      have inside := slotCases slot
      have place : (pageSize * (a / pageSize) + offset) / pageSize = a / pageSize ∧
          (pageSize * (a / pageSize) + offset) % pageSize = offset := by
        simp only [pageSize]
        omega
      cases free with
      | true =>
        have listed := (inv.chained t slot.cls (pageSize * (a / pageSize) + offset)).mpr
          (by rw [place.1, place.2]; exact owned)
        exact List.mem_map.mpr ⟨_, List.mem_append_right _
          (List.mem_flatMap.mpr ⟨t, List.mem_range.mpr slot.cls, listed⟩), place.1⟩
      | false =>
        obtain ⟨b, there, page⟩ := covered _ ⟨_, owned, fun t offset h => by cases h⟩
        have holds := (heldSpans inv (sound.agrees.held b there) page).1
        have small : b.Small := by
          by_contra big
          rw [owned, ((heldBig (Nat.not_le.mp big)).mp (sound.agrees.held b there)).1] at holds
          cases holds
        refine List.mem_map.mpr ⟨b.ptr, List.mem_append_left _ (List.mem_map_of_mem ?_),
          ((spansSmall small).mp page).symm⟩
        exact List.mem_filter.mpr ⟨there, decide_eq_true small⟩
    | big first count written =>
      obtain ⟨low, _, pages⟩ := inv.big owned
      have above := pages.low
      simp only [pageSize, largeObjVaddrStart] at *
      omega
  · intro member
    obtain ⟨c, holder, same⟩ := List.mem_map.mp member
    obtain ⟨t, free, owns⟩ := holderOwner sound holder
    rw [Ne, inv.mapped, ← same, owns]
    simp

end

theorem runBalance (run : Run pid (reliably pid) Within h σ) : Balance h σ :=
  (runEffects (fun _ => startedBalance) (fun _ _ _ _ _ => effectBalance)
    (runWiden reliablyWider run)).1

theorem everyObjectCounted (run : Run pid (reliably pid) Within h σ) :
    ∃ chains, Counted h σ chains := by
  obtain ⟨balance, own, sound, covered⟩ := runEffects (P := Balance) (fun _ => startedBalance)
    (fun _ _ _ _ _ => effectBalance) (runWiden reliablyWider run)
  refine ⟨chainsOf (ledger h), sound.agrees.inv.linked, fun t _ => ?_,
    fun t _ => (balance.peaked t).symm, holdersApart sound, fun a => holdersMapped sound covered,
    balance.mappings⟩
  rw [balance.stocked, chainsOf, List.length_map]

theorem mixedCounted : ∃ h σ, Run 1 (reliably 1) Within h σ ∧
    live h = [⟨3, blockType 5000, 0xFFFF002010, 5000⟩, rightBlock] ∧
      (ledger h).free 0 = [⟨0, 0, 0x100002010, 16⟩] ∧ ∃ chains, Counted h σ chains := by
  obtain ⟨h, σ, run, first, _, next⟩ := @freeSmallNext 1 _ _ steady leftBlock twoRun steadyReliable
    (by decide) (by decide) (by decide)
  have place : σ.largeObjNextPage = 0xFFFF000000 := next
  obtain ⟨h', σ', run', second, _, next⟩ := @mallocLargeNext 1 _ _ steady 4096 run steadyReliable
    (by decide) (by rw [place]; decide)
  rw [first, place] at second
  have place : σ'.largeObjNextPage = 0xFFFF002000 := next.trans (by rw [place]; decide)
  obtain ⟨h'', σ'', run'', third, _⟩ := @mallocLargeNext 1 _ _ steady 5000 run' steadyReliable
    (by decide) (by rw [place]; decide)
  rw [second, place] at third
  have owned : ⟨2, blockType 4096, 0xFFFF000010, 4096⟩ ∈ live h'' := by
    rw [live, third]
    decide
  obtain ⟨h₃, σ₃, run₃, freed, _⟩ := freeLargeNext run'' steadyReliable owned (by decide)
  rw [third] at freed
  refine ⟨h₃, σ₃, run₃, ?_, ?_, everyObjectCounted run₃⟩
  · rw [live, freed]
    decide
  · rw [freed]
    decide

end Nuaf.Census
