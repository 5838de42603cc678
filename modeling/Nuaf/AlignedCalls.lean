import Mathlib.Data.Nat.Bitwise
import Nuaf.WrapperCalls

/-! memalign and the functions built on it. A pointer below the alignment is returned as it
is; any other is given up for a larger block, and rounding up inside that moves the pointer
from the block's start as soon as the alignment is more than the 16 every block has. -/
namespace Nuaf.Wrapper
open CallTree Layout ByteMemory Machine Source Heap Nuaf.Sequential Capacity

variable {pid size alignment i ptr n p : Nat} {h : History} {σ : State} {own : Owner}
  {chains : Chains} {b : Block} {bs : List Block}

theorem clearLow {x : Nat} (fits : x < 2 ^ 64) (narrow : i ≤ 64) :
    x &&& (2 ^ 64 - 1 - (2 ^ i - 1)) = x / 2 ^ i * 2 ^ i := by
  have positive : 0 < 2 ^ i := Nat.two_pow_pos i
  have below : 2 ^ i - 1 < 2 ^ 64 :=
    Nat.lt_of_lt_of_le (Nat.sub_lt positive Nat.one_pos) (Nat.pow_le_pow_right (by decide) narrow)
  refine Nat.eq_of_testBit_eq fun j => ?_
  rw [Nat.sub_sub, Nat.add_comm 1, Nat.testBit_and, Nat.testBit_two_pow_sub_succ below,
    Nat.testBit_two_pow_sub_one, Nat.mul_comm, Nat.testBit_two_pow_mul, Nat.testBit_div_two_pow]
  rcases Nat.lt_or_ge j i with low | high
  · simp [low]
  · rcases Nat.lt_or_ge j 64 with inside | past
    · simp [Nat.not_lt.mpr high, high, inside, Nat.sub_add_cancel high]
    · have zero : x.testBit j = false :=
        Nat.testBit_lt_two_pow (Nat.lt_of_lt_of_le fits (Nat.pow_le_pow_right (by decide) past))
      simp [zero, high, Nat.sub_add_cancel high]

theorem alignUpPow (narrow : i ≤ 64) (fits : ptr + 2 ^ i - 1 < 2 ^ 64) :
    alignUp ptr (2 ^ i) = (ptr + 2 ^ i - 1) / 2 ^ i * 2 ^ i := by
  rw [alignUp, wrapSmall fits, clearLow fits narrow]

theorem alignUpZero (narrow : i ≤ 64) : alignUp 0 (2 ^ i) = 0 := by
  have positive : 0 < 2 ^ i := Nat.two_pow_pos i
  have below : 2 ^ i ≤ 2 ^ 64 := Nat.pow_le_pow_right (by decide) narrow
  rw [alignUpPow narrow (by omega), Nat.div_eq_of_lt (by omega), Nat.zero_mul]

theorem alignUpMultiple (narrow : i ≤ 64) (fits : ptr + 2 ^ i - 1 < 2 ^ 64) (multiple : 2 ^ i ∣ ptr) :
    alignUp ptr (2 ^ i) = ptr := by
  obtain ⟨q, rfl⟩ := multiple
  have positive : 0 < 2 ^ i := Nat.two_pow_pos i
  rw [alignUpPow narrow fits, Nat.add_sub_assoc positive, Nat.mul_add_div positive,
    Nat.div_eq_of_lt (by omega), Nat.add_zero, Nat.mul_comm]

theorem alignUpMoves (narrow : i ≤ 64) (fits : ptr + 2 ^ i - 1 < 2 ^ 64) (other : ¬ 2 ^ i ∣ ptr) :
    ptr < alignUp ptr (2 ^ i) ∧ alignUp ptr (2 ^ i) < ptr + 2 ^ i := by
  have positive : 0 < 2 ^ i := Nat.two_pow_pos i
  have split := Nat.div_add_mod (ptr + 2 ^ i - 1) (2 ^ i)
  have rest := Nat.mod_lt (ptr + 2 ^ i - 1) positive
  rw [alignUpPow narrow fits]
  have upper : (ptr + 2 ^ i - 1) / 2 ^ i * 2 ^ i ≤ ptr + 2 ^ i - 1 := Nat.div_mul_le_self _ _
  have lower : ptr ≤ (ptr + 2 ^ i - 1) / 2 ^ i * 2 ^ i := by
    rw [Nat.mul_comm]
    omega
  refine ⟨Nat.lt_of_le_of_ne lower fun same => other ?_, by omega⟩
  exact same ▸ Nat.dvd_mul_left _ _

theorem offGrid (inv : Inv σ own chains) (held : Held own p n) (large : 64 ≤ n) : p % 32 = 16 := by
  rcases Nat.lt_or_ge largestBlockSize n with big | small
  · have offset := ((heldBig big).mp held).2
    simp only [pageSize] at offset
    omega
  · obtain ⟨cls, start, grid, inside⟩ := (inv.small ((heldSmall small).mp held)).slot
    have fits := blockTypeFits n
    simp only [numBlockTypes, magicNumber, byteAlignment, pageSize] at *
    generalize blockType n = t at *
    interval_cases t <;> simp only [blockSize, magicNumber, Nat.shiftLeft_eq] at * <;> omega

theorem newestHeld (newest : Newest pid bs n p b h σ) : ∃ own, Sound pid h σ own ∧
    b ∈ live h ∧ Held own p n := by
  obtain ⟨own, sound⟩ := runSound newest.now.run
  have owned : b ∈ live h := newest.now.live ▸ List.mem_cons_self
  have held := sound.agrees.held b owned
  rw [newest.ptr, newest.size] at held
  exact ⟨own, sound, owned, held⟩

theorem divides (small : 2 ^ i ≤ 16) (aligned : p % byteAlignment = 0) : 2 ^ i ∣ p := by
  have short : i ≤ 4 := (Nat.pow_le_pow_iff_right (by decide)).mp small
  exact Nat.dvd_trans (Nat.pow_dvd_pow 2 short) (Nat.dvd_of_mod_eq_zero aligned)

theorem memalignLeaves : Triple pid
    (fun h σ => At pid bs h σ ∧ (alignment ≤ 16 ∨ servedAt σ size < alignment))
    (customMemalign alignment size) (Leaves pid bs 0) := by
  unfold customMemalign
  refine ensuresIte (fun _ => ensuresPure 0 fun h σ before => noneLeaves 0 before.1) fun valid => ?_
  obtain ⟨real, bits⟩ := not_or.mp valid
  obtain ⟨i, rfl⟩ := Nat.ne_zero_and_sub_one_eq_zero_iff_isPowerOfTwo.mp ⟨real, not_not.mp bits⟩
  refine ensuresIte (fun _ => ensuresMono (fun _ _ before => before.1) mallocLeaves
    fun _ _ _ after => after) fun _ => ?_
  refine ensuresBind (mallocRule fun p => 2 ^ i ≤ 16 ∨ p < 2 ^ i) fun p => ?_
  rintro h σ q h' σ' (⟨rfl, at'⟩ | ⟨good, b, newest⟩) run
  · rw [if_pos (Nat.zero_and _)] at run
    exact ensuresPure 0 (fun h σ => noneLeaves 0) h σ q h' σ' at' run
  · obtain rfl := newest.ptr
    refine @ensuresIte _ _ _ _ _ _ _ (At pid (b :: bs)) _ _ _ _ _ (fun _ => ?_) (fun off => ?_)
      h σ q h' σ' newest.now run
    · exact ensuresPure b.ptr fun h σ => newestLeaves 0
    · have small : 2 ^ i ≤ 16 := by
        refine good.resolve_right fun below => off ?_
        rw [Nat.and_two_pow_sub_one_eq_mod, Nat.mod_eq_of_lt below]
      have narrow : i ≤ 64 := (Nat.pow_le_pow_iff_right (by decide)).mp (Nat.le_trans small (by decide))
      refine ensuresBind freeNewest fun _ => ensuresBind mallocPlain fun p => ?_
      refine ensuresPure _ fun h σ after => ?_
      rcases after with ⟨rfl, at'⟩ | ⟨c, newest⟩
      · rw [alignUpZero narrow]
        exact noneLeaves 0 at'
      · obtain ⟨own, sound, _, held⟩ := newestHeld newest
        obtain ⟨aligned, top⟩ := heldAligned sound.agrees.inv held
        rw [alignUpMultiple narrow (by omega) (divides small aligned), ← newest.ptr]
        exact newestLeaves 0 newest.now

structure Misfits (b : Block) (p : Nat) (h : History) (σ : State) : Prop where
  owned : b ∈ live h
  past : b.ptr < p
  covers : b.Covers p
  clean : Clean σ b.ptr p

theorem roundedMisfits (wide : 16 < 2 ^ i) (narrow : i ≤ 64)
    (newest : Newest pid bs (size + 2 * 2 ^ i) p b h σ) : Misfits b (alignUp p (2 ^ i)) h σ := by
  have steps : 5 ≤ i := (Nat.pow_lt_pow_iff_right (by decide)).mp (show 2 ^ 4 < 2 ^ i from wide)
  have large : 2 ^ 5 ≤ 2 ^ i := Nat.pow_le_pow_right (by decide) steps
  have enough := newestEnough newest
  obtain ⟨own, sound, owned, held⟩ := newestHeld newest
  have top := (heldAligned sound.agrees.inv held).2
  have grid := offGrid sound.agrees.inv held (by omega)
  obtain rfl := newest.ptr
  have other : ¬ 2 ^ i ∣ b.ptr := fun divides => by
    have := Nat.dvd_trans (Nat.pow_dvd_pow 2 steps) divides
    omega
  rw [newest.size] at enough
  obtain ⟨past, near⟩ := alignUpMoves narrow (by omega) other
  have covers : b.Covers (alignUp b.ptr (2 ^ i)) := by
    refine ⟨Nat.le_of_lt past, ?_⟩
    rw [newest.size]
    omega
  exact ⟨owned, past, covers, newest.clean _ covers⟩

structure Strays (pid p : Nat) (h : History) (σ : State) : Prop where
  run : Run pid (calmly pid) Within h σ
  result : 0 < p → ∃ b, Misfits b p h σ

theorem memalignStrays (wide : 16 < 2 ^ i) : Triple pid
    (fun h σ => At pid bs h σ ∧ 2 ^ i ≤ servedAt σ size) (customMemalign (2 ^ i) size)
    (Strays pid) := by
  have real : 0 < 2 ^ i := Nat.two_pow_pos i
  have valid : ¬ (2 ^ i = 0 ∨ 2 ^ i &&& (2 ^ i - 1) ≠ 0) := by
    rw [Nat.and_two_pow_sub_one_eq_mod, Nat.mod_self]
    omega
  unfold customMemalign
  rw [if_neg valid, if_neg (by omega)]
  refine ensuresBind (mallocRule fun p => 2 ^ i ≤ p) fun p => ?_
  rintro h σ q h' σ' (⟨rfl, at'⟩ | ⟨good, b, newest⟩) run
  · rw [if_pos (Nat.zero_and _)] at run
    exact ensuresPure 0 (fun h σ at' => ⟨at'.run, fun none => absurd none (Nat.lt_irrefl 0)⟩)
      h σ q h' σ' at' run
  · have request := newest.short
    have user : p < taskSize := by
      obtain ⟨own, sound, _, held⟩ := newestHeld newest
      exact (heldBounds sound.agrees.inv held).2
    have short : 2 ^ i < 2 ^ 47 := Nat.lt_of_le_of_lt good user
    have narrow : i < 47 := (Nat.pow_lt_pow_iff_right (by decide)).mp short
    obtain rfl := newest.ptr
    have rest := Nat.mod_lt b.ptr real
    rw [if_neg (by rw [Nat.and_two_pow_sub_one_eq_mod]; omega)] at run
    refine ensuresBind freeNewest (fun _ => ensuresBind mallocPlain fun p => ?_)
      h σ q h' σ' newest.now run
    refine ensuresPure _ fun h σ after => ?_
    rcases after with ⟨rfl, at'⟩ | ⟨c, newest⟩
    · rw [alignUpZero (by omega)]
      exact ⟨at'.run, fun none => absurd none (Nat.lt_irrefl 0)⟩
    · rw [wrapSmall (x := 2 * 2 ^ i) (by omega), wrapSmall (by omega)] at newest
      exact ⟨newest.now.run, fun _ => ⟨c, roundedMisfits wide (by omega) newest⟩⟩

end Nuaf.Wrapper
