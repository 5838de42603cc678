import Mathlib.Data.Nat.Log
import Mathlib.Tactic.IntervalCases

/-! Constants and arithmetic of freelist.h and allocator.c. size_t and addresses are
64-bit: `wrap` is the reduction the machine makes after an operation. -/
namespace Nuaf.Layout

abbrev pageSize : Nat := 4096
abbrev byteAlignment : Nat := 16
abbrev magicNumber : Nat := 4
abbrev minBlockSize : Nat := 1 <<< magicNumber
abbrev largestBlockSize : Nat := pageSize >>> 1
abbrev numBlockTypes : Nat := 12 - magicNumber
abbrev mmapMinAddr : Nat := 0x100000000
abbrev dataSize : Nat := 0x10000000000
abbrev largeObjVaddrStart : Nat := 0xFFFF000000
abbrev largeObjStartMagic : Nat := 0xC001Be9

/- User mappings lie below this address; Linux itself leaves the last page free. -/
abbrev taskSize : Nat := 0x800000000000

def roundUp (x y : Nat) : Nat := if x % y = 0 then x else x + (y - x % y)
def roundDown (x y : Nat) : Nat := if x % y = 0 then x else x - x % y

def wrap (x : Nat) : Nat := x % 2 ^ 64
def subWrap (x y : Nat) : Nat := wrap (x + (2 ^ 64 - y))

def asInt (word : Nat) : Int := if word < 2 ^ 31 then (word : Int) else (word : Int) - 2 ^ 32

/- The address test of the three functions that classify a pointer; the compare is signed. -/
def isLarge (ptr : Nat) : Bool := decide (largeObjVaddrStart ≤ ptr ∧ ptr < 2 ^ 63)

def blockType (objSize : Nat) : Nat :=
  if objSize < minBlockSize then 0 else Nat.clog 2 objSize - magicNumber

def blockSize (t : Nat) : Nat := 1 <<< (magicNumber + t)

/- high_canonical_addr after an object of class `t` was carved at `c`. -/
def nextCanonical (t c : Nat) : Nat :=
  let next := c + blockSize t
  let bof := next % pageSize
  if bof = 0 ∨ pageSize - 2 * blockSize t ≤ bof then
    roundUp next pageSize + pageSize * (numBlockTypes - 1) + byteAlignment
  else next

def bigPages (size : Nat) : Nat := wrap (size + 16) / pageSize + 1

theorem wrapSmall {x : Nat} (small : x < 2 ^ 64) : wrap x = x := Nat.mod_eq_of_lt small

theorem subWrapSmall {x y : Nat} (le : y ≤ x) (small : x < 2 ^ 64) : subWrap x y = x - y := by
  unfold subWrap wrap
  omega

theorem roundDownEq (x y : Nat) : roundDown x y = x - x % y := by
  unfold roundDown
  split <;> omega

theorem roundDownPage (x : Nat) : roundDown x pageSize = pageSize * (x / pageSize) := by
  rw [roundDownEq]
  simp only [pageSize]
  omega

theorem asIntSmall {word : Nat} (small : word < 2 ^ 31) : asInt word = word := if_pos small

theorem isLargeIff {ptr : Nat} (user : ptr < 2 ^ 63) :
    isLarge ptr = true ↔ largeObjVaddrStart ≤ ptr := by
  simp only [isLarge, decide_eq_true_eq]
  exact ⟨fun h => h.1, fun h => ⟨h, user⟩⟩

theorem blockSizePow (t : Nat) : blockSize t = 16 * 2 ^ t := by
  rw [blockSize, Nat.shiftLeft_eq, Nat.one_mul, Nat.pow_add]
  rfl

theorem blockTypeLt {size : Nat} (small : size ≤ largestBlockSize) : blockType size < numBlockTypes := by
  unfold blockType
  split
  · decide
  · have bound : Nat.clog 2 size ≤ 11 := (Nat.clog_le_iff_le_pow (by decide)).mpr small
    simp only [numBlockTypes, magicNumber]
    omega

theorem blockTypeFits (size : Nat) : size ≤ blockSize (blockType size) := by
  rw [blockSizePow]
  unfold blockType
  split
  · rename_i small
    simp only [minBlockSize, magicNumber] at small
    omega
  · rename_i large
    have enough : size ≤ 2 ^ Nat.clog 2 size := Nat.le_pow_clog (by decide) size
    have four : 4 ≤ Nat.clog 2 size := by
      by_contra less
      have : Nat.clog 2 size ≤ 3 := by omega
      have := (Nat.clog_le_iff_le_pow (by decide)).mp this
      simp only [minBlockSize, magicNumber] at large
      omega
    have split : 2 ^ Nat.clog 2 size = 16 * 2 ^ (Nat.clog 2 size - 4) := by
      rw [show (16 : Nat) = 2 ^ 4 by rfl, ← Nat.pow_add]
      congr 1
      omega
    simp only [magicNumber]
    omega

theorem blockTypeSize {t : Nat} (cls : t < numBlockTypes) :
    blockSize t ≤ largestBlockSize ∧ blockType (blockSize t) = t := by
  simp only [numBlockTypes, magicNumber] at cls
  interval_cases t <;> decide

structure SlotOffset (t offset : Nat) : Prop where
  cls : t < numBlockTypes
  start : byteAlignment ≤ offset
  grid : (offset - byteAlignment) % blockSize t = 0
  inside : offset + blockSize t ≤ pageSize

structure Canonical (t c : Nat) : Prop where
  page : c / pageSize % numBlockTypes = t
  slot : SlotOffset t (c % pageSize)

theorem blockSizePage {t : Nat} (cls : t < numBlockTypes) :
    byteAlignment ∣ blockSize t ∧ blockSize t ∣ pageSize := by
  have exponent : t ≤ 8 := by
    simp only [numBlockTypes, magicNumber] at cls
    omega
  rw [blockSizePow]
  refine ⟨dvd_mul_right _ _, ?_⟩
  have page : pageSize = 16 * 2 ^ 8 := rfl
  rw [page]
  exact Nat.mul_dvd_mul_left 16 (Nat.pow_dvd_pow 2 exponent)

theorem blockSizePositive (t : Nat) : byteAlignment ≤ blockSize t := by
  rw [blockSizePow]
  exact Nat.le_mul_of_pos_right 16 (Nat.two_pow_pos t)

theorem slotCases {t offset : Nat} (slot : SlotOffset t offset) :
    t < 8 ∧ 16 ≤ offset ∧ offset % 16 = 0 ∧ offset + 16 ≤ 4096 := by
  obtain ⟨cls, start, grid, inside⟩ := slot
  have aligned : 16 ∣ offset - 16 :=
    (blockSizePage cls).1.trans (Nat.dvd_of_mod_eq_zero grid)
  have least := blockSizePositive t
  simp only [numBlockTypes, magicNumber, byteAlignment, pageSize] at *
  exact ⟨cls, start, by omega, by omega⟩

theorem firstSlot {t : Nat} (cls : t < numBlockTypes) : SlotOffset t byteAlignment := by
  have small := (blockTypeSize cls).1
  refine ⟨cls, le_rfl, Nat.zero_mod _, ?_⟩
  simp only [largestBlockSize, pageSize, byteAlignment] at *
  omega

theorem nextSlot {t offset : Nat} (slot : SlotOffset t offset)
    (room : offset + 2 * blockSize t ≤ pageSize) : SlotOffset t (offset + blockSize t) := by
  obtain ⟨cls, start, grid, inside⟩ := slot
  refine ⟨cls, by omega, ?_, by omega⟩
  rw [Nat.sub_add_comm start, Nat.add_mod_right]
  exact grid

theorem canonicalSlot {t page offset : Nat} (cls : page % numBlockTypes = t)
    (slot : SlotOffset t offset) : Canonical t (pageSize * page + offset) := by
  have least := blockSizePositive t
  have inside := slot.inside
  have below : offset < pageSize := by
    simp only [byteAlignment] at least
    omega
  constructor
  · rw [Nat.mul_add_div (by decide), Nat.div_eq_of_lt below]
    exact cls
  · rw [Nat.mul_add_mod, Nat.mod_eq_of_lt below]
    exact slot

theorem canonicalInit {t : Nat} (cls : t < numBlockTypes) :
    Canonical t (t * pageSize + byteAlignment) := by
  rw [Nat.mul_comm]
  exact canonicalSlot (Nat.mod_eq_of_lt cls) (firstSlot cls)

theorem roundUpInside {page r : Nat} (positive : 0 < r) (inside : r ≤ pageSize) :
    roundUp (pageSize * page + r) pageSize = pageSize * (page + 1) := by
  unfold roundUp
  simp only [pageSize] at *
  split <;> omega

theorem canonicalNext {t c : Nat} (good : Canonical t c) : Canonical t (nextCanonical t c) := by
  obtain ⟨page, slot⟩ := good
  have inside := slot.inside
  have positive : 0 < c % pageSize + blockSize t :=
    Nat.add_pos_right _ (Nat.lt_of_lt_of_le (by decide) (blockSizePositive t))
  have whole : c + blockSize t = pageSize * (c / pageSize) + (c % pageSize + blockSize t) := by
    rw [← Nat.add_assoc, Nat.div_add_mod]
  unfold nextCanonical
  simp only [whole, Nat.mul_add_mod]
  split
  · rw [roundUpInside positive inside, ← Nat.mul_add]
    refine canonicalSlot ?_ (firstSlot slot.cls)
    rw [Nat.add_assoc]
    exact (Nat.add_mod_right _ _).trans page
  · rename_i stays
    obtain ⟨some, early⟩ := not_or.mp stays
    have below : c % pageSize + blockSize t < pageSize := by
      refine Nat.lt_of_le_of_ne inside fun full => some ?_
      rw [full, Nat.mod_self]
    rw [Nat.mod_eq_of_lt below] at early
    exact canonicalSlot page (nextSlot slot (by omega))

theorem nextCanonicalPast (t c : Nat) : c + blockSize t ≤ nextCanonical t c := by
  unfold nextCanonical roundUp
  simp only
  split
  · split <;> omega
  · omega

theorem slotStart {t g offset p : Nat} (slot : SlotOffset t offset)
    (low : pageSize * g + offset ≤ p) (high : p < pageSize * g + offset + blockSize t)
    (user : p < 2 ^ 63) :
    wrap (roundDown (subWrap p byteAlignment) (blockSize t) + byteAlignment) =
      pageSize * g + offset := by
  obtain ⟨cls, start, grid, inside⟩ := slot
  have onGrid : (pageSize * g + (offset - byteAlignment)) % blockSize t = 0 :=
    Nat.mod_eq_zero_of_dvd (Nat.dvd_add ((blockSizePage cls).2.mul_right g)
      (Nat.dvd_of_mod_eq_zero grid))
  simp only [byteAlignment, pageSize] at *
  have below : 16 ≤ p := by omega
  rw [subWrapSmall below (by omega), roundDownEq]
  obtain ⟨r, here⟩ := Nat.exists_eq_add_of_le (show 4096 * g + (offset - 16) ≤ p - 16 by omega)
  have rest : (p - 16) % blockSize t = r := by
    rw [here, Nat.add_mod, onGrid, Nat.zero_add, Nat.mod_mod, Nat.mod_eq_of_lt (by omega)]
  rw [rest]
  have exact : p - 16 - r + 16 = 4096 * g + offset := by omega
  rw [exact]
  exact wrapSmall (by omega)

theorem roundUpPages {count : Nat} (positive : 0 < count) :
    roundUp (count * pageSize - 16) pageSize = count * pageSize := by
  unfold roundUp
  simp only [pageSize]
  split <;> omega

end Nuaf.Layout
