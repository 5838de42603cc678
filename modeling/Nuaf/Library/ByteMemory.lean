import Mathlib.Algebra.Ring.Nat

/-! Byte memory with holes. An address either holds a byte or faults; words are
little endian. Ranges are mapped, dropped and moved whole, as a page table does it. -/
namespace ByteMemory

abbrev Memory := Nat → Option UInt8

def mapZero (m : Memory) (start length : Nat) : Memory :=
  fun a => if start ≤ a ∧ a < start + length then some 0 else m a

def unmap (m : Memory) (start length : Nat) : Memory :=
  fun a => if start ≤ a ∧ a < start + length then none else m a

def move (m : Memory) (old new length : Nat) : Memory :=
  fun a => if new ≤ a ∧ a < new + length then m (old + (a - new))
    else if old ≤ a ∧ a < old + length then none else m a

def Mapped (m : Memory) (start length : Nat) : Prop := ∀ i < length, m (start + i) ≠ none
instance (m start length) : Decidable (Mapped m start length) := by
  unfold Mapped; infer_instance

def byteOf (value i : Nat) : UInt8 := UInt8.ofNat (value / 256 ^ i)

def write (m : Memory) (start width value : Nat) : Memory :=
  fun a => if start ≤ a ∧ a < start + width then some (byteOf value (a - start)) else m a

def load (m : Memory) : Nat → Nat → Option Nat
  | _, 0 => some 0
  | a, width + 1 => do
    let low ← m a
    let high ← load m (a + 1) width
    some (low.toNat + 256 * high)

def store (m : Memory) (start width value : Nat) : Option Memory :=
  if Mapped m start width then some (write m start width value) else none

theorem mapZeroIn {m start length a} (inside : start ≤ a ∧ a < start + length) :
    mapZero m start length a = some 0 := if_pos inside

theorem mapZeroOut {m start length a} (outside : ¬ (start ≤ a ∧ a < start + length)) :
    mapZero m start length a = m a := if_neg outside

theorem unmapIn {m start length a} (inside : start ≤ a ∧ a < start + length) :
    unmap m start length a = none := if_pos inside

theorem unmapOut {m start length a} (outside : ¬ (start ≤ a ∧ a < start + length)) :
    unmap m start length a = m a := if_neg outside

theorem unmapNothing (m : Memory) (start : Nat) : unmap m start 0 = m := by
  funext a
  exact unmapOut (by omega)

theorem unmapHoles {m : Memory} {start length : Nat}
    (holes : ∀ a, start ≤ a → a < start + length → m a = none) : unmap m start length = m := by
  funext a
  by_cases inside : start ≤ a ∧ a < start + length
  · rw [unmapIn inside, holes a inside.1 inside.2]
  · exact unmapOut inside

theorem unmapTwice (m : Memory) (start : Nat) {short long : Nat} (le : short ≤ long) :
    unmap (unmap m start short) start long = unmap m start long := by
  funext a
  by_cases inside : start ≤ a ∧ a < start + long
  · rw [unmapIn inside, unmapIn inside]
  · rw [unmapOut inside, unmapOut inside, unmapOut (by omega)]

theorem moveIn {m old new length a} (inside : new ≤ a ∧ a < new + length) :
    move m old new length a = m (old + (a - new)) := if_pos inside

theorem moveSource {m old new length a} (outside : ¬ (new ≤ a ∧ a < new + length))
    (source : old ≤ a ∧ a < old + length) : move m old new length a = none := by
  rw [move, if_neg outside, if_pos source]

theorem moveOut {m old new length a} (target : ¬ (new ≤ a ∧ a < new + length))
    (source : ¬ (old ≤ a ∧ a < old + length)) : move m old new length a = m a := by
  rw [move, if_neg target, if_neg source]

theorem writeIn {m start width value a} (inside : start ≤ a ∧ a < start + width) :
    write m start width value a = some (byteOf value (a - start)) := if_pos inside

theorem writeOut {m start width value a} (outside : ¬ (start ≤ a ∧ a < start + width)) :
    write m start width value a = m a := if_neg outside

theorem writeMapped {m start width} (mapped : Mapped m start width) (value a : Nat) :
    write m start width value a = none ↔ m a = none := by
  by_cases inside : start ≤ a ∧ a < start + width
  · have present := mapped (a - start) (by omega)
    rw [show start + (a - start) = a by omega] at present
    simp [writeIn inside, present]
  · rw [writeOut inside]

section
variable {m n : Memory} {a : Nat} (same : m a = n a)
include same

theorem mapZeroCongr (start length : Nat) : mapZero m start length a = mapZero n start length a := by
  simp only [mapZero, same]

theorem unmapCongr (start length : Nat) : unmap m start length a = unmap n start length a := by
  simp only [unmap, same]

theorem writeCongr (start width value : Nat) :
    write m start width value a = write n start width value a := by
  simp only [write, same]

theorem moveCongr {old new length : Nat} (source : ∀ i < length, m (old + i) = n (old + i)) :
    move m old new length a = move n old new length a := by
  simp only [move, same]
  split
  · exact source _ (by omega)
  · rfl

end

theorem storeMapped {m start width} (mapped : Mapped m start width) (value : Nat) :
    store m start width value = some (write m start width value) := if_pos mapped

theorem loadShift {m n : Memory} {a b width} (same : ∀ i < width, m (a + i) = n (b + i)) :
    load m a width = load n b width := by
  induction width generalizing a b with
  | zero => rfl
  | succ width ih =>
    have head : m a = n b := by simpa using same 0 (by omega)
    have tail : load m (a + 1) width = load n (b + 1) width := ih fun i hi => by
      have := same (i + 1) (by omega)
      rwa [← Nat.add_assoc, ← Nat.add_assoc, Nat.add_right_comm a, Nat.add_right_comm b] at this
    simp only [load, head, tail]

theorem loadCongr {m n : Memory} {a width} (same : ∀ i < width, m (a + i) = n (a + i)) :
    load m a width = load n a width := loadShift same

theorem loadOfBytes {m : Memory} {a width value}
    (bytes : ∀ i < width, m (a + i) = some (byteOf value i)) :
    load m a width = some (value % 256 ^ width) := by
  induction width generalizing a value with
  | zero => simp [load, Nat.mod_one]
  | succ width ih =>
    have head : m a = some (byteOf value 0) := by simpa using bytes 0 (by omega)
    have tail : load m (a + 1) width = some (value / 256 % 256 ^ width) := ih fun i hi => by
      have := bytes (i + 1) (by omega)
      rw [show a + (i + 1) = a + 1 + i by omega] at this
      rw [this, byteOf, byteOf, Nat.pow_succ', Nat.div_div_eq_div_mul]
    have split : value % 256 ^ (width + 1) = value % 256 + 256 * (value / 256 % 256 ^ width) := by
      rw [Nat.pow_succ', Nat.mod_mul]
    simp [load, head, tail, byteOf, split]

theorem loadWritten (m : Memory) (a width value : Nat) :
    load (write m a width value) a width = some (value % 256 ^ width) :=
  loadOfBytes fun i hi => by rw [writeIn (by omega), show a + i - a = i by omega]

theorem loadZero {m : Memory} {a width} (zero : ∀ i < width, m (a + i) = some 0) :
    load m a width = some 0 := by
  have bytes : ∀ i < width, m (a + i) = some (byteOf 0 i) := fun i hi =>
    (zero i hi).trans (by simp [byteOf])
  simpa using loadOfBytes bytes

theorem loadTotal {m : Memory} {a width} (mapped : Mapped m a width) :
    ∃ value, load m a width = some value := by
  induction width generalizing a with
  | zero => exact ⟨0, rfl⟩
  | succ width ih =>
    obtain ⟨low, head⟩ := Option.ne_none_iff_exists'.mp (mapped 0 (by omega))
    obtain ⟨high, tail⟩ := ih (a := a + 1) fun i hi => by
      have := mapped (i + 1) (by omega)
      rwa [show a + (i + 1) = a + 1 + i by omega] at this
    exact ⟨low.toNat + 256 * high, by simp only [load, tail]; simp_all⟩

theorem loadBytes {m n : Memory} {a width value} (left : load m a width = some value)
    (right : load n a width = some value) : ∀ i < width, m (a + i) = n (a + i) := by
  induction width generalizing a value with
  | zero => exact fun i hi => absurd hi (Nat.not_lt_zero i)
  | succ width ih =>
    have cases' : ∀ {x : Memory}, load x a (width + 1) = some value → ∃ low high,
        x a = some low ∧ load x (a + 1) width = some high ∧ low.toNat + 256 * high = value := by
      intro x read
      simp only [load, Option.bind_eq_bind, Option.bind_eq_some_iff, Option.some.injEq] at read
      obtain ⟨low, head, high, tail, sum⟩ := read
      exact ⟨low, high, head, tail, sum⟩
    obtain ⟨low, high, head, tail, sum⟩ := cases' left
    obtain ⟨low', high', head', tail', sum'⟩ := cases' right
    have small := low.toNat_lt
    have small' := low'.toNat_lt
    have first : low = low' := UInt8.toNat_inj.mp (by omega)
    have rest : high = high' := by omega
    subst first rest
    rintro (_ | i) hi
    · exact head.trans head'.symm
    · rw [show a + (i + 1) = a + 1 + i by omega]
      exact ih tail tail' i (by omega)

theorem loadUnmapped {m : Memory} {a width} (positive : 0 < width) (hole : m a = none) :
    load m a width = none := by
  cases width with
  | zero => omega
  | succ width => simp [load, hole]

end ByteMemory
