import Nuaf.WrapperSource

/-! What a program may ask of wrapper.h, one request for each of its functions. gnuwrapper.cpp
exports malloc, free, cfree, calloc, realloc, memalign, posix_memalign, aligned_alloc and
malloc_usable_size (the operators of C++ are exported as they are); the other functions are only
there under the names of CUSTOM_PREFIX. -/
namespace Nuaf.Wrapper
open CallTree Layout Nuaf.Sequential

inductive Request where
  | malloc (size : Nat)
  | calloc (nelem elsize : Nat)
  | realloc (ptr size : Nat)
  | recalloc (ptr num size : Nat)
  | memalign (alignment size : Nat)
  | posixMemalign (alignment size : Nat)
  | alignedAlloc (alignment size : Nat)
  | valloc (size : Nat)
  | pvalloc (size : Nat)
  | strdup (s : Nat) (text : List UInt8)
  | strndup (s size : Nat) (text : List UInt8)
  | new (size : Nat)
  | newNothrow (size : Nat)
  | free (ptr : Nat)
  | cfree (ptr : Nat)
  | delete (ptr : Nat)
  | usableSize (ptr : Nat)
  | goodSize (size : Nat)

def orNull {ε : Type} : Except ε Nat → Nat
  | .ok ptr => ptr
  | .error _ => 0

def serve : Request → Calls Nat
  | .malloc size => customMalloc size
  | .calloc nelem elsize => customCalloc nelem elsize
  | .realloc ptr size => customRealloc ptr size
  | .recalloc ptr num size => customRecalloc ptr num size
  | .memalign alignment size => customMemalign alignment size
  | .posixMemalign alignment size => do
    let ptr ← customPosixMemalign alignment size
    pure (orNull ptr)
  | .alignedAlloc alignment size => do
    let ptr ← customAlignedAlloc alignment size
    pure (orNull ptr)
  | .valloc size => customValloc size
  | .pvalloc size => customPvalloc size
  | .strdup s _ => customStrdup s
  | .strndup s size _ => customStrndup s size
  | .new size => do
    let ptr ← operatorNew size
    pure (orNull ptr)
  | .newNothrow size => operatorNewNothrow size
  | .free ptr => do
    customFree ptr
    pure 0
  | .cfree ptr => do
    customCfree ptr
    pure 0
  | .delete ptr => do
    operatorDelete ptr
    pure 0
  | .usableSize ptr => customGetsize ptr
  | .goodSize size => customGoodsize size

def Request.gone : Request → Nat
  | .realloc ptr _ | .recalloc ptr _ _ | .free ptr | .cfree ptr | .delete ptr => ptr
  | _ => 0

def Request.hands : Request → Nat → Nat
  | .usableSize _, _ | .goodSize _, _ => 0
  | _, v => v

def Request.alignment : Request → Nat
  | .malloc _ => 8
  | .memalign alignment _ | .posixMemalign alignment _ | .alignedAlloc alignment _ => alignment
  | .valloc _ | .pvalloc _ => 8192
  | _ => 0

def Request.asked : Request → Nat
  | .malloc size | .new size | .newNothrow size => size
  | .memalign _ size | .posixMemalign _ size | .alignedAlloc _ size => size
  | .valloc size | .pvalloc size => size
  | _ => 0

def Request.room : Request → Nat
  | .alignedAlloc alignment size => roundedSize alignment size
  | .pvalloc size => wrap (size + 8191) &&& (2 ^ 64 - 1 - 8191)
  | r => r.asked

def Request.slack : Request → Nat
  | .alignedAlloc alignment _ => alignment
  | .pvalloc _ => 8191
  | _ => 0

variable {alignment size : Nat}

theorem posixServes (alignment size : Nat) :
    serve (.posixMemalign alignment size) = customMemalign alignment size := by
  simp only [serve, customPosixMemalign]
  by_cases invalid : alignment = 0 ∨ alignment &&& (alignment - 1) ≠ 0
  · simp only [if_pos invalid, pure_bind, customMemalign, orNull]
  · simp only [if_neg invalid, bind_assoc]
    conv_rhs => rw [← bind_pure (customMemalign alignment size)]
    congr 1
    funext ptr
    by_cases none : ptr = 0
    · rw [if_pos none, none]
      rfl
    · rw [if_neg none]
      rfl

theorem alignedServes (real : 0 < alignment) (size : Nat) :
    serve (.alignedAlloc alignment size) = customMemalign alignment (roundedSize alignment size) := by
  rw [serve, customAlignedAlloc, if_neg (Nat.ne_of_gt real), bind_assoc]
  exact bind_pure _

end Nuaf.Wrapper
