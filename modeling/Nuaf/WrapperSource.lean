import Nuaf.Library.CallTree
import Nuaf.Sequential

/-! wrapper.h, the functions of the C library over the allocator. They reach the heap
through xxmalloc, xxfree and xxmalloc_usable_size, and through memset and memcpy byte by byte. -/
namespace Nuaf.Wrapper
open CallTree Layout Machine Nuaf.Sequential

abbrev Calls := Program Op Nat

def customFree (ptr : Nat) : Calls Unit := do
  let _ ← ask (.xxfree ptr)

def customMalloc (sz : Nat) : Calls Nat :=
  if sz >>> 63 ≠ 0 then pure 0 else ask (.xxmalloc sz)

def customGetsize (ptr : Nat) : Calls Nat := ask (.usableSize ptr)

def memset (ptr : Nat) (byte : UInt8) : Nat → Calls Unit
  | 0 => pure ()
  | n + 1 => do
    memset ptr byte n
    let _ ← ask (.store ptr n byte)

def memcpy (dst src : Nat) : Nat → Calls Unit
  | 0 => pure ()
  | n + 1 => do
    memcpy dst src n
    let byte ← ask (.load src n)
    let _ ← ask (.store dst n (UInt8.ofNat byte))

def customCalloc (nelem elsize : Nat) : Calls Nat := do
  let n := wrap (nelem * elsize)
  if elsize ≠ 0 ∧ nelem ≠ n / elsize then pure 0
  else
    let ptr ← customMalloc n
    if ptr ≠ 0 then memset ptr 0 n
    pure ptr

def alignUp (ptr alignment : Nat) : Nat :=
  wrap (ptr + alignment - 1) &&& (2 ^ 64 - 1 - (alignment - 1))

/- The test that is to find an aligned pointer compares the bits below the alignment with the
pointer itself, where the source's comment wants them to be 0. -/
def customMemalign (alignment size : Nat) : Calls Nat := do
  if alignment = 0 ∨ alignment &&& (alignment - 1) ≠ 0 then pure 0
  else if alignment = 8 then customMalloc size
  else
    let ptr ← customMalloc size
    if ptr &&& (alignment - 1) = ptr then pure ptr
    else
      customFree ptr
      let ptr ← customMalloc (wrap (size + wrap (2 * alignment)))
      pure (alignUp ptr alignment)

abbrev enomem : Nat := 12
abbrev einval : Nat := 22

def customPosixMemalign (alignment size : Nat) : Calls (Except Nat Nat) := do
  if alignment = 0 ∨ alignment &&& (alignment - 1) ≠ 0 then pure (.error einval)
  else
    let ptr ← customMemalign alignment size
    if ptr = 0 then pure (.error enomem) else pure (.ok ptr)

def roundedSize (alignment size : Nat) : Nat := subWrap (wrap (size + alignment)) (size % alignment)

/- The source has no test for an alignment of 0, and `size % 0` stops the process. -/
def customAlignedAlloc (alignment size : Nat) : Calls (Except Halt Nat) := do
  if alignment = 0 then pure (.error .undefined)
  else
    let ptr ← customMemalign alignment (roundedSize alignment size)
    pure (.ok ptr)

def customRealloc (ptr sz : Nat) : Calls Nat := do
  if ptr = 0 then customMalloc sz
  else if sz = 0 then do
    customFree ptr
    pure 0
  else
    let objSize ← customGetsize ptr
    let buf ← customMalloc sz
    if buf = 0 then
      customFree ptr
      pure buf
    else
      let bufSize ← customGetsize buf
      if objSize = bufSize then
        customFree buf
        pure ptr
      else
        let minSize := if objSize < sz then objSize else sz
        memcpy buf ptr minSize
        customFree ptr
        pure buf

def customCfree (ptr : Nat) : Calls Unit := customFree ptr

def customGoodsize (sz : Nat) : Calls Nat := do
  let ptr ← customMalloc sz
  let objSize ← customGetsize ptr
  customFree ptr
  pure objSize

def strnlenFrom (s i : Nat) : Nat → Calls Nat
  | 0 => pure i
  | fuel + 1 => do
    let byte ← ask (.load s i)
    if byte = 0 then pure i else strnlenFrom s (i + 1) fuel

def strnlen (s maxlen : Nat) : Calls Nat := strnlenFrom s 0 maxlen

/- strlen and strcpy have no bound of their own; an index of 2^64 would be the pointer again. -/
def strlen (s : Nat) : Calls Nat := strnlenFrom s 0 (2 ^ 64)

def strcpyFrom (dst src i : Nat) : Nat → Calls Unit
  | 0 => pure ()
  | fuel + 1 => do
    let byte ← ask (.load src i)
    let _ ← ask (.store dst i (UInt8.ofNat byte))
    if byte = 0 then pure () else strcpyFrom dst src (i + 1) fuel

def strcpy (dst src : Nat) : Calls Unit := strcpyFrom dst src 0 (2 ^ 64)

def strncpyFrom (dst src i : Nat) : Nat → Calls Unit
  | 0 => pure ()
  | fuel + 1 => do
    let byte ← ask (.load src i)
    let _ ← ask (.store dst i (UInt8.ofNat byte))
    if byte = 0 then memset (dst + (i + 1)) 0 fuel else strncpyFrom dst src (i + 1) fuel

def strncpy (dst src n : Nat) : Calls Unit := strncpyFrom dst src 0 n

def customStrndup (s sz : Nat) : Calls Nat := do
  if s ≠ 0 then
    let cappedLength ← strnlen s sz
    let newString ← customMalloc (wrap (cappedLength + 1))
    if newString ≠ 0 then
      strncpy newString s cappedLength
      let _ ← ask (.store newString cappedLength 0)
    pure newString
  else pure 0

def customStrdup (s : Nat) : Calls Nat := do
  if s ≠ 0 then
    let length ← strlen s
    let newString ← customMalloc (wrap (length + 1))
    if newString ≠ 0 then strcpy newString s
    pure newString
  else pure 0

def operatorNew (sz : Nat) : Calls (Except Unit Nat) := do
  let ptr ← customMalloc sz
  if ptr = 0 then pure (.error ()) else pure (.ok ptr)

def operatorNewNothrow (sz : Nat) : Calls Nat := customMalloc sz

def operatorDelete (ptr : Nat) : Calls Unit := customFree ptr

def customValloc (sz : Nat) : Calls Nat := customMemalign 8192 sz

def customPvalloc (sz : Nat) : Calls Nat :=
  customValloc (wrap (sz + 8191) &&& (2 ^ 64 - 1 - 8191))

def customRecalloc (p num sz : Nat) : Calls Nat := do
  let ptr ← customRealloc p (wrap (num * sz))
  if p = 0 ∧ ptr ≠ 0 then
    let size ← customGetsize ptr
    memset ptr 0 size
  pure ptr

end Nuaf.Wrapper
