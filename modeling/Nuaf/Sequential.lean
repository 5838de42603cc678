import Nuaf.Ownership
import Nuaf.Library.Trace

/-! Sequential runs: one process after init_mem, calls and memory accesses one after the
other. The history is what the program and the kernel could observe; the ledger of live and
freed blocks is read off the history alone. -/
namespace Nuaf.Sequential
open Layout Machine Source Heap

/- Accesses name the object they go through: `load p i` reads `((char*)p)[i]`. -/
inductive Op where
  | xxmalloc (size : Nat)
  | xxfree (ptr : Nat)
  | usableSize (ptr : Nat)
  | load (ptr index : Nat)
  | store (ptr index : Nat) (byte : UInt8)
  deriving DecidableEq, Repr

inductive Reply where
  | value (v : Nat)
  | fault (addr : Nat)
  deriving DecidableEq, Repr

structure Event where
  op : Op
  reply : Reply
  calls : List Call
  deriving DecidableEq, Repr

abbrev History := List Event

def exec (k : Kernel) : Op → AllocM Nat
  | .xxmalloc size => xxmalloc k size
  | .xxfree ptr => do xxfree k ptr; pure 0
  | .usableSize ptr => xxmallocUsableSize ptr
  | .load ptr index => readWord (ptr + index) 1
  | .store ptr index byte => do writeWord (ptr + index) 1 byte.toNat; pure 0

/- A block keeps its serial number and class from the carving (or mapping) that made it;
`ptr` is where it lives now and `size` the request it last served. -/
structure Block where
  serial : Nat
  cls : Nat
  ptr : Nat
  size : Nat
  deriving DecidableEq, Repr

def Block.Small (b : Block) : Prop := b.size ≤ largestBlockSize
instance (b : Block) : Decidable b.Small := by unfold Block.Small; infer_instance

def Block.Covers (b : Block) (p : Nat) : Prop := Inside b.ptr b.size p
instance (b : Block) (p : Nat) : Decidable (b.Covers p) := by
  unfold Block.Covers Inside; infer_instance

def Block.Page (b : Block) (g : Nat) : Prop := Spans b.ptr b.size g

structure Ledger where
  live : List Block
  free : Nat → List Block
  made : Nat

def movedTo : List Call → Nat
  | .mremap _ _ _ new :: _ => new
  | _ => 0

def Ledger.make (l : Ledger) (size ptr : Nat) : Ledger :=
  { l with live := ⟨l.made, blockType size, ptr, size⟩ :: l.live, made := l.made + 1 }

def Ledger.malloc (l : Ledger) (size ptr : Nat) : Ledger :=
  if size ≤ largestBlockSize then
    match l.free (blockType size) with
    | [] => l.make size ptr
    | b :: rest => { l with
        live := { b with ptr := ptr, size := size } :: l.live
        free := Function.update l.free (blockType size) rest }
  else l.make size ptr

def Ledger.release (l : Ledger) (b : Block) (target : Nat) : Ledger :=
  let live := l.live.filter (fun c => c.ptr ≠ b.ptr)
  if b.Small then { l with
    live := live
    free := Function.update l.free b.cls
      ({ b with ptr := target + b.ptr % pageSize } :: l.free b.cls) }
  else { l with live := live }

def Ledger.find (l : Ledger) (ptr : Nat) : Option Block := l.live.find? (fun b => b.Covers ptr)

def Ledger.apply (l : Ledger) (e : Event) : Ledger :=
  match e.op, e.reply with
  | .xxmalloc size, .value ptr => l.malloc size ptr
  | .xxfree ptr, .value _ =>
    match l.find ptr with
    | some b => l.release b (movedTo e.calls)
    | none => l
  | _, _ => l

def ledger : History → Ledger
  | [] => ⟨[], fun _ => [], 0⟩
  | e :: h => (ledger h).apply e

def live (h : History) : List Block := (ledger h).live

/- One byte array for each object, by the pointer it was handed out at: what the program
stored last at each position, nothing where it has stored nothing since. -/
abbrev Arrays := Nat → Nat → Option UInt8

def Arrays.apply (contents : Arrays) (e : Event) : Arrays :=
  match e.op, e.reply with
  | .xxmalloc _, .value ptr => Function.update contents ptr (fun _ => none)
  | .store ptr index byte, .value _ =>
    Function.update contents ptr (Function.update (contents ptr) index (some byte))
  | _, _ => contents

def arrays : History → Arrays
  | [] => fun _ _ => none
  | e :: h => (arrays h).apply e

def Gone : History → Nat → Prop
  | [], _ => False
  | e :: h, g => Gone h g ∨ ∃ ptr v b, e.op = .xxfree ptr ∧ e.reply = .value v ∧
      (ledger h).find ptr = some b ∧ b.Page g

def Usable (σ : State) (ptr index : Nat) : Prop :=
  ∃ size, xxmallocUsableSize ptr σ = .ok size σ ∧ index < size

inductive Disciplined (h : History) (σ : State) : Op → Prop where
  | xxmalloc (size : Nat) : Disciplined h σ (.xxmalloc size)
  | xxfree {b} (owned : b ∈ live h) : Disciplined h σ (.xxfree b.ptr)
  | usableSize {b} (owned : b ∈ live h) : Disciplined h σ (.usableSize b.ptr)
  | load {b index} (owned : b ∈ live h) (inside : Usable σ b.ptr index) :
      Disciplined h σ (.load b.ptr index)
  | store {b index byte} (owned : b ∈ live h) (inside : Usable σ b.ptr index) :
      Disciplined h σ (.store b.ptr index byte)

/- Calls on interior pointers. On a later page of a large object the program must not have
forged the magic number at or below the pointer. -/
inductive Interior (h : History) (σ : State) : Op → Prop where
  | xxfree {b ptr} (owned : b ∈ live h) (inside : b.Covers ptr) (clean : Clean σ b.ptr ptr) :
      Interior h σ (.xxfree ptr)
  | usableSize {b ptr} (owned : b ∈ live h) (inside : b.Covers ptr)
      (clean : Clean σ b.ptr ptr) : Interior h σ (.usableSize ptr)

inductive Dangling (h : History) : Op → Prop where
  | xxfree {ptr} (gone : Gone h (ptr / pageSize)) : Dangling h (.xxfree ptr)
  | usableSize {ptr} (gone : Gone h (ptr / pageSize)) : Dangling h (.usableSize ptr)
  | load {ptr index} (gone : Gone h ((ptr + index) / pageSize)) : Dangling h (.load ptr index)
  | store {ptr index byte} (gone : Gone h ((ptr + index) / pageSize)) :
      Dangling h (.store ptr index byte)

abbrev Policy := History → State → Kernel → Op → Prop

/- One operation that returned, or that stopped at an address without memory: the program
may survive the signal. Any other stop ends the process and the run with it. -/
inductive Step (policy : Policy) (within : State → Prop) :
    History → State → Event → State → Prop where
  | returned {h σ k op v σ'} (allowed : policy h σ k op) (call : exec k op σ.clear = .ok v σ')
      (limit : within σ') : Step policy within h σ ⟨op, .value v, σ'.calls⟩ σ'
  | faulted {h σ k op addr σ'} (allowed : policy h σ k op)
      (call : exec k op σ.clear = .error (.segv addr) σ') (limit : within σ') :
      Step policy within h σ ⟨op, .fault addr, σ'.calls⟩ σ'

/- mremap attempts may be refused, as long as the granted one cut no mapped page off. -/
def Calm (pid : Nat) (k : Kernel) (σ : State) (op : Op) : Prop :=
  k.pid = pid ∧ ∀ ptr, op = .xxfree ptr → isLarge ptr = false → Harmless k σ ptr

abbrev Run (pid : Nat) (policy : Policy) (within : State → Prop) : History → State → Prop :=
  Trace.Run (Started pid) (Step policy within)

def reliably (pid : Nat) : Policy := fun h σ k op => Reliable pid k ∧ Disciplined h σ op
def misusing (pid : Nat) : Policy := fun h σ k op =>
  Reliable pid k ∧ (Disciplined h σ op ∨ Dangling h op)
def calmly (pid : Nat) : Policy := fun h σ k op =>
  Calm pid k σ op ∧ (Disciplined h σ op ∨ Interior h σ op ∨ Dangling h op)

theorem reliableCalm {pid : Nat} {k : Kernel} (reliable : Reliable pid k) (σ : State) (op : Op) :
    Calm pid k σ op := ⟨reliable.1, fun ptr _ _ => reliableHarmless reliable σ ptr⟩

variable {pid : Nat} {policy policy' : Policy} {within : State → Prop} {h : History} {σ : State}

theorem ledgerFree {b : Block} {ptr v : Nat} {calls : List Call}
    (found : (ledger h).find ptr = some b) :
    ledger (⟨.xxfree ptr, .value v, calls⟩ :: h) = (ledger h).release b (movedTo calls) := by
  simp only [ledger, Ledger.apply, found]

theorem stepWiden {e : Event} {σ' : State}
    (wider : ∀ h σ k op, policy h σ k op → policy' h σ k op)
    (taken : Step policy within h σ e σ') : Step policy' within h σ e σ' := by
  cases taken with
  | returned allowed call limit => exact .returned (wider _ _ _ _ allowed) call limit
  | faulted allowed call limit => exact .faulted (wider _ _ _ _ allowed) call limit

theorem runWiden (wider : ∀ h σ k op, policy h σ k op → policy' h σ k op)
    (run : Run pid policy within h σ) : Run pid policy' within h σ :=
  Trace.runMono (fun _ _ _ _ taken => stepWiden wider taken) run

theorem reliablyWider (h : History) (σ : State) (k : Kernel) (op : Op)
    (allowed : reliably pid h σ k op) : calmly pid h σ k op :=
  ⟨reliableCalm allowed.1 σ op, .inl allowed.2⟩

theorem misusingWider (h : History) (σ : State) (k : Kernel) (op : Op)
    (allowed : misusing pid h σ k op) : calmly pid h σ k op :=
  ⟨reliableCalm allowed.1 σ op, allowed.2.imp_right .inr⟩

end Nuaf.Sequential
