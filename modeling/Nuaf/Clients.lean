import Nuaf.Linearization
import Nuaf.Requests
import Nuaf.Sessions

/-! Threads of one program on the exported functions. Each goes through the body of the function
it called, one atomic step of the allocator or one access at a time, among the steps of the others;
`heaps` is the heap each may think it has to itself. -/
namespace Nuaf.Clients
open CallTree ByteHeap Layout ByteMemory Machine Source Heap Threads Nuaf.Sequential Wrapper LocalHeap
  Requests
open Linearization (request before answer)
open Sessions (InMemory Task)

abbrev Allowed (H : Objects) (t : Task) : Prop := t.Allowed (Asks H) H

structure Host where
  system : System
  job : Nat → Option (Task × Calls Nat)

def Host.turn (s : Host) (thread : Nat) (job : Option (Task × Calls Nat)) : Host :=
  { s with job := Function.update s.job thread job }

@[simp] theorem turnSystem (s : Host) (τ : Nat) (job : Option (Task × Calls Nat)) :
    (s.turn τ job).system = s.system := rfl

@[simp] theorem turnSelf (s : Host) (τ : Nat) (job : Option (Task × Calls Nat)) :
    (s.turn τ job).job τ = job := Function.update_self _ _ _

@[simp] theorem turnOther (s : Host) {τ υ : Nat} (job : Option (Task × Calls Nat)) (other : υ ≠ τ) :
    (s.turn τ job).job υ = s.job υ := Function.update_of_ne other _ _

inductive Act where
  | began (thread : Nat) (task : Task)
  | called (thread : Nat) (op : Op)
  | advanced (thread : Nat)
  | returned (thread : Nat)
  | accessed (thread : Nat) (op : Op)
  | ended (thread : Nat) (task : Task) (v : Nat)
  | handedOver (giver taker p : Nat)

def heaps : List Act → Nat → Objects
  | [], _ => fun _ => none
  | .ended thread task v :: u, τ => if τ = thread then task.after (heaps u τ) v else heaps u τ
  | .handedOver giver taker p :: u, τ =>
    match heaps u giver p with
    | some c =>
      if τ = taker then (heaps u τ).put p c
      else if τ = giver then (heaps u τ).drop p
      else heaps u τ
    | none => heaps u τ
  | _ :: u, τ => heaps u τ

def Brief : Op → Prop
  | .xxmalloc _ => False
  | .xxfree ptr | .usableSize ptr => ptr = 0
  | .load _ _ | .store _ _ _ => True

inductive Step (pid : Nat) (u : List Act) (s : Host) : Act → Host → Prop where
  | began {τ task} (free : s.job τ = none) (allowed : Allowed (heaps u τ) task) :
      Step pid u s (.began τ task) (s.turn τ (some (task, task.calls)))
  | called {τ task op next pc} (job : s.job τ = some (task, .call op next))
      (ready : s.system.pc τ = .idle) (long : ¬ Brief op) (entry : request pc = some op) :
      Step pid u s (.called τ op) { s with system := s.system.goto τ pc }
  | advanced {τ k pc heap} (reliable : Reliable pid k) (running : ¬ (s.system.pc τ).Final)
      (call : next k (s.system.pc τ) s.system.heap = .ok pc heap) (limit : Within heap) :
      Step pid u s (.advanced τ) { s with system := { s.system.goto τ pc with heap := heap } }
  | returned {τ task op next v} (job : s.job τ = some (task, .call op next))
      (finished : (s.system.pc τ).Final) (reply : answer (s.system.pc τ) = some v) :
      Step pid u s (.returned τ)
        ({ s with system := s.system.goto τ .idle }.turn τ (some (task, next v)))
  | accessed {τ task op next k v heap} (job : s.job τ = some (task, .call op next))
      (ready : s.system.pc τ = .idle) (brief : Brief op) (reliable : Reliable pid k)
      (call : exec k op s.system.heap = .ok v heap) :
      Step pid u s (.accessed τ op)
        ({ s with system := { s.system with heap := heap } }.turn τ (some (task, next v)))
  | ended {τ task v} (job : s.job τ = some (task, .done v)) :
      Step pid u s (.ended τ task v) (s.turn τ none)
  | handedOver {giver taker p c} (other : giver ≠ taker) (free : s.job giver = none)
      (mine : heaps u giver p = some c) : Step pid u s (.handedOver giver taker p) s

abbrev Run (pid : Nat) : List Act → Host → Prop :=
  Trace.Run (fun s => Began pid s.system ∧ ∀ τ, s.job τ = none) (Step pid)

def Saw (u : List Act) : Act → Prop
  | .ended τ task v => task.Answered (heaps u τ) v
  | _ => True

end Nuaf.Clients
