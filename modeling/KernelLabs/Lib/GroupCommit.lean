import Mathlib.Data.Finset.Card
import Mathlib.Logic.Function.Basic
import KernelLabs.Lib.Transition

/- A store with group commit, as its users see it. Operations update `pending`; a
   commit makes all of it durable at once and waits until no operation runs; a crash
   ends the running operations and goes back to what is durable. -/
namespace GroupCommit
open Transition
variable {ι δ P : Type}

structure Store (ι δ P : Type) where
  durable : ι → δ
  pending : ι → δ
  running : Finset P

inductive Event (ι δ P : Type) where
  | start (p : P)
  | update (p : P) (i : ι) (d : δ)
  | finish (p : P)
  | commit
  | crash

namespace Store
variable [DecidableEq ι] [DecidableEq P]

def fresh (contents : ι → δ) : Store ι δ P := ⟨contents, contents, ∅⟩

def next (x : Store ι δ P) : Event ι δ P → Option (Store ι δ P)
  | .start p => if p ∈ x.running then none else some { x with running := insert p x.running }
  | .update p i d =>
    if p ∈ x.running then some { x with pending := Function.update x.pending i d } else none
  | .finish p => if p ∈ x.running then some { x with running := x.running.erase p } else none
  | .commit => if x.running = ∅ then some { x with durable := x.pending } else none
  | .crash => some (fresh x.durable)

end Store
end GroupCommit
