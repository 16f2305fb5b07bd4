import KernelLabs.Lib.RingBuffer
import KernelLabs.Lib.Transition

/-!
The input side of the console (assignment-3 `console.c`). `cons.lock` is held during a call
of `consoleintr`, and in `consoleread` from one `sleep` to the next; such a piece is one step
here. The echo on the screen and the inode lock are left out.
-/
namespace Xv6Console
open Transition

def INPUT_BUF : Nat := 128

abbrev Byte := BitVec 8

/-- The macro `C`. -/
def ctrl (x : Byte) : Byte := x - 64

def ctrlD : Byte := ctrl 68
def ctrlH : Byte := ctrl 72
def ctrlP : Byte := ctrl 80
def ctrlU : Byte := ctrl 85
def delete : Byte := 0x7f
def newline : Byte := 10
def carriageReturn : Byte := 13

structure Input where
  buf : Nat → Byte
  r : BitVec 32
  w : BitVec 32
  e : BitVec 32

def slot (i : BitVec 32) : Nat := i.toNat % INPUT_BUF

/-- The loop for `C('U')`. -/
def killLine : Nat → Input → Input
  | 0, s => s
  | fuel + 1, s =>
    if s.e ≠ s.w ∧ s.buf (slot (s.e - 1)) ≠ newline then killLine fuel { s with e := s.e - 1 } else s

/-- One character from `getc`, and whether it wakes the readers. -/
def consoleintrOne (s : Input) (c : Byte) : Input × Bool :=
  if c = ctrlP then (s, false)
  else if c = ctrlU then (killLine (s.e - s.w).toNat s, false)
  else if c = ctrlH ∨ c = delete then (if s.e ≠ s.w then { s with e := s.e - 1 } else s, false)
  else if c ≠ 0 ∧ (s.e - s.r).toNat < INPUT_BUF then
    let c := if c = carriageReturn then newline else c
    let s := { s with buf := Function.update s.buf (slot s.e) c, e := s.e + 1 }
    if c = newline ∨ c = ctrlD ∨ s.e = s.r + BitVec.ofNat 32 INPUT_BUF then ({ s with w := s.e }, true) else (s, false)
  else (s, false)

/-- What a call does before it sleeps or returns; `n` and the bytes stored through `dst`. -/
inductive Outcome where
  | sleeps (n : Nat) (got : List Byte)
  | returns (n : Nat) (got : List Byte)
  | fails (got : List Byte)
  deriving DecidableEq, Repr

/-- The loop of `consoleread` with `n` bytes to go. A negative `n` does not enter it, like 0. -/
def readLoop (killed : Bool) (target : Nat) : Nat → Input → List Byte → Input × Outcome
  | 0, s, got => (s, .returns 0 got)
  | n + 1, s, got =>
    if s.r = s.w then (s, if killed then .fails got else .sleeps (n + 1) got)
    else
      let c := s.buf (slot s.r)
      let s := { s with r := s.r + 1 }
      if c = ctrlD then (if n + 1 < target then { s with r := s.r - 1 } else s, .returns (n + 1) got)
      else if c = newline then (s, .returns n (got ++ [c]))
      else readLoop killed target n s (got ++ [c])

/-- A call of `consoleread` that sleeps. -/
structure Reader where
  target : Nat
  n : Nat
  got : List Byte
  deriving DecidableEq, Repr

structure State (P : Type) where
  input : Input
  reader : P → Option Reader
  asleep : P → Bool
  killed : P → Bool

inductive Action (P : Type) where
  | intr (chars : List Byte)
  | read (p : P) (n : Nat)
  | resume (p : P)
  | kill (p : P)

/-- A character typed, a call of `consoleread`, a byte it stores, and its return, with -1 as `failed`. -/
inductive Event (P : Type) where
  | typed (c : Byte)
  | called (p : P) (n : Nat)
  | delivered (p : P) (b : Byte)
  | returned (p : P) (k : Nat)
  | failed (p : P)

section Model
variable {P : Type} [DecidableEq P]

/-- `consoleintr`; `wakeup(&input.r)` wakes all readers. -/
def consoleintr (s : State P) (chars : List Byte) : State P :=
  chars.foldl (fun s c =>
    let (input, wake) := consoleintrOne s.input c
    { s with input := input, asleep := fun p => s.asleep p && !wake }) s

/-- `consoleread` from the head of its loop on. -/
def proceed (s : State P) (p : P) (rd : Reader) : State P :=
  match readLoop (s.killed p) rd.target rd.n s.input rd.got with
  | (input, .sleeps n got) =>
    { s with input := input, reader := Function.update s.reader p (some { rd with n := n, got := got }),
             asleep := Function.update s.asleep p true }
  | (input, _) => { s with input := input, reader := Function.update s.reader p none }

def step (s : State P) : Action P → Option (State P)
  | .intr chars => some (consoleintr s chars)
  | .read p n => if s.reader p = none then some (proceed s p ⟨n, n, []⟩) else none
  | .resume p =>
    match s.reader p with
    | some rd => if s.asleep p then none else some (proceed s p rd)
    | none => none
  | .kill p => some { s with killed := Function.update s.killed p true, asleep := Function.update s.asleep p false }

def Outcome.got : Outcome → List Byte
  | .sleeps _ got => got
  | .returns _ got => got
  | .fails got => got

def Outcome.closing (p : P) (target : Nat) : Outcome → List (Event P)
  | .sleeps _ _ => []
  | .returns n _ => [.returned p (target - n)]
  | .fails _ => [.failed p]

/-- The events of a piece of `consoleread` that had stored `before`. -/
def readEvents (p : P) (target : Nat) (before : List Byte) (out : Outcome) : List (Event P) :=
  (out.got.drop before.length).map (.delivered p) ++ out.closing p target

def proceedEvents (s : State P) (p : P) (rd : Reader) : List (Event P) :=
  readEvents p rd.target rd.got (readLoop (s.killed p) rd.target rd.n s.input rd.got).2

def emit (s : State P) : Action P → List (Event P)
  | .intr chars => chars.map .typed
  | .read p n => .called p n :: proceedEvents s p ⟨n, n, []⟩
  | .resume p =>
    match s.reader p with
    | some rd => proceedEvents s p rd
    | none => []
  | .kill _ => []

/-- Nothing typed and nobody reading, with any common value of the indices. -/
def Start (s : State P) : Prop :=
  s.input.r = s.input.w ∧ s.input.w = s.input.e ∧ ∀ p, s.reader p = none

def system (P : Type) [DecidableEq P] : System (State P) (Action P) where
  start := Start
  next := step

end Model
end Xv6Console
