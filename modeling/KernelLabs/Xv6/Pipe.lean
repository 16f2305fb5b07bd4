import KernelLabs.Lib.RingBuffer
import KernelLabs.Lib.Transition

/-!
Pipes (assignment-3 `pipe.c`) shared by any processes. A step is a piece of a call between
two points at which another process can act: `kill` can come in at any time, everything
else only while the lock of the pipe is free. `sleep` gives up the lock and falls asleep in
one step, since a process that wakes others needs `ptable.lock` for it. `pipeclose` is
called when the last reference to an end is gone (`file.c`).
-/
namespace Xv6Pipe
open Transition RingBuffer

def PIPESIZE : Nat := 512

abbrev Byte := BitVec 8

/-- The addresses `&p->nread` and `&p->nwrite`. -/
inductive Chan where
  | nread
  | nwrite
  deriving DecidableEq, Repr

/-- Where a process is. It holds the lock of the pipe at the head of the loop of
    `pipewrite`, past its tests and before `wakeup` and `sleep`, at the first loop of
    `piperead`, past its test and before `sleep`, and in the loop that copies. -/
inductive Pc where
  | idle
  | writing (rest : List Byte)
  | dozing (rest : List Byte)
  | full (rest : List Byte)
  | reading (n : Nat)
  | nodding (n : Nat)
  | empty (n : Nat)
  | copying (n : Nat) (got : List Byte)
  deriving DecidableEq, Repr

structure State (P : Type) where
  ring : Buffer Byte 32
  readopen : Bool
  writeopen : Bool
  lock : Option P
  pc : P → Pc
  asleep : P → Option Chan
  killed : P → Bool

inductive Action (P : Type) where
  | write (p : P) (addr : List Byte)
  | read (p : P) (n : Nat)
  | advance (p : P)
  | resume (p : P)
  | kill (p : P)
  | close (writable : Bool)

/-- What goes through the pipe: a byte that `pipewrite` has stored, and the bytes that
    `piperead` has returned. -/
inductive Event where
  | stored (b : Byte)
  | returned (bytes : List Byte)
  deriving DecidableEq, Repr

section Model
variable {P : Type} [DecidableEq P]

def State.setPc (s : State P) (p : P) (pc : Pc) : State P :=
  { s with pc := Function.update s.pc p pc }

/-- `release` and return. -/
def leave (s : State P) (p : P) : State P := { s.setPc p .idle with lock := none }

def wakeup (s : State P) (chan : Chan) : State P :=
  { s with asleep := fun p => if s.asleep p = some chan then none else s.asleep p }

def sleep (s : State P) (p : P) (chan : Chan) (pc : Pc) : State P :=
  { s.setPc p pc with asleep := Function.update s.asleep p (some chan), lock := none }

def isFull (r : Buffer Byte 32) : Bool := decide (r.nwrite = r.nread + BitVec.ofNat 32 PIPESIZE)

def isEmpty (r : Buffer Byte 32) : Bool := decide (r.nread = r.nwrite)

/-- The next piece of the call of the process that holds the lock. -/
def advance (s : State P) (p : P) : Option (State P) :=
  match s.pc p with
  | .writing [] => some (leave (wakeup s .nread) p)
  | .writing (b :: rest) =>
    if isFull s.ring then
      if !s.readopen || s.killed p then some (leave s p) else some (s.setPc p (.dozing (b :: rest)))
    else some { s.setPc p (.writing rest) with ring := push PIPESIZE s.ring b }
  | .dozing rest => some (sleep (wakeup s .nread) p .nwrite (.full rest))
  | .reading n =>
    if isEmpty s.ring && s.writeopen then
      if s.killed p then some (leave s p) else some (s.setPc p (.nodding n))
    else some (s.setPc p (.copying n []))
  | .nodding n => some (sleep s p .nread (.empty n))
  | .copying 0 _ => some (leave (wakeup s .nwrite) p)
  | .copying (n + 1) got =>
    if isEmpty s.ring then some (leave (wakeup s .nwrite) p)
    else some { s.setPc p (.copying n (got ++ [head PIPESIZE s.ring])) with ring := pop s.ring }
  | _ => none

def enter (s : State P) (p : P) (pc : Pc) : State P := { s.setPc p pc with lock := some p }

def step (s : State P) : Action P → Option (State P)
  | .write p addr =>
    if s.lock = none ∧ s.pc p = .idle ∧ s.writeopen then some (enter s p (.writing addr)) else none
  | .read p n =>
    if s.lock = none ∧ s.pc p = .idle ∧ s.readopen then some (enter s p (.reading n)) else none
  | .advance p => if s.lock = some p then advance s p else none
  | .resume p =>
    if s.lock = none ∧ s.asleep p = none then
      match s.pc p with
      | .full rest => some (enter s p (.writing rest))
      | .empty n => some (enter s p (.reading n))
      | _ => none
    else none
  | .kill p =>
    some { s with killed := Function.update s.killed p true,
                  asleep := Function.update s.asleep p none }
  | .close writable =>
    if s.lock = none then
      if writable then
        if s.writeopen then some (wakeup { s with writeopen := false } .nread) else none
      else
        if s.readopen then some (wakeup { s with readopen := false } .nwrite) else none
    else none

def emit (s : State P) : Action P → List Event
  | .advance p =>
    match s.pc p with
    | .writing (b :: _) => if isFull s.ring then [] else [.stored b]
    | .copying 0 got => [.returned got]
    | .copying (_ + 1) got => if isEmpty s.ring then [.returned got] else []
    | _ => []
  | _ => []

/-- A new pipe, with any common value of its counters. -/
def Start (s : State P) : Prop :=
  s.ring.nread = s.ring.nwrite ∧ s.readopen = true ∧ s.writeopen = true ∧ s.lock = none ∧
    (∀ p, s.pc p = .idle) ∧ ∀ p, s.asleep p = none

def system (P : Type) [DecidableEq P] : System (State P) (Action P) := ⟨Start, step⟩

/-- All bytes stored, and all bytes returned, in order. -/
def stored (events : List Event) : List Byte :=
  events.flatMap fun
    | .stored b => [b]
    | .returned _ => []

def returned (events : List Event) : List Byte :=
  events.flatMap fun
    | .stored _ => []
    | .returned bytes => bytes

end Model

section Moves
variable {P : Type} [DecidableEq P]

/-- Each way a step can succeed, with the events it emits. -/
inductive Moves (s : State P) : Action P → List Event → State P → Prop where
  | write {p : P} {addr : List Byte} (free : s.lock = none) (idle : s.pc p = .idle)
      (opened : s.writeopen = true) : Moves s (.write p addr) [] (enter s p (.writing addr))
  | read {p : P} {n : Nat} (free : s.lock = none) (idle : s.pc p = .idle)
      (opened : s.readopen = true) : Moves s (.read p n) [] (enter s p (.reading n))
  | written {p : P} (held : s.lock = some p) (place : s.pc p = .writing []) :
      Moves s (.advance p) [] (leave (wakeup s .nread) p)
  | refused {p : P} {b : Byte} {rest : List Byte} (held : s.lock = some p)
      (place : s.pc p = .writing (b :: rest)) (full : isFull s.ring = true)
      (why : s.readopen = false ∨ s.killed p = true) : Moves s (.advance p) [] (leave s p)
  | waits {p : P} {b : Byte} {rest : List Byte} (held : s.lock = some p)
      (place : s.pc p = .writing (b :: rest)) (full : isFull s.ring = true)
      (opened : s.readopen = true) : Moves s (.advance p) [] (s.setPc p (.dozing (b :: rest)))
  | store {p : P} {b : Byte} {rest : List Byte} (held : s.lock = some p)
      (place : s.pc p = .writing (b :: rest)) (room : isFull s.ring = false) :
      Moves s (.advance p) [.stored b]
        { s.setPc p (.writing rest) with ring := push PIPESIZE s.ring b }
  | doze {p : P} {rest : List Byte} (held : s.lock = some p) (place : s.pc p = .dozing rest) :
      Moves s (.advance p) [] (sleep (wakeup s .nread) p .nwrite (.full rest))
  | killed {p : P} {n : Nat} (held : s.lock = some p) (place : s.pc p = .reading n) :
      Moves s (.advance p) [] (leave s p)
  | starves {p : P} {n : Nat} (held : s.lock = some p) (place : s.pc p = .reading n)
      (empty : isEmpty s.ring = true) (opened : s.writeopen = true) :
      Moves s (.advance p) [] (s.setPc p (.nodding n))
  | copies {p : P} {n : Nat} (held : s.lock = some p) (place : s.pc p = .reading n)
      (ready : isEmpty s.ring = false ∨ s.writeopen = false) :
      Moves s (.advance p) [] (s.setPc p (.copying n []))
  | nod {p : P} {n : Nat} (held : s.lock = some p) (place : s.pc p = .nodding n) :
      Moves s (.advance p) [] (sleep s p .nread (.empty n))
  | copied {p : P} {n : Nat} {got : List Byte} (held : s.lock = some p)
      (place : s.pc p = .copying n got) :
      Moves s (.advance p) [.returned got] (leave (wakeup s .nwrite) p)
  | take {p : P} {n : Nat} {got : List Byte} (held : s.lock = some p)
      (place : s.pc p = .copying (n + 1) got) (ready : isEmpty s.ring = false) :
      Moves s (.advance p) []
        { s.setPc p (.copying n (got ++ [head PIPESIZE s.ring])) with ring := pop s.ring }
  | rewrite {p : P} {rest : List Byte} (free : s.lock = none) (awake : s.asleep p = none)
      (place : s.pc p = .full rest) : Moves s (.resume p) [] (enter s p (.writing rest))
  | reread {p : P} {n : Nat} (free : s.lock = none) (awake : s.asleep p = none)
      (place : s.pc p = .empty n) : Moves s (.resume p) [] (enter s p (.reading n))
  | kill {p : P} : Moves s (.kill p) []
      { s with killed := Function.update s.killed p true,
               asleep := Function.update s.asleep p none }
  | closeWrite (free : s.lock = none) :
      Moves s (.close true) [] (wakeup { s with writeopen := false } .nread)
  | closeRead (free : s.lock = none) :
      Moves s (.close false) [] (wakeup { s with readopen := false } .nwrite)

theorem advance_moves {s t : State P} {p : P} (held : s.lock = some p) (run : advance s p = some t) :
    Moves s (.advance p) (emit s (.advance p)) t := by
  unfold advance at run
  cases place : s.pc p with
  | writing rest =>
    cases rest with
    | nil =>
      simp only [place, Option.some.injEq] at run
      simpa [emit, place, run] using Moves.written held place
    | cons b rest =>
      simp only [place] at run
      cases full : isFull s.ring with
      | false =>
        simp only [full, Bool.false_eq_true, if_false, Option.some.injEq] at run
        simpa [emit, place, full, run] using Moves.store held place full
      | true =>
        simp only [full, if_true] at run
        split at run
        · rename_i why
          simp only [Option.some.injEq] at run
          simpa [emit, place, full, run] using Moves.refused held place full (by simpa using why)
        · rename_i fine
          simp only [Option.some.injEq] at run
          simp only [Bool.or_eq_true, Bool.not_eq_true', not_or, Bool.not_eq_false] at fine
          simpa [emit, place, full, run] using Moves.waits held place full fine.1
  | dozing rest =>
    simp only [place, Option.some.injEq] at run
    simpa [emit, place, run] using Moves.doze held place
  | reading n =>
    simp only [place] at run
    split at run
    · rename_i starving
      rw [Bool.and_eq_true] at starving
      split at run
      · simp only [Option.some.injEq] at run
        simpa [emit, place, run] using Moves.killed held place
      · simp only [Option.some.injEq] at run
        simpa [emit, place, run] using Moves.starves held place starving.1 starving.2
    · rename_i ready
      simp only [Option.some.injEq] at run
      simp only [Bool.and_eq_true, not_and_or, Bool.not_eq_true] at ready
      simpa [emit, place, run] using Moves.copies held place ready
  | nodding n =>
    simp only [place, Option.some.injEq] at run
    simpa [emit, place, run] using Moves.nod held place
  | copying n got =>
    cases n with
    | zero =>
      simp only [place, Option.some.injEq] at run
      simpa [emit, place, run] using Moves.copied held place
    | succ n =>
      simp only [place] at run
      cases empty : isEmpty s.ring with
      | true =>
        simp only [empty, if_true, Option.some.injEq] at run
        simpa [emit, place, empty, run] using Moves.copied held place
      | false =>
        simp only [empty, Bool.false_eq_true, if_false, Option.some.injEq] at run
        simpa [emit, place, empty, run] using Moves.take held place empty
  | idle => simp [place] at run
  | full rest => simp [place] at run
  | empty n => simp [place] at run

theorem step_moves {s t : State P} {a : Action P} (run : step s a = some t) :
    Moves s a (emit s a) t := by
  cases a with
  | write p addr =>
    simp only [step] at run
    split at run
    · rename_i guard
      simp only [Option.some.injEq] at run
      exact run ▸ Moves.write guard.1 guard.2.1 guard.2.2
    · simp at run
  | read p n =>
    simp only [step] at run
    split at run
    · rename_i guard
      simp only [Option.some.injEq] at run
      exact run ▸ Moves.read guard.1 guard.2.1 guard.2.2
    · simp at run
  | advance p =>
    simp only [step] at run
    split at run
    · rename_i held
      exact advance_moves held run
    · simp at run
  | resume p =>
    simp only [step] at run
    split at run
    · rename_i guard
      split at run
      · rename_i place
        simp only [Option.some.injEq] at run
        exact run ▸ Moves.rewrite guard.1 guard.2 place
      · rename_i place
        simp only [Option.some.injEq] at run
        exact run ▸ Moves.reread guard.1 guard.2 place
      · simp at run
    · simp at run
  | kill p =>
    simp only [step, Option.some.injEq] at run
    exact run ▸ Moves.kill
  | close writable =>
    simp only [step] at run
    split at run
    · rename_i free
      cases writable with
      | true =>
        simp only [if_true] at run
        split at run
        · simp only [Option.some.injEq] at run
          exact run ▸ Moves.closeWrite free
        · simp at run
      | false =>
        simp only [Bool.false_eq_true, if_false] at run
        split at run
        · simp only [Option.some.injEq] at run
          exact run ▸ Moves.closeRead free
        · simp at run
    · simp at run

end Moves
end Xv6Pipe
