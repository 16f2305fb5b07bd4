import Mathlib.Algebra.CharZero.Defs
import Mathlib.Algebra.Ring.Int.Defs
import Mathlib.Algebra.Ring.Nat
import Mathlib.Data.Finset.Basic
import Mathlib.Data.Fintype.Basic
import KernelLabs.Lib.Transition

/-!
The process table (assignment-3 `proc.c`). A step is a section under `ptable.lock`, or
a part of `fork` outside it. The scheduler hands the lock to the process it picks and
takes it back from the one that stops, so the states between these steps include every
state in which the lock is free. Kernel stacks and address spaces are names; `kstacks`
and `pgdirs` are those given out by `kalloc` and `copyuvm` and not yet freed. `made`,
`exited` and `reaped` are history.
-/
namespace Xv6Proc
open Transition

def NPROC : Nat := 64

instance : NeZero NPROC := ⟨by decide⟩

inductive Procstate where
  | unused
  | embryo
  | sleeping
  | runnable
  | running
  | zombie
  deriving DecidableEq, Repr

/-- `wait` sleeps on the address of a slot; every other channel is some other address. -/
inductive Chan where
  | slot (i : Fin NPROC)
  | other (addr : Nat)
  deriving DecidableEq, Repr

structure Proc where
  state : Procstate
  pid : Int
  parent : Option (Fin NPROC)
  chan : Option Chan
  killed : Bool
  kstack : Option Nat
  pgdir : Option Nat
  deriving DecidableEq, Repr

/-- How far `fork` has come with the new process. -/
inductive Stage where
  | allocated
  | stacked
  | copied
  deriving DecidableEq, Repr

/-- Where a process is inside the functions of `proc.c`. -/
inductive Pc where
  | elsewhere
  | sleeping
  | waiting
  | forking (stage : Stage) (np : Fin NPROC)
  deriving DecidableEq, Repr

/-- What `wait` hands back and frees for a process that has exited. -/
structure Remains where
  pid : Int
  kstack : Option Nat
  pgdir : Option Nat
  deriving DecidableEq, Repr

structure State where
  proc : Fin NPROC → Proc
  pc : Fin NPROC → Pc
  initproc : Fin NPROC
  nextpid : Int
  kstacks : Finset Nat
  pgdirs : Finset Nat
  made : Nat
  exited : List Remains
  reaped : List Remains

inductive Action where
  | scheduler (p : Fin NPROC)
  | yield (p : Fin NPROC)
  | sleep (p : Fin NPROC) (addr : Nat)
  | wakeup (chan : Chan)
  | kill (pid : Int)
  | allocproc (p : Fin NPROC)
  | kalloc (p : Fin NPROC) (page : Option Nat)
  | copyuvm (p : Fin NPROC) (space : Option Nat)
  | publish (p : Fin NPROC)
  | exit (p : Fin NPROC)
  | wait (p : Fin NPROC)

def Proc.remains (p : Proc) : Remains := ⟨p.pid, p.kstack, p.pgdir⟩

def State.set (s : State) (i : Fin NPROC) (p : Proc) : State :=
  { s with proc := Function.update s.proc i p }

def State.setPc (s : State) (i : Fin NPROC) (pc : Pc) : State :=
  { s with pc := Function.update s.pc i pc }

/-- `nextpid` is an `int`. -/
def wrap (n : Int) : Int := n.bmod (2 ^ 32)

def wake (chan : Option Chan) (p : Proc) : Proc :=
  if p.state = .sleeping ∧ p.chan = chan then { p with state := .runnable } else p

def wakeup1 (proc : Fin NPROC → Proc) (chan : Option Chan) : Fin NPROC → Proc :=
  fun i => wake chan (proc i)

/-- The body of the `scheduler` loop for a `RUNNABLE` process, with the tidying up that
    `sleep` does before it lets go of the lock. -/
def scheduler (s : State) (p : Fin NPROC) : State :=
  let me := { s.proc p with state := .running }
  match s.pc p with
  | .sleeping => (s.set p { me with chan := none }).setPc p .elsewhere
  | .waiting => s.set p { me with chan := none }
  | _ => s.set p me

def sleep (s : State) (p : Fin NPROC) (chan : Chan) (pc : Pc) : State :=
  (s.set p { s.proc p with chan := some chan, state := .sleeping }).setPc p pc

/-- `kill` stops at the first slot with that pid, whatever its state. -/
def kill (s : State) (pid : Int) : State :=
  match (List.finRange NPROC).find? fun i => (s.proc i).pid == pid with
  | none => s
  | some i =>
    let p := { s.proc i with killed := true }
    s.set i (if p.state = .sleeping then { p with state := .runnable } else p)

/-- The label `found` in `allocproc`, up to the release of the lock. -/
def found (s : State) (p np : Fin NPROC) : State :=
  let s := (s.set np { s.proc np with state := .embryo, pid := s.nextpid }).setPc p
    (.forking .allocated np)
  { s with nextpid := wrap (s.nextpid + 1), made := s.made + 1 }

def allocproc (s : State) (p : Fin NPROC) : State :=
  match (List.finRange NPROC).find? fun i => (s.proc i).state == .unused with
  | none => s
  | some np => found s p np

/-- The rest of `allocproc`, with what `kalloc` returned. -/
def allocStack (s : State) (p np : Fin NPROC) : Option Nat → State
  | none => (s.set np { s.proc np with kstack := none, state := .unused }).setPc p .elsewhere
  | some page =>
    let s := (s.set np { s.proc np with kstack := some page }).setPc p (.forking .stacked np)
    { s with kstacks := insert page s.kstacks }

def kfree (s : State) : Option Nat → State
  | none => s
  | some page => { s with kstacks := s.kstacks.erase page }

def freevm (s : State) : Option Nat → State
  | none => s
  | some space => { s with pgdirs := s.pgdirs.erase space }

/-- The middle of `fork`, with what `copyuvm` returned. -/
def copyParent (s : State) (p np : Fin NPROC) : Option Nat → State
  | none =>
    let freed := kfree s (s.proc np).kstack
    (freed.set np { s.proc np with pgdir := none, kstack := none, state := .unused }).setPc p
      .elsewhere
  | some space =>
    let s := (s.set np { s.proc np with pgdir := some space, parent := some p }).setPc p (.forking .copied np)
    { s with pgdirs := insert space s.pgdirs }

def publish (s : State) (p np : Fin NPROC) : State :=
  (s.set np { s.proc np with state := .runnable }).setPc p .elsewhere

/-- One turn of the loop in `exit` that passes children to `initproc`. -/
def abandon (initproc p : Fin NPROC) (proc : Fin NPROC → Proc) (i : Fin NPROC) :
    Fin NPROC → Proc :=
  if (proc i).parent = some p then
    let proc := Function.update proc i { proc i with parent := some initproc }
    if (proc i).state = .zombie then wakeup1 proc (some (.slot initproc)) else proc
  else proc

/-- The table after `exit` has woken the parent and passed on the children. -/
def handOver (s : State) (p : Fin NPROC) : Fin NPROC → Proc :=
  (List.finRange NPROC).foldl (abandon s.initproc p)
    (wakeup1 s.proc ((s.proc p).parent.map .slot))

def exit (s : State) (p : Fin NPROC) : State :=
  let proc := handOver s p
  { s with
    proc := Function.update proc p { proc p with state := .zombie }
    exited := (proc p).remains :: s.exited }

def reap (s : State) (z : Fin NPROC) : State :=
  let dead := s.proc z
  let s := freevm (kfree s dead.kstack) dead.pgdir
  let s := s.set z { dead with kstack := none, pid := 0, parent := none, killed := false, state := .unused }
  { s with reaped := dead.remains :: s.reaped }

inductive Waited where
  | reaped (z : Fin NPROC)
  | none
  | asleep
  deriving DecidableEq, Repr

/-- One scan of the table by `wait`. -/
def scan (s : State) (p : Fin NPROC) : Waited :=
  match (List.finRange NPROC).find? fun i =>
      (s.proc i).parent == some p && (s.proc i).state == .zombie with
  | some z => .reaped z
  | none =>
    let havekids := (List.finRange NPROC).any fun i => (s.proc i).parent == some p
    if !havekids || (s.proc p).killed then .none else .asleep

def wait (s : State) (p : Fin NPROC) : State :=
  match scan s p with
  | .reaped z => (reap s z).setPc p .elsewhere
  | .none => s.setPc p .elsewhere
  | .asleep => sleep s p (.slot p) .waiting

/-- Steps of a process need it to be running; `exit` by `initproc` is a panic. -/
def next (s : State) : Action → Option State
  | .scheduler p => if (s.proc p).state = .runnable then some (scheduler s p) else none
  | .yield p =>
    if (s.proc p).state = .running ∧ s.pc p ≠ .waiting then
      some (s.set p { s.proc p with state := .runnable })
    else none
  | .sleep p addr =>
    if (s.proc p).state = .running ∧ s.pc p = .elsewhere then
      some (sleep s p (.other addr) .sleeping)
    else none
  | .wakeup chan => some { s with proc := wakeup1 s.proc (some chan) }
  | .kill pid => some (kill s pid)
  | .allocproc p =>
    if (s.proc p).state = .running ∧ s.pc p = .elsewhere then some (allocproc s p) else none
  | .kalloc p page =>
    match s.pc p with
    | .forking .allocated np =>
      if (s.proc p).state = .running ∧ ∀ k, page = some k → k ∉ s.kstacks then
        some (allocStack s p np page)
      else none
    | _ => none
  | .copyuvm p space =>
    match s.pc p with
    | .forking .stacked np =>
      if (s.proc p).state = .running ∧ ∀ k, space = some k → k ∉ s.pgdirs then
        some (copyParent s p np space)
      else none
    | _ => none
  | .publish p =>
    match s.pc p with
    | .forking .copied np => if (s.proc p).state = .running then some (publish s p np) else none
    | _ => none
  | .exit p =>
    if (s.proc p).state = .running ∧ s.pc p = .elsewhere ∧ p ≠ s.initproc then some (exit s p)
    else none
  | .wait p =>
    if (s.proc p).state = .running ∧ (s.pc p = .elsewhere ∨ s.pc p = .waiting) then some (wait s p)
    else none

def unusedProc : Proc := ⟨.unused, 0, none, none, false, none, none⟩

/-- After `userinit`: the first slot holds the only process. -/
def Start (s : State) : Prop :=
  ∃ stack space, s.initproc = 0 ∧
    s.proc = Function.update (fun _ => unusedProc) 0
      ⟨.runnable, 1, none, none, false, some stack, some space⟩ ∧
    (∀ p, s.pc p = .elsewhere) ∧ s.nextpid = 2 ∧ stack ∈ s.kstacks ∧ space ∈ s.pgdirs ∧
    s.made = 1 ∧ s.exited = [] ∧ s.reaped = []

def system : System State Action := ⟨Start, next⟩

end Xv6Proc
