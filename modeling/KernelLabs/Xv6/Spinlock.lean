import KernelLabs.Lib.Transition
import Mathlib.Logic.Function.Basic

/-!
Spinlocks (assignment-3 `spinlock.c`) on any number of processors. Every step is one access to
memory that other processors share, or code of one processor that nothing can interrupt. Interrupts
arrive whenever `FL_IF` is set; their handler runs with it cleared. Processes do not move to another
processor.
-/
namespace Xv6Spinlock
open Transition

/-- Where `holding` is called from. -/
inductive Asker
  | acquire | release | other
deriving DecidableEq

/-- What follows a `pushcli`. -/
inductive After (L : Type)
  | masked
  | acquire (l : L)
  | holding (l : L) (asker : Asker)
deriving DecidableEq

/-- `cli` is `pushcli` after it has read the flags; `masked` is code between a `pushcli` and a
    `popcli` that uses no lock. -/
inductive Pc (L : Type)
  | run
  | push (next : After L)
  | cli (eflags : Bool) (next : After L)
  | masked
  | readLocked (l : L) (asker : Asker)
  | readCpu (l : L) (asker : Asker)
  | popHolding (l : L) (r : Bool) (asker : Asker)
  | spin (l : L)
  | setCpu (l : L)
  | clearCpu (l : L)
  | unlock (l : L)
  | popRelease
  | panic
deriving DecidableEq

structure Lock (K : Type) where
  locked : Bool
  cpu : Option K

/-- `frames` is the code that interrupts have left, the last one first. -/
structure Cpu (L : Type) where
  flag : Bool
  ncli : Int
  intena : Bool
  pc : Pc L
  frames : List (Pc L)

structure State (K L : Type) where
  lock : L → Lock K
  cpu : K → Cpu L

/-- Calls that the kernel's code makes; `myproc` and `switchuvm` are `masked`. -/
inductive Call (L : Type)
  | acquire (l : L)
  | release (l : L)
  | holding (l : L)
  | masked

inductive Action (K L : Type)
  | step (k : K)
  | call (k : K) (what : Call L)
  | interrupt (k : K)
  | iret (k : K)
  | sti (k : K)

section Steps
variable {K L : Type} [DecidableEq K] [DecidableEq L]

def State.set (s : State K L) (k : K) (c : Cpu L) : State K L := { s with cpu := Function.update s.cpu k c }

def State.setLock (s : State K L) (l : L) (x : Lock K) : State K L := { s with lock := Function.update s.lock l x }

def Cpu.go (c : Cpu L) (pc : Pc L) : Cpu L := { c with pc := pc }

/-- The rest of `pushcli`, from `cli()` on. -/
def Cpu.cli (c : Cpu L) (eflags : Bool) : Cpu L :=
  { c with flag := false, intena := if c.ncli = 0 then eflags else c.intena, ncli := c.ncli + 1 }

/-- `popcli`, and then `pc`. -/
def Cpu.popcli (c : Cpu L) (pc : Pc L) : Cpu L :=
  if c.flag then c.go .panic
  else
    let c := { c with ncli := c.ncli - 1 }
    if c.ncli < 0 then c.go .panic
    else if c.ncli = 0 ∧ c.intena = true then { c with flag := true, pc := pc }
    else c.go pc

def After.pc : After L → Pc L
  | .masked => .masked
  | .acquire l => .push (.holding l .acquire)
  | .holding l asker => .readLocked l asker

/-- What the caller of `holding` does with the result. -/
def answer (l : L) (r : Bool) : Asker → Pc L
  | .acquire => if r then .panic else .spin l
  | .release => if r then .clearCpu l else .panic
  | .other => .run

def Call.pc : Call L → Pc L
  | .acquire l => .push (.acquire l)
  | .release l => .push (.holding l .release)
  | .holding l => .push (.holding l .other)
  | .masked => .push .masked

/-- The next step of a processor inside of `spinlock.c`. -/
def advance (s : State K L) (k : K) : Option (State K L) :=
  let c := s.cpu k
  match c.pc with
  | .run | .panic => none
  | .push next => some (s.set k (c.go (.cli c.flag next)))
  | .cli eflags next => some (s.set k ((c.cli eflags).go next.pc))
  | .masked => some (s.set k (c.popcli .run))
  | .readLocked l asker =>
    some (s.set k (c.go (if (s.lock l).locked then .readCpu l asker else .popHolding l false asker)))
  | .readCpu l asker => some (s.set k (c.go (.popHolding l ((s.lock l).cpu == some k) asker)))
  | .popHolding l r asker => some (s.set k (c.popcli (answer l r asker)))
  | .spin l =>
    some ((s.setLock l { s.lock l with locked := true }).set k
      (c.go (if (s.lock l).locked then .spin l else .setCpu l)))
  | .setCpu l => some ((s.setLock l { s.lock l with cpu := some k }).set k (c.go .run))
  | .clearCpu l => some ((s.setLock l { s.lock l with cpu := none }).set k (c.go (.unlock l)))
  | .unlock l => some ((s.setLock l { s.lock l with locked := false }).set k (c.go .popRelease))
  | .popRelease => some (s.set k (c.popcli .run))

def next (s : State K L) : Action K L → Option (State K L)
  | .step k => advance s k
  | .call k what => if (s.cpu k).pc = .run then some (s.set k ((s.cpu k).go what.pc)) else none
  | .interrupt k =>
    if (s.cpu k).flag ∧ (s.cpu k).pc ≠ .panic then
      some (s.set k { s.cpu k with flag := false, pc := .run, frames := (s.cpu k).pc :: (s.cpu k).frames })
    else none
  | .iret k =>
    match (s.cpu k).pc, (s.cpu k).frames with
    | .run, pc :: frames => some (s.set k { s.cpu k with flag := true, pc := pc, frames := frames })
    | _, _ => none
  | .sti k => if (s.cpu k).pc = .run then some (s.set k { s.cpu k with flag := true }) else none

/-- All locks initialized, and the processors start with interrupts off. -/
def Start (s : State K L) : Prop :=
  (∀ l, s.lock l = ⟨false, none⟩) ∧ ∀ k, s.cpu k = ⟨false, 0, false, .run, []⟩

def system (K L : Type) [DecidableEq K] [DecidableEq L] : System (State K L) (Action K L) where
  start := Start
  next := next

/-- Interrupts are switched on, and handlers return, only outside of critical sections. -/
def Careful (s : State K L) : Action K L → Prop
  | .iret k | .sti k => (s.cpu k).ncli = 0
  | _ => True

end Steps

end Xv6Spinlock
