import Mathlib.Logic.Function.Basic
import KernelLabs.Lib.Transition
import KernelLabs.Xv6.Proc

/-!
`sleep`, `wakeup` and the scheduler (assignment-3 `proc.c`) on any number of processors. Each
step is one lock operation, one write to the process table, one turn of a loop or one switch of
contexts. A channel has a lock that guards what its sleepers wait for; that lock may be
`ptable.lock`. What a process does while it holds a lock is left open, but for two rules: it
calls `sleep` only while the condition is false, and if it makes the condition true it calls
`wakeup` before it does anything else with the lock.
-/
namespace Xv6Sleep
open Transition
open Xv6Proc (NPROC Procstate)

/-- `lock` is the argument `lk` of every `sleep` on the channel. -/
structure Guards (L C δ : Type) where
  ptable : L
  lock : C → L
  cond : C → δ → Bool

/-- Where a process is. `out` is a place where it holds no lock, in the middle of a `sleep` if
    there is a channel; `yield` may happen there. -/
inductive Pc (L C : Type) where
  | out (back : Option C)
  | held (l : L)
  | made (c : C)
  | sleepAcquire (c : C)
  | sleepRelease (c : C)
  | setChan (c : C)
  | setState (c : C)
  | sched (c : C)
  | tidy (c : C)
  | leave (c : C)
  | wakeAcquire (c : C)
  | wakeLoop (c : C) (i : Nat)
  | wakeRelease (c : C)
  | yieldAcquire (back : Option C)
  | yieldState (back : Option C)
  | yieldSched (back : Option C)
  | yieldRelease (back : Option C)
  deriving DecidableEq, Repr

/-- What a processor does: its scheduler before `acquire(&ptable.lock)`, its scheduler at a
    slot of the table, or a process. -/
inductive Mode where
  | out
  | loop (i : Nat)
  | run (p : Fin NPROC)
  deriving DecidableEq, Repr

structure State (K L C δ : Type) where
  owner : L → Option K
  mode : K → Mode
  pc : Fin NPROC → Pc L C
  state : Fin NPROC → Procstate
  chan : Fin NPROC → Option C
  data : C → δ

/-- A step of a processor: `step` is the next one of code that has no choice. -/
inductive Action (L C δ : Type) where
  | step
  | acquire (l : L)
  | release
  | work (c : C) (d : δ)
  | sleep (c : C)
  | wakeup (c : C)
  | yield
  | kill (p : Fin NPROC)

section Steps
variable {K L C δ : Type} [DecidableEq K] [DecidableEq L] [DecidableEq C]

def State.setPc (s : State K L C δ) (p : Fin NPROC) (pc : Pc L C) : State K L C δ :=
  { s with pc := Function.update s.pc p pc }

def State.setState (s : State K L C δ) (p : Fin NPROC) (x : Procstate) : State K L C δ :=
  { s with state := Function.update s.state p x }

def State.setMode (s : State K L C δ) (k : K) (m : Mode) : State K L C δ := { s with mode := Function.update s.mode k m }

/-- `acquire` on a processor; it waits while the lock is taken. -/
def State.acquire (s : State K L C δ) (k : K) (l : L) : Option (State K L C δ) :=
  if s.owner l = none then some { s with owner := Function.update s.owner l (some k) } else none

def State.release (s : State K L C δ) (l : L) : State K L C δ := { s with owner := Function.update s.owner l none }

/-- The body of the loop of `wakeup1`, and what `kill` does to a sleeper. -/
def State.wake (s : State K L C δ) (p : Fin NPROC) (wakes : Bool) : State K L C δ :=
  if s.state p = .sleeping ∧ wakes then s.setState p .runnable else s

variable (g : Guards L C δ)

/-- The process `p`, which runs on `k`, in `sleep`, `wakeup` or `yield`. -/
def advance (s : State K L C δ) (k : K) (p : Fin NPROC) : Option (State K L C δ) :=
  match s.pc p with
  | .out none => none
  | .out (some c) => (s.acquire k (g.lock c)).map fun s => s.setPc p (.held (g.lock c))
  | .held _ => none
  | .made _ => none
  | .sleepAcquire c => (s.acquire k g.ptable).map fun s => s.setPc p (.sleepRelease c)
  | .sleepRelease c => some ((s.release (g.lock c)).setPc p (.setChan c))
  | .setChan c => some ({ s with chan := Function.update s.chan p (some c) }.setPc p (.setState c))
  | .setState c => some ((s.setState p .sleeping).setPc p (.sched c))
  | .sched c => some ((s.setPc p (.tidy c)).setMode k (.loop (p.val + 1)))
  | .tidy c =>
    some ({ s with chan := Function.update s.chan p none }.setPc p
      (if g.lock c = g.ptable then .held g.ptable else .leave c))
  | .leave c => some ((s.release g.ptable).setPc p (.out (some c)))
  | .wakeAcquire c => (s.acquire k g.ptable).map fun s => s.setPc p (.wakeLoop c 0)
  | .wakeLoop c i =>
    if h : i < NPROC then
      some ((s.wake ⟨i, h⟩ (decide (s.chan ⟨i, h⟩ = some c))).setPc p (.wakeLoop c (i + 1)))
    else some (s.setPc p (if g.lock c = g.ptable then .held g.ptable else .wakeRelease c))
  | .wakeRelease c => some ((s.release g.ptable).setPc p (.held (g.lock c)))
  | .yieldAcquire back => (s.acquire k g.ptable).map fun s => s.setPc p (.yieldState back)
  | .yieldState back => some ((s.setState p .runnable).setPc p (.yieldSched back))
  | .yieldSched back => some ((s.setPc p (.yieldRelease back)).setMode k (.loop (p.val + 1)))
  | .yieldRelease back => some ((s.release g.ptable).setPc p (.out back))

/-- `scheduler`. -/
def schedule (s : State K L C δ) (k : K) (i : Nat) : State K L C δ :=
  if h : i < NPROC then
    if s.state ⟨i, h⟩ = .runnable then (s.setState ⟨i, h⟩ .running).setMode k (.run ⟨i, h⟩)
    else s.setMode k (.loop (i + 1))
  else (s.release g.ptable).setMode k .out

/-- `sleep`, up to its first lock operation or write. -/
def enterSleep (c : C) : Pc L C := if g.lock c = g.ptable then .setChan c else .sleepAcquire c

/-- `wakeup`, or `wakeup1` by a process that has `ptable.lock`. -/
def enterWakeup (c : C) : Pc L C := if g.lock c = g.ptable then .wakeLoop c 0 else .wakeAcquire c

/-- A write to what the channel's lock guards. -/
def work (s : State K L C δ) (p : Fin NPROC) (c : C) (d : δ) : State K L C δ :=
  let t := { s with data := Function.update s.data c d }
  if g.cond c (s.data c) = false ∧ g.cond c d = true then t.setPc p (.made c) else t

/-- What the process `p`, which runs on `k`, may choose to do. -/
def choose (s : State K L C δ) (k : K) (p : Fin NPROC) : Action L C δ → Option (State K L C δ)
  | .step => advance g s k p
  | .acquire l => if s.pc p = .out none then (s.acquire k l).map fun s => s.setPc p (.held l) else none
  | .release =>
    match s.pc p with
    | .held l => some ((s.release l).setPc p (.out none))
    | _ => none
  | .work c d => if s.pc p = .held (g.lock c) ∨ s.pc p = .made c then some (work g s p c d) else none
  | .sleep c =>
    if s.pc p = .held (g.lock c) ∧ g.cond c (s.data c) = false then some (s.setPc p (enterSleep g c)) else none
  | .wakeup c =>
    if s.pc p = .held (g.lock c) ∨ s.pc p = .made c then some (s.setPc p (enterWakeup g c)) else none
  | .yield =>
    match s.pc p with
    | .out back => some (s.setPc p (.yieldAcquire back))
    | _ => none
  | .kill q => if s.pc p = .held g.ptable then some (s.wake q true) else none

def next (s : State K L C δ) : K × Action L C δ → Option (State K L C δ)
  | (k, a) =>
    match s.mode k with
    | .out =>
      match a with
      | .step => (s.acquire k g.ptable).map fun s => s.setMode k (.loop 0)
      | _ => none
    | .loop i =>
      match a with
      | .step => some (schedule g s k i)
      | _ => none
    | .run p => choose g s k p a

/-- The locks are free and the processors in their schedulers; a new process first returns from
    the `sched` it never called (`forkret`). -/
def Start (s : State K L C δ) : Prop :=
  (∀ l, s.owner l = none) ∧ (∀ k, s.mode k = .out) ∧ (∀ p, s.pc p = .yieldRelease none) ∧
  (∀ p, s.state p = .unused ∨ s.state p = .runnable) ∧ ∀ p, s.chan p = none

def sleepSystem : System (State K L C δ) (K × Action L C δ) := ⟨Start, next g⟩

end Steps

section Fields
variable {K L C δ : Type} (s : State K L C δ) (p : Fin NPROC)

@[simp] theorem setPc_owner (pc : Pc L C) : (s.setPc p pc).owner = s.owner := rfl
@[simp] theorem setPc_mode (pc : Pc L C) : (s.setPc p pc).mode = s.mode := rfl
@[simp] theorem setPc_pc (pc : Pc L C) : (s.setPc p pc).pc = Function.update s.pc p pc := rfl
@[simp] theorem setPc_state (pc : Pc L C) : (s.setPc p pc).state = s.state := rfl
@[simp] theorem setPc_chan (pc : Pc L C) : (s.setPc p pc).chan = s.chan := rfl
@[simp] theorem setPc_data (pc : Pc L C) : (s.setPc p pc).data = s.data := rfl
@[simp] theorem setState_owner (x : Procstate) : (s.setState p x).owner = s.owner := rfl
@[simp] theorem setState_mode (x : Procstate) : (s.setState p x).mode = s.mode := rfl
@[simp] theorem setState_pc (x : Procstate) : (s.setState p x).pc = s.pc := rfl
@[simp] theorem setState_state (x : Procstate) : (s.setState p x).state = Function.update s.state p x := rfl
@[simp] theorem setState_chan (x : Procstate) : (s.setState p x).chan = s.chan := rfl
@[simp] theorem setState_data (x : Procstate) : (s.setState p x).data = s.data := rfl

end Fields

section Modes
variable {K L C δ : Type} [DecidableEq K] (s : State K L C δ)

@[simp] theorem setMode_owner (k : K) (m : Mode) : (s.setMode k m).owner = s.owner := rfl
@[simp] theorem setMode_mode (k : K) (m : Mode) : (s.setMode k m).mode = Function.update s.mode k m := rfl
@[simp] theorem setMode_pc (k : K) (m : Mode) : (s.setMode k m).pc = s.pc := rfl
@[simp] theorem setMode_state (k : K) (m : Mode) : (s.setMode k m).state = s.state := rfl
@[simp] theorem setMode_chan (k : K) (m : Mode) : (s.setMode k m).chan = s.chan := rfl
@[simp] theorem setMode_data (k : K) (m : Mode) : (s.setMode k m).data = s.data := rfl

end Modes

section Owners
variable {K L C δ : Type} [DecidableEq L] (s : State K L C δ)

@[simp] theorem release_owner (l : L) : (s.release l).owner = Function.update s.owner l none := rfl
@[simp] theorem release_mode (l : L) : (s.release l).mode = s.mode := rfl
@[simp] theorem release_pc (l : L) : (s.release l).pc = s.pc := rfl
@[simp] theorem release_state (l : L) : (s.release l).state = s.state := rfl
@[simp] theorem release_chan (l : L) : (s.release l).chan = s.chan := rfl
@[simp] theorem release_data (l : L) : (s.release l).data = s.data := rfl

end Owners
end Xv6Sleep
