import KernelLabs.Lib.ArrayQueue
import KernelLabs.Lib.Transition
import KernelLabs.Xv6.Proc

/-!
The multi-level feedback queue scheduler (lab-2 `proc_mlfq_v02.c`). A step is what runs
under `ptable.lock` between two context switches, a part of `fork` outside the lock, or
a call of `setpriority`, which takes no lock. CPUs enter `scheduler` before `userinit`
has run (`main.c`), so runs start at boot. `overran` records that an enqueue has
written past the end of its array, and no step is taken after that; `promoted` records
that a promotion pass has run.
-/
namespace Mlfq
open ArrayQueue Transition
open Xv6Proc (NPROC Procstate Chan Stage Pc)

def MAXPRIORITY : Int := 2
def DEFAULT_BUDGET : Int := 5
def TICKS_TO_PROMOTE : Nat := 20

structure Proc where
  state : Procstate
  pid : Int
  parent : Option (Fin NPROC)
  chan : Option Chan
  killed : Bool
  priority : Int
  budget : Int
  deriving DecidableEq, Repr

/-- The process table with `mlfq_queue` and `mlfq_queue_size`, by level. -/
structure Table where
  proc : Fin NPROC → Proc
  queue : Int → Queue (Fin NPROC)
  overran : Bool

/-- Where a CPU is: in `main` before or inside `userinit`, at the head of the loop of
    `scheduler`, looking on from entry `k` of level `i`, or with a process taken from
    there at time `start` that runs or has just switched back. -/
inductive Cpu where
  | boot
  | setup (p : Fin NPROC)
  | top
  | scan (i k : Nat) (check : Bool)
  | ran (i k start : Nat) (p : Fin NPROC)
  | back (i k start : Nat) (p : Fin NPROC)
  deriving DecidableEq, Repr

structure State (C : Type) extends Table where
  pc : Fin NPROC → Pc
  initproc : Option (Fin NPROC)
  nextpid : Int
  ticks : Nat
  promoteAtTime : Nat
  cpu : C → Cpu
  lock : Option C
  promoted : Bool

inductive Action (C : Type) where
  | userinit (c : C)
  | publishInit (c : C)
  | tick
  | acquire (c : C)
  | scan (c : C)
  | requeue (c : C)
  | yield (c : C)
  | sleep (c : C) (addr : Nat)
  | wakeup (chan : Chan)
  | kill (c : C) (pid : Int)
  | setpriority (c : C) (pid priority : Int)
  | allocproc (c : C)
  | kalloc (c : C) (ok : Bool)
  | copyuvm (c : C) (ok : Bool)
  | publish (c : C)
  | exit (c : C)
  | wait (c : C)

def uint (n : Nat) : Nat := n % 2 ^ 32

def int (n : Int) : Int := n.bmod (2 ^ 32)

section Tables

def Table.set (t : Table) (i : Fin NPROC) (p : Proc) : Table :=
  { t with proc := Function.update t.proc i p }

def Table.setQueue (t : Table) (l : Int) (q : Queue (Fin NPROC)) : Table :=
  { t with queue := Function.update t.queue l q }

/-- Put `p` at the tail of the level of its priority. -/
def enqueue (t : Table) (p : Fin NPROC) : Table :=
  let l := (t.proc p).priority
  let q := (t.queue l).push p
  { t.setQueue l q with overran := t.overran || decide ((2 * NPROC : Int) ≤ q.size) }

/-- The first index below `n` that holds `p`. -/
def findEntry (q : Queue (Fin NPROC)) (p : Fin NPROC) (n : Nat) : Option Nat :=
  (List.range n).find? fun i => q.cell i == some p

def setpriority (t : Table) (pid priority : Int) : Table :=
  if priority < 0 ∨ MAXPRIORITY < priority then t
  else
    match (List.finRange NPROC).find? fun i => (t.proc i).pid == pid with
    | none => t
    | some i => t.set i { t.proc i with priority := priority, budget := DEFAULT_BUDGET }

/-- The loops of the promotion pass that take `p` out of its level. -/
def dequeue (t : Table) (p : Fin NPROC) : Table :=
  let l := (t.proc p).priority
  match findEntry (t.queue l) p (t.queue l).count with
  | none => t
  | some k => t.setQueue l ((t.queue l).removeAt k)

def resetBudget (t : Table) (p : Fin NPROC) : Table :=
  t.set p { t.proc p with budget := DEFAULT_BUDGET }

def promoteOne (t : Table) (p : Fin NPROC) : Table :=
  if (t.proc p).state ≠ .zombie ∧ (t.proc p).priority < MAXPRIORITY then
    let t := dequeue t p
    let t := setpriority t (t.proc p).pid ((t.proc p).priority + 1)
    enqueue (resetBudget t p) p
  else t

def promote (t : Table) : Table := (List.finRange NPROC).foldl promoteOne t

/-- One turn of `wakeup1`. Its search stops one short of the last entry. -/
def wakeOne (chan : Option Chan) (t : Table) (p : Fin NPROC) : Table :=
  if (t.proc p).state = .sleeping ∧ (t.proc p).chan = chan then
    let t := t.set p { t.proc p with state := .runnable }
    let q := t.queue (t.proc p).priority
    match findEntry q p q.size.toNat with
    | some _ => t
    | none => enqueue t p
  else t

def wakeup1 (t : Table) (chan : Option Chan) : Table :=
  (List.finRange NPROC).foldl (wakeOne chan) t

/-- After the process has switched back: charge the time it ran, demote it when its
    budget is used up, and put it at the tail of its level. -/
def requeue (t : Table) (p : Fin NPROC) (ran : Int) : Table :=
  let t := t.set p { t.proc p with budget := int ((t.proc p).budget - ran) }
  if (t.proc p).budget ≤ 0 ∧ 0 < (t.proc p).priority then
    enqueue (setpriority t (t.proc p).pid ((t.proc p).priority - 1)) p
  else enqueue t p

def kill (t : Table) (pid : Int) : Table :=
  match (List.finRange NPROC).find? fun i => (t.proc i).pid == pid with
  | none => t
  | some i =>
    let p := { t.proc i with killed := true }
    t.set i (if p.state = .sleeping then { p with state := .runnable } else p)

/-- One turn of the loop in `exit` that passes children to `initproc`. -/
def abandon (initproc : Option (Fin NPROC)) (p : Fin NPROC) (t : Table) (i : Fin NPROC) : Table :=
  if (t.proc i).parent = some p then
    let t := t.set i { t.proc i with parent := initproc }
    if (t.proc i).state = .zombie then wakeup1 t (initproc.map .slot) else t
  else t

def exit (t : Table) (initproc : Option (Fin NPROC)) (p : Fin NPROC) : Table :=
  let t := wakeup1 t ((t.proc p).parent.map .slot)
  let t := (List.finRange NPROC).foldl (abandon initproc p) t
  t.set p { t.proc p with state := .zombie }

def firstUnused (t : Table) : Option (Fin NPROC) :=
  (List.finRange NPROC).find? fun i => (t.proc i).state == .unused

def firstZombie (t : Table) (p : Fin NPROC) : Option (Fin NPROC) :=
  (List.finRange NPROC).find? fun i => (t.proc i).parent == some p && (t.proc i).state == .zombie

def havekids (t : Table) (p : Fin NPROC) : Bool :=
  (List.finRange NPROC).any fun i => (t.proc i).parent == some p

def reap (t : Table) (z : Fin NPROC) : Table :=
  t.set z { t.proc z with pid := 0, parent := none, killed := false, state := .unused }

/-- The section of `fork` that makes the child runnable. -/
def publish (t : Table) (np : Fin NPROC) : Table :=
  enqueue (t.set np { t.proc np with
    state := .runnable, priority := MAXPRIORITY, budget := DEFAULT_BUDGET }) np

/-- An entry at which the loop over a level stops: a runnable process, or a pointer
    that was never set and cannot be followed. -/
def stops (t : Table) (l : Int) (k : Nat) : Bool :=
  match (t.queue l).cell k with
  | none => true
  | some p => (t.proc p).state == .runnable

/-- The loop over level `i` from index `k` on. -/
def seek (t : Table) (i k : Nat) : Option Nat :=
  (List.range (t.queue i).count).find? fun j => decide (k ≤ j) && stops t i j

/-- The loops of `scheduler` from index `k` of level `i` on. The `while` goes round
    once more when a process of the level has run (`check`). -/
def search (t : Table) (i k : Nat) (check : Bool) : Option (Nat × Nat) :=
  match seek t i k with
  | some j => some (i, j)
  | none =>
    match (if check then seek t i 0 else none) with
    | some j => some (i, j)
    | none =>
      match i with
      | 0 => none
      | i + 1 => search t i 0 false

end Tables

section Model
variable {C : Type} [DecidableEq C]

def State.setCpu (s : State C) (c : C) (cpu : Cpu) : State C :=
  { s with cpu := Function.update s.cpu c cpu }

def State.setPc (s : State C) (p : Fin NPROC) (pc : Pc) : State C :=
  { s with pc := Function.update s.pc p pc }

def State.onTable (s : State C) (f : Table → Table) : State C := { s with toTable := f s.toTable }

omit [DecidableEq C] in
theorem State.onTable_table (s : State C) (f : Table → Table) :
    (s.onTable f).toTable = f s.toTable := rfl

omit [DecidableEq C] in
theorem State.onTable_cpu (s : State C) (f : Table → Table) : (s.onTable f).cpu = s.cpu := rfl

def State.setLock (s : State C) (lock : Option C) : State C := { s with lock := lock }

/-- The head of the loop of `scheduler`, with the promotion pass. -/
def acquire (s : State C) (c : C) : State C :=
  let s := (s.setCpu c (.scan 2 0 false)).setLock (some c)
  if s.promoteAtTime ≤ s.ticks then
    { s.onTable promote with promoteAtTime := uint (s.ticks + TICKS_TO_PROMOTE), promoted := true }
  else s

/-- Take entry `k` out of level `i` and switch to it. A process that slept in `wait`
    goes on with the lock held; any other lets go of it first. -/
def dispatch (s : State C) (c : C) (i k : Nat) (p : Fin NPROC) : State C :=
  let s := (s.onTable fun t => t.setQueue i ((t.queue i).removeAt k)).setCpu c (.ran i k s.ticks p)
  let me := { s.proc p with state := .running }
  match s.pc p with
  | .waiting => s.onTable fun t => t.set p { me with chan := none }
  | .sleeping => ((s.onTable fun t => t.set p { me with chan := none }).setPc p .elsewhere).setLock none
  | _ => (s.onTable fun t => t.set p me).setLock none

/-- The process running on `c`, with the place its entry was taken from. -/
def current (s : State C) (c : C) : Option (Nat × Nat × Nat × Fin NPROC) :=
  match s.cpu c with
  | .ran i k start p => some (i, k, start, p)
  | _ => none

/-- `sched`: back to the scheduler of `c`, holding the lock. -/
def sched (s : State C) (c : C) : State C :=
  match s.cpu c with
  | .ran i k start p => (s.setCpu c (.back i k start p)).setLock (some c)
  | _ => s

def wait (s : State C) (c : C) (p : Fin NPROC) : State C :=
  match firstZombie s.toTable p with
  | some z => ((s.onTable fun t => reap t z).setPc p .elsewhere).setLock none
  | none =>
    if !(havekids s.toTable p) || (s.proc p).killed then (s.setPc p .elsewhere).setLock none
    else
      sched ((s.onTable fun t => t.set p { t.proc p with chan := some (.slot p), state := .sleeping }).setPc
        p .waiting) c

def step (s : State C) : Action C → Option (State C)
  | .userinit c =>
    if s.cpu c = .boot ∧ s.lock = none then
      match firstUnused s.toTable with
      | none => none
      | some p =>
        let s := s.onTable fun t => t.set p { t.proc p with state := .embryo, pid := s.nextpid }
        some { s.setCpu c (.setup p) with nextpid := int (s.nextpid + 1), initproc := some p }
    else none
  | .publishInit c =>
    match s.cpu c with
    | .setup p =>
      if s.lock = none then
        let s := s.onTable fun t => t.set p { t.proc p with state := .runnable }
        some { s.setCpu c .top with promoteAtTime := uint (s.ticks + TICKS_TO_PROMOTE) }
      else none
    | _ => none
  | .tick => some { s with ticks := uint (s.ticks + 1) }
  | .acquire c => if s.cpu c = .top ∧ s.lock = none then some (acquire s c) else none
  | .scan c =>
    match s.cpu c with
    | .scan i k check =>
      if s.lock = some c then
        match search s.toTable i k check with
        | none => some ((s.setCpu c .top).setLock none)
        | some (i, k) => ((s.queue i).cell k).map fun p => dispatch s c i k p
      else none
    | _ => none
  | .requeue c =>
    match s.cpu c with
    | .back i k start p =>
      if s.lock = some c then
        some ((s.onTable fun t => requeue t p (int (s.ticks - start))).setCpu c (.scan i (k + 1) true))
      else none
    | _ => none
  | .yield c =>
    match current s c with
    | some (_, _, _, p) =>
      if s.lock = none then
        some (sched (s.onTable fun t => t.set p { t.proc p with state := .runnable }) c)
      else none
    | none => none
  | .sleep c addr =>
    match current s c with
    | some (_, _, _, p) =>
      if s.lock = none ∧ s.pc p = .elsewhere then
        let s := s.onTable fun t =>
          t.set p { t.proc p with chan := some (.other addr), state := .sleeping }
        some (sched (s.setPc p .sleeping) c)
      else none
    | none => none
  | .wakeup chan =>
    if s.lock = none then some (s.onTable fun t => wakeup1 t (some chan)) else none
  | .kill c pid =>
    match current s c with
    | some _ => if s.lock = none then some (s.onTable fun t => kill t pid) else none
    | none => none
  | .setpriority c pid priority =>
    match current s c with
    | some (_, _, _, p) =>
      if s.pc p = .elsewhere ∧ s.lock ≠ some c then
        some (s.onTable fun t => setpriority t pid priority)
      else none
    | none => none
  | .allocproc c =>
    match current s c with
    | some (_, _, _, p) =>
      if s.lock = none ∧ s.pc p = .elsewhere then
        match firstUnused s.toTable with
        | none => some s
        | some np =>
          let s := s.onTable fun t => t.set np { t.proc np with state := .embryo, pid := s.nextpid }
          some { s.setPc p (.forking .allocated np) with nextpid := int (s.nextpid + 1) }
      else none
    | none => none
  | .kalloc c ok =>
    match current s c with
    | some (_, _, _, p) =>
      match s.pc p with
      | .forking .allocated np =>
        if ok then some (s.setPc p (.forking .stacked np))
        else
          let s := s.onTable fun t => t.set np { t.proc np with state := .unused }
          some (s.setPc p .elsewhere)
      | _ => none
    | none => none
  | .copyuvm c ok =>
    match current s c with
    | some (_, _, _, p) =>
      match s.pc p with
      | .forking .stacked np =>
        if ok then
          let s := s.onTable fun t => t.set np { t.proc np with parent := some p }
          some (s.setPc p (.forking .copied np))
        else
          let s := s.onTable fun t => t.set np { t.proc np with state := .unused }
          some (s.setPc p .elsewhere)
      | _ => none
    | none => none
  | .publish c =>
    match current s c with
    | some (_, _, _, p) =>
      match s.pc p with
      | .forking .copied np =>
        if s.lock = none then some ((s.onTable fun t => publish t np).setPc p .elsewhere) else none
      | _ => none
    | none => none
  | .exit c =>
    match current s c with
    | some (_, _, _, p) =>
      if s.lock = none ∧ s.pc p = .elsewhere ∧ some p ≠ s.initproc then
        some (sched (s.onTable fun t => exit t s.initproc p) c)
      else none
    | none => none
  | .wait c =>
    match current s c with
    | some (_, _, _, p) =>
      if (s.lock = none ∧ s.pc p = .elsewhere) ∨ (s.lock = some c ∧ s.pc p = .waiting) then
        some (wait s c p)
      else none
    | none => none

/-- Nothing is said about a machine whose queues have been written past their ends. -/
def next (s : State C) (a : Action C) : Option (State C) :=
  if s.overran then none else step s a

/-- At boot: an empty table, empty queues, and one CPU still in `main`. -/
def Start (s : State C) : Prop :=
  (∀ p, s.proc p = ⟨.unused, 0, none, none, false, 0, 0⟩) ∧ (∀ l, s.queue l = .empty) ∧
    s.overran = false ∧ (∀ p, s.pc p = .elsewhere) ∧ s.nextpid = 1 ∧ s.ticks = 0 ∧
    s.promoteAtTime = 0 ∧ s.lock = none ∧ s.promoted = false ∧
    ∃ c, s.cpu c = .boot ∧ ∀ d, d ≠ c → s.cpu d = .top

def system (C : Type) [DecidableEq C] : System (State C) (Action C) := ⟨Start, next⟩

end Model
end Mlfq
