import KernelLabs.Lib.Transition
import KernelLabs.Xv6.Proc

/-!
The lottery scheduler (lab-2 `proc_lottery_v02.c`, `rand.c`). A step is what runs under
`ptable.lock` between two context switches, a part of `fork` outside the lock, or a call
of `setpriority`, which takes no lock. What `genrand` returns is an input of a round of
`scheduler`. `dispatched` is history: how often a process has been picked since it was
created.
-/
namespace Lottery
open Transition
open Xv6Proc (NPROC Procstate Chan Stage Pc)

def MAXTICKET : Int := 15
def MAXPRIORITY : Int := 2
def DEFAULT_BUDGET : Int := 5
def RAND_MAX : Nat := 0x7fffffff

structure Proc where
  state : Procstate
  pid : Int
  parent : Option (Fin NPROC)
  chan : Option Chan
  killed : Bool
  priority : Int
  budget : Int
  tickets : Int
  inuse : Int
  ticks : Int
  deriving DecidableEq, Repr

abbrev Table := Fin NPROC → Proc

/-- `struct pstat`: four arrays of `NPROC` entries. -/
structure Pstat where
  inuse : Nat → Int
  tickets : Nat → Int
  pid : Nat → Int
  ticks : Nat → Int

/-- Where a CPU is: in `main` before or inside `userinit`, at the head of the loop of
    `scheduler`, or with a process that runs or has just switched back. -/
inductive Cpu where
  | boot
  | setup (p : Fin NPROC)
  | top
  | ran (p : Fin NPROC)
  | back (p : Fin NPROC)
  deriving DecidableEq, Repr

structure State (C : Type) where
  proc : Table
  pc : Fin NPROC → Pc
  initproc : Option (Fin NPROC)
  nextpid : Int
  pstat : Pstat
  cpu : C → Cpu
  lock : Option C
  dispatched : Fin NPROC → Nat

inductive Action (C : Type) where
  | userinit (c : C)
  | publishInit (c : C)
  | round (c : C) (outputs : List Nat)
  | resume (c : C)
  | yield (c : C)
  | sleep (c : C) (addr : Nat)
  | wakeup (chan : Chan)
  | kill (c : C) (pid : Int)
  | setpriority (c : C) (pid priority : Int)
  | settickets (c : C) (numTickets : Int)
  | getpinfo (c : C) (null : Bool)
  | allocproc (c : C)
  | kalloc (c : C) (ok : Bool)
  | copyuvm (c : C) (ok : Bool)
  | publish (c : C)
  | exit (c : C)
  | wait (c : C)

def uint (n : Nat) : Nat := n % 2 ^ 32

def int (n : Int) : Int := n.bmod (2 ^ 32)

section Random

def numBins (max : Nat) : Nat := uint (max + 1)

def numRand : Nat := RAND_MAX + 1

def binSize (max : Nat) : Nat := numRand / numBins max

def defect (max : Nat) : Nat := numRand % numBins max

def accepted (max x : Nat) : Bool := decide (¬ numRand - defect max ≤ x)

/-- The result when `genrand` returns `outputs` in turn. There is none as long as every
    output is rejected, and none when a division is by zero. -/
def randomAtMost (max : Nat) (outputs : List Nat) : Option Nat :=
  if binSize max = 0 then none else (outputs.find? (accepted max)).map (· / binSize max)

end Random

section Tables

/-- An `int` added to a `uint`. -/
def addTickets (count : Nat) (tickets : Int) : Nat := ((count + tickets) % 2 ^ 32).toNat

/-- The sum of the tickets of the RUNNABLE processes of a part of the table. -/
def sumTickets (t : Table) (l : List (Fin NPROC)) (sum : Nat) : Nat :=
  l.foldl (fun sum p => if (t p).state ≠ .runnable then sum else addTickets sum (t p).tickets) sum

def ticketSum (t : Table) : Nat := sumTickets t (List.finRange NPROC) 0

/-- The loop that looks for the process that holds the winning ticket. -/
def scan (t : Table) (lotteryNumber : Nat) : List (Fin NPROC) → Nat → Option (Fin NPROC)
  | [], _ => none
  | p :: rest, count =>
    if (t p).state ≠ .runnable then scan t lotteryNumber rest count
    else
      let count := addTickets count (t p).tickets
      if count < lotteryNumber then scan t lotteryNumber rest count else some p

def winner (t : Table) (lotteryNumber : Nat) : Option (Fin NPROC) :=
  scan t lotteryNumber (List.finRange NPROC) 0

/-- The draw of a round, `none` when `random_at_most` does not return. -/
def lottery (t : Table) (outputs : List Nat) : Option (Option (Fin NPROC)) :=
  (randomAtMost (ticketSum t) outputs).map (winner t)

/-- Row `i` of a `pstat`. -/
def Pstat.setRow (ps : Pstat) (i : Nat) (inuse : Int) (p : Proc) : Pstat :=
  ⟨Function.update ps.inuse i inuse, Function.update ps.tickets i p.tickets,
    Function.update ps.pid i p.pid, Function.update ps.ticks i p.ticks⟩

/-- The loop at the head of a round. Its index is never advanced. -/
def fillPstat (t : Table) (ps : Pstat) : Pstat :=
  (List.finRange NPROC).foldl
    (fun ps p => ps.setRow 0 (if (t p).state = .unused then 0 else 1) (t p)) ps

/-- The loop of `getpinfo`, at row `i`. -/
def copyRows (t : Table) : List (Fin NPROC) → Nat → Pstat → Pstat
  | [], _, ps => ps
  | p :: rest, i, ps =>
    if (t p).state ≠ .unused then copyRows t rest (i + 1) (ps.setRow i (t p).inuse (t p))
    else copyRows t rest i ps

/-- What `getpinfo` leaves in the struct of its caller. -/
def getpinfo (t : Table) (procstate : Pstat) : Pstat := copyRows t (List.finRange NPROC) 0 procstate

def setpriority (t : Table) (pid priority : Int) : Table :=
  if priority < 0 ∨ MAXPRIORITY < priority then t
  else
    match (List.finRange NPROC).find? fun i => (t i).pid == pid with
    | none => t
    | some i => Function.update t i { t i with priority := priority, budget := DEFAULT_BUDGET }

def settickets (t : Table) (p : Fin NPROC) (numTickets : Int) : Table :=
  if numTickets < 0 ∨ MAXTICKET < numTickets then t
  else Function.update t p { t p with tickets := numTickets }

def wakeup1 (t : Table) (chan : Option Chan) : Table := fun p =>
  if (t p).state = .sleeping ∧ (t p).chan = chan then { t p with state := .runnable } else t p

def kill (t : Table) (pid : Int) : Table :=
  match (List.finRange NPROC).find? fun i => (t i).pid == pid with
  | none => t
  | some i =>
    let p := { t i with killed := true }
    Function.update t i (if p.state = .sleeping then { p with state := .runnable } else p)

/-- One turn of the loop in `exit` that passes children to `initproc`. -/
def abandon (initproc : Option (Fin NPROC)) (p : Fin NPROC) (t : Table) (i : Fin NPROC) : Table :=
  if (t i).parent = some p then
    let t := Function.update t i { t i with parent := initproc }
    if (t i).state = .zombie then wakeup1 t (initproc.map .slot) else t
  else t

def exit (t : Table) (initproc : Option (Fin NPROC)) (p : Fin NPROC) : Table :=
  let t := wakeup1 t ((t p).parent.map .slot)
  let t := (List.finRange NPROC).foldl (abandon initproc p) t
  Function.update t p { t p with state := .zombie }

def firstUnused (t : Table) : Option (Fin NPROC) :=
  (List.finRange NPROC).find? fun i => (t i).state == .unused

def firstZombie (t : Table) (p : Fin NPROC) : Option (Fin NPROC) :=
  (List.finRange NPROC).find? fun i => (t i).parent == some p && (t i).state == .zombie

def havekids (t : Table) (p : Fin NPROC) : Bool :=
  (List.finRange NPROC).any fun i => (t i).parent == some p

/-- The part of `allocproc` under the lock, for slot `p`. -/
def created (p : Proc) (pid : Int) : Proc :=
  { p with state := .embryo, pid := pid, tickets := 1, ticks := 0 }

def reaped (p : Proc) : Proc :=
  { p with pid := 0, parent := none, killed := false, state := .unused }

/-- After the process has switched back: one ticket more if it is still RUNNABLE. -/
def reward (p : Proc) : Proc :=
  if p.state = .runnable ∧ p.tickets < MAXTICKET then { p with tickets := p.tickets + 1 } else p

end Tables

section Model
variable {C : Type} [DecidableEq C]

def State.setProc (s : State C) (i : Fin NPROC) (p : Proc) : State C :=
  { s with proc := Function.update s.proc i p }

def State.setPc (s : State C) (p : Fin NPROC) (pc : Pc) : State C :=
  { s with pc := Function.update s.pc p pc }

def State.setCpu (s : State C) (c : C) (cpu : Cpu) : State C :=
  { s with cpu := Function.update s.cpu c cpu }

def State.setLock (s : State C) (lock : Option C) : State C := { s with lock := lock }

/-- Switch to the winner. A process that slept in `wait` goes on with the lock held; any
    other lets go of it first. -/
def dispatch (s : State C) (c : C) (p : Fin NPROC) : State C :=
  let s := { s.setCpu c (.ran p) with
    dispatched := Function.update s.dispatched p (s.dispatched p + 1) }
  let me := { s.proc p with state := .running }
  match s.pc p with
  | .waiting => (s.setProc p { me with chan := none }).setLock (some c)
  | .sleeping => (s.setProc p { me with chan := none }).setPc p .elsewhere
  | _ => s.setProc p me

def current (s : State C) (c : C) : Option (Fin NPROC) :=
  match s.cpu c with
  | .ran p => some p
  | _ => none

/-- `sched`: back to the scheduler of `c`, holding the lock. -/
def sched (s : State C) (c : C) (p : Fin NPROC) : State C := (s.setCpu c (.back p)).setLock (some c)

def wait (s : State C) (c : C) (p : Fin NPROC) : State C :=
  match firstZombie s.proc p with
  | some z => ((s.setProc z (reaped (s.proc z))).setPc p .elsewhere).setLock none
  | none =>
    if !(havekids s.proc p) || (s.proc p).killed then (s.setPc p .elsewhere).setLock none
    else
      sched ((s.setProc p { s.proc p with chan := some (.slot p), state := .sleeping }).setPc
        p .waiting) c p

def step (s : State C) : Action C → Option (State C)
  | .userinit c =>
    if s.cpu c = .boot ∧ s.lock = none then
      (firstUnused s.proc).map fun p =>
        let s := { s with nextpid := int (s.nextpid + 1), initproc := some p,
                          dispatched := Function.update s.dispatched p 0,
                          proc := Function.update s.proc p (created (s.proc p) s.nextpid) }
        s.setCpu c (.setup p)
    else none
  | .publishInit c =>
    match s.cpu c with
    | .setup p =>
      if s.lock = none then some ((s.setProc p { s.proc p with state := .runnable }).setCpu c .top)
      else none
    | _ => none
  | .round c outputs =>
    if s.cpu c = .top ∧ s.lock = none ∧ ∀ x ∈ outputs, x ≤ RAND_MAX then
      let s := { s with pstat := fillPstat s.proc s.pstat }
      (lottery s.proc outputs).map fun
        | none => s
        | some p => dispatch s c p
    else none
  | .resume c =>
    match s.cpu c with
    | .back p =>
      if s.lock = some c then
        some (((s.setProc p (reward (s.proc p))).setCpu c .top).setLock none)
      else none
    | _ => none
  | .yield c =>
    match current s c with
    | some p =>
      if s.lock = none then some (sched (s.setProc p { s.proc p with state := .runnable }) c p)
      else none
    | none => none
  | .sleep c addr =>
    match current s c with
    | some p =>
      if s.lock = none ∧ s.pc p = .elsewhere then
        let s := s.setProc p { s.proc p with chan := some (.other addr), state := .sleeping }
        some (sched (s.setPc p .sleeping) c p)
      else none
    | none => none
  | .wakeup chan => if s.lock = none then some { s with proc := wakeup1 s.proc (some chan) } else none
  | .kill c pid =>
    match current s c with
    | some _ => if s.lock = none then some { s with proc := kill s.proc pid } else none
    | none => none
  | .setpriority c pid priority =>
    match current s c with
    | some _ => some { s with proc := setpriority s.proc pid priority }
    | none => none
  | .settickets c numTickets =>
    match current s c with
    | some p => if s.lock = none then some { s with proc := settickets s.proc p numTickets } else none
    | none => none
  | .getpinfo c null =>
    match current s c with
    | some _ =>
      if s.lock = none then some (if null then s.setLock (some c) else s) else none
    | none => none
  | .allocproc c =>
    match current s c with
    | some p =>
      if s.lock = none ∧ s.pc p = .elsewhere then
        match firstUnused s.proc with
        | none => some s
        | some np =>
          let s := { s with nextpid := int (s.nextpid + 1),
                            dispatched := Function.update s.dispatched np 0,
                            proc := Function.update s.proc np (created (s.proc np) s.nextpid) }
          some (s.setPc p (.forking .allocated np))
      else none
    | none => none
  | .kalloc c ok =>
    match current s c with
    | some p =>
      match s.pc p with
      | .forking .allocated np =>
        if ok then some (s.setPc p (.forking .stacked np))
        else some ((s.setProc np { s.proc np with state := .unused }).setPc p .elsewhere)
      | _ => none
    | none => none
  | .copyuvm c ok =>
    match current s c with
    | some p =>
      match s.pc p with
      | .forking .stacked np =>
        if ok then
          let np' := { s.proc np with parent := some p, tickets := (s.proc p).tickets }
          some ((s.setProc np np').setPc p (.forking .copied np))
        else some ((s.setProc np { s.proc np with state := .unused }).setPc p .elsewhere)
      | _ => none
    | none => none
  | .publish c =>
    match current s c with
    | some p =>
      match s.pc p with
      | .forking .copied np =>
        if s.lock = none then
          some ((s.setProc np { s.proc np with state := .runnable }).setPc p .elsewhere)
        else none
      | _ => none
    | none => none
  | .exit c =>
    match current s c with
    | some p =>
      if s.lock = none ∧ s.pc p = .elsewhere ∧ some p ≠ s.initproc then
        some (sched { s with proc := exit s.proc s.initproc p } c p)
      else none
    | none => none
  | .wait c =>
    match current s c with
    | some p =>
      if (s.lock = none ∧ s.pc p = .elsewhere) ∨ (s.lock = some c ∧ s.pc p = .waiting) then
        some (wait s c p)
      else none
    | none => none

/-- At boot: an empty table and one CPU still in `main`. -/
def Start (s : State C) : Prop :=
  (∀ p, s.proc p = ⟨.unused, 0, none, none, false, 0, 0, 0, 0, 0⟩) ∧ (∀ p, s.pc p = .elsewhere) ∧
    s.nextpid = 1 ∧ s.lock = none ∧ ∃ c, s.cpu c = .boot ∧ ∀ d, d ≠ c → s.cpu d = .top

def system (C : Type) [DecidableEq C] : System (State C) (Action C) := ⟨Start, step⟩

end Model
end Lottery
