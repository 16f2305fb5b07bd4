import KernelLabs.Lab2.Mlfq

/-!
The first version of the multi-level feedback queue scheduler (lab-2
`proc_mlfq_v01.c`). It queues a process when it is created and takes the first entry of
a level before it looks at the process. The steps are those of the second version.
`overran` records that an array of entries has been written past its end, `panicked`
that `exit` has gone on past `sched`; no step is taken after either. `woken` is history:
the last sleep of the process was ended by `wakeup1` or `kill`.
-/
namespace MlfqFirst
open Transition
open Xv6Proc (NPROC Procstate Chan Stage)
open Mlfq (MAXPRIORITY DEFAULT_BUDGET TICKS_TO_PROMOTE Action uint int)

structure Proc where
  state : Procstate
  pid : Int
  parent : Option (Fin NPROC)
  chan : Option Chan
  killed : Bool
  priority : Int
  original_priority : Int
  budget : Int
  woken : Bool
  deriving DecidableEq, Repr

/-- The process table with the first `mlfq_queue_size` entries of each `mlfq_queue`. -/
structure Table where
  proc : Fin NPROC → Proc
  queue : Int → List (Fin NPROC)
  overran : Bool

/-- Where a process goes on when it is next switched to. -/
inductive Pc where
  | elsewhere
  | sleeping
  | waiting
  | exited
  | forking (stage : Stage) (np : Fin NPROC)
  deriving DecidableEq, Repr

/-- Where a CPU is: in `main` before or inside `userinit`, at the head of the loop of
    `scheduler`, at level `i`, or with a process taken from there at time `start` that
    runs or has just switched back. -/
inductive Cpu where
  | boot
  | setup (p : Fin NPROC)
  | top
  | scan (i : Nat)
  | ran (i start : Nat) (p : Fin NPROC)
  | back (i start : Nat) (p : Fin NPROC)
  deriving DecidableEq, Repr

structure State (C : Type) extends Table where
  pc : Fin NPROC → Pc
  initproc : Option (Fin NPROC)
  nextpid : Int
  ticks : Nat
  promoteAtTime : Nat
  cpu : C → Cpu
  lock : Option C
  panicked : Bool

section Tables

def Table.set (t : Table) (i : Fin NPROC) (p : Proc) : Table :=
  { t with proc := Function.update t.proc i p }

def Table.setQueue (t : Table) (l : Int) (q : List (Fin NPROC)) : Table :=
  { t with queue := Function.update t.queue l q }

/-- Write `p` at index `mlfq_queue_size[l]` and count it. -/
def append (t : Table) (l : Int) (p : Fin NPROC) : Table :=
  { t.setQueue l (t.queue l ++ [p]) with
    overran := t.overran || decide (NPROC ≤ (t.queue l).length) }

/-- The loops that take the first entry of `p` out of the level of its priority. -/
def remove (t : Table) (p : Fin NPROC) : Table :=
  let l := (t.proc p).priority
  t.setQueue l ((t.queue l).erase p)

/-- The label `found` in `allocproc`, up to the release of the lock. -/
def found (t : Table) (np : Fin NPROC) (pid : Int) : Table :=
  append (t.set np { t.proc np with
    state := .embryo, pid := pid, priority := MAXPRIORITY, original_priority := MAXPRIORITY
    budget := DEFAULT_BUDGET }) MAXPRIORITY np

def promoteOne (t : Table) (p : Fin NPROC) : Table :=
  let l := (t.proc p).priority
  if (t.proc p).state ≠ .zombie ∧ l < MAXPRIORITY then
    append ((remove t p).set p { t.proc p with
      original_priority := l, priority := l + 1, budget := DEFAULT_BUDGET }) (l + 1) p
  else t

def promote (t : Table) : Table := (List.finRange NPROC).foldl promoteOne t

/-- One turn of `wakeup1`, which queues the process without looking for it. -/
def wakeOne (chan : Option Chan) (t : Table) (p : Fin NPROC) : Table :=
  if (t.proc p).state = .sleeping ∧ (t.proc p).chan = chan then
    append (t.set p { t.proc p with state := .runnable, woken := true })
      (t.proc p).original_priority p
  else t

def wakeup1 (t : Table) (chan : Option Chan) : Table :=
  (List.finRange NPROC).foldl (wakeOne chan) t

/-- With budget left: shift the entry of `p` out of its level and write `p` behind the
    last entry, which stays where it was. The size is not changed, so what was written is
    not in the queue. -/
def toTail (t : Table) (p : Fin NPROC) : Table :=
  let l := (t.proc p).priority
  let q := t.queue l
  if q.contains p then
    { t.setQueue l (q.erase p ++ q.getLast?.toList) with
      overran := t.overran || decide (NPROC ≤ q.length) }
  else t

/-- With the budget used up: one level down, if there is one, and to its tail. -/
def demote (t : Table) (p : Fin NPROC) : Table :=
  let t := remove t p
  let l := (t.proc p).priority
  if 0 < l then
    append (t.set p { t.proc p with
      priority := l - 1, budget := DEFAULT_BUDGET, original_priority := l - 1 }) (l - 1) p
  else append t l p

/-- After the process has switched back: charge the time it ran, and make it `RUNNABLE`. -/
def requeue (t : Table) (p : Fin NPROC) (ran : Int) : Table :=
  let t := t.set p { t.proc p with budget := int ((t.proc p).budget - ran) }
  let t := if (t.proc p).budget ≤ 0 then demote t p else toTail t p
  t.set p { t.proc p with state := .runnable }

def kill (t : Table) (pid : Int) : Table :=
  match (List.finRange NPROC).find? fun i => (t.proc i).pid == pid with
  | none => t
  | some i =>
    let p := { t.proc i with killed := true }
    t.set i (if p.state = .sleeping then { p with state := .runnable, woken := true } else p)

/-- One turn of the loop in `exit` that passes children to `initproc`. -/
def abandon (initproc : Option (Fin NPROC)) (p : Fin NPROC) (t : Table) (i : Fin NPROC) : Table :=
  if (t.proc i).parent = some p then
    let t := t.set i { t.proc i with parent := initproc }
    if (t.proc i).state = .zombie then wakeup1 t (initproc.map .slot) else t
  else t

def exit (t : Table) (initproc : Option (Fin NPROC)) (p : Fin NPROC) : Table :=
  let t := wakeup1 t ((t.proc p).parent.map .slot)
  let t := (List.finRange NPROC).foldl (abandon initproc p) t
  remove (t.set p { t.proc p with state := .zombie }) p

def firstUnused (t : Table) : Option (Fin NPROC) :=
  (List.finRange NPROC).find? fun i => (t.proc i).state == .unused

def firstZombie (t : Table) (p : Fin NPROC) : Option (Fin NPROC) :=
  (List.finRange NPROC).find? fun i => (t.proc i).parent == some p && (t.proc i).state == .zombie

def havekids (t : Table) (p : Fin NPROC) : Bool :=
  (List.finRange NPROC).any fun i => (t.proc i).parent == some p

def reap (t : Table) (z : Fin NPROC) : Table :=
  t.set z { t.proc z with pid := 0, parent := none, killed := false, state := .unused }

/-- `sleep`, up to `sched`. -/
def doze (t : Table) (p : Fin NPROC) (chan : Chan) : Table :=
  t.set p { t.proc p with chan := some chan, state := .sleeping, woken := false }

def setState (t : Table) (p : Fin NPROC) (state : Procstate) : Table :=
  t.set p { t.proc p with state := state }

def setpriority (t : Table) (pid priority : Int) : Table :=
  if priority < 0 ∨ MAXPRIORITY < priority then t
  else
    match (List.finRange NPROC).find? fun i => (t.proc i).pid == pid with
    | none => t
    | some i => t.set i { t.proc i with priority := priority, budget := DEFAULT_BUDGET }

end Tables

section Model
variable {C : Type} [DecidableEq C]

def State.setCpu (s : State C) (c : C) (cpu : Cpu) : State C :=
  { s with cpu := Function.update s.cpu c cpu }

def State.setPc (s : State C) (p : Fin NPROC) (pc : Pc) : State C :=
  { s with pc := Function.update s.pc p pc }

def State.onTable (s : State C) (f : Table → Table) : State C := { s with toTable := f s.toTable }

def State.setLock (s : State C) (lock : Option C) : State C := { s with lock := lock }

/-- The head of the loop of `scheduler`, with the promotion pass. -/
def acquire (s : State C) (c : C) : State C :=
  let s := (s.setCpu c (.scan 2)).setLock (some c)
  if s.promoteAtTime ≤ s.ticks then
    { s.onTable promote with promoteAtTime := uint (s.ticks + TICKS_TO_PROMOTE) }
  else s

/-- Switch to `p`, whose entry was taken out of level `i`. A process that slept in `wait`
    goes on with the lock held, any other lets go of it first, and one that has exited
    finds itself behind `sched`. -/
def dispatch (s : State C) (c : C) (i : Nat) (p : Fin NPROC) : State C :=
  let s := s.setCpu c (.ran i s.ticks p)
  let me := { s.proc p with state := .running }
  match s.pc p with
  | .waiting => s.onTable fun t => t.set p { me with chan := none }
  | .sleeping => ((s.onTable fun t => t.set p { me with chan := none }).setPc p .elsewhere).setLock none
  | .exited => { s.onTable fun t => t.set p me with panicked := true }
  | _ => (s.onTable fun t => t.set p me).setLock none

/-- The process running on `c`. -/
def current (s : State C) (c : C) : Option (Fin NPROC) :=
  match s.cpu c with
  | .ran _ _ p => some p
  | _ => none

/-- `sched`: back to the scheduler of `c`, holding the lock. -/
def sched (s : State C) (c : C) : State C :=
  match s.cpu c with
  | .ran i start p => (s.setCpu c (.back i start p)).setLock (some c)
  | _ => s

def wait (s : State C) (c : C) (p : Fin NPROC) : State C :=
  match firstZombie s.toTable p with
  | some z => ((s.onTable fun t => reap t z).setPc p .elsewhere).setLock none
  | none =>
    if !(havekids s.toTable p) || (s.proc p).killed then (s.setPc p .elsewhere).setLock none
    else sched ((s.onTable fun t => doze t p (.slot p)).setPc p .waiting) c

/-- `allocproc` finds `np` for the process `p`; `np` will start in `forkret`. -/
def allocate (s : State C) (p np : Fin NPROC) : State C :=
  let s' := s.onTable fun t => found t np s.nextpid
  { (s'.setPc np .elsewhere).setPc p (.forking .allocated np) with
    nextpid := int (s.nextpid + 1) }

def step (s : State C) : Action C → Option (State C)
  | .userinit c =>
    if s.cpu c = .boot ∧ s.lock = none then
      match firstUnused s.toTable with
      | none => none
      | some p =>
        let s' := (s.onTable fun t => found t p s.nextpid).setPc p .elsewhere
        some { s'.setCpu c (.setup p) with nextpid := int (s.nextpid + 1), initproc := some p }
    else none
  | .publishInit c =>
    match s.cpu c with
    | .setup p =>
      if s.lock = none then
        let s' := s.onTable fun t => setState t p .runnable
        some { s'.setCpu c .top with promoteAtTime := uint (s.ticks + TICKS_TO_PROMOTE) }
      else none
    | _ => none
  | .tick => some { s with ticks := uint (s.ticks + 1) }
  | .acquire c => if s.cpu c = .top ∧ s.lock = none then some (acquire s c) else none
  | .scan c =>
    match s.cpu c with
    | .scan i =>
      if s.lock = some c then
        match s.queue i with
        | p :: rest =>
          let s' := s.onTable fun t => t.setQueue i rest
          some (if (s.proc p).state = .runnable then dispatch s' c i p else s')
        | [] =>
          match i with
          | 0 => some ((s.setCpu c .top).setLock none)
          | i + 1 => some (s.setCpu c (.scan i))
      else none
    | _ => none
  | .requeue c =>
    match s.cpu c with
    | .back i start p =>
      if s.lock = some c then
        some ((s.onTable fun t => requeue t p (int (s.ticks - start))).setCpu c (.scan i))
      else none
    | _ => none
  | .yield c =>
    match current s c with
    | some p =>
      if s.lock = none then some (sched (s.onTable fun t => setState t p .runnable) c) else none
    | none => none
  | .sleep c addr =>
    match current s c with
    | some p =>
      if s.lock = none ∧ s.pc p = .elsewhere then
        some (sched ((s.onTable fun t => doze t p (.other addr)).setPc p .sleeping) c)
      else none
    | none => none
  | .wakeup chan =>
    if s.lock = none then some (s.onTable fun t => wakeup1 t (some chan)) else none
  | .kill c pid =>
    match current s c with
    | some _ => if s.lock = none then some (s.onTable fun t => kill t pid) else none
    | none => none
  | .setpriority c pid priority =>
    match current s c with
    | some p =>
      if s.pc p = .elsewhere ∧ s.lock ≠ some c then
        some (s.onTable fun t => setpriority t pid priority)
      else none
    | none => none
  | .allocproc c =>
    match current s c with
    | some p =>
      if s.lock = none ∧ s.pc p = .elsewhere then
        match firstUnused s.toTable with
        | none => some s
        | some np => some (allocate s p np)
      else none
    | none => none
  | .kalloc c ok =>
    match current s c with
    | some p =>
      match s.pc p with
      | .forking .allocated np =>
        if ok then some (s.setPc p (.forking .stacked np))
        else some ((s.onTable fun t => setState t np .unused).setPc p .elsewhere)
      | _ => none
    | none => none
  | .copyuvm c ok =>
    match current s c with
    | some p =>
      match s.pc p with
      | .forking .stacked np =>
        if ok then
          let s' := s.onTable fun t => t.set np { t.proc np with parent := some p }
          some (s'.setPc p (.forking .copied np))
        else some ((s.onTable fun t => setState t np .unused).setPc p .elsewhere)
      | _ => none
    | none => none
  | .publish c =>
    match current s c with
    | some p =>
      match s.pc p with
      | .forking .copied np =>
        if s.lock = none then
          some ((s.onTable fun t => setState t np .runnable).setPc p .elsewhere)
        else none
      | _ => none
    | none => none
  | .exit c =>
    match current s c with
    | some p =>
      if s.lock = none ∧ s.pc p = .elsewhere ∧ some p ≠ s.initproc then
        some (sched ((s.onTable fun t => exit t s.initproc p).setPc p .exited) c)
      else none
    | none => none
  | .wait c =>
    match current s c with
    | some p =>
      if (s.lock = none ∧ s.pc p = .elsewhere) ∨ (s.lock = some c ∧ s.pc p = .waiting) then
        some (wait s c p)
      else none
    | none => none

def next (s : State C) (a : Action C) : Option (State C) :=
  if s.overran || s.panicked then none else step s a

/-- At boot: an empty table, empty queues, and one CPU still in `main`. -/
def Start (s : State C) : Prop :=
  (∀ p, s.proc p = ⟨.unused, 0, none, none, false, 0, 0, 0, false⟩) ∧ (∀ l, s.queue l = []) ∧
    s.overran = false ∧ (∀ p, s.pc p = .elsewhere) ∧ s.initproc = none ∧ s.nextpid = 1 ∧
    s.ticks = 0 ∧ s.promoteAtTime = 0 ∧ s.lock = none ∧ s.panicked = false ∧
    ∃ c, s.cpu c = .boot ∧ ∀ d, d ≠ c → s.cpu d = .top

def system (C : Type) [DecidableEq C] : System (State C) (Action C) := ⟨Start, next⟩

end Model
end MlfqFirst
