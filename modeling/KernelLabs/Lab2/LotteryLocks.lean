import KernelLabs.Lib.Wp
import KernelLabs.Lab2.Lottery

/-!
How the functions of `proc_lottery_v02.c` take and give back `ptable.lock`, seen from the
CPU that runs them. `others` are the tables as other CPUs and processes leave them, met in
turn at each `acquire` and each return from `sched`; a process that is never resumed, or
waits for more turns than `fuel`, does not return. What `fork` calls in other modules
(`filedup`, `idup`) is left out.
-/
namespace LotteryLocks
open Lottery Wp
open Xv6Proc (NPROC Procstate Chan)

/-- The state of one CPU: whether it holds `ptable.lock`, its depth of `pushcli`, and the
    table it sees. `procstate` is the struct the caller of `getpinfo` points to. -/
structure Machine where
  table : Table
  others : List Table
  holding : Bool
  ncli : Nat
  nextpid : Int
  procstate : Pstat

inductive Fault where
  | panic (message : String)
  | blocked
  deriving DecidableEq, Repr

abbrev KernelM := StateT Machine (Except Fault)

/-- What a call does not decide itself. -/
structure Env where
  fuel : Nat
  kalloc : Bool
  copyuvm : Bool
  sz : Nat

inductive Call where
  | fork
  | wait
  | kill (pid : Int)
  | wakeup (chan : Chan)
  | yield
  | setpriority (pid priority : Int)
  | getpriority (pid : Int)
  | settickets (numTickets : Int)
  | getpinfo (addr : Nat)
  deriving DecidableEq, Repr

section Calls

def pushcli : KernelM Unit := modify fun m => { m with ncli := m.ncli + 1 }

def popcli : KernelM Unit := do
  if (← get).ncli = 0 then throw (.panic "popcli")
  modify fun m => { m with ncli := m.ncli - 1 }

def acquire : KernelM Unit := do
  pushcli
  if (← get).holding then throw (.panic "acquire")
  modify fun m => { m with holding := true, table := m.others.headD m.table, others := m.others.tail }

def release : KernelM Unit := do
  if !(← get).holding then throw (.panic "release")
  modify fun m => { m with holding := false }
  popcli

def setTable (f : Table → Table) : KernelM Unit := modify fun m => { m with table := f m.table }

def setProc (p : Fin NPROC) (f : Proc → Proc) : KernelM Unit :=
  setTable fun t => Function.update t p (f (t p))

/-- The process is resumed by a scheduler that holds the lock at depth 1. -/
def sched (p : Fin NPROC) : KernelM Unit := do
  let m ← get
  if !m.holding then throw (.panic "sched ptable.lock")
  if m.ncli ≠ 1 then throw (.panic "sched locks")
  if (m.table p).state = .running then throw (.panic "sched running")
  match m.others with
  | [] => throw .blocked
  | t :: rest => set { m with table := t, others := rest, holding := true, ncli := 1 }

def allocproc (env : Env) : KernelM (Option (Fin NPROC)) := do
  acquire
  match firstUnused (← get).table with
  | none =>
    release
    pure none
  | some p =>
    let pid := (← get).nextpid
    setProc p fun me => created me pid
    modify fun m => { m with nextpid := int (m.nextpid + 1) }
    release
    if env.kalloc then pure (some p)
    else
      setProc p fun me => { me with state := .unused }
      pure none

def fork (env : Env) (curproc : Fin NPROC) : KernelM Int := do
  match ← allocproc env with
  | none => pure (-1)
  | some np =>
    if env.copyuvm then
      let tickets := ((← get).table curproc).tickets
      setProc np fun me => { me with parent := some curproc, tickets := tickets }
      let pid := ((← get).table np).pid
      acquire
      setProc np fun me => { me with state := .runnable }
      release
      pure pid
    else
      setProc np fun me => { me with state := .unused }
      pure (-1)

/-- `sleep` with `lk == &ptable.lock`. -/
def sleep (p : Fin NPROC) (chan : Chan) : KernelM Unit := do
  setProc p fun me => { me with chan := some chan, state := .sleeping }
  sched p
  setProc p fun me => { me with chan := none }

def waitLoop (curproc : Fin NPROC) : Nat → KernelM Int
  | 0 => throw .blocked
  | fuel + 1 => do
    let t := (← get).table
    match firstZombie t curproc with
    | some z =>
      setProc z reaped
      release
      pure (t z).pid
    | none =>
      if !(havekids t curproc) || (t curproc).killed then
        release
        pure (-1)
      else
        sleep curproc (.slot curproc)
        waitLoop curproc fuel

def wait (env : Env) (curproc : Fin NPROC) : KernelM Int := do
  acquire
  waitLoop curproc env.fuel

def kill (pid : Int) : KernelM Int := do
  acquire
  let t := (← get).table
  match (List.finRange NPROC).find? fun i => (t i).pid == pid with
  | some _ =>
    setTable fun t => Lottery.kill t pid
    release
    pure 0
  | none =>
    release
    pure (-1)

def wakeup (chan : Chan) : KernelM Int := do
  acquire
  setTable fun t => wakeup1 t (some chan)
  release
  pure 0

def yield (curproc : Fin NPROC) : KernelM Int := do
  acquire
  setProc curproc fun me => { me with state := .runnable }
  sched curproc
  release
  pure 0

def setpriority (pid priority : Int) : KernelM Int := do
  if priority < 0 ∨ MAXPRIORITY < priority then pure (-1)
  else
    let t := (← get).table
    setTable fun t => Lottery.setpriority t pid priority
    pure (if ((List.finRange NPROC).find? fun i => (t i).pid == pid).isSome then 0 else -1)

def getpriority (pid : Int) : KernelM Int := do
  let t := (← get).table
  match (List.finRange NPROC).find? fun i => (t i).pid == pid with
  | none => pure (-1)
  | some i => pure (if (t i).state = .unused then -1 else (t i).priority)

def settickets (curproc : Fin NPROC) (numTickets : Int) : KernelM Int := do
  if numTickets < 0 ∨ MAXTICKET < numTickets then pure (-1)
  else
    acquire
    setTable fun t => Lottery.settickets t curproc numTickets
    release
    pure 0

def getpinfo (procstate : Nat) : KernelM Int := do
  acquire
  if procstate = 0 then pure (-1)
  else
    modify fun m => { m with procstate := Lottery.getpinfo m.table m.procstate }
    release
    pure 0

/-- `sizeof(struct pstat)` -/
def sizeofPstat : Nat := 4 * (NPROC * 4)

/-- The test of `argptr` for an address inside a process of size `sz`. -/
def argptr (sz addr size : Nat) : Bool := !(decide (sz ≤ uint addr) || decide (sz < uint (addr + size)))

def sysGetpinfo (env : Env) (addr : Nat) : KernelM Int := do
  if argptr env.sz addr sizeofPstat then getpinfo (uint addr) else pure (-1)

def run (env : Env) (curproc : Fin NPROC) : Call → KernelM Int
  | .fork => fork env curproc
  | .wait => wait env curproc
  | .kill pid => kill pid
  | .wakeup chan => wakeup chan
  | .yield => yield curproc
  | .setpriority pid priority => setpriority pid priority
  | .getpriority pid => getpriority pid
  | .settickets numTickets => settickets curproc numTickets
  | .getpinfo addr => sysGetpinfo env addr

end Calls

section Balance
variable {n : Nat} {m : Machine}

/-- Out of the lock at depth `n`. -/
def Quiet (n : Nat) (m : Machine) : Prop := m.holding = false ∧ m.ncli = n

/-- Inside the lock, taken at depth `n`. -/
def Locked (n : Nat) (m : Machine) : Prop := m.holding = true ∧ m.ncli = n + 1

/-- Every result of the program `prog` from `m` is in `Q`. -/
abbrev Always {α : Type} (prog : KernelM α) (m : Machine) (Q : Machine → Prop) : Prop :=
  wp (fun _ => True) prog m fun _ m' => Q m'

theorem always_bind {α β : Type} {prog : KernelM α} {next : α → KernelM β} {P Q : Machine → Prop}
    (first : Always prog m P) (rest : ∀ a u, P u → Always (next a) u Q) :
    Always (prog >>= next) m Q := by
  unfold Always
  rw [wp_bind]
  exact wp_mono first rest

theorem always_get {β : Type} {next : Machine → KernelM β} {Q : Machine → Prop}
    (rest : Always (next m) m Q) : Always (get >>= next) m Q := rest

theorem acquire_spec (quiet : Quiet n m) : Always acquire m (Locked n) := by
  obtain ⟨out,depth⟩ := quiet
  simp [acquire, pushcli, out, Locked, depth]

theorem release_spec (locked : Locked n m) : Always release m (Quiet n) := by
  obtain ⟨inside,depth⟩ := locked
  simp [release, popcli, inside, depth, Quiet]

/-- `sched` insists on depth 1, the depth at which the process is resumed. -/
theorem sched_spec (p : Fin NPROC) (locked : Locked n m) : Always (sched p) m (Locked n) := by
  obtain ⟨inside,depth⟩ := locked
  by_cases one : m.ncli = 1
  · by_cases running : (m.table p).state = .running
    · simp [sched, inside, one, running]
    · cases resumed : m.others with
      | nil => simp [sched, inside, one, running, resumed]
      | cons t rest =>
        have zero : n = 0 := by omega
        simp [sched, inside, one, running, resumed, zero, Locked]
  · simp [sched, inside, one]

theorem setProc_locked {p : Fin NPROC} {f : Proc → Proc} (locked : Locked n m) :
    Always (setProc p f) m (Locked n) := locked

theorem setProc_quiet {p : Fin NPROC} {f : Proc → Proc} (quiet : Quiet n m) :
    Always (setProc p f) m (Quiet n) := quiet

/-- Give the lock back and return. -/
theorem leave_spec {α : Type} (result : α) (locked : Locked n m) :
    Always (do release; pure result) m (Quiet n) :=
  always_bind (release_spec locked) fun _ _ quiet => quiet

theorem allocproc_spec (env : Env) (quiet : Quiet n m) : Always (allocproc env) m (Quiet n) := by
  refine always_bind (acquire_spec quiet) fun _ u locked => always_get ?_
  split
  · exact leave_spec none locked
  · refine always_get (always_bind (setProc_locked locked) fun _ v locked => ?_)
    refine always_bind (P := Locked n) locked fun _ w locked => ?_
    refine always_bind (release_spec locked) fun _ x quiet => ?_
    split
    · exact quiet
    · exact always_bind (setProc_quiet quiet) fun _ _ quiet => quiet

theorem fork_spec (env : Env) (curproc : Fin NPROC) (quiet : Quiet n m) :
    Always (fork env curproc) m (Quiet n) := by
  refine always_bind (allocproc_spec env quiet) fun slot u quiet => ?_
  cases slot with
  | none => exact quiet
  | some np =>
    dsimp only
    split
    · refine always_get (always_bind (setProc_quiet quiet) fun _ v quiet => always_get ?_)
      refine always_bind (acquire_spec quiet) fun _ w locked => ?_
      exact always_bind (setProc_locked locked) fun _ x locked => leave_spec _ locked
    · exact always_bind (setProc_quiet quiet) fun _ _ quiet => quiet

theorem sleep_spec (p : Fin NPROC) (chan : Chan) (locked : Locked n m) :
    Always (sleep p chan) m (Locked n) := by
  refine always_bind (setProc_locked locked) fun _ u locked => ?_
  exact always_bind (sched_spec p locked) fun _ v locked => setProc_locked locked

theorem waitLoop_spec (curproc : Fin NPROC) (fuel : Nat) (locked : Locked n m) :
    Always (waitLoop curproc fuel) m (Quiet n) := by
  induction fuel generalizing m with
  | zero => trivial
  | succ fuel ih =>
    refine always_get ?_
    dsimp only
    split
    · exact always_bind (setProc_locked locked) fun _ u locked => leave_spec _ locked
    · split
      · exact leave_spec _ locked
      · exact always_bind (sleep_spec curproc _ locked) fun _ u locked => ih locked

theorem wait_spec (env : Env) (curproc : Fin NPROC) (quiet : Quiet n m) :
    Always (wait env curproc) m (Quiet n) :=
  always_bind (acquire_spec quiet) fun _ _ locked => waitLoop_spec curproc env.fuel locked

theorem kill_spec (pid : Int) (quiet : Quiet n m) : Always (kill pid) m (Quiet n) := by
  refine always_bind (acquire_spec quiet) fun _ u locked => always_get ?_
  dsimp only
  split
  · exact always_bind (P := Locked n) locked fun _ v locked => leave_spec _ locked
  · exact leave_spec _ locked

theorem wakeup_spec (chan : Chan) (quiet : Quiet n m) : Always (wakeup chan) m (Quiet n) := by
  refine always_bind (acquire_spec quiet) fun _ u locked => ?_
  exact always_bind (P := Locked n) locked fun _ v locked => leave_spec _ locked

theorem yield_spec (curproc : Fin NPROC) (quiet : Quiet n m) : Always (yield curproc) m (Quiet n) := by
  refine always_bind (acquire_spec quiet) fun _ u locked => ?_
  refine always_bind (setProc_locked locked) fun _ v locked => ?_
  exact always_bind (sched_spec curproc locked) fun _ w locked => leave_spec _ locked

theorem setpriority_spec (pid priority : Int) (quiet : Quiet n m) :
    Always (setpriority pid priority) m (Quiet n) := by
  unfold setpriority
  split
  · exact quiet
  · exact always_get quiet

theorem getpriority_spec (pid : Int) (quiet : Quiet n m) : Always (getpriority pid) m (Quiet n) := by
  refine always_get ?_
  dsimp only
  split <;> exact quiet

theorem settickets_spec (curproc : Fin NPROC) (numTickets : Int) (quiet : Quiet n m) :
    Always (settickets curproc numTickets) m (Quiet n) := by
  unfold settickets
  split
  · exact quiet
  · refine always_bind (acquire_spec quiet) fun _ u locked => ?_
    exact always_bind (P := Locked n) locked fun _ v locked => leave_spec _ locked

theorem getpinfo_spec (procstate : Nat) (quiet : Quiet n m) :
    Always (getpinfo procstate) m (if procstate = 0 then Locked n else Quiet n) := by
  refine always_bind (acquire_spec quiet) fun _ u locked => ?_
  split
  · exact locked
  · exact always_bind (P := Locked n) locked fun _ v locked => leave_spec _ locked

/-- `getpinfo` is called with the null pointer and `argptr` lets it pass. -/
def NullStruct (env : Env) : Call → Prop
  | .getpinfo addr => uint addr = 0 ∧ argptr env.sz addr sizeofPstat = true
  | _ => False

theorem run_spec (env : Env) (curproc : Fin NPROC) (call : Call) (other : ¬ NullStruct env call)
    (quiet : Quiet n m) : Always (run env curproc call) m (Quiet n) := by
  cases call with
  | fork => exact fork_spec env curproc quiet
  | wait => exact wait_spec env curproc quiet
  | kill pid => exact kill_spec pid quiet
  | wakeup chan => exact wakeup_spec chan quiet
  | yield => exact yield_spec curproc quiet
  | setpriority pid priority => exact setpriority_spec pid priority quiet
  | getpriority pid => exact getpriority_spec pid quiet
  | settickets numTickets => exact settickets_spec curproc numTickets quiet
  | getpinfo addr =>
    change Always (sysGetpinfo env addr) m (Quiet n)
    unfold sysGetpinfo
    by_cases passes : argptr env.sz addr sizeofPstat = true
    · have nonnull : uint addr ≠ 0 := fun null => other ⟨null,passes⟩
      rw [if_pos passes]
      have spec := getpinfo_spec (uint addr) quiet
      rwa [if_neg nonnull] at spec
    · rw [if_neg passes]
      exact quiet

theorem null_spec (env : Env) (curproc : Fin NPROC) (call : Call) (null : NullStruct env call)
    (quiet : Quiet n m) : Always (run env curproc call) m (Locked n) := by
  cases call with
  | getpinfo addr =>
    change Always (sysGetpinfo env addr) m (Locked n)
    unfold sysGetpinfo
    have spec := getpinfo_spec (uint addr) quiet
    rw [if_pos null.1] at spec
    rw [if_pos null.2]
    exact spec
  | _ => exact null.elim

/-- A call that returns leaves the lock and the depth of `pushcli` as it found them, unless
    it is `getpinfo` with the null pointer. -/
theorem locks_balanced_iff (env : Env) (curproc : Fin NPROC) (call : Call) {m' : Machine} {result : Int}
    (outside : m.holding = false) (returns : run env curproc call m = .ok (result, m')) :
    (m'.holding = false ∧ m'.ncli = m.ncli) ↔ ¬ NullStruct env call := by
  have quiet : Quiet m.ncli m := ⟨outside,rfl⟩
  by_cases null : NullStruct env call
  · have locked := wp_ok (null_spec env curproc call null quiet) returns
    constructor
    · intro balanced
      rw [locked.1] at balanced
      simp at balanced
    · exact fun other => absurd null other
  · have balanced := wp_ok (run_spec env curproc call null quiet) returns
    exact ⟨fun _ => null, fun _ => balanced⟩

end Balance

/-- A machine on which process 0 is in a system call. -/
def calling : Machine where
  table := fun p => if p = 0 then ⟨.running, 1, none, none, false, 0, 0, 1, 0, 0⟩
    else ⟨.unused, 0, none, none, false, 0, 0, 0, 0, 0⟩
  others := []
  holding := false
  ncli := 0
  nextpid := 2
  procstate := ⟨fun _ => 0, fun _ => 0, fun _ => 0, fun _ => 0⟩

def page : Env := ⟨1, true, true, 4096⟩

theorem fork_returns : ∃ m', run page 0 .fork calling = .ok (2, m') :=
  ⟨_, rfl⟩

theorem locks_balanced_iff_fork : ∃ m', run page 0 .fork calling = .ok (2, m') ∧
    ((m'.holding = false ∧ m'.ncli = calling.ncli) ↔ ¬ NullStruct page .fork) := by
  obtain ⟨m',returns⟩ := fork_returns
  exact ⟨m', returns, locks_balanced_iff page 0 .fork rfl returns⟩

/-- `getpinfo(0)` from a process of one page returns -1 and keeps the lock. -/
theorem getpinfo_null_keeps_lock : ∃ m', calling.holding = false ∧
    run page 0 (.getpinfo 0) calling = .ok (-1, m') ∧
    ¬ (m'.holding = false ∧ m'.ncli = calling.ncli) := by
  refine ⟨_, rfl, rfl, ?_⟩
  decide

end LotteryLocks
