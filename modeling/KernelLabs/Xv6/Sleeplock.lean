import KernelLabs.Xv6.SleepWakeup

/-!
Sleep-locks (`sleeplock.c`) as processes that follow the rules of `sleep` and `wakeup`. While a
process is in `acquiresleep` or `releasesleep` it does what these functions say; the rest of
the time it may take and release any lock, kill and yield, but leaves the sleep-locks alone.
-/
namespace Xv6Sleep
open Transition
open Xv6Proc (NPROC Procstate)

structure Sleeplock where
  locked : Nat
  pid : Int
  deriving DecidableEq, Repr

variable {K L C : Type}

/-- A sleep-lock is its own channel; `lk` is the spin lock inside. -/
def sleepGuards (ptable : L) (lk : C → L) : Guards L C Sleeplock := ⟨ptable, lk, fun _ d => d.locked == 0⟩

/-- Where a process is in the two functions: `test` is the loop of `acquiresleep`. -/
inductive Routine (C : Type) where
  | none
  | lock (c : C)
  | test (c : C)
  | setPid (c : C)
  | unlock (c : C)
  | clear (c : C)
  | clearPid (c : C)
  | wakeup (c : C)
  | release (c : C)
  deriving DecidableEq, Repr

/-- `acquiresleep` from `lock`, `releasesleep` from `unlock`: the next action and what comes
    after it. -/
def Routine.action (lk : C → L) (pid : Int) (data : C → Sleeplock) :
    Routine C → Option (Action L C Sleeplock × Routine C)
  | .none => Option.none
  | .lock c => some (.acquire (lk c), .test c)
  | .test c =>
    if (data c).locked ≠ 0 then some (.sleep c, .test c) else some (.work c { data c with locked := 1 }, .setPid c)
  | .setPid c => some (.work c { data c with pid := pid }, .release c)
  | .unlock c => some (.acquire (lk c), .clear c)
  | .clear c => some (.work c { data c with locked := 0 }, .clearPid c)
  | .clearPid c => some (.work c { data c with pid := 0 }, .wakeup c)
  | .wakeup c => some (.wakeup c, .release c)
  | .release _ => some (.release, .none)

structure LockState (K L C : Type) where
  base : State K L C Sleeplock
  routine : Fin NPROC → Routine C
  pid : Fin NPROC → Int

inductive LockEvent (K L C : Type) where
  | acquiresleep (k : K) (c : C)
  | releasesleep (k : K) (c : C)
  | go (k : K)
  | step (k : K)
  | yield (k : K)
  | acquire (k : K) (l : L)
  | release (k : K)
  | kill (k : K) (p : Fin NPROC)

section Steps
variable [DecidableEq K] [DecidableEq L] [DecidableEq C] (ptable : L) (lk : C → L)

/-- The processor runs a process that is in neither function. -/
def LockState.idle (s : LockState K L C) (k : K) : Option (Fin NPROC) :=
  match s.base.mode k with
  | .run p => if s.routine p = .none then some p else none
  | _ => none

def LockState.act (s : LockState K L C) (k : K) (a : Action L C Sleeplock) : Option (LockState K L C) :=
  (next (sleepGuards ptable lk) s.base (k, a)).map fun b => { s with base := b }

/-- A call of one of the two functions. -/
def LockState.enter (s : LockState K L C) (k : K) (r : Routine C) : Option (LockState K L C) :=
  (s.idle k).bind fun p =>
    if s.base.pc p = .out none then some { s with routine := Function.update s.routine p r } else none

def nextLock (s : LockState K L C) : LockEvent K L C → Option (LockState K L C)
  | .acquiresleep k c => s.enter k (.lock c)
  | .releasesleep k c => s.enter k (.unlock c)
  | .go k =>
    match s.base.mode k with
    | .run p =>
      ((s.routine p).action lk (s.pid p) s.base.data).bind fun x =>
        (s.act ptable lk k x.1).map fun t => { t with routine := Function.update t.routine p x.2 }
    | _ => none
  | .step k => s.act ptable lk k .step
  | .yield k => s.act ptable lk k .yield
  | .acquire k l => (s.idle k).bind fun _ => s.act ptable lk k (.acquire l)
  | .release k => (s.idle k).bind fun _ => s.act ptable lk k .release
  | .kill k q => (s.idle k).bind fun _ => s.act ptable lk k (.kill q)

def StartLock (s : LockState K L C) : Prop := Start s.base ∧ ∀ p, s.routine p = .none

def sleeplockSystem : System (LockState K L C) (LockEvent K L C) := ⟨StartLock, nextLock ptable lk⟩

variable {ptable lk} {s t : LockState K L C} {k : K}

theorem act_base {a : Action L C Sleeplock} (run : s.act ptable lk k a = some t) :
    next (sleepGuards ptable lk) s.base (k, a) = some t.base := by
  obtain ⟨b,step,rfl⟩ := Option.map_eq_some_iff.mp run
  exact step

omit [DecidableEq K] in
theorem enter_base {r : Routine C} (run : s.enter k r = some t) : t.base = s.base := by
  obtain ⟨p,_,run⟩ := Option.bind_eq_some_iff.mp run
  simp only [Option.ite_none_right_eq_some, Option.some.injEq] at run
  rw [← run.2]

/-- A step of the sleep-locks is a step of `sleep` and `wakeup`, or a call. -/
theorem nextLock_base {e : LockEvent K L C} (run : nextLock ptable lk s e = some t) :
    t.base = s.base ∨ ∃ a, next (sleepGuards ptable lk) s.base a = some t.base := by
  cases e with
  | acquiresleep k c => exact Or.inl (enter_base run)
  | releasesleep k c => exact Or.inl (enter_base run)
  | go k =>
    simp only [nextLock] at run
    split at run
    · obtain ⟨x,_,run⟩ := Option.bind_eq_some_iff.mp run
      obtain ⟨u,act,rfl⟩ := Option.map_eq_some_iff.mp run
      exact Or.inr ⟨(k, x.1), (act_base act : next _ s.base (k, x.1) = some u.base)⟩
    · simp at run
  | step k => exact Or.inr ⟨_, act_base run⟩
  | yield k => exact Or.inr ⟨_, act_base run⟩
  | acquire k l =>
    obtain ⟨_,_,run⟩ := Option.bind_eq_some_iff.mp run
    exact Or.inr ⟨_, act_base run⟩
  | release k =>
    obtain ⟨_,_,run⟩ := Option.bind_eq_some_iff.mp run
    exact Or.inr ⟨_, act_base run⟩
  | kill k q =>
    obtain ⟨_,_,run⟩ := Option.bind_eq_some_iff.mp run
    exact Or.inr ⟨_, act_base run⟩

theorem lock_inv (reach : (sleeplockSystem ptable lk).Reach System.Free s) :
    SleepInv (sleepGuards ptable lk) s.base := by
  refine System.reach_invariant (sleeplockSystem ptable lk) (I := fun s => SleepInv (sleepGuards ptable lk) s.base)
    (fun _ start => start_inv start.1) (fun u _ v before _ run => ?_) reach
  rcases nextLock_base run with same | ⟨a,step⟩
  · rw [same]
    exact before
  · exact next_inv before step

end Steps

section Main
variable [DecidableEq K] [DecidableEq L] [DecidableEq C] {δ : Type}

/-- No process sleeps on a channel whose condition is true, unless the one that made it true is
    still at its `wakeup`; so none sleeps in `acquiresleep` on a sleep-lock that is not locked. -/
theorem no_lost_wakeup : (∀ (g : Guards L C δ) (s : State K L C δ), (sleepSystem g).Reach System.Free s → ∀ c,
      (∀ p, ¬ Waking c (s.pc p)) →
      ∀ q, ¬ (s.state q = .sleeping ∧ s.chan q = some c ∧ g.cond c (s.data c) = true)) ∧
    ∀ (ptable : L) (lk : C → L) (s : LockState K L C), (sleeplockSystem ptable lk).Reach System.Free s → ∀ c,
      (∀ p, ¬ Waking c (s.base.pc p)) →
      ∀ q, ¬ (s.base.state q = .sleeping ∧ s.base.chan q = some c ∧ (s.base.data c).locked = 0) := by
  constructor
  · intro g s reach c finished q
    exact no_sleeper (reach_inv reach) finished q
  · intro ptable lk s reach c finished q sleeper
    refine no_sleeper (lock_inv reach) finished q ⟨sleeper.1, sleeper.2.1, ?_⟩
    simp [sleepGuards, sleeper.2.2]

/-- Two processors, one sleep-lock, and two processes. -/
def fresh : LockState Bool Bool Unit where
  base := {
    owner := fun _ => none
    mode := fun _ => .out
    pc := fun _ => .yieldRelease none
    state := fun p => if p.val < 2 then .runnable else .unused
    chan := fun _ => none
    data := fun _ => ⟨0, 0⟩ }
  routine := fun _ => .none
  pid := fun p => p.val + 1

/-- The first process takes the sleep-lock; the second, on the other processor, sleeps on it. -/
def dozingEvents : List (LockEvent Bool Bool Unit) :=
  [.step false, .step false, .step false, .acquiresleep false (), .go false, .go false, .go false, .go false,
   .step true, .step true, .step true, .step true, .acquiresleep true (), .go true, .go true] ++
  List.replicate 5 (.step true)

def dozing : LockState Bool Bool Unit :=
  (System.exec (nextLock false fun _ => true) fresh dozingEvents).get (by decide +kernel)

theorem no_lost_wakeup_dozing : (dozing.base.state ⟨1, by decide⟩ = .sleeping ∧
    dozing.base.chan ⟨1, by decide⟩ = some () ∧ (dozing.base.data ()).locked = 1) ∧
    ∀ q, ¬ (dozing.base.state q = .sleeping ∧ dozing.base.chan q = some () ∧ (dozing.base.data ()).locked = 0) := by
  have start : StartLock fresh :=
    ⟨⟨fun _ => rfl, fun _ => rfl, fun _ => rfl, by decide, fun _ => rfl⟩, fun _ => rfl⟩
  have reach : (sleeplockSystem false fun _ => true).Reach System.Free dozing :=
    System.exec_reach _ (fun _ _ _ => trivial) (.start start) (Option.some_get _).symm
  refine ⟨by decide, (no_lost_wakeup (δ := Unit)).2 false (fun _ => true) dozing reach () fun p waking => ?_⟩
  have places : ∀ p, dozing.base.pc p = .out none ∨ dozing.base.pc p = .tidy () ∨ dozing.base.pc p = .yieldRelease none := by
    decide +kernel
  rcases places p with place | place | place <;> rw [place] at waking <;> exact waking

end Main
end Xv6Sleep
