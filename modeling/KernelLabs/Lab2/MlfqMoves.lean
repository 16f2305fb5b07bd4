import KernelLabs.Lab2.Mlfq

/-!
What one step of the MLFQ scheduler can do, said once: each way a step can succeed,
with the guards it has passed and the state it leaves. Proofs about runs go through
the cases of `Moves` and never unfold `step`.
-/
namespace MlfqMoves
open Mlfq ArrayQueue
open Xv6Proc (NPROC Procstate Chan Stage Pc)
variable {C : Type} [DecidableEq C]

inductive Moves (s : State C) : Action C → State C → Prop where
  | userinit {c : C} {p : Fin NPROC} (place : s.cpu c = .boot) (free : s.lock = none)
      (unused : (s.proc p).state = .unused) :
      Moves s (.userinit c)
        { (s.onTable fun t => t.set p { t.proc p with state := .embryo, pid := s.nextpid }).setCpu
            c (.setup p) with nextpid := int (s.nextpid + 1), initproc := some p }
  | publishInit {c : C} {p : Fin NPROC} (place : s.cpu c = .setup p) (free : s.lock = none) :
      Moves s (.publishInit c)
        { (s.onTable fun t => t.set p { t.proc p with state := .runnable }).setCpu c .top with
            promoteAtTime := uint (s.ticks + TICKS_TO_PROMOTE) }
  | tick : Moves s .tick { s with ticks := uint (s.ticks + 1) }
  | acquire {c : C} (place : s.cpu c = .top) (free : s.lock = none) :
      Moves s (.acquire c) (Mlfq.acquire s c)
  | release {c : C} {i k : Nat} {check : Bool} (place : s.cpu c = .scan i k check)
      (mine : s.lock = some c) (nobody : search s.toTable i k check = none) :
      Moves s (.scan c) ((s.setCpu c .top).setLock none)
  | dispatch {c : C} {i k i' k' : Nat} {check : Bool} {p : Fin NPROC}
      (place : s.cpu c = .scan i k check) (mine : s.lock = some c)
      (found : search s.toTable i k check = some (i', k'))
      (cell : (s.queue i').cell k' = some p) :
      Moves s (.scan c) (Mlfq.dispatch s c i' k' p)
  | requeue {c : C} {i k start : Nat} {p : Fin NPROC} (place : s.cpu c = .back i k start p)
      (mine : s.lock = some c) :
      Moves s (.requeue c)
        ((s.onTable fun t => Mlfq.requeue t p (int (s.ticks - start))).setCpu c (.scan i (k + 1) true))
  | yield {c : C} {i k start : Nat} {p : Fin NPROC} (place : s.cpu c = .ran i k start p)
      (free : s.lock = none) :
      Moves s (.yield c) (sched (s.onTable fun t => t.set p { t.proc p with state := .runnable }) c)
  | sleep {c : C} {addr i k start : Nat} {p : Fin NPROC} (place : s.cpu c = .ran i k start p)
      (free : s.lock = none) (pc : s.pc p = .elsewhere) :
      Moves s (.sleep c addr) (sched ((s.onTable fun t =>
        t.set p { t.proc p with chan := some (.other addr), state := .sleeping }).setPc p .sleeping) c)
  | wakeup {chan : Chan} (free : s.lock = none) :
      Moves s (.wakeup chan) (s.onTable fun t => wakeup1 t (some chan))
  | kill {c : C} {pid : Int} {i k start : Nat} {p : Fin NPROC} (place : s.cpu c = .ran i k start p)
      (free : s.lock = none) : Moves s (.kill c pid) (s.onTable fun t => Mlfq.kill t pid)
  | setpriority {c : C} {pid priority : Int} {i k start : Nat} {p : Fin NPROC}
      (place : s.cpu c = .ran i k start p) (other : s.lock ≠ some c) :
      Moves s (.setpriority c pid priority) (s.onTable fun t => Mlfq.setpriority t pid priority)
  | full {c : C} {i k start : Nat} {p : Fin NPROC} (place : s.cpu c = .ran i k start p)
      (free : s.lock = none) : Moves s (.allocproc c) s
  | allocproc {c : C} {i k start : Nat} {p np : Fin NPROC} (place : s.cpu c = .ran i k start p)
      (free : s.lock = none) (pc : s.pc p = .elsewhere) (unused : (s.proc np).state = .unused) :
      Moves s (.allocproc c)
        { (s.onTable fun t => t.set np { t.proc np with state := .embryo, pid := s.nextpid }).setPc
            p (.forking .allocated np) with nextpid := int (s.nextpid + 1) }
  | kalloc {c : C} {i k start : Nat} {p np : Fin NPROC} (place : s.cpu c = .ran i k start p)
      (pc : s.pc p = .forking .allocated np) :
      Moves s (.kalloc c true) (s.setPc p (.forking .stacked np))
  | copyuvm {c : C} {i k start : Nat} {p np : Fin NPROC} (place : s.cpu c = .ran i k start p)
      (pc : s.pc p = .forking .stacked np) :
      Moves s (.copyuvm c true)
        ((s.onTable fun t => t.set np { t.proc np with parent := some p }).setPc p (.forking .copied np))
  | discard {c : C} {a : Action C} {stage : Stage} {i k start : Nat} {p np : Fin NPROC}
      (place : s.cpu c = .ran i k start p) (pc : s.pc p = .forking stage np)
      (failed : a = .kalloc c false ∨ a = .copyuvm c false) :
      Moves s a ((s.onTable fun t => t.set np { t.proc np with state := .unused }).setPc p .elsewhere)
  | publish {c : C} {i k start : Nat} {p np : Fin NPROC} (place : s.cpu c = .ran i k start p)
      (free : s.lock = none) (pc : s.pc p = .forking .copied np) :
      Moves s (.publish c) ((s.onTable fun t => Mlfq.publish t np).setPc p .elsewhere)
  | exit {c : C} {i k start : Nat} {p : Fin NPROC} (place : s.cpu c = .ran i k start p)
      (free : s.lock = none) :
      Moves s (.exit c) (sched (s.onTable fun t => Mlfq.exit t s.initproc p) c)
  | wait {c : C} {i k start : Nat} {p : Fin NPROC} (place : s.cpu c = .ran i k start p)
      (free : s.lock = none ∨ s.lock = some c) : Moves s (.wait c) (Mlfq.wait s c p)

omit [DecidableEq C] in
theorem current_some {s : State C} {c : C} {i k start : Nat} {p : Fin NPROC}
    (here : current s c = some (i, k, start, p)) : s.cpu c = .ran i k start p := by
  unfold current at here
  split at here
  · rename_i place
    simp only [Option.some.injEq, Prod.mk.injEq] at here
    obtain ⟨rfl,rfl,rfl,rfl⟩ := here
    exact place
  · simp at here

theorem step_moves {s t : State C} {a : Action C} (run : step s a = some t) : Moves s a t := by
  cases a with
  | userinit c =>
    simp only [step] at run
    split at run
    · rename_i guard
      split at run
      · simp at run
      · rename_i p found
        have unused := List.find?_some found
        simp only [beq_iff_eq] at unused
        simp only [Option.some.injEq] at run
        exact run ▸ Moves.userinit guard.1 guard.2 unused
    · simp at run
  | publishInit c =>
    simp only [step] at run
    split at run
    · rename_i p place
      split at run
      · rename_i free
        simp only [Option.some.injEq] at run
        exact run ▸ Moves.publishInit place free
      · simp at run
    · simp at run
  | tick =>
    simp only [step, Option.some.injEq] at run
    exact run ▸ Moves.tick
  | acquire c =>
    simp only [step] at run
    split at run
    · rename_i guard
      simp only [Option.some.injEq] at run
      exact run ▸ Moves.acquire guard.1 guard.2
    · simp at run
  | scan c =>
    simp only [step] at run
    split at run
    · rename_i i k check place
      split at run
      · rename_i mine
        split at run
        · rename_i nobody
          simp only [Option.some.injEq] at run
          exact run ▸ Moves.release place mine nobody
        · rename_i found
          simp only [Option.map_eq_some_iff] at run
          obtain ⟨p,cell,done⟩ := run
          exact done ▸ Moves.dispatch place mine found cell
      · simp at run
    · simp at run
  | requeue c =>
    simp only [step] at run
    split at run
    · rename_i i k start p place
      split at run
      · rename_i mine
        simp only [Option.some.injEq] at run
        exact run ▸ Moves.requeue place mine
      · simp at run
    · simp at run
  | yield c =>
    simp only [step] at run
    split at run
    · rename_i i k start p here
      split at run
      · rename_i free
        simp only [Option.some.injEq] at run
        exact run ▸ Moves.yield (current_some here) free
      · simp at run
    · simp at run
  | sleep c addr =>
    simp only [step] at run
    split at run
    · rename_i i k start p here
      split at run
      · rename_i guard
        simp only [Option.some.injEq] at run
        exact run ▸ Moves.sleep (current_some here) guard.1 guard.2
      · simp at run
    · simp at run
  | wakeup chan =>
    simp only [step] at run
    split at run
    · rename_i free
      simp only [Option.some.injEq] at run
      exact run ▸ Moves.wakeup free
    · simp at run
  | kill c pid =>
    simp only [step] at run
    split at run
    · rename_i place here
      obtain ⟨i,k,start,p⟩ := place
      split at run
      · rename_i free
        simp only [Option.some.injEq] at run
        exact run ▸ Moves.kill (current_some here) free
      · simp at run
    · simp at run
  | setpriority c pid priority =>
    simp only [step] at run
    split at run
    · rename_i i k start p here
      split at run
      · rename_i guard
        simp only [Option.some.injEq] at run
        exact run ▸ Moves.setpriority (current_some here) guard.2
      · simp at run
    · simp at run
  | allocproc c =>
    simp only [step] at run
    split at run
    · rename_i i k start p here
      split at run
      · rename_i guard
        split at run
        · simp only [Option.some.injEq] at run
          exact run ▸ Moves.full (current_some here) guard.1
        · rename_i np found
          have unused := List.find?_some found
          simp only [beq_iff_eq] at unused
          simp only [Option.some.injEq] at run
          exact run ▸ Moves.allocproc (current_some here) guard.1 guard.2 unused
      · simp at run
    · simp at run
  | kalloc c ok =>
    simp only [step] at run
    split at run
    · rename_i i k start p here
      split at run
      · rename_i np pc
        cases ok with
        | true =>
          simp only [if_true, Option.some.injEq] at run
          exact run ▸ Moves.kalloc (current_some here) pc
        | false =>
          simp only [Bool.false_eq_true, if_false, Option.some.injEq] at run
          exact run ▸ Moves.discard (current_some here) pc (Or.inl rfl)
      · simp at run
    · simp at run
  | copyuvm c ok =>
    simp only [step] at run
    split at run
    · rename_i i k start p here
      split at run
      · rename_i np pc
        cases ok with
        | true =>
          simp only [if_true, Option.some.injEq] at run
          exact run ▸ Moves.copyuvm (current_some here) pc
        | false =>
          simp only [Bool.false_eq_true, if_false, Option.some.injEq] at run
          exact run ▸ Moves.discard (current_some here) pc (Or.inr rfl)
      · simp at run
    · simp at run
  | publish c =>
    simp only [step] at run
    split at run
    · rename_i i k start p here
      split at run
      · rename_i np pc
        split at run
        · rename_i free
          simp only [Option.some.injEq] at run
          exact run ▸ Moves.publish (current_some here) free pc
        · simp at run
      · simp at run
    · simp at run
  | exit c =>
    simp only [step] at run
    split at run
    · rename_i i k start p here
      split at run
      · rename_i guard
        simp only [Option.some.injEq] at run
        exact run ▸ Moves.exit (current_some here) guard.1
      · simp at run
    · simp at run
  | wait c =>
    simp only [step] at run
    split at run
    · rename_i i k start p here
      split at run
      · rename_i guard
        simp only [Option.some.injEq] at run
        refine run ▸ Moves.wait (current_some here) ?_
        rcases guard with ⟨free,_⟩ | ⟨mine,_⟩
        · exact Or.inl free
        · exact Or.inr mine
      · simp at run
    · simp at run

theorem next_moves {s t : State C} {a : Action C} (run : next s a = some t) :
    s.overran = false ∧ Moves s a t := by
  unfold next at run
  split at run
  · simp at run
  · rename_i within
    exact ⟨by simpa using within, step_moves run⟩

end MlfqMoves
