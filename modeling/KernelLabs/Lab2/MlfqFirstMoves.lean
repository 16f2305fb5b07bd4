import KernelLabs.Lab2.MlfqFirst

/-!
What one step of the first version can do, said once: each way a step can succeed, with
the guards it has passed and the state it leaves. Proofs about runs go through the cases
of `Moves` and never unfold `step`.
-/
namespace MlfqFirstMoves
open MlfqFirst
open Xv6Proc (NPROC Procstate Chan Stage)
open Mlfq (TICKS_TO_PROMOTE Action uint int)
variable {C : Type} [DecidableEq C]

inductive Moves (s : State C) : Action C → State C → Prop where
  | userinit {c : C} {p : Fin NPROC} (place : s.cpu c = .boot) (free : s.lock = none)
      (unused : (s.proc p).state = .unused) :
      Moves s (.userinit c)
        { ((s.onTable fun t => found t p s.nextpid).setPc p .elsewhere).setCpu c (.setup p) with
            nextpid := int (s.nextpid + 1), initproc := some p }
  | publishInit {c : C} {p : Fin NPROC} (place : s.cpu c = .setup p) (free : s.lock = none) :
      Moves s (.publishInit c)
        { (s.onTable fun t => setState t p .runnable).setCpu c .top with
            promoteAtTime := uint (s.ticks + TICKS_TO_PROMOTE) }
  | tick : Moves s .tick { s with ticks := uint (s.ticks + 1) }
  | acquire {c : C} (place : s.cpu c = .top) (free : s.lock = none) :
      Moves s (.acquire c) (MlfqFirst.acquire s c)
  | release {c : C} (place : s.cpu c = .scan 0) (mine : s.lock = some c) (empty : s.queue 0 = []) :
      Moves s (.scan c) ((s.setCpu c .top).setLock none)
  | down {c : C} {i : Nat} (place : s.cpu c = .scan (i + 1)) (mine : s.lock = some c)
      (empty : s.queue (i + 1 : Nat) = []) : Moves s (.scan c) (s.setCpu c (.scan i))
  | drop {c : C} {i : Nat} {p : Fin NPROC} {rest : List (Fin NPROC)} (place : s.cpu c = .scan i)
      (mine : s.lock = some c) (front : s.queue i = p :: rest) (idle : (s.proc p).state ≠ .runnable) :
      Moves s (.scan c) (s.onTable fun t => t.setQueue i rest)
  | dispatch {c : C} {i : Nat} {p : Fin NPROC} {rest : List (Fin NPROC)} (place : s.cpu c = .scan i)
      (mine : s.lock = some c) (front : s.queue i = p :: rest)
      (runnable : (s.proc p).state = .runnable) :
      Moves s (.scan c) (MlfqFirst.dispatch (s.onTable fun t => t.setQueue i rest) c i p)
  | requeue {c : C} {i start : Nat} {p : Fin NPROC} (place : s.cpu c = .back i start p)
      (mine : s.lock = some c) :
      Moves s (.requeue c)
        ((s.onTable fun t => MlfqFirst.requeue t p (int (s.ticks - start))).setCpu c (.scan i))
  | yield {c : C} {i start : Nat} {p : Fin NPROC} (place : s.cpu c = .ran i start p)
      (free : s.lock = none) :
      Moves s (.yield c) (sched (s.onTable fun t => setState t p .runnable) c)
  | sleep {c : C} {addr i start : Nat} {p : Fin NPROC} (place : s.cpu c = .ran i start p)
      (free : s.lock = none) (pc : s.pc p = .elsewhere) :
      Moves s (.sleep c addr)
        (sched ((s.onTable fun t => doze t p (.other addr)).setPc p .sleeping) c)
  | wakeup {chan : Chan} (free : s.lock = none) :
      Moves s (.wakeup chan) (s.onTable fun t => wakeup1 t (some chan))
  | kill {c : C} {pid : Int} (free : s.lock = none) :
      Moves s (.kill c pid) (s.onTable fun t => MlfqFirst.kill t pid)
  | setpriority {c : C} {pid priority : Int} :
      Moves s (.setpriority c pid priority) (s.onTable fun t => MlfqFirst.setpriority t pid priority)
  | full {c : C} (free : s.lock = none) : Moves s (.allocproc c) s
  | allocproc {c : C} {i start : Nat} {p np : Fin NPROC} (place : s.cpu c = .ran i start p)
      (free : s.lock = none) (unused : (s.proc np).state = .unused) :
      Moves s (.allocproc c) (allocate s p np)
  | kalloc {c : C} {i start : Nat} {p np : Fin NPROC} (place : s.cpu c = .ran i start p)
      (pc : s.pc p = .forking .allocated np) :
      Moves s (.kalloc c true) (s.setPc p (.forking .stacked np))
  | copyuvm {c : C} {i start : Nat} {p np : Fin NPROC} (place : s.cpu c = .ran i start p)
      (pc : s.pc p = .forking .stacked np) :
      Moves s (.copyuvm c true)
        ((s.onTable fun t => t.set np { t.proc np with parent := some p }).setPc p (.forking .copied np))
  | discard {c : C} {a : Action C} {stage : Stage} {i start : Nat} {p np : Fin NPROC}
      (place : s.cpu c = .ran i start p) (pc : s.pc p = .forking stage np)
      (failed : a = .kalloc c false ∨ a = .copyuvm c false) :
      Moves s a ((s.onTable fun t => setState t np .unused).setPc p .elsewhere)
  | publish {c : C} {i start : Nat} {p np : Fin NPROC} (place : s.cpu c = .ran i start p)
      (free : s.lock = none) (pc : s.pc p = .forking .copied np) :
      Moves s (.publish c) ((s.onTable fun t => setState t np .runnable).setPc p .elsewhere)
  | exit {c : C} {i start : Nat} {p : Fin NPROC} (place : s.cpu c = .ran i start p)
      (free : s.lock = none) (pc : s.pc p = .elsewhere) :
      Moves s (.exit c)
        (sched ((s.onTable fun t => MlfqFirst.exit t s.initproc p).setPc p .exited) c)
  | reap {c : C} {i start : Nat} {p z : Fin NPROC} (place : s.cpu c = .ran i start p)
      (free : s.lock = none ∨ s.lock = some c) (pc : s.pc p = .elsewhere ∨ s.pc p = .waiting)
      (child : (s.proc z).parent = some p) (zombie : (s.proc z).state = .zombie) :
      Moves s (.wait c) (((s.onTable fun t => MlfqFirst.reap t z).setPc p .elsewhere).setLock none)
  | childless {c : C} {i start : Nat} {p : Fin NPROC} (place : s.cpu c = .ran i start p)
      (free : s.lock = none ∨ s.lock = some c) (pc : s.pc p = .elsewhere ∨ s.pc p = .waiting) :
      Moves s (.wait c) ((s.setPc p .elsewhere).setLock none)
  | await {c : C} {i start : Nat} {p : Fin NPROC} (place : s.cpu c = .ran i start p)
      (free : s.lock = none ∨ s.lock = some c) (pc : s.pc p = .elsewhere ∨ s.pc p = .waiting) :
      Moves s (.wait c) (sched ((s.onTable fun t => doze t p (.slot p)).setPc p .waiting) c)

omit [DecidableEq C] in
theorem current_some {s : State C} {c : C} {p : Fin NPROC} (here : current s c = some p) :
    ∃ i start, s.cpu c = .ran i start p := by
  unfold current at here
  split at here
  · rename_i i start q place
    rw [Option.some.injEq] at here
    exact ⟨i, start, here ▸ place⟩
  · simp at here

theorem wait_moves {s : State C} {c : C} {i start : Nat} {p : Fin NPROC} (place : s.cpu c = .ran i start p)
    (guard : (s.lock = none ∧ s.pc p = .elsewhere) ∨ (s.lock = some c ∧ s.pc p = .waiting)) :
    Moves s (.wait c) (wait s c p) := by
  have free : s.lock = none ∨ s.lock = some c := guard.imp And.left And.left
  have pc : s.pc p = .elsewhere ∨ s.pc p = .waiting := guard.imp And.right And.right
  unfold wait
  split
  · rename_i z hit
    have dead := List.find?_some hit
    simp only [Bool.and_eq_true, beq_iff_eq] at dead
    exact Moves.reap place free pc dead.1 dead.2
  · split
    · exact Moves.childless place free pc
    · exact Moves.await place free pc

theorem scan_moves {s t : State C} {c : C} {i : Nat} (place : s.cpu c = .scan i) (mine : s.lock = some c)
    (run : step s (.scan c) = some t) : Moves s (.scan c) t := by
  simp only [step, place, mine, if_true] at run
  split at run
  · rename_i p rest front
    rw [Option.some.injEq] at run
    split at run
    · rename_i runnable
      exact run ▸ Moves.dispatch place mine front runnable
    · rename_i idle
      exact run ▸ Moves.drop place mine front idle
  · rename_i empty
    split at run
    · rw [Option.some.injEq] at run
      exact run ▸ Moves.release place mine empty
    · rw [Option.some.injEq] at run
      exact run ▸ Moves.down place mine empty

theorem step_moves {s t : State C} {a : Action C} (run : step s a = some t) : Moves s a t := by
  cases a with
  | userinit c =>
    simp only [step] at run
    split at run
    · rename_i guard
      split at run
      · simp at run
      · rename_i p hit
        have unused := List.find?_some hit
        simp only [beq_iff_eq] at unused
        rw [Option.some.injEq] at run
        exact run ▸ Moves.userinit guard.1 guard.2 unused
    · simp at run
  | publishInit c =>
    simp only [step] at run
    split at run
    · rename_i p place
      split at run
      · rename_i free
        rw [Option.some.injEq] at run
        exact run ▸ Moves.publishInit place free
      · simp at run
    · simp at run
  | tick =>
    simp only [step, Option.some.injEq] at run
    exact run ▸ Moves.tick
  | acquire c =>
    simp only [step] at run
    split at run
    · rename_i guard
      rw [Option.some.injEq] at run
      exact run ▸ Moves.acquire guard.1 guard.2
    · simp at run
  | scan c =>
    have guarded := run
    simp only [step] at guarded
    split at guarded
    · rename_i i place
      split at guarded
      · rename_i mine
        exact scan_moves place mine run
      · simp at guarded
    · simp at guarded
  | requeue c =>
    simp only [step] at run
    split at run
    · rename_i i start p place
      split at run
      · rename_i mine
        rw [Option.some.injEq] at run
        exact run ▸ Moves.requeue place mine
      · simp at run
    · simp at run
  | yield c =>
    simp only [step] at run
    split at run
    · rename_i p here
      obtain ⟨i,start,place⟩ := current_some here
      split at run
      · rename_i free
        rw [Option.some.injEq] at run
        exact run ▸ Moves.yield place free
      · simp at run
    · simp at run
  | sleep c addr =>
    simp only [step] at run
    split at run
    · rename_i p here
      obtain ⟨i,start,place⟩ := current_some here
      split at run
      · rename_i guard
        rw [Option.some.injEq] at run
        exact run ▸ Moves.sleep place guard.1 guard.2
      · simp at run
    · simp at run
  | wakeup chan =>
    simp only [step] at run
    split at run
    · rename_i free
      rw [Option.some.injEq] at run
      exact run ▸ Moves.wakeup free
    · simp at run
  | kill c pid =>
    simp only [step] at run
    split at run
    · split at run
      · rename_i free
        rw [Option.some.injEq] at run
        exact run ▸ Moves.kill free
      · simp at run
    · simp at run
  | setpriority c pid priority =>
    simp only [step] at run
    split at run
    · split at run
      · rw [Option.some.injEq] at run
        exact run ▸ Moves.setpriority
      · simp at run
    · simp at run
  | allocproc c =>
    simp only [step] at run
    split at run
    · rename_i p here
      obtain ⟨i,start,place⟩ := current_some here
      split at run
      · rename_i guard
        split at run
        · rw [Option.some.injEq] at run
          exact run ▸ Moves.full guard.1
        · rename_i np hit
          have unused := List.find?_some hit
          simp only [beq_iff_eq] at unused
          rw [Option.some.injEq] at run
          exact run ▸ Moves.allocproc place guard.1 unused
      · simp at run
    · simp at run
  | kalloc c ok =>
    simp only [step] at run
    split at run
    · rename_i p here
      obtain ⟨i,start,place⟩ := current_some here
      split at run
      · rename_i np pc
        cases ok with
        | true =>
          simp only [if_true, Option.some.injEq] at run
          exact run ▸ Moves.kalloc place pc
        | false =>
          simp only [Bool.false_eq_true, if_false, Option.some.injEq] at run
          exact run ▸ Moves.discard place pc (Or.inl rfl)
      · simp at run
    · simp at run
  | copyuvm c ok =>
    simp only [step] at run
    split at run
    · rename_i p here
      obtain ⟨i,start,place⟩ := current_some here
      split at run
      · rename_i np pc
        cases ok with
        | true =>
          simp only [if_true, Option.some.injEq] at run
          exact run ▸ Moves.copyuvm place pc
        | false =>
          simp only [Bool.false_eq_true, if_false, Option.some.injEq] at run
          exact run ▸ Moves.discard place pc (Or.inr rfl)
      · simp at run
    · simp at run
  | publish c =>
    simp only [step] at run
    split at run
    · rename_i p here
      obtain ⟨i,start,place⟩ := current_some here
      split at run
      · rename_i np pc
        split at run
        · rename_i free
          rw [Option.some.injEq] at run
          exact run ▸ Moves.publish place free pc
        · simp at run
      · simp at run
    · simp at run
  | exit c =>
    simp only [step] at run
    split at run
    · rename_i p here
      obtain ⟨i,start,place⟩ := current_some here
      split at run
      · rename_i guard
        rw [Option.some.injEq] at run
        exact run ▸ Moves.exit place guard.1 guard.2.1
      · simp at run
    · simp at run
  | wait c =>
    simp only [step] at run
    split at run
    · rename_i p here
      obtain ⟨i,start,place⟩ := current_some here
      split at run
      · rename_i guard
        rw [Option.some.injEq] at run
        exact run ▸ wait_moves place guard
      · simp at run
    · simp at run

theorem next_moves {s t : State C} {a : Action C} (run : next s a = some t) :
    s.overran = false ∧ s.panicked = false ∧ Moves s a t := by
  unfold next at run
  split at run
  · simp at run
  · rename_i well
    simp only [Bool.or_eq_true, not_or, Bool.not_eq_true] at well
    exact ⟨well.1, well.2, step_moves run⟩

end MlfqFirstMoves
