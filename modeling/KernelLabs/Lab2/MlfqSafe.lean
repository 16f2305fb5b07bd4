import KernelLabs.Lab2.MlfqCapacity

/-!
As long as no queue has been written past its end, the indices and pointers of the
scheduler stay good, and a process is RUNNING exactly when one CPU is at it, however
often it is queued.
-/
namespace MlfqSafe
open Mlfq MlfqMoves MlfqQueued MlfqRuns MlfqCapacity ArrayQueue Transition
open Xv6Proc (NPROC Procstate Chan Stage Pc)

/-- No entry up to the size of a level is a null pointer. -/
def Filled (t : Table) : Prop := ∀ l, none ∉ (t.queue l).entries

section Tables
variable {t u : Table}

end Tables

section Runs
variable {C : Type} [DecidableEq C]

/-- A CPU is at every RUNNING process. -/
def Placed (s : State C) : Prop := ∀ p, (s.proc p).state = .running → ∃ c, runs (s.cpu c) = some p

theorem running_set {t : Table} {i q : Fin NPROC} (me : Proc)
    (quiet : me.state = .running → (t.proc i).state = .running)
    (now : ((t.set i me).proc q).state = .running) : (t.proc q).state = .running := by
  by_cases same : q = i
  · subst same
    exact quiet (by simpa [Table.set] using now)
  · simpa [Table.set, same] using now

theorem running_keeps {t u : Table} (keeps : Keeps t u) {q : Fin NPROC}
    (now : (u.proc q).state = .running) : (t.proc q).state = .running := by
  rcases keeps.state q with same | ⟨_,awake⟩
  · exact same ▸ now
  · simp [awake] at now

omit [DecidableEq C] in
theorem placed_table {s t : State C} (placed : Placed s)
    (state : ∀ q, (t.proc q).state = .running → (s.proc q).state = .running)
    (cpu : ∀ c, runs (t.cpu c) = runs (s.cpu c)) : Placed t := by
  intro p now
  obtain ⟨c,on⟩ := placed p (state p now)
  exact ⟨c,(cpu c).trans on⟩

theorem placed_move {s t : State C} (placed : Placed s) {c : C} {new : Cpu}
    (state : ∀ q, (t.proc q).state = .running → (s.proc q).state = .running)
    (cpu : t.cpu = Function.update s.cpu c new) (before : runs (s.cpu c) = none)
    (after : runs new = none) : Placed t := by
  refine placed_table placed state (fun d => ?_)
  rw [cpu]
  by_cases same : d = c
  · rw [same, Function.update_self, before, after]
  · rw [Function.update_of_ne same]

theorem placed_stop {s t : State C} (placed : Placed s) {c : C} {i k start : Nat} {p : Fin NPROC}
    (place : s.cpu c = .ran i k start p) (stopped : (t.proc p).state ≠ .running)
    (others : ∀ q, q ≠ p → (t.proc q).state = .running → (s.proc q).state = .running)
    (cpu : t.cpu = Function.update s.cpu c (.back i k start p)) : Placed t := by
  intro q now
  have other : q ≠ p := by
    intro same
    exact stopped (same ▸ now)
  obtain ⟨d,on⟩ := placed q (others q other now)
  have apart : d ≠ c := by
    intro same
    rw [same, place] at on
    simp only [runs, Option.some.injEq] at on
    exact other on.symm
  exact ⟨d, by rw [cpu, Function.update_of_ne apart]; exact on⟩

/-- `yield`, and `sleep` from anywhere. -/
theorem placed_stop_slot {s u : State C} (placed : Placed s) {c : C} {i k start : Nat}
    {p : Fin NPROC} (me : Proc) (place : s.cpu c = .ran i k start p) (stopped : me.state ≠ .running)
    (proc : u.proc = Function.update s.proc p me) (cpu : u.cpu = s.cpu) : Placed (sched u c) := by
  rw [sched_spec (by rw [cpu]; exact place)]
  refine placed_stop placed place ?_ (fun q other now => ?_) (by rw [← cpu]; rfl)
  · change (u.proc p).state ≠ .running
    rw [proc, Function.update_self]
    exact stopped
  · change (u.proc q).state = .running at now
    rwa [proc, Function.update_of_ne other] at now

theorem exit_state (t : Table) (initproc : Option (Fin NPROC)) (p : Fin NPROC) :
    ((exit t initproc p).proc p).state = .zombie := by
  unfold exit
  dsimp only
  generalize (List.finRange NPROC).foldl (abandon initproc p)
    (wakeup1 t ((t.proc p).parent.map .slot)) = u
  simp [Table.set]

theorem firstZombie_some {t : Table} {p z : Fin NPROC} (found : firstZombie t p = some z) :
    (t.proc z).state = .zombie := by
  have hit := List.find?_some found
  simp only [Bool.and_eq_true, beq_iff_eq] at hit
  exact hit.2

theorem placed_wait {s : State C} (placed : Placed s) {c : C} {i k start : Nat} {p : Fin NPROC}
    (place : s.cpu c = .ran i k start p) : Placed (wait s c p) := by
  unfold wait
  split
  · exact placed_table placed (fun q now => running_set _ (by simp) now) (fun _ => rfl)
  · split
    · exact placed_table placed (fun _ now => now) (fun _ => rfl)
    · exact placed_stop_slot placed { s.proc p with chan := some (.slot p), state := .sleeping } place
        (by simp) rfl rfl

theorem acquire_cpu (s : State C) (c : C) :
    (acquire s c).cpu = Function.update s.cpu c (.scan 2 0 false) := by
  unfold acquire
  dsimp only
  split <;> rfl

theorem step_placed {s t : State C} {a : Action C} (inv : Inv s) (placed : Placed s)
    (moves : Moves s a t) : Placed t := by
  have sound := inv.core.sound
  cases moves with
  | userinit place free unused =>
    exact placed_move placed (fun q now => running_set _ (by simp) now) rfl
      (by simp [place, runs]) rfl
  | publishInit place free =>
    exact placed_move placed (fun q now => running_set _ (by simp) now) rfl
      (by simp [place, runs]) rfl
  | tick => exact placed
  | @acquire c place free =>
    refine placed_move placed (fun q now => ?_) (acquire_cpu s c) (by simp [place, runs]) rfl
    rw [acquire_table] at now
    split at now
    · exact running_keeps (keeps_promote sound) now
    · exact now
  | release place mine nobody =>
    exact placed_move placed (fun _ now => now) rfl (by simp [place, runs]) rfl
  | @dispatch c i k i' k' check p place mine found cell =>
    obtain ⟨me,proc,_,_,_,cpu,_⟩ := dispatch_spec s c i' k' p
    intro q now
    by_cases same : q = p
    · exact ⟨c, by rw [cpu, Function.update_self, same]; rfl⟩
    · rw [proc, Function.update_of_ne same] at now
      obtain ⟨d,on⟩ := placed q now
      have apart : d ≠ c := by
        intro eq
        simp [eq, place, runs] at on
      exact ⟨d, by rw [cpu, Function.update_of_ne apart]; exact on⟩
  | @requeue c i k start p place mine =>
    exact placed_move placed (fun q now => running_keeps (keeps_requeue sound p _).1 now) rfl
      (by simp [place, runs]) rfl
  | @yield c i k start p place free =>
    exact placed_stop_slot placed { s.proc p with state := .runnable } place (by simp) rfl rfl
  | @sleep c addr i k start p place free pc =>
    exact placed_stop_slot placed { s.proc p with chan := some (.other addr), state := .sleeping }
      place (by simp) rfl rfl
  | @wakeup chan free =>
    refine placed_table placed (fun q now => ?_) (fun _ => rfl)
    rw [State.onTable_table] at now
    exact running_keeps (keeps_wakeup1 sound (some chan)) now
  | @kill c pid i k start p place free =>
    exact placed_table placed (fun q now => running_keeps (keeps_kill sound pid) now) (fun _ => rfl)
  | @setpriority c pid priority i k start p place other =>
    exact placed_table placed (fun q now => running_keeps (keeps_setpriority sound pid priority) now)
      (fun _ => rfl)
  | full place free => exact placed
  | allocproc place free pc unused =>
    exact placed_table placed (fun q now => running_set _ (by simp) now) (fun _ => rfl)
  | kalloc place pc => exact placed
  | @copyuvm c i k start p np place pc =>
    exact placed_table placed
      (fun q now => running_set { s.proc np with parent := some p } (fun same => same) now) (fun _ => rfl)
  | discard place pc failed =>
    exact placed_table placed (fun q now => running_set _ (by simp) now) (fun _ => rfl)
  | @publish c i k start p np place free pc =>
    exact placed_table placed (fun q now => running_set _ (by simp) now) (fun _ => rfl)
  | @exit c i k start p place free =>
    obtain ⟨_,_,others⟩ := exit_keeps sound s.initproc p
    have gone := exit_state s.toTable s.initproc p
    rw [sched_spec (s := s.onTable fun t => exit t s.initproc p) place]
    refine placed_stop placed place ?_ (fun q other now => ?_) rfl
    · change ((exit s.toTable s.initproc p).proc p).state ≠ .running
      simp [gone]
    · rcases others q other with same | ⟨_,awake⟩
      · exact same ▸ now
      · exact absurd (awake.symm.trans now) (by simp)
  | wait place free => exact placed_wait placed place

omit [DecidableEq C] in
theorem placed_start {s : State C} (start : Start s) : Placed s := by
  intro p now
  rw [start.1 p] at now
  simp at now

theorem reach_placed {s : State C} (reach : (system C).Reach System.Free s) : Inv s ∧ Placed s := by
  refine System.reach_invariant (system C) (I := fun s => Inv s ∧ Placed s)
    (fun s start => ⟨inv_start start, placed_start start⟩) ?_ reach
  intro s a t before _ run
  obtain ⟨_,moves⟩ := next_moves run
  exact ⟨inv_moves before.1 moves, step_placed before.1 before.2 moves⟩

/-- With the lock free, a process is RUNNING exactly when one CPU has it as its `proc`. -/
def Exclusive (s : State C) : Prop :=
  s.lock = none → ∀ p, (s.proc p).state = .running ↔ ∃! c, has (s.cpu c) = some p

/-- A slot that `wait` frees, with its stack and its page table, is not the process of
    any CPU. -/
def FreesIdle (s : State C) : Prop :=
  ∀ c t z, step s (.wait c) = some t → (s.proc z).state ≠ .unused → (t.proc z).state = .unused →
    ∀ d, has (s.cpu d) ≠ some z

omit [DecidableEq C] in
theorem has_free {s : State C} (core : Core s) (free : s.lock = none) {c : C} {p : Fin NPROC}
    (busy : has (s.cpu c) = some p) : runs (s.cpu c) = some p := by
  cases place : s.cpu c with
  | back i k start q =>
    have held := core.held c (by simp [place, Holds])
    simp [free] at held
  | ran i k start q => simpa [place, has, runs] using busy
  | boot => simp [place, has] at busy
  | setup q => simp [place, has] at busy
  | top => simp [place, has] at busy
  | scan i k check => simp [place, has] at busy

omit [DecidableEq C] in
theorem exclusive_of_placed {s : State C} (inv : Inv s) (placed : Placed s) : Exclusive s := by
  intro free p
  constructor
  · intro now
    obtain ⟨c,on⟩ := placed p now
    refine ⟨c, runs_has on, fun d busy => ?_⟩
    exact inv.core.single d c p (has_free inv.core free busy) on
  · rintro ⟨c,busy,_⟩
    exact inv.core.running c p (has_free inv.core free busy)

theorem wait_frees {s : State C} {c : C} {p z : Fin NPROC} (used : (s.proc z).state ≠ .unused)
    (freed : ((wait s c p).proc z).state = .unused) : (s.proc z).state = .zombie := by
  unfold wait at freed
  split at freed
  · rename_i y found
    by_cases same : z = y
    · exact same ▸ firstZombie_some found
    · have kept : (s.proc z).state = .unused := by
        simpa [State.setLock, State.setPc, State.onTable, reap, Table.set, same] using freed
      exact absurd kept used
  · split at freed
    · exact absurd freed used
    · rw [sched_table] at freed
      by_cases same : z = p
      · simp [State.setPc, State.onTable, Table.set, same] at freed
      · have kept : (s.proc z).state = .unused := by
          simpa [State.setPc, State.onTable, Table.set, same] using freed
        exact absurd kept used

omit [DecidableEq C] in
/-- While a process looks for its children, no CPU is at a zombie. -/
theorem zombie_idle {s : State C} (core : Core s) {c : C} {i k start : Nat} {p z : Fin NPROC}
    (place : s.cpu c = .ran i k start p) (free : s.lock = none ∨ s.lock = some c)
    (zombie : (s.proc z).state = .zombie) (d : C) : has (s.cpu d) ≠ some z := by
  intro busy
  cases there : s.cpu d with
  | ran j l begun q =>
    have same : q = z := by simpa [there, has] using busy
    have running := core.running d q (by simp [there, runs])
    rw [same, zombie] at running
    simp at running
  | back j l begun q =>
    have held := core.held d (by simp [there, Holds])
    rcases free with none | mine
    · simp [none] at held
    · rw [mine, Option.some.injEq] at held
      rw [held, there] at place
      simp at place
  | boot => simp [there, has] at busy
  | setup q => simp [there, has] at busy
  | top => simp [there, has] at busy
  | scan j l check => simp [there, has] at busy

theorem frees_idle_of_inv {s : State C} (inv : Inv s) : FreesIdle s := by
  intro c t z run used freed
  cases step_moves run with
  | wait place free => exact zombie_idle inv.core place free (wait_frees used freed)
  | discard place pc failed => simp at failed

theorem running_on_one_cpu {s : State C} (reach : (system C).Reach System.Free s)
    (_within : s.overran = false) : Exclusive s ∧ FreesIdle s := by
  obtain ⟨inv,placed⟩ := reach_placed reach
  exact ⟨exclusive_of_placed inv placed, frees_idle_of_inv inv⟩

end Runs

/-- The first promotion pass has run and the scan of the queues begins. -/
def firstPass : State Unit :=
  (System.exec next initReady (List.replicate 20 .tick ++ [.acquire ()])).get (by decide +kernel)

theorem firstPass_reach : (system Unit).Reach System.Free firstPass := by
  have run : System.exec next initReady (List.replicate 20 .tick ++ [.acquire ()]) = some firstPass := by
    simp only [firstPass, Option.some_get]
  exact System.exec_reach _ (fun _ _ _ => trivial) initReady_reach run

/-- The first process runs. -/
def initRuns : State Unit := (System.exec next firstPass [.scan ()]).get (by decide +kernel)

theorem initRuns_reach : (system Unit).Reach System.Free initRuns := by
  have run : System.exec next firstPass [.scan ()] = some initRuns := by
    simp only [initRuns, Option.some_get]
  exact System.exec_reach _ (fun _ _ _ => trivial) firstPass_reach run

theorem running_on_one_cpu_initRuns : (system Unit).Reach System.Free initRuns ∧
    initRuns.overran = false ∧ initRuns.lock = none ∧ has (initRuns.cpu ()) = some 0 ∧
    Exclusive initRuns ∧ FreesIdle initRuns :=
  ⟨initRuns_reach, by decide +kernel, by decide +kernel, by decide +kernel,
    running_on_one_cpu initRuns_reach (by decide +kernel)⟩

end MlfqSafe
