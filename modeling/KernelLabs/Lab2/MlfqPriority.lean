import KernelLabs.Lab2.MlfqSafe

/-!
In what order `scheduler` picks processes. The loop over a level goes on after a process
of the level has run, without a look at the levels above or at the deadline of the next
promotion. Both rules hold as long as nothing has become due by the time a process comes
back, or nothing is left to be picked in the rest of the pass.
-/
namespace MlfqPriority
open Mlfq MlfqMoves MlfqQueued MlfqRuns MlfqCapacity MlfqSafe ArrayQueue Transition
open Xv6Proc (NPROC Procstate Chan Stage Pc)

/-- A RUNNABLE process is queued at level `j`. -/
def Waiting (t : Table) (j : Int) : Prop :=
  ∃ q, (t.proc q).state = .runnable ∧ some q ∈ (t.queue j).entries

/-- The level at whose tail a process is put when it comes back after `ran` ticks: one
    below its own when its budget is used up, unless another slot has its pid. -/
def backLevel (t : Table) (p : Fin NPROC) (ran : Int) : Int :=
  if int ((t.proc p).budget - ran) ≤ 0 ∧ 0 < (t.proc p).priority ∧
      ((List.finRange NPROC).find? fun i => (t.proc i).pid == (t.proc p).pid) = some p then
    (t.proc p).priority - 1
  else (t.proc p).priority

/-- A RUNNABLE process is queued at level `j`, `p` counted at level `l`. -/
def WaitingWith (t : Table) (p : Fin NPROC) (l j : Int) : Prop :=
  Waiting t j ∨ (t.proc p).state = .runnable ∧ j = l

section Tables
variable {t : Table}

theorem waiting_congr {u : Table} (queue : u.queue = t.queue)
    (state : ∀ q, (u.proc q).state = .runnable → (t.proc q).state = .runnable) {j : Int}
    (waiting : Waiting u j) : Waiting t j := by
  obtain ⟨q,runnable,member⟩ := waiting
  exact ⟨q, state q runnable, queue ▸ member⟩

theorem seek_none_waiting {i : Nat} (none : seek t i 0 = none) : ¬ Waiting t i := by
  rintro ⟨q,runnable,member⟩
  obtain ⟨k,inside,cell⟩ := Queue.mem_entries.mp member
  have passed := List.find?_eq_none.mp none k (List.mem_range.mpr inside)
  simp [stops, cell, runnable] at passed

/-- The loops pass over the levels between the first and the one of the hit, and all of
    the first when they go round it from its head. -/
theorem search_between {i k i' k' : Nat} {check : Bool} (whole : check = true ∨ k = 0)
    (found : search t i k check = some (i', k')) {j : Nat} (above : i' < j) (below : j ≤ i) :
    ¬ Waiting t j := by
  induction i generalizing k check with
  | zero => omega
  | succ i ih =>
    unfold search at found
    split at found
    · simp only [Option.some.injEq, Prod.mk.injEq] at found
      omega
    · rename_i first
      split at found
      · simp only [Option.some.injEq, Prod.mk.injEq] at found
        omega
      · rename_i second
        dsimp only at found
        by_cases same : j = i + 1
        · subst same
          rcases whole with again | head
          · rw [if_pos again] at second
            exact seek_none_waiting second
          · rw [head] at first
            exact seek_none_waiting first
        · exact ih (Or.inr rfl) found (by omega)

theorem setpriority_state (pid priority : Int) (q : Fin NPROC) :
    ((setpriority t pid priority).proc q).state = (t.proc q).state := by
  unfold setpriority
  split
  · rfl
  · split
    · rfl
    · rename_i i _
      by_cases same : q = i
      · subst same
        simp [Table.set]
      · simp [Table.set, same]

theorem setpriority_own {p : Fin NPROC} (priority : Int) (low : 0 ≤ priority)
    (high : priority ≤ MAXPRIORITY) :
    ((setpriority t (t.proc p).pid priority).proc p).priority =
      if ((List.finRange NPROC).find? fun i => (t.proc i).pid == (t.proc p).pid) = some p then priority
      else (t.proc p).priority := by
  unfold setpriority
  rw [if_neg (by omega)]
  split
  · rename_i missing
    simp [missing]
  · rename_i i found
    rw [found]
    by_cases same : i = p
    · subst same
      simp [Table.set]
    · rw [if_neg (by simp [same])]
      simp [Table.set, Ne.symm same]

theorem requeue_state (p : Fin NPROC) (ran : Int) (q : Fin NPROC) :
    ((requeue t p ran).proc q).state = (t.proc q).state := by
  have charged : ((t.set p { t.proc p with budget := int ((t.proc p).budget - ran) }).proc q).state =
      (t.proc q).state := by
    by_cases same : q = p
    · subst same
      simp [Table.set]
    · simp [Table.set, same]
  unfold requeue
  dsimp only
  split
  · exact (setpriority_state _ _ q).trans charged
  · exact charged

theorem requeue_queue (sound : Sound t) (p : Fin NPROC) (ran : Int) : (requeue t p ran).queue =
    Function.update t.queue (backLevel t p ran) ((t.queue (backLevel t p ran)).push p) := by
  obtain ⟨low,high⟩ := sound.range p
  have pid : ∀ i, ((t.set p { t.proc p with budget := int ((t.proc p).budget - ran) }).proc i).pid =
      (t.proc i).pid := by
    intro i
    by_cases same : i = p
    · subst same
      simp [Table.set]
    · simp [Table.set, same]
  have priority : ((t.set p { t.proc p with budget := int ((t.proc p).budget - ran) }).proc p).priority =
      (t.proc p).priority := by simp [Table.set]
  have budget : ((t.set p { t.proc p with budget := int ((t.proc p).budget - ran) }).proc p).budget =
      int ((t.proc p).budget - ran) := by simp [Table.set]
  have queue : (t.set p { t.proc p with budget := int ((t.proc p).budget - ran) }).queue = t.queue := rfl
  unfold requeue backLevel
  dsimp only
  generalize t.set p { t.proc p with budget := int ((t.proc p).budget - ran) } = u at *
  rw [← budget, ← priority]
  split
  · rename_i spent
    have own := setpriority_own (t := u) (p := p) ((u.proc p).priority - 1) (by omega)
      (by omega)
    simp only [pid] at own
    rw [enqueue_queue, (setpriority_queue _ _).1, pid, own, queue]
    by_cases first : ((List.finRange NPROC).find? fun i => (t.proc i).pid == (t.proc p).pid) = some p
    · rw [if_pos first, if_pos ⟨spent.1,spent.2,first⟩]
    · rw [if_neg first, if_neg fun all => first all.2.2]
  · rename_i kept
    rw [if_neg fun all => kept ⟨all.1,all.2.1⟩, enqueue_queue, queue]

theorem waiting_requeue (sound : Sound t) {p : Fin NPROC} {ran : Int} {j : Int} :
    Waiting (requeue t p ran) j ↔ WaitingWith t p (backLevel t p ran) j := by
  have entries : ((requeue t p ran).queue j).entries =
      if j = backLevel t p ran then (t.queue j).entries ++ [some p] else (t.queue j).entries := by
    rw [requeue_queue sound]
    split
    · rename_i same
      rw [← same, Function.update_self, Queue.entries_push (sound.sized j)]
    · rename_i other
      rw [Function.update_of_ne other]
  unfold Waiting WaitingWith Waiting
  simp only [requeue_state, entries]
  constructor
  · rintro ⟨q,runnable,member⟩
    split at member
    · rename_i same
      rcases List.mem_append.mp member with before | mine
      · exact Or.inl ⟨q,runnable,before⟩
      · have eq : q = p := by simpa using mine
        exact Or.inr ⟨eq ▸ runnable,same⟩
    · exact Or.inl ⟨q,runnable,member⟩
  · rintro (⟨q,runnable,member⟩ | ⟨runnable,same⟩)
    · refine ⟨q, runnable, ?_⟩
      split
      · exact List.mem_append_left _ member
      · exact member
    · exact ⟨p, runnable, by simp [same]⟩

end Tables

section Runs
variable {C : Type} [DecidableEq C]

/-- CPU `c` is about to dispatch process `p` from entry `k` of level `i`. -/
def Dispatches (s : State C) (c : C) (i k : Nat) (p : Fin NPROC) : Prop :=
  ∃ from_ at_ check, s.cpu c = .scan from_ at_ check ∧ s.lock = some c ∧
    search s.toTable from_ at_ check = some (i, k) ∧ (s.queue i).cell k = some p

/-- Nothing is RUNNABLE above the level of a dispatch. -/
def StrictPriority (s : State C) : Prop :=
  ∀ c i k p, Dispatches s c i k p → ∀ j : Int, i < j → j ≤ MAXPRIORITY → ¬ Waiting s.toTable j

/-- When a process of level `i` comes back, no RUNNABLE process is queued above level `i`
    or none is queued from level `i` down, the one that comes back included. -/
def Undisturbed (s : State C) : Action C → Prop
  | .requeue c => ∀ i k start p, s.cpu c = .back i k start p →
      let l := backLevel s.toTable p (int (s.ticks - start))
      (∀ j : Int, i < j → j ≤ MAXPRIORITY → ¬ WaitingWith s.toTable p l j) ∨
        ∀ j : Int, 0 ≤ j → j ≤ i → ¬ WaitingWith s.toTable p l j
  | _ => True

/-- What the place of a scan says about the levels above it. -/
def ScanAbove (t : Table) : Cpu → Prop
  | .scan i k check => (check = true ∨ k = 0) ∧
      ((∀ j : Int, i < j → j ≤ MAXPRIORITY → ¬ Waiting t j) ∨
        ∀ j : Int, 0 ≤ j → j ≤ i → ¬ Waiting t j)
  | _ => True

theorem scanAbove_congr {t u : Table} (queue : u.queue = t.queue)
    (state : ∀ q, (u.proc q).state = .runnable → (t.proc q).state = .runnable) {cpu : Cpu}
    (above : ScanAbove t cpu) : ScanAbove u cpu := by
  cases cpu with
  | scan i k check =>
    refine ⟨above.1, ?_⟩
    rcases above.2 with high | low
    · exact Or.inl fun j more most waiting => high j more most (waiting_congr queue state waiting)
    · exact Or.inr fun j more most waiting => low j more most (waiting_congr queue state waiting)
  | _ => trivial

omit [DecidableEq C] in
/-- Steps that need the lock free, or have it, leave no other CPU in a scan. -/
theorem scanAbove_alone {s : State C} {t : Table} (core : Core s) {c : C}
    (lock : s.lock = none ∨ s.lock = some c) {d : C} (other : d ≠ c) : ScanAbove t (s.cpu d) := by
  cases place : s.cpu d with
  | scan i k check =>
    have held := core.held d (by simp [place, Holds])
    rcases lock with free | mine
    · simp [free] at held
    · rw [mine, Option.some.injEq] at held
      exact absurd held.symm other
  | _ => trivial

omit [DecidableEq C] in
theorem strict_of_above {s : State C} (above : ∀ c, ScanAbove s.toTable (s.cpu c)) :
    StrictPriority s := by
  rintro c i k p ⟨from_,at_,check,place,mine,found,cell⟩ j more most waiting
  have here := above c
  rw [place] at here
  obtain ⟨inside,runnable⟩ := search_cell found cell
  obtain ⟨low,_⟩ := search_some found
  rcases here.2 with high | none
  · by_cases between : j ≤ from_
    · obtain ⟨n,rfl⟩ := Int.eq_ofNat_of_zero_le (show 0 ≤ j by omega)
      exact search_between here.1 found (by omega) (by omega) waiting
    · exact high j (by omega) most waiting
  · refine none i (by omega) (by omega) ⟨p, runnable, ?_⟩
    exact Queue.mem_entries.mpr ⟨k,inside,cell⟩

omit [DecidableEq C] in
/-- A step of `c` under the lock. -/
theorem above_locked {s t : State C} (core : Core s) {c : C}
    (lock : s.lock = none ∨ s.lock = some c) (cpu : ∀ d, d ≠ c → t.cpu d = s.cpu d)
    (mine : ScanAbove t.toTable (t.cpu c)) (d : C) : ScanAbove t.toTable (t.cpu d) := by
  by_cases same : d = c
  · rw [same]
    exact mine
  · rw [cpu d same]
    exact scanAbove_alone core lock same

omit [DecidableEq C] in
/-- A step that leaves every CPU where it is, with the lock free. -/
theorem above_free {s t : State C} (core : Core s) (free : s.lock = none) (cpu : t.cpu = s.cpu)
    (d : C) : ScanAbove t.toTable (t.cpu d) := by
  rw [cpu]
  cases place : s.cpu d with
  | scan i k check =>
    have held := core.held d (by simp [place, Holds])
    simp [free] at held
  | _ => trivial

/-- `sched` takes `c` out of its process and moves no other CPU. -/
theorem above_sched {s u : State C} (core : Core s) {c : C} {i k start : Nat} {p : Fin NPROC}
    (place : s.cpu c = .ran i k start p) (lock : s.lock = none ∨ s.lock = some c)
    (cpu : u.cpu = s.cpu) (d : C) : ScanAbove (sched u c).toTable ((sched u c).cpu d) := by
  rw [sched_spec (by rw [cpu]; exact place)]
  refine above_locked core lock (fun d other => ?_) ?_ d
  · simp [State.setLock, State.setCpu, other, cpu]
  · simp [State.setLock, State.setCpu, ScanAbove]

theorem above_wait {s : State C} (core : Core s) {c : C} {i k start : Nat} {p : Fin NPROC}
    (place : s.cpu c = .ran i k start p) (lock : s.lock = none ∨ s.lock = some c) (d : C) :
    ScanAbove (wait s c p).toTable ((wait s c p).cpu d) := by
  unfold wait
  split
  · refine above_locked core lock ?_ ?_ d
    · exact fun _ _ => rfl
    · simp [State.setLock, State.setPc, State.onTable, place, ScanAbove]
  · split
    · refine above_locked core lock ?_ ?_ d
      · exact fun _ _ => rfl
      · simp [State.setLock, State.setPc, place, ScanAbove]
    · refine above_sched core place lock ?_ d
      rfl

theorem step_above {s t : State C} {a : Action C} (inv : Inv s)
    (above : ∀ c, ScanAbove s.toTable (s.cpu c)) (undisturbed : Undisturbed s a) (moves : Moves s a t)
    (d : C) : ScanAbove t.toTable (t.cpu d) := by
  have core := inv.core
  cases moves with
  | @userinit c p place free unused =>
    refine above_locked (c := c) core (Or.inl free) (fun d other => ?_) ?_ d
    · simp [State.setCpu, State.onTable, other]
    · simp [State.setCpu, ScanAbove]
  | @publishInit c p place free =>
    refine above_locked (c := c) core (Or.inl free) (fun d other => ?_) ?_ d
    · simp [State.setCpu, State.onTable, other]
    · simp [State.setCpu, ScanAbove]
  | tick => exact above d
  | @acquire c place free =>
    refine above_locked (c := c) core (Or.inl free) (fun d other => ?_) ?_ d
    · rw [acquire_cpu, Function.update_of_ne other]
    · rw [acquire_cpu, Function.update_self]
      refine ⟨Or.inr rfl, Or.inl fun j more most _ => ?_⟩
      unfold MAXPRIORITY at most
      omega
  | release place mine nobody =>
    refine above_locked core (Or.inr mine) (fun d other => ?_) ?_ d
    · simp [State.setLock, State.setCpu, other]
    · simp [State.setLock, State.setCpu, ScanAbove]
  | @dispatch c i k i' k' check p place mine found cell =>
    obtain ⟨_,_,_,_,_,cpu,_⟩ := dispatch_spec s c i' k' p
    refine above_locked core (Or.inr mine) (fun d other => ?_) ?_ d
    · rw [cpu, Function.update_of_ne other]
    · rw [cpu, Function.update_self]
      trivial
  | @requeue c i k start p place mine =>
    refine above_locked core (Or.inr mine) (fun d other => ?_) ?_ d
    · simp [State.setCpu, State.onTable, other]
    · have after : ScanAbove (requeue s.toTable p (int (s.ticks - start))) (.scan i (k + 1) true) := by
        refine ⟨Or.inl rfl, ?_⟩
        simp only [waiting_requeue core.sound]
        exact undisturbed i k start p place
      simpa [State.setCpu, State.onTable] using after
  | yield place free =>
    refine above_sched core place (Or.inl free) ?_ d
    rfl
  | sleep place free pc =>
    refine above_sched core place (Or.inl free) ?_ d
    rfl
  | @wakeup chan free =>
    have cpu := s.onTable_cpu fun t => wakeup1 t (some chan)
    generalize (s.onTable fun t => wakeup1 t (some chan)) = u at cpu ⊢
    exact above_free core free cpu d
  | kill place free =>
    refine above_free core free ?_ d
    rfl
  | @setpriority c pid priority i k start p place other =>
    refine scanAbove_congr (setpriority_queue pid priority).1 (fun q now => ?_) (above d)
    rwa [setpriority_state] at now
  | full place free => exact above d
  | allocproc place free pc unused =>
    refine above_free core free ?_ d
    rfl
  | kalloc place pc => exact above d
  | @copyuvm c i k start p np place pc =>
    refine scanAbove_congr (t := s.toTable) ?_ (fun q now => ?_) (above d)
    · rfl
    by_cases same : q = np
    · subst same
      simpa [State.setPc, State.onTable, Table.set] using now
    · simpa [State.setPc, State.onTable, Table.set, same] using now
  | @discard c _ stage i k start p np place pc failed =>
    refine scanAbove_congr (t := s.toTable) ?_ (fun q now => ?_) (above d)
    · rfl
    by_cases same : q = np
    · subst same
      simp [State.setPc, State.onTable, Table.set] at now
    · simpa [State.setPc, State.onTable, Table.set, same] using now
  | publish place free pc =>
    refine above_free core free ?_ d
    rfl
  | exit place free =>
    refine above_sched core place (Or.inl free) ?_ d
    rfl
  | wait place free => exact above_wait core place free d

theorem undisturbed_runs_strict {s : State C} (reach : (system C).Reach Undisturbed s) :
    StrictPriority s := by
  have both : Inv s ∧ ∀ c, ScanAbove s.toTable (s.cpu c) := by
    refine System.reach_invariant (system C)
      (I := fun s => Inv s ∧ ∀ c, ScanAbove s.toTable (s.cpu c)) ?_ ?_ reach
    · intro s start
      refine ⟨inv_start start, fun d => ?_⟩
      obtain ⟨c,boot,tops⟩ := start.2.2.2.2.2.2.2.2.2
      by_cases same : d = c
      · simp [same, boot, ScanAbove]
      · simp [tops d same, ScanAbove]
    · intro s a t before undisturbed run
      obtain ⟨_,moves⟩ := next_moves run
      exact ⟨inv_moves before.1 moves, step_above before.1 before.2 undisturbed moves⟩
  exact strict_of_above both.2

end Runs

theorem firstPass_undisturbed : (system Unit).Reach Undisturbed firstPass := by
  have boot : System.exec next poweredOn [.userinit (), .publishInit ()] = some initReady := by
    simp only [initReady, Option.some_get]
  have pass : System.exec next initReady (List.replicate 20 .tick ++ [.acquire ()]) = some firstPass := by
    simp only [firstPass, Option.some_get]
  refine System.exec_reach _ (fun a member s => ?_)
    (System.exec_reach _ (fun a member s => ?_) (.start poweredOn_start) boot) pass
  · simp only [List.mem_append, List.mem_replicate, List.mem_singleton] at member
    rcases member with ⟨_,same⟩ | same <;> subst same <;> trivial
  · simp only [List.mem_cons, List.not_mem_nil, or_false] at member
    rcases member with same | same <;> subst same <;> trivial

theorem firstPass_dispatches : Dispatches firstPass () 1 0 0 := by
  refine ⟨2, 0, false, ?_⟩
  decide +kernel

theorem undisturbed_runs_strict_firstPass : (system Unit).Reach Undisturbed firstPass ∧
    Dispatches firstPass () 1 0 0 ∧ StrictPriority firstPass :=
  ⟨firstPass_undisturbed, firstPass_dispatches, undisturbed_runs_strict firstPass_undisturbed⟩

/-- The first process, of level 1, forks and yields: its child waits at level 2. -/
def childWaits : State Unit :=
  (System.exec next initRuns
    [.allocproc (), .kalloc () true, .copyuvm () true, .publish (), .yield (), .requeue ()]).get
    (by decide +kernel)

theorem childWaits_reach : (system Unit).Reach System.Free childWaits := by
  have run : System.exec next initRuns [.allocproc (), .kalloc () true, .copyuvm () true,
      .publish (), .yield (), .requeue ()] = some childWaits := by
    simp only [childWaits, Option.some_get]
  exact System.exec_reach _ (fun _ _ _ => trivial) initRuns_reach run

theorem parent_runs_before_child : (system Unit).Reach System.Free childWaits ∧
    Dispatches childWaits () 1 1 0 ∧ ¬ StrictPriority childWaits := by
  have picked : Dispatches childWaits () 1 1 0 := by
    refine ⟨1, 1, true, ?_⟩
    decide +kernel
  refine ⟨childWaits_reach, picked, fun strict => ?_⟩
  have child : Waiting childWaits.toTable 2 := by
    refine ⟨1, ?_⟩
    decide +kernel
  exact strict () 1 1 0 picked 2 (by decide) (by decide) child

section Deadline

/-- A dispatch happens before the next promotion is due. -/
def Punctual (s : State Unit) : Prop :=
  ∀ c i k p, Dispatches s c i k p → s.ticks < s.promoteAtTime

/-- One CPU: no clock interrupt is taken in the locked part of `scheduler`. -/
def OneCpu (s : State Unit) : Action Unit → Prop
  | .tick => ¬ Holds (s.cpu ())
  | _ => True

/-- When a process of level `i` comes back after the deadline, no RUNNABLE process is
    queued from level `i` down, itself included; and a promotion pass that lets the
    next deadline wrap around finds nothing RUNNABLE. -/
def Timely (s : State Unit) : Action Unit → Prop
  | .requeue _ => s.promoteAtTime ≤ s.ticks → ∀ i k start p, s.cpu () = .back i k start p →
      ∀ j : Int, 0 ≤ j → j ≤ i →
        ¬ WaitingWith s.toTable p (backLevel s.toTable p (int (s.ticks - start))) j
  | .acquire _ => s.promoteAtTime ≤ s.ticks → 2 ^ 32 ≤ s.ticks + TICKS_TO_PROMOTE →
      ∀ p, (s.proc p).state ≠ .runnable
  | _ => True

/-- A scan is before the deadline or has nothing left to find. -/
def ScanDue (s : State Unit) : Prop :=
  ∀ i k check, s.cpu () = .scan i k check →
    s.ticks < s.promoteAtTime ∨ ∀ j : Int, 0 ≤ j → j ≤ i → ¬ Waiting s.toTable j

theorem punctual_of_due {s : State Unit} (due : ScanDue s) : Punctual s := by
  rintro c i k p ⟨from_,at_,check,place,mine,found,cell⟩
  rcases due from_ at_ check place with early | none
  · exact early
  · obtain ⟨inside,runnable⟩ := search_cell found cell
    obtain ⟨low,_⟩ := search_some found
    have entry := Queue.mem_entries.mpr ⟨k,inside,cell⟩
    exact absurd ⟨p,runnable,entry⟩ (none i (by omega) (by omega))

theorem promoteOne_state (t : Table) (p q : Fin NPROC) :
    ((promoteOne t p).proc q).state = (t.proc q).state := by
  unfold promoteOne
  split
  · have out : (dequeue t p).proc = t.proc := by
      unfold dequeue
      dsimp only
      split <;> rfl
    have raised := setpriority_state (t := dequeue t p) ((dequeue t p).proc p).pid
      (((dequeue t p).proc p).priority + 1) q
    dsimp only
    generalize setpriority (dequeue t p) ((dequeue t p).proc p).pid
      (((dequeue t p).proc p).priority + 1) = u at raised ⊢
    rw [out] at raised
    rw [← raised]
    by_cases same : q = p
    · subst same
      simp [enqueue, Table.setQueue, resetBudget, Table.set]
    · simp [enqueue, Table.setQueue, resetBudget, Table.set, same]
  · rfl

theorem promote_state (t : Table) (q : Fin NPROC) :
    ((promote t).proc q).state = (t.proc q).state := by
  unfold promote
  generalize List.finRange NPROC = l
  induction l generalizing t with
  | nil => rfl
  | cons p rest ih => exact (ih (promoteOne t p)).trans (promoteOne_state t p q)

theorem acquire_clock (s : State Unit) (c : Unit) : (acquire s c).ticks = s.ticks ∧
    (acquire s c).promoteAtTime =
      if s.promoteAtTime ≤ s.ticks then uint (s.ticks + TICKS_TO_PROMOTE) else s.promoteAtTime := by
  unfold acquire
  dsimp only [State.setCpu, State.setLock]
  generalize promote = f
  split <;> exact ⟨rfl,rfl⟩

theorem acquire_due_scan {s : State Unit} {c : Unit} (timely : Timely s (.acquire c)) :
    ScanDue (acquire s c) := by
  obtain ⟨ticks,promoteAtTime⟩ := acquire_clock s c
  have table := acquire_table s c
  intro i k check _
  rw [ticks, promoteAtTime, table]
  split
  · rename_i now
    by_cases wraps : 2 ^ 32 ≤ s.ticks + TICKS_TO_PROMOTE
    · right
      rintro j _ _ ⟨q,runnable,_⟩
      rw [promote_state] at runnable
      exact timely now wraps q runnable
    · left
      unfold uint TICKS_TO_PROMOTE at *
      omega
  · rename_i later
    exact Or.inl (Nat.lt_of_not_le later)

theorem due_elsewhere {s : State Unit} {cpu : Cpu} (place : s.cpu () = cpu)
    (outside : ∀ i k check, cpu ≠ .scan i k check) : ScanDue s := by
  intro i k check wrong
  exact absurd (place.symm.trans wrong) (outside i k check)

theorem due_sched {u : State Unit} {c : Unit} {i k start : Nat} {p : Fin NPROC}
    (place : u.cpu c = .ran i k start p) : ScanDue (sched u c) := by
  rw [sched_spec place]
  have place : ((u.setCpu c (.back i k start p)).setLock (some c)).cpu () = .back i k start p := by
    simp [State.setLock, State.setCpu]
  exact due_elsewhere place (by simp)

theorem due_free {s t : State Unit} (core : Core s) (free : s.lock = none) (cpu : t.cpu = s.cpu) :
    ScanDue t := by
  intro i k check wrong
  have held := core.held () (by rw [← cpu, wrong]; trivial)
  simp [free] at held

theorem step_due {s t : State Unit} {a : Action Unit} (inv : Inv s)
    (clock : OneCpu s a) (timely : Timely s a) (moves : Moves s a t) : ScanDue t := by
  have core := inv.core
  cases moves with
  | userinit place free unused => exact due_elsewhere rfl (by simp [State.setCpu])
  | publishInit place free => exact due_elsewhere rfl (by simp [State.setCpu])
  | tick =>
    refine due_elsewhere rfl fun i k check scan => clock ?_
    change s.cpu () = .scan i k check at scan
    rw [scan]
    trivial
  | acquire place free => exact acquire_due_scan timely
  | release place mine nobody => exact due_elsewhere rfl (by simp [State.setLock, State.setCpu])
  | @dispatch c i k i' k' check p place mine found cell =>
    obtain ⟨_,_,_,_,_,cpu,_⟩ := dispatch_spec s c i' k' p
    exact due_elsewhere rfl (by simp [cpu])
  | @requeue c i k start p place mine =>
    intro i' k' check scan
    simp only [State.setCpu, Function.update_self, Cpu.scan.injEq] at scan
    obtain ⟨rfl,_,_⟩ := scan
    by_cases now : s.promoteAtTime ≤ s.ticks
    · right
      intro j more most waiting
      exact timely now i k start p place j more most ((waiting_requeue core.sound).mp waiting)
    · exact Or.inl (Nat.lt_of_not_le now)
  | yield place free =>
    apply due_sched
    exact place
  | sleep place free pc =>
    apply due_sched
    exact place
  | @wakeup chan free =>
    have cpu := s.onTable_cpu fun t => wakeup1 t (some chan)
    generalize (s.onTable fun t => wakeup1 t (some chan)) = u at cpu ⊢
    exact due_free core free cpu
  | kill place free => exact due_elsewhere place (by simp)
  | setpriority place other => exact due_elsewhere place (by simp)
  | full place free => exact due_elsewhere place (by simp)
  | allocproc place free pc unused => exact due_elsewhere place (by simp)
  | kalloc place pc => exact due_elsewhere place (by simp)
  | copyuvm place pc => exact due_elsewhere place (by simp)
  | discard place pc failed => exact due_elsewhere place (by simp)
  | publish place free pc => exact due_elsewhere place (by simp)
  | @exit c i k start p place free =>
    have cpu := s.onTable_cpu fun t => exit t s.initproc p
    generalize (s.onTable fun t => exit t s.initproc p) = u at cpu ⊢
    exact due_sched (cpu ▸ place)
  | @wait c i k start p place free =>
    unfold wait
    split
    · exact due_elsewhere place (by simp)
    · split
      · exact due_elsewhere place (by simp)
      · apply due_sched
        exact place

theorem timely_runs_punctual {s : State Unit}
    (reach : (system Unit).Reach (fun s a => OneCpu s a ∧ Timely s a) s) : Punctual s := by
  have both : Inv s ∧ ScanDue s := by
    refine System.reach_invariant (system Unit) (I := fun s => Inv s ∧ ScanDue s) ?_ ?_ reach
    · intro s start
      refine ⟨inv_start start, ?_⟩
      obtain ⟨c,boot,_⟩ := start.2.2.2.2.2.2.2.2.2
      exact due_elsewhere boot (by simp)
    · intro s a t before allowed run
      obtain ⟨_,moves⟩ := next_moves run
      exact ⟨inv_moves before.1 moves, step_due before.1 allowed.1 allowed.2 moves⟩
  exact punctual_of_due both.2

/-- A test for `OneCpu`. -/
def interrupts (s : State Unit) : Action Unit → Bool
  | .tick =>
    match s.cpu () with
    | .scan _ _ _ => false
    | .back _ _ _ _ => false
    | _ => true
  | _ => true

/-- A test that admits steps before the deadline and far from the end of the clock. -/
def onTime (s : State Unit) (a : Action Unit) : Bool :=
  interrupts s a && match a with
    | .requeue _ => decide (s.ticks < s.promoteAtTime)
    | .acquire _ => decide (s.ticks + TICKS_TO_PROMOTE < 2 ^ 32)
    | _ => true

theorem interrupts_oneCpu (s : State Unit) (a : Action Unit) (passed : interrupts s a = true) :
    OneCpu s a := by
  cases a with
  | tick =>
    unfold interrupts at passed
    cases place : s.cpu () <;> simp [place, OneCpu, Holds] at passed ⊢
  | _ => trivial

theorem onTime_timely (s : State Unit) (a : Action Unit) (passed : onTime s a = true) :
    OneCpu s a ∧ Timely s a := by
  unfold onTime at passed
  rw [Bool.and_eq_true] at passed
  refine ⟨interrupts_oneCpu s a passed.1, ?_⟩
  cases a with
  | requeue c =>
    intro late
    have early := passed.2
    simp only [decide_eq_true_eq] at early
    omega
  | acquire c =>
    intro _ wraps
    have far := passed.2
    simp only [decide_eq_true_eq] at far
    omega
  | _ => trivial

/-- From power on to the first promotion pass. -/
def bootLabels : List (Action Unit) :=
  [.userinit (), .publishInit ()] ++ List.replicate 20 .tick ++ [.acquire ()]

def timelyPass : State Unit :=
  (System.exec (System.guarded onTime next) poweredOn bootLabels).get (by decide +kernel)

theorem timelyPass_reach : (system Unit).Reach (fun s a => OneCpu s a ∧ Timely s a) timelyPass := by
  have run : System.exec (System.guarded onTime next) poweredOn bootLabels = some timelyPass := by
    simp only [timelyPass, Option.some_get]
  exact System.guarded_reach onTime onTime_timely _ (.start poweredOn_start) run

theorem timely_runs_punctual_firstPass :
    (system Unit).Reach (fun s a => OneCpu s a ∧ Timely s a) timelyPass ∧
    Dispatches timelyPass () 1 0 0 ∧ Punctual timelyPass := by
  refine ⟨timelyPass_reach, ⟨2, 0, false, ?_⟩, timely_runs_punctual timelyPass_reach⟩
  decide +kernel

/-- The first process computes for 20 ticks: it is preempted at each of them and picked
    again from the level it has sunk to. -/
def overdue : State Unit :=
  (System.exec (System.guarded interrupts next) poweredOn (bootLabels ++ [.scan ()] ++
    (List.replicate 19 [.tick, .yield (), .requeue (), .scan ()]).flatten ++
    [.tick, .yield (), .requeue ()])).get (by decide +kernel)

theorem overdue_reach : (system Unit).Reach OneCpu overdue := by
  have run : System.exec (System.guarded interrupts next) poweredOn (bootLabels ++ [.scan ()] ++
      (List.replicate 19 [.tick, .yield (), .requeue (), .scan ()]).flatten ++
      [.tick, .yield (), .requeue ()]) = some overdue := by
    simp only [overdue, Option.some_get]
  exact System.guarded_reach interrupts interrupts_oneCpu _ (.start poweredOn_start) run

theorem busy_process_passes_deadline : (system Unit).Reach OneCpu overdue ∧
    Dispatches overdue () 0 62 0 ∧ ¬ Punctual overdue := by
  have late : overdue.promoteAtTime ≤ overdue.ticks ∧ overdue.cpu () = .scan 0 63 true ∧
      overdue.lock = some () ∧ search overdue.toTable 0 63 true = some (0, 62) ∧
      (overdue.queue (0 : Nat)).cell 62 = some 0 := by decide +kernel
  have picked : Dispatches overdue () 0 62 0 := ⟨0, 63, true, late.2⟩
  refine ⟨overdue_reach, picked, fun punctual => ?_⟩
  have early := punctual () 0 62 0 picked
  omega

end Deadline
end MlfqPriority
