import KernelLabs.Lab2.MlfqSafe

/-!
One turn of a process: its entry is taken out of a level, it runs for some ticks, and the
requeue puts it at the tail of the level it has then. The requeue finds the process by its
pid, which no other slot has as long as `nextpid` does not wrap.
-/
namespace MlfqRequeue
open Mlfq MlfqMoves MlfqQueued MlfqRuns MlfqCapacity MlfqSafe ArrayQueue Transition
open Xv6Proc (NPROC Procstate Chan Stage Pc)

/-- No pid changes and no slot comes into use. -/
def Named (t u : Table) : Prop :=
  ∀ q, (u.proc q).pid = (t.proc q).pid ∧ ((u.proc q).state ≠ .unused → (t.proc q).state ≠ .unused)

section Tables
variable {t u v : Table}

theorem named_refl (t : Table) : Named t t := fun _ => ⟨rfl,id⟩

theorem named_trans (first : Named t u) (later : Named u v) : Named t v :=
  fun q => ⟨(later q).1.trans (first q).1, fun used => (first q).2 ((later q).2 used)⟩

theorem named_of_proc (same : u.proc = t.proc) : Named t u := by
  intro q
  rw [same]
  exact ⟨rfl,id⟩

theorem named_foldl {f : Table → Fin NPROC → Table} (one : ∀ t p, Named t (f t p)) (l : List (Fin NPROC)) (t : Table) :
    Named t (l.foldl f t) := by
  induction l generalizing t with
  | nil => exact named_refl t
  | cons p rest ih => exact named_trans (one t p) (ih (f t p))

theorem named_set {i : Fin NPROC} {me : Proc} (pid : me.pid = (t.proc i).pid)
    (used : me.state ≠ .unused → (t.proc i).state ≠ .unused) : Named t (t.set i me) := by
  intro q
  by_cases same : q = i
  · subst same
    simpa [Table.set] using ⟨pid,used⟩
  · simp [Table.set, same]

theorem named_setpriority (t : Table) (pid priority : Int) : Named t (setpriority t pid priority) := by
  unfold setpriority
  split
  · exact named_refl t
  · split
    · exact named_refl t
    · exact named_set rfl id

theorem dequeue_proc (t : Table) (p : Fin NPROC) : (dequeue t p).proc = t.proc := by
  unfold dequeue
  dsimp only
  split <;> rfl

theorem named_promoteOne (t : Table) (p : Fin NPROC) : Named t (promoteOne t p) := by
  unfold promoteOne
  split
  · have raised := named_setpriority (dequeue t p) ((dequeue t p).proc p).pid (((dequeue t p).proc p).priority + 1)
    have reset : ∀ u, Named u (resetBudget u p) := fun u => named_set rfl id
    exact named_trans (named_of_proc (dequeue_proc t p)) (named_trans raised (named_trans (reset _) (named_of_proc rfl)))
  · exact named_refl t

theorem named_promote (t : Table) : Named t (promote t) := named_foldl named_promoteOne _ t

theorem named_wakeOne (chan : Option Chan) (t : Table) (p : Fin NPROC) : Named t (wakeOne chan t p) := by
  unfold wakeOne
  split
  · rename_i asleep
    have woken : Named t (t.set p { t.proc p with state := .runnable }) :=
      named_set rfl fun _ => by rw [asleep.1]; decide
    dsimp only
    split
    · exact woken
    · exact named_trans woken (named_of_proc rfl)
  · exact named_refl t

theorem named_wakeup1 (t : Table) (chan : Option Chan) : Named t (wakeup1 t chan) :=
  named_foldl (named_wakeOne chan) _ t

theorem named_kill (t : Table) (pid : Int) : Named t (kill t pid) := by
  unfold kill
  split
  · exact named_refl t
  · rename_i i _
    dsimp only
    split
    · rename_i asleep
      exact named_set rfl fun _ => by rw [asleep]; decide
    · exact named_set rfl id

theorem named_abandon (initproc : Option (Fin NPROC)) (p : Fin NPROC) (t : Table) (i : Fin NPROC) :
    Named t (abandon initproc p t i) := by
  unfold abandon
  split
  · have moved : Named t (t.set i { t.proc i with parent := initproc }) := named_set rfl id
    dsimp only
    split
    · exact named_trans moved (named_wakeup1 _ _)
    · exact moved
  · exact named_refl t

theorem named_exit (initproc : Option (Fin NPROC)) {p : Fin NPROC} (used : (t.proc p).state ≠ .unused) :
    Named t (exit t initproc p) := by
  have before := named_trans (named_wakeup1 t ((t.proc p).parent.map .slot))
    (named_foldl (named_abandon initproc p) (List.finRange NPROC) _)
  unfold exit
  dsimp only
  generalize (List.finRange NPROC).foldl (abandon initproc p) (wakeup1 t ((t.proc p).parent.map .slot)) = u at before ⊢
  intro q
  by_cases same : q = p
  · subst same
    refine ⟨?_, fun _ => used⟩
    simpa [Table.set] using (before q).1
  · simpa [Table.set, same] using before q

theorem named_requeue (t : Table) (p : Fin NPROC) (ran : Int) : Named t (requeue t p ran) := by
  have charged : Named t (t.set p { t.proc p with budget := int ((t.proc p).budget - ran) }) := named_set rfl id
  unfold requeue
  dsimp only
  split
  · exact named_trans charged (named_trans (named_setpriority _ _ _) (named_of_proc rfl))
  · exact named_trans charged (named_of_proc rfl)

theorem named_publish {np : Fin NPROC} (used : (t.proc np).state ≠ .unused) : Named t (publish t np) := by
  have shown : Named t (t.set np { t.proc np with state := .runnable, priority := MAXPRIORITY, budget := DEFAULT_BUDGET }) :=
    named_set rfl fun _ => used
  exact named_trans shown (named_of_proc rfl)

end Tables

section Runs
variable {C : Type} [DecidableEq C] {s t : State C}

/-- What a step does to the pids: it frees a slot, or takes one into use under the next
    pid, or neither. -/
inductive Pids (s t : State C) : Prop where
  | same (names : Named s.toTable t.toTable) (next : t.nextpid = s.nextpid)
  | freed {z : Fin NPROC} (zombie : (s.proc z).state = .zombie) (idle : ∀ d, has (s.cpu d) ≠ some z) (gone : (t.proc z).pid = 0 ∧ (t.proc z).state = .unused)
      (others : ∀ q, q ≠ z → t.proc q = s.proc q) (next : t.nextpid = s.nextpid)
  | born {np : Fin NPROC} (free : s.lock = none) (unused : (s.proc np).state = .unused) (pid : (t.proc np).pid = s.nextpid)
      (others : ∀ q, q ≠ np → t.proc q = s.proc q) (next : t.nextpid = int (s.nextpid + 1))

omit [DecidableEq C] in
theorem core_used (core : Core s) {c : C} {i k start : Nat} {p : Fin NPROC} (place : s.cpu c = .ran i k start p) :
    (s.proc p).state ≠ .unused := by
  rw [core.running c p (by simp [place, runs])]
  decide

omit [DecidableEq C] in
theorem onTable_nextpid (s : State C) (f : Table → Table) : (s.onTable f).nextpid = s.nextpid := rfl

theorem acquire_pids (s : State C) (c : C) : Pids s (acquire s c) := by
  refine .same ?_ ?_
  · rw [acquire_table]
    split
    · exact named_promote s.toTable
    · exact named_refl s.toTable
  · unfold acquire
    dsimp only
    generalize promote = f
    split <;> rfl

theorem sched_nextpid (s : State C) (c : C) : (sched s c).nextpid = s.nextpid := by
  unfold sched
  split <;> rfl

theorem wait_pids (core : Core s) {c : C} {i k start : Nat} {p : Fin NPROC} (place : s.cpu c = .ran i k start p)
    (free : s.lock = none ∨ s.lock = some c) : Pids s (wait s c p) := by
  unfold wait
  split
  · rename_i z found
    have zombie := firstZombie_some found
    refine .freed zombie (zombie_idle core place free zombie) ?_ (fun q other => ?_) rfl
    · simp [State.setLock, State.setPc, State.onTable, reap, Table.set]
    · simp [State.setLock, State.setPc, State.onTable, reap, Table.set, other]
  · split
    · exact .same (named_refl _) rfl
    · refine .same ?_ (sched_nextpid _ _)
      rw [sched_table]
      exact named_set rfl fun _ => core_used core place

theorem dispatch_names (s : State C) (c : C) (i k : Nat) {p : Fin NPROC} (used : (s.proc p).state ≠ .unused) :
    Named s.toTable (dispatch s c i k p).toTable ∧ (dispatch s c i k p).nextpid = s.nextpid := by
  have removed : Named s.toTable (s.toTable.setQueue i ((s.queue i).removeAt k)) := named_of_proc rfl
  unfold dispatch
  dsimp only
  split
  · exact ⟨named_trans removed (named_set rfl fun _ => used), rfl⟩
  · exact ⟨named_trans removed (named_set rfl fun _ => used), rfl⟩
  · exact ⟨named_trans removed (named_set rfl fun _ => used), rfl⟩

theorem step_pids {a : Action C} (core : Core s) (moves : Moves s a t) : Pids s t := by
  cases moves with
  | @userinit c p place free unused =>
    refine .born free unused ?_ (fun q other => ?_) rfl
    · simp [State.setCpu, State.onTable, Table.set]
    · simp [State.setCpu, State.onTable, Table.set, other]
  | @publishInit c p place free =>
    refine .same (named_set rfl fun _ => ?_) rfl
    rw [(core.setup c p place).1]
    decide
  | tick => exact .same (named_refl _) rfl
  | @acquire c place free => exact acquire_pids s c
  | release place mine nobody => exact .same (named_refl _) rfl
  | @dispatch c i k i' k' check p place mine found cell =>
    have used : (s.proc p).state ≠ .unused := by
      rw [(search_cell found cell).2]
      decide
    exact .same (dispatch_names s c i' k' used).1 (dispatch_names s c i' k' used).2
  | @requeue c i k start p place mine => exact .same (named_requeue _ _ _) rfl
  | @yield c i k start p place free =>
    refine .same ?_ (sched_nextpid _ _)
    rw [sched_table]
    exact named_set rfl fun _ => core_used core place
  | @sleep c addr i k start p place free pc =>
    refine .same ?_ (sched_nextpid _ _)
    rw [sched_table]
    exact named_set rfl fun _ => core_used core place
  | @wakeup chan free =>
    refine .same ?_ (onTable_nextpid s _)
    rw [State.onTable_table]
    exact named_wakeup1 _ _
  | @kill c pid i k start p place free => exact .same (named_kill _ _) rfl
  | @setpriority c pid priority i k start p place other => exact .same (named_setpriority _ _ _) rfl
  | full place free => exact .same (named_refl _) rfl
  | @allocproc c i k start p np place free pc unused =>
    refine .born free unused ?_ (fun q other => ?_) rfl
    · simp [State.setPc, State.onTable, Table.set]
    · simp [State.setPc, State.onTable, Table.set, other]
  | kalloc place pc => exact .same (named_refl _) rfl
  | @copyuvm c i k start p np place pc => exact .same (named_set rfl id) rfl
  | discard place pc failed => exact .same (named_set rfl fun used => absurd rfl used) rfl
  | @publish c i k start p np place free pc =>
    refine .same (named_publish ?_) rfl
    rw [core.forked p .copied np pc]
    decide
  | @exit c i k start p place free =>
    refine .same ?_ (sched_nextpid _ _)
    rw [sched_table, State.onTable_table]
    exact named_exit s.initproc (core_used core place)
  | @wait c i k start p place free => exact wait_pids core place free

theorem int_def (n : Int) : int n = if n % 4294967296 < 2147483648 then n % 4294967296 else n % 4294967296 - 4294967296 := by
  unfold int
  rw [Int.bmod_def]
  rfl

/-- The charge for `e` ticks wraps only once. -/
theorem int_charge (budget e : Int) : int (budget - int e) = int (budget - e) := by
  rw [int_def, int_def, int_def]
  omega

/-- No two slots that were ever used have the same pid. -/
structure Numbered (s : State C) : Prop where
  used : ∀ p, (s.proc p).state ≠ .unused → (s.proc p).pid ≠ 0
  below : ∀ p, (s.proc p).pid < s.nextpid
  distinct : ∀ p q, (s.proc p).pid ≠ 0 → (s.proc q).pid = (s.proc p).pid → q = p
  positive : 0 < s.nextpid

omit [DecidableEq C] in
theorem Numbered.step (numbered : Numbered s) (pids : Pids s t) (wraps : s.nextpid ≤ t.nextpid) : Numbered t := by
  cases pids with
  | same names next =>
    refine ⟨fun p used => ?_, fun p => ?_, fun p q nonzero same => ?_, next ▸ numbered.positive⟩
    · rw [(names p).1]
      exact numbered.used p ((names p).2 used)
    · rw [(names p).1, next]
      exact numbered.below p
    · rw [(names p).1] at nonzero same
      rw [(names q).1] at same
      exact numbered.distinct p q nonzero same
  | @freed z zombie idle gone others next =>
    refine ⟨fun p used => ?_, fun p => ?_, fun p q nonzero same => ?_, next ▸ numbered.positive⟩
    · have other : p ≠ z := fun eq => used (eq ▸ gone.2)
      rw [others p other] at used ⊢
      exact numbered.used p used
    · rw [next]
      by_cases eq : p = z
      · rw [eq, gone.1]
        exact numbered.positive
      · rw [others p eq]
        exact numbered.below p
    · have other : p ≠ z := fun eq => nonzero (eq ▸ gone.1)
      have also : q ≠ z := fun eq => nonzero (same ▸ eq ▸ gone.1)
      rw [others p other] at nonzero same
      rw [others q also] at same
      exact numbered.distinct p q nonzero same
  | @born np free unused pid others next =>
    have more : t.nextpid = s.nextpid + 1 := by
      have positive := numbered.positive
      rw [next, int_def] at wraps ⊢
      omega
    refine ⟨fun p used => ?_, fun p => ?_, fun p q nonzero same => ?_, Int.lt_of_lt_of_le numbered.positive wraps⟩
    · by_cases eq : p = np
      · rw [eq, pid]
        exact (Int.ne_of_lt numbered.positive).symm
      · rw [others p eq] at used ⊢
        exact numbered.used p used
    · by_cases eq : p = np
      · rw [eq, pid, more]
        exact Int.lt_succ _
      · rw [others p eq, more]
        exact Int.lt_trans (numbered.below p) (Int.lt_succ _)
    · by_cases eqP : p = np
      · by_cases eqQ : q = np
        · exact eqQ.trans eqP.symm
        · rw [eqP, pid, others q eqQ] at same
          exact absurd same (Int.ne_of_lt (numbered.below q))
      · rw [others p eqP] at nonzero same
        by_cases eqQ : q = np
        · rw [eqQ, pid] at same
          exact absurd same.symm (Int.ne_of_lt (numbered.below p))
        · rw [others q eqQ] at same
          exact numbered.distinct p q nonzero same

theorem sched_has (s : State C) (c d : C) : has ((sched s c).cpu d) = has (s.cpu d) := by
  unfold sched
  split
  · rename_i i k start p place
    by_cases same : d = c
    · rw [same, place]
      simp [State.setLock, State.setCpu, has]
    · simp [State.setLock, State.setCpu, same]
  · rfl

/-- A CPU gets a process only by taking a RUNNABLE one out of a queue. -/
theorem step_has {a : Action C} (moves : Moves s a t) {d : C} {q : Fin NPROC} (after : has (t.cpu d) = some q) :
    has (s.cpu d) = some q ∨ (s.proc q).state = .runnable := by
  have moved : ∀ {c : C} {new : Cpu}, t.cpu = Function.update s.cpu c new → has new = none → has (s.cpu d) = some q := by
    intro c new cpu none
    rw [cpu] at after
    by_cases same : d = c
    · rw [same, Function.update_self, none] at after
      cases after
    · rwa [Function.update_of_ne same] at after
  cases moves with
  | userinit place free unused => exact Or.inl (moved rfl rfl)
  | publishInit place free => exact Or.inl (moved rfl rfl)
  | acquire place free => exact Or.inl (moved (acquire_cpu s _) rfl)
  | release place mine nobody => exact Or.inl (moved rfl rfl)
  | @dispatch c i k i' k' check p place mine found cell =>
    obtain ⟨_,_,_,_,_,cpu,_⟩ := dispatch_spec s c i' k' p
    rw [cpu] at after
    by_cases same : d = c
    · rw [same, Function.update_self] at after
      have eq : p = q := Option.some.inj after
      exact Or.inr (eq ▸ (search_cell found cell).2)
    · rw [Function.update_of_ne same] at after
      exact Or.inl after
  | requeue place mine => exact Or.inl (moved rfl rfl)
  | yield place free => exact Or.inl (by rwa [sched_has] at after)
  | sleep place free pc => exact Or.inl (by rwa [sched_has] at after)
  | exit place free => exact Or.inl (by rwa [sched_has] at after)
  | wait place free =>
    unfold wait at after
    split at after
    · exact Or.inl after
    · split at after
      · exact Or.inl after
      · exact Or.inl (by rwa [sched_has] at after)
  | tick => exact Or.inl after
  | wakeup free => exact Or.inl after
  | kill place free => exact Or.inl after
  | setpriority place other => exact Or.inl after
  | full place free => exact Or.inl after
  | allocproc place free pc unused => exact Or.inl after
  | kalloc place pc => exact Or.inl after
  | copyuvm place pc => exact Or.inl after
  | discard place pc failed => exact Or.inl after
  | publish place free pc => exact Or.inl after

/-- The process of a CPU has a pid. -/
def Busy (s : State C) : Prop := ∀ c p, has (s.cpu c) = some p → (s.proc p).pid ≠ 0

theorem step_busy {a : Action C} (inv : Inv s) (numbered : Numbered s) (busy : Busy s) (run : step s a = some t) : Busy t := by
  have moves := step_moves run
  intro c p on
  have before : (s.proc p).pid ≠ 0 := by
    rcases step_has moves on with there | runnable
    · exact busy c p there
    · exact numbered.used p (by rw [runnable]; decide)
  cases step_pids inv.core moves with
  | same names next =>
    rw [(names p).1]
    exact before
  | @freed z zombie idle gone others next =>
    by_cases eq : p = z
    · rcases step_has moves on with there | runnable
      · exact absurd (eq ▸ there) (idle c)
      · rw [eq, zombie] at runnable
        cases runnable
    · rw [others p eq]
      exact before
  | @born np free unused pid others next =>
    by_cases eq : p = np
    · rw [eq, pid]
      exact (Int.ne_of_lt numbered.positive).symm
    · rw [others p eq]
      exact before

/-- The step does not wrap `nextpid`. -/
def Unwrapped (s : State C) (a : Action C) : Prop := ∀ t, step s a = some t → s.nextpid ≤ t.nextpid

theorem reach_numbered (reach : (system C).Reach Unwrapped s) : Inv s ∧ Numbered s ∧ Busy s := by
  refine System.reach_invariant (system C) (I := fun s => Inv s ∧ Numbered s ∧ Busy s) (fun s start => ⟨inv_start start, ?_, ?_⟩) ?_ reach
  · obtain ⟨proc,_,_,_,nextpid,_⟩ := start
    refine ⟨fun p used => ?_, fun p => ?_, fun p q nonzero _ => ?_, by rw [nextpid]; decide⟩
    · rw [proc p] at used
      exact absurd rfl used
    · rw [proc p, nextpid]
      decide
    · rw [proc p] at nonzero
      exact absurd rfl nonzero
  · obtain ⟨_,_,_,_,_,_,_,_,_,c,boot,tops⟩ := start
    intro d p on
    by_cases same : d = c
    · simp [same, boot, has] at on
    · simp [tops d same, has] at on
  · rintro s a t ⟨inv,numbered,busy⟩ unwrapped run
    obtain ⟨within,moves⟩ := next_moves run
    have ran : step s a = some t := by
      unfold system next at run
      simpa [within] using run
    exact ⟨inv_moves inv moves, numbered.step (step_pids inv.core moves) (unwrapped t ran), step_busy inv numbered busy ran⟩

end Runs

section Turns
variable {t u v : Table} {p : Fin NPROC}

/-- Priority and budget of a process with `left` ticks of its budget left. -/
def charged (priority left : Int) : Int × Int :=
  if 0 < left then (priority, left)
  else if 0 < priority then (priority - 1, DEFAULT_BUDGET)
  else (0, left)

/-- The entries of the three levels. -/
def levels (t : Table) : List (Option (Fin NPROC)) := (t.queue 2).entries ++ (t.queue 1).entries ++ (t.queue 0).entries

/-- From table `t` to table `v` with entry `k` of level `i` moved to the tail of the level that
    its process has at the end. -/
structure Requeued (t : Table) (i k : Nat) (p : Fin NPROC) (left : Int) (v : Table) : Prop where
  entries : ∀ l : Int, 0 ≤ l → l ≤ MAXPRIORITY → (v.queue l).entries =
    (if l = i then (t.queue l).entries.eraseIdx k else (t.queue l).entries) ++
      if l = (v.proc p).priority then [some p] else []
  together : (levels v).Perm (levels t)
  charge : ((v.proc p).priority, (v.proc p).budget) = charged (t.proc p).priority left
  others : ∀ q, q ≠ p → (v.proc q).priority = (t.proc q).priority ∧ (v.proc q).budget = (t.proc q).budget
  within : v.overran = t.overran

/-- The queues, the priorities and the budgets stay as they are. -/
structure Quiet (t u : Table) : Prop where
  queue : u.queue = t.queue
  overran : u.overran = t.overran
  kept : ∀ q, (u.proc q).priority = (t.proc q).priority ∧ (u.proc q).budget = (t.proc q).budget

theorem setpriority_found (alone : ∀ q, (u.proc q).pid = (u.proc p).pid → q = p) {priority : Int} (low : 0 ≤ priority)
    (high : priority ≤ MAXPRIORITY) : setpriority u (u.proc p).pid priority =
      u.set p { u.proc p with priority := priority, budget := DEFAULT_BUDGET } := by
  have found : ((List.finRange NPROC).find? fun i => (u.proc i).pid == (u.proc p).pid) = some p := by
    cases hit : (List.finRange NPROC).find? fun i => (u.proc i).pid == (u.proc p).pid with
    | none => exact absurd (beq_self_eq_true _) (List.find?_eq_none.mp hit p (List.mem_finRange p))
    | some i => rw [alone i (by simpa using List.find?_some hit)]
  unfold setpriority
  rw [if_neg (by omega), found]

/-- The requeue when no other slot has the pid. -/
theorem requeue_eq (sound : Sound u) (alone : ∀ q, (u.proc q).pid = (u.proc p).pid → q = p) (ran : Int) :
    ∃ me : Proc, requeue u p ran = enqueue (u.set p me) p ∧
      (me.priority, me.budget) = charged (u.proc p).priority (int ((u.proc p).budget - ran)) := by
  obtain ⟨low,high⟩ := sound.range p
  unfold requeue charged
  dsimp only
  generalize int ((u.proc p).budget - ran) = left
  have mine : (u.set p { u.proc p with budget := left }).proc p = { u.proc p with budget := left } := by simp [Table.set]
  rw [mine]
  dsimp only
  by_cases spent : left ≤ 0
  · rw [if_neg (Int.not_lt.mpr spent)]
    by_cases lower : 0 < (u.proc p).priority
    · have still : ∀ q, ((u.set p { u.proc p with budget := left }).proc q).pid = (u.proc q).pid := by
        intro q
        by_cases same : q = p
        · subst same
          simp [Table.set]
        · simp [Table.set, same]
      have down : 0 ≤ (u.proc p).priority - 1 ∧ (u.proc p).priority - 1 ≤ MAXPRIORITY := by omega
      have alone' : ∀ q, ((u.set p { u.proc p with budget := left }).proc q).pid =
          ((u.set p { u.proc p with budget := left }).proc p).pid → q = p :=
        fun q same => alone q (by rwa [still, still] at same)
      have found := setpriority_found alone' down.1 down.2
      rw [still] at found
      rw [if_pos ⟨spent,lower⟩, if_pos lower, found]
      refine ⟨{ u.proc p with priority := (u.proc p).priority - 1, budget := DEFAULT_BUDGET }, ?_, rfl⟩
      simp [Table.set]
    · rw [if_neg fun both => lower both.2, if_neg lower]
      exact ⟨{ u.proc p with budget := left }, rfl, by rw [show (u.proc p).priority = 0 by omega]⟩
  · rw [if_neg fun both => spent both.1, if_pos (Int.not_le.mp spent)]
    exact ⟨{ u.proc p with budget := left }, rfl, rfl⟩

theorem charged_range {priority left : Int} (low : 0 ≤ priority) (high : priority ≤ MAXPRIORITY) :
    0 ≤ (charged priority left).1 ∧ (charged priority left).1 ≤ MAXPRIORITY := by
  unfold charged
  split
  · exact ⟨low,high⟩
  · split
    · dsimp only
      omega
    · exact ⟨Int.le_refl 0, show (0 : Int) ≤ MAXPRIORITY by decide⟩

/-- Taking out an entry and putting it back in some level loses and adds none. -/
theorem together_of_entries {i k : Nat} (level : (i : Int) ≤ MAXPRIORITY) (entry : (t.queue i).entries[k]? = some (some p))
    {home : Int} (low : 0 ≤ home) (high : home ≤ MAXPRIORITY)
    (entries : ∀ l : Int, 0 ≤ l → l ≤ MAXPRIORITY → (v.queue l).entries =
      (if l = i then (t.queue l).entries.eraseIdx k else (t.queue l).entries) ++ if l = home then [some p] else []) :
    (levels v).Perm (levels t) := by
  rw [List.perm_iff_count]
  intro x
  have two := entries 2 (by decide) (by decide)
  have one := entries 1 (by decide) (by decide)
  have zero := entries 0 (by decide) (by decide)
  obtain ⟨inside,at_k⟩ := List.getElem?_eq_some_iff.mp entry
  have taken := (List.getElem_cons_eraseIdx_perm inside).count_eq x
  rw [at_k, List.count_cons] at taken
  unfold levels
  rw [two, one, zero]
  rcases level_cases (Int.natCast_nonneg i) level with h | h | h <;> rcases level_cases low high with h' | h' | h' <;>
    simp only [h, h'] at taken ⊢ <;> simp [List.count_append, List.count_cons] <;> simp at taken <;> omega

/-- The entry that was taken out goes to the tail of the level that the process has then. -/
theorem requeue_entries (sound : Sound t) {i k : Nat} (inside : k < (t.queue i).count)
    (queue : u.queue = Function.update t.queue i ((t.queue i).removeAt k)) (me : Proc) (l : Int) :
    ((enqueue (u.set p me) p).queue l).entries =
      (if l = i then (t.queue l).entries.eraseIdx k else (t.queue l).entries) ++ if l = me.priority then [some p] else [] := by
  have mine : (u.set p me).proc p = me := by simp [Table.set]
  have removed : (u.queue l).entries = if l = i then (t.queue l).entries.eraseIdx k else (t.queue l).entries := by
    rw [queue]
    by_cases same : l = i
    · rw [same, Function.update_self, if_pos rfl, Queue.entries_removeAt inside]
    · rw [Function.update_of_ne same, if_neg same]
  have sized : -1 ≤ (u.queue l).size := by
    rw [queue]
    exact (sized_removeAt sound inside).sized l
  rw [enqueue_entries (t := u.set p me) p sized, mine, ← removed]
  rfl

/-- No level is full, so none is overrun. -/
theorem requeue_within (range : 0 ≤ me.priority ∧ me.priority ≤ MAXPRIORITY) {i k : Nat}
    (room : ∀ l : Int, 0 ≤ l → l ≤ MAXPRIORITY → (t.queue l).size < 2 * NPROC - 1)
    (queue : u.queue = Function.update t.queue i ((t.queue i).removeAt k)) :
    (enqueue (u.set p me) p).overran = u.overran := by
  have mine : (u.set p me).proc p = me := by simp [Table.set]
  have small : ¬ (2 * NPROC : Int) ≤ (((u.set p me).queue me.priority).push p).size := by
    have less := room me.priority range.1 range.2
    change ¬ (2 * NPROC : Int) ≤ ((u.queue me.priority).push p).size
    rw [Queue.size_push, queue]
    by_cases same : me.priority = i
    · rw [same, Function.update_self, Queue.size_removeAt]
      rw [same] at less
      omega
    · rw [Function.update_of_ne same]
      omega
  unfold enqueue
  dsimp only
  rw [mine, decide_eq_false small, Bool.or_false]
  rfl

theorem dispatch_kept {C : Type} [DecidableEq C] (s : State C) (c : C) (i k : Nat) (p : Fin NPROC) :
    (∀ q, ((dispatch s c i k p).proc q).priority = (s.proc q).priority ∧
      ((dispatch s c i k p).proc q).budget = (s.proc q).budget) ∧ (dispatch s c i k p).overran = s.overran := by
  have one : ∀ me : Proc, me.priority = (s.proc p).priority → me.budget = (s.proc p).budget → ∀ q,
      (Function.update s.proc p me q).priority = (s.proc q).priority ∧
      (Function.update s.proc p me q).budget = (s.proc q).budget := by
    intro me priority budget q
    by_cases same : q = p
    · rw [same, Function.update_self]
      exact ⟨priority,budget⟩
    · rw [Function.update_of_ne same]
      exact ⟨rfl,rfl⟩
  unfold dispatch
  dsimp only
  split <;> exact ⟨one _ rfl rfl, rfl⟩

/-- Whatever entry of a RUNNABLE process is dispatched, and however long the process runs
    while the queues stay as they are, the requeue moves the entry and nothing else. -/
theorem requeue_moves_entry {C : Type} [DecidableEq C] {s u : State C} {c : C} {i k start e : Nat} {p : Fin NPROC}
    (reach : (system C).Reach Unwrapped s)
    (room : ∀ l : Int, 0 ≤ l → l ≤ MAXPRIORITY → (s.queue l).size < 2 * NPROC - 1)
    (level : (i : Int) ≤ MAXPRIORITY) (inside : k < (s.queue i).count) (cell : (s.queue i).cell k = some p)
    (_runnable : (s.proc p).state = .runnable)
    (meanwhile : (system C).Reach Unwrapped u) (quiet : Quiet (dispatch s c i k p).toTable u.toTable)
    (back : u.cpu c = .back i k start p) (elapsed : u.ticks = uint (start + e)) :
    ∃ v, step u (.requeue c) = some v ∧
      Requeued s.toTable i k p (int ((s.proc p).budget - e)) v.toTable := by
  obtain ⟨inv,_⟩ := reach_numbered reach
  obtain ⟨invU,numbered,busy⟩ := reach_numbered meanwhile
  have mine : u.lock = some c := invU.core.held c (by simp [back, Holds])
  have ran : int (u.ticks - start) = int e := by
    rw [elapsed, int_def, int_def]
    unfold uint
    omega
  refine ⟨_, by simp only [step, back, mine, if_true]; rfl, ?_⟩
  have alone : ∀ q, (u.proc q).pid = (u.proc p).pid → q = p :=
    fun q => numbered.distinct p q (busy c p (by simp [back, has]))
  obtain ⟨me,result,charge⟩ := requeue_eq invU.core.sound alone (int (u.ticks - start))
  obtain ⟨before,within⟩ := dispatch_kept s c i k p
  have same : ∀ q, (u.proc q).priority = (s.proc q).priority ∧ (u.proc q).budget = (s.proc q).budget :=
    fun q => ⟨(quiet.kept q).1.trans (before q).1, (quiet.kept q).2.trans (before q).2⟩
  rw [ran, int_charge, (same p).1, (same p).2] at charge
  have queue : u.queue = Function.update s.queue i ((s.queue i).removeAt k) := by
    obtain ⟨_,_,_,_,removed,_⟩ := dispatch_spec s c i k p
    exact quiet.queue.trans removed
  have range : 0 ≤ me.priority ∧ me.priority ≤ MAXPRIORITY := by
    have bounds := inv.core.sound.range p
    have fits : 0 ≤ (charged (s.proc p).priority (int ((s.proc p).budget - e))).1 ∧
        (charged (s.proc p).priority (int ((s.proc p).budget - e))).1 ≤ MAXPRIORITY := charged_range bounds.1 bounds.2
    rwa [← charge] at fits
  change Requeued s.toTable i k p _ (requeue u.toTable p (int (u.ticks - start)))
  rw [result]
  have mine : (u.set p me).proc p = me := by simp [Table.set]
  have entries := fun l => requeue_entries (p := p) inv.core.sound inside queue me l
  have entry : (s.queue i).entries[k]? = some (some p) := by
    rw [Queue.getElem?_entries, if_pos inside, cell]
  refine ⟨fun l _ _ => ?_, ?_, ?_, fun q other => ?_, ?_⟩
  · rw [entries l]
    change _ = _ ++ if l = ((u.set p me).proc p).priority then [some p] else []
    rw [mine]
  · exact together_of_entries level entry range.1 range.2 fun l _ _ => entries l
  · change (((u.set p me).proc p).priority, ((u.set p me).proc p).budget) = _
    rw [mine, charge]
  · change ((u.set p me).proc q).priority = _ ∧ ((u.set p me).proc q).budget = _
    simpa [Table.set, other] using same q
  · rw [requeue_within range room queue, quiet.overran, within]

end Turns

/-- Whether a step leaves `nextpid` where it is or moves it up. -/
def rising (s : State Unit) (a : Action Unit) : Bool :=
  match step s a with
  | none => true
  | some t => decide (s.nextpid ≤ t.nextpid)

theorem rising_unwrapped (s : State Unit) (a : Action Unit) (passed : rising s a = true) : Unwrapped s a := by
  intro t ran
  unfold rising at passed
  rw [ran] at passed
  exact of_decide_eq_true passed

def firstLabels : List (Action Unit) := [.userinit (), .publishInit ()] ++ List.replicate 20 .tick ++ [.acquire ()]

/-- The first promotion pass has put every slot into level 1. -/
def atLevelOne : State Unit := (System.exec (System.guarded rising next) poweredOn firstLabels).get (by decide +kernel)

/-- The first process has run for two ticks and yields. -/
def initYields : State Unit :=
  (System.exec (System.guarded rising next) atLevelOne [.scan (), .tick, .tick, .yield ()]).get (by decide +kernel)

theorem atLevelOne_reach : (system Unit).Reach Unwrapped atLevelOne := by
  have run : System.exec (System.guarded rising next) poweredOn firstLabels = some atLevelOne := by
    simp only [atLevelOne, Option.some_get]
  exact System.guarded_reach rising rising_unwrapped _ (.start poweredOn_start) run

theorem initYields_run : System.exec (System.guarded rising next) atLevelOne [.scan (), .tick, .tick, .yield ()] = some initYields := by
  simp only [initYields, Option.some_get]

theorem initYields_reach : (system Unit).Reach Unwrapped initYields :=
  System.guarded_reach rising rising_unwrapped _ atLevelOne_reach initYields_run

/-- What a tick and a yield leave as it is. -/
theorem quiet_tick_yield {s t : State Unit} {a : Action Unit} (turn : a = .tick ∨ a = .yield ()) (moves : Moves s a t) :
    Quiet s.toTable t.toTable := by
  rcases turn with rfl | rfl
  · cases moves with
    | tick => exact ⟨rfl, rfl, fun _ => ⟨rfl,rfl⟩⟩
    | discard place pc failed => simp at failed
  · cases moves with
    | discard place pc failed => simp at failed
    | @yield _ i k start p place free =>
      rw [sched_table]
      refine ⟨rfl, rfl, fun q => ?_⟩
      by_cases same : q = p
      · subst same
        simp [State.onTable, Table.set]
      · simp [State.onTable, Table.set, same]

theorem Quiet.trans {t u v : Table} (first : Quiet t u) (later : Quiet u v) : Quiet t v :=
  ⟨later.queue.trans first.queue, later.overran.trans first.overran,
    fun q => ⟨(later.kept q).1.trans (first.kept q).1, (later.kept q).2.trans (first.kept q).2⟩⟩

theorem quiet_run {s t : State Unit} {labels : List (Action Unit)} (turn : ∀ a ∈ labels, a = .tick ∨ a = .yield ())
    (run : System.exec (System.guarded rising next) s labels = some t) : Quiet s.toTable t.toTable := by
  induction labels generalizing s with
  | nil =>
    simp only [System.exec, Option.some.injEq] at run
    exact run ▸ ⟨rfl, rfl, fun _ => ⟨rfl,rfl⟩⟩
  | cons a rest ih =>
    simp only [System.exec, Option.bind_eq_some_iff] at run
    obtain ⟨u,first,run⟩ := run
    unfold System.guarded at first
    split at first
    · exact (quiet_tick_yield (turn a List.mem_cons_self) (next_moves first).2).trans
        (ih (fun b member => turn b (List.mem_cons_of_mem a member)) run)
    · cases first

theorem atLevelOne_scan : next atLevelOne (.scan ()) = some (dispatch atLevelOne () 1 0 0) := by
  have place : atLevelOne.overran = false ∧ atLevelOne.cpu () = .scan 2 0 false ∧ atLevelOne.lock = some () ∧
      search atLevelOne.toTable 2 0 false = some (1, 0) ∧ (atLevelOne.queue (1 : Nat)).cell 0 = some 0 := by decide +kernel
  obtain ⟨within,cpu,lock,found,cell⟩ := place
  simp only [next, within, step, cpu, lock, found, cell]
  rfl

theorem initYields_quiet : Quiet (dispatch atLevelOne () 1 0 0).toTable initYields.toTable := by
  have run := initYields_run
  rw [System.exec, Option.bind_eq_some_iff] at run
  obtain ⟨u,first,run⟩ := run
  have same : u = dispatch atLevelOne () 1 0 0 := by
    unfold System.guarded at first
    split at first
    · rw [atLevelOne_scan] at first
      exact (Option.some.inj first).symm
    · cases first
  rw [← same]
  refine quiet_run (fun a member => ?_) run
  simp only [List.mem_cons, List.not_mem_nil, or_false] at member
  rcases member with tick | tick | yield
  · exact Or.inl tick
  · exact Or.inl tick
  · exact Or.inr yield

theorem requeue_moves_entry_init : ∃ v, step initYields (.requeue ()) = some v ∧
    Requeued atLevelOne.toTable 1 0 0 (int ((atLevelOne.proc 0).budget - (2 : Nat))) v.toTable := by
  have roomy : (atLevelOne.queue 0).size < 2 * NPROC - 1 ∧ (atLevelOne.queue 1).size < 2 * NPROC - 1 ∧
      (atLevelOne.queue 2).size < 2 * NPROC - 1 := by decide +kernel
  have room : ∀ l : Int, 0 ≤ l → l ≤ MAXPRIORITY → (atLevelOne.queue l).size < 2 * NPROC - 1 := by
    intro l low high
    rcases level_cases low high with rfl | rfl | rfl
    · exact roomy.1
    · exact roomy.2.1
    · exact roomy.2.2
  have entry : 0 < (atLevelOne.queue (1 : Nat)).count ∧ (atLevelOne.queue (1 : Nat)).cell 0 = some 0 ∧
      (atLevelOne.proc 0).state = .runnable := by decide +kernel
  have back : initYields.cpu () = .back 1 0 20 0 := by decide +kernel
  have elapsed : initYields.ticks = uint (20 + 2) := by decide +kernel
  exact requeue_moves_entry atLevelOne_reach room (by decide) entry.1 entry.2.1 entry.2.2 initYields_reach initYields_quiet
    back elapsed

end MlfqRequeue
