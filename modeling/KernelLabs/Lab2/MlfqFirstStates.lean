import KernelLabs.Lab2.MlfqFirstSound

/-!
Who may end the sleep of a process, and who may free a zombie. The first version makes
every process `RUNNABLE` that switches back, whatever state it chose, so a sleeper and
a zombie keep their states exactly at the steps that are not its bookkeeping for them.
-/
namespace MlfqFirstStates
open MlfqFirst MlfqFirstMoves MlfqFirstSound Transition
open Xv6Proc (NPROC Procstate Chan Stage)
open Mlfq (Action int)

section Steps
variable {C : Type} {s t : State C} {a : Action C}

/-- The step calls `wakeup1` on the channel of `p`, or kills it. -/
def Rouser (s : State C) (a : Action C) (p : Fin NPROC) : Prop :=
  match a with
  | .wakeup chan => (s.proc p).chan = some chan
  | .exit c => ∃ q, current s c = some q ∧ ExitWakes s.toTable s.initproc q p
  | .kill _ pid => (s.proc p).pid = pid
  | _ => False

/-- The step is a call of `wait` by the parent of `p`. -/
def Reaper (s : State C) (a : Action C) (p : Fin NPROC) : Prop :=
  match a with
  | .wait c => ∃ q, current s c = some q ∧ (s.proc p).parent = some q
  | _ => False

structure KeepsStates (s : State C) (a : Action C) (t : State C) : Prop where
  sleeping : ∀ p, (s.proc p).state = .sleeping → (t.proc p).state ≠ .sleeping → Rouser s a p
  zombie : ∀ p, (s.proc p).state = .zombie → (t.proc p).state ≠ .zombie → Reaper s a p

/-- A process whose budget the scheduler is about to charge has come back `RUNNABLE`. -/
def Spared (s : State C) : Action C → Prop
  | .requeue c => ∀ i start p, s.cpu c = .back i start p → (s.proc p).state = .runnable
  | _ => True

/-- The code behind `sched` in `exit` is never reached, and `sched` returns in `sleep`
    only after a wakeup or a kill. -/
def Returns [DecidableEq C] (s : State C) : Prop :=
  ∀ c t i start p, next s (.scan c) = some t → t.cpu c = .ran i start p →
    s.pc p ≠ .exited ∧ (s.pc p = .sleeping ∨ s.pc p = .waiting → (s.proc p).woken = true)

theorem keeps_rouses {why : Fin NPROC → Prop} (rouses : Rouses why s.toTable t.toTable)
    (reason : ∀ q, why q → Rouser s a q) : KeepsStates s a t := by
  constructor <;> intro p was now <;> rcases rouses.state p with same | ⟨asleep,_,because⟩
  · exact absurd (same.trans was) now
  · exact reason p because
  · exact absurd (same.trans was) now
  · cases asleep.symm.trans was

theorem keeps_same (same : ∀ q, (t.proc q).state = (s.proc q).state) : KeepsStates s a t :=
  ⟨fun p was now => absurd ((same p).trans was) now, fun p was now => absurd ((same p).trans was) now⟩

/-- A step on a slot that neither sleeps nor is a zombie. -/
theorem keeps_slot {p : Fin NPROC} {old : Procstate} (here : (s.proc p).state = old)
    (live : old ≠ .sleeping ∧ old ≠ .zombie) (others : ∀ q, q ≠ p → (t.proc q).state = (s.proc q).state) :
    KeepsStates s a t := by
  constructor <;> intro q was now <;> by_cases same : q = p
  · exact absurd (here.symm.trans (same ▸ was)) live.1
  · exact absurd ((others q same).trans was) now
  · exact absurd (here.symm.trans (same ▸ was)) live.2
  · exact absurd ((others q same).trans was) now

variable [DecidableEq C]

omit [DecidableEq C] in
theorem keeps_exit (sound : Sound s) {c : C} {i start : Nat} {p : Fin NPROC} (place : s.cpu c = .ran i start p)
    (proc : t.proc = (exit s.toTable s.initproc p).proc) : KeepsStates s (.exit c) t := by
  obtain ⟨_,others⟩ := exit_state s.toTable s.initproc p
  have here : current s c = some p := by simp [current, place]
  have apart : ∀ {q} {old : Procstate}, (s.proc q).state = old → old ≠ .running → q ≠ p := by
    rintro q old was other rfl
    exact other (was.symm.trans (sound.running place))
  constructor <;> intro q was now <;> rw [proc] at now
  · rcases others q (apart was (by simp)) with same | ⟨_,_,because⟩
    · exact absurd (same.trans was) now
    · exact ⟨p,here,because⟩
  · rcases others q (apart was (by simp)) with same | ⟨asleep,_,_⟩
    · exact absurd (same.trans was) now
    · cases asleep.symm.trans was

theorem moves_keep (sound : Sound s) (moves : Moves s a t) (spared : Spared s a) : KeepsStates s a t := by
  cases moves with
  | userinit place free unused =>
    exact keeps_slot unused (by simp) fun q away => (found_state s.toTable _ q s.nextpid).trans (if_neg away)
  | @publishInit c p place free =>
    have embryo : (s.proc p).state = .embryo :=
      sound.leased.agree (.inl c) p .making (by simp [claim, place, ofCpu])
    exact keeps_slot embryo (by simp) fun q away => (setState_state s.toTable p q .runnable).trans (if_neg away)
  | tick => exact keeps_same fun _ => rfl
  | @acquire c place free => exact keeps_rouses (acquire_rouses s c) fun _ none => none.elim
  | release place mine empty => exact keeps_same fun _ => rfl
  | down place mine empty => exact keeps_same fun _ => rfl
  | drop place mine front idle => exact keeps_same fun _ => rfl
  | @dispatch c i p rest place mine front runnable =>
    have done := dispatch_dispatched (s.onTable fun t => t.setQueue i rest) c i p
    exact keeps_slot runnable (by simp) fun q away => congrArg Proc.state (done.others q away)
  | @requeue c i start p place mine =>
    exact keeps_slot (spared i start p place) (by simp) fun q away =>
      (requeue_state s.toTable p q _).trans (if_neg away)
  | @yield c i start p place free =>
    refine keeps_slot (sound.running place) (by simp) fun q away => ?_
    rw [sched_table]
    exact (setState_state s.toTable p q .runnable).trans (if_neg away)
  | @sleep c addr i start p place free pc =>
    refine keeps_slot (sound.running place) (by simp) fun q away => ?_
    rw [sched_table]
    exact (doze_state s.toTable p q (.other addr)).trans (if_neg away)
  | @wakeup chan free =>
    have rouses := wakeup1_rouses (some chan) s.toTable
    generalize wakeup1 = f at rouses ⊢
    exact keeps_rouses (t := s.onTable fun t => f t (some chan)) rouses fun _ here => here
  | @kill c pid free =>
    have rouses := kill_rouses s.toTable pid
    generalize kill = f at rouses ⊢
    exact keeps_rouses (t := s.onTable fun t => f t pid) rouses fun _ here => here
  | @setpriority c pid priority =>
    have rouses := setpriority_rouses s.toTable pid priority
    generalize setpriority = f at rouses ⊢
    exact keeps_rouses (t := s.onTable fun t => f t pid priority) rouses fun _ none => none.elim
  | full free => exact keeps_same fun _ => rfl
  | @allocproc c i start p np place free unused =>
    exact keeps_slot unused (by simp) fun q away => (found_state s.toTable np q s.nextpid).trans (if_neg away)
  | kalloc place pc => exact keeps_same fun _ => rfl
  | @copyuvm c i start p np place pc =>
    refine keeps_slot (sound.embryo pc) (by simp) fun q away => ?_
    exact congrArg Proc.state (Function.update_of_ne away _ s.proc)
  | @discard c _ stage i start p np place pc failed =>
    exact keeps_slot (sound.embryo pc) (by simp) fun q away =>
      (setState_state s.toTable np q .unused).trans (if_neg away)
  | @publish c i start p np place free pc =>
    exact keeps_slot (sound.embryo pc) (by simp) fun q away =>
      (setState_state s.toTable np q .runnable).trans (if_neg away)
  | @exit c i start p place free pc =>
    refine keeps_exit sound place ?_
    rw [sched_table]
    rfl
  | @reap c i start p z place free pc child zombie =>
    have state : ∀ q, ((reap s.toTable z).proc q).state = if q = z then .unused else (s.proc q).state :=
      reap_state s.toTable z
    constructor
    · intro q was now
      have apart : q ≠ z := by
        rintro rfl
        cases was.symm.trans zombie
      exact absurd (((state q).trans (if_neg apart)).trans was) now
    · intro q was now
      by_cases same : q = z
      · exact ⟨p, by simp [current, place], same ▸ child⟩
      · exact absurd (((state q).trans (if_neg same)).trans was) now
  | childless place free pc => exact keeps_same fun _ => rfl
  | @await c i start p place free pc =>
    refine keeps_slot (sound.running place) (by simp) fun q away => ?_
    rw [sched_table]
    exact (doze_state s.toTable p q (.slot p)).trans (if_neg away)

/-- The bookkeeping takes a process that came back asleep or dead out of that state. -/
theorem kept_spared (sound : Sound s) (moves : Moves s a t) (keeps : KeepsStates s a t) : Spared s a := by
  cases moves with
  | @requeue c i start p place mine =>
    intro i' start' p' place'
    rw [place, Cpu.back.injEq] at place'
    obtain ⟨_,_,rfl⟩ := place'
    have now : ((requeue s.toTable p (int (s.ticks - start))).proc p).state = .runnable :=
      (requeue_state s.toTable p p _).trans (if_pos rfl)
    rcases sound.stopped place with runnable | asleep | dead
    · exact runnable
    · exact (keeps.sleeping p asleep fun still => by cases now.symm.trans still).elim
    · exact (keeps.zombie p dead fun still => by cases now.symm.trans still).elim
  | discard place pc failed => rcases failed with rfl | rfl <;> trivial
  | _ => trivial

theorem keeps_iff_spared (sound : Sound s) (moves : Moves s a t) : KeepsStates s a t ↔ Spared s a :=
  ⟨kept_spared sound moves, moves_keep sound moves⟩

end Steps

section Runs
variable {C : Type} {s t : State C} {a : Action C}

/-- The process has never slept nor exited, or has been switched back to since. -/
def Plain : Pc → Prop
  | .elsewhere => True
  | .forking _ _ => True
  | _ => False

/-- A CPU has the lock and a sleeper or a zombie in hand. -/
def Stuck (s : State C) : Prop := ∃ c i start p, s.cpu c = .back i start p ∧ (s.proc p).state ≠ .runnable

/-- What holds as long as every process that comes back is `RUNNABLE` when it is put back. -/
structure Resting (s : State C) : Prop where
  well : s.panicked = false
  plain : (∀ p, Plain (s.pc p)) ∨ Stuck s

theorem plain_update {p : Fin NPROC} (new : Pc) (plain : ∀ q, Plain (s.pc q)) (fresh : Plain new)
    (pc : t.pc = Function.update s.pc p new) (q : Fin NPROC) : Plain (t.pc q) := by
  rw [pc]
  by_cases same : q = p
  · subst same
    rw [Function.update_self]
    exact fresh
  · rw [Function.update_of_ne same]
    exact plain q

theorem stuck_frame (stuck : Stuck s) (cpu : t.cpu = s.cpu)
    (state : ∀ q, (t.proc q).state = (s.proc q).state ∨ (t.proc q).state = .unused) : Stuck t := by
  obtain ⟨c,i,start,p,place,halted⟩ := stuck
  refine ⟨c, i, start, p, by rw [cpu, place], ?_⟩
  rcases state p with same | gone
  · rw [same]
    exact halted
  · rw [gone]
    simp

theorem resting_onTable (well : s.panicked = false) (plain : ∀ p, Plain (s.pc p)) (f : Table → Table) :
    Resting (s.onTable f) := ⟨well, Or.inl plain⟩

variable [DecidableEq C]

theorem stuck_sched {c : C} {i start : Nat} {p : Fin NPROC} {u : State C} (place : s.cpu c = .ran i start p)
    (cpu : u.cpu = s.cpu) (halted : (u.proc p).state ≠ .runnable) : Stuck (sched u c) := by
  have here : u.cpu c = .ran i start p := by rw [cpu, place]
  rw [sched_spec here]
  exact ⟨c, i, start, p, Function.update_self _ _ _, halted⟩

theorem dispatch_plain {c : C} {i : Nat} {p : Fin NPROC} (plain : Plain (s.pc p)) :
    (dispatch s c i p).panicked = s.panicked := by
  unfold dispatch
  dsimp only
  split
  · rfl
  · rfl
  · rename_i exited
    rw [show s.pc p = .exited from exited] at plain
    exact plain.elim
  · rfl

/-- With a sleeper or a zombie in hand the lock is never let go of again. -/
theorem resting_stuck (sound : Sound s) (well : s.panicked = false) (stuck : Stuck s) (moves : Moves s a t)
    (spared : Spared s a) : Resting t := by
  obtain ⟨c,i,start,p,place,halted⟩ := stuck
  have held : s.lock = some c := sound.held c (by rw [place]; trivial)
  have busy : s.lock ≠ none := by
    rw [held]
    simp
  have other : ∀ {d}, s.lock = some d → d = c := fun mine => Option.some.inj (mine.symm.trans held)
  have still : Stuck s := ⟨c,i,start,p,place,halted⟩
  have ran : ∀ {d j begun q}, s.cpu d = .ran j begun q → ¬ (s.lock = none ∨ s.lock = some d) := by
    intro d j begun q there access
    rw [other (access.resolve_left busy), place] at there
    cases there
  have scans : ∀ {d j}, s.cpu d = .scan j → s.lock ≠ some d := by
    intro d j there mine
    rw [other mine, place] at there
    cases there
  cases moves with
  | userinit there free unused => exact absurd free busy
  | publishInit there free => exact absurd free busy
  | tick => exact ⟨well, Or.inr (stuck_frame still rfl fun _ => Or.inl rfl)⟩
  | acquire there free => exact absurd free busy
  | release there mine empty => exact absurd mine (scans there)
  | down there mine empty => exact absurd mine (scans there)
  | drop there mine front idle => exact absurd mine (scans there)
  | dispatch there mine front runnable => exact absurd mine (scans there)
  | @requeue d j begun q there mine =>
    have same := other mine
    subst same
    exact absurd (spared i start p place) halted
  | yield there free => exact absurd free busy
  | sleep there free pc => exact absurd free busy
  | wakeup free => exact absurd free busy
  | kill free => exact absurd free busy
  | @setpriority d pid priority =>
    refine ⟨well, Or.inr (stuck_frame still rfl fun q => Or.inl ?_)⟩
    rcases (setpriority_rouses s.toTable pid priority).state q with same | ⟨_,_,none⟩
    · exact same
    · exact none.elim
  | full free => exact absurd free busy
  | allocproc there free unused => exact absurd free busy
  | kalloc there pc => exact ⟨well, Or.inr (stuck_frame still rfl fun _ => Or.inl rfl)⟩
  | @copyuvm d j begun q np there pc =>
    refine ⟨well, Or.inr (stuck_frame still rfl fun r => Or.inl ?_)⟩
    change ((s.toTable.set np { s.proc np with parent := some q }).proc r).state = _
    by_cases same : r = np
    · subst same
      simp [Table.set]
    · simp [Table.set, same]
  | @discard d _ stage j begun q np there pc failed =>
    refine ⟨well, Or.inr (stuck_frame still rfl fun r => ?_)⟩
    have state := setState_state s.toTable np r .unused
    by_cases same : r = np
    · exact Or.inr (state.trans (if_pos same))
    · exact Or.inl (state.trans (if_neg same))
  | publish there free pc => exact absurd free busy
  | exit there free pc => exact absurd free busy
  | reap there free pc child zombie => exact absurd free (ran there)
  | childless there free pc => exact absurd free (ran there)
  | await there free pc => exact absurd free (ran there)

theorem resting_plain (well : s.panicked = false) (plain : ∀ p, Plain (s.pc p)) (moves : Moves s a t) :
    Resting t := by
  cases moves with
  | userinit place free unused => exact ⟨well, Or.inl (plain_update .elsewhere plain trivial rfl)⟩
  | publishInit place free => exact ⟨well, Or.inl plain⟩
  | tick => exact ⟨well, Or.inl plain⟩
  | @acquire c place free =>
    obtain ⟨_,pc,_,panicked⟩ := acquire_frame s c
    exact ⟨panicked.trans well, Or.inl (by rw [pc]; exact plain)⟩
  | release place mine empty => exact ⟨well, Or.inl plain⟩
  | down place mine empty => exact ⟨well, Or.inl plain⟩
  | drop place mine front idle => exact ⟨well, Or.inl plain⟩
  | @dispatch c i p rest place mine front runnable =>
    refine ⟨(dispatch_plain (s := s.onTable fun t => t.setQueue i rest) (plain p)).trans well, Or.inl fun q => ?_⟩
    rcases (dispatch_dispatched (s.onTable fun t => t.setQueue i rest) c i p).pc q with same | left
    · rw [same]
      exact plain q
    · rw [left]
      trivial
  | requeue place mine => exact ⟨well, Or.inl plain⟩
  | @yield c i start p place free =>
    obtain ⟨pc,panicked⟩ := sched_frame (s.onTable fun t => setState t p .runnable) c
    exact ⟨panicked.trans well, Or.inl (by rw [pc]; exact plain)⟩
  | @sleep c addr i start p place free pc =>
    refine ⟨(sched_frame _ c).2.trans well, Or.inr (stuck_sched place rfl ?_)⟩
    have state := doze_state s.toTable p p (.other addr)
    rw [if_pos rfl] at state
    change ((doze s.toTable p (.other addr)).proc p).state ≠ .runnable
    rw [state]
    simp
  | wakeup free => exact resting_onTable well plain _
  | kill free => exact resting_onTable well plain _
  | setpriority => exact resting_onTable well plain _
  | full free => exact ⟨well, Or.inl plain⟩
  | @allocproc c i start p np place free unused =>
    have fresh : ∀ q, Plain ((s.setPc np .elsewhere).pc q) := plain_update .elsewhere plain trivial rfl
    exact ⟨well, Or.inl (plain_update (.forking .allocated np) fresh trivial rfl)⟩
  | @kalloc c i start p np place pc =>
    exact ⟨well, Or.inl (plain_update (.forking .stacked np) plain trivial rfl)⟩
  | @copyuvm c i start p np place pc =>
    exact ⟨well, Or.inl (plain_update (.forking .copied np) plain trivial rfl)⟩
  | discard place pc failed => exact ⟨well, Or.inl (plain_update .elsewhere plain trivial rfl)⟩
  | publish place free pc => exact ⟨well, Or.inl (plain_update .elsewhere plain trivial rfl)⟩
  | @exit c i start p place free pc =>
    refine ⟨(sched_frame _ c).2.trans well, Or.inr (stuck_sched place rfl ?_)⟩
    have state := (exit_state s.toTable s.initproc p).1
    change ((exit s.toTable s.initproc p).proc p).state ≠ .runnable
    rw [state]
    simp
  | reap place free pc child zombie =>
    exact ⟨well, Or.inl (plain_update .elsewhere plain trivial rfl)⟩
  | childless place free pc => exact ⟨well, Or.inl (plain_update .elsewhere plain trivial rfl)⟩
  | @await c i start p place free pc =>
    refine ⟨(sched_frame _ c).2.trans well, Or.inr (stuck_sched place rfl ?_)⟩
    have state := doze_state s.toTable p p (.slot p)
    rw [if_pos rfl] at state
    change ((doze s.toTable p (.slot p)).proc p).state ≠ .runnable
    rw [state]
    simp

theorem reach_resting (reach : (system C).Reach Spared s) : Sound s ∧ Resting s := by
  refine System.reach_invariant (system C) (I := fun s => Sound s ∧ Resting s) (fun s start => ?_) ?_ reach
  · obtain ⟨_,_,_,pcs,_,_,_,_,_,well,_⟩ := id start
    exact ⟨sound_start start, well, Or.inl fun p => by rw [pcs p]; trivial⟩
  · rintro s a t ⟨sound,well,plain⟩ spared run
    have moves := (next_moves run).2.2
    refine ⟨sound_moves sound moves, ?_⟩
    rcases plain with plain | stuck
    · exact resting_plain well plain moves
    · exact resting_stuck sound well stuck moves spared

theorem resting_returns (sound : Sound s) (resting : Resting s) : Returns s := by
  intro c t i start p run place
  have scanned := (next_moves run).2.2
  cases scanned with
  | release there mine empty => simp [State.setCpu, State.setLock] at place
  | down there mine empty => simp [State.setCpu] at place
  | drop there mine front idle =>
    have same : s.cpu c = .ran i start p := place
    rw [there] at same
    cases same
  | discard there pc failed => rcases failed with wrong | wrong <;> cases wrong
  | @dispatch c j q rest there mine front runnable =>
    rw [(dispatch_dispatched (s.onTable fun t => t.setQueue j rest) c j q).cpu, Function.update_self] at place
    simp only [Cpu.ran.injEq] at place
    obtain ⟨_,_,rfl⟩ := place
    rcases resting.plain with plain | ⟨d,_,_,_,back,_⟩
    · have here := plain q
      cases pc : s.pc q with
      | elsewhere => simp
      | forking stage np => simp
      | sleeping => rw [pc] at here; exact here.elim
      | waiting => rw [pc] at here; exact here.elim
      | exited => rw [pc] at here; exact here.elim
    · have same := sound.apart (Or.inr mine) (d := d) (by rw [back]; trivial)
      rw [same, there] at back
      cases back

/-- A step of any run keeps the states of sleepers and zombies exactly when it is not the
    bookkeeping for one that has just come back. In runs without such steps nothing is
    executed behind `sched` in `exit`, nor in `sleep` without a wakeup or a kill. -/
theorem states_kept_iff_spared :
    (∀ (s t : State C) (a : Action C), (system C).Reach System.Free s → next s a = some t →
      (KeepsStates s a t ↔ Spared s a)) ∧
    ∀ s : State C, (system C).Reach Spared s → s.panicked = false ∧ Returns s := by
  constructor
  · intro s t a reach run
    exact keeps_iff_spared (reach_sound reach) (next_moves run).2.2
  · intro s reach
    obtain ⟨sound,resting⟩ := reach_resting reach
    exact ⟨resting.well, resting_returns sound resting⟩

end Runs

/-- The first process has gone to sleep. -/
def asleep : State Unit := (System.exec next initRuns [.sleep () 7]).get (by decide +kernel)

/-- The scheduler has put it back. -/
def putBack : State Unit := (next asleep (.requeue ())).get (by decide +kernel)

theorem putBack_next : next asleep (.requeue ()) = some putBack := by simp only [putBack, Option.some_get]

theorem asleep_reach : (system Unit).Reach Spared asleep := by
  have run : System.exec next initRuns [.sleep () 7] = some asleep := by simp only [asleep, Option.some_get]
  have booted : (system Unit).Reach Spared scanning := by
    refine System.exec_reach _ (fun a member s => ?_) (.start poweredOn_start) scanning_run
    simp only [List.mem_cons, List.not_mem_nil, or_false] at member
    rcases member with rfl | rfl | rfl <;> trivial
  refine System.exec_reach _ (fun a member s => ?_) (.step (.scan ()) booted trivial initRuns_next) run
  rw [List.mem_singleton.mp member]
  trivial

theorem asleep_free : (system Unit).Reach System.Free asleep := asleep_reach.mono fun _ _ _ => trivial

theorem states_kept_iff_spared_asleep : (system Unit).Reach System.Free asleep ∧
    (KeepsStates asleep (.requeue ()) putBack ↔ Spared asleep (.requeue ())) ∧
    (system Unit).Reach Spared asleep ∧ asleep.panicked = false ∧ Returns asleep :=
  ⟨asleep_free, states_kept_iff_spared.1 asleep putBack (.requeue ()) asleep_free putBack_next, asleep_reach,
    states_kept_iff_spared.2 asleep asleep_reach⟩

/-- A child is made and run, exits with its time used up, is put back and run again. -/
def childsLives : List (Action Unit) :=
  [.allocproc (), .kalloc () true, .copyuvm () true, .publish (), .yield (), .requeue (), .scan ()] ++
    List.replicate 5 .tick ++ [.exit (), .requeue (), .scan (), .scan ()]

def secondLife : State Unit := (System.exec next initRuns childsLives).get (by decide +kernel)

theorem secondLife_reach : (system Unit).Reach System.Free secondLife := by
  have run : System.exec next initRuns childsLives = some secondLife := by simp only [secondLife, Option.some_get]
  exact System.exec_reach childsLives (fun _ _ _ => trivial) initRuns_reach run

/-- A sleeper is made `RUNNABLE` that nobody has woken, and `exit` goes on past `sched`. -/
theorem states_not_kept :
    (¬ ∀ (s t : State Unit) (a : Action Unit), (system Unit).Reach System.Free s → next s a = some t →
      KeepsStates s a t) ∧ ∃ s : State Unit, (system Unit).Reach System.Free s ∧ s.panicked = true := by
  refine ⟨fun keeps => ?_, secondLife, secondLife_reach, by decide +kernel⟩
  exact (keeps asleep putBack (.requeue ()) asleep_free putBack_next).sleeping 0 (by decide) (by decide)

end MlfqFirstStates
