import KernelLabs.Lab2.MlfqMoves
import KernelLabs.Lab2.MlfqQueued

/-!
Runs of the scheduler on any number of CPUs. Until the first promotion pass nothing can
be dispatched, and the queues stay empty; from that pass on every slot is in a queue or
with a CPU.
-/
namespace MlfqRuns
open Mlfq MlfqMoves MlfqQueued ArrayQueue Transition
open Xv6Proc (NPROC Procstate Chan Stage Pc)

section Runs
variable {C : Type}

/-- Every slot is queued, or its entry is with a CPU. -/
def Kept (s : State C) : Prop := ∀ p, Queued s.toTable p ∨ ∃ c, has (s.cpu c) = some p

/-- Before the first promotion pass. -/
structure Early (s : State C) : Prop where
  empty : ∀ l, (s.queue l).entries = []
  idle : ∀ c, has (s.cpu c) = none
  low : ∀ p, (s.proc p).priority = 0
  state : ∀ p, (s.proc p).state = .unused ∨ (s.proc p).state = .embryo ∨
    (s.proc p).state = .runnable
  ready : (∀ c, ¬ Boots (s.cpu c)) → ∃ p, (s.proc p).state = .runnable

structure Inv (s : State C) : Prop where
  core : Core s
  kept : s.promoted = true → Kept s
  early : s.promoted = false → Early s

theorem runs_has {cpu : Cpu} {p : Fin NPROC} (on : runs cpu = some p) : has cpu = some p := by
  cases cpu <;> simp [runs, has] at on ⊢
  exact on

/-- A process runs or has just stopped, so a promotion pass has put it into a queue. -/
theorem inv_of_busy {s t : State C} (inv : Inv s) {c : C} {p : Fin NPROC}
    (busy : has (s.cpu c) = some p) (promoted : t.promoted = s.promoted) (core : Core t)
    (kept : Kept s → Kept t) : Inv t := by
  have after : s.promoted = true := by
    by_contra before
    have none := (inv.early (by simpa using before)).idle c
    simp [busy] at none
  refine ⟨core, fun _ => kept (inv.kept after), fun before => ?_⟩
  rw [promoted, after] at before
  simp at before

theorem kept_table {s t : State C} (queued : ∀ q, Queued s.toTable q → Queued t.toTable q)
    (cpu : ∀ c, has (t.cpu c) = has (s.cpu c)) (kept : Kept s) : Kept t := by
  intro p
  rcases kept p with here | ⟨c,there⟩
  · exact Or.inl (queued p here)
  · exact Or.inr ⟨c,(cpu c).trans there⟩

variable [DecidableEq C]

theorem inv_userinit {s : State C} (inv : Inv s) {c : C} {p : Fin NPROC} {t : State C}
    (boots : s.cpu c = .boot) (free : s.lock = none) (unused : (s.proc p).state = .unused)
    (proc : t.proc = Function.update s.proc p
      { s.proc p with state := .embryo, pid := s.nextpid })
    (queue : t.queue = s.queue) (cpu : t.cpu = Function.update s.cpu c (.setup p))
    (pc : t.pc = s.pc) (promoted : t.promoted = s.promoted) : Inv t := by
  have others : ∀ q, q ≠ p → t.proc q = s.proc q := by
    intro q other
    simp [proc, other]
  have mine : t.proc p = { s.proc p with state := .embryo, pid := s.nextpid } := by simp [proc]
  have sound : Sound t.toTable := by
    refine ⟨fun q => ?_, fun l => by rw [queue]; exact inv.core.sound.sized l⟩
    by_cases same : q = p
    · rw [same, mine]
      exact inv.core.sound.range p
    · rw [others q same]
      exact inv.core.sound.range q
  have hasSame : ∀ d, has (t.cpu d) = has (s.cpu d) := by
    intro d
    by_cases same : d = c
    · simp [cpu, same, boots, has]
    · simp [cpu, same]
  have queued : ∀ q, Queued s.toTable q → Queued t.toTable q := by
    intro q here
    unfold Queued at here ⊢
    rw [queue]
    exact here
  refine ⟨?_, ?_, ?_⟩
  · refine core_boot inv.core (p := p) (by rw [boots]; trivial) free sound cpu pc
      (fun q other => by rw [others q other]) ?_ (by simp [unused]) rfl (by simp [Holds]) ?_
    · intro q stage forking
      have := inv.core.forked q stage p forking
      simp [unused] at this
    · intro k same
      simp only [Cpu.setup.injEq] at same
      exact ⟨same.symm, by rw [mine]⟩
  · intro after
    rw [promoted] at after
    exact kept_table queued hasSame (inv.kept after)
  · intro before
    rw [promoted] at before
    have early := inv.early before
    refine ⟨fun l => by rw [queue]; exact early.empty l, fun d => (hasSame d).trans (early.idle d),
      fun q => ?_, fun q => ?_, fun done => ?_⟩
    · by_cases same : q = p
      · rw [same, mine]
        exact early.low p
      · rw [others q same]
        exact early.low q
    · by_cases same : q = p
      · rw [same, mine]
        exact Or.inr (Or.inl rfl)
      · rw [others q same]
        exact early.state q
    · exact absurd (by simp [cpu, Boots]) (done c)

theorem inv_publishInit {s : State C} (inv : Inv s) {c : C} {p : Fin NPROC} {t : State C}
    (place : s.cpu c = .setup p) (free : s.lock = none)
    (proc : t.proc = Function.update s.proc p { s.proc p with state := .runnable })
    (queue : t.queue = s.queue) (cpu : t.cpu = Function.update s.cpu c .top)
    (pc : t.pc = s.pc) (promoted : t.promoted = s.promoted) : Inv t := by
  have others : ∀ q, q ≠ p → t.proc q = s.proc q := by
    intro q other
    simp [proc, other]
  have mine : t.proc p = { s.proc p with state := .runnable } := by simp [proc]
  obtain ⟨embryo,apart⟩ := inv.core.setup c p place
  have sound : Sound t.toTable := by
    refine ⟨fun q => ?_, fun l => by rw [queue]; exact inv.core.sound.sized l⟩
    by_cases same : q = p
    · rw [same, mine]
      exact inv.core.sound.range p
    · rw [others q same]
      exact inv.core.sound.range q
  have hasSame : ∀ d, has (t.cpu d) = has (s.cpu d) := by
    intro d
    by_cases same : d = c
    · simp [cpu, same, place, has]
    · simp [cpu, same]
  have queued : ∀ q, Queued s.toTable q → Queued t.toTable q := by
    intro q here
    unfold Queued at here ⊢
    rw [queue]
    exact here
  refine ⟨?_, ?_, ?_⟩
  · exact core_boot inv.core (p := p) (by rw [place]; trivial) free sound cpu pc
      (fun q other => by rw [others q other]) apart (by simp [embryo]) rfl (by simp [Holds])
      (fun k same => by simp at same)
  · intro after
    rw [promoted] at after
    exact kept_table queued hasSame (inv.kept after)
  · intro before
    rw [promoted] at before
    have early := inv.early before
    refine ⟨fun l => by rw [queue]; exact early.empty l, fun d => (hasSame d).trans (early.idle d),
      fun q => ?_, fun q => ?_, fun _ => ⟨p, by rw [mine]⟩⟩
    · by_cases same : q = p
      · rw [same, mine]
        exact early.low p
      · rw [others q same]
        exact early.low q
    · by_cases same : q = p
      · rw [same, mine]
        exact Or.inr (Or.inr rfl)
      · rw [others q same]
        exact early.state q

/-- A CPU without a process moves while the table stays. -/
theorem inv_move {s t : State C} (inv : Inv s) {c : C} {new : Cpu} (table : t.toTable = s.toTable)
    (cpu : t.cpu = Function.update s.cpu c new) (pc : t.pc = s.pc)
    (promoted : t.promoted = s.promoted) (idle : has (s.cpu c) = none ∧ has new = none)
    (boots : ¬ Boots (s.cpu c) ∧ ¬ Boots new)
    (lock : (s.lock = none ∨ s.lock = some c) ∧ (Holds new → t.lock = some c)) : Inv t := by
  have hasSame : ∀ d, has (t.cpu d) = has (s.cpu d) := by
    intro d
    by_cases same : d = c
    · simp [cpu, same, idle.1, idle.2]
    · simp [cpu, same]
  have quiet : runs new = none := by
    cases new <;> simp [runs, has] at idle ⊢
  have proc : t.proc = s.proc := congrArg Table.proc table
  have queue : t.queue = s.queue := congrArg Table.queue table
  have keeps : Keeps s.toTable t.toTable := by
    rw [table]
    exact keeps_refl inv.core.sound
  refine ⟨core_cpu inv.core keeps cpu pc quiet boots.2 lock, ?_, ?_⟩
  · intro after
    rw [promoted] at after
    exact kept_table (fun q here => table ▸ here) hasSame (inv.kept after)
  · intro before
    rw [promoted] at before
    have early := inv.early before
    refine ⟨by rw [queue]; exact early.empty, fun d => (hasSame d).trans (early.idle d),
      by rw [proc]; exact early.low, by rw [proc]; exact early.state, fun done => ?_⟩
    rw [proc]
    apply early.ready
    intro d on
    by_cases same : d = c
    · exact boots.1 (same ▸ on)
    · exact done d (by simpa [cpu, same] using on)

theorem inv_promote {s t : State C} (inv : Inv s) {c : C} (top : s.cpu c = .top)
    (free : s.lock = none) (table : t.toTable = promote s.toTable)
    (cpu : t.cpu = Function.update s.cpu c (.scan 2 0 false)) (pc : t.pc = s.pc)
    (lock : t.lock = some c) (promoted : t.promoted = true) : Inv t := by
  have keeps : Keeps s.toTable t.toTable := by
    rw [table]
    exact keeps_promote inv.core.sound
  refine ⟨core_cpu inv.core keeps cpu pc rfl (by simp [Boots]) ⟨Or.inl free, fun _ => lock⟩,
    fun _ => ?_, fun before => by simp [promoted] at before⟩
  by_cases after : s.promoted = true
  · apply kept_table (s := s) keeps.queued ?_ (inv.kept after)
    intro d
    by_cases same : d = c
    · simp [cpu, same, top, has]
    · simp [cpu, same]
  · have early := inv.early (by simpa using after)
    intro p
    left
    rw [table]
    apply promote_fresh inv.core.sound
    intro q
    refine ⟨early.low q, ?_⟩
    rcases early.state q with h | h | h <;> simp [h]

theorem inv_acquire {s : State C} (inv : Inv s) {c : C} (top : s.cpu c = .top)
    (free : s.lock = none) : Inv (acquire s c) := by
  unfold acquire
  dsimp only
  split
  · apply inv_promote inv top free <;> simp [State.onTable, State.setLock, State.setCpu]
  · exact inv_move inv (c := c) rfl rfl rfl rfl (by simp [top, has]) (by simp [top, Boots])
      ⟨Or.inl free, fun _ => rfl⟩

theorem dispatch_spec (s : State C) (c : C) (i k : Nat) (p : Fin NPROC) :
    ∃ me : Proc, (dispatch s c i k p).proc = Function.update s.proc p me ∧ me.state = .running ∧
      me.priority = (s.proc p).priority ∧
      (dispatch s c i k p).queue = Function.update s.queue i ((s.queue i).removeAt k) ∧
      (dispatch s c i k p).cpu = Function.update s.cpu c (.ran i k s.ticks p) ∧
      (dispatch s c i k p).promoted = s.promoted ∧
      ∀ q stage np, (dispatch s c i k p).pc q = .forking stage np → s.pc q = .forking stage np := by
  unfold dispatch
  dsimp only
  split
  · exact ⟨_, rfl, rfl, rfl, rfl, rfl, rfl, fun _ _ _ h => h⟩
  · refine ⟨_, rfl, rfl, rfl, rfl, rfl, rfl, fun q stage np forking => ?_⟩
    by_cases same : q = p
    · subst same
      simp [State.setPc, State.setLock] at forking
    · simpa [State.setPc, State.setLock, State.onTable, State.setCpu, same] using forking
  · exact ⟨_, rfl, rfl, rfl, rfl, rfl, rfl, fun _ _ _ h => h⟩

theorem inv_dispatch {s : State C} (inv : Inv s) {c : C} {i k i' k' : Nat} {check : Bool}
    {p : Fin NPROC} (place : s.cpu c = .scan i k check) (mine : s.lock = some c)
    (inside : k' < (s.queue i').count) (cell : (s.queue i').cell k' = some p)
    (runnable : (s.proc p).state = .runnable) : Inv (dispatch s c i' k' p) := by
  obtain ⟨me,proc,state,priority,queue,cpu,promoted,forking⟩ := dispatch_spec s c i' k' p
  have after : s.promoted = true := by
    by_contra before
    have empty := (inv.early (by simpa using before)).empty i'
    have length := congrArg List.length empty
    rw [Queue.length_entries] at length
    simp only [List.length_nil] at length
    omega
  have rest : Sound (s.toTable.setQueue i' ((s.queue i').removeAt k')) :=
    sized_removeAt inv.core.sound inside
  have sound : Sound (dispatch s c i' k' p).toTable := by
    refine ⟨fun q => ?_, fun l => by rw [queue]; exact rest.sized l⟩
    by_cases same : q = p
    · rw [same, proc, Function.update_self, priority]
      exact inv.core.sound.range p
    · rw [proc, Function.update_of_ne same]
      exact inv.core.sound.range q
  refine ⟨?_, fun _ => ?_, fun before => by simp [promoted, after] at before⟩
  · refine core_dispatch inv.core mine runnable sound ?_ ?_ cpu rfl forking
    · rw [proc, Function.update_self]
      exact state
    · intro q other
      rw [proc, Function.update_of_ne other]
  · intro q
    by_cases same : q = p
    · right
      exact ⟨c, by rw [cpu, Function.update_self, same]; rfl⟩
    · rcases inv.kept after q with queued | ⟨d,busy⟩
      · left
        have moved := queued_removeAt inside cell same queued
        unfold Queued at moved ⊢
        rw [queue]
        exact moved
      · right
        have other : d ≠ c := by
          intro eq
          simp [eq, place, has] at busy
        exact ⟨d, by rw [cpu, Function.update_of_ne other]; exact busy⟩

theorem inv_requeue {s t : State C} (inv : Inv s) {c : C} {i k start : Nat} {p : Fin NPROC}
    {ran : Int} (place : s.cpu c = .back i k start p) (mine : s.lock = some c)
    (table : t.toTable = requeue s.toTable p ran)
    (cpu : t.cpu = Function.update s.cpu c (.scan i (k + 1) true)) (pc : t.pc = s.pc)
    (lock : t.lock = s.lock) (promoted : t.promoted = s.promoted) : Inv t := by
  obtain ⟨keeps,queued⟩ := keeps_requeue inv.core.sound p ran
  rw [← table] at keeps queued
  refine inv_of_busy inv (c := c) (p := p) (by simp [place, has]) promoted ?_ ?_
  · exact core_cpu inv.core keeps cpu pc rfl (by simp [Boots])
      ⟨Or.inr mine, fun _ => lock.trans mine⟩
  · intro kept q
    rcases kept q with here | ⟨d,busy⟩
    · exact Or.inl (keeps.queued q here)
    · by_cases same : d = c
      · rw [same, place] at busy
        simp only [has, Option.some.injEq] at busy
        rw [← busy]
        exact Or.inl queued
      · exact Or.inr ⟨d, by rw [cpu, Function.update_of_ne same]; exact busy⟩

/-- The process on `c` stops running with a new state for its own slot. -/
theorem inv_stop {s t : State C} (inv : Inv s) {c : C} {i k start : Nat} {p : Fin NPROC}
    (place : s.cpu c = .ran i k start p) (free : s.lock = none ∨ s.lock = some c)
    (sound : Sound t.toTable) (queued : ∀ q, Queued s.toTable q → Queued t.toTable q)
    (others : ∀ q, q ≠ p → (t.proc q).state = (s.proc q).state ∨
      (s.proc q).state = .sleeping ∧ (t.proc q).state = .runnable)
    (cpu : t.cpu = Function.update s.cpu c (.back i k start p)) (lock : t.lock = some c)
    (promoted : t.promoted = s.promoted)
    (forking : ∀ q stage np, t.pc q = .forking stage np → s.pc q = .forking stage np) : Inv t := by
  refine inv_of_busy inv (c := c) (p := p) (by simp [place, has]) promoted ?_ ?_
  · exact core_sched inv.core (p := p) (by simp [place, runs]) free sound others cpu rfl
      (by simp [Boots]) lock forking
  · apply kept_table queued
    intro d
    by_cases same : d = c
    · simp [cpu, same, place, has]
    · simp [cpu, same]

theorem sched_spec {s : State C} {c : C} {i k start : Nat} {p : Fin NPROC}
    (place : s.cpu c = .ran i k start p) :
    sched s c = (s.setCpu c (.back i k start p)).setLock (some c) := by
  unfold sched
  rw [place]

/-- `yield`, and `sleep` from anywhere: only the slot of the process changes. -/
theorem inv_stop_slot {s u : State C} (inv : Inv s) {c : C} {i k start : Nat} {p : Fin NPROC}
    (me : Proc) (place : s.cpu c = .ran i k start p) (free : s.lock = none ∨ s.lock = some c)
    (priority : me.priority = (s.proc p).priority) (proc : u.proc = Function.update s.proc p me)
    (queue : u.queue = s.queue) (cpu : u.cpu = s.cpu) (promoted : u.promoted = s.promoted)
    (forking : ∀ q stage np, u.pc q = .forking stage np → s.pc q = .forking stage np) :
    Inv (sched u c) := by
  rw [sched_spec (by rw [cpu]; exact place)]
  refine inv_stop inv place free ⟨fun q => ?_, fun l => ?_⟩ (fun q here => ?_) (fun q other => ?_)
    (by rw [← cpu]; rfl) rfl promoted forking
  · change 0 ≤ (u.proc q).priority ∧ (u.proc q).priority ≤ MAXPRIORITY
    by_cases same : q = p
    · rw [same, proc, Function.update_self, priority]
      exact inv.core.sound.range p
    · rw [proc, Function.update_of_ne same]
      exact inv.core.sound.range q
  · change -1 ≤ (u.queue l).size
    rw [queue]
    exact inv.core.sound.sized l
  · unfold Queued at here ⊢
    change ∃ l : Int, 0 ≤ l ∧ l ≤ MAXPRIORITY ∧ some q ∈ (u.queue l).entries
    rw [queue]
    exact here
  · left
    change (u.proc q).state = _
    rw [proc, Function.update_of_ne other]

theorem exit_keeps {t : Table} (sound : Sound t) (initproc : Option (Fin NPROC)) (p : Fin NPROC) :
    Sound (exit t initproc p) ∧ (∀ q, Queued t q → Queued (exit t initproc p) q) ∧
    ∀ q, q ≠ p → ((exit t initproc p).proc q).state = (t.proc q).state ∨
      (t.proc q).state = .sleeping ∧ ((exit t initproc p).proc q).state = .runnable := by
  have woken := keeps_wakeup1 sound ((t.proc p).parent.map .slot)
  have whole := keeps_trans woken (keeps_foldl
    (fun u i sound => keeps_abandon (t := u) initproc p sound i) (List.finRange NPROC) woken.sound)
  unfold exit
  dsimp only
  generalize (List.finRange NPROC).foldl (abandon initproc p)
    (wakeup1 t ((t.proc p).parent.map .slot)) = u at whole ⊢
  refine ⟨⟨fun q => ?_, whole.sound.sized⟩, whole.queued, fun q other => ?_⟩
  · by_cases same : q = p
    · rw [same]
      simpa [Table.set] using whole.sound.range p
    · simpa [Table.set, same] using whole.sound.range q
  · simpa [Table.set, other] using whole.state q

omit [DecidableEq C] in
/-- Table operations of a running process that touch no running process. -/
theorem inv_call {s t : State C} (inv : Inv s) {c : C} {p : Fin NPROC}
    (on : runs (s.cpu c) = some p) (keeps : Keeps s.toTable t.toTable) (cpu : t.cpu = s.cpu)
    (lock : t.lock = s.lock) (pc : t.pc = s.pc) (promoted : t.promoted = s.promoted) : Inv t :=
  inv_of_busy inv (runs_has on) promoted (core_table inv.core keeps cpu lock pc)
    (kept_table keeps.queued (by rw [cpu]; exact fun _ => rfl))

omit [DecidableEq C] in
/-- Steps that leave CPUs and lock alone and are open to everybody. -/
theorem inv_table {s t : State C} (inv : Inv s) (keeps : Keeps s.toTable t.toTable)
    (same : s.promoted = false → t.toTable = s.toTable) (cpu : t.cpu = s.cpu)
    (lock : t.lock = s.lock) (pc : t.pc = s.pc) (promoted : t.promoted = s.promoted) : Inv t := by
  refine ⟨core_table inv.core keeps cpu lock pc, fun after => ?_, fun before => ?_⟩
  · rw [promoted] at after
    exact kept_table keeps.queued (by rw [cpu]; exact fun _ => rfl) (inv.kept after)
  · rw [promoted] at before
    have early := inv.early before
    have table := same before
    have proc : t.proc = s.proc := congrArg Table.proc table
    have queue : t.queue = s.queue := congrArg Table.queue table
    exact ⟨by rw [queue]; exact early.empty, by rw [cpu]; exact early.idle,
      by rw [proc]; exact early.low, by rw [proc]; exact early.state,
      by rw [cpu, proc]; exact early.ready⟩

omit [DecidableEq C] in
theorem inv_onTable {s : State C} (inv : Inv s) {f : Table → Table}
    (keeps : Keeps s.toTable (f s.toTable)) (same : s.promoted = false → f s.toTable = s.toTable) :
    Inv (s.onTable f) :=
  inv_table inv keeps same rfl rfl rfl rfl

omit [DecidableEq C] in
theorem inv_fork {s t : State C} (inv : Inv s) {c : C} {p np : Fin NPROC} {new : Pc}
    (on : runs (s.cpu c) = some p) (sound : Sound t.toTable)
    (queued : ∀ q, Queued s.toTable q → Queued t.toTable q) (cpu : t.cpu = s.cpu)
    (lock : t.lock = s.lock) (pcs : t.pc = Function.update s.pc p new)
    (promoted : t.promoted = s.promoted)
    (others : ∀ q, q ≠ np → (t.proc q).state = (s.proc q).state)
    (before : (∃ stage, s.pc p = .forking stage np) ∨
      ((∀ stage k, s.pc p ≠ .forking stage k) ∧ (s.proc np).state = .unused))
    (after : (∀ stage k, new ≠ .forking stage k) ∨
      ((∃ stage, new = .forking stage np) ∧ (t.proc np).state = .embryo)) : Inv t :=
  inv_of_busy inv (runs_has on) promoted
    (core_fork inv.core sound cpu lock pcs others before after)
    (kept_table queued (by rw [cpu]; exact fun _ => rfl))

theorem sound_set {t : Table} (sound : Sound t) {i : Fin NPROC} {me : Proc}
    (range : 0 ≤ me.priority ∧ me.priority ≤ MAXPRIORITY) : Sound (t.set i me) := by
  refine ⟨fun q => ?_, sound.sized⟩
  by_cases same : q = i
  · subst same
    simpa [Table.set] using range
  · simpa [Table.set, same] using sound.range q

omit [DecidableEq C] in
/-- A step of `fork` that rewrites the slot of the child and moves on. -/
theorem inv_fork_slot {s : State C} (inv : Inv s) {c : C} {p : Fin NPROC} (np : Fin NPROC) {new : Pc}
    (me : Proc) (on : runs (s.cpu c) = some p) (priority : me.priority = (s.proc np).priority)
    {t : State C} (table : t.toTable = s.toTable.set np me) (cpu : t.cpu = s.cpu)
    (lock : t.lock = s.lock) (pcs : t.pc = Function.update s.pc p new)
    (promoted : t.promoted = s.promoted)
    (before : (∃ stage, s.pc p = .forking stage np) ∨
      ((∀ stage k, s.pc p ≠ .forking stage k) ∧ (s.proc np).state = .unused))
    (after : (∀ stage k, new ≠ .forking stage k) ∨
      ((∃ stage, new = .forking stage np) ∧ me.state = .embryo)) : Inv t := by
  have proc : t.proc = Function.update s.proc np me := congrArg Table.proc table
  refine inv_fork inv on ?_ ?_ cpu lock pcs promoted ?_ before ?_
  · rw [table]
    exact sound_set inv.core.sound (by rw [priority]; exact inv.core.sound.range np)
  · intro q here
    rw [table]
    exact here
  · intro q other
    rw [proc, Function.update_of_ne other]
  · rw [proc, Function.update_self]
    exact after

omit [DecidableEq C] in
theorem inv_publish {s t : State C} (inv : Inv s) {c : C} {p np : Fin NPROC}
    (on : runs (s.cpu c) = some p) (here : s.pc p = .forking .copied np)
    (table : t.toTable = publish s.toTable np) (cpu : t.cpu = s.cpu) (lock : t.lock = s.lock)
    (pcs : t.pc = Function.update s.pc p .elsewhere) (promoted : t.promoted = s.promoted) :
    Inv t := by
  have ready : Sound (s.toTable.set np { s.proc np with
      state := .runnable, priority := MAXPRIORITY, budget := DEFAULT_BUDGET }) :=
    sound_set inv.core.sound (by simp [MAXPRIORITY])
  obtain ⟨keeps,_⟩ := keeps_enqueue ready np
  refine inv_fork inv on ?_ ?_ cpu lock pcs promoted ?_ (Or.inl ⟨_,here⟩)
    (Or.inl (fun _ _ wrong => by simp at wrong))
  · rw [table]
    exact keeps.sound
  · intro q queued
    rw [table]
    exact keeps.queued q queued
  · intro q other
    have proc : t.proc = (publish s.toTable np).proc := congrArg Table.proc table
    rw [proc]
    simp [publish, enqueue, Table.set, Table.setQueue, other]

omit [DecidableEq C] in
theorem pc_set {s : State C} {p : Fin NPROC} {new : Pc} (plain : ∀ stage np, new ≠ .forking stage np) :
    ∀ q stage np, (s.setPc p new).pc q = .forking stage np → s.pc q = .forking stage np := by
  intro q stage np forking
  by_cases same : q = p
  · subst same
    simp only [State.setPc, Function.update_self] at forking
    exact absurd forking (plain stage np)
  · simpa [State.setPc, same] using forking

theorem inv_wait {s : State C} (inv : Inv s) {c : C} {i k start : Nat} {p : Fin NPROC}
    (place : s.cpu c = .ran i k start p) (free : s.lock = none ∨ s.lock = some c) :
    Inv (wait s c p) := by
  have on : runs (s.cpu c) = some p := by simp [place, runs]
  unfold wait
  split
  · rename_i z found
    have hit := List.find?_some found
    simp only [Bool.and_eq_true, beq_iff_eq] at hit
    have zombie := hit.2
    refine inv_of_busy inv (runs_has on) rfl ?_ (kept_table (fun _ h => h) (fun _ => rfl))
    refine core_leave inv.core on free ?_ (fun q => ?_) rfl (pc_set (by simp))
    · exact sound_set inv.core.sound (inv.core.sound.range z)
    · by_cases same : q = z
      · exact Or.inr (same ▸ zombie)
      · left
        simp [State.setLock, State.setPc, State.onTable, reap, Table.set, same]
  · split
    · refine inv_of_busy inv (runs_has on) rfl ?_ (kept_table (fun _ h => h) (fun _ => rfl))
      exact core_leave inv.core on free inv.core.sound (fun _ => Or.inl rfl) rfl (pc_set (by simp))
    · exact inv_stop_slot inv { s.proc p with chan := some (.slot p), state := .sleeping }
        place free rfl rfl rfl rfl rfl (pc_set (by simp))

theorem inv_moves {s t : State C} {a : Action C} (inv : Inv s) (moves : Moves s a t) : Inv t := by
  cases moves with
  | userinit place free unused => exact inv_userinit inv place free unused rfl rfl rfl rfl rfl
  | publishInit place free => exact inv_publishInit inv place free rfl rfl rfl rfl rfl
  | tick => exact inv_table inv (keeps_refl inv.core.sound) (fun _ => rfl) rfl rfl rfl rfl
  | acquire place free => exact inv_acquire inv place free
  | @release c i k check place mine nobody =>
    exact inv_move inv (c := c) rfl rfl rfl rfl (by simp [place, has]) (by simp [place, Boots])
      ⟨Or.inr mine, fun wrong => by simp [Holds] at wrong⟩
  | dispatch place mine found cell =>
    obtain ⟨inside,runnable⟩ := search_cell found cell
    exact inv_dispatch inv place mine inside cell runnable
  | requeue place mine => exact inv_requeue inv place mine rfl rfl rfl rfl rfl
  | @yield c i k start p place free =>
    exact inv_stop_slot inv { s.proc p with state := .runnable } place (Or.inl free) rfl rfl rfl rfl
      rfl (fun _ _ _ h => h)
  | @sleep c addr i k start p place free pc =>
    exact inv_stop_slot inv { s.proc p with chan := some (.other addr), state := .sleeping } place
      (Or.inl free) rfl rfl rfl rfl rfl (pc_set (by simp))
  | @wakeup chan free =>
    refine inv_onTable (f := fun t => wakeup1 t (some chan)) inv ?_ ?_
    · exact keeps_wakeup1 inv.core.sound (some chan)
    · intro before
      apply wakeup1_awake
      intro q
      rcases (inv.early before).state q with h | h | h <;> simp [h]
  | @kill c pid i k start p place free =>
    exact inv_call inv (c := c) (p := p) (by simp [place, runs]) (keeps_kill inv.core.sound pid) rfl
      rfl rfl rfl
  | @setpriority c pid priority i k start p place other =>
    exact inv_call inv (c := c) (p := p) (by simp [place, runs])
      (keeps_setpriority inv.core.sound pid priority) rfl rfl rfl rfl
  | full place free => exact inv
  | @allocproc c i k start p np place free pc unused =>
    exact inv_fork_slot inv (c := c) np { s.proc np with state := .embryo, pid := s.nextpid }
      (by simp [place, runs]) rfl rfl rfl rfl rfl rfl (Or.inr ⟨by simp [pc],unused⟩)
      (Or.inr ⟨⟨_,rfl⟩,rfl⟩)
  | @kalloc c i k start p np place pc =>
    exact inv_fork_slot inv (c := c) np (s.proc np) (by simp [place, runs]) rfl
      (by simp [State.setPc, Table.set]) rfl rfl rfl rfl (Or.inl ⟨_,pc⟩)
      (Or.inr ⟨⟨_,rfl⟩,inv.core.forked p _ np pc⟩)
  | @copyuvm c i k start p np place pc =>
    exact inv_fork_slot inv (c := c) np { s.proc np with parent := some p } (by simp [place, runs])
      rfl rfl rfl rfl rfl rfl (Or.inl ⟨_,pc⟩) (Or.inr ⟨⟨_,rfl⟩,inv.core.forked p _ np pc⟩)
  | @discard c _ stage i k start p np place pc failed =>
    exact inv_fork_slot inv (c := c) np { s.proc np with state := .unused } (by simp [place, runs])
      rfl rfl rfl rfl rfl rfl (Or.inl ⟨_,pc⟩) (Or.inl (by simp))
  | @publish c i k start p np place free pc =>
    exact inv_publish inv (c := c) (p := p) (by simp [place, runs]) pc rfl rfl rfl rfl rfl
  | @exit c i k start p place free =>
    obtain ⟨sound,queued,others⟩ := exit_keeps inv.core.sound s.initproc p
    rw [sched_spec (s := s.onTable fun t => exit t s.initproc p) place]
    exact inv_stop inv place (Or.inl free) sound queued others rfl rfl rfl (fun _ _ _ h => h)
  | wait place free => exact inv_wait inv place free

theorem inv_start {s : State C} (start : Start s) : Inv s := by
  obtain ⟨procs,queues,_,pcs,_,_,_,_,promoted,c,boot,tops⟩ := start
  have cpus : ∀ d, s.cpu d = .boot ∨ s.cpu d = .top := by
    intro d
    by_cases same : d = c
    · exact Or.inl (same ▸ boot)
    · exact Or.inr (tops d same)
  have only : ∀ d, Boots (s.cpu d) → d = c := by
    intro d on
    by_contra other
    simp [tops d other, Boots] at on
  refine ⟨⟨⟨fun p => ?_, fun l => ?_⟩, ?_, ?_, ?_, ?_, ?_, ?_, ?_⟩, ?_, fun _ => ⟨?_, ?_, ?_, ?_, ?_⟩⟩
  · rw [procs p]
    simp [MAXPRIORITY]
  · rw [queues l]
    exact le_refl _
  · intro d p on
    rcases cpus d with h | h <;> simp [h, runs] at on
  · intro d e p on
    rcases cpus d with h | h <;> simp [h, runs] at on
  · intro d on
    rcases cpus d with h | h <;> simp [h, Holds] at on
  · intro p stage np forking
    simp [pcs p] at forking
  · intro p q stage stage' np forking
    simp [pcs p] at forking
  · intro d p on
    rcases cpus d with h | h <;> simp [h] at on
  · intro d e onD onE
    exact (only d onD).trans (only e onE).symm
  · intro after
    simp [promoted] at after
  · intro l
    rw [queues l]
    rfl
  · intro d
    rcases cpus d with h | h <;> simp [h, has]
  · intro p
    rw [procs p]
  · intro p
    rw [procs p]
    exact Or.inl rfl
  · intro done
    exact absurd (by simp [boot, Boots]) (done c)

end Runs

def poweredOn : State Unit where
  proc := fun _ => ⟨.unused, 0, none, none, false, 0, 0⟩
  queue := fun _ => .empty
  overran := false
  pc := fun _ => .elsewhere
  initproc := none
  nextpid := 1
  ticks := 0
  promoteAtTime := 0
  cpu := fun _ => .boot
  lock := none
  promoted := false

theorem poweredOn_start : Start poweredOn :=
  ⟨fun _ => rfl,fun _ => rfl,rfl,fun _ => rfl,rfl,rfl,rfl,rfl,rfl,(),rfl,fun _ other => absurd rfl other⟩

def initReady : State Unit :=
  (System.exec next poweredOn [.userinit (), .publishInit ()]).get (by decide +kernel)

theorem initReady_reach : (system Unit).Reach System.Free initReady :=
  System.exec_reach [.userinit (), .publishInit ()] (fun _ _ _ => trivial) (.start poweredOn_start)
    (Option.some_get _).symm

end MlfqRuns
