import KernelLabs.Lab2.MlfqFirstSound

/-!
Which processes the first version keeps in its queues. A process that yields stays in a
queue when its budget is used up or another entry of it survives, and a new process
stays in one as long as no CPU comes to its entry while it is being made.
-/
namespace MlfqFirstQueues
open MlfqFirst MlfqFirstMoves MlfqFirstSound Transition
open Xv6Proc (NPROC Procstate Chan Stage)
open Mlfq (MAXPRIORITY DEFAULT_BUDGET Action int)

section Tables
variable {t u v : Table} {lost : Fin NPROC → Prop}

def InRange (l : Int) : Prop := 0 ≤ l ∧ l ≤ MAXPRIORITY

def Levels (t : Table) : Prop := ∀ p, InRange (t.proc p).priority ∧ InRange (t.proc p).original_priority

/-- The process is in one of the queues. -/
def Queued (t : Table) (p : Fin NPROC) : Prop := ∃ l, InRange l ∧ p ∈ t.queue l

/-- What an operation on the table keeps: good levels, and the entries of all processes
    but those that it may lose. -/
structure Moved (lost : Fin NPROC → Prop) (t u : Table) : Prop where
  levels : Levels u
  queued : ∀ q, ¬ lost q → Queued t q → Queued u q

theorem Moved.trans (first : Moved lost t u) (second : Moved lost u v) : Moved lost t v :=
  ⟨second.levels, fun q kept here => second.queued q kept (first.queued q kept here)⟩

theorem Moved.mono {more : Fin NPROC → Prop} (weaker : ∀ q, lost q → more q) (moved : Moved lost t u) :
    Moved more t u :=
  ⟨moved.levels, fun q kept here => moved.queued q (fun gone => kept (weaker q gone)) here⟩

theorem moved_foldl {f : Table → Fin NPROC → Table} (turn : ∀ u p, Levels u → Moved lost u (f u p))
    (l : List (Fin NPROC)) (levels : Levels t) : Moved lost t (l.foldl f t) := by
  induction l generalizing t with
  | nil => exact ⟨levels, fun _ _ here => here⟩
  | cons p rest ih =>
    have first := turn t p levels
    exact first.trans (ih first.levels)

theorem levels_set (levels : Levels t) {p : Fin NPROC} {me : Proc}
    (good : InRange me.priority ∧ InRange me.original_priority) : Levels (t.set p me) := by
  intro q
  by_cases same : q = p
  · subst same
    simpa [Table.set] using good
  · simpa [Table.set, same] using levels q

theorem moved_set (lost : Fin NPROC → Prop) (levels : Levels t) {p : Fin NPROC} {me : Proc}
    (good : InRange me.priority ∧ InRange me.original_priority) : Moved lost t (t.set p me) :=
  ⟨levels_set levels good, fun _ _ here => here⟩

theorem append_queued {l : Int} (range : InRange l) (p : Fin NPROC) : Queued (append t l p) p :=
  ⟨l, range, by simp [append, Table.setQueue]⟩

theorem moved_append (lost : Fin NPROC → Prop) (levels : Levels t) (l : Int) (p : Fin NPROC) :
    Moved lost t (append t l p) := by
  refine ⟨levels, fun q _ ⟨k,range,member⟩ => ⟨k, range, ?_⟩⟩
  by_cases same : k = l
  · subst same
    simp [append, Table.setQueue, member]
  · simpa [append, Table.setQueue, same] using member

theorem moved_remove (levels : Levels t) (p : Fin NPROC) : Moved (· = p) t (remove t p) := by
  refine ⟨levels, fun q kept ⟨k,range,member⟩ => ⟨k, range, ?_⟩⟩
  by_cases same : k = (t.proc p).priority
  · subst same
    simpa [remove, Table.setQueue] using (List.mem_erase_of_ne kept).mpr member
  · simpa [remove, Table.setQueue, same] using member

/-- An operation that takes out `p` alone and queues it again loses nobody. -/
theorem Moved.requeued {p : Fin NPROC} (moved : Moved (· = p) t u) (queued : Queued u p) :
    Moved (fun _ => False) t u := by
  refine ⟨moved.levels, fun q _ here => ?_⟩
  by_cases same : q = p
  · exact same ▸ queued
  · exact moved.queued q same here

theorem moved_found (levels : Levels t) (np : Fin NPROC) (pid : Int) :
    Moved (fun _ => False) t (found t np pid) ∧ Queued (found t np pid) np := by
  have top : InRange MAXPRIORITY := ⟨by decide, le_refl _⟩
  have set : Moved (fun _ => False) t (t.set np { t.proc np with
      state := .embryo, pid := pid, priority := MAXPRIORITY, original_priority := MAXPRIORITY
      budget := DEFAULT_BUDGET }) := moved_set _ levels ⟨top,top⟩
  exact ⟨set.trans (moved_append _ set.levels MAXPRIORITY np), append_queued top np⟩

theorem moved_promoteOne (levels : Levels t) (p : Fin NPROC) : Moved (fun _ => False) t (promoteOne t p) := by
  unfold promoteOne
  dsimp only
  split
  · rename_i due
    obtain ⟨low,_⟩ := (levels p).1
    have higher : InRange ((t.proc p).priority + 1) := ⟨by omega, by have := due.2; omega⟩
    have out := moved_remove levels p
    have set : Moved (· = p) (remove t p) ((remove t p).set p { t.proc p with
        original_priority := (t.proc p).priority, priority := (t.proc p).priority + 1
        budget := DEFAULT_BUDGET }) := moved_set _ out.levels ⟨higher,(levels p).1⟩
    have back := (out.trans set).trans (moved_append _ set.levels ((t.proc p).priority + 1) p)
    exact back.requeued (append_queued higher p)
  · exact ⟨levels, fun _ _ here => here⟩

theorem moved_promote (levels : Levels t) : Moved (fun _ => False) t (promote t) :=
  moved_foldl (fun _ p good => moved_promoteOne good p) _ levels

theorem moved_wakeOne (chan : Option Chan) (levels : Levels t) (p : Fin NPROC) :
    Moved (fun _ => False) t (wakeOne chan t p) := by
  unfold wakeOne
  split
  · have set : Moved (fun _ => False) t (t.set p { t.proc p with state := .runnable, woken := true }) :=
      moved_set _ levels (levels p)
    exact set.trans (moved_append _ set.levels (t.proc p).original_priority p)
  · exact ⟨levels, fun _ _ here => here⟩

theorem moved_wakeup1 (chan : Option Chan) (levels : Levels t) : Moved (fun _ => False) t (wakeup1 t chan) :=
  moved_foldl (fun _ p good => moved_wakeOne chan good p) _ levels

theorem moved_abandon (initproc : Option (Fin NPROC)) (p : Fin NPROC) (levels : Levels t) (i : Fin NPROC) :
    Moved (fun _ => False) t (abandon initproc p t i) := by
  unfold abandon
  split
  · have passed : Moved (fun _ => False) t (t.set i { t.proc i with parent := initproc }) :=
      moved_set _ levels (levels i)
    dsimp only
    split
    · exact passed.trans (moved_wakeup1 _ passed.levels)
    · exact passed
  · exact ⟨levels, fun _ _ here => here⟩

theorem moved_exit (levels : Levels t) (initproc : Option (Fin NPROC)) (p : Fin NPROC) :
    Moved (· = p) t (exit t initproc p) := by
  have woken := moved_wakeup1 ((t.proc p).parent.map .slot) levels
  have passed := woken.trans
    (moved_foldl (fun _ i good => moved_abandon initproc p good i) (List.finRange NPROC) woken.levels)
  unfold exit
  dsimp only
  generalize (List.finRange NPROC).foldl (abandon initproc p)
    (wakeup1 t ((t.proc p).parent.map .slot)) = u at passed ⊢
  have dead : Moved (· = p) u (u.set p { u.proc p with state := .zombie }) :=
    moved_set _ passed.levels (passed.levels p)
  exact ((passed.mono fun _ none => none.elim).trans dead).trans (moved_remove dead.levels p)

theorem moved_kill (levels : Levels t) (pid : Int) : Moved (fun _ => False) t (kill t pid) := by
  unfold kill
  split
  · exact ⟨levels, fun _ _ here => here⟩
  · rename_i i _
    dsimp only
    split <;> exact moved_set _ levels (levels i)

theorem moved_setpriority (levels : Levels t) (pid priority : Int) :
    Moved (fun _ => False) t (setpriority t pid priority) := by
  unfold setpriority
  split
  · exact ⟨levels, fun _ _ here => here⟩
  · rename_i good
    split
    · exact ⟨levels, fun _ _ here => here⟩
    · rename_i i _
      have range : InRange priority := ⟨by omega, by omega⟩
      exact moved_set _ levels ⟨range,(levels i).2⟩

theorem moved_demote (levels : Levels t) (p : Fin NPROC) :
    Moved (· = p) t (demote t p) ∧ Queued (demote t p) p := by
  have out := moved_remove levels p
  have range := (out.levels p).1
  unfold demote
  dsimp only
  split
  · rename_i above
    have lower : InRange (((remove t p).proc p).priority - 1) := ⟨by omega, by have := range.2; omega⟩
    have set : Moved (· = p) (remove t p) ((remove t p).set p { (remove t p).proc p with
        priority := ((remove t p).proc p).priority - 1, budget := DEFAULT_BUDGET
        original_priority := ((remove t p).proc p).priority - 1 }) := moved_set _ out.levels ⟨lower,lower⟩
    exact ⟨(out.trans set).trans (moved_append _ set.levels _ p), append_queued lower p⟩
  · exact ⟨out.trans (moved_append _ out.levels _ p), append_queued range p⟩

/-- After the bookkeeping of a process that has budget left, some entry of it is queued. -/
def Survives (t : Table) (p : Fin NPROC) : Prop :=
  (∃ l, InRange l ∧ l ≠ (t.proc p).priority ∧ p ∈ t.queue l) ∨
    (t.queue (t.proc p).priority).getLast? = some p ∨ 1 < (t.queue (t.proc p).priority).count p

theorem mem_erase_iff {l : List (Fin NPROC)} {p : Fin NPROC} : p ∈ l.erase p ↔ 1 < l.count p := by
  rw [← List.count_pos_iff, List.count_erase_self]
  omega

theorem toTail_queue {p : Fin NPROC} (member : p ∈ t.queue (t.proc p).priority) :
    (toTail t p).queue = Function.update t.queue (t.proc p).priority
      ((t.queue (t.proc p).priority).erase p ++ (t.queue (t.proc p).priority).getLast?.toList) := by
  unfold toTail
  dsimp only
  rw [if_pos (List.contains_iff_mem.mpr member)]
  rfl

theorem toTail_queued_iff (levels : Levels t) (p : Fin NPROC) : Queued (toTail t p) p ↔ Survives t p := by
  have range := (levels p).1
  by_cases member : p ∈ t.queue (t.proc p).priority
  · have here : p ∈ (t.queue (t.proc p).priority).erase p ++ (t.queue (t.proc p).priority).getLast?.toList ↔
        (t.queue (t.proc p).priority).getLast? = some p ∨ 1 < (t.queue (t.proc p).priority).count p := by
      rw [List.mem_append, mem_erase_iff, Option.mem_toList, or_comm]
    unfold Queued Survives
    rw [toTail_queue member, ← here]
    constructor
    · rintro ⟨l,good,there⟩
      by_cases same : l = (t.proc p).priority
      · rw [same, Function.update_self] at there
        exact Or.inr there
      · rw [Function.update_of_ne same] at there
        exact Or.inl ⟨l,good,same,there⟩
    · rintro (⟨l,good,other,there⟩ | there)
      · exact ⟨l, good, by rwa [Function.update_of_ne other]⟩
      · exact ⟨_, range, by rwa [Function.update_self]⟩
  · have same : toTail t p = t := by
      unfold toTail
      exact if_neg fun inside => member (List.contains_iff_mem.mp inside)
    rw [same]
    constructor
    · rintro ⟨l,good,there⟩
      refine Or.inl ⟨l, good, fun eq => member (eq ▸ there), there⟩
    · rintro (⟨l,good,_,there⟩ | last | twice)
      · exact ⟨l,good,there⟩
      · exact absurd (List.mem_of_getLast? last) member
      · exact absurd (List.count_pos_iff.mp (by omega)) member

theorem moved_toTail (levels : Levels t) (p : Fin NPROC) : Moved (· = p) t (toTail t p) := by
  refine ⟨fun q => by rw [toTail_proc]; exact levels q, fun q kept ⟨l,good,there⟩ => ⟨l, good, ?_⟩⟩
  by_cases member : p ∈ t.queue (t.proc p).priority
  · rw [toTail_queue member]
    by_cases same : l = (t.proc p).priority
    · rw [same, Function.update_self, List.mem_append]
      exact Or.inl ((List.mem_erase_of_ne kept).mpr (same ▸ there))
    · rwa [Function.update_of_ne same]
  · unfold toTail
    rwa [if_neg fun inside => member (List.contains_iff_mem.mp inside)]

/-- The budget of `p` is used up after `ran` ticks, or an entry of it survives. -/
def Returned (t : Table) (p : Fin NPROC) (ran : Int) : Prop :=
  int ((t.proc p).budget - ran) ≤ 0 ∨ Survives t p

theorem requeue_spec (levels : Levels t) (p : Fin NPROC) (ran : Int) :
    Moved (· = p) t (requeue t p ran) ∧ (Queued (requeue t p ran) p ↔ Returned t p ran) := by
  have charged : Moved (· = p) t (t.set p { t.proc p with budget := int ((t.proc p).budget - ran) }) :=
    moved_set _ levels (levels p)
  have budget : ((t.set p { t.proc p with budget := int ((t.proc p).budget - ran) }).proc p).budget =
      int ((t.proc p).budget - ran) := by simp [Table.set]
  have survives : Survives (t.set p { t.proc p with budget := int ((t.proc p).budget - ran) }) p ↔ Survives t p := by
    simp [Survives, Table.set]
  unfold requeue Returned
  dsimp only
  rw [budget, ← survives]
  generalize t.set p { t.proc p with budget := int ((t.proc p).budget - ran) } = u at charged ⊢
  have ready : ∀ {w : Table}, Moved (· = p) u w →
      Moved (· = p) t (w.set p { w.proc p with state := .runnable }) :=
    fun moved => (charged.trans moved).trans (moved_set _ moved.levels (moved.levels p))
  split
  · rename_i used
    obtain ⟨moved,queued⟩ := moved_demote charged.levels p
    exact ⟨ready moved, iff_of_true queued (Or.inl used)⟩
  · rename_i left
    refine ⟨ready (moved_toTail charged.levels p), ?_⟩
    rw [or_iff_right left]
    exact toTail_queued_iff charged.levels p

end Tables

section Runs
variable {C : Type} {s t u : State C} {a : Action C}

/-- The level that the CPU is at. -/
def level : Cpu → Option Nat
  | .scan i => some i
  | .ran i _ _ => some i
  | .back i _ _ => some i
  | _ => none

def Scans (s : State C) : Prop := ∀ c i, level (s.cpu c) = some i → i ≤ 2

/-- Every process that is being made is queued. -/
def Nursed (s : State C) : Prop := ∀ q np k, ofPc (s.pc q) = some (np, k) → Queued s.toTable np

structure Ordered (s : State C) : Prop where
  sound : Sound s
  levels : Levels s.toTable
  scans : Scans s

theorem scans_table (scans : Scans s) (cpu : t.cpu = s.cpu) : Scans t := by
  unfold Scans
  rw [cpu]
  exact scans

theorem scans_onTable (scans : Scans s) (f : Table → Table) : Scans (s.onTable f) := scans

theorem pcs_onTable (s : State C) (f : Table → Table) (q : Fin NPROC) :
    ofPc ((s.onTable f).pc q) = ofPc (s.pc q) ∨ ofPc ((s.onTable f).pc q) = none := Or.inl rfl

/-- The processes that the step may take out of the queues. -/
def Loses (s : State C) (a : Action C) (q : Fin NPROC) : Prop :=
  match a with
  | .scan c => ∃ i rest, s.cpu c = .scan i ∧ s.queue i = q :: rest
  | .requeue c => ∃ i start, s.cpu c = .back i start q
  | .exit c => ∃ i start, s.cpu c = .ran i start q
  | _ => False

/-- An entry of a process that is being made is taken out only when another one is left. -/
def Nurses (s : State C) (c : C) : Prop :=
  ∀ i p rest, s.cpu c = .scan i → s.queue i = p :: rest → (s.proc p).state = .embryo →
    p ∈ rest ∨ ∃ l, InRange l ∧ l ≠ i ∧ p ∈ s.queue l

theorem moved_same {lost : Fin NPROC → Prop} (levels : Levels s.toTable) (queue : t.queue = s.queue)
    (proc : ∀ q, (t.proc q).priority = (s.proc q).priority ∧
      (t.proc q).original_priority = (s.proc q).original_priority) : Moved lost s.toTable t.toTable := by
  refine ⟨fun q => ?_, fun q _ here => ?_⟩
  · rw [(proc q).1, (proc q).2]
    exact levels q
  · unfold Queued
    rw [queue]
    exact here

/-- Taking out the first entry of a level. -/
theorem moved_pop {lost : Fin NPROC → Prop} {i : Nat} {p : Fin NPROC} {rest : List (Fin NPROC)}
    (levels : Levels s.toTable) (front : s.queue i = p :: rest) (head : lost p) :
    Moved lost s.toTable (s.toTable.setQueue i rest) := by
  refine ⟨levels, fun q kept ⟨l,range,there⟩ => ⟨l, range, ?_⟩⟩
  by_cases same : l = i
  · subst same
    rw [front] at there
    rcases List.mem_cons.mp there with rfl | later
    · exact absurd head kept
    · simpa [Table.setQueue] using later
  · simpa [Table.setQueue, same] using there

theorem nursed_keep (nursed : Nursed s) (sound : Sound s)
    (pcs : ∀ q, ofPc (t.pc q) = ofPc (s.pc q) ∨ ofPc (t.pc q) = none)
    (queued : ∀ np, (s.proc np).state = .embryo → Queued s.toTable np → Queued t.toTable np) : Nursed t := by
  intro q np k making
  rcases pcs q with same | none
  · rw [same] at making
    have fits := sound.leased.agree (.inr q) np k making
    have phase : k = .making := by
      cases pc : s.pc q <;> simp [pc, ofPc] at making
      exact making.2.symm
    subst phase
    exact queued np fits (nursed q np .making making)
  · rw [none] at making
    cases making

variable [DecidableEq C]

theorem scans_update (scans : Scans s) {c : C} (new : Cpu) (cpu : t.cpu = Function.update s.cpu c new)
    (low : ∀ i, level new = some i → i ≤ 2) : Scans t := by
  intro d i here
  rw [cpu] at here
  by_cases same : d = c
  · subst same
    rw [Function.update_self] at here
    exact low i here
  · rw [Function.update_of_ne same] at here
    exact scans d i here

theorem scans_sched (scans : Scans s) {c : C} (cpu : u.cpu = s.cpu) : Scans (sched u c) := by
  unfold sched
  split
  · rename_i i start p place
    refine scans_update (s := u) (scans_table scans cpu) (.back i start p) rfl fun j same => ?_
    have here : level (u.cpu c) = some j := by rw [place]; exact same
    rw [cpu] at here
    exact scans c j here
  · exact scans_table scans cpu

theorem scans_moves (scans : Scans s) (moves : Moves s a t) : Scans t := by
  cases moves with
  | @userinit c p place free unused => exact scans_update (s := s) scans (.setup p) rfl (fun i none => by cases none)
  | publishInit place free => exact scans_update (s := s) scans .top rfl (fun i none => by cases none)
  | tick => exact scans
  | @acquire c place free =>
    refine scans_update scans (.scan 2) (acquire_frame s c).1 fun i same => ?_
    exact (Option.some.inj same) ▸ le_refl 2
  | release place mine empty => exact scans_update (s := s) scans .top rfl (fun i none => by cases none)
  | @down c i place mine empty =>
    refine scans_update (s := s) scans (.scan i) rfl fun j same => ?_
    have above := scans c (i + 1) (by rw [place]; rfl)
    have lower : i = j := Option.some.inj same
    omega
  | drop place mine front idle => exact scans_table scans rfl
  | @dispatch c i p rest place mine front runnable =>
    refine scans_update scans _ (dispatch_dispatched _ c i p).cpu fun j same => ?_
    exact scans c j (by rw [place]; exact same)
  | @requeue c i start p place mine =>
    exact scans_update (s := s) scans (.scan i) rfl fun j same => scans c j (by rw [place]; exact same)
  | yield place free => exact scans_sched scans rfl
  | sleep place free pc => exact scans_sched scans rfl
  | wakeup free => exact scans_onTable scans _
  | kill free => exact scans_onTable scans _
  | setpriority => exact scans_onTable scans _
  | full free => exact scans
  | allocproc place free unused => exact scans_table scans rfl
  | kalloc place pc => exact scans_table scans rfl
  | copyuvm place pc => exact scans_table scans rfl
  | discard place pc failed => exact scans_table scans rfl
  | publish place free pc => exact scans_table scans rfl
  | exit place free pc => exact scans_sched scans rfl
  | reap place free pc child zombie => exact scans_table scans rfl
  | childless place free pc => exact scans_table scans rfl
  | await place free pc => exact scans_sched scans rfl

theorem moves_moved (levels : Levels s.toTable) (moves : Moves s a t) :
    Moved (Loses s a) s.toTable t.toTable := by
  have none : ∀ {u v}, Moved (fun _ => False) u v → Moved (Loses s a) u v := fun moved =>
    moved.mono fun _ no => no.elim
  cases moves with
  | @userinit c p place free unused => exact none (moved_found levels p s.nextpid).1
  | @publishInit c p place free => exact moved_set _ levels (levels p)
  | tick => exact moved_same levels rfl fun _ => ⟨rfl,rfl⟩
  | @acquire c place free =>
    rw [acquire_table]
    split
    · exact none (moved_promote levels)
    · exact ⟨levels, fun _ _ here => here⟩
  | release place mine empty => exact moved_same levels rfl fun _ => ⟨rfl,rfl⟩
  | down place mine empty => exact moved_same levels rfl fun _ => ⟨rfl,rfl⟩
  | @drop c i p rest place mine front idle => exact moved_pop levels front ⟨i,rest,place,front⟩
  | @dispatch c i p rest place mine front runnable =>
    have popped : Moved (Loses s (.scan c)) s.toTable (s.toTable.setQueue i rest) :=
      moved_pop levels front ⟨i,rest,place,front⟩
    obtain ⟨_,queue,others,⟨chan,me⟩,_⟩ := dispatch_dispatched (s.onTable fun t => t.setQueue i rest) c i p
    have run : Moved (Loses s (.scan c)) (s.onTable fun t => t.setQueue i rest).toTable
        (dispatch (s.onTable fun t => t.setQueue i rest) c i p).toTable := by
      refine moved_same popped.levels queue fun q => ?_
      by_cases same : q = p
      · rw [same, me]
        exact ⟨rfl,rfl⟩
      · rw [others q same]
        exact ⟨rfl,rfl⟩
    exact popped.trans run
  | @requeue c i start p place mine =>
    have moved := (requeue_spec levels p (int (s.ticks - start))).1
    exact moved.mono fun q (same : q = p) => ⟨i, start, same ▸ place⟩
  | @yield c i start p place free =>
    rw [sched_table]
    exact moved_set _ levels (levels p)
  | @sleep c addr i start p place free pc =>
    rw [sched_table]
    exact moved_set _ levels (levels p)
  | @wakeup chan free =>
    have moved := moved_wakeup1 (some chan) levels
    generalize wakeup1 = f at moved ⊢
    exact none moved
  | @kill c pid free =>
    have moved := moved_kill levels pid
    generalize kill = f at moved ⊢
    exact none moved
  | @setpriority c pid priority =>
    have moved := moved_setpriority levels pid priority
    generalize setpriority = f at moved ⊢
    exact none moved
  | full free => exact ⟨levels, fun _ _ here => here⟩
  | @allocproc c i start p np place free unused => exact none (moved_found levels np s.nextpid).1
  | kalloc place pc => exact moved_same levels rfl fun _ => ⟨rfl,rfl⟩
  | @copyuvm c i start p np place pc => exact moved_set _ levels (levels np)
  | @discard c _ stage i start p np place pc failed => exact moved_set _ levels (levels np)
  | @publish c i start p np place free pc => exact moved_set _ levels (levels np)
  | @exit c i start p place free pc =>
    rw [sched_table]
    have moved := moved_exit levels s.initproc p
    exact moved.mono fun q (same : q = p) => ⟨i, start, same ▸ place⟩
  | @reap c i start p z place free pc child zombie => exact moved_set _ levels (levels z)
  | childless place free pc => exact moved_same levels rfl fun _ => ⟨rfl,rfl⟩
  | @await c i start p place free pc =>
    rw [sched_table]
    exact moved_set _ levels (levels p)

theorem ordered_moves (ordered : Ordered s) (moves : Moves s a t) : Ordered t :=
  ⟨sound_moves ordered.sound moves, (moves_moved ordered.levels moves).levels, scans_moves ordered.scans moves⟩

omit [DecidableEq C] in
theorem ordered_start (start : Start s) : Ordered s := by
  refine ⟨sound_start start, fun p => ?_, fun c i here => ?_⟩
  · rw [start.1 p]
    exact ⟨⟨le_refl _, by decide⟩, le_refl _, by decide⟩
  · obtain ⟨_,_,_,_,_,_,_,_,_,_,d,boot,tops⟩ := start
    by_cases same : c = d
    · rw [same, boot] at here
      cases here
    · rw [tops c same] at here
      cases here

theorem reach_ordered {allowed : State C → Action C → Prop} (reach : (system C).Reach allowed s) : Ordered s :=
  System.reach_invariant (system C) (fun _ start => ordered_start start)
    (fun _ _ _ before _ run => ordered_moves before (next_moves run).2.2) reach

/-- Only a scan that comes to the entry of a process that is being made can lose it. -/
theorem embryo_kept (ordered : Ordered s) (moves : Moves s a t) (nurses : ∀ c, a = .scan c → Nurses s c)
    {np : Fin NPROC} (embryo : (s.proc np).state = .embryo) (here : Queued s.toTable np) : Queued t.toTable np := by
  by_cases lost : Loses s a np
  · unfold Loses at lost
    split at lost
    · rename_i c
      obtain ⟨i,rest,place,front⟩ := lost
      have low := ordered.scans c i (by rw [place]; rfl)
      have left := nurses c rfl i np rest place front embryo
      have range : InRange (i : Int) := ⟨by omega, by change (i : Int) ≤ 2; omega⟩
      have popped : Queued (s.toTable.setQueue i rest) np := by
        rcases left with later | ⟨l,good,other,there⟩
        · exact ⟨i, range, by simpa [Table.setQueue] using later⟩
        · exact ⟨l, good, by simpa [Table.setQueue, other] using there⟩
      cases moves with
      | release there mine empty =>
        rw [place, Cpu.scan.injEq] at there
        subst there
        cases front.symm.trans empty
      | down there mine empty =>
        rw [place, Cpu.scan.injEq] at there
        subst there
        cases front.symm.trans empty
      | @drop _ j p rest' there mine front' idle =>
        rw [place, Cpu.scan.injEq] at there
        subst there
        obtain ⟨_,rfl⟩ := List.cons.inj (front.symm.trans front')
        exact popped
      | @dispatch _ j p rest' there mine front' runnable =>
        rw [place, Cpu.scan.injEq] at there
        subst there
        obtain ⟨rfl,_⟩ := List.cons.inj (front.symm.trans front')
        cases embryo.symm.trans runnable
      | discard there pc failed => rcases failed with wrong | wrong <;> cases wrong
    · obtain ⟨i,start,place⟩ := lost
      rcases ordered.sound.stopped place with state | state | state <;> cases embryo.symm.trans state
    · obtain ⟨i,start,place⟩ := lost
      cases embryo.symm.trans (ordered.sound.running place)
    · exact lost.elim
  · exact (moves_moved ordered.levels moves).queued np lost here

theorem moves_pcs (moves : Moves s a t) :
    (∀ q, ofPc (t.pc q) = ofPc (s.pc q) ∨ ofPc (t.pc q) = none) ∨ ∃ p np, t = allocate s p np := by
  have forks : ∀ {p np : Fin NPROC} {stage next : Stage}, s.pc p = .forking stage np → ∀ q,
      ofPc ((s.setPc p (.forking next np)).pc q) = ofPc (s.pc q) := by
    intro p np stage next pc q
    by_cases same : q = p
    · subst same
      simp [State.setPc, pc, ofPc]
    · simp [State.setPc, same]
  cases moves with
  | userinit place free unused => exact Or.inl (ofPc_set rfl)
  | publishInit place free => exact Or.inl fun _ => Or.inl rfl
  | tick => exact Or.inl fun _ => Or.inl rfl
  | @acquire c place free => exact Or.inl fun _ => Or.inl (by rw [(acquire_frame s c).2.1])
  | release place mine empty => exact Or.inl fun _ => Or.inl rfl
  | down place mine empty => exact Or.inl fun _ => Or.inl rfl
  | drop place mine front idle => exact Or.inl fun _ => Or.inl rfl
  | @dispatch c i p rest place mine front runnable =>
    refine Or.inl fun q => ?_
    rcases (dispatch_dispatched (s.onTable fun t => t.setQueue i rest) c i p).pc q with same | left
    · exact Or.inl (congrArg ofPc same)
    · exact Or.inr (by rw [left]; rfl)
  | requeue place mine => exact Or.inl fun _ => Or.inl rfl
  | yield place free =>
    rw [(sched_frame _ _).1]
    exact Or.inl fun _ => Or.inl rfl
  | sleep place free pc =>
    rw [(sched_frame _ _).1]
    exact Or.inl (ofPc_set rfl)
  | wakeup free => exact Or.inl (pcs_onTable s _)
  | kill free => exact Or.inl (pcs_onTable s _)
  | setpriority => exact Or.inl (pcs_onTable s _)
  | full free => exact Or.inl fun _ => Or.inl rfl
  | @allocproc c i start p np place free unused => exact Or.inr ⟨p,np,rfl⟩
  | kalloc place pc => exact Or.inl fun q => Or.inl (forks pc q)
  | copyuvm place pc => exact Or.inl fun q => Or.inl (forks pc q)
  | discard place pc failed => exact Or.inl (ofPc_set rfl)
  | publish place free pc => exact Or.inl (ofPc_set rfl)
  | exit place free pc =>
    rw [(sched_frame _ _).1]
    exact Or.inl (ofPc_set rfl)
  | reap place free pc child zombie => exact Or.inl (ofPc_set rfl)
  | childless place free pc => exact Or.inl (ofPc_set rfl)
  | await place free pc =>
    rw [(sched_frame _ _).1]
    exact Or.inl (ofPc_set rfl)

omit [DecidableEq C] in
theorem nursed_allocate (ordered : Ordered s) (nursed : Nursed s) (p np : Fin NPROC) : Nursed (allocate s p np) := by
  obtain ⟨moved,queued⟩ := moved_found ordered.levels np s.nextpid
  intro q x k making
  by_cases same : q = p
  · have here : (allocate s p np).pc q = .forking .allocated np := by simp [allocate, State.setPc, same]
    simp only [here, ofPc, Option.some.injEq, Prod.mk.injEq] at making
    exact making.1 ▸ queued
  · have pc : (allocate s p np).pc q = (s.setPc np .elsewhere).pc q := by
      simp [allocate, State.setPc, same, State.onTable]
    rw [pc] at making
    have cleared : ofPc ((s.setPc np .elsewhere).pc q) = ofPc (s.pc q) ∨
        ofPc ((s.setPc np .elsewhere).pc q) = none := ofPc_set rfl q
    rcases cleared with old | none
    · exact moved.queued x id (nursed q x k (old ▸ making))
    · rw [none] at making
      cases making

theorem nursed_moves (ordered : Ordered s) (nursed : Nursed s) (moves : Moves s a t)
    (nurses : ∀ c, a = .scan c → Nurses s c) : Nursed t := by
  rcases moves_pcs moves with pcs | ⟨p,np,rfl⟩
  · exact nursed_keep nursed ordered.sound pcs fun _ embryo here => embryo_kept ordered moves nurses embryo here
  · exact nursed_allocate ordered nursed p np

/-- A process that has come back `RUNNABLE` is in a queue after its bookkeeping, and a
    process that `fork` makes `RUNNABLE` is in one. -/
def StaysQueued (s : State C) (a : Action C) (t : State C) : Prop :=
  match a with
  | .requeue c => ∀ i start p, s.cpu c = .back i start p → (s.proc p).state = .runnable → Queued t.toTable p
  | .publish c => ∀ p np, current s c = some p → s.pc p = .forking .copied np → Queued t.toTable np
  | _ => True

/-- The bookkeeping finds the budget used up or leaves an entry of the process, and no
    scan takes out the last entry of a process that is being made. -/
def Careful (s : State C) (a : Action C) : Prop :=
  match a with
  | .requeue c => ∀ i start p, s.cpu c = .back i start p → (s.proc p).state = .runnable →
      Returned s.toTable p (int (s.ticks - start))
  | .scan c => Nurses s c
  | _ => True

theorem requeue_returns (ordered : Ordered s) {c : C} {i start : Nat} {p : Fin NPROC}
    (place : s.cpu c = .back i start p) (moves : Moves s (.requeue c) t) :
    Queued t.toTable p ↔ Returned s.toTable p (int (s.ticks - start)) := by
  cases moves with
  | @requeue _ i' start' p' place' mine =>
    rw [place, Cpu.back.injEq] at place'
    obtain ⟨_,rfl,rfl⟩ := place'
    exact (requeue_spec ordered.levels p (int (s.ticks - start))).2
  | discard there pc failed => rcases failed with wrong | wrong <;> cases wrong

theorem publish_queued (nursed : Nursed s) {c : C} {p np : Fin NPROC} (here : current s c = some p)
    (pc : s.pc p = .forking .copied np) (moves : Moves s (.publish c) t) : Queued t.toTable np := by
  have queued : Queued s.toTable np := nursed p np .making (by rw [pc]; rfl)
  cases moves with
  | @publish _ i start p' np' place free pc' =>
    obtain ⟨j,begun,place'⟩ := current_some here
    rw [place, Cpu.ran.injEq] at place'
    obtain ⟨_,_,rfl⟩ := place'
    exact queued
  | discard there pc failed => rcases failed with wrong | wrong <;> cases wrong

/-- In every run, a process that yields is in a queue after the bookkeeping exactly when
    its budget is used up or an entry of it survives. In runs whose steps are all careful,
    such a process stays in a queue, and so does a new one until `fork` publishes it. -/
theorem stays_queued :
    (∀ (s t : State C) (c : C) (i start : Nat) (p : Fin NPROC), (system C).Reach System.Free s →
      s.cpu c = .back i start p → next s (.requeue c) = some t →
        (Queued t.toTable p ↔ Returned s.toTable p (int (s.ticks - start)))) ∧
    ∀ (s t : State C) (a : Action C), (system C).Reach Careful s → Careful s a → next s a = some t →
      StaysQueued s a t := by
  constructor
  · intro s t c i start p reach place run
    exact requeue_returns (reach_ordered reach) place (next_moves run).2.2
  · intro s t a reach careful run
    have both : Ordered s ∧ Nursed s := by
      refine System.reach_invariant (system C) (I := fun s => Ordered s ∧ Nursed s) (fun s start => ?_) ?_ reach
      · refine ⟨ordered_start start, fun q np k making => ?_⟩
        rw [start.2.2.2.1 q] at making
        cases making
      · rintro s a t ⟨ordered,nursed⟩ careful run
        have moves := (next_moves run).2.2
        exact ⟨ordered_moves ordered moves, nursed_moves ordered nursed moves fun c same => by subst same; exact careful⟩
    have moves := (next_moves run).2.2
    unfold StaysQueued
    split
    · intro i start p place runnable
      exact (requeue_returns both.1 place moves).mpr (careful i start p place runnable)
    · intro p np here pc
      exact publish_queued both.2 here pc moves
    · trivial

end Runs

/-- The first process has yielded with its whole budget left. -/
def yielded : State Unit := (System.exec next initRuns [.yield ()]).get (by decide +kernel)

theorem yielded_reach : (system Unit).Reach System.Free yielded := by
  have run : System.exec next initRuns [.yield ()] = some yielded := by simp only [yielded, Option.some_get]
  exact System.exec_reach _ (fun _ _ _ => trivial) initRuns_reach run

def putAway : State Unit := (next yielded (.requeue ())).get (by decide +kernel)

theorem putAway_next : next yielded (.requeue ()) = some putAway := by simp only [putAway, Option.some_get]

/-- A child has been made and is about to be published. -/
def ready : State Unit :=
  (System.exec next initRuns [.allocproc (), .kalloc () true, .copyuvm () true]).get (by decide +kernel)

def published : State Unit := (next ready (.publish ())).get (by decide +kernel)

theorem published_next : next ready (.publish ()) = some published := by simp only [published, Option.some_get]

theorem ready_reach : (system Unit).Reach Careful ready := by
  have booted : (system Unit).Reach Careful scanning := by
    refine System.exec_reach _ (fun a member s => ?_) (.start poweredOn_start) scanning_run
    simp only [List.mem_cons, List.not_mem_nil, or_false] at member
    rcases member with rfl | rfl | rfl <;> trivial
  have careful : Careful scanning (.scan ()) := by
    intro i p rest place front embryo
    have level : scanning.cpu () = .scan 2 := by decide
    rw [level, Cpu.scan.injEq] at place
    subst place
    have entries : scanning.queue (2 : Nat) = [0] := by decide
    obtain ⟨rfl,_⟩ := List.cons.inj (entries.symm.trans front)
    exact absurd embryo (by decide)
  have run : System.exec next initRuns [.allocproc (), .kalloc () true, .copyuvm () true] = some ready := by
    simp only [ready, Option.some_get]
  refine System.exec_reach _ (fun a member s => ?_) (.step (.scan ()) booted careful initRuns_next) run
  simp only [List.mem_cons, List.not_mem_nil, or_false] at member
  rcases member with rfl | rfl | rfl <;> trivial

theorem yielded_place : yielded.cpu () = .back 2 0 0 := by decide

theorem stays_queued_ready : (system Unit).Reach System.Free yielded ∧
    (Queued putAway.toTable 0 ↔ Returned yielded.toTable 0 (int (yielded.ticks - (0 : Nat)))) ∧
    (system Unit).Reach Careful ready ∧ StaysQueued ready (.publish ()) published :=
  ⟨yielded_reach, stays_queued.1 yielded putAway () 2 0 0 yielded_reach yielded_place putAway_next, ready_reach,
    stays_queued.2 ready published (.publish ()) ready_reach trivial published_next⟩

/-- The parent uses its budget up between `allocproc` and the end of `fork`, and the
    scheduler comes to the entry of the child meanwhile. -/
def interruptedFork : List (Action Unit) :=
  .allocproc () :: List.replicate 5 .tick ++
    [.yield (), .requeue (), .scan (), .scan (), .scan (), .kalloc () true, .copyuvm () true]

def unnursed : State Unit := (System.exec next initRuns interruptedFork).get (by decide +kernel)

theorem unnursed_reach : (system Unit).Reach System.Free unnursed := by
  have run : System.exec next initRuns interruptedFork = some unnursed := by simp only [unnursed, Option.some_get]
  exact System.exec_reach interruptedFork (fun _ _ _ => trivial) initRuns_reach run

def orphaned : State Unit := (next unnursed (.publish ())).get (by decide +kernel)

theorem orphaned_next : next unnursed (.publish ()) = some orphaned := by simp only [orphaned, Option.some_get]

theorem not_queued {t : Table} {p : Fin NPROC} (nowhere : p ∉ t.queue 0 ∧ p ∉ t.queue 1 ∧ p ∉ t.queue 2) :
    ¬ Queued t p := by
  rintro ⟨l,⟨low,high⟩,there⟩
  have levels : l = 0 ∨ l = 1 ∨ l = 2 := by
    change l ≤ 2 at high
    omega
  rcases levels with rfl | rfl | rfl
  · exact nowhere.1 there
  · exact nowhere.2.1 there
  · exact nowhere.2.2 there

/-- A process that yields with budget left is in no queue afterwards, and a child whose
    entry was looked at before it was ready is in none when `fork` makes it `RUNNABLE`. -/
theorem runnable_dropped :
    (¬ ∀ s t : State Unit, (system Unit).Reach System.Free s → next s (.requeue ()) = some t →
      StaysQueued s (.requeue ()) t) ∧
    ¬ ∀ s t : State Unit, (system Unit).Reach System.Free s → next s (.publish ()) = some t →
      StaysQueued s (.publish ()) t := by
  constructor
  · intro stays
    have queued : Queued putAway.toTable 0 :=
      stays yielded putAway yielded_reach putAway_next 2 0 0 yielded_place (by decide)
    exact not_queued (by decide) queued
  · intro stays
    have queued : Queued orphaned.toTable 1 :=
      stays unnursed orphaned unnursed_reach orphaned_next 0 1 (by decide) (by decide)
    exact not_queued (by decide) queued

end MlfqFirstQueues
