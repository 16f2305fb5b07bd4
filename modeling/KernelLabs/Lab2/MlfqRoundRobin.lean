import KernelLabs.Lab2.MlfqSafe

/-!
The order in which the loop over a level runs its processes. The index goes up by one after each
run although the entries behind it have moved down by one, so every other process is passed over,
and the process that is put at the tail by the last but one turn of a pass is run by the last.
-/
namespace MlfqRoundRobin
open Mlfq MlfqMoves MlfqQueued MlfqRuns MlfqCapacity MlfqSafe ArrayQueue
open Xv6Proc (NPROC)

variable {C : Type} [DecidableEq C] {s t u v w : State C} {c : C} {i k start : Nat} {p q : Fin NPROC}

/-- The entries of level `i` are RUNNABLE processes of that level. -/
def Ready (i : Nat) (t : Table) : Prop :=
  ∀ x ∈ (t.queue i).entries, ∃ q, x = some q ∧ (t.proc q).state = .runnable ∧ (t.proc q).priority = i

/-- Nothing is enqueued or dequeued at level `i`. -/
def Same (i : Nat) (t u : Table) : Prop :=
  (u.queue i).entries = (t.queue i).entries ∧ (u.queue i).size = (t.queue i).size

/-- What may happen while a process of level `i` runs. -/
inductive Meanwhile (i : Nat) : State C → State C → Prop where
  | nothing (s : State C) : Meanwhile i s s
  | step {s t u : State C} (a : Action C) (before : Meanwhile i s t) (run : next t a = some u)
      (same : Same i t.toTable u.toTable) (ready : Ready i u.toTable) : Meanwhile i s u

/-- The process is back from its run, RUNNABLE and with some of its budget left. -/
structure Yields (i start : Nat) (p : Fin NPROC) (t : State C) : Prop where
  runnable : (t.proc p).state = .runnable
  priority : (t.proc p).priority = i
  left : 0 < int ((t.proc p).budget - int (t.ticks - start))

/-- The processes that CPU `c` takes from level `i` and puts back, one after the other. -/
inductive Turns (c : C) (i : Nat) : State C → List (Fin NPROC) → State C → Prop where
  | none (s : State C) : Turns c i s [] s
  | turn {s u v w t : State C} {k start : Nat} {p : Fin NPROC} {ps : List (Fin NPROC)}
      (dispatched : next s (.scan c) = some u) (runs : u.cpu c = .ran i k start p) (meanwhile : Meanwhile i u v)
      (back : v.cpu c = .back i k start p) (yields : Yields i start p v) (requeued : next v (.requeue c) = some w)
      (rest : Turns c i w ps t) : Turns c i s (p :: ps) t

/-- The runs `ps` of the processes `l`, in queue order and round and round. -/
structure RoundRobin (l ps : List (Fin NPROC)) : Prop where
  order : ∀ j, j < ps.length → ps[j]? = l[j % l.length]?
  between : ∀ a b p, a < b → ps[a]? = some p → ps[b]? = some p → (∀ m, a < m → m < b → ps[m]? ≠ some p) →
    ∀ q ∈ l, q ≠ p → ((ps.drop (a + 1)).take (b - a - 1)).count q = 1

/-- The loops of `scheduler` stop at entry `k` of level `i` next. -/
def Next (c : C) (i k : Nat) (s : State C) : Prop :=
  ∃ j l check, s.cpu c = .scan j l check ∧ search s.toTable j l check = some (i, k)

omit [DecidableEq C] in
theorem seek_ready (ready : Ready i s.toTable) (inside : k < (s.queue i).count) : seek s.toTable i k = some k := by
  have stop : stops s.toTable i k = true := by
    obtain ⟨q,cell,runnable,_⟩ := ready _ (Queue.mem_entries.mpr ⟨k,inside,rfl⟩)
    unfold stops
    rw [cell]
    exact beq_iff_eq.mpr runnable
  unfold seek
  rw [List.find?_range_eq_some]
  refine ⟨by simp [stop], List.mem_range.mpr inside, fun j less => ?_⟩
  simp [Nat.not_le.mpr less]

theorem meanwhile_same (meanwhile : Meanwhile i s t) : Same i s.toTable t.toTable := by
  induction meanwhile with
  | nothing => exact ⟨rfl,rfl⟩
  | step a _ _ same _ ih => exact ⟨same.1.trans ih.1, same.2.trans ih.2⟩

/-- The requeue of a process with some of its budget left. -/
theorem requeue_yields {t : Table} {ran : Int} (left : 0 < int ((t.proc p).budget - ran)) :
    requeue t p ran = enqueue (t.set p { t.proc p with budget := int ((t.proc p).budget - ran) }) p := by
  have kept : ¬ (((t.set p { t.proc p with budget := int ((t.proc p).budget - ran) }).proc p).budget ≤ 0 ∧
      0 < ((t.set p { t.proc p with budget := int ((t.proc p).budget - ran) }).proc p).priority) := by
    intro both
    have spent := both.1
    simp only [Table.set, Function.update_self] at spent
    omega
  unfold requeue
  exact if_neg kept

/-- What one turn does to the level. -/
theorem turn_spec {k' : Nat} (next : Next c i k s) (dispatched : Mlfq.next s (.scan c) = some u)
    (runs : u.cpu c = .ran i k' start p) (meanwhile : Meanwhile i u v) (back : v.cpu c = .back i k' start p)
    (yields : Yields i start p v) (requeued : Mlfq.next v (.requeue c) = some w) :
    (s.queue i).entries[k]? = some (some p) ∧ Ready i w.toTable ∧ w.cpu c = .scan i (k + 1) true ∧
      (w.queue i).entries = (s.queue i).entries.eraseIdx k ++ [some p] := by
  obtain ⟨j,l,check,at_j,found⟩ := next
  have taken : k' = k ∧ k < (s.queue i).count ∧ (s.queue i).cell k = some p ∧
      u.queue = Function.update s.queue i ((s.queue i).removeAt k) := by
    cases (next_moves dispatched).2 with
    | release place mine nobody =>
      rw [State.setLock, State.setCpu] at runs
      simp at runs
    | @dispatch _ _ _ i' k'' _ p' place mine hit cell =>
      rw [at_j] at place
      injection place with sameJ sameL sameCheck
      subst sameJ sameL sameCheck
      rw [found, Option.some.injEq, Prod.mk.injEq] at hit
      obtain ⟨rfl,rfl⟩ := hit
      obtain ⟨_,_,_,_,queue,cpu,_⟩ := dispatch_spec s c i k p'
      rw [cpu, Function.update_self] at runs
      injection runs with _ sameK _ sameP
      subst sameP
      exact ⟨sameK.symm, (search_some found).2.1, cell, queue⟩
    | discard place pc failed => simp at failed
  obtain ⟨rfl,inside,cell,queue⟩ := taken
  have sized : -1 ≤ (u.queue i).size := by
    rw [queue, Function.update_self, Queue.size_removeAt]
    unfold Queue.count at inside
    omega
  have same := meanwhile_same meanwhile
  have ready : Ready i v.toTable := by
    cases meanwhile with
    | nothing =>
      rw [runs] at back
      cases back
    | step _ _ _ _ after => exact after
  have after : w.toTable = enqueue (v.toTable.set p { v.proc p with budget := int ((v.proc p).budget - int (v.ticks - start)) }) p ∧
      w.cpu c = .scan i (k' + 1) true := by
    cases (next_moves requeued).2 with
    | requeue place mine =>
      rw [back] at place
      injection place with sameI sameK sameStart sameP
      subst sameI sameK sameStart sameP
      refine ⟨requeue_yields yields.left, ?_⟩
      simp [State.setCpu]
    | discard place pc failed => simp at failed
  have proc : ∀ q, (w.proc q).state = (v.proc q).state ∧ (w.proc q).priority = (v.proc q).priority := by
    intro q
    rw [after.1]
    change (Function.update v.proc p _ q).state = _ ∧ (Function.update v.proc p _ q).priority = _
    by_cases mine : q = p
    · subst mine
      rw [Function.update_self]
      exact ⟨rfl,rfl⟩
    · rw [Function.update_of_ne mine]
      exact ⟨rfl,rfl⟩
  have entries : (w.queue i).entries = (v.queue i).entries ++ [some p] := by
    have level : ((v.toTable.set p { v.proc p with budget := int ((v.proc p).budget - int (v.ticks - start)) }).proc p).priority = i := by
      simp [Table.set, yields.priority]
    rw [after.1, enqueue_queue, level, Function.update_self]
    exact Queue.entries_push (same.2 ▸ sized) p
  refine ⟨?_, fun x member => ?_, after.2, ?_⟩
  · rw [Queue.getElem?_entries, if_pos inside, cell]
  · rw [entries] at member
    rcases List.mem_append.mp member with before | mine
    · obtain ⟨q,rfl,runnable,priority⟩ := ready x before
      exact ⟨q, rfl, (proc q).1.trans runnable, (proc q).2.trans priority⟩
    · exact ⟨p, List.mem_singleton.mp mine, (proc p).1.trans yields.runnable, (proc p).2.trans yields.priority⟩
  · rw [entries, same.1, queue, Function.update_self, Queue.entries_removeAt inside]

omit [DecidableEq C] in
/-- Past the last entry the loop goes round again. -/
theorem next_after (ready : Ready i s.toTable) (cpu : s.cpu c = .scan i k true) (some : 0 < (s.queue i).count) :
    Next c i (if k < (s.queue i).count then k else 0) s := by
  refine ⟨i, k, true, cpu, ?_⟩
  unfold search
  by_cases inside : k < (s.queue i).count
  · rw [seek_ready ready inside, if_pos inside]
  · have missing : seek s.toTable i k = none := by
      unfold seek
      rw [List.find?_eq_none]
      intro j member stop
      have low := List.mem_range.mp member
      simp only [Bool.and_eq_true, decide_eq_true_eq] at stop
      omega
    rw [missing, if_pos rfl, seek_ready ready some, if_neg inside]

omit [DecidableEq C] in
theorem count_entries (s : State C) (i : Nat) : (s.queue i).count = (s.queue i).entries.length := (Queue.length_entries _).symm

/-- A turn leaves the level as long as it was. -/
theorem turn_length {l : List (Option (Fin NPROC))} {x : Option (Fin NPROC)} (entry : l[k]? = some x) :
    (l.eraseIdx k ++ [x]).length = l.length := by
  obtain ⟨inside,_⟩ := List.getElem?_eq_some_iff.mp entry
  rw [List.length_append, List.length_eraseIdx_of_lt inside, List.length_singleton]
  omega

/-- The process that the last but one turn of a pass puts at the tail runs once more. -/
theorem tail_runs_twice {ps : List (Fin NPROC)} (turns : Turns c i s ps t) (ready : Ready i s.toTable) (next : Next c i k s)
    (two : k + 2 ≤ (s.queue i).entries.length) (long : (s.queue i).entries.length ≤ k + ps.length) :
    ∃ p, ps[(s.queue i).entries.length - 2 - k]? = some p ∧ ps[(s.queue i).entries.length - 1 - k]? = some p := by
  induction turns generalizing k with
  | none => simp at long; omega
  | @turn s u v w t k' start p ps dispatched runs meanwhile back yields requeued rest ih =>
    obtain ⟨entry,after,cpu,entries⟩ := turn_spec next dispatched runs meanwhile back yields requeued
    have length : (w.queue i).entries.length = (s.queue i).entries.length := by rw [entries, turn_length entry]
    have count := count_entries w i
    have onward := next_after after cpu (by omega)
    rw [if_pos (by omega)] at onward
    by_cases last : k + 2 = (s.queue i).entries.length
    · cases rest with
      | none => simp at long; omega
      | turn dispatched' runs' meanwhile' back' yields' requeued' _ =>
        obtain ⟨entry',_⟩ := turn_spec onward dispatched' runs' meanwhile' back' yields' requeued'
        have tail : (w.queue i).entries[k + 1]? = some (some p) := by
          have front : ((s.queue i).entries.eraseIdx k).length = k + 1 := by
            rw [List.length_eraseIdx_of_lt (by omega)]
            omega
          rw [entries, List.getElem?_append_right (by omega), front, Nat.sub_self]
          rfl
        rw [tail, Option.some.injEq, Option.some.injEq] at entry'
        subst entry'
        refine ⟨p, ?_, ?_⟩
        · rw [show (s.queue i).entries.length - 2 - k = 0 by omega]
          rfl
        · rw [show (s.queue i).entries.length - 1 - k = 1 by omega]
          rfl
    · obtain ⟨q,first,second⟩ := ih after onward (by omega) (by simp at long; omega)
      rw [length] at first second
      refine ⟨q, ?_, ?_⟩
      · rw [show (s.queue i).entries.length - 2 - k = (s.queue i).entries.length - 2 - (k + 1) + 1 by omega]
        exact first
      · rw [show (s.queue i).entries.length - 1 - k = (s.queue i).entries.length - 1 - (k + 1) + 1 by omega]
        exact second

/-- The only process of a level runs again and again. -/
theorem single_runs {ps : List (Fin NPROC)} (turns : Turns c i s ps t) (ready : Ready i s.toTable) (next : Next c i 0 s)
    {a : Fin NPROC} (single : (s.queue i).entries = [some a]) : ∀ p ∈ ps, p = a := by
  induction turns with
  | none => exact fun p member => nomatch member
  | @turn s u v w t k' start p ps dispatched runs meanwhile back yields requeued rest ih =>
    obtain ⟨entry,after,cpu,entries⟩ := turn_spec next dispatched runs meanwhile back yields requeued
    rw [single] at entry entries
    have mine : p = a := by simpa using entry.symm
    have again : (w.queue i).entries = [some a] := by simpa [mine] using entries
    have count : (w.queue i).count = 1 := by rw [count_entries, again]; rfl
    have onward := next_after after cpu (by omega)
    rw [if_neg (by omega)] at onward
    intro q member
    rcases List.mem_cons.mp member with rfl | member
    · exact mine
    · exact ih after onward again q member

/-- Over a whole pass the order is round robin only for a level with a single process. -/
theorem round_robin_iff {l ps : List (Fin NPROC)} (ready : Ready i s.toTable) (queue : (s.queue i).entries = l.map some)
    (distinct : l.Nodup) (next : Next c i 0 s) (turns : Turns c i s ps t) (pass : l.length ≤ ps.length) :
    RoundRobin l ps ↔ l.length ≤ 1 := by
  have length : (s.queue i).entries.length = l.length := by rw [queue, List.length_map]
  have some : 0 < l.length := by
    obtain ⟨_,_,_,_,found⟩ := next
    have inside := (search_some found).2.1
    rw [count_entries, length] at inside
    exact inside
  constructor
  · intro fair
    by_contra two
    obtain ⟨p,first,second⟩ := tail_runs_twice turns ready next (by omega) (by omega)
    rw [length] at first second
    obtain ⟨q,member,other⟩ : ∃ q ∈ l, q ≠ p := by
      by_contra all
      simp only [not_exists, not_and, not_not] at all
      have same : l = List.replicate l.length p := List.eq_replicate_of_mem all
      rw [same, List.nodup_replicate] at distinct
      omega
    have once := fair.between _ _ p (by omega) first second (fun m above below => by omega) q member other
    rw [show l.length - 1 - 0 - (l.length - 2 - 0) - 1 = 0 by omega] at once
    simp at once
  · intro one
    obtain ⟨a,rfl⟩ := List.length_eq_one_iff.mp (Nat.le_antisymm one some)
    have all := single_runs turns ready next queue
    refine ⟨fun j low => ?_, fun x y p _ at_x _ _ q member other => ?_⟩
    · rw [List.getElem?_eq_getElem low, all _ (List.getElem_mem low), List.length_singleton, Nat.mod_one]
      rfl
    · have mine := all p (List.mem_of_getElem? at_x)
      exact absurd ((List.mem_singleton.mp member).trans mine.symm) other

/-- Slots 0 and 1 are ready at the lowest level, where the scan begins. -/
def twoReady : State Unit where
  proc := fun p => if p = 0 then ⟨.runnable, 1, none, none, false, 0, 5⟩
    else if p = 1 then ⟨.runnable, 2, none, none, false, 0, 5⟩
    else ⟨.unused, 0, none, none, false, 0, 0⟩
  queue := fun l => if l = 0 then (Queue.empty.push 0).push 1 else .empty
  overran := false
  pc := fun _ => .elsewhere
  initproc := some 0
  nextpid := 3
  ticks := 0
  promoteAtTime := 20
  cpu := fun _ => .scan 0 0 false
  lock := some ()
  promoted := true

def run (s : State Unit) (a : Action Unit) : State Unit := (next s a).getD s

theorem run_eq {s : State Unit} {a : Action Unit} (goes : (next s a).isSome) : next s a = some (run s a) := by
  unfold run
  cases out : next s a with
  | none =>
    rw [out] at goes
    exact nomatch goes
  | some t => rfl

/-- The first process runs and yields before the next tick, and is put back. -/
def firstTurn : State Unit := run (run (run twoReady (.scan ())) (.yield ())) (.requeue ())

/-- It runs once more. -/
def secondTurn : State Unit := run (run (run firstTurn (.scan ())) (.yield ())) (.requeue ())

theorem yield_turn {s t : State Unit} {k : Nat} {p : Fin NPROC} {ps : List (Fin NPROC)}
    (goes : (next s (.scan ())).isSome ∧ (next (run s (.scan ())) (.yield ())).isSome ∧
      (next (run (run s (.scan ())) (.yield ())) (.requeue ())).isSome)
    (runs : (run s (.scan ())).cpu () = .ran 0 k 0 p)
    (back : (run (run s (.scan ())) (.yield ())).cpu () = .back 0 k 0 p)
    (same : Same 0 (run s (.scan ())).toTable (run (run s (.scan ())) (.yield ())).toTable)
    (ready : Ready 0 (run (run s (.scan ())) (.yield ())).toTable) (yields : Yields 0 0 p (run (run s (.scan ())) (.yield ())))
    (rest : Turns () 0 (run (run (run s (.scan ())) (.yield ())) (.requeue ())) ps t) : Turns () 0 s (p :: ps) t :=
  .turn (run_eq goes.1) runs (.step (.yield ()) (.nothing _) (run_eq goes.2.1) same ready) back yields (run_eq goes.2.2) rest

theorem twoReady_turns : Turns () 0 twoReady [0, 0] secondTurn := by
  refine yield_turn (k := 0) (by decide) (by decide) (by decide) ?_ ?_ ?_
    (yield_turn (k := 1) (by decide) (by decide) (by decide) ?_ ?_ ?_ (.none _))
  · unfold Same
    decide
  · unfold Ready
    decide +kernel
  · exact ⟨by decide, by decide, by decide⟩
  · unfold Same
    decide
  · unfold Ready
    decide +kernel
  · exact ⟨by decide, by decide, by decide⟩

theorem twoReady_ready : Ready 0 twoReady.toTable := by
  unfold Ready
  decide +kernel

theorem twoReady_next : Next () 0 0 twoReady := ⟨0, 0, false, rfl, by decide⟩

/-- The first of two processes runs twice before the second. -/
theorem first_runs_twice : Ready 0 twoReady.toTable ∧ (twoReady.queue 0).entries = [0, 1].map some ∧ Next () 0 0 twoReady ∧
    Turns () 0 twoReady [0, 0] secondTurn ∧ ¬ RoundRobin [0, 1] [0, 0] := by
  refine ⟨twoReady_ready, rfl, twoReady_next, twoReady_turns, fun fair => ?_⟩
  have once := fair.between 0 1 0 (by decide) rfl rfl (fun m above below => by omega) 1 (by decide) (by decide)
  exact absurd once (by decide)

theorem round_robin_iff_twoReady : RoundRobin [0, 1] [0, 0] ↔ ([0, 1] : List (Fin NPROC)).length ≤ 1 :=
  round_robin_iff twoReady_ready rfl (by decide) twoReady_next twoReady_turns (by decide)

end MlfqRoundRobin
