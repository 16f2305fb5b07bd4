import Mathlib.Data.Fintype.Option
import Mathlib.Data.Fintype.Card
import KernelLabs.Lab2.MlfqRuns

/-!
How full the queues can get. As long as no enqueue appends a process that has an entry
already, a level never holds more entries than there are slots. Four places append such
a process all the same: the promotion pass when an entry is not at its own level,
`wakeup1` when the entry is the last one, `fork` when the slot was used before, and the
requeue when the process was promoted while it ran.
-/
namespace MlfqCapacity
open Mlfq MlfqMoves MlfqQueued MlfqRuns ArrayQueue Transition
open Xv6Proc (NPROC Procstate Chan Stage Pc)

/-- The number of entries of slot `p` over the three levels. -/
def occurrences (t : Table) (p : Fin NPROC) : Nat :=
  (t.queue 0).entries.count (some p) + (t.queue 1).entries.count (some p) +
    (t.queue 2).entries.count (some p)

structure Single (t : Table) : Prop where
  sound : Sound t
  filled : ∀ l, none ∉ (t.queue l).entries
  once : ∀ p, occurrences t p ≤ 1
  within : t.overran = false

theorem level_cases {l : Int} (low : 0 ≤ l) (high : l ≤ MAXPRIORITY) : l = 0 ∨ l = 1 ∨ l = 2 := by
  unfold MAXPRIORITY at high
  omega

section Tables
variable {t u : Table}

theorem count_removeAt {q : Queue (Fin NPROC)} {k : Nat} {p : Fin NPROC} (inside : k < q.count)
    (cell : q.cell k = some p) (x : Fin NPROC) :
    (q.removeAt k).entries.count (some x) + (if p = x then 1 else 0) = q.entries.count (some x) := by
  have length : k < q.entries.length := by rw [Queue.length_entries]; exact inside
  have entry : q.entries[k] = some p := by
    have found := Queue.getElem?_entries q k
    rw [if_pos inside, List.getElem?_eq_getElem length, Option.some.injEq] at found
    rw [found, cell]
  have perm := List.getElem_cons_eraseIdx_perm length
  have count := perm.count_eq (some x)
  rw [List.count_cons, entry] at count
  rw [Queue.entries_removeAt inside]
  simpa using count

theorem setpriority_queue (pid priority : Int) :
    (setpriority t pid priority).queue = t.queue ∧
    (setpriority t pid priority).overran = t.overran := by
  unfold setpriority
  split
  · exact ⟨rfl,rfl⟩
  · split <;> exact ⟨rfl,rfl⟩

/-- Every entry of `p` is in the level of its priority. -/
def AtHome (t : Table) (p : Fin NPROC) : Prop :=
  ∀ l : Int, 0 ≤ l → l ≤ MAXPRIORITY → some p ∈ (t.queue l).entries → l = (t.proc p).priority

theorem findEntry_none {q : Queue (Fin NPROC)} {p : Fin NPROC}
    (missing : findEntry q p q.count = none) : some p ∉ q.entries := by
  intro member
  obtain ⟨k,inside,cell⟩ := Queue.mem_entries.mp member
  have miss := List.find?_eq_none.mp missing k (List.mem_range.mpr inside)
  simp [cell] at miss

/-- `wakeup1` finds every sleeper on `chan` that has an entry. -/
def Wakeable (t : Table) (chan : Option Chan) : Prop :=
  ∀ q, (t.proc q).state = .sleeping → (t.proc q).chan = chan →
    (findEntry (t.queue (t.proc q).priority) q (t.queue (t.proc q).priority).size.toNat).isSome ∨
      occurrences t q = 0

end Tables

section Runs
variable {C : Type} [DecidableEq C]

/-- No enqueue of the step appends a process that has an entry: the promotion pass
    finds each entry at its own level, `wakeup1` finds the entries of the sleepers it
    wakes, and `fork` and the requeue append slots without entries. -/
def Fresh (s : State C) : Action C → Prop
  | .acquire _ => s.promoteAtTime ≤ s.ticks → ∀ p, (s.proc p).state ≠ .zombie →
      (s.proc p).priority < MAXPRIORITY → AtHome s.toTable p
  | .requeue c => ∀ i k start p, s.cpu c = .back i k start p → occurrences s.toTable p = 0
  | .wakeup chan => Wakeable s.toTable (some chan)
  | .exit c => ∀ i k start p, s.cpu c = .ran i k start p →
      Wakeable s.toTable ((s.proc p).parent.map .slot) ∧
      Wakeable s.toTable (s.initproc.map .slot)
  | .publish c => ∀ i k start p np, s.cpu c = .ran i k start p → s.pc p = .forking .copied np →
      occurrences s.toTable np = 0
  | _ => True

theorem sched_table (s : State C) (c : C) : (sched s c).toTable = s.toTable := by
  unfold sched
  split <;> rfl

theorem acquire_table (s : State C) (c : C) : (acquire s c).toTable =
    if s.promoteAtTime ≤ s.ticks then promote s.toTable else s.toTable := by
  unfold acquire
  dsimp only [State.setCpu, State.setLock]
  split
  · rw [State.onTable_table]
  · rfl

/-- Every level is within its array, and no enqueue has left it. -/
def Fits (s : State C) : Prop :=
  s.overran = false ∧ ∀ l : Int, 0 ≤ l → l ≤ MAXPRIORITY → (s.queue l).size < 2 * NPROC

end Runs

end MlfqCapacity
