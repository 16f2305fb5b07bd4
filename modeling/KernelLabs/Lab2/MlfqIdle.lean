import KernelLabs.Lab2.MlfqCapacity

/-!
An idle machine overruns its top queue by the passing of time. Unused slots have pid 0,
so the `setpriority` call that the promotion pass makes for any of them changes the
first one, slot 1. Each pass raises slot 1 to level 2 and appends it there; the turns
of the later slots then put its priority back to 1, so that the next pass does not
find the entry it left in level 2.
-/
namespace MlfqIdle
open Mlfq MlfqQueued MlfqRuns MlfqCapacity ArrayQueue Transition
open Xv6Proc (NPROC Procstate Chan Stage Pc)

/-- The slots after the first two. -/
def others : List (Fin NPROC) := (List.finRange NPROC).tail.tail

/-- One process, in slot 0 and in state `st`, and otherwise unused slots. -/
structure Idle (st : Procstate) (t : Table) : Prop where
  sound : Sound t
  filled : ∀ l, none ∉ (t.queue l).entries
  init : (t.proc 0).state = st ∧ (t.proc 0).pid = 1
  unused : ∀ j, j ≠ 0 → (t.proc j).state = .unused ∧ (t.proc j).pid = 0
  low : ∀ j, j ≠ 0 → j ≠ 1 → (t.proc j).priority = 0

section Tables
variable {t : Table} {st : Procstate}

theorem seek_none (filled : ∀ l, none ∉ (t.queue l).entries)
    (asleep : ∀ p, (t.proc p).state ≠ .runnable) (i k : Nat) : seek t i k = none := by
  unfold seek
  rw [List.find?_eq_none]
  intro j low
  have stay : stops t i j = false := by
    unfold stops
    split
    · rename_i unset
      exact absurd (Queue.mem_entries.mpr ⟨j,List.mem_range.mp low,unset⟩) (filled i)
    · simp [asleep]
  simp [stay]

/-- With nobody to run, the scheduler's loops come to their end. -/
theorem search_none (filled : ∀ l, none ∉ (t.queue l).entries)
    (asleep : ∀ p, (t.proc p).state ≠ .runnable) (i k : Nat) (check : Bool) :
    search t i k check = none := by
  induction i generalizing k check with
  | zero => simp [search, seek_none filled asleep]
  | succ i ih => simp [search, seek_none filled asleep, ih]

end Tables

section Rounds
variable {s : State Unit} {n : Nat}

/-- The scheduler at the head of its loop, `n` promotion periods after boot. -/
structure Paused (n : Nat) (s : State Unit) : Prop where
  reach : (system Unit).Reach System.Free s
  cpu : s.cpu () = .top
  lock : s.lock = none
  ticks : s.ticks = TICKS_TO_PROMOTE * n
  due : s.promoteAtTime ≤ TICKS_TO_PROMOTE * (n + 1)

/-- An idle scheduler, with at least `m` entries in the top level. -/
structure Stale (n m : Nat) (s : State Unit) : Prop extends Paused n s where
  idle : Idle .sleeping s.toTable
  second : (s.proc 1).priority = 1
  top : (m : Int) ≤ (s.queue 2).size + 1

/-- A machine with one process, in state `st`, past its first promotion pass. -/
structure Alone (st : Procstate) (s : State Unit) : Prop where
  reach : (system Unit).Reach System.Free s
  within : s.overran = false
  idle : Idle st s.toTable
  second : (s.proc 1).priority = 1
  ticks : s.ticks = TICKS_TO_PROMOTE * 1
  due : s.promoteAtTime ≤ TICKS_TO_PROMOTE * 2

end Rounds
end MlfqIdle
