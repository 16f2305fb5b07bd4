import Mathlib.Data.Set.Function
import KernelLabs.Lab2.LotteryTickets

/-!
What `getpinfo` reports. It copies the processes in use to the first rows of the struct of
its caller, but the field it copies to `inuse` is 0 in every slot, and it leaves the other
rows as they are. So a report is right only if those rows held it before the call.
-/
namespace LotteryStats
open Lottery LotteryTickets Transition
open Xv6Proc (NPROC Procstate)

section Rows

def InUse (ps : Pstat) : Set Nat := {i | i < NPROC ∧ ps.inuse i = 1}

/-- The number of processes of a part of the table. -/
def used (t : Table) (l : List (Fin NPROC)) : Nat := l.countP fun p => decide ((t p).state ≠ .unused)

def SameRow (ps qs : Pstat) (i : Nat) : Prop :=
  ps.inuse i = qs.inuse i ∧ ps.tickets i = qs.tickets i ∧ ps.pid i = qs.pid i ∧ ps.ticks i = qs.ticks i

variable {t : Table}

theorem setRow_other (ps : Pstat) {i j : Nat} (other : j ≠ i) (inuse : Int) (p : Proc) :
    SameRow (ps.setRow i inuse p) ps j := by
  simp [SameRow, Pstat.setRow, other]

theorem copyRows_outside (l : List (Fin NPROC)) (i : Nat) (ps : Pstat) {j : Nat}
    (outside : j < i ∨ i + used t l ≤ j) : SameRow (copyRows t l i ps) ps j := by
  induction l generalizing i ps with
  | nil => exact ⟨rfl,rfl,rfl,rfl⟩
  | cons p rest ih =>
    unfold copyRows
    by_cases unused : (t p).state = .unused
    · have count : used t (p :: rest) = used t rest := by simp [used, unused]
      rw [if_neg (by simp [unused])]
      exact ih i ps (by omega)
    · have count : used t (p :: rest) = used t rest + 1 := by simp [used, unused]
      rw [if_pos unused]
      obtain ⟨a,b,c,d⟩ := ih (i + 1) (ps.setRow i (t p).inuse (t p)) (by omega)
      obtain ⟨e,f,g,h⟩ := setRow_other ps (i := i) (j := j) (by omega) (t p).inuse (t p)
      exact ⟨a.trans e, b.trans f, c.trans g, d.trans h⟩

theorem copyRows_inside (zero : ∀ p, (t p).inuse = 0) (l : List (Fin NPROC)) (i : Nat) (ps : Pstat)
    {j : Nat} (low : i ≤ j) (high : j < i + used t l) : (copyRows t l i ps).inuse j = 0 := by
  induction l generalizing i ps with
  | nil =>
    simp only [used, List.countP_nil] at high
    omega
  | cons p rest ih =>
    unfold copyRows
    by_cases unused : (t p).state = .unused
    · have count : used t (p :: rest) = used t rest := by simp [used, unused]
      rw [if_neg (by simp [unused])]
      exact ih i ps low (by omega)
    · have count : used t (p :: rest) = used t rest + 1 := by simp [used, unused]
      rw [if_pos unused]
      by_cases here : j = i
      · have kept := (copyRows_outside (t := t) rest (i + 1) (ps.setRow i (t p).inuse (t p)) (j := j)
          (Or.inl (by omega))).1
        rw [kept, here]
        simp [Pstat.setRow, zero]
      · exact ih (i + 1) _ (by omega) (by omega)

/-- The rows in use after the call are those of the caller behind the copied ones. -/
theorem inUse_getpinfo (zero : ∀ p, (t p).inuse = 0) (procstate : Pstat) :
    InUse (getpinfo t procstate) = {i | used t (List.finRange NPROC) ≤ i ∧ i ∈ InUse procstate} := by
  ext i
  unfold InUse getpinfo
  simp only [Set.mem_ofPred_eq]
  by_cases copied : i < used t (List.finRange NPROC)
  · have off := copyRows_inside zero (List.finRange NPROC) 0 procstate (Nat.zero_le i) (by omega)
    rw [off]
    constructor
    · rintro ⟨_,wrong⟩
      omega
    · rintro ⟨wrong,_⟩
      omega
  · have kept := (copyRows_outside (t := t) (List.finRange NPROC) 0 procstate (j := i)
      (Or.inr (by omega))).1
    rw [kept]
    constructor
    · rintro ⟨small,on⟩
      exact ⟨by omega, small, on⟩
    · rintro ⟨_,small,on⟩
      exact ⟨small,on⟩

end Rows

section Reports
variable {C : Type} [DecidableEq C]

/-- Rows `rows` of a `pstat` list the processes in use, each once, with pid, tickets and
    the number of its dispatches. -/
def Reports (s : State C) (rows : Set Nat) (ps : Pstat) : Prop :=
  ∃ owner : Nat → Fin NPROC, Set.BijOn owner rows {p | (s.proc p).state ≠ .unused} ∧
    ∀ i ∈ rows, ps.pid i = (s.proc (owner i)).pid ∧ ps.tickets i = (s.proc (owner i)).tickets ∧
      ps.ticks i = s.dispatched (owner i)

omit [DecidableEq C] in
theorem reports_congr {s : State C} {rows : Set Nat} {ps qs : Pstat}
    (same : ∀ i ∈ rows, SameRow ps qs i) (reports : Reports s rows ps) : Reports s rows qs := by
  obtain ⟨owner,onto,rows_ok⟩ := reports
  refine ⟨owner, onto, fun i row => ?_⟩
  obtain ⟨_,tickets,pid,ticks⟩ := same i row
  rw [← tickets, ← pid, ← ticks]
  exact rows_ok i row

/-- A successful `getpinfo` leaves a right report exactly when the rows it does not write
    are one already. -/
theorem getpinfo_reports_iff {s : State C} (reach : (system C).Reach System.Free s)
    (procstate : Pstat) :
    Reports s (InUse (getpinfo s.proc procstate)) (getpinfo s.proc procstate) ↔
      Reports s {i | used s.proc (List.finRange NPROC) ≤ i ∧ i ∈ InUse procstate} procstate := by
  rw [inUse_getpinfo (fun p => (reach_fine reach p).2.2)]
  have same : ∀ i, used s.proc (List.finRange NPROC) ≤ i →
      SameRow (getpinfo s.proc procstate) procstate i :=
    fun i high => copyRows_outside (List.finRange NPROC) 0 procstate (Or.inr (by omega))
  constructor
  · exact reports_congr fun i row => same i row.1
  · refine reports_congr fun i row => ?_
    obtain ⟨a,b,c,d⟩ := same i row.1
    exact ⟨a.symm,b.symm,c.symm,d.symm⟩

end Reports

def cleared : Pstat := ⟨fun _ => 0, fun _ => 0, fun _ => 0, fun _ => 0⟩

theorem getpinfo_reports_iff_initRuns : (system Unit).Reach System.Free initRuns ∧
    (Reports initRuns (InUse (getpinfo initRuns.proc cleared)) (getpinfo initRuns.proc cleared) ↔
      Reports initRuns {i | used initRuns.proc (List.finRange NPROC) ≤ i ∧ i ∈ InUse cleared} cleared) :=
  ⟨initRuns_reach, getpinfo_reports_iff initRuns_reach cleared⟩

/-- The first process asks and is told that no process is in use. -/
theorem getpinfo_reports_nobody : (system Unit).Reach System.Free initRuns ∧
    (current initRuns () = some 0 ∧ initRuns.lock = none) ∧
    ¬ Reports initRuns (InUse (getpinfo initRuns.proc cleared)) (getpinfo initRuns.proc cleared) := by
  refine ⟨initRuns_reach, by decide, ?_⟩
  rintro ⟨owner,onto,_⟩
  rw [inUse_getpinfo (fun p => (reach_fine initRuns_reach p).2.2)] at onto
  have running : (initRuns.proc 0).state ≠ .unused := by decide
  obtain ⟨i,row,_⟩ := onto.surjOn running
  have off := row.2.2
  simp [cleared] at off

end LotteryStats
