import KernelLabs.Xv6.ProcReap

/-!
The process table with priorities (lab-2 `proc_original.c`). Up to `procdump` the file is
`proc.c` of assignment-3, so a step is one of that table or a call of `setpriority`, which takes
no lock. No function but `setpriority` writes a priority or a budget; a slot keeps both when it
is freed and used again. The other versions of the file have the same two functions.
-/
namespace Original
open Transition
open Xv6Proc (NPROC Procstate Proc)

def MAXPRIORITY : Int := 2
def DEFAULT_BUDGET : Int := 5

structure State where
  table : Xv6Proc.State
  priority : Fin NPROC → Int
  budget : Fin NPROC → Int

/-- What a call returns and prints. -/
structure Reply where
  returnCode : Int
  console : String
  deriving DecidableEq, Repr

/-- The slot at which the search for `pid` stops. -/
def search (s : State) (pid : Int) : Option (Fin NPROC) :=
  (List.finRange NPROC).find? fun i => (s.table.proc i).pid == pid

def setpriority (s : State) (pid priority : Int) : State × Reply :=
  if priority < 0 ∨ MAXPRIORITY < priority then (s, ⟨-1, "Invalid priority value detected"⟩)
  else
    match search s pid with
    | some p =>
      ({ s with priority := Function.update s.priority p priority,
                budget := Function.update s.budget p DEFAULT_BUDGET }, ⟨0, ""⟩)
    | none => (s, ⟨-1, "Invalid pid value detected"⟩)

/-- The loop leaves with a return at an UNUSED slot and with a break at any other. -/
def getpriority (s : State) (pid : Int) : Reply :=
  match search s pid with
  | some p =>
    if (s.table.proc p).state = .unused then ⟨-1, "Process with pid " ++ toString pid ++ " is in UNUSED state"⟩
    else ⟨s.priority p, if s.priority p = -1 then "Invalid pid value detected" else ""⟩
  | none => ⟨-1, "Invalid pid value detected"⟩

inductive Action where
  | proc (a : Xv6Proc.Action)
  | setpriority (p : Fin NPROC) (pid priority : Int)

def next (s : State) : Action → Option State
  | .proc a => (Xv6Proc.next s.table a).map fun table => { s with table := table }
  | .setpriority p pid priority =>
    if (s.table.proc p).state = .running then some (setpriority s pid priority).1 else none

/-- `ptable` is static, so every priority and budget is zero at boot. -/
def Start (s : State) : Prop :=
  Xv6Proc.Start s.table ∧ (∀ p, s.priority p = 0) ∧ ∀ p, s.budget p = 0

def system : System State Action := ⟨Start, next⟩

/-- Some process in use has that pid. -/
def Live (s : State) (pid : Int) : Prop :=
  ∃ p, (s.table.proc p).state ≠ .unused ∧ (s.table.proc p).pid = pid

def Valid (priority : Int) : Prop := 0 ≤ priority ∧ priority ≤ MAXPRIORITY

/-- The two calls agree about `pid`. -/
structure Agrees (s : State) (pid priority : Int) : Prop where
  accepts : (setpriority s pid priority).2.returnCode = 0 ↔ Valid priority ∧ Live s pid
  sets : (setpriority s pid priority).2.returnCode = 0 →
    (getpriority (setpriority s pid priority).1 pid).returnCode = priority ∧
    ∀ other, other ≠ pid → getpriority (setpriority s pid priority).1 other = getpriority s other
  refuses : ¬ (Valid priority ∧ Live s pid) →
    (setpriority s pid priority).2.returnCode = -1 ∧ (setpriority s pid priority).1 = s
  reports : (getpriority s pid).returnCode = -1 ↔ ¬ Live s pid

/-- The search for `pid` ends at an UNUSED slot, and it matters: the priority would be accepted,
    or a process in use has the same pid. -/
def Misled (s : State) (pid priority : Int) : Prop :=
  ∃ p, search s pid = some p ∧ (s.table.proc p).state = .unused ∧ (Valid priority ∨ Live s pid)

section Calls
variable {s : State} {pid priority : Int}

theorem search_pid {p : Fin NPROC} (found : search s pid = some p) : (s.table.proc p).pid = pid := by
  have hit := List.find?_some found
  simpa using hit

theorem search_none (missing : search s pid = none) : ¬ Live s pid := by
  rintro ⟨p,_,same⟩
  have miss := List.find?_eq_none.mp missing p (List.mem_finRange p)
  simp [same] at miss

theorem setpriority_invalid (invalid : ¬ Valid priority) :
    setpriority s pid priority = (s, ⟨-1, "Invalid priority value detected"⟩) := by
  have outside : priority < 0 ∨ MAXPRIORITY < priority := by
    unfold Valid at invalid
    omega
  rw [setpriority, if_pos outside]

theorem setpriority_missing (valid : Valid priority) (missing : search s pid = none) :
    setpriority s pid priority = (s, ⟨-1, "Invalid pid value detected"⟩) := by
  have inside : ¬ (priority < 0 ∨ MAXPRIORITY < priority) := by
    unfold Valid at valid
    omega
  rw [setpriority, if_neg inside, missing]

theorem setpriority_found (valid : Valid priority) {p : Fin NPROC} (found : search s pid = some p) :
    setpriority s pid priority =
      ({ s with priority := Function.update s.priority p priority,
                budget := Function.update s.budget p DEFAULT_BUDGET }, ⟨0, ""⟩) := by
  have inside : ¬ (priority < 0 ∨ MAXPRIORITY < priority) := by
    unfold Valid at valid
    omega
  rw [setpriority, if_neg inside, found]

theorem getpriority_missing (missing : search s pid = none) :
    getpriority s pid = ⟨-1, "Invalid pid value detected"⟩ := by
  rw [getpriority, missing]

theorem getpriority_unused {p : Fin NPROC} (found : search s pid = some p)
    (unused : (s.table.proc p).state = .unused) : (getpriority s pid).returnCode = -1 := by
  simp only [getpriority, found, if_pos unused]

theorem getpriority_used {p : Fin NPROC} (found : search s pid = some p)
    (used : (s.table.proc p).state ≠ .unused) : (getpriority s pid).returnCode = s.priority p := by
  simp only [getpriority, found, if_neg used]

/-- A search for another pid ends at another slot, whose priority was not touched. -/
theorem getpriority_other {p : Fin NPROC} (own : (s.table.proc p).pid = pid) (budget : Fin NPROC → Int)
    {other : Int} (apart : other ≠ pid) :
    getpriority { s with priority := Function.update s.priority p priority, budget := budget } other =
      getpriority s other := by
  have same : search { s with priority := Function.update s.priority p priority, budget := budget } other =
      search s other := rfl
  unfold getpriority
  rw [same]
  cases found : search s other with
  | none => rfl
  | some q =>
    have elsewhere : q ≠ p := by
      rintro rfl
      exact apart ((search_pid found).symm.trans own)
    simp only [Function.update_of_ne elsewhere]

/-- Priorities are never negative, so -1 is no priority. -/
def Ranged (s : State) : Prop := ∀ p, Valid (s.priority p)

theorem agrees_of_refused {text : String} (refused : setpriority s pid priority = (s, ⟨-1,text⟩))
    (outside : ¬ (Valid priority ∧ Live s pid)) (report : (getpriority s pid).returnCode = -1 ↔ ¬ Live s pid) :
    Agrees s pid priority := by
  refine ⟨?_, ?_, ?_, report⟩ <;> rw [refused]
  · exact ⟨fun zero => absurd zero (by simp), fun both => absurd both outside⟩
  · exact fun zero => absurd zero (by simp)
  · exact fun _ => ⟨rfl,rfl⟩

theorem agrees_of_used (ranged : Ranged s) {p : Fin NPROC} (found : search s pid = some p)
    (used : (s.table.proc p).state ≠ .unused) : Agrees s pid priority := by
  have live : Live s pid := ⟨p, used, search_pid found⟩
  have report : (getpriority s pid).returnCode = -1 ↔ ¬ Live s pid := by
    have low := (ranged p).1
    rw [getpriority_used found used]
    constructor
    · intro negative
      omega
    · exact fun dead => absurd live dead
  by_cases valid : Valid priority
  · have set := setpriority_found valid found
    refine ⟨?_, ?_, fun outside => absurd ⟨valid,live⟩ outside, report⟩
    · rw [set]
      exact ⟨fun _ => ⟨valid,live⟩, fun _ => rfl⟩
    · intro _
      rw [set]
      refine ⟨?_, fun other apart => getpriority_other (search_pid found) _ apart⟩
      have again : search (setpriority s pid priority).1 pid = some p := by
        rw [set]
        exact found
      rw [set] at again
      rw [getpriority_used again used]
      exact Function.update_self p priority s.priority
  · exact agrees_of_refused (setpriority_invalid valid) (fun both => valid both.1) report

/-- A missing pid is refused by both calls. -/
theorem agrees_of_missing (missing : search s pid = none) : Agrees s pid priority := by
  have dead := search_none missing
  have report : (getpriority s pid).returnCode = -1 ↔ ¬ Live s pid := by
    rw [getpriority_missing missing]
    exact ⟨fun _ => dead, fun _ => rfl⟩
  by_cases valid : Valid priority
  · exact agrees_of_refused (setpriority_missing valid missing) (fun both => dead both.2) report
  · exact agrees_of_refused (setpriority_invalid valid) (fun both => dead both.2) report

/-- At an UNUSED slot `setpriority` accepts what `getpriority` refuses. -/
theorem agrees_unused_iff {p : Fin NPROC} (found : search s pid = some p)
    (unused : (s.table.proc p).state = .unused) :
    Agrees s pid priority ↔ ¬ Valid priority ∧ ¬ Live s pid := by
  have absent := getpriority_unused found unused
  constructor
  · intro agrees
    have dead := agrees.reports.mp absent
    refine ⟨fun valid => dead ?_, dead⟩
    have accepted : (setpriority s pid priority).2.returnCode = 0 := by
      rw [setpriority_found valid found]
    exact (agrees.accepts.mp accepted).2
  · rintro ⟨invalid,dead⟩
    exact agrees_of_refused (setpriority_invalid invalid) (fun both => dead both.2)
      ⟨fun _ => dead, fun _ => absent⟩

theorem agrees_iff (ranged : Ranged s) : Agrees s pid priority ↔ ¬ Misled s pid priority := by
  cases found : search s pid with
  | none =>
    refine ⟨?_, fun _ => agrees_of_missing found⟩
    rintro _ ⟨p,also,_⟩
    simp [found] at also
  | some p =>
    by_cases unused : (s.table.proc p).state = .unused
    · rw [agrees_unused_iff found unused]
      constructor
      · rintro ⟨invalid,dead⟩ ⟨_,_,_,either⟩
        exact either.elim invalid dead
      · intro straight
        exact ⟨fun valid => straight ⟨p, found, unused, Or.inl valid⟩,
          fun live => straight ⟨p, found, unused, Or.inr live⟩⟩
    · refine ⟨?_, fun _ => agrees_of_used ranged found unused⟩
      rintro _ ⟨q,also,free,_⟩
      rw [found, Option.some.injEq] at also
      exact unused (also ▸ free)

theorem ranged_setpriority (ranged : Ranged s) (pid priority : Int) :
    Ranged (setpriority s pid priority).1 := by
  by_cases valid : Valid priority
  · cases found : search s pid with
    | none =>
      rw [setpriority_missing valid found]
      exact ranged
    | some p =>
      rw [setpriority_found valid found]
      intro q
      by_cases same : q = p
      · subst same
        simpa only [Function.update_self] using valid
      · simpa only [Function.update_of_ne same] using ranged q
  · rw [setpriority_invalid valid]
    exact ranged

end Calls

theorem next_ranged {s t : State} (a : Action) (ranged : Ranged s) (run : next s a = some t) : Ranged t := by
  cases a with
  | proc a =>
    simp only [next, Option.map_eq_some_iff] at run
    obtain ⟨table,_,rfl⟩ := run
    exact ranged
  | setpriority p pid priority =>
    simp only [next] at run
    split at run
    · rw [Option.some.injEq] at run
      exact run ▸ ranged_setpriority ranged pid priority
    · simp at run

theorem reach_ranged {s : State} (reach : system.Reach System.Free s) : Ranged s := by
  refine System.reach_invariant system ?_ (fun s a t ranged _ run => next_ranged a ranged run) reach
  rintro s ⟨_,zero,_⟩ p
  rw [zero p]
  exact ⟨by decide, by decide⟩

/-- In every reachable table the two calls agree, except about a pid that the search finds at
    an UNUSED slot. -/
theorem agrees_exactly {s : State} (reach : system.Reach System.Free s) (pid priority : Int) :
    Agrees s pid priority ↔ ¬ Misled s pid priority :=
  agrees_iff (reach_ranged reach)

def booted : State := ⟨Xv6ProcReap.booted, fun _ => 0, fun _ => 0⟩

theorem booted_start : system.start booted := ⟨Xv6ProcReap.booted_start, fun _ => rfl, fun _ => rfl⟩

def initRuns : State := (System.exec next booted [.proc (.scheduler 0)]).get (by decide +kernel)

theorem initRuns_reach : system.Reach System.Free initRuns :=
  System.exec_reach _ (fun _ _ _ => trivial) (.start booted_start) (Option.some_get _).symm

theorem agrees_exactly_initRuns : system.Reach System.Free initRuns ∧ Agrees initRuns 1 2 := by
  have straight : ¬ Misled initRuns 1 2 := by
    have found : search initRuns 1 = some 0 ∧ (initRuns.table.proc 0).state ≠ .unused := by decide
    rintro ⟨p,also,free,_⟩
    rw [found.1, Option.some.injEq] at also
    exact found.2 (also ▸ free)
  exact ⟨initRuns_reach, (agrees_exactly initRuns_reach 1 2).mpr straight⟩

/-- A fork of `init` for which `kalloc` has no page. -/
def forkFailed : State :=
  (System.exec next booted [.proc (.scheduler 0), .proc (.allocproc 0), .proc (.kalloc 0 none)]).get
    (by decide +kernel)

/-- `setpriority` returns 0 for pid 0, which no process has, and for the pid of the child
    that was never made; `getpriority` reports neither. -/
theorem setpriority_nobody : system.Reach System.Free initRuns ∧
    (setpriority initRuns 0 1).2.returnCode = 0 ∧ (getpriority initRuns 0).returnCode = -1 ∧
    ¬ Live initRuns 0 ∧ ¬ Agrees initRuns 0 1 ∧ system.Reach System.Free forkFailed ∧
    (setpriority forkFailed 2 1).2.returnCode = 0 ∧ ¬ Live forkFailed 2 := by
  have failed : system.Reach System.Free forkFailed :=
    System.exec_reach _ (fun _ _ _ => trivial) (.start booted_start) (Option.some_get _).symm
  have zero : (setpriority initRuns 0 1).2.returnCode = 0 ∧ (getpriority initRuns 0).returnCode = -1 ∧
      ∀ p, (initRuns.table.proc p).state ≠ .unused → (initRuns.table.proc p).pid ≠ 0 := by decide
  have stale : (setpriority forkFailed 2 1).2.returnCode = 0 ∧
      ∀ p, (forkFailed.table.proc p).state ≠ .unused → (forkFailed.table.proc p).pid ≠ 2 := by decide
  have nobody : ¬ Live initRuns 0 := fun ⟨p,used,own⟩ => zero.2.2 p used own
  exact ⟨initRuns_reach, zero.1, zero.2.1, nobody, fun agrees => nobody (agrees.accepts.mp zero.1).2,
    failed, stale.1, fun ⟨p,used,own⟩ => stale.2 p used own⟩

end Original
