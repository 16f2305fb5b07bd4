import KernelLabs.Lib.TicketDraw
import KernelLabs.Lab2.Lottery

/-!
Tickets stay between 0 and `MAXTICKET`, so the sums of a round are the true sums of the
tickets and `random_at_most` is called within its range. The field `inuse` of a slot is
never written.
-/
namespace LotteryTickets
open Lottery Transition TicketDraw
open Xv6Proc (NPROC Procstate Chan Stage Pc)

def Ticketed (t : Table) : Prop :=
  ∀ p, (t p).state ≠ .unused → 0 ≤ (t p).tickets ∧ (t p).tickets ≤ MAXTICKET

/-- The RUNNABLE processes of a part of the table with their tickets. -/
def weights (t : Table) (l : List (Fin NPROC)) : List (Fin NPROC × Nat) :=
  (l.filter fun p => decide ((t p).state = .runnable)).map fun p => (p, (t p).tickets.toNat)

/-- The tickets of the RUNNABLE processes of a part of the table, without a word size. -/
def heldTickets (t : Table) (l : List (Fin NPROC)) : Int :=
  ((l.filter fun p => decide ((t p).state = .runnable)).map fun p => (t p).tickets).sum

section Sums
variable {t : Table}

theorem weights_skip {p : Fin NPROC} (other : (t p).state ≠ .runnable) (rest : List (Fin NPROC)) :
    weights t (p :: rest) = weights t rest := by
  simp [weights, other]

theorem weights_take {p : Fin NPROC} (runnable : (t p).state = .runnable) (rest : List (Fin NPROC)) :
    weights t (p :: rest) = (p, (t p).tickets.toNat) :: weights t rest := by
  simp [weights, runnable]

theorem ticketed_runnable (ticketed : Ticketed t) {p : Fin NPROC}
    (runnable : (t p).state = .runnable) : 0 ≤ (t p).tickets ∧ (t p).tickets ≤ 15 :=
  ticketed p (by simp [runnable])

theorem total_weights_le (ticketed : Ticketed t) (l : List (Fin NPROC)) :
    total (weights t l) ≤ l.length * 15 := by
  induction l with
  | nil => simp [weights, total]
  | cons p rest ih =>
    rw [List.length_cons]
    by_cases runnable : (t p).state = .runnable
    · obtain ⟨low,high⟩ := ticketed_runnable ticketed runnable
      rw [weights_take runnable, total_cons]
      omega
    · rw [weights_skip runnable]
      omega

theorem total_weights_held (ticketed : Ticketed t) (l : List (Fin NPROC)) :
    (total (weights t l) : Int) = heldTickets t l := by
  induction l with
  | nil => simp [weights, total, heldTickets]
  | cons p rest ih =>
    by_cases runnable : (t p).state = .runnable
    · obtain ⟨low,_⟩ := ticketed_runnable ticketed runnable
      have head : heldTickets t (p :: rest) = (t p).tickets + heldTickets t rest := by
        simp [heldTickets, runnable]
      rw [weights_take runnable, total_cons, head, ← ih]
      omega
    · have head : heldTickets t (p :: rest) = heldTickets t rest := by
        simp [heldTickets, runnable]
      rw [weights_skip runnable, head]
      exact ih

theorem addTickets_small (count : Nat) {tickets : Int} (low : 0 ≤ tickets)
    (small : count + tickets.toNat < 2 ^ 32) : addTickets count tickets = count + tickets.toNat := by
  unfold addTickets
  omega

theorem sumTickets_skip {p : Fin NPROC} (other : (t p).state ≠ .runnable) (rest : List (Fin NPROC))
    (sum : Nat) : sumTickets t (p :: rest) sum = sumTickets t rest sum := by
  simp [sumTickets, other]

theorem sumTickets_take {p : Fin NPROC} (runnable : (t p).state = .runnable)
    (rest : List (Fin NPROC)) (sum : Nat) :
    sumTickets t (p :: rest) sum = sumTickets t rest (addTickets sum (t p).tickets) := by
  simp [sumTickets, runnable]

theorem sumTickets_total (ticketed : Ticketed t) (l : List (Fin NPROC)) (sum : Nat)
    (small : sum + l.length * 15 < 2 ^ 32) : sumTickets t l sum = sum + total (weights t l) := by
  induction l generalizing sum with
  | nil => simp [sumTickets, weights, total]
  | cons p rest ih =>
    rw [List.length_cons] at small
    by_cases runnable : (t p).state = .runnable
    · obtain ⟨low,high⟩ := ticketed_runnable ticketed runnable
      have added := addTickets_small sum low (by omega)
      rw [sumTickets_take runnable, added, ih _ (by omega), weights_take runnable, total_cons]
      omega
    · rw [sumTickets_skip runnable, ih _ (by omega), weights_skip runnable]

theorem prefix_small {l : List (Fin NPROC)} (part : l <+: List.finRange NPROC) :
    l.length * 15 ≤ 960 := by
  have short : l.length ≤ 64 := by
    calc l.length ≤ (List.finRange NPROC).length := part.length_le
      _ = 64 := List.length_finRange
  omega

theorem sumTickets_held (ticketed : Ticketed t) {l : List (Fin NPROC)}
    (part : l <+: List.finRange NPROC) : (sumTickets t l 0 : Int) = heldTickets t l := by
  have small := prefix_small part
  rw [sumTickets_total ticketed l 0 (by omega), ← total_weights_held ticketed l, Nat.zero_add]

theorem ticketSum_total (ticketed : Ticketed t) :
    ticketSum t = total (weights t (List.finRange NPROC)) ∧ ticketSum t ≤ 960 := by
  have small := prefix_small (List.prefix_refl (List.finRange NPROC))
  have whole := sumTickets_total ticketed (List.finRange NPROC) 0 (by omega)
  have bound := total_weights_le ticketed (List.finRange NPROC)
  rw [Nat.zero_add] at whole
  unfold ticketSum
  omega

theorem scan_skip {p : Fin NPROC} (other : (t p).state ≠ .runnable) (n : Nat)
    (rest : List (Fin NPROC)) (count : Nat) : scan t n (p :: rest) count = scan t n rest count := by
  simp [scan, other]

theorem scan_take {p : Fin NPROC} (runnable : (t p).state = .runnable) (n : Nat)
    (rest : List (Fin NPROC)) (count : Nat) : scan t n (p :: rest) count =
      if addTickets count (t p).tickets < n then scan t n rest (addTickets count (t p).tickets)
      else some p := by
  simp [scan, runnable]

/-- The running count with which the second loop comes to a slot is the sum of the
    tickets up to there. -/
theorem scan_append (t : Table) (n : Nat) (l rest : List (Fin NPROC)) (count : Nat) :
    scan t n (l ++ rest) count =
      (scan t n l count).or (scan t n rest (sumTickets t l count)) := by
  induction l generalizing count with
  | nil => simp [scan, sumTickets]
  | cons p l ih =>
    rw [List.cons_append]
    by_cases runnable : (t p).state = .runnable
    · rw [scan_take runnable, scan_take runnable, sumTickets_take runnable]
      split
      · exact ih _
      · rfl
    · rw [scan_skip runnable, scan_skip runnable, sumTickets_skip runnable]
      exact ih _

theorem binSize_pos {max : Nat} (small : max ≤ RAND_MAX) : 0 < binSize max := by
  unfold binSize numBins numRand uint RAND_MAX at *
  rw [Nat.mod_eq_of_lt (by omega)]
  exact Nat.div_pos (by omega) (by omega)

end Sums

section Fields

/-- The ticket and `inuse` fields of a slot. -/
def Fine (p : Proc) : Prop := 0 ≤ p.tickets ∧ p.tickets ≤ MAXTICKET ∧ p.inuse = 0

variable {t : Table}

theorem fine_update (fine : ∀ q, Fine (t q)) {i : Fin NPROC} {me : Proc} (mine : Fine me) :
    ∀ q, Fine (Function.update t i me q) := by
  intro q
  by_cases same : q = i
  · rw [same, Function.update_self]
    exact mine
  · rw [Function.update_of_ne same]
    exact fine q

theorem fine_setpriority (fine : ∀ q, Fine (t q)) (pid priority : Int) :
    ∀ q, Fine (setpriority t pid priority q) := by
  unfold setpriority
  split
  · exact fine
  · cases (List.finRange NPROC).find? fun i => (t i).pid == pid with
    | none => exact fine
    | some i => exact fine_update fine (fine i)

theorem fine_settickets (fine : ∀ q, Fine (t q)) (p : Fin NPROC) (numTickets : Int) :
    ∀ q, Fine (settickets t p numTickets q) := by
  unfold settickets
  split
  · exact fine
  · rename_i valid
    refine fine_update fine ⟨?_, ?_, (fine p).2.2⟩
    · change 0 ≤ numTickets
      omega
    · change numTickets ≤ MAXTICKET
      omega

theorem fine_wakeup1 (fine : ∀ q, Fine (t q)) (chan : Option Chan) : ∀ q, Fine (wakeup1 t chan q) := by
  intro q
  unfold wakeup1
  split <;> exact fine q

theorem fine_kill (fine : ∀ q, Fine (t q)) (pid : Int) : ∀ q, Fine (kill t pid q) := by
  unfold kill
  cases (List.finRange NPROC).find? fun i => (t i).pid == pid with
  | none => exact fine
  | some i =>
    apply fine_update fine
    dsimp only
    split <;> exact fine i

theorem fine_abandon (fine : ∀ q, Fine (t q)) (initproc : Option (Fin NPROC)) (p i : Fin NPROC) :
    ∀ q, Fine (abandon initproc p t i q) := by
  unfold abandon
  split
  · have moved : ∀ q, Fine (Function.update t i { t i with parent := initproc } q) :=
      fine_update fine (fine i)
    dsimp only
    split
    · exact fine_wakeup1 moved _
    · exact moved
  · exact fine

theorem fine_exit (fine : ∀ q, Fine (t q)) (initproc : Option (Fin NPROC)) (p : Fin NPROC) :
    ∀ q, Fine (exit t initproc p q) := by
  have given : ∀ l : List (Fin NPROC), ∀ u : Table, (∀ q, Fine (u q)) →
      ∀ q, Fine (l.foldl (abandon initproc p) u q) := by
    intro l
    induction l with
    | nil => exact fun _ fine => fine
    | cons i rest ih => exact fun u fine => ih _ (fine_abandon fine initproc p i)
  have after := given (List.finRange NPROC) _ (fine_wakeup1 fine ((t p).parent.map .slot))
  unfold exit
  dsimp only
  generalize (List.finRange NPROC).foldl (abandon initproc p) _ = u at after ⊢
  exact fine_update after (after p)

theorem fine_reward {p : Proc} (fine : Fine p) : Fine (reward p) := by
  obtain ⟨low,high,inuse⟩ := fine
  unfold reward
  split
  · rename_i more
    refine ⟨?_, ?_, inuse⟩
    · change 0 ≤ p.tickets + 1
      omega
    · change p.tickets + 1 ≤ MAXTICKET
      omega
  · exact ⟨low,high,inuse⟩

end Fields

section Runs
variable {C : Type} [DecidableEq C]

theorem fine_dispatch {s : State C} (fine : ∀ q, Fine (s.proc q)) (c : C) (p : Fin NPROC) :
    ∀ q, Fine ((dispatch s c p).proc q) := by
  unfold dispatch
  dsimp only
  cases (State.setCpu s c (.ran p)).pc p <;> exact fine_update fine (fine p)

theorem fine_wait {s : State C} (fine : ∀ q, Fine (s.proc q)) (c : C) (p : Fin NPROC) :
    ∀ q, Fine ((wait s c p).proc q) := by
  unfold wait
  cases firstZombie s.proc p with
  | some z => exact fine_update fine (fine z)
  | none =>
    dsimp only
    split
    · exact fine
    · exact fine_update fine (fine p)

theorem step_fine {s t : State C} {a : Action C} (fine : ∀ q, Fine (s.proc q))
    (run : step s a = some t) : ∀ q, Fine (t.proc q) := by
  have fresh : ∀ p pid, Fine (created (s.proc p) pid) := by
    intro p pid
    exact ⟨by simp [created], by simp [created, MAXTICKET], (fine p).2.2⟩
  cases a with
  | userinit c =>
    simp only [step] at run
    split at run
    · simp only [Option.map_eq_some_iff] at run
      obtain ⟨p,_,done⟩ := run
      exact done ▸ fine_update fine (fresh p _)
    · simp at run
  | publishInit c =>
    simp only [step] at run
    split at run
    · rename_i p _
      split at run
      · simp only [Option.some.injEq] at run
        exact run ▸ fine_update fine (fine p)
      · simp at run
    · simp at run
  | round c outputs =>
    simp only [step] at run
    split at run
    · simp only [Option.map_eq_some_iff] at run
      obtain ⟨drawn,_,done⟩ := run
      cases drawn with
      | none => exact done ▸ fine
      | some p =>
        exact done ▸ fine_dispatch (s := { s with pstat := fillPstat s.proc s.pstat }) fine c p
    · simp at run
  | resume c =>
    simp only [step] at run
    split at run
    · rename_i p _
      split at run
      · simp only [Option.some.injEq] at run
        exact run ▸ fine_update fine (fine_reward (fine p))
      · simp at run
    · simp at run
  | yield c =>
    simp only [step] at run
    split at run
    · rename_i p _
      split at run
      · simp only [Option.some.injEq] at run
        exact run ▸ fine_update fine (fine p)
      · simp at run
    · simp at run
  | sleep c addr =>
    simp only [step] at run
    split at run
    · rename_i p _
      split at run
      · simp only [Option.some.injEq] at run
        exact run ▸ fine_update fine (fine p)
      · simp at run
    · simp at run
  | wakeup chan =>
    simp only [step] at run
    split at run
    · simp only [Option.some.injEq] at run
      exact run ▸ fine_wakeup1 fine (some chan)
    · simp at run
  | kill c pid =>
    simp only [step] at run
    split at run
    · split at run
      · simp only [Option.some.injEq] at run
        exact run ▸ fine_kill fine pid
      · simp at run
    · simp at run
  | setpriority c pid priority =>
    simp only [step] at run
    split at run
    · simp only [Option.some.injEq] at run
      exact run ▸ fine_setpriority fine pid priority
    · simp at run
  | settickets c numTickets =>
    simp only [step] at run
    split at run
    · rename_i p _
      split at run
      · simp only [Option.some.injEq] at run
        exact run ▸ fine_settickets fine p numTickets
      · simp at run
    · simp at run
  | getpinfo c null =>
    simp only [step] at run
    split at run
    · split at run
      · cases null with
        | true =>
          simp only [if_true, Option.some.injEq] at run
          exact run ▸ fine
        | false =>
          simp only [Bool.false_eq_true, if_false, Option.some.injEq] at run
          exact run ▸ fine
      · simp at run
    · simp at run
  | allocproc c =>
    simp only [step] at run
    split at run
    · split at run
      · split at run
        · simp only [Option.some.injEq] at run
          exact run ▸ fine
        · rename_i np _
          simp only [Option.some.injEq] at run
          exact run ▸ fine_update fine (fresh np _)
      · simp at run
    · simp at run
  | kalloc c ok =>
    simp only [step] at run
    split at run
    · split at run
      · rename_i np _
        cases ok with
        | true =>
          simp only [if_true, Option.some.injEq] at run
          exact run ▸ fine
        | false =>
          simp only [Bool.false_eq_true, if_false, Option.some.injEq] at run
          exact run ▸ fine_update fine (fine np)
      · simp at run
    · simp at run
  | copyuvm c ok =>
    simp only [step] at run
    split at run
    · rename_i p _
      split at run
      · rename_i np _
        cases ok with
        | true =>
          simp only [if_true, Option.some.injEq] at run
          exact run ▸ fine_update fine ⟨(fine p).1,(fine p).2.1,(fine np).2.2⟩
        | false =>
          simp only [Bool.false_eq_true, if_false, Option.some.injEq] at run
          exact run ▸ fine_update fine (fine np)
      · simp at run
    · simp at run
  | publish c =>
    simp only [step] at run
    split at run
    · split at run
      · rename_i np _
        split at run
        · simp only [Option.some.injEq] at run
          exact run ▸ fine_update fine (fine np)
        · simp at run
      · simp at run
    · simp at run
  | exit c =>
    simp only [step] at run
    split at run
    · rename_i p _
      split at run
      · simp only [Option.some.injEq] at run
        have after := fine_exit fine s.initproc p
        rw [← run]
        exact after
      · simp at run
    · simp at run
  | wait c =>
    simp only [step] at run
    split at run
    · rename_i p _
      split at run
      · simp only [Option.some.injEq] at run
        exact run ▸ fine_wait fine c p
      · simp at run
    · simp at run

theorem reach_fine {s : State C} (reach : (system C).Reach System.Free s) : ∀ q, Fine (s.proc q) := by
  refine System.reach_invariant (system C) (I := fun s => ∀ q, Fine (s.proc q)) (fun s start q => ?_)
    (fun s a t fine _ run => step_fine fine run) reach
  rw [start.1 q]
  exact ⟨by decide, by decide, rfl⟩

/-- The tickets and every sum of a round are in range: neither loop wraps around, and
    `random_at_most` is called within its range and divides by no zero. -/
structure InRange (t : Table) : Prop where
  ticketed : Ticketed t
  exact_count : ∀ l, l <+: List.finRange NPROC → (sumTickets t l 0 : Int) = heldTickets t l
  exact_sum : (ticketSum t : Int) = heldTickets t (List.finRange NPROC)
  sum_nonneg : 0 ≤ heldTickets t (List.finRange NPROC)
  sum_le : heldTickets t (List.finRange NPROC) ≤ NPROC * MAXTICKET
  argument : ticketSum t ≤ RAND_MAX
  bins : binSize (ticketSum t) ≠ 0

theorem inRange_of_ticketed {t : Table} (ticketed : Ticketed t) : InRange t := by
  obtain ⟨_,small⟩ := ticketSum_total ticketed
  have whole := sumTickets_held ticketed (List.prefix_refl (List.finRange NPROC))
  have argument : ticketSum t ≤ RAND_MAX := by
    unfold RAND_MAX
    omega
  change (ticketSum t : Int) = heldTickets t (List.finRange NPROC) at whole
  refine ⟨ticketed, fun l part => sumTickets_held ticketed part, whole, by omega, ?_, argument, ?_⟩
  · have room : (NPROC : Int) * MAXTICKET = 960 := by decide
    omega
  · have pos := binSize_pos argument
    omega

theorem tickets_in_range {s : State C} (reach : (system C).Reach System.Free s) : InRange s.proc := by
  have fine := reach_fine reach
  exact inRange_of_ticketed fun p _ => ⟨(fine p).1,(fine p).2.1⟩

end Runs

def poweredOn : State Unit where
  proc := fun _ => ⟨.unused, 0, none, none, false, 0, 0, 0, 0, 0⟩
  pc := fun _ => .elsewhere
  initproc := none
  nextpid := 1
  pstat := ⟨fun _ => 0, fun _ => 0, fun _ => 0, fun _ => 0⟩
  cpu := fun _ => .boot
  lock := none
  dispatched := fun _ => 0

theorem poweredOn_start : Start poweredOn :=
  ⟨fun _ => rfl, fun _ => rfl, rfl, rfl, (), rfl, fun _ other => absurd rfl other⟩

/-- The first process runs and has asked for 15 tickets. -/
def initRuns : State Unit :=
  (System.exec step poweredOn
    [.userinit (), .publishInit (), .round () [2147483647, 12345], .settickets () 15]).get
    (by decide +kernel)

theorem initRuns_reach : (system Unit).Reach System.Free initRuns := by
  have run : System.exec step poweredOn [.userinit (), .publishInit (),
      .round () [2147483647, 12345], .settickets () 15] = some initRuns := by
    simp only [initRuns, Option.some_get]
  exact System.exec_reach _ (fun _ _ _ => trivial) (.start poweredOn_start) run

theorem tickets_in_range_initRuns : (system Unit).Reach System.Free initRuns ∧
    (initRuns.proc 0).tickets = 15 ∧ InRange initRuns.proc :=
  ⟨initRuns_reach, by decide, tickets_in_range initRuns_reach⟩

end LotteryTickets
