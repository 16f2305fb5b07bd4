import KernelLabs.Lab2.LotteryDraw

/-!
One round of the lottery. The first loop adds up the tickets of the RUNNABLE slots and the
second counts up to the number drawn; both go over the same slots, so the second reaches
every number up to the sum of the first as long as some process is RUNNABLE.
-/
namespace LotteryWinner
open Lottery LotteryTickets LotteryDraw
open Xv6Proc (NPROC Procstate)

/-- The slots up to and with `p`. -/
def through (p : Fin NPROC) : List (Fin NPROC) := (List.finRange NPROC).take (p.val + 1)

/-- The tickets that are counted when the loop is at slot `p`. -/
def cumulative (t : Table) (p : Fin NPROC) : Int := heldTickets t (through p)

/-- Slot `p` is RUNNABLE, and the first such slot whose cumulative count is at least `n`. -/
def FirstReached (t : Table) (n : Nat) (p : Fin NPROC) : Prop :=
  (t p).state = .runnable ∧ (n : Int) ≤ cumulative t p ∧
    ∀ q, (t q).state = .runnable → (n : Int) ≤ cumulative t q → p ≤ q

section Scan
variable {t : Table}

theorem through_eq (p : Fin NPROC) : through p = (List.finRange NPROC).take p.val ++ [p] := by
  have inside : p.val < (List.finRange NPROC).length := by simp
  rw [through, List.take_succ_eq_append_getElem inside, List.getElem_finRange]
  rfl

theorem table_split (p : Fin NPROC) :
    List.finRange NPROC = (List.finRange NPROC).take p.val ++ p :: (List.finRange NPROC).drop (p.val + 1) := by
  have parts := (List.take_append_drop (p.val + 1) (List.finRange NPROC)).symm
  rw [← through, through_eq, List.append_assoc, List.singleton_append] at parts
  exact parts

/-- What the loop does at slot `p` when no slot before it was chosen. -/
theorem scan_at (ticketed : Ticketed t) (n : Nat) (p : Fin NPROC) (rest : List (Fin NPROC)) :
    scan t n (p :: rest) (sumTickets t ((List.finRange NPROC).take p.val) 0) =
      if (t p).state = .runnable ∧ (n : Int) ≤ cumulative t p then some p
      else scan t n rest (sumTickets t (through p) 0) := by
  have sum : sumTickets t (through p) 0 =
      sumTickets t [p] (sumTickets t ((List.finRange NPROC).take p.val) 0) := by
    rw [through_eq]
    exact List.foldl_append
  have held : (sumTickets t (through p) 0 : Int) = cumulative t p :=
    sumTickets_held ticketed (List.take_prefix _ _)
  by_cases runnable : (t p).state = .runnable
  · rw [sumTickets_take runnable] at sum
    change _ = addTickets _ _ at sum
    rw [scan_take runnable, ← sum]
    by_cases reached : (n : Int) ≤ cumulative t p
    · have stops : ¬ sumTickets t (through p) 0 < n := by omega
      rw [if_neg stops, if_pos ⟨runnable,reached⟩]
    · have short : sumTickets t (through p) 0 < n := by omega
      rw [if_pos short, if_neg (fun both => reached both.2)]
  · rw [sumTickets_skip runnable] at sum
    change _ = sumTickets t ((List.finRange NPROC).take p.val) 0 at sum
    rw [scan_skip runnable, if_neg (fun both => runnable both.1), sum]

/-- The loop passes the first `k` slots exactly when none of them reaches the number. -/
theorem scan_passes (ticketed : Ticketed t) (n k : Nat) (inside : k ≤ NPROC) :
    scan t n ((List.finRange NPROC).take k) 0 = none ↔
      ∀ q : Fin NPROC, q.val < k → (t q).state = .runnable → cumulative t q < n := by
  induction k with
  | zero => simp [scan]
  | succ k ih =>
    let p : Fin NPROC := ⟨k, inside⟩
    have last := scan_at ticketed n p []
    have split : (List.finRange NPROC).take (k + 1) = (List.finRange NPROC).take k ++ [p] := through_eq p
    rw [split, scan_append, Option.or_eq_none_iff, ih (by omega), last]
    constructor
    · rintro ⟨before,passed⟩ q small runnable
      rcases Nat.lt_succ_iff_lt_or_eq.mp small with earlier | same
      · exact before q earlier runnable
      · obtain rfl : q = p := Fin.ext same
        by_contra reached
        rw [if_pos ⟨runnable, by omega⟩] at passed
        simp at passed
    · intro short
      refine ⟨fun q small => short q (by omega), ?_⟩
      rw [if_neg, scan]
      rintro ⟨runnable,reached⟩
      have := short p (Nat.lt_succ_self k) runnable
      omega

/-- A loop that chooses nobody has counted the tickets of every RUNNABLE slot. -/
theorem scan_none (n : Nat) (l : List (Fin NPROC)) (count : Nat) (passed : scan t n l count = none) :
    sumTickets t l count < n ∨ (sumTickets t l count = count ∧ ∀ p ∈ l, (t p).state ≠ .runnable) := by
  induction l generalizing count with
  | nil => exact Or.inr ⟨rfl, by simp⟩
  | cons p rest ih =>
    by_cases runnable : (t p).state = .runnable
    · rw [scan_take runnable] at passed
      rw [sumTickets_take runnable]
      by_cases short : addTickets count (t p).tickets < n
      · rw [if_pos short] at passed
        rcases ih _ passed with less | ⟨same,_⟩
        · exact Or.inl less
        · exact Or.inl (by omega)
      · rw [if_neg short] at passed
        simp at passed
    · rw [scan_skip runnable] at passed
      rw [sumTickets_skip runnable]
      rcases ih _ passed with less | ⟨same,others⟩
      · exact Or.inl less
      · refine Or.inr ⟨same, fun q member => ?_⟩
        rcases List.mem_cons.mp member with rfl | later
        · exact runnable
        · exact others q later

theorem scan_mem {n : Nat} {l : List (Fin NPROC)} {count : Nat} {p : Fin NPROC}
    (chosen : scan t n l count = some p) : p ∈ l := by
  induction l generalizing count with
  | nil => simp [scan] at chosen
  | cons q rest ih =>
    by_cases runnable : (t q).state = .runnable
    · rw [scan_take runnable] at chosen
      split at chosen
      · exact List.mem_cons_of_mem _ (ih chosen)
      · rw [Option.some.injEq] at chosen
        exact chosen ▸ List.mem_cons_self
    · rw [scan_skip runnable] at chosen
      exact List.mem_cons_of_mem _ (ih chosen)

theorem not_mem_take (p : Fin NPROC) : p ∉ (List.finRange NPROC).take p.val := by
  intro member
  have distinct := List.nodup_finRange NPROC
  rw [table_split p, List.nodup_append] at distinct
  exact distinct.2.2 p member p (by simp) rfl

theorem not_mem_drop (p : Fin NPROC) : p ∉ (List.finRange NPROC).drop (p.val + 1) := by
  intro member
  have distinct := List.nodup_finRange NPROC
  rw [table_split p, List.nodup_append, List.nodup_cons] at distinct
  exact distinct.2.1.1 member

theorem winner_iff (ticketed : Ticketed t) (n : Nat) (p : Fin NPROC) :
    winner t n = some p ↔ FirstReached t n p := by
  have passes := scan_passes ticketed n p.val p.isLt.le
  have here := scan_at ticketed n p ((List.finRange NPROC).drop (p.val + 1))
  have split : winner t n = (scan t n ((List.finRange NPROC).take p.val) 0).or
      (scan t n (p :: (List.finRange NPROC).drop (p.val + 1))
        (sumTickets t ((List.finRange NPROC).take p.val) 0)) := by
    rw [winner, ← scan_append, ← table_split]
  rw [split, here]
  cases found : scan t n ((List.finRange NPROC).take p.val) 0 with
  | none =>
    have short := passes.mp found
    rw [Option.none_or]
    constructor
    · intro chosen
      by_cases hit : (t p).state = .runnable ∧ (n : Int) ≤ cumulative t p
      · refine ⟨hit.1, hit.2, fun q runnable reached => ?_⟩
        by_contra earlier
        have := short q (by omega) runnable
        omega
      · rw [if_neg hit] at chosen
        have later := scan_mem chosen
        exact absurd later (not_mem_drop p)
    · rintro ⟨runnable,reached,_⟩
      rw [if_pos ⟨runnable,reached⟩]
  | some q =>
    rw [Option.some_or, Option.some.injEq]
    constructor
    · rintro rfl
      exact absurd (scan_mem found) (not_mem_take q)
    · rintro ⟨runnable,reached,first⟩
      have passed : scan t n ((List.finRange NPROC).take p.val) 0 = none := by
        rw [passes]
        intro r earlier ready
        by_contra also
        have := first r ready (by omega)
        omega
      rw [passed] at found
      simp at found

/-- Some process wins whenever some process is RUNNABLE. -/
theorem winner_exists {n : Nat} (range : n ≤ ticketSum t) (p : Fin NPROC) (runnable : (t p).state = .runnable) :
    ∃ q, winner t n = some q := by
  cases found : winner t n with
  | some q => exact ⟨q,rfl⟩
  | none =>
    rcases scan_none n (List.finRange NPROC) 0 found with less | ⟨_,others⟩
    · unfold ticketSum at range
      omega
    · exact absurd runnable (others p (List.mem_finRange p))

end Scan

section Round
variable {C : Type} [DecidableEq C]

/-- The rest of a round once `random_at_most` has returned. -/
def drawn (s : State C) (c : C) (lotteryNumber : Nat) : State C :=
  let s := { s with pstat := fillPstat s.proc s.pstat }
  match winner s.proc lotteryNumber with
  | none => s
  | some p => dispatch s c p

/-- CPU `c` has switched to process `p` once. -/
structure Dispatches (s s' : State C) (c : C) (p : Fin NPROC) : Prop where
  current : s'.cpu c = .ran p
  running : (s'.proc p).state = .running
  counted : s'.dispatched p = s.dispatched p + 1

theorem drawn_none {s : State C} {c : C} {n : Nat} (nobody : winner s.proc n = none) :
    drawn s c n = { s with pstat := fillPstat s.proc s.pstat } := by
  simp only [drawn, nobody]

theorem drawn_some {s : State C} {c : C} {n : Nat} {p : Fin NPROC} (chosen : winner s.proc n = some p) :
    drawn s c n = dispatch { s with pstat := fillPstat s.proc s.pstat } c p := by
  simp only [drawn, chosen]

theorem dispatch_dispatches (s : State C) (c : C) (p : Fin NPROC) :
    Dispatches s (dispatch s c p) c p ∧ ∀ q, q ≠ p → (dispatch s c p).dispatched q = s.dispatched q := by
  refine ⟨⟨?_,?_,?_⟩, fun q other => ?_⟩ <;> cases place : s.pc p <;>
    simp [dispatch, State.setProc, State.setPc, State.setCpu, State.setLock, *]

theorem drawn_dispatches (s : State C) (c : C) (n : Nat) :
    (winner s.proc n = none ∧ (drawn s c n).dispatched = s.dispatched) ∨
    ∃ p, winner s.proc n = some p ∧ Dispatches s (drawn s c n) c p ∧
      ∀ q, q ≠ p → (drawn s c n).dispatched q = s.dispatched q := by
  cases found : winner s.proc n with
  | none =>
    left
    rw [drawn_none found]
    exact ⟨rfl,rfl⟩
  | some p =>
    right
    obtain ⟨⟨current,running,counted⟩,others⟩ :=
      dispatch_dispatches { s with pstat := fillPstat s.proc s.pstat } c p
    rw [drawn_some found]
    exact ⟨p, rfl, ⟨current,running,counted⟩, others⟩

theorem randomAtMost_le {t : Table} (ticketed : Ticketed t) {outputs : List Nat} {n : Nat}
    (number : randomAtMost (ticketSum t) outputs = some n) : n ≤ ticketSum t := by
  have range := inRange_of_ticketed ticketed
  unfold randomAtMost at number
  rw [if_neg range.bins, Option.map_eq_some_iff] at number
  obtain ⟨x,found,rfl⟩ := number
  have taken := List.find?_some found
  have bins := (accepted_bins range.argument x).mp taken
  exact Nat.lt_succ_iff.mp (Nat.div_lt_of_lt_mul (Nat.mul_comm _ _ ▸ bins))

theorem round_drawn {s s' : State C} {c : C} {outputs : List Nat} (ticketed : Ticketed s.proc)
    (ran : step s (.round c outputs) = some s') : ∃ n, n ≤ ticketSum s.proc ∧ s' = drawn s c n := by
  simp only [step] at ran
  split at ran
  · simp only [lottery, Option.map_map, Option.map_eq_some_iff] at ran
    obtain ⟨n,number,done⟩ := ran
    exact ⟨n, randomAtMost_le ticketed number, done.symm⟩
  · simp at ran

theorem resume_dispatched {s s' : State C} {c : C} (ran : step s (.resume c) = some s') :
    s'.dispatched = s.dispatched := by
  simp only [step] at ran
  split at ran
  · split at ran
    · rw [Option.some.injEq] at ran
      rw [← ran]
      rfl
    · simp at ran
  · simp at ran

/-- A round runs a process exactly when one is RUNNABLE, the process that it runs is the first
    whose cumulative count reaches the number, and there is one dispatch at most. -/
theorem round_winner {s : State C} (ticketed : Ticketed s.proc) (c : C) :
    (∀ outputs s', step s (.round c outputs) = some s' → ∃ n, n ≤ ticketSum s.proc ∧ s' = drawn s c n) ∧
    (∀ s', step s (.resume c) = some s' → s'.dispatched = s.dispatched) ∧
    ∀ n, n ≤ ticketSum s.proc →
      ((∃ p, Dispatches s (drawn s c n) c p) ↔ ∃ p, (s.proc p).state = .runnable) ∧
      (∀ p, Dispatches s (drawn s c n) c p → FirstReached s.proc n p) ∧
      ∀ p q, (drawn s c n).dispatched p ≠ s.dispatched p → (drawn s c n).dispatched q ≠ s.dispatched q → p = q := by
  refine ⟨fun _ _ => round_drawn ticketed, fun _ => resume_dispatched, fun n range => ?_⟩
  rcases drawn_dispatches s c n with ⟨nobody,same⟩ | ⟨p,chosen,runs,others⟩
  · refine ⟨⟨?_,?_⟩, ?_, ?_⟩
    · rintro ⟨p,runs⟩
      have := runs.counted
      rw [same] at this
      omega
    · rintro ⟨p,runnable⟩
      obtain ⟨q,chosen⟩ := winner_exists range p runnable
      rw [nobody] at chosen
      simp at chosen
    · intro p runs
      have := runs.counted
      rw [same] at this
      omega
    · intro p _ changed
      rw [same] at changed
      exact absurd rfl changed
  · have first := (winner_iff ticketed n p).mp chosen
    refine ⟨⟨fun _ => ⟨p,first.1⟩, fun _ => ⟨p,runs⟩⟩, ?_, ?_⟩
    · intro q also
      have same := runs.current.symm.trans also.current
      rw [Cpu.ran.injEq] at same
      exact same ▸ first
    · intro q r changed also
      have here : ∀ x, (drawn s c n).dispatched x ≠ s.dispatched x → x = p := fun x moved => by
        by_contra other
        exact moved (others x other)
      rw [here q changed, here r also]

end Round

/-- Two processes without a ticket: the number drawn is 0, and the first of them runs. -/
def ticketless : State Unit :=
  { poweredOn with proc := fun p => if p = 2 ∨ p = 7 then ready 0 else idle, cpu := fun _ => .top }

theorem ticketless_ticketed : Ticketed ticketless.proc := by
  intro p _
  change 0 ≤ (if p = 2 ∨ p = 7 then ready 0 else idle).tickets ∧
    (if p = 2 ∨ p = 7 then ready 0 else idle).tickets ≤ MAXTICKET
  split <;> decide

theorem round_winner_ticketless : Ticketed ticketless.proc ∧ winner ticketless.proc 0 = some 2 ∧
    ∃ p, Dispatches ticketless (drawn ticketless () 0) () p :=
  ⟨ticketless_ticketed, by decide,
    ((round_winner ticketless_ticketed ()).2.2 0 (Nat.zero_le _)).1.mpr ⟨2, rfl⟩⟩

end LotteryWinner
