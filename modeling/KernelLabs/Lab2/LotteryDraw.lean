import Mathlib.Data.Rat.Cast.Order
import Mathlib.Tactic.Linarith
import KernelLabs.Lab2.LotteryTickets

/-!
Who wins the lottery. `random_at_most` returns a number from 0 to the sum of the tickets,
both included, and the loop stops at the first running count that reaches it: a process
wins with as many numbers as it has tickets, and the first RUNNABLE process also with 0.
-/
namespace LotteryDraw
open Lottery LotteryTickets TicketDraw
open Xv6Proc (NPROC Procstate)

/-- The outputs of `genrand` with which process `p` is selected. -/
def selections (t : Table) (p : Fin NPROC) : Nat :=
  ((Finset.range numRand).filter fun x => lottery t [x] = some (some p)).card

/-- The RUNNABLE processes are selected in proportion to their tickets. -/
def Proportional (t : Table) : Prop :=
  ∃ factor : ℚ, ∀ p, (t p).state = .runnable → (selections t p : ℚ) = factor * (t p).tickets

def firstRunnable (t : Table) : Option (Fin NPROC) :=
  (List.finRange NPROC).find? fun p => decide ((t p).state = .runnable)

section Draws
variable {t : Table}

theorem scan_pick (ticketed : Ticketed t) (n : Nat) (l : List (Fin NPROC)) {count : Nat}
    (small : count + l.length * 15 < 2 ^ 32) : scan t n l count = pick (weights t l) (n - count) := by
  induction l generalizing count with
  | nil => simp [scan, weights, pick]
  | cons p rest ih =>
    rw [List.length_cons] at small
    by_cases runnable : (t p).state = .runnable
    · obtain ⟨low,high⟩ := ticketed_runnable ticketed runnable
      rw [scan_take runnable, addTickets_small count low (by omega), weights_take runnable]
      unfold pick
      by_cases more : count + (t p).tickets.toNat < n
      · rw [if_pos more, if_pos (by omega), ih (by omega), Nat.sub_sub]
      · rw [if_neg more, if_neg (by omega)]
    · rw [scan_skip runnable, ih (by omega), weights_skip runnable]

theorem winner_pick (ticketed : Ticketed t) (n : Nat) :
    winner t n = pick (weights t (List.finRange NPROC)) n := by
  have small := prefix_small (List.prefix_refl (List.finRange NPROC))
  exact scan_pick ticketed n (List.finRange NPROC) (by omega)

/-- `random_at_most` accepts whole bins. -/
theorem accepted_bins {max : Nat} (small : max ≤ RAND_MAX) (x : Nat) :
    accepted max x = true ↔ x < (max + 1) * binSize max := by
  have bins : numBins max = max + 1 := by
    unfold numBins uint RAND_MAX at *
    omega
  have whole := Nat.div_add_mod numRand (max + 1)
  unfold accepted binSize defect
  rw [bins]
  simp only [decide_eq_true_eq]
  omega

theorem lottery_one (ticketed : Ticketed t) (x : Nat) (p : Fin NPROC) :
    lottery t [x] = some (some p) ↔ x < (ticketSum t + 1) * binSize (ticketSum t) ∧
      pick (weights t (List.finRange NPROC)) (x / binSize (ticketSum t)) = some p := by
  have range := inRange_of_ticketed ticketed
  rw [← accepted_bins range.argument]
  unfold lottery randomAtMost
  rw [if_neg range.bins]
  cases taken : accepted (ticketSum t) x with
  | true => simp [taken, winner_pick ticketed]
  | false => simp [taken]

theorem weights_first (t : Table) :
    (firstRunnable t = none ∧ weights t (List.finRange NPROC) = []) ∨
    ∃ first rest, firstRunnable t = some first ∧
      weights t (List.finRange NPROC) = (first, (t first).tickets.toNat) :: rest := by
  have head := List.head?_filter (p := fun p => decide ((t p).state = .runnable))
    (l := List.finRange NPROC)
  unfold firstRunnable weights
  rw [← head]
  cases (List.finRange NPROC).filter fun p => decide ((t p).state = .runnable) with
  | nil => exact Or.inl ⟨rfl,rfl⟩
  | cons first rest => exact Or.inr ⟨first, _, rfl, rfl⟩

theorem mem_weights {p : Fin NPROC} (runnable : (t p).state = .runnable) :
    (p, (t p).tickets.toNat) ∈ weights t (List.finRange NPROC) := by
  unfold weights
  exact List.mem_map.mpr ⟨p, by simp [runnable], rfl⟩

theorem weights_distinct (t : Table) : ((weights t (List.finRange NPROC)).map Prod.fst).Nodup := by
  have keys : (weights t (List.finRange NPROC)).map Prod.fst =
      (List.finRange NPROC).filter fun p => decide ((t p).state = .runnable) := by
    unfold weights
    rw [List.map_map]
    exact List.map_id _
  rw [keys]
  exact (List.nodup_finRange NPROC).filter _

/-- A process is selected by one bin for each of its tickets, and the first RUNNABLE
    process by one more. -/
theorem selections_eq (ticketed : Ticketed t) {p : Fin NPROC} (runnable : (t p).state = .runnable) :
    selections t p =
      ((t p).tickets.toNat + if firstRunnable t = some p then 1 else 0) * binSize (ticketSum t) := by
  obtain ⟨sum,_⟩ := ticketSum_total ticketed
  have range := inRange_of_ticketed ticketed
  have pos : 0 < binSize (ticketSum t) := Nat.pos_of_ne_zero range.bins
  have fits : (ticketSum t + 1) * binSize (ticketSum t) ≤ numRand := by
    have bins : numBins (ticketSum t) = ticketSum t + 1 := by
      have argument := range.argument
      unfold numBins uint RAND_MAX at *
      omega
    unfold binSize
    rw [bins]
    exact Nat.mul_div_le numRand _
  have same : ((Finset.range numRand).filter fun x => lottery t [x] = some (some p)) =
      (Finset.range ((ticketSum t + 1) * binSize (ticketSum t))).filter fun x =>
        pick (weights t (List.finRange NPROC)) (x / binSize (ticketSum t)) = some p := by
    ext x
    simp only [Finset.mem_filter, Finset.mem_range, lottery_one ticketed]
    constructor
    · rintro ⟨_,inside,picked⟩
      exact ⟨inside,picked⟩
    · rintro ⟨inside,picked⟩
      exact ⟨by omega, inside, picked⟩
  unfold selections
  rw [same, card_bins (fun d => pick (weights t (List.finRange NPROC)) d = some p) _ pos]
  congr 1
  have member := mem_weights runnable
  have distinct := weights_distinct t
  rw [sum]
  rcases weights_first t with ⟨_,none⟩ | ⟨first,rest,head,list⟩
  · simp [none] at member
  · rw [list] at member distinct ⊢
    rw [card_pick_range distinct member, head]
    simp [eq_comm]

theorem firstRunnable_runnable {first : Fin NPROC} (head : firstRunnable t = some first) :
    (t first).state = .runnable := by
  have hit := List.find?_some head
  simpa using hit

theorem firstRunnable_some {p : Fin NPROC} (runnable : (t p).state = .runnable) :
    ∃ first, firstRunnable t = some first := by
  rw [← Option.isSome_iff_exists]
  unfold firstRunnable
  rw [List.find?_isSome]
  exact ⟨p, List.mem_finRange p, by simp [runnable]⟩

/-- The extra bin of the first RUNNABLE process is out of proportion as soon as another
    process has a ticket. -/
theorem disproportional (ticketed : Ticketed t) {p : Fin NPROC} (runnable : (t p).state = .runnable)
    (some_ticket : 0 < (t p).tickets) (later : firstRunnable t ≠ some p) : ¬ Proportional t := by
  rintro ⟨factor,share⟩
  obtain ⟨first,head⟩ := firstRunnable_some runnable
  have ready := firstRunnable_runnable head
  have bins : (binSize (ticketSum t) : ℚ) ≠ 0 := by
    exact_mod_cast (inRange_of_ticketed ticketed).bins
  have whole : ∀ q, (t q).state = .runnable → (((t q).tickets.toNat : Nat) : ℚ) = (t q).tickets := by
    intro q now
    have nonneg := (ticketed_runnable ticketed now).1
    exact_mod_cast Int.toNat_of_nonneg nonneg
  have other := share p runnable
  rw [selections_eq ticketed runnable, if_neg later, Nat.add_zero, Nat.cast_mul, whole p runnable] at other
  have factor_eq : factor = binSize (ticketSum t) := by
    have tickets : ((t p).tickets : ℚ) ≠ 0 := by
      exact_mod_cast some_ticket.ne'
    exact mul_right_cancel₀ tickets (other.symm.trans (mul_comm _ _))
  have mine := share first ready
  rw [selections_eq ticketed ready, if_pos head, Nat.cast_mul, Nat.cast_add, whole first ready,
    factor_eq, add_mul, mul_comm (binSize (ticketSum t) : ℚ)] at mine
  apply bins
  simpa using mine

/-- Selection is in proportion to the tickets exactly when only the first RUNNABLE process
    of the table has any. -/
theorem proportional_iff_only_first (ticketed : Ticketed t)
    (drawn : ∃ p, (t p).state = .runnable ∧ 0 < (t p).tickets) :
    Proportional t ↔ ∀ p, (t p).state = .runnable → 0 < (t p).tickets → firstRunnable t = some p := by
  constructor
  · intro proportional p runnable some_ticket
    by_contra later
    exact disproportional ticketed runnable some_ticket later proportional
  · intro only
    obtain ⟨p,runnable,some_ticket⟩ := drawn
    have head := only p runnable some_ticket
    have tickets : ((t p).tickets : ℚ) ≠ 0 := by
      exact_mod_cast some_ticket.ne'
    refine ⟨selections t p / (t p).tickets, fun q now => ?_⟩
    by_cases same : q = p
    · rw [same, div_mul_cancel₀ _ tickets]
    · have none : (t q).tickets = 0 := by
        by_contra nonzero
        have nonneg := (ticketed_runnable ticketed now).1
        have also := only q now (by omega)
        rw [head, Option.some.injEq] at also
        exact same also.symm
      have later : firstRunnable t ≠ some q := by
        rw [head]
        simpa using Ne.symm same
      rw [selections_eq ticketed now, if_neg later, none, Int.toNat_zero, Nat.add_zero, Nat.zero_mul,
        Nat.cast_zero, Int.cast_zero, mul_zero]

end Draws

def ready (tickets : Int) : Proc := ⟨.runnable, 1, none, none, false, 0, 0, tickets, 0, 0⟩

def idle : Proc := ⟨.unused, 0, none, none, false, 0, 0, 0, 0, 0⟩

/-- Only the first RUNNABLE process has tickets. -/
def oneHolder : Table := fun p => if p = 3 then ready 7 else if p = 5 then ready 0 else idle

theorem oneHolder_ticketed : Ticketed oneHolder := by
  intro p
  unfold oneHolder
  split
  · simp [ready, MAXTICKET]
  · split
    · simp [ready, MAXTICKET]
    · simp [idle]

theorem proportional_iff_only_first_oneHolder : Ticketed oneHolder ∧
    (∃ p, (oneHolder p).state = .runnable ∧ 0 < (oneHolder p).tickets) ∧
    (Proportional oneHolder ↔ ∀ p, (oneHolder p).state = .runnable → 0 < (oneHolder p).tickets →
      firstRunnable oneHolder = some p) :=
  ⟨oneHolder_ticketed, ⟨3, by decide⟩, proportional_iff_only_first oneHolder_ticketed ⟨3, by decide⟩⟩

/-- Two processes with one ticket each. -/
def twoHolders : Table := fun p => if p = 0 ∨ p = 1 then ready 1 else idle

/-- Of 3 numbers the first process wins with 2. -/
theorem twoHolders_disproportional : Ticketed twoHolders ∧
    (∃ p, (twoHolders p).state = .runnable ∧ 0 < (twoHolders p).tickets) ∧
    ¬ Proportional twoHolders := by
  have ticketed : Ticketed twoHolders := by
    intro p
    unfold twoHolders
    split
    · simp [ready, MAXTICKET]
    · simp [idle]
  refine ⟨ticketed, ⟨0, by decide⟩, ?_⟩
  apply disproportional ticketed (p := 1)
  · decide
  · decide
  · decide

end LotteryDraw
