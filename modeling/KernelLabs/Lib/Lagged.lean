import Mathlib.Data.List.Basic
import Mathlib.Logic.Function.Basic

/- Sequences in which an element comes from three earlier ones (`n` places back, the one after that, and
   `n - m` places back), and an array of `n` places that is renewed in place, round after round. -/
namespace Lagged
variable {α : Type}

def Follows (f : α → α → α → α) (n m : Nat) (x : Nat → α) : Prop :=
  ∀ k, x (k + n) = f (x k) (x (k + 1)) (x (k + m))

/-- The array has the `n` elements from `base` on, and below `k` those of the round after. -/
def Renewed (n : Nat) (x : Nat → α) (base k : Nat) (a : Nat → α) : Prop :=
  ∀ j, j < n → a j = x (base + j + if j < k then n else 0)

def turn (f : α → α → α → α) (n m : Nat) (a : Nat → α) (k : Nat) : Nat → α :=
  Function.update a k (f (a k) (a ((k + 1) % n)) (a ((k + m) % n)))

/-- All places from 0 on. -/
def sweep (f : α → α → α → α) (n m : Nat) (a : Nat → α) : Nat → α := (List.range n).foldl (turn f n m) a

variable {f : α → α → α → α} {n m base k : Nat} {x a : Nat → α}

/-- A place ahead has its old element, one behind, across the end of the array, its new one. -/
theorem Renewed.ahead (renewed : Renewed n x base k a) (here : k < n) {d : Nat} (some : 0 < d) (short : d < n) :
    a ((k + d) % n) = x (base + k + d) := by
  by_cases inside : k + d < n
  · rw [Nat.mod_eq_of_lt inside, renewed _ inside, if_neg (by omega), Nat.add_zero, Nat.add_assoc]
  · have place : (k + d) % n = k + d - n := by
      rw [Nat.mod_eq_sub_mod (by omega), Nat.mod_eq_of_lt (by omega)]
    rw [place, renewed _ (by omega), if_pos (by omega)]
    congr 1
    omega

theorem Renewed.turn (follows : Follows f n m x) (large : 1 < n) (some : 0 < m) (short : m < n)
    (renewed : Renewed n x base k a) (here : k < n) : Renewed n x base (k + 1) (turn f n m a k) := by
  intro j low
  unfold Lagged.turn
  by_cases mine : j = k
  · subst mine
    rw [Function.update_self, renewed.ahead here (by decide) large, renewed.ahead here some short, renewed j here,
      if_neg (Nat.lt_irrefl j), if_pos (Nat.lt_succ_self j), follows]
    rfl
  · rw [Function.update_of_ne mine, renewed j low]
    congr 2
    by_cases old : j < k
    · rw [if_pos old, if_pos (Nat.lt_succ_of_lt old)]
    · rw [if_neg old, if_neg (by omega)]

theorem turns_renewed (follows : Follows f n m x) (large : 1 < n) (some : 0 < m) (short : m < n)
    (start : Renewed n x base 0 a) (k : Nat) (inside : k ≤ n) :
    Renewed n x base k ((List.range k).foldl (turn f n m) a) := by
  induction k with
  | zero => exact start
  | succ k ih =>
    rw [List.range_succ, List.foldl_append]
    exact (ih (Nat.le_of_succ_le inside)).turn follows large some short inside

/-- After a sweep the array has the next `n` elements. -/
theorem sweep_renewed (follows : Follows f n m x) (large : 1 < n) (some : 0 < m) (short : m < n)
    (start : Renewed n x base 0 a) : Renewed n x (base + n) 0 (sweep f n m a) := by
  intro j low
  have last := turns_renewed follows large some short start n (Nat.le_refl n) j low
  rw [if_pos low] at last
  rw [if_neg (Nat.not_lt_zero j), Nat.add_zero, Nat.add_right_comm]
  exact last

end Lagged
