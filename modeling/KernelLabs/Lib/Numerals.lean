import Mathlib.Data.Nat.Digits.Lemmas

/- Numerals in any base: the digits of a number, most significant first, and the number they stand for. -/
namespace Numerals

/-- The digits of `n` without leading zeros, and a single 0 for 0. -/
def numeral (b n : Nat) : List Nat := if n = 0 then [0] else (b.digits n).reverse

/-- What the digits stand for behind a value `v` that is read already. -/
def value (b v : Nat) (digits : List Nat) : Nat := digits.foldl (fun v d => v * b + d) v

variable {b n v : Nat}

theorem numeral_small (small : n < b) : numeral b n = [n] := by
  unfold numeral
  split
  · rename_i zero
    rw [zero]
  · rename_i more
    rw [Nat.digits_of_lt b n more small, List.reverse_singleton]

theorem numeral_step (base : 1 < b) (large : b ≤ n) : numeral b n = numeral b (n / b) ++ [n % b] := by
  have more : n ≠ 0 := by omega
  have left : n / b ≠ 0 := Nat.ne_of_gt (Nat.div_pos large (by omega))
  unfold numeral
  rw [if_neg more, if_neg left, Nat.digits_def' base (by omega), List.reverse_cons]

theorem numeral_pos (b n : Nat) : 0 < (numeral b n).length := by
  unfold numeral
  split
  · exact Nat.one_pos
  · rename_i more
    rw [List.length_reverse, List.length_pos_iff]
    exact Nat.digits_ne_nil_iff_ne_zero.mpr more

theorem numeral_lt (base : 1 < b) : ∀ d ∈ numeral b n, d < b := by
  intro d member
  unfold numeral at member
  split at member
  · rw [List.mem_singleton.mp member]
    omega
  · exact Nat.digits_lt_base base (List.mem_reverse.mp member)

theorem value_cons (d : Nat) (digits : List Nat) : value b v (d :: digits) = value b (v * b + d) digits := rfl

/-- Digits read later do not make the value less. -/
theorem le_value (base : 0 < b) (digits : List Nat) (v : Nat) : v ≤ value b v digits := by
  induction digits generalizing v with
  | nil => exact Nat.le_refl v
  | cons d digits ih =>
    calc v ≤ v * b := Nat.le_mul_of_pos_right v base
      _ ≤ v * b + d := Nat.le_add_right _ _
      _ ≤ value b v (d :: digits) := ih _

theorem value_numeral (b n : Nat) : value b 0 (numeral b n) = n := by
  unfold numeral value
  split
  · rename_i zero
    rw [zero]
    simp
  · rw [List.foldl_reverse]
    have horner := Nat.ofDigits_digits b n
    rw [Nat.ofDigits_eq_foldr] at horner
    refine Eq.trans ?_ horner
    congr 1
    funext d v
    rw [Nat.mul_comm, Nat.add_comm]
    rfl

/-- A number below a power of the base has no more digits than that. -/
theorem numeral_length_le {k : Nat} (base : 1 < b) (some : 0 < k) (small : n < b ^ k) : (numeral b n).length ≤ k := by
  unfold numeral
  split
  · exact some
  · rename_i more
    rw [List.length_reverse]
    exact (Nat.digits_length_le_iff base n).mpr small

end Numerals
