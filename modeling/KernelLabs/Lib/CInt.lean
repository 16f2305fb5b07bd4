import Mathlib.Algebra.Ring.Int.Defs
import Mathlib.Algebra.Ring.Nat
import Mathlib.Data.Int.Init

/- The type `int` of 32 bits, which wraps around. -/
namespace CInt

def int32 (x : Int) : Int := x.bmod (2 ^ 32)

/-- The numbers that an `int` can have. -/
def InRange (x : Int) : Prop := -2 ^ 31 ≤ x ∧ x < 2 ^ 31

variable {x y : Int}

theorem int32_of_range (range : InRange x) : int32 x = x := by
  unfold InRange at range
  exact Int.bmod_eq_of_le_mul_two (by omega) (by omega)

theorem int32_range (x : Int) : InRange (int32 x) := by
  have low := Int.le_bmod (x := x) (m := 2 ^ 32) (by decide)
  have high := Int.bmod_lt (x := x) (m := 2 ^ 32) (by decide)
  unfold InRange int32
  omega

theorem int32_sub (x y : Int) : int32 (int32 x - y) = int32 (x - y) := Int.bmod_sub_bmod

theorem int32_add (x y : Int) : int32 (int32 x + y) = int32 (x + y) := Int.bmod_add_bmod

/-- Below the range the number wraps to a large one. -/
theorem int32_wrap (low : -2 ^ 32 ≤ x) (below : x < -2 ^ 31) : int32 x = x + 2 ^ 32 := by
  have same : int32 (x + 2 ^ 32) = int32 x := Int.add_bmod_right x (2 ^ 32)
  rw [← same]
  exact int32_of_range ⟨by omega, by omega⟩

end CInt
