import Mathlib.Algebra.BigOperators.Group.Finset.Basic
import Mathlib.Algebra.Order.BigOperators.Group.Finset
import KernelLabs.Lib.Counting

/- Reference counts as sums of the shares of their owners. A step of one owner that moves a
   count by what its own share moves keeps the sums. -/
namespace Shares
variable {π φ : Type} [Fintype π] {ref ref' : φ → Nat} {share share' : π → φ → Nat}

def Counted (ref : φ → Nat) (share : π → φ → Nat) : Prop := ∀ f, ref f = ∑ p, share p f

theorem Counted.local [DecidableEq π] (counted : Counted ref share) (p : π) (others : ∀ q, q ≠ p → share' q = share q)
    (moves : ∀ f, ref' f + share p f = ref f + share' p f) : Counted ref' share' := by
  intro f
  have change := Counting.sum_change Finset.univ (fun q => share q f) (fun q => share' q f) (Finset.mem_univ p)
    fun q _ away => congrFun (others q away) f
  have before := counted f
  have move := moves f
  omega

theorem Counted.share_le (counted : Counted ref share) (p : π) (f : φ) : share p f ≤ ref f := by
  rw [counted f]
  exact Finset.single_le_sum (fun q _ => Nat.zero_le (share q f)) (Finset.mem_univ p)

/-- A count that one owner has in full leaves nothing to the others. -/
theorem Counted.sole [DecidableEq π] (counted : Counted ref share) {p : π} {f : φ} (full : ref f ≤ share p f) {q : π}
    (away : q ≠ p) : share q f = 0 := by
  have total := counted f
  rw [← Finset.add_sum_erase Finset.univ (fun q => share q f) (Finset.mem_univ p)] at total
  have part : share q f ≤ ∑ q ∈ Finset.univ.erase p, share q f :=
    Finset.single_le_sum (fun q _ => Nat.zero_le (share q f)) (Finset.mem_erase.mpr ⟨away, Finset.mem_univ q⟩)
  omega

end Shares
