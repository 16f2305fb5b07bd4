import Mathlib.Data.Finset.Card
import Mathlib.Algebra.BigOperators.Group.Finset.Basic

/- How the number of indices with a property moves when the property moves at one
   index, for counters that a program keeps beside the objects they count. -/
namespace Counting
variable {ι : Type} [DecidableEq ι]

theorem card_filter_erase (S : Finset ι) (P : ι → Prop) [DecidablePred P] {i : ι}
    (mem : i ∈ S) :
    (S.filter P).card = ((S.erase i).filter P).card + if P i then 1 else 0 := by
  conv_lhs => rw [← Finset.insert_erase mem, Finset.filter_insert]
  split
  · rw [Finset.card_insert_of_notMem (by simp)]
  · rfl

theorem card_filter_change (S : Finset ι) (P Q : ι → Prop) [DecidablePred P]
    [DecidablePred Q] {i : ι} (mem : i ∈ S) (agree : ∀ j ∈ S, j ≠ i → (Q j ↔ P j)) :
    (S.filter Q).card + (if P i then 1 else 0) = (S.filter P).card + if Q i then 1 else 0 := by
  have rest : (S.erase i).filter Q = (S.erase i).filter P := by
    refine Finset.filter_congr ?_
    intro j hj
    exact agree j (Finset.mem_of_mem_erase hj) (Finset.ne_of_mem_erase hj)
  rw [card_filter_erase S P mem, card_filter_erase S Q mem, rest]
  omega

theorem sum_change (S : Finset ι) (f g : ι → Nat) {i : ι} (mem : i ∈ S)
    (agree : ∀ j ∈ S, j ≠ i → g j = f j) : ∑ j ∈ S, g j + f i = ∑ j ∈ S, f j + g i := by
  have rest : ∑ j ∈ S.erase i, g j = ∑ j ∈ S.erase i, f j := by
    refine Finset.sum_congr rfl ?_
    intro j hj
    exact agree j (Finset.mem_of_mem_erase hj) (Finset.ne_of_mem_erase hj)
  have splitF := Finset.add_sum_erase S f mem
  have splitG := Finset.add_sum_erase S g mem
  omega

end Counting
