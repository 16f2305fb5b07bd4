import Mathlib.Algebra.BigOperators.Intervals
import Mathlib.Algebra.Group.Action.Defs
import Mathlib.Order.Interval.Finset.Nat

/- Drawing an entry of a weighted list by the first running sum that reaches a number,
   and how many numbers draw each entry. Numbers from 1 to the total draw every entry
   as often as its weight; 0 draws the first entry once more. -/
namespace TicketDraw
variable {α : Type}

def pick : List (α × Nat) → Nat → Option α
  | [], _ => none
  | (a, w) :: rest, d => if w < d then pick rest (d - w) else some a

def total (l : List (α × Nat)) : Nat := (l.map Prod.snd).sum

theorem total_cons (a : α) (w : Nat) (rest : List (α × Nat)) :
    total ((a, w) :: rest) = w + total rest := by simp [total]

theorem pick_mem {l : List (α × Nat)} {d : Nat} {a : α} (picked : pick l d = some a) :
    a ∈ l.map Prod.fst := by
  induction l generalizing d with
  | nil => simp [pick] at picked
  | cons head rest ih =>
    unfold pick at picked
    split at picked
    · exact List.mem_cons_of_mem _ (ih picked)
    · simp only [Option.some.injEq] at picked
      simp [picked]

theorem pick_zero (a : α) (w : Nat) (rest : List (α × Nat)) : pick ((a, w) :: rest) 0 = some a := by
  simp [pick]

section Count
variable [DecidableEq α]

theorem card_pick {l : List (α × Nat)} (distinct : (l.map Prod.fst).Nodup) {a : α} {w : Nat}
    (member : (a, w) ∈ l) :
    ((Finset.Icc 1 (total l)).filter fun d => pick l d = some a).card = w := by
  induction l with
  | nil => simp at member
  | cons head rest ih =>
    obtain ⟨b,v⟩ := head
    simp only [List.map_cons, List.nodup_cons] at distinct
    rcases List.mem_cons.mp member with same | later
    · simp only [Prod.mk.injEq] at same
      obtain ⟨rfl,rfl⟩ := same
      have first : ((Finset.Icc 1 (total ((a, w) :: rest))).filter fun d =>
          pick ((a, w) :: rest) d = some a) = Finset.Icc 1 w := by
        ext d
        simp only [Finset.mem_filter, Finset.mem_Icc, total_cons, pick]
        constructor
        · rintro ⟨⟨low,_⟩,picked⟩
          split at picked
          · exact absurd (pick_mem picked) distinct.1
          · omega
        · rintro ⟨low,high⟩
          exact ⟨by omega, by rw [if_neg (by omega)]⟩
      rw [first]
      simp
    · have other : b ≠ a := by
        intro same
        exact distinct.1 (same ▸ List.mem_map_of_mem later)
      have moved : ((Finset.Icc 1 (total ((b, v) :: rest))).filter fun d =>
          pick ((b, v) :: rest) d = some a) =
          ((Finset.Icc 1 (total rest)).filter fun d => pick rest d = some a).map
            (addRightEmbedding v) := by
        ext d
        simp only [Finset.mem_filter, Finset.mem_Icc, total_cons, pick, Finset.mem_map,
          addRightEmbedding_apply]
        constructor
        · rintro ⟨⟨low,high⟩,picked⟩
          split at picked
          · exact ⟨d - v, ⟨by omega, picked⟩, by omega⟩
          · simp [other] at picked
        · rintro ⟨e,⟨⟨low,high⟩,picked⟩,rfl⟩
          refine ⟨by omega, ?_⟩
          rw [if_pos (by omega), Nat.add_sub_cancel]
          exact picked
      rw [moved, Finset.card_map]
      exact ih distinct.2 later

/-- How many of the numbers from 0 to the total draw entry `a`. -/
theorem card_pick_range {first : α} {v : Nat} {rest : List (α × Nat)}
    (distinct : (((first, v) :: rest).map Prod.fst).Nodup) {a : α} {w : Nat}
    (member : (a, w) ∈ (first, v) :: rest) :
    ((Finset.range (total ((first, v) :: rest) + 1)).filter fun d =>
      pick ((first, v) :: rest) d = some a).card = w + if a = first then 1 else 0 := by
  have zero : Finset.range (total ((first, v) :: rest) + 1) =
      insert 0 (Finset.Icc 1 (total ((first, v) :: rest))) := by
    ext d
    simp only [Finset.mem_range, Finset.mem_insert, Finset.mem_Icc]
    omega
  rw [zero, Finset.filter_insert, pick_zero]
  split
  · rename_i same
    rw [Option.some.injEq] at same
    rw [Finset.card_insert_of_notMem (by simp), card_pick distinct member, if_pos same.symm]
  · rename_i other
    rw [Option.some.injEq] at other
    rw [card_pick distinct member, if_neg (Ne.symm other), Nat.add_zero]

end Count

/-- Bins of equal size: `n` bins of `b` numbers each. -/
theorem card_bins (P : Nat → Prop) [DecidablePred P] (n : Nat) {b : Nat} (pos : 0 < b) :
    ((Finset.range (n * b)).filter fun x => P (x / b)).card = ((Finset.range n).filter P).card * b := by
  induction n with
  | zero => simp
  | succ n ih =>
    have last : ∑ x ∈ Finset.range b, (if P ((n * b + x) / b) then 1 else 0) = if P n then b else 0 := by
      have bin : ∀ x ∈ Finset.range b, (if P ((n * b + x) / b) then 1 else 0) = if P n then 1 else 0 := by
        intro x small
        rw [Finset.mem_range] at small
        rw [Nat.add_comm, Nat.add_mul_div_right _ _ pos, Nat.div_eq_of_lt small, Nat.zero_add]
      rw [Finset.sum_congr rfl bin, Finset.sum_const, Finset.card_range, smul_eq_mul]
      split <;> simp
    rw [Finset.card_filter] at ih ⊢
    rw [Nat.succ_mul, Finset.sum_range_add, ih, last, Finset.range_add_one, Finset.filter_insert]
    split
    · rw [Finset.card_insert_of_notMem (by simp), Nat.succ_mul]
    · rw [Nat.add_zero]

end TicketDraw
