import Mathlib.Logic.Function.Basic

/-!
Values that are stored one after the other below a limit, in a memory with integer addresses: what
a run of stores leaves, however many values there are.
-/
namespace BoundedWriter

abbrev Memory (V : Type) : Type := Int → V

variable {V : Type}

/-- The values `vs` stand from address `a` on, and everything else is as it was. -/
def written (mem : Memory V) (a : Int) (vs : List V) : Memory V :=
  fun x => if a ≤ x then (vs[(x - a).toNat]?).getD (mem x) else mem x

/-- The next value is stored when there is room before the limit. -/
def store (limit : Int) (s : Memory V × Int) (v : V) : Memory V × Int :=
  if s.2 < limit then (Function.update s.1 s.2 v, s.2 + 1) else s

variable {mem : Memory V} {a x limit : Int} {v : V} {vs : List V} {i : Nat}

theorem written_nil (mem : Memory V) (a : Int) : written mem a [] = mem := by
  funext x
  simp [written]

theorem written_at (inside : i < vs.length) : written mem a vs (a + i) = vs[i] := by
  have place : (a + i - a).toNat = i := by omega
  unfold written
  rw [if_pos (by omega), place, List.getElem?_eq_getElem inside, Option.getD_some]

theorem written_out (outside : x < a ∨ a + vs.length ≤ x) : written mem a vs x = mem x := by
  unfold written
  split
  · rw [List.getElem?_eq_none (by omega), Option.getD_none]
  · rfl

theorem written_cons (mem : Memory V) (a : Int) (v : V) (vs : List V) :
    written (Function.update mem a v) (a + 1) vs = written mem a (v :: vs) := by
  funext x
  unfold written
  rcases Int.lt_trichotomy x a with below | same | above
  · rw [if_neg (by omega), if_neg (by omega), Function.update_of_ne (by omega)]
  · rw [if_neg (by omega), if_pos (by omega), same, Function.update_self, Int.sub_self]
    rfl
  · rw [if_pos (by omega), if_pos (by omega), Function.update_of_ne (by omega)]
    rw [show (x - a).toNat = (x - (a + 1)).toNat + 1 by omega, List.getElem?_cons_succ]

theorem written_end (mem : Memory V) (a : Int) (vs : List V) (v : V) :
    Function.update (written mem a vs) (a + vs.length) v = written mem a (vs ++ [v]) := by
  induction vs generalizing mem a with
  | nil =>
    rw [written_nil, List.nil_append, ← written_cons, written_nil, List.length_nil]
    simp
  | cons w vs ih =>
    have place : a + ((w :: vs).length : Int) = a + 1 + (vs.length : Int) := by
      rw [List.length_cons]
      omega
    rw [← written_cons, place, ih, written_cons, List.cons_append]

theorem store_full (full : limit ≤ a) : store limit (mem, a) v = (mem, a) := if_neg (by omega)

/-- A run of stores keeps the values that have room, in order. -/
theorem stores_written (room : a ≤ limit) (vs : List V) : vs.foldl (store limit) (mem, a) =
    (written mem a (vs.take (limit - a).toNat), a + (vs.take (limit - a).toNat).length) := by
  induction vs generalizing mem a with
  | nil => simp [written_nil]
  | cons v vs ih =>
    rw [List.foldl_cons]
    by_cases full : limit ≤ a
    · have none : (limit - a).toNat = 0 := by omega
      rw [store_full full, ih room, none, List.take_zero, List.take_zero]
    · have one : store limit (mem, a) v = (Function.update mem a v, a + 1) := if_pos (by omega)
      have count : (limit - a).toNat = (limit - (a + 1)).toNat + 1 := by omega
      rw [one, ih (by omega), count, List.take_succ_cons, written_cons, List.length_cons]
      congr 1
      push_cast
      omega

end BoundedWriter
