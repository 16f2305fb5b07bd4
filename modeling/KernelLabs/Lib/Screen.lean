import Mathlib.Logic.Function.Basic
import Mathlib.Data.List.Basic

/- A text screen: rows of cells, one behind the other, and a cursor. When the cursor has left the
   last row, all rows move up. -/
namespace Screen
variable {α : Type}

structure Text (α : Type) where
  cells : Nat → α
  pos : Nat

def put (s : Text α) (c : α) : Text α := ⟨Function.update s.cells s.pos c, s.pos + 1⟩

/-- The cell before the cursor is blanked. -/
def rub (s : Text α) (blank : α) : Text α := ⟨Function.update s.cells (s.pos - 1) blank, s.pos - 1⟩

/-- The rows, of `w` cells each and `n` cells together, move up by one. -/
def scroll (w n : Nat) (blank : α) (s : Text α) : Text α :=
  ⟨fun j => if j + w < n then s.cells (j + w) else if j < n then blank else s.cells j, s.pos - w⟩

/-- The list stands before the cursor. -/
def Shows (s : Text α) (l : List α) : Prop :=
  ∃ a, a + l.length = s.pos ∧ ∀ i c, l[i]? = some c → s.cells (a + i) = c

section Lines
variable {s : Text α} {l : List α} {c blank : α} {w n : Nat}

theorem shows_nil (s : Text α) : Shows s [] := ⟨s.pos, rfl, fun _ _ none => by simp at none⟩

theorem Shows.length_le (shows : Shows s l) : l.length ≤ s.pos := by
  obtain ⟨a,place,_⟩ := shows
  omega

theorem shows_put (shows : Shows s l) : Shows (put s c) (l ++ [c]) := by
  obtain ⟨a,place,same⟩ := shows
  refine ⟨a, ?_, fun i x here => ?_⟩
  · rw [List.length_append, List.length_singleton, ← Nat.add_assoc, place]
    rfl
  · rcases Nat.lt_or_ge i l.length with front | last
    · rw [List.getElem?_append_left front] at here
      have other : a + i ≠ s.pos := by omega
      change Function.update s.cells s.pos c (a + i) = x
      rw [Function.update_of_ne other]
      exact same i x here
    · have low := (List.getElem?_eq_some_iff.mp here).1
      rw [List.length_append, List.length_singleton] at low
      obtain rfl : i = l.length := by omega
      rw [List.getElem?_concat_length, Option.some.injEq] at here
      change Function.update s.cells s.pos c (a + l.length) = x
      rw [place, Function.update_self, here]

theorem shows_rub (shows : Shows s (l ++ [c])) : Shows (rub s blank) l := by
  obtain ⟨a,place,same⟩ := shows
  rw [List.length_append, List.length_singleton] at place
  refine ⟨a, ?_, fun i x here => ?_⟩
  · change a + l.length = s.pos - 1
    omega
  · have low := (List.getElem?_eq_some_iff.mp here).1
    have other : a + i ≠ s.pos - 1 := by omega
    change Function.update s.cells (s.pos - 1) blank (a + i) = x
    rw [Function.update_of_ne other]
    exact same i x (by rw [List.getElem?_append_left low, here])

/-- What is shorter than the rows that stay moves up with them. -/
theorem shows_scroll (shows : Shows s l) (inside : s.pos ≤ n) (short : l.length + w ≤ s.pos) :
    Shows (scroll w n blank s) l := by
  obtain ⟨a,place,same⟩ := shows
  refine ⟨a - w, ?_, fun i x here => ?_⟩
  · change a - w + l.length = s.pos - w
    omega
  · have low := (List.getElem?_eq_some_iff.mp here).1
    have sum : a - w + i + w = a + i := by omega
    change (if a - w + i + w < n then s.cells (a - w + i + w) else _) = x
    rw [sum, if_pos (by omega)]
    exact same i x here

end Lines
end Screen
