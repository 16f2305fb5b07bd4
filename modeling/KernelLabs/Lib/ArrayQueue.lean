import Mathlib.Data.List.Perm.Basic
import Mathlib.Logic.Function.Basic

/- A queue kept in an array with the index of its last entry, as C code keeps one:
   `size` is -1 when the queue is empty, and taking an entry out moves the later ones
   down one place. `entries` is the list the array stands for. -/
namespace ArrayQueue
variable {α : Type}

structure Queue (α : Type) where
  cell : Nat → Option α
  size : Int

namespace Queue

def empty : Queue α := ⟨fun _ => none, -1⟩

def count (q : Queue α) : Nat := (q.size + 1).toNat

def entries (q : Queue α) : List (Option α) := (List.range q.count).map q.cell

def push (q : Queue α) (a : α) : Queue α :=
  let size := q.size + 1
  ⟨Function.update q.cell size.toNat (some a), size⟩

/-- `n` turns of the loop that copies `cell[j + 1]` to `cell[j]`, from `j = k` up. -/
def shift (cell : Nat → Option α) (k : Nat) : Nat → Nat → Option α
  | 0 => cell
  | n + 1 => Function.update (shift cell k n) (k + n) (shift cell k n (k + n + 1))

def removeAt (q : Queue α) (k : Nat) : Queue α :=
  ⟨shift q.cell k (q.size - k).toNat, q.size - 1⟩

theorem length_entries (q : Queue α) : q.entries.length = q.count := by simp [entries]

theorem getElem?_entries (q : Queue α) (k : Nat) :
    q.entries[k]? = if k < q.count then some (q.cell k) else none := by
  unfold entries
  rw [List.getElem?_map]
  split
  · rename_i low
    rw [List.getElem?_range low]
    rfl
  · rename_i high
    rw [List.getElem?_eq_none (by simpa using high)]
    rfl

theorem mem_entries {q : Queue α} {x : Option α} : x ∈ q.entries ↔ ∃ k, k < q.count ∧ q.cell k = x := by
  simp [entries]

theorem shift_apply (cell : Nat → Option α) (k n j : Nat) :
    shift cell k n j = if k ≤ j ∧ j < k + n then cell (j + 1) else cell j := by
  induction n generalizing j with
  | zero =>
    simp only [shift]
    rw [if_neg (by omega)]
  | succ n ih =>
    simp only [shift]
    by_cases last : j = k + n
    · subst last
      rw [Function.update_self, ih, if_neg (by omega), if_pos (by omega)]
    · rw [Function.update_of_ne last, ih]
      by_cases inside : k ≤ j ∧ j < k + n
      · rw [if_pos inside, if_pos (by omega)]
      · rw [if_neg inside, if_neg (by omega)]

theorem count_push {q : Queue α} (sized : -1 ≤ q.size) (a : α) : (q.push a).count = q.count + 1 := by
  simp only [push, count]
  omega

theorem entries_push {q : Queue α} (sized : -1 ≤ q.size) (a : α) :
    (q.push a).entries = q.entries ++ [some a] := by
  have last : q.count = (q.size + 1).toNat := rfl
  unfold entries
  rw [count_push sized, List.range_succ, List.map_append, List.map_singleton]
  congr 1
  · apply List.map_congr_left
    intro k low
    rw [List.mem_range] at low
    simp only [push]
    rw [Function.update_of_ne (by omega)]
  · simp [push, last]

theorem count_removeAt {q : Queue α} {k : Nat} (inside : k < q.count) :
    (q.removeAt k).count + 1 = q.count := by
  simp only [removeAt, count] at *
  omega

theorem entries_removeAt {q : Queue α} {k : Nat} (inside : k < q.count) :
    (q.removeAt k).entries = q.entries.eraseIdx k := by
  have fewer := count_removeAt inside
  have sized : q.size + 1 = q.count := by
    simp only [count] at inside ⊢
    omega
  have moved : ∀ j, (q.removeAt k).cell j =
      if k ≤ j ∧ j < k + (q.size - k).toNat then q.cell (j + 1) else q.cell j :=
    shift_apply q.cell k (q.size - k).toNat
  apply List.ext_getElem?
  intro j
  rw [getElem?_entries, List.getElem?_eraseIdx, getElem?_entries, getElem?_entries, moved]
  by_cases low : j < k
  · have outside : ¬ (k ≤ j ∧ j < k + (q.size - k).toNat) := by omega
    have inBoth : j < (q.removeAt k).count ∧ j < q.count := by omega
    rw [if_neg outside, if_pos low, if_pos inBoth.1, if_pos inBoth.2]
  · rw [if_neg low]
    by_cases inQueue : j + 1 < q.count
    · have between : k ≤ j ∧ j < k + (q.size - k).toNat := by omega
      have inRest : j < (q.removeAt k).count := by omega
      rw [if_pos between, if_pos inRest, if_pos inQueue]
    · have outside : ¬ j < (q.removeAt k).count := by omega
      rw [if_neg outside, if_neg inQueue]

theorem size_removeAt (q : Queue α) (k : Nat) : (q.removeAt k).size = q.size - 1 := rfl

theorem size_push (q : Queue α) (a : α) : (q.push a).size = q.size + 1 := rfl

end Queue
end ArrayQueue
