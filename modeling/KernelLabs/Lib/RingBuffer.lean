import Mathlib.Algebra.CharZero.Defs
import Mathlib.Algebra.Ring.Nat
import Mathlib.Data.List.Basic
import Mathlib.Logic.Function.Basic

/- A ring of `n` cells with two counters of `w` bits that run on and wrap around: the
   cell of a counter is its value modulo `n`. When `n` divides `2 ^ w` the ring is a queue
   of at most `n` entries, wherever the counters started. -/
namespace RingBuffer
variable {α : Type} {w n : Nat}

structure Buffer (α : Type) (w : Nat) where
  data : Nat → α
  nread : BitVec w
  nwrite : BitVec w

def count (r : Buffer α w) : Nat := (r.nwrite - r.nread).toNat

def contents (n : Nat) (r : Buffer α w) : List α :=
  (List.range (count r)).map fun k => r.data ((r.nread.toNat + k) % n)

def push (n : Nat) (r : Buffer α w) (a : α) : Buffer α w :=
  ⟨Function.update r.data (r.nwrite.toNat % n) a, r.nread, r.nwrite + 1⟩

def head (n : Nat) (r : Buffer α w) : α := r.data (r.nread.toNat % n)

def pop (r : Buffer α w) : Buffer α w := ⟨r.data, r.nread + 1, r.nwrite⟩

theorem length_contents (n : Nat) (r : Buffer α w) : (contents n r).length = count r := by
  simp [contents]

theorem count_cases (r : Buffer α w) :
    (r.nread.toNat ≤ r.nwrite.toNat ∧ count r = r.nwrite.toNat - r.nread.toNat) ∨
    (r.nwrite.toNat < r.nread.toNat ∧ count r = 2 ^ w + r.nwrite.toNat - r.nread.toNat) := by
  have first := r.nread.isLt
  have second := r.nwrite.isLt
  unfold count
  rw [BitVec.toNat_sub]
  generalize r.nread.toNat = i at *
  generalize r.nwrite.toNat = j at *
  generalize 2 ^ w = m at *
  by_cases order : i ≤ j
  · left
    have wraps : m - i + j = (j - i) + m := by omega
    rw [wraps, Nat.add_mod_right, Nat.mod_eq_of_lt (by omega)]
    exact ⟨order,rfl⟩
  · right
    rw [Nat.mod_eq_of_lt (by omega)]
    omega

theorem toNat_succ (i : BitVec w) :
    (i.toNat + 1 < 2 ^ w ∧ (i + 1).toNat = i.toNat + 1) ∨
    (i.toNat + 1 = 2 ^ w ∧ (i + 1).toNat = 0) := by
  have small := i.isLt
  have one : (1 : BitVec w).toNat = 1 % 2 ^ w := by simp
  rw [BitVec.toNat_add, one, Nat.add_mod_mod]
  by_cases last : i.toNat + 1 = 2 ^ w
  · right
    rw [last, Nat.mod_self]
    exact ⟨rfl,rfl⟩
  · left
    rw [Nat.mod_eq_of_lt (by omega)]
    exact ⟨by omega, rfl⟩

theorem count_zero (r : Buffer α w) : count r = 0 ↔ r.nread = r.nwrite := by
  rw [← BitVec.toNat_inj]
  have first := r.nread.isLt
  rcases count_cases r with ⟨order,eq⟩ | ⟨order,eq⟩ <;> omega

/-- The test for a full ring. -/
theorem count_full (r : Buffer α w) (small : n < 2 ^ w) :
    r.nwrite = r.nread + BitVec.ofNat w n ↔ count r = n := by
  have first := r.nread.isLt
  have second := r.nwrite.isLt
  rw [← BitVec.toNat_inj, BitVec.toNat_add, BitVec.toNat_ofNat, Nat.mod_eq_of_lt small]
  have sum : (r.nread.toNat + n) % 2 ^ w =
      if r.nread.toNat + n < 2 ^ w then r.nread.toNat + n else r.nread.toNat + n - 2 ^ w := by
    split
    · rename_i low
      exact Nat.mod_eq_of_lt low
    · rename_i high
      rw [Nat.mod_eq_sub_mod (by omega), Nat.mod_eq_of_lt (by omega)]
  rw [sum]
  rcases count_cases r with ⟨order,eq⟩ | ⟨order,eq⟩ <;> split <;> omega

theorem count_push (r : Buffer α w) (a : α) (room : count r + 1 < 2 ^ w) :
    count (push n r a) = count r + 1 := by
  have first := r.nread.isLt
  have before := count_cases r
  have after := count_cases (push n r a)
  have next := toNat_succ r.nwrite
  simp only [push] at after ⊢
  omega

theorem count_pop (r : Buffer α w) (some : 0 < count r) : count (pop r) + 1 = count r := by
  have second := r.nwrite.isLt
  have before := count_cases r
  have after := count_cases (pop r)
  have next := toNat_succ r.nread
  simp only [pop] at after ⊢
  omega

/-- The cell behind the last entry is the one of the write counter. -/
theorem slot_next (r : Buffer α w) (divides : n ∣ 2 ^ w) :
    (r.nread.toNat + count r) % n = r.nwrite.toNat % n := by
  rcases count_cases r with ⟨order,eq⟩ | ⟨order,eq⟩
  · rw [eq]
    congr 1
    omega
  · obtain ⟨k,whole⟩ := divides
    have sum : r.nread.toNat + count r = r.nwrite.toNat + n * k := by
      have first := r.nread.isLt
      omega
    rw [sum, Nat.add_mul_mod_self_left]

theorem slot_ne {i j k : Nat} (apart : j < k) (near : k < n) : (i + j) % n ≠ (i + k) % n := by
  intro same
  have gap : (i + k - (i + j)) % n = 0 := Nat.sub_mod_eq_zero_of_mod_eq same.symm
  rw [Nat.add_sub_add_left, Nat.mod_eq_of_lt (by omega)] at gap
  omega

theorem contents_push_fits (r : Buffer α w) (a : α) (divides : n ∣ 2 ^ w) (room : count r < n)
    (fits : count r + 1 < 2 ^ w) : contents n (push n r a) = contents n r ++ [a] := by
  unfold contents
  rw [count_push r a fits, List.range_succ, List.map_append, List.map_singleton]
  have next := slot_next r divides
  congr 1
  · apply List.map_congr_left
    intro k inside
    rw [List.mem_range] at inside
    have other := slot_ne (i := r.nread.toNat) inside room
    simp only [push]
    rw [Function.update_of_ne (next ▸ other)]
  · simp [push, next]

theorem contents_push (r : Buffer α w) (a : α) (divides : n ∣ 2 ^ w) (room : count r < n)
    (small : n < 2 ^ w) : contents n (push n r a) = contents n r ++ [a] :=
  contents_push_fits r a divides room (Nat.lt_of_le_of_lt room small)

theorem contents_pop (r : Buffer α w) (divides : n ∣ 2 ^ w) (some : 0 < count r) :
    contents n r = head n r :: contents n (pop r) := by
  have fewer := count_pop r some
  unfold contents head
  rw [← fewer, List.range_succ_eq_map, List.map_cons, List.map_map, Nat.add_zero]
  congr 1
  apply List.map_congr_left
  intro k _
  simp only [Function.comp, pop]
  rcases toNat_succ r.nread with ⟨_,eq⟩ | ⟨last,eq⟩
  · rw [eq]
    congr 2
    omega
  · obtain ⟨m,whole⟩ := divides
    have sum : r.nread.toNat + (k + 1) = k + n * m := by omega
    rw [eq, Nat.succ_eq_add_one, sum, Nat.zero_add, Nat.add_mul_mod_self_left]

/-- Where the counters have no bit to spare, one entry too many empties the ring. -/
theorem contents_over (r : Buffer α w) (a : α) (last : count r + 1 = 2 ^ w) : contents n (push n r a) = [] := by
  have none : (push n r a).nread = (push n r a).nwrite := by
    have first := r.nread.isLt
    have second := r.nwrite.isLt
    have before := count_cases r
    have next := toNat_succ r.nwrite
    rw [← BitVec.toNat_inj]
    change r.nread.toNat = (r.nwrite + 1).toNat
    omega
  unfold contents
  rw [(count_zero _).mpr none, List.range_zero, List.map_nil]

/-- The last entry is taken back. -/
def unpush (r : Buffer α w) : Buffer α w := ⟨r.data, r.nread, r.nwrite - 1⟩

theorem count_unpush (r : Buffer α w) (some : 0 < count r) : count (unpush r) + 1 = count r := by
  have first := r.nread.isLt
  have before := count_cases r
  have after := count_cases (unpush r)
  have next := toNat_succ (r.nwrite - 1)
  rw [BitVec.sub_add_cancel] at next
  simp only [unpush] at after ⊢
  omega

theorem push_unpush (n : Nat) (r : Buffer α w) : push n (unpush r) (r.data ((r.nwrite - 1).toNat % n)) = r := by
  unfold push unpush
  dsimp only
  rw [Function.update_eq_self, BitVec.sub_add_cancel]

theorem contents_unpush (r : Buffer α w) (divides : n ∣ 2 ^ w) (some : 0 < count r) (room : count r ≤ n) (small : n < 2 ^ w) :
    contents n r = contents n (unpush r) ++ [r.data ((r.nwrite - 1).toNat % n)] := by
  have fewer := count_unpush r some
  have pushed := contents_push (unpush r) (r.data ((r.nwrite - 1).toNat % n)) divides (by omega) small
  rwa [push_unpush] at pushed

end RingBuffer
