import Mathlib.Data.List.Basic
import Mathlib.Tactic.IntervalCases
import KernelLabs.Lib.Bytes

/- Pages that are arrays of words of four bytes, read and written byte by byte. -/
namespace PageBytes
open Bytes

def byteAt (page : Nat → Nat) (o : Nat) : BitVec 8 := byteOf (page (o / 4)) (o % 4)

/-- Word `w` with byte `k` replaced. -/
def putByte (w k : Nat) (b : BitVec 8) : Nat := w / 256 ^ (k + 1) * 256 ^ (k + 1) + b.toNat * 256 ^ k + w % 256 ^ k

def setByte (page : Nat → Nat) (o : Nat) (b : BitVec 8) : Nat → Nat :=
  Function.update page (o / 4) (putByte (page (o / 4)) (o % 4) b)

/-- `memmove(page + o, src, n)`. -/
def writeBytes (page : Nat → Nat) (o : Nat) : List (BitVec 8) → Nat → Nat
  | [] => page
  | b :: rest => writeBytes (setByte page o b) (o + 1) rest

variable {page : Nat → Nat} {o o' w k j : Nat}

theorem byteOf_putByte (b : BitVec 8) (lowK : k < 4) (lowJ : j < 4) :
    byteOf (putByte w k b) j = if j = k then b else byteOf w j := by
  have small := b.isLt
  apply BitVec.eq_of_toNat_eq
  unfold byteOf putByte
  interval_cases k <;> interval_cases j <;> simp only [Nat.reduceEqDiff, ↓reduceIte, BitVec.toNat_ofNat] <;> omega

theorem byteAt_setByte (b : BitVec 8) : byteAt (setByte page o b) o' = if o' = o then b else byteAt page o' := by
  have lowO : o % 4 < 4 := Nat.mod_lt _ (by decide)
  have lowO' : o' % 4 < 4 := Nat.mod_lt _ (by decide)
  unfold byteAt setByte
  by_cases word : o' / 4 = o / 4
  · rw [word, Function.update_self, byteOf_putByte b lowO lowO']
    have same : o' % 4 = o % 4 ↔ o' = o := by omega
    simp only [same]
  · rw [Function.update_of_ne word, if_neg fun same => word (by rw [same])]

theorem byteAt_writeBytes (bytes : List (BitVec 8)) :
    byteAt (writeBytes page o bytes) o' =
      if o ≤ o' ∧ o' < o + bytes.length then bytes.getD (o' - o) 0 else byteAt page o' := by
  induction bytes generalizing page o with
  | nil =>
    rw [if_neg (by simp only [List.length_nil]; omega)]
    rfl
  | cons b rest ih =>
    unfold writeBytes
    rw [ih, byteAt_setByte, List.length_cons]
    by_cases first : o' = o
    · subst first
      rw [if_neg (by omega), if_pos rfl, if_pos (by omega), Nat.sub_self]
      rfl
    · rw [if_neg first]
      by_cases later : o + 1 ≤ o' ∧ o' < o + 1 + rest.length
      · rw [if_pos later, if_pos (by omega), show o' - o = (o' - (o + 1)) + 1 by omega]
        rfl
      · rw [if_neg later, if_neg (by omega)]

end PageBytes
