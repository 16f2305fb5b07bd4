import Mathlib.Algebra.CharZero.Defs
import Mathlib.Algebra.Ring.Nat
import Mathlib.Data.Nat.Basic
import Mathlib.Logic.Function.Basic

/- Blocks of bytes, copies into them, and little-endian fields of any width. -/
namespace Bytes

abbrev Block : Type := Nat → BitVec 8

def zeroes : Block := fun _ => 0#8

/-- `memmove(blk + off, src, n)`. -/
def overlay (blk : Block) (off n : Nat) (src : Nat → BitVec 8) : Block :=
  fun j => if off ≤ j ∧ j < off + n then src (j - off) else blk j

/-- The `n`-byte little-endian field at `off`. -/
def field (blk : Nat → BitVec 8) (off : Nat) : Nat → Nat
  | 0 => 0
  | n + 1 => (blk off).toNat + 256 * field blk (off + 1) n

/-- Byte `k` of the little-endian form of `v`. -/
def byteOf (v k : Nat) : BitVec 8 := BitVec.ofNat 8 (v / 256 ^ k)

theorem field_congr {b c : Nat → BitVec 8} {off off' : Nat} (n : Nat)
    (same : ∀ k, k < n → b (off + k) = c (off' + k)) : field b off n = field c off' n := by
  induction n generalizing off off' with
  | zero => rfl
  | succ n ih =>
    have first := same 0 (by omega)
    have rest : field b (off + 1) n = field c (off' + 1) n := by
      apply ih
      intro k low
      have next := same (k + 1) (by omega)
      rw [show off + 1 + k = off + (k + 1) by omega, show off' + 1 + k = off' + (k + 1) by omega]
      exact next
    simp only [Nat.add_zero] at first
    simp only [field, first, rest]

theorem field_zeroes (off n : Nat) : field zeroes off n = 0 := by
  induction n generalizing off with
  | zero => rfl
  | succ n ih => simp [field, ih, zeroes]

theorem field_byteOf (v n : Nat) : field (byteOf v) 0 n = v % 256 ^ n := by
  have shifted : ∀ k, field (byteOf v) k n = v / 256 ^ k % 256 ^ n := by
    induction n with
    | zero => simp [field, Nat.mod_one]
    | succ n ih =>
      intro k
      simp only [field, ih (k + 1), byteOf, BitVec.toNat_ofNat]
      rw [Nat.pow_succ 256 k, ← Nat.div_div_eq_div_mul, Nat.pow_succ 256 n, Nat.mul_comm (256 ^ n) 256,
        Nat.mod_mul]
  simpa using shifted 0

theorem overlay_out {blk : Block} {off n j : Nat} {src : Nat → BitVec 8}
    (out : j < off ∨ off + n ≤ j) : overlay blk off n src j = blk j := by
  unfold overlay
  rw [if_neg (by omega)]

theorem overlay_in {blk : Block} {off n k : Nat} {src : Nat → BitVec 8} (low : k < n) :
    overlay blk off n src (off + k) = src k := by
  unfold overlay
  rw [if_pos (by omega)]
  congr 1
  omega

/-- A field inside the copied bytes. -/
theorem field_overlay_in {blk : Block} {off n : Nat} {src : Nat → BitVec 8} (at_ width : Nat)
    (fits : at_ + width ≤ n) : field (overlay blk off n src) (off + at_) width = field src at_ width := by
  apply field_congr
  intro k low
  rw [Nat.add_assoc, overlay_in (by omega)]

/-- A field beside the copied bytes. -/
theorem field_overlay_out {blk : Block} {off n : Nat} {src : Nat → BitVec 8} {at_ width : Nat}
    (apart : at_ + width ≤ off ∨ off + n ≤ at_) :
    field (overlay blk off n src) at_ width = field blk at_ width := by
  apply field_congr
  intro k low
  rw [overlay_out (by omega)]

end Bytes
