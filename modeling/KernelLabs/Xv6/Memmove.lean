import KernelLabs.Lib.BlockMove

/-!
The two functions `memmove`: the kernel's, which chooses the end it copies from, and the one of the
user library, which copies from the low end and takes the length for an `int`.
-/
namespace Xv6Memmove
open BlockMove

abbrev Bytes : Type := Memory 32 (BitVec 8)

/-- `memmove` of the kernel. The pointers and `n` are unsigned. -/
def kernelMemmove (mem : Bytes) (dst src n : BitVec 32) : Bytes :=
  if src < dst ∧ src + n > dst then copyDown mem (dst + n) (src + n) n.toNat else copyUp mem dst src n.toNat

/-- `memmove` of the user library. Its loop stops at once when `n` is negative. -/
def userMemmove (mem : Bytes) (vdst vsrc n : BitVec 32) : Bytes := copyUp mem vdst vsrc n.toInt.toNat

/-- Both functions leave the same memory, and it is the one with the block moved. -/
def Agree (mem : Bytes) (dst src n : BitVec 32) : Prop :=
  userMemmove mem dst src n = kernelMemmove mem dst src n ∧ kernelMemmove mem dst src n = moved mem dst src n.toNat

/-- The length is no negative number, and the source repeats itself from where the destination begins;
    or it is one, and the destination holds the block already. -/
def Safe (mem : Bytes) (dst src n : BitVec 32) : Prop :=
  if n.toNat < 2 ^ 31 then Repeats mem src (dst - src).toNat n.toNat
  else ∀ i, i < n.toNat → mem (dst + BitVec.ofNat 32 i) = mem (src + BitVec.ofNat 32 i)

variable {mem : Bytes} {dst src n : BitVec 32}

theorem length_fits (n : BitVec 32) : n.toNat ≤ 2 ^ 32 := Nat.le_of_lt n.isLt

theorem length_eq (n : BitVec 32) : BitVec.ofNat 32 n.toNat = n := by
  rw [BitVec.ofNat_toNat, BitVec.setWidth_eq]

theorem count_small (small : n.toNat < 2 ^ 31) : n.toInt.toNat = n.toNat := by
  rw [BitVec.toInt_eq_toNat_of_lt (by omega), Int.toNat_natCast]

theorem count_negative (large : ¬ n.toNat < 2 ^ 31) : n.toInt.toNat = 0 := by
  have limit := n.isLt
  rw [BitVec.toInt_eq_toNat_cond, if_neg (by omega)]
  omega

/-- Where the destination begins inside the source, a copy from the high end is right. -/
theorem kernel_down (small : n.toNat < 2 ^ 31) (overlap : src < dst ∧ src + n > dst) :
    kernelMemmove mem dst src n = moved mem dst src n.toNat := by
  have clear : n.toNat ≤ (src - dst).toNat := by
    obtain ⟨below,reach⟩ := overlap
    have limit := dst.isLt
    rw [BitVec.lt_def] at below
    rw [gt_iff_lt, BitVec.lt_def, BitVec.toNat_add] at reach
    rw [BitVec.toNat_sub]
    omega
  have down := copyDown_moved mem (length_fits n) clear
  rw [length_eq] at down
  unfold kernelMemmove
  rw [if_pos overlap, down]

theorem kernel_idle (same : ∀ i, i < n.toNat → mem (dst + BitVec.ofNat 32 i) = mem (src + BitVec.ofNat 32 i)) :
    kernelMemmove mem dst src n = mem := by
  have down := copyDown_idle same
  rw [length_eq] at down
  unfold kernelMemmove
  split
  · exact down
  · exact copyUp_idle same

/-- The two agree, on the moved block, just when the length and the bytes are safe for a copy from the
    low end. -/
theorem memmove_agree (mem : Bytes) (dst src n : BitVec 32) : Agree mem dst src n ↔ Safe mem dst src n := by
  unfold Agree Safe
  by_cases small : n.toNat < 2 ^ 31
  · have user : userMemmove mem dst src n = copyUp mem dst src n.toNat := by
      unfold userMemmove
      rw [count_small small]
    rw [if_pos small, ← copyUp_moved (length_fits n), user]
    by_cases overlap : src < dst ∧ src + n > dst
    · rw [kernel_down small overlap]
      exact and_iff_left rfl
    · have kernel : kernelMemmove mem dst src n = copyUp mem dst src n.toNat := if_neg overlap
      rw [kernel]
      exact and_iff_right rfl
  · have user : userMemmove mem dst src n = mem := by
      unfold userMemmove
      rw [count_negative small, copyUp]
    rw [if_neg small, user, ← moved_idle (length_fits n)]
    constructor
    · rintro ⟨idle,block⟩
      rw [← block, ← idle]
    · intro idle
      have kernel := kernel_idle ((moved_idle (length_fits n)).mp idle)
      exact ⟨kernel.symm, kernel.trans idle.symm⟩

/-- Blocks that do not overlap are safe, and so are those that move down. -/
theorem safe_apart (small : n.toNat < 2 ^ 31) (clear : n.toNat ≤ (dst - src).toNat) : Safe mem dst src n := by
  unfold Safe
  rw [if_pos small]
  intro i inside
  omega

/-- Two bytes moved up by one: the user library copies the first twice. -/
theorem memmove_disagree : ¬ Agree (fun a => a.setWidth 8) 0x1001#32 0x1000#32 2#32 := by
  rintro ⟨same,_⟩
  have last := congrFun same 0x1002#32
  revert last
  decide

end Xv6Memmove
