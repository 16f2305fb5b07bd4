import KernelLabs.Xv6.Fs

/-!
What the three kinds of writes do to the disk as the file system reads it: bits of the
bitmap, disk inodes, and blocks of the data area.
-/
namespace Xv6FsDisk
open Xv6Fs Bytes

/-- The bitmap bit of block `b`. -/
def bit (sb : Superblock) (disk : Nat → Block) (b : Nat) : Bool :=
  (disk (BBLOCK sb b) (b % BPB / 8)).getLsbD (b % BPB % 8)

section Bits
variable {sb : Superblock} {disk : Nat → Block}

theorem getLsbD_mask (bi j : Nat) : (mask bi).getLsbD j = decide (j = bi % 8) := by
  unfold mask
  have low : bi % 8 < 8 := Nat.mod_lt _ (by omega)
  rw [BitVec.getLsbD_shiftLeft]
  by_cases same : j = bi % 8
  · subst same
    simp [low]
  · rw [BitVec.getLsbD_one]
    have : ¬ (j < 8 ∧ ¬ j < bi % 8 ∧ j - bi % 8 = 0) := by omega
    simp only [same, decide_false]
    by_contra wrong
    simp only [Bool.not_eq_false, Bool.and_eq_true, decide_eq_true_eq, Bool.not_eq_true',
      decide_eq_false_iff_not] at wrong
    omega

theorem and_mask_eq_zero (x : BitVec 8) (bi : Nat) : x &&& mask bi = 0#8 ↔ x.getLsbD (bi % 8) = false := by
  constructor
  · intro zero
    have here := congrArg (fun y => BitVec.getLsbD y (bi % 8)) zero
    simpa [getLsbD_mask] using here
  · intro clear
    apply BitVec.eq_of_getLsbD_eq
    intro j _
    rw [BitVec.getLsbD_and, getLsbD_mask, BitVec.getLsbD_zero]
    by_cases same : j = bi % 8
    · rw [same, clear]
      rfl
    · simp [same]

/-- Two blocks share a bit only if they are the same. -/
theorem bit_place {b c : Nat} (block : BBLOCK sb c = BBLOCK sb b) (byte : c % BPB / 8 = b % BPB / 8)
    (place : c % BPB % 8 = b % BPB % 8) : c = b := by
  unfold BBLOCK at block
  have rest : c % BPB = b % BPB := by omega
  have whole := Nat.div_add_mod c BPB
  have whole' := Nat.div_add_mod b BPB
  rw [show c / BPB = b / BPB by omega, rest] at whole
  omega

/-- Rewriting the byte of block `b` changes bits of that byte only. -/
theorem bit_update (b c : Nat) (f : BitVec 8 → BitVec 8) :
    bit sb (Function.update disk (BBLOCK sb b)
      (Function.update (disk (BBLOCK sb b)) (b % BPB / 8) (f (disk (BBLOCK sb b) (b % BPB / 8))))) c =
    if BBLOCK sb c = BBLOCK sb b ∧ c % BPB / 8 = b % BPB / 8 then
      (f (disk (BBLOCK sb b) (b % BPB / 8))).getLsbD (c % BPB % 8)
    else bit sb disk c := by
  unfold bit
  by_cases block : BBLOCK sb c = BBLOCK sb b
  · rw [block, Function.update_self]
    by_cases byte : c % BPB / 8 = b % BPB / 8
    · rw [byte, Function.update_self]
      simp
    · rw [Function.update_of_ne byte]
      simp [byte]
  · rw [Function.update_of_ne block]
    simp [block]

theorem bit_set (b c : Nat) :
    bit sb (Function.update disk (BBLOCK sb b) (Function.update (disk (BBLOCK sb b)) (b % BPB / 8)
      (disk (BBLOCK sb b) (b % BPB / 8) ||| mask (b % BPB)))) c = (bit sb disk c || decide (c = b)) := by
  rw [bit_update b c (· ||| mask (b % BPB))]
  split
  · rename_i same
    rw [BitVec.getLsbD_or, getLsbD_mask]
    have old : (disk (BBLOCK sb b) (b % BPB / 8)).getLsbD (c % BPB % 8) = bit sb disk c := by
      unfold bit
      rw [same.1, same.2]
    rw [old]
    congr 1
    by_cases eq : c = b
    · simp [eq]
    · have apart : ¬ c % BPB % 8 = b % BPB % 8 := fun place => eq (bit_place same.1 same.2 place)
      simp [eq, apart]
  · rename_i other
    have eq : c ≠ b := by
      intro same
      subst same
      exact other ⟨rfl,rfl⟩
    simp [eq]

theorem bit_clear (b c : Nat) :
    bit sb (Function.update disk (BBLOCK sb b) (Function.update (disk (BBLOCK sb b)) (b % BPB / 8)
      (disk (BBLOCK sb b) (b % BPB / 8) &&& ~~~ mask (b % BPB)))) c = (bit sb disk c && decide (c ≠ b)) := by
  rw [bit_update b c (· &&& ~~~ mask (b % BPB))]
  split
  · rename_i same
    have low : c % BPB % 8 < 8 := Nat.mod_lt _ (by omega)
    rw [BitVec.getLsbD_and, BitVec.getLsbD_not, getLsbD_mask]
    have old : (disk (BBLOCK sb b) (b % BPB / 8)).getLsbD (c % BPB % 8) = bit sb disk c := by
      unfold bit
      rw [same.1, same.2]
    rw [old]
    congr 1
    by_cases eq : c = b
    · simp [eq]
    · have apart : ¬ c % BPB % 8 = b % BPB % 8 := fun place => eq (bit_place same.1 same.2 place)
      simp [eq, apart, low]
  · rename_i other
    have eq : c ≠ b := by
      intro same
      subst same
      exact other ⟨rfl,rfl⟩
    simp [eq]

end Bits

section Dinodes

theorem field_byteOf_small {v n : Nat} {f : Nat → BitVec 8} {off : Nat} (small : v < 256 ^ n)
    (bytes : ∀ k, k < n → f (off + k) = byteOf v k) : field f off n = v := by
  have same : field f off n = field (byteOf v) 0 n := by
    apply field_congr
    intro k low
    rw [bytes k low, Nat.zero_add]
  rw [same, field_byteOf, Nat.mod_eq_of_lt small]

theorem bytes_addrs (d : Dinode) (i : Fin (NDIRECT + 1)) : field d.bytes (12 + 4 * i) 4 = (d.addrs i).toNat := by
  apply field_byteOf_small
  · exact (d.addrs i).toNat_lt
  · intro k low
    unfold Dinode.bytes
    rw [if_neg (by omega), if_neg (by omega), if_neg (by omega), if_neg (by omega), if_neg (by omega)]
    have word : (12 + 4 * (i : Nat) + k - 12) / 4 = i := by omega
    have place : (12 + 4 * (i : Nat) + k - 12) % 4 = k := by omega
    have index : Fin.ofNat (NDIRECT + 1) (i : Nat) = i := by
      apply Fin.ext
      exact Nat.mod_eq_of_lt i.isLt
    rw [word, place, index]

theorem bytes_short (d : Dinode) : field d.bytes 0 2 = d.type.toNat ∧ field d.bytes 2 2 = d.major.toNat ∧
    field d.bytes 4 2 = d.minor.toNat ∧ field d.bytes 6 2 = d.nlink.toNat ∧
    field d.bytes 8 4 = d.size.toNat := by
  refine ⟨?_,?_,?_,?_,?_⟩
  · apply field_byteOf_small d.type.toNat_lt
    intro k low
    unfold Dinode.bytes
    rw [if_pos (by omega), Nat.zero_add]
  · apply field_byteOf_small d.major.toNat_lt
    intro k low
    unfold Dinode.bytes
    rw [if_neg (by omega), if_pos (by omega), Nat.add_sub_cancel_left]
  · apply field_byteOf_small d.minor.toNat_lt
    intro k low
    unfold Dinode.bytes
    rw [if_neg (by omega), if_neg (by omega), if_pos (by omega), Nat.add_sub_cancel_left]
  · apply field_byteOf_small d.nlink.toNat_lt
    intro k low
    unfold Dinode.bytes
    rw [if_neg (by omega), if_neg (by omega), if_neg (by omega), if_pos (by omega),
      Nat.add_sub_cancel_left]
  · apply field_byteOf_small d.size.toNat_lt
    intro k low
    unfold Dinode.bytes
    rw [if_neg (by omega), if_neg (by omega), if_neg (by omega), if_neg (by omega), if_pos (by omega),
      Nat.add_sub_cancel_left]

theorem read_overlay (blk : Block) (off : Nat) (d : Dinode) :
    Dinode.read (overlay blk off 64 d.bytes) off = d := by
  obtain ⟨type,major,minor,nlink,size⟩ := bytes_short d
  have fields : ∀ at_ width, at_ + width ≤ 64 →
      field (overlay blk off 64 d.bytes) (off + at_) width = field d.bytes at_ width :=
    fun at_ width fits => field_overlay_in at_ width fits
  have first := fields 0 2 (by omega)
  rw [Nat.add_zero] at first
  unfold Dinode.read
  rw [first, fields 2 2 (by omega), fields 4 2 (by omega), fields 6 2 (by omega), fields 8 4 (by omega),
    type, major, minor, nlink, size]
  have addrs : (fun i : Fin (NDIRECT + 1) =>
      UInt32.ofNat (field (overlay blk off 64 d.bytes) (off + (12 + 4 * i)) 4)) = d.addrs := by
    funext i
    have low := i.isLt
    unfold NDIRECT at low
    rw [fields _ 4 (by omega), bytes_addrs, UInt32.ofNat_toNat]
  rw [addrs]
  simp only [UInt16.ofNat_toNat, UInt32.ofNat_toNat]

theorem read_congr {b c : Block} {off off' : Nat} (same : ∀ k, k < 64 → b (off + k) = c (off' + k)) :
    Dinode.read b off = Dinode.read c off' := by
  have fields : ∀ at_ width, at_ + width ≤ 64 →
      field b (off + at_) width = field c (off' + at_) width := by
    intro at_ width fits
    apply field_congr
    intro k low
    rw [Nat.add_assoc, Nat.add_assoc]
    exact same (at_ + k) (by omega)
  have first := fields 0 2 (by omega)
  rw [Nat.add_zero, Nat.add_zero] at first
  unfold Dinode.read
  rw [first, fields 2 2 (by omega), fields 4 2 (by omega), fields 6 2 (by omega), fields 8 4 (by omega)]
  congr 1
  funext i
  have low := i.isLt
  unfold NDIRECT at low
  rw [fields _ 4 (by omega)]

variable {sb : Superblock} {disk : Nat → Block}

/-- Writing disk inode `i` changes no other one. -/
theorem dinodeAt_write (i j : Nat) (d : Dinode) :
    dinodeAt sb (Function.update disk (IBLOCK sb i)
      (overlay (disk (IBLOCK sb i)) (i % IPB * 64) 64 d.bytes)) j = if j = i then d else dinodeAt sb disk j := by
  unfold dinodeAt
  by_cases same : j = i
  · subst same
    rw [Function.update_self, if_pos rfl]
    exact read_overlay _ _ _
  · rw [if_neg same]
    by_cases block : IBLOCK sb j = IBLOCK sb i
    · rw [block, Function.update_self]
      apply read_congr
      intro k low
      rw [overlay_out]
      have apart : j % IPB ≠ i % IPB := by
        intro rest
        unfold IBLOCK at block
        have whole := Nat.div_add_mod j IPB
        have whole' := Nat.div_add_mod i IPB
        rw [show j / IPB = i / IPB by omega, rest] at whole
        omega
      omega
    · rw [Function.update_of_ne block]

end Dinodes

section Areas
variable {sb : Superblock} {disk : Nat → Block}

theorem iblock_low {i : Nat} (inside : i < sb.ninodes) : IBLOCK sb i < sb.bmapstart := by
  have ends := sb.inodesEnd
  have mono := Nat.div_le_div_right (c := IPB) (Nat.le_of_lt inside)
  unfold IBLOCK
  omega

theorem bblock_area {b : Nat} (inside : b < sb.size) :
    sb.bmapstart ≤ BBLOCK sb b ∧ BBLOCK sb b < sb.nmeta := by
  have mono := Nat.div_le_div_right (c := BPB) (Nat.le_of_lt inside)
  unfold BBLOCK Superblock.nmeta
  exact ⟨Nat.le_add_left _ _, by rw [Nat.add_comm]; exact Nat.add_lt_add_left (Nat.lt_succ_of_le mono) _⟩

theorem bmapstart_le (sb : Superblock) : sb.bmapstart < sb.nmeta := by
  exact Nat.lt_add_of_pos_right (Nat.succ_pos _)

theorem bit_congr {e : Nat → Block} {b : Nat} (same : e (BBLOCK sb b) = disk (BBLOCK sb b)) :
    bit sb e b = bit sb disk b := by
  unfold bit
  rw [same]

theorem dinodeAt_congr {e : Nat → Block} {i : Nat} (same : e (IBLOCK sb i) = disk (IBLOCK sb i)) :
    dinodeAt sb e i = dinodeAt sb disk i := by
  unfold dinodeAt
  rw [same]

end Areas
end Xv6FsDisk
