import Mathlib.Algebra.BigOperators.Group.Finset.Basic
import Mathlib.Algebra.Order.BigOperators.Group.Finset
import Mathlib.Algebra.Order.Group.Multiset
import Mathlib.Data.Multiset.Range
import KernelLabs.Lib.Wp
import KernelLabs.Xv6.FsDisk

/-!
Which blocks the inodes refer to, and what allocating and freeing a block does to the
bitmap. `D` is the table of inodes as the kernel sees them: the cached copy where there
is one, else the copy on disk.
-/
namespace Xv6FsOwn
open Xv6Fs Xv6FsDisk Bytes Wp

/-- `E` allows every panic but `freeing free block` and the `no type` of `ilock`. -/
def Lax (E : Panic → Prop) : Prop := ∀ e, e ≠ .freeingFreeBlock → e ≠ .ilockNoType → E e

def lastAddr (d : Dinode) : UInt32 := d.addrs (Fin.last NDIRECT)

/-- The address of block `bn` of a file, 0 where there is none. -/
def addrAt (disk : Nat → Block) (d : Dinode) (bn : Nat) : Nat :=
  if bn < NDIRECT then (d.direct bn).toNat
  else if lastAddr d = 0 then 0 else field (disk (lastAddr d).toNat) (4 * (bn - NDIRECT)) 4

def dataBlocks (disk : Nat → Block) (d : Dinode) : Multiset Nat :=
  ((Multiset.range MAXFILE).map (addrAt disk d)).filter (· ≠ 0)

def indirectBlock (d : Dinode) : Multiset Nat := if lastAddr d = 0 then 0 else {(lastAddr d).toNat}

/-- All block numbers stored in `addrs` and in the indirect block. -/
def blocks (disk : Nat → Block) (d : Dinode) : Multiset Nat := dataBlocks disk d + indirectBlock d

def allocated (sb : Superblock) (D : Nat → Dinode) : Finset Nat :=
  (Finset.range sb.ninodes).filter fun i => (D i).type ≠ 0

/-- The block numbers of all allocated inodes. -/
def refs (sb : Superblock) (disk : Nat → Block) (D : Nat → Dinode) : Multiset Nat :=
  ∑ i ∈ allocated sb D, blocks disk (D i)

/-- The bitmap marks the metadata blocks and the blocks of `M`, which are data blocks. -/
structure Bitmap (sb : Superblock) (disk : Nat → Block) (M : Multiset Nat) : Prop where
  nodup : M.Nodup
  data : ∀ b ∈ M, sb.nmeta ≤ b ∧ b < sb.size
  bits : ∀ b, b < sb.size → (bit sb disk b = true ↔ b < sb.nmeta ∨ b ∈ M)

section References
variable {sb : Superblock} {disk : Nat → Block} {D : Nat → Dinode} {M : Multiset Nat}

theorem mem_allocated {i : Nat} : i ∈ allocated sb D ↔ i < sb.ninodes ∧ (D i).type ≠ 0 := by
  simp [allocated]

theorem filter_map_cons {f g : Nat → Nat} {n bn : Nat} (low : bn < n)
    (same : ∀ m, m < n → m ≠ bn → g m = f m) (zero : f bn = 0) (new : g bn ≠ 0) :
    ((Multiset.range n).map g).filter (· ≠ 0) = g bn ::ₘ ((Multiset.range n).map f).filter (· ≠ 0) := by
  have member : bn ∈ Multiset.range n := Multiset.mem_range.mpr low
  have rest : ((Multiset.range n).erase bn).map g = ((Multiset.range n).erase bn).map f := by
    apply Multiset.map_congr rfl
    intro m inside
    have other := (Multiset.nodup_range n).mem_erase_iff.mp inside
    exact same m (Multiset.mem_range.mp other.2) other.1
  rw [← Multiset.cons_erase member, Multiset.map_cons, Multiset.map_cons, rest,
    Multiset.filter_cons_of_pos (p := (· ≠ 0)) _ new,
    Multiset.filter_cons_of_neg (p := (· ≠ 0)) _ (by simp [zero])]

theorem addrAt_congr {disk' : Nat → Block} {d : Dinode}
    (same : lastAddr d ≠ 0 → disk' (lastAddr d).toNat = disk (lastAddr d).toNat) (bn : Nat) :
    addrAt disk' d bn = addrAt disk d bn := by
  unfold addrAt
  split
  · rfl
  · split
    · rfl
    · rename_i some
      rw [same some]

theorem blocks_congr {disk' : Nat → Block} {d : Dinode}
    (same : lastAddr d ≠ 0 → disk' (lastAddr d).toNat = disk (lastAddr d).toNat) :
    blocks disk' d = blocks disk d := by
  unfold blocks dataBlocks
  rw [show addrAt disk' d = addrAt disk d from funext (addrAt_congr same)]

theorem mem_dataBlocks {d : Dinode} {b : Nat} :
    b ∈ dataBlocks disk d ↔ b ≠ 0 ∧ ∃ bn, bn < MAXFILE ∧ addrAt disk d bn = b := by
  simp only [dataBlocks, Multiset.mem_filter, Multiset.mem_map, Multiset.mem_range]
  exact and_comm

theorem mem_refs_data {i bn : Nat} (here : i ∈ allocated sb D) (low : bn < MAXFILE)
    (some : addrAt disk (D i) bn ≠ 0) : addrAt disk (D i) bn ∈ refs sb disk D := by
  apply Multiset.mem_sum.mpr
  refine ⟨i, here, Multiset.mem_add.mpr (Or.inl ?_)⟩
  exact mem_dataBlocks.mpr ⟨some,bn,low,rfl⟩

theorem mem_refs_indirect {i : Nat} (here : i ∈ allocated sb D) (some : lastAddr (D i) ≠ 0) :
    (lastAddr (D i)).toNat ∈ refs sb disk D := by
  apply Multiset.mem_sum.mpr
  refine ⟨i, here, Multiset.mem_add.mpr (Or.inr ?_)⟩
  simp [indirectBlock, some]

theorem blocks_le_refs {i : Nat} (here : i ∈ allocated sb D) : blocks disk (D i) ≤ refs sb disk D :=
  Finset.single_le_sum (f := fun i => blocks disk (D i)) (fun _ _ => Multiset.zero_le _) here

theorem disjoint_blocks {i j : Nat} (nodup : (refs sb disk D).Nodup) (here : i ∈ allocated sb D)
    (there : j ∈ allocated sb D) (other : i ≠ j) :
    Disjoint (blocks disk (D i)) (blocks disk (D j)) := by
  have pair : blocks disk (D i) + blocks disk (D j) ≤ refs sb disk D := by
    rw [← Finset.sum_pair (f := fun i => blocks disk (D i)) other]
    apply Finset.sum_le_sum_of_subset
    intro k member
    simp only [Finset.mem_insert, Finset.mem_singleton] at member
    rcases member with h | h <;> rw [h] <;> assumption
  exact (Multiset.nodup_add.mp (Multiset.nodup_of_le pair nodup)).2.2

/-- A data block is nobody's indirect block. -/
theorem data_not_indirect {i j bn : Nat} (nodup : (refs sb disk D).Nodup) (here : i ∈ allocated sb D)
    (there : j ∈ allocated sb D) (low : bn < MAXFILE) (some : addrAt disk (D i) bn ≠ 0)
    (last : lastAddr (D j) ≠ 0) : (lastAddr (D j)).toNat ≠ addrAt disk (D i) bn := by
  intro same
  have mine : addrAt disk (D i) bn ∈ dataBlocks disk (D i) := mem_dataBlocks.mpr ⟨some,bn,low,rfl⟩
  have yours : addrAt disk (D i) bn ∈ indirectBlock (D j) := by
    simp [indirectBlock, last, same]
  by_cases eq : i = j
  · subst eq
    have own := Multiset.nodup_of_le (blocks_le_refs here) nodup
    exact Multiset.disjoint_left.mp (Multiset.nodup_add.mp own).2.2 mine yours
  · exact Multiset.disjoint_left.mp (disjoint_blocks nodup here there eq)
      (Multiset.mem_add.mpr (Or.inl mine)) (Multiset.mem_add.mpr (Or.inr yours))

/-- Two inodes have different indirect blocks. -/
theorem last_apart {i j : Nat} (nodup : (refs sb disk D).Nodup) (here : i ∈ allocated sb D)
    (there : j ∈ allocated sb D) (other : i ≠ j) (some : lastAddr (D i) ≠ 0) (last : lastAddr (D j) ≠ 0) :
    (lastAddr (D i)).toNat ≠ (lastAddr (D j)).toNat := by
  intro same
  have mine : (lastAddr (D i)).toNat ∈ indirectBlock (D i) := by
    simp [indirectBlock, some]
  have yours : (lastAddr (D i)).toNat ∈ indirectBlock (D j) := by
    simp [indirectBlock, last, same]
  exact Multiset.disjoint_left.mp (disjoint_blocks nodup here there other)
    (Multiset.mem_add.mpr (Or.inr mine)) (Multiset.mem_add.mpr (Or.inr yours))

/-- A data block has one place. -/
theorem data_unique {i j bn bm : Nat} (nodup : (refs sb disk D).Nodup) (here : i ∈ allocated sb D)
    (there : j ∈ allocated sb D) (low : bn < MAXFILE) (low' : bm < MAXFILE)
    (some : addrAt disk (D i) bn ≠ 0) (same : addrAt disk (D i) bn = addrAt disk (D j) bm) :
    i = j ∧ bn = bm := by
  have mine : addrAt disk (D i) bn ∈ dataBlocks disk (D i) := mem_dataBlocks.mpr ⟨some,bn,low,rfl⟩
  have yours : addrAt disk (D i) bn ∈ dataBlocks disk (D j) := mem_dataBlocks.mpr ⟨some,bm,low',same.symm⟩
  by_cases eq : i = j
  · subst eq
    have own := Multiset.nodup_of_le (blocks_le_refs here) nodup
    have inner := (Multiset.nodup_add.mp own).1
    unfold dataBlocks at inner
    rw [Multiset.filter_map] at inner
    refine ⟨rfl, Multiset.inj_on_of_nodup_map inner bn ?_ bm ?_ same⟩
    · simp [low, some]
    · simp [low', ← same, some]
  · exact absurd (Multiset.mem_add.mpr (Or.inl yours)) (Multiset.disjoint_left.mp
      (disjoint_blocks nodup here there eq) (Multiset.mem_add.mpr (Or.inl mine)))

/-- Replacing inode `i` while the others keep their blocks. -/
theorem refs_update {disk' : Nat → Block} {i : Nat} {d : Dinode} (here : i ∈ allocated sb D)
    (type : d.type ≠ 0) (others : ∀ j ∈ allocated sb D, j ≠ i → blocks disk' (D j) = blocks disk (D j)) :
    refs sb disk' (Function.update D i d) + blocks disk (D i) = refs sb disk D + blocks disk' d := by
  have same : allocated sb (Function.update D i d) = allocated sb D := by
    ext j
    rw [mem_allocated, mem_allocated]
    by_cases eq : j = i
    · subst eq
      simp [type, (mem_allocated.mp here).2]
    · simp [eq]
  have rest : ∑ j ∈ (allocated sb D).erase i, blocks disk' (Function.update D i d j) =
      ∑ j ∈ (allocated sb D).erase i, blocks disk (D j) := by
    apply Finset.sum_congr rfl
    intro j member
    obtain ⟨other,there⟩ := Finset.mem_erase.mp member
    rw [Function.update_of_ne other]
    exact others j there other
  have new := Finset.add_sum_erase (allocated sb D) (fun j => blocks disk' (Function.update D i d j)) here
  have old := Finset.add_sum_erase (allocated sb D) (fun j => blocks disk (D j)) here
  unfold refs
  rw [same, ← new, ← old, rest]
  rw [Function.update_self]
  exact add_right_comm _ _ _ |>.trans (by rw [add_comm (blocks disk' d), add_right_comm])

theorem refs_congr {disk' : Nat → Block}
    (others : ∀ j ∈ allocated sb D, blocks disk' (D j) = blocks disk (D j)) :
    refs sb disk' D = refs sb disk D := Finset.sum_congr rfl others

end References

/-- Nothing has changed but the bitmap and, where `free` says so, data blocks. -/
structure Moved (sb : Superblock) (free : Nat → Prop) (s t : Fs) : Prop where
  icache : t.icache = s.icache
  dinode : ∀ i, i < sb.ninodes → dinodeAt sb t.disk i = dinodeAt sb s.disk i
  data : ∀ c, sb.nmeta ≤ c → ¬ free c → t.disk c = s.disk c

section Bitmaps
variable {sb : Superblock} {s : Fs} {M : Multiset Nat} {E : Panic → Prop}

theorem findFree_some {disk : Nat → Block} {k bi : Nat} (found : findFree sb disk k = some bi) :
    bi < BPB ∧ k * BPB + bi < sb.size ∧ bit sb disk (k * BPB + bi) = false := by
  have hit := List.find?_some found
  have low := List.mem_range.mp (List.mem_of_find?_eq_some found)
  simp only [Bool.and_eq_true, decide_eq_true_eq, beq_iff_eq] at hit
  refine ⟨low, hit.1, ?_⟩
  have rest : (k * BPB + bi) % BPB = bi := by
    rw [Nat.mul_comm, Nat.mul_add_mod, Nat.mod_eq_of_lt low]
  have block : BBLOCK sb (k * BPB + bi) = BBLOCK sb (k * BPB) := by
    unfold BBLOCK
    rw [Nat.mul_comm, Nat.mul_add_div (by decide), Nat.div_eq_of_lt low, Nat.mul_div_cancel_left _ (by decide),
      Nat.add_zero]
  unfold bit
  rw [rest, block]
  exact (and_mask_eq_zero _ _).mp hit.2

theorem wp_bupdate {b : Nat} {f : Block → Block} {Q : Unit → Fs → Prop}
    (holds : Q () { s with
      disk := Function.update s.disk b (f (s.disk b)), written := s.written + 1 }) :
    wp E (bupdate b f) s Q := holds

/-- A write into the bitmap leaves the rest of the disk alone. -/
theorem moved_bitmap {b n : Nat} (blk : Block) (inside : b < sb.size) :
    Moved sb (fun _ => False) s { s with
      disk := Function.update s.disk (BBLOCK sb b) blk, written := n } := by
  obtain ⟨after,before⟩ := bblock_area inside
  refine ⟨rfl, fun i low => dinodeAt_congr ?_, fun c data _ => ?_⟩
  · have other : IBLOCK sb i ≠ BBLOCK sb b := by
      have := iblock_low low
      omega
    exact Function.update_of_ne other _ _
  · have other : c ≠ BBLOCK sb b := by omega
    exact Function.update_of_ne other _ _

theorem balloc_spec (lax : Lax E) (bm : Bitmap sb s.disk M) : wp E (balloc sb) s fun b t =>
    b ∉ M ∧ sb.nmeta ≤ b ∧ b < sb.size ∧ Moved sb (· = b) s t ∧ t.disk b = zeroes ∧
    Bitmap sb t.disk (b ::ₘ M) := by
  unfold balloc
  rw [wp_bind, wp_get]
  split
  · rename_i base bi found
    obtain ⟨k,_,hit⟩ := List.exists_of_findSome?_eq_some found
    simp only [Option.map_eq_some_iff, Prod.mk.injEq] at hit
    obtain ⟨bi',free,start,same⟩ := hit
    subst same
    subst start
    obtain ⟨low,inside,clear⟩ := findFree_some free
    generalize address : k * BPB + bi' = b at inside clear
    have rest : b % BPB = bi' := by
      rw [← address, Nat.mul_comm, Nat.mul_add_mod, Nat.mod_eq_of_lt low]
    have block : BBLOCK sb (k * BPB) = BBLOCK sb b := by
      rw [← address]
      unfold BBLOCK
      rw [Nat.mul_comm, Nat.mul_add_div (by decide), Nat.div_eq_of_lt low,
        Nat.mul_div_cancel_left _ (by decide), Nat.add_zero]
    have unused : ¬ (b < sb.nmeta ∨ b ∈ M) := by
      rw [← bm.bits b inside, clear]
      simp
    obtain ⟨high,new⟩ := not_or.mp unused
    have high' : sb.nmeta ≤ b := Nat.le_of_not_lt high
    obtain ⟨after,before⟩ := bblock_area inside
    rw [block, ← rest]
    simp only [wp_bind, wp_pure]
    apply wp_bupdate
    unfold bzero
    apply wp_bupdate
    have marked := moved_bitmap (s := s) (n := s.written + 1) (Function.update (s.disk (BBLOCK sb b))
      (b % BPB / 8) (s.disk (BBLOCK sb b) (b % BPB / 8) ||| mask (b % BPB))) inside
    refine ⟨new, high', inside, ⟨rfl, fun i lowI => ?_, fun c data other => ?_⟩, ?_, ?_⟩
    · have apart : IBLOCK sb i ≠ b := by
        have := iblock_low lowI
        omega
      rw [← marked.dinode i lowI]
      exact dinodeAt_congr (Function.update_of_ne apart _ _)
    · rw [← marked.data c data id]
      exact Function.update_of_ne other _ _
    · exact Function.update_self _ _ _
    · have bits : ∀ c, c < sb.size → bit sb (Function.update (Function.update s.disk (BBLOCK sb b)
          (Function.update (s.disk (BBLOCK sb b)) (b % BPB / 8)
            (s.disk (BBLOCK sb b) (b % BPB / 8) ||| mask (b % BPB)))) b zeroes) c =
          (bit sb s.disk c || decide (c = b)) := by
        intro c lowC
        have apart : BBLOCK sb c ≠ b := by
          have := (bblock_area lowC).2
          omega
        rw [bit_congr (Function.update_of_ne apart _ _), bit_set]
      refine ⟨Multiset.nodup_cons.mpr ⟨new,bm.nodup⟩, ?_, fun c lowC => ?_⟩
      · intro c member
        rcases Multiset.mem_cons.mp member with same | old
        · rw [same]
          exact ⟨high',inside⟩
        · exact bm.data c old
      · rw [bits c lowC, Bool.or_eq_true, decide_eq_true_eq, bm.bits c lowC, Multiset.mem_cons,
          or_assoc, or_comm (a := c ∈ M)]
  · exact lax _ (by decide) (by decide)

theorem bfree_spec {b : Nat} (bm : Bitmap sb s.disk M) (member : b ∈ M) :
    wp E (bfree sb b) s fun _ t => Moved sb (fun _ => False) s t ∧ Bitmap sb t.disk (M.erase b) := by
  obtain ⟨high,inside⟩ := bm.data b member
  have set : bit sb s.disk b = true := (bm.bits b inside).mpr (Or.inr member)
  have test : ¬ s.disk (BBLOCK sb b) (b % BPB / 8) &&& mask (b % BPB) = 0#8 := by
    rw [and_mask_eq_zero]
    unfold bit at set
    simp [set]
  unfold bfree
  rw [wp_bind, wp_get]
  dsimp only
  rw [if_neg test]
  apply wp_bupdate
  refine ⟨moved_bitmap _ inside, bm.nodup.erase b, fun c rest => bm.data c (Multiset.mem_of_mem_erase rest),
    fun c lowC => ?_⟩
  rw [bit_clear, Bool.and_eq_true, decide_eq_true_eq, bm.bits c lowC, bm.nodup.mem_erase_iff]
  constructor
  · rintro ⟨old | old, other⟩
    · exact Or.inl old
    · exact Or.inr ⟨other,old⟩
  · rintro (old | ⟨other,old⟩)
    · exact ⟨Or.inl old, by omega⟩
    · exact ⟨Or.inr old, other⟩

end Bitmaps
end Xv6FsOwn
