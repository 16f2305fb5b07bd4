import Mathlib.Order.Interval.Finset.Nat
import KernelLabs.Xv6.FsRuns

/-!
A file is an array of bytes: `readi` gives a slice of it and `writei` replaces one. As long as
the bitmap has enough free blocks no write panics.
-/
namespace Xv6FsBytes
open Xv6Fs Xv6FsDisk Xv6FsOwn Xv6FsVolume Xv6FsFile Bytes Wp

section Free
variable {sb : Superblock} {disk : Nat → Block} {M : Multiset Nat} {s : Fs}

/-- The blocks that the bitmap does not mark. -/
def freeBlocks (sb : Superblock) (disk : Nat → Block) : Nat := ((Finset.range sb.size).filter fun b => bit sb disk b = false).card

/-- A data block is free or in use. -/
theorem free_used (bitmap : Bitmap sb disk M) : freeBlocks sb disk + M.card = sb.size - sb.nmeta := by
  have split : ((Finset.range sb.size).filter fun b => bit sb disk b = false) ∪ ⟨M, bitmap.nodup⟩ = Finset.Ico sb.nmeta sb.size := by
    ext b
    rw [Finset.mem_union, Finset.mem_filter, Finset.mem_range, Finset.mem_mk, Finset.mem_Ico]
    constructor
    · rintro (⟨inside,clear⟩ | used)
      · have unused : ¬ (b < sb.nmeta ∨ b ∈ M) := fun marked => by cases clear.symm.trans ((bitmap.bits b inside).mpr marked)
        exact ⟨Nat.not_lt.mp fun low => unused (Or.inl low), inside⟩
      · exact bitmap.data b used
    · rintro ⟨low,inside⟩
      by_cases used : b ∈ M
      · exact Or.inr used
      · refine Or.inl ⟨inside, Bool.eq_false_iff.mpr fun set => ?_⟩
        exact ((bitmap.bits b inside).mp set).elim (Nat.not_lt.mpr low) used
  have apart : Disjoint ((Finset.range sb.size).filter fun b => bit sb disk b = false) ⟨M, bitmap.nodup⟩ := by
    rw [Finset.disjoint_left]
    intro b free used
    obtain ⟨range,clear⟩ := Finset.mem_filter.mp free
    cases clear.symm.trans ((bitmap.bits b (Finset.mem_range.mp range)).mpr (Or.inr used))
  have total := Finset.card_union_of_disjoint apart
  rw [split, Nat.card_Ico] at total
  exact total.symm

theorem balloc_total (some : 0 < freeBlocks sb s.disk) : wp (fun _ => False) (balloc sb) s fun _ _ => True := by
  obtain ⟨b,member⟩ := Finset.card_pos.mp some
  obtain ⟨range,clear⟩ := Finset.mem_filter.mp member
  have inside := Finset.mem_range.mp range
  unfold balloc
  rw [wp_bind, wp_get]
  split
  · simp only [wp_bind, wp_pure]
    apply wp_bupdate
    unfold bzero
    apply wp_bupdate
    trivial
  · rename_i none
    have block := List.findSome?_eq_none_iff.mp none (b / BPB) (List.mem_range.mpr (by unfold BPB BSIZE; omega))
    have bits := List.find?_eq_none.mp (Option.map_eq_none_iff.mp block) (b % BPB) (List.mem_range.mpr (Nat.mod_lt b (by decide)))
    refine bits ?_
    have whole : b / BPB * BPB + b % BPB = b := Nat.div_add_mod' b BPB
    have same : BBLOCK sb (b / BPB * BPB) = BBLOCK sb b := by
      unfold BBLOCK
      rw [Nat.mul_div_cancel _ (by decide)]
    rw [whole, same, Bool.and_eq_true, decide_eq_true_iff, beq_iff_eq, and_mask_eq_zero]
    exact ⟨inside,clear⟩

end Free

section Count
variable {sb : Superblock} {s t : Fs} {D D' : Nat → Dinode} {X X' : Nat → Nat} {d : Dinode} {i x : Nat}

def indirectCount (d : Dinode) : Nat := if lastAddr d = 0 then 0 else 1

theorem dataBlocks_card {disk : Nat → Block} (mapped : Mapped disk d x) : (dataBlocks disk d).card = x := by
  obtain ⟨most,addrs⟩ := mapped
  unfold dataBlocks
  rw [Multiset.filter_map, Multiset.card_map]
  have same : (Multiset.range MAXFILE).filter ((· ≠ 0) ∘ addrAt disk d) = ((Finset.range MAXFILE).filter (· < x)).val := by
    rw [Finset.filter_val]
    exact Multiset.filter_congr fun m member => addrs m (Multiset.mem_range.mp member)
  have first : (Finset.range MAXFILE).filter (· < x) = Finset.range x := by
    ext m
    rw [Finset.mem_filter, Finset.mem_range, Finset.mem_range]
    omega
  rw [same, first]
  exact Finset.card_range x

theorem blocks_card {disk : Nat → Block} (mapped : Mapped disk d x) : (blocks disk d).card = x + indirectCount d := by
  unfold blocks indirectBlock indirectCount
  rw [Multiset.card_add, dataBlocks_card mapped]
  split
  · rfl
  · rw [Multiset.card_singleton]

theorem refs_card (volume : Volume sb s D X) : (refs sb s.disk D).card = ∑ j ∈ allocated sb D, (X j + indirectCount (D j)) := by
  unfold refs
  rw [Multiset.card_sum]
  exact Finset.sum_congr rfl fun j there => blocks_card (volume.mapped j there)

/-- The blocks that a file gets were free. -/
theorem free_step (here : i ∈ allocated sb D) (before : Volume sb s D X) (after : Volume sb t D' X')
    (same : allocated sb D' = allocated sb D) (rest : ∀ j, j ≠ i → D' j = D j) (others : ∀ j, j ≠ i → X' j = X j) :
    freeBlocks sb t.disk + (X' i + indirectCount (D' i)) = freeBlocks sb s.disk + (X i + indirectCount (D i)) := by
  have free := free_used before.bitmap
  have free' := free_used after.bitmap
  rw [refs_card before, ← Finset.add_sum_erase _ _ here] at free
  rw [refs_card after, same, ← Finset.add_sum_erase _ _ here] at free'
  have total : ∑ j ∈ (allocated sb D).erase i, (X' j + indirectCount (D' j)) = ∑ j ∈ (allocated sb D).erase i, (X j + indirectCount (D j)) := by
    refine Finset.sum_congr rfl fun j member => ?_
    have other := (Finset.mem_erase.mp member).1
    rw [others j other, rest j other]
  omega

end Count

section Total
variable {sb : Superblock} {s : Fs} {D : Nat → Dinode} {X : Nat → Nat} {i bn : Nat} {k : Slot}

theorem allocAddr_total {a : Fin (NDIRECT + 1)} (room : (s.icache k).d.addrs a = 0 → 0 < freeBlocks sb s.disk) :
    wp (fun _ => False) (allocAddr sb k a) s fun _ _ => True := by
  unfold allocAddr
  rw [wp_bind, wp_get]
  dsimp only
  rw [wp_ite]
  split
  · rename_i none
    rw [wp_bind]
    exact wp_mono (balloc_total (room none)) fun _ _ _ => trivial
  · trivial

theorem indirectEntry_total {addr : Nat} (room : field (s.disk addr) (4 * (bn - NDIRECT)) 4 = 0 → 0 < freeBlocks sb s.disk) :
    wp (fun _ => False) (indirectEntry sb addr bn) s fun _ _ => True := by
  unfold indirectEntry
  rw [wp_bind, wp_get]
  dsimp only
  rw [wp_ite]
  split
  · rename_i none
    rw [wp_bind]
    exact wp_mono (balloc_total (room none)) fun _ _ _ => trivial
  · trivial

/-- The free blocks are enough for `bmap` to add block `bn`. -/
theorem bmap_total (volume : Volume sb s D X) (holds : Holds s k i) (low : bn < MAXFILE)
    (room : bn < X i ∨ (if NDIRECT ≤ bn then 2 - indirectCount (D i) else 1) ≤ freeBlocks sb s.disk) :
    wp (fun _ => False) (bmap sb k bn) s fun _ _ => True := by
  have here := volume.here holds
  by_cases inside : bn < X i
  · exact bmap_inside (volume.cached.copy k i holds) low (((volume.mapped i here).2 bn low).mpr inside) trivial
  replace room := room.resolve_left inside
  by_cases direct : bn < NDIRECT
  · rw [if_neg (Nat.not_le.mpr direct)] at room
    unfold bmap
    rw [if_pos direct]
    exact allocAddr_total fun _ => room
  · rw [if_pos (Nat.not_lt.mp direct)] at room
    rw [bmap_indirect (Nat.not_lt.mp direct) low, wp_bind]
    have copy : (s.icache k).d.addrs (Fin.last NDIRECT) = lastAddr (D i) := by
      rw [volume.cached.copy k i holds]
      rfl
    have first : wp (fun _ => False) (allocAddr sb k (Fin.last NDIRECT)) s fun _ _ => True := by
      refine allocAddr_total fun none => ?_
      rw [copy] at none
      unfold indirectCount at room
      rw [if_pos none] at room
      omega
    refine wp_mono (wp_and first (allocAddr_last (fun _ _ _ => trivial) volume holds)) fun addr t both => ?_
    obtain ⟨_,D',grown,some,_⟩ := both
    have moved := free_step here volume grown.volume grown.step.allocated grown.step.others fun _ _ => rfl
    refine wp_mono (indirectEntry_total fun _ => ?_) fun _ _ _ => trivial
    have one : indirectCount (D' i) = 1 := if_neg some
    have most : indirectCount (D i) ≤ 1 := by
      unfold indirectCount
      split <;> omega
    omega

theorem balloc_icache (sb : Superblock) (s : Fs) : wp (fun _ => True) (balloc sb) s fun _ t => t.icache = s.icache := by
  unfold balloc
  rw [wp_bind, wp_get]
  split
  · simp only [wp_bind, wp_pure]
    apply wp_bupdate
    unfold bzero
    apply wp_bupdate
    rfl
  · trivial

/-- No direct block touches the address of the indirect block. -/
theorem bmap_direct (sb : Superblock) (s : Fs) (k : Slot) (bn : Nat) : wp (fun _ => True) (bmap sb k bn) s fun _ t =>
    bn < NDIRECT → lastAddr (t.icache k).d = lastAddr (s.icache k).d := by
  by_cases direct : bn < NDIRECT
  swap
  · exact wp_mono (wp_trivial _ s) fun _ _ _ no => absurd no direct
  unfold bmap allocAddr
  rw [if_pos direct, wp_bind, wp_get]
  dsimp only
  rw [wp_ite]
  split
  · rw [wp_bind]
    refine wp_mono (balloc_icache sb s) fun b t same => ?_
    rw [wp_bind]
    refine wp_setDinode (f := withAddr (Fin.ofNat _ bn) b) ?_
    rw [wp_pure]
    dsimp only
    rw [Function.update_self, same]
    exact fun _ => lastAddr_direct direct
  · exact fun _ => rfl

/-- The blocks that a file of `x` blocks needs for `target` blocks. -/
def needed (d : Dinode) (x target : Nat) : Nat := target - x + if NDIRECT < target ∧ x < target then 1 - indirectCount d else 0

theorem writeLoop_total (fuel : Nat) {src : Nat → BitVec 8} {off n : Nat} (volume : Volume sb s D X) (holds : Holds s k i)
    (fits : off + n ≤ MAXFILE * BSIZE) (reach : 0 < n → off / BSIZE ≤ X i)
    (room : needed (D i) (X i) ((off + n + BSIZE - 1) / BSIZE) ≤ freeBlocks sb s.disk) :
    wp (fun _ => False) (writeLoop sb k fuel src off n) s fun _ _ => True := by
  induction fuel generalizing s D X src off n with
  | zero => trivial
  | succ fuel ih =>
    unfold writeLoop
    rw [wp_ite]
    split
    · trivial
    · rename_i some
      have here := volume.here holds
      replace reach := reach (Nat.pos_of_ne_zero some)
      have offset := Nat.mod_lt off (show 0 < BSIZE by decide)
      have last : off / BSIZE < MAXFILE := by
        unfold BSIZE at *
        omega
      generalize size : min n (BSIZE - off % BSIZE) = m
      have short : 0 < m ∧ m ≤ n := by omega
      have target : off / BSIZE < (off + n + BSIZE - 1) / BSIZE := by
        unfold BSIZE
        omega
      have whole : off + m + (n - m) = off + n := by omega
      generalize blocks : (off + n + BSIZE - 1) / BSIZE = b at room target
      have bound := volume.mapped i here
      have one : indirectCount (D i) ≤ 1 := by
        unfold indirectCount
        split <;> omega
      have enough : off / BSIZE < X i ∨ (if NDIRECT ≤ off / BSIZE then 2 - indirectCount (D i) else 1) ≤ freeBlocks sb s.disk := by
        unfold needed at room
        by_cases inside : off / BSIZE < X i
        · exact Or.inl inside
        · right
          split
          · rw [if_pos (by omega)] at room
            omega
          · omega
      rw [wp_bind]
      refine wp_mono (wp_and (wp_and (bmap_total volume holds last enough) (bmap_spec (fun _ _ _ => trivial) volume holds last reach))
        (bmap_direct sb s k _)) ?_
      rintro _ t ⟨⟨_,D1,grown,rfl,inside⟩,direct⟩
      have holdsT := grown.step.slots.holds holds
      rw [grown.volume.cached.copy k i holdsT, volume.cached.copy k i holds] at direct
      have moved := free_step here volume grown.volume grown.step.allocated grown.step.others fun j other => Function.update_of_ne other _ _
      rw [Function.update_self] at moved
      rw [wp_bind]
      apply wp_bupdate
      have mapped : off / BSIZE < Function.update X i (max (X i) (off / BSIZE + 1)) i := by
        rw [Function.update_self]
        omega
      have here1 : i ∈ allocated sb D1 := by
        rw [grown.step.allocated]
        exact here
      obtain ⟨step,volume2,_⟩ := write_block grown.volume here1 (n := m) (w := t.written + 1) src mapped (by omega)
      have still := free_step here1 grown.volume volume2 step.allocated step.others fun _ _ => rfl
      refine ih volume2 (step.slots.holds holdsT) (by omega) (fun more => ?_) ?_
      · rw [Function.update_self]
        unfold BSIZE at *
        omega
      · rw [whole, blocks, Function.update_self]
        have count : indirectCount (D1 i) = indirectCount (D i) ∨ NDIRECT ≤ off / BSIZE ∧ indirectCount (D1 i) ≤ 1 := by
          by_cases first : off / BSIZE < NDIRECT
          · left
            unfold indirectCount
            rw [direct first]
          · right
            unfold indirectCount
            exact ⟨Nat.not_lt.mp first, by split <;> omega⟩
        rw [Function.update_self] at still
        unfold needed at room ⊢
        by_cases old : off / BSIZE < X i
        · rw [inside old] at still moved ⊢
          rw [Nat.max_eq_left (by omega)] at still moved ⊢
          omega
        · have next : X i = off / BSIZE := by omega
          rw [next, Nat.max_eq_right (by omega)] at still moved ⊢
          rw [next] at room
          split at room <;> split <;> omega

theorem writeLoop_direct (fuel : Nat) {src : Nat → BitVec 8} {off n : Nat} (low : off + n ≤ NDIRECT * BSIZE) :
    wp (fun _ => True) (writeLoop sb k fuel src off n) s fun _ t => lastAddr (t.icache k).d = lastAddr (s.icache k).d := by
  induction fuel generalizing s src off n with
  | zero => rfl
  | succ fuel ih =>
    unfold writeLoop
    rw [wp_ite]
    split
    · rfl
    · have direct : off / BSIZE < NDIRECT := by
        unfold BSIZE at *
        omega
      rw [wp_bind]
      refine wp_mono (bmap_direct sb s k _) fun b t same => ?_
      rw [wp_bind]
      apply wp_bupdate
      refine wp_mono (ih (by omega)) fun _ u later => ?_
      exact later.trans (same direct)

theorem writei_direct {src : Nat → BitVec 8} {off n : UInt32} (low : off.toNat + n.toNat ≤ NDIRECT * BSIZE) :
    wp (fun _ => True) (writei sb k src off n) s fun _ t => lastAddr (t.icache k).d = lastAddr (s.icache k).d := by
  unfold writei
  rw [wp_bind, wp_get]
  dsimp only
  rw [wp_ite, wp_ite, wp_ite]
  split
  · rfl
  split
  · rfl
  split
  · rfl
  rw [wp_bind]
  refine wp_mono (writeLoop_direct n.toNat low) fun _ t same => ?_
  rw [wp_ite]
  split
  · simp only [wp_bind, wp_pure]
    apply wp_setDinode
    unfold iupdate
    rw [wp_bind, wp_get]
    apply wp_bupdate
    dsimp only
    rw [Function.update_self]
    exact same
  · exact same

end Total

section Arrays
variable {sb : Superblock} {s t : Fs} {D D' : Nat → Dinode} {i : Nat} {k : Slot} {off n : UInt32} {src : Nat → BitVec 8}

/-- The bytes of a file. -/
def file (disk : Nat → Block) (d : Dinode) : Xv6Fs.Bytes := (List.range d.size.toNat).map (content disk d)

/-- An array of bytes with `new` at `off`. -/
def replace (bytes : Xv6Fs.Bytes) (off : Nat) (new : Xv6Fs.Bytes) : Xv6Fs.Bytes :=
  bytes.take off ++ new ++ bytes.drop (off + new.length)

/-- The writes that a file takes. -/
def Fits (bytes : Xv6Fs.Bytes) (off n : UInt32) : Prop :=
  off.toNat ≤ bytes.length ∧ off.toNat + n.toNat < 2 ^ 32 ∧ off.toNat + n.toNat ≤ MAXFILE * BSIZE

instance (bytes : Xv6Fs.Bytes) (off n : UInt32) : Decidable (Fits bytes off n) :=
  inferInstanceAs (Decidable (_ ∧ _))

theorem file_length (disk : Nat → Block) (d : Dinode) : (file disk d).length = d.size.toNat := by
  unfold file
  rw [List.length_map, List.length_range]

theorem file_get (disk : Nat → Block) (d : Dinode) (o : Nat) :
    (file disk d)[o]? = if o < d.size.toNat then some (content disk d o) else none := by
  unfold file
  rw [List.getElem?_map]
  by_cases low : o < d.size.toNat
  · rw [List.getElem?_range low, if_pos low]
    rfl
  · rw [if_neg low, List.getElem?_eq_none (by rw [List.length_range]; omega)]
    rfl

theorem overflow (off n : UInt32) : off + n < off ↔ 2 ^ 32 ≤ off.toNat + n.toNat := by
  have offLt := off.toNat_lt
  have nLt := n.toNat_lt
  rw [UInt32.lt_iff_toNat_lt, UInt32.toNat_add]
  omega

theorem replace_get {bytes new : Xv6Fs.Bytes} {at_ : Nat} (start : at_ ≤ bytes.length) (o : Nat) :
    (replace bytes at_ new)[o]? = if at_ ≤ o ∧ o < at_ + new.length then new[o - at_]? else bytes[o]? := by
  have front : (bytes.take at_).length = at_ := by rw [List.length_take, Nat.min_eq_left start]
  unfold replace
  by_cases before : o < at_
  · rw [if_neg (by omega), List.append_assoc, List.getElem?_append_left (by omega), List.getElem?_take_of_lt before]
  · by_cases inside : o < at_ + new.length
    · rw [if_pos ⟨Nat.not_lt.mp before, inside⟩, List.append_assoc, List.getElem?_append_right (by omega), front,
        List.getElem?_append_left (by omega)]
    · have both : (bytes.take at_ ++ new).length = at_ + new.length := by rw [List.length_append, front]
      rw [if_neg fun range => inside range.2, List.getElem?_append_right (by omega), both, List.getElem?_drop]
      congr 1
      omega

/-- The written file as an array. -/
theorem WroteFile.file_eq (wrote : WroteFile sb i s D off.toNat n.toNat src t D') :
    file t.disk (D' i) = replace (file s.disk (D i)) off.toNat ((List.range n.toNat).map src) := by
  have size := wrote.size
  refine List.ext_getElem? fun o => ?_
  rw [replace_get (by rw [file_length]; exact wrote.start), file_get, file_get, List.length_map, List.length_range, size]
  by_cases inside : off.toNat ≤ o ∧ o < off.toNat + n.toNat
  · have new := wrote.new (o - off.toNat) (by omega)
    rw [Nat.add_sub_cancel' inside.1] at new
    rw [if_pos inside, if_pos (by omega), new, List.getElem?_map, List.getElem?_range (by omega)]
    rfl
  · rw [if_neg inside]
    by_cases old : o < (D i).size.toNat
    · rw [if_pos old, if_pos (by omega), wrote.rest o old (by omega)]
    · rw [if_neg old, if_neg (by have := wrote.start; omega)]

theorem OtherFiles.file_eq (others : OtherFiles sb i s D t D') {j : Nat} (there : j ∈ allocated sb D) (other : j ≠ i) :
    file t.disk (D' j) = file s.disk (D j) := by
  unfold file
  rw [others.table j other]
  exact List.map_congr_left fun o member => others.bytes j there other o (List.mem_range.mp member)

theorem writei_total (clean : Clean sb s D) (holds : Holds s k i) (plain : (D i).type ≠ T_DEV)
    (room : needed (D i) (nblocks (D i)) ((off.toNat + n.toNat + BSIZE - 1) / BSIZE) ≤ freeBlocks sb s.disk) :
    wp (fun _ => False) (writei sb k src off n) s fun r _ => r = if Fits (file s.disk (D i)) off n then some n else none := by
  have small : MAXFILE * BSIZE < 2 ^ 32 := by decide
  have copy := clean.volume.cached.copy k i holds
  have start : ¬ (D i).size < off ↔ off.toNat ≤ (file s.disk (D i)).length := by
    rw [file_length, UInt32.lt_iff_toNat_lt, Nat.not_lt]
  unfold writei
  rw [wp_bind, wp_get]
  dsimp only
  rw [copy, wp_ite, if_neg plain, wp_ite]
  by_cases out : (D i).size < off ∨ off + n < off
  · rw [if_pos out, wp_pure, if_neg]
    rintro ⟨low,whole,_⟩
    rcases out with past | wraps
    · exact start.mpr low past
    · exact absurd ((overflow off n).mp wraps) (Nat.not_le.mpr whole)
  · obtain ⟨low,whole⟩ := not_or.mp out
    rw [overflow, Nat.not_le] at whole
    have sum : (off + n).toNat = off.toNat + n.toNat := by
      rw [UInt32.toNat_add]
      exact Nat.mod_eq_of_lt whole
    rw [if_neg out, wp_ite, sum]
    by_cases big : MAXFILE * BSIZE < off.toNat + n.toNat
    · rw [if_pos big, wp_pure, if_neg]
      rintro ⟨_,_,fits⟩
      exact absurd fits (Nat.not_le.mpr big)
    · rw [if_neg big, wp_bind]
      have fits : Fits (file s.disk (D i)) off n := ⟨start.mp low, whole, Nat.not_lt.mp big⟩
      have reach : 0 < n.toNat → off.toNat / BSIZE ≤ nblocks (D i) := by
        intro _
        rw [UInt32.lt_iff_toNat_lt] at low
        unfold nblocks BSIZE
        omega
      refine wp_mono (writeLoop_total n.toNat clean.volume holds (Nat.not_lt.mp big) reach room) fun _ t _ => ?_
      rw [if_pos fits, wp_ite]
      split
      · simp only [wp_bind, wp_pure]
        apply wp_setDinode
        unfold iupdate
        rw [wp_bind, wp_get]
        apply wp_bupdate
        trivial
      · rfl

end Arrays

section Opened
open Xv6FsRuns Xv6FsSound Transition

/-- The file of one block has been opened. -/
def opened : Fs := (System.exec (next tiny) (boot plain) [openG]).get (by decide +kernel)

theorem opened_sound : ∃ D, Sound tiny opened D 0 := by
  have run : System.exec (next tiny) (boot plain) [openG] = some opened := by
    simp only [opened, Option.some_get]
  exact reach_sound (System.exec_reach _ (fun _ _ _ => trivial) (.start ⟨boot_booted plain, plain_wellFormed⟩) run)

end Opened

end Xv6FsBytes
