import Mathlib.Data.List.GetD
import Mathlib.Order.Interval.Finset.Nat
import KernelLabs.Xv6.FsSlots

/-!
A volume that is filled from front to back: the data blocks in use are those below a mark, and
the bytes of each file are known. Files grow by a block at the mark or by bytes in a block that
they have.
-/
namespace Xv6FsLayout
open Xv6Fs Xv6FsDisk Xv6FsOwn Xv6FsVolume Xv6FsFile Xv6FsTrunc Xv6FsSlots Bytes

/-- The data blocks below `fb` are the blocks of the files, each in one place; inode `i` has
    `X i` blocks, with the bytes of `files i` and then zeroes. -/
structure Laid (sb : Superblock) (disk : Nat → Block) (D : Nat → Dinode) (X : Nat → Nat) (files : Nat → Xv6Fs.Bytes)
    (fb : Nat) : Prop where
  used : refs sb disk D = (Finset.Ico sb.nmeta fb).val
  start : sb.nmeta ≤ fb
  mapped : ∀ i ∈ allocated sb D, Mapped disk (D i) (X i)
  short : ∀ i ∈ allocated sb D, (files i).length ≤ X i * BSIZE
  bytes : ∀ i ∈ allocated sb D, ∀ o, o / BSIZE < X i → content disk (D i) o = (files i).getD o 0#8
  fresh : ∀ b, fb ≤ b → disk b = zeroes

section Blocks
variable {disk disk' : Nat → Block} {d d' : Dinode} {bn b : Nat}

/-- One more address is one more block. -/
theorem blocks_cons (addr : ∀ m, addrAt disk' d' m = if m = bn then b else addrAt disk d m) (low : bn < MAXFILE)
    (none : addrAt disk d bn = 0) (some : b ≠ 0) (last : lastAddr d' = lastAddr d) :
    blocks disk' d' = b ::ₘ blocks disk d := by
  have new := filter_map_cons (f := addrAt disk d) (g := addrAt disk' d') low
    (fun m _ other => by rw [addr m, if_neg other]) none (by rw [addr bn, if_pos rfl]; exact some)
  unfold blocks dataBlocks indirectBlock
  rw [new, addr bn, if_pos rfl, last, Multiset.cons_add]

theorem mapped_cons (addr : ∀ m, addrAt disk' d' m = if m = bn then b else addrAt disk d m) (low : bn < MAXFILE)
    (some : b ≠ 0) (mapped : Mapped disk d bn) : Mapped disk' d' (bn + 1) := by
  refine ⟨low, fun m lowM => ?_⟩
  rw [addr m]
  by_cases same : m = bn
  · rw [if_pos same]
    exact ⟨fun _ => by omega, fun _ => some⟩
  · rw [if_neg same, mapped.2 m lowM]
    omega

/-- A new indirect block, still empty. -/
theorem blocks_last (small : b < 2 ^ 32) (some : b ≠ 0) (none : lastAddr d = 0) (zero : disk b = zeroes) :
    blocks disk (withAddr (Fin.last _) b d) = b ::ₘ blocks disk d := by
  unfold blocks indirectBlock dataBlocks
  rw [if_pos none, if_neg (by rw [lastAddr_last]; exact ofNat_ne_zero small some), lastAddr_last,
    UInt32.toNat_ofNat_of_lt' small,
    show addrAt disk (withAddr (Fin.last _) b d) = addrAt disk d from funext (addrAt_last small some none zero),
    add_zero, add_comm, Multiset.singleton_add]

/-- An entry of the indirect block is set. -/
theorem addrAt_entry (far : NDIRECT ≤ bn) (some : lastAddr d ≠ 0) (small : b < 2 ^ 32) (m : Nat) :
    addrAt (Function.update disk (lastAddr d).toNat
      (overlay (disk (lastAddr d).toNat) (4 * (bn - NDIRECT)) 4 (byteOf b))) d m =
      if m = bn then b else addrAt disk d m := by
  unfold addrAt
  by_cases direct : m < NDIRECT
  · rw [if_pos direct, if_pos direct, if_neg (by omega)]
  · rw [if_neg direct, if_neg direct, if_neg some, if_neg some, Function.update_self]
    by_cases same : m = bn
    · subst same
      have entry : field (overlay (disk (lastAddr d).toNat) (4 * (m - NDIRECT)) 4 (byteOf b)) (4 * (m - NDIRECT) + 0) 4 =
          field (byteOf b) 0 4 := field_overlay_in 0 4 (by omega)
      rw [Nat.add_zero] at entry
      rw [if_pos rfl, entry, field_byteOf, Nat.mod_eq_of_lt (by simpa using small)]
    · rw [if_neg same, field_overlay_out (by omega)]

end Blocks

section Growth
variable {sb : Superblock} {disk disk' : Nat → Block} {D : Nat → Dinode} {X : Nat → Nat} {files : Nat → Xv6Fs.Bytes}
  {fb i : Nat} {d : Dinode}

theorem Laid.nodup (laid : Laid sb disk D X files fb) : (refs sb disk D).Nodup := by
  rw [laid.used]
  exact (Finset.Ico sb.nmeta fb).nodup

theorem Laid.mem (laid : Laid sb disk D X files fb) {b : Nat} (used : b ∈ refs sb disk D) : sb.nmeta ≤ b ∧ b < fb := by
  rw [laid.used] at used
  exact Finset.mem_Ico.mp used

theorem Laid.addr (laid : Laid sb disk D X files fb) {j m : Nat} (there : j ∈ allocated sb D) (low : m < X j) :
    addrAt disk (D j) m ≠ 0 ∧ addrAt disk (D j) m ∈ refs sb disk D ∧ m < MAXFILE := by
  obtain ⟨most,addrs⟩ := laid.mapped j there
  have some := (addrs m (by omega)).mpr low
  exact ⟨some, mem_refs_data there (by omega) some, by omega⟩

theorem Laid.last (laid : Laid sb disk D X files fb) {j : Nat} (there : j ∈ allocated sb D) (some : lastAddr (D j) ≠ 0) :
    (lastAddr (D j)).toNat < fb := (laid.mem (mem_refs_indirect there some)).2

theorem Laid.nonzero (laid : Laid sb disk D X files fb) : fb ≠ 0 := by
  have start := laid.start
  have := bmapstart_le sb
  omega

/-- The block at the mark goes to inode `i`, as its next data block or as its indirect block. -/
theorem Laid.grow (laid : Laid sb disk D X files fb) (here : i ∈ allocated sb D) (type : d.type = (D i).type) {x : Nat}
    (mine : blocks disk' d = fb ::ₘ blocks disk (D i)) (mapped : Mapped disk' d x) (more : X i ≤ x)
    (same : ∀ m, m < X i → addrAt disk' d m = addrAt disk (D i) m)
    (new : ∀ m, X i ≤ m → m < x → addrAt disk' d m = fb)
    (kept : ∀ j ∈ allocated sb D, j ≠ i → lastAddr (D j) ≠ 0 →
      disk' (lastAddr (D j)).toNat = disk (lastAddr (D j)).toNat)
    (data : ∀ j ∈ allocated sb D, ∀ m, m < X j → disk' (addrAt disk (D j) m) = disk (addrAt disk (D j) m))
    (fresh : ∀ b, fb ≤ b → disk' b = zeroes) :
    Laid sb disk' (Function.update D i d) (Function.update X i x) files (fb + 1) := by
  have typed : d.type ≠ 0 := type ▸ (mem_allocated.mp here).2
  have allocated' : allocated sb (Function.update D i d) = allocated sb D := by
    ext j
    rw [mem_allocated, mem_allocated]
    by_cases eq : j = i
    · subst eq
      rw [Function.update_self, type]
    · rw [Function.update_of_ne eq]
  refine ⟨?_, Nat.le_succ_of_le laid.start, fun j there => ?_, fun j there => ?_, fun j there o low => ?_,
    fun b high => fresh b (by omega)⟩
  · have total := refs_update here typed fun j there other => blocks_congr (kept j there other)
    rw [mine, Multiset.add_cons, ← Multiset.cons_add] at total
    rw [add_right_cancel total, laid.used, ← Nat.succ_eq_add_one, Nat.Ico_succ_right_eq_insert_Ico laid.start,
      Finset.insert_val_of_notMem (by simp)]
  · rw [allocated'] at there
    by_cases eq : j = i
    · subst eq
      rw [Function.update_self, Function.update_self]
      exact mapped
    · rw [Function.update_of_ne eq, Function.update_of_ne eq]
      obtain ⟨most,addrs⟩ := laid.mapped j there
      refine ⟨most, fun m low => ?_⟩
      rw [addrAt_congr (kept j there eq)]
      exact addrs m low
  · rw [allocated'] at there
    have before := laid.short j there
    by_cases eq : j = i
    · subst eq
      rw [Function.update_self]
      exact Nat.le_trans before (Nat.mul_le_mul_right BSIZE more)
    · rw [Function.update_of_ne eq]
      exact before
  · rw [allocated'] at there
    by_cases eq : j = i
    · subst eq
      rw [Function.update_self] at low ⊢
      unfold content
      by_cases old : o / BSIZE < X j
      · rw [same _ old, data j there _ old]
        exact laid.bytes j there o old
      · have bound := laid.short j there
        have past : (files j).length ≤ o := by
          unfold BSIZE at *
          omega
        rw [new _ (by omega) low, fresh fb (Nat.le_refl _), List.getD_eq_getElem?_getD, List.getElem?_eq_none past]
        rfl
    · rw [Function.update_of_ne eq] at low ⊢
      unfold content
      rw [addrAt_congr (kept j there eq), data j there _ low]
      exact laid.bytes j there o low

theorem Laid.none (laid : Laid sb disk D X files fb) (here : i ∈ allocated sb D) (low : X i < MAXFILE) :
    addrAt disk (D i) (X i) = 0 := by
  by_contra some
  have := ((laid.mapped i here).2 (X i) low).mp some
  omega

theorem Laid.direct (laid : Laid sb disk D X files fb) (here : i ∈ allocated sb D) (small : fb < 2 ^ 32)
    (low : X i < NDIRECT) : Laid sb disk (Function.update D i (withAddr (Fin.ofNat _ (X i)) fb (D i)))
      (Function.update X i (X i + 1)) files (fb + 1) := by
  have far : X i < MAXFILE := Nat.lt_of_lt_of_le low (Nat.le_add_right _ _)
  have addr := @addrAt_direct disk (D i) _ _ low small
  refine laid.grow here (d := withAddr (Fin.ofNat _ (X i)) fb (D i)) rfl (blocks_cons addr far (laid.none here far) laid.nonzero
    (lastAddr_direct low)) (mapped_cons addr far laid.nonzero (laid.mapped i here)) (Nat.le_succ _) (fun m lowM => ?_) (fun m high lowM => ?_)
    (fun _ _ _ _ => rfl) (fun _ _ _ _ => rfl) laid.fresh
  · rw [addr m, if_neg (by omega)]
  · rw [addr m, if_pos (by omega)]

theorem Laid.indirect (laid : Laid sb disk D X files fb) (here : i ∈ allocated sb D) (small : fb < 2 ^ 32)
    (none : lastAddr (D i) = 0) :
    Laid sb disk (Function.update D i (withAddr (Fin.last _) fb (D i))) X files (fb + 1) := by
  have zero := laid.fresh fb (Nat.le_refl _)
  have addr := addrAt_last (d := D i) small laid.nonzero none zero
  have grown := laid.grow here (d := withAddr (Fin.last _) fb (D i)) (x := X i) rfl
    (blocks_last small laid.nonzero none zero) ?_ (Nat.le_refl _) (fun m _ => addr m) (fun m high low => by omega)
    (fun _ _ _ _ => rfl) (fun _ _ _ _ => rfl) laid.fresh
  · rwa [Function.update_eq_self] at grown
  · obtain ⟨most,addrs⟩ := laid.mapped i here
    refine ⟨most, fun m low => ?_⟩
    rw [addr m]
    exact addrs m low

theorem Laid.entry (laid : Laid sb disk D X files fb) (here : i ∈ allocated sb D) (small : fb < 2 ^ 32)
    (far : NDIRECT ≤ X i) (low : X i < MAXFILE) (some : lastAddr (D i) ≠ 0) :
    Laid sb (Function.update disk (lastAddr (D i)).toNat
      (overlay (disk (lastAddr (D i)).toNat) (4 * (X i - NDIRECT)) 4 (byteOf fb))) D
      (Function.update X i (X i + 1)) files (fb + 1) := by
  have addr := @addrAt_entry disk (D i) _ _ far some small
  have grown := laid.grow here (d := D i) rfl (blocks_cons addr low (laid.none here low) laid.nonzero rfl)
    (mapped_cons addr low laid.nonzero (laid.mapped i here)) (Nat.le_succ _) (fun m lowM => ?_) (fun m high lowM => ?_)
    (fun j there other someJ => ?_) (fun j there m lowM => ?_) (fun b high => ?_)
  · rwa [Function.update_eq_self] at grown
  · rw [addr m, if_neg (by omega)]
  · rw [addr m, if_pos (by omega)]
  · exact Function.update_of_ne (last_apart laid.nodup there here other someJ some) _ _
  · obtain ⟨there',_,inside⟩ := laid.addr there lowM
    exact Function.update_of_ne (data_not_indirect laid.nodup there here inside there' some).symm _ _
  · have below := laid.last here some
    rw [Function.update_of_ne (by omega)]
    exact laid.fresh b high

/-- Bytes are appended in a block that the file has. -/
theorem Laid.write (laid : Laid sb disk D X files fb) (here : i ∈ allocated sb D) (new : Xv6Fs.Bytes) {off : Nat}
    (size : (files i).length = off) (inside : off / BSIZE < X i) (fits : off % BSIZE + new.length ≤ BSIZE) :
    Laid sb (Function.update disk (addrAt disk (D i) (off / BSIZE))
      (overlay (disk (addrAt disk (D i) (off / BSIZE))) (off % BSIZE) new.length fun j => new.getD j 0#8)) D X
      (Function.update files i (files i ++ new)) fb := by
  obtain ⟨some,used,low⟩ := laid.addr here inside
  generalize address : addrAt disk (D i) (off / BSIZE) = c at *
  generalize change : Function.update disk c
    (overlay (disk c) (off % BSIZE) new.length fun j => new.getD j 0#8) = disk'
  have lasts : ∀ j ∈ allocated sb D, lastAddr (D j) ≠ 0 → disk' (lastAddr (D j)).toNat = disk (lastAddr (D j)).toNat := by
    intro j there last
    rw [← change]
    apply Function.update_of_ne
    rw [← address] at some ⊢
    exact data_not_indirect laid.nodup here there low some last
  have addrs : ∀ j ∈ allocated sb D, ∀ m, addrAt disk' (D j) m = addrAt disk (D j) m :=
    fun j there m => addrAt_congr (lasts j there) m
  refine ⟨?_, laid.start, fun j there => ?_, fun j there => ?_, fun j there o lowO => ?_, fun b high => ?_⟩
  · rw [← laid.used]
    exact refs_congr fun j there => blocks_congr (lasts j there)
  · refine ⟨(laid.mapped j there).1, fun m lowM => ?_⟩
    rw [addrs j there m]
    exact (laid.mapped j there).2 m lowM
  · by_cases eq : j = i
    · subst eq
      rw [Function.update_self, List.length_append]
      unfold BSIZE at *
      omega
    · rw [Function.update_of_ne eq]
      exact laid.short j there
  · have before := laid.bytes j there o lowO
    unfold content at before ⊢
    rw [addrs j there, ← change]
    by_cases same : addrAt disk (D j) (o / BSIZE) = c
    · obtain ⟨thereJ,_,lowJ⟩ := laid.addr there lowO
      obtain ⟨eq,block⟩ := data_unique laid.nodup there here lowJ low thereJ (same.trans address.symm)
      subst eq
      rw [same] at before ⊢
      rw [Function.update_self, Function.update_self]
      by_cases early : o % BSIZE < off % BSIZE
      · rw [overlay_out (Or.inl early), before, List.getD_append _ _ _ _ (by unfold BSIZE at *; omega)]
      · by_cases late : off % BSIZE + new.length ≤ o % BSIZE
        · rw [overlay_out (Or.inr late), before, List.getD_eq_getElem?_getD, List.getD_eq_getElem?_getD,
            List.getElem?_eq_none (by unfold BSIZE at *; omega),
            List.getElem?_eq_none (by rw [List.length_append]; unfold BSIZE at *; omega)]
        · have place : o % BSIZE = off % BSIZE + (o - off) := by
            unfold BSIZE at *
            omega
          rw [place, overlay_in (by omega), List.getD_append_right _ _ _ _ (by unfold BSIZE at *; omega), size]
    · rw [Function.update_of_ne same, before]
      by_cases eq : j = i
      · subst eq
        have apart : o / BSIZE ≠ off / BSIZE := by
          intro block
          rw [block] at same
          exact same address
        rw [Function.update_self]
        by_cases early : o < off
        · rw [List.getD_append _ _ _ _ (by omega)]
        · rw [List.getD_eq_getElem?_getD, List.getD_eq_getElem?_getD, List.getElem?_eq_none (by omega),
            List.getElem?_eq_none (by rw [List.length_append]; unfold BSIZE at *; omega)]
      · rw [Function.update_of_ne eq]
  · have below := (laid.mem used).2
    rw [← change, Function.update_of_ne (by omega)]
    exact laid.fresh b high

/-- A block before the data blocks is written. -/
theorem Laid.low (laid : Laid sb disk D X files fb) {c : Nat} (low : c < sb.nmeta) (blk : Block) :
    Laid sb (Function.update disk c blk) D X files fb := by
  have kept : ∀ b ∈ Xv6FsOwn.refs sb disk D, Function.update disk c blk b = disk b := by
    intro b used
    have := (laid.mem used).1
    exact Function.update_of_ne (by omega) _ _
  have lasts : ∀ j ∈ allocated sb D, lastAddr (D j) ≠ 0 →
      Function.update disk c blk (lastAddr (D j)).toNat = disk (lastAddr (D j)).toNat :=
    fun j there some => kept _ (mem_refs_indirect there some)
  refine ⟨?_, laid.start, fun j there => ?_, laid.short, fun j there o lowO => ?_, fun b high => ?_⟩
  · rw [← laid.used]
    exact refs_congr fun j there => blocks_congr (lasts j there)
  · refine ⟨(laid.mapped j there).1, fun m lowM => ?_⟩
    rw [addrAt_congr (lasts j there)]
    exact (laid.mapped j there).2 m lowM
  · rw [← laid.bytes j there o lowO]
    unfold content
    rw [addrAt_congr (lasts j there), kept _ (laid.addr there lowO).2.1]
  · have start := laid.start
    rw [Function.update_of_ne (by omega)]
    exact laid.fresh b high

/-- Only the addresses of the inodes matter. -/
theorem Laid.congr (laid : Laid sb disk D X files fb) {D' : Nat → Dinode} (addrs : ∀ j, (D' j).addrs = (D j).addrs)
    (types : ∀ j, (D' j).type = (D j).type) : Laid sb disk D' X files fb := by
  have same : allocated sb D' = allocated sb D := by
    ext j
    rw [mem_allocated, mem_allocated, types j]
  refine ⟨?_, laid.start, fun j there => ?_, fun j there => ?_, fun j there o low => ?_, laid.fresh⟩
  · rw [← laid.used]
    unfold Xv6FsOwn.refs
    rw [same]
    exact Finset.sum_congr rfl fun j _ => blocks_addrs disk (addrs j)
  · rw [same] at there
    refine ⟨(laid.mapped j there).1, fun m lowM => ?_⟩
    rw [addrAt_addrs disk (addrs j)]
    exact (laid.mapped j there).2 m lowM
  · rw [same] at there
    exact laid.short j there
  · rw [same] at there
    rw [content_addrs disk (addrs j)]
    exact laid.bytes j there o low

/-- An inode without blocks is taken into use. -/
theorem Laid.alloc (laid : Laid sb disk D X files fb) (free : (D i).type = 0) (bare : d.addrs = fun _ => 0) :
    Laid sb disk (Function.update D i d) (Function.update X i 0) (Function.update files i []) fb := by
  have zero : ∀ m, addrAt disk d m = 0 := by
    intro m
    unfold addrAt Dinode.direct lastAddr
    rw [bare]
    split <;> simp
  have old : ∀ j, j ∈ allocated sb (Function.update D i d) → j ≠ i → j ∈ allocated sb D := by
    intro j there other
    rw [mem_allocated, Function.update_of_ne other] at there
    exact mem_allocated.mpr there
  refine ⟨?_, laid.start, fun j there => ?_, fun j there => ?_, fun j there o low => ?_, laid.fresh⟩
  · rw [← laid.used]
    exact refs_swap (Or.inl free) (Or.inr (blocks_none (fun a => by rw [bare]) (by unfold lastAddr; rw [bare])))
  · by_cases eq : j = i
    · subst eq
      rw [Function.update_self, Function.update_self]
      exact ⟨Nat.zero_le _, fun m _ => by simp [zero m]⟩
    · rw [Function.update_of_ne eq, Function.update_of_ne eq]
      exact laid.mapped j (old j there eq)
  · by_cases eq : j = i
    · simp [eq]
    · rw [Function.update_of_ne eq, Function.update_of_ne eq]
      exact laid.short j (old j there eq)
  · by_cases eq : j = i
    · subst eq
      rw [Function.update_self] at low
      exact absurd low (Nat.not_lt_zero _)
    · rw [Function.update_of_ne eq] at low ⊢
      rw [Function.update_of_ne eq]
      exact laid.bytes j (old j there eq) o low

end Growth
end Xv6FsLayout
