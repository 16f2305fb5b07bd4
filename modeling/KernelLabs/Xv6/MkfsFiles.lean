import KernelLabs.Xv6.FsLayout
import KernelLabs.Xv6.Mkfs

/-!
What `iappend` does to the image: the bytes are appended to the file, in the block it ends in
and in blocks taken from the mark `freeblock`, and nothing else changes.
-/
namespace Xv6Mkfs
open Xv6Fs Xv6FsDisk Xv6FsOwn Xv6FsVolume Xv6FsFile Xv6FsLayout Bytes

/-- The data blocks of a file of this size. -/
def blocksFor (size : Nat) : Nat := (size + BSIZE - 1) / BSIZE

/-- The same with the indirect block. -/
def cost (size : Nat) : Nat := blocksFor size + if NDIRECT * BSIZE < size then 1 else 0

/-- The table `D` of inodes, some of them not yet on disk, with the files as they are. -/
structure Laying (m : Image) (D : Nat → Dinode) (files : Nat → Bytes) : Prop where
  laid : Laid sb m.disk D (fun j => blocksFor (files j).length) files m.freeblock
  tight : ∀ j ∈ allocated sb D, lastAddr (D j) ≠ 0 → NDIRECT < blocksFor (files j).length

/-- The result of looking for block `fbn` of inode `i`, which has `off` bytes. -/
structure Blocked (m : Image) (D : Nat → Dinode) (files : Nat → Bytes) (i off fbn : Nat) (r : Image × Dinode × Nat) :
    Prop where
  laid : Laid sb r.1.disk (Function.update D i r.2.1)
    (Function.update (fun j => blocksFor (files j).length) i (fbn + 1)) files r.1.freeblock
  tight : lastAddr r.2.1 ≠ 0 → NDIRECT < fbn + 1
  place : r.2.2 = addrAt r.1.disk r.2.1 fbn
  fields : r.2.1 = { D i with addrs := r.2.1.addrs }
  low : ∀ c, c < sb.nmeta → r.1.disk c = m.disk c
  inode : r.1.freeinode = m.freeinode
  blocks : r.1.freeblock + cost off = m.freeblock + cost (off + 1)

section Blocks
variable {m : Image} {D : Nat → Dinode} {files : Nat → Bytes} {i off : Nat}

theorem cost_same (part : off % BSIZE ≠ 0) : cost (off + 1) = cost off ∧ blocksFor off = off / BSIZE + 1 := by
  unfold cost blocksFor NDIRECT BSIZE at *
  split <;> split <;> omega

theorem cost_more (full : off % BSIZE = 0) : blocksFor off = off / BSIZE ∧
    cost (off + 1) = cost off + if off / BSIZE = NDIRECT then 2 else 1 := by
  unfold cost blocksFor NDIRECT BSIZE at *
  split <;> split <;> split <;> omega

theorem sb_size (small : m.freeblock < sb.size) : m.freeblock < 2 ^ 32 := addr_small small

theorem addrAt_near {disk : Nat → Block} {d : Dinode} {fbn : Nat} (low : fbn < NDIRECT) :
    addrAt disk d fbn = (d.addrs (Fin.ofNat _ fbn)).toNat := by
  unfold addrAt
  rw [if_pos low]
  rfl

theorem addrAt_far {disk : Nat → Block} {d : Dinode} {fbn : Nat} (far : ¬ fbn < NDIRECT) (some : lastAddr d ≠ 0) :
    addrAt disk d fbn = field (disk (lastAddr d).toNat) (4 * (fbn - NDIRECT)) 4 := by
  unfold addrAt
  rw [if_neg far, if_neg some]

theorem toNat_ne_zero {x : UInt32} : x.toNat ≠ 0 ↔ x ≠ 0 := by
  constructor
  · rintro some rfl
    exact some rfl
  · intro some zero
    exact some (UInt32.toNat_inj.mp zero)

theorem block_direct (laying : Laying m D files) (here : i ∈ allocated sb D) (size : (files i).length = off)
    (low : off / BSIZE < NDIRECT) (small : m.freeblock + cost (off + 1) ≤ sb.size + cost off) :
    Blocked m D files i off (off / BSIZE) (m.block (D i) (off / BSIZE)) := by
  have far : off / BSIZE < MAXFILE := Nat.lt_of_lt_of_le low (Nat.le_add_right _ _)
  have there := (laying.laid.mapped i here).2 _ far
  rw [addrAt_near low, toNat_ne_zero, size] at there
  have tight : lastAddr (D i) ≠ 0 → NDIRECT < off / BSIZE + 1 := by
    intro some
    have bound := laying.tight i here some
    rw [size] at bound
    unfold blocksFor BSIZE at *
    omega
  unfold Image.block
  rw [if_pos low]
  unfold Image.setAddr
  by_cases part : off % BSIZE = 0
  · obtain ⟨count,more⟩ := cost_more part
    rw [if_neg (by omega)] at more
    have none : (D i).addrs (Fin.ofNat _ (off / BSIZE)) = 0 := by
      by_contra some
      have := there.mp some
      omega
    have grown := laying.laid.direct here (sb_size (by omega)) (by rw [size, count]; exact low)
    rw [size, count] at grown
    rw [if_pos none]
    refine ⟨grown, fun some => tight ?_, (addrAt_near low).symm, rfl, fun _ _ => rfl, rfl, ?_⟩
    · rw [← lastAddr_direct (b := m.freeblock) low]
      exact some
    · change m.freeblock + 1 + cost off = m.freeblock + cost (off + 1)
      omega
  · obtain ⟨same,count⟩ := cost_same part
    have some : (D i).addrs (Fin.ofNat _ (off / BSIZE)) ≠ 0 := there.mpr (by omega)
    rw [if_neg some]
    refine ⟨?_, tight, (addrAt_near low).symm, rfl, fun _ _ => rfl, rfl, ?_⟩
    · rw [Function.update_eq_self, ← count, ← size, Function.update_eq_self]
      exact laying.laid
    · rw [same]

/-- The indirect block is there, and the entry is found or made. -/
theorem block_entry {d : Dinode} (laid : Laid sb m.disk D (fun j => blocksFor (files j).length) files m.freeblock)
    (here : i ∈ allocated sb D) (mine : D i = d) (size : (files i).length = off) (far : ¬ off / BSIZE < NDIRECT)
    (low : off / BSIZE < MAXFILE) (some : lastAddr d ≠ 0) (room : off % BSIZE = 0 → m.freeblock < sb.size) :
    let t := m.setEntry (lastAddr d).toNat (off / BSIZE)
    Laid sb t.disk D (Function.update (fun j => blocksFor (files j).length) i (off / BSIZE + 1)) files t.freeblock ∧
    field (t.disk (lastAddr d).toNat) (4 * (off / BSIZE - NDIRECT)) 4 = addrAt t.disk d (off / BSIZE) ∧
    (∀ c, c < sb.nmeta → t.disk c = m.disk c) ∧ t.freeinode = m.freeinode ∧
    t.freeblock = m.freeblock + if off % BSIZE = 0 then 1 else 0 := by
  subst mine
  have there := (laid.mapped i here).2 _ low
  rw [addrAt_far far some, size] at there
  intro t
  have made : t = m.setEntry (lastAddr (D i)).toNat (off / BSIZE) := rfl
  unfold Image.setEntry at made
  by_cases part : off % BSIZE = 0
  · obtain ⟨count,_⟩ := cost_more part
    have none : field (m.disk (lastAddr (D i)).toNat) (4 * (off / BSIZE - NDIRECT)) 4 = 0 := by
      by_contra entry
      have := there.mp entry
      omega
    rw [if_pos none] at made
    have grown := laid.entry here (sb_size (room part)) (by rw [size, count]; omega) (by rw [size, count]; exact low) some
    rw [size, count] at grown
    rw [made]
    refine ⟨grown, (addrAt_far far some).symm, fun c lowC => ?_, rfl, ?_⟩
    · have area := (laid.mem (mem_refs_indirect here some)).1
      exact Function.update_of_ne (by omega) _ _
    · rw [if_pos part]
      rfl
  · obtain ⟨_,count⟩ := cost_same part
    rw [if_neg (there.mpr (by omega))] at made
    rw [made]
    refine ⟨?_, (addrAt_far far some).symm, fun _ _ => rfl, rfl, ?_⟩
    · rw [← count, ← size, Function.update_eq_self]
      exact laid
    · rw [if_neg part]
      rfl

theorem block_indirect (laying : Laying m D files) (here : i ∈ allocated sb D) (size : (files i).length = off)
    (far : ¬ off / BSIZE < NDIRECT) (low : off / BSIZE < MAXFILE)
    (small : m.freeblock + cost (off + 1) ≤ sb.size + cost off) :
    Blocked m D files i off (off / BSIZE) (m.block (D i) (off / BSIZE)) := by
  have there := (laying.laid.mapped i here).2 _ low
  rw [size] at there
  unfold Image.block
  rw [if_neg far]
  unfold Image.setAddr
  by_cases none : lastAddr (D i) = 0
  · have absent : addrAt m.disk (D i) (off / BSIZE) = 0 := by
      unfold addrAt
      rw [if_neg far, if_pos none]
    have few : ¬ NDIRECT < blocksFor off := by
      intro many
      have first := ((laying.laid.mapped i here).2 NDIRECT (by decide)).mpr (by rw [size]; exact many)
      unfold addrAt at first
      rw [if_neg (by decide), if_pos none] at first
      exact first rfl
    have first : off / BSIZE = NDIRECT ∧ off % BSIZE = 0 := by
      unfold blocksFor NDIRECT BSIZE at *
      omega
    obtain ⟨count,more⟩ := cost_more first.2
    rw [if_pos first.1] at more
    have none' : (D i).addrs (Fin.last NDIRECT) = 0 := none
    rw [if_pos none']
    have grown := laying.laid.indirect here (sb_size (by omega)) none
    have last : lastAddr (withAddr (Fin.last NDIRECT) m.freeblock (D i)) ≠ 0 := by
      rw [lastAddr_last]
      exact ofNat_ne_zero (sb_size (by omega)) laying.laid.nonzero
    have inside : i ∈ allocated sb (Function.update D i (withAddr (Fin.last NDIRECT) m.freeblock (D i))) := by
      rw [mem_allocated, Function.update_self]
      exact mem_allocated.mp here
    obtain ⟨laid,entry,kept,inode,blocks⟩ := block_entry (m := { m with freeblock := m.freeblock + 1 }) grown inside
      (Function.update_self _ _ _) size far low last (fun _ => by change m.freeblock + 1 < sb.size; omega)
    refine ⟨laid, fun _ => by omega, entry, rfl, kept, inode, ?_⟩
    rw [if_pos first.2] at blocks
    exact (congrArg (· + cost off) blocks).trans (by change m.freeblock + 1 + 1 + cost off = _; omega)
  · have tight := laying.tight i here none
    rw [size] at tight
    have none' : ¬ (D i).addrs (Fin.last NDIRECT) = 0 := none
    rw [if_neg none']
    obtain ⟨laid,entry,kept,inode,blocks⟩ := block_entry laying.laid here rfl size far low none (fun full => by
      obtain ⟨_,more⟩ := cost_more full
      split at more <;> omega)
    refine ⟨?_, fun _ => by omega, entry, rfl, kept, inode, ?_⟩
    · rw [Function.update_eq_self]
      exact laid
    · refine (congrArg (· + cost off) blocks).trans ?_
      by_cases part : off % BSIZE = 0
      · obtain ⟨count,more⟩ := cost_more part
        rw [if_neg (by omega)] at more
        rw [if_pos part]
        omega
      · obtain ⟨same,_⟩ := cost_same part
        rw [if_neg part]
        omega

theorem block_spec (laying : Laying m D files) (here : i ∈ allocated sb D) (size : (files i).length = off)
    (low : off / BSIZE < MAXFILE) (small : m.freeblock + cost (off + 1) ≤ sb.size + cost off) :
    Blocked m D files i off (off / BSIZE) (m.block (D i) (off / BSIZE)) := by
  by_cases near : off / BSIZE < NDIRECT
  · exact block_direct laying here size near small
  · exact block_indirect laying here size near low small

end Blocks

/-- Bytes have been appended to inode `i`, but its size is not yet set. -/
structure Appended (m : Image) (D : Nat → Dinode) (files : Nat → Bytes) (i : Nat) (p : Bytes) (m' : Image)
    (d' : Dinode) : Prop where
  laying : Laying m' (Function.update D i d') (Function.update files i (files i ++ p))
  fields : d' = { D i with addrs := d'.addrs }
  low : ∀ c, c < sb.nmeta → m'.disk c = m.disk c
  inode : m'.freeinode = m.freeinode
  blocks : m'.freeblock + cost (files i).length = m.freeblock + cost ((files i).length + p.length)

section Appending
variable {m : Image} {D : Nat → Dinode} {files : Nat → Bytes} {i off : Nat}

theorem Appended.refl (laying : Laying m D files) : Appended m D files i [] m (D i) := by
  refine ⟨?_, rfl, fun _ _ => rfl, rfl, rfl⟩
  rw [List.append_nil, Function.update_eq_self, Function.update_eq_self]
  exact laying

theorem Appended.trans {m' m'' : Image} {d' d'' : Dinode} {p q : Bytes} (first : Appended m D files i p m' d')
    (second : Appended m' (Function.update D i d') (Function.update files i (files i ++ p)) i q m'' d'') :
    Appended m D files i (p ++ q) m'' d'' := by
  obtain ⟨laying,fields,low,inode,blocks⟩ := second
  rw [Function.update_self, Function.update_idem, Function.update_idem, List.append_assoc] at laying
  rw [Function.update_self, List.length_append] at blocks
  refine ⟨laying, ?_, fun c lowC => (low c lowC).trans (first.low c lowC), inode.trans first.inode, ?_⟩
  · rw [Function.update_self] at fields
    rw [fields, first.fields]
  · have before := first.blocks
    rw [List.length_append, ← Nat.add_assoc]
    omega

theorem overlay_congr {blk : Block} {o n : Nat} {f g : Nat → BitVec 8} (same : ∀ j, j < n → f j = g j) :
    overlay blk o n f = overlay blk o n g := by
  funext j
  unfold overlay
  split
  · exact same _ (by omega)
  · rfl

theorem typed_update {d : Dinode} (here : i ∈ allocated sb D) (fields : d = { D i with addrs := d.addrs }) :
    i ∈ allocated sb (Function.update D i d) := by
  rw [mem_allocated, Function.update_self, fields]
  exact mem_allocated.mp here

/-- One turn of the loop. -/
theorem turn_spec (laying : Laying m D files) (here : i ∈ allocated sb D) {p : Bytes} (some : p ≠ []) {n1 : Nat}
    (size : (files i).length = off) (chunk : min p.length ((off / BSIZE + 1) * BSIZE - off) = n1)
    (low : off / BSIZE < MAXFILE) (small : m.freeblock + cost (off + 1) ≤ sb.size + cost off) {r : Image × Dinode × Nat}
    (found : m.block (D i) (off / BSIZE) = r) : Appended m D files i (p.take n1) (r.1.wsect r.2.2
      (overlay (r.1.disk r.2.2) (off - off / BSIZE * BSIZE) n1 fun j => p.getD j 0#8)) r.2.1 := by
  have blocked : Blocked m D files i off (off / BSIZE) r := found ▸ block_spec laying here size low small
  have pos : 0 < p.length := List.length_pos_of_ne_nil some
  have count : (p.take n1).length = n1 := List.length_take_of_le (chunk ▸ Nat.min_le_left _ _)
  have inside : off % BSIZE + n1 ≤ BSIZE ∧ 0 < n1 ∧ off - off / BSIZE * BSIZE = off % BSIZE := by
    rw [← chunk]
    unfold BSIZE
    omega
  have there := typed_update here blocked.fields
  have wrote := blocked.laid.write there (p.take n1) size (by rw [Function.update_self]; exact Nat.lt_succ_self _)
    (by rw [count]; exact inside.1)
  rw [Function.update_self, ← blocked.place, count, ← inside.2.2, overlay_congr (g := fun j => p.getD j 0#8) fun j lowJ => by
    rw [List.getD_eq_getElem?_getD, List.getElem?_take_of_lt lowJ, List.getD_eq_getElem?_getD]] at wrote
  have counts : (fun j => blocksFor (Function.update files i (files i ++ p.take n1) j).length) =
      Function.update (fun j => blocksFor (files j).length) i (off / BSIZE + 1) := by
    funext j
    by_cases eq : j = i
    · subst eq
      rw [Function.update_self, Function.update_self, List.length_append, count, size]
      unfold blocksFor BSIZE at *
      omega
    · rw [Function.update_of_ne eq, Function.update_of_ne eq]
  refine ⟨⟨?_, fun j thereJ last => ?_⟩, blocked.fields, fun c lowC => ?_, blocked.inode, ?_⟩
  · rw [counts]
    exact wrote
  · rw [congrFun counts j]
    by_cases eq : j = i
    · subst eq
      rw [Function.update_self] at last ⊢
      exact blocked.tight last
    · rw [Function.update_of_ne eq] at last ⊢
      refine laying.tight j ?_ last
      rw [mem_allocated, Function.update_of_ne eq] at thereJ
      exact mem_allocated.mpr thereJ
  · have area := (blocked.laid.mem (blocked.laid.addr there (by
      rw [Function.update_self]; exact Nat.lt_succ_self _)).2.1).1
    rw [Function.update_self, ← blocked.place] at area
    change Function.update r.1.disk r.2.2 _ c = m.disk c
    rw [Function.update_of_ne (by omega)]
    exact blocked.low c lowC
  · have same : cost (off + n1) = cost (off + 1) := by
      unfold cost blocksFor NDIRECT BSIZE at *
      split <;> split <;> omega
    rw [count, size, same]
    exact blocked.blocks

theorem cost_mono {a b : Nat} (le : a ≤ b) : cost a ≤ cost b := by
  unfold cost blocksFor NDIRECT BSIZE
  split <;> split <;> omega

theorem loop_spec (fuel : Nat) {p : Bytes} (enough : p.length ≤ fuel) (laying : Laying m D files)
    (here : i ∈ allocated sb D) (room : (files i).length + p.length ≤ MAXFILE * BSIZE)
    (small : m.freeblock + cost ((files i).length + p.length) ≤ sb.size + cost (files i).length) :
    ∃ m' d', iappendLoop fuel m (D i) (files i).length p = some (m', d', (files i).length + p.length) ∧
      Appended m D files i p m' d' := by
  induction fuel generalizing m D files p with
  | zero =>
    have none : p = [] := List.length_eq_zero_iff.mp (Nat.le_zero.mp enough)
    subst none
    exact ⟨m, D i, rfl, Appended.refl laying⟩
  | succ fuel ih =>
    unfold iappendLoop
    by_cases none : p = []
    · subst none
      exact ⟨m, D i, rfl, Appended.refl laying⟩
    · have pos : 0 < p.length := List.length_pos_of_ne_nil none
      have low : (files i).length / BSIZE < MAXFILE := by
        unfold MAXFILE NDIRECT NINDIRECT BSIZE at *
        omega
      have grows := cost_mono (show (files i).length + 1 ≤ (files i).length + p.length by omega)
      rw [if_neg none]
      dsimp only
      rw [if_pos low]
      generalize found : m.block (D i) ((files i).length / BSIZE) = r
      obtain ⟨m1,d1,x⟩ := r
      dsimp only
      generalize chunk : min p.length (((files i).length / BSIZE + 1) * BSIZE - (files i).length) = n1
      have turn := turn_spec laying here none rfl chunk low (by omega) found
      dsimp only at turn
      have fits : n1 ≤ p.length ∧ 0 < n1 := by
        rw [← chunk]
        unfold BSIZE
        omega
      have count : (p.take n1).length = n1 := List.length_take_of_le fits.1
      have rest : (p.drop n1).length = p.length - n1 := List.length_drop
      have blocks := turn.blocks
      rw [count] at blocks
      have there := typed_update here turn.fields
      have total : n1 + (p.length - n1) = p.length := by omega
      obtain ⟨m',d',run,more⟩ := ih (p := p.drop n1) (by omega) turn.laying there
        (by rw [Function.update_self, List.length_append, count, rest]; omega)
        (by
          rw [Function.update_self, List.length_append, count, rest, Nat.add_assoc, total]
          have := cost_mono (show (files i).length + n1 ≤ (files i).length + p.length by omega)
          omega)
      rw [Function.update_self, Function.update_self, List.length_append, count, rest, Nat.add_assoc, total] at run
      refine ⟨m', d', run, ?_⟩
      have both := turn.trans more
      rwa [List.take_append_drop] at both

end Appending

/-- The type of an inode when `freeinode` is the next one to be used. -/
def kind (freeinode j : Nat) : UInt16 :=
  if j = 0 ∨ freeinode ≤ j then 0 else if j = ROOTINO then T_DIR else T_FILE

/-- Between the calls of `iappend`: the table `D` is on disk. -/
structure Table (m : Image) (D : Nat → Dinode) (files : Nat → Bytes) : Prop where
  laying : Laying m D files
  disk : ∀ j, j < sb.ninodes → m.rinode j = D j
  kinds : ∀ j, j < sb.ninodes → (D j).type = kind m.freeinode j
  sizes : ∀ j ∈ allocated sb D, (D j).size.toNat = (files j).length
  super : m.disk 1 = blank.disk 1

section Tables
variable {m : Image} {D : Nat → Dinode} {files : Nat → Bytes} {i : Nat}

theorem kind_ne_zero {n j : Nat} : kind n j ≠ 0 ↔ 1 ≤ j ∧ j < n := by
  unfold kind
  split
  · simp
    omega
  · split
    · simp [T_DIR]
      omega
    · simp [T_FILE]
      omega

theorem Table.mem (table : Table m D files) : i ∈ allocated sb D ↔ i < sb.ninodes ∧ 1 ≤ i ∧ i < m.freeinode := by
  rw [mem_allocated]
  constructor
  · rintro ⟨low,typed⟩
    rw [table.kinds i low] at typed
    exact ⟨low, kind_ne_zero.mp typed⟩
  · rintro ⟨low,typed⟩
    rw [table.kinds i low]
    exact ⟨low, kind_ne_zero.mpr typed⟩

theorem iblock_area (low : i < sb.ninodes) : IBLOCK sb i < sb.nmeta ∧ IBLOCK sb i ≠ 1 := by
  have high := iblock_low low
  have := bmapstart_le sb
  have start : 32 ≤ IBLOCK sb i := Nat.le_add_left _ _
  omega

theorem rinode_winode (d : Dinode) (j : Nat) : (m.winode i d).rinode j = if j = i then d else m.rinode j :=
  dinodeAt_write i j d

theorem winode_super {d : Dinode} (inside : i < sb.ninodes) : (m.winode i d).disk 1 = m.disk 1 := by
  unfold Image.winode Image.wsect
  dsimp only
  rw [Function.update_of_ne (iblock_area inside).2.symm]

theorem rinode_low {m' : Image} {j : Nat} (low : ∀ c, c < sb.nmeta → m'.disk c = m.disk c) (inside : j < sb.ninodes) :
    m'.rinode j = m.rinode j := dinodeAt_congr (low _ (iblock_area inside).1)

/-- A disk inode is written, with the addresses and the type that it has in the table. -/
theorem Laying.winode (laying : Laying m D files) {d : Dinode} (inside : i < sb.ninodes)
    (addrs : d.addrs = (D i).addrs) (type : d.type = (D i).type) : Laying (m.winode i d) (Function.update D i d) files := by
  have update : ∀ j, (Function.update D i d j).addrs = (D j).addrs ∧ (Function.update D i d j).type = (D j).type := by
    intro j
    by_cases eq : j = i
    · subst eq
      rw [Function.update_self]
      exact ⟨addrs,type⟩
    · rw [Function.update_of_ne eq]
      exact ⟨rfl,rfl⟩
  refine ⟨(laying.laid.low (iblock_area inside).1 _).congr (fun j => (update j).1) fun j => (update j).2,
    fun j there last => laying.tight j ?_ ?_⟩
  · rw [mem_allocated, (update j).2] at there
    exact mem_allocated.mpr there
  · unfold lastAddr at last ⊢
    rwa [(update j).1] at last

theorem iappend_spec {p : Bytes} (table : Table m D files) (here : i ∈ allocated sb D)
    (room : (files i).length + p.length ≤ MAXFILE * BSIZE)
    (small : m.freeblock + cost ((files i).length + p.length) ≤ sb.size + cost (files i).length) :
    ∃ m' D', m.iappend i p = some m' ∧ Table m' D' (Function.update files i (files i ++ p)) ∧
      m'.freeinode = m.freeinode ∧
      m'.freeblock + cost (files i).length = m.freeblock + cost ((files i).length + p.length) := by
  have inside := (mem_allocated.mp here).1
  obtain ⟨m1,d1,run,appended⟩ := loop_spec p.length (Nat.le_refl _) table.laying here room small
  let d : Dinode := { d1 with size := UInt32.ofNat ((files i).length + p.length) }
  have type : d.type = (D i).type := by
    change d1.type = (D i).type
    rw [appended.fields]
  have written := appended.laying.winode inside (d := d) (by rw [Function.update_self]) (by
    rw [Function.update_self])
  rw [Function.update_idem] at written
  refine ⟨m1.winode i d, Function.update D i d, ?_, ⟨written, fun j low => ?_, fun j low => ?_, fun j there => ?_, ?_⟩,
    appended.inode, appended.blocks⟩
  · unfold Image.iappend
    dsimp only
    rw [table.disk i inside, table.sizes i here, run]
    rfl
  · rw [rinode_winode]
    by_cases eq : j = i
    · rw [if_pos eq, eq, Function.update_self]
    · rw [if_neg eq, Function.update_of_ne eq, rinode_low appended.low low]
      exact table.disk j low
  · have kinds := table.kinds j low
    change _ = kind m1.freeinode j
    rw [appended.inode]
    by_cases eq : j = i
    · rw [eq, Function.update_self, type, ← eq]
      exact kinds
    · rw [Function.update_of_ne eq]
      exact kinds
  · by_cases eq : j = i
    · rw [eq, Function.update_self, Function.update_self, List.length_append]
      exact UInt32.toNat_ofNat_of_lt' (Nat.lt_of_le_of_lt room (by decide))
    · rw [Function.update_of_ne eq, Function.update_of_ne eq]
      refine table.sizes j ?_
      rw [mem_allocated, Function.update_of_ne eq] at there
      exact mem_allocated.mpr there
  · rw [winode_super inside, appended.low 1 (by decide)]
    exact table.super

theorem ialloc_spec (type : UInt16) (table : Table m D files) (inside : m.freeinode < sb.ninodes) (some : 1 ≤ m.freeinode)
    (right : type = if m.freeinode = ROOTINO then T_DIR else T_FILE) :
    ∃ D', Table (m.ialloc type) D' (Function.update files m.freeinode []) := by
  let d : Dinode := { Dinode.zero with type := type, nlink := 1 }
  have free : (D m.freeinode).type = 0 := by
    rw [table.kinds _ inside]
    unfold kind
    rw [if_pos (Or.inr (Nat.le_refl _))]
  have laid := (table.laying.laid.alloc (d := d) free rfl).low (iblock_area inside).1
    (overlay (m.disk (IBLOCK sb m.freeinode)) (m.freeinode % IPB * 64) 64 d.bytes)
  have counts : (fun j => blocksFor (Function.update files m.freeinode [] j).length) =
      Function.update (fun j => blocksFor (files j).length) m.freeinode 0 := by
    funext j
    by_cases eq : j = m.freeinode
    · rw [eq, Function.update_self, Function.update_self]
      rfl
    · rw [Function.update_of_ne eq, Function.update_of_ne eq]
  have old : ∀ j, j ∈ allocated sb (Function.update D m.freeinode d) → j ≠ m.freeinode → j ∈ allocated sb D := by
    intro j there other
    rw [mem_allocated, Function.update_of_ne other] at there
    exact mem_allocated.mpr there
  refine ⟨Function.update D m.freeinode d, ⟨⟨?_, fun j there last => ?_⟩, fun j low => ?_, fun j low => ?_,
    fun j there => ?_, ?_⟩⟩
  · rw [counts]
    exact laid
  · by_cases eq : j = m.freeinode
    · rw [eq, Function.update_self] at last
      exact absurd rfl last
    · rw [Function.update_of_ne eq] at last ⊢
      exact table.laying.tight j (old j there eq) last
  · refine (rinode_winode d j).trans ?_
    by_cases eq : j = m.freeinode
    · rw [if_pos eq, eq, Function.update_self]
    · rw [if_neg eq, Function.update_of_ne eq]
      exact table.disk j low
  · change _ = kind (m.freeinode + 1) j
    by_cases eq : j = m.freeinode
    · rw [eq, Function.update_self]
      unfold kind
      rw [if_neg (by omega)]
      exact right
    · rw [Function.update_of_ne eq, table.kinds j low]
      unfold kind
      congr 1
      rw [eq_iff_iff]
      omega
  · by_cases eq : j = m.freeinode
    · rw [eq, Function.update_self, Function.update_self]
      rfl
    · rw [Function.update_of_ne eq, Function.update_of_ne eq]
      exact table.sizes j (old j there eq)
  · exact (winode_super (m := { m with freeinode := m.freeinode + 1 }) inside).trans table.super

end Tables
end Xv6Mkfs
