import KernelLabs.Xv6.MkfsFiles

/-!
The image that `mkfs` makes of a list of files: the root directory has its entries, each file
its bytes, and the blocks in use are those that the bitmap marks.
-/
namespace Xv6Mkfs
open Xv6Fs Xv6FsDisk Xv6FsOwn Xv6FsVolume Xv6FsFile Xv6FsLayout Bytes

/-- The bytes of the root directory. -/
def entryList (files : List Input) : List Bytes :=
  dirent ROOTINO dot :: dirent ROOTINO dotdot :: files.mapIdx fun k f => dirent (k + 2) f.stored

def entries (files : List Input) : Bytes := (entryList files).flatten

/-- The files fit: there are inodes and blocks for them, none is too long, and the names in the
    root directory differ in what is stored of them. `mkfs` takes no name with a slash. -/
structure Fits (files : List Input) : Prop where
  inodes : files.length + 1 ≤ 199
  blocks : nmeta + cost (DIRENT * (files.length + 2)) + (files.map fun f => cost f.bytes.length).sum ≤ FSSIZE
  sizes : ∀ f ∈ files, f.bytes.length ≤ MAXFILE * BSIZE
  names : ((dot :: dotdot :: files.map Input.stored).map (List.take DIRSIZ)).Nodup
  slashes : ∀ f ∈ files, slash ∉ f.name

/-- The files `done` are in the image. -/
structure Filled (m : Image) (D : Nat → Dinode) (F : Nat → Bytes) (done : List Input) : Prop where
  table : Table m D F
  root : F ROOTINO = entries done
  each : ∀ k f, done[k]? = some f → F (k + 2) = f.bytes
  inode : m.freeinode = done.length + 2
  blocks : m.freeblock = nmeta + cost (entries done).length + (done.map fun f => cost f.bytes.length).sum

section Filling
variable {m : Image} {D : Nat → Dinode} {F : Nat → Bytes} {done : List Input}

theorem dirent_length (inum : Nat) (name : Bytes) : (dirent inum name).length = DIRENT := by
  simp [dirent]

theorem entries_width {c : Bytes} {files : List Input} (member : c ∈ entryList files) : c.length = DIRENT := by
  simp only [entryList, List.mem_cons, List.mem_mapIdx] at member
  rcases member with rfl | rfl | ⟨k,_,rfl⟩
  · exact dirent_length _ _
  · exact dirent_length _ _
  · exact dirent_length _ _

theorem flatten_length {L : List Bytes} {w : Nat} (width : ∀ c ∈ L, c.length = w) : L.flatten.length = w * L.length := by
  induction L with
  | nil => rfl
  | cons c rest ih =>
    rw [List.flatten_cons, List.length_append, ih fun d member => width d (List.mem_cons_of_mem _ member),
      width c List.mem_cons_self, List.length_cons, Nat.mul_succ, Nat.add_comm]

theorem entries_length (files : List Input) : (entries files).length = DIRENT * (files.length + 2) := by
  rw [entries, flatten_length fun c => entries_width]
  simp [entryList]

theorem entries_snoc (files : List Input) (f : Input) :
    entries (files ++ [f]) = entries files ++ dirent (files.length + 2) f.stored := by
  simp [entries, entryList, List.mapIdx_append]

/-- The calls of `iappend` for one file. -/
theorem appends_spec {i : Nat} (reads : List Bytes) (table : Table m D F) (here : i < sb.ninodes ∧ 1 ≤ i ∧ i < m.freeinode)
    (room : (F i).length + reads.flatten.length ≤ MAXFILE * BSIZE)
    (small : m.freeblock + cost ((F i).length + reads.flatten.length) ≤ sb.size + cost (F i).length) :
    ∃ m' D', reads.foldlM (fun m buf => m.iappend i buf) m = some m' ∧
      Table m' D' (Function.update F i (F i ++ reads.flatten)) ∧ m'.freeinode = m.freeinode ∧
      m'.freeblock + cost (F i).length = m.freeblock + cost ((F i).length + reads.flatten.length) := by
  induction reads generalizing m D F with
  | nil =>
    refine ⟨m, D, rfl, ?_, rfl, rfl⟩
    rw [List.flatten_nil, List.append_nil, Function.update_eq_self]
    exact table
  | cons buf rest ih =>
    rw [List.flatten_cons, List.length_append] at room small
    have grows := cost_mono (show (F i).length + buf.length ≤ (F i).length + (buf.length + rest.flatten.length) by omega)
    obtain ⟨m1,D1,run,table1,inode,blocks⟩ := iappend_spec table (table.mem.mpr here) (by omega)
      (show m.freeblock + cost ((F i).length + buf.length) ≤ sb.size + cost (F i).length by omega)
    obtain ⟨m2,D2,runs,table2,inode2,blocks2⟩ := ih table1 (by rw [inode]; exact here)
      (by rw [Function.update_self, List.length_append]; omega)
      (by rw [Function.update_self, List.length_append, Nat.add_assoc]; omega)
    rw [Function.update_self, List.length_append, Nat.add_assoc] at blocks2
    rw [Function.update_self, Function.update_idem, List.append_assoc] at table2
    refine ⟨m2, D2, ?_, ?_, inode2.trans inode, ?_⟩
    · rw [List.foldlM_cons, run]
      exact runs
    · rw [List.flatten_cons]
      exact table2
    · rw [List.flatten_cons, List.length_append]
      omega

theorem addFile_spec (filled : Filled m D F done) {f : Input} (inodes : done.length + 2 < sb.ninodes)
    (blocks : nmeta + cost (DIRENT * (done.length + 3)) + (done.map fun f => cost f.bytes.length).sum + cost f.bytes.length
      ≤ sb.size) (size : f.bytes.length ≤ MAXFILE * BSIZE) (slashes : slash ∉ f.name) :
    ∃ m' D' F', m.addFile f = some m' ∧ Filled m' D' F' (done ++ [f]) := by
  have inum := filled.inode
  have used := filled.blocks
  have width := entries_length done
  rw [width] at used
  obtain ⟨D1,table1⟩ := ialloc_spec T_FILE filled.table (by omega) (by omega)
    (by rw [if_neg (by rw [inum]; unfold ROOTINO; omega)])
  have other : ROOTINO ≠ m.freeinode := by
    rw [inum]
    unfold ROOTINO
    omega
  have room : DIRENT * (done.length + 3) ≤ MAXFILE * BSIZE := by
    unfold DIRENT DIRSIZ MAXFILE NDIRECT NINDIRECT BSIZE at *
    change done.length + 2 < 200 at inodes
    omega
  have root : (Function.update F m.freeinode [] ROOTINO).length = DIRENT * (done.length + 2) := by
    rw [Function.update_of_ne other, filled.root, width]
  have longer : DIRENT * (done.length + 2) + DIRENT = DIRENT * (done.length + 3) := rfl
  have alloc : (m.ialloc T_FILE).freeblock = m.freeblock ∧ (m.ialloc T_FILE).freeinode = m.freeinode + 1 := ⟨rfl,rfl⟩
  obtain ⟨m2,D2,run2,table2,inode2,blocks2⟩ := iappend_spec (p := dirent m.freeinode f.stored) table1
    (table1.mem.mpr (show ROOTINO < sb.ninodes ∧ _ ∧ _ from ⟨by decide, by decide, by rw [alloc.2, inum]; unfold ROOTINO; omega⟩))
    (by rw [root, dirent_length, longer]; exact room)
    (by rw [root, dirent_length, longer, alloc.1, used]; omega)
  rw [root, dirent_length, longer, alloc.1] at blocks2
  rw [alloc.2] at inode2
  have mine : Function.update (Function.update F m.freeinode []) ROOTINO
      (Function.update F m.freeinode [] ROOTINO ++ dirent m.freeinode f.stored) m.freeinode = [] := by
    rw [Function.update_of_ne (Ne.symm other), Function.update_self]
  have none : cost 0 = 0 := rfl
  obtain ⟨m3,D3,run3,table3,inode3,blocks3⟩ := appends_spec (i := m.freeinode) f.reads table2
    (by rw [inode2, inum]; omega)
    (by rw [mine, List.length_nil, Nat.zero_add]; exact size)
    (by
      rw [mine, List.length_nil, Nat.zero_add]
      change m2.freeblock + cost f.bytes.length ≤ sb.size + cost 0
      omega)
  rw [mine, List.length_nil, Nat.zero_add, none] at blocks3
  rw [mine, List.nil_append] at table3
  refine ⟨m3, D3, _, ?_, table3, ?_, fun k g found => ?_, ?_, ?_⟩
  · unfold Image.addFile
    rw [if_neg slashes]
    dsimp only
    rw [run2]
    exact run3
  · rw [Function.update_of_ne other, Function.update_self, Function.update_of_ne other, filled.root, entries_snoc, inum]
  · by_cases last : k = done.length
    · subst last
      simp only [List.getElem?_append_right (Nat.le_refl _), Nat.sub_self, List.getElem?_cons_zero, Option.some.injEq] at found
      rw [← inum, Function.update_self, ← found]
      rfl
    · have low : k < done.length := by
        by_contra high
        rw [List.getElem?_eq_none (by simp; omega)] at found
        simp at found
      rw [List.getElem?_append_left low] at found
      rw [Function.update_of_ne (by omega), Function.update_of_ne (by unfold ROOTINO; omega),
        Function.update_of_ne (by omega)]
      exact filled.each k g found
  · rw [inode3, inode2, inum, List.length_append]
    rfl
  · rw [entries_length, List.length_append, List.map_append, List.sum_append, List.length_singleton]
    simp only [List.map_cons, List.map_nil, List.sum_cons, List.sum_nil, Nat.add_zero]
    change m3.freeblock = nmeta + cost (DIRENT * (done.length + 3)) + _
    change m3.freeblock + 0 = m2.freeblock + cost f.bytes.length at blocks3
    omega

theorem blank_disk {b : Nat} (other : b ≠ 1) : blank.disk b = zeroes := by
  unfold blank
  dsimp only
  rw [Function.update_of_ne other]

theorem read_zeroes (off : Nat) : Dinode.read zeroes off = Dinode.zero := by
  unfold Dinode.read
  simp only [field_zeroes]
  rfl

theorem blank_table : Table blank (fun _ => Dinode.zero) fun _ => [] := by
  have empty : allocated sb (fun _ => Dinode.zero) = ∅ := by
    ext j
    rw [mem_allocated]
    simp [Dinode.zero]
  refine ⟨⟨⟨?_, Nat.le_refl _, fun j there => ?_, fun j there => ?_, fun j there => ?_, fun b high => ?_⟩,
    fun j there => ?_⟩, fun j low => ?_, fun j low => ?_, fun j there => ?_, rfl⟩
  · unfold refs
    rw [empty, Finset.sum_empty]
    exact (congrArg Finset.val (Finset.Ico_self nmeta)).symm
  · simp [empty] at there
  · simp [empty] at there
  · simp [empty] at there
  · refine blank_disk ?_
    change nmeta ≤ b at high
    have : nmeta = 59 := by decide
    omega
  · simp [empty] at there
  · change Dinode.read (blank.disk (IBLOCK sb j)) _ = _
    rw [blank_disk (iblock_area low).2, read_zeroes]
  · unfold kind
    change _ = if j = 0 ∨ 1 ≤ j then _ else _
    rw [if_pos (by omega)]
    rfl
  · simp [empty] at there

/-- The root directory with its first two entries. -/
theorem root_spec : ∃ m1 m D F, (blank.ialloc T_DIR).iappend ROOTINO (dirent ROOTINO dot) = some m1 ∧
    m1.iappend ROOTINO (dirent ROOTINO dotdot) = some m ∧ Filled m D F [] := by
  obtain ⟨D0,table0⟩ := ialloc_spec T_DIR blank_table (by decide) (by decide) rfl
  have none : Function.update (fun _ => []) blank.freeinode [] = (fun _ => [] : Nat → Bytes) :=
    Function.update_eq_self blank.freeinode _
  rw [none] at table0
  obtain ⟨m1,D1,run1,table1,inode1,blocks1⟩ := iappend_spec (i := ROOTINO) (p := dirent ROOTINO dot) table0
    (table0.mem.mpr ⟨by decide, by decide, by decide⟩) (by rw [dirent_length]; decide)
    (by rw [dirent_length]; decide)
  rw [List.nil_append] at table1
  have size : (Function.update (fun _ => []) ROOTINO (dirent ROOTINO dot) ROOTINO : Bytes).length = DIRENT := by
    rw [Function.update_self, dirent_length]
  have free1 : m1.freeblock = nmeta + 1 := by
    rw [dirent_length] at blocks1
    exact blocks1
  obtain ⟨m2,D2,run2,table2,inode2,blocks2⟩ := iappend_spec (i := ROOTINO) (p := dirent ROOTINO dotdot) table1
    (table1.mem.mpr ⟨by decide, by decide, by rw [inode1]; decide⟩) (by rw [size, dirent_length]; decide)
    (by rw [size, dirent_length, free1]; decide)
  rw [Function.update_self, Function.update_idem] at table2
  refine ⟨m1, m2, D2, _, run1, run2, table2, ?_, fun k f found => by simp at found, ?_, ?_⟩
  · rw [Function.update_self]
    simp [entries, entryList]
  · rw [inode2, inode1]
    rfl
  · rw [size, dirent_length, free1] at blocks2
    rw [entries_length]
    change m2.freeblock + 1 = nmeta + 1 + 1 at blocks2
    change m2.freeblock = nmeta + 1 + 0
    omega

theorem files_spec {files : List Input} (fits : Fits files) (rest : List Input) (filled : Filled m D F done)
    (split : done ++ rest = files) :
    ∃ m' D' F', rest.foldlM Image.addFile m = some m' ∧ Filled m' D' F' files := by
  induction rest generalizing m D F done with
  | nil =>
    rw [List.append_nil] at split
    exact ⟨m, D, F, rfl, split ▸ filled⟩
  | cons f rest ih =>
    have member : f ∈ files := by
      rw [← split]
      simp
    have inodes := fits.inodes
    have blocks := fits.blocks
    have count : files.length = done.length + (rest.length + 1) := by
      rw [← split, List.length_append, List.length_cons]
    have sums : (files.map fun f => cost f.bytes.length).sum = (done.map fun f => cost f.bytes.length).sum +
        (cost f.bytes.length + (rest.map fun f => cost f.bytes.length).sum) := by
      rw [← split, List.map_append, List.sum_append, List.map_cons, List.sum_cons]
    have grows := cost_mono (show DIRENT * (done.length + 3) ≤ DIRENT * (files.length + 2) from
      Nat.mul_le_mul_left DIRENT (by omega))
    obtain ⟨m1,D1,F1,run,filled1⟩ := addFile_spec filled (f := f) (by change done.length + 2 < 200; omega)
      (by change _ ≤ FSSIZE; omega) (fits.sizes f member) (fits.slashes f member)
    obtain ⟨m2,D2,F2,runs,filled2⟩ := ih filled1 (by rw [List.append_assoc]; exact split)
    refine ⟨m2, D2, F2, ?_, filled2⟩
    rw [List.foldlM_cons, run]
    exact runs

end Filling

/-- The finished image. -/
structure Built (files : List Input) (img : Image) (D : Nat → Dinode) (F : Nat → Bytes) : Prop where
  laid : Laid sb img.disk D (fun j => blocksFor (F j).length) F img.freeblock
  disk : ∀ j, j < sb.ninodes → img.rinode j = D j
  kinds : ∀ j, j < sb.ninodes → (D j).type = kind (files.length + 2) j
  root : F ROOTINO = entries files
  rootSize : (D ROOTINO).size.toNat = ((entries files).length / BSIZE + 1) * BSIZE
  each : ∀ k f, files[k]? = some f → F (k + 2) = f.bytes
  sizes : ∀ j ∈ allocated sb D, j ≠ ROOTINO → (D j).size.toNat = (F j).length
  super : img.disk 1 = blank.disk 1
  bitmap : img.disk sb.bmapstart = bitmap img.freeblock
  blocks : img.freeblock ≤ sb.size

section Building
variable {m : Image} {D : Nat → Dinode} {F : Nat → Bytes} {files : List Input}

theorem wsect_self (c : Nat) (blk : Block) : (m.wsect c blk).disk c = blk := by
  unfold Image.wsect
  dsimp only
  rw [Function.update_self]

theorem wsect_ne {b c : Nat} (blk : Block) (other : b ≠ c) : (m.wsect c blk).disk b = m.disk b := by
  unfold Image.wsect
  dsimp only
  rw [Function.update_of_ne other]

theorem built_of_filled (fits : Fits files) (filled : Filled m D F files) :
    ∃ img D', m.fixRoot.balloc m.freeblock = some img ∧ Built files img D' F := by
  have inodes := fits.inodes
  have table := filled.table
  have used := filled.blocks
  have blocks : m.freeblock ≤ sb.size := by
    rw [used, entries_length]
    exact fits.blocks
  have rootSize : (entries files).length / BSIZE < 10 := by
    rw [entries_length]
    unfold DIRENT DIRSIZ BSIZE
    omega
  have inside : ROOTINO < sb.ninodes := by decide
  have here : ROOTINO ∈ allocated sb D := table.mem.mpr ⟨inside, by decide, by rw [filled.inode]; unfold ROOTINO; omega⟩
  have size := table.sizes ROOTINO here
  rw [filled.root] at size
  generalize change : ({ m.rinode ROOTINO with
    size := UInt32.ofNat (((m.rinode ROOTINO).size.toNat / BSIZE + 1) * BSIZE) } : Dinode) = d
  have read := table.disk ROOTINO inside
  have fields : d.addrs = (D ROOTINO).addrs ∧ d.type = (D ROOTINO).type ∧
      d.size.toNat = ((entries files).length / BSIZE + 1) * BSIZE := by
    rw [← change, read, size]
    refine ⟨rfl, rfl, UInt32.toNat_ofNat_of_lt' ?_⟩
    unfold BSIZE at *
    change _ < 4294967296
    omega
  have written := table.laying.winode inside fields.1 fields.2.1
  have fixed : m.fixRoot = m.winode ROOTINO d := by
    unfold Image.fixRoot
    rw [← change]
  refine ⟨m.fixRoot.wsect sb.bmapstart (bitmap m.freeblock), Function.update D ROOTINO d, ?_, ?_⟩
  · unfold Image.balloc
    rw [if_pos (Nat.lt_of_le_of_lt blocks (by decide))]
  · rw [fixed]
    refine ⟨written.laid.low (bmapstart_le sb) _, fun j low => ?_, fun j low => ?_, filled.root, ?_, filled.each,
      fun j there other => ?_, ?_, wsect_self _ _, blocks⟩
    · have same : ((m.winode ROOTINO d).wsect sb.bmapstart (bitmap m.freeblock)).rinode j = (m.winode ROOTINO d).rinode j :=
        dinodeAt_congr (wsect_ne _ (Nat.ne_of_lt (iblock_low low)))
      rw [same, rinode_winode]
      by_cases eq : j = ROOTINO
      · rw [if_pos eq, eq, Function.update_self]
      · rw [if_neg eq, Function.update_of_ne eq]
        exact table.disk j low
    · rw [← filled.inode]
      by_cases eq : j = ROOTINO
      · rw [eq, Function.update_self, fields.2.1, ← eq]
        exact table.kinds j low
      · rw [Function.update_of_ne eq]
        exact table.kinds j low
    · rw [Function.update_self]
      exact fields.2.2
    · rw [Function.update_of_ne other]
      rw [mem_allocated, Function.update_of_ne other] at there
      exact table.sizes j (mem_allocated.mpr there)
    · rw [wsect_ne _ (by decide), winode_super inside]
      exact table.super

theorem mkfs_built (fits : Fits files) : ∃ img D F, mkfs files = some img ∧ Built files img D F := by
  obtain ⟨m1,m2,D2,F2,run1,run2,filled2⟩ := root_spec
  obtain ⟨m3,D3,F3,run3,filled3⟩ := files_spec fits files filled2 rfl
  obtain ⟨img,D4,run4,built⟩ := built_of_filled fits filled3
  refine ⟨img, D4, F3, ?_, built⟩
  unfold mkfs
  dsimp only
  rw [run1]
  dsimp only [Option.bind_eq_bind, Option.bind_some]
  rw [run2]
  dsimp only [Option.bind_eq_bind, Option.bind_some]
  rw [run3]
  exact run4

end Building

section Bits

theorem bitmap_bit (used : Nat) {b : Nat} : (bitmap used (b / 8)).getLsbD (b % 8) = decide (b < used) := by
  induction used with
  | zero =>
    unfold bitmap
    simp [zeroes]
  | succ n ih =>
    unfold bitmap at ih ⊢
    rw [List.range_succ, List.foldl_append]
    dsimp only [List.foldl_cons, List.foldl_nil]
    by_cases byte : b / 8 = n / 8
    · rw [byte] at ih ⊢
      rw [Function.update_self, BitVec.getLsbD_or, ih, getLsbD_mask, ← Bool.decide_or]
      congr 1
      rw [eq_iff_iff]
      omega
    · rw [Function.update_of_ne byte, ih]
      congr 1
      rw [eq_iff_iff]
      omega

variable {files : List Input} {img : Image} {D : Nat → Dinode} {F : Nat → Bytes}

theorem Built.bit (built : Built files img D F) {b : Nat} (low : b < FSSIZE) :
    Xv6FsDisk.bit sb img.disk b = true ↔ b < img.freeblock := by
  have place : BBLOCK sb b = sb.bmapstart ∧ b % BPB = b := by
    unfold BBLOCK BPB BSIZE FSSIZE at *
    omega
  unfold Xv6FsDisk.bit
  rw [place.1, place.2, built.bitmap, bitmap_bit, decide_eq_true_eq]

theorem Built.refs (built : Built files img D F) : Xv6FsOwn.refs sb img.disk img.rinode = (Finset.Ico sb.nmeta img.freeblock).val := by
  rw [← built.laid.used]
  unfold Xv6FsOwn.refs
  have same : allocated sb img.rinode = allocated sb D := by
    ext j
    rw [mem_allocated, mem_allocated]
    exact and_congr_right fun low => by rw [built.disk j low]
  rw [same]
  exact Finset.sum_congr rfl fun j there => by rw [built.disk j (mem_allocated.mp there).1]

end Bits
end Xv6Mkfs
