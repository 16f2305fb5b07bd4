import KernelLabs.Xv6.FsTreeRuns
import KernelLabs.Xv6.MkfsKernel

/-!
The image that `mkfs` makes is a volume in order whose only directory is the root, so the kernel
starts from a tree.
-/
namespace Xv6Mkfs
open Xv6Fs Xv6FsDisk Xv6FsOwn Xv6FsVolume Xv6FsFile Xv6FsLayout Xv6FsDirs Xv6FsNames Xv6FsTree Xv6FsRuns Bytes

section Rule
variable {P : Image → Prop} {m m' : Image} {D : Nat → Dinode} {F : Nat → Xv6Fs.Bytes} {done files : List Input}

/-- What every step of `mkfs` keeps up to the files. -/
structure Kept (P : Image → Prop) : Prop where
  start : P blank
  alloc : ∀ m type, P m → P (m.ialloc type)
  append : ∀ {m D F i p m'}, Table m D F → i ∈ allocated sb D → (F i).length + p.length ≤ MAXFILE * BSIZE →
    m.freeblock + cost ((F i).length + p.length) ≤ sb.size + cost (F i).length → m.iappend i p = some m' → P m → P m'

theorem Kept.appends (kept : Kept P) {i : Nat} (reads : List Xv6Fs.Bytes) (table : Table m D F)
    (here : i < sb.ninodes ∧ 1 ≤ i ∧ i < m.freeinode) (room : (F i).length + reads.flatten.length ≤ MAXFILE * BSIZE)
    (small : m.freeblock + cost ((F i).length + reads.flatten.length) ≤ sb.size + cost (F i).length)
    (run : reads.foldlM (fun m buf => m.iappend i buf) m = some m') (before : P m) : P m' := by
  induction reads generalizing m D F with
  | nil =>
    cases run
    exact before
  | cons buf rest ih =>
    rw [List.flatten_cons, List.length_append] at room small
    have grows := cost_mono (show (F i).length + buf.length ≤ (F i).length + (buf.length + rest.flatten.length) by omega)
    have fits : m.freeblock + cost ((F i).length + buf.length) ≤ sb.size + cost (F i).length := by omega
    obtain ⟨m1,D1,first,table1,inode,blocks⟩ := iappend_spec table (table.mem.mpr here) (by omega) fits
    rw [List.foldlM_cons, first] at run
    have now := kept.append table (table.mem.mpr here) (by omega) fits first before
    refine ih table1 (by rw [inode]; exact here) ?_ ?_ run now
    · rw [Function.update_self, List.length_append]
      omega
    · rw [Function.update_self, List.length_append, Nat.add_assoc]
      omega

theorem Kept.addFile (kept : Kept P) (filled : Filled m D F done) {f : Input} (inodes : done.length + 2 < sb.ninodes)
    (blocks : nmeta + cost (DIRENT * (done.length + 3)) + (done.map fun f => cost f.bytes.length).sum + cost f.bytes.length
      ≤ sb.size) (size : f.bytes.length ≤ MAXFILE * BSIZE) (slashes : slash ∉ f.name) (run : m.addFile f = some m')
    (before : P m) : P m' := by
  have inum := filled.inode
  have used := filled.blocks
  have width := entries_length done
  rw [width] at used
  have other : ROOTINO ≠ m.freeinode := by
    rw [inum]
    unfold ROOTINO
    omega
  obtain ⟨D1,table1⟩ := ialloc_spec T_FILE filled.table (by omega) (by omega) (by rw [if_neg (Ne.symm other)])
  have root : (Function.update F m.freeinode [] ROOTINO).length = DIRENT * (done.length + 2) := by
    rw [Function.update_of_ne other, filled.root, width]
  have longer : DIRENT * (done.length + 2) + DIRENT = DIRENT * (done.length + 3) := rfl
  have alloc : (m.ialloc T_FILE).freeblock = m.freeblock ∧ (m.ialloc T_FILE).freeinode = m.freeinode + 1 := ⟨rfl,rfl⟩
  have here : ROOTINO ∈ allocated sb D1 := table1.mem.mpr ⟨by decide, by decide, by rw [alloc.2, inum]; unfold ROOTINO; omega⟩
  have room : (Function.update F m.freeinode [] ROOTINO).length + (dirent m.freeinode f.stored).length ≤ MAXFILE * BSIZE := by
    rw [root, dirent_length]
    unfold DIRENT DIRSIZ MAXFILE NDIRECT NINDIRECT BSIZE at *
    change done.length + 2 < 200 at inodes
    omega
  have small : (m.ialloc T_FILE).freeblock + cost ((Function.update F m.freeinode [] ROOTINO).length +
      (dirent m.freeinode f.stored).length) ≤ sb.size + cost (Function.update F m.freeinode [] ROOTINO).length := by
    rw [root, dirent_length, longer, alloc.1, used]
    omega
  obtain ⟨m2,D2,run2,table2,inode2,blocks2⟩ := iappend_spec table1 here room small
  have second := kept.append table1 here room small run2 (kept.alloc m T_FILE before)
  unfold Image.addFile at run
  rw [if_neg slashes] at run
  dsimp only at run
  rw [run2] at run
  rw [root, dirent_length, longer, alloc.1] at blocks2
  rw [alloc.2] at inode2
  have mine : Function.update (Function.update F m.freeinode []) ROOTINO
      (Function.update F m.freeinode [] ROOTINO ++ dirent m.freeinode f.stored) m.freeinode = [] := by
    rw [Function.update_of_ne (Ne.symm other), Function.update_self]
  refine kept.appends f.reads table2 (by rw [inode2, inum]; omega) ?_ ?_ run second
  · rw [mine, List.length_nil, Nat.zero_add]
    exact size
  · rw [mine, List.length_nil, Nat.zero_add]
    change m2.freeblock + cost f.bytes.length ≤ sb.size + cost 0
    have none : cost 0 = 0 := rfl
    omega

theorem Kept.adds (kept : Kept P) (fits : Fits files) (rest : List Input) (filled : Filled m D F done)
    (split : done ++ rest = files) (run : rest.foldlM Image.addFile m = some m') (before : P m) : P m' := by
  induction rest generalizing m D F done with
  | nil =>
    cases run
    exact before
  | cons f rest ih =>
    have member : f ∈ files := by
      rw [← split]
      simp
    have inodes := fits.inodes
    have blocks := fits.blocks
    have count : files.length = done.length + (rest.length + 1) := by
      rw [← split, List.length_append, List.length_cons]
    have sums : (files.map fun f => cost f.bytes.length).sum = (done.map fun f => cost f.bytes.length).sum +
        (cost f.bytes.length + (rest.map fun f => cost f.bytes.length).sum) := by
      rw [← split, List.map_append, List.sum_append, List.map_cons, List.sum_cons]
    have grows := cost_mono (show DIRENT * (done.length + 3) ≤ DIRENT * (files.length + 2) from
      Nat.mul_le_mul_left DIRENT (by omega))
    have few : done.length + 2 < sb.ninodes := by
      change done.length + 2 < 200
      omega
    have small : nmeta + cost (DIRENT * (done.length + 3)) + (done.map fun f => cost f.bytes.length).sum + cost f.bytes.length
        ≤ sb.size := by
      change _ ≤ FSSIZE
      omega
    obtain ⟨m1,D1,F1,first,filled1⟩ := addFile_spec filled few small (fits.sizes f member) (fits.slashes f member)
    rw [List.foldlM_cons, first] at run
    exact ih filled1 (by rw [List.append_assoc]; exact split) run
      (kept.addFile filled few small (fits.sizes f member) (fits.slashes f member) first before)

/-- The rule for `mkfs` up to its last two steps. -/
theorem Kept.mkfs (kept : Kept P) (fits : Fits files) :
    ∃ m D F, mkfs files = m.fixRoot.balloc m.freeblock ∧ Filled m D F files ∧ P m := by
  obtain ⟨m1,m2,D2,F2,run1,run2,filled2⟩ := root_spec
  obtain ⟨m3,D3,F3,run3,filled3⟩ := files_spec fits files filled2 rfl
  obtain ⟨D0,table0⟩ := ialloc_spec T_DIR blank_table (by decide) (by decide) rfl
  have here : ROOTINO ∈ allocated sb D0 := table0.mem.mpr ⟨by decide, by decide, by decide⟩
  have none : Function.update (fun _ => []) blank.freeinode [] = (fun _ => [] : Nat → Xv6Fs.Bytes) :=
    Function.update_eq_self blank.freeinode _
  rw [none] at table0
  have room : (([] : Xv6Fs.Bytes).length + (dirent ROOTINO dot).length) ≤ MAXFILE * BSIZE := by
    rw [dirent_length]
    decide
  have small : (blank.ialloc T_DIR).freeblock + cost (([] : Xv6Fs.Bytes).length + (dirent ROOTINO dot).length) ≤
      sb.size + cost ([] : Xv6Fs.Bytes).length := by
    rw [dirent_length]
    decide
  have first := kept.append table0 here room small run1 (kept.alloc _ _ kept.start)
  obtain ⟨m1',D1,again,table1,inode1,blocks1⟩ := iappend_spec table0 here room small
  cases again.symm.trans run1
  have size : (Function.update (fun _ => []) ROOTINO ([] ++ dirent ROOTINO dot) ROOTINO : Xv6Fs.Bytes).length = DIRENT := by
    rw [Function.update_self, List.nil_append, dirent_length]
  have free1 : m1.freeblock = nmeta + 1 := by
    rw [dirent_length] at blocks1
    exact blocks1
  have second := kept.append table1 (table1.mem.mpr ⟨by decide, by decide, by rw [inode1]; decide⟩)
    (by rw [size, dirent_length]; decide) (by rw [size, dirent_length, free1]; decide) run2 first
  refine ⟨m3, D3, F3, ?_, filled3, kept.adds fits files filled2 rfl run3 second⟩
  unfold Xv6Mkfs.mkfs
  dsimp only
  rw [run1]
  dsimp only [Option.bind_eq_bind, Option.bind_some]
  rw [run2]
  dsimp only [Option.bind_eq_bind, Option.bind_some]
  rw [run3]
  rfl

end Rule

section Links
variable {m : Image} {files : List Input} {img : Image} {D : Nat → Dinode} {F : Nat → Xv6Fs.Bytes}

/-- Every inode in use has one link. -/
def Single (m : Image) : Prop := ∀ j, j < sb.ninodes → (m.rinode j).type ≠ 0 → (m.rinode j).nlink = 1

theorem single_kept : Kept Single := by
  refine ⟨fun j low typed => ?_, fun m type single j low typed => ?_, ?_⟩
  · have none := blank_table.disk j low
    rw [none] at typed
    exact absurd rfl typed
  · have now : (m.ialloc type).rinode j =
        if j = m.freeinode then { Dinode.zero with type := type, nlink := 1 } else m.rinode j := rinode_winode _ j
    rw [now] at typed ⊢
    split at typed
    · rename_i mine
      rw [if_pos mine]
    · rename_i other
      rw [if_neg other]
      exact single j low typed
  · intro m D F i p m' table here room small run single j low typed
    have inside := (mem_allocated.mp here).1
    obtain ⟨m1,d1,done,appended⟩ := loop_spec p.length (Nat.le_refl _) table.laying here room small
    unfold Image.iappend at run
    dsimp only at run
    rw [table.disk i inside, table.sizes i here, done] at run
    cases run
    rw [rinode_winode] at typed ⊢
    by_cases mine : j = i
    · rw [if_pos mine]
      have own := single i inside (by rw [table.disk i inside]; exact (mem_allocated.mp here).2)
      rw [table.disk i inside] at own
      dsimp only
      rw [appended.fields]
      exact own
    · rw [if_neg mine, rinode_low appended.low low] at typed ⊢
      exact single j low typed

theorem mkfs_single (fits : Fits files) :
    ∃ img D F, mkfs files = some img ∧ Built files img D F ∧ ∀ i ∈ allocated sb D, (D i).nlink = 1 := by
  obtain ⟨m,D0,F,run,filled,single⟩ := single_kept.mkfs fits
  obtain ⟨img,D,ends,built⟩ := built_of_filled fits filled
  refine ⟨img, D, F, run.trans ends, built, fun i here => ?_⟩
  obtain ⟨low,typed⟩ := mem_allocated.mp here
  have inside : ROOTINO < sb.ninodes := by decide
  have disk : img.rinode i = (m.fixRoot).rinode i := by
    unfold Image.balloc at ends
    split at ends
    · cases ends
      exact dinodeAt_congr (wsect_ne _ (Nat.ne_of_lt (iblock_low low)))
    · cases ends
  have fixed : (m.fixRoot).rinode i = if i = ROOTINO then
      { m.rinode ROOTINO with size := UInt32.ofNat (((m.rinode ROOTINO).size.toNat / BSIZE + 1) * BSIZE) } else m.rinode i :=
    rinode_winode _ i
  rw [← built.disk i low, disk, fixed] at typed ⊢
  by_cases root : i = ROOTINO
  · rw [if_pos root] at typed ⊢
    exact single ROOTINO inside typed
  · rw [if_neg root] at typed ⊢
    exact single i low typed

end Links

section Tree
variable {files : List Input} {img : Image} {D : Nat → Dinode} {F : Nat → Xv6Fs.Bytes}

theorem root_type (built : Built files img D F) {i : Nat} (low : i < sb.ninodes) : (D i).type = T_DIR ↔ i = ROOTINO := by
  rw [built.kinds i low]
  unfold kind
  split
  · rename_i free
    refine iff_of_false (by decide) ?_
    rintro rfl
    rcases free with zero | past
    · cases zero
    · unfold ROOTINO at past
      omega
  · split
    · rename_i root
      exact iff_of_true rfl root
    · rename_i other
      exact iff_of_false (by decide) other

theorem root_count (built : Built files img D F) : direntCount (D ROOTINO) = ((files.length + 2) / 32 + 1) * 32 := by
  have size := built.rootSize
  rw [entries_length] at size
  unfold direntCount
  rw [size]
  unfold DIRENT DIRSIZ BSIZE
  omega

/-- Behind its entries the root directory is zero. -/
theorem root_rest (built : Built files img D F) (whole : (files.length + 2) % 32 ≠ 0) {e : Nat} (past : files.length + 2 ≤ e)
    (inside : e < direntCount (D ROOTINO)) : (direntAt (content img.disk (D ROOTINO)) e).inum = 0 := by
  rw [root_count built] at inside
  have zero : direntAt (content img.disk (D ROOTINO)) e = direntAt (fun _ => 0#8) e := by
    refine direntAt_congr fun q low => ?_
    rw [built.laid.bytes ROOTINO (root_mem built) _ ?_, built.root]
    · refine List.getD_eq_default _ _ ?_
      rw [entries_length]
      unfold DIRENT DIRSIZ at *
      omega
    · rw [built.root, entries_length]
      unfold blocksFor DIRENT DIRSIZ BSIZE at *
      omega
  rw [zero]
  rfl

/-- Only the first entry is not for the inode of its number. -/
theorem entry_inum {e : Nat} {de : Dirent} (here : (entryAt files)[e]? = some de) : de.inum = max e 1 := by
  match e with
  | 0 =>
    cases here
    rfl
  | 1 =>
    cases here
    rfl
  | k + 2 =>
    simp only [entryAt, List.getElem?_cons_succ, List.getElem?_mapIdx, Option.map_eq_some_iff] at here
    obtain ⟨f,_,rfl⟩ := here
    dsimp only
    omega

/-- The slots of the root directory are the entries. -/
theorem root_names (fits : Fits files) (built : Built files img D F) (whole : (files.length + 2) % 32 ≠ 0) {e i : Nat}
    {a : Xv6Fs.Bytes} : (names img.disk (D ROOTINO))[e]? = some (some (a, i)) ↔
      ∃ de, (entryAt files)[e]? = some de ∧ a = key de.name ∧ i = de.inum := by
  have inodes := fits.inodes
  rw [names_get]
  by_cases low : e < files.length + 2
  · have inside : e < direntCount (D ROOTINO) := by
      rw [root_count built]
      omega
    obtain ⟨de,here⟩ : ∃ de, (entryAt files)[e]? = some de :=
      ⟨_, List.getElem?_eq_getElem (by rw [entryAt_length]; exact low)⟩
    have number := entry_inum here
    have known : 0 < de.inum ∧ de.inum < 2 ^ 16 := by omega
    rw [if_pos inside, root_entry built here, show de = ⟨de.inum, de.name⟩ from rfl, slotOf_stored known.1 known.2]
    constructor
    · intro same
      cases same
      exact ⟨de, here, rfl, rfl⟩
    · rintro ⟨other,there,rfl,rfl⟩
      cases here.symm.trans there
      rfl
  · refine iff_of_false ?_ ?_
    · split
      · rename_i inside
        unfold slotOf
        rw [if_pos (root_rest built whole (Nat.le_of_not_lt low) inside)]
        nofun
      · nofun
    · rintro ⟨de,here,_⟩
      have := (List.getElem?_eq_some_iff.mp here).1
      rw [entryAt_length] at this
      exact low this

theorem built_allocated (built : Built files img D F) : allocated sb (dinodeAt sb img.disk) = allocated sb D := by
  ext i
  rw [mem_allocated, mem_allocated]
  refine and_congr_right fun low => ?_
  rw [show dinodeAt sb img.disk i = D i from built.disk i low]

theorem built_inode (built : Built files img D F) {i : Nat} (here : i ∈ allocated sb D) : dinodeAt sb img.disk i = D i :=
  built.disk i (mem_allocated.mp here).1

theorem built_blocks (built : Built files img D F) (whole : (files.length + 2) % 32 ≠ 0) {i : Nat} (here : i ∈ allocated sb D) :
    Xv6FsFile.nblocks (D i) = blocksFor (F i).length := by
  by_cases root : i = ROOTINO
  · rw [root]
    exact (root_blocks built).mpr whole
  · exact file_blocks built here root

theorem built_wellFormed (fits : Fits files) (built : Built files img D F) (whole : (files.length + 2) % 32 ≠ 0) :
    WellFormed sb img.disk := by
  have total : refs sb img.disk (dinodeAt sb img.disk) = (Finset.Ico sb.nmeta img.freeblock).val := built.refs
  have start := built.laid.start
  have inodes := fits.inodes
  refine ⟨⟨?_, fun b member => ?_, fun b low => ?_⟩, fun i here => ?_, fun i here dir e inside => ?_⟩
  · rw [total]
    exact (Finset.Ico _ _).nodup
  · rw [total, Finset.mem_val, Finset.mem_Ico] at member
    exact ⟨member.1, Nat.lt_of_lt_of_le member.2 built.blocks⟩
  · rw [built.bit low, total, Finset.mem_val, Finset.mem_Ico]
    omega
  · rw [built_allocated built] at here
    rw [built_inode built here, built_blocks built whole here]
    exact built.laid.mapped i here
  · rw [built_allocated built] at here
    rw [built_inode built here] at dir inside ⊢
    rw [(root_type built (mem_allocated.mp here).1).mp dir] at inside ⊢
    by_cases low : e < files.length + 2
    · obtain ⟨de,entry⟩ : ∃ de, (entryAt files)[e]? = some de :=
        ⟨_, List.getElem?_eq_getElem (by rw [entryAt_length]; exact low)⟩
      have number := entry_inum entry
      rw [root_entry built entry]
      change de.inum % 2 ^ 16 < 200
      omega
    · rw [root_rest built whole (Nat.le_of_not_lt low) ?_]
      · decide
      · unfold direntCount DIRENT DIRSIZ at *
        omega

/-- The size of the root directory goes a block further than its entries. -/
theorem full_root (fits : Fits files) (built : Built files img D F) (full : (files.length + 2) % 32 = 0) :
    ¬ NoHoles sb img.disk := by
  intro mapped
  have here := root_mem built
  have inodes := fits.inodes
  have mine := mapped ROOTINO (by rw [built_allocated built]; exact here)
  rw [built_inode built here] at mine
  have laid := built.laid.mapped ROOTINO here
  have more : blocksFor (F ROOTINO).length < Xv6FsFile.nblocks (D ROOTINO) := by
    unfold Xv6FsFile.nblocks
    rw [built.rootSize, built.root, entries_length]
    unfold blocksFor DIRENT DIRSIZ BSIZE
    omega
  have low := Nat.lt_of_lt_of_le more mine.1
  exact absurd ((laid.2 _ low).mp ((mine.2 _ low).mpr more)) (Nat.lt_irrefl _)

end Tree

section Directories
variable {files : List Input} {img : Image} {D : Nat → Dinode} {F : Nat → Xv6Fs.Bytes} {d e i : Nat} {a : Xv6Fs.Bytes}

theorem linked_root (built : Built files img D F) (single : ∀ i ∈ allocated sb D, (D i).nlink = 1) :
    LinkedDir sb img.disk d ↔ d = ROOTINO := by
  constructor
  · rintro ⟨low,dir,_⟩
    rw [show dinodeAt sb img.disk d = D d from built.disk d low] at dir
    exact (root_type built low).mp dir
  · rintro rfl
    have here := root_mem built
    have low := (mem_allocated.mp here).1
    refine ⟨low, ?_, ?_⟩
    · rw [built_inode built here]
      exact (root_type built low).mpr rfl
    · rw [built_inode built here, single _ here]
      decide

theorem root_slot (fits : Fits files) (built : Built files img D F) (whole : (files.length + 2) % 32 ≠ 0) :
    Entry sb img.disk ROOTINO e a i ↔ ∃ de, (entryAt files)[e]? = some de ∧ a = key de.name ∧ i = de.inum := by
  rw [Entry, built_inode built (root_mem built)]
  exact root_names fits built whole

theorem key_word {name : Xv6Fs.Bytes} (word : 0#8 ∉ name) : key name = name.take DIRSIZ :=
  takeWhile_word fun member => word (List.mem_of_mem_take member)

/-- The entries but the first and the second have other names than these. -/
theorem entry_dots {de : Dirent} (fits : Fits files) (here : (entryAt files)[e]? = some de) :
    (key de.name = Xv6FsTree.dot ↔ e = 0) ∧ (key de.name = Xv6FsTree.dotdot ↔ e = 1) := by
  have word := entry_word here
  have names : ∀ {f : Nat} {first : Dirent}, (entryAt files)[f]? = some first → (key de.name = first.name.take DIRSIZ ↔ e = f) := by
    intro f first there
    rw [key_word word]
    refine ⟨fun same => entry_names fits here there same, ?_⟩
    rintro rfl
    cases here.symm.trans there
    rfl
  exact ⟨names (f := 0) rfl, names (f := 1) rfl⟩

/-- Every entry but `.` gives its inode the one name that it has. -/
theorem root_counts (fits : Fits files) (built : Built files img D F) (whole : (files.length + 2) % 32 ≠ 0)
    (here : i ∈ allocated sb D) :
    (names img.disk (dinodeAt sb img.disk ROOTINO)).countP
      (fun slot => slot.any fun p => decide (p.1 ≠ Xv6FsTree.dot ∧ p.2 = i)) = 1 := by
  obtain ⟨_,named,low⟩ := built.mem.mp here
  obtain ⟨de,entry⟩ : ∃ de, (entryAt files)[i]? = some de :=
    ⟨_, List.getElem?_eq_getElem (by rw [entryAt_length]; exact low)⟩
  have number := entry_inum entry
  rw [Nat.max_eq_left named] at number
  have mine : Entry sb img.disk ROOTINO i (key de.name) i := (root_slot fits built whole).mpr ⟨de, entry, rfl, number.symm⟩
  have other : key de.name ≠ Xv6FsTree.dot := fun same => by
    have := (entry_dots fits entry).1.mp same
    omega
  refine LinkCounts.countP_one mine ?_ rfl fun e slot there holds => ?_
  · rw [Option.any_some, decide_eq_true_iff]
    exact ⟨other,rfl⟩
  · cases slot with
    | none => cases holds
    | some p =>
      obtain ⟨a,j⟩ := p
      rw [Option.any_some, decide_eq_true_iff] at holds
      obtain ⟨apart,rfl⟩ := holds
      obtain ⟨de',entry',rfl,same⟩ := (root_slot fits built whole).mp there
      have number' := entry_inum entry'
      have away : e ≠ 0 := fun zero => apart ((entry_dots fits entry').1.mpr zero)
      omega

theorem root_tree (fits : Fits files) (built : Built files img D F) (whole : (files.length + 2) % 32 ≠ 0)
    (single : ∀ i ∈ allocated sb D, (D i).nlink = 1) : DirectoryTree sb img.disk := by
  have slot : ∀ {e i a}, Entry sb img.disk ROOTINO e a i ↔ _ := @fun e i a => root_slot fits built whole
  have only : ∀ d, LinkedDir sb img.disk d ↔ d = ROOTINO := fun d => linked_root built single
  have dots : Entry sb img.disk ROOTINO 0 Xv6FsTree.dot ROOTINO ∧ Entry sb img.disk ROOTINO 1 Xv6FsTree.dotdot ROOTINO :=
    ⟨slot.mpr ⟨_,rfl,by decide,rfl⟩, slot.mpr ⟨_,rfl,by decide,rfl⟩⟩
  have inodes := fits.inodes
  refine ⟨fun i here => ?_, fun d linked e a i entry => ?_, fun d linked e f a i j first second => ?_, fun d linked => ?_,
    ⟨(only _).mpr rfl, dots.2⟩, fun d p linked other => absurd ((only d).mp linked) other,
    fun d p e a linked linked' entry other other' => ?_, fun _ => 0, fun d p linked other => absurd ((only d).mp linked) other⟩
  · rw [built_allocated built] at here
    have dirs : (Finset.range sb.ninodes).filter (LinkedDir sb img.disk) = {ROOTINO} := by
      ext d
      rw [Finset.mem_filter, only d, Finset.mem_singleton, and_iff_right_iff_imp]
      rintro rfl
      decide
    rw [entriesFor, dirs, Finset.sum_singleton, root_counts fits built whole here, built_inode built here, single i here]
    rfl
  · rw [(only d).mp linked] at entry
    obtain ⟨de,there,rfl,rfl⟩ := slot.mp entry
    have number := entry_inum there
    have low := (List.getElem?_eq_some_iff.mp there).1
    rw [entryAt_length] at low
    have here : de.inum ∈ allocated sb D := built.mem.mpr ⟨by change de.inum < 200; omega, by omega, by omega⟩
    rw [built_allocated built, built_inode built here, single _ here]
    exact ⟨here, by decide⟩
  · rw [(only d).mp linked] at first second
    obtain ⟨de,there,rfl,rfl⟩ := slot.mp first
    obtain ⟨de',there',same,rfl⟩ := slot.mp second
    rw [key_word (entry_word there), key_word (entry_word there')] at same
    exact entry_names fits there there' same
  · rw [(only d).mp linked]
    exact ⟨dots.1, ROOTINO, dots.2⟩
  · rw [(only d).mp linked, (only p).mp linked'] at entry
    obtain ⟨de,there,rfl,number⟩ := slot.mp entry
    obtain ⟨first,second⟩ := entry_dots fits there
    rw [entry_inum there] at number
    unfold ROOTINO at number
    rw [ne_eq, first] at other
    rw [ne_eq, second] at other'
    omega

theorem built_image (fits : Fits files) (built : Built files img D F) (single : ∀ i ∈ allocated sb D, (D i).nlink = 1) :
    TreeImage sb img.disk ↔ (files.length + 2) % 32 ≠ 0 := by
  refine ⟨fun image full => full_root fits built full image.wellFormed.noHoles, fun whole =>
    ⟨built_wellFormed fits built whole, fun i here dir => ?_, root_tree fits built whole single⟩⟩
  rw [built_allocated built] at here
  rw [built_inode built here] at dir ⊢
  rw [(root_type built (mem_allocated.mp here).1).mp dir, built.rootSize]
  exact Dvd.dvd.mul_left (by decide) _

theorem compact : Compact sb := ⟨by decide, by decide⟩

/-- Unless its entries fill whole blocks, the image is one to start from, and so is the disk after every
run of calls that start in the tree. -/
theorem mkfs_runs (fits : Fits files) : ∃ img, mkfs files = some img ∧
    (TreeImage sb img.disk ↔ (files.length + 2) % 32 ≠ 0) ∧
    ((files.length + 2) % 32 ≠ 0 → ∀ s, (system sb fun disk => disk = img.disk).Reach (InTree sb) s → TreeImage sb s.disk) := by
  obtain ⟨img,D,F,run,built,single⟩ := mkfs_single fits
  have image := built_image fits built single
  refine ⟨img, run, image, fun whole s reach => ?_⟩
  obtain ⟨D',ordered⟩ := reach_ordered compact (fun disk (same : disk = img.disk) => same ▸ image.mpr whole) reach
  exact image_of_ordered ordered

theorem mkfs_runs_cat : ∃ img, mkfs [cat] = some img ∧ TreeImage sb img.disk ∧
    ∀ s, (system sb fun disk => disk = img.disk).Reach (InTree sb) s → DirectoryTree sb s.disk := by
  have fits : Fits [cat] := ⟨by decide, by decide, by decide, by decide, by decide⟩
  obtain ⟨img,run,image,runs⟩ := mkfs_runs fits
  exact ⟨img, run, image.mpr (by decide), fun s reach => (runs (by decide) s reach).directories⟩

end Directories
end Xv6Mkfs
