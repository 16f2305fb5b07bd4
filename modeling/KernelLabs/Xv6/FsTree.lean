import KernelLabs.Lib.LinkCounts
import KernelLabs.Xv6.FsNames

/-!
The directories on disk as a tree of folders with link counts, and what the operations on inodes and
directories do to it.
-/
namespace Xv6FsTree
open Xv6Fs Xv6FsDisk Xv6FsOwn Xv6FsVolume Xv6FsFile Xv6FsSlots Xv6FsDirs Xv6FsSound Xv6FsNames LinkCounts Bytes Wp

def dot : Xv6Fs.Bytes := [46#8]
def dotdot : Xv6Fs.Bytes := [46#8, 46#8]

abbrev Tree : Type := Nat → Node Nat Xv6Fs.Bytes

def shape (sb : Superblock) : Shape Nat Xv6Fs.Bytes := ⟨Finset.range sb.ninodes, ROOTINO, dot, dotdot, by decide⟩

/-- The inodes as nodes of a tree. Devices are files. -/
def tree (sb : Superblock) (disk : Nat → Block) (D : Nat → Dinode) : Tree := fun i =>
  if i ∈ allocated sb D then
    if (D i).type = T_DIR then ⟨.folder, (D i).nlink.toNat, names disk (D i)⟩ else ⟨.file, (D i).nlink.toNat, []⟩
  else ⟨.free, 0, []⟩

section Nodes
variable {sb : Superblock} {disk disk' : Nat → Block} {D D' : Nat → Dinode} {i j : Nat}

theorem tree_folder (here : i ∈ allocated sb D) (dir : (D i).type = T_DIR) :
    tree sb disk D i = ⟨.folder, (D i).nlink.toNat, names disk (D i)⟩ := by
  rw [tree, if_pos here, if_pos dir]

theorem tree_file (here : i ∈ allocated sb D) (file : (D i).type ≠ T_DIR) :
    tree sb disk D i = ⟨.file, (D i).nlink.toNat, []⟩ := by
  rw [tree, if_pos here, if_neg file]

theorem tree_free (away : i ∉ allocated sb D) : tree sb disk D i = ⟨.free, 0, []⟩ := by
  rw [tree, if_neg away]

theorem tree_nlink (some : (tree sb disk D i).nlink ≠ 0) : i ∈ allocated sb D ∧ (D i).nlink ≠ 0 := by
  by_cases here : i ∈ allocated sb D
  · refine ⟨here, fun none => some ?_⟩
    by_cases dir : (D i).type = T_DIR
    · rw [tree_folder here dir, none]
      rfl
    · rw [tree_file here dir, none]
      rfl
  · rw [tree_free here] at some
    exact absurd rfl some

theorem nlink_tree (here : i ∈ allocated sb D) : (tree sb disk D i).nlink = (D i).nlink.toNat := by
  by_cases dir : (D i).type = T_DIR
  · rw [tree_folder here dir]
  · rw [tree_file here dir]

theorem toNat_ne {n : UInt16} (other : n ≠ 0) : n.toNat ≠ 0 := fun zero => other (UInt16.toNat_inj.mp zero)

theorem nlink_ne (here : i ∈ allocated sb D) (some : (D i).nlink ≠ 0) : (tree sb disk D i).nlink ≠ 0 := by
  rw [nlink_tree here]
  exact toNat_ne some

theorem linked_iff : (tree sb disk D i).Linked ↔ i ∈ allocated sb D ∧ (D i).type = T_DIR ∧ (D i).nlink ≠ 0 := by
  constructor
  · rintro ⟨kind,some⟩
    obtain ⟨here,more⟩ := tree_nlink some
    refine ⟨here, ?_, more⟩
    by_contra file
    rw [tree_file here file] at kind
    cases kind
  · rintro ⟨here,dir,some⟩
    refine ⟨?_, nlink_ne here some⟩
    rw [tree_folder here dir]

theorem folder_iff : (tree sb disk D i).kind = .folder ↔ i ∈ allocated sb D ∧ (D i).type = T_DIR := by
  by_cases here : i ∈ allocated sb D
  · by_cases dir : (D i).type = T_DIR
    · rw [tree_folder here dir]
      exact iff_of_true rfl ⟨here,dir⟩
    · rw [tree_file here dir]
      exact iff_of_false nofun fun both => dir both.2
  · rw [tree_free here]
    exact iff_of_false nofun fun both => here both.1

theorem slots_linked (linked : (tree sb disk D i).Linked) : (tree sb disk D i).slots = names disk (D i) := by
  obtain ⟨here,dir,_⟩ := linked_iff.mp linked
  rw [tree_folder here dir]

theorem allocated_congr (same : D' i = D i) : i ∈ allocated sb D' ↔ i ∈ allocated sb D := by
  rw [mem_allocated, mem_allocated, same]

theorem tree_congr (same : D' i = D i)
    (slots : i ∈ allocated sb D → (D i).type = T_DIR → names disk' (D i) = names disk (D i)) :
    tree sb disk' D' i = tree sb disk D i := by
  by_cases here : i ∈ allocated sb D
  · have here' := (allocated_congr same).mpr here
    by_cases dir : (D i).type = T_DIR
    · rw [tree_folder here dir, tree_folder here' (same ▸ dir), same, slots here dir]
    · rw [tree_file here dir, tree_file here' (same ▸ dir), same]
  · rw [tree_free here, tree_free ((allocated_congr same).not.mpr here)]

end Nodes

/-- Directories have whole entries. -/
def Whole (sb : Superblock) (D : Nat → Dinode) : Prop :=
  ∀ i ∈ allocated sb D, (D i).type = T_DIR → DIRENT ∣ (D i).size.toNat

/-- The cache names inodes that are in use. -/
def Typed (s : Fs) (D : Nat → Dinode) : Prop := ∀ k, 0 < (s.icache k).ref → (D (s.icache k).inum).type ≠ 0

/-- A volume in order, with whole entries and no stale inodes in the cache. -/
structure Steady (sb : Superblock) (s : Fs) (D : Nat → Dinode) (h : Multiset Slot) : Prop extends Sound sb s D h where
  whole : Whole sb D
  typed : Typed s D

/-- A step that leaves disk and inodes alone. -/
structure Calm (sb : Superblock) (h : Multiset Slot) (s : Fs) (D : Nat → Dinode) (t : Fs) (h' : Multiset Slot) : Prop where
  steady : Steady sb t D h'
  disk : t.disk = s.disk
  kept : Kept h s t

section Steps
variable {sb : Superblock} {s t u : Fs} {D D' : Nat → Dinode} {h h' h'' : Multiset Slot} {k m : Slot} {i j e : Nat}
  {E : Panic → Prop} {name : Xv6Fs.Bytes}

theorem Steady.mono (steady : Steady sb s D h) (less : h' ≤ h) : Steady sb s D h' :=
  ⟨steady.toSound.mono less, steady.whole, steady.typed⟩

theorem Steady.calm (steady : Steady sb s D h) : Calm sb h s D s h := ⟨steady, rfl, Kept.refl⟩

theorem Calm.trans (first : Calm sb h s D t h') (second : Calm sb h t D u h'') : Calm sb h s D u h'' :=
  ⟨second.steady, second.disk.trans first.disk, first.kept.trans second.kept⟩

theorem Calm.less (calm : Calm sb h' s D t h'') (less : h ≤ h') : Calm sb h s D t h'' :=
  ⟨calm.steady, calm.disk, calm.kept.mono (Multiset.subset_of_le less)⟩

theorem Calm.mono (calm : Calm sb h s D t h') (less : h'' ≤ h') : Calm sb h s D t h'' :=
  ⟨calm.steady.mono less, calm.disk, calm.kept⟩

theorem Calm.tree (calm : Calm sb h s D t h') : tree sb t.disk D = tree sb s.disk D := by
  rw [calm.disk]

theorem Calm.inum (calm : Calm sb h s D t h') (member : k ∈ h) : (t.icache k).inum = (s.icache k).inum :=
  (calm.kept k member).1

theorem Steady.here (steady : Steady sb s D h) (member : k ∈ h) : (s.icache k).inum ∈ allocated sb D := by
  have live := steady.held.live member
  exact mem_allocated.mpr ⟨steady.clean.volume.cached.inside k live, steady.typed k live⟩

/-- A reference that is new must be one to an inode in use. -/
theorem calm_quiet (steady : Steady sb s D h) (quiet : Quiet sb s D h t h')
    (new : ∀ k ∈ h', (s.icache k).ref = 0 → (D (t.icache k).inum).type ≠ 0) : Calm sb h s D t h' := by
  refine ⟨⟨sound_quiet steady.toSound quiet, steady.whole, fun k live => ?_⟩, quiet.disk, quiet.kept steady.held⟩
  rcases Nat.eq_zero_or_pos (s.icache k).ref with none | before
  · have counts := quiet.counts k
    refine new k (Multiset.count_pos.mp ?_) none
    omega
  · rw [(quiet.same k before).1]
    exact steady.typed k before

theorem ilock_calm (lax : Lax E) (steady : Steady sb s D h) (member : k ∈ h) :
    wp E (ilock sb k) s fun _ t => Calm sb h s D t h ∧ (t.icache k).valid = true := by
  have live := steady.held.live member
  refine wp_mono (ilock_spec lax steady.clean live h (Or.inr (steady.typed k live))) ?_
  rintro _ t ⟨quiet,valid⟩
  refine ⟨calm_quiet steady quiet fun l there none => ?_, valid⟩
  exact absurd none (Nat.ne_of_gt (steady.held.live there))

theorem iunlock_calm (lax : Lax E) (steady : Steady sb s D h) (member : k ∈ h) :
    wp E (iunlock k) s fun _ t => Calm sb h s D t h := by
  refine wp_mono (iunlock_spec lax steady.clean (steady.held.live member) h) fun _ t quiet => ?_
  exact calm_quiet steady quiet fun l there none => absurd none (Nat.ne_of_gt (steady.held.live there))

/-- An inode with links stays. -/
theorem iput_calm (lax : Lax E) (steady : Steady sb s D (k ::ₘ h)) (linked : (D (s.icache k).inum).nlink ≠ 0) :
    wp E (iput sb k) s fun _ t => Calm sb h s D t h := by
  refine wp_mono (iput_cases lax steady.clean (steady.held.live (Multiset.mem_cons_self k h)) h) ?_
  rintro _ t (⟨_,quiet⟩ | ⟨_,unlinked,_⟩)
  · have calm : Calm sb (k ::ₘ h) s D t h := calm_quiet steady quiet fun l there none =>
      absurd none (Nat.ne_of_gt (steady.held.live (Multiset.mem_cons_of_mem there)))
    exact calm.less (Multiset.le_cons_self h k)
  · exact absurd unlinked linked

theorem iunlockput_calm (lax : Lax E) (steady : Steady sb s D (k ::ₘ h)) (linked : (D (s.icache k).inum).nlink ≠ 0) :
    wp E (iunlockput sb k) s fun _ t => Calm sb h s D t h := by
  unfold iunlockput
  rw [wp_bind]
  refine wp_mono (iunlock_calm lax steady (Multiset.mem_cons_self k h)) fun _ t calm => ?_
  rw [← calm.inum (Multiset.mem_cons_self k h)] at linked
  refine wp_mono (iput_calm lax calm.steady linked) fun _ u after => ?_
  exact (calm.less (Multiset.le_cons_self h k)).trans after

/-- The folder in a slot. -/
theorem Steady.folder (steady : Steady sb s D h) (member : k ∈ h) (valid : (s.icache k).valid = true)
    (dir : (D (s.icache k).inum).type = T_DIR) : Folder sb s D k (s.icache k).inum :=
  ⟨steady.clean, steady.holds member valid, dir, steady.whole _ (steady.here member) dir⟩

/-- The slot of a directory entry. -/
theorem slot_entry (found : SlotTable.find (names s.disk (D i)) (key name) = some e) :
    (names s.disk (D i))[e]? = some (some (key name, (direntAt (content s.disk (D i)) e).inum)) := by
  obtain ⟨inum,entry⟩ := SlotTable.find_some found
  have low := (entry_found found).1
  have slot := entry
  rw [names_get, if_pos low, Option.some_inj] at slot
  unfold slotOf at slot
  split at slot
  · cases slot
  · have same : (direntAt (content s.disk (D i)) e).inum = inum := congrArg Prod.snd (Option.some_inj.mp slot)
    rw [entry, same]

/-- A search in a directory whose entries name inodes with links. -/
theorem dirlookup_calm (lax : Lax E) (steady : Steady sb s D h) (member : k ∈ h) (valid : (s.icache k).valid = true)
    (at_ : (s.icache k).inum = i) (folder : (tree sb s.disk D i).kind = .folder)
    (named : ∀ (e : Nat) a j, (tree sb s.disk D i).slots[e]? = some (some (a, j)) → (tree sb s.disk D j).nlink ≠ 0) :
    wp E (dirlookup sb k name) s fun r t => match r with
      | none => t = s ∧ ∀ (f : Nat) j, (tree sb s.disk D i).slots[f]? ≠ some (some (key name, j))
      | some (m, e) => Calm sb h s D t (m ::ₘ h) ∧ e < direntCount (D i) ∧
          (tree sb s.disk D i).slots[e]? = some (some (key name, (t.icache m).inum)) := by
  obtain ⟨here,dir⟩ := folder_iff.mp folder
  rw [tree_folder here dir] at named ⊢
  subst at_
  refine wp_mono (dirlookup_spec lax steady.clean steady.entries h (steady.holds member valid)) ?_
  rintro r t ⟨dir,after⟩
  rw [dirFind_eq] at after
  split at after
  · rename_i missing
    obtain ⟨rfl,same⟩ := after
    exact ⟨same, SlotTable.find_none missing⟩
  · rename_i e found
    obtain ⟨m,rfl,quiet,inside,same⟩ := after
    have slot := slot_entry found
    rw [← same] at slot
    refine ⟨calm_quiet steady quiet fun l there none => ?_, (entry_found found).1, slot⟩
    rcases Multiset.mem_cons.mp there with rfl | old
    · exact (mem_allocated.mp (tree_nlink (named e _ _ slot)).1).2
    · exact absurd none (Nat.ne_of_gt (steady.held.live old))

end Steps

/-- A step that makes inode `i` the node `n` and leaves the others alone. -/
structure Alters (sb : Superblock) (h : Multiset Slot) (s : Fs) (D : Nat → Dinode) (i : Nat) (n : Node Nat Xv6Fs.Bytes)
    (t : Fs) (D' : Nat → Dinode) (h' : Multiset Slot) : Prop where
  steady : Steady sb t D' h'
  kept : Kept h s t
  tree : tree sb t.disk D' = Function.update (tree sb s.disk D) i n

section Changes
variable {sb : Superblock} {s t u : Fs} {D D' : Nat → Dinode} {h h' : Multiset Slot} {k : Slot} {i j e : Nat}
  {E : Panic → Prop} {de : Dirent} {n : Node Nat Xv6Fs.Bytes}

theorem names_congr {disk disk' : Nat → Block} {d : Dinode} (whole : DIRENT ∣ d.size.toNat)
    (same : ∀ o, o < d.size.toNat → content disk' d o = content disk d o) : names disk' d = names disk d := by
  refine List.map_congr_left fun e member => congrArg slotOf ?_
  have low := List.mem_range.mp member
  obtain ⟨n,size⟩ := whole
  refine direntAt_congr fun q inside => same _ ?_
  unfold direntCount at low
  rw [size] at low ⊢
  unfold DIRENT DIRSIZ at *
  omega

theorem names_empty {disk : Nat → Block} {d : Dinode} (empty : d.size = 0) : names disk d = [] := by
  unfold names direntCount
  rw [empty]
  rfl

theorem tree_update (table : ∀ j, j ≠ i → tree sb t.disk D' j = tree sb s.disk D j) (own : tree sb t.disk D' i = n) :
    tree sb t.disk D' = Function.update (tree sb s.disk D) i n := by
  funext j
  by_cases here : j = i
  · rw [here, Function.update_self, own]
  · rw [Function.update_of_ne here, table j here]

theorem tree_others (whole : Whole sb D) (others : OtherFiles sb i s D t D') (other : j ≠ i) :
    tree sb t.disk D' j = tree sb s.disk D j :=
  tree_congr (others.table j other) fun here dir => names_congr (whole j here dir) (others.bytes j here other)

theorem whole_other (whole : Whole sb D) (table : ∀ j, j ≠ i → D' j = D j)
    (mine : i ∈ allocated sb D' → (D' i).type = T_DIR → DIRENT ∣ (D' i).size.toNat) : Whole sb D' := by
  intro j there dir
  by_cases here : j = i
  · rw [here] at there dir ⊢
    exact mine there dir
  · rw [table j here] at dir ⊢
    exact whole j ((allocated_congr (table j here)).mp there) dir

theorem typed_slots (typed : Typed s D) (slots : SameSlots s t) (types : ∀ j, (D' j).type = (D j).type) : Typed t D' := by
  intro l live
  have same := slots l
  rw [same] at live ⊢
  rw [types]
  exact typed l live

/-- A file or directory is written. -/
theorem steady_wrote {off m : Nat} {src : Nat → BitVec 8} (steady : Steady sb s D h)
    (wrote : WroteFile sb i s D off m src t D') (entries : Entries sb t D')
    (whole : (D i).type = T_DIR → DIRENT ∣ (D' i).size.toNat) : Steady sb t D' h := by
  have types : ∀ j, (D' j).type = (D j).type := by
    intro j
    by_cases here : j = i
    · rw [here, wrote.fields]
    · rw [wrote.others.table j here]
  refine ⟨⟨wrote.clean, entries, held_slots wrote.slots steady.held⟩, ?_, typed_slots steady.typed wrote.slots types⟩
  exact whole_other steady.whole wrote.others.table fun _ dir => whole ((types _).symm.trans dir)

/-- An entry of a directory is written. -/
theorem alters_entry (steady : Steady sb s D h) (directory : Directory sb s D k i)
    (place : e ≤ direntCount (D i)) (inside : de.inum < sb.ninodes)
    (wrote : WroteFile sb i s D (DIRENT * e) DIRENT de.bytes t D') :
    Alters sb h s D i ⟨.folder, (D i).nlink.toNat, SlotTable.write (names s.disk (D i)) e (slotOf (stored de))⟩ t D' h := by
  obtain ⟨table,whole⟩ := names_write directory place wrote
  have here := directory.clean.volume.here directory.holds
  have entries := entries_write steady.entries here wrote inside
  have type : (D' i).type = T_DIR := by
    rw [wrote.fields]
    exact directory.dir
  have nlink : (D' i).nlink = (D i).nlink := by rw [wrote.fields]
  refine ⟨steady_wrote steady wrote entries fun _ => whole, kept_slots wrote.slots, ?_⟩
  refine tree_update (fun j other => tree_others steady.whole wrote.others other) ?_
  have here' : i ∈ allocated sb D' := mem_allocated.mpr ⟨(mem_allocated.mp here).1, by rw [type]; decide⟩
  rw [tree_folder here' type, nlink, table]

/-- A file is written. -/
theorem alters_file {off m : Nat} {src : Nat → BitVec 8} (steady : Steady sb s D h) (member : k ∈ h)
    (inum : (s.icache k).inum = i) (file : (D i).type ≠ T_DIR) (wrote : WroteFile sb i s D off m src t D') :
    Steady sb t D' h ∧ tree sb t.disk D' = tree sb s.disk D := by
  have type : (D' i).type = (D i).type := by rw [wrote.fields]
  have nlink : (D' i).nlink = (D i).nlink := by rw [wrote.fields]
  have entries : Entries sb t D' := entries_other steady.entries wrote.others fun _ dir => absurd (type.symm.trans dir) file
  refine ⟨steady_wrote steady wrote entries fun dir => absurd dir file, ?_⟩
  have here : i ∈ allocated sb D := inum ▸ steady.here member
  have here' : i ∈ allocated sb D' := by
    rw [mem_allocated, type]
    exact mem_allocated.mp here
  rw [tree_update (fun j other => tree_others steady.whole wrote.others other) rfl, tree_file here' (type ▸ file), nlink,
    ← @tree_file sb s.disk _ _ here file, Function.update_eq_self]

/-- A change of an inode that keeps type, size and addresses. -/
theorem wp_alter {f : Dinode → Dinode} {Q : Unit → Fs → Prop} (steady : Steady sb s D h) (member : k ∈ h)
    (valid : (s.icache k).valid = true) (inum : (s.icache k).inum = i)
    (same : ∀ d : Dinode, (f d).type = d.type ∧ (f d).size = d.size ∧ (f d).addrs = d.addrs)
    (after : ∀ t, Alters sb h s D i { tree sb s.disk D i with nlink := (f (D i)).nlink.toNat } t
      (Function.update D i (f (D i))) h → Q () t) :
    wp E (setDinode k f) s fun _ t => wp E (iupdate sb k) t Q := by
  subst inum
  have holds := steady.holds member valid
  have here := steady.clean.volume.here holds
  generalize (s.icache k).inum = i at *
  obtain ⟨type,size,addrs⟩ := same (D i)
  apply wp_change steady.clean holds type size addrs
  intro t clean slots data
  have table : ∀ j, j ≠ i → Function.update D i (f (D i)) j = D j := fun j other => Function.update_of_ne other _ _
  have types : ∀ j, (Function.update D i (f (D i)) j).type = (D j).type := by
    intro j
    by_cases own : j = i
    · rw [own, Function.update_self, type]
    · rw [table j own]
  have others := others_data steady.clean table data
  refine after t ⟨⟨⟨clean, entries_change steady.toSound here type size addrs data, held_slots slots steady.held⟩, ?_,
    typed_slots steady.typed slots types⟩, kept_slots slots, ?_⟩
  · refine whole_other steady.whole table fun _ dir => ?_
    rw [Function.update_self] at dir ⊢
    rw [size]
    exact steady.whole i here (type.symm.trans dir)
  · refine tree_update (fun j other => tree_others steady.whole others other) ?_
    have here' : i ∈ allocated sb (Function.update D i (f (D i))) := by
      rw [mem_allocated, types]
      exact mem_allocated.mp here
    by_cases dir : (D i).type = T_DIR
    · rw [tree_folder here dir, tree_folder here' ((types i).trans dir), Function.update_self]
      have names : names t.disk (f (D i)) = names s.disk (D i) := by
        have kept : Xv6FsNames.names t.disk (D i) = Xv6FsNames.names s.disk (D i) := names_congr (steady.whole i here dir)
          fun o low => content_kept steady.clean.volume data here (block_of_offset low)
        rw [← kept]
        unfold Xv6FsNames.names direntCount
        rw [size, show content t.disk (f (D i)) = content t.disk (D i) from funext (content_addrs _ addrs)]
      rw [names]
    · rw [tree_file here dir, tree_file here' fun dir' => dir ((types i).symm.trans dir'), Function.update_self]

/-- The cache has no references after `iput` that it did not have. -/
theorem iput_slots (lax : Lax E) (steady : Steady sb s D (k ::ₘ h)) : wp E (iput sb k) s fun _ t =>
    ∀ l, 0 < (t.icache l).ref → 0 < (s.icache l).ref ∧ (t.icache l).inum = (s.icache l).inum := by
  refine wp_mono (iput_cases lax steady.clean (steady.held.live (Multiset.mem_cons_self k h)) h) ?_
  rintro _ t (⟨_,quiet⟩ | ⟨_,_,_,_,_,dead,others⟩) l live
  · have counts := quiet.counts l
    have more := Multiset.count_le_of_le l (Multiset.le_cons_self h k)
    have before : 0 < (s.icache l).ref := by omega
    exact ⟨before, (quiet.same l before).1⟩
  · have other : l ≠ k := by
      rintro rfl
      omega
    rw [(others l other).1] at live
    exact ⟨live, (others l other).2.1⟩

/-- A reference goes, and an inode without links with the last one. -/
theorem iput_tree (lax : Lax E) (steady : Steady sb s D (k ::ₘ h)) :
    wp E (iput sb k) s fun _ t => ∃ D', Steady sb t D' h ∧ Kept h s t ∧ (tree sb t.disk D' = tree sb s.disk D ∨
      (D (s.icache k).inum).nlink = 0 ∧
      tree sb t.disk D' = Function.update (tree sb s.disk D) (s.icache k).inum ⟨.free, 0, []⟩) := by
  refine wp_mono (wp_and (iput_spec lax steady.clean steady.held) (iput_slots (E := fun _ => True) (fun _ _ _ => trivial) steady)) ?_
  rintro _ t ⟨⟨D',clean,held,kept,released⟩,slots⟩
  have entries := released_entries steady.clean steady.entries released
  cases released with
  | kept disk =>
    refine ⟨D, ⟨⟨clean,entries,held⟩, steady.whole, fun l live => ?_⟩, kept, Or.inl (by rw [disk])⟩
    obtain ⟨before,same⟩ := slots l live
    rw [same]
    exact steady.typed l before
  | freed unlinked typed data gone =>
    generalize (s.icache k).inum = i at *
    have table : ∀ j, j ≠ i → Function.update D i (freed (D i)) j = D j := fun j other => Function.update_of_ne other _ _
    have others := others_data steady.clean table data
    have away : i ∉ allocated sb (Function.update D i (freed (D i))) := by
      rw [mem_allocated, Function.update_self]
      exact fun there => there.2 rfl
    refine ⟨_, ⟨⟨clean,entries,held⟩, whole_other steady.whole table fun there _ => absurd there away, fun l live => ?_⟩, kept,
      Or.inr ⟨unlinked, tree_update (fun j other => tree_others steady.whole others other) (tree_free away)⟩⟩
    obtain ⟨before,same⟩ := slots l live
    rw [table _ (gone l live), same]
    exact steady.typed l before

/-- A free inode gets a type. -/
theorem ialloc_tree {type : UInt16} (lax : Lax E) (some : type ≠ 0) (steady : Steady sb s D h) :
    wp E (ialloc sb type) s fun k t => ∃ D' i, (t.icache k).inum = i ∧ 1 ≤ i ∧ i < sb.ninodes ∧ i ∉ allocated sb D ∧
      D' i = { Dinode.zero with type := type } ∧
      Alters sb h s D i ⟨if type = T_DIR then .folder else .file, 0, []⟩ t D' (k ::ₘ h) := by
  refine wp_mono (ialloc_spec lax steady.clean h) ?_
  rintro k t ⟨i,v,low,inside,free,icache,data,quiet,inum⟩
  have away : i ∉ allocated sb D := fun here => (mem_allocated.mp here).2 free
  have held : Held v h := by
    unfold Held
    rw [icache]
    exact steady.held
  have kept := quiet.kept held
  unfold Kept at kept
  rw [icache] at kept
  have table : ∀ j, j ≠ i → Function.update D i { Dinode.zero with type := type } j = D j :=
    fun j other => Function.update_of_ne other _ _
  have dataT : ∀ c, sb.nmeta ≤ c → t.disk c = s.disk c := by
    rw [quiet.disk]
    exact data
  have others := others_data steady.clean table dataT
  refine ⟨_, i, inum, low, inside, away, Function.update_self .., ⟨⟨quiet.clean, entries_alloc steady.toSound dataT, quiet.held held⟩,
    whole_other steady.whole table fun _ _ => ?_, fun l live => ?_⟩, kept, ?_⟩
  · rw [Function.update_self]
    exact ⟨0,rfl⟩
  · by_cases own : (t.icache l).inum = i
    · rw [own, Function.update_self]
      exact some
    · rw [table _ own]
      have counts := quiet.counts l
      have other : l ≠ k := by
        rintro rfl
        exact own inum
      rw [Multiset.count_cons_of_ne other, icache] at counts
      have before : 0 < (s.icache l).ref := by omega
      rw [(quiet.same l (by rw [icache]; exact before)).1, icache]
      exact steady.typed l before
  · refine tree_update (fun j other => tree_others steady.whole others other) ?_
    have here : i ∈ allocated sb (Function.update D i { Dinode.zero with type := type }) := by
      rw [mem_allocated, Function.update_self]
      exact ⟨inside,some⟩
    by_cases dir : type = T_DIR
    · rw [tree_folder here (by rw [Function.update_self]; exact dir), Function.update_self, if_pos dir, names_empty rfl]
      rfl
    · rw [tree_file here (by rw [Function.update_self]; exact dir), Function.update_self, if_neg dir]
      rfl

/-- `dirlink` refuses a name that is there, and gives a new one a free slot. -/
theorem dirlink_tree {name : Xv6Fs.Bytes} {inum : Nat} (lax : Lax E) (steady : Steady sb s D h) (member : k ∈ h)
    (valid : (s.icache k).valid = true) (at_ : (s.icache k).inum = i) (folder : (tree sb s.disk D i).kind = .folder)
    (distinct : SlotTable.Distinct (tree sb s.disk D i).slots)
    (named : ∀ (e : Nat) a j, (tree sb s.disk D i).slots[e]? = some (some (a, j)) → (tree sb s.disk D j).nlink ≠ 0)
    (known : 0 < inum) (small : inum < 2 ^ 16) (inside : inum < sb.ninodes) :
    wp E (dirlink sb k name inum) s fun r t => (r = false ∧ Calm sb h s D t h) ∨
      (r = true ∧ (∀ (f : Nat) j, (tree sb s.disk D i).slots[f]? ≠ some (some (key name, j))) ∧
        ∃ e D', e ≤ (tree sb s.disk D i).slots.length ∧ (∀ x, (tree sb s.disk D i).slots[e]? ≠ some (some x)) ∧
          Alters sb h s D i { tree sb s.disk D i with
            slots := SlotTable.write (tree sb s.disk D i).slots e (some (key name, inum)) } t D' h) := by
  obtain ⟨here,dir⟩ := folder_iff.mp folder
  have node := @tree_folder sb s.disk _ _ here dir
  rw [node] at distinct named ⊢
  have directory : Directory sb s D k i := ⟨at_ ▸ steady.folder member valid (at_ ▸ dir), distinct⟩
  refine dirlink_spec lax steady.clean steady.entries h directory.holds ?_ ?_
  · intro e m t found quiet same _
    rw [dirFind_eq] at found
    have slot := slot_entry found
    rw [← same] at slot
    obtain ⟨here,linked⟩ := tree_nlink (named e _ _ slot)
    have calm : Calm sb h s D t (m ::ₘ h) := calm_quiet steady quiet fun l there none => by
      rcases Multiset.mem_cons.mp there with rfl | old
      · exact (mem_allocated.mp here).2
      · exact absurd none (Nat.ne_of_gt (steady.held.live old))
    exact wp_mono (iput_calm lax calm.steady linked) fun _ u after => Or.inl ⟨rfl, calm.trans after⟩
  · intro e t D' _ missing place wrote
    rw [dirFind_eq] at missing
    have low : e ≤ direntCount (D i) := by
      rcases place with ⟨low,_⟩ | rfl
      · exact Nat.le_of_lt low
      · exact Nat.le_refl _
    have alters := alters_entry steady directory low inside wrote
    rw [slotOf_stored known small] at alters
    refine Or.inr ⟨rfl, SlotTable.find_none missing, e, D', by rw [names_length]; exact low, fun x here => ?_, alters⟩
    rw [names_get] at here
    rcases place with ⟨low,free⟩ | rfl
    · rw [if_pos low, Option.some_inj, slotOf, if_pos free] at here
      cases here
    · rw [if_neg (Nat.lt_irrefl _)] at here
      cases here

end Changes

section Paths
variable {sb : Superblock} {s t : Fs} {D : Nat → Dinode} {h : Multiset Slot} {k cwd : Slot} {E : Panic → Prop}

/-- What a search finds is in the tree, and a directory if it is to be one. -/
def Finds (sb : Superblock) (h : Multiset Slot) (s : Fs) (D : Nat → Dinode) (nameiparent : Bool) (t : Fs) :
    Option (Slot × Xv6Fs.Bytes) → Prop
  | none => Calm sb h s D t h
  | some (m, _) => Calm sb h s D t (m ::ₘ h) ∧ (D (t.icache m).inum).nlink ≠ 0 ∧
      (nameiparent = true → (D (t.icache m).inum).type = T_DIR)

theorem Finds.after {h' : Multiset Slot} {nameiparent : Bool} {u : Fs} {r : Option (Slot × Xv6Fs.Bytes)} (calm : Calm sb h s D t h')
    (finds : Finds sb h t D nameiparent u r) : Finds sb h s D nameiparent u r := by
  cases r with
  | none => exact calm.trans finds
  | some result => exact ⟨calm.trans finds.1, finds.2⟩

theorem namexLoop_finds (lax : Lax E) (nameiparent : Bool) (fuel : Nat) {path : Xv6Fs.Bytes}
    (steady : Steady sb s D (k ::ₘ h)) (closed : Closed (shape sb) (tree sb s.disk D)) (linked : (D (s.icache k).inum).nlink ≠ 0) :
    wp E (namexLoop sb nameiparent fuel k path) s fun r t => Finds sb h s D nameiparent t r := by
  have mine := Multiset.mem_cons_self k h
  have less := Multiset.le_cons_self h k
  induction fuel generalizing s k path with
  | zero => exact ((steady.calm).less less).mono less
  | succ fuel ih =>
    unfold namexLoop
    split
    · by_cases parent : nameiparent = true
      · rw [if_pos parent, wp_bind]
        refine wp_mono (iput_calm lax steady linked) fun _ t calm => ?_
        exact calm
      · rw [if_neg parent, wp_pure]
        exact ⟨steady.calm.less less, linked, fun now => absurd now parent⟩
    · rename_i name rest _
      rw [wp_bind]
      refine wp_mono (ilock_calm lax steady mine) ?_
      rintro _ t ⟨calm,valid⟩
      have same := calm.inum mine
      rw [wp_bind, wp_get, calm.steady.clean.volume.cached.copy k _ (calm.steady.holds mine valid)]
      by_cases file : (D (t.icache k).inum).type ≠ T_DIR
      · rw [if_pos file, wp_bind]
        refine wp_mono (iunlockput_calm lax calm.steady (same ▸ linked)) fun _ u after => ?_
        exact (calm.less less).trans after
      · rw [if_neg file]
        have dir := not_not.mp file
        by_cases last : nameiparent = true ∧ rest = []
        · rw [if_pos last, wp_bind]
          refine wp_mono (iunlock_calm lax calm.steady mine) fun _ u after => ?_
          have inum := after.inum mine
          rw [wp_pure]
          refine ⟨(calm.trans after).less less, ?_, fun _ => ?_⟩
          · rw [inum, same]
            exact linked
          · rw [inum]
            exact dir
        · rw [if_neg last, wp_bind]
          have closedT : Closed (shape sb) (tree sb t.disk D) := calm.tree ▸ closed
          have here := calm.steady.here mine
          have inTree : (tree sb t.disk D (t.icache k).inum).Linked := linked_iff.mpr ⟨here, dir, same ▸ linked⟩
          refine wp_mono (dirlookup_calm lax calm.steady mine valid rfl inTree.1 (closedT.entry _ inTree)) ?_
          intro r u after
          cases r with
          | none =>
            obtain ⟨rfl,_⟩ := after
            dsimp only
            rw [wp_bind]
            refine wp_mono (iunlockput_calm lax calm.steady (same ▸ linked)) fun _ v after => ?_
            exact (calm.less less).trans after
          | some found =>
            obtain ⟨next,e⟩ := found
            obtain ⟨search,_,slot⟩ := after
            have nextLinked := (tree_nlink (closedT.entry _ inTree e _ _ slot)).2
            have steadyU := search.steady
            rw [Multiset.cons_swap] at steadyU
            dsimp only
            rw [wp_bind]
            refine wp_mono (iunlockput_calm lax steadyU ?_) fun _ v after => ?_
            · rw [search.inum mine, same]
              exact linked
            · have back := after.inum (Multiset.mem_cons_self next h)
              refine wp_mono (ih after.steady ?_ ?_ (Multiset.mem_cons_self _ _) (Multiset.le_cons_self _ _)) fun r w finds => ?_
              · rw [after.tree, search.tree]
                exact closedT
              · rw [back]
                exact nextLinked
              · exact finds.after (((calm.trans search).less less).trans (after.less (Multiset.le_cons_self h next)))

theorem namex_finds (lax : Lax E) {path : Xv6Fs.Bytes} (nameiparent : Bool) (steady : Steady sb s D h)
    (closed : Closed (shape sb) (tree sb s.disk D)) (member : cwd ∈ h)
    (linked : path.head? ≠ some slash → (D (s.icache cwd).inum).nlink ≠ 0) :
    wp E (namex sb cwd path nameiparent) s fun r t => Finds sb h s D nameiparent t r := by
  unfold namex
  by_cases absolute : path.head? = some slash
  · obtain ⟨inRoot,_,rootLinked⟩ := linked_iff.mp closed.root
    rw [if_pos absolute, wp_bind]
    refine wp_mono (iget_spec lax steady.clean h sb.rootInside) ?_
    rintro k t ⟨quiet,inum⟩
    have calm : Calm sb h s D t (k ::ₘ h) := calm_quiet steady quiet fun l there none => by
      rcases Multiset.mem_cons.mp there with rfl | old
      · rw [inum]
        exact (mem_allocated.mp inRoot).2
      · exact absurd none (Nat.ne_of_gt (steady.held.live old))
    refine wp_mono (namexLoop_finds lax nameiparent _ calm.steady (calm.tree ▸ closed) ?_) fun _ _ finds => finds.after calm
    rw [inum]
    exact rootLinked
  · rw [if_neg absolute, wp_bind]
    refine wp_mono (idup_spec steady.clean (steady.held.live member) h) ?_
    rintro k t ⟨rfl,quiet⟩
    have calm : Calm sb h s D t (k ::ₘ h) := calm_quiet steady quiet fun l there none => by
      rcases Multiset.mem_cons.mp there with rfl | old
      · exact absurd none (Nat.ne_of_gt (steady.held.live member))
      · exact absurd none (Nat.ne_of_gt (steady.held.live old))
    refine wp_mono (namexLoop_finds lax nameiparent _ calm.steady (calm.tree ▸ closed) ?_) fun _ _ finds => finds.after calm
    rw [calm.inum member]
    exact linked absolute

end Paths
end Xv6FsTree
