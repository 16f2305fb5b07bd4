import KernelLabs.Xv6.FsRuns
import KernelLabs.Xv6.FsTreeCalls

/-!
Runs of calls that start in directories of the tree: link counts are right in every state, and no call
finds an inode without a type.
-/
namespace Xv6FsTree
open Xv6Fs Xv6FsDisk Xv6FsOwn Xv6FsVolume Xv6FsFile Xv6FsSlots Xv6FsDirs Xv6FsSound Xv6FsRuns Xv6FsNames LinkCounts Bytes Wp
open Transition

/-- A relative path starts in a directory that has links. -/
def InTree (sb : Superblock) (s : Fs) : Call → Prop
  | .create cwd path _ _ _ _ | .open cwd path _ _ | .unlink cwd path =>
    path.head? ≠ some slash → (dinodeAt sb s.disk (s.icache cwd).inum).nlink ≠ 0
  | .link cwd old new =>
    old.head? ≠ some slash ∨ new.head? ≠ some slash → (dinodeAt sb s.disk (s.icache cwd).inum).nlink ≠ 0
  | _ => True

/-- A directory that has links. -/
def LinkedDir (sb : Superblock) (disk : Nat → Block) (d : Nat) : Prop :=
  d < sb.ninodes ∧ (dinodeAt sb disk d).type = T_DIR ∧ (dinodeAt sb disk d).nlink ≠ 0

instance (sb : Superblock) (disk : Nat → Block) (d : Nat) : Decidable (LinkedDir sb disk d) :=
  inferInstanceAs (Decidable (_ ∧ _ ∧ _))

/-- Entry `e` of inode `d` gives `i` the name `a`. -/
def Entry (sb : Superblock) (disk : Nat → Block) (d e : Nat) (a : Xv6Fs.Bytes) (i : Nat) : Prop :=
  (names disk (dinodeAt sb disk d))[e]? = some (some (a, i))

/-- The entries for inode `i` in all directories that have links, but for its own `.`. -/
def entriesFor (sb : Superblock) (disk : Nat → Block) (i : Nat) : Nat :=
  ∑ d ∈ Finset.range sb.ninodes with LinkedDir sb disk d,
    (names disk (dinodeAt sb disk d)).countP fun slot => slot.any fun p => decide (p.1 ≠ dot ∧ p.2 = i)

/-- Links are counted, entries name inodes with links, and the directories are a tree below the root. -/
structure DirectoryTree (sb : Superblock) (disk : Nat → Block) : Prop where
  counted : ∀ i ∈ allocated sb (dinodeAt sb disk), (dinodeAt sb disk i).nlink.toNat = entriesFor sb disk i
  alive : ∀ d, LinkedDir sb disk d → ∀ e a i, Entry sb disk d e a i →
    i ∈ allocated sb (dinodeAt sb disk) ∧ (dinodeAt sb disk i).nlink ≠ 0
  distinct : ∀ d, LinkedDir sb disk d → ∀ e f a i j, Entry sb disk d e a i → Entry sb disk d f a j → e = f
  dots : ∀ d, LinkedDir sb disk d → Entry sb disk d 0 dot d ∧ ∃ p, Entry sb disk d 1 dotdot p
  root : LinkedDir sb disk ROOTINO ∧ Entry sb disk ROOTINO 1 dotdot ROOTINO
  below : ∀ d p, LinkedDir sb disk d → d ≠ ROOTINO → Entry sb disk d 1 dotdot p →
    LinkedDir sb disk p ∧ ∃! e, ∃ a, Entry sb disk p e a d ∧ a ≠ dot ∧ a ≠ dotdot
  above : ∀ d p e a, LinkedDir sb disk d → LinkedDir sb disk p → Entry sb disk p e a d → a ≠ dot → a ≠ dotdot →
    d ≠ ROOTINO ∧ Entry sb disk d 1 dotdot p
  rooted : ∃ depth : Nat → Nat, ∀ d p, LinkedDir sb disk d → d ≠ ROOTINO → Entry sb disk d 1 dotdot p → depth p < depth d

section Trees
variable {sb : Superblock} {disk : Nat → Block} {d p e i : Nat} {a : Xv6Fs.Bytes}

theorem linkedDir_iff : (tree sb disk (dinodeAt sb disk) d).Linked ↔ LinkedDir sb disk d := by
  rw [linked_iff, mem_allocated]
  constructor
  · rintro ⟨⟨inside,_⟩,dir,some⟩
    exact ⟨inside,dir,some⟩
  · rintro ⟨inside,dir,some⟩
    refine ⟨⟨inside, ?_⟩, dir, some⟩
    rw [dir]
    decide

theorem entry_iff (linked : LinkedDir sb disk d) :
    (tree sb disk (dinodeAt sb disk) d).slots[e]? = some (some (a, i)) ↔ Entry sb disk d e a i := by
  rw [slots_linked (linkedDir_iff.mpr linked)]
  rfl

theorem links_eq (i : Nat) : (shape sb).links (tree sb disk (dinodeAt sb disk)) i = entriesFor sb disk i := by
  unfold Shape.links entriesFor
  rw [Finset.sum_filter]
  refine Finset.sum_congr rfl fun d _ => ?_
  by_cases linked : LinkedDir sb disk d
  · rw [if_pos linked, (linkedDir_iff.mpr linked).count_eq, slots_linked (linkedDir_iff.mpr linked)]
    rfl
  · rw [if_neg linked, count_unlinked fun tree => linked (linkedDir_iff.mp tree)]

theorem countP_child (linked : LinkedDir sb disk p) :
    (tree sb disk (dinodeAt sb disk) p).slots.countP ((shape sb).child d) = 1 ↔
      ∃! e, ∃ a, Entry sb disk p e a d ∧ a ≠ dot ∧ a ≠ dotdot := by
  constructor
  · intro one
    obtain ⟨e,slot,here,holds⟩ := slot_of_countP (by rw [one]; decide)
    obtain ⟨a,rfl,other,other'⟩ := slot_of_child holds
    refine ⟨e, ⟨a, (entry_iff linked).mp here, other, other'⟩, ?_⟩
    rintro f ⟨b,there,differs,differs'⟩
    exact countP_unique one rfl ((entry_iff linked).mpr there) (child_some.mpr ⟨differs,differs',rfl⟩) here holds
  · rintro ⟨e,⟨a,here,other,other'⟩,only⟩
    refine countP_one ((entry_iff linked).mpr here) (child_some.mpr ⟨other,other',rfl⟩) rfl fun f slot there holds => ?_
    obtain ⟨b,rfl,differs,differs'⟩ := slot_of_child holds
    exact only f ⟨b, (entry_iff linked).mp there, differs, differs'⟩

theorem tree_of_law (law : Law (shape sb) (tree sb disk (dinodeAt sb disk))) : DirectoryTree sb disk := by
  obtain ⟨depth,deeper⟩ := law.rooted
  have live : ∀ {d}, LinkedDir sb disk d → (tree sb disk (dinodeAt sb disk) d).Linked := linkedDir_iff.mpr
  refine ⟨fun i here => ?_, fun d linked e a i entry => ?_, fun d linked e f a i j first second => ?_, fun d linked => ?_, ?_,
    fun d p linked other up => ?_, fun d p e a linked linked' entry other other' => ?_, depth, fun d p linked other up => ?_⟩
  · rw [← links_eq, law.counted, nlink_tree here]
  · exact tree_nlink (law.entry (live linked) ((entry_iff linked).mpr entry))
  · exact law.distinct d (live linked) e f a i j ((entry_iff linked).mpr first) ((entry_iff linked).mpr second)
  · obtain ⟨first,p,second⟩ := law.self d (live linked)
    exact ⟨(entry_iff linked).mp first, p, (entry_iff linked).mp second⟩
  · have linked := linkedDir_iff.mp law.root.1
    exact ⟨linked, (entry_iff linked).mp law.root.2⟩
  · obtain ⟨alive,one⟩ := law.down d p (live linked) other ((entry_iff linked).mpr up)
    have linked' := linkedDir_iff.mp alive
    exact ⟨linked', (countP_child linked').mp one⟩
  · have named := countP_pos_of (f := (shape sb).child d) ((entry_iff linked').mpr entry) (child_some.mpr ⟨other,other',rfl⟩)
    obtain ⟨away,_,up⟩ := law.up p d (live linked') (live linked).1 (Nat.ne_of_gt named)
    exact ⟨away, (entry_iff linked).mp up⟩
  · exact deeper d p (live linked) other ((entry_iff linked).mpr up)

theorem DirectoryTree.law (order : DirectoryTree sb disk) : Law (shape sb) (tree sb disk (dinodeAt sb disk)) := by
  obtain ⟨depth,deeper⟩ := order.rooted
  have dead : ∀ {d}, (tree sb disk (dinodeAt sb disk) d).Linked → LinkedDir sb disk d := linkedDir_iff.mp
  refine ⟨fun i out => ?_, fun i free => ?_, fun i => ?_, fun d tree => ?_, fun d tree e f a i j first second => ?_, ?_,
    fun d p tree other up => ?_, fun p d tree folder some => ?_, depth, fun d p tree other up => ?_⟩
  · rw [tree_free fun here => out (Finset.mem_range.mpr (mem_allocated.mp here).1)]
  · by_cases here : i ∈ allocated sb (dinodeAt sb disk)
    · by_cases dir : (dinodeAt sb disk i).type = T_DIR
      · rw [tree_folder here dir] at free
        cases free
      · rw [tree_file here dir] at free
        cases free
    · rw [tree_free here]
  · by_cases here : i ∈ allocated sb (dinodeAt sb disk)
    · rw [links_eq, nlink_tree here, order.counted i here]
    · rw [tree_free here]
      refine Finset.sum_eq_zero fun d _ => ?_
      by_cases linked : LinkedDir sb disk d
      · rw [(linkedDir_iff.mpr linked).count_eq, List.countP_eq_zero]
        intro slot member holds
        obtain ⟨e,there⟩ := List.mem_iff_getElem?.mp member
        cases slot with
        | none => cases holds
        | some entry =>
          obtain ⟨a,j⟩ := entry
          obtain ⟨_,rfl⟩ := points_some.mp holds
          exact here (order.alive d linked e a j ((entry_iff linked).mp there)).1
      · exact count_unlinked fun tree => linked (dead tree)
  · obtain ⟨first,p,second⟩ := order.dots d (dead tree)
    exact ⟨(entry_iff (dead tree)).mpr first, p, (entry_iff (dead tree)).mpr second⟩
  · exact order.distinct d (dead tree) e f a i j ((entry_iff (dead tree)).mp first) ((entry_iff (dead tree)).mp second)
  · exact ⟨linkedDir_iff.mpr order.root.1, (entry_iff order.root.1).mpr order.root.2⟩
  · obtain ⟨linked,one⟩ := order.below d p (dead tree) other ((entry_iff (dead tree)).mp up)
    exact ⟨linkedDir_iff.mpr linked, (countP_child linked).mpr one⟩
  · obtain ⟨e,slot,here,holds⟩ := slot_of_countP some
    obtain ⟨a,rfl,other,other'⟩ := slot_of_child holds
    have entry := (entry_iff (dead tree)).mp here
    obtain ⟨inside,alive⟩ := order.alive p (dead tree) e a d entry
    have linked : LinkedDir sb disk d := ⟨(mem_allocated.mp inside).1, (folder_iff.mp folder).2, alive⟩
    obtain ⟨away,up⟩ := order.above d p e a linked (dead tree) entry other other'
    refine ⟨away, ?_, (entry_iff linked).mpr up⟩
    rintro rfl
    exact absurd (deeper d d linked away up) (Nat.lt_irrefl _)
  · exact deeper d p (dead tree) other ((entry_iff (dead tree)).mp up)

/-- The way up ends in the root. -/
theorem DirectoryTree.reaches (order : DirectoryTree sb disk) (linked : LinkedDir sb disk d) :
    Relation.ReflTransGen (fun d p => LinkedDir sb disk d ∧ Entry sb disk d 1 dotdot p) d ROOTINO := by
  refine Relation.ReflTransGen.mono ?_ _ _ (order.law.reaches (linkedDir_iff.mpr linked))
  rintro d p ⟨tree,up⟩
  have here := linkedDir_iff.mp tree
  exact ⟨here, (entry_iff here).mp up⟩

end Trees

/-- An image in order whose directories are a tree. -/
structure TreeImage (sb : Superblock) (disk : Nat → Block) : Prop where
  wellFormed : WellFormed sb disk
  whole : Whole sb (dinodeAt sb disk)
  directories : DirectoryTree sb disk

section Runs
variable {sb : Superblock} {s t : Fs} {D : Nat → Dinode} {h : Multiset Slot} {k : Slot} {E : Panic → Prop}

theorem fileRead_keeps {off n : UInt32} (lax : Lax E) (ordered : Ordered sb s D h) (member : k ∈ h) :
    wp E (fileRead sb k off n) s fun _ t => ∃ D', Ordered sb t D' h := by
  unfold fileRead
  rw [wp_bind]
  refine wp_mono (ilock_calm lax ordered.toSteady member) ?_
  rintro _ t ⟨calm,valid⟩
  have holds := calm.steady.holds member valid
  rw [wp_bind]
  apply readi_spec (calm.steady.clean.volume.cached.copy k _ holds)
    (calm.steady.clean.volume.mapped _ (calm.steady.clean.volume.here holds))
  refine wp_mono (iunlock_calm lax calm.steady member) fun _ u after => ?_
  exact ⟨D, (ordered.calm calm).calm after⟩

theorem fileWrite_keeps {src : Nat → BitVec 8} {off n : UInt32} (lax : Lax E) (ordered : Ordered sb s D h) (member : k ∈ h)
    (valid : (s.icache k).valid = true) (file : (s.icache k).d.type ≠ T_DIR) :
    wp E (fileWrite sb k src off n) s fun _ t => ∃ D', Ordered sb t D' h := by
  rw [ordered.clean.volume.cached.copy k _ (ordered.toSteady.holds member valid)] at file
  unfold fileWrite
  rw [wp_bind]
  refine wp_mono (ilock_calm lax ordered.toSteady member) ?_
  rintro _ t ⟨calm,validT⟩
  have ordered' := ordered.calm calm
  rw [← calm.inum member] at file
  rw [wp_bind]
  refine wp_mono (writei_spec lax calm.steady.clean (calm.steady.holds member validT)) ?_
  intro r u after
  have written : ∃ D', Ordered sb u D' h := by
    rcases after with ⟨_,rfl⟩ | ⟨_,D',wrote⟩
    · exact ⟨D,ordered'⟩
    · obtain ⟨steady,same⟩ := alters_file calm.steady member rfl file wrote
      exact ⟨D', steady, same ▸ ordered'.law⟩
  obtain ⟨D',after⟩ := written
  refine wp_mono (iunlock_calm lax after.toSteady member) fun _ v last => ?_
  exact ⟨D', after.calm last⟩

theorem Ordered.hold (ordered : Ordered sb s D 0) (live : 0 < (s.icache k).ref) : Ordered sb s D {k} :=
  ⟨⟨ordered.toSound.hold live, ordered.whole, ordered.typed⟩, ordered.law⟩

theorem run_keeps {call : Call} (lax : Lax E) (compact : Compact sb) (ordered : Ordered sb s D 0)
    (live : 0 < (s.icache call.entry).ref) (typed : call.wellTyped s = true) (inTree : InTree sb s call) :
    wp E (call.run sb) s fun _ t => ∃ D', Ordered sb t D' 0 := by
  have held : Ordered sb s D {call.entry} := ordered.hold live
  have member : call.entry ∈ ({call.entry} : Multiset Slot) := Multiset.mem_singleton_self _
  have synced := ordered.clean.synced _ (ordered.clean.volume.cached.inside call.entry live)
  have close : ∀ t, (∃ D', Ordered sb t D' {call.entry}) → ∃ D', Ordered sb t D' 0 := by
    rintro t ⟨D',after⟩
    exact ⟨D', after.mono (Multiset.zero_le _)⟩
  cases call with
  | create cwd path type major minor keep =>
    have known : type ≠ 0 := by
      rintro rfl
      simp only [Call.wellTyped, Bool.or_eq_true, beq_iff_eq] at typed
      rcases typed with (wrong | wrong) | wrong <;> exact absurd wrong (by decide)
    rw [InTree, show dinodeAt sb s.disk (s.icache cwd).inum = D (s.icache cwd).inum from synced] at inTree
    unfold Call.run
    rw [wp_bind]
    exact wp_mono (sysCreate_keeps lax compact known held member inTree) fun _ t after => close t after
  | «open» cwd path dirOk fileOk =>
    rw [InTree, show dinodeAt sb s.disk (s.icache cwd).inum = D (s.icache cwd).inum from synced] at inTree
    unfold Call.run
    rw [wp_bind]
    exact wp_mono (sysOpen_keeps lax held member inTree) fun _ t after => close t after
  | link cwd old new =>
    rw [InTree, show dinodeAt sb s.disk (s.icache cwd).inum = D (s.icache cwd).inum from synced] at inTree
    unfold Call.run
    rw [wp_bind]
    exact wp_mono (sysLink_keeps lax compact held member inTree) fun _ t after => close t after
  | unlink cwd path =>
    rw [InTree, show dinodeAt sb s.disk (s.icache cwd).inum = D (s.icache cwd).inum from synced] at inTree
    unfold Call.run
    rw [wp_bind]
    exact wp_mono (sysUnlink_keeps lax held member inTree) fun _ t after => close t after
  | read k off n => exact wp_mono (fileRead_keeps lax held member) fun _ t after => close t after
  | write k src off n =>
    simp only [Call.wellTyped, Bool.and_eq_true, bne_iff_ne] at typed
    exact wp_mono (fileWrite_keeps lax held member typed.1 typed.2) fun _ t after => close t after
  | dup k =>
    unfold Call.run
    rw [wp_bind]
    refine wp_mono (idup_spec held.clean live {k}) ?_
    rintro l t ⟨rfl,quiet⟩
    have calm : Calm sb {l} s D t (l ::ₘ {l}) := calm_quiet held.toSteady quiet fun m there none => by
      rcases Multiset.mem_cons.mp there with rfl | old
      · exact absurd none (Nat.ne_of_gt live)
      · exact absurd none (Nat.ne_of_gt (held.held.live old))
    exact ⟨D, (held.calm calm).mono (Multiset.zero_le _)⟩
  | close k => exact iput_ordered (h := 0) lax held

/-- At rest the tree of the table is the one on disk. -/
theorem law_on_disk (ordered : Ordered sb s D 0) : Law (shape sb) (tree sb s.disk (dinodeAt sb s.disk)) := by
  have same : tree sb s.disk (dinodeAt sb s.disk) = tree sb s.disk D := by
    funext i
    by_cases inside : i < sb.ninodes
    · exact tree_congr (ordered.clean.synced i inside) fun _ _ => rfl
    · have out : ∀ D' : Nat → Dinode, i ∉ allocated sb D' := fun D' here => inside (mem_allocated.mp here).1
      rw [tree_free (out _), tree_free (out _)]
  rw [same]
  exact ordered.law

theorem ordered_start (booted : Booted s) (image : TreeImage sb s.disk) : Ordered sb s (dinodeAt sb s.disk) 0 := by
  refine ⟨⟨sound_start booted image.wellFormed, image.whole, fun l live => ?_⟩, image.directories.law⟩
  obtain ⟨k,root,_,others,_⟩ := booted
  have only : l = k := by
    by_contra other
    have := others l other
    omega
  rw [only, root]
  rw [image.directories.root.1.2.1]
  decide

theorem next_ordered {call : Call} (compact : Compact sb) (ordered : Ordered sb s D 0) (inTree : InTree sb s call)
    (run : next sb s call = some t) : ∃ D', Ordered sb t D' 0 := by
  unfold next at run
  split at run
  · rename_i allowed
    split at run
    · rename_i result
      cases run
      exact wp_ok (run_keeps lax_safe compact ordered allowed.1 allowed.2 inTree) result
    · cases run
  · cases run

theorem reach_ordered {Image : (Nat → Block) → Prop} (compact : Compact sb) (images : ∀ disk, Image disk → TreeImage sb disk)
    (reach : (system sb Image).Reach (InTree sb) s) : ∃ D, Ordered sb s D 0 := by
  refine System.reach_invariant (system sb Image) (I := fun s => ∃ D, Ordered sb s D 0) ?_ ?_ reach
  · exact fun s start => ⟨_, ordered_start start.1 (images _ start.2)⟩
  · rintro s call t ⟨D,ordered⟩ inTree run
    exact next_ordered compact ordered inTree run

/-- The disk at rest is an image to start from. -/
theorem image_of_ordered (ordered : Ordered sb s D 0) : TreeImage sb s.disk := by
  have here := table_of_sound ordered.toSound
  refine ⟨⟨here.clean.volume.bitmap, here.clean.volume.mapped, here.entries⟩, fun i there dir => ?_,
    tree_of_law (law_on_disk ordered)⟩
  have same := ordered.clean.synced i (mem_allocated.mp there).1
  rw [mem_allocated, same] at there
  rw [same] at dir ⊢
  exact ordered.whole i (mem_allocated.mpr there) dir

/-- From a tree on, every call that starts in the tree leaves a tree with the right numbers of links, and
no such call finds an inode without a type or frees a block twice. -/
theorem directories_are_a_tree (compact : Compact sb) (reach : (system sb (TreeImage sb)).Reach (InTree sb) s) :
    DirectoryTree sb s.disk ∧
    (∀ d, LinkedDir sb s.disk d →
      Relation.ReflTransGen (fun d p => LinkedDir sb s.disk d ∧ Entry sb s.disk d 1 dotdot p) d ROOTINO) ∧
    ∀ call : Call, 0 < (s.icache call.entry).ref → call.wellTyped s = true → InTree sb s call →
      call.run sb s ≠ .error .ilockNoType ∧ call.run sb s ≠ .error .freeingFreeBlock := by
  obtain ⟨D,ordered⟩ := reach_ordered compact (fun _ image => image) reach
  have order := (image_of_ordered ordered).directories
  refine ⟨order, fun d linked => order.reaches linked, fun call live typed inTree => ?_⟩
  have lax : Lax fun e => e ≠ .ilockNoType ∧ e ≠ .freeingFreeBlock := fun _ first second => ⟨second,first⟩
  have safe := run_keeps lax compact ordered live typed inTree
  exact ⟨fun panics => (wp_error safe panics).1 rfl, fun panics => (wp_error safe panics).2 rfl⟩

end Runs

section Images

instance (sb : Superblock) (s : Fs) : (call : Call) → Decidable (InTree sb s call)
  | .create _ _ _ _ _ _ | .open _ _ _ _ | .unlink _ _ | .link _ _ _ => inferInstanceAs (Decidable (_ → _))
  | .read _ _ _ | .write _ _ _ _ | .dup _ | .close _ => inferInstanceAs (Decidable True)

/-- A root directory that names only itself. -/
def bareRoot (b : Nat) : Block :=
  if b = 5 then overlay (overlay zeroes 0 DIRENT (Dirent.bytes ⟨ROOTINO, dot⟩)) DIRENT DIRENT (Dirent.bytes ⟨ROOTINO, dotdot⟩)
  else image ROOTINO Dinode.zero 0x3F#8 b

theorem bareRoot_only : ∀ d, LinkedDir tiny bareRoot d → d = ROOTINO := by
  intro d linked
  have table : ∀ d, d < 8 → LinkedDir tiny bareRoot d → d = ROOTINO := by decide
  exact table d linked.1 linked

theorem bareRoot_entries {e i : Nat} {a : Xv6Fs.Bytes} :
    Entry tiny bareRoot ROOTINO e a i ↔ i = ROOTINO ∧ (e = 0 ∧ a = dot ∨ e = 1 ∧ a = dotdot) := by
  have table : names bareRoot (dinodeAt tiny bareRoot ROOTINO) = [some (dot, ROOTINO), some (dotdot, ROOTINO)] := by
    decide
  rw [Entry, table]
  rcases e with _ | _ | e
  · simp [eq_comm, and_comm]
  · simp [eq_comm, and_comm]
  · simp

theorem bareRoot_image : TreeImage tiny bareRoot := by
  have all : refs tiny bareRoot (dinodeAt tiny bareRoot) = {5} := by decide
  have table : ∀ i ∈ allocated tiny (dinodeAt tiny bareRoot), i = ROOTINO := by decide
  have size : (dinodeAt tiny bareRoot ROOTINO).size.toNat = 32 := by decide
  have root : LinkedDir tiny bareRoot ROOTINO := by decide
  refine ⟨⟨owned_of_refs all (by decide) (by decide) (by decide +kernel), by decide +kernel, fun i here _ e inside => ?_⟩,
    fun i here _ => ?_, ⟨by decide, fun d linked e a i entry => ?_, fun d linked e f a i j first second => ?_,
    fun d linked => ?_, ⟨root, bareRoot_entries.mpr (by decide)⟩, fun d p linked other => ?_,
    fun d p e a linked linked' entry other other' => ?_, fun _ => 0, fun d p linked other => ?_⟩⟩
  · rw [table i here] at inside ⊢
    rw [size] at inside
    have low : e < 2 := by
      unfold DIRENT DIRSIZ at inside
      omega
    have entries : ∀ e, e < 2 → (direntAt (content bareRoot (dinodeAt tiny bareRoot 1)) e).inum < tiny.ninodes := by decide +kernel
    exact entries e low
  · rw [table i here, size]
    decide
  · rw [bareRoot_only d linked] at entry
    rw [(bareRoot_entries.mp entry).1]
    exact ⟨by decide, root.2.2⟩
  · rw [bareRoot_only d linked] at first second
    obtain ⟨_,⟨rfl,rfl⟩ | ⟨rfl,rfl⟩⟩ := bareRoot_entries.mp first
    · obtain ⟨_,⟨rfl,_⟩ | ⟨_,wrong⟩⟩ := bareRoot_entries.mp second
      · rfl
      · cases wrong
    · obtain ⟨_,⟨_,wrong⟩ | ⟨rfl,_⟩⟩ := bareRoot_entries.mp second
      · cases wrong
      · rfl
  · rw [bareRoot_only d linked]
    exact ⟨bareRoot_entries.mpr (by decide), ROOTINO, bareRoot_entries.mpr (by decide)⟩
  · exact absurd (bareRoot_only d linked) other
  · rw [bareRoot_only p linked'] at entry
    obtain ⟨_,⟨_,wrong⟩ | ⟨_,wrong⟩⟩ := bareRoot_entries.mp entry
    · exact absurd wrong other
    · exact absurd wrong other'
  · exact absurd (bareRoot_only d linked) other

theorem tiny_compact : Compact tiny := ⟨by decide, by decide⟩

def mkdir (cwd : Slot) (path : Xv6Fs.Bytes) : Call := .create cwd path T_DIR 0 0 false

def inTree (s : Fs) (call : Call) : Bool := decide (InTree tiny s call)

/-- A directory, a file in it, and a second link to the file. -/
def planting : List Call :=
  [mkdir rootSlot [100#8], .create rootSlot [100#8, 47#8, 102#8] T_FILE 0 0 false, .link rootSlot [100#8, 47#8, 102#8] [103#8]]

def planted : Fs := (System.exec (System.guarded inTree (next tiny)) (boot bareRoot) planting).get (by decide +kernel)

theorem planted_reach : (system tiny (TreeImage tiny)).Reach (InTree tiny) planted := by
  have run : System.exec (System.guarded inTree (next tiny)) (boot bareRoot) planting = some planted := by
    simp only [planted, Option.some_get]
  exact System.guarded_reach inTree (fun _ _ => of_decide_eq_true) _ (.start ⟨boot_booted bareRoot, bareRoot_image⟩) run

theorem directories_are_a_tree_planted : (system tiny (TreeImage tiny)).Reach (InTree tiny) planted ∧
    (dinodeAt tiny planted.disk ROOTINO).nlink = 2 ∧ (dinodeAt tiny planted.disk 3).nlink = 2 ∧ DirectoryTree tiny planted.disk :=
  ⟨planted_reach, by decide +kernel, by decide +kernel, (directories_are_a_tree tiny_compact planted_reach).1⟩

/-- A directory is removed while it is a current directory, and gets a file. -/
def stranding : List Call :=
  [mkdir rootSlot [100#8], .open rootSlot [100#8] true true, .unlink rootSlot [100#8], .create fileSlot [102#8] T_FILE 0 0 false]

def stranded : Fs := (System.exec (next tiny) (boot bareRoot) stranding).get (by decide +kernel)

/-- A removed directory that a process is in still takes names. -/
theorem directory_tree_not_kept : (system tiny (TreeImage tiny)).Reach System.Free stranded ∧ ¬ DirectoryTree tiny stranded.disk := by
  have run : System.exec (next tiny) (boot bareRoot) stranding = some stranded := by
    simp only [stranded, Option.some_get]
  refine ⟨System.exec_reach _ (fun _ _ _ => trivial) (.start ⟨boot_booted bareRoot, bareRoot_image⟩) run, fun order => ?_⟩
  have counted := order.counted 3 (by decide +kernel)
  exact absurd counted (by decide +kernel)

end Images
end Xv6FsTree
