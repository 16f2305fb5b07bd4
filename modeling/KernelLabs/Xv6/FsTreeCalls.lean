import KernelLabs.Xv6.FsTree
import Mathlib.Algebra.BigOperators.Ring.Finset

/-!
The calls of the file system keep the directories a tree whose link counts are right, if they start in it.
-/
namespace Xv6FsTree
open Xv6Fs Xv6FsDisk Xv6FsOwn Xv6FsVolume Xv6FsFile Xv6FsSlots Xv6FsDirs Xv6FsSound Xv6FsNames Xv6FsBytes LinkCounts Bytes Wp

/-- A volume in order whose directories are a tree. -/
structure Ordered (sb : Superblock) (s : Fs) (D : Nat → Dinode) (h : Multiset Slot) : Prop extends Steady sb s D h where
  law : Law (shape sb) (tree sb s.disk D)

/-- Inode numbers fit into directory entries, and the entries of all blocks into a link count. -/
structure Compact (sb : Superblock) : Prop where
  inodes : sb.ninodes ≤ 2 ^ 16
  entries : BSIZE / DIRENT * sb.size < 2 ^ 16

section Counts
variable {sb : Superblock} {s t : Fs} {D : Nat → Dinode} {h h' : Multiset Slot} {i : Nat}

theorem Ordered.calm {l : Multiset Slot} (ordered : Ordered sb s D h) (calm : Calm sb l s D t h') : Ordered sb t D h' :=
  ⟨calm.steady, calm.tree ▸ ordered.law⟩

theorem Ordered.mono (ordered : Ordered sb s D h) (less : h' ≤ h) : Ordered sb s D h' :=
  ⟨ordered.toSteady.mono less, ordered.law⟩

/-- A step to a volume whose directories are a tree, with the references `h'`, of which `h` are old ones. -/
structure Keeps (sb : Superblock) (h : Multiset Slot) (s t : Fs) (h' : Multiset Slot) : Prop where
  ordered : ∃ D, Ordered sb t D h'
  kept : Kept h s t

theorem Ordered.keeps {l : Multiset Slot} (ordered : Ordered sb s D l) (calm : Calm sb h s D t h') : Keeps sb h s t h' :=
  ⟨⟨D, ordered.calm calm⟩, calm.kept⟩

theorem Keeps.after {u : Fs} {h'' : Multiset Slot} (keeps : Keeps sb h t u h'') (calm : Calm sb h s D t h') : Keeps sb h s u h'' :=
  ⟨keeps.ordered, calm.kept.trans keeps.kept⟩

theorem entries_blocks (d : Dinode) : direntCount d ≤ BSIZE / DIRENT * nblocks d := by
  unfold direntCount nblocks BSIZE DIRENT DIRSIZ
  omega

/-- There is no room for more links than a count can tell. -/
theorem few_links (compact : Compact sb) (ordered : Ordered sb s D h) (i : Nat) :
    (tree sb s.disk D i).nlink + 1 < 2 ^ 16 := by
  have volume := ordered.clean.volume
  have used := free_used volume.bitmap
  have card := refs_card volume
  have each : ∀ d ∈ Finset.range sb.ninodes, (tree sb s.disk D d).count ((shape sb).points i) ≤
      if (D d).type ≠ 0 then BSIZE / DIRENT * (nblocks (D d) + indirectCount (D d)) else 0 := by
    intro d inside
    by_cases linked : (tree sb s.disk D d).Linked
    · have here := (linked_iff.mp linked).1
      rw [if_pos (mem_allocated.mp here).2, linked.count_eq, slots_linked linked]
      have length : (names s.disk (D d)).countP ((shape sb).points i) ≤ (names s.disk (D d)).length := List.countP_le_length
      rw [names_length] at length
      exact Nat.le_trans (Nat.le_trans length (entries_blocks _)) (Nat.mul_le_mul_left _ (Nat.le_add_right _ _))
    · rw [count_unlinked linked]
      exact Nat.zero_le _
  have sum := Finset.sum_le_sum each
  rw [← Finset.sum_filter, ← Finset.mul_sum] at sum
  have total : (tree sb s.disk D i).nlink ≤ BSIZE / DIRENT * (refs sb s.disk D).card := by
    rw [← ordered.law.counted i, card]
    exact sum
  have low : 1 ≤ sb.nmeta := Nat.le_trans (Nat.succ_le_succ (Nat.zero_le _)) (Nat.le_add_left _ _)
  have entries := compact.entries
  have unit : BSIZE / DIRENT = 32 := by decide
  rw [unit] at total entries
  omega

theorem slot_pos {disk : Nat → Block} {d : Dinode} {e j : Nat} {a : Xv6Fs.Bytes} (here : (names disk d)[e]? = some (some (a, j))) : 0 < j := by
  rw [names_get] at here
  split at here
  · rw [Option.some_inj, slotOf] at here
    split at here
    · cases here
    · rename_i some
      cases here
      exact Nat.pos_of_ne_zero some
  · cases here

/-- Inode 0 is not part of the tree, for no entry can name it. -/
theorem linked_pos (ordered : Ordered sb s D h) (some : (tree sb s.disk D i).nlink ≠ 0) : 0 < i := by
  rw [← ordered.law.counted i] at some
  obtain ⟨d,_,count⟩ := Finset.exists_ne_zero_of_sum_ne_zero some
  by_cases linked : (tree sb s.disk D d).Linked
  · rw [linked.count_eq] at count
    obtain ⟨e,slot,here,points⟩ := slot_of_countP count
    cases slot with
    | none => cases points
    | some x =>
      obtain ⟨a,j⟩ := x
      obtain ⟨_,rfl⟩ := points_some.mp points
      rw [slots_linked linked] at here
      exact slot_pos here
  · exact absurd (count_unlinked linked) count

end Counts

section Create
variable {sb : Superblock} {s t u : Fs} {D D' : Nat → Dinode} {h : Multiset Slot} {dp ip : Slot} {i p e : Nat}
  {E : Panic → Prop} {name : Xv6Fs.Bytes}

variable (name) in
/-- The end of `create`: the new inode gets its name. -/
theorem create_link_tree (lax : Lax E) (compact : Compact sb) (steady : Steady sb s D (ip ::ₘ dp ::ₘ h))
    (valid : (s.icache dp).valid = true) (at_ : (s.icache dp).inum = p) (new : 1 ≤ (s.icache ip).inum)
    (linked : (tree sb s.disk D p).Linked) (distinct : SlotTable.Distinct (tree sb s.disk D p).slots)
    (named : ∀ (e : Nat) a j, (tree sb s.disk D p).slots[e]? = some (some (a, j)) → (tree sb s.disk D j).nlink ≠ 0) :
    wp E (do
      let s ← get
      let linked ← dirlink sb dp name (s.icache ip).inum
      if linked = false then throw Panic.createDirlink
      else do
        iunlockput sb dp
        return ip) s fun r t => r = ip ∧ ∃ D' e, Steady sb t D' (ip ::ₘ h) ∧ Kept (ip ::ₘ h) s t ∧
          e ≤ (tree sb s.disk D p).slots.length ∧ (∀ x, (tree sb s.disk D p).slots[e]? ≠ some (some x)) ∧
          (∀ (f : Nat) j, (tree sb s.disk D p).slots[f]? ≠ some (some (key name, j))) ∧
          tree sb t.disk D' = Function.update (tree sb s.disk D) p { tree sb s.disk D p with
            slots := SlotTable.write (tree sb s.disk D p).slots e (some (key name, (s.icache ip).inum)) } := by
  have inside := steady.clean.volume.cached.inside ip (steady.held.live (Multiset.mem_cons_self _ _))
  rw [wp_bind, wp_get, wp_bind]
  refine wp_mono (dirlink_tree lax steady (by simp) valid at_ linked.1 distinct named new (by have := compact.inodes; omega) inside) ?_
  rintro r t (⟨rfl,_⟩ | ⟨rfl,missing,e,D',place,vacant,alters⟩)
  · rw [if_pos rfl]
    exact lax _ (by decide) (by decide)
  · have after := alters.steady
    rw [Multiset.cons_swap] at after
    have inum := (alters.kept dp (by simp)).1
    rw [if_neg (by decide), wp_bind]
    refine wp_mono (iunlockput_calm lax after ?_) fun _ u calm => ?_
    · rw [inum, at_]
      refine (@tree_nlink sb t.disk _ _ ?_).2
      rw [alters.tree, Function.update_self]
      exact linked.2
    · refine ⟨rfl, D', e, calm.steady, (alters.kept.mono ?_).trans calm.kept, place, vacant, missing, ?_⟩
      · rw [Multiset.cons_swap]
        exact Multiset.subset_cons _ _
      · rw [calm.tree, alters.tree]

/-- A new inode is no node of the tree, and so it is not the directory. -/
theorem fresh_ne (linked : (tree sb s.disk D p).Linked) (fresh : i ∉ allocated sb D) : p ≠ i := by
  rintro rfl
  exact fresh (linked_iff.mp linked).1

/-- A new inode with one link that nothing names yet. -/
structure Fresh (sb : Superblock) (h : Multiset Slot) (s : Fs) (D : Nat → Dinode) (dp : Slot) (kind : Kind) (ip : Slot) (i : Nat)
    (t : Fs) (D' : Nat → Dinode) : Prop where
  steady : Steady sb t D' (ip ::ₘ dp ::ₘ h)
  kept : Kept (dp ::ₘ h) s t
  inum : (t.icache ip).inum = i
  valid : (t.icache ip).valid = true
  low : 1 ≤ i
  inside : i < sb.ninodes
  away : i ∉ allocated sb D
  tree : tree sb t.disk D' = Function.update (tree sb s.disk D) i ⟨kind, 1, []⟩

/-- The first four steps of `create` for a new name. -/
theorem wp_fresh {type major minor : UInt16} {Q : Slot → Fs → Prop} (lax : Lax E) (known : type ≠ 0)
    (ordered : Ordered sb s D (dp ::ₘ h))
    (after : ∀ ip v D' i, Fresh sb h s D dp (if type = T_DIR then .folder else .file) ip i v D' → Q ip v) :
    wp E (ialloc sb type) s fun ip t => wp E (ilock sb ip) t fun _ u =>
      wp E (setDinode ip fun d => { d with major := major, minor := minor, nlink := 1 }) u fun _ x =>
        wp E (iupdate sb ip) x fun _ v => Q ip v := by
  refine wp_mono (ialloc_tree lax known ordered.toSteady) ?_
  rintro ip t ⟨D1,i,inum,low,inside,fresh,entry,alloc⟩
  have mine : ip ∈ ip ::ₘ dp ::ₘ h := Multiset.mem_cons_self _ _
  refine wp_mono (ilock_calm lax alloc.steady mine) ?_
  rintro _ u ⟨calm,valid⟩
  refine wp_alter calm.steady mine valid ((calm.inum mine).trans inum) (fun _ => ⟨rfl,rfl,rfl⟩) fun v alter => ?_
  have less : dp ::ₘ h ⊆ ip ::ₘ dp ::ₘ h := Multiset.subset_cons _ _
  have kept := alter.kept ip mine
  refine after ip v _ i ⟨alter.steady, (alloc.kept.trans (calm.kept.mono less)).trans (alter.kept.mono less),
    (kept.1.trans (calm.inum mine)).trans inum, kept.2 valid, low, inside, fresh, ?_⟩
  rw [alter.tree, calm.tree, alloc.tree, Function.update_self, Function.update_idem]
  rfl

/-- The inode that `create` returns. -/
def Creates (sb : Superblock) (h : Multiset Slot) (s t : Fs) (ip : Slot) : Prop :=
  ∃ D', Ordered sb t D' (ip ::ₘ h) ∧ Kept h s t ∧ (D' (t.icache ip).inum).nlink ≠ 0

theorem createNew_file {type major minor : UInt16} (lax : Lax E) (compact : Compact sb) (known : type ≠ 0)
    (file : type ≠ T_DIR) (ordered : Ordered sb s D (dp ::ₘ h)) (valid : (s.icache dp).valid = true)
    (at_ : (s.icache dp).inum = p) (linked : (tree sb s.disk D p).Linked) :
    wp E (createNew sb dp name type major minor) s fun ip t => Creates sb h s t ip := by
  unfold createNew
  simp only [wp_bind]
  refine wp_fresh lax known ordered fun ip v D1 i fresh => ?_
  have law := ordered.law
  have apart := fresh_ne linked fresh.away
  have free : (tree sb s.disk D i).kind = .free := by rw [tree_free fresh.away]
  obtain ⟨same,stays⟩ := fresh.kept dp (Multiset.mem_cons_self _ _)
  have at_p : tree sb v.disk D1 p = tree sb s.disk D p := by rw [fresh.tree, Function.update_of_ne apart]
  have named : ∀ (e : Nat) a j, (tree sb s.disk D p).slots[e]? = some (some (a, j)) → (tree sb v.disk D1 j).nlink ≠ 0 := by
    intro e a j here
    rw [fresh.tree]
    by_cases new : j = i
    · rw [new, Function.update_self]
      exact Nat.one_ne_zero
    · rw [Function.update_of_ne new]
      exact law.entry linked here
  rw [if_neg file]
  have link := create_link_tree name lax compact fresh.steady (stays valid) (same.trans at_) (by rw [fresh.inum]; exact fresh.low)
    (at_p ▸ linked) (at_p ▸ law.distinct p linked) (at_p ▸ named)
  refine wp_mono link ?_
  rintro _ w ⟨rfl,D2,e,steady,kept,place,vacant,missing,after⟩
  rw [at_p, fresh.inum] at after
  rw [at_p] at place vacant missing
  have at_i : tree sb w.disk D2 i = ⟨.file, 1, []⟩ := by
    rw [after, Function.update_of_ne (Ne.symm apart), fresh.tree, Function.update_self, if_neg file]
  refine ⟨D2, ⟨steady, law.create linked (Finset.mem_range.mpr fresh.inside) free place vacant missing ?_ at_i fun q other other' => ?_⟩, ?_, ?_⟩
  · rw [after, Function.update_self]
  · rw [after, Function.update_of_ne other, fresh.tree, Function.update_of_ne other']
  · exact (fresh.kept.mono (Multiset.subset_cons _ _)).trans (kept.mono (Multiset.subset_cons _ _))
  · rw [(kept _ (Multiset.mem_cons_self _ _)).1, fresh.inum]
    refine (@tree_nlink sb w.disk _ _ ?_).2
    rw [at_i]
    exact Nat.one_ne_zero

/-- A new directory has no free slots: an entry comes at the end. -/
theorem dirlink_append {l : SlotTable.Table Xv6Fs.Bytes Nat} {inum : Nat} (lax : Lax E) (compact : Compact sb)
    (steady : Steady sb s D h) (member : ip ∈ h) (valid : (s.icache ip).valid = true) (at_ : (s.icache ip).inum = i)
    (node : tree sb s.disk D i = ⟨.folder, 1, l⟩) (full : ∀ e : Nat, e < l.length → ∃ x, l[e]? = some (some x))
    (distinct : SlotTable.Distinct l)
    (named : ∀ (e : Nat) a j, l[e]? = some (some (a, j)) → (tree sb s.disk D j).nlink ≠ 0) (known : 0 < inum) (inside : inum < sb.ninodes) :
    wp E (dirlink sb ip name inum) s fun r t => r = false ∨ r = true ∧ ∃ D', Steady sb t D' h ∧ Kept h s t ∧
      tree sb t.disk D' = Function.update (tree sb s.disk D) i ⟨.folder, 1, l ++ [some (key name, inum)]⟩ := by
  have small : inum < 2 ^ 16 := Nat.lt_of_lt_of_le inside compact.inodes
  refine wp_mono (dirlink_tree lax steady member valid at_ (by rw [node]) (by rw [node]; exact distinct) (by rw [node]; exact named)
    known small inside) ?_
  rintro r t (⟨rfl,_⟩ | ⟨rfl,_,e,D',place,vacant,alters⟩)
  · exact Or.inl rfl
  · rw [node] at place vacant
    have last : e = l.length := by
      rcases Nat.lt_or_ge e l.length with low | high
      · obtain ⟨x,here⟩ := full e low
        exact absurd here (vacant x)
      · exact Nat.le_antisymm place high
    refine Or.inr ⟨rfl, D', alters.steady, alters.kept, ?_⟩
    rw [alters.tree, node, last]
    unfold SlotTable.write
    rw [List.take_length, List.drop_eq_nil_of_le (Nat.le_succ _)]

theorem createNew_dir {major minor : UInt16} (lax : Lax E) (compact : Compact sb) (ordered : Ordered sb s D (dp ::ₘ h))
    (valid : (s.icache dp).valid = true) (at_ : (s.icache dp).inum = p) (linked : (tree sb s.disk D p).Linked) :
    wp E (createNew sb dp name T_DIR major minor) s fun ip t => Creates sb h s t ip := by
  unfold createNew
  simp only [wp_bind]
  refine wp_fresh lax (by decide) ordered fun ip v D1 i fresh => ?_
  rw [if_pos rfl] at fresh
  have law := ordered.law
  have apart := fresh_ne linked fresh.away
  have free : (tree sb s.disk D i).kind = .free := by rw [tree_free fresh.away]
  have few := few_links compact ordered p
  obtain ⟨same,stays⟩ := fresh.kept dp (Multiset.mem_cons_self _ _)
  have ipIn : ip ∈ ip ::ₘ dp ::ₘ h := Multiset.mem_cons_self _ _
  have dpIn : dp ∈ ip ::ₘ dp ::ₘ h := Multiset.mem_cons_of_mem (Multiset.mem_cons_self _ _)
  have at_p : tree sb v.disk D1 p = tree sb s.disk D p := by rw [fresh.tree, Function.update_of_ne apart]
  have here : p ∈ allocated sb D1 := by
    refine (@tree_nlink sb v.disk _ _ ?_).1
    rw [at_p]
    exact linked.2
  rw [if_pos trivial]
  simp only [wp_bind]
  refine wp_alter fresh.steady dpIn (stays valid) (same.trans at_) (fun _ => ⟨rfl,rfl,rfl⟩) fun w more => ?_
  have count : ((D1 p).nlink + 1).toNat = (tree sb s.disk D p).nlink + 1 := by
    rw [← at_p, nlink_tree here] at few
    rw [UInt16.toNat_add, ← at_p, nlink_tree here]
    exact Nat.mod_eq_of_lt few
  have treeW : tree sb w.disk (Function.update D1 p { D1 p with nlink := (D1 p).nlink + 1 }) =
      Function.update (tree sb v.disk D1) p ⟨.folder, (tree sb s.disk D p).nlink + 1, (tree sb s.disk D p).slots⟩ := by
    rw [more.tree, at_p, ← count, ← linked.1]
  have steadyW := more.steady
  generalize Function.update D1 p { D1 p with nlink := (D1 p).nlink + 1 } = D2 at treeW steadyW
  have ipW := more.kept ip ipIn
  have dpW := more.kept dp dpIn
  have iW : tree sb w.disk D2 i = ⟨.folder, 1, []⟩ := by
    rw [treeW, Function.update_of_ne (Ne.symm apart), fresh.tree, Function.update_self]
  have inside : p < sb.ninodes := (mem_allocated.mp here).1
  rw [wp_get, ipW.1, fresh.inum]
  refine wp_mono (dirlink_append lax compact steadyW ipIn (ipW.2 fresh.valid) (ipW.1.trans fresh.inum) iW
    (fun e low => absurd low (Nat.not_lt_zero e)) (fun _ _ _ _ _ first => by cases first) (fun _ _ _ first => by cases first)
    fresh.low fresh.inside) ?_
  rintro one x (rfl | ⟨rfl,D3,steadyX,keptX,treeX⟩)
  · rw [if_pos rfl]
    exact lax _ (by decide) (by decide)
  · rw [if_neg (by decide)]
    simp only [wp_bind]
    have ipX := keptX ip ipIn
    have dpX := keptX dp dpIn
    have iX : tree sb x.disk D3 i = ⟨.folder, 1, [some (dot, i)]⟩ := by
      rw [treeX, Function.update_self]
      rfl
    have pX : tree sb x.disk D3 p = ⟨.folder, (tree sb s.disk D p).nlink + 1, (tree sb s.disk D p).slots⟩ := by
      rw [treeX, Function.update_of_ne apart, treeW, Function.update_self]
    rw [dpW.1, same, at_]
    refine wp_mono (dirlink_append lax compact steadyX ipIn (ipX.2 (ipW.2 fresh.valid)) (ipX.1.trans (ipW.1.trans fresh.inum)) iX
      (fun e low => ?_) (fun e f a k l first second => ?_) (fun e a j first => ?_) ?_ inside) ?_
    · obtain rfl : e = 0 := Nat.lt_one_iff.mp low
      exact ⟨_,rfl⟩
    · obtain rfl : e = 0 := Nat.lt_one_iff.mp (List.getElem?_eq_some_iff.mp first).1
      obtain rfl : f = 0 := Nat.lt_one_iff.mp (List.getElem?_eq_some_iff.mp second).1
      rfl
    · obtain rfl : e = 0 := Nat.lt_one_iff.mp (List.getElem?_eq_some_iff.mp first).1
      cases first
      rw [iX]
      exact Nat.one_ne_zero
    · exact linked_pos ordered linked.2
    rintro two y (rfl | ⟨rfl,D4,steadyY,keptY,treeY⟩)
    · rw [if_pos rfl]
      exact lax _ (by decide) (by decide)
    · rw [if_neg (by decide)]
      have ipY := keptY ip ipIn
      have dpY := keptY dp dpIn
      have inumY : (y.icache ip).inum = i := ipY.1.trans (ipX.1.trans (ipW.1.trans fresh.inum))
      have iY : tree sb y.disk D4 i = ⟨.folder, 1, [some (dot, i), some (dotdot, p)]⟩ := by
        rw [treeY, Function.update_self]
        rfl
      have pY : tree sb y.disk D4 p = ⟨.folder, (tree sb s.disk D p).nlink + 1, (tree sb s.disk D p).slots⟩ := by
        rw [treeY, Function.update_of_ne apart, pX]
      have others : ∀ q, q ≠ p → q ≠ i → tree sb y.disk D4 q = tree sb s.disk D q := by
        intro q other other'
        rw [treeY, Function.update_of_ne other', treeX, Function.update_of_ne other', treeW, Function.update_of_ne other,
          fresh.tree, Function.update_of_ne other']
      refine wp_mono (create_link_tree name lax compact steadyY (dpY.2 (dpX.2 (dpW.2 (stays valid))))
        (dpY.1.trans (dpX.1.trans (dpW.1.trans (same.trans at_)))) (by rw [inumY]; exact fresh.low) ?_ ?_ ?_) ?_
      · rw [pY]
        exact ⟨rfl, Nat.succ_ne_zero _⟩
      · rw [pY]
        exact law.distinct p linked
      · rw [pY]
        intro e a j first
        by_cases new : j = i
        · rw [new, iY]
          exact Nat.one_ne_zero
        · by_cases self : j = p
          · rw [self, pY]
            exact Nat.succ_ne_zero _
          · rw [others j self new]
            exact law.entry linked first
      · rintro r z ⟨rfl,D5,e,steady,kept,place,vacant,missing,after⟩
        rw [pY] at place vacant missing after
        rw [inumY] at after
        have iZ : tree sb z.disk D5 i = ⟨.folder, 1, [some (dot, i), some (dotdot, p)]⟩ := by
          rw [after, Function.update_of_ne (Ne.symm apart), iY]
        have old := less h r dp
        refine ⟨D5, ⟨steady, law.mkdir linked (Finset.mem_range.mpr fresh.inside) free place vacant missing ?_ iZ fun q other other' => ?_⟩, ?_, ?_⟩
        · rw [after, Function.update_self]
        · rw [after, Function.update_of_ne other, others q other other']
        · exact ((((fresh.kept.mono (Multiset.subset_cons _ _)).trans (more.kept.mono old)).trans (keptX.mono old)).trans
            (keptY.mono old)).trans (kept.mono (Multiset.subset_cons _ _))
        · rw [(kept _ (Multiset.mem_cons_self _ _)).1, inumY]
          refine (@tree_nlink sb z.disk _ _ ?_).2
          rw [iZ]
          exact Nat.one_ne_zero

theorem create_keeps {cwd : Slot} {path : Xv6Fs.Bytes} {type major minor : UInt16} (lax : Lax E) (compact : Compact sb)
    (known : type ≠ 0) (ordered : Ordered sb s D h) (member : cwd ∈ h)
    (linked : path.head? ≠ some slash → (D (s.icache cwd).inum).nlink ≠ 0) :
    wp E (create sb cwd path type major minor) s fun r t => match r with
      | none => Keeps sb h s t h
      | some ip => Creates sb h s t ip := by
  have closed := ordered.law.closed
  unfold create
  rw [wp_bind]
  refine wp_mono (namex_finds lax true ordered.toSteady closed member linked) ?_
  intro r t finds
  cases r with
  | none => exact ordered.keeps finds
  | some result =>
    obtain ⟨dp,name⟩ := result
    obtain ⟨calm,some,dir⟩ := finds
    have mine : dp ∈ dp ::ₘ h := Multiset.mem_cons_self dp h
    have less := Multiset.le_cons_self h dp
    dsimp only
    rw [wp_bind]
    refine wp_mono (ilock_calm lax calm.steady mine) ?_
    rintro _ u ⟨locked,valid⟩
    have inum := locked.inum mine
    have here := locked.steady.here mine
    have start : Calm sb h s D u (dp ::ₘ h) := calm.trans (locked.less less)
    have inTree : (tree sb u.disk D (u.icache dp).inum).Linked := linked_iff.mpr ⟨here, inum ▸ dir rfl, inum ▸ some⟩
    have ordered' := ordered.calm start
    rw [wp_bind]
    refine wp_mono (dirlookup_calm lax locked.steady mine valid rfl inTree.1 (ordered'.law.closed.entry _ inTree)) ?_
    intro r v after
    cases r with
    | none =>
      obtain ⟨rfl,_⟩ := after
      dsimp only
      rw [wp_bind]
      have done : wp E (createNew sb dp name type major minor) v fun ip w => Creates sb h v w ip := by
        by_cases dir : type = T_DIR
        · subst dir
          exact createNew_dir lax compact ordered' valid rfl inTree
        · exact createNew_file lax compact known dir ordered' valid rfl inTree
      refine wp_mono done ?_
      rintro ip w ⟨D1,after,kept,live⟩
      exact ⟨D1, after, start.kept.trans kept, live⟩
    | some found =>
      obtain ⟨ip,e⟩ := found
      obtain ⟨search,_,slot⟩ := after
      have ipLinked := (tree_nlink (ordered'.law.closed.entry _ inTree e _ _ slot)).2
      have steadyV := search.steady
      rw [Multiset.cons_swap] at steadyV
      dsimp only
      rw [wp_bind]
      refine wp_mono (iunlockput_calm lax steadyV ?_) fun _ w put => ?_
      · rw [search.inum mine, inum]
        exact some
      · have mineIp : ip ∈ ip ::ₘ h := Multiset.mem_cons_self ip h
        rw [wp_bind]
        refine wp_mono (ilock_calm lax put.steady mineIp) ?_
        rintro _ x ⟨lock,_⟩
        have inumX := (lock.inum mineIp).trans (put.inum mineIp)
        have calmX : Calm sb h s D x (ip ::ₘ h) :=
          (start.trans (search.less less)).trans ((put.trans lock).less (Multiset.le_cons_self h ip))
        rw [wp_bind, wp_get]
        by_cases file : type = T_FILE ∧ (x.icache ip).d.type = T_FILE
        · rw [if_pos file, wp_pure]
          refine ⟨D, ordered.calm calmX, calmX.kept, ?_⟩
          rw [inumX]
          exact ipLinked
        · rw [if_neg file, wp_bind]
          refine wp_mono (iunlockput_calm lax lock.steady ?_) fun _ y last => ?_
          · rw [inumX]
            exact ipLinked
          · exact ordered.keeps (calmX.trans last)

theorem sysCreate_keeps {cwd : Slot} {path : Xv6Fs.Bytes} {type major minor : UInt16} {keep : Bool} (lax : Lax E)
    (compact : Compact sb) (known : type ≠ 0) (ordered : Ordered sb s D h) (member : cwd ∈ h)
    (linked : path.head? ≠ some slash → (D (s.icache cwd).inum).nlink ≠ 0) :
    wp E (sysCreate sb cwd path type major minor keep) s fun _ t => ∃ D', Ordered sb t D' h := by
  unfold sysCreate
  rw [wp_bind]
  refine wp_mono (create_keeps lax compact known ordered member linked) ?_
  intro r t after
  cases r with
  | none => exact after.ordered
  | some ip =>
    obtain ⟨D1,ordered',kept,live⟩ := after
    have mine : ip ∈ ip ::ₘ h := Multiset.mem_cons_self ip h
    dsimp only
    by_cases keeps : keep = true
    · rw [if_pos keeps, wp_bind]
      refine wp_mono (iunlock_calm lax ordered'.toSteady mine) fun _ u calm => ?_
      exact ⟨D1, (ordered'.calm calm).mono (Multiset.le_cons_self h ip)⟩
    · rw [if_neg keeps, wp_bind]
      refine wp_mono (iunlockput_calm lax ordered'.toSteady live) fun _ u calm => ?_
      exact ⟨D1, ordered'.calm calm⟩

end Create

section Calls
variable {sb : Superblock} {s t u : Fs} {D D' : Nat → Dinode} {h : Multiset Slot} {cwd dp ip k : Slot} {i p e : Nat}
  {E : Panic → Prop} {name path : Xv6Fs.Bytes}

theorem sysOpen_keeps {dirOk fileOk : Bool} (lax : Lax E) (ordered : Ordered sb s D h) (member : cwd ∈ h)
    (linked : path.head? ≠ some slash → (D (s.icache cwd).inum).nlink ≠ 0) :
    wp E (sysOpen sb cwd path dirOk fileOk) s fun _ t => ∃ D', Ordered sb t D' h := by
  unfold sysOpen
  rw [wp_bind]
  refine wp_mono (namex_finds lax false ordered.toSteady ordered.law.closed member linked) ?_
  intro r t finds
  cases r with
  | none => exact ⟨D, ordered.calm finds⟩
  | some result =>
    obtain ⟨ip,name⟩ := result
    obtain ⟨calm,some,_⟩ := finds
    have mine : ip ∈ ip ::ₘ h := Multiset.mem_cons_self ip h
    dsimp only
    rw [wp_bind]
    refine wp_mono (ilock_calm lax calm.steady mine) ?_
    rintro _ u ⟨locked,_⟩
    have ordered' := (ordered.calm calm).calm locked
    rw [wp_bind, wp_get]
    generalize (if (u.icache ip).d.type = T_DIR then dirOk else fileOk) = ok
    by_cases keep : ok = true
    · rw [if_pos keep, wp_bind]
      refine wp_mono (iunlock_calm lax locked.steady mine) fun _ v after => ?_
      exact ⟨D, (ordered'.calm after).mono (Multiset.le_cons_self h ip)⟩
    · rw [if_neg keep, wp_bind]
      refine wp_mono (iunlockput_calm lax locked.steady (locked.inum mine ▸ some)) fun _ v after => ?_
      exact ⟨D, ordered'.calm after⟩

/-- The change that `setNlink` makes to the tree. -/
theorem setNlink_tree {f : UInt16 → UInt16} (steady : Steady sb s D h) (member : k ∈ h) (valid : (s.icache k).valid = true)
    (at_ : (s.icache k).inum = i) : wp E (setNlink sb k f) s fun _ t => ∃ D', D' i = { D i with nlink := f (D i).nlink } ∧
      (∀ j, j ≠ i → D' j = D j) ∧ Alters sb h s D i { tree sb s.disk D i with nlink := (f (D i).nlink).toNat } t D' h := by
  unfold setNlink
  rw [wp_bind]
  refine wp_alter steady member valid at_ (fun _ => ⟨rfl,rfl,rfl⟩) fun t alters => ?_
  exact ⟨_, Function.update_self .., fun j other => Function.update_of_ne other _ _, alters⟩

theorem toNat_succ {n : UInt16} (few : n.toNat + 1 < 2 ^ 16) : (n + 1).toNat = n.toNat + 1 := by
  rw [UInt16.toNat_add]
  exact Nat.mod_eq_of_lt few

theorem toNat_pred {n : UInt16} (some : 0 < n.toNat) : (n - 1).toNat = n.toNat - 1 := by
  have top := n.toNat_lt
  rw [UInt16.toNat_sub]
  have one : (1 : UInt16).toNat = 1 := rfl
  rw [one]
  omega

/-- `bad:` of `sys_link` takes the link back. -/
theorem unlinkBack_keeps {G : Tree} (lax : Lax E) (steady : Steady sb s D (ip ::ₘ h)) (at_ : (s.icache ip).inum = i)
    (law : Law (shape sb) G) (some : (G i).nlink ≠ 0)
    (more : tree sb s.disk D = Function.update G i { G i with nlink := (G i).nlink + 1 }) :
    wp E (unlinkBack sb ip) s fun _ t => ∃ D', Ordered sb t D' h := by
  have mine : ip ∈ ip ::ₘ h := Multiset.mem_cons_self ip h
  unfold unlinkBack
  rw [wp_bind]
  refine wp_mono (ilock_calm lax steady mine) ?_
  rintro _ t ⟨calm,valid⟩
  rw [wp_bind]
  refine wp_mono (setNlink_tree calm.steady mine valid ((calm.inum mine).trans at_)) ?_
  rintro _ u ⟨D',own,_,alters⟩
  have node : tree sb t.disk D i = { G i with nlink := (G i).nlink + 1 } := by rw [calm.tree, more, Function.update_self]
  have here : i ∈ allocated sb D := (@tree_nlink sb t.disk _ _ (by rw [node]; exact Nat.succ_ne_zero _)).1
  have count : (D i).nlink.toNat = (G i).nlink + 1 := by rw [← @nlink_tree sb t.disk _ _ here, node]
  have back : tree sb u.disk D' = G := by
    rw [alters.tree, node, calm.tree, more, Function.update_idem, toNat_pred (by omega), count]
    exact Function.update_eq_self i G
  rw [wp_bind]
  refine wp_mono (iunlockput_calm lax alters.steady ?_) fun _ v after => ?_
  · rw [(alters.kept ip mine).1, calm.inum mine, at_]
    exact (@tree_nlink sb u.disk _ _ (by rw [back]; exact some)).2
  · exact ⟨D', after.steady, by rw [after.tree, back]; exact law⟩

theorem sysLink_keeps {old new : Xv6Fs.Bytes} (lax : Lax E) (compact : Compact sb) (ordered : Ordered sb s D h) (member : cwd ∈ h)
    (linked : old.head? ≠ some slash ∨ new.head? ≠ some slash → (D (s.icache cwd).inum).nlink ≠ 0) :
    wp E (sysLink sb cwd old new) s fun _ t => ∃ D', Ordered sb t D' h := by
  unfold sysLink
  rw [wp_bind]
  refine wp_mono (namex_finds lax false ordered.toSteady ordered.law.closed member fun relative => linked (.inl relative)) ?_
  intro r t finds
  cases r with
  | none => exact ⟨D, ordered.calm finds⟩
  | some result =>
    obtain ⟨ip,name⟩ := result
    obtain ⟨calm,alive,_⟩ := finds
    have mine : ip ∈ ip ::ₘ h := Multiset.mem_cons_self ip h
    dsimp only
    rw [wp_bind]
    refine wp_mono (ilock_calm lax calm.steady mine) ?_
    rintro _ u ⟨locked,valid⟩
    have ordered' := (ordered.calm calm).calm locked
    have here := locked.steady.here mine
    have same := locked.inum mine
    rw [← same] at alive
    have inside := locked.steady.clean.volume.cached.inside ip (locked.steady.held.live mine)
    rw [wp_bind, wp_get, locked.steady.clean.volume.cached.copy ip _ (locked.steady.holds mine valid)]
    by_cases dir : (D (u.icache ip).inum).type = T_DIR
    · rw [if_pos dir, wp_bind]
      refine wp_mono (iunlockput_calm lax locked.steady alive) fun _ v after => ?_
      exact ⟨D, ordered'.calm after⟩
    · rw [if_neg dir, wp_bind]
      generalize at_ : (u.icache ip).inum = i at *
      refine wp_mono (setNlink_tree locked.steady mine valid at_) ?_
      rintro _ v ⟨D1,own,others,alters⟩
      have few := few_links compact ordered' i
      rw [nlink_tree here] at few
      have more : tree sb v.disk D1 = Function.update (tree sb u.disk D) i
          { tree sb u.disk D i with nlink := (tree sb u.disk D i).nlink + 1 } := by
        rw [alters.tree, toNat_succ few, nlink_tree here]
      have known : (tree sb u.disk D i).nlink ≠ 0 := nlink_ne here alive
      have closed := ordered'.law.closed.more known
      rw [← more] at closed
      rw [wp_bind]
      refine wp_mono (iunlock_calm lax alters.steady mine) fun _ w unlocked => ?_
      have kept := alters.kept.trans unlocked.kept
      have ipW : (w.icache ip).inum = i := (kept ip mine).1.trans at_
      have start : new.head? ≠ some slash → (D1 (w.icache cwd).inum).nlink ≠ 0 := by
        intro relative
        rw [(kept cwd (Multiset.mem_cons_of_mem member)).1, locked.inum (Multiset.mem_cons_of_mem member), calm.inum member]
        by_cases self : (s.icache cwd).inum = i
        · rw [self]
          refine (@tree_nlink sb v.disk _ _ ?_).2
          rw [more, Function.update_self]
          exact Nat.succ_ne_zero _
        · rw [others _ self]
          exact linked (.inr relative)
      rw [wp_bind]
      refine wp_mono (namex_finds lax true unlocked.steady (unlocked.tree ▸ closed) (Multiset.mem_cons_of_mem member) start) ?_
      intro r x finds
      cases r with
      | none =>
        exact unlinkBack_keeps lax finds.steady ((finds.inum mine).trans ipW) ordered'.law known
          (by rw [finds.tree, unlocked.tree, more])
      | some result =>
        obtain ⟨dp,name⟩ := result
        obtain ⟨found,dpSome,dpDir⟩ := finds
        have mineDp : dp ∈ dp ::ₘ ip ::ₘ h := Multiset.mem_cons_self dp _
        have ipIn : ip ∈ dp ::ₘ ip ::ₘ h := Multiset.mem_cons_of_mem mine
        dsimp only
        rw [wp_bind]
        refine wp_mono (ilock_calm lax found.steady mineDp) ?_
        rintro _ y ⟨lockedDp,validDp⟩
        have dpSame := lockedDp.inum mineDp
        have dpType := dpDir rfl
        rw [← dpSame] at dpSome dpType
        generalize dpAt : (y.icache dp).inum = p at *
        have apart : p ≠ i := by
          rintro rfl
          rw [own] at dpType
          exact dir dpType
        have treeY : tree sb y.disk D1 = Function.update (tree sb u.disk D) i
            { tree sb u.disk D i with nlink := (tree sb u.disk D i).nlink + 1 } := by
          rw [lockedDp.tree, found.tree, unlocked.tree, more]
        have pY : tree sb y.disk D1 p = tree sb u.disk D p := by rw [treeY, Function.update_of_ne apart]
        have inTree : (tree sb u.disk D p).Linked :=
          pY ▸ linked_iff.mpr ⟨dpAt ▸ lockedDp.steady.here mineDp, dpType, dpSome⟩
        have closedY : Closed (shape sb) (tree sb y.disk D1) := by
          rw [lockedDp.tree, found.tree, unlocked.tree]
          exact closed
        have inTreeY : (tree sb y.disk D1 p).Linked := pY.symm ▸ inTree
        rw [wp_bind]
        refine wp_mono (dirlink_tree lax lockedDp.steady mineDp validDp dpAt inTreeY.1 (closedY.distinct p inTreeY)
          (closedY.entry p inTreeY) (linked_pos ordered' known) (Nat.lt_of_lt_of_le inside compact.inodes) inside) ?_
        rintro linked z (⟨rfl,refused⟩ | ⟨rfl,missing,e,D2,place,vacant,entered⟩)
        · rw [wp_bind]
          refine wp_mono (iunlockput_calm lax refused.steady ?_) fun _ a put => ?_
          · rw [refused.inum mineDp, dpAt]
            exact dpSome
          · rw [if_neg (by decide)]
            refine unlinkBack_keeps lax put.steady ?_ ordered'.law known (by rw [put.tree, refused.tree, treeY])
            exact ((put.inum mine).trans (refused.inum ipIn)).trans ((lockedDp.inum ipIn).trans ((found.inum mine).trans ipW))
        · rw [pY] at missing place vacant
          have pZ : tree sb z.disk D2 p = { tree sb u.disk D p with
              slots := SlotTable.write (tree sb u.disk D p).slots e (some (key name, i)) } := by
            rw [entered.tree, Function.update_self, pY]
          have iZ : tree sb z.disk D2 i = { tree sb u.disk D i with nlink := (tree sb u.disk D i).nlink + 1 } := by
            rw [entered.tree, Function.update_of_ne (Ne.symm apart), treeY, Function.update_self]
          rw [wp_bind]
          refine wp_mono (iunlockput_calm lax entered.steady ?_) fun _ a put => ?_
          · rw [(entered.kept dp mineDp).1, dpAt]
            refine (@tree_nlink sb z.disk _ _ ?_).2
            rw [pZ]
            exact inTree.2
          · rw [if_pos rfl, wp_bind]
            have ipA : (a.icache ip).inum = i := ((put.inum mine).trans (entered.kept ip ipIn).1).trans
              ((lockedDp.inum ipIn).trans ((found.inum mine).trans ipW))
            refine wp_mono (iput_calm lax put.steady ?_) fun _ b last => ?_
            · rw [ipA]
              refine (@tree_nlink sb z.disk _ _ ?_).2
              rw [iZ]
              exact Nat.succ_ne_zero _
            · refine ⟨D2, last.steady, ?_⟩
              rw [last.tree, put.tree]
              refine ordered'.law.link inTree (Finset.mem_range.mpr inside) (by rw [tree_file here dir]) place vacant missing pZ iZ
                fun q other other' => ?_
              rw [entered.tree, Function.update_of_ne other, treeY, Function.update_of_ne other']

theorem iput_ordered (lax : Lax E) (ordered : Ordered sb s D (k ::ₘ h)) :
    wp E (iput sb k) s fun _ t => ∃ D', Ordered sb t D' h := by
  refine wp_mono (iput_tree lax ordered.toSteady) ?_
  rintro _ t ⟨D',steady,_,after⟩
  refine ⟨D', steady, ?_⟩
  rcases after with same | ⟨unlinked,freed⟩
  · rw [same]
    exact ordered.law
  · have here := ordered.toSteady.here (Multiset.mem_cons_self k h)
    rw [freed]
    refine ordered.law.swap ?_ rfl (Finset.mem_range.mpr (mem_allocated.mp here).1)
    rw [nlink_tree here, unlinked]
    rfl

theorem iunlockput_ordered (lax : Lax E) (ordered : Ordered sb s D (k ::ₘ h)) :
    wp E (iunlockput sb k) s fun _ t => ∃ D', Ordered sb t D' h := by
  unfold iunlockput
  rw [wp_bind]
  refine wp_mono (iunlock_calm lax ordered.toSteady (Multiset.mem_cons_self k h)) fun _ t calm => ?_
  exact iput_ordered lax (ordered.calm calm)

/-- The end of `unlink`: the count of the inode falls, and it goes if nobody has it. -/
theorem unlink_drop_keeps (lax : Lax E) (steady : Steady sb s D (ip ::ₘ dp ::ₘ h)) (valid : (s.icache ip).valid = true)
    (at_ : (s.icache ip).inum = i) (parent : (D (s.icache dp).inum).nlink ≠ 0) (alive : (D i).nlink ≠ 0)
    (law : Law (shape sb) (Function.update (tree sb s.disk D) i
      { tree sb s.disk D i with nlink := (tree sb s.disk D i).nlink - 1 })) : wp E (do
      iunlockput sb dp
      setNlink sb ip fun x => x - 1
      iunlockput sb ip
      return true) s fun _ t => ∃ D', Ordered sb t D' h := by
  have mine : ip ∈ ip ::ₘ h := Multiset.mem_cons_self ip h
  have here : i ∈ allocated sb D := at_ ▸ steady.here (Multiset.mem_cons_self _ _)
  rw [Multiset.cons_swap] at steady
  rw [wp_bind]
  refine wp_mono (iunlockput_calm lax steady parent) fun _ t calm => ?_
  rw [wp_bind]
  refine wp_mono (setNlink_tree calm.steady mine ((calm.kept ip mine).2 valid) ((calm.inum mine).trans at_)) ?_
  rintro _ u ⟨D',_,_,alters⟩
  have ordered : Ordered sb u D' (ip ::ₘ h) := by
    refine ⟨alters.steady, ?_⟩
    rw [alters.tree, calm.tree, toNat_pred (Nat.pos_of_ne_zero (toNat_ne alive)), ← @nlink_tree sb s.disk _ _ here]
    exact law
  rw [wp_bind]
  exact wp_mono (iunlockput_ordered lax ordered) fun _ _ done => done

/-- A directory that `isdirempty` passes has two entries at most. -/
theorem emptyOrFile_spec {type : UInt16} (lax : Lax E) (steady : Steady sb s D h) (member : ip ∈ h)
    (valid : (s.icache ip).valid = true) (at_ : (s.icache ip).inum = i) : wp E (emptyOrFile sb ip type) s fun r t =>
      t = s ∧ (type = T_DIR → r = true → ∀ (f : Nat) x, 2 ≤ f → (names s.disk (D i))[f]? ≠ some (some x)) := by
  unfold emptyOrFile
  by_cases dir : type = T_DIR
  · rw [if_pos dir]
    refine wp_mono (isdirempty_spec lax steady.clean (steady.holds member valid)) ?_
    rintro r t ⟨same,empty⟩
    refine ⟨same, fun _ yes f x late here => ?_⟩
    rw [at_] at empty
    rw [names_get] at here
    split at here
    · rename_i low
      rw [Option.some_inj, slotOf, if_pos (empty yes f late low)] at here
      cases here
    · cases here
  · rw [if_neg dir]
    exact ⟨rfl, fun now => absurd now dir⟩

theorem sysUnlink_keeps (lax : Lax E) (ordered : Ordered sb s D h) (member : cwd ∈ h)
    (linked : path.head? ≠ some slash → (D (s.icache cwd).inum).nlink ≠ 0) :
    wp E (sysUnlink sb cwd path) s fun _ t => ∃ D', Ordered sb t D' h := by
  unfold sysUnlink
  generalize short = signed
  rw [wp_bind]
  refine wp_mono (namex_finds lax true ordered.toSteady ordered.law.closed member linked) ?_
  intro r t finds
  cases r with
  | none => exact ⟨D, ordered.calm finds⟩
  | some result =>
    obtain ⟨dp,name⟩ := result
    obtain ⟨calm,dpSome,dpDir⟩ := finds
    have mine : dp ∈ dp ::ₘ h := Multiset.mem_cons_self dp h
    dsimp only
    rw [wp_bind]
    refine wp_mono (ilock_calm lax calm.steady mine) ?_
    rintro _ u ⟨locked,valid⟩
    have orderedU := (ordered.calm calm).calm locked
    have dpType := dpDir rfl
    rw [← locked.inum mine] at dpSome dpType
    have dpHere := locked.steady.here mine
    generalize dpAt : (u.icache dp).inum = p at *
    have inTree : (tree sb u.disk D p).Linked := linked_iff.mpr ⟨dpHere,dpType,dpSome⟩
    by_cases dots : namecmp name [46#8] = true ∨ namecmp name [46#8, 46#8] = true
    · rw [if_pos dots, wp_bind]
      refine wp_mono (iunlockput_calm lax locked.steady (dpAt.symm ▸ dpSome)) fun _ v put => ?_
      exact ⟨D, orderedU.calm put⟩
    · rw [if_neg dots, wp_bind]
      rw [namecmp_iff, namecmp_iff, not_or] at dots
      refine wp_mono (dirlookup_calm lax locked.steady mine valid dpAt inTree.1 (orderedU.law.closed.entry p inTree)) ?_
      intro r v after
      cases r with
      | none =>
        obtain ⟨rfl,_⟩ := after
        dsimp only
        rw [wp_bind]
        refine wp_mono (iunlockput_calm lax locked.steady (dpAt.symm ▸ dpSome)) fun _ v put => ?_
        exact ⟨D, orderedU.calm put⟩
      | some found =>
        obtain ⟨ip,e⟩ := found
        obtain ⟨search,low,slot⟩ := after
        have mineIp : ip ∈ ip ::ₘ dp ::ₘ h := Multiset.mem_cons_self _ _
        have dpIn : dp ∈ ip ::ₘ dp ::ₘ h := Multiset.mem_cons_of_mem mine
        dsimp only
        rw [wp_bind]
        refine wp_mono (ilock_calm lax search.steady mineIp) ?_
        rintro _ w ⟨lockedIp,validIp⟩
        have orderedW := (orderedU.calm search).calm lockedIp
        have treeW : tree sb w.disk D = tree sb u.disk D := by rw [lockedIp.tree, search.tree]
        have dpW : (w.icache dp).inum = p := (lockedIp.inum dpIn).trans ((search.inum mine).trans dpAt)
        have validDp := (lockedIp.kept dp dpIn).2 ((search.kept dp mine).2 valid)
        have ipHere := lockedIp.steady.here mineIp
        rw [← lockedIp.inum mineIp] at slot
        rw [wp_bind, wp_get, lockedIp.steady.clean.volume.cached.copy ip _ (lockedIp.steady.holds mineIp validIp)]
        generalize ipAt : (w.icache ip).inum = i at *
        have ipSome := (tree_nlink (orderedU.law.closed.entry p inTree e _ _ slot)).2
        by_cases few : signed (D i).nlink < 1
        · rw [if_pos few]
          exact lax _ (by decide) (by decide)
        · rw [if_neg few, wp_bind]
          refine wp_mono (emptyOrFile_spec lax lockedIp.steady mineIp validIp ipAt) ?_
          rintro empty x ⟨rfl,bare⟩
          by_cases full : empty = false
          · rw [if_pos full, wp_bind]
            refine wp_mono (iunlockput_calm lax lockedIp.steady (ipAt.symm ▸ ipSome)) fun _ y put => ?_
            rw [wp_bind]
            refine wp_mono (iunlockput_calm lax put.steady ?_) fun _ z put' => ?_
            · rw [put.inum mine, dpW]
              exact dpSome
            · exact ⟨D, (orderedW.calm put).calm put'⟩
          · rw [if_neg full, wp_bind]
            have law := orderedU.law
            have inTreeX : (tree sb x.disk D p).Linked := treeW.symm ▸ inTree
            have folder := lockedIp.steady.folder dpIn validDp (dpW.symm ▸ dpType)
            rw [dpW] at folder
            have directory : Directory sb x D dp p := by
              refine ⟨folder, ?_⟩
              rw [← slots_linked inTreeX, treeW]
              exact law.distinct p inTree
            refine wp_mono (writeDirent_spec lax lockedIp.steady.clean directory.holds (count_small low) (lax _ (by decide) (by decide))) ?_
            rintro _ y ⟨D1,wrote⟩
            have erased := alters_entry lockedIp.steady directory (Nat.le_of_lt low)
              (Nat.lt_of_le_of_lt (Nat.zero_le _) sb.rootInside) wrote
            rw [← slots_linked inTreeX, ← @nlink_tree sb x.disk _ _ dpHere] at erased
            have ipY := erased.kept ip mineIp
            have dpY := erased.kept dp dpIn
            have pY : tree sb y.disk D1 p = ⟨.folder, (tree sb u.disk D p).nlink, SlotTable.write (tree sb u.disk D p).slots e none⟩ := by
              rw [erased.tree, Function.update_self, treeW]
              rfl
            have named := countP_pos_of (f := (shape sb).child i) slot (child_some.mpr ⟨dots.1,dots.2,rfl⟩)
            have iSome : (tree sb u.disk D i).nlink ≠ 0 := law.entry inTree slot
            by_cases dir : (D i).type = T_DIR
            · have kind : (tree sb u.disk D i).kind = .folder := by rw [tree_folder ipHere dir]
              have empty : ∀ (f : Nat) x, 2 ≤ f → (tree sb u.disk D i).slots[f]? ≠ some (some x) := by
                rw [← treeW, tree_folder ipHere dir]
                exact bare dir (by simpa using full)
              obtain ⟨_,two,_⟩ := law.empty_links inTree kind slot dots.1 dots.2 empty
              have apart := (law.up p i inTree kind (Nat.ne_of_gt named)).2.1
              rw [if_pos dir, wp_bind]
              refine wp_mono (setNlink_tree erased.steady dpIn (dpY.2 validDp) (dpY.1.trans dpW)) ?_
              rintro _ z ⟨D2,_,_,dropped⟩
              have here : p ∈ allocated sb D1 := (@tree_nlink sb y.disk _ _ (by rw [pY]; exact inTree.2)).1
              have count : (D1 p).nlink.toNat = (tree sb u.disk D p).nlink := by rw [← @nlink_tree sb y.disk _ _ here, pY]
              rw [toNat_pred (by omega), count, pY] at dropped
              have ipZ := dropped.kept ip mineIp
              have dpZ := dropped.kept dp dpIn
              have pZ : tree sb z.disk D2 p =
                  ⟨.folder, (tree sb u.disk D p).nlink - 1, SlotTable.write (tree sb u.disk D p).slots e none⟩ := by
                rw [dropped.tree, Function.update_self]
              have rest : ∀ q, q ≠ p → tree sb z.disk D2 q = tree sb u.disk D q := by
                intro q other
                rw [dropped.tree, Function.update_of_ne other, erased.tree, Function.update_of_ne other, treeW]
              refine unlink_drop_keeps lax dropped.steady (ipZ.2 (ipY.2 validIp)) (ipZ.1.trans (ipY.1.trans ipAt)) ?_ ?_ ?_
              · rw [dpZ.1, dpY.1, dpW]
                refine (@tree_nlink sb z.disk _ _ ?_).2
                rw [pZ]
                exact Nat.ne_of_gt (Nat.sub_pos_of_lt two)
              · refine (@tree_nlink sb z.disk _ _ ?_).2
                rw [rest i apart]
                exact iSome
              · refine law.rmdir inTree kind slot dots.1 dots.2 empty ?_ ?_ fun q other other' => ?_
                · rw [Function.update_of_ne (Ne.symm apart), pZ]
                · rw [Function.update_self, rest i apart]
                · rw [Function.update_of_ne other', rest q other]
            · have kind : (tree sb u.disk D i).kind = .file := by rw [tree_file ipHere dir]
              have apart : i ≠ p := by
                rintro rfl
                exact dir dpType
              have rest : ∀ q, q ≠ p → tree sb y.disk D1 q = tree sb u.disk D q := by
                intro q other
                rw [erased.tree, Function.update_of_ne other, treeW]
              rw [if_neg dir]
              refine unlink_drop_keeps lax erased.steady (ipY.2 validIp) (ipY.1.trans ipAt) ?_ ?_ ?_
              · rw [dpY.1, dpW]
                refine (@tree_nlink sb y.disk _ _ ?_).2
                rw [pY]
                exact inTree.2
              · refine (@tree_nlink sb y.disk _ _ ?_).2
                rw [rest i apart]
                exact iSome
              · refine law.unlink inTree kind slot dots.1 dots.2 ?_ ?_ fun q other other' => ?_
                · rw [Function.update_of_ne (Ne.symm apart), pY, ← inTree.1]
                · rw [Function.update_self, rest i apart]
                · rw [Function.update_of_ne other', rest q other]

end Calls
end Xv6FsTree
