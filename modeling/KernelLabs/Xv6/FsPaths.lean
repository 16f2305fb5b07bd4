import Mathlib.Data.List.TakeWhile
import KernelLabs.Xv6.FsNames

/-!
Path names: `namex` follows the components of a path from directory to directory, and drops
every reference on the way but the last.
-/
namespace Xv6FsPaths
open Xv6Fs Xv6FsDisk Xv6FsOwn Xv6FsVolume Xv6FsFile Xv6FsSlots Xv6FsDirs Xv6FsNames Bytes Wp

section Components

/-- The components of a path, each cut to `DIRSIZ` characters. -/
def components (path : Xv6Fs.Bytes) : List Xv6Fs.Bytes :=
  ((path.splitOn slash).filter fun elem => elem ≠ []).map fun elem => elem.take DIRSIZ

theorem components_slash (path : Xv6Fs.Bytes) : components (slash :: path) = components path := by
  unfold components
  have split : (slash :: path).splitOn slash = [] :: path.splitOn slash := List.splitOn_append_cons_self_of_not_mem (List.not_mem_nil (a := slash)) path
  rw [split, List.filter_cons_of_neg (by simp)]

theorem components_dropWhile (path : Xv6Fs.Bytes) : components (path.dropWhile (· == slash)) = components path := by
  induction path with
  | nil => rfl
  | cons c rest ih =>
    by_cases leading : c = slash
    · rw [leading, List.dropWhile_cons_of_pos (by simp), ih, components_slash]
    · rw [List.dropWhile_cons_of_neg (by simp [leading])]

theorem components_elem {elem : Xv6Fs.Bytes} (plain : slash ∉ elem) (some : elem ≠ []) : components elem = [elem.take DIRSIZ] := by
  unfold components
  rw [List.splitOn_eq_singleton plain, List.filter_cons_of_pos (by simp [some])]
  rfl

theorem components_cons {elem : Xv6Fs.Bytes} (plain : slash ∉ elem) (some : elem ≠ []) (rest : Xv6Fs.Bytes) :
    components (elem ++ slash :: rest) = elem.take DIRSIZ :: components rest := by
  unfold components
  rw [List.splitOn_append_cons_self_of_not_mem plain, List.filter_cons_of_pos (by simp [some])]
  rfl

theorem components_none {path : Xv6Fs.Bytes} (none : skipelem path = none) : components path = [] := by
  rw [← components_dropWhile]
  unfold skipelem at none
  split at none
  · rename_i empty
    rw [empty]
    rfl
  · cases none

/-- The first component ends before the next slash. -/
theorem components_head {c : BitVec 8} (head : c ≠ slash) (tail : Xv6Fs.Bytes) : components (c :: tail) =
    ((c :: tail).takeWhile (· != slash)).take DIRSIZ :: components ((c :: tail).dropWhile (· != slash)) := by
  have split := List.takeWhile_append_dropWhile (p := (· != slash)) (l := c :: tail)
  have plain : slash ∉ (c :: tail).takeWhile (· != slash) := by
    intro inside
    have apart := List.mem_takeWhile_imp inside
    simp at apart
  have some : (c :: tail).takeWhile (· != slash) ≠ [] := by
    rw [List.takeWhile_cons_of_pos (by simp [head])]
    exact List.cons_ne_nil _ _
  generalize (c :: tail).takeWhile (· != slash) = elem at *
  cases after : (c :: tail).dropWhile (· != slash) with
  | nil =>
    rw [after, List.append_nil] at split
    rw [← split]
    exact components_elem plain some
  | cons x rest =>
    have stops : x = slash := by
      have first := List.head_dropWhile_not (fun x => x != slash) (l := c :: tail) (by rw [after]; exact List.cons_ne_nil _ _)
      simp only [after, List.head_cons, bne_eq_false_iff_eq] at first
      exact first
    rw [after, stops] at split
    rw [stops, components_slash, ← components_cons plain some rest, split]

theorem components_nil {path : Xv6Fs.Bytes} (leading : path.head? ≠ some slash) : path = [] ↔ components path = [] := by
  cases path with
  | nil => exact ⟨fun _ => rfl, fun _ => rfl⟩
  | cons c tail =>
    rw [components_head fun same => leading (congrArg some same)]
    simp

/-- `skipelem` takes the first component off. -/
theorem components_some {path name rest : Xv6Fs.Bytes} (found : skipelem path = some (name, rest)) :
    components path = name :: components rest ∧ rest.length < path.length ∧ (rest = [] ↔ components rest = []) := by
  rw [← components_dropWhile path]
  have shorter := (List.dropWhile_sublist (· == slash) (l := path)).length_le
  unfold skipelem at found
  split at found
  · cases found
  · rename_i c tail first
    have head : c ≠ slash := by
      have stops := List.head_dropWhile_not (fun x => x == slash) (l := path) (by rw [first]; exact List.cons_ne_nil _ _)
      simp only [first, List.head_cons, beq_eq_false_iff_ne] at stops
      exact stops
    rw [first] at shorter ⊢
    cases found
    refine ⟨?_, ?_, components_nil ?_⟩
    · rw [components_head head, components_dropWhile]
    · have less := (List.dropWhile_sublist (· == slash) (l := (c :: tail).dropWhile (· != slash))).length_le
      have least := (List.dropWhile_sublist (· != slash) (l := tail)).length_le
      rw [List.dropWhile_cons_of_pos (by simp [head])] at less ⊢
      rw [List.length_cons] at shorter
      omega
    · intro leading
      have stops := List.head?_dropWhile_not (fun x => x == slash) ((c :: tail).dropWhile (· != slash))
      rw [leading] at stops
      simp at stops

end Components

/-- The inode that a directory has under a name; a file has none. -/
def child (disk : Nat → Block) (D : Nat → Dinode) (i : Nat) (name : Xv6Fs.Bytes) : Option Nat :=
  if (D i).type = T_DIR then bindings disk (D i) (key name) else none

/-- The inode reached from `i` by following names. -/
def walk (disk : Nat → Block) (D : Nat → Dinode) (i : Nat) (l : List Xv6Fs.Bytes) : Option Nat := l.foldlM (child disk D) i

/-- Inode `j` is allocated, and in use or linked. -/
structure Present (sb : Superblock) (s : Fs) (D : Nat → Dinode) (h : Multiset Slot) (j : Nat) : Prop where
  inside : j < sb.ninodes
  typed : (D j).type ≠ 0
  kept : (D j).nlink ≠ 0 ∨ ∃ l ∈ h, (s.icache l).inum = j

/-- The directories have whole entries, which name such inodes; `h` counts the references that are held. -/
structure Tree (sb : Superblock) (s : Fs) (D : Nat → Dinode) (h : Multiset Slot) : Prop where
  clean : Clean sb s D
  held : Held s h
  whole : ∀ i ∈ allocated sb D, (D i).type = T_DIR → DIRENT ∣ (D i).size.toNat
  children : ∀ i ∈ allocated sb D, ∀ name j, child s.disk D i name = some j → Present sb s D h j
  root : Present sb s D h ROOTINO

/-- The slots that are locked are those of `o`. -/
def Locks (s : Fs) (o : Option Slot) : Prop := ∀ l, (s.icache l).locked = decide (o = some l)

section Steps
variable {sb : Superblock} {s t u : Fs} {D : Nat → Dinode} {h h' h'' : Multiset Slot} {k : Slot} {i : Nat} {o : Option Slot} {E : Panic → Prop}

theorem Locks.free (locks : Locks s none) (l : Slot) : (s.icache l).locked = false := by
  rw [locks l]
  exact decide_eq_false (by simp)

theorem quiet_trans (first : Quiet sb s D h t h') (more : h ≤ h') (second : Quiet sb t D h' u h'') : Quiet sb s D h u h'' := by
  refine ⟨second.clean, second.disk.trans first.disk, second.written.trans first.written, fun l => ?_, fun l live => ?_⟩
  · have one := first.counts l
    have two := second.counts l
    omega
  · have one := first.counts l
    have less := Multiset.count_le_of_le l more
    obtain ⟨inum,valid⟩ := first.same l live
    obtain ⟨inum',valid'⟩ := second.same l (by omega)
    exact ⟨inum'.trans inum, fun now => valid' (valid now)⟩

theorem ilock_total (clean : Clean sb s D) (live : 0 < (s.icache k).ref) (locks : Locks s none)
    (typed : (D (s.icache k).inum).type ≠ 0) (h : Multiset Slot) : wp E (ilock sb k) s fun _ t =>
      Quiet sb s D h t h ∧ (t.icache k).valid = true ∧ Locks t (some k) := by
  have taken : ∀ f : Inode → Inode, (f (s.icache k)).locked = true →
      Locks { s with icache := Function.update s.icache k (f (s.icache k)) } (some k) := by
    intro f now l
    dsimp only
    by_cases same : l = k
    · rw [same, Function.update_self, now, decide_eq_true rfl]
    · rw [Function.update_of_ne same, locks.free l, decide_eq_false fun eq => same (Option.some_inj.mp eq).symm]
  have total : wp E (ilock sb k) s fun _ t => Locks t (some k) := by
    unfold ilock
    rw [wp_bind, wp_get]
    dsimp only
    rw [if_neg (by omega), locks.free k, if_neg Bool.false_ne_true]
    by_cases valid : (s.icache k).valid = true
    · rw [if_pos valid]
      apply wp_setInode
      exact taken (fun ip => { ip with locked := true }) rfl
    · rw [if_neg valid, wp_bind]
      apply wp_setInode
      rw [clean.synced _ (clean.volume.cached.inside k live), if_neg typed]
      exact taken (fun ip => { ip with locked := true, valid := true, d := D (s.icache k).inum }) rfl
  refine wp_mono (wp_and total (ilock_spec (fun _ _ _ => trivial) clean live h (Or.inl trivial))) fun _ t both => ?_
  exact ⟨both.2.1, both.2.2, both.1⟩

theorem iunlock_total (clean : Clean sb s D) (live : 0 < (s.icache k).ref) (locks : Locks s (some k)) (h : Multiset Slot) :
    wp E (iunlock k) s fun _ t => Quiet sb s D h t h ∧ Locks t none := by
  have total : wp E (iunlock k) s fun _ t => Locks t none := by
    unfold iunlock
    rw [wp_bind, wp_get, locks k, decide_eq_true rfl, if_neg (by simp; omega)]
    apply wp_setInode
    intro l
    dsimp only
    by_cases same : l = k
    · rw [same, Function.update_self]
      rfl
    · rw [Function.update_of_ne same, locks l, decide_eq_false fun eq => same (Option.some_inj.mp eq).symm]
      rfl
  refine wp_mono (wp_and total (iunlock_spec (fun _ _ _ => trivial) clean live h)) fun _ t both => ?_
  exact ⟨both.2, both.1⟩

/-- A reference to an inode that stays. -/
theorem iput_total (clean : Clean sb s D) (live : 0 < (s.icache k).ref) (locks : Locks s none)
    (kept : (D (s.icache k).inum).nlink ≠ 0 ∨ (s.icache k).ref ≠ 1) (h : Multiset Slot) :
    wp E (iput sb k) s fun _ t => Quiet sb s D (k ::ₘ h) t h ∧ Locks t none := by
  have total : wp E (iput sb k) s fun _ t => Locks t none := by
    unfold iput
    rw [wp_bind, wp_get]
    dsimp only
    rw [locks.free k, if_neg Bool.false_ne_true, if_neg]
    · apply wp_setInode
      intro l
      dsimp only
      by_cases same : l = k
      · rw [same, Function.update_self]
        exact locks k
      · rw [Function.update_of_ne same]
        exact locks l
    · rintro ⟨valid,unlinked,one⟩
      rw [clean.volume.cached.copy k _ ⟨live,valid,rfl⟩] at unlinked
      exact kept.elim (fun no => no unlinked) fun no => no one
  refine wp_mono (wp_and total (iput_cases (fun _ _ _ => trivial) clean live h)) ?_
  rintro _ t ⟨locksT,⟨_,quiet⟩ | ⟨_,unlinked,one,_⟩⟩
  · exact ⟨quiet,locksT⟩
  · exact kept.elim (fun no => absurd unlinked no) fun no => absurd one no

/-- A search of the cache fails only when no entry is free. -/
theorem iget_total {inum : Nat} (clean : Clean sb s D) (locks : Locks s o) (inside : inum < sb.ninodes)
    (full : (∀ l, (s.icache l).ref ≠ 0) → E .igetNoInodes) (h : Multiset Slot) :
    wp E (iget inum) s fun k t => Quiet sb s D h t (k ::ₘ h) ∧ (t.icache k).inum = inum ∧ Locks t o := by
  have total : wp E (iget inum) s fun _ t => Locks t o := by
    cases entry : entryFor s inum with
    | none =>
      have used : ∀ l, (s.icache l).ref ≠ 0 := by
        intro l free
        have none := findSlot_none (Option.or_eq_none_iff.mp entry).2 l
        rw [free] at none
        cases none
      unfold wp
      rw [iget_full entry]
      exact full used
    | some l =>
      unfold wp
      rw [iget_taken entry]
      intro m
      unfold taken
      dsimp only
      by_cases same : m = l
      · rw [same, Function.update_self, ← locks l]
        split <;> rfl
      · rw [Function.update_of_ne same]
        exact locks m
  refine wp_mono (wp_and total (iget_spec (fun _ _ _ => trivial) clean h inside)) fun k t both => ?_
  exact ⟨both.2.1, both.2.2, both.1⟩

theorem iunlockput_total (clean : Clean sb s D) (live : 0 < (s.icache k).ref) (locks : Locks s (some k))
    (kept : (D (s.icache k).inum).nlink ≠ 0 ∨ (s.icache k).ref ≠ 1) (h : Multiset Slot) :
    wp E (iunlockput sb k) s fun _ t => Quiet sb s D (k ::ₘ h) t h ∧ Locks t none := by
  unfold iunlockput
  rw [wp_bind]
  refine wp_mono (iunlock_total clean live locks (k ::ₘ h)) ?_
  rintro _ t ⟨quiet,locksT⟩
  have count := quiet.counts k
  have inum := (quiet.same k live).1
  refine wp_mono (iput_total quiet.clean (by omega) locksT ?_ h) ?_
  · rw [inum]
    exact kept.imp id fun more => by omega
  · rintro _ u ⟨quietU,locksU⟩
    exact ⟨quiet_trans quiet (le_refl _) quietU, locksU⟩

theorem dirlookup_total {name : Xv6Fs.Bytes} (folder : Folder sb s D k i) (locks : Locks s o)
    (inside : ∀ j, bindings s.disk (D i) (key name) = some j → j < sb.ninodes)
    (full : (∀ l, (s.icache l).ref ≠ 0) → E .igetNoInodes) (h : Multiset Slot) :
    wp E (dirlookup sb k name) s fun r t => match bindings s.disk (D i) (key name) with
      | none => r = none ∧ t = s
      | some j => ∃ m e, r = some (m, e) ∧ Quiet sb s D h t (m ::ₘ h) ∧ (t.icache m).inum = j ∧ Locks t o := by
  have run := dirlookup_run folder name
  cases found : SlotTable.find (names s.disk (D i)) (key name) with
  | none =>
    rw [found] at run
    have missing : bindings s.disk (D i) (key name) = none := SlotTable.lookup_none.mpr found
    rw [missing]
    exact wp_congr (n := pure none) run ⟨rfl,rfl⟩
  | some e =>
    rw [found] at run
    have bound := (entry_found found).2
    rw [bound]
    refine wp_congr (n := do
      let m ← iget (direntAt (content s.disk (D i)) e).inum
      return some (m, e)) run ?_
    rw [wp_bind]
    refine wp_mono (iget_total folder.clean locks (inside _ bound) full h) ?_
    rintro m t ⟨quiet,inum,locksT⟩
    exact ⟨m, e, rfl, quiet, inum, locksT⟩

end Steps

/-- What `namex` is to find from inode `i`: the inode at the end, or the directory before the last
    component together with this. -/
def target (disk : Nat → Block) (D : Nat → Dinode) (i : Nat) (l : List Xv6Fs.Bytes) (nameiparent : Bool) : Option (Nat × Xv6Fs.Bytes) :=
  if nameiparent then
    l.getLast?.bind fun last => (walk disk D i l.dropLast).bind fun j => if (D j).type = T_DIR then some (j, last) else none
  else (walk disk D i l).map fun j => (j, [])

section Targets
variable {disk : Nat → Block} {D : Nat → Dinode} {i : Nat} {c : Xv6Fs.Bytes} {l : List Xv6Fs.Bytes} {nameiparent : Bool}

theorem walk_cons : walk disk D i (c :: l) = (child disk D i c).bind fun j => walk disk D j l := List.foldlM_cons

theorem target_last : target disk D i [c] true = if (D i).type = T_DIR then some (i, c) else none := rfl

theorem target_cons (more : nameiparent = true → l ≠ []) :
    target disk D i (c :: l) nameiparent = (child disk D i c).bind fun j => target disk D j l nameiparent := by
  unfold target
  cases nameiparent with
  | false =>
    rw [if_neg Bool.false_ne_true, walk_cons, Option.map_bind]
    rfl
  | true =>
    obtain ⟨c',rest,eq⟩ := List.exists_cons_of_ne_nil (more rfl)
    rw [if_pos rfl, eq, List.getLast?_cons_cons, List.dropLast_cons_cons, walk_cons]
    cases child disk D i c with
    | none =>
      rw [Option.bind_none]
      cases (c' :: rest).getLast? <;> rfl
    | some j => rfl

theorem child_file (file : (D i).type ≠ T_DIR) : child disk D i c = none := if_neg file

end Targets

/-- Two entries of the cache are free. -/
def Spare (s : Fs) : Prop := ∃ l m, l ≠ m ∧ (s.icache l).ref = 0 ∧ (s.icache m).ref = 0

/-- The inode that was found is referred to once more, and no other. -/
def Reaches (sb : Superblock) (s : Fs) (D : Nat → Dinode) (h : Multiset Slot) (r : Option (Slot × Xv6Fs.Bytes)) (t : Fs) :
    Option (Nat × Xv6Fs.Bytes) → Prop
  | none => r = none ∧ Quiet sb s D h t h
  | some (j, name) => ∃ m, r = some (m, name) ∧ (t.icache m).inum = j ∧ Quiet sb s D h t (m ::ₘ h)

section Paths
variable {sb : Superblock} {s t : Fs} {D : Nat → Dinode} {h h' : Multiset Slot} {k cwd : Slot} {i : Nat} {E : Panic → Prop}

theorem live_more (quiet : Quiet sb s D h t h') (more : k ::ₘ h ≤ h') : 0 < (t.icache k).ref := by
  have count := quiet.counts k
  have less := Multiset.count_le_of_le k more
  rw [Multiset.count_cons_self] at less
  omega

/-- Dropping the reference does not free the inode. -/
theorem stays (tree : Tree sb s D h) (present : Present sb s D h i) (quiet : Quiet sb s D h t h') (more : k ::ₘ h ≤ h')
    (inum : (t.icache k).inum = i) : (D (t.icache k).inum).nlink ≠ 0 ∨ (t.icache k).ref ≠ 1 := by
  rcases present.kept with linked | ⟨l,member,same⟩
  · rw [inum]
    exact Or.inl linked
  · have held := tree.held.live member
    have eq : l = k := by
      refine quiet.clean.volume.cached.distinct l k ?_ (live_more quiet more) ?_
      · have count := quiet.counts l
        have less := Multiset.count_le_of_le l (le_trans (Multiset.le_cons_self h k) more)
        omega
      · rw [(quiet.same l held).1, same, inum]
    subst eq
    have count := quiet.counts l
    have less := Multiset.count_le_of_le l more
    have owned := tree.held l
    have some := Multiset.count_pos.mpr member
    rw [Multiset.count_cons_self] at less
    right
    omega

theorem not_spare (full : ∀ l, (s.icache l).ref ≠ 0) : ¬ Spare s := by
  rintro ⟨l,_,_,free,_⟩
  exact full l free

theorem spare_one (quiet : Quiet sb s D h t (k ::ₘ h)) (full : ∀ l, (t.icache l).ref ≠ 0) : ¬ Spare s := by
  rintro ⟨l,m,apart,free,free'⟩
  have other : ∀ l, (s.icache l).ref = 0 → l = k := by
    intro l free
    by_contra no
    have count := quiet.counts l
    rw [Multiset.count_cons_of_ne no, free] at count
    exact full l (by omega)
  exact apart ((other l free).trans (other m free').symm)

theorem namexLoop_resolves (tree : Tree sb s D h) (nameiparent : Bool) (fuel : Nat) {path : Xv6Fs.Bytes} (enough : path.length < fuel)
    (full : ¬ Spare s → E .igetNoInodes) (quiet : Quiet sb s D h t (k ::ₘ h)) (locks : Locks t none)
    (present : Present sb s D h (t.icache k).inum) : wp E (namexLoop sb nameiparent fuel k path) t fun r u =>
      Reaches sb s D h r u (target s.disk D (t.icache k).inum (components path) nameiparent) ∧ Locks u none := by
  induction fuel generalizing t k path with
  | zero => omega
  | succ fuel ih =>
    have more := Multiset.le_cons_self h k
    have live := live_more quiet (le_refl _)
    have stay := stays tree present quiet (le_refl _) rfl
    generalize inum : (t.icache k).inum = i at present ⊢
    unfold namexLoop
    split
    · rename_i empty
      rw [components_none empty]
      cases nameiparent with
      | true =>
        rw [if_pos rfl, wp_bind]
        refine wp_mono (iput_total quiet.clean live locks stay h) ?_
        rintro _ u ⟨dropped,locksU⟩
        exact ⟨⟨rfl, quiet_trans quiet more dropped⟩, locksU⟩
      | false =>
        rw [if_neg Bool.false_ne_true, wp_pure]
        exact ⟨⟨k, rfl, inum, quiet⟩, locks⟩
    · rename_i name rest found
      obtain ⟨first,shorter,last⟩ := components_some found
      rw [first, wp_bind]
      refine wp_mono (ilock_total quiet.clean live locks (by rw [inum]; exact present.typed) (k ::ₘ h)) ?_
      rintro _ u ⟨locked,valid,locksU⟩
      have quietU := quiet_trans quiet more locked
      have liveU := live_more quietU (le_refl _)
      have inumU : (u.icache k).inum = i := (locked.same k live).1.trans inum
      have stayU := stays tree present quietU (le_refl _) inumU
      have holds : Holds u k i := ⟨liveU,valid,inumU⟩
      have here := quietU.clean.volume.here holds
      rw [wp_bind, wp_get, quietU.clean.volume.cached.copy k i holds]
      by_cases dir : (D i).type = T_DIR
      swap
      · rw [if_pos dir, wp_bind]
        refine wp_mono (iunlockput_total quietU.clean liveU locksU stayU h) ?_
        rintro _ v ⟨dropped,locksV⟩
        refine ⟨?_, locksV⟩
        have none : target s.disk D i (name :: components rest) nameiparent = none := by
          by_cases stop : nameiparent = true ∧ components rest = []
          · rw [stop.1, stop.2, target_last, if_neg dir]
          · rw [target_cons fun parent no => stop ⟨parent,no⟩, child_file dir]
            rfl
        rw [none]
        exact ⟨rfl, quiet_trans quietU more dropped⟩
      rw [if_neg (not_not_intro dir)]
      by_cases stop : nameiparent = true ∧ rest = []
      · rw [if_pos stop, wp_bind]
        refine wp_mono (iunlock_total quietU.clean liveU locksU (k ::ₘ h)) ?_
        rintro _ v ⟨unlocked,locksV⟩
        rw [stop.1, last.mp stop.2, target_last, if_pos dir]
        exact ⟨⟨k, rfl, (unlocked.same k liveU).1.trans inumU, quiet_trans quietU more unlocked⟩, locksV⟩
      · rw [if_neg stop, wp_bind, target_cons fun parent no => stop ⟨parent, last.mpr no⟩]
        have folder : Folder sb u D k i := ⟨quietU.clean, holds, dir, tree.whole i here dir⟩
        have known : child s.disk D i name = bindings u.disk (D i) (key name) := by
          rw [quietU.disk]
          exact if_pos dir
        refine wp_mono (dirlookup_total folder locksU (fun j bound => ?_) (fun all => full (spare_one quietU all)) (k ::ₘ h)) ?_
        · exact (tree.children i here name j (known.trans bound)).inside
        rintro r v looked
        rw [known]
        cases bound : bindings u.disk (D i) (key name) with
        | none =>
          rw [bound] at looked
          obtain ⟨rfl,rfl⟩ := looked
          dsimp only
          rw [wp_bind]
          refine wp_mono (iunlockput_total quietU.clean liveU locksU stayU h) ?_
          rintro _ w ⟨dropped,locksW⟩
          exact ⟨⟨rfl, quiet_trans quietU more dropped⟩, locksW⟩
        | some j =>
          rw [bound] at looked
          obtain ⟨next,e,rfl,got,inumV,locksV⟩ := looked
          have offspring := tree.children i here name j (known.trans bound)
          have quietV : Quiet sb s D h v (k ::ₘ next ::ₘ h) := by
            rw [Multiset.cons_swap]
            exact quiet_trans quietU more got
          have moreV : k ::ₘ h ≤ k ::ₘ next ::ₘ h := Multiset.cons_le_cons k (Multiset.le_cons_self h next)
          have inumK : (v.icache k).inum = i := (got.same k liveU).1.trans inumU
          dsimp only
          rw [wp_bind]
          refine wp_mono (iunlockput_total quietV.clean (live_more quietV moreV) locksV
            (stays tree present quietV moreV inumK) (next ::ₘ h)) ?_
          rintro _ w ⟨dropped,locksW⟩
          have liveNext : 0 < (v.icache next).ref := by
            have count := got.counts next
            rw [Multiset.count_cons_self] at count
            omega
          have inumW : (w.icache next).inum = j := (dropped.same next liveNext).1.trans inumV
          have later := @ih w next rest (by omega) (quiet_trans quietV (le_trans more moreV) dropped) locksW (inumW ▸ offspring)
          rw [inumW] at later
          exact later

/-- Where the search for a path starts. -/
def startInode (s : Fs) (cwd : Slot) (path : Xv6Fs.Bytes) : Nat := if path.head? = some slash then ROOTINO else (s.icache cwd).inum

/-- `namex` returns what the path leads to, and holds on to nothing else; it stops only for want of
    entries in the inode cache. -/
theorem namex_resolves (tree : Tree sb s D h) (locks : Locks s none) (member : cwd ∈ h) (typed : (D (s.icache cwd).inum).type ≠ 0)
    (path : Xv6Fs.Bytes) (nameiparent : Bool) :
    (∃ r t, namex sb cwd path nameiparent s = .ok (r, t) ∧ Locks t none ∧
      Reaches sb s D h r t (target s.disk D (startInode s cwd path) (components path) nameiparent)) ∨
    (namex sb cwd path nameiparent s = .error .igetNoInodes ∧ ¬ Spare s) := by
  have live := tree.held.live member
  have found : wp (fun e => e = .igetNoInodes ∧ ¬ Spare s) (namex sb cwd path nameiparent) s fun r t =>
      Reaches sb s D h r t (target s.disk D (startInode s cwd path) (components path) nameiparent) ∧ Locks t none := by
    unfold namex startInode
    by_cases root : path.head? = some slash
    · rw [if_pos root, if_pos root, wp_bind]
      refine wp_mono (iget_total tree.clean locks tree.root.inside (fun all => ⟨rfl, not_spare all⟩) h) ?_
      rintro k t ⟨quiet,inum,locksT⟩
      have later := namexLoop_resolves tree nameiparent (path.length + 1) (Nat.lt_succ_self path.length)
        (E := fun e => e = .igetNoInodes ∧ ¬ Spare s) (fun none => ⟨rfl,none⟩) quiet locksT (inum.symm ▸ tree.root)
      rw [inum] at later
      exact later
    · rw [if_neg root, if_neg root, wp_bind]
      have cached := tree.clean.volume.cached
      have present : Present sb s D h (s.icache cwd).inum := ⟨cached.inside cwd live, typed, Or.inr ⟨cwd,member,rfl⟩⟩
      have locked : wp (fun _ => True) (idup cwd) s fun _ t => Locks t none := by
        unfold idup
        rw [wp_bind]
        apply wp_setInode
        intro l
        dsimp only
        by_cases same : l = cwd
        · rw [same, Function.update_self]
          exact locks cwd
        · rw [Function.update_of_ne same]
          exact locks l
      refine wp_mono (wp_and (idup_spec tree.clean live h) locked) ?_
      rintro k t ⟨⟨rfl,quiet⟩,locksT⟩
      have inum := (quiet.same k live).1
      have later := namexLoop_resolves tree nameiparent (path.length + 1) (Nat.lt_succ_self path.length)
        (E := fun e => e = .igetNoInodes ∧ ¬ Spare s) (fun none => ⟨rfl,none⟩) quiet locksT (inum.symm ▸ present)
      rw [inum] at later
      exact later
  unfold wp at found
  cases run : namex sb cwd path nameiparent s with
  | ok result =>
    rw [run] at found
    exact Or.inl ⟨result.1, result.2, rfl, found.2, found.1⟩
  | error e =>
    rw [run] at found
    obtain ⟨rfl,none⟩ := found
    exact Or.inr ⟨rfl,none⟩

end Paths

section Root
open Xv6FsRuns Xv6FsSound

theorem boot_tree : Tree tiny (boot dots) (dinodeAt tiny dots) {rootSlot} := by
  have sound := (sound_start (boot_booted dots) dots_wellFormed).hold (k := rootSlot) (by decide)
  have only : ∀ i ∈ allocated tiny (dinodeAt tiny dots), (dinodeAt tiny dots i).type = T_DIR → i = 1 := by decide
  have size : (dinodeAt tiny dots 1).size.toNat = 32 := by decide
  have table : names dots (dinodeAt tiny dots 1) = [some ([46#8], 1), some ([103#8], 2)] := by decide
  have present : ∀ j, j = 1 ∨ j = 2 → Present tiny (boot dots) (dinodeAt tiny dots) {rootSlot} j := by
    rintro j (rfl | rfl)
    · exact ⟨by decide, by decide, Or.inl (by decide)⟩
    · exact ⟨by decide, by decide, Or.inl (by decide)⟩
  refine ⟨sound.clean, sound.held, fun i here dir => ?_, fun i here name j found => ?_, present 1 (Or.inl rfl)⟩
  · rw [only i here dir, size]
    decide
  · unfold child at found
    split at found
    · rename_i dir
      rw [only i here dir] at found
      change bindings dots _ _ = _ at found
      unfold bindings SlotTable.lookup at found
      rw [table] at found
      apply present
      obtain ⟨e,_,value⟩ := Option.bind_eq_some_iff.mp found
      rcases e with _ | _ | e
      · exact Or.inl (Option.some_inj.mp value).symm
      · exact Or.inr (Option.some_inj.mp value).symm
      · cases value
    · cases found

/-- The search for `/g` ends at inode 2. -/
theorem namex_resolves_root : ∃ m t, namex tiny rootSlot [47#8, 103#8] false (boot dots) = .ok (some (m, []), t) ∧ Locks t none ∧
    (t.icache m).inum = 2 ∧ Quiet tiny (boot dots) (dinodeAt tiny dots) {rootSlot} t {m, rootSlot} := by
  have locks : Locks (boot dots) none := fun l => ((boot_booted dots).choose_spec.2.2.2 l).2
  rcases namex_resolves boot_tree locks (Multiset.mem_singleton_self rootSlot) (by decide) [47#8, 103#8] false with found | ⟨_,full⟩
  · obtain ⟨r,t,run,locksT,reaches⟩ := found
    have leads : target dots (dinodeAt tiny dots) 1 (components [47#8, 103#8]) false = some (2, []) := by decide
    have start : startInode (boot dots) rootSlot [47#8, 103#8] = 1 := rfl
    rw [start, show (boot dots).disk = dots from rfl, leads] at reaches
    obtain ⟨m,rfl,inum,quiet⟩ := reaches
    exact ⟨m, t, run, locksT, inum, quiet⟩
  · exact absurd ⟨fileSlot, ⟨2, by decide⟩, by decide, rfl, rfl⟩ full

/-- A file before the last component: the inode is reached, and `nameiparent` returns 0. -/
theorem parent_file : Tree tiny (boot dots) (dinodeAt tiny dots) {rootSlot} ∧
    walk dots (dinodeAt tiny dots) (startInode (boot dots) rootSlot [47#8, 103#8, 47#8, 120#8])
      (components [47#8, 103#8, 47#8, 120#8]).dropLast = some 2 ∧
    (components [47#8, 103#8, 47#8, 120#8]).getLast? = some [120#8] ∧
    (namex tiny rootSlot [47#8, 103#8, 47#8, 120#8] true (boot dots)).toOption.map Prod.fst = some none := by
  exact ⟨boot_tree, by decide, by decide, by decide⟩

end Root
end Xv6FsPaths
