import KernelLabs.Lib.SlotTable
import KernelLabs.Xv6.FsBytes
import KernelLabs.Xv6.FsRuns

/-!
A directory is a finite map from names to inode numbers: `dirlookup` reads it, `dirlink` adds a
name and clearing an entry takes one out.
-/
namespace Xv6FsNames
open Xv6Fs Xv6FsDisk Xv6FsOwn Xv6FsVolume Xv6FsFile Xv6FsSlots Xv6FsDirs Xv6FsBytes Bytes Wp

section Keys

/-- What names are compared by. -/
def key (name : Xv6Fs.Bytes) : Xv6Fs.Bytes := (name.take DIRSIZ).takeWhile (· != 0#8)

theorem namecmp_iff {a b : Xv6Fs.Bytes} : namecmp a b = true ↔ key a = key b := beq_iff_eq

/-- `strncpy` fills with NULs, which no comparison sees. -/
theorem key_stored (name : Xv6Fs.Bytes) : key ((List.range DIRSIZ).map fun j => name.getD j 0#8) = key name := by
  have filled : ((List.range DIRSIZ).map fun j => name.getD j 0#8) =
      name.take DIRSIZ ++ List.replicate (DIRSIZ - name.length) 0#8 := by
    refine List.ext_getElem? fun j => ?_
    rw [List.getElem?_map]
    by_cases low : j < DIRSIZ
    · rw [List.getElem?_range low, Option.map_some, List.getD_eq_getElem?_getD]
      by_cases inside : j < name.length
      · rw [List.getElem?_append_left (by rw [List.length_take]; omega), List.getElem?_take_of_lt low,
          List.getElem?_eq_getElem inside]
        rfl
      · rw [List.getElem?_append_right (by rw [List.length_take]; omega), List.getElem?_eq_none (Nat.not_lt.mp inside),
          List.getElem?_replicate, if_pos (by rw [List.length_take]; omega)]
        rfl
    · rw [List.getElem?_eq_none (by rw [List.length_range]; omega), List.getElem?_eq_none]
      · rfl
      · rw [List.length_append, List.length_take, List.length_replicate]
        omega
  unfold key
  rw [List.take_of_length_le (by rw [List.length_map, List.length_range]), filled, List.takeWhile_append]
  split
  · rename_i whole
    have none : (List.replicate (DIRSIZ - name.length) 0#8).takeWhile (· != 0#8) = [] := by
      cases DIRSIZ - name.length with
      | zero => rfl
      | succ n => rfl
    rw [none, List.append_nil]
    exact ((List.takeWhile_prefix _).eq_of_length whole).symm
  · rfl

/-- An entry as a slot of a table. -/
def slotOf (de : Dirent) : Option (Xv6Fs.Bytes × Nat) := if de.inum = 0 then none else some (key de.name, de.inum)

theorem slotOf_stored {name : Xv6Fs.Bytes} {inum : Nat} (some : 0 < inum) (small : inum < 2 ^ 16) :
    slotOf (stored ⟨inum, name⟩) = Option.some (key name, inum) := by
  unfold slotOf stored
  dsimp only
  rw [Nat.mod_eq_of_lt small, if_neg (Nat.ne_of_gt some), key_stored]

end Keys

/-- The entries of a directory. -/
def names (disk : Nat → Block) (d : Dinode) : SlotTable.Table Xv6Fs.Bytes Nat :=
  (List.range (direntCount d)).map fun e => slotOf (direntAt (content disk d) e)

section Table
variable {disk : Nat → Block} {d : Dinode} {e : Nat}

theorem names_length (disk : Nat → Block) (d : Dinode) : (names disk d).length = direntCount d := by
  unfold names
  rw [List.length_map, List.length_range]

theorem names_get (disk : Nat → Block) (d : Dinode) (e : Nat) :
    (names disk d)[e]? = if e < direntCount d then some (slotOf (direntAt (content disk d) e)) else none := by
  unfold names
  rw [List.getElem?_map]
  by_cases low : e < direntCount d
  · rw [List.getElem?_range low, if_pos low]
    rfl
  · rw [List.getElem?_eq_none (by rw [List.length_range]; omega), if_neg low]
    rfl

theorem slotOf_has {de : Dirent} {name : Xv6Fs.Bytes} :
    ((slotOf de).any fun p => decide (p.1 = key name)) = (decide (de.inum ≠ 0) && namecmp name de.name) := by
  unfold slotOf
  by_cases free : de.inum = 0
  · rw [if_pos free, decide_eq_false (not_not_intro free)]
    rfl
  · rw [if_neg free, decide_eq_true free, Option.any_some, Bool.true_and, Bool.eq_iff_iff, decide_eq_true_iff, namecmp_iff]
    exact eq_comm

theorem findIdx?_range (n : Nat) (p : Nat → Bool) : (List.range n).findIdx? p = (List.range n).find? p := by
  refine Option.ext fun e => ?_
  rw [List.find?_range_eq_some, List.findIdx?_eq_some_iff_getElem]
  simp only [List.length_range, List.getElem_range, List.mem_range, Bool.not_eq_true, Bool.not_eq_true']
  constructor
  · rintro ⟨inside,here,before⟩
    exact ⟨here,inside,before⟩
  · rintro ⟨here,inside,before⟩
    exact ⟨inside,here,before⟩

theorem dirFind_eq (disk : Nat → Block) (d : Dinode) (name : Xv6Fs.Bytes) :
    dirFind (content disk d) d name = SlotTable.find (names disk d) (key name) := by
  unfold dirFind SlotTable.find names
  rw [List.findIdx?_map]
  have same : (fun slot : Option (Xv6Fs.Bytes × Nat) => slot.any fun p => decide (p.1 = key name)) ∘
      (fun e => slotOf (direntAt (content disk d) e)) = hit (content disk d) name := by
    funext e
    exact slotOf_has
  rw [same, findIdx?_range]

end Table

/-- An inode with whole entries, held in slot `k`. -/
structure Folder (sb : Superblock) (s : Fs) (D : Nat → Dinode) (k : Slot) (i : Nat) : Prop where
  clean : Clean sb s D
  holds : Holds s k i
  dir : (D i).type = T_DIR
  whole : DIRENT ∣ (D i).size.toNat

/-- A directory in which names are distinct. -/
structure Directory (sb : Superblock) (s : Fs) (D : Nat → Dinode) (k : Slot) (i : Nat) : Prop extends Folder sb s D k i where
  distinct : SlotTable.Distinct (names s.disk (D i))

/-- The cache entry that `iget` takes. -/
def entryFor (s : Fs) (inum : Nat) : Option Slot :=
  (findSlot s fun ip => decide (0 < ip.ref) && ip.inum == inum).or (findSlot s fun ip => ip.ref == 0)

/-- No more than a free cache entry has changed. -/
structure Unchanged (s u : Fs) : Prop where
  disk : u.disk = s.disk
  written : u.written = s.written
  live : ∀ l, 0 < (s.icache l).ref → u.icache l = s.icache l
  free : ∀ l, (s.icache l).ref = 0 → (u.icache l).ref = 0

section Runs
variable {sb : Superblock} {s u : Fs} {D : Nat → Dinode} {k : Slot} {i e : Nat} {name : Xv6Fs.Bytes} {panic : Panic}

theorem Unchanged.holds (same : Unchanged s u) {l : Slot} {j : Nat} : Holds u l j ↔ Holds s l j := by
  by_cases live : 0 < (s.icache l).ref
  · have entry := same.live l live
    constructor
    · rintro ⟨now,valid,inum⟩
      rw [entry] at now valid inum
      exact ⟨now,valid,inum⟩
    · rintro ⟨now,valid,inum⟩
      rw [← entry] at now valid inum
      exact ⟨now,valid,inum⟩
  · have dead := same.free l (Nat.eq_zero_of_not_pos live)
    exact ⟨fun holds => absurd holds.live (by omega), fun holds => absurd holds.live live⟩

theorem Unchanged.clean (same : Unchanged s u) (clean : Clean sb s D) : Clean sb u D := by
  have cached := clean.volume.cached
  have back : ∀ l, 0 < (u.icache l).ref → 0 < (s.icache l).ref := by
    intro l live
    by_contra dead
    have := same.free l (Nat.eq_zero_of_not_pos dead)
    omega
  refine clean_icache clean same.disk ⟨fun l live => ?_, fun l m live live' eq => ?_, fun l j holds => ?_, fun l j holds => ?_⟩
  · rw [same.live l (back l live)]
    exact cached.inside l (back l live)
  · rw [same.live l (back l live), same.live m (back m live')] at eq
    exact cached.distinct l m (back l live) (back m live') eq
  · rw [same.live l (back l holds.live)]
    exact cached.copy l j (same.holds.mp holds)
  · exact cached.typed l j (same.holds.mp holds)

theorem Unchanged.directory (same : Unchanged s u) (directory : Directory sb s D k i) : Directory sb u D k i := by
  refine ⟨⟨same.clean directory.clean, same.holds.mpr directory.holds, directory.dir, directory.whole⟩, ?_⟩
  rw [same.disk]
  exact directory.distinct

theorem Folder.size (folder : Folder sb s D k i) : DIRENT * direntCount (D i) = (D i).size.toNat := by
  obtain ⟨n,size⟩ := folder.whole
  unfold direntCount
  rw [size]
  unfold DIRENT DIRSIZ
  omega

theorem Folder.inside (folder : Folder sb s D k i) (low : e < direntCount (D i)) :
    DIRENT * e + DIRENT ≤ (D i).size.toNat := by
  have size := folder.size
  unfold DIRENT DIRSIZ at *
  omega

theorem Folder.plain (folder : Folder sb s D k i) : (D i).type ≠ T_DEV := by
  rw [folder.dir]
  decide

/-- Every entry can be read. -/
theorem readDirent_run (folder : Folder sb s D k i) (low : e < direntCount (D i)) :
    readDirent sb k e panic s = .ok (direntAt (content s.disk (D i)) e, s) := by
  have inside := folder.inside low
  have sizeLt := (D i).size.toNat_lt
  have start : (UInt32.ofNat (DIRENT * e)).toNat = DIRENT * e := UInt32.toNat_ofNat_of_lt' (count_small low)
  have length : (UInt32.ofNat DIRENT).toNat = DIRENT := rfl
  have read : readOf (D i) (content s.disk (D i)) (UInt32.ofNat (DIRENT * e)) (UInt32.ofNat DIRENT) =
      some ((List.range DIRENT).map fun q => content s.disk (D i) (DIRENT * e + q)) := by
    unfold readOf
    rw [if_neg folder.plain, if_neg, if_neg]
    · rw [start]
      rfl
    · rw [UInt32.lt_iff_toNat_lt, UInt32.toNat_add, start, length]
      omega
    · rw [UInt32.lt_iff_toNat_lt, UInt32.lt_iff_toNat_lt, UInt32.toNat_add, start, length]
      omega
  have total : wp (fun _ => False) (readDirent sb k e panic) s fun de t => de = direntAt (content s.disk (D i)) e ∧ t = s := by
    unfold readDirent
    rw [wp_bind]
    apply readi_spec (folder.clean.volume.cached.copy k i folder.holds)
      (folder.clean.volume.mapped i (folder.clean.volume.here folder.holds))
    rw [read]
    dsimp only
    rw [if_pos (by rw [List.length_map, List.length_range]), wp_pure, read_bytes]
    exact ⟨rfl,rfl⟩
  obtain ⟨de,t,run,rfl,rfl⟩ := wp_total total
  exact run

theorem run_get {α : Type} (f : Fs → FsM α) (s : Fs) : (get >>= f) s = f s s := rfl

theorem lookupLoop_run (folder : Folder sb s D k i) (l : List Nat) (low : ∀ e ∈ l, e < direntCount (D i)) :
    lookupLoop sb k name l s = match l.find? (hit (content s.disk (D i)) name) with
      | none => .ok (none, s)
      | some e => (do
          let m ← iget (direntAt (content s.disk (D i)) e).inum
          return some (m, e) : FsM _) s := by
  induction l with
  | nil => rfl
  | cons e rest ih =>
    have later := ih fun e' member => low e' (List.mem_cons_of_mem _ member)
    unfold lookupLoop
    rw [bind_run (readDirent_run folder (low e List.mem_cons_self))]
    by_cases found : hit (content s.disk (D i)) name e = true
    · obtain ⟨used,same⟩ := hit_iff.mp found
      rw [List.find?_cons_of_pos found, if_neg used, if_pos same]
    · rw [List.find?_cons_of_neg found, ← later]
      by_cases free : (direntAt (content s.disk (D i)) e).inum = 0
      · rw [if_pos free]
      · rw [if_neg free, if_neg fun same => found (hit_iff.mpr ⟨free,same⟩)]

theorem emptyLoop_run {last : Nat} (folder : Folder sb s D k i) (l : List Nat) (low : ∀ e ∈ l, e < direntCount (D i)) :
    emptyLoop sb k last l s =
      .ok ((l.find? fun e => (slotOf (direntAt (content s.disk (D i)) e)).isNone).getD last, s) := by
  induction l with
  | nil => rfl
  | cons e rest ih =>
    unfold emptyLoop
    rw [bind_run (readDirent_run folder (low e List.mem_cons_self))]
    by_cases free : (direntAt (content s.disk (D i)) e).inum = 0
    · have slot : slotOf (direntAt (content s.disk (D i)) e) = none := if_pos free
      rw [if_pos free, List.find?_cons_of_pos (by rw [slot]; rfl)]
      rfl
    · have slot : slotOf (direntAt (content s.disk (D i)) e) = some (key (direntAt (content s.disk (D i)) e).name, _) := if_neg free
      rw [if_neg free, List.find?_cons_of_neg (by rw [slot]; exact Bool.false_ne_true)]
      exact ih fun e' member => low e' (List.mem_cons_of_mem _ member)

/-- The map that a directory stands for. -/
def bindings (disk : Nat → Block) (d : Dinode) : Xv6Fs.Bytes → Option Nat := SlotTable.lookup (names disk d)

/-- What `dirlookup` does for a name with this inode number, or with none. -/
def Resolves (sb : Superblock) (s : Fs) (k : Slot) (name : Xv6Fs.Bytes) : Option Nat → Prop
  | none => dirlookup sb k name s = .ok (none, s)
  | some inum => ∃ e, dirlookup sb k name s = (do
      let m ← iget inum
      return some (m, e) : FsM _) s

theorem entry_found (found : SlotTable.find (names s.disk (D i)) (key name) = some e) :
    e < direntCount (D i) ∧ bindings s.disk (D i) (key name) = some (direntAt (content s.disk (D i)) e).inum := by
  obtain ⟨inum,entry⟩ := SlotTable.find_some found
  have low : e < direntCount (D i) := by
    rw [← names_length s.disk]
    exact (List.getElem?_eq_some_iff.mp entry).1
  have slot := entry
  rw [names_get, if_pos low, Option.some_inj] at slot
  unfold slotOf at slot
  split at slot
  · cases slot
  · have same : (direntAt (content s.disk (D i)) e).inum = inum := congrArg Prod.snd (Option.some_inj.mp slot)
    refine ⟨low, ?_⟩
    rw [same]
    exact SlotTable.lookup_find entry found

theorem dirlookup_run (folder : Folder sb s D k i) (name : Xv6Fs.Bytes) :
    dirlookup sb k name s = match SlotTable.find (names s.disk (D i)) (key name) with
      | none => .ok (none, s)
      | some e => (do
          let m ← iget (direntAt (content s.disk (D i)) e).inum
          return some (m, e) : FsM _) s := by
  have start : dirlookup sb k name s = lookupLoop sb k name (List.range (direntCount (D i))) s := by
    unfold dirlookup
    rw [run_get, folder.clean.volume.cached.copy k i folder.holds, if_neg (not_not_intro folder.dir)]
  rw [start, lookupLoop_run folder _ fun e member => List.mem_range.mp member, ← dirFind_eq]
  rfl

theorem resolves (folder : Folder sb s D k i) (name : Xv6Fs.Bytes) :
    Resolves sb s k name (bindings s.disk (D i) (key name)) := by
  have run := dirlookup_run folder name
  cases found : SlotTable.find (names s.disk (D i)) (key name) with
  | none =>
    rw [found] at run
    unfold bindings
    rw [SlotTable.lookup_none.mpr found]
    exact run
  | some e =>
    rw [found] at run
    rw [(entry_found found).2]
    exact ⟨e,run⟩

theorem dirlink_run (folder : Folder sb s D k i) (name : Xv6Fs.Bytes) (inum : Nat) :
    dirlink sb k name inum s = match SlotTable.find (names s.disk (D i)) (key name) with
      | some e => (do
          let m ← iget (direntAt (content s.disk (D i)) e).inum
          iput sb m
          return false : FsM _) s
      | none => (do
          writeDirent sb k (SlotTable.vacant (names s.disk (D i))) ⟨inum, name⟩ .dirlink
          return true : FsM _) s := by
  have first := dirlookup_run folder name
  cases found : SlotTable.find (names s.disk (D i)) (key name) with
  | none =>
    rw [found] at first
    have empty := @emptyLoop_run sb s D k i (direntCount (D i)) folder _ fun e member => List.mem_range.mp member
    have place : ((List.range (direntCount (D i))).find? fun e => (slotOf (direntAt (content s.disk (D i)) e)).isNone).getD
        (direntCount (D i)) = SlotTable.vacant (names s.disk (D i)) := by
      unfold SlotTable.vacant
      rw [List.findIdx_eq_getD_findIdx?, names_length]
      unfold names
      rw [List.findIdx?_map, findIdx?_range]
      rfl
    unfold dirlink
    rw [bind_run first]
    dsimp only
    rw [run_get, folder.clean.volume.cached.copy k i folder.holds, bind_run empty, place]
  | some e =>
    rw [found] at first
    cases entry : iget (direntAt (content s.disk (D i)) e).inum s with
    | error panic =>
      unfold dirlink
      simp only [bind, StateT.bind, Except.bind, entry] at first ⊢
      rw [first]
    | ok result =>
      obtain ⟨m,t⟩ := result
      have here : dirlookup sb k name s = .ok (some (m, e), t) := first.trans (bind_run entry)
      unfold dirlink
      rw [bind_run here]
      dsimp only
      rw [bind_run entry]

end Runs

section Refusal
variable {sb : Superblock} {s : Fs} {l : Slot} {inum : Nat}

/-- The state after `iget` has taken entry `l`. -/
def taken (s : Fs) (l : Slot) (inum : Nat) : Fs :=
  { s with icache := Function.update s.icache l (if 0 < (s.icache l).ref then { s.icache l with ref := (s.icache l).ref + 1 }
    else { s.icache l with inum := inum, ref := 1, valid := false }) }

theorem iget_taken (entry : entryFor s inum = some l) : iget inum s = .ok (l, taken s l inum) := by
  unfold entryFor at entry
  unfold iget taken
  rw [run_get]
  cases found : findSlot s fun ip => decide (0 < ip.ref) && ip.inum == inum with
  | some m =>
    rw [found] at entry
    cases entry
    have live := findSlot_some found
    rw [Bool.and_eq_true, decide_eq_true_eq] at live
    rw [if_pos live.1]
    rfl
  | none =>
    rw [found, Option.none_or] at entry
    have free := findSlot_some entry
    rw [beq_iff_eq] at free
    dsimp only
    rw [entry, if_neg (by omega)]
    rfl

theorem iget_full (none : entryFor s inum = none) : iget inum s = .error .igetNoInodes := by
  obtain ⟨absent,full⟩ := Option.or_eq_none_iff.mp none
  unfold iget
  rw [run_get, absent]
  dsimp only
  rw [full]
  rfl

theorem iput_locked (locked : (s.icache l).locked = true) : iput sb l (taken s l inum) = .error .hang := by
  have still : ((taken s l inum).icache l).locked = true := by
    unfold taken
    dsimp only
    rw [Function.update_self]
    split
    · exact locked
    · exact locked
  unfold iput
  rw [run_get, if_pos still]
  rfl

/-- The reference that `dirlookup` took is dropped without a trace. -/
theorem iput_taken (unlocked : (s.icache l).locked = false) : ∃ u, iput sb l (taken s l inum) = .ok ((), u) ∧ Unchanged s u := by
  have loose : ¬ ((taken s l inum).icache l).locked = true := by
    unfold taken
    dsimp only
    rw [Function.update_self]
    split
    · simp [unlocked]
    · simp [unlocked]
  have used : ¬ (((taken s l inum).icache l).valid = true ∧ ((taken s l inum).icache l).d.nlink = 0 ∧
      ((taken s l inum).icache l).ref = 1) := by
    unfold taken
    dsimp only
    rw [Function.update_self]
    split
    · rintro ⟨_,_,one⟩
      dsimp only at one
      omega
    · rintro ⟨valid,_⟩
      cases valid
  unfold iput
  rw [run_get, if_neg loose, if_neg used]
  refine ⟨_, rfl, rfl, rfl, fun m live => ?_, fun m free => ?_⟩
  · unfold taken
    dsimp only
    by_cases same : m = l
    · subst same
      rw [Function.update_self, Function.update_self, if_pos live]
      rfl
    · rw [Function.update_of_ne same, Function.update_of_ne same]
  · unfold taken
    dsimp only
    by_cases same : m = l
    · subst same
      rw [Function.update_self, Function.update_self, if_neg (by omega)]
      rfl
    · rw [Function.update_of_ne same, Function.update_of_ne same]
      exact free

end Refusal

section Edits
variable {sb : Superblock} {s t u : Fs} {D D' : Nat → Dinode} {k : Slot} {i e : Nat} {de : Dirent} {name : Xv6Fs.Bytes} {panic : Panic}

theorem place_le (directory : Directory sb s D k i) (place : e ≤ direntCount (D i)) : DIRENT * e ≤ (D i).size.toNat := by
  rw [← directory.size]
  exact Nat.mul_le_mul_left _ place

theorem place_small (directory : Directory sb s D k i) (place : e ≤ direntCount (D i)) : Addressable e := by
  have low := place_le directory place
  have most := (directory.clean.volume.mapped i (directory.clean.volume.here directory.holds)).1
  unfold nblocks MAXFILE NDIRECT NINDIRECT BSIZE at most
  unfold Addressable
  omega

/-- A written entry is a written slot. -/
theorem names_write (directory : Directory sb s D k i) (place : e ≤ direntCount (D i))
    (wrote : WroteFile sb i s D (DIRENT * e) DIRENT de.bytes t D') :
    names t.disk (D' i) = SlotTable.write (names s.disk (D i)) e (slotOf (stored de)) ∧ DIRENT ∣ (D' i).size.toNat := by
  have size := wrote.size
  have before := directory.size
  have count : DIRENT * max (direntCount (D i)) (e + 1) = (D' i).size.toNat := by
    rw [size, ← before]
    unfold DIRENT DIRSIZ
    omega
  have whole : DIRENT ∣ (D' i).size.toNat := Dvd.intro _ count
  have after : direntCount (D' i) = max (direntCount (D i)) (e + 1) := by
    rw [show direntCount (D' i) = ((D' i).size.toNat + DIRENT - 1) / DIRENT from rfl, ← count]
    generalize max (direntCount (D i)) (e + 1) = n
    unfold DIRENT DIRSIZ
    omega
  refine ⟨List.ext_getElem? fun f => ?_, whole⟩
  rw [SlotTable.write_get (by rw [names_length]; exact place), names_get, names_get]
  by_cases low : f < direntCount (D' i)
  · have inside : DIRENT * f + DIRENT ≤ (D' i).size.toNat := by
      rw [← count, ← after]
      unfold DIRENT DIRSIZ
      omega
    rw [if_pos low, direntAt_write wrote inside]
    by_cases same : f = e
    · rw [if_pos same, if_pos same]
    · rw [if_neg same, if_neg same, if_pos (by omega)]
  · rw [if_neg low, if_neg (by omega), if_neg (by omega)]

theorem directory_write (directory : Directory sb s D k i) (place : e ≤ direntCount (D i))
    (wrote : WroteFile sb i s D (DIRENT * e) DIRENT de.bytes t D')
    (distinct : SlotTable.Distinct (SlotTable.write (names s.disk (D i)) e (slotOf (stored de)))) : Directory sb t D' k i := by
  obtain ⟨table,whole⟩ := names_write directory place wrote
  refine ⟨⟨wrote.clean, wrote.slots.holds directory.holds, ?_, whole⟩, ?_⟩
  · rw [wrote.fields]
    exact directory.dir
  · rw [table]
    exact distinct

/-- The blocks that a new last entry needs. -/
def growth (d : Dinode) : Nat := needed d (nblocks d) ((d.size.toNat + DIRENT + BSIZE - 1) / BSIZE)

theorem writeDirent_run (directory : Directory sb s D k i) (place : e ≤ direntCount (D i))
    (below : e = direntCount (D i) → (D i).size.toNat < MAXFILE * BSIZE ∧ growth (D i) ≤ freeBlocks sb s.disk) :
    ∃ t D', writeDirent sb k e de panic s = .ok ((), t) ∧ WroteFile sb i s D (DIRENT * e) DIRENT de.bytes t D' := by
  have start : (UInt32.ofNat (DIRENT * e)).toNat = DIRENT * e := UInt32.toNat_ofNat_of_lt' (place_small directory place)
  have length : (UInt32.ofNat DIRENT).toNat = DIRENT := rfl
  have size := directory.size
  have most := (directory.clean.volume.mapped i (directory.clean.volume.here directory.holds)).1
  have last : DIRENT * e + DIRENT ≤ MAXFILE * BSIZE := by
    rcases Nat.lt_or_eq_of_le place with low | new
    · have inside := directory.inside low
      unfold nblocks MAXFILE NDIRECT NINDIRECT BSIZE at *
      omega
    · have room := (below new).1
      rw [new, size]
      unfold MAXFILE NDIRECT NINDIRECT BSIZE DIRENT DIRSIZ at *
      omega
  have fits : Fits (file s.disk (D i)) (UInt32.ofNat (DIRENT * e)) (UInt32.ofNat DIRENT) := by
    unfold Fits
    rw [file_length, start, length]
    refine ⟨place_le directory place, ?_, last⟩
    unfold MAXFILE NDIRECT NINDIRECT BSIZE DIRENT DIRSIZ at *
    omega
  have room : needed (D i) (nblocks (D i)) (((UInt32.ofNat (DIRENT * e)).toNat + (UInt32.ofNat DIRENT).toNat + BSIZE - 1) / BSIZE) ≤
      freeBlocks sb s.disk := by
    rw [start, length]
    rcases Nat.lt_or_eq_of_le place with low | new
    · have inside := directory.inside low
      have target : (DIRENT * e + DIRENT + BSIZE - 1) / BSIZE ≤ nblocks (D i) := by
        unfold nblocks
        exact Nat.div_le_div_right (by omega)
      have none : needed (D i) (nblocks (D i)) ((DIRENT * e + DIRENT + BSIZE - 1) / BSIZE) = 0 := by
        unfold needed
        rw [if_neg (by omega), Nat.sub_eq_zero_of_le target]
      rw [none]
      exact Nat.zero_le _
    · rw [new, size]
      exact (below new).2
  have returned : wp _ (writei sb k de.bytes _ _) s _ := writei_total directory.clean directory.holds directory.plain room
  have total := wp_and returned (writei_spec (fun _ _ _ => trivial) directory.clean directory.holds)
  rw [if_pos fits] at total
  obtain ⟨r,t,run,result,wrote⟩ := wp_total total
  rcases wrote with ⟨none,_⟩ | ⟨_,D',wrote⟩
  · cases none.symm.trans result
  · refine ⟨t, D', ?_, ?_⟩
    · unfold writeDirent
      rw [bind_run run, if_pos result]
      rfl
    · rw [start] at wrote
      exact wrote

/-- A write that adds an entry at the end finds the blocks for it. -/
theorem growth_free (directory : Directory sb s D k i)
    (run : writeDirent sb k (direntCount (D i)) de panic s = .ok ((), t)) : growth (D i) ≤ freeBlocks sb s.disk := by
  have here := directory.clean.volume.here directory.holds
  have small : (UInt32.ofNat (DIRENT * direntCount (D i))).toNat = DIRENT * direntCount (D i) :=
    UInt32.toNat_ofNat_of_lt' (place_small directory (Nat.le_refl _))
  have length : (UInt32.ofNat DIRENT).toNat = DIRENT := rfl
  have size := directory.size
  -- Where no indirect block is needed, the one that is there stays.
  have direct : (D i).size.toNat + DIRENT ≤ NDIRECT * BSIZE → lastAddr (t.icache k).d = lastAddr (s.icache k).d := by
    intro low
    have kept : wp (fun _ => True) (writeDirent sb k (direntCount (D i)) de panic) s fun _ t =>
        lastAddr (t.icache k).d = lastAddr (s.icache k).d := by
      unfold writeDirent
      rw [wp_bind]
      refine wp_mono (writei_direct (by rw [small, length, size]; exact low)) fun r u same => ?_
      rw [wp_ite]
      split
      · exact same
      · trivial
    have same := wp_ok kept run
    exact same
  obtain ⟨D',wrote⟩ := wp_ok (writeDirent_spec (E := fun _ => True) (fun _ _ _ => trivial) directory.clean directory.holds
    (place_small directory (Nat.le_refl _)) trivial) run
  have types : allocated sb D' = allocated sb D := by
    refine Finset.filter_congr fun j _ => ?_
    by_cases mine : j = i
    · rw [mine, wrote.fields]
    · rw [wrote.others.table j mine]
  have moved := free_step here directory.clean.volume wrote.clean.volume types wrote.others.table
    fun j other => by rw [wrote.others.table j other]
  have mapped := wrote.clean.volume.mapped i (types ▸ here)
  have after : nblocks (D' i) = ((D i).size.toNat + DIRENT + BSIZE - 1) / BSIZE := by
    unfold nblocks
    rw [wrote.size, size, Nat.max_eq_right (Nat.le_add_right _ _)]
  have grows : nblocks (D i) ≤ nblocks (D' i) := by
    rw [after]
    exact Nat.div_le_div_right (by omega)
  unfold growth needed
  rw [← after]
  by_cases deep : NDIRECT < nblocks (D' i)
  · have one : indirectCount (D' i) = 1 := by
      refine if_neg fun none => ?_
      have used := (mapped.2 NDIRECT (by decide)).mpr deep
      unfold addrAt at used
      rw [if_neg (Nat.lt_irrefl _), if_pos none] at used
      exact used rfl
    have most : indirectCount (D i) ≤ 1 := by
      unfold indirectCount
      split <;> omega
    split <;> omega
  · have low : (D i).size.toNat + DIRENT ≤ NDIRECT * BSIZE := by
      rw [after] at deep
      unfold BSIZE at *
      omega
    have same := direct low
    rw [wrote.clean.volume.cached.copy k i (wrote.slots.holds directory.holds),
      directory.clean.volume.cached.copy k i directory.holds] at same
    have count : indirectCount (D' i) = indirectCount (D i) := by
      unfold indirectCount
      rw [same]
    rw [if_neg fun both => deep both.1]
    omega

end Edits

section Maps
variable {sb : Superblock} {s t : Fs} {D : Nat → Dinode} {k : Slot} {i inum : Nat} {name : Xv6Fs.Bytes}

/-- `dirlink` and the clearing of an entry are an insertion and a removal. -/
structure FiniteMap (sb : Superblock) (s : Fs) (D : Nat → Dinode) (k : Slot) (i : Nat) (name : Xv6Fs.Bytes) (inum : Nat) : Prop where
  reads : ∀ other, Resolves sb s k other (bindings s.disk (D i) (key other))
  refused : ∀ m e t, dirlookup sb k name s = .ok (some (m, e), t) →
    ∃ u, dirlink sb k name inum s = .ok (false, u) ∧ Unchanged s u
  linked : ∀ t, dirlookup sb k name s = .ok (none, t) → ∃ u D', dirlink sb k name inum s = .ok (true, u) ∧
    Directory sb u D' k i ∧
    (∀ other, Resolves sb u k other (Function.update (bindings s.disk (D i)) (key name) (some inum) (key other))) ∧
    names u.disk (D' i) = SlotTable.write (names s.disk (D i)) (SlotTable.vacant (names s.disk (D i))) (some (key name, inum))
  cleared : ∀ m e t, dirlookup sb k name s = .ok (some (m, e), t) → ∀ v, Directory sb v D k i → v.disk = s.disk →
    ∃ u D', writeDirent sb k e ⟨0, []⟩ .unlinkWritei v = .ok ((), u) ∧ Directory sb u D' k i ∧
    ∀ other, Resolves sb u k other (Function.update (bindings s.disk (D i)) (key name) none (key other))

/-- `iput` does not wait for the inode that the name is found with. -/
def Unlocked (s : Fs) (d : Dinode) (name : Xv6Fs.Bytes) : Prop :=
  ∀ j l, bindings s.disk d (key name) = some j → entryFor s j = some l → (s.icache l).locked = false

/-- There is a free slot, or the blocks for a new one. -/
def Room (sb : Superblock) (s : Fs) (d : Dinode) : Prop :=
  SlotTable.vacant (names s.disk d) = direntCount d → growth d ≤ freeBlocks sb s.disk

theorem found_entry (directory : Directory sb s D k i) {m : Slot} {e : Nat} (found : dirlookup sb k name s = .ok (some (m, e), t)) :
    SlotTable.find (names s.disk (D i)) (key name) = some e ∧
    entryFor s (direntAt (content s.disk (D i)) e).inum = some m := by
  have run := dirlookup_run directory.toFolder name
  cases here : SlotTable.find (names s.disk (D i)) (key name) with
  | none =>
    rw [here, found] at run
    cases run
  | some f =>
    rw [here, found] at run
    cases entry : entryFor s (direntAt (content s.disk (D i)) f).inum with
    | none =>
      simp only [bind, StateT.bind, Except.bind, iget_full entry] at run
      cases run
    | some l =>
      dsimp only at run
      rw [bind_run (iget_taken entry)] at run
      cases run
      exact ⟨rfl,entry⟩

theorem missing_entry (directory : Directory sb s D k i) (missing : dirlookup sb k name s = .ok (none, t)) :
    SlotTable.find (names s.disk (D i)) (key name) = none := by
  have run := dirlookup_run directory.toFolder name
  cases here : SlotTable.find (names s.disk (D i)) (key name) with
  | none => rfl
  | some f =>
    rw [here, missing] at run
    cases entry : entryFor s (direntAt (content s.disk (D i)) f).inum with
    | none =>
      simp only [bind, StateT.bind, Except.bind, iget_full entry] at run
      cases run
    | some l =>
      dsimp only at run
      rw [bind_run (iget_taken entry)] at run
      cases run

/-- A name that is there is refused if the inode is not locked. -/
theorem dirlink_refused {e : Nat} {l : Slot} (directory : Directory sb s D k i)
    (found : SlotTable.find (names s.disk (D i)) (key name) = some e)
    (entry : entryFor s (direntAt (content s.disk (D i)) e).inum = some l) :
    ((s.icache l).locked = true → dirlink sb k name inum s = .error .hang) ∧
    ((s.icache l).locked = false → ∃ u, dirlink sb k name inum s = .ok (false, u) ∧ Unchanged s u) := by
  have run := dirlink_run directory.toFolder name inum
  rw [found] at run
  dsimp only at run
  rw [bind_run (iget_taken entry)] at run
  constructor
  · intro locked
    rw [run]
    simp only [bind, StateT.bind, Except.bind, iput_locked locked]
  · intro unlocked
    obtain ⟨u,put,same⟩ := iput_taken unlocked
    refine ⟨u, ?_, same⟩
    rw [run, bind_run put]
    rfl

/-- A name that is not there gets the first free slot. -/
theorem dirlink_linked (directory : Directory sb s D k i) (below : (D i).size.toNat < MAXFILE * BSIZE) (some : 0 < inum)
    (small : inum < 2 ^ 16) (missing : SlotTable.find (names s.disk (D i)) (key name) = none) (room : Room sb s (D i)) :
    ∃ u D', dirlink sb k name inum s = .ok (true, u) ∧ Directory sb u D' k i ∧
      names u.disk (D' i) = SlotTable.write (names s.disk (D i)) (SlotTable.vacant (names s.disk (D i))) (Option.some (key name, inum)) := by
  have place : SlotTable.vacant (names s.disk (D i)) ≤ direntCount (D i) := by
    rw [← names_length s.disk]
    exact SlotTable.vacant_le _
  obtain ⟨u,D',written,wrote⟩ := @writeDirent_run sb s D k i _ ⟨inum, name⟩ .dirlink directory place fun last => ⟨below, room last⟩
  have table := (names_write directory place wrote).1
  rw [slotOf_stored some small] at table
  refine ⟨u, D', ?_, ?_, table⟩
  · rw [dirlink_run directory.toFolder, missing]
    dsimp only
    rw [bind_run written]
    rfl
  · apply directory_write directory place wrote
    rw [slotOf_stored some small]
    exact SlotTable.distinct_insert directory.distinct missing

/-- Clearing the entry takes the name out. -/
theorem clear_run {e : Nat} (directory : Directory sb s D k i)
    (found : SlotTable.find (names s.disk (D i)) (key name) = some e) :
    ∃ u D', writeDirent sb k e ⟨0, []⟩ .unlinkWritei s = .ok ((), u) ∧ Directory sb u D' k i ∧
      names u.disk (D' i) = SlotTable.write (names s.disk (D i)) e none := by
  have low := (entry_found found).1
  have place := Nat.le_of_lt low
  obtain ⟨u,D',written,wrote⟩ := @writeDirent_run sb s D k i e ⟨0, []⟩ .unlinkWritei directory place fun last => absurd last (Nat.ne_of_lt low)
  refine ⟨u, D', written, ?_, (names_write directory place wrote).1⟩
  apply directory_write directory place wrote
  exact SlotTable.distinct_erase directory.distinct (by rw [names_length]; exact place)

/-- A directory is a finite map, as long as `dirlink` does not wait for a lock that its caller has. -/
theorem directory_map (directory : Directory sb s D k i) (below : (D i).size.toNat < MAXFILE * BSIZE) (some : 0 < inum)
    (small : inum < 2 ^ 16) : FiniteMap sb s D k i name inum ↔
      Unlocked s (D i) name ∧ (bindings s.disk (D i) (key name) = none → Room sb s (D i)) := by
  constructor
  · intro map
    constructor
    · intro j l bound entry
      cases here : SlotTable.find (names s.disk (D i)) (key name) with
      | none => cases (SlotTable.lookup_none.mpr here).symm.trans bound
      | some e =>
        cases (entry_found here).2.symm.trans bound
        have looked : dirlookup sb k name s = .ok (Option.some (l, e), taken s l (direntAt (content s.disk (D i)) e).inum) := by
          rw [dirlookup_run directory.toFolder, here]
          exact bind_run (iget_taken entry)
        obtain ⟨u,run,_⟩ := map.refused l e _ looked
        rw [← Bool.not_eq_true]
        intro locked
        cases run.symm.trans ((dirlink_refused directory here entry).1 locked)
    · intro missing last
      have here := SlotTable.lookup_none.mp missing
      have looked : dirlookup sb k name s = .ok (none, s) := by
        rw [dirlookup_run directory.toFolder, here]
      obtain ⟨u,D',run,_⟩ := map.linked s looked
      rw [dirlink_run directory.toFolder, here, last] at run
      dsimp only at run
      cases written : writeDirent sb k (direntCount (D i)) ⟨inum, name⟩ .dirlink s with
      | error panic =>
        simp only [bind, StateT.bind, Except.bind, written] at run
        cases run
      | ok result => exact growth_free directory written
  · rintro ⟨unlocked,room⟩
    refine ⟨resolves directory.toFolder, fun m e t found => ?_, fun t missing => ?_, fun m e t found v now same => ?_⟩
    · obtain ⟨here,entry⟩ := found_entry directory found
      exact (dirlink_refused directory here entry).2 (unlocked _ m (entry_found here).2 entry)
    · have here := missing_entry directory missing
      obtain ⟨u,D',run,after,table⟩ := dirlink_linked directory below some small here (room (SlotTable.lookup_none.mpr here))
      refine ⟨u, D', run, after, fun other => ?_, table⟩
      have reads := resolves after.toFolder other
      unfold bindings at reads ⊢
      rw [table, SlotTable.lookup_insert directory.distinct here] at reads
      exact reads
    · obtain ⟨here,_⟩ := found_entry directory found
      rw [← same] at here ⊢
      obtain ⟨u,D',run,after,table⟩ := clear_run now here
      refine ⟨u, D', run, after, fun other => ?_⟩
      have reads := resolves after.toFolder other
      unfold bindings at reads ⊢
      rw [table, SlotTable.lookup_erase now.distinct here] at reads
      exact reads

end Maps

section Sequences
variable {sb : Superblock} {s t : Fs} {D : Nat → Dinode} {h h' : Multiset Slot} {k : Slot} {i : Nat}

/-- What `dirlink` and `unlink` do to a directory. -/
inductive Edit where
  | link (name : Xv6Fs.Bytes) (inum : Nat)
  | unlink (name : Xv6Fs.Bytes)

def Edit.run (sb : Superblock) (k : Slot) : Edit → FsM Unit
  | .link name inum => do
    let _ ← dirlink sb k name inum
  | .unlink name => do
    match ← dirlookup sb k name with
    | some (_, e) => writeDirent sb k e ⟨0, []⟩ .unlinkWritei
    | none => return ()

def Edit.command : Edit → SlotTable.Command Xv6Fs.Bytes Nat
  | .link name inum => .insert (key name) inum
  | .unlink name => .erase (key name)

/-- Only inodes of the table are linked. -/
def Edit.Valid (sb : Superblock) : Edit → Prop
  | .link _ inum => 0 < inum ∧ inum < 2 ^ 16 ∧ inum < sb.ninodes
  | .unlink _ => True

theorem quiet_directory (directory : Directory sb s D k i) (quiet : Quiet sb s D h t h') (more : h ≤ h') : Directory sb t D k i := by
  have count := quiet.counts k
  have less := Multiset.count_le_of_le k more
  have live := directory.holds.live
  obtain ⟨inum,valid⟩ := quiet.same k live
  refine ⟨⟨quiet.clean, ⟨by omega, valid directory.holds.valid, inum.trans directory.holds.inum⟩, directory.dir, directory.whole⟩, ?_⟩
  rw [quiet.disk]
  exact directory.distinct

theorem entries_disk (entries : Entries sb s D) (same : t.disk = s.disk) : Entries sb t D := by
  unfold Entries
  rw [same]
  exact entries

theorem link_step {name : Xv6Fs.Bytes} {inum : Nat} {r : Bool} (directory : Directory sb s D k i) (entries : Entries sb s D)
    (some : 0 < inum) (small : inum < 2 ^ 16) (inside : inum < sb.ninodes) (run : dirlink sb k name inum s = .ok (r, t)) :
    ∃ D', Directory sb t D' k i ∧ Entries sb t D' ∧
      names t.disk (D' i) = SlotTable.step (names s.disk (D i)) (.insert (key name) inum) := by
  dsimp only [SlotTable.step]
  cases found : SlotTable.find (names s.disk (D i)) (key name) with
  | some e =>
    rw [if_neg (Option.some_ne_none e)]
    cases entry : entryFor s (direntAt (content s.disk (D i)) e).inum with
    | none =>
      rw [dirlink_run directory.toFolder, found] at run
      simp only [bind, StateT.bind, Except.bind, iget_full entry] at run
      cases run
    | some l =>
      obtain ⟨waits,returns⟩ := @dirlink_refused sb s D k i inum name e l directory found entry
      cases locked : (s.icache l).locked with
      | true => cases run.symm.trans (waits locked)
      | false =>
        obtain ⟨u,done,same⟩ := returns locked
        cases run.symm.trans done
        refine ⟨D, same.directory directory, entries_disk entries same.disk, ?_⟩
        rw [same.disk]
  | none =>
    rw [if_pos rfl]
    have place : SlotTable.vacant (names s.disk (D i)) ≤ direntCount (D i) := by
      rw [← names_length s.disk]
      exact SlotTable.vacant_le _
    rw [dirlink_run directory.toFolder, found] at run
    obtain ⟨_,u,written,done⟩ := bind_ok run
    cases done
    obtain ⟨D',wrote⟩ := wp_ok (writeDirent_spec (E := fun _ => True) (fun _ _ _ => trivial) directory.clean directory.holds
      (place_small directory place) trivial) written
    have table := (names_write directory place wrote).1
    rw [slotOf_stored some small] at table
    refine ⟨D', directory_write directory place wrote ?_, entries_write entries (directory.clean.volume.here directory.holds) wrote inside, table⟩
    rw [slotOf_stored some small]
    exact SlotTable.distinct_insert directory.distinct found

theorem unlink_step {name : Xv6Fs.Bytes} (directory : Directory sb s D k i) (entries : Entries sb s D)
    (run : Edit.run sb k (.unlink name) s = .ok ((), t)) : ∃ D', Directory sb t D' k i ∧ Entries sb t D' ∧
      names t.disk (D' i) = SlotTable.step (names s.disk (D i)) (.erase (key name)) := by
  have here := directory.clean.volume.here directory.holds
  obtain ⟨r,u,looked,rest⟩ := bind_ok run
  dsimp only [SlotTable.step]
  cases r with
  | none =>
    have found := missing_entry directory looked
    cases rest
    rw [found]
    rw [dirlookup_run directory.toFolder, found] at looked
    cases looked
    exact ⟨D,directory,entries,rfl⟩
  | some result =>
    obtain ⟨m,e⟩ := result
    obtain ⟨found,entry⟩ := found_entry directory looked
    have low := (entry_found found).1
    have place := Nat.le_of_lt low
    have known := entries i here directory.dir e (directory.inside low)
    rw [dirlookup_run directory.toFolder, found] at looked
    obtain ⟨l,v,got,same⟩ := bind_ok looked
    cases same
    have quiet := (wp_ok (iget_spec (E := fun _ => True) (fun _ _ _ => trivial) directory.clean 0 known) got).1
    have now := quiet_directory directory quiet (Multiset.zero_le _)
    obtain ⟨D',wrote⟩ := wp_ok (writeDirent_spec (E := fun _ => True) (fun _ _ _ => trivial) now.clean now.holds
      (place_small now place) trivial) rest
    have table := (names_write now place wrote).1
    rw [quiet.disk] at table
    rw [found]
    refine ⟨D', directory_write now place wrote ?_, entries_write (entries_disk entries quiet.disk) here wrote ?_, table⟩
    · exact SlotTable.distinct_erase now.distinct (by rw [names_length]; exact place)
    · exact Nat.lt_of_le_of_lt (Nat.zero_le _) sb.rootInside

/-- A sequence of insertions and removals. -/
theorem edits_map (directory : Directory sb s D k i) (entries : Entries sb s D) (edits : List Edit)
    (valid : ∀ edit ∈ edits, edit.Valid sb) (run : forM edits (Edit.run sb k) s = .ok ((), t)) :
    ∃ D', Directory sb t D' k i ∧ Entries sb t D' ∧ bindings t.disk (D' i) =
      edits.foldl (fun map edit => SlotTable.apply map edit.command) (bindings s.disk (D i)) := by
  induction edits generalizing s D with
  | nil =>
    cases run
    exact ⟨D,directory,entries,rfl⟩
  | cons edit rest ih =>
    rw [List.forM_cons] at run
    obtain ⟨_,u,first,later⟩ := bind_ok run
    have step : ∃ D', Directory sb u D' k i ∧ Entries sb u D' ∧
        names u.disk (D' i) = SlotTable.step (names s.disk (D i)) edit.command := by
      cases edit with
      | link name inum =>
        obtain ⟨some,small,inside⟩ := valid _ List.mem_cons_self
        obtain ⟨r,v,linked,same⟩ := bind_ok first
        cases same
        exact link_step directory entries some small inside linked
      | unlink name => exact unlink_step directory entries first
    obtain ⟨D',directoryU,entriesU,table⟩ := step
    obtain ⟨D'',directoryT,entriesT,map⟩ := ih directoryU entriesU (fun e member => valid e (List.mem_cons_of_mem _ member)) later
    refine ⟨D'', directoryT, entriesT, ?_⟩
    rw [map, List.foldl_cons]
    unfold bindings
    rw [table, (SlotTable.step_spec directory.distinct edit.command).2]

end Sequences

section Dot
open Xv6FsRuns Xv6FsSound

/-- The root directory names itself and a file. -/
def dots (b : Nat) : Block :=
  if b = 5 then overlay (overlay zeroes 0 DIRENT (Dirent.bytes ⟨ROOTINO, [46#8]⟩)) DIRENT DIRENT (Dirent.bytes ⟨2, [103#8]⟩)
  else plain b

theorem dots_wellFormed : WellFormed tiny dots := by
  have all : refs tiny dots (dinodeAt tiny dots) = {5, 6} := by decide
  refine ⟨owned_of_refs all (by decide) (by decide) (by decide), by decide +kernel, fun i here dir e inside => ?_⟩
  have table : ∀ i ∈ allocated tiny (dinodeAt tiny dots), (dinodeAt tiny dots i).type = T_DIR → i = 1 := by decide
  rw [table i here dir] at inside ⊢
  have size : (dinodeAt tiny dots 1).size.toNat = 32 := by decide +kernel
  rw [size] at inside
  have low : e < 2 := by
    unfold DIRENT DIRSIZ at inside
    omega
  have entries : ∀ e, e < 2 → (direntAt (content dots (dinodeAt tiny dots 1)) e).inum < tiny.ninodes := by decide
  exact entries e low

/-- The root directory is locked, as `dirlink` is called. -/
def rootLocked : Fs := ((ilock tiny rootSlot (boot dots)).toOption.get (by decide +kernel)).2

theorem rootLocked_directory : Directory tiny rootLocked (dinodeAt tiny dots) rootSlot 1 ∧ rootLocked.disk = dots := by
  have sound := (sound_start (boot_booted dots) dots_wellFormed).hold (k := rootSlot) (by decide)
  have run : ilock tiny rootSlot (boot dots) = .ok ((), rootLocked) := by
    cases done : ilock tiny rootSlot (boot dots) with
    | error e =>
      have ends : (ilock tiny rootSlot (boot dots)).toOption.isSome = true := by decide
      rw [done] at ends
      cases ends
    | ok result =>
      unfold rootLocked
      simp only [done]
      rfl
  have live := sound.held.live (Multiset.mem_singleton_self rootSlot)
  obtain ⟨quiet,valid⟩ := wp_ok (ilock_spec (E := fun _ => True) (fun _ _ _ => trivial) sound.clean live {rootSlot} (Or.inl trivial)) run
  have disk : rootLocked.disk = dots := quiet.disk
  refine ⟨⟨⟨quiet.clean, ⟨by decide, valid, by decide⟩, by decide, by decide⟩, ?_⟩, disk⟩
  have table : names dots (dinodeAt tiny dots 1) = [some ([46#8], 1), some ([103#8], 2)] := by decide
  rw [disk]
  change SlotTable.Distinct (names dots (dinodeAt tiny dots 1))
  rw [table]
  intro e f a v w first second
  rcases e with _ | _ | e <;> rcases f with _ | _ | f <;> simp at first second ⊢
  · cases first.1.trans second.1.symm
  · cases first.1.trans second.1.symm

/-- A name that is not there is added, and another one found. -/
theorem directory_map_root : FiniteMap tiny rootLocked (dinodeAt tiny dots) rootSlot 1 [97#8] 2 := by
  obtain ⟨directory,disk⟩ := rootLocked_directory
  have missing : bindings dots (dinodeAt tiny dots 1) (key [97#8]) = none := by decide +kernel
  refine (directory_map directory (by decide) (by decide) (by decide)).mpr ⟨fun j l bound _ => ?_, fun _ _ => ?_⟩
  · rw [disk, missing] at bound
    cases bound
  · have none : growth (dinodeAt tiny dots 1) = 0 := by decide
    rw [none]
    exact Nat.zero_le _

/-- `link("/g", "/.")` waits for the lock of the root directory, which it has. -/
theorem dot_hangs : (Directory tiny rootLocked (dinodeAt tiny dots) rootSlot 1 ∧ (dinodeAt tiny dots 1).size.toNat < MAXFILE * BSIZE ∧
    ¬ FiniteMap tiny rootLocked (dinodeAt tiny dots) rootSlot 1 [46#8] 2) ∧
    sysLink tiny rootSlot [47#8, 103#8] [47#8, 46#8] (boot dots) = .error .hang := by
  obtain ⟨directory,disk⟩ := rootLocked_directory
  have found : SlotTable.find (names rootLocked.disk (dinodeAt tiny dots 1)) (key [46#8]) = some 0 := by
    rw [disk]
    decide
  have entry : entryFor rootLocked (direntAt (content rootLocked.disk (dinodeAt tiny dots 1)) 0).inum = some rootSlot := by
    decide
  refine ⟨⟨directory, by decide, fun map => ?_⟩, ?_⟩
  · have looked : dirlookup tiny rootSlot [46#8] rootLocked =
        .ok (some (rootSlot, 0), taken rootLocked rootSlot (direntAt (content rootLocked.disk (dinodeAt tiny dots 1)) 0).inum) := by
      rw [dirlookup_run directory.toFolder, found]
      exact bind_run (iget_taken entry)
    obtain ⟨u,run,_⟩ := map.refused rootSlot 0 _ looked
    cases run.symm.trans ((dirlink_refused directory found entry).1 (by decide +kernel))
  · have stops : (match sysLink tiny rootSlot [47#8, 103#8] [47#8, 46#8] (boot dots) with
        | .error e => e
        | .ok _ => .ilock) = .hang := by decide +kernel
    cases run : sysLink tiny rootSlot [47#8, 103#8] [47#8, 46#8] (boot dots) with
    | error e =>
      rw [run] at stops
      exact congrArg _ stops
    | ok r =>
      rw [run] at stops
      cases stops

end Dot
end Xv6FsNames
