import Mathlib.Data.List.TakeWhile
import KernelLabs.Xv6.FsDirs
import KernelLabs.Xv6.MkfsImage

/-!
The kernel on an image of `mkfs`: `dirlookup` in the root directory finds the inode of each file
and `readi` returns its bytes, without a change to the disk. The size of the root directory is
rounded up by a whole block when it is a multiple of the block size, and then its last block
does not exist.
-/
namespace Xv6Mkfs
open Xv6Fs Xv6FsDisk Xv6FsOwn Xv6FsVolume Xv6FsFile Xv6FsSlots Xv6FsDirs Xv6FsLayout Bytes Wp

section Reading
variable {sb : Superblock} {s : Fs} {d : Dinode} {k : Slot} {E : Panic → Prop}

theorem readDirent_inside {panic : Panic} {Q : Dirent → Fs → Prop} {e : Nat} (copy : (s.icache k).d = d)
    (mapped : Mapped s.disk d (Xv6FsFile.nblocks d)) (file : d.type ≠ T_DEV) (inside : DIRENT * e + DIRENT ≤ d.size.toNat)
    (holds : Q (direntAt (content s.disk d) e) s) : wp E (readDirent sb k e panic) s Q := by
  have sizeLt := d.size.toNat_lt
  have start : (UInt32.ofNat (DIRENT * e)).toNat = DIRENT * e := UInt32.toNat_ofNat_of_lt' (by
    change _ < 4294967296
    unfold DIRENT DIRSIZ at *
    omega)
  have size : (UInt32.ofNat DIRENT).toNat = DIRENT := rfl
  have past : (UInt32.ofNat (DIRENT * e) + UInt32.ofNat DIRENT).toNat = DIRENT * e + DIRENT := by
    rw [UInt32.toNat_add, start, size]
    exact Nat.mod_eq_of_lt (Nat.lt_of_le_of_lt inside sizeLt)
  unfold readDirent
  rw [wp_bind]
  apply readi_spec copy mapped
  unfold readOf
  rw [if_neg file, if_neg (by
    rw [UInt32.lt_iff_toNat_lt, UInt32.lt_iff_toNat_lt, past, start]
    omega), if_neg (by
    rw [UInt32.lt_iff_toNat_lt, past]
    omega)]
  dsimp only
  rw [List.length_map, List.length_range, start, size, if_pos rfl, wp_pure, read_bytes]
  exact holds

/-- The first entry with the name is the one that `dirlookup` takes. -/
theorem lookupLoop_first {name : Xv6Fs.Bytes} {Q : Option (Slot × Nat) → Fs → Prop} (copy : (s.icache k).d = d)
    (mapped : Mapped s.disk d (Xv6FsFile.nblocks d)) (file : d.type ≠ T_DEV) (pre : List Nat) {e : Nat} (post : List Nat)
    (inside : ∀ x ∈ pre, DIRENT * x + DIRENT ≤ d.size.toNat) (last : DIRENT * e + DIRENT ≤ d.size.toNat)
    (misses : ∀ x ∈ pre, hit (content s.disk d) name x = false) (found : hit (content s.disk d) name e = true)
    (after : wp E (iget (direntAt (content s.disk d) e).inum) s fun m t => Q (some (m, e)) t) :
    wp E (lookupLoop sb k name (pre ++ e :: post)) s Q := by
  induction pre with
  | nil =>
    obtain ⟨used,same⟩ := hit_iff.mp found
    rw [List.nil_append]
    unfold lookupLoop
    rw [wp_bind]
    apply readDirent_inside copy mapped file last
    rw [if_neg used, if_pos same, wp_bind]
    exact after
  | cons x rest ih =>
    have later := ih (fun y member => inside y (List.mem_cons_of_mem _ member))
      fun y member => misses y (List.mem_cons_of_mem _ member)
    rw [List.cons_append]
    unfold lookupLoop
    rw [wp_bind]
    apply readDirent_inside copy mapped file (inside x List.mem_cons_self)
    have miss := misses x List.mem_cons_self
    by_cases free : (direntAt (content s.disk d) x).inum = 0
    · rw [if_pos free]
      exact later
    · rw [if_neg free, if_neg]
      · exact later
      · intro same
        rw [hit_iff.mpr ⟨free,same⟩] at miss
        simp at miss

theorem iget_new {inum : Nat} {Q : Slot → Fs → Prop} (absent : ∀ k, 0 < (s.icache k).ref → (s.icache k).inum ≠ inum)
    (spare : Slot) (free : (s.icache spare).ref = 0)
    (after : ∀ k, (s.icache k).ref = 0 → Q k { s with
      icache := Function.update s.icache k { s.icache k with inum := inum, ref := 1, valid := false } }) :
    wp E (iget inum) s Q := by
  unfold iget
  rw [wp_bind, wp_get]
  have miss : findSlot s (fun ip => decide (0 < ip.ref) && ip.inum == inum) = none := by
    refine List.find?_eq_none.mpr fun k _ => ?_
    simp only [Bool.and_eq_true, decide_eq_true_eq, beq_iff_eq, not_and]
    exact absent k
  rw [miss]
  dsimp only
  cases found : findSlot s (fun ip => ip.ref == 0) with
  | none =>
    have busy := findSlot_none found spare
    simp [free] at busy
  | some k =>
    have unused := findSlot_some found
    dsimp only
    rw [wp_bind]
    exact after k (by simpa using unused)

theorem ilock_new {Q : Unit → Fs → Prop} (live : (s.icache k).ref = 1) (open' : (s.icache k).locked = false)
    (stale : (s.icache k).valid = false) (typed : (dinodeAt sb s.disk (s.icache k).inum).type ≠ 0)
    (after : Q () { s with icache := Function.update s.icache k { s.icache k with
      locked := true, valid := true, d := dinodeAt sb s.disk (s.icache k).inum } }) : wp E (ilock sb k) s Q := by
  unfold ilock
  rw [wp_bind, wp_get]
  dsimp only
  rw [if_neg (by omega), if_neg (by simp [open']), if_neg (by simp [stale]), wp_bind]
  refine wp_setInode ?_
  rw [if_neg typed, wp_pure]
  exact after

end Reading

section Names

theorem flatten_getD {L : List Xv6Fs.Bytes} {w : Nat} (width : ∀ c ∈ L, c.length = w) {e q : Nat} {c : Xv6Fs.Bytes}
    (here : L[e]? = some c) (low : q < w) : L.flatten.getD (w * e + q) 0#8 = c.getD q 0#8 := by
  induction L generalizing e with
  | nil => simp at here
  | cons first rest ih =>
    have size := width first List.mem_cons_self
    rw [List.flatten_cons]
    cases e with
    | zero =>
      simp only [List.getElem?_cons_zero, Option.some.injEq] at here
      rw [Nat.mul_zero, Nat.zero_add, List.getD_append _ _ _ _ (by omega), here]
    | succ e =>
      rw [List.getElem?_cons_succ] at here
      have later := ih (fun d member => width d (List.mem_cons_of_mem _ member)) here
      rw [List.getD_append_right _ _ _ _ (by rw [size, Nat.mul_succ]; omega), size,
        show w * (e + 1) + q - w = w * e + q by rw [Nat.mul_succ]; omega]
      exact later

theorem range_split {e n : Nat} (low : e < n) : ∃ post, List.range n = List.range e ++ e :: post := by
  obtain ⟨m,rfl⟩ := Nat.exists_eq_add_of_lt low
  rw [Nat.add_assoc, List.range_add, List.range_succ_eq_map, List.map_cons, Nat.add_zero]
  exact ⟨_,rfl⟩

/-- The entries of the root directory. -/
def entryAt (files : List Input) : List Dirent :=
  ⟨ROOTINO, dot⟩ :: ⟨ROOTINO, dotdot⟩ :: files.mapIdx fun k f => ⟨k + 2, f.stored⟩

theorem entryList_eq (files : List Input) : entryList files = (entryAt files).map fun de => dirent de.inum de.name := by
  refine List.ext_getElem? fun e => ?_
  match e with
  | 0 => rfl
  | 1 => rfl
  | e + 2 => simp [entryList, entryAt, Function.comp_def]

theorem entryAt_length (files : List Input) : (entryAt files).length = files.length + 2 := by
  simp [entryAt]

theorem entryAt_file {files : List Input} {k : Nat} {f : Input} (found : files[k]? = some f) :
    (entryAt files)[k + 2]? = some ⟨k + 2, f.stored⟩ := by
  simp [entryAt, found]

theorem entry_bytes {files : List Input} {e q : Nat} {de : Dirent} (here : (entryAt files)[e]? = some de)
    (low : q < DIRENT) : (entries files).getD (DIRENT * e + q) 0#8 = de.bytes q := by
  have chunk : (entryList files)[e]? = some (dirent de.inum de.name) := by
    rw [entryList_eq, List.getElem?_map, here]
    rfl
  rw [entries, flatten_getD (fun c => entries_width) chunk low]
  simp [dirent, low]

/-- The stored form of a name, its first `DIRSIZ` characters and then NULs. -/
theorem padded (name : Xv6Fs.Bytes) : (List.range DIRSIZ).map (fun j => name.getD j 0#8) =
    name.take DIRSIZ ++ List.replicate (DIRSIZ - name.length) 0#8 := by
  refine List.ext_getElem (by simp; omega) fun j low _ => ?_
  simp only [List.length_map, List.length_range] at low
  rw [List.getElem_map, List.getElem_range, List.getElem_append]
  split
  · rename_i inside
    simp only [List.length_take] at inside
    rw [List.getElem_take, List.getD_eq_getElem _ _ (by omega)]
  · rename_i outside
    simp only [List.length_take] at outside
    rw [List.getElem_replicate, List.getD_eq_default _ _ (by omega)]

theorem takeWhile_word {l : Xv6Fs.Bytes} (word : 0#8 ∉ l) : l.takeWhile (· != 0#8) = l := by
  rw [List.takeWhile_eq_self_iff]
  intro x member
  simp only [bne_iff_ne]
  rintro rfl
  exact word member

/-- `namecmp` of a name with a stored one compares their first `DIRSIZ` characters. -/
theorem namecmp_stored {a b : Xv6Fs.Bytes} (left : 0#8 ∉ a) (right : 0#8 ∉ b) :
    namecmp a ((List.range DIRSIZ).map fun j => b.getD j 0#8) = true ↔ a.take DIRSIZ = b.take DIRSIZ := by
  have whole : (b.take DIRSIZ ++ List.replicate (DIRSIZ - b.length) 0#8).take DIRSIZ =
      b.take DIRSIZ ++ List.replicate (DIRSIZ - b.length) 0#8 := List.take_of_length_le (by simp; omega)
  have front : (b.take DIRSIZ ++ List.replicate (DIRSIZ - b.length) 0#8).takeWhile (· != 0#8) = b.take DIRSIZ := by
    rw [List.takeWhile_append_of_pos]
    · cases DIRSIZ - b.length <;> simp
    · intro x member
      simp only [bne_iff_ne]
      rintro rfl
      exact right (List.mem_of_mem_take member)
  unfold namecmp
  rw [padded, whole, front, takeWhile_word fun member => left (List.mem_of_mem_take member), beq_iff_eq]

theorem stored_word (f : Input) : 0#8 ∉ f.stored := by
  unfold Input.stored
  split
  · exact fun member => f.word (List.mem_of_mem_tail member)
  · exact f.word

theorem entry_word {files : List Input} {e : Nat} {de : Dirent} (here : (entryAt files)[e]? = some de) :
    0#8 ∉ de.name := by
  have member := List.mem_of_getElem? here
  simp only [entryAt, List.mem_cons, List.mem_mapIdx] at member
  rcases member with rfl | rfl | ⟨k,_,rfl⟩
  · decide
  · decide
  · exact stored_word _

/-- Two entries have different names. -/
theorem entry_names {files : List Input} (fits : Fits files) {e e' : Nat} {de de' : Dirent}
    (here : (entryAt files)[e]? = some de) (there : (entryAt files)[e']? = some de')
    (same : de.name.take DIRSIZ = de'.name.take DIRSIZ) : e = e' := by
  have names : (entryAt files).map (fun de => de.name.take DIRSIZ) =
      (dot :: dotdot :: files.map Input.stored).map (List.take DIRSIZ) := by
    refine List.ext_getElem? fun e => ?_
    match e with
    | 0 => rfl
    | 1 => rfl
    | e + 2 => simp [entryAt, Function.comp_def]
  have nodup := fits.names
  rw [← names] at nodup
  have low : e < ((entryAt files).map fun de => de.name.take DIRSIZ).length := by
    rw [List.length_map]
    exact (List.getElem?_eq_some_iff.mp here).1
  refine (List.getElem?_inj low nodup).mp ?_
  rw [List.getElem?_map, List.getElem?_map, here, there]
  simp [same]

end Names

section Kernel
variable {files : List Input} {img : Image} {D : Nat → Dinode} {F : Nat → Xv6Fs.Bytes} {E : Panic → Prop}

theorem Built.mem (built : Built files img D F) {j : Nat} : j ∈ allocated sb D ↔ j < sb.ninodes ∧ 1 ≤ j ∧ j < files.length + 2 := by
  rw [mem_allocated]
  constructor
  · rintro ⟨low,typed⟩
    rw [built.kinds j low] at typed
    exact ⟨low, kind_ne_zero.mp typed⟩
  · rintro ⟨low,typed⟩
    rw [built.kinds j low]
    exact ⟨low, kind_ne_zero.mpr typed⟩

theorem root_mem (built : Built files img D F) : ROOTINO ∈ allocated sb D :=
  built.mem.mpr ⟨by decide, by decide, by unfold ROOTINO; omega⟩

/-- The root directory has as many blocks as its size says, unless its entries fill their last
    block. -/
theorem root_blocks (built : Built files img D F) :
    Xv6FsFile.nblocks (D ROOTINO) = blocksFor (F ROOTINO).length ↔ (files.length + 2) % 32 ≠ 0 := by
  unfold Xv6FsFile.nblocks
  rw [built.rootSize, built.root, entries_length]
  unfold blocksFor DIRENT DIRSIZ BSIZE
  omega

theorem file_blocks (built : Built files img D F) {j : Nat} (there : j ∈ allocated sb D) (other : j ≠ ROOTINO) :
    Xv6FsFile.nblocks (D j) = blocksFor (F j).length := by
  unfold Xv6FsFile.nblocks blocksFor
  rw [built.sizes j there other]

theorem root_entry (built : Built files img D F) {e : Nat} {de : Dirent} (here : (entryAt files)[e]? = some de) :
    direntAt (content img.disk (D ROOTINO)) e = stored de := by
  have low := (List.getElem?_eq_some_iff.mp here).1
  rw [entryAt_length] at low
  rw [← direntAt_bytes]
  refine direntAt_congr fun q lowQ => ?_
  rw [built.laid.bytes ROOTINO (root_mem built) _ ?_, built.root, entry_bytes here lowQ, Nat.mul_zero, Nat.zero_add]
  rw [built.root, entries_length]
  unfold blocksFor DIRENT DIRSIZ BSIZE at *
  omega

/-- The name of a file is that of its own entry and of no other. -/
theorem root_hit (fits : Fits files) (built : Built files img D F) {k : Nat} {f : Input} (found : files[k]? = some f)
    {e : Nat} (low : e < files.length + 2) : hit (content img.disk (D ROOTINO)) f.stored e = true ↔ e = k + 2 := by
  have mine := entryAt_file found
  obtain ⟨de,here⟩ : ∃ de, (entryAt files)[e]? = some de :=
    ⟨_, List.getElem?_eq_getElem (by rw [entryAt_length]; exact low)⟩
  have inodes := fits.inodes
  rw [hit_iff, root_entry built here, stored, namecmp_stored (stored_word f) (entry_word here)]
  constructor
  · rintro ⟨_,same⟩
    exact entry_names fits here mine same.symm
  · rintro rfl
    rw [mine, Option.some.injEq] at here
    rw [← here]
    exact ⟨by dsimp only; omega, rfl⟩

theorem file_spec (built : Built files img D F) {k : Nat} {f : Input} (found : files[k]? = some f)
    (inodes : files.length + 1 ≤ 199) : k + 2 ∈ allocated sb D ∧ (D (k + 2)).type = T_FILE ∧
      (D (k + 2)).size.toNat = f.bytes.length ∧
      (List.range f.bytes.length).map (fun o => content img.disk (D (k + 2)) o) = f.bytes := by
  have low := (List.getElem?_eq_some_iff.mp found).1
  have inside : k + 2 < sb.ninodes := by
    change k + 2 < 200
    omega
  have there : k + 2 ∈ allocated sb D := built.mem.mpr ⟨inside, by omega, by omega⟩
  have bytes := built.each k f found
  refine ⟨there, ?_, ?_, List.ext_getElem (by simp) fun o lowO _ => ?_⟩
  · rw [built.kinds _ inside]
    unfold kind ROOTINO
    rw [if_neg (by omega), if_neg (by omega)]
  · rw [built.sizes _ there (by unfold ROOTINO; omega), bytes]
  · simp only [List.length_map, List.length_range] at lowO
    rw [List.getElem_map, List.getElem_range, built.laid.bytes _ there o ?_, bytes, List.getD_eq_getElem _ _ lowO]
    rw [bytes]
    unfold blocksFor BSIZE
    omega

/-- `dirlookup` in the root directory gets to the entry of the file. -/
theorem dirlookup_file (fits : Fits files) (built : Built files img D F) (whole : (files.length + 2) % 32 ≠ 0) {k : Nat}
    {f : Input} (found : files[k]? = some f) {s : Fs} {dp : Slot} (disk : s.disk = img.disk)
    (copy : (s.icache dp).d = D ROOTINO) {Q : Option (Slot × Nat) → Fs → Prop}
    (after : wp E (iget (k + 2)) s fun m t => Q (some (m, k + 2)) t) : wp E (dirlookup sb dp f.stored) s Q := by
  have inodes := fits.inodes
  have low := (List.getElem?_eq_some_iff.mp found).1
  have type : (D ROOTINO).type = T_DIR := by
    rw [built.kinds _ (by decide)]
    unfold kind ROOTINO
    rw [if_neg (by omega), if_pos rfl]
  have mapped : Mapped s.disk (D ROOTINO) (Xv6FsFile.nblocks (D ROOTINO)) := by
    rw [disk, (root_blocks built).mpr whole]
    exact built.laid.mapped _ (root_mem built)
  have size := built.rootSize
  rw [entries_length] at size
  have room : ∀ e, e < files.length + 2 → DIRENT * e + DIRENT ≤ (D ROOTINO).size.toNat := by
    intro e lowE
    rw [size]
    unfold DIRENT DIRSIZ BSIZE
    omega
  have count : k + 2 < direntCount (D ROOTINO) := by
    have last := room (k + 2) (by omega)
    unfold direntCount DIRENT DIRSIZ at *
    omega
  obtain ⟨post,split⟩ := range_split count
  unfold dirlookup
  rw [wp_bind, wp_get]
  dsimp only
  rw [copy, if_neg (by simp [type]), split]
  refine lookupLoop_first copy mapped (by rw [type]; decide) _ _
    (fun e member => room e (by have := List.mem_range.mp member; omega)) (room _ (by omega)) (fun e member => ?_) ?_ ?_
  · have before := List.mem_range.mp member
    rw [disk, Bool.eq_false_iff]
    intro hits
    have := (root_hit fits built found (by omega)).mp hits
    omega
  · rw [disk]
    exact (root_hit fits built found (by omega)).mpr rfl
  · have number : (stored ⟨k + 2, f.stored⟩).inum = k + 2 := by
      unfold stored
      dsimp only
      omega
    rw [disk, root_entry built (entryAt_file found), number]
    exact after

/-- `ilock` and `readi` of the file. -/
theorem read_file (fits : Fits files) (built : Built files img D F) {k : Nat} {f : Input} (found : files[k]? = some f)
    {s : Fs} {m : Slot} (disk : s.disk = img.disk) {d : Dinode} (slot : s.icache m = ⟨k + 2, 1, false, false, d⟩)
    {Q : Option Xv6Fs.Bytes → Fs → Prop} (after : ∀ t, t.disk = s.disk → t.written = s.written → Q (some f.bytes) t) :
    wp E (do ilock sb m; let s ← get; readi sb m 0 (s.icache m).d.size) s Q := by
  obtain ⟨there,type,size,bytes⟩ := file_spec built found fits.inodes
  have read : dinodeAt sb s.disk (s.icache m).inum = D (k + 2) := by
    rw [disk, slot]
    exact built.disk _ (mem_allocated.mp there).1
  rw [wp_bind]
  refine ilock_new (by rw [slot]) (by rw [slot]) (by rw [slot]) (by rw [read, type]; decide) ?_
  rw [read]
  generalize change : ({ s with icache := Function.update s.icache m { s.icache m with
    locked := true, valid := true, d := D (k + 2) } } : Fs) = t
  have same : t.disk = s.disk ∧ t.written = s.written := by
    rw [← change]
    exact ⟨rfl,rfl⟩
  have copy : (t.icache m).d = D (k + 2) := by
    rw [← change]
    simp
  rw [wp_bind, wp_get, copy]
  refine readi_spec copy ?_ ?_
  · rw [same.1, disk, file_blocks built there (by unfold ROOTINO; omega)]
    exact built.laid.mapped _ there
  · have all : readOf (D (k + 2)) (content t.disk (D (k + 2))) 0 (D (k + 2)).size = some f.bytes := by
      unfold readOf
      rw [if_neg (by rw [type]; decide), if_neg (by simp), if_neg (by simp), size, same.1, disk]
      simpa using bytes
    rw [all]
    exact after t same.1 same.2

/-- After the kernel has locked the root inode. -/
def rootLocked (disk : Nat → Block) (dp : Slot) (d : Dinode) : Fs :=
  { booted disk with icache := Function.update (booted disk).icache dp ⟨ROOTINO, 1, true, true, d⟩ }

theorem root_locked {Q : Slot → Fs → Prop} (built : Built files img D F)
    (after : ∀ dp, Q dp (rootLocked img.disk dp (D ROOTINO))) :
    wp E (do let dp ← iget ROOTINO; ilock sb dp; return dp) (booted img.disk) Q := by
  have inside : ROOTINO < sb.ninodes := by decide
  have read : dinodeAt sb img.disk ROOTINO = D ROOTINO := built.disk _ inside
  rw [wp_bind]
  refine iget_new (fun _ busy => by simp [booted] at busy) ⟨0, by decide⟩ rfl fun dp _ => ?_
  rw [wp_bind]
  refine ilock_new (by simp) (by simp [booted]) (by simp) ?_ ?_
  · simp only [Function.update_self]
    change (dinodeAt sb img.disk ROOTINO).type ≠ 0
    rw [read]
    exact (mem_allocated.mp (root_mem built)).2
  · simp only [Function.update_self, Function.update_idem]
    rw [wp_pure]
    change Q dp (rootLocked img.disk dp (dinodeAt sb img.disk ROOTINO))
    rw [read]
    exact after dp

theorem lookupRead_spec (fits : Fits files) (built : Built files img D F) (whole : (files.length + 2) % 32 ≠ 0) {k : Nat}
    {f : Input} (found : files[k]? = some f) : wp E (lookupRead f.stored) (booted img.disk) fun r t =>
      r = some (some f.bytes) ∧ t.disk = img.disk ∧ t.written = 0 := by
  rw [lookupRead_eq, wp_bind]
  refine root_locked built fun dp => ?_
  have mine : (rootLocked img.disk dp (D ROOTINO)).icache dp = ⟨ROOTINO, 1, true, true, D ROOTINO⟩ := by
    simp [rootLocked]
  have others : ∀ l, l ≠ dp → (rootLocked img.disk dp (D ROOTINO)).icache l = ⟨0, 0, false, false, Dinode.zero⟩ := by
    intro l other
    simp [rootLocked, other, booted]
  obtain ⟨l,other⟩ : ∃ l : Slot, l ≠ dp := by
    by_cases first : dp = ⟨0, by decide⟩
    · exact ⟨⟨1, by decide⟩, by rw [first]; decide⟩
    · exact ⟨⟨0, by decide⟩, Ne.symm first⟩
  rw [wp_bind]
  refine dirlookup_file fits built whole found rfl (by rw [mine]) ?_
  refine iget_new (fun m busy => ?_) l (by rw [others l other]) fun m unused => ?_
  · by_cases same : m = dp
    · rw [same, mine]
      unfold ROOTINO
      dsimp only
      omega
    · rw [others m same] at busy
      simp at busy
  · have apart : m ≠ dp := by
      rintro rfl
      rw [mine] at unused
      simp at unused
    dsimp only
    rw [wp_bind]
    refine read_file fits built found rfl (d := Dinode.zero) ?_ fun t disk written => ?_
    · simp [others m apart]
    · rw [wp_pure]
      exact ⟨rfl,disk,written⟩

end Kernel

/-- The image is what the kernel takes it for: the superblock reads as it was meant, every inode
    has all blocks of its size, the bitmap marks the metadata and the blocks of the inodes, and
    looking up and reading a file gives its bytes and leaves the disk alone. -/
structure Agrees (files : List Input) (img : Image) : Prop where
  super : ∀ j, j < 7 → field (img.disk 1) (4 * j) 4 = superblock.getD j 0
  mapped : ∀ i, i < sb.ninodes → (img.rinode i).type ≠ 0 → ∀ bn, bn < Xv6FsFile.nblocks (img.rinode i) →
    addrAt img.disk (img.rinode i) bn ≠ 0
  bits : ∀ b, b < FSSIZE → (bit sb img.disk b = true ↔ b < nmeta ∨ b ∈ refs sb img.disk img.rinode)
  reads : ∀ f ∈ files, ∃ t, lookupRead f.stored (booted img.disk) = .ok (some (some f.bytes), t) ∧
    t.disk = img.disk ∧ t.written = 0

section Main
variable {files : List Input} {img : Image} {D : Nat → Dinode} {F : Nat → Xv6Fs.Bytes}

theorem built_mapped (built : Built files img D F) (whole : (files.length + 2) % 32 ≠ 0) {i : Nat} (low : i < sb.ninodes)
    (typed : (img.rinode i).type ≠ 0) {bn : Nat} (inside : bn < Xv6FsFile.nblocks (img.rinode i)) :
    addrAt img.disk (img.rinode i) bn ≠ 0 := by
  rw [built.disk i low] at typed inside ⊢
  have there : i ∈ allocated sb D := mem_allocated.mpr ⟨low,typed⟩
  refine (built.laid.addr there ?_).1
  by_cases root : i = ROOTINO
  · rw [root] at inside ⊢
    rwa [(root_blocks built).mpr whole] at inside
  · rwa [file_blocks built there root] at inside

/-- The entries fill their last block, and the size of the directory goes a block further. -/
theorem built_hole (fits : Fits files) (built : Built files img D F) (full : (files.length + 2) % 32 = 0) :
    ¬ Agrees files img := by
  intro agrees
  have root := root_mem built
  have read := built.disk ROOTINO (by decide)
  have inodes := fits.inodes
  have few : blocksFor (F ROOTINO).length < Xv6FsFile.nblocks (D ROOTINO) ∧ blocksFor (F ROOTINO).length < MAXFILE := by
    unfold Xv6FsFile.nblocks
    rw [built.rootSize, built.root, entries_length]
    unfold blocksFor DIRENT DIRSIZ MAXFILE NDIRECT NINDIRECT BSIZE
    omega
  have hole := agrees.mapped ROOTINO (by decide) (by rw [read]; exact (mem_allocated.mp root).2)
    (blocksFor (F ROOTINO).length) (by rw [read]; exact few.1)
  rw [read] at hole
  exact absurd (((built.laid.mapped ROOTINO root).2 _ few.2).mp hole) (Nat.lt_irrefl _)

theorem built_agrees (fits : Fits files) (built : Built files img D F) (whole : (files.length + 2) % 32 ≠ 0) :
    Agrees files img := by
  refine ⟨?_, fun i low typed bn inside => built_mapped built whole low typed inside, fun b low => ?_, fun f member => ?_⟩
  · rw [built.super]
    decide
  · rw [built.bit low, built.refs, Finset.mem_val, Finset.mem_Ico]
    have start := built.laid.start
    change b < img.freeblock ↔ b < nmeta ∨ nmeta ≤ b ∧ b < img.freeblock
    change nmeta ≤ img.freeblock at start
    omega
  · obtain ⟨k,found⟩ := List.mem_iff_getElem?.mp member
    obtain ⟨r,t,run,rfl,same⟩ := wp_total (lookupRead_spec fits built whole found)
    exact ⟨t,run,same⟩

/-- `mkfs` makes an image that the kernel agrees with, unless the entries of the root directory
    fill whole blocks. -/
theorem mkfs_agrees (fits : Fits files) :
    ∃ img, mkfs files = some img ∧ (Agrees files img ↔ (files.length + 2) % 32 ≠ 0) := by
  obtain ⟨img,D,F,run,built⟩ := mkfs_built fits
  refine ⟨img, run, fun agrees full => ?_, built_agrees fits built⟩
  exact built_hole fits built full agrees

/-- One file, `_cat` with three bytes. -/
def cat : Input where
  name := [95#8, 99#8, 97#8, 116#8]
  reads := [[1#8, 2#8, 3#8]]
  word := by decide
  chunks := by decide

theorem mkfs_agrees_cat : ∃ img, mkfs [cat] = some img ∧ Agrees [cat] img := by
  have fits : Fits [cat] := ⟨by decide, by decide, by decide, by decide, by decide⟩
  obtain ⟨img,run,agrees⟩ := mkfs_agrees fits
  exact ⟨img, run, agrees.mpr (by decide)⟩

/-- Thirty empty files with names of one letter. -/
def thirty : List Input :=
  (List.finRange 30).map fun k => ⟨[BitVec.ofNat 8 (65 + k.val)], [], by revert k; decide, by simp⟩

theorem root_hole : Fits thirty ∧ ∃ img, mkfs thirty = some img ∧ ¬ Agrees thirty img := by
  have fits : Fits thirty :=
    ⟨by decide, by decide, by decide, by decide, by decide⟩
  obtain ⟨img,D,F,run,built⟩ := mkfs_built fits
  exact ⟨fits, img, run, built_hole fits built (by decide)⟩

end Main
end Xv6Mkfs
