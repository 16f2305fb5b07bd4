import KernelLabs.Xv6.FsCalls
import KernelLabs.Xv6.FsSlots

/-!
A directory as the list of its entries: what `dirlookup` finds, and what `dirlink` and
`unlink` make of it.
-/
namespace Xv6FsDirs
open Xv6Fs Xv6FsDisk Xv6FsOwn Xv6FsVolume Xv6FsFile Xv6FsSlots Bytes Wp

/-- Entry `e` of a directory with these bytes. -/
def direntAt (bytes : Nat → BitVec 8) (e : Nat) : Dirent :=
  ⟨field bytes (DIRENT * e) 2, (List.range DIRSIZ).map fun j => bytes (DIRENT * e + 2 + j)⟩

/-- Every entry of every directory is free or names an inode of the table. -/
def Entries (sb : Superblock) (s : Fs) (D : Nat → Dinode) : Prop :=
  ∀ i ∈ allocated sb D, (D i).type = T_DIR → ∀ e, DIRENT * e + DIRENT ≤ (D i).size.toNat →
    (direntAt (content s.disk (D i)) e).inum < sb.ninodes

/-- The offset of entry `e` is a 32-bit number. -/
def Addressable (e : Nat) : Prop := DIRENT * e < 2 ^ 32

section Reading
variable {sb : Superblock} {s : Fs} {D : Nat → Dinode} {h : Multiset Slot} {k : Slot} {i : Nat} {d : Dinode}
  {E : Panic → Prop}

theorem read_bytes (bytes : Nat → BitVec 8) (e : Nat) :
    Dirent.read ((List.range DIRENT).map fun q => bytes (DIRENT * e + q)) = direntAt bytes e := by
  rfl

theorem readDirent_spec {panic : Panic} {Q : Dirent → Fs → Prop} {e : Nat} (copy : (s.icache k).d = d)
    (mapped : Mapped s.disk d (nblocks d)) (small : Addressable e) (bad : E panic)
    (holds : DIRENT * e + DIRENT ≤ d.size.toNat → Q (direntAt (content s.disk d) e) s) :
    wp E (readDirent sb k e panic) s Q := by
  unfold readDirent
  rw [wp_bind]
  apply readi_spec copy mapped
  have start : (UInt32.ofNat (DIRENT * e)).toNat = DIRENT * e := UInt32.toNat_ofNat_of_lt' small
  have size : (UInt32.ofNat DIRENT).toNat = DIRENT := rfl
  unfold readOf
  by_cases device : d.type = T_DEV
  · rw [if_pos device]
    exact bad
  · rw [if_neg device]
    by_cases out : d.size < UInt32.ofNat (DIRENT * e) ∨
        UInt32.ofNat (DIRENT * e) + UInt32.ofNat DIRENT < UInt32.ofNat (DIRENT * e)
    · rw [if_pos out]
      exact bad
    · rw [if_neg out]
      dsimp only
      rw [List.length_map, List.length_range, start]
      rw [UInt32.lt_iff_toNat_lt, UInt32.lt_iff_toNat_lt, UInt32.toNat_add, start, size] at out
      have sizeLt := d.size.toNat_lt
      by_cases whole : (if d.size < UInt32.ofNat (DIRENT * e) + UInt32.ofNat DIRENT then
          d.size - UInt32.ofNat (DIRENT * e) else UInt32.ofNat DIRENT).toNat = DIRENT
      · rw [if_pos whole, wp_pure, whole, read_bytes]
        apply holds
        split at whole
        · rw [UInt32.toNat_sub, start] at whole
          unfold DIRENT DIRSIZ at *
          omega
        · rename_i room
          rw [UInt32.lt_iff_toNat_lt, UInt32.toNat_add, start, size] at room
          unfold DIRENT DIRSIZ at *
          omega
      · rw [if_neg whole]
        exact bad

theorem count_small {e : Nat} (low : e < direntCount d) : Addressable e := by
  have sizeLt := d.size.toNat_lt
  unfold Addressable direntCount DIRENT DIRSIZ at *
  omega

/-- Entry `e` is in use and has the name. -/
def hit (bytes : Nat → BitVec 8) (name : Xv6Fs.Bytes) (e : Nat) : Bool :=
  decide ((direntAt bytes e).inum ≠ 0) && namecmp name (direntAt bytes e).name

/-- The first entry with the name. -/
def dirFind (bytes : Nat → BitVec 8) (d : Dinode) (name : Xv6Fs.Bytes) : Option Nat :=
  (List.range (direntCount d)).find? (hit bytes name)

theorem hit_iff {bytes : Nat → BitVec 8} {name : Xv6Fs.Bytes} {e : Nat} : hit bytes name e = true ↔
    (direntAt bytes e).inum ≠ 0 ∧ namecmp name (direntAt bytes e).name = true := by
  unfold hit
  rw [Bool.and_eq_true, decide_eq_true_eq]

theorem lookupLoop_spec {name : Xv6Fs.Bytes} (lax : Lax E) (clean : Clean sb s D) (entries : Entries sb s D)
    (h : Multiset Slot) (holds : Holds s k i) (dir : (D i).type = T_DIR) (l : List Nat)
    (small : ∀ e ∈ l, e < direntCount (D i)) :
    wp E (lookupLoop sb k name l) s fun r t => match l.find? (hit (content s.disk (D i)) name) with
      | none => r = none ∧ t = s
      | some e => ∃ m, r = some (m, e) ∧ Quiet sb s D h t (m ::ₘ h) ∧
          DIRENT * e + DIRENT ≤ (D i).size.toNat ∧
          (t.icache m).inum = (direntAt (content s.disk (D i)) e).inum := by
  have here := clean.volume.here holds
  induction l with
  | nil => exact ⟨rfl,rfl⟩
  | cons e rest ih =>
    have later := ih fun e' member => small e' (List.mem_cons_of_mem _ member)
    unfold lookupLoop
    rw [wp_bind]
    apply readDirent_spec (clean.volume.cached.copy k i holds) (clean.volume.mapped i here)
      (count_small (small e List.mem_cons_self)) (lax .dirlookupRead (by decide) (by decide))
    intro inside
    by_cases found : hit (content s.disk (D i)) name e = true
    · rw [List.find?_cons_of_pos found]
      obtain ⟨used,same⟩ := hit_iff.mp found
      rw [if_neg used, if_pos same, wp_bind]
      refine wp_mono (iget_spec lax clean h (entries i here dir e inside)) ?_
      rintro m t ⟨quiet,inum⟩
      exact ⟨m, rfl, quiet, inside, inum⟩
    · rw [List.find?_cons_of_neg found]
      by_cases free : (direntAt (content s.disk (D i)) e).inum = 0
      · rw [if_pos free]
        exact later
      · rw [if_neg free]
        have differs : ¬ namecmp name (direntAt (content s.disk (D i)) e).name = true :=
          fun same => found (hit_iff.mpr ⟨free,same⟩)
        rw [if_neg differs]
        exact later

theorem dirlookup_spec {name : Xv6Fs.Bytes} (lax : Lax E) (clean : Clean sb s D) (entries : Entries sb s D)
    (h : Multiset Slot) (holds : Holds s k i) :
    wp E (dirlookup sb k name) s fun r t => (D i).type = T_DIR ∧
      match dirFind (content s.disk (D i)) (D i) name with
      | none => r = none ∧ t = s
      | some e => ∃ m, r = some (m, e) ∧ Quiet sb s D h t (m ::ₘ h) ∧
          DIRENT * e + DIRENT ≤ (D i).size.toNat ∧
          (t.icache m).inum = (direntAt (content s.disk (D i)) e).inum := by
  unfold dirlookup
  rw [wp_bind, wp_get]
  dsimp only
  rw [clean.volume.cached.copy k i holds]
  by_cases dir : (D i).type = T_DIR
  · rw [if_neg (by simp [dir])]
    refine wp_mono (lookupLoop_spec lax clean entries h holds dir _ fun e member =>
      List.mem_range.mp member) ?_
    exact fun r t after => ⟨dir,after⟩
  · rw [if_pos dir]
    exact lax _ (by decide) (by decide)

theorem emptyLoop_spec {last : Nat} (lax : Lax E) (clean : Clean sb s D) (holds : Holds s k i) (l : List Nat)
    (small : ∀ e ∈ l, e < direntCount (D i)) : wp E (emptyLoop sb k last l) s fun e t => t = s ∧
      ((e ∈ l ∧ (direntAt (content s.disk (D i)) e).inum = 0) ∨ e = last) := by
  have here := clean.volume.here holds
  induction l with
  | nil => exact ⟨rfl, Or.inr rfl⟩
  | cons e rest ih =>
    unfold emptyLoop
    rw [wp_bind]
    apply readDirent_spec (clean.volume.cached.copy k i holds) (clean.volume.mapped i here)
      (count_small (small e List.mem_cons_self)) (lax .dirlinkRead (by decide) (by decide))
    intro _
    by_cases free : (direntAt (content s.disk (D i)) e).inum = 0
    · rw [if_pos free, wp_pure]
      exact ⟨rfl, Or.inl ⟨List.mem_cons_self,free⟩⟩
    · rw [if_neg free]
      refine wp_mono (ih fun e' member => small e' (List.mem_cons_of_mem _ member)) ?_
      rintro e' t ⟨same,found | last⟩
      · exact ⟨same, Or.inl ⟨List.mem_cons_of_mem _ found.1, found.2⟩⟩
      · exact ⟨same, Or.inr last⟩

theorem isdirempty_spec (lax : Lax E) (clean : Clean sb s D) (holds : Holds s k i) :
    wp E (isdirempty sb k) s fun r t => t = s ∧ (r = true → ∀ e, 2 ≤ e → e < direntCount (D i) →
      (direntAt (content s.disk (D i)) e).inum = 0) := by
  have here := clean.volume.here holds
  have loop : ∀ l : List Nat, (∀ e ∈ l, e < direntCount (D i)) → wp E (isdiremptyLoop sb k l) s fun r t =>
      t = s ∧ (r = true → ∀ e ∈ l, (direntAt (content s.disk (D i)) e).inum = 0) := by
    intro l small
    induction l with
    | nil => exact ⟨rfl, fun _ e member => absurd member List.not_mem_nil⟩
    | cons e rest ih =>
      unfold isdiremptyLoop
      rw [wp_bind]
      apply readDirent_spec (clean.volume.cached.copy k i holds) (clean.volume.mapped i here)
        (count_small (small e List.mem_cons_self)) (lax .isdiremptyReadi (by decide) (by decide))
      intro _
      by_cases free : (direntAt (content s.disk (D i)) e).inum = 0
      · rw [if_neg (by simp [free])]
        refine wp_mono (ih fun e' member => small e' (List.mem_cons_of_mem _ member)) ?_
        rintro r t ⟨same,all⟩
        refine ⟨same, fun yes e' member => ?_⟩
        rcases List.mem_cons.mp member with eq | old
        · rw [eq]
          exact free
        · exact all yes e' old
      · rw [if_pos free]
        exact ⟨rfl, fun yes => by simp at yes⟩
  unfold isdirempty
  rw [wp_bind, wp_get, clean.volume.cached.copy k i holds]
  refine wp_mono (loop _ fun e member => List.mem_range.mp (List.mem_of_mem_drop member)) ?_
  rintro r t ⟨same,all⟩
  refine ⟨same, fun yes e low high => all yes e ?_⟩
  rw [List.mem_drop_iff_getElem]
  exact ⟨e - 2, by simp; omega, by simp; omega⟩

end Reading

/-- The entry as it is stored: a 16-bit number and a name of `DIRSIZ` characters. -/
def stored (de : Dirent) : Dirent := ⟨de.inum % 2 ^ 16, (List.range DIRSIZ).map fun j => de.name.getD j 0#8⟩

section Writing
variable {sb : Superblock} {s t : Fs} {D D' : Nat → Dinode} {h : Multiset Slot} {k : Slot} {i e : Nat}
  {de : Dirent} {E : Panic → Prop}

theorem direntAt_congr {b c : Nat → BitVec 8} {e e' : Nat}
    (same : ∀ q, q < DIRENT → b (DIRENT * e + q) = c (DIRENT * e' + q)) : direntAt b e = direntAt c e' := by
  have number : field b (DIRENT * e) 2 = field c (DIRENT * e') 2 := by
    apply field_congr
    intro j low
    exact same j (Nat.lt_of_lt_of_le low (by decide))
  have name : (List.range DIRSIZ).map (fun j => b (DIRENT * e + 2 + j)) =
      (List.range DIRSIZ).map fun j => c (DIRENT * e' + 2 + j) := by
    apply List.map_congr_left
    intro j member
    have low := List.mem_range.mp member
    rw [Nat.add_assoc, Nat.add_assoc]
    apply same
    unfold DIRENT
    omega
  unfold direntAt
  rw [number, name]

theorem direntAt_bytes (de : Dirent) : direntAt de.bytes 0 = stored de := by
  have number : field de.bytes (DIRENT * 0) 2 = de.inum % 2 ^ 16 := by
    have bytes : field de.bytes (DIRENT * 0) 2 = field (byteOf de.inum) 0 2 := by
      apply field_congr
      intro j low
      rw [Nat.mul_zero, Nat.zero_add]
      unfold Dirent.bytes
      rw [if_pos low]
    rw [bytes, field_byteOf]
    rfl
  have name : (List.range DIRSIZ).map (fun j => de.bytes (DIRENT * 0 + 2 + j)) =
      (List.range DIRSIZ).map fun j => de.name.getD j 0#8 := by
    apply List.map_congr_left
    intro j _
    unfold Dirent.bytes
    rw [if_neg (by omega), show DIRENT * 0 + 2 + j - 2 = j by omega]
  unfold direntAt stored
  rw [number, name]

/-- Writing entry `e` changes no other entry. -/
theorem direntAt_write (wrote : WroteFile sb i s D (DIRENT * e) DIRENT de.bytes t D') {e' : Nat}
    (inside : DIRENT * e' + DIRENT ≤ (D' i).size.toNat) : direntAt (content t.disk (D' i)) e' =
      if e' = e then stored de else direntAt (content s.disk (D i)) e' := by
  have size := wrote.size
  have start := wrote.start
  by_cases same : e' = e
  · rw [if_pos same, same, ← direntAt_bytes]
    apply direntAt_congr
    intro q low
    rw [wrote.new q low, Nat.mul_zero, Nat.zero_add]
  · rw [if_neg same]
    apply direntAt_congr
    intro q low
    apply wrote.rest
    · unfold DIRENT DIRSIZ at *
      omega
    · unfold DIRENT DIRSIZ at *
      omega

theorem writeDirent_spec {panic : Panic} (lax : Lax E) (clean : Clean sb s D) (holds : Holds s k i)
    (small : Addressable e) (bad : E panic) : wp E (writeDirent sb k e de panic) s fun _ t =>
      ∃ D', WroteFile sb i s D (DIRENT * e) DIRENT de.bytes t D' := by
  unfold writeDirent
  rw [wp_bind]
  refine wp_mono (writei_spec lax clean holds) ?_
  rintro r t (⟨rfl,rfl⟩ | ⟨rfl,D',wrote⟩)
  · rw [if_neg (by simp)]
    exact bad
  · rw [if_pos rfl, wp_pure]
    rw [UInt32.toNat_ofNat_of_lt' small] at wrote
    exact ⟨D',wrote⟩

/-- `dirlink` writes a free entry or a new one at the end, if the name is not there. -/
theorem dirlink_spec {name : Xv6Fs.Bytes} {inum : Nat} {Q : Bool → Fs → Prop} (lax : Lax E)
    (clean : Clean sb s D) (entries : Entries sb s D) (h : Multiset Slot) (holds : Holds s k i)
    (refused : ∀ e m t, dirFind (content s.disk (D i)) (D i) name = some e → Quiet sb s D h t (m ::ₘ h) →
      (t.icache m).inum = (direntAt (content s.disk (D i)) e).inum →
      DIRENT * e + DIRENT ≤ (D i).size.toNat → wp E (iput sb m) t fun _ u => Q false u)
    (made : ∀ e t D', (D i).type = T_DIR → dirFind (content s.disk (D i)) (D i) name = none →
      (e < direntCount (D i) ∧ (direntAt (content s.disk (D i)) e).inum = 0 ∨ e = direntCount (D i)) →
      WroteFile sb i s D (DIRENT * e) DIRENT (Dirent.bytes ⟨inum, name⟩) t D' → Q true t) :
    wp E (dirlink sb k name inum) s Q := by
  unfold dirlink
  rw [wp_bind]
  refine wp_mono (dirlookup_spec lax clean entries h holds) ?_
  rintro r t ⟨dir,after⟩
  split at after
  · rename_i missing
    obtain ⟨rfl,rfl⟩ := after
    dsimp only
    rw [wp_bind, wp_get, clean.volume.cached.copy k _ holds, wp_bind]
    refine wp_mono (emptyLoop_spec lax clean holds _ fun e low => List.mem_range.mp low) ?_
    rintro e u ⟨rfl,place⟩
    rw [wp_bind]
    have small : Addressable e := by
      rcases place with ⟨low,_⟩ | rfl
      · exact count_small (List.mem_range.mp low)
      · have most := (clean.volume.mapped _ (clean.volume.here holds)).1
        unfold nblocks MAXFILE NDIRECT NINDIRECT BSIZE at most
        unfold Addressable direntCount DIRENT DIRSIZ
        omega
    refine wp_mono (writeDirent_spec lax clean holds small (lax _ (by decide) (by decide))) ?_
    rintro _ v ⟨D',wrote⟩
    refine made e v D' dir missing ?_ wrote
    rcases place with ⟨low,free⟩ | last
    · exact Or.inl ⟨List.mem_range.mp low, free⟩
    · exact Or.inr last
  · rename_i e found
    obtain ⟨m,rfl,quiet,inside,same⟩ := after
    dsimp only
    rw [wp_bind]
    exact refused e m t found quiet same inside

/-- Entries of the files that are not touched. -/
theorem entries_other (entries : Entries sb s D) (others : OtherFiles sb i s D t D')
    (mine : i ∈ allocated sb D' → (D' i).type = T_DIR → ∀ e, DIRENT * e + DIRENT ≤ (D' i).size.toNat →
      (direntAt (content t.disk (D' i)) e).inum < sb.ninodes) : Entries sb t D' := by
  intro j there dir e inside
  by_cases eq : j = i
  · subst eq
    exact mine there dir e inside
  · have table := others.table j eq
    rw [mem_allocated, table] at there
    rw [table] at dir inside ⊢
    have same : direntAt (content t.disk (D j)) e = direntAt (content s.disk (D j)) e := by
      apply direntAt_congr
      intro q low
      exact others.bytes j (mem_allocated.mpr there) eq _ (by omega)
    rw [same]
    exact entries j (mem_allocated.mpr there) dir e inside

theorem entries_write (entries : Entries sb s D) (here : i ∈ allocated sb D)
    (wrote : WroteFile sb i s D (DIRENT * e) DIRENT de.bytes t D') (small : de.inum < sb.ninodes) :
    Entries sb t D' := by
  apply entries_other entries wrote.others
  intro _ dir e' inside
  rw [direntAt_write wrote inside]
  split
  · exact Nat.lt_of_le_of_lt (Nat.mod_le _ _) small
  · rename_i other
    have type : (D' i).type = (D i).type := by
      rw [wrote.fields]
    apply entries i here (type.symm.trans dir)
    have size := wrote.size
    have start := wrote.start
    unfold DIRENT DIRSIZ at *
    omega

end Writing
end Xv6FsDirs
