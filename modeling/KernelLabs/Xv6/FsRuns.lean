import KernelLabs.Xv6.FsSound

/-!
Runs of completed calls from an image on disk. Ownership of blocks and the absence of
holes depend on each other, and both on directories that name existing inodes.
-/
namespace Xv6FsRuns
open Xv6Fs Xv6FsDisk Xv6FsOwn Xv6FsVolume Xv6FsFile Xv6FsSlots Xv6FsDirs Xv6FsSound Bytes Wp Transition

/-- The cache after the first process got its current directory. -/
def Booted (s : Fs) : Prop := ∃ k, (s.icache k).inum = ROOTINO ∧ (s.icache k).ref = 1 ∧
  (∀ l, l ≠ k → (s.icache l).ref = 0) ∧ ∀ l, (s.icache l).valid = false ∧ (s.icache l).locked = false

/-- The calls, from images of a kind. -/
def system (sb : Superblock) (Image : (Nat → Block) → Prop) : System Fs Call where
  start s := Booted s ∧ Image s.disk
  next := next sb

/-- Every block number in an allocated inode is that of a data block and occurs once, and
    the bitmap marks these and the metadata blocks. -/
def Owned (sb : Superblock) (disk : Nat → Block) : Prop :=
  Bitmap sb disk (refs sb disk (dinodeAt sb disk))

/-- Every allocated inode has the blocks of its size. -/
def NoHoles (sb : Superblock) (disk : Nat → Block) : Prop :=
  ∀ i ∈ allocated sb (dinodeAt sb disk), Mapped disk (dinodeAt sb disk i) (nblocks (dinodeAt sb disk i))

/-- Directories name inodes of the table. -/
def DirsInside (sb : Superblock) (disk : Nat → Block) : Prop :=
  ∀ i ∈ allocated sb (dinodeAt sb disk), (dinodeAt sb disk i).type = T_DIR →
    ∀ e, DIRENT * e + DIRENT ≤ (dinodeAt sb disk i).size.toNat →
      (direntAt (content disk (dinodeAt sb disk i)) e).inum < sb.ninodes

/-- The disk inode is the copy in the cache. -/
def WriteThrough (sb : Superblock) (s : Fs) : Prop :=
  ∀ k, 0 < (s.icache k).ref → (s.icache k).valid = true → (s.icache k).d = dinodeAt sb s.disk (s.icache k).inum

structure WellFormed (sb : Superblock) (disk : Nat → Block) : Prop where
  owned : Owned sb disk
  noHoles : NoHoles sb disk
  dirs : DirsInside sb disk

section Runs
variable {sb : Superblock} {s t : Fs}

theorem sound_start (booted : Booted s) (image : WellFormed sb s.disk) :
    Sound sb s (dinodeAt sb s.disk) 0 := by
  obtain ⟨k,root,one,others,invalid⟩ := booted
  have only : ∀ l, 0 < (s.icache l).ref → l = k := by
    intro l live
    by_contra other
    have := others l other
    omega
  have none : ∀ l i, ¬ Holds s l i := by
    intro l i holds
    have valid := holds.valid
    rw [(invalid l).1] at valid
    simp at valid
  refine ⟨⟨⟨⟨fun l live => ?_, fun l m live live' _ => ?_, fun l i holds => absurd holds (none l i),
    fun l i holds => absurd holds (none l i)⟩, image.owned, image.noHoles⟩, fun _ _ => rfl⟩, image.dirs,
    fun l => Nat.zero_le _⟩
  · rw [only l live, root]
    exact sb.rootInside
  · rw [only l live, only m live']

theorem lax_safe : Lax fun e => e ≠ .freeingFreeBlock := fun _ safe _ => safe

theorem run_safe {call : Call} {D : Nat → Dinode} (sound : Sound sb s D 0)
    (live : 0 < (s.icache call.entry).ref) (typed : call.wellTyped s = true) :
    wp (fun e => e ≠ .freeingFreeBlock) (call.run sb) s fun _ t => ∃ D', Sound sb t D' 0 :=
  run_sound lax_safe (by decide) sound live typed

theorem next_sound {call : Call} {D : Nat → Dinode} (sound : Sound sb s D 0)
    (run : next sb s call = some t) : ∃ D', Sound sb t D' 0 := by
  unfold next at run
  split at run
  · rename_i allowed
    split at run
    · rename_i result
      simp only [Option.some.injEq] at run
      subst run
      exact wp_ok (run_safe sound allowed.1 allowed.2) result
    · simp at run
  · simp at run

theorem reach_sound (reach : (system sb (WellFormed sb)).Reach System.Free s) : ∃ D, Sound sb s D 0 := by
  refine System.reach_invariant (system sb (WellFormed sb)) (I := fun s => ∃ D, Sound sb s D 0) ?_ ?_ reach
  · exact fun s start => ⟨_, sound_start start.1 start.2⟩
  · rintro s call t ⟨D,sound⟩ _ run
    exact next_sound sound run

/-- At rest the table of inodes is the one on disk. -/
theorem table_of_sound {D : Nat → Dinode} (sound : Sound sb s D 0) :
    Sound sb s (dinodeAt sb s.disk) 0 := by
  have table : ∀ i, i < sb.ninodes → dinodeAt sb s.disk i = D i := sound.clean.synced
  have alloc : allocated sb (dinodeAt sb s.disk) = allocated sb D := by
    ext i
    rw [mem_allocated, mem_allocated]
    constructor
    · rintro ⟨low,type⟩
      rw [table i low] at type
      exact ⟨low,type⟩
    · rintro ⟨low,type⟩
      rw [← table i low] at type
      exact ⟨low,type⟩
  have same : ∀ i ∈ allocated sb D, dinodeAt sb s.disk i = D i :=
    fun i here => table i (mem_allocated.mp here).1
  have cached := sound.clean.volume.cached
  have inside : ∀ k i, Holds s k i → i < sb.ninodes := fun k i holds => holds.inum ▸ cached.inside k holds.live
  refine ⟨⟨⟨⟨cached.inside, cached.distinct, fun k i holds => ?_, fun k i holds => ?_⟩, ?_, fun i here => ?_⟩,
    fun _ _ => rfl⟩, fun i here dir e low => ?_, sound.held⟩
  · rw [table i (inside k i holds)]
    exact cached.copy k i holds
  · rw [table i (inside k i holds)]
    exact cached.typed k i holds
  · have total : refs sb s.disk (dinodeAt sb s.disk) = refs sb s.disk D := by
      unfold refs
      rw [alloc]
      exact Finset.sum_congr rfl fun i here => by rw [same i here]
    rw [total]
    exact sound.clean.volume.bitmap
  · rw [alloc] at here
    rw [same i here]
    exact sound.clean.volume.mapped i here
  · rw [alloc] at here
    rw [same i here] at dir low ⊢
    exact sound.entries i here dir e low

/-- `fileread` writes nothing. -/
theorem fileRead_silent {D : Nat → Dinode} {k : Slot} {off n : UInt32} (sound : Sound sb s D {k}) :
    wp (fun _ => True) (fileRead sb k off n) s fun _ t => t.disk = s.disk ∧ t.written = s.written := by
  have lax : Lax fun _ => True := fun _ _ _ => trivial
  have member : k ∈ ({k} : Multiset Slot) := Multiset.mem_singleton_self k
  unfold fileRead
  rw [wp_bind]
  refine wp_mono (ilock_spec lax sound.clean (sound.held.live member) {k} (Or.inl trivial)) ?_
  rintro _ t ⟨quiet,valid⟩
  have live := (quiet.held sound.held).live member
  have holds : Holds t k (t.icache k).inum := ⟨live, valid, rfl⟩
  rw [wp_bind]
  apply readi_spec (quiet.clean.volume.cached.copy k _ holds)
    (quiet.clean.volume.mapped _ (quiet.clean.volume.here holds))
  refine wp_mono (iunlock_spec lax quiet.clean live {k}) ?_
  intro _ u after
  exact ⟨after.disk.trans quiet.disk, after.written.trans quiet.written⟩

/-- From a well-formed image on, no file has a hole, the cache is write-through, `readi`
    changes nothing, and `fileread` never reaches `log_write`. -/
theorem no_holes (reach : (system sb (WellFormed sb)).Reach System.Free s) :
    NoHoles sb s.disk ∧ WriteThrough sb s ∧
    (∀ k, 0 < (s.icache k).ref → (s.icache k).valid = true → ∀ off n,
      ∃ r, readi sb k off n s = .ok (r, s)) ∧
    ∀ k, 0 < (s.icache k).ref → ∀ off n t, fileRead sb k off n s = .ok ((), t) →
      t.disk = s.disk ∧ t.written = s.written := by
  obtain ⟨D,sound⟩ := reach_sound reach
  have here := (table_of_sound sound).clean.volume
  refine ⟨here.mapped, fun k live valid => here.cached.copy k _ ⟨live,valid,rfl⟩,
    fun k live valid off n => ?_, fun k live off n t run => ?_⟩
  · have holds : Holds s k (s.icache k).inum := ⟨live,valid,rfl⟩
    have read : wp (fun _ => False) (readi sb k off n) s fun _ t => t = s :=
      readi_spec (here.cached.copy k _ holds) (here.mapped _ (here.here holds)) rfl
    unfold wp at read
    split at read
    · rename_i r t run
      exact ⟨r, by rw [run, read]⟩
    · exact absurd read id
  · have silent : wp (fun _ => True) (fileRead sb k off n) s fun _ t =>
        t.disk = s.disk ∧ t.written = s.written := fileRead_silent (sound.hold live)
    have result := wp_ok silent run
    exact result

end Runs

section Images

instance (disk : Nat → Block) (d : Dinode) (x : Nat) : Decidable (Mapped disk d x) :=
  inferInstanceAs (Decidable (x ≤ MAXFILE ∧ ∀ bn, bn < MAXFILE → (addrAt disk d bn ≠ 0 ↔ bn < x)))

instance (sb : Superblock) (disk : Nat → Block) : Decidable (NoHoles sb disk) :=
  inferInstanceAs (Decidable (∀ i ∈ allocated sb (dinodeAt sb disk),
    Mapped disk (dinodeAt sb disk i) (nblocks (dinodeAt sb disk i))))

/-- Three data blocks, 5 to 7, behind five metadata blocks. -/
def tiny : Superblock where
  size := 8
  ninodes := 8
  inodestart := 2
  bmapstart := 4
  inodesEnd := by decide
  rootInside := by decide
  addressable := by decide

def firstAddr (b : UInt32) : Fin (NDIRECT + 1) → UInt32 := fun a => if (a : Nat) = 0 then b else 0

def inodeTable (g : Dinode) (i : Nat) : Dinode :=
  if i = 1 then ⟨T_DIR, 0, 0, 1, 32, firstAddr 5⟩ else if i = 2 then g else Dinode.zero

/-- The root directory names inode `f` and, as `g`, inode 2. -/
def image (f : Nat) (g : Dinode) (bits : BitVec 8) (b : Nat) : Block :=
  if b = 2 then fun j => (inodeTable g (j / 64)).bytes (j % 64)
  else if b = 4 then Function.update zeroes 0 bits
  else if b = 5 then overlay (overlay zeroes 0 DIRENT (Dirent.bytes ⟨f, [102#8]⟩)) DIRENT DIRENT
    (Dirent.bytes ⟨2, [103#8]⟩)
  else zeroes

def rootSlot : Slot := ⟨0, by decide⟩

def fileSlot : Slot := ⟨1, by decide⟩

def boot (disk : Nat → Block) : Fs where
  disk := disk
  icache k := if k = rootSlot then ⟨ROOTINO, 1, false, false, Dinode.zero⟩
    else ⟨0, 0, false, false, Dinode.zero⟩
  written := 0

theorem boot_booted (disk : Nat → Block) : Booted (boot disk) := by
  refine ⟨rootSlot, by simp [boot], by simp [boot], fun l other => by simp [boot, other], fun l => ?_⟩
  unfold boot
  dsimp only
  split <;> exact ⟨rfl,rfl⟩

def openF : Call := .open rootSlot [47#8, 102#8] false true

def openG : Call := .open rootSlot [47#8, 103#8] false true

theorem owned_of_refs {disk : Nat → Block} {M : Multiset Nat}
    (all : refs tiny disk (dinodeAt tiny disk) = M) (nodup : M.Nodup)
    (data : ∀ b ∈ M, tiny.nmeta ≤ b ∧ b < tiny.size)
    (bits : ∀ b, b < 8 → (bit tiny disk b = true ↔ b < tiny.nmeta ∨ b ∈ M)) : Owned tiny disk := by
  unfold Owned
  rw [all]
  exact ⟨nodup,data,bits⟩

/-- A file of one block, and nothing wrong. -/
def plain : Nat → Block := image 2 ⟨T_FILE, 0, 0, 2, 512, firstAddr 6⟩ 0x7F#8

theorem plain_wellFormed : WellFormed tiny plain := by
  have all : refs tiny plain (dinodeAt tiny plain) = {5, 6} := by decide
  refine ⟨owned_of_refs all (by decide) (by decide) (by decide), by decide +kernel,
    fun i here dir e inside => ?_⟩
  have table : ∀ i ∈ allocated tiny (dinodeAt tiny plain), (dinodeAt tiny plain i).type = T_DIR →
      i = 1 := by decide
  rw [table i here dir] at inside ⊢
  have size : (dinodeAt tiny plain 1).size.toNat = 32 := by decide
  rw [size] at inside
  have low : e < 2 := by
    unfold DIRENT DIRSIZ at inside
    omega
  have entries : ∀ e, e < 2 → (direntAt (content plain (dinodeAt tiny plain 1)) e).inum < tiny.ninodes := by
    decide
  exact entries e low

/-- The file has been opened and has grown by a block. -/
def extended : Fs := (System.exec (next tiny) (boot plain)
  [openG, .write fileSlot (fun _ => 1#8) 512 1]).get (by decide +kernel)

theorem extended_reach : (system tiny (WellFormed tiny)).Reach System.Free extended := by
  have run : System.exec (next tiny) (boot plain) [openG, .write fileSlot (fun _ => 1#8) 512 1] =
      some extended := by
    simp only [extended, Option.some_get]
  exact System.exec_reach _ (fun _ _ _ => trivial) (.start ⟨boot_booted plain, plain_wellFormed⟩) run

theorem no_holes_extended : (system tiny (WellFormed tiny)).Reach System.Free extended ∧
    (extended.icache fileSlot).d.size = 513 ∧ NoHoles tiny extended.disk :=
  ⟨extended_reach, by decide +kernel, (no_holes extended_reach).1⟩

/-- The name `f` stands for an inode that lies in the bitmap. -/
def stray : Nat → Block := image 16 ⟨T_FILE, 0, 0, 1, 512, firstAddr 6⟩ 0x7F#8

theorem stray_image : Owned tiny stray ∧ NoHoles tiny stray := by
  have all : refs tiny stray (dinodeAt tiny stray) = {5, 6} := by decide
  exact ⟨owned_of_refs all (by decide) (by decide) (by decide +kernel), by decide +kernel⟩

/-- The block of the file is the block of the inodes. -/
def tangled : Nat → Block := image 2 ⟨T_FILE, 0, 0, 2, 512, firstAddr 2⟩ 0x3F#8

/-- A disk inode of one block without that block is written over inode 3. -/
def pierced : Fs := (System.exec (next tiny) (boot tangled)
  [openG, .write fileSlot (Dinode.bytes ⟨T_FILE, 0, 0, 1, 512, firstAddr 0⟩) 192 64]).get
  (by decide +kernel)

theorem pierced_reach : (system tiny (NoHoles tiny)).Reach System.Free pierced := by
  have run : System.exec (next tiny) (boot tangled)
      [openG, .write fileSlot (Dinode.bytes ⟨T_FILE, 0, 0, 1, 512, firstAddr 0⟩) 192 64] =
      some pierced := by
    simp only [pierced, Option.some_get]
  have start : NoHoles tiny tangled := by decide +kernel
  exact System.exec_reach _ (fun _ _ _ => trivial) (.start ⟨boot_booted tangled, start⟩) run

def otherSlot : Slot := ⟨2, by decide⟩

/-- The inode in the bitmap is open while a block is allocated. -/
def stale : Fs := (System.exec (next tiny) (boot stray)
  [openF, openG, .write otherSlot (fun _ => 1#8) 512 1]).get (by decide +kernel)

theorem stale_reach : (system tiny fun disk => NoHoles tiny disk ∧ Owned tiny disk).Reach System.Free stale := by
  have run : System.exec (next tiny) (boot stray) [openF, openG, .write otherSlot (fun _ => 1#8) 512 1] =
      some stale := by
    simp only [stale, Option.some_get]
  exact System.exec_reach _ (fun _ _ _ => trivial) (.start ⟨boot_booted stray, stray_image.symm⟩) run

/-- The absence of holes alone is not kept: a block may be shared with the inodes. With
    ownership the cache is still not write-through, if a directory names no inode. -/
theorem holes_and_stale_copies : ((system tiny (NoHoles tiny)).Reach System.Free pierced ∧
      ¬ NoHoles tiny pierced.disk) ∧
    (system tiny fun disk => NoHoles tiny disk ∧ Owned tiny disk).Reach System.Free stale ∧
      ¬ WriteThrough tiny stale := by
  refine ⟨⟨pierced_reach, by decide +kernel⟩, stale_reach, fun through => ?_⟩
  have facts : 0 < (stale.icache fileSlot).ref ∧ (stale.icache fileSlot).valid = true ∧
      (stale.icache fileSlot).d ≠ dinodeAt tiny stale.disk (stale.icache fileSlot).inum := by
    decide +kernel
  exact facts.2.2 (through fileSlot facts.1 facts.2.1)

end Images
end Xv6FsRuns
