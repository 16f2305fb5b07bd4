import KernelLabs.Xv6.FsDirs

/-!
Every call of the file system keeps the volume in order.
-/
namespace Xv6FsSound
open Xv6Fs Xv6FsDisk Xv6FsOwn Xv6FsVolume Xv6FsFile Xv6FsTrunc Xv6FsSlots Xv6FsDirs Bytes Wp

/-- The volume is in order, and the references `h` are held. -/
structure Sound (sb : Superblock) (s : Fs) (D : Nat → Dinode) (h : Multiset Slot) : Prop where
  clean : Clean sb s D
  entries : Entries sb s D
  held : Held s h

/-- A step to a volume in order with the references `h'`, of which `h` are old ones. -/
structure Goes (sb : Superblock) (h : Multiset Slot) (s t : Fs) (h' : Multiset Slot) : Prop where
  sound : ∃ D, Sound sb t D h'
  kept : Kept h s t

section Steps
variable {sb : Superblock} {s t u : Fs} {D D' : Nat → Dinode} {h h' h'' : Multiset Slot} {k : Slot} {i : Nat}
  {E : Panic → Prop}

theorem Sound.mono (sound : Sound sb s D h) (less : h' ≤ h) : Sound sb s D h' :=
  ⟨sound.clean, sound.entries, sound.held.mono less⟩

theorem Goes.mono (goes : Goes sb h s t h') (less : h'' ≤ h') : Goes sb h s t h'' := by
  obtain ⟨D,sound⟩ := goes.sound
  exact ⟨⟨D, sound.mono less⟩, goes.kept⟩

theorem Goes.trans (first : Goes sb h s t h') (second : Goes sb h t u h'') : Goes sb h s u h'' :=
  ⟨second.sound, first.kept.trans second.kept⟩

theorem Goes.less (goes : Goes sb h' s t h'') (less : h ≤ h') : Goes sb h s t h'' :=
  ⟨goes.sound, goes.kept.mono (Multiset.subset_of_le less)⟩

theorem Sound.goes (sound : Sound sb s D h) : Goes sb h s s h := ⟨⟨D,sound⟩, Kept.refl⟩

/-- A reference that the cache counts. -/
theorem Sound.hold (sound : Sound sb s D 0) (live : 0 < (s.icache k).ref) : Sound sb s D {k} := by
  refine ⟨sound.clean, sound.entries, fun l => ?_⟩
  rw [Multiset.count_singleton]
  split
  · rename_i same
    rw [same]
    exact live
  · exact Nat.zero_le _

theorem sound_quiet (sound : Sound sb s D h) (quiet : Quiet sb s D h t h') : Sound sb t D h' := by
  refine ⟨quiet.clean, ?_, quiet.held sound.held⟩
  unfold Entries
  rw [quiet.disk]
  exact sound.entries

theorem goes_quiet (sound : Sound sb s D h) (quiet : Quiet sb s D h t h') : Goes sb h s t h' :=
  ⟨⟨D, sound_quiet sound quiet⟩, (quiet.kept sound.held)⟩

theorem Sound.holds (sound : Sound sb s D h) (member : k ∈ h) (valid : (s.icache k).valid = true) :
    Holds s k (s.icache k).inum := ⟨sound.held.live member, valid, rfl⟩

theorem valid_kept (kept : Kept h s t) (member : k ∈ h) (valid : (s.icache k).valid = true) :
    (t.icache k).valid = true := (kept k member).2 valid

/-- The other files keep their bytes when no data block is written. -/
theorem others_data (clean : Clean sb s D) (table : ∀ j, j ≠ i → D' j = D j)
    (data : ∀ c, sb.nmeta ≤ c → t.disk c = s.disk c) : OtherFiles sb i s D t D' :=
  ⟨table, fun _ there _ _ low => content_kept clean.volume data there (block_of_offset low)⟩

theorem released_entries {i : Nat} (clean : Clean sb s D) (entries : Entries sb s D)
    (released : Released sb s D i t D') : Entries sb t D' := by
  cases released with
  | kept disk =>
    unfold Entries
    rw [disk]
    exact entries
  | freed unlinked typed data gone =>
    apply entries_other entries (others_data clean (fun j other => Function.update_of_ne other _ _) data)
    intro there
    rw [mem_allocated, Function.update_self] at there
    exact absurd rfl there.2

theorem iunlock_sound (lax : Lax E) (sound : Sound sb s D h) (member : k ∈ h) :
    wp E (iunlock k) s fun _ t => Sound sb t D h ∧ Kept h s t := by
  refine wp_mono (iunlock_spec lax sound.clean (sound.held.live member) h) ?_
  exact fun _ t quiet => ⟨sound_quiet sound quiet, quiet.kept sound.held⟩

theorem iput_sound (lax : Lax E) (sound : Sound sb s D (k ::ₘ h)) :
    wp E (iput sb k) s fun _ t => Goes sb h s t h := by
  refine wp_mono (iput_spec lax sound.clean sound.held) ?_
  rintro _ t ⟨D',clean,held,kept,released⟩
  exact ⟨⟨D', clean, released_entries sound.clean sound.entries released, held⟩, kept⟩

theorem iunlockput_sound (lax : Lax E) (sound : Sound sb s D (k ::ₘ h)) :
    wp E (iunlockput sb k) s fun _ t => Goes sb h s t h := by
  unfold iunlockput
  rw [wp_bind]
  refine wp_mono (iunlock_sound lax sound (Multiset.mem_cons_self k h)) ?_
  rintro _ t ⟨soundT,keptT⟩
  refine wp_mono (iput_sound lax soundT) ?_
  intro _ u goes
  exact ⟨goes.sound, (keptT.mono (Multiset.subset_cons h k)).trans goes.kept⟩

theorem ilock_sound (lax : Lax E) (notype : E .ilockNoType) (sound : Sound sb s D h) (member : k ∈ h) :
    wp E (ilock sb k) s fun _ t => Sound sb t D h ∧ Kept h s t ∧ (t.icache k).valid = true := by
  refine wp_mono (ilock_spec lax sound.clean (sound.held.live member) h (Or.inl notype)) ?_
  rintro _ t ⟨quiet,valid⟩
  exact ⟨sound_quiet sound quiet, (quiet.kept sound.held), valid⟩

theorem dirlookup_sound {name : Xv6Fs.Bytes} (lax : Lax E) (sound : Sound sb s D h) (member : k ∈ h)
    (valid : (s.icache k).valid = true) : wp E (dirlookup sb k name) s fun r t => match r with
      | none => t = s
      | some (m, e) => Goes sb h s t (m ::ₘ h) ∧ Addressable e := by
  refine wp_mono (dirlookup_spec lax sound.clean sound.entries h (sound.holds member valid)) ?_
  rintro r t ⟨_,after⟩
  split at after
  · obtain ⟨rfl,same⟩ := after
    exact same
  · obtain ⟨m,rfl,quiet,inside,_⟩ := after
    refine ⟨goes_quiet sound quiet, ?_⟩
    have sizeLt := (D (s.icache k).inum).size.toNat_lt
    unfold Addressable DIRENT DIRSIZ at *
    omega

theorem writeDirent_sound {e : Nat} {de : Dirent} {panic : Panic} (lax : Lax E) (bad : E panic)
    (sound : Sound sb s D h) (member : k ∈ h) (valid : (s.icache k).valid = true)
    (small : Addressable e) (inside : de.inum < sb.ninodes) :
    wp E (writeDirent sb k e de panic) s fun _ t => Goes sb h s t h := by
  have holds := sound.holds member valid
  refine wp_mono (writeDirent_spec lax sound.clean holds small bad) ?_
  rintro _ t ⟨D',wrote⟩
  exact ⟨⟨D', wrote.clean, entries_write sound.entries (sound.clean.volume.here holds) wrote inside,
    held_slots wrote.slots sound.held⟩, kept_slots wrote.slots⟩

theorem dirlink_sound {name : Xv6Fs.Bytes} {inum : Nat} (lax : Lax E) (sound : Sound sb s D h)
    (member : k ∈ h) (valid : (s.icache k).valid = true) (inside : inum < sb.ninodes) :
    wp E (dirlink sb k name inum) s fun _ t => Goes sb h s t h := by
  have holds := sound.holds member valid
  apply dirlink_spec lax sound.clean sound.entries h holds
  · intro e m t _ quiet _ _
    refine wp_mono (iput_sound lax (sound_quiet sound quiet)) ?_
    exact fun _ u goes => ⟨goes.sound, (quiet.kept sound.held).trans goes.kept⟩
  · intro e t D' _ _ _ wrote
    exact ⟨⟨D', wrote.clean, entries_write sound.entries (sound.clean.volume.here holds) wrote inside,
      held_slots wrote.slots sound.held⟩, kept_slots wrote.slots⟩

/-- Entries do not depend on the fields that are changed. -/
theorem entries_change {f : Dinode → Dinode} (sound : Sound sb s D h) (here : i ∈ allocated sb D)
    (type : (f (D i)).type = (D i).type) (size : (f (D i)).size = (D i).size)
    (addrs : (f (D i)).addrs = (D i).addrs) (data : ∀ c, sb.nmeta ≤ c → t.disk c = s.disk c) :
    Entries sb t (Function.update D i (f (D i))) := by
  apply entries_other sound.entries
    (others_data sound.clean (fun j other => Function.update_of_ne other _ _) data)
  intro there dir e inside
  rw [Function.update_self] at dir inside ⊢
  rw [size] at inside
  have bytes : direntAt (content t.disk (f (D i))) e = direntAt (content s.disk (D i)) e := by
    apply direntAt_congr
    intro q low
    rw [content_addrs _ addrs]
    exact content_kept sound.clean.volume data here (block_of_offset (by omega))
  rw [bytes]
  exact sound.entries i here (type.symm.trans dir) e inside

/-- A change of an inode that keeps type, size and addresses. -/
theorem update_sound {f : Dinode → Dinode} {Q : Unit → Fs → Prop} (sound : Sound sb s D h) (member : k ∈ h)
    (valid : (s.icache k).valid = true)
    (same : ∀ d : Dinode, (f d).type = d.type ∧ (f d).size = d.size ∧ (f d).addrs = d.addrs)
    (after : ∀ t, Goes sb h s t h → Q () t) :
    wp E (setDinode k f) s fun _ t => wp E (iupdate sb k) t Q := by
  have holds := sound.holds member valid
  obtain ⟨type,size,addrs⟩ := same (D (s.icache k).inum)
  apply wp_change sound.clean holds type size addrs
  intro t clean slots data
  exact after t ⟨⟨_, clean, entries_change sound (sound.clean.volume.here holds) type size addrs data,
    held_slots slots sound.held⟩, kept_slots slots⟩

theorem setNlink_sound {f : UInt16 → UInt16} (sound : Sound sb s D h) (member : k ∈ h)
    (valid : (s.icache k).valid = true) : wp E (setNlink sb k f) s fun _ t => Goes sb h s t h := by
  unfold setNlink
  rw [wp_bind]
  exact update_sound sound member valid (fun _ => ⟨rfl,rfl,rfl⟩) fun _ goes => goes

/-- A new inode has no entries. -/
theorem entries_alloc {type : UInt16} (sound : Sound sb s D h)
    (data : ∀ c, sb.nmeta ≤ c → t.disk c = s.disk c) :
    Entries sb t (Function.update D i { Dinode.zero with type := type }) := by
  apply entries_other sound.entries
    (others_data sound.clean (fun j other => Function.update_of_ne other _ _) data)
  intro _ _ e inside
  rw [Function.update_self] at inside
  change _ ≤ 0 at inside
  unfold DIRENT at inside
  omega

theorem ialloc_sound {type : UInt16} (lax : Lax E) (sound : Sound sb s D h) :
    wp E (ialloc sb type) s fun k t => Goes sb h s t (k ::ₘ h) := by
  refine wp_mono (ialloc_spec lax sound.clean h) ?_
  rintro k t ⟨i,v,_,_,_,icache,data,quiet,_⟩
  have held : Held v h := by
    unfold Held
    rw [icache]
    exact sound.held
  have kept := quiet.kept held
  unfold Kept at kept
  rw [icache] at kept
  refine ⟨⟨_, quiet.clean, ?_, quiet.held held⟩, kept⟩
  apply entries_alloc sound
  rw [quiet.disk]
  exact data

end Steps

section Paths
variable {sb : Superblock} {s : Fs} {D : Nat → Dinode} {h : Multiset Slot} {k : Slot} {E : Panic → Prop}

/-- The references after a search: one more if the search found an inode. -/
def Found (sb : Superblock) (h : Multiset Slot) (s : Fs) (r : Option (Slot × Xv6Fs.Bytes)) (t : Fs) : Prop :=
  match r with
  | none => Goes sb h s t h
  | some (k, _) => Goes sb h s t (k ::ₘ h)

theorem Found.after {t u : Fs} {r : Option (Slot × Xv6Fs.Bytes)} (kept : Kept h s t)
    (found : Found sb h t r u) : Found sb h s r u := by
  cases r with
  | none => exact ⟨found.sound, kept.trans found.kept⟩
  | some result => exact ⟨found.sound, kept.trans found.kept⟩

theorem namexLoop_sound (lax : Lax E) (notype : E .ilockNoType) (nameiparent : Bool) (fuel : Nat)
    {path : Xv6Fs.Bytes} (sound : Sound sb s D (k ::ₘ h)) :
    wp E (namexLoop sb nameiparent fuel k path) s fun r t => Found sb h s r t := by
  induction fuel generalizing s D k path with
  | zero => exact ⟨⟨D, sound.mono (Multiset.le_cons_self h k)⟩, Kept.refl⟩
  | succ fuel ih =>
    unfold namexLoop
    split
    · by_cases parent : nameiparent = true
      · rw [if_pos parent, wp_bind]
        refine wp_mono (iput_sound lax sound) ?_
        exact fun _ _ goes => goes
      · rw [if_neg parent, wp_pure]
        exact ⟨⟨D,sound⟩, Kept.refl⟩
    · rename_i name rest _
      rw [wp_bind]
      refine wp_mono (ilock_sound lax notype sound (Multiset.mem_cons_self k h)) ?_
      rintro _ t ⟨soundT,keptT,valid⟩
      have kept := keptT.mono (Multiset.subset_cons h k)
      rw [wp_bind, wp_get]
      by_cases file : (t.icache k).d.type ≠ T_DIR
      · rw [if_pos file, wp_bind]
        refine wp_mono (iunlockput_sound lax soundT) ?_
        exact fun _ _ goes => ⟨goes.sound, kept.trans goes.kept⟩
      · rw [if_neg file]
        by_cases last : nameiparent = true ∧ rest = []
        · rw [if_pos last, wp_bind]
          refine wp_mono (iunlock_sound lax soundT (Multiset.mem_cons_self k h)) ?_
          rintro _ u ⟨soundU,keptU⟩
          exact ⟨⟨D,soundU⟩, kept.trans (keptU.mono (Multiset.subset_cons h k))⟩
        · rw [if_neg last, wp_bind]
          refine wp_mono (dirlookup_sound lax soundT (Multiset.mem_cons_self k h) valid) ?_
          intro r u after
          cases r with
          | none =>
            dsimp only at after ⊢
            subst after
            rw [wp_bind]
            refine wp_mono (iunlockput_sound lax soundT) ?_
            exact fun _ _ goes => ⟨goes.sound, kept.trans goes.kept⟩
          | some found =>
            obtain ⟨next,e⟩ := found
            obtain ⟨⟨⟨D',soundU⟩,keptU⟩,_⟩ := after
            rw [Multiset.cons_swap] at soundU
            dsimp only
            rw [wp_bind]
            refine wp_mono (iunlockput_sound lax soundU) ?_
            rintro _ v ⟨⟨D'',soundV⟩,keptV⟩
            refine wp_mono (ih soundV) ?_
            intro r w found
            have keptUW := keptU.mono (Multiset.subset_cons h k)
            have keptVW := keptV.mono (Multiset.subset_cons h next)
            exact found.after ((kept.trans keptUW).trans keptVW)

theorem namex_sound {cwd : Slot} (lax : Lax E) (notype : E .ilockNoType) {path : Xv6Fs.Bytes}
    (nameiparent : Bool) (sound : Sound sb s D h) (member : cwd ∈ h) :
    wp E (namex sb cwd path nameiparent) s fun r t => Found sb h s r t := by
  have walk : ∀ k t, Quiet sb s D h t (k ::ₘ h) →
      wp E (namexLoop sb nameiparent (path.length + 1) k path) t fun r u => Found sb h s r u := by
    intro k t quiet
    refine wp_mono (namexLoop_sound lax notype nameiparent _ (sound_quiet sound quiet)) ?_
    exact fun _ _ found => found.after (quiet.kept sound.held)
  unfold namex
  by_cases root : path.head? = some slash
  · rw [if_pos root, wp_bind]
    refine wp_mono (iget_spec lax sound.clean h sb.rootInside) ?_
    exact fun k t found => walk k t found.1
  · rw [if_neg root, wp_bind]
    refine wp_mono (idup_spec sound.clean (sound.held.live member) h) ?_
    rintro k t ⟨rfl,quiet⟩
    exact walk k t quiet

end Paths

section Calls
variable {sb : Superblock} {s : Fs} {D : Nat → Dinode} {h : Multiset Slot} {dp ip : Slot} {E : Panic → Prop}

theorem less (h : Multiset Slot) (l m : Slot) : h ⊆ l ::ₘ m ::ₘ h :=
  Multiset.subset_of_le (le_trans (Multiset.le_cons_self _ _) (Multiset.le_cons_self _ _))

/-- The end of `create`: the new inode gets its name. -/
theorem create_link_sound {name : Xv6Fs.Bytes} (lax : Lax E) (sound : Sound sb s D (ip ::ₘ dp ::ₘ h))
    (valid : (s.icache dp).valid = true) : wp E (do
      let s ← get
      let linked ← dirlink sb dp name (s.icache ip).inum
      if linked = false then throw Panic.createDirlink
      else do
        iunlockput sb dp
        return ip) s fun r t => r = ip ∧ Goes sb h s t (ip ::ₘ h) := by
  have inside := sound.clean.volume.cached.inside ip (sound.held.live (Multiset.mem_cons_self _ _))
  rw [wp_bind, wp_get, wp_bind]
  refine wp_mono (dirlink_sound lax sound (by simp) valid inside) ?_
  rintro linked t ⟨⟨D',soundT⟩,keptT⟩
  by_cases bad : linked = false
  · rw [if_pos bad]
    exact lax _ (by decide) (by decide)
  · rw [if_neg bad, wp_bind]
    rw [Multiset.cons_swap] at soundT
    refine wp_mono (iunlockput_sound lax soundT) ?_
    rintro _ u ⟨soundU,keptU⟩
    exact ⟨rfl, soundU, (keptT.mono (less _ _ _)).trans (keptU.mono (Multiset.subset_cons _ _))⟩

theorem createNew_sound {name : Xv6Fs.Bytes} {type major minor : UInt16} (lax : Lax E)
    (notype : E .ilockNoType) (sound : Sound sb s D (dp ::ₘ h)) (valid : (s.icache dp).valid = true) :
    wp E (createNew sb dp name type major minor) s fun ip t => Goes sb h s t (ip ::ₘ h) := by
  unfold createNew
  rw [wp_bind]
  refine wp_mono (ialloc_sound lax sound) ?_
  rintro ip t ⟨⟨D1,soundT⟩,keptT⟩
  rw [wp_bind]
  refine wp_mono (ilock_sound lax notype soundT (Multiset.mem_cons_self _ _)) ?_
  rintro _ u ⟨soundU,keptU,validIp⟩
  have validU := valid_kept keptU (k := dp) (by simp) (valid_kept keptT (by simp) valid)
  have keptSU : Kept (dp ::ₘ h) s u := keptT.trans (keptU.mono (Multiset.subset_cons _ _))
  simp only [wp_bind]
  refine update_sound soundU (Multiset.mem_cons_self _ _) validIp (fun _ => ⟨rfl,rfl,rfl⟩) ?_
  rintro v ⟨⟨D2,soundV⟩,keptV⟩
  have validIpV := valid_kept keptV (by simp) validIp
  have validV := valid_kept keptV (by simp) validU
  have keptSV : Kept h s v :=
    (keptSU.mono (Multiset.subset_cons _ _)).trans (keptV.mono (less _ _ _))
  by_cases dir : type = T_DIR
  · rw [if_pos dir]
    simp only [wp_bind]
    refine update_sound soundV (by simp) validV (fun _ => ⟨rfl,rfl,rfl⟩) ?_
    rintro w ⟨⟨D3,soundW⟩,keptW⟩
    have validIpW := valid_kept keptW (by simp) validIpV
    have validW := valid_kept keptW (by simp) validV
    have cached := soundW.clean.volume.cached
    rw [wp_get]
    refine wp_mono (dirlink_sound lax soundW (by simp) validIpW
      (cached.inside ip (soundW.held.live (by simp)))) ?_
    rintro one x ⟨⟨D4,soundX⟩,keptX⟩
    by_cases bad : one = false
    · rw [if_pos bad]
      exact lax _ (by decide) (by decide)
    · rw [if_neg bad, wp_bind]
      have validIpX := valid_kept keptX (by simp) validIpW
      refine wp_mono (dirlink_sound lax soundX (by simp) validIpX
        (cached.inside dp (soundW.held.live (by simp)))) ?_
      rintro two y ⟨⟨D5,soundY⟩,keptY⟩
      by_cases bad' : two = false
      · rw [if_pos bad']
        exact lax _ (by decide) (by decide)
      · rw [if_neg bad']
        have validY := valid_kept keptY (k := dp) (by simp) (valid_kept keptX (by simp) validW)
        refine wp_mono (create_link_sound lax soundY validY) ?_
        rintro _ z ⟨rfl,soundZ,keptZ⟩
        have middle := (keptW.trans keptX).trans keptY
        exact ⟨soundZ, (keptSV.trans (middle.mono (less _ _ _))).trans keptZ⟩
  · rw [if_neg dir]
    refine wp_mono (create_link_sound lax soundV validV) ?_
    rintro _ w ⟨rfl,soundW,keptW⟩
    exact ⟨soundW, keptSV.trans keptW⟩

theorem create_sound {cwd : Slot} {path : Xv6Fs.Bytes} {type major minor : UInt16} (lax : Lax E)
    (notype : E .ilockNoType) (sound : Sound sb s D h) (member : cwd ∈ h) :
    wp E (create sb cwd path type major minor) s fun r t => match r with
      | none => Goes sb h s t h
      | some ip => Goes sb h s t (ip ::ₘ h) := by
  unfold create
  rw [wp_bind]
  refine wp_mono (namex_sound lax notype true sound member) ?_
  intro r t found
  cases r with
  | none => exact found
  | some result =>
    obtain ⟨dp,name⟩ := result
    obtain ⟨⟨D1,soundT⟩,keptT⟩ := found
    dsimp only
    rw [wp_bind]
    refine wp_mono (ilock_sound lax notype soundT (Multiset.mem_cons_self _ _)) ?_
    rintro _ u ⟨soundU,keptU,valid⟩
    have keptSU := keptT.trans (keptU.mono (Multiset.subset_cons _ _))
    rw [wp_bind]
    refine wp_mono (dirlookup_sound lax soundU (Multiset.mem_cons_self _ _) valid) ?_
    intro r v after
    cases r with
    | none =>
      dsimp only at after ⊢
      subst after
      rw [wp_bind]
      refine wp_mono (createNew_sound lax notype soundU valid) ?_
      rintro ip w ⟨soundW,keptW⟩
      exact ⟨soundW, keptSU.trans keptW⟩
    | some found =>
      obtain ⟨ip,e⟩ := found
      obtain ⟨⟨⟨D2,soundV⟩,keptV⟩,_⟩ := after
      rw [Multiset.cons_swap] at soundV
      dsimp only
      rw [wp_bind]
      refine wp_mono (iunlockput_sound lax soundV) ?_
      rintro _ w ⟨⟨D3,soundW⟩,keptW⟩
      rw [wp_bind]
      refine wp_mono (ilock_sound lax notype soundW (Multiset.mem_cons_self _ _)) ?_
      rintro _ x ⟨soundX,keptX,_⟩
      have kept : Kept h s x := ((keptSU.trans (keptV.mono (Multiset.subset_cons _ _))).trans
        (keptW.mono (Multiset.subset_cons _ _))).trans (keptX.mono (Multiset.subset_cons _ _))
      rw [wp_bind, wp_get]
      by_cases file : type = T_FILE ∧ (x.icache ip).d.type = T_FILE
      · rw [if_pos file, wp_pure]
        exact ⟨⟨D3,soundX⟩, kept⟩
      · rw [if_neg file, wp_bind]
        refine wp_mono (iunlockput_sound lax soundX) ?_
        rintro _ y ⟨soundY,keptY⟩
        exact ⟨soundY, kept.trans keptY⟩

theorem sysCreate_sound {cwd : Slot} {path : Xv6Fs.Bytes} {type major minor : UInt16} {keep : Bool}
    (lax : Lax E) (notype : E .ilockNoType) (sound : Sound sb s D h) (member : cwd ∈ h) :
    wp E (sysCreate sb cwd path type major minor keep) s fun _ t => Goes sb h s t h := by
  unfold sysCreate
  rw [wp_bind]
  refine wp_mono (create_sound lax notype sound member) ?_
  intro r t after
  cases r with
  | none => exact after
  | some ip =>
    obtain ⟨⟨D1,soundT⟩,keptT⟩ := after
    dsimp only
    by_cases kept : keep = true
    · rw [if_pos kept, wp_bind]
      refine wp_mono (iunlock_sound lax soundT (Multiset.mem_cons_self _ _)) ?_
      rintro _ u ⟨soundU,keptU⟩
      exact ⟨⟨D1, soundU.mono (Multiset.le_cons_self _ _)⟩,
        keptT.trans (keptU.mono (Multiset.subset_cons _ _))⟩
    · rw [if_neg kept, wp_bind]
      refine wp_mono (iunlockput_sound lax soundT) ?_
      rintro _ u ⟨soundU,keptU⟩
      exact ⟨soundU, keptT.trans keptU⟩

theorem sysOpen_sound {cwd : Slot} {path : Xv6Fs.Bytes} {dirOk fileOk : Bool} (lax : Lax E)
    (notype : E .ilockNoType) (sound : Sound sb s D h) (member : cwd ∈ h) :
    wp E (sysOpen sb cwd path dirOk fileOk) s fun _ t => Goes sb h s t h := by
  unfold sysOpen
  rw [wp_bind]
  refine wp_mono (namex_sound lax notype false sound member) ?_
  intro r t found
  cases r with
  | none => exact found
  | some result =>
    obtain ⟨ip,name⟩ := result
    obtain ⟨⟨D1,soundT⟩,keptT⟩ := found
    dsimp only
    rw [wp_bind]
    refine wp_mono (ilock_sound lax notype soundT (Multiset.mem_cons_self _ _)) ?_
    rintro _ u ⟨soundU,keptU,_⟩
    have keptSU := keptT.trans (keptU.mono (Multiset.subset_cons _ _))
    rw [wp_bind, wp_get]
    generalize (if (u.icache ip).d.type = T_DIR then dirOk else fileOk) = ok
    by_cases keep : ok = true
    · rw [if_pos keep, wp_bind]
      refine wp_mono (iunlock_sound lax soundU (Multiset.mem_cons_self _ _)) ?_
      rintro _ v ⟨soundV,keptV⟩
      exact ⟨⟨D1, soundV.mono (Multiset.le_cons_self _ _)⟩,
        keptSU.trans (keptV.mono (Multiset.subset_cons _ _))⟩
    · rw [if_neg keep, wp_bind]
      refine wp_mono (iunlockput_sound lax soundU) ?_
      rintro _ v ⟨soundV,keptV⟩
      exact ⟨soundV, keptSU.trans keptV⟩

theorem unlinkBack_sound (lax : Lax E) (notype : E .ilockNoType) (sound : Sound sb s D (ip ::ₘ h)) :
    wp E (unlinkBack sb ip) s fun _ t => Goes sb h s t h := by
  unfold unlinkBack
  rw [wp_bind]
  refine wp_mono (ilock_sound lax notype sound (Multiset.mem_cons_self _ _)) ?_
  rintro _ t ⟨soundT,keptT,valid⟩
  rw [wp_bind]
  refine wp_mono (setNlink_sound soundT (Multiset.mem_cons_self _ _) valid) ?_
  rintro _ u ⟨⟨D1,soundU⟩,keptU⟩
  rw [wp_bind]
  refine wp_mono (iunlockput_sound lax soundU) ?_
  rintro _ v ⟨soundV,keptV⟩
  exact ⟨soundV, ((keptT.trans keptU).mono (Multiset.subset_cons _ _)).trans keptV⟩

theorem sysLink_sound {cwd : Slot} {old new : Xv6Fs.Bytes} (lax : Lax E) (notype : E .ilockNoType)
    (sound : Sound sb s D h) (member : cwd ∈ h) :
    wp E (sysLink sb cwd old new) s fun _ t => Goes sb h s t h := by
  unfold sysLink
  rw [wp_bind]
  refine wp_mono (namex_sound lax notype false sound member) ?_
  intro r t found
  cases r with
  | none => exact found
  | some result =>
    obtain ⟨ip,name⟩ := result
    obtain ⟨⟨D1,soundT⟩,keptT⟩ := found
    dsimp only
    rw [wp_bind]
    refine wp_mono (ilock_sound lax notype soundT (Multiset.mem_cons_self _ _)) ?_
    rintro _ u ⟨soundU,keptU,valid⟩
    have keptSU := keptT.trans (keptU.mono (Multiset.subset_cons _ _))
    have inside := soundU.clean.volume.cached.inside ip (soundU.held.live (Multiset.mem_cons_self _ _))
    rw [wp_bind, wp_get]
    by_cases dir : (u.icache ip).d.type = T_DIR
    · rw [if_pos dir, wp_bind]
      refine wp_mono (iunlockput_sound lax soundU) ?_
      rintro _ v ⟨soundV,keptV⟩
      exact ⟨soundV, keptSU.trans keptV⟩
    · rw [if_neg dir, wp_bind]
      refine wp_mono (setNlink_sound soundU (Multiset.mem_cons_self _ _) valid) ?_
      rintro _ v ⟨⟨D2,soundV⟩,keptV⟩
      rw [wp_bind]
      refine wp_mono (iunlock_sound lax soundV (Multiset.mem_cons_self _ _)) ?_
      rintro _ w ⟨soundW,keptW⟩
      have keptSW : Kept h s w := keptSU.trans ((keptV.trans keptW).mono (Multiset.subset_cons _ _))
      rw [wp_bind]
      refine wp_mono (namex_sound lax notype true soundW (Multiset.mem_cons_of_mem member)) ?_
      intro r x found
      cases r with
      | none =>
        obtain ⟨⟨D3,soundX⟩,keptX⟩ := found
        dsimp only
        refine wp_mono (unlinkBack_sound lax notype soundX) ?_
        rintro _ y ⟨soundY,keptY⟩
        exact ⟨soundY, (keptSW.trans (keptX.mono (Multiset.subset_cons _ _))).trans keptY⟩
      | some result =>
        obtain ⟨dp,name⟩ := result
        obtain ⟨⟨D3,soundX⟩,keptX⟩ := found
        dsimp only
        rw [wp_bind]
        refine wp_mono (ilock_sound lax notype soundX (Multiset.mem_cons_self _ _)) ?_
        rintro _ y ⟨soundY,keptY,validDp⟩
        have keptSY : Kept h s y :=
          (keptSW.trans (keptX.mono (Multiset.subset_cons _ _))).trans (keptY.mono (less _ _ _))
        rw [wp_bind]
        refine wp_mono (dirlink_sound lax soundY (Multiset.mem_cons_self _ _) validDp inside) ?_
        rintro linked z ⟨⟨D4,soundZ⟩,keptZ⟩
        rw [wp_bind]
        refine wp_mono (iunlockput_sound lax soundZ) ?_
        rintro _ z' ⟨⟨D5,soundZ'⟩,keptZ'⟩
        have keptSZ' : Kept h s z' :=
          (keptSY.trans (keptZ.mono (less _ _ _))).trans (keptZ'.mono (Multiset.subset_cons _ _))
        by_cases done : linked = true
        · rw [if_pos done, wp_bind]
          refine wp_mono (iput_sound lax soundZ') ?_
          rintro _ a ⟨soundA,keptA⟩
          exact ⟨soundA, keptSZ'.trans keptA⟩
        · rw [if_neg done]
          refine wp_mono (unlinkBack_sound lax notype soundZ') ?_
          rintro _ a ⟨soundA,keptA⟩
          exact ⟨soundA, keptSZ'.trans keptA⟩

theorem emptyOrFile_sound {type : UInt16} (lax : Lax E) (sound : Sound sb s D h) (member : ip ∈ h)
    (valid : (s.icache ip).valid = true) : wp E (emptyOrFile sb ip type) s fun _ t => t = s := by
  unfold emptyOrFile
  by_cases dir : type = T_DIR
  · rw [if_pos dir]
    refine wp_mono (isdirempty_spec lax sound.clean (sound.holds member valid)) ?_
    exact fun _ _ after => after.1
  · rw [if_neg dir]
    exact rfl

/-- The end of `unlink`: the count of the inode falls. -/
theorem unlink_drop_sound (lax : Lax E) (sound : Sound sb s D (ip ::ₘ dp ::ₘ h))
    (valid : (s.icache ip).valid = true) : wp E (do
      iunlockput sb dp
      setNlink sb ip fun x => x - 1
      iunlockput sb ip
      return true) s fun _ t => Goes sb h s t h := by
  rw [Multiset.cons_swap] at sound
  rw [wp_bind]
  refine wp_mono (iunlockput_sound lax sound) ?_
  rintro _ t ⟨⟨D1,soundT⟩,keptT⟩
  rw [wp_bind]
  refine wp_mono (setNlink_sound soundT (Multiset.mem_cons_self _ _)
    (valid_kept keptT (Multiset.mem_cons_self _ _) valid)) ?_
  rintro _ u ⟨⟨D2,soundU⟩,keptU⟩
  rw [wp_bind]
  refine wp_mono (iunlockput_sound lax soundU) ?_
  rintro _ v ⟨soundV,keptV⟩
  exact ⟨soundV, ((keptT.trans keptU).mono (Multiset.subset_cons _ _)).trans keptV⟩

theorem sysUnlink_sound {cwd : Slot} {path : Xv6Fs.Bytes} (lax : Lax E) (notype : E .ilockNoType)
    (sound : Sound sb s D h) (member : cwd ∈ h) :
    wp E (sysUnlink sb cwd path) s fun _ t => Goes sb h s t h := by
  unfold sysUnlink
  generalize short = signed
  rw [wp_bind]
  refine wp_mono (namex_sound lax notype true sound member) ?_
  intro r t found
  cases r with
  | none => exact found
  | some result =>
    obtain ⟨dp,name⟩ := result
    obtain ⟨⟨D1,soundT⟩,keptT⟩ := found
    dsimp only
    rw [wp_bind]
    refine wp_mono (ilock_sound lax notype soundT (Multiset.mem_cons_self _ _)) ?_
    rintro _ u ⟨soundU,keptU,validDp⟩
    have keptSU := keptT.trans (keptU.mono (Multiset.subset_cons _ _))
    by_cases dots : namecmp name [46#8] = true ∨ namecmp name [46#8, 46#8] = true
    · rw [if_pos dots, wp_bind]
      refine wp_mono (iunlockput_sound lax soundU) ?_
      rintro _ v ⟨soundV,keptV⟩
      exact ⟨soundV, keptSU.trans keptV⟩
    · rw [if_neg dots, wp_bind]
      refine wp_mono (dirlookup_sound lax soundU (Multiset.mem_cons_self _ _) validDp) ?_
      intro r v after
      cases r with
      | none =>
        dsimp only at after ⊢
        subst after
        rw [wp_bind]
        refine wp_mono (iunlockput_sound lax soundU) ?_
        rintro _ w ⟨soundW,keptW⟩
        exact ⟨soundW, keptSU.trans keptW⟩
      | some found =>
        obtain ⟨ip,e⟩ := found
        obtain ⟨⟨⟨D2,soundV⟩,keptV⟩,small⟩ := after
        have keptSV := keptSU.trans (keptV.mono (Multiset.subset_cons _ _))
        have validDpV := valid_kept keptV (Multiset.mem_cons_self _ _) validDp
        dsimp only
        rw [wp_bind]
        refine wp_mono (ilock_sound lax notype soundV (Multiset.mem_cons_self _ _)) ?_
        rintro _ w ⟨soundW,keptW,validIp⟩
        have validDpW := valid_kept keptW (by simp) validDpV
        have keptSW := keptSV.trans (keptW.mono (less _ _ _))
        rw [wp_bind, wp_get]
        by_cases low : signed (w.icache ip).d.nlink < 1
        · rw [if_pos low]
          exact lax _ (by decide) (by decide)
        · rw [if_neg low, wp_bind]
          refine wp_mono (emptyOrFile_sound lax soundW (Multiset.mem_cons_self _ _) validIp) ?_
          rintro empty x rfl
          by_cases full : empty = false
          · rw [if_pos full, wp_bind]
            refine wp_mono (iunlockput_sound lax soundW) ?_
            rintro _ y ⟨⟨D3,soundY⟩,keptY⟩
            rw [wp_bind]
            refine wp_mono (iunlockput_sound lax soundY) ?_
            rintro _ z ⟨soundZ,keptZ⟩
            exact ⟨soundZ, (keptSW.trans (keptY.mono (Multiset.subset_cons _ _))).trans keptZ⟩
          · rw [if_neg full, wp_bind]
            refine wp_mono (writeDirent_sound lax (lax _ (by decide) (by decide)) soundW (by simp) validDpW small
              (Nat.lt_of_lt_of_le (by decide) (Nat.le_of_lt sb.rootInside))) ?_
            rintro _ y ⟨⟨D3,soundY⟩,keptY⟩
            have validIpY := valid_kept keptY (Multiset.mem_cons_self _ _) validIp
            have validDpY := valid_kept keptY (by simp) validDpW
            have keptSY := keptSW.trans (keptY.mono (less _ _ _))
            by_cases dir : (x.icache ip).d.type = T_DIR
            · rw [if_pos dir, wp_bind]
              refine wp_mono (setNlink_sound soundY (by simp) validDpY) ?_
              rintro _ z ⟨⟨D4,soundZ⟩,keptZ⟩
              refine wp_mono (unlink_drop_sound lax soundZ
                (valid_kept keptZ (Multiset.mem_cons_self _ _) validIpY)) ?_
              rintro _ a ⟨soundA,keptA⟩
              exact ⟨soundA, (keptSY.trans (keptZ.mono (less _ _ _))).trans keptA⟩
            · rw [if_neg dir]
              refine wp_mono (unlink_drop_sound lax soundY validIpY) ?_
              rintro _ a ⟨soundA,keptA⟩
              exact ⟨soundA, keptSY.trans keptA⟩

theorem fileRead_sound {k : Slot} {off n : UInt32} (lax : Lax E) (notype : E .ilockNoType)
    (sound : Sound sb s D h) (member : k ∈ h) : wp E (fileRead sb k off n) s fun _ t => Goes sb h s t h := by
  unfold fileRead
  rw [wp_bind]
  refine wp_mono (ilock_sound lax notype sound member) ?_
  rintro _ t ⟨soundT,keptT,valid⟩
  have holds := soundT.holds member valid
  rw [wp_bind]
  apply readi_spec (soundT.clean.volume.cached.copy k _ holds)
    (soundT.clean.volume.mapped _ (soundT.clean.volume.here holds))
  refine wp_mono (iunlock_sound lax soundT member) ?_
  rintro _ u ⟨soundU,keptU⟩
  exact ⟨⟨D,soundU⟩, keptT.trans keptU⟩

theorem fileWrite_sound {k : Slot} {src : Nat → BitVec 8} {off n : UInt32} (lax : Lax E)
    (notype : E .ilockNoType) (sound : Sound sb s D h) (member : k ∈ h)
    (valid : (s.icache k).valid = true) (file : (s.icache k).d.type ≠ T_DIR) :
    wp E (fileWrite sb k src off n) s fun _ t => Goes sb h s t h := by
  rw [sound.clean.volume.cached.copy k _ (sound.holds member valid)] at file
  unfold fileWrite
  rw [wp_bind]
  refine wp_mono (ilock_sound lax notype sound member) ?_
  rintro _ t ⟨soundT,keptT,validT⟩
  have holds := soundT.holds member validT
  rw [← (keptT k member).1] at file
  rw [wp_bind]
  refine wp_mono (writei_spec lax soundT.clean holds) ?_
  intro r u after
  have goes : Goes sb h t u h := by
    rcases after with ⟨_,rfl⟩ | ⟨_,D',wrote⟩
    · exact soundT.goes
    · refine ⟨⟨D', wrote.clean, ?_, held_slots wrote.slots soundT.held⟩, kept_slots wrote.slots⟩
      apply entries_other soundT.entries wrote.others
      intro _ dir
      rw [wrote.fields] at dir
      exact absurd dir file
  obtain ⟨⟨D2,soundU⟩,keptU⟩ := goes
  refine wp_mono (iunlock_sound lax soundU member) ?_
  rintro _ v ⟨soundV,keptV⟩
  exact ⟨⟨D2,soundV⟩, (keptT.trans keptU).trans keptV⟩

theorem run_sound {call : Call} (lax : Lax E) (notype : E .ilockNoType) (sound : Sound sb s D 0)
    (live : 0 < (s.icache call.entry).ref) (typed : call.wellTyped s = true) :
    wp E (call.run sb) s fun _ t => ∃ D', Sound sb t D' 0 := by
  have held : Sound sb s D {call.entry} := sound.hold live
  have member : call.entry ∈ ({call.entry} : Multiset Slot) := Multiset.mem_singleton_self _
  have close : ∀ {t : Fs}, Goes sb {call.entry} s t {call.entry} → ∃ D', Sound sb t D' 0 := by
    rintro t ⟨⟨D',after⟩,_⟩
    exact ⟨D', after.mono (Multiset.zero_le _)⟩
  cases call with
  | create cwd path type major minor keep =>
    unfold Call.run
    rw [wp_bind]
    exact wp_mono (sysCreate_sound lax notype held member) fun _ _ goes => close goes
  | «open» cwd path dirOk fileOk =>
    unfold Call.run
    rw [wp_bind]
    exact wp_mono (sysOpen_sound lax notype held member) fun _ _ goes => close goes
  | link cwd old new =>
    unfold Call.run
    rw [wp_bind]
    exact wp_mono (sysLink_sound lax notype held member) fun _ _ goes => close goes
  | unlink cwd path =>
    unfold Call.run
    rw [wp_bind]
    exact wp_mono (sysUnlink_sound lax notype held member) fun _ _ goes => close goes
  | read k off n => exact wp_mono (fileRead_sound lax notype held member) fun _ _ goes => close goes
  | write k src off n =>
    simp only [Call.wellTyped, Bool.and_eq_true, bne_iff_ne] at typed
    exact wp_mono (fileWrite_sound lax notype held member typed.1 typed.2) fun _ _ goes => close goes
  | dup k =>
    unfold Call.run
    rw [wp_bind]
    refine wp_mono (idup_spec held.clean live {k}) ?_
    rintro _ t ⟨_,quiet⟩
    exact ⟨D, (sound_quiet held quiet).mono (Multiset.zero_le _)⟩
  | close k =>
    refine wp_mono (iput_sound (h := 0) lax held) ?_
    exact fun _ _ goes => goes.sound

end Calls
end Xv6FsSound
