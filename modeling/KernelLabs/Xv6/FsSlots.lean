import KernelLabs.Xv6.FsTrunc

/-!
References to cache entries. A call holds the references `h`; the inodes behind them stay
the same ones, and a copy that is valid stays valid.
-/
namespace Xv6FsSlots
open Xv6Fs Xv6FsDisk Xv6FsOwn Xv6FsVolume Xv6FsFile Xv6FsTrunc Bytes Wp

/-- `h` counts references that the entries have. -/
def Held (s : Fs) (h : Multiset Slot) : Prop := ∀ k, h.count k ≤ (s.icache k).ref

/-- What a holder of references relies on. -/
def Kept (h : Multiset Slot) (s t : Fs) : Prop :=
  ∀ k ∈ h, (t.icache k).inum = (s.icache k).inum ∧ ((s.icache k).valid = true → (t.icache k).valid = true)

section Holders
variable {s t u : Fs} {h h' : Multiset Slot} {k : Slot}

theorem Kept.refl : Kept h s s := fun _ _ => ⟨rfl,id⟩

theorem Kept.trans (first : Kept h s t) (second : Kept h t u) : Kept h s u := by
  intro k member
  obtain ⟨inum,valid⟩ := first k member
  obtain ⟨inum',valid'⟩ := second k member
  exact ⟨inum'.trans inum, fun now => valid' (valid now)⟩

theorem Kept.mono (kept : Kept h s t) (less : h' ⊆ h) : Kept h' s t := fun k member => kept k (less member)

theorem Held.mono (held : Held s h) (less : h' ≤ h) : Held s h' :=
  fun k => Nat.le_trans (Multiset.count_le_of_le k less) (held k)

theorem Held.live (held : Held s h) (member : k ∈ h) : 0 < (s.icache k).ref :=
  Nat.lt_of_lt_of_le (Multiset.count_pos.mpr member) (held k)

theorem kept_slots (slots : SameSlots s t) : Kept h s t := by
  intro k _
  rw [slots k]
  exact ⟨rfl,id⟩

theorem held_slots (slots : SameSlots s t) (held : Held s h) : Held t h := by
  intro k
  rw [slots k]
  exact held k

end Holders

section Entries
variable {sb : Superblock} {s : Fs} {D : Nat → Dinode} {h : Multiset Slot} {k : Slot} {E : Panic → Prop}

/-- Only the cache has changed, in a way that the table allows. -/
theorem clean_icache {t : Fs} (clean : Clean sb s D) (disk : t.disk = s.disk) (cached : Cached sb t D) :
    Clean sb t D := by
  refine ⟨⟨cached, ?_, ?_⟩, ?_⟩
  · rw [disk]
    exact clean.volume.bitmap
  · rw [disk]
    exact clean.volume.mapped
  · rw [disk]
    exact clean.synced

theorem findSlot_some {p : Inode → Bool} (found : findSlot s p = some k) : p (s.icache k) = true :=
  List.find?_some (p := fun k => p (s.icache k)) found

theorem findSlot_none {p : Inode → Bool} (found : findSlot s p = none) (k : Slot) :
    p (s.icache k) = false := by
  have all := List.find?_eq_none.mp found k (List.mem_finRange k)
  simpa using all

/-- A change of one entry that keeps its inode, or gives it one that no live entry has. -/
theorem cached_setInode {f : Inode → Inode} (cached : Cached sb s D)
    (inside : 0 < (f (s.icache k)).ref → (f (s.icache k)).inum < sb.ninodes)
    (distinct : 0 < (f (s.icache k)).ref → ∀ l, l ≠ k → 0 < (s.icache l).ref →
      (s.icache l).inum ≠ (f (s.icache k)).inum)
    (copy : 0 < (f (s.icache k)).ref → (f (s.icache k)).valid = true →
      (f (s.icache k)).d = D (f (s.icache k)).inum ∧ (D (f (s.icache k)).inum).type ≠ 0) :
    Cached sb { s with icache := Function.update s.icache k (f (s.icache k)) } D := by
  have back : ∀ l i, l ≠ k → Holds { s with icache := Function.update s.icache k (f (s.icache k)) } l i →
      Holds s l i := by
    intro l i other now
    obtain ⟨live,valid,inum⟩ := now
    dsimp only at live valid inum
    rw [Function.update_of_ne other] at live valid inum
    exact ⟨live,valid,inum⟩
  refine ⟨fun l live => ?_, fun l m live live' same => ?_, fun l i now => ?_, fun l i now => ?_⟩
  · dsimp only at live ⊢
    by_cases eq : l = k
    · subst eq
      rw [Function.update_self] at live ⊢
      exact inside live
    · rw [Function.update_of_ne eq] at live ⊢
      exact cached.inside l live
  · dsimp only at live live' same
    by_cases eq : l = k
    · subst eq
      by_cases eq' : m = l
      · exact eq'.symm
      · rw [Function.update_self] at live same
        rw [Function.update_of_ne eq'] at live' same
        exact absurd same.symm (distinct live m eq' live')
    · rw [Function.update_of_ne eq] at live same
      by_cases eq' : m = k
      · subst eq'
        rw [Function.update_self] at live' same
        exact absurd same (distinct live' l eq live)
      · rw [Function.update_of_ne eq'] at live' same
        exact cached.distinct l m live live' same
  · by_cases eq : l = k
    · subst eq
      obtain ⟨live,valid,inum⟩ := now
      dsimp only at live valid inum ⊢
      rw [Function.update_self] at live valid inum ⊢
      rw [← inum]
      exact (copy live valid).1
    · dsimp only
      rw [Function.update_of_ne eq]
      exact cached.copy l i (back l i eq now)
  · by_cases eq : l = k
    · subst eq
      obtain ⟨live,valid,inum⟩ := now
      dsimp only at live valid inum
      rw [Function.update_self] at live valid inum
      rw [← inum]
      exact (copy live valid).2
    · exact cached.typed l i (back l i eq now)

theorem copy_of_valid (clean : Clean sb s D) (live : 0 < (s.icache k).ref)
    (valid : (s.icache k).valid = true) :
    (s.icache k).d = D (s.icache k).inum ∧ (D (s.icache k).inum).type ≠ 0 := by
  have holds : Holds s k (s.icache k).inum := ⟨live,valid,rfl⟩
  exact ⟨clean.volume.cached.copy k _ holds, clean.volume.cached.typed k _ holds⟩

/-- Only references and copies have changed; the call has the references `h'` for `h`. -/
structure Quiet (sb : Superblock) (s : Fs) (D : Nat → Dinode) (h : Multiset Slot) (t : Fs)
    (h' : Multiset Slot) : Prop where
  clean : Clean sb t D
  disk : t.disk = s.disk
  written : t.written = s.written
  counts : ∀ k, (t.icache k).ref + h.count k = (s.icache k).ref + h'.count k
  same : ∀ k, 0 < (s.icache k).ref →
    (t.icache k).inum = (s.icache k).inum ∧ ((s.icache k).valid = true → (t.icache k).valid = true)

theorem Quiet.held {t : Fs} {h' : Multiset Slot} (quiet : Quiet sb s D h t h') (held : Held s h) :
    Held t h' := by
  intro k
  have count := quiet.counts k
  have before := held k
  omega

theorem Quiet.kept {t : Fs} {h' : Multiset Slot} (quiet : Quiet sb s D h t h') (held : Held s h) :
    Kept h s t := fun k member => quiet.same k (held.live member)

/-- An entry that keeps its inode, and its copy if it is valid. -/
theorem quiet_same {f : Inode → Inode} {h' : Multiset Slot} (clean : Clean sb s D)
    (live : 0 < (s.icache k).ref) (inum : (f (s.icache k)).inum = (s.icache k).inum)
    (valid : (s.icache k).valid = true → (f (s.icache k)).valid = true)
    (copy : 0 < (f (s.icache k)).ref → (f (s.icache k)).valid = true →
      (f (s.icache k)).d = D (s.icache k).inum ∧ (D (s.icache k).inum).type ≠ 0)
    (mine : (f (s.icache k)).ref + h.count k = (s.icache k).ref + h'.count k)
    (others : ∀ l, l ≠ k → h.count l = h'.count l) :
    Quiet sb s D h { s with icache := Function.update s.icache k (f (s.icache k)) } h' := by
  refine ⟨clean_icache clean rfl (cached_setInode clean.volume.cached ?_ ?_ ?_), rfl, rfl, fun l => ?_,
    fun l _ => ?_⟩
  · intro _
    rw [inum]
    exact clean.volume.cached.inside k live
  · intro _ l other liveL same
    rw [inum] at same
    exact other (clean.volume.cached.distinct l k liveL live same)
  · intro liveK now
    rw [inum]
    exact copy liveK now
  · dsimp only
    by_cases same : l = k
    · subst same
      rw [Function.update_self]
      exact mine
    · rw [Function.update_of_ne same, others l same]
  · dsimp only
    by_cases same : l = k
    · subst same
      rw [Function.update_self]
      exact ⟨inum,valid⟩
    · rw [Function.update_of_ne same]
      exact ⟨rfl,id⟩

/-- A reference more. -/
theorem quiet_ref (clean : Clean sb s D) (live : 0 < (s.icache k).ref) :
    Quiet sb s D h { s with
      icache := Function.update s.icache k { s.icache k with ref := (s.icache k).ref + 1 } } (k ::ₘ h) := by
  apply quiet_same (f := fun ip => { ip with ref := ip.ref + 1 }) clean live rfl id
  · exact fun _ valid => copy_of_valid clean live valid
  · rw [Multiset.count_cons_self]
    dsimp only
    omega
  · intro l other
    rw [Multiset.count_cons_of_ne other]

theorem wp_setInode {f : Inode → Inode} {Q : Unit → Fs → Prop}
    (holds : Q () { s with icache := Function.update s.icache k (f (s.icache k)) }) :
    wp E (setInode k f) s Q := holds

theorem iget_spec {inum : Nat} (lax : Lax E) (clean : Clean sb s D) (h : Multiset Slot)
    (inside : inum < sb.ninodes) :
    wp E (iget inum) s fun k t => Quiet sb s D h t (k ::ₘ h) ∧ (t.icache k).inum = inum := by
  unfold iget
  rw [wp_bind, wp_get]
  split
  · rename_i k found
    have hit := findSlot_some found
    simp only [Bool.and_eq_true, decide_eq_true_eq, beq_iff_eq] at hit
    rw [wp_bind]
    apply wp_setInode
    refine ⟨quiet_ref clean hit.1, ?_⟩
    dsimp only
    rw [Function.update_self]
    exact hit.2
  · rename_i missing
    split
    · rename_i k found
      have free := findSlot_some found
      simp only [beq_iff_eq] at free
      have absent : ∀ l, 0 < (s.icache l).ref → (s.icache l).inum ≠ inum := by
        intro l live same
        have none := findSlot_none missing l
        simp [live, same] at none
      rw [wp_bind]
      apply wp_setInode
      refine ⟨⟨clean_icache clean rfl (cached_setInode
        (f := fun ip => { ip with inum := inum, ref := 1, valid := false }) clean.volume.cached
        (fun _ => inside) (fun _ l _ live => absent l live) fun _ valid => ?_), rfl, rfl, fun l => ?_,
        fun l live => ?_⟩, ?_⟩
      · simp at valid
      · dsimp only
        by_cases same : l = k
        · subst same
          rw [Function.update_self, Multiset.count_cons_self]
          dsimp only
          omega
        · rw [Function.update_of_ne same, Multiset.count_cons_of_ne same]
      · have other : l ≠ k := by
          intro same
          rw [same] at live
          omega
        dsimp only
        rw [Function.update_of_ne other]
        exact ⟨rfl,id⟩
      · dsimp only
        rw [Function.update_self]
    · exact lax _ (by decide) (by decide)

theorem idup_spec (clean : Clean sb s D) (live : 0 < (s.icache k).ref) (h : Multiset Slot) :
    wp E (idup k) s fun l t => l = k ∧ Quiet sb s D h t (k ::ₘ h) := by
  unfold idup
  rw [wp_bind]
  apply wp_setInode
  exact ⟨rfl, quiet_ref clean live⟩

theorem ilock_spec (lax : Lax E) (clean : Clean sb s D) (live : 0 < (s.icache k).ref) (h : Multiset Slot)
    (typed : E .ilockNoType ∨ (D (s.icache k).inum).type ≠ 0) :
    wp E (ilock sb k) s fun _ t => Quiet sb s D h t h ∧ (t.icache k).valid = true := by
  unfold ilock
  rw [wp_bind, wp_get]
  dsimp only
  rw [if_neg (by omega)]
  by_cases locked : (s.icache k).locked = true
  · rw [if_pos locked]
    exact lax _ (by decide) (by decide)
  · rw [if_neg locked]
    by_cases valid : (s.icache k).valid = true
    · rw [if_pos valid]
      apply wp_setInode
      refine ⟨quiet_same (f := fun ip => { ip with locked := true }) clean live rfl id
        (fun _ _ => copy_of_valid clean live valid) rfl (fun _ _ => rfl), ?_⟩
      dsimp only
      rw [Function.update_self]
      exact valid
    · rw [if_neg valid, wp_bind]
      apply wp_setInode
      have disk := clean.synced _ (clean.volume.cached.inside k live)
      by_cases none : (dinodeAt sb s.disk (s.icache k).inum).type = 0
      · rw [if_pos none]
        rcases typed with allowed | some
        · exact allowed
        · rw [disk] at none
          exact absurd none some
      · rw [if_neg none, wp_pure]
        refine ⟨quiet_same (f := fun ip => { ip with
          locked := true, valid := true, d := dinodeAt sb s.disk (s.icache k).inum })
          clean live rfl (fun _ => rfl) (fun _ _ => ?_) rfl (fun _ _ => rfl), ?_⟩
        · rw [disk] at none ⊢
          exact ⟨rfl,none⟩
        · dsimp only
          rw [Function.update_self]

theorem iunlock_spec (lax : Lax E) (clean : Clean sb s D) (live : 0 < (s.icache k).ref)
    (h : Multiset Slot) : wp E (iunlock k) s fun _ t => Quiet sb s D h t h := by
  unfold iunlock
  rw [wp_bind, wp_get]
  by_cases bad : (s.icache k).locked = false ∨ (s.icache k).ref < 1
  · rw [if_pos bad]
    exact lax _ (by decide) (by decide)
  · rw [if_neg bad]
    apply wp_setInode
    apply quiet_same (f := fun ip => { ip with locked := false }) clean live rfl id
    · exact fun _ valid => copy_of_valid clean live valid
    · rfl
    · exact fun _ _ => rfl

end Entries

/-- What `iput` leaves of an inode that nobody refers to. -/
def freed (d : Dinode) : Dinode := { emptied d with type := 0 }

/-- A reference to inode `i` is gone, and the inode with it if it was the last one. -/
inductive Released (sb : Superblock) (s : Fs) (D : Nat → Dinode) (i : Nat) (t : Fs) : (Nat → Dinode) → Prop
  | kept (disk : t.disk = s.disk) : Released sb s D i t D
  | freed (unlinked : (D i).nlink = 0) (typed : (D i).type ≠ 0)
      (data : ∀ c, sb.nmeta ≤ c → t.disk c = s.disk c)
      (gone : ∀ l, 0 < (t.icache l).ref → (t.icache l).inum ≠ i) :
      Released sb s D i t (Function.update D i (freed (D i)))

section Release
variable {sb : Superblock} {s t : Fs} {D : Nat → Dinode} {X : Nat → Nat} {h : Multiset Slot} {k : Slot}
  {i x : Nat} {E : Panic → Prop}

theorem nblocks_zero {d : Dinode} (empty : d.size = 0) : nblocks d = 0 := by
  unfold nblocks
  rw [empty]
  decide

/-- An inode without blocks may be allocated or freed. -/
theorem refs_swap {disk : Nat → Block} {d : Dinode} (old : (D i).type = 0 ∨ blocks disk (D i) = 0)
    (new : d.type = 0 ∨ blocks disk d = 0) : refs sb disk (Function.update D i d) = refs sb disk D := by
  unfold refs allocated
  rw [Finset.sum_filter, Finset.sum_filter]
  apply Finset.sum_congr rfl
  intro j _
  by_cases eq : j = i
  · subst eq
    rw [Function.update_self]
    rcases old with zero | none
    · rcases new with zero' | none'
      · rw [if_neg (show ¬ (D j).type ≠ 0 by simp [zero]), if_neg (show ¬ d.type ≠ 0 by simp [zero'])]
      · rw [if_neg (show ¬ (D j).type ≠ 0 by simp [zero]), none', ite_self]
    · rcases new with zero' | none'
      · rw [if_neg (show ¬ d.type ≠ 0 by simp [zero']), none, ite_self]
      · rw [none, none', ite_self, ite_self]
  · rw [Function.update_of_ne eq]

theorem volume_swap {d : Dinode} (volume : Volume sb s D X) (disk : t.disk = s.disk)
    (cached : Cached sb t (Function.update D i d)) (old : (D i).type = 0 ∨ blocks s.disk (D i) = 0)
    (new : d.type = 0 ∨ blocks s.disk d = 0) (mapped : d.type ≠ 0 → Mapped s.disk d x) :
    Volume sb t (Function.update D i d) (Function.update X i x) := by
  refine ⟨cached, ?_, fun j there => ?_⟩
  · rw [disk, refs_swap old new]
    exact volume.bitmap
  · rw [mem_allocated] at there
    rw [disk]
    by_cases eq : j = i
    · subst eq
      rw [Function.update_self] at there ⊢
      rw [Function.update_self]
      exact mapped there.2
    · rw [Function.update_of_ne eq] at there ⊢
      rw [Function.update_of_ne eq]
      exact volume.mapped j (mem_allocated.mpr there)

/-- The entry of an inode that is freed is free itself. -/
theorem cached_free {d : Dinode} {ip : Inode} (cached : Cached sb s D) (holds : Holds s k i)
    (dead : ip.ref = 0) :
    Cached sb { s with icache := Function.update s.icache k ip } (Function.update D i d) := by
  have other : ∀ l, 0 < (Function.update s.icache k ip l).ref → l ≠ k := by
    intro l live same
    subst same
    rw [Function.update_self] at live
    omega
  have back : ∀ l j, Holds { s with icache := Function.update s.icache k ip } l j → Holds s l j ∧ j ≠ i := by
    intro l j now
    obtain ⟨live,valid,inum⟩ := now
    have apart := other l live
    dsimp only at live valid inum
    rw [Function.update_of_ne apart] at live valid inum
    refine ⟨⟨live,valid,inum⟩, fun same => ?_⟩
    exact apart (cached.distinct l k live holds.live (inum.trans (same.trans holds.inum.symm)))
  refine ⟨fun l live => ?_, fun l m live live' same => ?_, fun l j now => ?_, fun l j now => ?_⟩
  · have apart := other l live
    dsimp only at live ⊢
    rw [Function.update_of_ne apart] at live ⊢
    exact cached.inside l live
  · have apart := other l live
    have apart' := other m live'
    dsimp only at live live' same
    rw [Function.update_of_ne apart] at live same
    rw [Function.update_of_ne apart'] at live' same
    exact cached.distinct l m live live' same
  · obtain ⟨old,apart⟩ := back l j now
    dsimp only
    rw [Function.update_of_ne (other l now.live), Function.update_of_ne apart]
    exact cached.copy l j old
  · obtain ⟨old,apart⟩ := back l j now
    rw [Function.update_of_ne apart]
    exact cached.typed l j old

/-- The last steps of `iput` for an inode that is freed. -/
theorem iput_free_spec (clean : Clean sb s D) (holds : Holds s k i) (one : (s.icache k).ref = 1) :
    wp E (do itrunc sb k
             setDinode k fun d => { d with type := 0 }
             iupdate sb k
             setInode k fun ip => { ip with valid := false }
             setInode k fun ip => { ip with ref := ip.ref - 1 }) s fun _ t =>
      Clean sb t (Function.update D i (freed (D i))) ∧ (∀ c, sb.nmeta ≤ c → t.disk c = s.disk c) ∧
      (t.icache k).ref = 0 ∧ ∀ l, l ≠ k → (t.icache l).ref = (s.icache l).ref ∧
        (t.icache l).inum = (s.icache l).inum ∧ (t.icache l).valid = (s.icache l).valid := by
  have low := iblock_low (mem_allocated.mp (clean.volume.here holds)).1
  have before := bmapstart_le sb
  simp only [wp_bind]
  refine wp_mono (itrunc_spec clean.volume holds) ?_
  rintro _ t ⟨volume,slots,data,dinodes⟩
  have holdsT := slots.holds holds
  have copy := volume.cached.copy k i holdsT
  rw [Function.update_self] at copy
  have refT : (t.icache k).ref = 1 := by
    rw [slots k]
    exact one
  apply wp_setDinode
  unfold iupdate
  rw [wp_bind, wp_get]
  apply wp_bupdate
  apply wp_setInode
  apply wp_setInode
  dsimp only
  simp only [Function.update_self, Function.update_idem]
  rw [holdsT.inum, copy, refT]
  change Clean sb { t with
    disk := Function.update t.disk (IBLOCK sb i)
      (overlay (t.disk (IBLOCK sb i)) (i % IPB * 64) 64 (freed (D i)).bytes),
    icache := Function.update t.icache k ⟨i, 0, (t.icache k).locked, false, freed (D i)⟩,
    written := t.written + 1 } _ ∧ _
  have none : blocks t.disk (Function.update D i (emptied (D i)) i) = 0 := by
    rw [Function.update_self]
    exact blocks_none (fun _ => rfl) rfl
  have swapped := volume_swap (x := 0) (d := freed (D i)) (t := { t with
      icache := Function.update t.icache k ⟨i, 0, (t.icache k).locked, false, freed (D i)⟩ }) volume rfl
    (cached_free volume.cached holdsT rfl) (Or.inr none) (Or.inl rfl) fun wrong => absurd rfl wrong
  rw [Function.update_idem, Function.update_idem] at swapped
  have sizes : Function.update (fun j => nblocks (D j)) i 0 =
      fun j => nblocks (Function.update D i (freed (D i)) j) := by
    funext j
    by_cases eq : j = i
    · subst eq
      rw [Function.update_self, Function.update_self, nblocks_zero rfl]
    · rw [Function.update_of_ne eq, Function.update_of_ne eq]
  rw [sizes] at swapped
  refine ⟨⟨volume_low _ swapped low, fun j lowJ => ?_⟩, fun c high => ?_, ?_, fun l other => ?_⟩
  · rw [dinodeAt_write i j (freed (D i))]
    by_cases eq : j = i
    · rw [if_pos eq, eq, Function.update_self]
    · rw [if_neg eq, Function.update_of_ne eq, dinodes j lowJ, if_neg eq]
      exact clean.synced j lowJ
  · rw [← data c high]
    exact Function.update_of_ne (by omega) _ _
  · simp
  · have same := slots l
    rw [Function.update_of_ne other, same]
    exact ⟨rfl,rfl,rfl⟩

/-- `iput` drops a reference, and frees the inode if it was the last one and there are no
    links. -/
theorem iput_cases (lax : Lax E) (clean : Clean sb s D) (live : 0 < (s.icache k).ref) (h : Multiset Slot) :
    wp E (iput sb k) s fun _ t =>
      (((s.icache k).valid = true → (D (s.icache k).inum).nlink = 0 → (s.icache k).ref ≠ 1) ∧
        Quiet sb s D (k ::ₘ h) t h) ∨
      (Holds s k (s.icache k).inum ∧ (D (s.icache k).inum).nlink = 0 ∧ (s.icache k).ref = 1 ∧
        Clean sb t (Function.update D (s.icache k).inum (freed (D (s.icache k).inum))) ∧
        (∀ c, sb.nmeta ≤ c → t.disk c = s.disk c) ∧ (t.icache k).ref = 0 ∧
        ∀ l, l ≠ k → (t.icache l).ref = (s.icache l).ref ∧ (t.icache l).inum = (s.icache l).inum ∧
          (t.icache l).valid = (s.icache l).valid) := by
  unfold iput
  rw [wp_bind, wp_get]
  dsimp only
  by_cases locked : (s.icache k).locked = true
  · rw [if_pos locked]
    exact lax _ (by decide) (by decide)
  · rw [if_neg locked]
    by_cases last : (s.icache k).valid = true ∧ (s.icache k).d.nlink = 0 ∧ (s.icache k).ref = 1
    · obtain ⟨valid,unlinked,one⟩ := last
      have holds : Holds s k (s.icache k).inum := ⟨live,valid,rfl⟩
      rw [if_pos ⟨valid,unlinked,one⟩]
      refine wp_mono (iput_free_spec clean holds one) ?_
      rintro _ t ⟨cleanT,data,dead,others⟩
      rw [clean.volume.cached.copy k _ holds] at unlinked
      exact Or.inr ⟨holds, unlinked, one, cleanT, data, dead, others⟩
    · rw [if_neg last]
      apply wp_setInode
      refine Or.inl ⟨fun valid unlinked one => ?_, ?_⟩
      · rw [← (copy_of_valid clean live valid).1] at unlinked
        exact last ⟨valid,unlinked,one⟩
      · apply quiet_same (f := fun ip => { ip with ref := ip.ref - 1 }) clean live rfl id
        · exact fun _ valid => copy_of_valid clean live valid
        · rw [Multiset.count_cons_self]
          dsimp only
          omega
        · intro l other
          rw [Multiset.count_cons_of_ne other]

theorem iput_spec (lax : Lax E) (clean : Clean sb s D) (held : Held s (k ::ₘ h)) :
    wp E (iput sb k) s fun _ t => ∃ D', Clean sb t D' ∧ Held t h ∧ Kept h s t ∧
      Released sb s D (s.icache k).inum t D' := by
  have live := held.live (Multiset.mem_cons_self k h)
  refine wp_mono (iput_cases lax clean live h) ?_
  rintro _ t (⟨_,quiet⟩ | ⟨holds,unlinked,one,cleanT,data,dead,others⟩)
  · exact ⟨D, quiet.clean, quiet.held held, (quiet.kept held).mono (Multiset.subset_cons h k), .kept quiet.disk⟩
  · have unheld : h.count k = 0 := by
      have count := held k
      rw [Multiset.count_cons_self, one] at count
      omega
    have typed := clean.volume.cached.typed k _ holds
    refine ⟨_, cleanT, fun l => ?_, fun l member => ?_, .freed unlinked typed data fun l liveL => ?_⟩
    · by_cases same : l = k
      · rw [same, unheld]
        exact Nat.zero_le _
      · rw [(others l same).1]
        have count := held l
        rw [Multiset.count_cons_of_ne same] at count
        exact count
    · have other : l ≠ k := by
        intro same
        rw [← Multiset.count_eq_zero.not.trans not_not] at member
        exact member (same ▸ unheld)
      exact ⟨(others l other).2.1, fun now => (others l other).2.2.trans now⟩
    · have other : l ≠ k := by
        intro same
        rw [same, dead] at liveL
        omega
      rw [(others l other).1] at liveL
      rw [(others l other).2.1]
      exact fun same => other (clean.volume.cached.distinct l k liveL live same)

/-- Nobody has a valid copy of an inode that is not allocated. -/
theorem cached_alloc {d : Dinode} (cached : Cached sb s D) (free : (D i).type = 0) :
    Cached sb s (Function.update D i d) := by
  have other : ∀ l j, Holds s l j → j ≠ i := by
    intro l j holds same
    exact cached.typed l j holds (same ▸ free)
  refine ⟨cached.inside, cached.distinct, fun l j holds => ?_, fun l j holds => ?_⟩
  · rw [Function.update_of_ne (other l j holds)]
    exact cached.copy l j holds
  · rw [Function.update_of_ne (other l j holds)]
    exact cached.typed l j holds

/-- A free inode gets a type, and an entry of the cache. -/
theorem ialloc_spec {type : UInt16} (lax : Lax E) (clean : Clean sb s D) (h : Multiset Slot) :
    wp E (ialloc sb type) s fun k t => ∃ i v, 1 ≤ i ∧ i < sb.ninodes ∧ (D i).type = 0 ∧
      v.icache = s.icache ∧ (∀ c, sb.nmeta ≤ c → v.disk c = s.disk c) ∧
      Quiet sb v (Function.update D i { Dinode.zero with type := type }) h t (k ::ₘ h) ∧
      (t.icache k).inum = i := by
  have before := bmapstart_le sb
  unfold ialloc
  rw [wp_bind, wp_get]
  split
  · rename_i i found
    have hit := List.find?_some found
    have inside := List.mem_range.mp (List.mem_of_find?_eq_some found)
    simp only [Bool.and_eq_true, decide_eq_true_eq, beq_iff_eq] at hit
    obtain ⟨positive,free⟩ := hit
    rw [clean.synced i inside] at free
    have low := iblock_low inside
    rw [wp_bind]
    apply wp_bupdate
    have none : blocks s.disk { Dinode.zero with type := type } = 0 := blocks_none (fun _ => rfl) rfl
    have swapped := volume_swap (x := 0) clean.volume rfl (cached_alloc clean.volume.cached free)
      (Or.inl free) (Or.inr none) fun _ => ?_
    · have sizes : Function.update (fun j => nblocks (D j)) i 0 =
          fun j => nblocks (Function.update D i { Dinode.zero with type := type } j) := by
        funext j
        by_cases eq : j = i
        · subst eq
          rw [Function.update_self, Function.update_self, nblocks_zero rfl]
        · rw [Function.update_of_ne eq, Function.update_of_ne eq]
      rw [sizes] at swapped
      generalize state : ({ s with
        disk := Function.update s.disk (IBLOCK sb i) (overlay (s.disk (IBLOCK sb i)) (i % IPB * 64) 64
          { Dinode.zero with type := type }.bytes),
        written := s.written + 1 } : Fs) = v
      have cleanV : Clean sb v (Function.update D i { Dinode.zero with type := type }) := by
        rw [← state]
        refine ⟨volume_low _ swapped low, fun j lowJ => ?_⟩
        rw [dinodeAt_write i j]
        by_cases eq : j = i
        · rw [if_pos eq, eq, Function.update_self]
        · rw [if_neg eq, Function.update_of_ne eq]
          exact clean.synced j lowJ
      refine wp_mono (iget_spec lax cleanV h inside) ?_
      rintro k t ⟨quiet,inum⟩
      refine ⟨i, v, positive, inside, free, ?_, fun c high => ?_, quiet, inum⟩
      · rw [← state]
      · rw [← state]
        exact Function.update_of_ne (by omega) _ _
    · refine ⟨Nat.zero_le _, fun m _ => ?_⟩
      have zero : addrAt s.disk { Dinode.zero with type := type } m = 0 := by
        unfold addrAt lastAddr Dinode.direct Dinode.zero
        simp
      simp [zero]
  · exact lax _ (by decide) (by decide)

end Release
end Xv6FsSlots
