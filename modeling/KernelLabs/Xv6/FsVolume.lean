import KernelLabs.Xv6.FsOwn

/-!
The inode cache and the bitmap agree with the table of inodes, and every file has
its first blocks and no others. `bmap` keeps this while a file grows by a block.
-/
namespace Xv6FsVolume
open Xv6Fs Xv6FsDisk Xv6FsOwn Bytes Wp

/-- The file has blocks `0`, ..., `x - 1` and no others. -/
def Mapped (disk : Nat → Block) (d : Dinode) (x : Nat) : Prop :=
  x ≤ MAXFILE ∧ ∀ bn, bn < MAXFILE → (addrAt disk d bn ≠ 0 ↔ bn < x)

/-- Slot `k` holds a valid copy of inode `i`. -/
structure Holds (s : Fs) (k : Slot) (i : Nat) : Prop where
  live : 0 < (s.icache k).ref
  valid : (s.icache k).valid = true
  inum : (s.icache k).inum = i

structure Cached (sb : Superblock) (s : Fs) (D : Nat → Dinode) : Prop where
  inside : ∀ k, 0 < (s.icache k).ref → (s.icache k).inum < sb.ninodes
  distinct : ∀ k l, 0 < (s.icache k).ref → 0 < (s.icache l).ref →
    (s.icache k).inum = (s.icache l).inum → k = l
  copy : ∀ k i, Holds s k i → (s.icache k).d = D i
  typed : ∀ k i, Holds s k i → (D i).type ≠ 0

structure Volume (sb : Superblock) (s : Fs) (D : Nat → Dinode) (X : Nat → Nat) : Prop where
  cached : Cached sb s D
  bitmap : Bitmap sb s.disk (refs sb s.disk D)
  mapped : ∀ i ∈ allocated sb D, Mapped s.disk (D i) (X i)

/-- The cache is the same but for the copies. -/
def SameSlots (s t : Fs) : Prop := ∀ k, t.icache k = { s.icache k with d := (t.icache k).d }

/-- Of the table only the addresses of inode `i` have changed, of the cache only the copy
    in its slot, and no disk inode. -/
structure Step (sb : Superblock) (i : Nat) (s : Fs) (D : Nat → Dinode) (t : Fs) (D' : Nat → Dinode) :
    Prop where
  others : ∀ j, j ≠ i → D' j = D j
  fields : D' i = { D i with addrs := (D' i).addrs }
  dinode : ∀ j, j < sb.ninodes → dinodeAt sb t.disk j = dinodeAt sb s.disk j
  slots : SameSlots s t

section Steps
variable {sb : Superblock} {s t u : Fs} {D D' D'' : Nat → Dinode} {X : Nat → Nat} {i : Nat} {k : Slot}

theorem Step.refl : Step sb i s D s D := ⟨fun _ _ => rfl, rfl, fun _ _ => rfl, fun _ => rfl⟩

theorem Step.trans (first : Step sb i s D t D') (second : Step sb i t D' u D'') :
    Step sb i s D u D'' := by
  refine ⟨fun j other => ?_, ?_, fun j low => ?_, fun k => ?_⟩
  · rw [second.others j other, first.others j other]
  · rw [second.fields, first.fields]
  · rw [second.dinode j low, first.dinode j low]
  · rw [second.slots k, first.slots k]

theorem SameSlots.holds (slots : SameSlots s t) {l : Slot} {j : Nat} (holds : Holds s l j) :
    Holds t l j := by
  have same := slots l
  refine ⟨?_,?_,?_⟩
  · rw [same]
    exact holds.live
  · rw [same]
    exact holds.valid
  · rw [same]
    exact holds.inum

theorem Step.type (step : Step sb i s D t D') (j : Nat) : (D' j).type = (D j).type := by
  by_cases same : j = i
  · subst same
    rw [step.fields]
  · rw [step.others j same]

theorem Step.allocated (step : Step sb i s D t D') : allocated sb D' = allocated sb D := by
  ext j
  rw [mem_allocated, mem_allocated, step.type j]

theorem Volume.here (volume : Volume sb s D X) (holds : Holds s k i) : i ∈ allocated sb D :=
  mem_allocated.mpr ⟨holds.inum ▸ volume.cached.inside k holds.live, volume.cached.typed k i holds⟩

end Steps

section Cache
variable {sb : Superblock} {s : Fs} {D : Nat → Dinode} {i : Nat} {k : Slot}

theorem wp_setDinode {E : Panic → Prop} {f : Dinode → Dinode} {Q : Unit → Fs → Prop}
    (holds : Q () { s with icache := Function.update s.icache k { s.icache k with d := f (s.icache k).d } }) :
    wp E (setDinode k f) s Q := holds

/-- A change of the copy that is a change of the table. -/
theorem cached_setDinode {f : Dinode → Dinode} (cached : Cached sb s D) (holds : Holds s k i)
    (typed : (f (D i)).type ≠ 0) : Cached sb { s with
      icache := Function.update s.icache k { s.icache k with d := f (s.icache k).d } }
    (Function.update D i (f (D i))) := by
  have slots : ∀ l, (Function.update s.icache k { s.icache k with d := f (s.icache k).d }) l =
      { s.icache l with d := if l = k then f (s.icache k).d else (s.icache l).d } := by
    intro l
    by_cases same : l = k
    · subst same
      simp
    · simp [same]
  have back : ∀ l j, Holds { s with
      icache := Function.update s.icache k { s.icache k with d := f (s.icache k).d } } l j → Holds s l j := by
    intro l j now
    obtain ⟨live,valid,inum⟩ := now
    dsimp only at live valid inum
    rw [slots l] at live valid inum
    exact ⟨live,valid,inum⟩
  refine ⟨fun l live => ?_, fun l m live live' same => ?_, fun l j now => ?_, fun l j now => ?_⟩
  · dsimp only at live ⊢
    rw [slots l] at live ⊢
    exact cached.inside l live
  · dsimp only at live live' same
    rw [slots l] at live same
    rw [slots m] at live' same
    exact cached.distinct l m live live' same
  · have old := back l j now
    dsimp only
    rw [slots l]
    by_cases same : l = k
    · subst same
      have inum : j = i := old.inum.symm.trans holds.inum
      subst inum
      rw [if_pos rfl, Function.update_self, cached.copy l j old]
    · have other : j ≠ i := by
        intro eq
        exact same (cached.distinct l k old.live holds.live (old.inum.trans (eq.trans holds.inum.symm)))
      rw [if_neg same, Function.update_of_ne other]
      exact cached.copy l j old
  · have old := back l j now
    by_cases same : j = i
    · subst same
      rw [Function.update_self]
      exact typed
    · rw [Function.update_of_ne same]
      exact cached.typed l j old

end Cache

/-- The byte at offset `off` of a file. -/
def content (disk : Nat → Block) (d : Dinode) (off : Nat) : BitVec 8 :=
  disk (addrAt disk d (off / BSIZE)) (off % BSIZE)

/-- Inode `i` has got blocks, and every byte of a file is where it was. -/
structure Grown (sb : Superblock) (i : Nat) (s : Fs) (D : Nat → Dinode) (X : Nat → Nat) (t : Fs)
    (D' : Nat → Dinode) (X' : Nat → Nat) : Prop where
  step : Step sb i s D t D'
  volume : Volume sb t D' X'
  content : ∀ j ∈ allocated sb D, ∀ off, off / BSIZE < X j →
    content t.disk (D' j) off = content s.disk (D j) off

section Growth
variable {sb : Superblock} {s t : Fs} {D : Nat → Dinode} {X : Nat → Nat} {d : Dinode} {i b x : Nat} {k : Slot}

theorem grown (volume : Volume sb s D X) (holds : Holds s k i)
    (cached : Cached sb t (Function.update D i d)) (step : Step sb i s D t (Function.update D i d))
    (bitmap : Bitmap sb t.disk (b ::ₘ refs sb s.disk D))
    (mine : blocks t.disk d = b ::ₘ blocks s.disk (D i)) (mapped : Mapped t.disk d x)
    (same : ∀ m, m < X i → addrAt t.disk d m = addrAt s.disk (D i) m)
    (last : ∀ j ∈ allocated sb D, j ≠ i → lastAddr (D j) ≠ 0 →
      t.disk (lastAddr (D j)).toNat = s.disk (lastAddr (D j)).toNat)
    (data : ∀ j ∈ allocated sb D, ∀ m, m < X j →
      t.disk (addrAt s.disk (D j) m) = s.disk (addrAt s.disk (D j) m)) :
    Grown sb i s D X t (Function.update D i d) (Function.update X i x) := by
  have here := volume.here holds
  have typed : d.type ≠ 0 := by
    have type := step.type i
    rw [Function.update_self] at type
    rw [type]
    exact (mem_allocated.mp here).2
  refine ⟨step, ⟨cached,?_,?_⟩, ?_⟩
  · have total := refs_update here typed fun j there other => blocks_congr (last j there other)
    rw [mine, Multiset.add_cons, ← Multiset.cons_add] at total
    rw [add_right_cancel total]
    exact bitmap
  · intro j there
    rw [step.allocated] at there
    by_cases eq : j = i
    · subst eq
      rw [Function.update_self, Function.update_self]
      exact mapped
    · rw [Function.update_of_ne eq, Function.update_of_ne eq]
      obtain ⟨most,addrs⟩ := volume.mapped j there
      refine ⟨most, fun m low => ?_⟩
      rw [addrAt_congr (last j there eq)]
      exact addrs m low
  · intro j there off low
    have addr : addrAt t.disk (Function.update D i d j) (off / BSIZE) = addrAt s.disk (D j) (off / BSIZE) := by
      by_cases eq : j = i
      · subst eq
        rw [Function.update_self]
        exact same _ low
      · rw [Function.update_of_ne eq]
        exact addrAt_congr (last j there eq) _
    unfold Xv6FsVolume.content
    rw [addr, data j there _ low]

end Growth

/-- What `setAddr` makes of a disk inode. -/
def withAddr (a : Fin (NDIRECT + 1)) (b : Nat) (d : Dinode) : Dinode :=
  { d with addrs := Function.update d.addrs a (UInt32.ofNat b) }

section Addresses
variable {disk : Nat → Block} {d : Dinode} {bn b : Nat}

theorem ofNat_val {n : Nat} (low : n < NDIRECT + 1) : (Fin.ofNat (NDIRECT + 1) n : Nat) = n := by
  exact Nat.mod_eq_of_lt low

theorem lastAddr_direct (low : bn < NDIRECT) : lastAddr (withAddr (Fin.ofNat _ bn) b d) = lastAddr d := by
  have other : Fin.last NDIRECT ≠ Fin.ofNat _ bn := by
    intro same
    have value := congrArg Fin.val same
    rw [ofNat_val (by omega), Fin.val_last] at value
    omega
  exact Function.update_of_ne other _ _

theorem addrAt_direct (low : bn < NDIRECT) (small : b < 2 ^ 32) (m : Nat) :
    addrAt disk (withAddr (Fin.ofNat _ bn) b d) m = if m = bn then b else addrAt disk d m := by
  unfold addrAt
  rw [lastAddr_direct low]
  by_cases direct : m < NDIRECT
  · rw [if_pos direct, if_pos direct]
    unfold Dinode.direct withAddr
    dsimp only
    by_cases same : m = bn
    · subst same
      rw [Function.update_self, if_pos rfl, UInt32.toNat_ofNat_of_lt' small]
    · rw [if_neg same, Function.update_of_ne]
      intro eq
      have value := congrArg Fin.val eq
      rw [ofNat_val (by omega), ofNat_val (by omega)] at value
      exact same value
  · rw [if_neg direct, if_neg direct, if_neg (show m ≠ bn by omega)]

theorem lastAddr_last : lastAddr (withAddr (Fin.last _) b d) = UInt32.ofNat b := by
  simp [lastAddr, withAddr]

theorem direct_last {m : Nat} (low : m < NDIRECT) : (withAddr (Fin.last _) b d).direct m = d.direct m := by
  have other : Fin.ofNat _ m ≠ Fin.last NDIRECT := by
    intro same
    have value := congrArg Fin.val same
    rw [ofNat_val (by omega), Fin.val_last] at value
    omega
  exact Function.update_of_ne other _ _

theorem ofNat_ne_zero (small : b < 2 ^ 32) (some : b ≠ 0) : UInt32.ofNat b ≠ 0 := by
  intro zero
  have value := congrArg UInt32.toNat zero
  rw [UInt32.toNat_ofNat_of_lt' small] at value
  exact some value

/-- An empty indirect block adds no address. -/
theorem addrAt_last (small : b < 2 ^ 32) (some : b ≠ 0) (none : lastAddr d = 0) (zero : disk b = zeroes)
    (m : Nat) : addrAt disk (withAddr (Fin.last _) b d) m = addrAt disk d m := by
  unfold addrAt
  by_cases direct : m < NDIRECT
  · rw [if_pos direct, if_pos direct, direct_last direct]
  · rw [if_neg direct, if_neg direct, if_pos none, lastAddr_last, if_neg (ofNat_ne_zero small some),
      UInt32.toNat_ofNat_of_lt' small, zero, field_zeroes]

end Addresses

section Bmap
variable {sb : Superblock} {s : Fs} {D : Nat → Dinode} {X : Nat → Nat} {i bn : Nat} {k : Slot}
  {E : Panic → Prop}

theorem cached_icache {t : Fs} (cached : Cached sb s D) (same : t.icache = s.icache) : Cached sb t D := by
  refine ⟨?_,?_,?_,?_⟩
  · rw [same]
    exact cached.inside
  · rw [same]
    exact cached.distinct
  · intro k i holds
    obtain ⟨live,valid,inum⟩ := holds
    rw [same] at live valid inum ⊢
    exact cached.copy k i ⟨live,valid,inum⟩
  · intro k i holds
    obtain ⟨live,valid,inum⟩ := holds
    rw [same] at live valid inum
    exact cached.typed k i ⟨live,valid,inum⟩

theorem holds_icache {t : Fs} (holds : Holds s k i) (same : t.icache = s.icache) : Holds t k i :=
  ⟨same ▸ holds.live, same ▸ holds.valid, same ▸ holds.inum⟩

/-- A block that `balloc` hands out is none of those in use. -/
theorem kept_of_moved {t : Fs} {b c : Nat} {M : Multiset Nat} (bitmap : Bitmap sb s.disk M)
    (moved : Moved sb (· = b) s t) (fresh : b ∉ M) (used : c ∈ M) : t.disk c = s.disk c := by
  apply moved.data c (bitmap.data c used).1
  intro same
  subst same
  exact fresh used

theorem step_withAddr {t : Fs} {b : Nat} (moved : Moved sb (· = b) s t) (holds : Holds s k i)
    (a : Fin (NDIRECT + 1)) : Step sb i s D { t with
      icache := Function.update t.icache k { t.icache k with d := withAddr a b (t.icache k).d } }
    (Function.update D i (withAddr a b (D i))) := by
  refine ⟨fun j other => ?_, ?_, fun j low => ?_, fun l => ?_⟩
  · exact Function.update_of_ne other _ _
  · rw [Function.update_self]
    rfl
  · exact moved.dinode j low
  · dsimp only
    rw [moved.icache]
    by_cases same : l = k
    · subst same
      rw [Function.update_self]
    · rw [Function.update_of_ne same]

theorem Volume.used (volume : Volume sb s D X) {j m : Nat} (there : j ∈ allocated sb D) (low : m < X j) :
    addrAt s.disk (D j) m ∈ refs sb s.disk D := by
  obtain ⟨most,addrs⟩ := volume.mapped j there
  exact mem_refs_data there (by omega) ((addrs m (by omega)).mpr low)

theorem addr_small {b : Nat} (inside : b < sb.size) : b < 2 ^ 32 := lt_of_lt_of_le inside sb.addressable

/-- A direct block is added to the file. -/
theorem allocAddr_direct (lax : Lax E) (volume : Volume sb s D X) (holds : Holds s k i) (low : bn < NDIRECT)
    (next : X i = bn) : wp E (allocAddr sb k (Fin.ofNat _ bn)) s fun b t =>
      ∃ D', Grown sb i s D X t D' (Function.update X i (bn + 1)) ∧ b = addrAt t.disk (D' i) bn := by
  have here := volume.here holds
  obtain ⟨most,addrs⟩ := volume.mapped i here
  have low' : bn < MAXFILE := Nat.lt_of_lt_of_le low (Nat.le_add_right _ _)
  have none : addrAt s.disk (D i) bn = 0 := by
    by_contra some
    have := (addrs bn low').mp some
    omega
  have zero : (s.icache k).d.addrs (Fin.ofNat _ bn) = 0 := by
    rw [volume.cached.copy k i holds]
    unfold addrAt at none
    rw [if_pos low] at none
    exact UInt32.toNat_inj.mp none
  unfold allocAddr
  rw [wp_bind, wp_get]
  dsimp only
  rw [if_pos zero, wp_bind]
  refine wp_mono (balloc_spec lax volume.bitmap) ?_
  rintro b t ⟨fresh,high,inside,moved,_,bitmap⟩
  rw [wp_bind]
  refine wp_setDinode (f := withAddr (Fin.ofNat _ bn) b) ?_
  rw [wp_pure]
  have small := addr_small inside
  have positive : b ≠ 0 := by
    have := bmapstart_le sb
    omega
  have lasts : ∀ j ∈ allocated sb D, lastAddr (D j) ≠ 0 →
      t.disk (lastAddr (D j)).toNat = s.disk (lastAddr (D j)).toNat := by
    intro j there some
    exact kept_of_moved volume.bitmap moved fresh (mem_refs_indirect there some)
  have datas : ∀ j ∈ allocated sb D, ∀ m, m < X j →
      t.disk (addrAt s.disk (D j) m) = s.disk (addrAt s.disk (D j) m) := by
    intro j there m lowM
    exact kept_of_moved volume.bitmap moved fresh (volume.used there lowM)
  have addr : ∀ m, addrAt t.disk (withAddr (Fin.ofNat _ bn) b (D i)) m =
      if m = bn then b else addrAt s.disk (D i) m := by
    intro m
    rw [addrAt_direct low small, addrAt_congr (lasts i here)]
  refine ⟨_, grown volume holds (b := b) (cached_setDinode (cached_icache volume.cached moved.icache)
    (holds_icache holds moved.icache) ?_) (step_withAddr moved holds _) bitmap ?_ ?_ ?_ ?_ ?_, ?_⟩
  · exact volume.cached.typed k i holds
  · unfold blocks dataBlocks indirectBlock
    rw [lastAddr_direct low, ← Multiset.cons_add]
    congr 1
    have new := filter_map_cons (f := addrAt s.disk (D i))
      (g := addrAt t.disk (withAddr (Fin.ofNat _ bn) b (D i))) low'
      (fun m _ other => by rw [addr m, if_neg other]) none (by rw [addr bn, if_pos rfl]; exact positive)
    rw [new, addr bn, if_pos rfl]
  · refine ⟨low', fun m lowM => ?_⟩
    rw [addr m]
    by_cases same : m = bn
    · rw [if_pos same]
      exact ⟨fun _ => by omega, fun _ => positive⟩
    · rw [if_neg same, addrs m lowM]
      omega
  · intro m lowM
    rw [addr m, if_neg (by omega)]
  · exact fun j there _ some => lasts j there some
  · exact datas
  · rw [Function.update_self, addr bn, if_pos rfl]

theorem Grown.refl (volume : Volume sb s D X) : Grown sb i s D X s D X :=
  ⟨Step.refl, volume, fun _ _ _ _ => rfl⟩

theorem Grown.trans {t u : Fs} {D' D'' : Nat → Dinode} {X' X'' : Nat → Nat}
    (first : Grown sb i s D X t D' X') (second : Grown sb i t D' X' u D'' X'') (more : ∀ j, X j ≤ X' j) :
    Grown sb i s D X u D'' X'' := by
  refine ⟨first.step.trans second.step, second.volume, fun j there off low => ?_⟩
  have there' : j ∈ allocated sb D' := by
    rw [first.step.allocated]
    exact there
  rw [second.content j there' off (Nat.lt_of_lt_of_le low (more j)), first.content j there off low]

/-- The indirect block is there, perhaps a new and empty one. -/
theorem allocAddr_last (lax : Lax E) (volume : Volume sb s D X) (holds : Holds s k i) :
    wp E (allocAddr sb k (Fin.last _)) s fun b t =>
      ∃ D', Grown sb i s D X t D' X ∧ lastAddr (D' i) ≠ 0 ∧ b = (lastAddr (D' i)).toNat := by
  have here := volume.here holds
  obtain ⟨most,addrs⟩ := volume.mapped i here
  have copy : (s.icache k).d.addrs (Fin.last NDIRECT) = lastAddr (D i) := by
    rw [volume.cached.copy k i holds]
    rfl
  unfold allocAddr
  rw [wp_bind, wp_get]
  dsimp only
  rw [copy]
  by_cases none : lastAddr (D i) = 0
  · rw [if_pos none, wp_bind]
    refine wp_mono (balloc_spec lax volume.bitmap) ?_
    rintro b t ⟨fresh,high,inside,moved,zero,bitmap⟩
    rw [wp_bind]
    refine wp_setDinode (f := withAddr (Fin.last _) b) ?_
    rw [wp_pure]
    have small := addr_small inside
    have positive : b ≠ 0 := by
      have := bmapstart_le sb
      omega
    have lasts : ∀ j ∈ allocated sb D, lastAddr (D j) ≠ 0 →
        t.disk (lastAddr (D j)).toNat = s.disk (lastAddr (D j)).toNat := by
      intro j there some
      exact kept_of_moved volume.bitmap moved fresh (mem_refs_indirect there some)
    have datas : ∀ j ∈ allocated sb D, ∀ m, m < X j →
        t.disk (addrAt s.disk (D j) m) = s.disk (addrAt s.disk (D j) m) := by
      intro j there m lowM
      exact kept_of_moved volume.bitmap moved fresh (volume.used there lowM)
    have addr : ∀ m, addrAt t.disk (withAddr (Fin.last _) b (D i)) m = addrAt s.disk (D i) m := by
      intro m
      rw [addrAt_last small positive none zero, addrAt_congr (lasts i here)]
    have last : lastAddr (withAddr (Fin.last _) b (D i)) ≠ 0 := by
      rw [lastAddr_last]
      exact ofNat_ne_zero small positive
    have all := grown volume holds (b := b) (x := X i) (cached_setDinode
      (cached_icache volume.cached moved.icache) (holds_icache holds moved.icache)
      (volume.cached.typed k i holds)) (step_withAddr moved holds (Fin.last _)) bitmap ?_ ?_ ?_
      (fun j there _ some => lasts j there some) datas
    · rw [Function.update_eq_self] at all
      refine ⟨_, all, ?_, ?_⟩
      · rw [Function.update_self]
        exact last
      · rw [Function.update_self, lastAddr_last, UInt32.toNat_ofNat_of_lt' small]
    · unfold blocks indirectBlock dataBlocks
      rw [if_pos none, if_neg last, lastAddr_last, UInt32.toNat_ofNat_of_lt' small,
        show addrAt t.disk (withAddr (Fin.last _) b (D i)) = addrAt s.disk (D i) from funext addr,
        add_zero, add_comm, Multiset.singleton_add]
    · refine ⟨most, fun m lowM => ?_⟩
      rw [addr m]
      exact addrs m lowM
    · exact fun m _ => addr m
  · rw [if_neg none, wp_pure]
    exact ⟨D, Grown.refl volume, none, rfl⟩

theorem bitmap_data {disk : Nat → Block} {M : Multiset Nat} {c : Nat} (blk : Block)
    (bitmap : Bitmap sb disk M) (high : sb.nmeta ≤ c) : Bitmap sb (Function.update disk c blk) M := by
  refine ⟨bitmap.nodup, bitmap.data, fun b low => ?_⟩
  have apart : BBLOCK sb b ≠ c := by
    have := (bblock_area low).2
    omega
  rw [bit_congr (Function.update_of_ne apart _ _)]
  exact bitmap.bits b low

theorem dinodeAt_data {disk : Nat → Block} {c j : Nat} (blk : Block) (high : sb.nmeta ≤ c)
    (low : j < sb.ninodes) : dinodeAt sb (Function.update disk c blk) j = dinodeAt sb disk j := by
  apply dinodeAt_congr
  have apart : IBLOCK sb j ≠ c := by
    have := iblock_low low
    have := bmapstart_le sb
    omega
  exact Function.update_of_ne apart _ _

/-- The turn of `bmap` after the indirect block is there. -/
def indirectEntry (sb : Superblock) (addr bn : Nat) : FsM Nat := do
  let s ← get
  let entry := field (s.disk addr) (4 * (bn - NDIRECT)) 4
  if entry = 0 then do
    let b ← balloc sb
    bupdate addr fun blk => overlay blk (4 * (bn - NDIRECT)) 4 (byteOf b)
    return b
  else return entry

theorem bmap_indirect (low : NDIRECT ≤ bn) (high : bn < MAXFILE) :
    bmap sb k bn = allocAddr sb k (Fin.last NDIRECT) >>= fun addr => indirectEntry sb addr bn := by
  unfold bmap
  have range : bn - NDIRECT < NINDIRECT := by
    unfold MAXFILE at high
    omega
  rw [if_neg (by omega), if_pos range]
  rfl

/-- A block is added through the indirect block. -/
theorem indirectEntry_spec (lax : Lax E) (volume : Volume sb s D X) (holds : Holds s k i) (low : NDIRECT ≤ bn)
    (high : bn < MAXFILE) (next : X i = bn) (some : lastAddr (D i) ≠ 0) :
    wp E (indirectEntry sb (lastAddr (D i)).toNat bn) s fun b t =>
      Grown sb i s D X t D (Function.update X i (bn + 1)) ∧ b = addrAt t.disk (D i) bn := by
  have here := volume.here holds
  obtain ⟨most,addrs⟩ := volume.mapped i here
  have direct : ∀ m, ¬ m < NDIRECT → addrAt s.disk (D i) m =
      field (s.disk (lastAddr (D i)).toNat) (4 * (m - NDIRECT)) 4 := by
    intro m far
    unfold addrAt
    rw [if_neg far, if_neg some]
  have none : addrAt s.disk (D i) bn = 0 := by
    by_contra there
    have := (addrs bn high).mp there
    omega
  have member : (lastAddr (D i)).toNat ∈ refs sb s.disk D := mem_refs_indirect here some
  unfold indirectEntry
  rw [wp_bind, wp_get]
  dsimp only
  rw [if_pos ((direct bn (by omega)).symm.trans none), wp_bind]
  refine wp_mono (balloc_spec lax volume.bitmap) ?_
  rintro b t ⟨fresh,highB,inside,moved,_,bitmap⟩
  rw [wp_bind]
  apply wp_bupdate
  rw [wp_pure]
  generalize address : (lastAddr (D i)).toNat = c at *
  have small := addr_small inside
  have area := (volume.bitmap.data c member).1
  have positive : b ≠ 0 := by
    have := bmapstart_le sb
    omega
  have kept : ∀ e ∈ refs sb s.disk D, e ≠ c → Function.update t.disk c (overlay (t.disk c)
      (4 * (bn - NDIRECT)) 4 (byteOf b)) e = s.disk e := by
    intro e used other
    rw [Function.update_of_ne other]
    exact kept_of_moved volume.bitmap moved fresh used
  have addr : ∀ m, addrAt (Function.update t.disk c (overlay (t.disk c) (4 * (bn - NDIRECT)) 4 (byteOf b)))
      (D i) m = if m = bn then b else addrAt s.disk (D i) m := by
    intro m
    by_cases far : m < NDIRECT
    · rw [if_neg (by omega)]
      unfold addrAt
      rw [if_pos far, if_pos far]
    · rw [direct m far]
      unfold addrAt
      rw [if_neg far, if_neg some, address, Function.update_self,
        kept_of_moved volume.bitmap moved fresh member]
      by_cases same : m = bn
      · subst same
        have entry : field (overlay (s.disk c) (4 * (m - NDIRECT)) 4 (byteOf b)) (4 * (m - NDIRECT) + 0) 4 =
            field (byteOf b) 0 4 := field_overlay_in 0 4 (by omega)
        rw [Nat.add_zero] at entry
        rw [if_pos rfl, entry, field_byteOf, Nat.mod_eq_of_lt (by simpa using small)]
      · rw [if_neg same, field_overlay_out (by omega)]
  have all := grown volume holds (b := b) (x := bn + 1) (d := D i) (t := { t with
      disk := Function.update t.disk c (overlay (t.disk c) (4 * (bn - NDIRECT)) 4 (byteOf b)),
      written := t.written + 1 }) ?_ ?_ (bitmap_data _ bitmap area) ?_ ?_ ?_ ?_ ?_
  · rw [Function.update_eq_self] at all
    refine ⟨all, ?_⟩
    rw [addr bn, if_pos rfl]
  · rw [Function.update_eq_self]
    exact cached_icache volume.cached moved.icache
  · rw [Function.update_eq_self]
    refine ⟨fun _ _ => rfl, rfl, fun j lowJ => ?_, fun l => ?_⟩
    · rw [dinodeAt_data _ area lowJ]
      exact moved.dinode j lowJ
    · dsimp only
      rw [moved.icache]
  · unfold blocks dataBlocks
    rw [← Multiset.cons_add]
    congr 1
    have new := filter_map_cons (f := addrAt s.disk (D i)) (g := addrAt (Function.update t.disk c
      (overlay (t.disk c) (4 * (bn - NDIRECT)) 4 (byteOf b))) (D i)) high
      (fun m _ other => by rw [addr m, if_neg other]) none (by rw [addr bn, if_pos rfl]; exact positive)
    rw [new, addr bn, if_pos rfl]
  · refine ⟨high, fun m lowM => ?_⟩
    rw [addr m]
    by_cases same : m = bn
    · rw [if_pos same]
      exact ⟨fun _ => by omega, fun _ => positive⟩
    · rw [if_neg same, addrs m lowM]
      omega
  · intro m lowM
    rw [addr m, if_neg (by omega)]
  · intro j there other someJ
    apply kept _ (mem_refs_indirect there someJ)
    rw [← address]
    exact last_apart volume.bitmap.nodup there here other someJ some
  · intro j there m lowM
    obtain ⟨mostJ,addrsJ⟩ := volume.mapped j there
    have there' := (addrsJ m (by omega)).mpr lowM
    apply kept _ (volume.used there lowM)
    rw [← address]
    exact (data_not_indirect volume.bitmap.nodup there here (by omega) there' some).symm

/-- Where the file has the block, `bmap` only looks it up. -/
theorem bmap_inside {Q : Nat → Fs → Prop} {d : Dinode} (copy : (s.icache k).d = d)
    (low : bn < MAXFILE) (there : addrAt s.disk d bn ≠ 0) (holds : Q (addrAt s.disk d bn) s) :
    wp E (bmap sb k bn) s Q := by
  by_cases direct : bn < NDIRECT
  · have addr : addrAt s.disk d bn = (d.addrs (Fin.ofNat _ bn)).toNat := by
      unfold addrAt
      rw [if_pos direct]
      rfl
    rw [addr] at there holds
    have some : d.addrs (Fin.ofNat _ bn) ≠ 0 := by
      intro zero
      rw [zero] at there
      exact there rfl
    unfold bmap allocAddr
    rw [if_pos direct, wp_bind, wp_get]
    dsimp only
    rw [copy, if_neg some, wp_pure]
    exact holds
  · have some : lastAddr d ≠ 0 := by
      intro zero
      unfold addrAt at there
      rw [if_neg direct, if_pos zero] at there
      exact there rfl
    have addr : addrAt s.disk d bn = field (s.disk (lastAddr d).toNat) (4 * (bn - NDIRECT)) 4 := by
      unfold addrAt
      rw [if_neg direct, if_neg some]
    rw [addr] at there holds
    rw [bmap_indirect (by omega) low, wp_bind]
    unfold allocAddr
    rw [wp_bind, wp_get]
    dsimp only
    rw [copy]
    unfold lastAddr at some there holds
    rw [if_neg some, wp_pure]
    unfold indirectEntry
    rw [wp_bind, wp_get]
    dsimp only
    rw [if_neg there, wp_pure]
    exact holds

/-- The file has block `bn` after `bmap`, as its last one if it was not there. -/
theorem bmap_spec (lax : Lax E) (volume : Volume sb s D X) (holds : Holds s k i) (low : bn < MAXFILE)
    (reach : bn ≤ X i) : wp E (bmap sb k bn) s fun b t =>
      ∃ D', Grown sb i s D X t D' (Function.update X i (max (X i) (bn + 1))) ∧
        b = addrAt t.disk (D' i) bn ∧ (bn < X i → D' = D) := by
  by_cases inside : bn < X i
  · have there := ((volume.mapped i (volume.here holds)).2 bn low).mpr inside
    apply bmap_inside (volume.cached.copy k i holds) low there
    rw [show max (X i) (bn + 1) = X i by omega, Function.update_eq_self]
    exact ⟨D, Grown.refl volume, rfl, fun _ => rfl⟩
  · have next : X i = bn := by omega
    rw [show max (X i) (bn + 1) = bn + 1 by omega]
    by_cases direct : bn < NDIRECT
    · unfold bmap
      rw [if_pos direct]
      refine wp_mono (allocAddr_direct lax volume holds direct next) ?_
      rintro b t ⟨D',all,result⟩
      exact ⟨D', all, result, fun wrong => absurd wrong inside⟩
    · rw [bmap_indirect (by omega) low, wp_bind]
      refine wp_mono (allocAddr_last lax volume holds) ?_
      rintro _ t ⟨D',first,some,rfl⟩
      refine wp_mono (indirectEntry_spec lax first.volume (first.step.slots.holds holds) (by omega) low next some) ?_
      rintro b u ⟨second,result⟩
      exact ⟨D', first.trans second fun _ => Nat.le_refl _, result, fun wrong => absurd wrong inside⟩

end Bmap
end Xv6FsVolume
