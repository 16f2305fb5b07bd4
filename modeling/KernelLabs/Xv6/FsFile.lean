import KernelLabs.Xv6.FsVolume

/-!
`readi` and `writei` as operations on the bytes of a file.
-/
namespace Xv6FsFile
open Xv6Fs Xv6FsDisk Xv6FsOwn Xv6FsVolume Bytes Wp

/-- The number of blocks of a file of this size. -/
def nblocks (d : Dinode) : Nat := (d.size.toNat + BSIZE - 1) / BSIZE

section Reading
variable {sb : Superblock} {s : Fs} {d : Dinode} {k : Slot} {E : Panic → Prop}

theorem readLoop_spec {Q : Xv6Fs.Bytes → Fs → Prop} (copy : (s.icache k).d = d) (fuel : Nat) {off n : Nat}
    (enough : n ≤ fuel) (there : ∀ q, q < n → (off + q) / BSIZE < MAXFILE ∧ addrAt s.disk d ((off + q) / BSIZE) ≠ 0)
    (holds : Q ((List.range n).map fun q => content s.disk d (off + q)) s) :
    wp E (readLoop sb k fuel off n) s Q := by
  induction fuel generalizing off n Q with
  | zero =>
    have none : n = 0 := by omega
    subst none
    exact holds
  | succ fuel ih =>
    unfold readLoop
    by_cases none : n = 0
    · subst none
      exact holds
    · have first := there 0 (by omega)
      rw [Nat.add_zero] at first
      generalize size : min n (BSIZE - off % BSIZE) = m
      have low := Nat.mod_lt off (show 0 < BSIZE by decide)
      have short : m ≤ n := by omega
      have some : 0 < m := by omega
      rw [if_neg none, wp_bind]
      apply bmap_inside copy first.1 first.2
      rw [wp_bind, wp_get]
      dsimp only
      rw [wp_bind]
      apply ih (by omega)
      · intro q lowQ
        have next := there (m + q) (by omega)
        rw [show off + m + q = off + (m + q) by omega]
        exact next
      · rw [wp_pure]
        have bytes : (List.range n).map (fun q => content s.disk d (off + q)) =
            (List.range m).map (fun j => s.disk (addrAt s.disk d (off / BSIZE)) (off % BSIZE + j)) ++
            (List.range (n - m)).map fun q => content s.disk d (off + m + q) := by
          rw [show List.range n = List.range (m + (n - m)) by rw [Nat.add_sub_cancel' short],
            List.range_add, List.map_append, List.map_map]
          congr 1
          · apply List.map_congr_left
            intro j member
            have lowJ := List.mem_range.mp member
            have place : (off + j) / BSIZE = off / BSIZE ∧ (off + j) % BSIZE = off % BSIZE + j := by
              unfold BSIZE at *
              omega
            unfold content
            rw [place.1, place.2]
          · apply List.map_congr_left
            intro q _
            dsimp only [Function.comp]
            rw [Nat.add_assoc]
        rw [← bytes]
        exact holds

/-- The result of `readi` in terms of the bytes of the file. -/
def readOf (d : Dinode) (bytes : Nat → BitVec 8) (off n : UInt32) : Option Xv6Fs.Bytes :=
  if d.type = T_DEV then none
  else if d.size < off ∨ off + n < off then none
  else some ((List.range (if d.size < off + n then d.size - off else n).toNat).map
    fun q => bytes (off.toNat + q))

/-- A file without holes is read without a change. -/
theorem readi_spec {Q : Option Xv6Fs.Bytes → Fs → Prop} (copy : (s.icache k).d = d)
    (mapped : Mapped s.disk d (nblocks d)) {off n : UInt32}
    (holds : Q (readOf d (content s.disk d) off n) s) : wp E (readi sb k off n) s Q := by
  unfold readi
  unfold readOf at holds
  rw [wp_bind, wp_get]
  dsimp only
  rw [copy]
  by_cases device : d.type = T_DEV
  · rw [if_pos device] at holds ⊢
    exact holds
  · rw [if_neg device] at holds ⊢
    by_cases out : d.size < off ∨ off + n < off
    · rw [if_pos out] at holds ⊢
      exact holds
    · rw [if_neg out] at holds ⊢
      generalize count : (if d.size < off + n then d.size - off else n) = c at holds ⊢
      have bound : off.toNat + c.toNat ≤ d.size.toNat := by
        rw [← count]
        rw [UInt32.lt_iff_toNat_lt, UInt32.lt_iff_toNat_lt, UInt32.toNat_add] at out
        have sizeLt := d.size.toNat_lt
        have offLt := off.toNat_lt
        have nLt := n.toNat_lt
        split
        · rename_i past
          rw [UInt32.toNat_sub]
          omega
        · rename_i whole
          rw [UInt32.lt_iff_toNat_lt, UInt32.toNat_add] at whole
          omega
      rw [wp_bind]
      apply readLoop_spec copy _ (Nat.le_refl _)
      · intro q lowQ
        have block : (off.toNat + q) / BSIZE < nblocks d := by
          unfold nblocks BSIZE
          omega
        have inside := Nat.lt_of_lt_of_le block mapped.1
        exact ⟨inside, (mapped.2 _ inside).mpr block⟩
      · exact holds

end Reading

/-- `n` bytes have been written to inode `i` at offset `off`. -/
structure Written (sb : Superblock) (i : Nat) (s : Fs) (D : Nat → Dinode) (X : Nat → Nat) (off n : Nat)
    (src : Nat → BitVec 8) (t : Fs) (D' : Nat → Dinode) (X' : Nat → Nat) : Prop where
  step : Step sb i s D t D'
  volume : Volume sb t D' X'
  others : ∀ j, j ≠ i → X' j = X j
  grows : X' i = if n = 0 then X i else max (X i) ((off + n + BSIZE - 1) / BSIZE)
  inside : off + n ≤ X i * BSIZE → D' = D
  rest : ∀ j ∈ allocated sb D, ∀ o, o / BSIZE < X j → (j = i → o < off ∨ off + n ≤ o) →
    content t.disk (D' j) o = content s.disk (D j) o
  new : ∀ q, q < n → content t.disk (D' i) (off + q) = src q

section Writing
variable {sb : Superblock} {s : Fs} {D : Nat → Dinode} {X : Nat → Nat} {i : Nat} {k : Slot}
  {E : Panic → Prop}

/-- Bytes of one block of the file are written. -/
theorem write_block (volume : Volume sb s D X) (here : i ∈ allocated sb D) {off n w : Nat}
    (src : Nat → BitVec 8) (mapped : off / BSIZE < X i) (fits : off % BSIZE + n ≤ BSIZE) :
    let t : Fs := { s with
      disk := Function.update s.disk (addrAt s.disk (D i) (off / BSIZE))
        (overlay (s.disk (addrAt s.disk (D i) (off / BSIZE))) (off % BSIZE) n src), written := w }
    Step sb i s D t D ∧ Volume sb t D X ∧
    (∀ j ∈ allocated sb D, ∀ o, o / BSIZE < X j → (j = i → o < off ∨ off + n ≤ o) →
      content t.disk (D j) o = content s.disk (D j) o) ∧
    ∀ q, q < n → content t.disk (D i) (off + q) = src q := by
  have used := volume.used here mapped
  have most := (volume.mapped i here).1
  have there : addrAt s.disk (D i) (off / BSIZE) ≠ 0 :=
    ((volume.mapped i here).2 _ (by omega)).mpr mapped
  have area := (volume.bitmap.data _ used).1
  generalize address : addrAt s.disk (D i) (off / BSIZE) = c at *
  intro t
  have lasts : ∀ j ∈ allocated sb D, lastAddr (D j) ≠ 0 →
      t.disk (lastAddr (D j)).toNat = s.disk (lastAddr (D j)).toNat := by
    intro j yours some
    have apart : (lastAddr (D j)).toNat ≠ c := by
      rw [← address]
      exact data_not_indirect volume.bitmap.nodup here yours (by omega) (by rw [address]; exact there) some
    exact Function.update_of_ne apart _ _
  have addrs : ∀ j ∈ allocated sb D, ∀ m, addrAt t.disk (D j) m = addrAt s.disk (D j) m :=
    fun j yours m => addrAt_congr (lasts j yours) m
  refine ⟨⟨fun _ _ => rfl, rfl, fun j low => dinodeAt_data _ area low, fun _ => rfl⟩,
    ⟨cached_icache volume.cached rfl, ?_, fun j yours => ?_⟩, fun j yours o low apart => ?_, fun q lowQ => ?_⟩
  · have same : refs sb t.disk D = refs sb s.disk D :=
      refs_congr fun j yours => blocks_congr (lasts j yours)
    rw [same]
    exact bitmap_data _ volume.bitmap area
  · refine ⟨(volume.mapped j yours).1, fun m low => ?_⟩
    rw [addrs j yours m]
    exact (volume.mapped j yours).2 m low
  · unfold content
    rw [addrs j yours]
    by_cases same : addrAt s.disk (D j) (o / BSIZE) = c
    · have mostJ := (volume.mapped j yours).1
      have thereJ := ((volume.mapped j yours).2 (o / BSIZE) (by omega)).mpr low
      obtain ⟨eq,block⟩ := data_unique volume.bitmap.nodup yours here (by omega) (by omega) thereJ
        (same.trans address.symm)
      have out := apart eq
      rw [same]
      dsimp only [t]
      rw [Function.update_self]
      apply overlay_out
      unfold BSIZE at *
      omega
    · dsimp only [t]
      rw [Function.update_of_ne same]
  · have place : (off + q) / BSIZE = off / BSIZE ∧ (off + q) % BSIZE = off % BSIZE + q := by
      unfold BSIZE at *
      omega
    unfold content
    rw [addrs i here, place.1, place.2, address]
    dsimp only [t]
    rw [Function.update_self, overlay_in lowQ]

theorem writeLoop_spec (lax : Lax E) (fuel : Nat) {src : Nat → BitVec 8} {off n : Nat} (enough : n ≤ fuel)
    (volume : Volume sb s D X) (holds : Holds s k i) (fits : off + n ≤ MAXFILE * BSIZE)
    (reach : 0 < n → off / BSIZE ≤ X i) : wp E (writeLoop sb k fuel src off n) s fun _ t =>
      ∃ D' X', Written sb i s D X off n src t D' X' := by
  induction fuel generalizing s D X src off n with
  | zero =>
    have none : n = 0 := by omega
    subst none
    exact ⟨D, X, Step.refl, volume, fun _ _ => rfl, rfl, fun _ => rfl, fun _ _ _ _ _ => rfl,
      fun q low => absurd low (by omega)⟩
  | succ fuel ih =>
    unfold writeLoop
    by_cases none : n = 0
    · subst none
      exact ⟨D, X, Step.refl, volume, fun _ _ => rfl, rfl, fun _ => rfl, fun _ _ _ _ _ => rfl,
        fun q low => absurd low (by omega)⟩
    · have here := volume.here holds
      have low := Nat.mod_lt off (show 0 < BSIZE by decide)
      generalize size : min n (BSIZE - off % BSIZE) = m
      have short : m ≤ n := by omega
      have some : 0 < m := by omega
      have last : off / BSIZE < MAXFILE := by
        unfold BSIZE at *
        omega
      rw [if_neg none, wp_bind]
      refine wp_mono (bmap_spec lax volume holds last (reach (by omega))) ?_
      rintro _ t ⟨D1,grown,rfl,inside⟩
      rw [wp_bind]
      apply wp_bupdate
      have here1 : i ∈ allocated sb D1 := by
        rw [grown.step.allocated]
        exact here
      have mapped : off / BSIZE < Function.update X i (max (X i) (off / BSIZE + 1)) i := by
        rw [Function.update_self]
        omega
      obtain ⟨step,volume2,rest,new⟩ := write_block grown.volume here1 (n := m)
        (w := t.written + 1) src mapped (by omega)
      refine wp_mono (ih (by omega) volume2 (step.slots.holds (grown.step.slots.holds holds)) (by omega) ?_) ?_
      · intro more
        rw [Function.update_self]
        unfold BSIZE at *
        omega
      · rintro _ u ⟨D',X',done⟩
        refine ⟨D', X', (grown.step.trans step).trans done.step, done.volume, fun j other => ?_, ?_, ?_, ?_, ?_⟩
        · rw [done.others j other, Function.update_of_ne other]
        · rw [done.grows, Function.update_self, if_neg none]
          unfold BSIZE at *
          split <;> omega
        · intro within
          have first : D1 = D := inside (by unfold BSIZE at *; omega)
          rw [done.inside, first]
          rw [Function.update_self]
          unfold BSIZE at *
          omega
        · intro j yours o lowO apart
          have yours1 : j ∈ allocated sb D1 := by
            rw [grown.step.allocated]
            exact yours
          have lowO1 : o / BSIZE < Function.update X i (max (X i) (off / BSIZE + 1)) j := by
            by_cases eq : j = i
            · subst eq
              rw [Function.update_self]
              omega
            · rw [Function.update_of_ne eq]
              exact lowO
          rw [done.rest j yours1 o lowO1 fun eq => by have := apart eq; omega,
            rest j yours1 o lowO1 fun eq => by have := apart eq; omega, grown.content j yours o lowO]
        · intro q lowQ
          by_cases first : q < m
          · have blockQ : (off + q) / BSIZE < Function.update X i (max (X i) (off / BSIZE + 1)) i := by
              rw [Function.update_self]
              unfold BSIZE at *
              omega
            rw [done.rest i here1 (off + q) blockQ fun _ => by omega]
            exact new q first
          · have later := done.new (q - m) (by omega)
            rw [show off + m + (q - m) = off + q by omega, show q - m + m = q by omega] at later
            exact later

end Writing

/-- Every disk inode is as the table says, and every file has the blocks of its size. -/
structure Clean (sb : Superblock) (s : Fs) (D : Nat → Dinode) : Prop where
  volume : Volume sb s D fun i => nblocks (D i)
  synced : ∀ i, i < sb.ninodes → dinodeAt sb s.disk i = D i

/-- The files other than `i` are as they were. -/
structure OtherFiles (sb : Superblock) (i : Nat) (s : Fs) (D : Nat → Dinode) (t : Fs) (D' : Nat → Dinode) :
    Prop where
  table : ∀ j, j ≠ i → D' j = D j
  bytes : ∀ j ∈ allocated sb D, j ≠ i → ∀ o, o < (D j).size.toNat →
    content t.disk (D j) o = content s.disk (D j) o

/-- `n` bytes have been written to file `i`, and its inode with them. -/
structure WroteFile (sb : Superblock) (i : Nat) (s : Fs) (D : Nat → Dinode) (off n : Nat)
    (src : Nat → BitVec 8) (t : Fs) (D' : Nat → Dinode) : Prop where
  clean : Clean sb t D'
  slots : SameSlots s t
  others : OtherFiles sb i s D t D'
  fields : D' i = { D i with size := (D' i).size, addrs := (D' i).addrs }
  size : (D' i).size.toNat = max (D i).size.toNat (off + n)
  start : off ≤ (D i).size.toNat
  rest : ∀ o, o < (D i).size.toNat → o < off ∨ off + n ≤ o →
    content t.disk (D' i) o = content s.disk (D i) o
  new : ∀ q, q < n → content t.disk (D' i) (off + q) = src q

section Updates
variable {sb : Superblock} {s : Fs} {D : Nat → Dinode} {X : Nat → Nat} {i : Nat} {k : Slot} {E : Panic → Prop}

theorem addrAt_addrs {d e : Dinode} (disk : Nat → Block) (same : d.addrs = e.addrs) (m : Nat) :
    addrAt disk d m = addrAt disk e m := by
  unfold addrAt Dinode.direct lastAddr
  rw [same]

theorem blocks_addrs {d e : Dinode} (disk : Nat → Block) (same : d.addrs = e.addrs) :
    blocks disk d = blocks disk e := by
  unfold blocks dataBlocks indirectBlock lastAddr
  rw [same, show addrAt disk d = addrAt disk e from funext (addrAt_addrs disk same)]

theorem content_addrs {d e : Dinode} (disk : Nat → Block) (same : d.addrs = e.addrs) (o : Nat) :
    content disk d o = content disk e o := by
  unfold content
  rw [addrAt_addrs disk same]

/-- A change of the copy that keeps the type and the addresses. -/
theorem volume_setDinode {f : Dinode → Dinode} (volume : Volume sb s D X) (holds : Holds s k i)
    (type : (f (D i)).type = (D i).type) (addrs : (f (D i)).addrs = (D i).addrs) :
    Volume sb { s with
      icache := Function.update s.icache k { s.icache k with d := f (s.icache k).d } }
      (Function.update D i (f (D i))) X := by
  have here := volume.here holds
  have typed : (f (D i)).type ≠ 0 := by
    rw [type]
    exact (mem_allocated.mp here).2
  refine ⟨cached_setDinode volume.cached holds typed, ?_, fun j there => ?_⟩
  · have total : refs sb s.disk (Function.update D i (f (D i))) + blocks s.disk (D i) =
        refs sb s.disk D + blocks s.disk (f (D i)) := refs_update here typed fun _ _ _ => rfl
    rw [blocks_addrs s.disk addrs] at total
    dsimp only
    rw [add_right_cancel total]
    exact volume.bitmap
  · by_cases eq : j = i
    · subst eq
      rw [Function.update_self]
      refine ⟨(volume.mapped j here).1, fun m low => ?_⟩
      rw [addrAt_addrs _ addrs]
      exact (volume.mapped j here).2 m low
    · have there' : j ∈ allocated sb D := by
        rw [mem_allocated, Function.update_of_ne eq] at there
        exact mem_allocated.mpr there
      rw [Function.update_of_ne eq]
      exact volume.mapped j there'

/-- A write below the bitmap leaves bitmap and files alone. -/
theorem volume_low {c w : Nat} (blk : Block) (volume : Volume sb s D X) (low : c < sb.bmapstart) :
    Volume sb { s with disk := Function.update s.disk c blk, written := w } D X := by
  have before := bmapstart_le sb
  have lasts : ∀ j ∈ allocated sb D, lastAddr (D j) ≠ 0 →
      Function.update s.disk c blk (lastAddr (D j)).toNat = s.disk (lastAddr (D j)).toNat := by
    intro j there some
    have area := (volume.bitmap.data _ (mem_refs_indirect there some)).1
    exact Function.update_of_ne (by omega) _ _
  refine ⟨cached_icache volume.cached rfl, ?_, fun j there => ?_⟩
  · have same : refs sb (Function.update s.disk c blk) D = refs sb s.disk D :=
      refs_congr fun j there => blocks_congr (lasts j there)
    dsimp only
    rw [same]
    refine ⟨volume.bitmap.nodup, volume.bitmap.data, fun b inside => ?_⟩
    have apart : BBLOCK sb b ≠ c := by
      have := (bblock_area inside).1
      omega
    rw [bit_congr (Function.update_of_ne apart _ _)]
    exact volume.bitmap.bits b inside
  · refine ⟨(volume.mapped j there).1, fun m lowM => ?_⟩
    dsimp only
    rw [addrAt_congr (lasts j there)]
    exact (volume.mapped j there).2 m lowM

theorem iupdate_spec (volume : Volume sb s D X) (holds : Holds s k i) :
    wp E (iupdate sb k) s fun _ t => Volume sb t D X ∧ t.icache = s.icache ∧
      (∀ c, sb.nmeta ≤ c → t.disk c = s.disk c) ∧
      ∀ j, dinodeAt sb t.disk j = if j = i then D i else dinodeAt sb s.disk j := by
  have low := iblock_low (mem_allocated.mp (volume.here holds)).1
  have before := bmapstart_le sb
  unfold iupdate
  rw [wp_bind, wp_get]
  dsimp only
  rw [holds.inum, volume.cached.copy k i holds]
  refine ⟨volume_low _ volume low, rfl, fun c high => ?_, fun j => dinodeAt_write i j (D i)⟩
  exact Function.update_of_ne (by omega) _ _

/-- Bytes are read from the data area. -/
theorem content_kept {t : Fs} (volume : Volume sb s D X) (same : ∀ c, sb.nmeta ≤ c → t.disk c = s.disk c)
    {j : Nat} (there : j ∈ allocated sb D) {o : Nat} (low : o / BSIZE < X j) :
    content t.disk (D j) o = content s.disk (D j) o := by
  have lasts : lastAddr (D j) ≠ 0 → t.disk (lastAddr (D j)).toNat = s.disk (lastAddr (D j)).toNat :=
    fun some => same _ (volume.bitmap.data _ (mem_refs_indirect there some)).1
  unfold content
  rw [addrAt_congr lasts, same _ (volume.bitmap.data _ (volume.used there low)).1]

theorem block_of_offset {d : Dinode} {o : Nat} (low : o < d.size.toNat) : o / BSIZE < nblocks d := by
  unfold nblocks BSIZE
  omega

/-- A write that fits into the file leaves its inode alone. -/
theorem wrote_inside {t : Fs} {D' : Nat → Dinode} {X' : Nat → Nat} {off n : Nat} {src : Nat → BitVec 8}
    (clean : Clean sb s D) (here : i ∈ allocated sb D) (start : off ≤ (D i).size.toNat)
    (fits : off + n ≤ (D i).size.toNat)
    (done : Written sb i s D (fun i => nblocks (D i)) off n src t D' X') :
    WroteFile sb i s D off n src t D := by
  have within : off + n ≤ nblocks (D i) * BSIZE := by
    unfold nblocks BSIZE
    omega
  have same : D' = D := done.inside within
  subst same
  have sizes : X' = fun i => nblocks (D' i) := by
    funext j
    by_cases eq : j = i
    · subst eq
      rw [done.grows]
      split
      · rfl
      · unfold nblocks BSIZE
        omega
    · exact done.others j eq
  rw [sizes] at done
  refine ⟨⟨done.volume, fun j low => ?_⟩, done.step.slots, ⟨fun _ _ => rfl, fun j there other o low => ?_⟩,
    rfl, by omega, start, fun o low out => ?_, done.new⟩
  · rw [done.step.dinode j low]
    exact clean.synced j low
  · exact done.rest j there o (block_of_offset low) fun eq => absurd eq other
  · exact done.rest i here o (block_of_offset low) fun _ => out

/-- A field of the inode is changed in the cache and on disk. -/
theorem wp_update {f : Dinode → Dinode} {Q : Unit → Fs → Prop} (volume : Volume sb s D X)
    (holds : Holds s k i) (type : (f (D i)).type = (D i).type) (addrs : (f (D i)).addrs = (D i).addrs)
    (after : ∀ t, Volume sb t (Function.update D i (f (D i))) X → SameSlots s t →
      (∀ c, sb.nmeta ≤ c → t.disk c = s.disk c) →
      (∀ j, dinodeAt sb t.disk j = if j = i then f (D i) else dinodeAt sb s.disk j) → Q () t) :
    wp E (setDinode k f) s fun _ t => wp E (iupdate sb k) t Q := by
  apply wp_setDinode
  have changed := volume_setDinode volume holds type addrs
  generalize state : ({ s with
      icache := Function.update s.icache k { s.icache k with d := f (s.icache k).d } } : Fs) = v at changed ⊢
  have slots : SameSlots s v := by
    intro l
    rw [← state]
    dsimp only
    by_cases same : l = k
    · subst same
      rw [Function.update_self]
    · rw [Function.update_of_ne same]
  have disk : v.disk = s.disk := by
    rw [← state]
  refine wp_mono (iupdate_spec changed (slots.holds holds)) ?_
  rintro _ t ⟨volumeT,icache,data,dinodes⟩
  rw [disk] at data dinodes
  rw [Function.update_self] at dinodes
  refine after t volumeT (fun l => ?_) data dinodes
  rw [icache]
  exact slots l

/-- A change of an inode that keeps type, size and addresses, and what is on disk. -/
theorem wp_change {f : Dinode → Dinode} {Q : Unit → Fs → Prop} (clean : Clean sb s D) (holds : Holds s k i)
    (type : (f (D i)).type = (D i).type) (size : (f (D i)).size = (D i).size)
    (addrs : (f (D i)).addrs = (D i).addrs)
    (after : ∀ t, Clean sb t (Function.update D i (f (D i))) → SameSlots s t →
      (∀ c, sb.nmeta ≤ c → t.disk c = s.disk c) → Q () t) :
    wp E (setDinode k f) s fun _ t => wp E (iupdate sb k) t Q := by
  apply wp_update clean.volume holds type addrs
  intro t volume slots data dinodes
  have sizes : (fun j => nblocks (D j)) = fun j => nblocks (Function.update D i (f (D i)) j) := by
    funext j
    by_cases eq : j = i
    · subst eq
      rw [Function.update_self]
      unfold nblocks
      rw [size]
    · rw [Function.update_of_ne eq]
  rw [sizes] at volume
  refine after t ⟨volume, fun j low => ?_⟩ slots data
  rw [dinodes j]
  by_cases eq : j = i
  · rw [if_pos eq, eq, Function.update_self]
  · rw [if_neg eq, Function.update_of_ne eq]
    exact clean.synced j low

/-- A write past the end, followed by the change of the size and `iupdate`. -/
theorem wrote_grown {t : Fs} {D' : Nat → Dinode} {X' : Nat → Nat} {off n : Nat} {src : Nat → BitVec 8}
    {size : UInt32} {Q : Unit → Fs → Prop} (clean : Clean sb s D) (holds : Holds s k i)
    (start : off ≤ (D i).size.toNat) (total : size.toNat = off + n) (past : (D i).size.toNat < off + n)
    (done : Written sb i s D (fun i => nblocks (D i)) off n src t D' X')
    (after : ∀ u D'', WroteFile sb i s D off n src u D'' → Q () u) :
    wp E (setDinode k fun d => { d with size := size }) t fun _ u => wp E (iupdate sb k) u Q := by
  have here := clean.volume.here holds
  apply wp_update done.volume (done.step.slots.holds holds) rfl rfl
  intro u volume slots data dinodes
  have sizes : X' = fun j => nblocks (Function.update D' i { D' i with size := size } j) := by
    funext j
    by_cases eq : j = i
    · subst eq
      rw [done.grows, Function.update_self, if_neg (by omega)]
      unfold nblocks BSIZE
      dsimp only
      omega
    · rw [done.others j eq, Function.update_of_ne eq, done.step.others j eq]
  have contents : ∀ j ∈ allocated sb D, ∀ o, o / BSIZE < X' j →
      content u.disk (Function.update D' i { D' i with size := size } j) o = content t.disk (D' j) o := by
    intro j there o low
    have there' : j ∈ allocated sb D' := by
      rw [done.step.allocated]
      exact there
    rw [← content_kept done.volume data there' low]
    by_cases eq : j = i
    · subst eq
      rw [Function.update_self]
      exact content_addrs _ rfl o
    · rw [Function.update_of_ne eq]
  have mapped : ∀ j o, o / BSIZE < nblocks (D j) → o / BSIZE < X' j := by
    intro j o low
    by_cases eq : j = i
    · subst eq
      rw [done.grows]
      split <;> omega
    · rw [done.others j eq]
      exact low
  rw [sizes] at volume
  refine after u _ ⟨⟨volume, fun j low => ?_⟩, fun l => ?_,
    ⟨fun j other => ?_, fun j there other o low => ?_⟩, ?_, ?_, start, fun o low out => ?_, fun q lowQ => ?_⟩
  · rw [dinodes j]
    by_cases eq : j = i
    · rw [if_pos eq, eq, Function.update_self]
    · rw [if_neg eq, Function.update_of_ne eq, done.step.others j eq, done.step.dinode j low]
      exact clean.synced j low
  · rw [slots l, done.step.slots l]
  · rw [Function.update_of_ne other, done.step.others j other]
  · have block := block_of_offset low
    have kept := contents j there o (mapped j o block)
    have old := done.rest j there o block fun eq => absurd eq other
    rw [Function.update_of_ne other] at kept
    rw [done.step.others j other] at kept old
    exact kept.trans old
  · rw [Function.update_self, done.step.fields]
  · rw [Function.update_self]
    dsimp only
    omega
  · have block := block_of_offset low
    rw [contents i here o (mapped i o block)]
    exact done.rest i here o block fun _ => out
  · have block : (off + q) / BSIZE < X' i := by
      rw [done.grows, if_neg (by omega)]
      unfold BSIZE
      omega
    rw [contents i here _ block]
    exact done.new q lowQ

theorem writei_spec {off n : UInt32} {src : Nat → BitVec 8} (lax : Lax E) (clean : Clean sb s D) (holds : Holds s k i) :
    wp E (writei sb k src off n) s fun r t => (r = none ∧ t = s) ∨
      (r = some n ∧ ∃ D', WroteFile sb i s D off.toNat n.toNat src t D') := by
  have here := clean.volume.here holds
  have copy := clean.volume.cached.copy k i holds
  unfold writei
  rw [wp_bind, wp_get]
  dsimp only
  rw [copy]
  by_cases device : (D i).type = T_DEV
  · rw [if_pos device]
    exact Or.inl ⟨rfl,rfl⟩
  · rw [if_neg device]
    by_cases out : (D i).size < off ∨ off + n < off
    · rw [if_pos out]
      exact Or.inl ⟨rfl,rfl⟩
    · rw [if_neg out]
      by_cases big : MAXFILE * BSIZE < (off + n).toNat
      · rw [if_pos big]
        exact Or.inl ⟨rfl,rfl⟩
      · rw [if_neg big, wp_bind]
        have sum : (off + n).toNat = off.toNat + n.toNat := by
          rw [UInt32.lt_iff_toNat_lt, UInt32.lt_iff_toNat_lt, UInt32.toNat_add] at out
          rw [UInt32.toNat_add]
          have offLt := off.toNat_lt
          have nLt := n.toNat_lt
          omega
        have start : off.toNat ≤ (D i).size.toNat := by
          rw [UInt32.lt_iff_toNat_lt] at out
          omega
        refine wp_mono (writeLoop_spec lax n.toNat (Nat.le_refl _) clean.volume holds (by omega) ?_) ?_
        · intro _
          unfold nblocks BSIZE
          omega
        · rintro _ t ⟨D',X',done⟩
          by_cases past : 0 < n ∧ (D i).size < off + n
          · rw [if_pos past]
            have more := past.2
            rw [UInt32.lt_iff_toNat_lt, sum] at more
            simp only [wp_bind]
            apply wrote_grown clean holds start sum more done
            intro u D'' wrote
            exact Or.inr ⟨rfl,D'',wrote⟩
          · rw [if_neg past, wp_pure]
            have fits : off.toNat + n.toNat ≤ (D i).size.toNat := by
              rw [UInt32.lt_iff_toNat_lt, UInt32.lt_iff_toNat_lt, sum] at past
              have zero : (0 : UInt32).toNat = 0 := rfl
              omega
            exact Or.inr ⟨rfl, D, wrote_inside clean here start fits done⟩

end Updates
end Xv6FsFile
