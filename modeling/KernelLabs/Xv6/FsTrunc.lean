import KernelLabs.Xv6.FsFile

/-!
`itrunc` gives back every block of a file and no other.
-/
namespace Xv6FsTrunc
open Xv6Fs Xv6FsDisk Xv6FsOwn Xv6FsVolume Xv6FsFile Bytes Wp

/-- The inode without blocks. -/
def cleared (d : Dinode) : Dinode := { d with addrs := fun _ => 0 }

/-- The inode of an empty file. -/
def emptied (d : Dinode) : Dinode := { cleared d with size := 0 }

/-- The block numbers of the inodes other than `i`. -/
def otherRefs (sb : Superblock) (disk : Nat → Block) (D : Nat → Dinode) (i : Nat) : Multiset Nat :=
  refs sb disk (Function.update D i (cleared (D i)))

/-- The addresses in the indirect block `bp` at the places `l`. -/
def entries (bp : Block) (l : List Nat) : Multiset Nat :=
  ((l.map fun j => field bp (4 * j) 4 : List Nat) : Multiset Nat).filter (· ≠ 0)

/-- Only the copy of inode `i` in slot `k` and the bitmap have changed. -/
structure Freeing (sb : Superblock) (k : Slot) (s t : Fs) : Prop where
  icache : ∀ l, l ≠ k → t.icache l = s.icache l
  slot : t.icache k = { s.icache k with d := (t.icache k).d }
  fields : (t.icache k).d = { (s.icache k).d with addrs := (t.icache k).d.addrs }
  dinode : ∀ j, j < sb.ninodes → dinodeAt sb t.disk j = dinodeAt sb s.disk j
  data : ∀ c, sb.nmeta ≤ c → t.disk c = s.disk c

section Addresses
variable {disk : Nat → Block} {d : Dinode}

theorem castSucc_ofNat (a : Fin NDIRECT) : a.castSucc = Fin.ofNat (NDIRECT + 1) a := by
  apply Fin.ext
  rw [ofNat_val (by omega)]
  rfl

theorem addrAt_none (direct : ∀ a : Fin NDIRECT, d.addrs a.castSucc = 0) {m : Nat} (low : m < NDIRECT) :
    addrAt disk d m = 0 := by
  unfold addrAt Dinode.direct
  rw [if_pos low]
  rw [← castSucc_ofNat ⟨m,low⟩, direct]
  rfl

theorem blocks_none (direct : ∀ a : Fin NDIRECT, d.addrs a.castSucc = 0) (none : lastAddr d = 0) :
    blocks disk d = 0 := by
  have zero : ∀ m, addrAt disk d m = 0 := by
    intro m
    by_cases low : m < NDIRECT
    · exact addrAt_none direct low
    · unfold addrAt
      rw [if_neg low, if_pos none]
  unfold blocks dataBlocks indirectBlock
  rw [if_pos none, add_zero, Multiset.filter_eq_nil]
  intro b member
  obtain ⟨m,_,rfl⟩ := Multiset.mem_map.mp member
  simp [zero m]

theorem blocks_cleared (d : Dinode) : blocks disk (cleared d) = 0 := blocks_none (fun _ => rfl) rfl

theorem blocks_indirect (direct : ∀ a : Fin NDIRECT, d.addrs a.castSucc = 0) (some : lastAddr d ≠ 0) :
    blocks disk d = entries (disk (lastAddr d).toNat) (List.range NINDIRECT) + {(lastAddr d).toNat} := by
  unfold blocks dataBlocks indirectBlock
  rw [if_neg some]
  congr 1
  unfold MAXFILE entries
  rw [Multiset.range_add, Multiset.map_add, Multiset.filter_add, Multiset.map_map]
  have first : ((Multiset.range NDIRECT).map (addrAt disk d)).filter (· ≠ 0) = 0 := by
    rw [Multiset.filter_eq_nil]
    intro b member
    obtain ⟨m,low,rfl⟩ := Multiset.mem_map.mp member
    simp [addrAt_none direct (Multiset.mem_range.mp low)]
  rw [first, zero_add]
  congr 1
  rw [← Multiset.map_coe]
  apply Multiset.map_congr rfl
  intro j _
  dsimp only [Function.comp]
  unfold addrAt
  rw [if_neg (by omega), if_neg some, Nat.add_sub_cancel_left]

theorem blocks_free (disk : Nat → Block) (a : Fin NDIRECT) (some : d.addrs a.castSucc ≠ 0) :
    blocks disk d = (d.addrs a.castSucc).toNat ::ₘ blocks disk (withAddr a.castSucc 0 d) := by
  have index := castSucc_ofNat a
  have addr : ∀ m, addrAt disk (withAddr a.castSucc 0 d) m = if m = a then 0 else addrAt disk d m := by
    intro m
    rw [index, addrAt_direct a.isLt (by decide)]
  have mine : addrAt disk d a = (d.addrs a.castSucc).toNat := by
    unfold addrAt Dinode.direct
    rw [if_pos a.isLt, ← index]
  have low : (a : Nat) < MAXFILE := Nat.lt_of_lt_of_le a.isLt (Nat.le_add_right _ _)
  have positive : addrAt disk d a ≠ 0 := by
    rw [mine]
    intro zero
    exact some (UInt32.toNat_inj.mp zero)
  unfold blocks dataBlocks indirectBlock
  rw [index, lastAddr_direct a.isLt, ← index, ← Multiset.cons_add, ← mine]
  congr 1
  exact filter_map_cons low (fun m _ other => by rw [addr m, if_neg other]) (by rw [addr a, if_pos rfl]) positive

end Addresses

section Truncation
variable {sb : Superblock} {s t : Fs} {D : Nat → Dinode} {X : Nat → Nat} {i : Nat} {k : Slot}
  {E : Panic → Prop}

theorem refs_split (disk : Nat → Block) (here : i ∈ allocated sb D) :
    refs sb disk D = otherRefs sb disk D i + blocks disk (D i) := by
  have total : refs sb disk (Function.update D i (cleared (D i))) + blocks disk (D i) =
      refs sb disk D + blocks disk (cleared (D i)) :=
    refs_update here (mem_allocated.mp here).2 fun _ _ _ => rfl
  rw [blocks_cleared, add_zero] at total
  exact total.symm

theorem Freeing.refl : Freeing sb k s s := ⟨fun _ _ => rfl, rfl, rfl, fun _ _ => rfl, fun _ _ => rfl⟩

/-- A block has been freed. -/
theorem Freeing.moved {u : Fs} (freeing : Freeing sb k s t) (moved : Moved sb (fun _ => False) t u) :
    Freeing sb k s u := by
  refine ⟨?_,?_,?_,?_,?_⟩
  · rw [moved.icache]
    exact freeing.icache
  · rw [moved.icache]
    exact freeing.slot
  · rw [moved.icache]
    exact freeing.fields
  · intro j low
    rw [moved.dinode j low]
    exact freeing.dinode j low
  · intro c high
    rw [moved.data c high id]
    exact freeing.data c high

/-- An address has been cleared. -/
theorem Freeing.clear (freeing : Freeing sb k s t) (a : Fin (NDIRECT + 1)) : Freeing sb k s { t with
    icache := Function.update t.icache k { t.icache k with d := withAddr a 0 (t.icache k).d } } := by
  refine ⟨fun l other => ?_, ?_, ?_, freeing.dinode, freeing.data⟩
  · dsimp only
    rw [Function.update_of_ne other]
    exact freeing.icache l other
  · dsimp only
    rw [Function.update_self]
    rw [freeing.slot]
  · dsimp only
    rw [Function.update_self]
    dsimp only [withAddr]
    rw [freeing.fields]

/-- After the first loop no direct address is left. -/
theorem truncDirect_spec (bitmap : Bitmap sb s.disk (otherRefs sb s.disk D i + blocks s.disk (s.icache k).d)) :
    wp E (forM (List.finRange NDIRECT) (truncDirect sb k)) s fun _ t => Freeing sb k s t ∧
      Bitmap sb t.disk (otherRefs sb s.disk D i + blocks s.disk (t.icache k).d) ∧
      (∀ a : Fin NDIRECT, (t.icache k).d.addrs a.castSucc = 0) ∧
      lastAddr (t.icache k).d = lastAddr (s.icache k).d := by
  have loop := wp_forM (E := E) (truncDirect sb k) (fun rest t => Freeing sb k s t ∧
    Bitmap sb t.disk (otherRefs sb s.disk D i + blocks s.disk (t.icache k).d) ∧
    (∀ a : Fin NDIRECT, a ∉ rest → (t.icache k).d.addrs a.castSucc = 0) ∧
    lastAddr (t.icache k).d = lastAddr (s.icache k).d) ?_ (List.finRange NDIRECT) (s := s)
    ⟨Freeing.refl, bitmap, fun a out => absurd (List.mem_finRange a) out, rfl⟩
  · refine wp_mono loop ?_
    rintro _ t ⟨freeing,bm,zero,last⟩
    exact ⟨freeing, bm, fun a => zero a List.not_mem_nil, last⟩
  · rintro a rest t ⟨freeing,bm,zero,last⟩
    unfold truncDirect
    rw [wp_bind, wp_get]
    dsimp only
    by_cases none : (t.icache k).d.addrs a.castSucc = 0
    · rw [if_pos none, wp_pure]
      refine ⟨freeing, bm, fun c out => ?_, last⟩
      by_cases same : c = a
      · rw [same]
        exact none
      · exact zero c (by simp [same, out])
    · rw [if_neg none, wp_bind]
      have free := blocks_free s.disk a none
      refine wp_mono (bfree_spec bm ?_) ?_
      · rw [free, Multiset.add_cons]
        exact Multiset.mem_cons_self _ _
      · rintro _ u ⟨moved,bm'⟩
        refine wp_setDinode (f := withAddr a.castSucc 0) ?_
        rw [free, Multiset.add_cons, Multiset.erase_cons_head] at bm'
        refine ⟨(freeing.moved moved).clear _, ?_, fun c out => ?_, ?_⟩
        · dsimp only
          rw [Function.update_self, moved.icache]
          exact bm'
        · dsimp only
          rw [Function.update_self, moved.icache]
          dsimp only [withAddr]
          by_cases same : c = a
          · rw [same, Function.update_self]
            rfl
          · rw [Function.update_of_ne (fun eq => same (Fin.castSucc_injective _ eq))]
            exact zero c (by simp [same, out])
        · dsimp only
          rw [Function.update_self, moved.icache, ← last, castSucc_ofNat]
          exact lastAddr_direct a.isLt

theorem truncEntries_spec {bp : Block} {M : Multiset Nat} (l : List Nat)
    (bitmap : Bitmap sb s.disk (entries bp l + M)) : wp E (forM l (truncEntry sb bp)) s fun _ t =>
      Moved sb (fun _ => False) s t ∧ Bitmap sb t.disk M := by
  have loop := wp_forM (E := E) (truncEntry sb bp) (fun rest t =>
    Moved sb (fun _ => False) s t ∧ Bitmap sb t.disk (entries bp rest + M)) ?_ l (s := s)
    ⟨⟨rfl, fun _ _ => rfl, fun _ _ _ => rfl⟩, bitmap⟩
  · refine wp_mono loop ?_
    rintro _ t ⟨moved,bm⟩
    refine ⟨moved,?_⟩
    rw [show entries bp [] = 0 from rfl, zero_add] at bm
    exact bm
  · rintro j rest t ⟨moved,bm⟩
    unfold truncEntry
    by_cases none : field bp (4 * j) 4 = 0
    · rw [if_pos none, wp_pure]
      have skip : entries bp (j :: rest) = entries bp rest := by
        unfold entries
        rw [List.map_cons, ← Multiset.cons_coe, Multiset.filter_cons_of_neg _ (by simp [none])]
      rw [skip] at bm
      exact ⟨moved,bm⟩
    · rw [if_neg none]
      have take : entries bp (j :: rest) = field bp (4 * j) 4 ::ₘ entries bp rest := by
        unfold entries
        rw [List.map_cons, ← Multiset.cons_coe]
        exact Multiset.filter_cons_of_pos _ none
      rw [take, Multiset.cons_add] at bm
      refine wp_mono (bfree_spec bm (Multiset.mem_cons_self _ _)) ?_
      rintro _ u ⟨next,bm'⟩
      rw [Multiset.erase_cons_head] at bm'
      refine ⟨⟨next.icache.trans moved.icache, fun c low => ?_, fun c high _ => ?_⟩, bm'⟩
      · rw [next.dinode c low, moved.dinode c low]
      · rw [next.data c high id, moved.data c high id]

theorem truncIndirect_spec (freeing : Freeing sb k s t)
    (bitmap : Bitmap sb t.disk (otherRefs sb s.disk D i + blocks s.disk (t.icache k).d))
    (direct : ∀ a : Fin NDIRECT, (t.icache k).d.addrs a.castSucc = 0) :
    wp E (truncIndirect sb k) t fun _ u => Freeing sb k s u ∧
      Bitmap sb u.disk (otherRefs sb s.disk D i) ∧ (u.icache k).d = cleared (s.icache k).d := by
  have all : ∀ d : Dinode, (∀ a : Fin NDIRECT, d.addrs a.castSucc = 0) → lastAddr d = 0 →
      d.addrs = fun _ => 0 := by
    intro d zero last
    funext a
    rcases Fin.eq_castSucc_or_eq_last a with ⟨b,rfl⟩ | rfl
    · exact zero b
    · exact last
  unfold truncIndirect
  rw [wp_bind, wp_get]
  dsimp only
  generalize copy : (t.icache k).d = d at *
  change wp E (if lastAddr d = 0 then _ else _) t _
  by_cases none : lastAddr d = 0
  · rw [if_pos none, wp_pure]
    rw [blocks_none direct none, add_zero] at bitmap
    refine ⟨freeing, bitmap, ?_⟩
    rw [freeing.fields, copy, all d direct none]
    rfl
  · rw [if_neg none]
    rw [blocks_indirect direct none, add_left_comm] at bitmap
    have area : sb.nmeta ≤ (lastAddr d).toNat := by
      apply (bitmap.data _ _).1
      simp
    rw [← freeing.data _ area] at bitmap
    simp only [wp_bind]
    refine wp_mono (truncEntries_spec _ bitmap) ?_
    rintro _ u ⟨moved,bm⟩
    rw [add_comm, Multiset.singleton_add] at bm
    refine wp_mono (bfree_spec bm (Multiset.mem_cons_self _ _)) ?_
    rintro _ v ⟨next,bm'⟩
    rw [show d.addrs (Fin.last NDIRECT) = lastAddr d from rfl, Multiset.erase_cons_head] at bm'
    refine wp_setDinode (f := withAddr (Fin.last _) 0) ?_
    refine ⟨((freeing.moved moved).moved next).clear _, bm', ?_⟩
    dsimp only
    rw [Function.update_self, next.icache, moved.icache, copy]
    dsimp only
    have zero := all (withAddr (Fin.last _) 0 d) (fun a => ?_) lastAddr_last
    · have fields := freeing.fields
      rw [copy] at fields
      have same : cleared d = cleared (s.icache k).d := by
        rw [fields]
        rfl
      rw [← same]
      unfold cleared
      rw [← zero]
      rfl
    · unfold withAddr
      dsimp only
      rw [Function.update_of_ne (Fin.castSucc_lt_last a).ne]
      exact direct a

/-- Every block of the file has been freed and every address cleared. -/
theorem volume_cleared (volume : Volume sb s D X) (holds : Holds s k i) (freed : Freeing sb k s t)
    (bitmap : Bitmap sb t.disk (otherRefs sb s.disk D i)) (copy : (t.icache k).d = cleared (s.icache k).d) :
    Volume sb t (Function.update D i (cleared (D i))) (Function.update X i 0) := by
  have typed : (cleared (D i)).type ≠ 0 := volume.cached.typed k i holds
  have lasts : ∀ j ∈ allocated sb (Function.update D i (cleared (D i))),
      lastAddr (Function.update D i (cleared (D i)) j) ≠ 0 →
      t.disk (lastAddr (Function.update D i (cleared (D i)) j)).toNat =
        s.disk (lastAddr (Function.update D i (cleared (D i)) j)).toNat := by
    intro j there some
    exact freed.data _ (bitmap.data _ (mem_refs_indirect there some)).1
  have icache : t.icache = Function.update s.icache k { s.icache k with d := cleared (s.icache k).d } := by
    funext l
    by_cases same : l = k
    · subst same
      rw [Function.update_self, freed.slot, copy]
    · rw [Function.update_of_ne same, freed.icache l same]
  refine ⟨cached_icache (cached_setDinode (f := cleared) volume.cached holds typed) icache, ?_, fun j there => ?_⟩
  · rw [refs_congr fun j there => blocks_congr (lasts j there)]
    exact bitmap
  · by_cases eq : j = i
    · subst eq
      rw [Function.update_self, Function.update_self]
      refine ⟨Nat.zero_le _, fun m _ => ?_⟩
      have zero : addrAt t.disk (cleared (D j)) m = 0 := by
        unfold addrAt cleared lastAddr Dinode.direct
        simp
      simp [zero]
    · have kept := lasts j there
      rw [mem_allocated, Function.update_of_ne eq] at there
      rw [Function.update_of_ne eq] at kept ⊢
      rw [Function.update_of_ne eq]
      obtain ⟨most,addrs⟩ := volume.mapped j (mem_allocated.mpr there)
      refine ⟨most, fun m low => ?_⟩
      rw [addrAt_congr kept]
      exact addrs m low

/-- The file is empty in the cache and on disk, and its blocks are free. -/
theorem itrunc_spec (volume : Volume sb s D X) (holds : Holds s k i) : wp E (itrunc sb k) s fun _ t =>
    Volume sb t (Function.update D i (emptied (D i))) (Function.update X i 0) ∧
    SameSlots s t ∧ (∀ c, sb.nmeta ≤ c → t.disk c = s.disk c) ∧
    ∀ j, j < sb.ninodes → dinodeAt sb t.disk j =
      if j = i then emptied (D i) else dinodeAt sb s.disk j := by
  have here := volume.here holds
  have copy := volume.cached.copy k i holds
  have bitmap := volume.bitmap
  rw [refs_split s.disk here, ← copy] at bitmap
  unfold itrunc
  simp only [wp_bind]
  refine wp_mono (truncDirect_spec bitmap) ?_
  rintro _ t ⟨freeing,bm,direct,_⟩
  refine wp_mono (truncIndirect_spec freeing bm direct) ?_
  rintro _ u ⟨freed,bm',copy'⟩
  have slots : SameSlots s u := by
    intro l
    by_cases same : l = k
    · subst same
      exact freed.slot
    · rw [freed.icache l same]
  apply wp_update (volume_cleared volume holds freed bm' copy') (slots.holds holds) rfl rfl
  intro v volumeV slotsV data dinodes
  rw [Function.update_self, Function.update_idem] at volumeV
  refine ⟨volumeV, fun l => ?_, fun c high => ?_, fun j low => ?_⟩
  · rw [slotsV l, slots l]
  · rw [data c high, freed.data c high]
  · rw [dinodes j, Function.update_self, freed.dinode j low]
    rfl

end Truncation
end Xv6FsTrunc
