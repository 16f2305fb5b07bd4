import KernelLabs.Xv6.UmallocList

/-!
`free` and `morecore` as a whole. With fuel for its walk every call ends, and more fuel changes
no answer.
-/
namespace Xv6Umalloc
open Ring Tiling

variable {base : Nat} {s t : Heap} {F used : List Nat} {p q bp n f fuel : Nat}

/-- The list with its entry, above a break that `sbrk` may move. -/
structure Listed (base : Nat) (s : Heap) (F used : List Nat) : Prop extends Free base s F used where
  entry : ∃ f ∈ base :: F, s.freep = some f
  floor : base + sizeofHeader ≤ s.brk
  rounded : s.brk % 8 = 0

section Freeing

theorem joinUpper_rest (s : Heap) (bp p : Nat) :
    (joinUpper s bp p).brk = s.brk ∧ (joinUpper s bp p).obtained = s.obtained := by
  unfold joinUpper
  split <;> exact ⟨rfl,rfl⟩

theorem joinLower_rest (s : Heap) (bp p : Nat) :
    (joinLower s bp p).brk = s.brk ∧ (joinLower s bp p).obtained = s.obtained := by
  unfold joinLower
  split <;> exact ⟨rfl,rfl⟩

/-- Setting `freep` moves no block. -/
theorem Free.enter (free : Free base s F used) (f : Option Nat) : Free base { s with freep := f } F used :=
  ⟨⟨free.order, free.empty, free.tiles, free.apart, free.names, free.above, free.aligned, free.below⟩, free.path, free.joined⟩

/-- `free` returns a block to the list: no other block in use changes, and some free block is
    at least as large. -/
theorem free_spec (listed : Listed base s F (bp :: used)) (run : free fuel s bp = some t) :
    ∃ F', Listed base t F' used ∧ Steady used s t ∧ t.obtained = s.obtained ∧ ∃ q ∈ F', s.size bp ≤ t.size q := by
  obtain ⟨f,here,entry⟩ := listed.entry
  simp only [free, entry, Option.bind_eq_bind, Option.bind_some, Option.bind_eq_some_iff] at run
  obtain ⟨p,loop,done⟩ := run
  obtain ⟨member,stops⟩ := freeLoop_stops listed.path here loop
  obtain ⟨front,back,rfl,last,low,up⟩ := stops_between listed.toFree member stops
  obtain ⟨back',linked,grows,steady⟩ := joinUpper_open listed.toFree low up last
  obtain ⟨F',free',inF,steady',q,inQ,large⟩ := joinLower_free linked last
  obtain ⟨brkU,obtainedU⟩ := joinUpper_rest s bp p
  obtain ⟨brkL,obtainedL⟩ := joinLower_rest (joinUpper s bp p) bp p
  rw [← Option.some.inj done]
  refine ⟨F', ⟨free'.enter _, ⟨p,inF,rfl⟩, ?_, ?_⟩, steady.trans ⟨steady'.sizes, steady'.live⟩, obtainedL.trans obtainedU,
    q, inQ, Nat.le_trans grows large⟩
  · exact (brkL.trans brkU) ▸ listed.floor
  · exact (brkL.trans brkU) ▸ listed.rounded

theorem freeLoop_more {fuel' r : Nat} (more : fuel ≤ fuel') (run : freeLoop s bp fuel p = some r) :
    freeLoop s bp fuel' p = some r := by
  induction fuel generalizing p fuel' with
  | zero => exact nomatch run
  | succ fuel ih =>
    obtain ⟨fuel',rfl⟩ : ∃ m, fuel' = m + 1 := ⟨fuel' - 1, by omega⟩
    rw [freeLoop] at run ⊢
    split
    · rename_i between
      rwa [if_pos between] at run
    · rename_i apart
      rw [if_neg apart] at run
      split
      · rename_i wraps
        rwa [if_pos wraps] at run
      · rename_i inner
        rw [if_neg inner] at run
        exact ih (by omega) run

theorem free_more {fuel' : Nat} (more : fuel ≤ fuel') (run : free fuel s bp = some t) : free fuel' s bp = some t := by
  unfold free at run ⊢
  cases entry : s.freep with
  | none =>
    rw [entry] at run
    exact nomatch run
  | some f =>
    simp only [entry, Option.bind_eq_bind, Option.bind_some, Option.bind_eq_some_iff] at run ⊢
    obtain ⟨p,loop,done⟩ := run
    exact ⟨p, freeLoop_more more loop, done⟩

theorem free_ends (listed : Listed base s F (bp :: used)) : ∃ fuel t, free fuel s bp = some t := by
  obtain ⟨f,here,entry⟩ := listed.entry
  obtain ⟨p,there,stops⟩ := some_stops listed.toFree
  obtain ⟨k,_,reach⟩ := closed_reach listed.path here there
  have walk : ∃ r, freeLoop s bp (k + 1) f = some r := freeLoop_ends (reach ▸ stops) (by omega)
  obtain ⟨r,loop⟩ := walk
  refine ⟨k + 1, { joinLower (joinUpper s bp r) bp r with freep := some r }, ?_⟩
  simp only [free, entry, Option.bind_eq_bind, Option.bind_some, loop]
  rfl

end Freeing

section Morecore

/-- The heap with `nu` units more at `a`. -/
def grown (s : Heap) (a nu : Nat) : Heap :=
  let s := { s with answers := fun k => s.answers (k + 1), brk := a + nu * sizeofHeader, obtained := (a, nu * sizeofHeader) :: s.obtained }
  s.setSize a nu

/-- The memory of `sbrk` is a block in use before it is freed. -/
theorem Listed.grow (listed : Listed base s F used) {a nu : Nat} (some : 0 < nu) (above : s.brk ≤ a) (aligned : a % 8 = 0) :
    Listed base (grown s a nu) F (a :: used) := by
  have floor := listed.floor
  have new : ∀ x, Block F used x → x + s.len x ≤ a := fun x here => Nat.le_trans (listed.below x here) above
  have fresh : ¬ Block F used a := by
    intro here
    have := new a here
    have := listed.tiles.pos a here
    omega
  have other : ∀ x, Block F used x → x ≠ a := fun x here same => fresh (same ▸ here)
  have notBase : base ≠ a := by
    unfold sizeofHeader at floor
    omega
  have blocks : ∀ x, Block F (a :: used) x ↔ Block F used x ∨ x = a := by
    intro x
    simp only [Block, List.mem_cons]
    tauto
  have pos : 0 < nu * sizeofHeader := Nat.mul_pos some (by decide)
  have area : (grown s a nu).area = fun x => s.area x ∨ (a ≤ x ∧ x < a + nu * sizeofHeader) := by
    funext x
    simp only [Heap.area, grown, Heap.setSize, List.mem_cons, exists_eq_or_imp]
    exact propext or_comm
  have lens : ∀ x, (grown s a nu).len x = Function.update s.len a (nu * sizeofHeader) x := by
    intro x
    unfold Heap.len grown
    rw [setSize_size, Function.update_apply, Function.update_apply]
    split
    · exact Nat.mul_comm _ _
    · rfl
  have after : ∀ x, x ≠ a → (grown s a nu).after x = s.after x := fun x apart => setSize_after_other apart
  refine ⟨⟨⟨listed.order, ?_, ?_, ?_, ?_, ?_, ?_, ?_⟩, ?_, ?_⟩, listed.entry, ?_, ?_⟩
  · rw [grown, setSize_size, Function.update_of_ne notBase]
    exact listed.empty
  · rw [area]
    exact (listed.tiles.add pos new).congr blocks fun x _ => lens x
  · intro x member live
    rcases List.mem_cons.mp live with same | live
    · exact fresh (Or.inl (same ▸ member))
    · exact listed.apart x member live
  · exact List.nodup_cons.mpr ⟨fun live => fresh (Or.inr live), listed.names⟩
  · intro x live
    rcases List.mem_cons.mp live with same | live
    · rw [same]
      unfold sizeofHeader at floor
      omega
    · exact listed.above x live
  · intro x here
    rcases (blocks x).mp here with here | same
    · exact listed.aligned x here
    · exact same ▸ aligned
  · intro x here
    change _ ≤ a + nu * sizeofHeader
    rcases (blocks x).mp here with here | same
    · rw [after x (other x here)]
      exact Nat.le_trans (new x here) (Nat.le_add_right _ _)
    · rw [same, after_eq, lens, Function.update_self]
  · rw [grown, setSize_ptr]
    exact listed.path
  · intro x member
    rw [after x (other x (Or.inl member))]
    exact listed.joined x member
  · change base + sizeofHeader ≤ a + nu * sizeofHeader
    omega
  · change (a + nu * sizeofHeader) % 8 = 0
    unfold sizeofHeader
    omega

/-- `sbrk` fails and leaves all but the answers to come, or gives memory above the break. -/
theorem sbrk_cases (s : Heap) (n : Nat) :
    sbrk s n = (none, { s with answers := fun k => s.answers (k + 1) }) ∨
    ∃ a, s.brk ≤ a ∧ a % 8 = s.brk % 8 ∧ sbrk s n = (some a, { s with
      answers := fun k => s.answers (k + 1), brk := a + n, obtained := (a, n) :: s.obtained }) := by
  unfold sbrk
  cases s.answers 0 with
  | none => exact Or.inl rfl
  | some gap =>
    dsimp only
    split
    · exact Or.inr ⟨s.brk + 8 * gap, by omega, by omega, rfl⟩
    · exact Or.inl rfl

/-- More answers to come change nothing in the list. -/
theorem Listed.answer (listed : Listed base s F used) (answers : Nat → Option Nat) :
    Listed base { s with answers := answers } F used :=
  ⟨⟨⟨listed.order, listed.empty, listed.tiles, listed.apart, listed.names, listed.above, listed.aligned, listed.below⟩,
    listed.path, listed.joined⟩, listed.entry, listed.floor, listed.rounded⟩

/-- The units `morecore` asks for. -/
def coreUnits (nu : Nat) : Nat := if nu < 4096 then 4096 else nu

theorem coreUnits_bounds (small : n ≤ 0x0fffffff) : 0 < coreUnits n ∧ n ≤ coreUnits n ∧ coreUnits n * sizeofHeader < 2 ^ 32 := by
  unfold coreUnits sizeofHeader
  split <;> omega

/-- What `morecore` does: `sbrk` fails, or the new memory is freed. -/
theorem morecore_cases (listed : Listed base s F used) (small : n ≤ 0x0fffffff) :
    (∀ fuel, morecore fuel s n = some (none, { s with answers := fun k => s.answers (k + 1) })) ∨
    ∃ a, Listed base (grown s a (coreUnits n)) F (a :: used) ∧
      ∀ fuel, morecore fuel s n = (free fuel (grown s a (coreUnits n)) a).map fun t => (t.freep, t) := by
  obtain ⟨pos,_,fits⟩ := coreUnits_bounds small
  have units : (if n < 4096 then 4096 else n) = coreUnits n := rfl
  have size : coreUnits n * sizeofHeader % 2 ^ 32 = coreUnits n * sizeofHeader := Nat.mod_eq_of_lt fits
  unfold morecore
  dsimp only
  rw [units, size]
  rcases sbrk_cases s (coreUnits n * sizeofHeader) with fails | ⟨a,above,aligned,gives⟩
  · rw [fails]
    exact Or.inl fun _ => rfl
  · refine Or.inr ⟨a, listed.grow pos above (aligned.trans listed.rounded), fun fuel => ?_⟩
    rw [gives]
    change (free fuel (grown s a (coreUnits n)) a).bind _ = _
    cases free fuel (grown s a (coreUnits n)) a <;> rfl

theorem grown_steady (listed : Listed base (grown s p n) F (p :: used)) : Steady used s (grown s p n) := by
  refine ⟨fun x live => ?_, rfl⟩
  have other : x ≠ p := fun same => (List.nodup_cons.mp listed.names).1 (same ▸ live)
  rw [grown, setSize_size, Function.update_of_ne other]
  rfl

/-- After `morecore` the list stands, and has a block of the size unless it returns null. -/
theorem morecore_spec {r : Option Nat} (listed : Listed base s F used) (small : n ≤ 0x0fffffff)
    (run : morecore fuel s n = some (r, t)) : ∃ F', Listed base t F' used ∧ Steady used s t ∧
      (r = none ∨ (r = t.freep ∧ ∃ q ∈ F', n ≤ t.size q)) := by
  rcases morecore_cases listed small with fails | ⟨a,grew,frees⟩
  · rw [fails] at run
    obtain ⟨none,same⟩ := Prod.mk.inj (Option.some.inj run)
    subst same
    exact ⟨F, listed.answer _, ⟨fun _ _ => rfl, rfl⟩, Or.inl none.symm⟩
  · rw [frees, Option.map_eq_some_iff] at run
    obtain ⟨u,freed,pair⟩ := run
    obtain ⟨entry,same⟩ := Prod.mk.inj pair
    subst same
    obtain ⟨F',listed',steady,_,q,inQ,large⟩ := free_spec grew freed
    have size : (grown s a (coreUnits n)).size a = coreUnits n := by rw [grown, setSize_size, Function.update_self]
    rw [size] at large
    exact ⟨F', listed', (grown_steady grew).trans steady, Or.inr ⟨entry.symm, q, inQ, Nat.le_trans (coreUnits_bounds small).2.1 large⟩⟩

theorem morecore_more {fuel' : Nat} {r : Option Nat × Heap} (listed : Listed base s F used) (small : n ≤ 0x0fffffff)
    (more : fuel ≤ fuel') (run : morecore fuel s n = some r) : morecore fuel' s n = some r := by
  rcases morecore_cases listed small with fails | ⟨a,_,frees⟩
  · rw [fails] at run ⊢
    exact run
  · rw [frees, Option.map_eq_some_iff] at run ⊢
    obtain ⟨t,freed,pair⟩ := run
    exact ⟨t, free_more more freed, pair⟩

theorem morecore_ends (listed : Listed base s F used) (small : n ≤ 0x0fffffff) : ∃ fuel r, morecore fuel s n = some r := by
  rcases morecore_cases listed small with fails | ⟨a,grew,frees⟩
  · exact ⟨0, _, fails 0⟩
  · obtain ⟨fuel,t,freed⟩ := free_ends grew
    exact ⟨fuel, (t.freep, t), by rw [frees, freed]; rfl⟩

end Morecore
end Xv6Umalloc
