import KernelLabs.Xv6.UmallocRuns

/-!
The sizes with which `malloc` asks for memory: the bytes are rounded up to units, and `morecore` calls
`sbrk` with the units times the size of a header, a `uint` that `sbrk` takes for an `int`. With an
increment that is not positive `sbrk` returns the break with no memory behind it, and the header is
written there; the model records the call and goes no further.
-/
namespace Xv6Umalloc
open Ring Transition

/-- The increment of `sbrk(nu * sizeof(Header))`. -/
def increment (nu : Nat) : Int := (BitVec.ofNat 32 (nu * sizeofHeader)).toInt

/-- The loop of `malloc` with the units for which `sbrk` is called, first call first. -/
def mallocAsks (nunits : Nat) : Nat → Heap → Nat → Nat → List Nat × Option (Option Nat × Heap)
  | 0, _, _, _ => ([], none)
  | fuel + 1, s, prevp, p =>
    if s.size p ≥ nunits then
      let (p, s) := takeBlock s nunits prevp p
      ([], some (some p, s))
    else if some p = s.freep then
      let nu := coreUnits nunits
      if increment nu ≤ 0 then ([nu], none)
      else
        match morecore fuel s nunits with
        | none => ([nu], none)
        | some (none, s) => ([nu], some (none, s))
        | some (some p, s) =>
          let later := mallocAsks nunits fuel s p (s.ptr p)
          (nu :: later.1, later.2)
    else mallocAsks nunits fuel s p (s.ptr p)

def mallocAsk (base fuel : Nat) (s : Heap) (nbytes : Nat) : List Nat × Option (Option Nat × Heap) :=
  match s.freep with
  | none =>
    let s := { (s.setPtr base base).setSize base 0 with freep := some base }
    mallocAsks (nunits nbytes) fuel s base (s.ptr base)
  | some prevp => mallocAsks (nunits nbytes) fuel s prevp (s.ptr prevp)

/-- Neither the rounding nor a count of bytes wraps around, no increment is negative, and the call returns
    null or a block of memory from `sbrk` with room for the bytes behind its header. -/
structure Sized (base : Nat) (s : Heap) (nbytes : Nat) : Prop where
  rounding : nbytes + sizeofHeader - 1 < 2 ^ 32
  asks : ∀ fuel, ∀ nu ∈ (mallocAsk base fuel s nbytes).1, nu * sizeofHeader < 2 ^ 32 ∧ 0 ≤ increment nu
  ends : ∃ fuel result, (mallocAsk base fuel s nbytes).2 = some result
  covers : ∀ fuel p t, (mallocAsk base fuel s nbytes).2 = some (some p, t) →
    p + sizeofHeader + nbytes ≤ t.after p ∧ ∀ x, p ≤ x → x < t.after p → t.area x

variable {base : Nat} {s t : Heap} {F used : List Nat} {p q n nu prevp fuel nbytes : Nat}

section Increments

theorem increment_small (small : nu * sizeofHeader < 2 ^ 31) : increment nu = nu * sizeofHeader := by
  unfold increment
  rw [BitVec.toInt_eq_toNat_of_lt (by rw [BitVec.toNat_ofNat]; omega), BitVec.toNat_ofNat, Nat.mod_eq_of_lt (by omega)]
  rfl

theorem increment_large (large : 2 ^ 31 ≤ nu * sizeofHeader) (fits : nu * sizeofHeader < 2 ^ 32) : increment nu < 0 := by
  unfold increment
  rw [BitVec.toInt_eq_toNat_cond, BitVec.toNat_ofNat, Nat.mod_eq_of_lt fits, if_neg (by omega)]
  omega

theorem nunits_large (large : 0x7ffffff0 < nbytes) (rounding : nbytes + sizeofHeader - 1 < 2 ^ 32) :
    0x10000000 ≤ nunits nbytes ∧ coreUnits (nunits nbytes) = nunits nbytes := by
  unfold sizeofHeader at rounding
  have units : 0x10000000 ≤ nunits nbytes := by
    unfold nunits sizeofHeader
    rw [Nat.mod_eq_of_lt rounding]
    omega
  exact ⟨units, if_neg (by omega)⟩

end Increments

section Asking

theorem mallocAsk_entered (base fuel : Nat) (s : Heap) (nbytes : Nat) : mallocAsk base fuel s nbytes =
    mallocAsks (nunits nbytes) fuel (entered base s).1 (entered base s).2 ((entered base s).1.ptr (entered base s).2) := by
  unfold mallocAsk entered
  cases s.freep <;> rfl

/-- Every call asks for the same units, and with positive increments `malloc` goes on as before. -/
theorem mallocAsks_loop (positive : 0 < increment (coreUnits n)) (fuel : Nat) (s : Heap) (prevp p : Nat) :
    (mallocAsks n fuel s prevp p).2 = mallocLoop n fuel s prevp p ∧ ∀ nu ∈ (mallocAsks n fuel s prevp p).1, nu = coreUnits n := by
  induction fuel generalizing s prevp p with
  | zero => exact ⟨rfl, fun nu none => by cases none⟩
  | succ fuel ih =>
    rw [mallocAsks, mallocLoop]
    split
    · exact ⟨rfl, fun nu none => by cases none⟩
    · split
      · rw [if_neg (show ¬ increment (coreUnits n) ≤ 0 by omega)]
        rcases morecore fuel s n with _ | ⟨_ | f,u⟩
        · exact ⟨rfl, fun nu one => List.mem_singleton.mp one⟩
        · exact ⟨rfl, fun nu one => List.mem_singleton.mp one⟩
        · obtain ⟨same,units⟩ := ih u f (u.ptr f)
          refine ⟨same, fun nu member => ?_⟩
          rcases List.mem_cons.mp member with here | later
          · exact here
          · exact units nu later
      · exact ih s p (s.ptr p)

theorem mallocAsks_turn (little : s.size p < n) (turn : some p = s.freep) (fuel prevp : Nat) :
    coreUnits n ∈ (mallocAsks n (fuel + 1) s prevp p).1 := by
  rw [mallocAsks, if_neg (Nat.not_le.mpr little), if_pos turn]
  dsimp only
  split
  · exact List.mem_cons_self
  · rcases morecore fuel s n with _ | ⟨_ | f,u⟩ <;> exact List.mem_cons_self

/-- A walk over blocks that are all too small comes round and calls `sbrk`. -/
theorem mallocAsks_round {f k : Nat} (path : Path s.ptr base F base) (small : ∀ q ∈ base :: F, s.size q < n) (here : p ∈ base :: F)
    (entry : s.freep = some f) (round : s.ptr^[k] p = f) : coreUnits n ∈ (mallocAsks n (k + 1) s prevp p).1 := by
  induction k generalizing p prevp with
  | zero =>
    have turn : p = f := round
    exact mallocAsks_turn (small p here) (turn ▸ entry.symm) 0 prevp
  | succ k ih =>
    by_cases turn : some p = s.freep
    · exact mallocAsks_turn (small p here) turn (k + 1) prevp
    · rw [mallocAsks, if_neg (Nat.not_le.mpr (small p here)), if_neg turn]
      exact ih (closed_step path here) round

end Asking

section Bounded

/-- All memory that came from `sbrk` is below `KERNBASE`. -/
def Heap.Bounded (s : Heap) : Prop := ∀ r ∈ s.obtained, r.1 + r.2 ≤ KERNBASE

theorem free_obtained (run : free fuel s p = some t) : t.obtained = s.obtained := by
  simp only [free, Option.bind_eq_bind, Option.bind_eq_some_iff] at run
  obtain ⟨f,_,q,_,done⟩ := run
  rw [← Option.some.inj done]
  exact (joinLower_rest (joinUpper s p q) p q).2.trans (joinUpper_rest s p q).2

theorem sbrk_bounded (bounded : s.Bounded) (n : Nat) : (sbrk s n).2.Bounded := by
  unfold sbrk
  dsimp only
  split
  · exact bounded
  · split
    · rename_i fits
      intro r member
      rcases List.mem_cons.mp member with rfl | member
      · exact fits
      · exact bounded r member
    · exact bounded

theorem morecore_bounded {r : Option Nat} (bounded : s.Bounded) (run : morecore fuel s n = some (r, t)) : t.Bounded := by
  unfold morecore at run
  dsimp only at run
  generalize asked : sbrk s ((if n < 4096 then 4096 else n) * sizeofHeader % 2 ^ 32) = result at run
  have kept : result.2.Bounded := asked ▸ sbrk_bounded bounded _
  obtain ⟨a,u⟩ := result
  cases a with
  | none =>
    obtain ⟨_,rfl⟩ := Prod.mk.inj (Option.some.inj run)
    exact kept
  | some hp =>
    obtain ⟨v,freed,done⟩ := Option.bind_eq_some_iff.mp run
    obtain ⟨_,rfl⟩ := Prod.mk.inj (Option.some.inj done)
    have same := free_obtained freed
    intro r member
    exact kept r (same ▸ member)

theorem takeBlock_obtained (s : Heap) (n prevp p : Nat) : (takeBlock s n prevp p).2.obtained = s.obtained := by
  unfold takeBlock
  split <;> rfl

theorem mallocLoop_bounded {r : Option Nat} (bounded : s.Bounded) (run : mallocLoop n fuel s prevp p = some (r, t)) : t.Bounded := by
  induction fuel generalizing s prevp p with
  | zero => cases run
  | succ fuel ih =>
    rw [mallocLoop] at run
    split at run
    · obtain ⟨_,rfl⟩ := Prod.mk.inj (Option.some.inj run)
      intro b member
      exact bounded b (takeBlock_obtained s n prevp p ▸ member)
    · split at run
      · split at run
        · cases run
        · rename_i more
          obtain ⟨_,rfl⟩ := Prod.mk.inj (Option.some.inj run)
          exact morecore_bounded bounded more
        · rename_i more
          exact ih (morecore_bounded bounded more) run
      · exact ih bounded run

theorem entered_bounded (bounded : s.Bounded) (base : Nat) : (entered base s).1.Bounded := by
  unfold entered
  split <;> exact bounded

theorem next_bounded (bounded : s.Bounded) {a : Act} (run : next base s a = some t) : t.Bounded := by
  cases a with
  | malloc nbytes fuel =>
    simp only [next] at run
    split at run
    · split at run
      · rename_i call
        cases run
        rw [malloc_entered] at call
        have bounded' := mallocLoop_bounded (entered_bounded bounded base) call
        exact fun r member => bounded' r member
      · rename_i call
        cases run
        rw [malloc_entered] at call
        exact mallocLoop_bounded (entered_bounded bounded base) call
      · cases run
    · cases run
  | free bp fuel =>
    simp only [next] at run
    split at run
    · obtain ⟨u,freed,rfl⟩ := Option.map_eq_some_iff.mp run
      have same := free_obtained freed
      intro r member
      exact bounded r (same ▸ member)
    · cases run
  | write a h =>
    simp only [next] at run
    split at run
    · cases run
      exact bounded
    · cases run

theorem reach_bounded (reach : (system base).Reach System.Free s) : s.Bounded :=
  System.reach_invariant (system base) (fun _ fresh r member => by rw [fresh.2.2.1] at member; cases member)
    (fun _ _ _ bounded _ run => next_bounded bounded run) reach

/-- No block has as many units as a negative increment stands for. -/
theorem size_lt (listed : Listed base s F used) (bounded : s.Bounded) (here : p ∈ base :: F) : s.size p < 0x10000000 := by
  rcases List.mem_cons.mp here with rfl | isFree
  · rw [listed.empty]
    decide
  · have pos := listed.tiles.pos p (Or.inl isFree)
    have above := listed.above_free isFree
    have last := (listed.tiles.cover (p + s.len p - 1)).mpr ⟨p, Or.inl isFree, by omega, by omega⟩
    obtain ⟨r,member,_,high⟩ := last
    have top := bounded r member
    have length : s.len p = sizeofHeader * s.size p := rfl
    unfold KERNBASE at top
    unfold sizeofHeader at length
    omega

end Bounded

/-- Requests of up to `0x7ffffff0` bytes are sized right. Larger ones call `sbrk` with a negative increment
    or a count that wraps around, and the largest are rounded to no more than the header. -/
theorem malloc_sized (reach : (system base).Reach System.Free s) (nbytes : Nat) : Sized base s nbytes ↔ nbytes ≤ 0x7ffffff0 := by
  have kept := reach_kept reach
  obtain ⟨F,listed,inList,entry,steady⟩ := entered_listed kept
  constructor
  · intro sized
    by_contra large
    have large : 0x7ffffff0 < nbytes := Nat.lt_of_not_le large
    obtain ⟨units,more⟩ := nunits_large large sized.rounding
    obtain ⟨k,_,round⟩ := closed_reach listed.path (closed_step listed.path inList) inList
    have small : ∀ q ∈ base :: F, (entered base s).1.size q < nunits nbytes := fun q member =>
      Nat.lt_of_lt_of_le (size_lt listed (entered_bounded (reach_bounded reach) base) member) units
    have asked : coreUnits (nunits nbytes) ∈ (mallocAsks (nunits nbytes) (k + 1) (entered base s).1 (entered base s).2 _).1 :=
      mallocAsks_round listed.path small (closed_step listed.path inList) entry round
    obtain ⟨fits,positive⟩ := sized.asks (k + 1) _ (by rw [mallocAsk_entered]; exact asked)
    rw [more] at fits positive
    have bytes : 2 ^ 31 ≤ nunits nbytes * sizeofHeader := by
      unfold sizeofHeader
      omega
    have negative := increment_large bytes fits
    omega
  · intro small
    obtain ⟨pos,bound,_⟩ := nunits_bounds small
    have bytes : coreUnits (nunits nbytes) * sizeofHeader < 2 ^ 31 := by
      unfold coreUnits sizeofHeader
      split <;> omega
    have increments := increment_small bytes
    have some := (coreUnits_bounds bound).1
    have positive : 0 < increment (coreUnits (nunits nbytes)) := by
      rw [increments]
      unfold sizeofHeader
      omega
    have same : ∀ fuel, (mallocAsk base fuel s nbytes).2 = malloc base fuel s nbytes := by
      intro fuel
      rw [mallocAsk_entered, malloc_entered]
      exact (mallocAsks_loop positive _ _ _ _).1
    refine ⟨by unfold sizeofHeader; omega, fun fuel nu member => ?_, ?_, fun fuel p t run => ?_⟩
    · rw [mallocAsk_entered] at member
      rw [(mallocAsks_loop positive _ _ _ _).2 nu member]
      omega
    · obtain ⟨fuel,result,run⟩ := malloc_ends kept small
      exact ⟨fuel, result, (same fuel).trans run⟩
    · rw [same] at run
      obtain ⟨⟨F',given,_⟩,_⟩ := malloc_spec kept small run
      exact ⟨(malloc_block kept small run).1, fun x low high => (given.tiles.cover x).mpr ⟨p, Or.inr List.mem_cons_self, low, high⟩⟩

theorem malloc_sized_thousand : Sized 1024 firstHeap 1000 :=
  (malloc_sized (.start ⟨rfl, rfl, rfl, (by decide), rfl⟩) 1000).mpr (by decide)

/-- For 4294967295 bytes `malloc` returns a header with no bytes behind it; for 2147483633 it calls `sbrk`
    with the least `int`. -/
theorem malloc_sizes_wrap :
    ((mallocAsk 1024 4 firstHeap 0xffffffff).2.map fun r => r.1.map fun p => r.2.after p - (p + sizeofHeader)) = some (some 0) ∧
    (mallocAsk 1024 4 firstHeap 0x7ffffff1).1 = [0x10000000] ∧ increment 0x10000000 = -2 ^ 31 ∧
    ¬ Sized 1024 firstHeap 0xffffffff ∧ ¬ Sized 1024 firstHeap 0x7ffffff1 := by
  have asked : (mallocAsk 1024 4 firstHeap 0x7ffffff1).1 = [0x10000000] := by decide
  have least : increment 0x10000000 = -2 ^ 31 := by decide
  refine ⟨by decide, asked, least, fun sized => ?_, fun sized => ?_⟩
  · exact absurd sized.rounding (by decide)
  · have positive := (sized.asks 4 0x10000000 (by rw [asked]; exact List.mem_singleton_self _)).2
    rw [least] at positive
    exact absurd positive (by decide)

end Xv6Umalloc
