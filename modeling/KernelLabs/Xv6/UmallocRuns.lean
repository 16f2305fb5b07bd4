import KernelLabs.Xv6.UmallocFree

/-!
`malloc`, and programs that call it and `free` and write into their blocks. The walk of `malloc`
ends at a block that is large enough, at the latest in the memory that `morecore` has added.
-/
namespace Xv6Umalloc
open Ring Tiling Transition

variable {base : Nat} {s t : Heap} {F front back used : List Nat} {p q r n prevp fuel : Nat}

section Taking

/-- A free block is taken out of the list. -/
theorem Laid.delist (laid : Laid base s (front ++ p :: back) used) : Laid base s (front ++ back) (p :: used) := by
  have names := (List.nodup_cons.mp laid.nodup).2
  rw [List.nodup_middle, List.nodup_cons] at names
  have same : ∀ x, Block (front ++ back) (p :: used) x ↔ Block (front ++ p :: back) used x := by
    intro x
    simp only [Block, List.mem_append, List.mem_cons]
    tauto
  have inside : ∀ x ∈ front ++ back, x ∈ front ++ p :: back := by
    intro x member
    simp only [List.mem_append, List.mem_cons] at member ⊢
    tauto
  have here : p ∈ front ++ p :: back := by simp
  refine ⟨order_remove laid.order, laid.empty, laid.tiles.congr same fun _ _ => rfl, fun x member live => ?_,
    List.nodup_cons.mpr ⟨laid.apart p here, laid.names⟩, fun x live => ?_, fun x there => laid.aligned x ((same x).mp there),
    fun x there => laid.below x ((same x).mp there)⟩
  · rcases List.mem_cons.mp live with rfl | live
    · exact names.1 member
    · exact laid.apart x (inside x member) live
  · rcases List.mem_cons.mp live with rfl | live
    · exact laid.above_free here
    · exact laid.above x live

/-- The block after `prevp` has just the size. -/
theorem take_exact (listed : Listed base s F used) (at_prev : prevp ∈ base :: F) (next : s.ptr prevp = p) (isFree : p ∈ F) :
    ∃ F', Listed base { s.setPtr prevp (s.ptr p) with freep := some prevp } F' (p :: used) := by
  obtain ⟨front,back,rfl,last⟩ := split_at at_prev
  have tail := (path_split listed.path).2
  rw [last] at tail
  have step := path_step tail
  have notBase : p ≠ base := Nat.ne_of_gt (listed.above_free isFree)
  cases back with
  | nil => exact absurd (next.symm.trans step) notBase
  | cons x back =>
    have same : x = p := step.symm.trans next
    subst same
    have shorter := path_remove listed.nodup listed.path
    rw [last] at shorter
    have kept : ∀ y ∈ front ++ back, y ∈ front ++ x :: back := by
      intro y member
      simp only [List.mem_append, List.mem_cons] at member ⊢
      tauto
    have linked : Free base (s.setPtr prevp (s.ptr x)) (front ++ back) (x :: used) := by
      refine ⟨listed.toLaid.delist.setPtr, ?_, fun y member there => ?_⟩
      · rw [setPtr_ptr]
        exact shorter
      · rw [setPtr_after] at there
        exact listed.joined y (kept y member) (kept _ there)
    refine ⟨front ++ back, linked.enter _, ⟨prevp, ?_, rfl⟩, listed.floor, listed.rounded⟩
    rw [← last, ← List.cons_append]
    exact List.mem_append_left _ last_mem

/-- The tail of a larger block is cut off. -/
def cut (s : Heap) (p n : Nat) : Heap :=
  (s.setSize p (s.size p - n)).setSize ((s.setSize p (s.size p - n)).after p) n

theorem cut_place (s : Heap) (p n : Nat) : (s.setSize p (s.size p - n)).after p = p + sizeofHeader * (s.size p - n) := by
  unfold Heap.after
  rw [setSize_size, Function.update_self]

theorem cut_size (s : Heap) (p n : Nat) : (cut s p n).size =
    Function.update (Function.update s.size p (s.size p - n)) (p + sizeofHeader * (s.size p - n)) n := by
  unfold cut
  rw [setSize_size, setSize_size, cut_place]

theorem cut_ptr (s : Heap) (p n : Nat) : (cut s p n).ptr = s.ptr := by
  unfold cut
  rw [setSize_ptr, setSize_ptr]

theorem cut_len (s : Heap) (p n : Nat) (less : n ≤ s.size p) : (cut s p n).len =
    Function.update (Function.update s.len p (sizeofHeader * (s.size p - n))) (p + sizeofHeader * (s.size p - n))
      (s.len p - sizeofHeader * (s.size p - n)) := by
  have rest : s.len p - sizeofHeader * (s.size p - n) = sizeofHeader * n := by
    unfold Heap.len sizeofHeader
    omega
  rw [rest]
  funext x
  unfold Heap.len
  rw [cut_size, Function.update_apply, Function.update_apply, Function.update_apply, Function.update_apply]
  split
  · rfl
  · split <;> rfl

/-- Cutting a free block leaves the list as it is. -/
theorem take_cut (listed : Listed base s F used) (isFree : p ∈ F) (some : 0 < n) (less : n < s.size p) :
    Free base (cut s p n) F ((p + sizeofHeader * (s.size p - n)) :: used) ∧ Steady used s (cut s p n) := by
  have here : Block F used p := Or.inl isFree
  have length : s.len p = sizeofHeader * s.size p := rfl
  have pos : 0 < sizeofHeader * (s.size p - n) := by
    unfold sizeofHeader
    omega
  have part : sizeofHeader * (s.size p - n) < s.len p := by
    rw [length]
    unfold sizeofHeader
    omega
  have tiles := listed.tiles.split here pos part
  have lens := cut_len s p n (Nat.le_of_lt less)
  have sizes := cut_size s p n
  have aligned := listed.aligned p here
  have top := listed.below p here
  rw [after_eq] at top
  have units : sizeofHeader * (s.size p - n) % 8 = 0 := by
    unfold sizeofHeader
    omega
  generalize place : p + sizeofHeader * (s.size p - n) = a at *
  have above : p < a := by omega
  have new : ¬ Block F used a := fun there => listed.tiles.not_inside here there above (by omega)
  have other : ∀ x, Block F used x → x ≠ a := fun x there same => new (same ▸ there)
  have kept : ∀ x, Block F used x → x ≠ p → (cut s p n).size x = s.size x := by
    intro x there away
    rw [sizes, Function.update_of_ne (other x there), Function.update_of_ne away]
  have blocks : ∀ x, Block F (a :: used) x ↔ Block F used x ∨ x = a := by
    intro x
    simp only [Block, List.mem_cons]
    tauto
  have low := listed.above_free isFree
  have after : ∀ x, (cut s p n).after x = x + (cut s p n).len x := fun _ => rfl
  refine ⟨⟨⟨listed.order, ?_, ?_, fun x member live => ?_, ?_, fun x live => ?_, fun x there => ?_, fun x there => ?_⟩, ?_,
    fun x member there => ?_⟩, fun x live => ?_, rfl⟩
  · rw [sizes, Function.update_of_ne (by omega), Function.update_of_ne (by omega)]
    exact listed.empty
  · exact tiles.congr blocks fun x _ => congrFun lens x
  · rcases List.mem_cons.mp live with same | live
    · exact new (Or.inl (same ▸ member))
    · exact listed.apart x member live
  · exact List.nodup_cons.mpr ⟨fun live => new (Or.inr live), listed.names⟩
  · rcases List.mem_cons.mp live with same | live
    · omega
    · exact listed.above x live
  · rcases (blocks x).mp there with there | same
    · exact listed.aligned x there
    · omega
  · change _ ≤ s.brk
    rw [after, lens]
    rcases (blocks x).mp there with there | same
    · rw [Function.update_of_ne (other x there)]
      by_cases first : x = p
      · rw [first, Function.update_self]
        omega
      · rw [Function.update_of_ne first]
        exact listed.below x there
    · rw [same, Function.update_self]
      omega
  · rw [cut_ptr]
    exact listed.path
  · rw [after, lens, Function.update_of_ne (other x (Or.inl member))] at there
    by_cases first : x = p
    · rw [first, Function.update_self, place] at there
      exact new (Or.inl there)
    · rw [Function.update_of_ne first] at there
      exact listed.joined x member there
  · exact kept x (Or.inr live) fun same => listed.apart p isFree (same ▸ live)

/-- What `malloc` takes is in use, with the size it asked for. -/
theorem takeBlock_spec (listed : Listed base s F used) (at_prev : prevp ∈ base :: F) (next : s.ptr prevp = p) (isFree : p ∈ F)
    (some : 0 < n) (large : n ≤ s.size p) (run : takeBlock s n prevp p = (r, t)) :
    ∃ F', Listed base t F' (r :: used) ∧ Steady used s t ∧ t.size r = n := by
  unfold takeBlock at run
  split at run
  · rename_i same
    obtain ⟨rfl,rfl⟩ := Prod.mk.inj run
    obtain ⟨F',listed'⟩ := take_exact listed at_prev next isFree
    refine ⟨F', listed', ⟨fun x _ => ?_, rfl⟩, ?_⟩
    · exact congrFun (setPtr_size s prevp (s.ptr p)) x
    · exact (congrFun (setPtr_size s prevp (s.ptr p)) p).trans same
  · rename_i apart
    obtain ⟨place,rfl⟩ := Prod.mk.inj run
    rw [cut_place] at place
    obtain ⟨free,steady⟩ := take_cut listed isFree some (Nat.lt_of_le_of_ne large (Ne.symm apart))
    rw [place] at free
    refine ⟨F, ⟨free.enter _, ⟨prevp, at_prev, rfl⟩, listed.floor, listed.rounded⟩, ⟨steady.sizes, steady.live⟩, ?_⟩
    change (cut s p n).size r = n
    rw [cut_size, ← place, Function.update_self]

end Taking

section Walking

theorem free_of_large (listed : Listed base s F used) (here : p ∈ base :: F) (pos : 0 < n) (large : n ≤ s.size p) :
    p ∈ F := by
  rcases List.mem_cons.mp here with rfl | member
  · rw [listed.empty] at large
    omega
  · exact member

/-- The list after `malloc`, with what it returns in use. -/
def Given (base n : Nat) (used : List Nat) (t : Heap) : Option Nat → Prop
  | none => ∃ F, Listed base t F used
  | some r => ∃ F, Listed base t F (r :: used) ∧ t.size r = n

theorem mallocLoop_spec {r : Option Nat} (listed : Listed base s F used) (pos : 0 < n) (small : n ≤ 0x0fffffff)
    (at_prev : prevp ∈ base :: F) (next : s.ptr prevp = p) (run : mallocLoop n fuel s prevp p = some (r, t)) :
    Given base n used t r ∧ Steady used s t := by
  induction fuel generalizing s F prevp p with
  | zero => exact nomatch run
  | succ fuel ih =>
    have here : p ∈ base :: F := next ▸ closed_step listed.path at_prev
    rw [mallocLoop] at run
    split at run
    · rename_i large
      obtain ⟨rfl,rfl⟩ := Prod.mk.inj (Option.some.inj run)
      obtain ⟨F',listed',steady,size⟩ := takeBlock_spec listed at_prev next (free_of_large listed here pos large) pos large rfl
      exact ⟨⟨F',listed',size⟩, steady⟩
    · split at run
      · split at run
        · exact nomatch run
        · rename_i u more
          obtain ⟨rfl,rfl⟩ := Prod.mk.inj (Option.some.inj run)
          obtain ⟨F',listed',steady,_⟩ := morecore_spec listed small more
          exact ⟨⟨F',listed'⟩, steady⟩
        · rename_i f u more
          obtain ⟨F',listed',steady,fails | ⟨entry,_⟩⟩ := morecore_spec listed small more
          · exact nomatch fails
          · obtain ⟨g,inF,entered⟩ := listed'.entry
            rw [entered, Option.some.injEq] at entry
            obtain ⟨given,later⟩ := ih listed' (entry ▸ inF) rfl run
            exact ⟨given, steady.trans later⟩
      · exact ih listed here rfl run

theorem mallocLoop_more {fuel' : Nat} {result : Option Nat × Heap} (listed : Listed base s F used) (small : n ≤ 0x0fffffff)
    (more : fuel ≤ fuel') (run : mallocLoop n fuel s prevp p = some result) : mallocLoop n fuel' s prevp p = some result := by
  induction fuel generalizing s F prevp p fuel' with
  | zero => exact nomatch run
  | succ fuel ih =>
    obtain ⟨fuel',rfl⟩ : ∃ m, fuel' = m + 1 := ⟨fuel' - 1, by omega⟩
    rw [mallocLoop] at run ⊢
    split
    · rename_i large
      rwa [if_pos large] at run
    · rename_i little
      rw [if_neg little] at run
      split
      · rename_i round
        rw [if_pos round] at run
        cases got : morecore fuel s n with
        | none =>
          rw [got] at run
          exact nomatch run
        | some pair =>
          rw [got] at run
          rw [morecore_more listed small (by omega) got]
          obtain ⟨r,u⟩ := pair
          cases r with
          | none => exact run
          | some f =>
            obtain ⟨F',listed',_⟩ := morecore_spec listed small got
            exact ih listed' (by omega) run
      · rename_i inner
        rw [if_neg inner] at run
        exact ih listed (by omega) run

/-- A walk that comes to a large block before it comes round ends. -/
theorem mallocLoop_finds {k f : Nat} (entry : s.freep = some f) (large : n ≤ s.size (s.ptr^[k] p))
    (before : ∀ j < k, s.ptr^[j] p ≠ f) : ∃ fuel result, mallocLoop n fuel s prevp p = some result := by
  induction k generalizing prevp p with
  | zero =>
    refine ⟨1, (some (takeBlock s n prevp p).1, (takeBlock s n prevp p).2), ?_⟩
    rw [mallocLoop]
    exact if_pos large
  | succ k ih =>
    by_cases now : n ≤ s.size p
    · refine ⟨1, (some (takeBlock s n prevp p).1, (takeBlock s n prevp p).2), ?_⟩
      rw [mallocLoop]
      exact if_pos now
    · have later : ∃ fuel result, mallocLoop n fuel s p (s.ptr p) = some result :=
        ih large fun j less => before (j + 1) (by omega)
      obtain ⟨fuel,result,run⟩ := later
      refine ⟨fuel + 1, result, ?_⟩
      have apart : ¬ some p = s.freep := by
        rw [entry, Option.some.injEq]
        exact before 0 (Nat.succ_pos k)
      rw [mallocLoop, if_neg (show ¬ s.size p ≥ n from now), if_neg apart]
      exact run

/-- From behind the entry of the list every block is come to before the list comes round. -/
theorem reach_first {f : Nat} (path : Path s.ptr base F base) (entry : f ∈ base :: F) (there : q ∈ base :: F) :
    ∃ k, s.ptr^[k] (s.ptr f) = q ∧ ∀ j < k, s.ptr^[j] (s.ptr f) ≠ f := by
  obtain ⟨m,_,reach⟩ := closed_reach path (closed_step path entry) there
  have some : ∃ k, s.ptr^[k] (s.ptr f) = q := ⟨m,reach⟩
  classical
  refine ⟨Nat.find some, Nat.find_spec some, fun j less back => ?_⟩
  obtain ⟨i,later⟩ := Nat.exists_eq_add_of_lt less
  have found := Nat.find_spec some
  rw [later, show j + i + 1 = i + 1 + j by omega, Function.iterate_add_apply, back, Function.iterate_succ_apply] at found
  exact Nat.find_min some (by omega) found

/-- A walk that has come round ends, in the memory that `morecore` adds. -/
theorem mallocLoop_round (listed : Listed base s F used) (small : n ≤ 0x0fffffff) (turn : some p = s.freep) :
    ∃ fuel result, mallocLoop n fuel s prevp p = some result := by
  by_cases now : n ≤ s.size p
  · exact mallocLoop_finds (k := 0) turn.symm now fun _ none => nomatch none
  · have little : ¬ s.size p ≥ n := now
    obtain ⟨fuel,⟨r,u⟩,more⟩ := morecore_ends listed small
    cases r with
    | none =>
      refine ⟨fuel + 1, (none, u), ?_⟩
      rw [mallocLoop, if_neg little, if_pos turn, more]
    | some g =>
      obtain ⟨F',listed',_,fails | ⟨entered,q,inF,large⟩⟩ := morecore_spec listed small more
      · exact nomatch fails
      · obtain ⟨h,inList,again⟩ := listed'.entry
        have same : g = h := Option.some.inj (entered.trans again)
        subst same
        obtain ⟨m,reach,before⟩ := reach_first listed'.path inList (List.mem_cons_of_mem base inF)
        have found : ∃ fuel result, mallocLoop n fuel u g (u.ptr g) = some result :=
          mallocLoop_finds again (reach ▸ large) before
        obtain ⟨fuel',result,run⟩ := found
        refine ⟨max fuel fuel' + 1, result, ?_⟩
        rw [mallocLoop, if_neg little, if_pos turn, morecore_more listed small (Nat.le_max_left fuel fuel') more]
        exact mallocLoop_more listed' small (Nat.le_max_right fuel fuel') run

theorem mallocLoop_ends (listed : Listed base s F used) (small : n ≤ 0x0fffffff) {f k : Nat}
    (entry : s.freep = some f) (round : s.ptr^[k] p = f) : ∃ fuel result, mallocLoop n fuel s prevp p = some result := by
  induction k generalizing prevp p with
  | zero =>
    have here : p = f := round
    exact mallocLoop_round listed small (here ▸ entry.symm)
  | succ k ih =>
    by_cases turn : p = f
    · exact mallocLoop_round listed small (turn ▸ entry.symm)
    · by_cases now : n ≤ s.size p
      · exact mallocLoop_finds (k := 0) entry now fun _ none => nomatch none
      · have later : ∃ fuel result, mallocLoop n fuel s p (s.ptr p) = some result := ih round
        obtain ⟨fuel,result,run⟩ := later
        have apart : ¬ some p = s.freep := by
          rw [entry, Option.some.injEq]
          exact turn
        refine ⟨fuel + 1, result, ?_⟩
        rw [mallocLoop, if_neg (show ¬ s.size p ≥ n from now), if_neg apart]
        exact run

end Walking

section Programs

/-- The headers of the blocks in use. -/
def Heap.names (s : Heap) : List Nat := s.live.map Prod.fst

/-- Before the first call of `malloc`, or with the list in order; and every block in use has
    room for what was asked for. -/
structure Kept (base : Nat) (s : Heap) : Prop where
  shape : started base s ∨ ∃ F, Listed base s F s.names
  room : ∀ b ∈ s.live, b.2 + sizeofHeader ≤ s.len b.1

/-- The list does not depend on the order in which the blocks in use are named. -/
theorem Listed.congr {used' : List Nat} (listed : Listed base s F used) (same : ∀ x, x ∈ used' ↔ x ∈ used)
    (names : used'.Nodup) : Listed base s F used' := by
  have blocks : ∀ x, Block F used' x ↔ Block F used x := fun x => or_congr_right (same x)
  refine ⟨⟨⟨listed.order, listed.empty, listed.tiles.congr blocks fun _ _ => rfl, fun x member live => ?_, names, fun x live => ?_,
    fun x here => ?_, fun x here => ?_⟩, listed.path, listed.joined⟩, listed.entry, listed.floor, listed.rounded⟩
  · exact listed.apart x member ((same x).mp live)
  · exact listed.above x ((same x).mp live)
  · exact listed.aligned x ((blocks x).mp here)
  · exact listed.below x ((blocks x).mp here)

theorem Listed.relive (listed : Listed base s F used) (live : List (Nat × Nat)) :
    Listed base { s with live := live } F used :=
  ⟨⟨⟨listed.order, listed.empty, listed.tiles, listed.apart, listed.names, listed.above, listed.aligned, listed.below⟩,
    listed.path, listed.joined⟩, listed.entry, listed.floor, listed.rounded⟩

/-- The first call of `malloc` links the static header to itself. -/
theorem started_listed (fresh : started base s) :
    Listed base { (s.setPtr base base).setSize base 0 with freep := some base } [] [] := by
  obtain ⟨_,_,obtained,floor,rounded⟩ := fresh
  refine ⟨⟨⟨List.pairwise_singleton _ _, ?_, ⟨?_, ?_, fun x => ?_⟩, ?_, List.nodup_nil, ?_, ?_, ?_⟩, ?_, ?_⟩,
    ⟨base, List.mem_cons_self, rfl⟩, floor, rounded⟩
  · change ((s.setPtr base base).setSize base 0).size base = 0
    rw [setSize_size, Function.update_self]
  · rintro p (none | none) <;> cases none
  · rintro p q (none | none) <;> cases none
  · constructor
    · rintro ⟨r,member,_⟩
      have none : r ∈ s.obtained := member
      rw [obtained] at none
      cases none
    · rintro ⟨p,none | none,_⟩ <;> cases none
  · exact fun p none => by cases none
  · exact fun p none => by cases none
  · rintro p (none | none) <;> cases none
  · rintro p (none | none) <;> cases none
  · change ((s.setPtr base base).setSize base 0).ptr base = base
    rw [setSize_ptr, setPtr_ptr, Function.update_self]
  · exact fun p none => by cases none

theorem nunits_bounds {nbytes : Nat} (small : nbytes ≤ 0x7ffffff0) :
    0 < nunits nbytes ∧ nunits nbytes ≤ 0x0fffffff ∧ nbytes + sizeofHeader ≤ sizeofHeader * nunits nbytes := by
  unfold nunits sizeofHeader
  rw [Nat.mod_eq_of_lt (by omega)]
  omega

/-- The heap and the entry of the list with which the walk of `malloc` begins. -/
def entered (base : Nat) (s : Heap) : Heap × Nat :=
  match s.freep with
  | none => ({ (s.setPtr base base).setSize base 0 with freep := some base }, base)
  | some prevp => (s, prevp)

theorem malloc_entered (base fuel : Nat) (s : Heap) (nbytes : Nat) : malloc base fuel s nbytes =
    mallocLoop (nunits nbytes) fuel (entered base s).1 (entered base s).2 ((entered base s).1.ptr (entered base s).2) := by
  unfold malloc entered
  cases s.freep <;> rfl

/-- `malloc` walks over a list in order. -/
theorem entered_listed (kept : Kept base s) : ∃ F, Listed base (entered base s).1 F s.names ∧ (entered base s).2 ∈ base :: F ∧
    (entered base s).1.freep = some (entered base s).2 ∧ Steady s.names s (entered base s).1 := by
  unfold entered
  rcases kept.shape with fresh | ⟨F,listed⟩
  · have listed := started_listed fresh
    obtain ⟨none,live,_⟩ := fresh
    have names : s.names = [] := by
      unfold Heap.names
      rw [live, List.map_nil]
    rw [names, none]
    exact ⟨[], listed, List.mem_cons_self, rfl, ⟨fun _ member => (by cases member), rfl⟩⟩
  · obtain ⟨f,inList,entry⟩ := listed.entry
    rw [entry]
    exact ⟨F, listed, inList, entry, ⟨fun _ _ => rfl, rfl⟩⟩

theorem malloc_spec (kept : Kept base s) {nbytes : Nat} {r : Option Nat} (small : nbytes ≤ 0x7ffffff0)
    (run : malloc base fuel s nbytes = some (r, t)) : Given base (nunits nbytes) s.names t r ∧ Steady s.names s t := by
  obtain ⟨pos,bound,_⟩ := nunits_bounds small
  obtain ⟨F,listed,inList,_,steady⟩ := entered_listed kept
  rw [malloc_entered] at run
  obtain ⟨given,later⟩ := mallocLoop_spec listed pos bound inList rfl run
  exact ⟨given, steady.trans later⟩

theorem malloc_ends (kept : Kept base s) {nbytes : Nat} (small : nbytes ≤ 0x7ffffff0) :
    ∃ fuel result, malloc base fuel s nbytes = some result := by
  obtain ⟨_,bound,_⟩ := nunits_bounds small
  obtain ⟨F,listed,inList,entry,_⟩ := entered_listed kept
  obtain ⟨k,_,round⟩ := closed_reach listed.path (closed_step listed.path inList) inList
  have ends : ∃ fuel result, mallocLoop (nunits nbytes) fuel (entered base s).1 (entered base s).2
      ((entered base s).1.ptr (entered base s).2) = some result :=
    mallocLoop_ends listed bound entry round
  obtain ⟨fuel,result,run⟩ := ends
  exact ⟨fuel, result, (malloc_entered base fuel s nbytes).trans run⟩

theorem room_steady (kept : Kept base s) (steady : Steady s.names s t) (b : Nat × Nat) (member : b ∈ s.live) :
    b.2 + sizeofHeader ≤ t.len b.1 := by
  have size := steady.sizes b.1 (List.mem_map_of_mem member)
  have room := kept.room b member
  unfold Heap.len at room ⊢
  rwa [size]

theorem kept_malloc (kept : Kept base s) {nbytes : Nat} (small : nbytes ≤ 0x7ffffff0)
    (run : malloc base fuel s nbytes = some (some p, t)) : Kept base { t with live := (p, nbytes) :: t.live } := by
  obtain ⟨⟨F,listed,size⟩,steady⟩ := malloc_spec kept small run
  have live : t.live = s.live := steady.live
  refine ⟨Or.inr ⟨F, ?_⟩, fun b member => ?_⟩
  · have names : Heap.names { t with live := (p, nbytes) :: t.live } = p :: s.names := by
      simp only [Heap.names, List.map_cons, live]
    rw [names]
    exact listed.relive _
  · rcases List.mem_cons.mp member with rfl | member
    · change nbytes + sizeofHeader ≤ sizeofHeader * t.size p
      rw [size]
      exact (nunits_bounds small).2.2
    · exact room_steady kept steady b (live ▸ member)

theorem kept_null (kept : Kept base s) {nbytes : Nat} (small : nbytes ≤ 0x7ffffff0)
    (run : malloc base fuel s nbytes = some (none, t)) : Kept base t := by
  obtain ⟨⟨F,listed⟩,steady⟩ := malloc_spec kept small run
  have live : t.live = s.live := steady.live
  have names : t.names = s.names := congrArg (List.map Prod.fst) live
  refine ⟨Or.inr ⟨F, by rw [names]; exact listed⟩, fun b member => ?_⟩
  exact room_steady kept steady b (live ▸ member)

/-- The blocks in use but one. -/
def others (s : Heap) (bp : Nat) : List (Nat × Nat) := s.live.filter (·.1 != bp)

theorem listed_others (listed : Listed base s F s.names) {bp : Nat} (member : bp ∈ s.names) :
    Listed base s F (bp :: (others s bp).map Prod.fst) := by
  have rest : ∀ x, x ∈ (others s bp).map Prod.fst ↔ x ∈ s.names ∧ x ≠ bp := by
    intro x
    simp only [others, Heap.names, List.mem_map, List.mem_filter, bne_iff_ne, ne_eq]
    constructor
    · rintro ⟨b,⟨here,apart⟩,rfl⟩
      exact ⟨⟨b,here,rfl⟩,apart⟩
    · rintro ⟨⟨b,here,rfl⟩,apart⟩
      exact ⟨b,⟨here,apart⟩,rfl⟩
  refine listed.congr (fun x => ?_) (List.nodup_cons.mpr ⟨fun here => ((rest bp).mp here).2 rfl, ?_⟩)
  · rw [List.mem_cons, rest]
    constructor
    · rintro (rfl | ⟨here,_⟩)
      · exact member
      · exact here
    · intro here
      by_cases same : x = bp
      · exact Or.inl same
      · exact Or.inr ⟨here,same⟩
  · exact listed.names.sublist (List.Sublist.map Prod.fst List.filter_sublist)

theorem kept_free (kept : Kept base s) {bp : Nat} (member : bp ∈ s.names) (run : free fuel s bp = some t) :
    Kept base { t with live := t.live.filter (·.1 != bp) } := by
  rcases kept.shape with fresh | ⟨F,listed⟩
  · unfold Heap.names at member
    rw [fresh.2.1] at member
    cases member
  · obtain ⟨F',listed',steady,_⟩ := free_spec (listed_others listed member) run
    have live : t.live.filter (·.1 != bp) = others s bp := by
      unfold others
      rw [steady.live]
    rw [live]
    refine ⟨Or.inr ⟨F', listed'.relive _⟩, fun b here => ?_⟩
    have size := steady.sizes b.1 (List.mem_map_of_mem here)
    have room := kept.room b (List.mem_of_mem_filter here)
    change _ ≤ sizeofHeader * t.size b.1
    rwa [size]

theorem free_returns (kept : Kept base s) {bp : Nat} (member : bp ∈ s.names) : ∃ fuel t, free fuel s bp = some t := by
  rcases kept.shape with fresh | ⟨F,listed⟩
  · unfold Heap.names at member
    rw [fresh.2.1] at member
    cases member
  · exact free_ends (listed_others listed member)

/-- A program that writes into a block it has writes over no header. -/
theorem inside_apart (listed : Listed base s F s.names) {a : Nat} (inside : s.inside a = true) :
    a ≠ base ∧ ¬ Block F s.names a := by
  unfold Heap.inside at inside
  simp only [List.any_eq_true, decide_eq_true_eq] at inside
  obtain ⟨b,member,low,high⟩ := inside
  have here : Block F s.names b.1 := Or.inr (List.mem_map_of_mem member)
  have header : b.1 < a := Nat.lt_of_lt_of_le (Nat.lt_add_of_pos_right (by decide)) low
  refine ⟨fun same => ?_, fun there => ?_⟩
  · have above := listed.above_block here
    omega
  · exact listed.tiles.not_inside here there header high

theorem write_ptr (s : Heap) (a : Nat) (h : Header) :
    Heap.ptr { s with hdr := Function.update s.hdr a h } = Function.update s.ptr a h.ptr := by
  funext x
  unfold Heap.ptr
  dsimp only
  rw [Function.update_apply, Function.update_apply]
  split <;> rfl

theorem write_size {a x : Nat} (h : Header) (other : x ≠ a) :
    Heap.size { s with hdr := Function.update s.hdr a h } x = s.size x := by
  unfold Heap.size
  dsimp only
  rw [Function.update_of_ne other]

theorem listed_write (listed : Listed base s F s.names) {a : Nat} (h : Header) (inside : s.inside a = true) :
    Listed base { s with hdr := Function.update s.hdr a h } F s.names := by
  obtain ⟨notBase,notBlock⟩ := inside_apart listed inside
  have others : ∀ x, Block F s.names x → Heap.size { s with hdr := Function.update s.hdr a h } x = s.size x :=
    fun x here => write_size h fun same => notBlock (same ▸ here)
  have afters : ∀ x, Block F s.names x → Heap.after { s with hdr := Function.update s.hdr a h } x = s.after x := by
    intro x here
    unfold Heap.after
    rw [others x here]
  have outside : a ∉ base :: F := by
    rw [List.mem_cons]
    rintro (same | member)
    · exact notBase same
    · exact notBlock (Or.inl member)
  refine ⟨⟨⟨listed.order, ?_, listed.tiles.congr (fun _ => Iff.rfl) fun x here => ?_, listed.apart, listed.names, listed.above,
    listed.aligned, fun x here => ?_⟩, ?_, fun x member => ?_⟩, listed.entry, listed.floor, listed.rounded⟩
  · rw [write_size h (Ne.symm notBase)]
    exact listed.empty
  · exact congrArg (sizeofHeader * ·) (others x here)
  · rw [afters x here]
    exact listed.below x here
  · rw [write_ptr]
    exact path_update outside h.ptr listed.path
  · rw [afters x (Or.inl member)]
    exact listed.joined x member

theorem kept_write (kept : Kept base s) {a : Nat} (h : Header) (inside : s.inside a = true) :
    Kept base { s with hdr := Function.update s.hdr a h } := by
  rcases kept.shape with fresh | ⟨F,listed⟩
  · unfold Heap.inside at inside
    rw [fresh.2.1] at inside
    cases inside
  · refine ⟨Or.inr ⟨F, listed_write listed h inside⟩, fun b member => ?_⟩
    have block : Block F s.names b.1 := Or.inr (List.mem_map_of_mem member)
    have other : b.1 ≠ a := fun same => (inside_apart listed inside).2 (same ▸ block)
    change _ ≤ sizeofHeader * Heap.size { s with hdr := Function.update s.hdr a h } b.1
    rw [write_size h other]
    exact kept.room b member

theorem kept_step (kept : Kept base s) {a : Act} (run : next base s a = some t) : Kept base t := by
  cases a with
  | malloc nbytes fuel =>
    simp only [next] at run
    split at run
    · rename_i small
      split at run
      · rename_i p u call
        cases run
        exact kept_malloc kept small call
      · rename_i u call
        cases run
        exact kept_null kept small call
      · cases run
    · cases run
  | free bp fuel =>
    simp only [next] at run
    split at run
    · rename_i live
      simp only [Option.map_eq_some_iff] at run
      obtain ⟨u,call,rfl⟩ := run
      simp only [List.any_eq_true, beq_iff_eq] at live
      obtain ⟨b,member,rfl⟩ := live
      exact kept_free kept (List.mem_map_of_mem member) call
    · cases run
  | write a h =>
    simp only [next] at run
    split at run
    · rename_i inside
      cases run
      exact kept_write kept h inside
    · cases run

theorem reach_kept (reach : (system base).Reach System.Free s) : Kept base s :=
  System.reach_invariant (system base) (fun _ fresh => ⟨Or.inl fresh, fun b member => by rw [fresh.2.1] at member; cases member⟩)
    (fun _ _ _ kept _ run => kept_step kept run) reach

/-- A block of `malloc` has the bytes asked for after its header, away from the other blocks in use. -/
theorem malloc_block (kept : Kept base s) {nbytes : Nat} (small : nbytes ≤ 0x7ffffff0)
    (run : malloc base fuel s nbytes = some (some p, t)) :
    p + sizeofHeader + nbytes ≤ t.after p ∧ ∀ q ∈ s.names, t.after q ≤ p ∨ t.after p ≤ q := by
  obtain ⟨⟨F,listed,size⟩,_⟩ := malloc_spec kept small run
  constructor
  · have room := (nunits_bounds small).2.2
    unfold Heap.after
    rw [size]
    omega
  · intro q member
    have blockP : Block F (p :: s.names) p := Or.inr List.mem_cons_self
    have blockQ : Block F (p :: s.names) q := Or.inr (List.mem_cons_of_mem p member)
    have names := List.nodup_cons.mp listed.names
    rcases Nat.lt_trichotomy p q with less | rfl | more
    · exact Or.inr (listed.tiles.apart p q blockP blockQ less)
    · exact absurd member names.1
    · exact Or.inl (listed.tiles.apart q p blockQ blockP more)

/-- What holds between the calls of a program: its blocks and the free ones cover its memory and
    the list is in order; and what its next call does. -/
structure Behaves (base : Nat) (s : Heap) : Prop extends Kept base s where
  given : ∀ nbytes fuel p t, nbytes ≤ 0x7ffffff0 → malloc base fuel s nbytes = some (some p, t) →
    p + sizeofHeader + nbytes ≤ t.after p ∧ ∀ q ∈ s.names, t.after q ≤ p ∨ t.after p ≤ q
  malloc_ends : ∀ nbytes ≤ 0x7ffffff0, ∃ fuel result, malloc base fuel s nbytes = some result
  free_ends : ∀ bp ∈ s.names, ∃ fuel t, free fuel s bp = some t

theorem allocator_behaves (reach : (system base).Reach System.Free s) : Behaves base s := by
  have kept := reach_kept reach
  exact ⟨kept, fun _ _ _ _ small run => malloc_block kept small run, fun _ small => malloc_ends kept small,
    fun _ member => free_returns kept member⟩

def firstHeap : Heap := ⟨fun _ => ⟨0, 0⟩, none, 4096, fun _ => some 0, [], []⟩

/-- Two blocks are taken from one piece of memory, and the first goes back. -/
def twoBlocks : List Act := [.malloc 10 4, .malloc 20 4, .write 36832 ⟨7, 7⟩, .free 36840 4]

theorem twoBlocks_runs : (System.exec (next 1024) firstHeap twoBlocks).isSome := by decide

theorem allocator_behaves_twoBlocks :
    ∃ s, System.exec (next 1024) firstHeap twoBlocks = some s ∧ s.live = [(36808, 20)] ∧ Behaves 1024 s := by
  refine ⟨(System.exec (next 1024) firstHeap twoBlocks).get twoBlocks_runs, (Option.some_get _).symm, by decide, ?_⟩
  exact allocator_behaves (System.exec_reach twoBlocks (fun _ _ _ => trivial) (.start ⟨rfl, rfl, rfl, (by decide), rfl⟩) (Option.some_get _).symm)

end Programs
end Xv6Umalloc
