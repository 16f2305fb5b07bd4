import Mathlib.Data.List.TakeWhile
import Mathlib.Data.List.Pairwise
import Mathlib.Tactic.Ring
import KernelLabs.Lib.Ring
import KernelLabs.Lib.Tiling
import KernelLabs.Xv6.Umalloc

/-!
The free list of the allocator: a closed path through the static header and the free blocks in
address order, with the free blocks and the blocks in use as tiles of the memory from `sbrk`.
The tests of `free` and `malloc` change it one link and one size at a time.
-/
namespace Xv6Umalloc
open Ring Tiling

section Fields
variable (s : Heap) (p q n : Nat)

@[simp]
theorem setPtr_ptr : (s.setPtr p q).ptr = Function.update s.ptr p q := by
  funext r
  unfold Heap.ptr Heap.setPtr
  dsimp only
  rw [Function.update_apply, Function.update_apply]
  split <;> rfl

@[simp]
theorem setPtr_size : (s.setPtr p q).size = s.size := by
  funext r
  unfold Heap.size Heap.setPtr
  dsimp only
  rw [Function.update_apply]
  split
  · rename_i same
    rw [same]
  · rfl

@[simp]
theorem setSize_ptr : (s.setSize p n).ptr = s.ptr := by
  funext r
  unfold Heap.ptr Heap.setSize
  dsimp only
  rw [Function.update_apply]
  split
  · rename_i same
    rw [same]
  · rfl

@[simp]
theorem setSize_size : (s.setSize p n).size = Function.update s.size p n := by
  funext r
  unfold Heap.size Heap.setSize
  dsimp only
  rw [Function.update_apply, Function.update_apply]
  split <;> rfl

end Fields

/-- The bytes of a block, header included. -/
def Heap.len (s : Heap) (p : Nat) : Nat := sizeofHeader * s.size p

theorem after_eq (s : Heap) (p : Nat) : s.after p = p + s.len p := rfl

/-- The memory that came from `sbrk`. -/
def Heap.area (s : Heap) (x : Nat) : Prop := ∃ r ∈ s.obtained, r.1 ≤ x ∧ x < r.1 + r.2

def Block (F used : List Nat) (p : Nat) : Prop := p ∈ F ∨ p ∈ used

/-- The blocks, free and in use, and where they are. -/
structure Laid (base : Nat) (s : Heap) (F used : List Nat) : Prop where
  order : (base :: F).Pairwise (· < ·)
  empty : s.size base = 0
  tiles : Tiles (Block F used) s.len s.area
  apart : ∀ p ∈ F, p ∉ used
  names : used.Nodup
  above : ∀ p ∈ used, base < p
  aligned : ∀ p, Block F used p → p % 8 = 0
  below : ∀ p, Block F used p → s.after p ≤ s.brk

/-- The free list: all free blocks in address order, no two of them adjacent. -/
structure Free (base : Nat) (s : Heap) (F used : List Nat) : Prop extends Laid base s F used where
  path : Path s.ptr base F base
  joined : ∀ p ∈ F, s.after p ∉ F

/-- The list while a block is linked in: the list ends before it, and goes on from it. -/
structure Open (base : Nat) (s : Heap) (front back : List Nat) (bp : Nat) (used : List Nat) : Prop
    extends Laid base s (front ++ bp :: back) used where
  start : ∃ y, Path s.ptr base front y
  rest : Path s.ptr bp back base
  joined : ∀ p ∈ front ++ bp :: back, s.after p ∈ front ++ bp :: back → s.after p = bp

variable {base : Nat} {s t : Heap} {F front back used : List Nat} {p q bp n : Nat}

theorem Laid.nodup (laid : Laid base s F used) : (base :: F).Nodup := laid.order.imp fun less => Nat.ne_of_lt less

theorem Laid.above_free (laid : Laid base s F used) (member : p ∈ F) : base < p := List.rel_of_pairwise_cons laid.order member

theorem Laid.above_block (laid : Laid base s F used) (here : Block F used p) : base < p := by
  rcases here with free | live
  · exact laid.above_free free
  · exact laid.above p live

/-- What the calls do not change: the sizes of the blocks in use, and what the code does not keep. -/
structure Steady (used : List Nat) (s t : Heap) : Prop where
  sizes : ∀ p ∈ used, t.size p = s.size p
  live : t.live = s.live

theorem Steady.trans {u : Heap} (first : Steady used s t) (second : Steady used t u) : Steady used s u :=
  ⟨fun p member => (second.sizes p member).trans (first.sizes p member), second.live.trans first.live⟩

theorem last_mem {a : Nat} {l : List Nat} : (a :: l).getLast (by simp) ∈ a :: l := List.getLast_mem _

theorem order_insert (order : (base :: (front ++ back)).Pairwise (· < ·)) (above : base < bp) (low : ∀ x ∈ front, x < bp)
    (up : ∀ x ∈ back, bp < x) : (base :: (front ++ bp :: back)).Pairwise (· < ·) := by
  rw [List.pairwise_cons, List.pairwise_append] at order ⊢
  obtain ⟨first,ordered,orderedBack,cross⟩ := order
  refine ⟨fun x member => ?_, ordered, List.pairwise_cons.mpr ⟨up, orderedBack⟩, fun x inFront y inBack => ?_⟩
  · rcases List.mem_append.mp member with inFront | inBack
    · exact first x (List.mem_append_left _ inFront)
    · rcases List.mem_cons.mp inBack with rfl | inBack
      · exact above
      · exact first x (List.mem_append_right _ inBack)
  · rcases List.mem_cons.mp inBack with rfl | inBack
    · exact low x inFront
    · exact cross x inFront y inBack

theorem order_remove (order : (base :: (front ++ n :: back)).Pairwise (· < ·)) : (base :: (front ++ back)).Pairwise (· < ·) :=
  order.sublist (List.Sublist.cons_cons base (List.Sublist.append_left (List.sublist_cons_self n back) front))

/-- A link out of a block changes no block. -/
theorem Laid.setPtr (laid : Laid base s F used) : Laid base (s.setPtr p q) F used := by
  have sizes := setPtr_size s p q
  have lens : (s.setPtr p q).len = s.len := by
    unfold Heap.len
    rw [sizes]
  refine ⟨laid.order, ?_, ?_, laid.apart, laid.names, laid.above, laid.aligned, fun x here => ?_⟩
  · rw [sizes]
    exact laid.empty
  · rw [lens]
    exact laid.tiles
  · rw [after_eq, lens]
    exact laid.below x here

/-- The block taken from those in use has a place in the list. -/
theorem Laid.enlist (laid : Laid base s (front ++ back) (bp :: used)) (low : ∀ x ∈ front, x < bp) (up : ∀ x ∈ back, bp < x) :
    Laid base s (front ++ bp :: back) used := by
  obtain ⟨outside,names⟩ := List.nodup_cons.mp laid.names
  have same : ∀ x, Block (front ++ bp :: back) used x ↔ Block (front ++ back) (bp :: used) x := by
    intro x
    simp only [Block, List.mem_append, List.mem_cons]
    tauto
  refine ⟨order_insert laid.order (laid.above bp List.mem_cons_self) low up, laid.empty, laid.tiles.congr same fun _ _ => rfl, ?_, names,
    fun x member => laid.above x (List.mem_cons_of_mem bp member), fun x here => laid.aligned x ((same x).mp here),
    fun x here => laid.below x ((same x).mp here)⟩
  intro x member live
  rcases List.mem_append.mp member with inFront | inBack
  · exact laid.apart x (List.mem_append_left _ inFront) (List.mem_cons_of_mem bp live)
  · rcases List.mem_cons.mp inBack with rfl | inBack
    · exact outside live
    · exact laid.apart x (List.mem_append_right _ inBack) (List.mem_cons_of_mem bp live)

/-- A free block takes in the one after it. -/
theorem Laid.merge (laid : Laid base s (front ++ p :: q :: back) used) (next : s.after p = q) :
    Laid base (s.setSize p (s.size p + s.size q)) (front ++ p :: back) used := by
  have hereP : Block (front ++ p :: q :: back) used p := Or.inl (by simp)
  have hereQ : Block (front ++ p :: q :: back) used q := Or.inl (by simp)
  have names := (List.nodup_cons.mp laid.nodup).2
  rw [List.nodup_append, List.nodup_cons, List.nodup_cons] at names
  obtain ⟨_,⟨notP,notQ,_⟩,cross⟩ := names
  have unused := laid.apart q (by simp)
  have notFront : q ∉ front := fun member => cross q member q (by simp) rfl
  have other : q ≠ p := fun same => notP (same ▸ List.mem_cons_self)
  have same : ∀ x, Block (front ++ p :: back) used x ↔ Block (front ++ p :: q :: back) used x ∧ x ≠ q := by
    intro x
    simp only [Block, List.mem_append, List.mem_cons]
    constructor
    · rintro ((inFront | rfl | inBack) | live)
      · exact ⟨Or.inl (Or.inl inFront), fun same => notFront (same ▸ inFront)⟩
      · exact ⟨Or.inl (Or.inr (Or.inl rfl)), Ne.symm other⟩
      · exact ⟨Or.inl (Or.inr (Or.inr (Or.inr inBack))), fun same => notQ (same ▸ inBack)⟩
      · exact ⟨Or.inr live, fun same => unused (same ▸ live)⟩
    · tauto
  have lens : (s.setSize p (s.size p + s.size q)).len = Function.update s.len p (s.len p + s.len q) := by
    funext x
    unfold Heap.len
    rw [setSize_size, Function.update_apply, Function.update_apply]
    split
    · ring
    · rfl
  have low : base ≠ p := Nat.ne_of_lt (laid.above_block hereP)
  refine ⟨?_, ?_, ?_, fun x member => ?_, laid.names, laid.above, fun x here => laid.aligned x ((same x).mp here).1, fun x here => ?_⟩
  · have order := laid.order
    rw [List.append_cons] at order ⊢
    exact order_remove order
  · rw [setSize_size, Function.update_of_ne low]
    exact laid.empty
  · rw [lens]
    exact (laid.tiles.merge hereP hereQ next).congr same fun _ _ => rfl
  · refine laid.apart x ?_
    simp only [List.mem_append, List.mem_cons] at member ⊢
    tauto
  · rw [after_eq, lens]
    by_cases first : x = p
    · have top := laid.below q hereQ
      rw [after_eq] at next top
      change x + Function.update s.len p (s.len p + s.len q) x ≤ s.brk
      rw [first, Function.update_self]
      omega
    · rw [Function.update_of_ne first]
      exact laid.below x ((same x).mp here).1

theorem setPtr_after (s : Heap) (p q : Nat) : (s.setPtr p q).after = s.after := by
  funext x
  unfold Heap.after
  rw [setPtr_size]

theorem setSize_after_other {n : Nat} (other : q ≠ p) : (s.setSize p n).after q = s.after q := by
  unfold Heap.after
  rw [setSize_size, Function.update_of_ne other]

theorem merge_after (next : s.after p = q) : (s.setSize p (s.size p + s.size q)).after p = s.after q := by
  unfold Heap.after at next ⊢
  rw [setSize_size, Function.update_self]
  rw [← next]
  ring

/-- The block ends before the free blocks above it, unless the next one starts there. -/
theorem not_next (free : Free base s (front ++ back) (bp :: used)) (low : ∀ x ∈ front, x < bp) (up : ∀ x ∈ back, bp < x)
    (step : s.ptr p = (back ++ [base]).head (by simp)) (apart : ¬ s.after bp = s.ptr p) : s.after bp ∉ front ++ back := by
  have here : Block (front ++ back) (bp :: used) bp := Or.inr List.mem_cons_self
  have pos := free.tiles.pos bp here
  intro member
  rw [after_eq] at member apart
  rcases List.mem_append.mp member with inFront | inBack
  · have := low _ inFront
    omega
  · cases back with
    | nil => exact nomatch inBack
    | cons n back =>
      rw [step] at apart
      rcases List.mem_cons.mp inBack with same | inBack
      · exact apart same
      · have order := (List.pairwise_append.mp (List.pairwise_cons.mp free.order).2).2.1
        have beyond := List.rel_of_pairwise_cons order inBack
        have first := free.tiles.apart bp n here (Or.inl (by simp)) (up n List.mem_cons_self)
        omega

theorem joinUpper_open (free : Free base s (front ++ back) (bp :: used)) (low : ∀ x ∈ front, x < bp) (up : ∀ x ∈ back, bp < x)
    (last : (base :: front).getLast (by simp) = p) : ∃ back', Open base (joinUpper s bp p) front back' bp used ∧
      s.size bp ≤ (joinUpper s bp p).size bp ∧ Steady used s (joinUpper s bp p) := by
  have laid := free.toLaid.enlist low up
  have bpUsed : bp ∈ bp :: used := List.mem_cons_self
  have outside : bp ∉ front ++ back := fun member => free.apart bp member bpUsed
  have above := free.above bp bpUsed
  have new : bp ∉ base :: front := by
    intro member
    rcases List.mem_cons.mp member with same | member
    · omega
    · exact outside (List.mem_append_left _ member)
  have unused : bp ∉ used := (List.nodup_cons.mp free.names).1
  obtain ⟨⟨y,start⟩,tail⟩ := path_split free.path
  rw [last] at tail
  have step := path_step tail
  have others : ∀ x ∈ used, x ≠ bp := fun x member same => unused (same ▸ member)
  unfold joinUpper
  split
  · rename_i adjacent
    cases back with
    | nil =>
      have wrap : s.ptr p = base := step
      have pos := free.tiles.pos bp (Or.inr bpUsed)
      rw [after_eq, wrap] at adjacent
      omega
    | cons n back =>
      have next : s.ptr p = n := step
      have goes : ∀ y ∈ front ++ bp :: back, y = bp ∨ y ∈ front ++ n :: back := by
        intro y member
        simp only [List.mem_append, List.mem_cons] at member ⊢
        tauto
      dsimp only
      rw [next] at adjacent
      rw [setSize_ptr, next]
      refine ⟨back, ⟨(laid.merge adjacent).setPtr, ⟨y, ?_⟩, ?_, fun x member there => ?_⟩, ?_, fun x member => ?_, rfl⟩
      · rw [setPtr_ptr, setSize_ptr]
        exact path_update new _ start
      · rw [setPtr_ptr, setSize_ptr]
        exact path_restart (fun member => outside (List.mem_append_right _ (List.mem_cons_of_mem n member))) tail.2
      · rw [setPtr_after] at there ⊢
        refine (goes _ there).resolve_right fun free' => ?_
        by_cases mine : x = bp
        · rw [mine, merge_after adjacent] at free'
          exact free.joined n (by simp) free'
        · rw [setSize_after_other mine] at free'
          exact free.joined x ((goes x member).resolve_left mine) free'
      · rw [setPtr_size, setSize_size, Function.update_self]
        exact Nat.le_add_right _ _
      · rw [setPtr_size, setSize_size, Function.update_of_ne (others x member)]
  · rename_i apart
    have goes : ∀ y ∈ front ++ bp :: back, y = bp ∨ y ∈ front ++ back := by
      intro y member
      simp only [List.mem_append, List.mem_cons] at member ⊢
      tauto
    refine ⟨back, ⟨laid.setPtr, ⟨y, ?_⟩, ?_, fun x member there => ?_⟩, ?_, fun x member => ?_, rfl⟩
    · rw [setPtr_ptr]
      exact path_update new _ start
    · rw [setPtr_ptr]
      exact path_restart (fun member => outside (List.mem_append_right _ member)) tail
    · rw [setPtr_after] at there ⊢
      refine (goes _ there).resolve_right fun free' => ?_
      by_cases mine : x = bp
      · subst mine
        exact not_next free low up step apart free'
      · exact free.joined x ((goes x member).resolve_left mine) free'
    · rw [setPtr_size]
    · rw [setPtr_size]

theorem last_split {l : List Nat} (last : (base :: l).getLast (by simp) = p) (some : l ≠ []) : ∃ front, l = front ++ [p] := by
  refine ⟨l.dropLast, ?_⟩
  rw [List.getLast_cons some] at last
  rw [← last, List.dropLast_append_getLast some]

/-- Only the last block before `bp` can end at `bp`. -/
theorem before_last (laid : Laid base s (front ++ bp :: back) used) (last : (base :: front).getLast (by simp) = p)
    (member : q ∈ front ++ bp :: back) (meets : s.after q = bp) (other : q ≠ p) : False := by
  have here : Block (front ++ bp :: back) used q := Or.inl member
  have pos := laid.tiles.pos q here
  rw [after_eq] at meets
  have order := List.pairwise_append.mp (List.pairwise_cons.mp laid.order).2
  rcases List.mem_append.mp member with inFront | inBack
  · obtain ⟨front,rfl⟩ := last_split last (List.ne_nil_of_mem inFront)
    have earlier : q ∈ front := by
      rcases List.mem_append.mp inFront with earlier | final
      · exact earlier
      · exact absurd (List.mem_singleton.mp final) other
    have less := (List.pairwise_append.mp order.1).2.2 q earlier p (List.mem_singleton.mpr rfl)
    have next := order.2.2 p (by simp) bp List.mem_cons_self
    have bound := laid.tiles.apart q p here (Or.inl (by simp)) less
    omega
  · rcases List.mem_cons.mp inBack with rfl | inBack
    · omega
    · have less := List.rel_of_pairwise_cons order.2.1 inBack
      omega

theorem joinLower_free (linked : Open base s front back bp used) (last : (base :: front).getLast (by simp) = p) :
    ∃ F, Free base (joinLower s bp p) F used ∧ p ∈ base :: F ∧ Steady used s (joinLower s bp p) ∧
      ∃ q ∈ F, s.size bp ≤ (joinLower s bp p).size q := by
  obtain ⟨y,start⟩ := linked.start
  have nodup := linked.nodup
  have names : (base :: front).Nodup := nodup.sublist (List.Sublist.cons_cons base (List.sublist_append_left front _))
  have bpIn : bp ∈ front ++ bp :: back := by simp
  have above := linked.above_free bpIn
  have lastIn : p ∈ base :: front := last ▸ last_mem
  have clear : p ∉ bp :: back := by
    intro member
    rcases List.mem_cons.mp lastIn with rfl | inFront
    · exact (List.nodup_cons.mp nodup).1 (List.mem_append_right _ member)
    · exact (List.nodup_append.mp (List.nodup_cons.mp nodup).2).2.2 p inFront p member rfl
  unfold joinLower
  split
  · rename_i adjacent
    have notBase : p ≠ base := by
      rintro rfl
      rw [after_eq, Heap.len, linked.empty] at adjacent
      omega
    obtain ⟨front,rfl⟩ := last_split last (fun none => notBase (by simpa [none] using last.symm))
    have laid := linked.toLaid
    rw [List.append_assoc, List.singleton_append] at laid
    have unused : ∀ x ∈ used, x ≠ p := fun x member same => linked.apart p (by simp) (same ▸ member)
    have goes : ∀ x ∈ front ++ p :: back, x ∈ front ++ [p] ++ bp :: back := by
      intro x member
      simp only [List.mem_append, List.mem_cons] at member ⊢
      tauto
    obtain ⟨before,_⟩ := path_append.mp start
    have early : p ∉ base :: front := by
      intro member
      have order := laid.nodup
      rw [← List.cons_append] at order
      exact (List.nodup_append.mp order).2.2 p member p List.mem_cons_self rfl
    have gone : bp ∉ front ++ p :: back := by
      intro member
      have order := (List.nodup_cons.mp laid.nodup).2
      rw [List.append_cons, List.nodup_middle] at order
      refine (List.nodup_cons.mp order).1 ?_
      rwa [List.append_assoc, List.singleton_append]
    -- Only `bp` could follow a free block, and it is no longer in the list.
    have alone : ∀ x ∈ front ++ [p] ++ bp :: back, s.after x ∉ front ++ p :: back := by
      intro x member there
      have same := linked.joined x member (goes _ there)
      rw [same] at there
      exact gone there
    dsimp only
    rw [setSize_ptr]
    refine ⟨front ++ p :: back, ⟨?_, ?_, fun x member there => ?_⟩, by simp, ⟨fun x member => ?_, rfl⟩, p, by simp, ?_⟩
    · exact (laid.merge adjacent).setPtr
    · rw [setPtr_ptr, setSize_ptr]
      refine path_append.mpr ⟨path_update early _ before, path_restart (fun member => clear (List.mem_cons_of_mem bp member)) linked.rest⟩
    · rw [setPtr_after] at there
      by_cases mine : x = p
      · rw [mine, merge_after adjacent] at there
        exact alone bp bpIn there
      · rw [setSize_after_other mine] at there
        exact alone x (goes x member) there
    · rw [setPtr_size, setSize_size, Function.update_of_ne (unused x member)]
    · rw [setPtr_size, setSize_size, Function.update_self]
      exact Nat.le_add_left _ _
  · rename_i apart
    refine ⟨front ++ bp :: back, ⟨linked.toLaid.setPtr, ?_, fun x member there => ?_⟩, ?_, ⟨fun x member => ?_, rfl⟩, bp, by simp, ?_⟩
    · rw [setPtr_ptr]
      have joined := path_retarget (c := bp) names start
      rw [last] at joined
      exact path_append.mpr ⟨joined, path_update clear bp linked.rest⟩
    · rw [setPtr_after] at there
      have meets := linked.joined x member there
      exact before_last linked.toLaid last member meets (fun same => apart (same ▸ meets))
    · rcases List.mem_cons.mp lastIn with same | inFront
      · rw [same]
        exact List.mem_cons_self
      · exact List.mem_cons_of_mem base (List.mem_append_left _ inFront)
    · rw [setPtr_size]
    · rw [setPtr_size]

section Freeing

/-- The tests that end the loop of `free`. -/
def Stops (s : Heap) (bp p : Nat) : Prop := (bp > p ∧ bp < s.ptr p) ∨ (p ≥ s.ptr p ∧ (bp > p ∨ bp < s.ptr p))

theorem freeLoop_stops {fuel r : Nat} (path : Path s.ptr base F base) (here : p ∈ base :: F)
    (run : freeLoop s bp fuel p = some r) : r ∈ base :: F ∧ Stops s bp r := by
  induction fuel generalizing p with
  | zero => exact nomatch run
  | succ fuel ih =>
    rw [freeLoop] at run
    split at run
    · rename_i between
      rw [← Option.some.inj run]
      exact ⟨here, Or.inl between⟩
    · split at run
      · rename_i wraps
        rw [← Option.some.inj run]
        exact ⟨here, Or.inr wraps⟩
      · exact ih (closed_step path here) run

theorem freeLoop_ends {k fuel : Nat} (stops : Stops s bp (s.ptr^[k] p)) (enough : k < fuel) :
    ∃ r, freeLoop s bp fuel p = some r := by
  induction k generalizing p fuel with
  | zero =>
    obtain ⟨fuel,rfl⟩ : ∃ m, fuel = m + 1 := ⟨fuel - 1, by omega⟩
    rw [freeLoop]
    split
    · exact ⟨p, rfl⟩
    · rename_i apart
      have wraps : p ≥ s.ptr p ∧ (bp > p ∨ bp < s.ptr p) := stops.resolve_left apart
      rw [if_pos wraps]
      exact ⟨p, rfl⟩
  | succ k ih =>
    obtain ⟨fuel,rfl⟩ : ∃ m, fuel = m + 1 := ⟨fuel - 1, by omega⟩
    rw [freeLoop]
    split
    · exact ⟨p, rfl⟩
    · split
      · exact ⟨p, rfl⟩
      · exact ih stops (by omega)

/-- The loop of `free` ends where the block belongs. -/
theorem stops_between (free : Free base s F (bp :: used)) (here : p ∈ base :: F) (stops : Stops s bp p) :
    ∃ front back, F = front ++ back ∧ (base :: front).getLast (by simp) = p ∧ (∀ x ∈ front, x < bp) ∧ ∀ x ∈ back, bp < x := by
  obtain ⟨front,back,rfl,last⟩ := split_at here
  have above := free.above bp List.mem_cons_self
  have tail := (path_split free.path).2
  rw [last] at tail
  have step := path_step tail
  have order := List.pairwise_append.mp (List.pairwise_cons.mp free.order).2
  have least := (List.pairwise_cons.mp free.order).1
  have upTo : ∀ x ∈ front, x ≤ p := by
    intro x member
    obtain ⟨front,rfl⟩ := last_split last (List.ne_nil_of_mem member)
    rcases List.mem_append.mp member with earlier | final
    · exact Nat.le_of_lt ((List.pairwise_append.mp order.1).2.2 x earlier p (List.mem_singleton.mpr rfl))
    · exact Nat.le_of_eq (List.mem_singleton.mp final)
  refine ⟨front, back, rfl, last, ?_⟩
  cases back with
  | nil =>
    have wrap : s.ptr p = base := step
    have beyond : p < bp := by
      unfold Stops at stops
      omega
    exact ⟨fun x member => Nat.lt_of_le_of_lt (upTo x member) beyond, fun x none => nomatch none⟩
  | cons n back =>
    have next : s.ptr p = n := step
    have rises : p < n := by
      rcases List.mem_cons.mp here with rfl | member
      · exact least n (by simp)
      · rcases List.mem_append.mp member with inFront | inBack
        · exact order.2.2 p inFront n List.mem_cons_self
        · have names := free.nodup
          rw [← List.cons_append] at names
          exact absurd rfl ((List.nodup_append.mp names).2.2 p (last ▸ last_mem) p inBack)
    have between : p < bp ∧ bp < n := by
      unfold Stops at stops
      omega
    refine ⟨fun x member => Nat.lt_of_le_of_lt (upTo x member) between.1, fun x member => ?_⟩
    rcases List.mem_cons.mp member with rfl | member
    · exact between.2
    · exact Nat.lt_trans between.2 (List.rel_of_pairwise_cons order.2.1 member)

/-- There is such a place. -/
theorem some_stops (free : Free base s F (bp :: used)) : ∃ p ∈ base :: F, Stops s bp p := by
  have above := free.above bp List.mem_cons_self
  have outside : bp ∉ F := fun member => free.apart bp member List.mem_cons_self
  have parts := List.takeWhile_append_dropWhile (p := fun x => decide (x < bp)) (l := F)
  have low : ∀ x ∈ F.takeWhile (fun x => decide (x < bp)), x < bp := fun x member => by simpa using List.mem_takeWhile_imp member
  generalize F.takeWhile (fun x => decide (x < bp)) = front at parts low
  have head : ∀ n rest, F.dropWhile (fun x => decide (x < bp)) = n :: rest → bp < n := by
    intro n rest drop
    have stop := List.head_dropWhile_not (fun x => decide (x < bp)) (l := F) (by rw [drop]; simp)
    simp only [drop, List.head_cons, decide_eq_false_iff_not, Nat.not_lt] at stop
    refine Nat.lt_of_le_of_ne stop fun same => outside ?_
    rw [← parts, drop, same]
    simp
  generalize F.dropWhile (fun x => decide (x < bp)) = back at parts head
  subst parts
  refine ⟨(base :: front).getLast (by simp), ?_, ?_⟩
  · rcases List.mem_cons.mp (last_mem (a := base) (l := front)) with same | member
    · rw [same]
      exact List.mem_cons_self
    · exact List.mem_cons_of_mem base (List.mem_append_left _ member)
  · have tail := (path_split free.path).2
    have step := path_step tail
    have before : base ≤ (base :: front).getLast (by simp) ∧ (base :: front).getLast (by simp) < bp := by
      rcases List.mem_cons.mp (last_mem (a := base) (l := front)) with same | member
      · rw [same]
        exact ⟨Nat.le_refl _, above⟩
      · exact ⟨Nat.le_of_lt (free.above_free (List.mem_append_left _ member)), low _ member⟩
    generalize (base :: front).getLast (by simp) = p at step before
    unfold Stops
    cases back with
    | nil =>
      have wrap : s.ptr p = base := step
      omega
    | cons n back =>
      have next : s.ptr p = n := step
      have := head n back rfl
      omega

end Freeing

end Xv6Umalloc
