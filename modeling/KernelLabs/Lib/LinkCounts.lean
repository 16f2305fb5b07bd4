import KernelLabs.Lib.Counting
import KernelLabs.Lib.SlotTable
import Mathlib.Algebra.Order.BigOperators.Group.Finset

/- Folders whose slots name files and folders, and the numbers of links that are kept with these. A folder
   has a slot for itself and one for the folder above it. A folder without links is no longer part of the
   tree, though its slots may still be there. -/
namespace LinkCounts
open SlotTable

inductive Kind where
  | free | file | folder
deriving DecidableEq

structure Node (ι N : Type) where
  kind : Kind
  nlink : Nat
  slots : Table N ι

/-- A folder of the tree. -/
def Node.Linked {ι N : Type} (n : Node ι N) : Prop := n.kind = .folder ∧ n.nlink ≠ 0

structure Shape (ι N : Type) where
  all : Finset ι
  root : ι
  dot : N
  dotdot : N
  apart : dotdot ≠ dot

section Counts
variable {ι N : Type} [DecidableEq ι] [DecidableEq N] (S : Shape ι N)

/-- A slot that counts as a link to `i`. -/
def Shape.points (i : ι) (slot : Option (N × ι)) : Bool := slot.any fun p => decide (p.1 ≠ S.dot ∧ p.2 = i)

/-- A slot for `i` under a name that is not kept for the folder above. -/
def Shape.child (i : ι) (slot : Option (N × ι)) : Bool :=
  slot.any fun p => decide (p.1 ≠ S.dot ∧ p.1 ≠ S.dotdot ∧ p.2 = i)

def Shape.upward (i : ι) (slot : Option (N × ι)) : Bool := slot.any fun p => decide (p.1 = S.dotdot ∧ p.2 = i)

def Node.count {ι N : Type} (n : Node ι N) (f : Option (N × ι) → Bool) : Nat :=
  if n.kind = .folder ∧ n.nlink ≠ 0 then n.slots.countP f else 0

def Shape.links (G : ι → Node ι N) (i : ι) : Nat := ∑ d ∈ S.all, (G d).count (S.points i)

omit [DecidableEq ι] [DecidableEq N] in
/-- The slot for the folder above. -/
def Shape.Above (S : Shape ι N) (n : Node ι N) (p : ι) : Prop := n.slots[1]? = some (some (S.dotdot, p))

/-- Every number of links is the number of slots, and every folder but the root has one place in the tree,
below the root. -/
structure Law (S : Shape ι N) (G : ι → Node ι N) : Prop where
  outside : ∀ i, i ∉ S.all → (G i).kind = .free
  bare : ∀ i, (G i).kind = .free → (G i).nlink = 0
  counted : ∀ i, S.links G i = (G i).nlink
  self : ∀ d, (G d).Linked → (G d).slots[0]? = some (some (S.dot, d)) ∧ ∃ p, S.Above (G d) p
  distinct : ∀ d, (G d).Linked → Distinct (G d).slots
  root : (G S.root).Linked ∧ S.Above (G S.root) S.root
  down : ∀ d p, (G d).Linked → d ≠ S.root → S.Above (G d) p →
    (G p).Linked ∧ (G p).slots.countP (S.child d) = 1
  up : ∀ p d, (G p).Linked → (G d).kind = .folder → (G p).slots.countP (S.child d) ≠ 0 →
    d ≠ S.root ∧ d ≠ p ∧ S.Above (G d) p
  rooted : ∃ depth : ι → Nat, ∀ d p, (G d).Linked → d ≠ S.root → S.Above (G d) p → depth p < depth d

end Counts

section Facts
variable {ι N : Type} {n : Node ι N} {f : Option (N × ι) → Bool} {t : Table N ι} {e : Nat}
  {slot : Option (N × ι)}

theorem Node.Linked.count_eq (linked : n.Linked) : n.count f = n.slots.countP f := if_pos linked

theorem count_unlinked (unlinked : ¬ n.Linked) : n.count f = 0 := if_neg unlinked

/-- A write takes a slot away and puts another one there. -/
theorem write_count (t : Table N ι) (e : Nat) (slot : Option (N × ι)) (f : Option (N × ι) → Bool) :
    (write t e slot).countP f + (if t[e]?.any f then 1 else 0) = t.countP f + if f slot then 1 else 0 := by
  have parts : t.countP f = (t.take e).countP f + (t.drop e).countP f := by
    rw [← List.countP_append, List.take_append_drop]
  have rest : (t.drop e).countP f = (t.drop (e + 1)).countP f + if t[e]?.any f then 1 else 0 := by
    rcases Nat.lt_or_ge e t.length with inside | past
    · rw [List.drop_eq_getElem_cons inside, List.countP_cons, List.getElem?_eq_getElem inside]
      rfl
    · rw [List.drop_eq_nil_of_le past, List.drop_eq_nil_of_le (Nat.le_succ_of_le past), List.getElem?_eq_none past]
      rfl
  unfold write
  rw [List.countP_append, List.countP_cons, parts, rest]
  omega

theorem vacant_any (vacant : ∀ x, t[e]? ≠ some (some x)) (off : f none = false) : ¬ (t[e]?.any f) = true := by
  intro hit
  obtain ⟨y,there,holds⟩ := (Option.any_eq_true ..).mp hit
  cases y with
  | none => cases off.symm.trans holds
  | some y => exact vacant y there

theorem countP_split {g h : Option (N × ι) → Bool} (same : ∀ x, f x = (g x || h x)) (apart : ∀ x, ¬ (g x = true ∧ h x = true))
    (t : Table N ι) : t.countP f = t.countP g + t.countP h := by
  induction t with
  | nil => rfl
  | cons x rest ih =>
    rw [List.countP_cons, List.countP_cons, List.countP_cons, ih, same x]
    have either := apart x
    cases here : g x <;> cases there : h x
    · simp
    · simp
      omega
    · simp
      omega
    · exact absurd ⟨here,there⟩ either

theorem countP_pos_of (entry : t[e]? = some slot) (holds : f slot = true) : 0 < t.countP f :=
  List.countP_pos_iff.mpr ⟨slot, List.mem_of_getElem? entry, holds⟩

theorem distinct_pair {a b : N} {i j : ι} (apart : a ≠ b) : Distinct [some (a, i), some (b, j)] := by
  intro e f c v w first second
  have low := (List.getElem?_eq_some_iff.mp first).1
  have low' := (List.getElem?_eq_some_iff.mp second).1
  simp only [List.length_cons, List.length_nil] at low low'
  obtain rfl | rfl : e = 0 ∨ e = 1 := by omega
  · obtain rfl | rfl : f = 0 ∨ f = 1 := by omega
    · rfl
    · cases first
      cases second
      exact absurd rfl apart
  · obtain rfl | rfl : f = 0 ∨ f = 1 := by omega
    · cases first
      cases second
      exact absurd rfl apart
    · rfl

theorem countP_one (entry : t[e]? = some slot) (holds : f slot = true) (off : f none = false)
    (only : ∀ (g : Nat) x, t[g]? = some x → f x = true → g = e) : t.countP f = 1 := by
  have change := write_count t e none f
  have place : e ≤ t.length := Nat.le_of_lt (List.getElem?_eq_some_iff.mp entry).1
  have others : (write t e none).countP f = 0 := by
    rw [List.countP_eq_zero]
    intro x member hit
    obtain ⟨g,there⟩ := List.mem_iff_getElem?.mp member
    rw [write_get place] at there
    split at there
    · cases there
      cases off.symm.trans hit
    · rename_i differs
      exact differs (only g x there hit)
  rw [entry, Option.any_some, if_pos holds, others, off] at change
  simpa using change.symm

theorem countP_unique {g : Nat} {other : Option (N × ι)} (one : t.countP f = 1) (off : f none = false) (entry : t[e]? = some slot)
    (holds : f slot = true) (entry' : t[g]? = some other) (holds' : f other = true) : e = g := by
  by_contra apart
  have change := write_count t e none f
  have place : e ≤ t.length := Nat.le_of_lt (List.getElem?_eq_some_iff.mp entry).1
  have still : (write t e none)[g]? = some other := by
    rw [write_get place, if_neg (Ne.symm apart), entry']
  have more := countP_pos_of still holds'
  rw [entry, Option.any_some, if_pos holds, one, off, if_neg nofun] at change
  omega

theorem slot_of_countP (pos : t.countP f ≠ 0) : ∃ (e : Nat) (slot : Option (N × ι)), t[e]? = some slot ∧ f slot = true := by
  obtain ⟨slot,member,holds⟩ := List.countP_pos_iff.mp (Nat.pos_of_ne_zero pos)
  obtain ⟨e,entry⟩ := List.mem_iff_getElem?.mp member
  exact ⟨e, slot, entry, holds⟩

end Facts

section Slots
variable {ι N : Type} [DecidableEq ι] [DecidableEq N] {S : Shape ι N} {a : N} {i j : ι} {slot : Option (N × ι)}

theorem points_some : S.points i (some (a, j)) = true ↔ a ≠ S.dot ∧ j = i := by
  rw [Shape.points, Option.any_some, decide_eq_true_iff]

theorem child_some : S.child i (some (a, j)) = true ↔ a ≠ S.dot ∧ a ≠ S.dotdot ∧ j = i := by
  rw [Shape.child, Option.any_some, decide_eq_true_iff]

theorem slot_of_child (here : S.child i slot = true) : ∃ a, slot = some (a, i) ∧ a ≠ S.dot ∧ a ≠ S.dotdot := by
  cases slot with
  | none => cases here
  | some p =>
    obtain ⟨a,j⟩ := p
    obtain ⟨other,other',rfl⟩ := child_some.mp here
    exact ⟨a, rfl, other, other'⟩

theorem points_of_child (here : S.child i slot = true) : S.points i slot = true := by
  obtain ⟨a,rfl,other,_⟩ := slot_of_child here
  exact points_some.mpr ⟨other,rfl⟩

theorem child_le (t : Table N ι) (i : ι) : t.countP (S.child i) ≤ t.countP (S.points i) :=
  List.countP_mono_left fun _ _ here => points_of_child here

theorem points_split (t : Table N ι) (i : ι) :
    t.countP (S.points i) = t.countP (S.child i) + t.countP (S.upward i) := by
  refine countP_split (fun slot => ?_) (fun slot => ?_) t
  · cases slot with
    | none => rfl
    | some p =>
      rw [Bool.eq_iff_iff, Bool.or_eq_true, points_some, child_some, Shape.upward, Option.any_some, decide_eq_true_iff]
      by_cases up : p.1 = S.dotdot
      · simp [up, S.apart]
      · simp [up]
  · cases slot with
    | none => exact fun both => nomatch both.1
    | some p =>
      rw [child_some, Shape.upward, Option.any_some, decide_eq_true_iff]
      exact fun both => both.1.2.1 both.2.1

end Slots

section Trees
variable {ι N : Type} [DecidableEq ι] [DecidableEq N] {S : Shape ι N} {G G' : ι → Node ι N} {a : N} {i j d p : ι} {e : Nat}

omit [DecidableEq ι] [DecidableEq N] in
/-- A write of a name that is not there. -/
theorem distinct_fill {t : Table N ι} {e : Nat} {a : N} {i : ι} (distinct : Distinct t) (place : e ≤ t.length)
    (missing : ∀ (f : Nat) j, t[f]? ≠ some (some (a, j))) : Distinct (write t e (some (a, i))) := by
  intro f g b v w first second
  rw [write_get place] at first second
  split at first <;> split at second
  · rename_i one two
    rw [one, two]
  · cases first
    exact absurd second (missing g w)
  · cases second
    exact absurd first (missing f v)
  · exact distinct f g b v w first second

omit [DecidableEq ι] [DecidableEq N] in
theorem above_unique {n : Node ι N} {q : ι} (first : S.Above n p) (second : S.Above n q) : p = q := by
  cases first.symm.trans second
  rfl

theorem links_ge (linked : (G p).Linked) (member : p ∈ S.all) (i : ι) : (G p).slots.countP (S.points i) ≤ S.links G i := by
  have less := Finset.single_le_sum (f := fun q => (G q).count (S.points i)) (fun q _ => Nat.zero_le _) member
  rw [linked.count_eq] at less
  exact less

/-- What a change of two nodes does to the links. -/
theorem links_two (apart : p ≠ i) (first : p ∈ S.all) (second : i ∈ S.all) (rest : ∀ q, q ≠ p → q ≠ i → G' q = G q) (j : ι) :
    S.links G' j + ((G p).count (S.points j) + (G i).count (S.points j)) =
      S.links G j + ((G' p).count (S.points j) + (G' i).count (S.points j)) := by
  have one := Counting.sum_change S.all (fun q => (G q).count (S.points j))
    (fun q => (Function.update G p (G' p) q).count (S.points j)) first fun q _ other => by
      rw [Function.update_of_ne other]
  have two := Counting.sum_change S.all (fun q => (Function.update G p (G' p) q).count (S.points j))
    (fun q => (G' q).count (S.points j)) second fun q _ other => by
      by_cases here : q = p
      · rw [here, Function.update_self]
      · rw [Function.update_of_ne here, rest q here other]
  rw [Function.update_self] at one
  rw [Function.update_of_ne apart.symm] at two
  unfold Shape.links
  omega

namespace Law
variable (law : Law S G)
include law

theorem mem (known : (G i).kind ≠ .free) : i ∈ S.all := by
  by_contra out
  exact known (law.outside i out)

theorem kind_of_linked (some : (G i).nlink ≠ 0) : (G i).kind ≠ .free := fun free => some (law.bare i free)

theorem linked_mem (linked : (G p).Linked) : p ∈ S.all := law.mem (law.kind_of_linked linked.2)

theorem links_ge (linked : (G p).Linked) (i : ι) : (G p).slots.countP (S.points i) ≤ (G i).nlink := by
  rw [← law.counted i]
  exact LinkCounts.links_ge linked (law.linked_mem linked) i

/-- Whatever a folder of the tree names has a link. -/
theorem entry (linked : (G p).Linked) (here : (G p).slots[e]? = some (some (a, j))) : (G j).nlink ≠ 0 := by
  by_cases self : a = S.dot
  · subst self
    have first := (law.self p linked).1
    have same := law.distinct p linked e 0 _ _ _ here first
    rw [same, first] at here
    cases here
    exact linked.2
  · have some := countP_pos_of (f := S.points j) here (points_some.mpr ⟨self,rfl⟩)
    have least := law.links_ge linked j
    omega

/-- The name for the folder above has one slot. -/
theorem upward_above (linked : (G p).Linked) (some : (G p).slots.countP (S.upward i) ≠ 0) : S.Above (G p) i := by
  obtain ⟨e,slot,here,holds⟩ := slot_of_countP some
  cases slot with
  | none => cases holds
  | some x =>
    obtain ⟨a,j⟩ := x
    rw [Shape.upward, Option.any_some, decide_eq_true_iff] at holds
    obtain ⟨rfl,rfl⟩ := holds
    obtain ⟨_,q,above⟩ := law.self p linked
    have same := law.distinct p linked e 1 _ _ _ here above
    rw [same] at here
    exact here

theorem upward_count (linked : (G p).Linked) (above : S.Above (G p) i) (j : ι) :
    (G p).slots.countP (S.upward j) = if j = i then 1 else 0 := by
  by_cases here : j = i
  · rw [if_pos here]
    refine countP_one above (by simp [Shape.upward, here]) rfl fun g x there holds => ?_
    cases x with
    | none => cases holds
    | some x =>
      rw [Shape.upward, Option.any_some, decide_eq_true_iff] at holds
      obtain ⟨a,k⟩ := x
      obtain ⟨rfl,_⟩ := holds
      exact law.distinct p linked g 1 _ _ _ there above
  · rw [if_neg here]
    by_contra some
    exact here (above_unique (law.upward_above linked some) above)

/-- A slot with a name of its own comes after the first two. -/
theorem late (linked : (G p).Linked) (here : (G p).slots[e]? = some (some (a, j))) (other : a ≠ S.dot)
    (other' : a ≠ S.dotdot) : 2 ≤ e := by
  obtain ⟨first,q,second⟩ := law.self p linked
  by_contra early
  obtain rfl | rfl : e = 0 ∨ e = 1 := by omega
  · cases first.symm.trans here
    exact other rfl
  · cases second.symm.trans here
    exact other' rfl

/-- The only folder slot for an empty folder is the one found, so it has one link and the folder above two. -/
theorem empty_links (linked : (G p).Linked) (folder : (G i).kind = .folder) (here : (G p).slots[e]? = some (some (a, i)))
    (other : a ≠ S.dot) (other' : a ≠ S.dotdot) (empty : ∀ (f : Nat) x, 2 ≤ f → (G i).slots[f]? ≠ some (some x)) :
    (G i).nlink = 1 ∧ 2 ≤ (G p).nlink ∧ ∀ d, (G i).slots.countP (S.child d) = 0 := by
  have named := countP_pos_of (f := S.child i) here (child_some.mpr ⟨other,other',rfl⟩)
  obtain ⟨away,apart,above⟩ := law.up p i linked folder (Nat.ne_of_gt named)
  have inside : (G i).Linked := ⟨folder, law.entry linked here⟩
  have childless : ∀ d, (G i).slots.countP (S.child d) = 0 := by
    intro d
    by_contra some
    obtain ⟨f,slot,there,holds⟩ := slot_of_countP some
    obtain ⟨b,rfl,first,second⟩ := slot_of_child holds
    exact empty f _ (law.late inside there first second) there
  -- nobody has the folder above itself, for that needs a slot of its own in it
  have barren : ∀ q, (G q).Linked → ¬ S.Above (G q) i := by
    intro q live up
    by_cases root : q = S.root
    · subst root
      exact away (above_unique up law.root.2)
    · have one := (law.down q i live root up).2
      rw [childless] at one
      cases one
  have one := (law.down i p inside away above).2
  have single : ∀ q, (G q).Linked → (G q).slots.countP (S.points i) = if q = p then 1 else 0 := by
    intro q live
    have ups : (G q).slots.countP (S.upward i) = 0 := by
      by_contra some
      exact barren q live (law.upward_above live some)
    rw [points_split, ups]
    split
    · rename_i same
      rw [same]
      exact one
    · rename_i differs
      by_contra some
      exact differs (above_unique (law.up q i live folder some).2.2 above)
  refine ⟨?_, ?_, childless⟩
  · have sum : S.links G i = 1 := by
      unfold Shape.links
      rw [Finset.sum_eq_single_of_mem p (law.linked_mem linked), linked.count_eq, single p linked, if_pos rfl]
      intro q _ differs
      by_cases live : (G q).Linked
      · rw [live.count_eq, single q live, if_neg differs]
      · exact count_unlinked live
    exact (law.counted i).symm.trans sum
  · obtain ⟨q,live,differs,points⟩ : ∃ q, (G q).Linked ∧ q ≠ i ∧ 0 < (G q).slots.countP (S.points p) := by
      by_cases root : p = S.root
      · refine ⟨p, linked, apart.symm, ?_⟩
        have up := law.root.2
        rw [← root] at up
        exact countP_pos_of up (points_some.mpr ⟨S.apart,rfl⟩)
      · obtain ⟨_,q,up⟩ := law.self p linked
        obtain ⟨live,one⟩ := law.down p q linked root up
        refine ⟨q, live, ?_, ?_⟩
        · intro same
          rw [same, childless] at one
          cases one
        · have least := child_le (S := S) (G q).slots p
          omega
    have mine := countP_pos_of (f := S.points p) above (points_some.mpr ⟨S.apart,rfl⟩)
    have sum := Finset.add_le_sum (f := fun q => (G q).count (S.points p)) (fun _ _ => Nat.zero_le _) (law.linked_mem live)
      (law.linked_mem inside) differs
    rw [live.count_eq, inside.count_eq] at sum
    have total := law.counted p
    unfold Shape.links at total
    omega

/-- The first two slots are in use. -/
theorem vacant_late (linked : (G p).Linked) (vacant : ∀ x, (G p).slots[e]? ≠ some (some x)) : 2 ≤ e := by
  obtain ⟨first,q,second⟩ := law.self p linked
  by_contra early
  obtain rfl | rfl : e = 0 ∨ e = 1 := by omega
  · exact vacant _ first
  · exact vacant _ second

/-- A name that a folder does not have is not one of the two. -/
theorem missing_name (linked : (G p).Linked) (missing : ∀ (f : Nat) j, (G p).slots[f]? ≠ some (some (a, j))) :
    a ≠ S.dot ∧ a ≠ S.dotdot := by
  obtain ⟨first,q,second⟩ := law.self p linked
  constructor
  · rintro rfl
    exact missing _ _ first
  · rintro rfl
    exact missing _ _ second

/-- A node without links may become another one. -/
theorem swap {n : Node ι N} (unlinked : (G i).nlink = 0) (unlinked' : n.nlink = 0) (member : i ∈ S.all) :
    Law S (Function.update G i n) := by
  have back : ∀ q, (Function.update G i n q).Linked → q ≠ i ∧ (G q).Linked := by
    intro q linked
    by_cases here : q = i
    · rw [here, Function.update_self] at linked
      exact absurd unlinked' linked.2
    · rw [Function.update_of_ne here] at linked
      exact ⟨here,linked⟩
  have forth : ∀ q, (G q).Linked → Function.update G i n q = G q := by
    intro q linked
    refine Function.update_of_ne ?_ _ _
    rintro rfl
    exact linked.2 unlinked
  have links : ∀ j, S.links (Function.update G i n) j = S.links G j := by
    intro j
    refine Finset.sum_congr rfl fun q _ => ?_
    by_cases here : q = i
    · rw [here, Function.update_self, count_unlinked fun linked => linked.2 unlinked', count_unlinked fun linked => linked.2 unlinked]
    · rw [Function.update_of_ne here]
  obtain ⟨depth,deeper⟩ := law.rooted
  refine ⟨fun q out => ?_, fun q free => ?_, fun q => ?_, fun d linked => ?_, fun d linked => ?_, ?_, fun d p linked other above => ?_,
    fun p d linked folder some => ?_, depth, fun d p linked other above => ?_⟩
  · have other : q ≠ i := fun same => out (same ▸ member)
    rw [Function.update_of_ne other]
    exact law.outside q out
  · by_cases here : q = i
    · rw [here, Function.update_self]
      exact unlinked'
    · rw [Function.update_of_ne here] at free ⊢
      exact law.bare q free
  · rw [links, law.counted]
    by_cases here : q = i
    · rw [here, Function.update_self, unlinked, unlinked']
    · rw [Function.update_of_ne here]
  · obtain ⟨_,before⟩ := back d linked
    rw [forth d before]
    exact law.self d before
  · obtain ⟨_,before⟩ := back d linked
    rw [forth d before]
    exact law.distinct d before
  · rw [forth S.root law.root.1]
    exact law.root
  · obtain ⟨_,before⟩ := back d linked
    rw [forth d before] at above
    obtain ⟨live,one⟩ := law.down d p before other above
    rw [forth p live]
    exact ⟨live,one⟩
  · obtain ⟨_,before⟩ := back p linked
    rw [forth p before] at some
    by_cases here : d = i
    · have least := law.links_ge before d
      have fewer := child_le (S := S) (G p).slots d
      rw [here] at some least fewer
      omega
    · rw [Function.update_of_ne here] at folder ⊢
      exact law.up p d before folder some
  · obtain ⟨_,before⟩ := back d linked
    rw [forth d before] at above
    exact deeper d p before other above

/-- The way up from a folder ends in the root. -/
theorem reaches {d : ι} (linked : (G d).Linked) :
    Relation.ReflTransGen (fun d p => (G d).Linked ∧ S.Above (G d) p) d S.root := by
  obtain ⟨depth,deeper⟩ := law.rooted
  generalize bound : depth d = n
  induction n using Nat.strong_induction_on generalizing d with
  | _ n ih =>
    by_cases here : d = S.root
    · rw [here]
    · obtain ⟨_,p,above⟩ := law.self d linked
      have less := deeper d p linked here above
      exact .head ⟨linked,above⟩ (ih _ (bound ▸ less) (law.down d p linked here above).1 rfl)

end Law

/-- A search in the tree stays in it. -/
structure Closed (S : Shape ι N) (G : ι → Node ι N) : Prop where
  root : (G S.root).Linked
  distinct : ∀ d, (G d).Linked → Distinct (G d).slots
  entry : ∀ d, (G d).Linked → ∀ (e : Nat) a j, (G d).slots[e]? = some (some (a, j)) → (G j).nlink ≠ 0

theorem Law.closed (law : Law S G) : Closed S G :=
  ⟨law.root.1, law.distinct, fun _ linked _ _ _ here => law.entry linked here⟩

omit [DecidableEq N] in
/-- More links do no harm to a search. -/
theorem Closed.more (closed : Closed S G) (known : (G i).nlink ≠ 0) :
    Closed S (Function.update G i { G i with nlink := (G i).nlink + 1 }) := by
  have slots : ∀ q, (Function.update G i { G i with nlink := (G i).nlink + 1 } q).slots = (G q).slots := by
    intro q
    by_cases here : q = i
    · rw [here, Function.update_self]
    · rw [Function.update_of_ne here]
  have linked : ∀ q, (Function.update G i { G i with nlink := (G i).nlink + 1 } q).Linked ↔ (G q).Linked := by
    intro q
    by_cases here : q = i
    · rw [here, Function.update_self]
      exact and_congr_right fun _ => iff_of_true (Nat.succ_ne_zero _) known
    · rw [Function.update_of_ne here]
  refine ⟨(linked _).mpr closed.root, fun d live => ?_, fun d live e a j here => ?_⟩
  · rw [slots]
    exact closed.distinct d ((linked d).mp live)
  · rw [slots] at here
    have some := closed.entry d ((linked d).mp live) e a j here
    by_cases same : j = i
    · rw [same, Function.update_self]
      exact Nat.succ_ne_zero _
    · rw [Function.update_of_ne same]
      exact some

/-- A slot of a folder of the tree is written, and node `i` changes with it. -/
structure Edit (S : Shape ι N) (G G' : ι → Node ι N) (p i : ι) (e : Nat) (slot : Option (N × ι)) : Prop where
  law : Law S G
  linked : (G p).Linked
  linked' : (G' p).Linked
  apart : p ≠ i
  member : i ∈ S.all
  late : 2 ≤ e
  place : e ≤ (G p).slots.length
  slots : (G' p).slots = write (G p).slots e slot
  distinct : Distinct (G' p).slots
  rest : ∀ q, q ≠ p → q ≠ i → G' q = G q

namespace Edit
variable {slot : Option (N × ι)} (edit : Edit S G G' p i e slot)
include edit

theorem early {f : Nat} (before : f < 2) : (G' p).slots[f]? = (G p).slots[f]? := by
  have late := edit.late
  rw [edit.slots, write_get edit.place, if_neg (by omega)]

theorem above {q : ι} : S.Above (G' p) q ↔ S.Above (G p) q := by
  unfold Shape.Above
  rw [edit.early (by decide)]

theorem count_change (f : Option (N × ι) → Bool) : (G' p).slots.countP f + (if (G p).slots[e]?.any f then 1 else 0) =
    (G p).slots.countP f + if f slot then 1 else 0 := by
  rw [edit.slots]
  exact write_count _ _ _ _

theorem links_change (j : ι) : S.links G' j + ((G p).slots.countP (S.points j) + (G i).count (S.points j)) =
    S.links G j + ((G' p).slots.countP (S.points j) + (G' i).count (S.points j)) := by
  have both := links_two edit.apart (edit.law.linked_mem edit.linked) edit.member edit.rest j
  rw [edit.linked.count_eq, edit.linked'.count_eq] at both
  exact both

theorem outside (q : ι) (out : q ∉ S.all) : (G' q).kind = .free := by
  have first : q ≠ p := fun same => out (same ▸ edit.law.linked_mem edit.linked)
  have second : q ≠ i := fun same => out (same ▸ edit.member)
  rw [edit.rest q first second]
  exact edit.law.outside q out

theorem self_left : (G' p).slots[0]? = some (some (S.dot, p)) ∧ ∃ q, S.Above (G' p) q := by
  obtain ⟨first,q,above⟩ := edit.law.self p edit.linked
  rw [edit.early (by decide)]
  exact ⟨first, q, edit.above.mpr above⟩

/-- The slots of a folder other than `i` for a node other than `i` stay. -/
theorem child_kept (old : ∀ b j, (G p).slots[e]? = some (some (b, j)) → j = i) (new : ∀ b j, slot = some (b, j) → j = i)
    {q x : ι} (other : q ≠ i) (apart : x ≠ i) : (G' q).slots.countP (S.child x) = (G q).slots.countP (S.child x) := by
  by_cases here : q = p
  · subst here
    have change := edit.count_change (S.child x)
    have before : ¬ ((G q).slots[e]?.any (S.child x)) = true := by
      intro hit
      obtain ⟨y,there,holds⟩ := (Option.any_eq_true ..).mp hit
      obtain ⟨b,rfl,_⟩ := slot_of_child holds
      exact apart (old b x there)
    have after : ¬ (S.child x slot) = true := by
      intro holds
      obtain ⟨b,rfl,_⟩ := slot_of_child holds
      exact apart (new b x rfl)
    rw [if_neg before, if_neg after] at change
    exact change
  · rw [edit.rest q here other]

/-- The slots that name a node other than `i` stay, and so do the links to it but for what `i` has. -/
theorem links_other (old : ∀ b j, (G p).slots[e]? = some (some (b, j)) → j = i) (new : ∀ b j, slot = some (b, j) → j = i)
    (other : j ≠ i) : S.links G' j + (G i).count (S.points j) = S.links G j + (G' i).count (S.points j) := by
  have change := edit.links_change j
  have slots := edit.count_change (S.points j)
  have gone : ¬ ((G p).slots[e]?.any (S.points j)) = true := by
    intro hit
    obtain ⟨y,there,holds⟩ := (Option.any_eq_true ..).mp hit
    cases y with
    | none => cases holds
    | some y => exact other ((points_some.mp holds).2 ▸ old y.1 y.2 there)
  have none : ¬ (S.points j slot) = true := by
    intro holds
    cases slot with
    | none => cases holds
    | some y => exact other ((points_some.mp holds).2 ▸ new y.1 y.2 rfl)
  rw [if_neg gone, if_neg none] at slots
  omega

/-- What has to be known of `i` when the folder `i` is new, or is gone, or was none. -/
theorem preserves (old : ∀ b j, (G p).slots[e]? = some (some (b, j)) → j = i) (new : ∀ b j, slot = some (b, j) → j = i)
    (away : i ≠ S.root) (counted : ∀ j, S.links G' j = (G' j).nlink) (bare : (G' i).kind = .free → (G' i).nlink = 0)
    (childless : (G i).Linked → ∀ d, (G i).slots.countP (S.child d) = 0)
    (fresh : (G' i).Linked → (G' i).slots[0]? = some (some (S.dot, i)) ∧ S.Above (G' i) p ∧ Distinct (G' i).slots ∧
      (G' p).slots.countP (S.child i) = 1 ∧ ∀ d, (G' i).slots.countP (S.child d) = 0)
    (single : ∀ q, (G' q).Linked → q ≠ i → (G' i).kind = .folder → (G' q).slots.countP (S.child i) ≠ 0 →
      q = p ∧ S.Above (G' i) p) : Law S G' := by
  have law := edit.law
  have back : ∀ q, q ≠ i → (G' q).Linked → (G q).Linked := by
    intro q other linked
    by_cases here : q = p
    · exact here ▸ edit.linked
    · rw [edit.rest q here other] at linked
      exact linked
  have forth : ∀ q, q ≠ i → (G q).Linked → (G' q).Linked := by
    intro q other linked
    by_cases here : q = p
    · exact here ▸ edit.linked'
    · rw [edit.rest q here other]
      exact linked
  have above : ∀ d q, d ≠ i → (S.Above (G' d) q ↔ S.Above (G d) q) := by
    intro d q other
    by_cases here : d = p
    · rw [here]
      exact edit.above
    · rw [edit.rest d here other]
  have old_above : ∀ d q, d ≠ i → d ≠ S.root → (G d).Linked → S.Above (G d) q → q ≠ i := by
    rintro d q _ other linked up rfl
    obtain ⟨live,one⟩ := law.down d q linked other up
    rw [childless live d] at one
    cases one
  obtain ⟨depth,deeper⟩ := law.rooted
  refine ⟨edit.outside, fun q free => ?_, counted, fun d linked => ?_, fun d linked => ?_, ?_,
    fun d q linked other up => ?_, fun q d linked folder some => ?_,
    Function.update depth i (depth p + 1), fun d q linked other up => ?_⟩
  · by_cases here : q = i
    · exact here ▸ bare (here ▸ free)
    · by_cases there : q = p
      · rw [there, edit.linked'.1] at free
        cases free
      · rw [edit.rest q there here] at free ⊢
        exact law.bare q free
  · by_cases here : d = i
    · rw [here] at linked ⊢
      exact ⟨(fresh linked).1, p, (fresh linked).2.1⟩
    · by_cases there : d = p
      · rw [there]
        exact edit.self_left
      · rw [edit.rest d there here]
        exact law.self d (back d here linked)
  · by_cases here : d = i
    · rw [here] at linked ⊢
      exact (fresh linked).2.2.1
    · by_cases there : d = p
      · rw [there]
        exact edit.distinct
      · rw [edit.rest d there here]
        exact law.distinct d (back d here linked)
  · exact ⟨forth _ away.symm law.root.1, (above _ _ away.symm).mpr law.root.2⟩
  · by_cases here : d = i
    · rw [here] at linked up ⊢
      rw [above_unique up (fresh linked).2.1]
      exact ⟨edit.linked', (fresh linked).2.2.2.1⟩
    · obtain ⟨live,one⟩ := law.down d q (back d here linked) other ((above d q here).mp up)
      have apart := old_above d q here other (back d here linked) ((above d q here).mp up)
      rw [edit.child_kept old new apart here]
      exact ⟨forth q apart live, one⟩
  · have apart : q ≠ i := by
      rintro rfl
      exact some ((fresh linked).2.2.2.2 d)
    by_cases here : d = i
    · rw [here] at folder some ⊢
      obtain ⟨rfl,up⟩ := single q linked apart folder some
      exact ⟨away, edit.apart.symm, up⟩
    · rw [edit.child_kept old new apart here] at some
      have folder : (G d).kind = .folder := by
        by_cases there : d = p
        · rw [there]
          exact edit.linked.1
        · rw [edit.rest d there here] at folder
          exact folder
      obtain ⟨first,second,up⟩ := law.up q d (back q apart linked) folder some
      exact ⟨first, second, (above d q here).mpr up⟩
  · by_cases here : d = i
    · rw [here] at linked up
      rw [here, above_unique up (fresh linked).2.1, Function.update_self, Function.update_of_ne edit.apart]
      exact Nat.lt_succ_self _
    · have before := (above d q here).mp up
      rw [Function.update_of_ne here, Function.update_of_ne (old_above d q here other (back d here linked) before)]
      exact deeper d q (back d here linked) other before

/-- A file gets a link, or loses one. -/
theorem file (kind : (G i).kind = .file) (kind' : (G' i).kind = .file) (keep : (G' p).nlink = (G p).nlink)
    (old : ∀ b j, (G p).slots[e]? = some (some (b, j)) → j = i) (new : ∀ b j, slot = some (b, j) → j = i)
    (balance : (G' i).nlink + (if (G p).slots[e]?.any (S.points i) then 1 else 0) =
      (G i).nlink + if S.points i slot then 1 else 0) : Law S G' := by
  have law := edit.law
  have loose : ¬ (G i).Linked := fun linked => by cases kind.symm.trans linked.1
  have loose' : ¬ (G' i).Linked := fun linked => by cases kind'.symm.trans linked.1
  refine edit.preserves old new (fun same => loose (same ▸ law.root.1)) (fun j => ?_) (fun free => ?_)
    (fun linked => absurd linked loose) (fun linked => absurd linked loose') fun _ _ _ folder => ?_
  · have before := law.counted j
    by_cases here : j = i
    · subst here
      have change := edit.links_change j
      have slots := edit.count_change (S.points j)
      rw [count_unlinked loose, count_unlinked loose'] at change
      omega
    · have change := edit.links_other old new here
      rw [count_unlinked loose, count_unlinked loose'] at change
      have nlink : (G' j).nlink = (G j).nlink := by
        by_cases there : j = p
        · rw [there, keep]
        · rw [edit.rest j there here]
      omega
  · cases kind'.symm.trans free
  · cases kind'.symm.trans folder

/-- A folder is made. -/
theorem make (free : (G i).kind = .free) (old : ∀ x, (G p).slots[e]? ≠ some (some x)) (new : slot = some (a, i))
    (other : a ≠ S.dot) (other' : a ≠ S.dotdot) (keep : (G' p).nlink = (G p).nlink + 1)
    (made : G' i = ⟨.folder, 1, [some (S.dot, i), some (S.dotdot, p)]⟩) : Law S G' := by
  subst new
  have law := edit.law
  have none : (G i).nlink = 0 := law.bare i free
  have loose : ¬ (G i).Linked := fun linked => linked.2 none
  have linked' : (G' i).Linked := by
    rw [made]
    exact ⟨rfl, Nat.one_ne_zero⟩
  have olds : ∀ b j, (G p).slots[e]? = some (some (b, j)) → j = i := fun b j here => absurd here (old _)
  have news : ∀ b j, some (a, i) = some (b, j) → j = i := by
    intro b j same
    cases same
    rfl
  have unnamed : ∀ q, (G q).Linked → (G q).slots.countP (S.points i) = 0 := by
    intro q linked
    have least := law.links_ge linked i
    omega
  have childless : ∀ d, (G' i).slots.countP (S.child d) = 0 := by
    intro d
    rw [made, List.countP_eq_zero]
    intro slot member holds
    obtain ⟨b,rfl,one,two⟩ := slot_of_child holds
    simp at member
    rcases member with ⟨rfl,_⟩ | ⟨rfl,_⟩
    · exact one rfl
    · exact two rfl
  have child : (G' p).slots.countP (S.child i) = 1 := by
    have change := edit.count_change (S.child i)
    have before := child_le (S := S) (G p).slots i
    rw [unnamed p edit.linked] at before
    rw [if_neg (vacant_any old rfl), if_pos (child_some.mpr ⟨other,other',rfl⟩)] at change
    omega
  refine edit.preserves olds news ?_ (fun j => ?_) (fun wrong => ?_) (fun linked => absurd linked loose)
    (fun _ => ⟨?_, ?_, ?_, child, childless⟩) fun q linked apart _ some => ?_
  · rintro rfl
    exact loose law.root.1
  · have before := law.counted j
    by_cases here : j = i
    · subst here
      have change := edit.links_change j
      have slots := edit.count_change (S.points j)
      have own : (G' j).count (S.points j) = 0 := by
        rw [linked'.count_eq, points_split, childless, made]
        have apart := edit.apart
        simp [Shape.upward, S.apart.symm, apart]
      rw [if_neg (vacant_any old rfl), if_pos (points_some.mpr ⟨other,rfl⟩)] at slots
      rw [count_unlinked loose, own] at change
      rw [made]
      dsimp only
      omega
    · have change := edit.links_other olds news here
      have own : (G' i).count (S.points j) = if j = p then 1 else 0 := by
        rw [linked'.count_eq, points_split, childless, made]
        by_cases there : j = p
        · simp [Shape.upward, S.apart.symm, there]
        · simp [Shape.upward, S.apart.symm, there, Ne.symm there]
      rw [count_unlinked loose, own] at change
      by_cases there : j = p
      · rw [if_pos there] at change
        rw [there] at change before ⊢
        omega
      · rw [if_neg there] at change
        rw [edit.rest j there here]
        omega
  · rw [made] at wrong
    cases wrong
  · rw [made]
    rfl
  · rw [made]
    rfl
  · rw [made]
    exact distinct_pair S.apart.symm
  · by_cases here : q = p
    · refine ⟨here, ?_⟩
      rw [made]
      rfl
    · rw [edit.rest q here apart] at linked some
      have least := child_le (S := S) (G q).slots i
      rw [unnamed q linked] at least
      omega

/-- An empty folder is removed. -/
theorem remove (folder : (G i).kind = .folder) (here : (G p).slots[e]? = some (some (a, i))) (other : a ≠ S.dot)
    (other' : a ≠ S.dotdot) (empty : ∀ (f : Nat) x, 2 ≤ f → (G i).slots[f]? ≠ some (some x)) (gone : slot = none)
    (keep : (G' p).nlink + 1 = (G p).nlink) (kind' : (G' i).kind = .folder) (less : (G' i).nlink + 1 = (G i).nlink) :
    Law S G' := by
  subst gone
  have law := edit.law
  obtain ⟨one,_,childless⟩ := law.empty_links edit.linked folder here other other' empty
  have named := countP_pos_of (f := S.child i) here (child_some.mpr ⟨other,other',rfl⟩)
  obtain ⟨away,apart,above⟩ := law.up p i edit.linked folder (Nat.ne_of_gt named)
  have inside : (G i).Linked := ⟨folder, law.entry edit.linked here⟩
  have loose' : ¬ (G' i).Linked := fun linked => linked.2 (by omega)
  have olds : ∀ b j, (G p).slots[e]? = some (some (b, j)) → j = i := by
    intro b j there
    cases here.symm.trans there
    rfl
  have news : ∀ (b : N) j, Option.none = some (b, j) → j = i := fun _ _ wrong => nomatch wrong
  have counted : ∀ j, S.links G' j = (G' j).nlink := by
    intro j
    have before := law.counted j
    have own : (G i).count (S.points j) = if j = p then 1 else 0 := by
      rw [inside.count_eq, points_split, childless, law.upward_count inside above, Nat.zero_add]
    by_cases here' : j = i
    · subst here'
      have change := edit.links_change j
      have slots := edit.count_change (S.points j)
      rw [here, Option.any_some, if_pos (points_some.mpr ⟨other,rfl⟩), if_neg nofun] at slots
      rw [count_unlinked loose', own, if_neg edit.apart.symm] at change
      omega
    · have change := edit.links_other olds news here'
      rw [count_unlinked loose', own] at change
      by_cases there : j = p
      · rw [if_pos there] at change
        rw [there] at change before ⊢
        omega
      · rw [if_neg there] at change
        rw [edit.rest j there here']
        omega
  refine edit.preserves olds news away counted (fun free => ?_) (fun _ => childless) (fun linked => absurd linked loose')
    fun q linked differs _ some => ?_
  · cases kind'.symm.trans free
  · have member : q ∈ S.all := by
      by_contra out
      have free := edit.outside q out
      rw [linked.1] at free
      cases free
    have least := links_ge linked member i
    have fewer := child_le (S := S) (G' q).slots i
    have total := counted i
    omega

end Edit

/-- A folder gets a new file. -/
theorem Law.create (law : Law S G) (linked : (G p).Linked) (inside : i ∈ S.all) (free : (G i).kind = .free)
    (place : e ≤ (G p).slots.length) (vacant : ∀ x, (G p).slots[e]? ≠ some (some x))
    (missing : ∀ (f : Nat) j, (G p).slots[f]? ≠ some (some (a, j)))
    (folder : G' p = { G p with slots := write (G p).slots e (some (a, i)) }) (file : G' i = ⟨.file, 1, []⟩)
    (rest : ∀ q, q ≠ p → q ≠ i → G' q = G q) : Law S G' := by
  have apart : p ≠ i := by
    rintro rfl
    cases linked.1.symm.trans free
  have law' := law.swap (n := ⟨.file, 0, []⟩) (law.bare i free) rfl inside
  have at_p : Function.update G i ⟨.file, 0, []⟩ p = G p := Function.update_of_ne apart _ _
  have edit : Edit S (Function.update G i ⟨.file, 0, []⟩) G' p i e (some (a, i)) := by
    refine ⟨law', ?_, ?_, apart, inside, law.vacant_late linked vacant, ?_, ?_, ?_, fun q other other' => ?_⟩
    · rw [at_p]
      exact linked
    · rw [folder]
      exact linked
    · rw [at_p]
      exact place
    · rw [at_p, folder]
    · rw [folder]
      exact distinct_fill (law.distinct p linked) place missing
    · rw [rest q other other', Function.update_of_ne other']
  refine edit.file ?_ (by rw [file]) (by rw [at_p, folder]) (fun b j here => ?_) (fun b j same => ?_) ?_
  · rw [Function.update_self]
  · rw [at_p] at here
    exact absurd here (vacant _)
  · cases same
    rfl
  · rw [at_p, file, Function.update_self, if_neg, if_pos (points_some.mpr ⟨(law.missing_name linked missing).1, rfl⟩)]
    exact vacant_any vacant rfl

/-- A folder gets a new folder. -/
theorem Law.mkdir (law : Law S G) (linked : (G p).Linked) (inside : i ∈ S.all) (free : (G i).kind = .free)
    (place : e ≤ (G p).slots.length) (vacant : ∀ x, (G p).slots[e]? ≠ some (some x))
    (missing : ∀ (f : Nat) j, (G p).slots[f]? ≠ some (some (a, j)))
    (folder : G' p = ⟨.folder, (G p).nlink + 1, write (G p).slots e (some (a, i))⟩)
    (made : G' i = ⟨.folder, 1, [some (S.dot, i), some (S.dotdot, p)]⟩)
    (rest : ∀ q, q ≠ p → q ≠ i → G' q = G q) : Law S G' := by
  have apart : p ≠ i := by
    rintro rfl
    cases linked.1.symm.trans free
  obtain ⟨other,other'⟩ := law.missing_name linked missing
  have edit : Edit S G G' p i e (some (a, i)) := by
    refine ⟨law, linked, ?_, apart, inside, law.vacant_late linked vacant, place, ?_, ?_, rest⟩
    · rw [folder]
      exact ⟨rfl, Nat.succ_ne_zero _⟩
    · rw [folder]
    · rw [folder]
      exact distinct_fill (law.distinct p linked) place missing
  exact edit.make free vacant rfl other other' (by rw [folder]) made

/-- A folder gets another link to a file. -/
theorem Law.link (law : Law S G) (linked : (G p).Linked) (inside : i ∈ S.all) (file : (G i).kind = .file)
    (place : e ≤ (G p).slots.length) (vacant : ∀ x, (G p).slots[e]? ≠ some (some x))
    (missing : ∀ (f : Nat) j, (G p).slots[f]? ≠ some (some (a, j)))
    (folder : G' p = { G p with slots := write (G p).slots e (some (a, i)) })
    (more : G' i = { G i with nlink := (G i).nlink + 1 })
    (rest : ∀ q, q ≠ p → q ≠ i → G' q = G q) : Law S G' := by
  have apart : p ≠ i := by
    rintro rfl
    cases linked.1.symm.trans file
  have edit : Edit S G G' p i e (some (a, i)) := by
    refine ⟨law, linked, ?_, apart, inside, law.vacant_late linked vacant, place, ?_, ?_, rest⟩
    · rw [folder]
      exact linked
    · rw [folder]
    · rw [folder]
      exact distinct_fill (law.distinct p linked) place missing
  refine edit.file file (by rw [more]; exact file) (by rw [folder]) (fun b j here => absurd here (vacant _)) (fun b j same => ?_) ?_
  · cases same
    rfl
  · rw [more, if_neg, if_pos (points_some.mpr ⟨(law.missing_name linked missing).1, rfl⟩)]
    exact vacant_any vacant rfl

/-- A folder loses a link to a file. -/
theorem Law.unlink (law : Law S G) (linked : (G p).Linked) (file : (G i).kind = .file)
    (here : (G p).slots[e]? = some (some (a, i))) (other : a ≠ S.dot) (other' : a ≠ S.dotdot)
    (folder : G' p = { G p with slots := write (G p).slots e none })
    (less : G' i = { G i with nlink := (G i).nlink - 1 })
    (rest : ∀ q, q ≠ p → q ≠ i → G' q = G q) : Law S G' := by
  have apart : p ≠ i := by
    rintro rfl
    cases linked.1.symm.trans file
  have place : e ≤ (G p).slots.length := Nat.le_of_lt (List.getElem?_eq_some_iff.mp here).1
  have some := law.entry linked here
  have edit : Edit S G G' p i e none := by
    refine ⟨law, linked, ?_, apart, law.mem (law.kind_of_linked some), law.late linked here other other', place, ?_, ?_, rest⟩
    · rw [folder]
      exact linked
    · rw [folder]
    · rw [folder]
      exact distinct_erase (law.distinct p linked) place
  refine edit.file file (by rw [less]; exact file) (by rw [folder]) (fun b j there => ?_) (fun b j wrong => nomatch wrong) ?_
  · cases here.symm.trans there
    rfl
  · rw [less, here, Option.any_some, if_pos (points_some.mpr ⟨other,rfl⟩), if_neg nofun]
    dsimp only
    omega

/-- A folder loses an empty folder. -/
theorem Law.rmdir (law : Law S G) (linked : (G p).Linked) (kind : (G i).kind = .folder)
    (here : (G p).slots[e]? = some (some (a, i))) (other : a ≠ S.dot) (other' : a ≠ S.dotdot)
    (empty : ∀ (f : Nat) x, 2 ≤ f → (G i).slots[f]? ≠ some (some x))
    (folder : G' p = ⟨.folder, (G p).nlink - 1, write (G p).slots e none⟩)
    (less : G' i = { G i with nlink := (G i).nlink - 1 })
    (rest : ∀ q, q ≠ p → q ≠ i → G' q = G q) : Law S G' := by
  obtain ⟨one,two,_⟩ := law.empty_links linked kind here other other' empty
  have named := countP_pos_of (f := S.child i) here (child_some.mpr ⟨other,other',rfl⟩)
  obtain ⟨_,apart,_⟩ := law.up p i linked kind (Nat.ne_of_gt named)
  have place : e ≤ (G p).slots.length := Nat.le_of_lt (List.getElem?_eq_some_iff.mp here).1
  have edit : Edit S G G' p i e none := by
    refine ⟨law, linked, ?_, apart.symm, law.mem (by rw [kind]; decide), law.late linked here other other', place, ?_, ?_, rest⟩
    · rw [folder]
      exact ⟨rfl, Nat.ne_of_gt (Nat.sub_pos_of_lt two)⟩
    · rw [folder]
    · rw [folder]
      exact distinct_erase (law.distinct p linked) place
  refine edit.remove kind here other other' empty rfl ?_ (by rw [less]; exact kind) ?_
  · rw [folder]
    dsimp only
    omega
  · rw [less]
    dsimp only
    omega

end Trees
end LinkCounts
