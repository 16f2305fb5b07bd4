import Mathlib.Data.List.Nodup
import Mathlib.Logic.Function.Basic

/- Singly linked lists threaded through a link map, as a pointer program stores
   them: a head that may be null and one optional successor for each node. -/
namespace LinkedList
variable {α : Type}

/-- The nodes that following `link` from `head` visits before it reaches null. -/
def Chain (link : α → Option α) : Option α → List α → Prop
  | head, [] => head = none
  | head, p :: rest => head = some p ∧ Chain link (link p) rest

def OnChain (link : α → Option α) (head : Option α) (p : α) : Prop :=
  ∃ nodes, Chain link head nodes ∧ p ∈ nodes

theorem chain_unique {link : α → Option α} {head : Option α} {xs ys : List α}
    (left : Chain link head xs) (right : Chain link head ys) : xs = ys := by
  induction xs generalizing head ys with
  | nil =>
    cases ys with
    | nil => rfl
    | cons y ys =>
      have empty : head = none := left
      have full := right.1
      simp [empty] at full
  | cons x xs ih =>
    cases ys with
    | nil =>
      have empty : head = none := right
      have full := left.1
      simp [empty] at full
    | cons y ys =>
      have same : x = y := by
        have := left.1.symm.trans right.1
        simpa using this
      subst same
      rw [ih left.2 right.2]

theorem chain_suffix {link : α → Option α} {head : Option α} {front back : List α}
    (chain : Chain link head (front ++ back)) : ∃ start, Chain link start back := by
  induction front generalizing head with
  | nil => exact ⟨head, chain⟩
  | cons p front ih => exact ih chain.2

/-- A finite walk repeats no node: a repeated node would repeat its whole rest. -/
theorem chain_nodup {link : α → Option α} {head : Option α} {nodes : List α}
    (chain : Chain link head nodes) : nodes.Nodup := by
  induction nodes generalizing head with
  | nil => exact List.nodup_nil
  | cons p rest ih =>
    refine List.nodup_cons.mpr ⟨?_, ih chain.2⟩
    intro again
    obtain ⟨front, back, split⟩ := List.append_of_mem again
    have tail := chain.2
    rw [split] at tail
    obtain ⟨start, again⟩ := chain_suffix tail
    have same : back = rest := chain_unique again.2 chain.2
    have sizes := congrArg List.length split
    rw [← same, List.length_append, List.length_cons] at sizes
    omega

theorem chain_congr {link link' : α → Option α} {head : Option α} {nodes : List α}
    (chain : Chain link head nodes) (agree : ∀ p ∈ nodes, link' p = link p) :
    Chain link' head nodes := by
  induction nodes generalizing head with
  | nil => exact chain
  | cons p rest ih =>
    refine ⟨chain.1, ?_⟩
    rw [agree p (by simp)]
    exact ih chain.2 (fun q mem => agree q (List.mem_cons_of_mem p mem))

theorem on_chain_iff {link : α → Option α} {head : Option α} {nodes : List α}
    (chain : Chain link head nodes) (p : α) : OnChain link head p ↔ p ∈ nodes := by
  constructor
  · rintro ⟨other, walk, mem⟩
    rwa [chain_unique chain walk]
  · intro mem
    exact ⟨nodes, chain, mem⟩

/-- Only the last node of a list has a null link. -/
theorem chain_link {link : α → Option α} {head : Option α} {nodes : List α} (chain : Chain link head nodes)
    {q : α} (mem : q ∈ nodes) : (∃ r ∈ nodes, link q = some r) ∨ (link q = none ∧ ∃ front, nodes = front ++ [q]) := by
  induction nodes generalizing head with
  | nil => simp at mem
  | cons p rest ih =>
    rcases List.mem_cons.mp mem with same | later
    · subst same
      cases rest with
      | nil => exact Or.inr ⟨chain.2, [], rfl⟩
      | cons r rest => exact Or.inl ⟨r, by simp, chain.2.1⟩
    · rcases ih chain.2 later with ⟨r,there,next⟩ | ⟨null,front,split⟩
      · exact Or.inl ⟨r, List.mem_cons_of_mem p there, next⟩
      · exact Or.inr ⟨null, p :: front, by rw [split]; rfl⟩

theorem chain_last_unique {link : α → Option α} {head : Option α} {nodes : List α} (chain : Chain link head nodes)
    {p q : α} (memP : p ∈ nodes) (memQ : q ∈ nodes) (lastP : link p = none) (lastQ : link q = none) : p = q := by
  obtain ⟨r,_,next⟩ | ⟨_,before,one⟩ := chain_link chain memP
  · simp [lastP] at next
  obtain ⟨r,_,next⟩ | ⟨_,front,two⟩ := chain_link chain memQ
  · simp [lastQ] at next
  have same := one.symm.trans two
  rw [List.append_singleton_inj] at same
  exact same.2

/-- Links that stay inside a set never reach null. -/
theorem not_chain_of_closed {link : α → Option α} {S : α → Prop} (closed : ∀ p, S p → ∃ q, link p = some q ∧ S q)
    (nodes : List α) {p : α} (start : S p) : ¬ Chain link (some p) nodes := by
  induction nodes generalizing p with
  | nil =>
    intro chain
    have null : some p = none := chain
    simp at null
  | cons q rest ih =>
    rintro ⟨same,chain⟩
    have same : p = q := by simpa using same
    subst same
    obtain ⟨r,next,inside⟩ := closed p start
    rw [next] at chain
    exact ih inside chain

/-- The nodes visited on the way from `head` to a node, or to null, which is not one of them. -/
def Segment (link : α → Option α) : Option α → List α → Option α → Prop
  | head, [], stop => head = stop
  | head, p :: rest, stop => head = some p ∧ Segment link (link p) rest stop

theorem segment_null {link : α → Option α} {head : Option α} {nodes : List α} :
    Segment link head nodes none ↔ Chain link head nodes := by
  induction nodes generalizing head with
  | nil => exact Iff.rfl
  | cons p rest ih => exact and_congr_right fun _ => ih

theorem segment_append {link : α → Option α} {head middle stop : Option α} {front back : List α}
    (first : Segment link head front middle) (second : Segment link middle back stop) :
    Segment link head (front ++ back) stop := by
  induction front generalizing head with
  | nil =>
    have same : head = middle := first
    rw [same]
    exact second
  | cons p front ih => exact ⟨first.1, ih first.2⟩

theorem segment_split {link : α → Option α} {head stop : Option α} {front back : List α}
    (walk : Segment link head (front ++ back) stop) :
    ∃ middle, Segment link head front middle ∧ Segment link middle back stop := by
  induction front generalizing head with
  | nil => exact ⟨head, rfl, walk⟩
  | cons p front ih =>
    obtain ⟨middle,first,second⟩ := ih walk.2
    exact ⟨middle, ⟨walk.1,first⟩, second⟩

theorem segment_congr {link link' : α → Option α} {head stop : Option α} {nodes : List α}
    (walk : Segment link head nodes stop) (agree : ∀ p ∈ nodes, link' p = link p) :
    Segment link' head nodes stop := by
  induction nodes generalizing head with
  | nil => exact walk
  | cons p rest ih =>
    refine ⟨walk.1, ?_⟩
    rw [agree p (by simp)]
    exact ih walk.2 (fun q mem => agree q (List.mem_cons_of_mem p mem))

section Update
variable [DecidableEq α]

theorem segment_update_off {link : α → Option α} {head stop next : Option α} {nodes : List α} {p : α}
    (walk : Segment link head nodes stop) (off : p ∉ nodes) :
    Segment (Function.update link p next) head nodes stop := by
  refine segment_congr walk ?_
  intro q mem
  have other : q ≠ p := fun same => off (same ▸ mem)
  simp [other]

/-- Setting the link of the node where a segment stops extends it past that node. -/
theorem segment_extend {link : α → Option α} {head next : Option α} {nodes : List α} {p : α}
    (walk : Segment link head nodes (some p)) (off : p ∉ nodes) :
    Segment (Function.update link p next) head (nodes ++ [p]) next := by
  refine segment_append (segment_update_off walk off) ⟨rfl, ?_⟩
  rw [Function.update_self]
  rfl

theorem chain_update_off {link : α → Option α} {head next : Option α} {nodes : List α} {p : α}
    (chain : Chain link head nodes) (off : p ∉ nodes) :
    Chain (Function.update link p next) head nodes := by
  refine chain_congr chain ?_
  intro q mem
  have other : q ≠ p := fun same => off (same ▸ mem)
  simp [other]

theorem chain_push {link : α → Option α} {head : Option α} {nodes : List α} {p : α}
    (chain : Chain link head nodes) (off : p ∉ nodes) :
    Chain (Function.update link p head) (some p) (p :: nodes) := by
  refine ⟨rfl, ?_⟩
  rw [Function.update_self]
  exact chain_update_off chain off

theorem chain_pop {link : α → Option α} {p : α} {nodes : List α}
    (chain : Chain link (some p) nodes) :
    ∃ rest, nodes = p :: rest ∧ p ∉ rest ∧
      Chain (Function.update link p none) (link p) rest := by
  cases nodes with
  | nil =>
    have empty : some p = none := chain
    simp at empty
  | cons q rest =>
    have same : p = q := by
      have := chain.1
      simpa using this
    subst same
    have off := (List.nodup_cons.mp (chain_nodup chain)).1
    exact ⟨rest, rfl, off, chain_update_off chain.2 off⟩

/-- A new last node. -/
theorem chain_append {link : α → Option α} {head : Option α} {front : List α} {last p : α}
    (chain : Chain link head (front ++ [last])) (off : p ∉ front ++ [last]) :
    Chain (Function.update (Function.update link p none) last (some p)) head (front ++ [last] ++ [p]) := by
  have walk : Segment link head front (some last) := by
    obtain ⟨middle,first,second⟩ := segment_split (segment_null.mpr chain)
    rw [second.1] at first
    exact first
  have alone : last ∉ front := fun mem =>
    List.disjoint_of_nodup_append (chain_nodup chain) mem (List.mem_singleton_self last)
  have other : p ≠ last := fun same => off (by simp [same])
  have before := @segment_update_off _ _ _ _ _ none _ _ walk fun mem => off (List.mem_append_left _ mem)
  refine segment_null.mp (segment_append (segment_extend before alone) ⟨rfl, ?_⟩)
  rw [Function.update_of_ne other, Function.update_self]
  rfl

end Update
end LinkedList
