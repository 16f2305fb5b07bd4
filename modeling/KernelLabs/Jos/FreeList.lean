import KernelLabs.Jos.PageRuns
import KernelLabs.Lib.Transition

/-!
`page_alloc` and `page_free` as a system of their own, from the list `page_init` leaves.
`page_free` takes a link that is not null for the sign of a page that is free already, and
the last page of the list has a null link.
-/
namespace JosPmap
open LinkedList Transition

/-- The pages handed out by `page_alloc` and not freed since are kept beside the kernel. -/
structure Owners where
  kernel : Kernel
  handed : List Nat

inductive AllocCall where
  | pageAlloc (allocZero : Bool)
  | pageFree (pp : Nat)
  deriving DecidableEq, Repr

/-- A panic ends the run. A `struct PageInfo *` points into `pages`. -/
def allocNext (o : Owners) : AllocCall → Option Owners
  | .pageAlloc allocZero =>
    match pageAlloc o.kernel allocZero with
    | .ok (some pp, s) => some ⟨s, pp :: o.handed⟩
    | .ok (none, s) => some ⟨s, o.handed⟩
    | .error _ => none
  | .pageFree pp =>
    if pp < o.kernel.npages then
      match pageFree o.kernel pp with
      | .ok s => some ⟨s, o.handed.erase pp⟩
      | .error _ => none
    else none

def allocator : System Owners AllocCall where
  start o := o.handed = [] ∧ ∃ b mem tlb, o.kernel = pageInit b mem tlb
  next := allocNext

/-- The page is the last one of the free list. -/
def LastFree (s : Kernel) (pp : Nat) : Prop := OnFreeList s pp ∧ s.link pp = none

/-- Every call but a second `page_free` of the last page of the list. -/
def NotLast (o : Owners) : AllocCall → Prop
  | .pageAlloc _ => True
  | .pageFree pp => ¬ LastFree o.kernel pp

structure Listed (o : Owners) : Prop where
  free_chain : ∃ nodes, Chain o.kernel.link o.kernel.pageFreeList nodes
  in_memory : ∀ p, OnFreeList o.kernel p → p < o.kernel.npages ∧ o.kernel.ref p = 0
  taken_unlinked : ∀ p, ¬ OnFreeList o.kernel p → o.kernel.link p = none
  handed_taken : ∀ p ∈ o.handed, ¬ OnFreeList o.kernel p
  handed_once : o.handed.Nodup

section Calls
variable {o : Owners}

theorem on_free_list_pushed {s : Kernel} {nodes : List Nat} {p : Nat} (chain : Chain s.link s.pageFreeList nodes)
    (off : p ∉ nodes) (q : Nat) :
    OnFreeList { s.setLink p s.pageFreeList with pageFreeList := some p } q ↔ q = p ∨ q ∈ nodes := by
  have pushed : Chain (Kernel.link { s.setLink p s.pageFreeList with pageFreeList := some p }) (some p) (p :: nodes) := by
    change Chain (s.setLink p s.pageFreeList).link _ _
    rw [link_setLink]
    exact chain_push chain off
  exact (on_chain_iff pushed q).trans List.mem_cons

theorem pageFree_taken {s : Kernel} {p : Nat} (idle : s.ref p = 0) (unlinked : s.link p = none) :
    pageFree s p = .ok { s.setLink p s.pageFreeList with pageFreeList := some p } := by
  simp [pageFree, idle, unlinked]

/-- A page on the list that is not the last one is refused, before anything is written. -/
theorem pageFree_linked {s : Kernel} {p : Nat} (linked : s.link p ≠ none) : ∃ panic, pageFree s p = .error panic := by
  unfold pageFree
  rw [if_pos linked]
  split
  · exact ⟨.pageReferenceCountNotZero,rfl⟩
  · exact ⟨.pageLinkNotNull,rfl⟩

/-- Nothing else than an unused, unlinked page is accepted. -/
theorem pageFree_ok {s t : Kernel} {p : Nat} (run : pageFree s p = .ok t) :
    s.ref p = 0 ∧ s.link p = none ∧ t = { s.setLink p s.pageFreeList with pageFreeList := some p } := by
  unfold pageFree at run
  split at run
  · cases run
  · rename_i idle
    split at run
    · cases run
    · rename_i unlinked
      cases run
      exact ⟨not_not.mp idle, not_not.mp unlinked, rfl⟩

theorem listed_pageAlloc (inv : Listed o) {allocZero : Bool} {u : Owners}
    (run : allocNext o (.pageAlloc allocZero) = some u) : Listed u := by
  obtain ⟨nodes,chain⟩ := inv.free_chain
  simp only [allocNext] at run
  cases head : o.kernel.pageFreeList with
  | none =>
    have none : pageAlloc o.kernel allocZero = .ok (none, o.kernel) := by simp [pageAlloc, head]
    rw [none] at run
    cases run
    exact inv
  | some p =>
    have free := head_on_chain chain head
    obtain ⟨contents,_,alloc⟩ := pageAlloc_takes head (inv.in_memory p free).1 allocZero
    rw [alloc] at run
    cases run
    have list : ∀ q, OnFreeList (allocated o.kernel p contents) q ↔ OnFreeList o.kernel q ∧ q ≠ p :=
      on_taken_list chain head
    have ref : (allocated o.kernel p contents).ref = o.kernel.ref := ref_setLink _ p none
    have link : (allocated o.kernel p contents).link = Function.update o.kernel.link p none := link_setLink _ p none
    obtain ⟨rest,_,_,shorter⟩ := take_head_chain chain head
    refine ⟨⟨rest,shorter⟩, fun q on => ?_, fun q off => ?_, fun q mem => ?_, ?_⟩
    · rw [ref]
      exact inv.in_memory q ((list q).mp on).1
    · change (allocated o.kernel p contents).link q = _
      rw [link]
      by_cases same : q = p
      · rw [same, Function.update_self]
      · rw [Function.update_of_ne same]
        exact inv.taken_unlinked q fun on => off ((list q).mpr ⟨on,same⟩)
    · rw [list]
      rintro ⟨on,other⟩
      rcases List.mem_cons.mp mem with same | earlier
      · exact other same
      · exact inv.handed_taken q earlier on
    · exact List.nodup_cons.mpr ⟨fun mem => inv.handed_taken p mem free, inv.handed_once⟩

theorem listed_pageFree (inv : Listed o) {pp : Nat} (last : ¬ LastFree o.kernel pp) {u : Owners}
    (run : allocNext o (.pageFree pp) = some u) : Listed u := by
  obtain ⟨nodes,chain⟩ := inv.free_chain
  simp only [allocNext] at run
  split at run
  swap
  · cases run
  rename_i small
  cases freed : pageFree o.kernel pp with
  | error panic =>
    rw [freed] at run
    cases run
  | ok s =>
    rw [freed] at run
    cases run
    obtain ⟨idle,unlinked,rfl⟩ := pageFree_ok freed
    have off : pp ∉ nodes := fun mem => last ⟨(on_chain_iff chain pp).mpr mem, unlinked⟩
    have list := on_free_list_pushed chain off
    have mem_iff := on_chain_iff chain
    have link : Kernel.link { o.kernel.setLink pp o.kernel.pageFreeList with pageFreeList := some pp } =
        Function.update o.kernel.link pp o.kernel.pageFreeList := link_setLink _ pp _
    have ref : Kernel.ref { o.kernel.setLink pp o.kernel.pageFreeList with pageFreeList := some pp } =
        o.kernel.ref := ref_setLink _ pp _
    refine ⟨⟨pp :: nodes, by rw [link]; exact chain_push chain off⟩, fun q on => ?_, fun q out => ?_, fun q mem => ?_,
      inv.handed_once.erase pp⟩
    · rw [ref]
      rcases (list q).mp on with same | earlier
      · subst same
        exact ⟨small,idle⟩
      · exact inv.in_memory q ((mem_iff q).mpr earlier)
    · have other : q ≠ pp := fun same => out ((list q).mpr (Or.inl same))
      change Kernel.link { o.kernel.setLink pp o.kernel.pageFreeList with pageFreeList := some pp } q = none
      rw [link, Function.update_of_ne other]
      exact inv.taken_unlinked q fun on => out ((list q).mpr (Or.inr ((mem_iff q).mp on)))
    · obtain ⟨other,earlier⟩ := inv.handed_once.mem_erase_iff.mp mem
      rw [list]
      rintro (same | on)
      · exact other same
      · exact inv.handed_taken q earlier ((mem_iff q).mpr on)

theorem listed_start (start : allocator.start o) : Listed o := by
  obtain ⟨none,b,mem,tlb,kernel⟩ := start
  have loop := pageInit_loop b mem tlb
  obtain ⟨nodes,chain,_⟩ := loop.listed
  have free := pageInit_free_iff b mem tlb
  obtain ⟨s,handed⟩ := o
  dsimp only at none kernel
  subst none kernel
  refine ⟨⟨nodes,chain⟩, fun p on => ?_, fun p off => ?_, fun p mem => absurd mem (by simp), List.nodup_nil⟩
  · obtain ⟨low,high,freed⟩ := (free p).mp on
    rw [loop.npages]
    exact ⟨high, loop.free_ref p low high freed⟩
  · exact loop.unlinked p fun inside => off ((free p).mpr inside)

theorem allocator_listed (reach : allocator.Reach NotLast o) : Listed o := by
  refine System.reach_invariant allocator (fun _ => listed_start) ?_ reach
  rintro o a u inv ok run
  cases a with
  | pageAlloc allocZero => exact listed_pageAlloc inv run
  | pageFree pp => exact listed_pageFree inv ok run

/-- Freeing the last page again closes the list into a ring. -/
theorem pageFree_last_cycles {s : Kernel} (chain : ∃ nodes, Chain s.link s.pageFreeList nodes) {p : Nat}
    (last : LastFree s p) (idle : s.ref p = 0) :
    ∃ t, pageFree s p = .ok t ∧ ∀ nodes, ¬ Chain t.link t.pageFreeList nodes := by
  refine ⟨_, pageFree_taken idle last.2, ?_⟩
  obtain ⟨nodes,chain⟩ := chain
  have here := (on_chain_iff chain p).mp last.1
  intro ring
  change ¬ Chain (s.setLink p s.pageFreeList).link (some p) ring
  rw [link_setLink]
  refine not_chain_of_closed (S := (· ∈ nodes)) ?_ ring here
  intro q mem
  by_cases same : q = p
  · subst same
    rw [Function.update_self]
    cases nodes with
    | nil => simp at mem
    | cons first rest => exact ⟨first, chain.1, by simp⟩
  · rw [Function.update_of_ne same]
    obtain ⟨r,there,next⟩ | ⟨null,_⟩ := chain_link chain mem
    · exact ⟨r,next,there⟩
    · exact absurd (chain_last_unique chain mem here null last.2) same

end Calls

/-- In every run in which the last page of the list is never freed a second time, `page_free`
    refuses each page of the list but the last one, the list is finite, and no page is handed
    out that is in use. Freeing the last page makes the list a ring. -/
theorem double_free_refused (o : Owners) (reach : allocator.Reach NotLast o) :
    (∀ pp, OnFreeList o.kernel pp →
      ((∃ panic, pageFree o.kernel pp = .error panic) ↔ ¬ LastFree o.kernel pp)) ∧
    (∃ nodes, Chain o.kernel.link o.kernel.pageFreeList nodes ∧ nodes.Nodup) ∧
    (∀ allocZero pp s, pageAlloc o.kernel allocZero = .ok (some pp, s) → pp ∉ o.handed) ∧
    ∀ pp, LastFree o.kernel pp →
      ∃ t, pageFree o.kernel pp = .ok t ∧ ∀ nodes, ¬ Chain t.link t.pageFreeList nodes := by
  have inv := allocator_listed reach
  obtain ⟨nodes,chain⟩ := inv.free_chain
  have cycles : ∀ pp, LastFree o.kernel pp →
      ∃ t, pageFree o.kernel pp = .ok t ∧ ∀ nodes, ¬ Chain t.link t.pageFreeList nodes :=
    fun pp last => pageFree_last_cycles inv.free_chain last (inv.in_memory pp last.1).2
  refine ⟨fun pp on => ⟨?_, fun last => ?_⟩, ⟨nodes, chain, chain_nodup chain⟩, fun allocZero pp s run => ?_, cycles⟩
  · rintro ⟨panic,refused⟩ last
    obtain ⟨t,freed,_⟩ := cycles pp last
    rw [refused] at freed
    cases freed
  · exact pageFree_linked fun null => last ⟨on,null⟩
  · cases head : o.kernel.pageFreeList with
    | none =>
      simp [pageAlloc, head] at run
    | some p =>
      have free := head_on_chain chain head
      obtain ⟨contents,_,alloc⟩ := pageAlloc_takes head (inv.in_memory p free).1 allocZero
      rw [alloc] at run
      cases run
      exact fun mem => inv.handed_taken _ mem free

def smallOwners : Owners := ⟨smallStart, []⟩

theorem small_owners_kernel : smallOwners.kernel = pageInit smallBoot (fun _ _ => 0) fun _ => none := by
  simp only [smallOwners, smallStart]

theorem small_owners_start : allocator.start smallOwners :=
  ⟨rfl, smallBoot, fun _ _ => 0, fun _ => none, small_owners_kernel⟩

theorem small_owners_free {p : Nat} (low : 1 ≤ p) (high : p < 258) (freed : smallBoot.freed p = true) :
    OnFreeList smallOwners.kernel p := by
  rw [small_owners_kernel, pageInit_free_iff]
  exact ⟨low,high,freed⟩

theorem double_free_refused_small :
    allocator.Reach NotLast smallOwners ∧ ∃ panic, pageFree smallOwners.kernel 257 = .error panic := by
  have reach : allocator.Reach NotLast smallOwners := .start small_owners_start
  have free : OnFreeList smallOwners.kernel 257 := small_owners_free (by decide) (by decide) (by decide)
  have next : smallOwners.kernel.link 257 = some 159 := by decide +kernel
  refine ⟨reach, ((double_free_refused smallOwners reach).1 257 free).mpr fun last => ?_⟩
  have null := last.2
  rw [next] at null
  cases null

/-- From the list of `page_init`, freeing page 1 again is accepted, and 161 calls of
    `page_alloc` then return that page twice. -/
theorem last_page_freed_twice : allocator.start smallOwners ∧ OnFreeList smallOwners.kernel 1 ∧
    (∃ t, pageFree smallOwners.kernel 1 = .ok t ∧ ∀ nodes, ¬ Chain t.link t.pageFreeList nodes) ∧
    (System.exec allocNext smallOwners (.pageFree 1 :: List.replicate 161 (.pageAlloc false))).map
      (fun o => o.handed.count 1) = some 2 := by
  have free : OnFreeList smallOwners.kernel 1 := small_owners_free (by decide) (by decide) (by decide)
  have inv := listed_start small_owners_start
  refine ⟨small_owners_start, free, pageFree_last_cycles inv.free_chain ⟨free, by decide +kernel⟩ (inv.in_memory 1 free).2, ?_⟩
  decide +kernel

end JosPmap
