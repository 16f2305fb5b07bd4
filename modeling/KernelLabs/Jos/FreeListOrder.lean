import KernelLabs.Jos.KernPgdir

/-!
The reordering at the head of `check_page_free_list` (lab-3 `kern/pmap.c`). The pages are
dealt onto two lists through a pair of pointers to the place where each list ends, a local
variable at first and a link later, and the lists are then joined.
-/
namespace JosPmap
open LinkedList

/-- What a `struct PageInfo **` of `tp` points to: `pp1` or `pp2`, or the link of a page. -/
inductive Place where
  | head (pagetype : Bool)
  | link (pp : Nat)
  deriving DecidableEq, Repr

structure Dealing where
  kernel : Kernel
  head : Bool → Option Nat
  tp : Bool → Place

/-- `*place = value`. -/
def Dealing.write (c : Dealing) (value : Option Nat) : Place → Dealing
  | .head pagetype => { c with head := Function.update c.head pagetype value }
  | .link pp => { c with kernel := c.kernel.setLink pp value }

def pdxLimit (onlyLowMemory : Bool) : Nat := if onlyLowMemory then 1 else NPDENTRIES

def pagetype (limit pp : Nat) : Bool := decide (pdx (page2pa pp) ≥ limit)

def dealPage (limit : Nat) (c : Dealing) (pp : Nat) : Dealing :=
  let c := c.write (some pp) (c.tp (pagetype limit pp))
  { c with tp := Function.update c.tp (pagetype limit pp) (.link pp) }

def dealPages (limit : Nat) : Nat → Option Nat → Dealing → Option Dealing
  | _, none, c => some c
  | 0, some _, _ => none
  | fuel + 1, some pp, c =>
    let c := dealPage limit c pp
    dealPages limit fuel (c.kernel.link pp) c

/-- `pp1` and `pp2` are not initialised; a list that never ends runs out of fuel. -/
def reorder (limit fuel : Nat) (uninitialised : Bool → Option Nat) (s : Kernel) : Option Kernel := do
  let c ← dealPages limit fuel s.pageFreeList ⟨s, uninitialised, Place.head⟩
  let c := c.write none (c.tp true)
  let c := c.write (c.head true) (c.tp false)
  return { c.kernel with pageFreeList := c.head false }

/-- The list dealt so far, up to its last page, whose link `tp` points to. -/
def Ends (c : Dealing) (k : Bool) (pages : List Nat) : Prop :=
  (pages = [] ∧ c.tp k = .head k) ∨
    ∃ front p, pages = front ++ [p] ∧ c.tp k = .link p ∧ Segment c.kernel.link (c.head k) front (some p)

def dealt (limit : Nat) (k : Bool) (pages : List Nat) : List Nat := pages.filter fun pp => pagetype limit pp == k

theorem mem_dealt {limit : Nat} {k : Bool} {pages : List Nat} {p : Nat} :
    p ∈ dealt limit k pages ↔ p ∈ pages ∧ pagetype limit p = k := by
  simp [dealt]

theorem dealt_append_same {limit : Nat} (pages : List Nat) (p : Nat) :
    dealt limit (pagetype limit p) (pages ++ [p]) = dealt limit (pagetype limit p) pages ++ [p] := by
  simp [dealt]

theorem dealt_append_other {limit : Nat} {k : Bool} (pages : List Nat) (p : Nat) (other : k ≠ pagetype limit p) :
    dealt limit k (pages ++ [p]) = dealt limit k pages := by
  have differs : ¬ pagetype limit p = k := fun same => other same.symm
  simp [dealt, differs]

/-- Loop invariant when `before` has been dealt. -/
structure Dealt (limit : Nat) (s : Kernel) (before : List Nat) (c : Dealing) : Prop where
  ends : ∀ k, Ends c k (dealt limit k before)
  links : ∀ p, p ∉ before → c.kernel.link p = s.link p
  counts : c.kernel.ref = s.ref
  same : c.kernel = { s with pages := c.kernel.pages }

section Write
variable {c : Dealing} {k : Bool} {pages : List Nat} {value : Option Nat}

theorem write_kernel_same {s : Kernel} (place : Place) (same : c.kernel = { s with pages := c.kernel.pages }) :
    (c.write value place).kernel = { s with pages := (c.write value place).kernel.pages } := by
  cases place with
  | head k => exact same
  | link p =>
    simp only [Dealing.write, Kernel.setLink]
    rw [same]

theorem write_ref (place : Place) : (c.write value place).kernel.ref = c.kernel.ref := by
  cases place with
  | head k => rfl
  | link p => exact ref_setLink _ _ _

theorem write_tp (place : Place) : (c.write value place).tp = c.tp := by
  cases place <;> rfl

/-- A write at the end of a list changes the links of that list only. -/
theorem write_link_off (ends : Ends c k pages) {q : Nat} (off : q ∉ pages) :
    (c.write value (c.tp k)).kernel.link q = c.kernel.link q := by
  obtain ⟨_,tp⟩ | ⟨front,p,rfl,tp,_⟩ := ends
  · rw [tp]
    rfl
  · have other : q ≠ p := fun same => off (by simp [same])
    rw [tp]
    change (c.kernel.setLink p value).link q = _
    rw [link_setLink, Function.update_of_ne other]

theorem write_head_off (ends : Ends c k pages) {j : Bool} (other : j ≠ k) :
    (c.write value (c.tp k)).head j = c.head j := by
  obtain ⟨_,tp⟩ | ⟨front,p,_,tp,_⟩ := ends
  · rw [tp]
    exact Function.update_of_ne other _ _
  · rw [tp]
    rfl

/-- What is written at the end of a list follows its last page. -/
theorem write_segment (ends : Ends c k pages) (nodup : pages.Nodup) :
    Segment (c.write value (c.tp k)).kernel.link ((c.write value (c.tp k)).head k) pages value := by
  obtain ⟨rfl,tp⟩ | ⟨front,p,rfl,tp,walk⟩ := ends
  · rw [tp]
    exact Function.update_self _ _ _
  · have off : p ∉ front := by
      have := List.nodup_append.mp nodup
      exact fun mem => this.2.2 p mem p (by simp) rfl
    rw [tp]
    change Segment (c.kernel.setLink p value).link (c.head k) (front ++ [p]) value
    rw [link_setLink]
    exact segment_extend walk off

theorem Ends.keep {d : Dealing} (ends : Ends c k pages) (tp : d.tp k = c.tp k) (head : d.head k = c.head k)
    (links : ∀ p ∈ pages, d.kernel.link p = c.kernel.link p) : Ends d k pages := by
  obtain ⟨empty,place⟩ | ⟨front,p,rfl,place,walk⟩ := ends
  · exact Or.inl ⟨empty, tp.trans place⟩
  · refine Or.inr ⟨front, p, rfl, tp.trans place, ?_⟩
    rw [head]
    exact segment_congr walk fun q mem => links q (by simp [mem])

end Write

section Loop
variable {limit : Nat} {s : Kernel}

theorem dealPage_dealt {before : List Nat} {c : Dealing} (inv : Dealt limit s before c) {pp : Nat}
    (nodup : before.Nodup) : Dealt limit s (before ++ [pp]) (dealPage limit c pp) := by
  have ends := inv.ends (pagetype limit pp)
  have off : ∀ q, q ∉ before → q ∉ dealt limit (pagetype limit pp) before := fun q out mem =>
    out (mem_dealt.mp mem).1
  constructor
  · intro k
    by_cases mine : k = pagetype limit pp
    · subst mine
      rw [dealt_append_same]
      exact Or.inr ⟨_, pp, rfl, Function.update_self _ _ _, write_segment ends (nodup.filter _)⟩
    · rw [dealt_append_other _ _ mine]
      refine (inv.ends k).keep ?_ (write_head_off ends mine) ?_
      · change Function.update (c.write (some pp) (c.tp (pagetype limit pp))).tp _ _ k = _
        rw [Function.update_of_ne mine, write_tp]
      · intro q mem
        refine write_link_off ends fun there => mine ?_
        rw [← (mem_dealt.mp mem).2, (mem_dealt.mp there).2]
  · intro q out
    have earlier : q ∉ before := fun mem => out (List.mem_append_left _ mem)
    rw [← inv.links q earlier]
    exact write_link_off ends (off q earlier)
  · exact (write_ref _).trans inv.counts
  · exact write_kernel_same _ inv.same

theorem dealPages_dealt {before rest : List Nat} {c : Dealing} {next : Option Nat}
    (inv : Dealt limit s before c) (chain : Chain s.link next rest) (nodup : (before ++ rest).Nodup) {fuel : Nat}
    (enough : rest.length ≤ fuel) :
    ∃ d, dealPages limit fuel next c = some d ∧ Dealt limit s (before ++ rest) d := by
  induction rest generalizing before c next fuel with
  | nil =>
    have stop : next = none := chain
    subst stop
    exact ⟨c, by cases fuel <;> rfl, by rw [List.append_nil]; exact inv⟩
  | cons p rest ih =>
    obtain ⟨rfl,chain⟩ := chain
    have apart := List.nodup_append.mp nodup
    have fresh : p ∉ before := fun mem => apart.2.2 p mem p (by simp) rfl
    cases fuel with
    | zero => simp at enough
    | succ fuel =>
      have next : (dealPage limit c p).kernel.link p = s.link p := by
        rw [← inv.links p fresh]
        exact write_link_off (inv.ends _) fun mem => fresh (mem_dealt.mp mem).1
      have shifted : before ++ p :: rest = before ++ [p] ++ rest := by simp
      rw [shifted] at nodup ⊢
      rw [dealPages, next]
      exact ih (dealPage_dealt inv apart.1) chain nodup (by simpa using enough)

theorem dealt_nodup {pages : List Nat} (nodup : pages.Nodup) (k : Bool) : (dealt limit k pages).Nodup :=
  nodup.filter _

/-- From any finite free list, the pages below the limit come first, the others after, and
    each group keeps its order; no other link, no count and no word of memory changes. -/
theorem reorder_low_first (limit : Nat) {nodes : List Nat} (chain : Chain s.link s.pageFreeList nodes)
    (uninitialised : Bool → Option Nat) {fuel : Nat} (enough : nodes.length ≤ fuel) :
    ∃ t, reorder limit fuel uninitialised s = some t ∧
      Chain t.link t.pageFreeList (dealt limit false nodes ++ dealt limit true nodes) ∧
      (dealt limit false nodes ++ dealt limit true nodes).Perm nodes ∧
      (∀ p, p ∉ nodes → t.link p = s.link p) ∧ t.ref = s.ref ∧ t.mem = s.mem ∧ t.npages = s.npages := by
  have start : Dealt limit s [] ⟨s, uninitialised, Place.head⟩ :=
    ⟨fun k => Or.inl ⟨rfl,rfl⟩, fun _ _ => rfl, rfl, rfl⟩
  have nodup := chain_nodup chain
  obtain ⟨c,run,inv⟩ := dealPages_dealt start chain nodup enough
  rw [List.nil_append] at inv
  have high := inv.ends true
  have low := inv.ends false
  have apart : ∀ p ∈ dealt limit false nodes, p ∉ dealt limit true nodes := fun p one two => by
    have := (mem_dealt.mp one).2.symm.trans (mem_dealt.mp two).2
    simp at this
  -- the second list is closed first, so that `*tp[0] = pp2` reads its head
  let d := c.write none (c.tp true)
  have lowD : Ends d false (dealt limit false nodes) := by
    refine low.keep (congrFun (write_tp _) false) (write_head_off high (by simp)) ?_
    exact fun p mem => write_link_off high (apart p mem)
  have back : Segment d.kernel.link (d.head true) (dealt limit true nodes) none :=
    write_segment high (dealt_nodup nodup true)
  let e := d.write (d.head true) (d.tp false)
  have front : Segment e.kernel.link (e.head false) (dealt limit false nodes) (d.head true) :=
    write_segment lowD (dealt_nodup nodup false)
  have rest : Segment e.kernel.link (d.head true) (dealt limit true nodes) none :=
    segment_congr back fun p mem => write_link_off lowD fun there => apart p there mem
  have same : e.kernel = { s with pages := e.kernel.pages } := write_kernel_same _ (write_kernel_same _ inv.same)
  refine ⟨{ e.kernel with pageFreeList := e.head false }, ?_, segment_null.mp (segment_append front rest), ?_, ?_,
    (write_ref _).trans ((write_ref _).trans inv.counts), ?_, ?_⟩
  · rw [reorder, run]
    rfl
  · have complement : dealt limit true nodes = nodes.filter fun pp => !(pagetype limit pp == false) := by
      refine List.filter_congr fun p _ => ?_
      cases pagetype limit p <;> rfl
    rw [complement]
    exact List.filter_append_perm _ nodes
  · intro p out
    change e.kernel.link p = s.link p
    rw [write_link_off lowD fun mem => out (mem_dealt.mp mem).1,
      write_link_off high fun mem => out (mem_dealt.mp mem).1]
    exact inv.links p out
  · change e.kernel.mem = s.mem
    rw [same]
  · change e.kernel.npages = s.npages
    rw [same]

end Loop

/-- `check_page_free_list` up to the end of its reordering. -/
def checkPageFreeListOrder (onlyLowMemory : Bool) (fuel : Nat) (uninitialised : Bool → Option Nat) (s : Kernel) :
    Except String (Option Kernel) :=
  if s.pageFreeList = none then .error "'page_free_list' is a null pointer!"
  else if onlyLowMemory then .ok (reorder (pdxLimit onlyLowMemory) fuel uninitialised s)
  else .ok (some s)

theorem pagetype_low (p : Nat) : pagetype (pdxLimit true) p = !decide (pdx (page2pa p) < 1) := by
  simp only [pagetype, pdxLimit, ↓reduceIte, ge_iff_le, ← Nat.not_lt, decide_not]

/-- The reordering of `check_page_free_list(1)` ends within a round for each page of the list.
    The pages of the first 4MB come first, then the others, in the order they had. -/
theorem free_list_reordered (s : Kernel) (nodes : List Nat) (chain : Chain s.link s.pageFreeList nodes)
    (uninitialised : Bool → Option Nat) (fuel : Nat) (enough : nodes.length ≤ fuel) :
    ∃ t order, reorder (pdxLimit true) fuel uninitialised s = some t ∧
      (nodes ≠ [] → checkPageFreeListOrder true fuel uninitialised s = .ok (some t)) ∧
      Chain t.link t.pageFreeList order ∧ order.Nodup ∧ order.Perm nodes ∧
      order = nodes.filter (fun pp => pdx (page2pa pp) < 1) ++ nodes.filter (fun pp => ¬ pdx (page2pa pp) < 1) ∧
      ∀ p, p ∉ nodes → t.link p = s.link p := by
  obtain ⟨t,run,walk,perm,links,_⟩ := reorder_low_first (pdxLimit true) chain uninitialised enough
  refine ⟨t, _, run, fun some => ?_, walk, chain_nodup walk, perm, ?_, links⟩
  · have head : s.pageFreeList ≠ none := by
      cases nodes with
      | nil => exact absurd rfl some
      | cons p rest => rw [chain.1]; simp
    simp only [checkPageFreeListOrder, if_neg head, ↓reduceIte, run]
  · congr 1 <;> refine List.filter_congr fun p _ => ?_ <;> rw [pagetype_low] <;> simp

/-- Three free pages, the second of them below 4MB. -/
def threeFree : Kernel :=
  ⟨4096, fun p => ⟨if p = 2000 then some 5 else if p = 5 then some 1500 else none, 0⟩, some 2000, fun _ _ => 0,
    fun _ => none⟩

theorem free_list_reordered_three : Chain threeFree.link threeFree.pageFreeList [2000, 5, 1500] ∧
    ∃ t, reorder (pdxLimit true) 3 (fun _ => none) threeFree = some t ∧
      Chain t.link t.pageFreeList [5, 2000, 1500] := by
  have chain : Chain threeFree.link threeFree.pageFreeList [2000, 5, 1500] := ⟨rfl,rfl,rfl,rfl⟩
  obtain ⟨t,order,run,_,walk,_,_,sorted,_⟩ := free_list_reordered threeFree _ chain (fun _ => none) 3 (Nat.le_refl 3)
  have order : order = [5, 2000, 1500] := sorted.trans (by decide)
  exact ⟨chain, t, run, order ▸ walk⟩

end JosPmap
