import KernelLabs.Jos.PageTables

/-!
Reference counts against the references they count. A page is managed when
`page_init` put it on the free list. Each operation keeps three facts together:
the count of a managed page is the number of user entries and user tables on it,
the free list is a finite chain, and nothing on the list is referred to.
`page_insert` raises a count before it writes the entry, so the accounting carries
at most one held page whose count runs one ahead, modulo the width of `pp_ref`.
-/
namespace JosPmap
open LinkedList Counting

def OnFreeList (s : Kernel) (p : Nat) : Prop := OnChain s.link s.pageFreeList p

def MapsTo (s : Kernel) (pgdir p n : Nat) : Prop :=
  present (pte s pgdir n) = true ∧ frame (pte s pgdir n) = p

def TableAt (s : Kernel) (pgdir p d : Nat) : Prop :=
  present (pde s pgdir d) = true ∧ frame (pde s pgdir d) = p

instance (s : Kernel) (pgdir p : Nat) : DecidablePred (MapsTo s pgdir p) :=
  fun _ => inferInstanceAs (Decidable (_ ∧ _))

instance (s : Kernel) (pgdir p : Nat) : DecidablePred (TableAt s pgdir p) :=
  fun _ => inferInstanceAs (Decidable (_ ∧ _))

/-- Present user entries that map the page, and present user directory entries that
    use it as a page table. -/
def refs (s : Kernel) (pgdir p : Nat) : Nat :=
  ((Finset.range userPages).filter (MapsTo s pgdir p)).card +
    ((Finset.range userPdes).filter (TableAt s pgdir p)).card

structure Accounted (managed : Nat → Prop) (pgdir : Nat) (held : Option Nat)
    (s : Kernel) : Prop where
  managed_in_memory : ∀ p, managed p → p < s.npages
  directory_unmanaged : ¬ managed pgdir
  free_chain : ∃ nodes, Chain s.link s.pageFreeList nodes ∧ ∀ p ∈ nodes, managed p
  taken_unlinked : ∀ p, managed p → ¬ OnFreeList s p → s.link p = none
  tables_taken : ∀ p, IsTable s pgdir p → managed p ∧ ¬ OnFreeList s p
  tables_distinct : ∀ d e, d < userPdes → e < userPdes → present (pde s pgdir d) = true →
    present (pde s pgdir e) = true → frame (pde s pgdir d) = frame (pde s pgdir e) → d = e
  frames_taken : ∀ n, n < userPages → present (pte s pgdir n) = true →
    managed (frame (pte s pgdir n)) ∧ ¬ OnFreeList s (frame (pte s pgdir n))
  held_taken : ∀ p, held = some p → managed p ∧ ¬ OnFreeList s p
  counted : ∀ p, managed p →
    s.ref p = (refs s pgdir p + if held = some p then 1 else 0) % 2 ^ 16

section Transport
variable {managed : Nat → Prop} {pgdir : Nat} {held : Option Nat} {s t : Kernel}

theorem refs_congr (dir : SameTables s t pgdir)
    (entries : ∀ n, n < userPages → pte t pgdir n = pte s pgdir n) (p : Nat) :
    refs t pgdir p = refs s pgdir p := by
  have maps : (Finset.range userPages).filter (MapsTo t pgdir p) =
      (Finset.range userPages).filter (MapsTo s pgdir p) := by
    refine Finset.filter_congr ?_
    intro n user
    simp only [MapsTo, entries n (Finset.mem_range.mp user)]
  have tables : (Finset.range userPdes).filter (TableAt t pgdir p) =
      (Finset.range userPdes).filter (TableAt s pgdir p) := by
    refine Finset.filter_congr ?_
    intro d user
    obtain ⟨flag,target⟩ := dir d (Finset.mem_range.mp user)
    simp only [TableAt, flag, target]
  simp only [refs, maps, tables]

/-- References when one entry changes. -/
theorem refs_entry_change {n : Nat} (user : n < userPages) (dir : SameTables s t pgdir)
    (entries : ∀ m, m < userPages → m ≠ n → pte t pgdir m = pte s pgdir m) (p : Nat) :
    refs t pgdir p + (if MapsTo s pgdir p n then 1 else 0) =
      refs s pgdir p + if MapsTo t pgdir p n then 1 else 0 := by
  have tables : (Finset.range userPdes).filter (TableAt t pgdir p) =
      (Finset.range userPdes).filter (TableAt s pgdir p) := by
    refine Finset.filter_congr ?_
    intro d inside
    obtain ⟨flag,target⟩ := dir d (Finset.mem_range.mp inside)
    simp only [TableAt, flag, target]
  have maps := card_filter_change (Finset.range userPages) (MapsTo s pgdir p) (MapsTo t pgdir p)
    (Finset.mem_range.mpr user) (by
      intro m mem other
      simp only [MapsTo, entries m (Finset.mem_range.mp mem) other])
  simp only [refs, tables]
  omega

/-- References when one slot of the directory changes and no entry does. -/
theorem refs_slot_change {d : Nat} (inside : d < userPdes)
    (slots : ∀ e, e < userPdes → e ≠ d → pde t pgdir e = pde s pgdir e)
    (entries : ∀ n, n < userPages → pte t pgdir n = pte s pgdir n) (p : Nat) :
    refs t pgdir p + (if TableAt s pgdir p d then 1 else 0) =
      refs s pgdir p + if TableAt t pgdir p d then 1 else 0 := by
  have maps : (Finset.range userPages).filter (MapsTo t pgdir p) =
      (Finset.range userPages).filter (MapsTo s pgdir p) := by
    refine Finset.filter_congr ?_
    intro n user
    simp only [MapsTo, entries n (Finset.mem_range.mp user)]
  have tables := card_filter_change (Finset.range userPdes) (TableAt s pgdir p) (TableAt t pgdir p)
    (Finset.mem_range.mpr inside) (by
      intro e mem other
      simp only [TableAt, slots e (Finset.mem_range.mp mem) other])
  simp only [refs, maps]
  omega

theorem is_table_congr (dir : SameTables s t pgdir) {p : Nat} (table : IsTable t pgdir p) :
    IsTable s pgdir p := by
  obtain ⟨d,user,here,target⟩ := table
  obtain ⟨flag,same⟩ := dir d user
  exact ⟨d, user, flag ▸ here, same ▸ target⟩

/-- The accounting depends on memory only through the user view of the directory. -/
theorem Accounted.transport (acc : Accounted managed pgdir held s)
    (npages : t.npages = s.npages) (dir : SameTables s t pgdir)
    (entries : ∀ n, n < userPages → pte t pgdir n = pte s pgdir n)
    (counts : ∀ p, managed p → t.ref p = s.ref p)
    (chain : ∃ nodes, Chain t.link t.pageFreeList nodes ∧ ∀ p ∈ nodes, managed p)
    (unlinked : ∀ p, managed p → ¬ OnFreeList t p → t.link p = none)
    (fewer : ∀ p, OnFreeList t p → OnFreeList s p) : Accounted managed pgdir held t where
  managed_in_memory := by
    intro p hp
    rw [npages]
    exact acc.managed_in_memory p hp
  directory_unmanaged := acc.directory_unmanaged
  free_chain := chain
  taken_unlinked := unlinked
  tables_taken := by
    intro p table
    obtain ⟨own,taken⟩ := acc.tables_taken p (is_table_congr dir table)
    exact ⟨own, fun on => taken (fewer p on)⟩
  tables_distinct := by
    intro d e hd he pd pe same
    obtain ⟨flagD,targetD⟩ := dir d hd
    obtain ⟨flagE,targetE⟩ := dir e he
    exact acc.tables_distinct d e hd he (flagD ▸ pd) (flagE ▸ pe)
      (by rw [← targetD, ← targetE]; exact same)
  frames_taken := by
    intro n user here
    rw [entries n user] at here ⊢
    obtain ⟨own,taken⟩ := acc.frames_taken n user here
    exact ⟨own, fun on => taken (fewer _ on)⟩
  held_taken := by
    intro p same
    obtain ⟨own,taken⟩ := acc.held_taken p same
    exact ⟨own, fun on => taken (fewer p on)⟩
  counted := by
    intro p own
    rw [counts p own, acc.counted p own, refs_congr dir entries]

end Transport

section FreeList
variable {managed : Nat → Prop} {pgdir : Nat} {held : Option Nat} {s t : Kernel}

theorem refs_zero_of_free (acc : Accounted managed pgdir held s) {p : Nat}
    (free : OnFreeList s p) : refs s pgdir p = 0 := by
  have maps : (Finset.range userPages).filter (MapsTo s pgdir p) = ∅ := by
    rw [Finset.filter_eq_empty_iff]
    rintro n user ⟨here,target⟩
    exact (acc.frames_taken n (Finset.mem_range.mp user) here).2 (target ▸ free)
  have tables : (Finset.range userPdes).filter (TableAt s pgdir p) = ∅ := by
    rw [Finset.filter_eq_empty_iff]
    rintro d user ⟨here,target⟩
    exact (acc.tables_taken p ⟨d, Finset.mem_range.mp user, here, target⟩).2 free
  simp [refs, maps, tables]

theorem managed_of_free (acc : Accounted managed pgdir held s) {p : Nat}
    (free : OnFreeList s p) : managed p := by
  obtain ⟨nodes,chain,own⟩ := acc.free_chain
  exact own p ((on_chain_iff chain p).mp free)

end FreeList

section Alloc
variable {managed : Nat → Prop} {pgdir : Nat} {held : Option Nat} {s : Kernel}

/-- Taking the head of the list, before the page is cleared. -/
def takeHead (s : Kernel) (p : Nat) : Kernel :=
  ({ s with pageFreeList := s.link p } : Kernel).setLink p none

/-- The state after `page_alloc`, with what the page now holds. -/
def allocated (s : Kernel) (p : Nat) (contents : Nat → Nat) : Kernel :=
  { takeHead s p with mem := Function.update s.mem p contents }

theorem take_head_chain {nodes : List Nat} {p : Nat} (chain : Chain s.link s.pageFreeList nodes)
    (head : s.pageFreeList = some p) :
    ∃ rest, nodes = p :: rest ∧ p ∉ rest ∧ Chain (takeHead s p).link (takeHead s p).pageFreeList rest := by
  rw [head] at chain
  obtain ⟨rest,split,off,popped⟩ := chain_pop chain
  refine ⟨rest, split, off, ?_⟩
  rw [takeHead, link_setLink]
  exact popped

theorem on_taken_list {nodes : List Nat} {p : Nat} (chain : Chain s.link s.pageFreeList nodes)
    (head : s.pageFreeList = some p) (q : Nat) : OnFreeList (takeHead s p) q ↔ OnFreeList s q ∧ q ≠ p := by
  obtain ⟨rest,rfl,off,shorter⟩ := take_head_chain chain head
  rw [OnFreeList, on_chain_iff shorter, OnFreeList, on_chain_iff chain, List.mem_cons]
  constructor
  · intro mem
    exact ⟨Or.inr mem, fun same => off (same ▸ mem)⟩
  · rintro ⟨same | mem, other⟩
    · exact absurd same other
    · exact mem

theorem take_head_list (acc : Accounted managed pgdir held s) {p : Nat}
    (head : s.pageFreeList = some p) :
    (∃ nodes, Chain (takeHead s p).link (takeHead s p).pageFreeList nodes ∧
      ∀ q ∈ nodes, managed q) ∧
    (∀ q, OnFreeList (takeHead s p) q ↔ OnFreeList s q ∧ q ≠ p) := by
  obtain ⟨nodes,chain,own⟩ := acc.free_chain
  obtain ⟨rest,split,_,shorter⟩ := take_head_chain chain head
  exact ⟨⟨rest, shorter, fun q mem => own q (by rw [split]; exact List.mem_cons_of_mem p mem)⟩,
    on_taken_list chain head⟩

theorem head_on_chain {nodes : List Nat} {p : Nat} (chain : Chain s.link s.pageFreeList nodes)
    (head : s.pageFreeList = some p) : OnFreeList s p := by
  obtain ⟨rest,rfl,_,_⟩ := take_head_chain chain head
  exact (on_chain_iff chain p).mpr (by simp)

theorem head_on_free_list (acc : Accounted managed pgdir held s) {p : Nat}
    (head : s.pageFreeList = some p) : OnFreeList s p := by
  obtain ⟨nodes,chain,_⟩ := acc.free_chain
  exact head_on_chain chain head

/-- Taking a page and overwriting it wholly changes nothing the user view sees. -/
theorem take_head_accounted (acc : Accounted managed pgdir held s) {p : Nat}
    (head : s.pageFreeList = some p) (contents : Nat → Nat) :
    Accounted managed pgdir held (allocated s p contents) ∧
    SameTables s (allocated s p contents) pgdir ∧
    ∀ n, n < userPages → pte (allocated s p contents) pgdir n = pte s pgdir n := by
  obtain ⟨chain,onlist⟩ := take_head_list acc head
  have free := head_on_free_list acc head
  have own := managed_of_free acc free
  have notDir : pgdir ≠ p := fun same => acc.directory_unmanaged (same ▸ own)
  have dir : SameTables s (allocated s p contents) pgdir := by
    refine same_tables_of_eq ?_
    intro d user
    simp [pde, allocated, notDir]
  have entries : ∀ n, n < userPages → pte (allocated s p contents) pgdir n = pte s pgdir n := by
    refine pte_congr dir ?_
    intro q table
    have other : q ≠ p := fun same => (acc.tables_taken q table).2 (same ▸ free)
    simp [allocated, other]
  refine ⟨acc.transport rfl dir entries ?_ chain ?_ (fun q on => ((onlist q).mp on).1), dir, entries⟩
  · intro q _
    change (takeHead s p).ref q = s.ref q
    rw [takeHead, ref_setLink]
    rfl
  · intro q hq off
    have link : (takeHead s p).link q = Function.update s.link p none q := by
      rw [takeHead, link_setLink]
      rfl
    change (takeHead s p).link q = none
    rw [link]
    by_cases same : q = p
    · simp [same]
    · rw [Function.update_of_ne same]
      exact acc.taken_unlinked q hq (fun on => off ((onlist q).mpr ⟨on,same⟩))

theorem kaddr_frame (acc : Accounted managed pgdir held s) {entry : Nat}
    (own : managed (frame entry)) : kaddr s (pteAddr entry) = .ok (frame entry) := by
  have small := acc.managed_in_memory _ own
  simp only [kaddr]
  rw [if_neg (by simp only [frame] at small; omega)]
  rfl

/-- `page_alloc` takes the head of the list, when that is a page of the machine. -/
theorem pageAlloc_takes {p : Nat} (head : s.pageFreeList = some p) (small : p < s.npages) (allocZero : Bool) :
    ∃ contents, (allocZero = true → contents = fun _ => 0) ∧
      pageAlloc s allocZero = .ok (some p, allocated s p contents) := by
  cases allocZero with
  | false =>
    refine ⟨s.mem p, by simp, ?_⟩
    simp [pageAlloc, head, allocated, takeHead, Kernel.setLink]
  | true =>
    refine ⟨fun _ => 0, fun _ => rfl, ?_⟩
    have page : pgnum (page2pa p) = p := by
      simp only [pgnum, page2pa, PGSIZE]
      omega
    have kva : kaddr (takeHead s p) (page2pa p) = .ok p := by
      simp only [kaddr, page]
      exact if_neg (Nat.not_le.mpr small)
    simp only [pageAlloc, head, ↓reduceIte]
    change (kaddr (takeHead s p) (page2pa p) >>= fun page =>
      pure (some p, (takeHead s p).zeroPage page)) = _
    rw [kva]
    rfl

/-- `page_alloc` never panics; it takes the head of the list, when there is one. -/
theorem pageAlloc_spec (acc : Accounted managed pgdir held s) (allocZero : Bool) :
    (s.pageFreeList = none ∧ pageAlloc s allocZero = .ok (none, s)) ∨
    ∃ p contents, s.pageFreeList = some p ∧ (allocZero = true → contents = fun _ => 0) ∧
      pageAlloc s allocZero = .ok (some p, allocated s p contents) := by
  cases head : s.pageFreeList with
  | none => exact Or.inl ⟨rfl, by simp [pageAlloc, head]⟩
  | some p =>
    right
    have own := managed_of_free acc (head_on_free_list acc head)
    obtain ⟨contents,zero,run⟩ := pageAlloc_takes head (acc.managed_in_memory p own) allocZero
    exact ⟨p, contents, rfl, zero, run⟩

end Alloc

section Walk
variable {managed : Nat → Prop} {pgdir : Nat} {held : Option Nat} {s : Kernel}

/-- The directory after `pgdir_walk` has hooked a cleared page in at `d`. -/
def hookTable (s : Kernel) (pgdir d p : Nat) : Kernel :=
  (s.setRef p (s.ref p + 1)).store ⟨pgdir, d⟩ (page2pa p ||| PTE_P ||| PTE_W ||| PTE_U)

theorem pde_hook (s : Kernel) (pgdir d p e : Nat) :
    pde (hookTable s pgdir d p) pgdir e =
      if e = d then page2pa p ||| PTE_P ||| PTE_W ||| PTE_U else pde s pgdir e := by
  simp only [pde, hookTable, mem_store, true_and]
  rfl

theorem pte_hook (acc : Accounted managed pgdir held s) {d p : Nat}
    (absent : present (pde s pgdir d) = false) (cleared : s.mem p = fun _ => 0)
    (own : managed p) (n : Nat) (user : n < userPages) :
    pte (hookTable s pgdir d p) pgdir n = pte s pgdir n := by
  have offDir : ∀ q, managed q → (hookTable s pgdir d p).mem q = s.mem q := by
    intro q hq
    have other : q ≠ pgdir := fun same => acc.directory_unmanaged (same ▸ hq)
    funext i
    simp only [hookTable, mem_store]
    rw [if_neg (fun both => other both.1)]
    rfl
  simp only [pte, pde_hook]
  by_cases here : n / NPTENTRIES = d
  · simp only [here, ↓reduceIte, present_table_entry, frame_table_entry, absent]
    rw [offDir p own, cleared]
    rfl
  · simp only [here, ↓reduceIte]
    split
    · rename_i flag
      rw [offDir _ (acc.tables_taken _ ⟨_, user_page_pde n user, flag, rfl⟩).1]
    · rfl

theorem refs_hook (acc : Accounted managed pgdir held s) {d p : Nat} (inside : d < userPdes)
    (absent : present (pde s pgdir d) = false) (cleared : s.mem p = fun _ => 0)
    (own : managed p) (q : Nat) :
    refs (hookTable s pgdir d p) pgdir q = refs s pgdir q + if q = p then 1 else 0 := by
  have change := refs_slot_change inside (fun e _ other => by rw [pde_hook, if_neg other])
    (pte_hook acc absent cleared own) q
  have before : ¬ TableAt s pgdir q d := by
    rintro ⟨flag,_⟩
    simp [absent] at flag
  have after : TableAt (hookTable s pgdir d p) pgdir q d ↔ q = p := by
    simp only [TableAt, pde_hook, ↓reduceIte, present_table_entry, frame_table_entry, true_and]
    exact eq_comm
  simp only [before, ↓reduceIte, after] at change
  omega

theorem hook_accounted (acc : Accounted managed pgdir held s) {d p : Nat}
    (inside : d < userPdes) (absent : present (pde s pgdir d) = false)
    (cleared : s.mem p = fun _ => 0) (own : managed p) (taken : ¬ OnFreeList s p)
    (unused : refs s pgdir p = 0) (idle : held ≠ some p) :
    Accounted managed pgdir held (hookTable s pgdir d p) where
  managed_in_memory := acc.managed_in_memory
  directory_unmanaged := acc.directory_unmanaged
  free_chain := by
    obtain ⟨nodes,chain,mine⟩ := acc.free_chain
    refine ⟨nodes, ?_, mine⟩
    refine chain_congr chain ?_
    intro q _
    exact congrFun (link_setRef s p _) q
  taken_unlinked := by
    intro q hq off
    have same : (hookTable s pgdir d p).link = s.link := link_setRef s p _
    rw [same]
    refine acc.taken_unlinked q hq ?_
    rw [OnFreeList, same] at off
    exact off
  tables_taken := by
    rintro q ⟨e,user,flag,target⟩
    have same : (hookTable s pgdir d p).link = s.link := link_setRef s p _
    simp only [OnFreeList, same]
    rw [pde_hook] at flag target
    by_cases here : e = d
    · rw [if_pos here, frame_table_entry] at target
      subst target
      exact ⟨own,taken⟩
    · rw [if_neg here] at flag target
      exact acc.tables_taken q ⟨e,user,flag,target⟩
  tables_distinct := by
    -- the hooked page has no reference yet, so no other directory entry uses it
    have fresh : ∀ e, e < userPdes → present (pde s pgdir e) = true →
        frame (pde s pgdir e) ≠ p := by
      intro e user flag target
      have some : 0 < ((Finset.range userPdes).filter (TableAt s pgdir p)).card :=
        Finset.card_pos.mpr ⟨e, Finset.mem_filter.mpr ⟨Finset.mem_range.mpr user, flag, target⟩⟩
      simp only [refs] at unused
      omega
    intro e f he hf pe pf same
    simp only [pde_hook] at pe pf same
    by_cases hereE : e = d
    · by_cases hereF : f = d
      · exact hereE.trans hereF.symm
      · simp only [hereE, hereF, ↓reduceIte, frame_table_entry] at pf same
        exact absurd same.symm (fresh f hf pf)
    · by_cases hereF : f = d
      · simp only [hereE, hereF, ↓reduceIte, frame_table_entry] at pe same
        exact absurd same (fresh e he pe)
      · simp only [hereE, hereF, ↓reduceIte] at pe pf same
        exact acc.tables_distinct e f he hf pe pf same
  frames_taken := by
    intro n user
    have same : (hookTable s pgdir d p).link = s.link := link_setRef s p _
    rw [pte_hook acc absent cleared own n user]
    simp only [OnFreeList, same]
    exact acc.frames_taken n user
  held_taken := by
    intro q hq
    have same : (hookTable s pgdir d p).link = s.link := link_setRef s p _
    simp only [OnFreeList, same]
    exact acc.held_taken q hq
  counted := by
    intro q hq
    have count : (hookTable s pgdir d p).ref q =
        Function.update s.ref p ((s.ref p + 1) % 2 ^ 16) q := congrFun (ref_setRef s p _) q
    rw [count, refs_hook acc inside absent cleared own q]
    by_cases same : q = p
    · subst same
      have zero := acc.counted q hq
      rw [unused, if_neg idle] at zero
      simp [zero, unused, idle]
    · rw [Function.update_of_ne same, acc.counted q hq]
      simp [same]

theorem pgdirWalk_found (acc : Accounted managed pgdir held s) {va : Nat} (user : va < UTOP)
    (here : present (pde s pgdir (pdx va)) = true) (create : Bool) :
    pgdirWalk s pgdir va create =
      .ok (some ⟨frame (pde s pgdir (pdx va)), ptx va⟩, s) := by
  have own := (acc.tables_taken _ ⟨_, pdx_lt_user va user, here, rfl⟩).1
  have table := kaddr_frame acc own
  simp only [pde] at here table
  simp only [pgdirWalk, Kernel.load, here, ↓reduceIte, table]
  rfl

theorem pgdirWalk_absent {va : Nat} (absent : present (pde s pgdir (pdx va)) = false) :
    pgdirWalk s pgdir va false = .ok (none, s) := by
  simp only [pde] at absent
  simp only [pgdirWalk, Kernel.load, absent]
  rfl

theorem pgdirWalk_same {t : Kernel} {va : Nat} {r : Option PteLoc} (run : pgdirWalk s pgdir va false = .ok (r, t)) :
    t = s := by
  unfold pgdirWalk at run
  simp only [Bool.false_eq_true, ↓reduceIte] at run
  split at run
  · obtain ⟨_,_,done⟩ := bind_ok run
    cases done
    rfl
  · cases run
    rfl

/-- With `create`, the walk fails only without a table and without a free page; else it
    ends at the entry of `va`, and no translation has changed. -/
theorem pgdirWalk_create_spec (acc : Accounted managed pgdir held s) {va : Nat}
    (user : va < UTOP) :
    (present (pde s pgdir (pdx va)) = false ∧ s.pageFreeList = none ∧
      pgdirWalk s pgdir va true = .ok (none, s)) ∨
    ∃ t, pgdirWalk s pgdir va true =
        .ok (some ⟨frame (pde t pgdir (pdx va)), ptx va⟩, t) ∧
      present (pde t pgdir (pdx va)) = true ∧ Accounted managed pgdir held t ∧
      (∀ n, n < userPages → pte t pgdir n = pte s pgdir n) ∧
      (∀ p, OnFreeList t p → OnFreeList s p) ∧
      ∀ p, refs t pgdir p ≤ max 1 (refs s pgdir p) := by
  by_cases here : present (pde s pgdir (pdx va)) = true
  · exact Or.inr ⟨s, pgdirWalk_found acc user here true, here, acc, fun _ _ => rfl,
      fun _ on => on, fun _ => Nat.le_max_right _ _⟩
  have absent : present (pde s pgdir (pdx va)) = false := by simpa using here
  have flag : present (s.load ⟨pgdir, pdx va⟩) = false := absent
  obtain ⟨empty,run⟩ | ⟨p,contents,head,zero,run⟩ := pageAlloc_spec acc true
  · left
    refine ⟨absent, empty, ?_⟩
    simp only [pgdirWalk, flag, ↓reduceIte, run]
    rfl
  right
  obtain ⟨taken,dir,entries⟩ := take_head_accounted acc head contents
  obtain ⟨_,onlist⟩ := take_head_list acc head
  have free := head_on_free_list acc head
  have own := managed_of_free acc free
  let u := allocated s p contents
  have inside := pdx_lt_user va user
  have absentU : present (pde u pgdir (pdx va)) = false := by
    rw [(dir _ inside).1]
    exact absent
  have cleared : u.mem p = fun _ => 0 := by
    change Function.update s.mem p contents p = _
    rw [Function.update_self, zero rfl]
  have off : ¬ OnFreeList u p := fun on => ((onlist p).mp on).2 rfl
  have unused : refs u pgdir p = 0 := by
    rw [refs_congr dir entries]
    exact refs_zero_of_free acc free
  have idle : held ≠ some p := fun same => (acc.held_taken p same).2 free
  have done := hook_accounted taken inside absentU cleared own off unused idle
  have target : pde (hookTable u pgdir (pdx va) p) pgdir (pdx va) =
      page2pa p ||| PTE_P ||| PTE_W ||| PTE_U := by
    rw [pde_hook, if_pos rfl]
  have entry : present (pde (hookTable u pgdir (pdx va) p) pgdir (pdx va)) = true := by
    rw [target, present_table_entry]
  refine ⟨hookTable u pgdir (pdx va) p, ?_, entry, done, ?_, ?_, ?_⟩
  · have table := kaddr_frame done (done.tables_taken _ ⟨_, inside, entry, rfl⟩).1
    simp only [pgdirWalk, flag, ↓reduceIte, run]
    change (kaddr (hookTable u pgdir (pdx va) p)
      (pteAddr (pde (hookTable u pgdir (pdx va) p) pgdir (pdx va))) >>= fun table =>
        pure (some (PteLoc.mk table (ptx va)), hookTable u pgdir (pdx va) p)) = _
    rw [table]
    rfl
  · intro n hn
    rw [pte_hook taken absentU cleared own n hn]
    exact entries n hn
  · intro q on
    have same : (hookTable u pgdir (pdx va) p).link = u.link := link_setRef u p _
    rw [OnFreeList, same] at on
    exact ((onlist q).mp on).1
  · intro q
    have hooked : refs (hookTable u pgdir (pdx va) p) pgdir q =
        refs u pgdir q + if q = p then 1 else 0 := refs_hook taken inside absentU cleared own q
    have before : refs u pgdir q = refs s pgdir q := refs_congr dir entries q
    rw [hooked]
    by_cases same : q = p
    · subst same
      rw [if_pos rfl, unused, Nat.zero_add]
      exact Nat.le_max_left 1 _
    · rw [if_neg same, before, Nat.add_zero]
      exact Nat.le_max_right 1 _

end Walk

section Entries
variable {managed : Nat → Prop} {pgdir : Nat} {held : Option Nat} {s : Kernel}

/-- The word that holds the entry of page number `n`. -/
def entryLoc (s : Kernel) (pgdir n : Nat) : PteLoc :=
  ⟨frame (pde s pgdir (n / NPTENTRIES)), n % NPTENTRIES⟩

theorem pde_store_entry (acc : Accounted managed pgdir held s) {n : Nat} (user : n < userPages)
    (here : present (pde s pgdir (n / NPTENTRIES)) = true) (word d : Nat) :
    pde (s.store (entryLoc s pgdir n) word) pgdir d = pde s pgdir d := by
  have own := (acc.tables_taken _ ⟨_, user_page_pde n user, here, rfl⟩).1
  have other : pgdir ≠ frame (pde s pgdir (n / NPTENTRIES)) :=
    fun same => acc.directory_unmanaged (same ▸ own)
  simp only [pde, mem_store, entryLoc]
  exact if_neg (fun both => other both.1)

theorem pte_store_entry (acc : Accounted managed pgdir held s) {n : Nat} (user : n < userPages)
    (here : present (pde s pgdir (n / NPTENTRIES)) = true) (word m : Nat) (inside : m < userPages) :
    pte (s.store (entryLoc s pgdir n) word) pgdir m = if m = n then word else pte s pgdir m := by
  simp only [pte, pde_store_entry acc user here word]
  by_cases same : m = n
  · subst same
    rw [if_pos here, mem_store, if_pos ⟨rfl,rfl⟩, if_pos rfl]
  · rw [if_neg same]
    split
    · rename_i flag
      rw [mem_store, if_neg]
      rintro ⟨table,index⟩
      have slot := acc.tables_distinct _ _ (user_page_pde m inside) (user_page_pde n user)
        flag here table
      simp only [entryLoc, NPTENTRIES] at slot index
      omega
    · rfl

theorem refs_store_entry (acc : Accounted managed pgdir held s) {n : Nat} (user : n < userPages)
    (here : present (pde s pgdir (n / NPTENTRIES)) = true) (word p : Nat) :
    refs (s.store (entryLoc s pgdir n) word) pgdir p + (if MapsTo s pgdir p n then 1 else 0) =
      refs s pgdir p + if present word = true ∧ frame word = p then 1 else 0 := by
  have change := refs_entry_change user
    (same_tables_of_eq fun d _ => pde_store_entry acc user here word d)
    (fun m inside other => by rw [pte_store_entry acc user here word m inside, if_neg other]) p
  have after : MapsTo (s.store (entryLoc s pgdir n) word) pgdir p n ↔
      present word = true ∧ frame word = p := by
    simp only [MapsTo, pte_store_entry acc user here word n user, ↓reduceIte]
  simp only [after] at change
  exact change

theorem load_entry {va : Nat} (user : va < UTOP)
    (here : present (pde s pgdir (pdx va)) = true) :
    s.load ⟨frame (pde s pgdir (pdx va)), ptx va⟩ = pte s pgdir (pgnum va) := by
  simp only [Kernel.load, pte, pgnum_div_eq_pdx va user, here, ↓reduceIte]
  rfl

end Entries

section Remove
variable {managed : Nat → Prop} {pgdir : Nat} {held : Option Nat} {s : Kernel}

/-- The state `page_decref` leaves for a page that is off the free list. -/
def release (s : Kernel) (p : Nat) : Kernel :=
  let lowered := s.setRef p (s.ref p + (2 ^ 16 - 1))
  if lowered.ref p = 0 then
    { lowered.setLink p lowered.pageFreeList with pageFreeList := some p }
  else lowered

theorem pageDecref_release {p : Nat} (unlinked : s.link p = none) : pageDecref s p = .ok (release s p) := by
  simp only [pageDecref, release]
  split
  · rename_i zero
    have off : (s.setRef p (s.ref p + (2 ^ 16 - 1))).link p = none := by
      rw [link_setRef]
      exact unlinked
    simp only [pageFree, zero, off]
    rfl
  · rfl

theorem release_mem (s : Kernel) (p : Nat) : (release s p).mem = s.mem := by
  simp only [release]
  split <;> rfl

theorem release_npages (s : Kernel) (p : Nat) : (release s p).npages = s.npages := by
  simp only [release]
  split <;> rfl

theorem release_ref (s : Kernel) (p : Nat) :
    (release s p).ref = Function.update s.ref p ((s.ref p + (2 ^ 16 - 1)) % 2 ^ 16) := by
  simp only [release]
  split
  · change (Kernel.setLink _ p _).ref = _
    rw [ref_setLink, ref_setRef]
  · rw [ref_setRef]

/-- A released page goes to the head of the free list when its count reaches zero. -/
theorem release_freed {nodes : List Nat} (chain : Chain s.link s.pageFreeList nodes) {p : Nat} (off : p ∉ nodes)
    (zero : (s.ref p + (2 ^ 16 - 1)) % 2 ^ 16 = 0) :
    Chain (release s p).link (release s p).pageFreeList (p :: nodes) ∧
    ∀ q, q ≠ p → (release s p).link q = s.link q := by
  have lowered : (s.setRef p (s.ref p + (2 ^ 16 - 1))).ref p =
      (s.ref p + (2 ^ 16 - 1)) % 2 ^ 16 := by simp
  simp only [release, lowered]
  rw [if_pos zero]
  have link : Kernel.link { Kernel.setLink (s.setRef p (s.ref p + (2 ^ 16 - 1))) p
      (s.setRef p (s.ref p + (2 ^ 16 - 1))).pageFreeList with pageFreeList := some p } =
      Function.update s.link p s.pageFreeList := by
    change (Kernel.setLink _ p _).link = _
    rw [link_setLink, link_setRef]
    rfl
  rw [link]
  exact ⟨chain_push chain off, fun q other => Function.update_of_ne other _ _⟩

theorem release_kept {p : Nat} (some : (s.ref p + (2 ^ 16 - 1)) % 2 ^ 16 ≠ 0) :
    (release s p).link = s.link ∧ (release s p).pageFreeList = s.pageFreeList := by
  have lowered : (s.setRef p (s.ref p + (2 ^ 16 - 1))).ref p =
      (s.ref p + (2 ^ 16 - 1)) % 2 ^ 16 := by simp
  simp only [release, lowered]
  rw [if_neg some]
  exact ⟨link_setRef s p _, rfl⟩

theorem release_lists (acc : Accounted managed pgdir held s) {p : Nat} (own : managed p)
    (taken : ¬ OnFreeList s p) :
    (∃ nodes, Chain (release s p).link (release s p).pageFreeList nodes ∧
      ∀ q ∈ nodes, managed q) ∧
    (∀ q, OnFreeList (release s p) q ↔
      OnFreeList s q ∨ (q = p ∧ (s.ref p + (2 ^ 16 - 1)) % 2 ^ 16 = 0)) ∧
    (∀ q, q ≠ p → (release s p).link q = s.link q) ∧
    (¬ OnFreeList (release s p) p → (release s p).link p = none) := by
  obtain ⟨nodes,chain,mine⟩ := acc.free_chain
  have off : p ∉ nodes := fun mem => taken ((on_chain_iff chain p).mpr mem)
  by_cases zero : (s.ref p + (2 ^ 16 - 1)) % 2 ^ 16 = 0
  · obtain ⟨pushed,links⟩ := release_freed chain off zero
    refine ⟨⟨p :: nodes, pushed, ?_⟩, ?_, links, ?_⟩
    · intro q mem
      rcases List.mem_cons.mp mem with same | mem
      · exact same ▸ own
      · exact mine q mem
    · intro q
      rw [OnFreeList, on_chain_iff pushed, OnFreeList, on_chain_iff chain, List.mem_cons]
      constructor
      · rintro (same | mem)
        · exact Or.inr ⟨same,zero⟩
        · exact Or.inl mem
      · rintro (mem | ⟨same,_⟩)
        · exact Or.inr mem
        · exact Or.inl same
    · intro out
      exact absurd ((on_chain_iff pushed p).mpr (by simp)) out
  · obtain ⟨link,head⟩ := release_kept zero
    simp only [OnFreeList, link, head]
    refine ⟨⟨nodes, chain, mine⟩, ?_, fun _ _ => trivial, fun _ => acc.taken_unlinked p own taken⟩
    intro q
    constructor
    · exact Or.inl
    · rintro (on | ⟨_,never⟩)
      · exact on
      · exact absurd never zero

theorem refs_pos_of_maps {n p : Nat} (user : n < userPages) (maps : MapsTo s pgdir p n) :
    0 < refs s pgdir p := by
  have : 0 < ((Finset.range userPages).filter (MapsTo s pgdir p)).card :=
    Finset.card_pos.mpr ⟨n, Finset.mem_filter.mpr ⟨Finset.mem_range.mpr user, maps⟩⟩
  simp only [refs]
  omega

theorem refs_pos_of_table {p : Nat} (table : IsTable s pgdir p) : 0 < refs s pgdir p := by
  obtain ⟨d,user,here⟩ := table
  have : 0 < ((Finset.range userPdes).filter (TableAt s pgdir p)).card :=
    Finset.card_pos.mpr ⟨d, Finset.mem_filter.mpr ⟨Finset.mem_range.mpr user, here⟩⟩
  simp only [refs]
  omega

/-- Clearing the entry of `n` and dropping its page. The page goes to the free list
    only when the cleared entry was its last reference. -/
theorem clear_entry_accounted (acc : Accounted managed pgdir held s) {n : Nat}
    (user : n < userPages) (here : present (pde s pgdir (n / NPTENTRIES)) = true)
    (mapped : present (pte s pgdir n) = true)
    (bounded : ∀ p, managed p → refs s pgdir p ≤ 65535) {t : Kernel}
    (npages : t.npages = s.npages)
    (mem : t.mem = (s.store (entryLoc s pgdir n) 0).mem)
    (pages : t.pages = (release s (frame (pte s pgdir n))).pages)
    (head : t.pageFreeList = (release s (frame (pte s pgdir n))).pageFreeList) :
    Accounted managed pgdir held t := by
  obtain ⟨own,taken⟩ := acc.frames_taken n user mapped
  have maps : MapsTo s pgdir (frame (pte s pgdir n)) n := ⟨mapped,rfl⟩
  generalize frame (pte s pgdir n) = p at *
  obtain ⟨chain,onlist,links,unlinked⟩ := release_lists acc own taken
  have link : t.link = (release s p).link := by
    funext q
    simp only [Kernel.link, pages]
  have ref : t.ref = (release s p).ref := by
    funext q
    simp only [Kernel.ref, pages]
  have on : ∀ q, OnFreeList t q ↔
      OnFreeList s q ∨ (q = p ∧ (s.ref p + (2 ^ 16 - 1)) % 2 ^ 16 = 0) := by
    intro q
    simp only [OnFreeList, link, head]
    exact onlist q
  have dir : ∀ d, pde t pgdir d = pde s pgdir d := by
    intro d
    rw [← pde_store_entry acc user here 0 d]
    simp only [pde, mem]
  have entries : ∀ m, m < userPages → pte t pgdir m = if m = n then 0 else pte s pgdir m := by
    intro m inside
    rw [← pte_store_entry acc user here 0 m inside]
    exact pte_of_mem mem pgdir m
  have count : ∀ q, refs t pgdir q + (if MapsTo s pgdir q n then 1 else 0) = refs s pgdir q := by
    intro q
    have change := refs_store_entry acc user here 0 q
    have same : refs t pgdir q = refs (s.store (entryLoc s pgdir n) 0) pgdir q := by
      refine refs_congr (same_tables_of_eq ?_) ?_ q
      · intro d _
        rw [dir, pde_store_entry acc user here]
      · intro m inside
        rw [entries m inside, pte_store_entry acc user here 0 m inside]
    rw [same]
    simpa [not_present_zero] using change
  have atPage : refs t pgdir p + 1 = refs s pgdir p := by
    have := count p
    simpa [maps] using this
  have elsewhere : ∀ q, q ≠ p → refs t pgdir q = refs s pgdir q := by
    intro q other
    have := count q
    have unmapped : ¬ MapsTo s pgdir q n := fun again => other (again.2.symm.trans maps.2)
    simpa [unmapped] using this
  have small := bounded p own
  have refP := acc.counted p own
  -- a count that reaches zero leaves no entry, no table and no held page behind
  have last : (s.ref p + (2 ^ 16 - 1)) % 2 ^ 16 = 0 → refs t pgdir p = 0 ∧ held ≠ some p := by
    intro zero
    by_cases isHeld : held = some p
    · simp only [isHeld, ↓reduceIte] at refP
      omega
    · simp only [isHeld, ↓reduceIte] at refP
      exact ⟨by omega, isHeld⟩
  have sameTables : SameTables s t pgdir := same_tables_of_eq (fun d _ => dir d)
  constructor
  · intro q hq
    rw [npages]
    exact acc.managed_in_memory q hq
  · exact acc.directory_unmanaged
  · rw [link, head]
    exact chain
  · intro q hq off
    rw [link]
    by_cases same : q = p
    · subst same
      refine unlinked (fun out => off ?_)
      rwa [OnFreeList, link, head]
    · rw [links q same]
      exact acc.taken_unlinked q hq (fun out => off ((on q).mpr (Or.inl out)))
  · intro q table
    obtain ⟨hq,out⟩ := acc.tables_taken q (is_table_congr sameTables table)
    refine ⟨hq, fun back => ?_⟩
    rcases (on q).mp back with old | ⟨same,zero⟩
    · exact out old
    · subst same
      have := refs_pos_of_table table
      have := (last zero).1
      omega
  · intro d e hd he
    rw [dir, dir]
    exact acc.tables_distinct d e hd he
  · intro m inside flag
    have other : m ≠ n := by
      intro same
      rw [entries m inside, if_pos same, not_present_zero] at flag
      simp at flag
    have entry := entries m inside
    rw [if_neg other] at entry
    have image : MapsTo t pgdir (frame (pte t pgdir m)) m := ⟨flag,rfl⟩
    rw [entry] at flag ⊢
    obtain ⟨hq,out⟩ := acc.frames_taken m inside flag
    refine ⟨hq, fun back => ?_⟩
    rcases (on _).mp back with old | ⟨same,zero⟩
    · exact out old
    · rw [entry, same] at image
      have := refs_pos_of_maps inside image
      have := (last zero).1
      omega
  · intro q hq
    obtain ⟨mine,out⟩ := acc.held_taken q hq
    refine ⟨mine, fun back => ?_⟩
    rcases (on q).mp back with old | ⟨same,zero⟩
    · exact out old
    · exact (last zero).2 (same ▸ hq)
  · intro q hq
    rw [ref, release_ref]
    by_cases same : q = p
    · subst same
      rw [Function.update_self, refP]
      split <;> omega
    · rw [Function.update_of_ne same, elsewhere q same]
      exact acc.counted q hq

/-- `page_remove` never panics and leaves the entry of `va` absent. -/
theorem pageRemove_spec (acc : Accounted managed pgdir held s) {va : Nat} (user : va < UTOP)
    (bounded : ∀ p, managed p → refs s pgdir p ≤ 65535) :
    ∃ t, pageRemove s pgdir va = .ok t ∧ Accounted managed pgdir held t ∧
      (∀ d, pde t pgdir d = pde s pgdir d) ∧
      ∀ n, n < userPages → pte t pgdir n = if n = pgnum va ∧ present (pte s pgdir n) = true then 0
        else pte s pgdir n := by
  by_cases here : present (pde s pgdir (pdx va)) = true
  · have found := pgdirWalk_found acc user here false
    have word := load_entry user here
    by_cases mapped : present (pte s pgdir (pgnum va)) = true
    · have inside := pgnum_lt_user va user
      have slot : present (pde s pgdir (pgnum va / NPTENTRIES)) = true := by
        rwa [pgnum_div_eq_pdx va user]
      have own := acc.frames_taken _ inside mapped
      have page : pa2page s (pteAddr (pte s pgdir (pgnum va))) =
          .ok (frame (pte s pgdir (pgnum va))) := by
        have small := acc.managed_in_memory _ own.1
        simp only [pa2page]
        rw [if_neg (by simp only [frame] at small; omega)]
        rfl
      have loc : (⟨frame (pde s pgdir (pdx va)), ptx va⟩ : PteLoc) =
          entryLoc s pgdir (pgnum va) := by
        simp only [entryLoc, pgnum_div_eq_pdx va user, pgnum_mod_eq_ptx]
      have drop := pageDecref_release (acc.taken_unlinked _ own.1 own.2)
      have cleared : (tlbInvalidate ((release s (frame (pte s pgdir (pgnum va)))).store
          (entryLoc s pgdir (pgnum va)) 0) va).mem =
          (s.store (entryLoc s pgdir (pgnum va)) 0).mem := by
        funext q i
        change ((release s _).store _ 0).mem q i = _
        rw [mem_store, mem_store, release_mem]
      refine ⟨tlbInvalidate ((release s (frame (pte s pgdir (pgnum va)))).store
        (entryLoc s pgdir (pgnum va)) 0) va, ?_, ?_, ?_, ?_⟩
      · simp only [pageRemove, pageLookup, found]
        change ((if present (s.load ⟨frame (pde s pgdir (pdx va)), ptx va⟩) = true then _ else _) >>= _)
          = _
        rw [word, if_pos mapped, page, ← loc]
        change (pageDecref s (frame (pte s pgdir (pgnum va))) >>= _) = _
        rw [drop]
        rfl
      · exact clear_entry_accounted acc inside slot mapped bounded (release_npages s _) cleared
          rfl rfl
      · intro d
        rw [← pde_store_entry acc inside slot 0 d]
        simp only [pde, cleared]
      · intro n hn
        rw [pte_of_mem cleared, pte_store_entry acc inside slot 0 n hn]
        by_cases same : n = pgnum va
        · simp [same, mapped]
        · simp [same]
    · refine ⟨s, ?_, acc, fun _ => rfl, ?_⟩
      · simp only [pageRemove, pageLookup, found]
        change ((if present (s.load ⟨frame (pde s pgdir (pdx va)), ptx va⟩) = true then _ else _) >>= _)
          = _
        rw [word, if_neg mapped]
        rfl
      · intro n _
        rw [if_neg]
        rintro ⟨same,flag⟩
        exact mapped (same ▸ flag)
  · have absent : present (pde s pgdir (pdx va)) = false := by simpa using here
    refine ⟨s, ?_, acc, fun _ => rfl, ?_⟩
    · simp only [pageRemove, pageLookup, pgdirWalk_absent absent]
      rfl
    · intro n _
      rw [if_neg]
      rintro ⟨same,flag⟩
      simp [pte, same, pgnum_div_eq_pdx va user, absent, not_present_zero] at flag

end Remove

section Insert
variable {managed : Nat → Prop} {pgdir : Nat} {s : Kernel}

theorem hold_accounted (acc : Accounted managed pgdir none s) {p : Nat} (own : managed p)
    (taken : ¬ OnFreeList s p) :
    Accounted managed pgdir (some p) (s.setRef p (s.ref p + 1)) := by
  have link : (s.setRef p (s.ref p + 1)).link = s.link := link_setRef s p _
  have on : ∀ q, OnFreeList (s.setRef p (s.ref p + 1)) q ↔ OnFreeList s q := by
    intro q
    rw [OnFreeList, link]
    rfl
  constructor
  · exact acc.managed_in_memory
  · exact acc.directory_unmanaged
  · rw [link]
    exact acc.free_chain
  · intro q hq off
    rw [link]
    exact acc.taken_unlinked q hq (fun out => off ((on q).mpr out))
  · intro q table
    rw [on]
    exact acc.tables_taken q table
  · exact acc.tables_distinct
  · intro n user here
    rw [on]
    exact acc.frames_taken n user here
  · intro q same
    rw [on]
    have : p = q := by simpa using same
    exact this ▸ ⟨own,taken⟩
  · intro q hq
    have count := acc.counted q hq
    rw [ref_setRef]
    change _ = (refs s pgdir q + _) % 2 ^ 16
    by_cases same : q = p
    · subst same
      simp only [reduceCtorEq, ↓reduceIte, Nat.add_zero] at count
      rw [Function.update_self, if_pos rfl, count]
      omega
    · have other : ¬ (some p = some q) := fun eq => same (by simpa using eq.symm)
      rw [Function.update_of_ne same, count]
      simp [other]

/-- Writing the entry of the held page settles its count. -/
theorem fill_entry_accounted {p : Nat} (acc : Accounted managed pgdir (some p) s) {n : Nat}
    (user : n < userPages) (here : present (pde s pgdir (n / NPTENTRIES)) = true)
    (vacant : present (pte s pgdir n) = false) {word : Nat} (flag : present word = true)
    (target : frame word = p) :
    Accounted managed pgdir none (s.store (entryLoc s pgdir n) word) := by
  obtain ⟨own,taken⟩ := acc.held_taken p rfl
  have dir := pde_store_entry acc user here word
  have sameTables : SameTables s (s.store (entryLoc s pgdir n) word) pgdir :=
    same_tables_of_eq (fun d _ => dir d)
  constructor
  · exact acc.managed_in_memory
  · exact acc.directory_unmanaged
  · exact acc.free_chain
  · exact acc.taken_unlinked
  · intro q table
    exact acc.tables_taken q (is_table_congr sameTables table)
  · intro d e hd he
    rw [dir, dir]
    exact acc.tables_distinct d e hd he
  · intro m inside
    rw [pte_store_entry acc user here word m inside]
    split
    · intro _
      rw [target]
      exact ⟨own,taken⟩
    · exact acc.frames_taken m inside
  · intro q none
    simp at none
  · intro q hq
    have change := refs_store_entry acc user here word q
    have before : ¬ MapsTo s pgdir q n := by
      rintro ⟨again,_⟩
      simp [vacant] at again
    simp only [before, flag, target, true_and, ↓reduceIte] at change
    have count := acc.counted q hq
    change s.ref q = _
    rw [count]
    simp only [Option.some.injEq, reduceCtorEq, ↓reduceIte, Nat.add_zero] at change ⊢
    rw [change]

theorem or_pde_accounted (acc : Accounted managed pgdir none s) {d perm : Nat}
    (here : present (pde s pgdir d) = true) (low : perm < PGSIZE) :
    Accounted managed pgdir none (s.store ⟨pgdir, d⟩ (s.load ⟨pgdir, d⟩ ||| perm)) := by
  have dir : SameTables s (s.store ⟨pgdir, d⟩ (s.load ⟨pgdir, d⟩ ||| perm)) pgdir := by
    intro e _
    simp only [pde, mem_store, true_and]
    by_cases same : e = d
    · subst same
      rw [if_pos rfl]
      exact ⟨(present_or _ _ here).trans here.symm, frame_or_flags _ _ low⟩
    · rw [if_neg same]
      exact ⟨rfl,rfl⟩
  refine acc.transport rfl dir (pte_congr dir ?_) (fun _ _ => rfl) acc.free_chain
    acc.taken_unlinked (fun _ on => on)
  intro q table
  have other : q ≠ pgdir := fun same => acc.directory_unmanaged (same ▸ (acc.tables_taken q table).1)
  funext i
  rw [mem_store, if_neg (fun both => other both.1)]

/-- `page_insert` never panics; without a table and without a free page it changes
    nothing, else the page is counted once more and mapped at `va`. -/
theorem pageInsert_spec (acc : Accounted managed pgdir none s) {p va perm : Nat}
    (user : va < UTOP) (own : managed p) (taken : ¬ OnFreeList s p) (low : perm < PGSIZE)
    (bounded : ∀ p, managed p → refs s pgdir p ≤ 65535) :
    pageInsert s pgdir p va perm = .ok (false, s) ∨
    ∃ t, pageInsert s pgdir p va perm = .ok (true, t) ∧ Accounted managed pgdir none t := by
  obtain ⟨_,_,failed⟩ | ⟨u,walked,here,accU,_,fewer,grown⟩ := pgdirWalk_create_spec acc user
  · left
    simp only [pageInsert, failed]
    rfl
  right
  have takenU : ¬ OnFreeList u p := fun on => taken (fewer p on)
  have accH := hold_accounted accU own takenU
  let h : Kernel := u.setRef p (u.ref p + 1)
  have inside := pgnum_lt_user va user
  have word : h.load ⟨frame (pde u pgdir (pdx va)), ptx va⟩ = pte h pgdir (pgnum va) :=
    load_entry user here
  -- the entry of `va` is vacant once `page_remove` has run, if it had to
  have vacate : ∃ v, (if present (h.load ⟨frame (pde u pgdir (pdx va)), ptx va⟩) then
        pageRemove h pgdir va else .ok h) = .ok v ∧ Accounted managed pgdir (some p) v ∧
      (∀ d, pde v pgdir d = pde h pgdir d) ∧ present (pte v pgdir (pgnum va)) = false := by
    rw [word]
    by_cases mapped : present (pte h pgdir (pgnum va)) = true
    · have boundedH : ∀ q, managed q → refs h pgdir q ≤ 65535 := by
        intro q hq
        have := grown q
        have := bounded q hq
        change refs u pgdir q ≤ 65535
        omega
      obtain ⟨v,run,accV,dir,entries⟩ := pageRemove_spec accH user boundedH
      refine ⟨v, ?_, accV, dir, ?_⟩
      · rw [if_pos mapped]
        exact run
      · rw [entries _ inside, if_pos ⟨rfl,mapped⟩, not_present_zero]
    · exact ⟨h, by rw [if_neg mapped], accH, fun _ => rfl, by simpa using mapped⟩
  obtain ⟨v,run,accV,dir,vacant⟩ := vacate
  have slot : present (pde v pgdir (pgnum va / NPTENTRIES)) = true := by
    rw [pgnum_div_eq_pdx va user, dir]
    exact here
  have loc : (⟨frame (pde u pgdir (pdx va)), ptx va⟩ : PteLoc) = entryLoc v pgdir (pgnum va) := by
    simp only [entryLoc, pgnum_div_eq_pdx va user, pgnum_mod_eq_ptx, dir]
    rfl
  have accF := fill_entry_accounted accV inside slot vacant (present_user_entry (page2pa p) perm)
    (frame_user_entry p perm low)
  have slotF : present (pde (v.store (entryLoc v pgdir (pgnum va))
      (page2pa p ||| perm ||| PTE_P)) pgdir (pdx va)) = true := by
    rw [pde_store_entry accV inside slot, dir]
    exact here
  refine ⟨_, ?_, or_pde_accounted accF slotF low⟩
  simp only [pageInsert, walked]
  change ((if present (h.load ⟨frame (pde u pgdir (pdx va)), ptx va⟩) then
        pageRemove h pgdir va else .ok h) >>= _) = _
  rw [run, loc]
  rfl

end Insert
end JosPmap
