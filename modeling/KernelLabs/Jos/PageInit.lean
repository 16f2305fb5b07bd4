import KernelLabs.Jos.PageRefs

/-!
The loop of `page_init` (lab-3 `kern/pmap.c`) for any memory: `npages` pages in all,
`npages_basemem` of them reported below the I/O hole, and `PADDR(boot_alloc(0))` as the end of
the kernel and its first data structures. The loop lists exactly the pages whose branch frees
them, each once.
-/
namespace JosPmap
open LinkedList

theorem io_page : IOPHYSMEM / PGSIZE = 160 := by decide

theorem ext_page : EXTPHYSMEM / PGSIZE = 256 := by decide

/-- The branch taken for page `i ≥ 1`: is the page put on the free list? -/
def pageFreed (npagesBasemem bootEnd i : Nat) : Bool :=
  if i < npagesBasemem then true
  else if i ≥ IOPHYSMEM / PGSIZE ∧ i < EXTPHYSMEM / PGSIZE then false
  else if i ≥ EXTPHYSMEM / PGSIZE ∧ i < bootEnd / PGSIZE then false
  else true

def initPage (freed : Bool) (s : Kernel) (i : Nat) : Kernel :=
  if freed then { (s.setRef i 0).setLink i s.pageFreeList with pageFreeList := some i }
  else s.setRef i 1

def initPages (freed : Nat → Bool) (s : Kernel) : Nat → Nat → Kernel
  | _, 0 => s
  | i, count + 1 => initPages freed (initPage (freed i) s i) (i + 1) count

/-- `page_init` on the `pages` array that `mem_init` has cleared. -/
def pageInitWith (npages npagesBasemem bootEnd : Nat) (mem : Nat → Nat → Nat) (tlb : Nat → Option Nat) : Kernel :=
  let cleared : Kernel := ⟨npages, fun _ => ⟨none, 0⟩, none, mem, tlb⟩
  initPages (pageFreed npagesBasemem bootEnd) (cleared.setRef 0 1) 1 (npages - 1)

/-- Loop invariant when pages below `i` have been visited. -/
structure PagesInit (freed : Nat → Bool) (npages i : Nat) (s : Kernel) : Prop where
  npages : s.npages = npages
  listed : ∃ nodes, Chain s.link s.pageFreeList nodes ∧ ∀ p, p ∈ nodes ↔ 1 ≤ p ∧ p < i ∧ freed p = true
  unlinked : ∀ p, ¬ (1 ≤ p ∧ p < i ∧ freed p = true) → s.link p = none
  free_ref : ∀ p, 1 ≤ p → p < i → freed p = true → s.ref p = 0
  used_ref : ∀ p, p < i → ¬ (1 ≤ p ∧ freed p = true) → s.ref p = 1

section Loop
variable {freed : Nat → Bool} {npages i : Nat} {s : Kernel}

theorem initPage_init (inv : PagesInit freed npages i s) (first : 1 ≤ i) :
    PagesInit freed npages (i + 1) (initPage (freed i) s i) := by
  obtain ⟨nodes,chain,members⟩ := inv.listed
  have off : i ∉ nodes := fun mem => by
    have := ((members i).mp mem).2.1
    omega
  simp only [initPage]
  by_cases free : freed i = true
  · rw [if_pos free]
    have link : Kernel.link { Kernel.setLink (s.setRef i 0) i s.pageFreeList with
        pageFreeList := some i } = Function.update s.link i s.pageFreeList := by
      change (Kernel.setLink _ i _).link = _
      rw [link_setLink, link_setRef]
    have ref : Kernel.ref { Kernel.setLink (s.setRef i 0) i s.pageFreeList with
        pageFreeList := some i } = Function.update s.ref i 0 := by
      change (Kernel.setLink _ i _).ref = _
      rw [ref_setLink, ref_setRef]
      rfl
    constructor
    · exact inv.npages
    · refine ⟨i :: nodes, ?_, ?_⟩
      · rw [link]
        exact chain_push chain off
      · intro p
        rw [List.mem_cons, members]
        constructor
        · rintro (same | ⟨low,high,chosen⟩)
          · subst same
            exact ⟨first, by omega, free⟩
          · exact ⟨low, by omega, chosen⟩
        · rintro ⟨low,high,chosen⟩
          by_cases same : p = i
          · exact Or.inl same
          · exact Or.inr ⟨low, by omega, chosen⟩
    · intro p out
      have other : p ≠ i := fun same => out ⟨by omega, by omega, same ▸ free⟩
      rw [link, Function.update_of_ne other]
      refine inv.unlinked p (fun inside => out ⟨inside.1, by omega, inside.2.2⟩)
    · intro p low high chosen
      rw [ref]
      by_cases same : p = i
      · simp [same]
      · rw [Function.update_of_ne same]
        exact inv.free_ref p low (by omega) chosen
    · intro p high used
      have other : p ≠ i := fun same => used ⟨by omega, same ▸ free⟩
      rw [ref, Function.update_of_ne other]
      exact inv.used_ref p (by omega) used
  · rw [if_neg free]
    have link : (s.setRef i 1).link = s.link := link_setRef s i 1
    have ref : (s.setRef i 1).ref = Function.update s.ref i 1 := ref_setRef s i 1
    have notFree : ∀ p, 1 ≤ p ∧ p < i + 1 ∧ freed p = true ↔
        1 ≤ p ∧ p < i ∧ freed p = true := by
      intro p
      constructor
      · rintro ⟨low,high,chosen⟩
        have other : p ≠ i := fun same => free (same ▸ chosen)
        exact ⟨low, by omega, chosen⟩
      · rintro ⟨low,high,chosen⟩
        exact ⟨low, by omega, chosen⟩
    constructor
    · exact inv.npages
    · refine ⟨nodes, ?_, ?_⟩
      · rw [link]
        exact chain
      · intro p
        rw [members, notFree]
    · intro p out
      rw [link]
      exact inv.unlinked p (fun inside => out ((notFree p).mpr inside))
    · intro p low high chosen
      have other : p ≠ i := fun same => free (same ▸ chosen)
      rw [ref, Function.update_of_ne other]
      exact inv.free_ref p low (by omega) chosen
    · intro p high used
      rw [ref]
      by_cases same : p = i
      · simp [same]
      · rw [Function.update_of_ne same]
        exact inv.used_ref p (by omega) used

theorem initPages_init (count : Nat) (inv : PagesInit freed npages i s) (first : 1 ≤ i) :
    PagesInit freed npages (i + count) (initPages freed s i count) := by
  induction count generalizing i s with
  | zero => exact inv
  | succ count ih =>
    have next := ih (initPage_init inv first) (by omega)
    have sum : i + (count + 1) = i + 1 + count := by omega
    rw [initPages, sum]
    exact next

theorem initPages_start (freed : Nat → Bool) (npages : Nat) (mem : Nat → Nat → Nat) (tlb : Nat → Option Nat) :
    PagesInit freed npages 1 (Kernel.setRef ⟨npages, fun _ => ⟨none, 0⟩, none, mem, tlb⟩ 0 1) := by
  constructor
  · rfl
  · refine ⟨[], rfl, ?_⟩
    intro p
    simp only [List.not_mem_nil, false_iff]
    omega
  · intro p _
    rw [link_setRef]
    rfl
  · intro p low high
    omega
  · intro p high _
    have zero : p = 0 := by omega
    rw [ref_setRef, zero, Function.update_self]
    rfl

theorem pageInitWith_loop {npages : Nat} (npagesBasemem bootEnd : Nat) (mem : Nat → Nat → Nat) (tlb : Nat → Option Nat)
    (some : 1 ≤ npages) :
    PagesInit (pageFreed npagesBasemem bootEnd) npages npages (pageInitWith npages npagesBasemem bootEnd mem tlb) := by
  have run := initPages_init (npages - 1) (initPages_start (pageFreed npagesBasemem bootEnd) npages mem tlb) (by omega)
  rw [show 1 + (npages - 1) = npages by omega] at run
  exact run

theorem initPages_mem (freed : Nat → Bool) (s : Kernel) (i count : Nat) : (initPages freed s i count).mem = s.mem := by
  induction count generalizing i s with
  | zero => rfl
  | succ count ih =>
    rw [initPages, ih]
    simp only [initPage]
    split <;> rfl

end Loop

section Boot

theorem freed_eq (b : Boot) : b.freed = pageFreed b.npagesBasemem (page2pa b.bootNext) := by
  funext i
  have pages : page2pa b.bootNext / PGSIZE = b.bootNext := Nat.mul_div_cancel _ (by decide)
  rw [pageFreed, pages]
  rfl

theorem pageInitFrom_eq (b : Boot) (s : Kernel) (i count : Nat) :
    pageInitFrom b s i count = initPages b.freed s i count := by
  induction count generalizing i s with
  | zero => rfl
  | succ count ih =>
    rw [pageInitFrom, ih]
    rfl

theorem pageInit_eq (b : Boot) (mem : Nat → Nat → Nat) (tlb : Nat → Option Nat) :
    pageInit b mem tlb = pageInitWith b.npages b.npagesBasemem (page2pa b.bootNext) mem tlb := by
  rw [pageInit, pageInitFrom_eq, freed_eq]
  rfl

end Boot

/-- The list holds the pages of base memory but the first, and those that start at or after the
    end of the boot allocations, each once, and every other page is in use. -/
def InitRight (npages npagesBasemem bootEnd : Nat) (s : Kernel) : Prop :=
  ∃ nodes, Chain s.link s.pageFreeList nodes ∧ nodes.Nodup ∧
    (∀ i, i ∈ nodes ↔ i < npages ∧ (1 ≤ i ∧ i < npagesBasemem ∨ bootEnd ≤ page2pa i)) ∧
    ∀ i, i < npages → i ∉ nodes → s.ref i = 1

/-- Pages from the reported end of base memory up to the I/O hole fall through to the last
    branch, so the list is right exactly when base memory reaches the hole. -/
theorem page_init_right_iff (npages npagesBasemem bootEnd : Nat) (mem : Nat → Nat → Nat) (tlb : Nat → Option Nat)
    (base : npagesBasemem ≤ IOPHYSMEM / PGSIZE) (kernel : EXTPHYSMEM ≤ bootEnd) (inside : bootEnd < npages * PGSIZE)
    (aligned : PGSIZE ∣ bootEnd) :
    InitRight npages npagesBasemem bootEnd (pageInitWith npages npagesBasemem bootEnd mem tlb) ↔
      npagesBasemem = IOPHYSMEM / PGSIZE := by
  have end_page : 256 ≤ bootEnd / PGSIZE ∧ bootEnd / PGSIZE < npages := by
    unfold EXTPHYSMEM PGSIZE at *
    omega
  obtain ⟨_,⟨nodes,chain,members⟩,_,_,used⟩ := pageInitWith_loop npagesBasemem bootEnd mem tlb (by omega : 1 ≤ npages)
  have after : ∀ i, bootEnd ≤ page2pa i ↔ bootEnd / PGSIZE ≤ i := by
    intro i
    obtain ⟨k,rfl⟩ := aligned
    unfold page2pa PGSIZE
    omega
  simp only [io_page, ext_page, pageFreed] at *
  constructor
  · rintro ⟨others,again,_,right,_⟩
    rw [chain_unique again chain] at right
    by_contra less
    have hole : max 1 npagesBasemem ∈ nodes := by
      rw [members, if_neg (by omega), if_neg (by omega), if_neg (by omega)]
      exact ⟨by omega, by omega, rfl⟩
    have := (right _).mp hole
    rw [after] at this
    omega
  · intro full
    have chosen : ∀ i, i ∈ nodes ↔ i < npages ∧ (1 ≤ i ∧ i < npagesBasemem ∨ bootEnd ≤ page2pa i) := by
      intro i
      rw [members, after]
      split
      · simp only [and_true]
        omega
      · split
        · simp only [Bool.false_eq_true, and_false, false_iff]
          omega
        · split
          · simp only [Bool.false_eq_true, and_false, false_iff]
            omega
          · simp only [and_true]
            omega
    refine ⟨nodes, chain, chain_nodup chain, chosen, fun i small out => used i small fun freed => out ?_⟩
    exact (members i).mpr ⟨freed.1, small, freed.2⟩

theorem page_init_right_full :
    InitRight 1024 160 0x120000 (pageInitWith 1024 160 0x120000 (fun _ _ => 0) fun _ => none) :=
  (page_init_right_iff 1024 160 0x120000 _ _ (by decide) (by decide) (by decide) (by decide)).mpr (by decide)

/-- With 639K of base memory the page at 636K, which the BIOS keeps, is on the free list. -/
theorem bios_page_freed :
    OnFreeList (pageInitWith 1024 159 0x120000 (fun _ _ => 0) fun _ => none) 159 ∧
    ¬ InitRight 1024 159 0x120000 (pageInitWith 1024 159 0x120000 (fun _ _ => 0) fun _ => none) := by
  obtain ⟨_,⟨nodes,chain,members⟩,_⟩ := pageInitWith_loop 159 0x120000 (fun _ _ => 0) (fun _ => none)
    (by decide : 1 ≤ 1024)
  have freed : 159 ∈ nodes := (members 159).mpr ⟨by decide, by decide, by decide⟩
  refine ⟨(on_chain_iff chain 159).mpr freed, ?_⟩
  rintro ⟨others,again,_,right,_⟩
  rw [chain_unique again chain] at right
  exact absurd ((right 159).mp freed) (by decide)

end JosPmap
