import Mathlib.Order.Interval.Finset.Nat
import KernelLabs.Jos.Directory
import KernelLabs.Jos.PageRuns

/-!
The kernel half of the address space (lab-3 `mem_init`, `boot_map_region` and
`check_kern_pgdir`). `pages` and `bootstack` are named by the physical pages where they
start; both are page aligned. A region is mapped by the `size/PGSIZE` pages that fit in it.
-/
namespace JosPmap
open LinkedList Counting

def PTSIZE : Nat := PGSIZE * NPTENTRIES
def N_PGSIZE : Nat := 4194304
def KERNBASE : Nat := 0xF0000000
def KSTACKTOP : Nat := KERNBASE
def KSTKSIZE : Nat := 8 * PGSIZE
def UPAGES : Nat := 0xef000000
def sizeofPageInfo : Nat := 8

def roundup (a n : Nat) : Nat := (a + n - 1) / n * n

/-- Panics of `mem_init`: those of the functions below it, its own, and failed assertions. -/
inductive BootPanic where
  | below (p : Panic)
  | failedToMapRegion
  | assertion (text : String)
  deriving DecidableEq, Repr

def raise {α : Type} : Except Panic α → Except BootPanic α
  | .ok a => .ok a
  | .error p => .error (.below p)

/-- The loop over 4MB pages: it writes directory entries. -/
def mapLarge (pgdir va pa perm : Nat) : Kernel → Nat → Nat → Kernel
  | s, _, 0 => s
  | s, i, count + 1 =>
    mapLarge pgdir va pa perm
      (s.store ⟨pgdir, pdx (va + i * N_PGSIZE)⟩ ((pa + i * N_PGSIZE) ||| perm ||| PTE_P)) (i + 1) count

def mapPages (pgdir va pa perm : Nat) : Kernel → Nat → Nat → Except BootPanic Kernel
  | s, _, 0 => .ok s
  | s, i, count + 1 => do
    match ← raise (pgdirWalk s pgdir (va + i * PGSIZE) true) with
    | (none, _) => throw .failedToMapRegion
    | (some pte, s) =>
      mapPages pgdir va pa perm (s.store pte ((pa + i * PGSIZE) ||| perm ||| PTE_P)) (i + 1) count

def bootMapRegion (fourMB : Bool) (s : Kernel) (pgdir va size pa perm : Nat) : Except BootPanic Kernel :=
  let s := if fourMB = true ∧ perm &&& PTE_PS ≠ 0 then mapLarge pgdir va pa perm s 0 (size / N_PGSIZE) else s
  mapPages pgdir va pa perm s 0 (size / PGSIZE)

/-- The three mappings of `mem_init`. -/
def memInitMaps (fourMB : Bool) (s : Kernel) (pgdir pages bootstack : Nat) : Except BootPanic Kernel := do
  let s ← bootMapRegion fourMB s pgdir UPAGES (s.npages * sizeofPageInfo) (page2pa pages) (PTE_U ||| PTE_P)
  let s ← bootMapRegion fourMB s pgdir (KSTACKTOP - KSTKSIZE) KSTKSIZE (page2pa bootstack) (PTE_W ||| PTE_P)
  bootMapRegion fourMB s pgdir KERNBASE (0xffffffff - KERNBASE) 0 (PTE_W ||| PTE_P)

/-- `~0` for an address without a translation. -/
def checkVa2pa (s : Kernel) (pgdir va : Nat) : Except Panic Nat :=
  let pde := s.mem pgdir (pdx va)
  if present pde = false then .ok 0xffffffff
  else if pde &&& PTE_PS ≠ 0 then .ok (pde &&& 0x3fffff ||| va &&& 0x3fffff)
  else do
    let p ← kaddr s (pteAddr pde)
    if present (s.mem p (ptx va)) = false then return 0xffffffff
    else return pteAddr (s.mem p (ptx va))

def assertThat (holds : Bool) (text : String) : Except BootPanic Unit :=
  if holds then .ok () else .error (.assertion text)

/-- The loops over the pages of a region. -/
def checkRegion (s : Kernel) (pgdir va pa : Nat) (text : String) : Nat → Nat → Except BootPanic Unit
  | _, 0 => .ok ()
  | i, count + 1 => do
    let pa' ← raise (checkVa2pa s pgdir (va + i * PGSIZE))
    assertThat (pa' == pa + i * PGSIZE) text
    checkRegion s pgdir va pa text (i + 1) count

def checkPde (s : Kernel) (pgdir i : Nat) : Except BootPanic Unit :=
  let pde := s.mem pgdir i
  if i = pdx UVPT ∨ i = pdx (KSTACKTOP - 1) ∨ i = pdx UPAGES then assertThat (present pde) "pgdir[i] & PTE_P"
  else if i ≥ pdx KERNBASE then do
    assertThat (present pde) "pgdir[i] & PTE_P"
    assertThat (pde &&& PTE_W != 0) "pgdir[i] & PTE_W"
  else assertThat (pde == 0) "pgdir[i] == 0"

def checkPdes (s : Kernel) (pgdir : Nat) : Nat → Nat → Except BootPanic Unit
  | _, 0 => .ok ()
  | i, count + 1 => do
    checkPde s pgdir i
    checkPdes s pgdir (i + 1) count

def checkKernPgdir (s : Kernel) (pgdir pages bootstack : Nat) : Except BootPanic Unit := do
  let n := roundup (s.npages * sizeofPageInfo) PGSIZE
  checkRegion s pgdir UPAGES (page2pa pages) "check_va2pa(pgdir, UPAGES + i) == PADDR(pages) + i" 0 (n / PGSIZE)
  checkRegion s pgdir KERNBASE 0 "check_va2pa(pgdir, KERNBASE + i) == i" 0 s.npages
  checkRegion s pgdir (KSTACKTOP - KSTKSIZE) (page2pa bootstack)
    "check_va2pa(pgdir, KSTACKTOP - KSTKSIZE + i) == PADDR(bootstack) + i" 0 (KSTKSIZE / PGSIZE)
  let guard ← raise (checkVa2pa s pgdir (KSTACKTOP - PTSIZE))
  assertThat (guard == 0xffffffff) "check_va2pa(pgdir, KSTACKTOP - PTSIZE) == ~0"
  checkPdes s pgdir 0 NPDENTRIES

/-- The directory entries that the kernel uses. -/
def KernelSlot (d : Nat) : Prop := d = pdx UPAGES ∨ d = pdx UVPT ∨ pdx (KSTACKTOP - 1) ≤ d

instance : DecidablePred KernelSlot := fun _ => inferInstanceAs (Decidable (_ ∨ _))

def presentPdes (s : Kernel) (pgdir : Nat) : Nat :=
  ((Finset.range NPDENTRIES).filter fun d => present (pde s pgdir d) = true).card

/-- There are 67 slots, one of them for `UVPT`; every other table was taken from the free
    list, which has enough pages left for the slots that are empty. -/
structure BootInv (pgdir : Nat) (s : Kernel) : Prop where
  room : ∃ nodes, Chain s.link s.pageFreeList nodes ∧ 67 ≤ nodes.length + presentPdes s pgdir ∧
    ∀ p ∈ nodes, p < s.npages ∧ p ≠ pgdir ∧ ∀ d, d < NPDENTRIES → present (pde s pgdir d) = true →
      frame (pde s pgdir d) ≠ p
  slots : ∀ d, d < NPDENTRIES → ¬ KernelSlot d → pde s pgdir d = 0
  vacant : ∀ d, d < NPDENTRIES → present (pde s pgdir d) = false → pde s pgdir d = 0
  self : pde s pgdir (pdx UVPT) = page2pa pgdir ||| PTE_U ||| PTE_P
  tables : ∀ d, d < NPDENTRIES → d ≠ pdx UVPT → present (pde s pgdir d) = true →
    pde s pgdir d = tableWord (frame (pde s pgdir d)) ∧ frame (pde s pgdir d) < s.npages ∧
    frame (pde s pgdir d) ≠ pgdir
  distinct : ∀ d e, d < NPDENTRIES → e < NPDENTRIES → d ≠ pdx UVPT → e ≠ pdx UVPT →
    present (pde s pgdir d) = true → present (pde s pgdir e) = true →
    frame (pde s pgdir d) = frame (pde s pgdir e) → d = e

theorem slots_card : ((Finset.range NPDENTRIES).filter KernelSlot).card = 67 := by decide +kernel

section Walk
variable {pgdir : Nat} {s : Kernel}

theorem BootInv.wellFormed (inv : BootInv pgdir s) : WellFormed pgdir s := by
  obtain ⟨nodes,chain,_,free⟩ := inv.room
  refine ⟨⟨⟨nodes,chain,free⟩, fun _ => ?_, fun d low away here => (inv.tables d low away here).2, inv.distinct⟩,
    fun d low away here => ?_⟩
  · rw [inv.self, frame_user_entry pgdir PTE_U (by decide)]
  · rw [(inv.tables d low away here).1, tableWord_small]

/-- An empty slot leaves a page for its table. -/
theorem BootInv.page_left (inv : BootInv pgdir s) {d : Nat} (low : d < NPDENTRIES) (slot : KernelSlot d)
    (absent : present (pde s pgdir d) = false) : ∃ p, s.pageFreeList = some p := by
  obtain ⟨nodes,chain,room,_⟩ := inv.room
  have fewer : presentPdes s pgdir < 67 := by
    rw [← slots_card]
    refine Finset.card_lt_card (Finset.ssubset_iff_of_subset ?_ |>.mpr ⟨d, ?_, ?_⟩)
    · intro e mem
      simp only [Finset.mem_filter, Finset.mem_range] at mem ⊢
      refine ⟨mem.1, ?_⟩
      by_contra out
      rw [inv.slots e mem.1 out, not_present_zero] at mem
      simp at mem
    · simp [low, slot]
    · simp [absent]
  cases nodes with
  | nil =>
    simp only [List.length_nil] at room
    omega
  | cons p rest => exact ⟨p, chain.1⟩

theorem presentPdes_withTable {d p : Nat} (low : d < NPDENTRIES) (absent : present (pde s pgdir d) = false)
    (other : p ≠ pgdir) : presentPdes (withTable s pgdir d p) pgdir = presentPdes s pgdir + 1 := by
  have change := card_filter_change (Finset.range NPDENTRIES) (fun e => present (pde s pgdir e) = true)
    (fun e => present (pde (withTable s pgdir d p) pgdir e) = true) (Finset.mem_range.mpr low) (by
      intro e _ away
      rw [pde_withTable d p e other, if_neg away])
  rw [pde_withTable d p d other, if_pos rfl, present_tableWord, absent] at change
  simp only [Bool.false_eq_true, ↓reduceIte, Nat.add_zero] at change
  exact change

theorem withTable_boot (inv : BootInv pgdir s) {d p : Nat} (low : d < NPDENTRIES) (slot : KernelSlot d)
    (away : d ≠ pdx UVPT) (absent : present (pde s pgdir d) = false) (head : s.pageFreeList = some p) :
    BootInv pgdir (withTable s pgdir d p) := by
  have wf := withTable_hooked inv.wellFormed.toHooked away head
  obtain ⟨small,other,_⟩ := inv.wellFormed.head_spare head
  have dir := fun e => pde_withTable (s := s) d p e other
  constructor
  · obtain ⟨nodes,chain,room,_⟩ := inv.room
    obtain ⟨rest,rfl,_,popped⟩ := take_head_chain chain head
    obtain ⟨left,walk,free⟩ := wf.free
    have same : left = rest := by
      rw [takeHead, link_setLink] at popped
      rw [link_withTable] at walk
      exact chain_unique walk popped
    subst same
    refine ⟨left, walk, ?_, free⟩
    rw [presentPdes_withTable low absent other]
    simp only [List.length_cons] at room
    omega
  · intro e inside out
    have differs : e ≠ d := fun same => out (same ▸ slot)
    rw [dir, if_neg differs]
    exact inv.slots e inside out
  · intro e inside gone
    rw [dir] at gone ⊢
    split
    · rename_i same
      rw [if_pos same, present_tableWord] at gone
      simp at gone
    · rename_i differs
      rw [if_neg differs] at gone
      exact inv.vacant e inside gone
  · rw [dir, if_neg (Ne.symm away)]
    exact inv.self
  · intro e inside window here
    rw [dir] at here ⊢
    split
    · rw [frame_tableWord]
      exact ⟨rfl,small,other⟩
    · rename_i differs
      rw [if_neg differs] at here
      exact inv.tables e inside window here
  · exact wf.distinct

/-- In a slot of the kernel `pgdir_walk` finds the entry, and makes its table if need be. -/
theorem walk_boot (inv : BootInv pgdir s) {va : Nat} (top : va < 2 ^ 32) (slot : KernelSlot (pdx va))
    (away : pdx va ≠ pdx UVPT) :
    ∃ t, pgdirWalk s pgdir va true = .ok (some (entryLoc t pgdir (pgnum va)), t) ∧ BootInv pgdir t ∧
      t.npages = s.npages ∧ present (pde t pgdir (pdx va)) = true ∧
      ∀ n, Plain n → pte t pgdir n = pte s pgdir n := by
  have wf := inv.wellFormed.toHooked
  obtain ⟨absent,empty,_⟩ | ⟨t,walked,run⟩ := walk_create wf top away
  · obtain ⟨p,head⟩ := inv.page_left (pdx_lt va) slot absent
    rw [empty] at head
    cases head
  refine ⟨t, run, ?_, walked.npages, walked.here wf, fun n plain => walked.pte wf plain⟩
  cases walked with
  | found here => exact inv
  | made p absent head => exact withTable_boot inv (pdx_lt va) slot away absent head

/-- Writing an entry changes no directory entry and no other page. -/
theorem store_boot (inv : BootInv pgdir s) {n : Nat} (plain : Plain n)
    (here : present (pde s pgdir (n / NPTENTRIES)) = true) (word : Nat) :
    BootInv pgdir (s.store (entryLoc s pgdir n) word) ∧
    ∀ m, Plain m → pte (s.store (entryLoc s pgdir n) word) pgdir m = if m = n then word else pte s pgdir m := by
  have wf := inv.wellFormed
  have dir := wf.pde_store plain here word
  refine ⟨?_, fun m inside => wf.pte_store plain here word inside⟩
  obtain ⟨room,slots,vacant,self,tables,distinct⟩ := inv
  constructor
  · simp only [presentPdes, dir]
    exact room
  · simp only [dir]
    exact slots
  · simp only [dir]
    exact vacant
  · simp only [dir]
    exact self
  · simp only [dir]
    exact tables
  · simp only [dir]
    exact distinct

end Walk

section Regions
variable {pgdir : Nat} {s : Kernel}

/-- Pages that a region of the kernel may have. -/
def InKernel (n : Nat) : Prop := n < 2 ^ 20 ∧ KernelSlot (n / NPTENTRIES) ∧ n / NPTENTRIES ≠ pdx UVPT

theorem InKernel.plain {n : Nat} (inside : InKernel n) : Plain n := by
  refine ⟨?_, inside.2.2⟩
  have := inside.1
  simp only [NPTENTRIES, NPDENTRIES]
  omega

theorem page_pdx (q i : Nat) (low : q + i < 2 ^ 20) : pdx (page2pa q + i * PGSIZE) = (q + i) / NPTENTRIES ∧
    pgnum (page2pa q + i * PGSIZE) = q + i ∧ page2pa q + i * PGSIZE < 2 ^ 32 := by
  simp only [pdx, page2pa, pgnum, PGSIZE, NPTENTRIES]
  omega

/-- The loop of `boot_map_region`, from page `q` of the address space to page `p` of memory. -/
theorem mapPages_boot (q p perm count i : Nat) (inv : BootInv pgdir s)
    (inside : ∀ j, i ≤ j → j < i + count → InKernel (q + j)) :
    ∃ t, mapPages pgdir (page2pa q) (page2pa p) perm s i count = .ok t ∧ BootInv pgdir t ∧
      t.npages = s.npages ∧ ∀ n, Plain n → pte t pgdir n =
        if q + i ≤ n ∧ n < q + i + count then page2pa (p + (n - q)) ||| perm ||| PTE_P else pte s pgdir n := by
  induction count generalizing i s with
  | zero =>
    refine ⟨s, rfl, inv, rfl, fun n _ => ?_⟩
    rw [if_neg (by omega)]
  | succ count ih =>
    have first := inside i (Nat.le_refl i) (by omega)
    obtain ⟨slot,number,top⟩ := page_pdx q i first.1
    obtain ⟨u,walked,invU,npages,here,same⟩ := walk_boot inv top (slot ▸ first.2.1) (slot ▸ first.2.2)
    rw [slot] at here
    rw [number] at walked
    obtain ⟨invV,stored⟩ := store_boot invU first.plain here (page2pa p + i * PGSIZE ||| perm ||| PTE_P)
    obtain ⟨t,run,invT,size,entries⟩ := ih (i + 1) invV fun j low high => inside j (by omega) (by omega)
    refine ⟨t, ?_, invT, size.trans npages, fun n plain => ?_⟩
    · simp only [mapPages, walked, raise]
      exact run
    · rw [entries n plain, stored n plain, same n plain]
      by_cases here : n = q + i
      · subst here
        have word : page2pa p + i * PGSIZE = page2pa (p + (q + i - q)) := by
          simp only [page2pa, PGSIZE]
          omega
        rw [if_neg (by omega), if_pos rfl, if_pos (by omega), word]
      · by_cases later : q + (i + 1) ≤ n ∧ n < q + (i + 1) + count
        · rw [if_pos later, if_pos (by omega)]
        · rw [if_neg later, if_neg here, if_neg (by omega)]

theorem bootMapRegion_eq (fourMB : Bool) (va size pa : Nat) {perm : Nat} (small : perm &&& PTE_PS = 0) :
    bootMapRegion fourMB s pgdir va size pa perm = mapPages pgdir va pa perm s 0 (size / PGSIZE) := by
  unfold bootMapRegion
  rw [if_neg (by simp [small])]

/-- The entries that the three mappings leave; those of page `n` of the address space. -/
def layoutEntry (npages pages bootstack n : Nat) : Nat :=
  if 0xf0000 ≤ n ∧ n < 0xf0000 + 65535 then page2pa (n - 0xf0000) ||| (PTE_W ||| PTE_P) ||| PTE_P
  else if 0xefff8 ≤ n ∧ n < 0xefff8 + 8 then page2pa (bootstack + (n - 0xefff8)) ||| (PTE_W ||| PTE_P) ||| PTE_P
  else if 0xef000 ≤ n ∧ n < 0xef000 + npages / 512 then page2pa (pages + (n - 0xef000)) ||| (PTE_U ||| PTE_P) ||| PTE_P
  else 0

theorem kernel_slot_iff (d : Nat) : KernelSlot d ↔ d = 956 ∨ d = 957 ∨ 959 ≤ d := by
  have pages : pdx UPAGES = 956 := by decide
  have stack : pdx (KSTACKTOP - 1) = 959 := by decide
  rw [KernelSlot, pages, stack, uvpt_slot]

theorem inKernel_of {n : Nat} (low : 0xef000 ≤ n) (high : n < 2 ^ 20) (away : n < 0xef400 ∨ 0xefc00 ≤ n) :
    InKernel n := by
  refine ⟨high, ?_, ?_⟩
  · rw [kernel_slot_iff, NPTENTRIES]
    omega
  · rw [uvpt_slot, NPTENTRIES]
    omega

theorem memInitMaps_spec (fourMB : Bool) (pages bootstack : Nat) (inv : BootInv pgdir s)
    (empty : ∀ n, Plain n → pte s pgdir n = 0) (window : s.npages ≤ 65536) :
    ∃ t, memInitMaps fourMB s pgdir pages bootstack = .ok t ∧ BootInv pgdir t ∧ t.npages = s.npages ∧
      ∀ n, Plain n → pte t pgdir n = layoutEntry s.npages pages bootstack n := by
  have size : s.npages * sizeofPageInfo / PGSIZE = s.npages / 512 := by
    simp only [sizeofPageInfo, PGSIZE]
    omega
  obtain ⟨u,first,invU,npU,entriesU⟩ := mapPages_boot 0xef000 pages (PTE_U ||| PTE_P) (s.npages / 512) 0 inv
    fun j _ high => inKernel_of (by omega) (by omega) (by omega)
  obtain ⟨v,second,invV,npV,entriesV⟩ := mapPages_boot 0xefff8 bootstack (PTE_W ||| PTE_P) 8 0 invU
    fun j _ high => inKernel_of (by omega) (by omega) (by omega)
  obtain ⟨t,third,invT,npT,entriesT⟩ := mapPages_boot 0xf0000 0 (PTE_W ||| PTE_P) 65535 0 invV
    fun j _ high => inKernel_of (by omega) (by omega) (by omega)
  refine ⟨t, ?_, invT, npT.trans (npV.trans npU), fun n plain => ?_⟩
  · simp only [memInitMaps]
    rw [bootMapRegion_eq fourMB UPAGES _ _ (by decide), size]
    change (mapPages pgdir (page2pa 0xef000) (page2pa pages) (PTE_U ||| PTE_P) s 0 (s.npages / 512) >>= _) = _
    rw [first]
    change (bootMapRegion fourMB u pgdir _ _ _ _ >>= _) = _
    rw [bootMapRegion_eq fourMB _ _ _ (by decide)]
    change (mapPages pgdir (page2pa 0xefff8) (page2pa bootstack) (PTE_W ||| PTE_P) u 0 8 >>= _) = _
    rw [second]
    change bootMapRegion fourMB v pgdir _ _ _ _ = _
    rw [bootMapRegion_eq fourMB _ _ _ (by decide)]
    exact third
  · rw [entriesT n plain, entriesV n plain, entriesU n plain, empty n plain, layoutEntry]
    simp only [Nat.add_zero, Nat.zero_add]

end Regions

section Checks
variable {pgdir : Nat} {s : Kernel}

theorem tableWord_writable (p : Nat) : (tableWord p &&& PTE_W != 0) = true := by
  have shift : PTE_W = 2 ^ 1 := rfl
  have bit : (tableWord p).testBit 1 = true := by
    rw [tableWord, Nat.testBit_or, Nat.testBit_or]
    simp [show PTE_W.testBit 1 = true by decide]
  rw [shift, Nat.and_two_pow, bit]
  simp

theorem checkVa2pa_spec (wf : WellFormed pgdir s) {va : Nat} (top : va < 2 ^ 32) (plain : Plain (pgnum va)) :
    checkVa2pa s pgdir va = .ok (if present (pte s pgdir (pgnum va)) = true then pteAddr (pte s pgdir (pgnum va))
      else 0xffffffff) := by
  have slot := pgnum_slot top
  rw [Plain, slot] at plain
  unfold checkVa2pa pte
  rw [slot, pgnum_mod_eq_ptx]
  by_cases here : present (pde s pgdir (pdx va)) = true
  · have word := wf.small _ plain.1 plain.2 here
    obtain ⟨small,_⟩ := wf.tables _ plain.1 plain.2 here
    have large : ¬ (s.mem pgdir (pdx va) &&& PTE_PS ≠ 0) := by
      change ¬ (pde s pgdir (pdx va) &&& PTE_PS ≠ 0)
      rw [word]
      simp
    have table : kaddr s (pteAddr (s.mem pgdir (pdx va))) = .ok (frame (pde s pgdir (pdx va))) := kaddr_ok small
    have flag : ¬ present (s.mem pgdir (pdx va)) = false := by
      change ¬ present (pde s pgdir (pdx va)) = false
      simp [here]
    rw [if_pos here]
    simp only [if_neg flag, if_neg large, table]
    change (if present (s.mem (frame (pde s pgdir (pdx va))) (ptx va)) = false then _ else _) = _
    cases present (s.mem (frame (pde s pgdir (pdx va))) (ptx va)) <;> rfl
  · have absent : present (s.mem pgdir (pdx va)) = false := by
      change present (pde s pgdir (pdx va)) = false
      simpa using here
    rw [if_neg here, not_present_zero]
    simp only [absent, ↓reduceIte]
    rfl

theorem assertThat_ok (holds : Bool) (text : String) : assertThat holds text = .ok () ↔ holds = true := by
  cases holds <;> simp [assertThat]

/-- Two checks in a row pass when both do. -/
theorem seq_ok {x y : Except BootPanic Unit} : (x >>= fun _ => y) = .ok () ↔ x = .ok () ∧ y = .ok () := by
  cases x with
  | error e => simp [bind, Except.bind]
  | ok a => simp [bind, Except.bind]

theorem checkRegion_ok (inv : BootInv pgdir s) (q p : Nat) (text : String) (i count : Nat)
    (plain : ∀ j, i ≤ j → j < i + count → Plain (q + j) ∧ q + j < 2 ^ 20) :
    checkRegion s pgdir (page2pa q) (page2pa p) text i count = .ok () ↔
      ∀ j, i ≤ j → j < i + count → MapsTo s pgdir (p + j) (q + j) := by
  induction count generalizing i with
  | zero =>
    simp only [checkRegion, true_iff]
    intro j low high
    omega
  | succ count ih =>
    obtain ⟨here,low⟩ := plain i (Nat.le_refl i) (by omega)
    obtain ⟨_,number,top⟩ := page_pdx q i low
    have found := checkVa2pa_spec inv.wellFormed top (number ▸ here)
    rw [number] at found
    have hit : ((if present (pte s pgdir (q + i)) = true then pteAddr (pte s pgdir (q + i)) else 0xffffffff) ==
        page2pa p + i * PGSIZE) = true ↔ MapsTo s pgdir (p + i) (q + i) := by
      rw [beq_iff_eq, MapsTo, frame]
      simp only [page2pa, pteAddr, pgnum, PGSIZE]
      split
      · rename_i flag
        simp only [flag, true_and]
        omega
      · rename_i flag
        simp only [flag, Bool.false_eq_true, false_and, iff_false]
        omega
    simp only [checkRegion, found, raise]
    change (assertThat _ text >>= fun _ => checkRegion s pgdir (page2pa q) (page2pa p) text (i + 1) count) = _ ↔ _
    rw [seq_ok, assertThat_ok, hit, ih (i + 1) fun j a b => plain j (by omega) (by omega)]
    constructor
    · rintro ⟨first,rest⟩ j a b
      by_cases same : j = i
      · exact same ▸ first
      · exact rest j (by omega) (by omega)
    · intro all
      exact ⟨all i (Nat.le_refl i) (by omega), fun j a b => all j (by omega) (by omega)⟩

theorem checkPdes_ok (s : Kernel) (pgdir i count : Nat) :
    checkPdes s pgdir i count = .ok () ↔ ∀ j, i ≤ j → j < i + count → checkPde s pgdir j = .ok () := by
  induction count generalizing i with
  | zero =>
    simp only [checkPdes, true_iff]
    intro j low high
    omega
  | succ count ih =>
    simp only [checkPdes]
    rw [seq_ok, ih (i + 1)]
    constructor
    · rintro ⟨first,rest⟩ j a b
      by_cases same : j = i
      · exact same ▸ first
      · exact rest j (by omega) (by omega)
    · intro all
      exact ⟨all i (Nat.le_refl i) (by omega), fun j a b => all j (by omega) (by omega)⟩

end Checks

section Layout
variable {pgdir : Nat} {s t : Kernel}

def pagesArrayPages (s : Kernel) : Nat := roundup (s.npages * sizeofPageInfo) PGSIZE / PGSIZE

/-- Every page of the image of `pages`. -/
def PagesMapped (s : Kernel) (pgdir pages : Nat) : Prop :=
  ∀ i, i < pagesArrayPages s → MapsTo s pgdir (pages + i) (pgnum UPAGES + i)

def StackMapped (s : Kernel) (pgdir bootstack : Nat) : Prop :=
  ∀ i, i < KSTKSIZE / PGSIZE → MapsTo s pgdir (bootstack + i) (pgnum (KSTACKTOP - KSTKSIZE) + i)

/-- Every page from `KERNBASE` to the end of the address space. -/
def MemoryMapped (s : Kernel) (pgdir : Nat) : Prop :=
  ∀ i, i < (2 ^ 32 - KERNBASE) / PGSIZE → MapsTo s pgdir i (pgnum KERNBASE + i)

def GuardEmpty (s : Kernel) (pgdir : Nat) : Prop :=
  ∀ n, pgnum (KSTACKTOP - PTSIZE) ≤ n → n < pgnum (KSTACKTOP - KSTKSIZE) → present (pte s pgdir n) = false

/-- The layout that `mem_init` is to set up, and its check. -/
def KernelLayout (s : Kernel) (pgdir pages bootstack : Nat) : Prop :=
  PagesMapped s pgdir pages ∧ StackMapped s pgdir bootstack ∧ MemoryMapped s pgdir ∧ GuardEmpty s pgdir ∧
  checkKernPgdir s pgdir pages bootstack = .ok ()

/-- What `mem_init` has before it maps: a directory with nothing but itself, and pages for
    the 66 tables of the kernel. -/
structure BootState (pgdir : Nat) (s : Kernel) : Prop where
  window : s.npages ≤ 65536
  free : ∃ nodes, Chain s.link s.pageFreeList nodes ∧ 66 ≤ nodes.length ∧ ∀ p ∈ nodes, p < s.npages ∧ p ≠ pgdir
  dir : ∀ d, d < NPDENTRIES →
    pde s pgdir d = if d = pdx UVPT then page2pa pgdir ||| PTE_U ||| PTE_P else 0

theorem BootState.boot (start : BootState pgdir s) : BootInv pgdir s ∧ ∀ n, Plain n → pte s pgdir n = 0 := by
  have absent : ∀ d, d < NPDENTRIES → d ≠ pdx UVPT → present (pde s pgdir d) = false := by
    intro d low away
    rw [start.dir d low, if_neg away, not_present_zero]
  have self : pde s pgdir (pdx UVPT) = page2pa pgdir ||| PTE_U ||| PTE_P := by
    rw [start.dir _ (pdx_lt UVPT), if_pos rfl]
  have one : presentPdes s pgdir = 1 := by
    rw [presentPdes, Finset.card_eq_one]
    refine ⟨pdx UVPT, Finset.ext fun d => ?_⟩
    simp only [Finset.mem_filter, Finset.mem_range, Finset.mem_singleton]
    constructor
    · rintro ⟨low,here⟩
      by_contra away
      rw [absent d low away] at here
      simp at here
    · rintro rfl
      exact ⟨pdx_lt UVPT, by rw [self, present_user_entry]⟩
  obtain ⟨nodes,chain,room,free⟩ := start.free
  refine ⟨⟨⟨nodes, chain, by omega, fun p mem => ⟨(free p mem).1, (free p mem).2, fun d low here => ?_⟩⟩,
    fun d low out => ?_, fun d low gone => ?_, self, fun d low away here => ?_, fun d e low _ away _ here => ?_⟩,
    fun n plain => ?_⟩
  · by_cases window : d = pdx UVPT
    · subst window
      rw [self, frame_user_entry pgdir PTE_U (by decide)]
      exact (free p mem).2.symm
    · rw [absent d low window] at here
      simp at here
  · have away : d ≠ pdx UVPT := fun same => out (Or.inr (Or.inl same))
    rw [start.dir d low, if_neg away]
  · by_cases window : d = pdx UVPT
    · rw [window, self, present_user_entry] at gone
      simp at gone
    · rw [start.dir d low, if_neg window]
  · rw [absent d low away] at here
    simp at here
  · rw [absent d low away] at here
    simp at here
  · unfold pte
    rw [absent _ plain.1 plain.2]
    rfl

theorem pde_of_maps {p n : Nat} (maps : MapsTo s pgdir p n) : present (pde s pgdir (n / NPTENTRIES)) = true := by
  by_contra absent
  have gone := maps.1
  rw [pte, if_neg absent, not_present_zero] at gone
  simp at gone

theorem maps_of_word {p n : Nat} (perm : Nat) (low : perm < PGSIZE) (word : pte s pgdir n = page2pa p ||| perm ||| PTE_P) :
    MapsTo s pgdir p n := by
  rw [MapsTo, word]
  exact ⟨present_user_entry _ _, frame_user_entry p perm low⟩

theorem not_maps_of_zero {p n : Nat} (word : pte s pgdir n = 0) : ¬ MapsTo s pgdir p n := by
  rw [MapsTo, word, not_present_zero]
  simp

/-- The state after the three mappings. -/
structure Mapped (t : Kernel) (pgdir pages bootstack : Nat) : Prop where
  inv : BootInv pgdir t
  entries : ∀ n, Plain n → pte t pgdir n = layoutEntry t.npages pages bootstack n
  window : t.npages ≤ 65536

section Mapped
variable {pages bootstack : Nat}

theorem plain_of {n : Nat} (high : n < 2 ^ 20) (away : n < 0xef400 ∨ 0xef800 ≤ n) : Plain n := by
  rw [Plain, uvpt_slot, NPTENTRIES, NPDENTRIES]
  omega

theorem Mapped.memory (mapped : Mapped t pgdir pages bootstack) {i : Nat} (inside : i < 65536) :
    MapsTo t pgdir i (0xf0000 + i) ↔ i < 65535 := by
  have word := mapped.entries (0xf0000 + i) (plain_of (by omega) (by omega))
  have window := mapped.window
  constructor
  · intro maps
    by_contra last
    refine not_maps_of_zero ?_ maps
    rw [word, layoutEntry, if_neg (by omega), if_neg (by omega), if_neg (by omega)]
  · intro below
    refine maps_of_word (PTE_W ||| PTE_P) (by decide) ?_
    rw [word, layoutEntry, if_pos (by omega), Nat.add_sub_cancel_left]

theorem Mapped.stack (mapped : Mapped t pgdir pages bootstack) {i : Nat} (inside : i < 8) :
    MapsTo t pgdir (bootstack + i) (0xefff8 + i) := by
  refine maps_of_word (PTE_W ||| PTE_P) (by decide) ?_
  rw [mapped.entries (0xefff8 + i) (plain_of (by omega) (by omega)), layoutEntry, if_neg (by omega),
    if_pos (by omega), Nat.add_sub_cancel_left]

theorem Mapped.array (mapped : Mapped t pgdir pages bootstack) {i : Nat} (inside : i ≤ 128) :
    MapsTo t pgdir (pages + i) (0xef000 + i) ↔ i < t.npages / 512 := by
  have word := mapped.entries (0xef000 + i) (plain_of (by omega) (by omega))
  rw [layoutEntry, if_neg (by omega), if_neg (by omega)] at word
  constructor
  · intro maps
    by_contra last
    refine not_maps_of_zero ?_ maps
    rw [word, if_neg (by omega)]
  · intro below
    refine maps_of_word (PTE_U ||| PTE_P) (by decide) ?_
    rw [word, if_pos (by omega), Nat.add_sub_cancel_left]

theorem Mapped.guard (mapped : Mapped t pgdir pages bootstack) {n : Nat} (low : 0xefc00 ≤ n) (high : n < 0xefff8) :
    pte t pgdir n = 0 := by
  have window := mapped.window
  rw [mapped.entries n (plain_of (by omega) (by omega)), layoutEntry, if_neg (by omega), if_neg (by omega),
    if_neg (by omega)]

theorem pagesArrayPages_eq (t : Kernel) : pagesArrayPages t = (t.npages + 511) / 512 := by
  simp only [pagesArrayPages, roundup, sizeofPageInfo, PGSIZE]
  omega

theorem Mapped.pages_iff (mapped : Mapped t pgdir pages bootstack) :
    PagesMapped t pgdir pages ↔ 512 ∣ t.npages := by
  have window := mapped.window
  rw [PagesMapped, pagesArrayPages_eq]
  change (∀ i, i < (t.npages + 511) / 512 → MapsTo t pgdir (pages + i) (0xef000 + i)) ↔ _
  constructor
  · intro all
    by_contra uneven
    have last := (mapped.array (by omega)).mp (all (t.npages / 512) (by omega))
    omega
  · intro even i inside
    exact (mapped.array (by omega)).mpr (by omega)

theorem Mapped.pdes (mapped : Mapped t pgdir pages bootstack) (some : 512 ≤ t.npages) (j : Nat)
    (low : j < NPDENTRIES) : checkPde t pgdir j = .ok () := by
  have array := pde_of_maps ((mapped.array (i := 0) (by omega)).mpr (by omega))
  have stack := pde_of_maps (mapped.stack (i := 0) (by omega))
  simp only [NPTENTRIES, NPDENTRIES] at array stack low
  have slots : pdx (KSTACKTOP - 1) = 959 ∧ pdx UPAGES = 956 ∧ pdx KERNBASE = 960 := by decide
  simp only [checkPde, slots, uvpt_slot]
  change (if j = 957 ∨ j = 959 ∨ j = 956 then assertThat (present (pde t pgdir j)) "pgdir[i] & PTE_P"
    else if j ≥ 960 then _ else assertThat (pde t pgdir j == 0) "pgdir[i] == 0") = _
  split
  · rename_i used
    rw [assertThat_ok]
    rcases used with rfl | rfl | rfl
    · have self := mapped.inv.self
      rw [uvpt_slot] at self
      rw [self, present_user_entry]
    · exact stack
    · exact array
  rename_i other
  split
  · rename_i kernel
    have here := pde_of_maps ((mapped.memory (i := (j - 960) * 1024) (by omega)).mpr (by omega))
    have slot : (0xf0000 + (j - 960) * 1024) / NPTENTRIES = j := by
      simp only [NPTENTRIES]
      omega
    rw [slot] at here
    have word := (mapped.inv.tables j (by simp only [NPDENTRIES]; omega) (by rw [uvpt_slot]; omega) here).1
    rw [seq_ok, assertThat_ok, assertThat_ok]
    refine ⟨here, ?_⟩
    change (pde t pgdir j &&& PTE_W != 0) = true
    rw [word]
    exact tableWord_writable _
  · rename_i user
    rw [assertThat_ok, mapped.inv.slots j (by simp only [NPDENTRIES]; omega) (by rw [kernel_slot_iff]; omega)]
    rfl

theorem Mapped.check_iff (mapped : Mapped t pgdir pages bootstack) (positive : 0 < t.npages) :
    checkKernPgdir t pgdir pages bootstack = .ok () ↔ 512 ∣ t.npages ∧ t.npages < 65536 := by
  have window := mapped.window
  have array := checkRegion_ok mapped.inv 0xef000 pages "check_va2pa(pgdir, UPAGES + i) == PADDR(pages) + i" 0
    (pagesArrayPages t) fun j _ high => by
      rw [pagesArrayPages_eq] at high
      exact ⟨plain_of (by omega) (by omega), by omega⟩
  have memory := checkRegion_ok mapped.inv 0xf0000 0 "check_va2pa(pgdir, KERNBASE + i) == i" 0 t.npages
    fun j _ high => ⟨plain_of (by omega) (by omega), by omega⟩
  have stack := checkRegion_ok mapped.inv 0xefff8 bootstack
    "check_va2pa(pgdir, KSTACKTOP - KSTKSIZE + i) == PADDR(bootstack) + i" 0 8
    fun j _ high => ⟨plain_of (by omega) (by omega), by omega⟩
  have arrayIff : (∀ j, 0 ≤ j → j < 0 + pagesArrayPages t → MapsTo t pgdir (pages + j) (0xef000 + j)) ↔
      512 ∣ t.npages := by
    rw [← mapped.pages_iff]
    exact ⟨fun all i inside => all i (Nat.zero_le i) (by omega), fun all j _ high => all j (by omega)⟩
  have memoryIff : (∀ j, 0 ≤ j → j < 0 + t.npages → MapsTo t pgdir (0 + j) (0xf0000 + j)) ↔ t.npages < 65536 := by
    simp only [Nat.zero_add]
    constructor
    · intro all
      by_contra full
      have last := (mapped.memory (i := 65535) (by omega)).mp (all 65535 (by omega) (by omega))
      omega
    · intro below j _ high
      exact (mapped.memory (by omega)).mpr (by omega)
  have stackHolds : ∀ j, 0 ≤ j → j < 0 + 8 → MapsTo t pgdir (bootstack + j) (0xefff8 + j) :=
    fun j _ high => mapped.stack (by omega)
  have guard : checkVa2pa t pgdir (KSTACKTOP - PTSIZE) = .ok 0xffffffff := by
    have page : pgnum (KSTACKTOP - PTSIZE) = 0xefc00 := by decide
    rw [checkVa2pa_spec mapped.inv.wellFormed (by decide) (by rw [page]; exact plain_of (by omega) (by omega)), page,
      mapped.guard (by omega) (by omega), not_present_zero]
    rfl
  rw [arrayIff] at array
  rw [memoryIff] at memory
  have third := stack.mpr stackHolds
  unfold checkKernPgdir
  change (checkRegion t pgdir (page2pa 0xef000) (page2pa pages) _ 0 (pagesArrayPages t) >>= fun _ =>
    checkRegion t pgdir (page2pa 0xf0000) (page2pa 0) _ 0 t.npages >>= fun _ =>
    checkRegion t pgdir (page2pa 0xefff8) (page2pa bootstack) _ 0 8 >>= fun _ =>
    raise (checkVa2pa t pgdir (KSTACKTOP - PTSIZE)) >>= fun guard =>
    assertThat (guard == 0xffffffff) _ >>= fun _ => checkPdes t pgdir 0 NPDENTRIES) = _ ↔ _
  rw [seq_ok, seq_ok, seq_ok, array, memory, third, guard]
  have last : (raise (.ok 0xffffffff) >>= fun guard => assertThat (guard == 0xffffffff)
      "check_va2pa(pgdir, KSTACKTOP - PTSIZE) == ~0" >>= fun _ => checkPdes t pgdir 0 NPDENTRIES) = .ok () ↔
      ∀ j, 0 ≤ j → j < 0 + NPDENTRIES → checkPde t pgdir j = .ok () := by
    rw [← checkPdes_ok]
    rfl
  rw [last]
  constructor
  · rintro ⟨even,below,_⟩
    exact ⟨even,below⟩
  · rintro ⟨even,below⟩
    exact ⟨even, below, rfl, fun j _ high => mapped.pdes (by omega) j (by omega)⟩

end Mapped

/-- `mem_init` maps, for every size of memory: the stack and its guard are right, the array
    of pages exactly when it fills its last page, and memory up to the last page of the
    address space, which stays unmapped. -/
theorem memInit_mapped (fourMB : Bool) (pages bootstack : Nat) (start : BootState pgdir s) :
    ∃ t, memInitMaps fourMB s pgdir pages bootstack = .ok t ∧ t.npages = s.npages ∧
      (PagesMapped t pgdir pages ↔ 512 ∣ s.npages) ∧ StackMapped t pgdir bootstack ∧ GuardEmpty t pgdir ∧
      (∀ i, i < (2 ^ 32 - KERNBASE) / PGSIZE → (MapsTo t pgdir i (pgnum KERNBASE + i) ↔ i < 65535)) ∧
      (checkKernPgdir t pgdir pages bootstack = .ok () ↔ 512 ∣ s.npages ∧ s.npages < 65536) := by
  obtain ⟨inv,empty⟩ := start.boot
  obtain ⟨t,run,invT,size,entries⟩ := memInitMaps_spec fourMB pages bootstack inv empty start.window
  have mapped : Mapped t pgdir pages bootstack := ⟨invT, by rw [size]; exact entries, by rw [size]; exact start.window⟩
  have positive : 0 < s.npages := by
    obtain ⟨nodes,_,room,free⟩ := start.free
    cases nodes with
    | nil => simp at room
    | cons p rest =>
      have := (free p (by simp)).1
      omega
  refine ⟨t, run, size, size ▸ mapped.pages_iff, fun i inside => mapped.stack inside, fun n low high => ?_,
    fun i inside => mapped.memory inside, size ▸ mapped.check_iff (by omega)⟩
  rw [mapped.guard low high, not_present_zero]

/-- Whatever the size of memory, the mappings are made and the layout is not the one
    described: the last page of the address space is missing. The array of pages is mapped
    in full when 512 divides the number of pages, and then the check passes unless memory
    reaches that last page. -/
theorem kernel_layout_incomplete (fourMB : Bool) (pages bootstack : Nat) (start : BootState pgdir s) :
    ∃ t, memInitMaps fourMB s pgdir pages bootstack = .ok t ∧ ¬ KernelLayout t pgdir pages bootstack ∧
      (PagesMapped t pgdir pages ↔ 512 ∣ s.npages) ∧ StackMapped t pgdir bootstack ∧ GuardEmpty t pgdir ∧
      (∀ i, i < (2 ^ 32 - KERNBASE) / PGSIZE → (MapsTo t pgdir i (pgnum KERNBASE + i) ↔ i < 65535)) ∧
      (checkKernPgdir t pgdir pages bootstack = .ok () ↔ 512 ∣ s.npages ∧ s.npages < 65536) := by
  obtain ⟨t,run,_,array,stack,guard,memory,check⟩ := memInit_mapped fourMB pages bootstack start
  refine ⟨t, run, fun layout => ?_, array, stack, guard, memory, check⟩
  have last := (memory 65535 (by decide)).mp (layout.2.2.1 65535 (by decide))
  omega

end Layout

section Boots

/-- `page_init` leaves enough pages for the tables of the kernel when base memory has 67. -/
theorem pageInit_bootState (b : Boot) (tlb : Nat → Option Nat) (base : 67 ≤ b.npagesBasemem)
    {mem : Nat → Nat → Nat} (dir : ∀ d, d < NPDENTRIES →
      mem b.pgdir d = if d = pdx UVPT then page2pa b.pgdir ||| PTE_U ||| PTE_P else 0) :
    BootState b.pgdir (pageInit b mem tlb) := by
  have loop := pageInit_loop b mem tlb
  obtain ⟨nodes,chain,members⟩ := loop.listed
  have hole := b.basemem_below_hole
  have low := b.pgdir_above_hole
  have high := b.pgdir_boot_allocated
  have inside := b.boot_in_memory
  rw [io_page] at hole
  rw [ext_page] at low
  refine ⟨loop.npages ▸ b.memory_window, ⟨nodes, chain, ?_, fun p mem => ?_⟩, fun d small => ?_⟩
  · have many : Finset.Icc 1 66 ⊆ nodes.toFinset := by
      intro p within
      simp only [Finset.mem_Icc] at within
      rw [List.mem_toFinset, members]
      exact ⟨within.1, by omega, by simp [Boot.freed, show p < b.npagesBasemem by omega]⟩
    have size := Finset.card_le_card many
    rw [List.toFinset_card_of_nodup (chain_nodup chain), Nat.card_Icc] at size
    omega
  · obtain ⟨_,small,freed⟩ := (members p).mp mem
    refine ⟨by rw [loop.npages]; exact small, fun same => ?_⟩
    rw [same] at freed
    simp only [Boot.freed, io_page, ext_page] at freed
    rw [if_neg (by omega), if_neg (by omega), if_pos (by omega)] at freed
    simp at freed
  · rw [pde, pageInit_mem]
    exact dir d small

def bootMem (pgdir : Nat) : Nat → Nat → Nat := fun p i =>
  if p = pgdir ∧ i = pdx UVPT then page2pa pgdir ||| PTE_U ||| PTE_P else 0

/-- 64MB of memory, with a kernel that ends at 300 pages. -/
def evenBoot : Boot where
  npages := 16384
  npagesBasemem := 160
  bootNext := 400
  pgdir := 300
  memory_window := by decide
  basemem_below_hole := basemem_full
  pgdir_above_hole := by decide
  pgdir_boot_allocated := by decide
  boot_in_memory := by decide

def evenStart : Kernel := pageInit evenBoot (bootMem evenBoot.pgdir) fun _ => none

theorem even_bootState : BootState evenBoot.pgdir evenStart :=
  pageInit_bootState evenBoot _ (by decide) fun d _ => by simp [bootMem]

theorem kernel_layout_incomplete_even : ∃ t, memInitMaps false evenStart evenBoot.pgdir 301 280 = .ok t ∧
    ¬ KernelLayout t evenBoot.pgdir 301 280 := by
  obtain ⟨t,run,fails,_⟩ := kernel_layout_incomplete false 301 280 even_bootState
  exact ⟨t,run,fails⟩

/-- With 64MB the check passes and the last page of the address space is not mapped. -/
theorem top_page_unmapped : BootState evenBoot.pgdir evenStart ∧
    ∃ t, memInitMaps false evenStart evenBoot.pgdir 301 280 = .ok t ∧
      checkKernPgdir t evenBoot.pgdir 301 280 = .ok () ∧ ¬ MemoryMapped t evenBoot.pgdir ∧
      ¬ KernelLayout t evenBoot.pgdir 301 280 := by
  obtain ⟨t,run,_,_,_,_,memory,check⟩ := memInit_mapped false 301 280 even_bootState
  have size : evenStart.npages = 16384 := (pageInit_loop evenBoot _ _).npages
  have unmapped : ¬ MemoryMapped t evenBoot.pgdir := by
    intro all
    have last := (memory 65535 (by decide)).mp (all 65535 (by decide))
    omega
  refine ⟨even_bootState, t, run, check.mpr (by rw [size]; decide), unmapped, fun layout => unmapped layout.2.2.1⟩

end Boots
end JosPmap
