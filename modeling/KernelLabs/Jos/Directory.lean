import Mathlib.Data.Nat.Bitwise
import KernelLabs.Jos.PageRefs

/-!
One page directory as a whole, the kernel half and the window at `UVPT` included. A directory
is well formed when each of its tables is a page of its own, none of them free, and the slot of
`UVPT`, if it is used, holds the directory itself. `pgdir_walk` makes at most one table, and a
write through the pointer it returns changes one entry.
-/
namespace JosPmap
open LinkedList Counting

def NPDENTRIES : Nat := 1024

def tableWord (p : Nat) : Nat := page2pa p ||| PTE_P ||| PTE_W ||| PTE_U

theorem uvpt_slot : pdx UVPT = 957 := by decide

theorem pgnum_slot {va : Nat} (top : va < 2 ^ 32) : pgnum va / NPTENTRIES = pdx va := by
  simp only [pgnum, pdx, PGSIZE, NPTENTRIES]
  omega

theorem pdx_lt (va : Nat) : pdx va < NPDENTRIES := Nat.mod_lt _ (by decide)

theorem frame_tableWord (p : Nat) : frame (tableWord p) = p := frame_table_entry p

theorem present_tableWord (p : Nat) : present (tableWord p) = true := present_table_entry (page2pa p)

theorem tableWord_small (p : Nat) : tableWord p &&& PTE_PS = 0 := by
  have bits : tableWord p = 2 ^ 12 * p ||| 7 := by
    rw [tableWord, page2pa, PGSIZE, Nat.or_assoc, Nat.or_assoc, Nat.mul_comm]
    rfl
  have shift : PTE_PS = 2 ^ 7 := rfl
  rw [bits, shift, Nat.and_two_pow, Nat.testBit_or, Nat.testBit_two_pow_mul,
    show Nat.testBit 7 7 = false by decide]
  simp

/-- Pages outside the window at `UVPT`. -/
def Plain (n : Nat) : Prop := n / NPTENTRIES < NPDENTRIES ∧ n / NPTENTRIES ≠ pdx UVPT

structure Hooked (pgdir : Nat) (s : Kernel) : Prop where
  free : ∃ nodes, Chain s.link s.pageFreeList nodes ∧
    ∀ p ∈ nodes, p < s.npages ∧ p ≠ pgdir ∧ ∀ d, d < NPDENTRIES → present (pde s pgdir d) = true →
      frame (pde s pgdir d) ≠ p
  window : present (pde s pgdir (pdx UVPT)) = true → frame (pde s pgdir (pdx UVPT)) = pgdir
  tables : ∀ d, d < NPDENTRIES → d ≠ pdx UVPT → present (pde s pgdir d) = true →
    frame (pde s pgdir d) < s.npages ∧ frame (pde s pgdir d) ≠ pgdir
  distinct : ∀ d e, d < NPDENTRIES → e < NPDENTRIES → d ≠ pdx UVPT → e ≠ pdx UVPT →
    present (pde s pgdir d) = true → present (pde s pgdir e) = true →
    frame (pde s pgdir d) = frame (pde s pgdir e) → d = e

/-- Without large pages, so that the MMU reads the tables as `pgdir_walk` does. -/
structure WellFormed (pgdir : Nat) (s : Kernel) : Prop extends Hooked pgdir s where
  small : ∀ d, d < NPDENTRIES → d ≠ pdx UVPT → present (pde s pgdir d) = true → pde s pgdir d &&& PTE_PS = 0

section Tables
variable {pgdir : Nat} {s : Kernel}

theorem pageAlloc_head {p : Nat} (head : s.pageFreeList = some p) (small : p < s.npages) :
    pageAlloc s true = .ok (some p, allocated s p fun _ => 0) := by
  obtain ⟨contents,zero,run⟩ := pageAlloc_takes head small true
  rw [run, zero rfl]

theorem kaddr_ok {entry : Nat} (small : frame entry < s.npages) : kaddr s (pteAddr entry) = .ok (frame entry) := by
  simp only [kaddr]
  rw [if_neg (by simp only [frame] at small; omega)]
  rfl

/-- The head of the free list is no table and not the directory. -/
theorem Hooked.head_spare (wf : Hooked pgdir s) {p : Nat} (head : s.pageFreeList = some p) :
    p < s.npages ∧ p ≠ pgdir ∧ ∀ d, d < NPDENTRIES → present (pde s pgdir d) = true → frame (pde s pgdir d) ≠ p := by
  obtain ⟨nodes,chain,free⟩ := wf.free
  obtain ⟨rest,rfl,_⟩ := take_head_chain chain head
  exact free p (by simp)

/-- The state after a table was hooked in. -/
def withTable (s : Kernel) (pgdir d p : Nat) : Kernel := hookTable (allocated s p fun _ => 0) pgdir d p

theorem pde_withTable (d p e : Nat) (other : p ≠ pgdir) :
    pde (withTable s pgdir d p) pgdir e = if e = d then tableWord p else pde s pgdir e := by
  rw [withTable, pde_hook]
  split
  · rfl
  · simp [pde, allocated, Ne.symm other]

theorem mem_withTable {d p q : Nat} (away : q ≠ pgdir) :
    (withTable s pgdir d p).mem q = Function.update s.mem p (fun _ => 0) q := by
  funext i
  simp only [withTable, hookTable, mem_store]
  rw [if_neg fun both => away both.1]
  rfl

theorem link_withTable (d p : Nat) : (withTable s pgdir d p).link = Function.update s.link p none := by
  change (Kernel.setRef _ p _).link = _
  rw [link_setRef]
  change (takeHead s p).link = _
  rw [takeHead, link_setLink]
  rfl

theorem ref_withTable (d p : Nat) :
    (withTable s pgdir d p).ref = Function.update s.ref p ((s.ref p + 1) % 2 ^ 16) := by
  have taken : (allocated s p fun _ => 0).ref = s.ref := ref_setLink _ p none
  change (Kernel.setRef _ p _).ref = _
  rw [ref_setRef, taken]

theorem withTable_hooked (wf : Hooked pgdir s) {d p : Nat} (away : d ≠ pdx UVPT)
    (head : s.pageFreeList = some p) : Hooked pgdir (withTable s pgdir d p) := by
  obtain ⟨small,other,spare⟩ := wf.head_spare head
  obtain ⟨nodes,chain,free⟩ := wf.free
  obtain ⟨rest,rfl,off,popped⟩ := take_head_chain chain head
  have dir := fun e => pde_withTable (s := s) d p e other
  constructor
  · refine ⟨rest, ?_, fun q mem => ?_⟩
    · rw [takeHead, link_setLink] at popped
      rw [link_withTable]
      exact popped
    · obtain ⟨inside,apart,unused⟩ := free q (List.mem_cons_of_mem p mem)
      refine ⟨inside, apart, fun e low here => ?_⟩
      rw [dir] at here ⊢
      split
      · rw [frame_tableWord]
        exact fun same => off (same ▸ mem)
      · rename_i differs
        rw [if_neg differs] at here
        exact unused e low here
  · rw [dir, if_neg (Ne.symm away)]
    exact wf.window
  · intro e low window here
    rw [dir] at here ⊢
    split
    · rw [frame_tableWord]
      exact ⟨small,other⟩
    · rename_i differs
      rw [if_neg differs] at here
      exact wf.tables e low window here
  · intro e f he hf we wf' pe pf same
    rw [dir] at pe pf same
    rw [dir] at same
    by_cases ed : e = d
    · by_cases fd : f = d
      · exact ed.trans fd.symm
      · rw [if_pos ed, if_neg fd, frame_tableWord] at same
        rw [if_neg fd] at pf
        exact absurd same.symm (spare f hf pf)
    · by_cases fd : f = d
      · rw [if_neg ed, if_pos fd, frame_tableWord] at same
        rw [if_neg ed] at pe
        exact absurd same (spare e he pe)
      · rw [if_neg ed, if_neg fd] at same
        rw [if_neg ed] at pe
        rw [if_neg fd] at pf
        exact wf.distinct e f he hf we wf' pe pf same

theorem pte_withTable (wf : Hooked pgdir s) {d p : Nat} (absent : present (pde s pgdir d) = false)
    (head : s.pageFreeList = some p) {n : Nat} (plain : Plain n) :
    pte (withTable s pgdir d p) pgdir n = pte s pgdir n := by
  obtain ⟨_,other,spare⟩ := wf.head_spare head
  unfold pte
  rw [pde_withTable d p _ other]
  by_cases here : n / NPTENTRIES = d
  · rw [if_pos here, here, present_tableWord, if_pos rfl, frame_tableWord, mem_withTable other,
      Function.update_self, absent]
    rfl
  · rw [if_neg here]
    split
    · rename_i flag
      obtain ⟨_,table⟩ := wf.tables _ plain.1 plain.2 flag
      rw [mem_withTable table, Function.update_of_ne (spare _ plain.1 flag)]
    · rfl

/-- What `pgdir_walk` with `create` leaves when it finds or makes a table for slot `d`. -/
inductive Walked (s : Kernel) (pgdir d : Nat) : Kernel → Prop where
  | found (here : present (pde s pgdir d) = true) : Walked s pgdir d s
  | made (p : Nat) (absent : present (pde s pgdir d) = false) (head : s.pageFreeList = some p) :
      Walked s pgdir d (withTable s pgdir d p)

theorem walk_found (wf : Hooked pgdir s) {va : Nat} (top : va < 2 ^ 32) (away : pdx va ≠ pdx UVPT)
    (here : present (pde s pgdir (pdx va)) = true) (create : Bool) :
    pgdirWalk s pgdir va create = .ok (some (entryLoc s pgdir (pgnum va)), s) := by
  have table := kaddr_ok (wf.tables _ (pdx_lt va) away here).1
  simp only [pde] at here table
  simp only [pgdirWalk, Kernel.load, here, ↓reduceIte, table, entryLoc, pgnum_slot top, pgnum_mod_eq_ptx]
  rfl

theorem walk_made (wf : Hooked pgdir s) {va p : Nat} (top : va < 2 ^ 32)
    (absent : present (pde s pgdir (pdx va)) = false) (head : s.pageFreeList = some p) :
    pgdirWalk s pgdir va true = .ok (some (entryLoc (withTable s pgdir (pdx va) p) pgdir (pgnum va)),
      withTable s pgdir (pdx va) p) := by
  obtain ⟨small,other,_⟩ := wf.head_spare head
  have word : pde (withTable s pgdir (pdx va) p) pgdir (pdx va) = tableWord p := by
    rw [pde_withTable _ _ _ other, if_pos rfl]
  have flag : present (s.load ⟨pgdir, pdx va⟩) = false := absent
  have table : kaddr (withTable s pgdir (pdx va) p)
      (pteAddr (pde (withTable s pgdir (pdx va) p) pgdir (pdx va))) = .ok p := by
    rw [word, kaddr_ok (by rw [frame_tableWord]; exact small), frame_tableWord]
  have loc : entryLoc (withTable s pgdir (pdx va) p) pgdir (pgnum va) = ⟨p, ptx va⟩ := by
    simp only [entryLoc, pgnum_slot top, word, frame_tableWord, pgnum_mod_eq_ptx]
  rw [loc]
  simp only [pgdirWalk, flag, Bool.false_eq_true, ↓reduceIte, pageAlloc_head head small]
  change (kaddr (withTable s pgdir (pdx va) p)
    (pteAddr (pde (withTable s pgdir (pdx va) p) pgdir (pdx va))) >>= fun table =>
      pure (some (PteLoc.mk table (ptx va)), withTable s pgdir (pdx va) p)) = _
  rw [table]
  rfl

theorem walk_failed {va : Nat} (absent : present (pde s pgdir (pdx va)) = false) (empty : s.pageFreeList = none) :
    pgdirWalk s pgdir va true = .ok (none, s) := by
  have flag : present (s.load ⟨pgdir, pdx va⟩) = false := absent
  have none : pageAlloc s true = .ok (none, s) := by simp [pageAlloc, empty]
  simp only [pgdirWalk, flag, Bool.false_eq_true, ↓reduceIte, none]
  rfl

/-- Outside the window `pgdir_walk` with `create` fails only without a table and without a
    free page. -/
theorem walk_create (wf : Hooked pgdir s) {va : Nat} (top : va < 2 ^ 32) (away : pdx va ≠ pdx UVPT) :
    (present (pde s pgdir (pdx va)) = false ∧ s.pageFreeList = none ∧ pgdirWalk s pgdir va true = .ok (none, s)) ∨
    ∃ t, Walked s pgdir (pdx va) t ∧ pgdirWalk s pgdir va true = .ok (some (entryLoc t pgdir (pgnum va)), t) := by
  by_cases here : present (pde s pgdir (pdx va)) = true
  · exact Or.inr ⟨s, .found here, walk_found wf top away here true⟩
  · have absent : present (pde s pgdir (pdx va)) = false := by simpa using here
    cases head : s.pageFreeList with
    | none => exact Or.inl ⟨absent, rfl, walk_failed absent head⟩
    | some p => exact Or.inr ⟨_, .made p absent head, walk_made wf top absent head⟩

end Tables

section Walked
variable {pgdir d : Nat} {s t : Kernel}

theorem Walked.npages (walked : Walked s pgdir d t) : t.npages = s.npages := by
  cases walked <;> rfl

theorem Walked.hooked (wf : Hooked pgdir s) (away : d ≠ pdx UVPT) (walked : Walked s pgdir d t) :
    Hooked pgdir t := by
  cases walked with
  | found here => exact wf
  | made p absent head => exact withTable_hooked wf away head

theorem Walked.wellFormed (wf : WellFormed pgdir s) (away : d ≠ pdx UVPT) (walked : Walked s pgdir d t) :
    WellFormed pgdir t := by
  refine ⟨walked.hooked wf.toHooked away, fun e low apart here => ?_⟩
  cases walked with
  | found _ => exact wf.small e low apart here
  | made p absent head =>
    have other := (wf.head_spare head).2.1
    rw [pde_withTable _ _ _ other] at here ⊢
    split
    · exact tableWord_small p
    · rename_i differs
      rw [if_neg differs] at here
      exact wf.small e low apart here

theorem Walked.same (walked : Walked s pgdir d t) (here : present (pde s pgdir d) = true) : t = s := by
  cases walked with
  | found _ => rfl
  | made p absent head =>
    rw [here] at absent
    cases absent

theorem Walked.here (wf : Hooked pgdir s) (walked : Walked s pgdir d t) : present (pde t pgdir d) = true := by
  cases walked with
  | found here => exact here
  | made p absent head => rw [pde_withTable _ _ _ (wf.head_spare head).2.1, if_pos rfl, present_tableWord]

theorem Walked.pde_other (wf : Hooked pgdir s) (walked : Walked s pgdir d t) {e : Nat} (other : e ≠ d) :
    pde t pgdir e = pde s pgdir e := by
  cases walked with
  | found here => rfl
  | made p absent head => rw [pde_withTable _ _ _ (wf.head_spare head).2.1, if_neg other]

theorem Walked.pte (wf : Hooked pgdir s) (walked : Walked s pgdir d t) {n : Nat} (plain : Plain n) :
    pte t pgdir n = pte s pgdir n := by
  cases walked with
  | found here => rfl
  | made p absent head => exact pte_withTable wf absent head plain

end Walked

section Store
variable {pgdir n : Nat} {s : Kernel}

theorem Hooked.pde_store (wf : Hooked pgdir s) (plain : Plain n)
    (here : present (pde s pgdir (n / NPTENTRIES)) = true) (word d : Nat) :
    pde (s.store (entryLoc s pgdir n) word) pgdir d = pde s pgdir d := by
  obtain ⟨_,other⟩ := wf.tables _ plain.1 plain.2 here
  simp only [pde, mem_store, entryLoc]
  exact if_neg fun both => other both.1.symm

theorem Hooked.store (wf : Hooked pgdir s) (plain : Plain n)
    (here : present (pde s pgdir (n / NPTENTRIES)) = true) (word : Nat) :
    Hooked pgdir (s.store (entryLoc s pgdir n) word) := by
  have dir := wf.pde_store plain here word
  obtain ⟨free,window,tables,distinct⟩ := wf
  constructor
  · simp only [dir]
    exact free
  · simp only [dir]
    exact window
  · simp only [dir]
    exact tables
  · simp only [dir]
    exact distinct

theorem WellFormed.store (wf : WellFormed pgdir s) (plain : Plain n)
    (here : present (pde s pgdir (n / NPTENTRIES)) = true) (word : Nat) :
    WellFormed pgdir (s.store (entryLoc s pgdir n) word) := by
  refine ⟨wf.toHooked.store plain here word, ?_⟩
  simp only [wf.pde_store plain here]
  exact wf.small

theorem Hooked.pte_store (wf : Hooked pgdir s) (plain : Plain n)
    (here : present (pde s pgdir (n / NPTENTRIES)) = true) (word : Nat) {m : Nat} (inside : Plain m) :
    pte (s.store (entryLoc s pgdir n) word) pgdir m = if m = n then word else pte s pgdir m := by
  unfold pte
  rw [wf.pde_store plain here]
  by_cases same : m = n
  · subst same
    rw [if_pos here, mem_store, if_pos ⟨rfl,rfl⟩, if_pos rfl]
  · rw [if_neg same]
    split
    · rename_i flag
      rw [mem_store, if_neg]
      rintro ⟨table,index⟩
      have slot := wf.distinct _ _ inside.1 plain.1 inside.2 plain.2 flag here table
      simp only [entryLoc, NPTENTRIES] at slot index
      omega
    · rfl

/-- Through the window the directory shows its own entries. -/
theorem Hooked.pte_window (wf : Hooked pgdir s) (self : present (pde s pgdir (pdx UVPT)) = true) {m : Nat}
    (window : m / NPTENTRIES = pdx UVPT) : pte s pgdir m = pde s pgdir (m % NPTENTRIES) := by
  rw [pte, window, if_pos self, wf.window self]
  rfl

end Store

section Translation
variable {pgdir n : Nat} {s t : Kernel}

/-- What the MMU makes of page number `n`: the physical page, and whether the user may access
    it and whether it may be written, as both levels allow. -/
def translate (s : Kernel) (pgdir n : Nat) : Option (Nat × Bool × Bool) :=
  let both := pde s pgdir (n / NPTENTRIES) &&& pte s pgdir n
  if present (pte s pgdir n) = true then some (frame (pte s pgdir n), both &&& PTE_U != 0, both &&& PTE_W != 0)
  else none

theorem translate_absent (absent : present (pte s pgdir n) = false) : translate s pgdir n = none := by
  simp [translate, absent]

theorem pte_absent (absent : present (pde s pgdir (n / NPTENTRIES)) = false) : pte s pgdir n = 0 := by
  simp [pte, absent]

theorem translate_congr (dir : pde t pgdir (n / NPTENTRIES) = pde s pgdir (n / NPTENTRIES))
    (entry : pte t pgdir n = pte s pgdir n) : translate t pgdir n = translate s pgdir n := by
  unfold translate
  rw [dir, entry]

/-- The page of the window through which the table of slot `d` is seen. -/
def windowPage (d : Nat) : Nat := pdx UVPT * NPTENTRIES + d

end Translation

section Example

/-- Eight pages: a directory with nothing but itself on page 1, and page 3 free. -/
def selfMapped : Kernel :=
  ⟨8, fun p => ⟨none, if p = 3 then 0 else 1⟩, some 3, fun p i => if p = 1 ∧ i = 957 then 0x1005 else 0, fun _ => none⟩

theorem selfMapped_pde {d : Nat} (here : present (pde selfMapped 1 d) = true) : d = 957 := by
  by_contra other
  have zero : pde selfMapped 1 d = 0 := by simp [pde, selfMapped, other]
  rw [zero] at here
  cases here

theorem selfMapped_chain : Chain selfMapped.link selfMapped.pageFreeList [3] := ⟨rfl,rfl⟩

theorem selfMapped_hooked : Hooked 1 selfMapped := by
  refine ⟨⟨[3], selfMapped_chain, fun p mem => ?_⟩, fun _ => rfl, fun d _ away here => ?_, fun d e _ _ away _ here => ?_⟩
  · have same : p = 3 := by simpa using mem
    subst same
    refine ⟨by decide, by decide, fun d _ here => ?_⟩
    rw [selfMapped_pde here]
    decide
  · exact absurd (selfMapped_pde here) away
  · exact absurd (selfMapped_pde here) away

theorem selfMapped_wellFormed : WellFormed 1 selfMapped :=
  ⟨selfMapped_hooked, fun _ _ away here => absurd (selfMapped_pde here) away⟩

end Example
end JosPmap
