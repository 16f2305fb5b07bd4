import KernelLabs.Jos.Directory

/-!
The books of one page directory, for every page of the machine: `pp_ref` is the number of user
entries and user tables on the page, and of the references from elsewhere that boot left there.
`page_init` counts one such reference for every page in use. A page on the free list owes
nothing. `page_insert` raises a count before it writes the entry, so at most one held page is
one ahead.
-/
namespace JosPmap
open LinkedList Counting

/-- The directory entry lets the user write, as `pgdir_walk` makes it. -/
def Open (word : Nat) : Prop := word.testBit 1 = true ∧ word.testBit 2 = true

/-- What the count of page `p` should be, `base` being the references from elsewhere. -/
def owed (s : Kernel) (pgdir : Nat) (base : Nat → Nat) (held : Option Nat) (p : Nat) : Nat :=
  refs s pgdir p + base p + if held = some p then 1 else 0

structure Ledger (pgdir : Nat) (base : Nat → Nat) (held : Option Nat) (s : Kernel) : Prop where
  hooked : Hooked pgdir s
  directory : 0 < base pgdir
  kernel_tables : ∀ d, userPdes ≤ d → d < NPDENTRIES → present (pde s pgdir d) = true →
    0 < base (frame (pde s pgdir d))
  user_tables : ∀ d, d < userPdes → present (pde s pgdir d) = true → Open (pde s pgdir d)
  unlinked : ∀ p, p < s.npages → ¬ OnFreeList s p → s.link p = none
  frames : ∀ n, n < userPages → present (pte s pgdir n) = true → frame (pte s pgdir n) < s.npages
  idle : ∀ p, OnFreeList s p → s.ref p = 0
  counted : ∀ p, p < s.npages → s.ref p = owed s pgdir base held p ∧ s.ref p < 2 ^ 16

section Facts
variable {pgdir : Nat} {base : Nat → Nat} {held : Option Nat} {s t : Kernel}

theorem open_tableWord (p : Nat) : Open (tableWord p) := by
  simp only [Open, tableWord, Nat.testBit_or]
  exact ⟨by simp [show PTE_W.testBit 1 = true by decide], by simp [show PTE_U.testBit 2 = true by decide]⟩

theorem open_or {word : Nat} (flags : Nat) (is : Open word) : Open (word ||| flags) := by
  simp only [Open, Nat.testBit_or, is.1, is.2, Bool.true_or, and_self]

theorem plain_of_user {n : Nat} (user : n < userPages) : Plain n := by
  rw [user_pages_eq] at user
  rw [Plain, uvpt_slot]
  simp only [NPTENTRIES, NPDENTRIES]
  omega

theorem user_slot_lt {d : Nat} (user : d < userPdes) : d < NPDENTRIES ∧ d ≠ pdx UVPT := by
  rw [user_pdes_eq] at user
  rw [uvpt_slot]
  simp only [NPDENTRIES]
  omega

theorem Hooked.free_in_memory (wf : Hooked pgdir s) {p : Nat} (free : OnFreeList s p) : p < s.npages := by
  obtain ⟨nodes,chain,own⟩ := wf.free
  exact (own p ((on_chain_iff chain p).mp free)).1

/-- Other pages may go on or off the free list, while the directory stays. -/
theorem Hooked.relist (wf : Hooked pgdir s) (mem : t.mem = s.mem) (npages : t.npages = s.npages)
    {nodes : List Nat} (chain : Chain t.link t.pageFreeList nodes)
    (spare : ∀ p ∈ nodes, p < s.npages ∧ p ≠ pgdir ∧ ∀ d, d < NPDENTRIES → present (pde s pgdir d) = true →
      frame (pde s pgdir d) ≠ p) : Hooked pgdir t := by
  have dir : ∀ d, pde t pgdir d = pde s pgdir d := fun d => by rw [pde, mem]; rfl
  obtain ⟨_,window,tables,distinct⟩ := wf
  refine ⟨⟨nodes, chain, ?_⟩, ?_, ?_, ?_⟩
  · simp only [dir, npages]
    exact spare
  · simp only [dir]
    exact window
  · simp only [dir, npages]
    exact tables
  · simp only [dir]
    exact distinct

theorem Ledger.free_owes (led : Ledger pgdir base held s) {p : Nat} (free : OnFreeList s p) :
    owed s pgdir base held p = 0 := by
  rw [← (led.counted p (led.hooked.free_in_memory free)).1]
  exact led.idle p free

theorem Ledger.mapped_taken (led : Ledger pgdir base held s) {n : Nat} (user : n < userPages)
    (here : present (pte s pgdir n) = true) : ¬ OnFreeList s (frame (pte s pgdir n)) := by
  intro free
  have none := led.free_owes free
  have some : 0 < refs s pgdir (frame (pte s pgdir n)) := refs_pos_of_maps user ⟨here,rfl⟩
  unfold owed at none
  omega

/-- A page that owes nothing is neither the directory nor a table. -/
theorem spare_of_owed (directory : 0 < base pgdir)
    (kernel : ∀ d, userPdes ≤ d → d < NPDENTRIES → present (pde s pgdir d) = true → 0 < base (frame (pde s pgdir d)))
    {p : Nat} (none : owed s pgdir base held p = 0) :
    p ≠ pgdir ∧ ∀ d, d < NPDENTRIES → present (pde s pgdir d) = true → frame (pde s pgdir d) ≠ p := by
  unfold owed at none
  constructor
  · rintro rfl
    omega
  · rintro d low here rfl
    by_cases user : d < userPdes
    · have some := refs_pos_of_table (s := s) ⟨d, user, here, rfl⟩
      omega
    · have some := kernel d (by omega) low here
      omega

end Facts

section Walk
variable {pgdir : Nat} {base : Nat → Nat} {held : Option Nat} {s t : Kernel}

theorem on_withTable (wf : Hooked pgdir s) {d p : Nat} (head : s.pageFreeList = some p) (q : Nat) :
    OnFreeList (withTable s pgdir d p) q ↔ OnFreeList s q ∧ q ≠ p := by
  obtain ⟨nodes,chain,_⟩ := wf.free
  have same : (withTable s pgdir d p).link = (takeHead s p).link := by
    rw [link_withTable, takeHead, link_setLink]
    rfl
  rw [← on_taken_list chain head, OnFreeList, same]
  rfl

theorem refs_withTable (wf : Hooked pgdir s) {d p : Nat} (inside : d < userPdes)
    (absent : present (pde s pgdir d) = false) (head : s.pageFreeList = some p) (q : Nat) :
    refs (withTable s pgdir d p) pgdir q = refs s pgdir q + if q = p then 1 else 0 := by
  obtain ⟨_,other,_⟩ := wf.head_spare head
  have dir := fun e => pde_withTable (s := s) d p e other
  have change := refs_slot_change inside (fun e _ apart => by rw [dir, if_neg apart])
    (fun n user => pte_withTable wf absent head (plain_of_user user)) q
  have before : ¬ TableAt s pgdir q d := by
    rintro ⟨flag,_⟩
    simp [absent] at flag
  have after : TableAt (withTable s pgdir d p) pgdir q d ↔ q = p := by
    rw [TableAt, dir, if_pos rfl, present_tableWord, frame_tableWord]
    simp only [true_and]
    exact eq_comm
  simp only [before, ↓reduceIte, after] at change
  omega

theorem Ledger.withTable (led : Ledger pgdir base held s) {d p : Nat} (inside : d < userPdes)
    (absent : present (pde s pgdir d) = false) (head : s.pageFreeList = some p) :
    Ledger pgdir base held (withTable s pgdir d p) := by
  have wf := led.hooked
  obtain ⟨_,other,_⟩ := wf.head_spare head
  obtain ⟨nodes,chain,_⟩ := wf.free
  have free := head_on_chain chain head
  have dir := fun e => pde_withTable (s := s) d p e other
  have on := fun q => on_withTable (d := d) wf head q
  constructor
  · exact withTable_hooked wf (user_slot_lt inside).2 head
  · exact led.directory
  · intro e high low here
    rw [dir, if_neg (by omega)] at here ⊢
    exact led.kernel_tables e high low here
  · intro e user here
    rw [dir] at here ⊢
    split
    · exact open_tableWord p
    · rename_i apart
      rw [if_neg apart] at here
      exact led.user_tables e user here
  · intro q small off
    rw [link_withTable]
    by_cases same : q = p
    · rw [same, Function.update_self]
    · rw [Function.update_of_ne same]
      exact led.unlinked q small fun out => off ((on q).mpr ⟨out,same⟩)
  · intro n user
    rw [pte_withTable wf absent head (plain_of_user user)]
    exact led.frames n user
  · intro q out
    obtain ⟨before,apart⟩ := (on q).mp out
    rw [ref_withTable, Function.update_of_ne apart]
    exact led.idle q before
  · intro q small
    have count := led.counted q small
    have more := refs_withTable wf inside absent head q
    rw [ref_withTable]
    unfold owed at count ⊢
    by_cases same : q = p
    · subst same
      have zero := led.idle q free
      rw [if_pos rfl] at more
      rw [Function.update_self]
      omega
    · rw [if_neg same] at more
      rw [Function.update_of_ne same]
      omega

theorem Ledger.walk (led : Ledger pgdir base held s) {d : Nat} (inside : d < userPdes)
    (walked : Walked s pgdir d t) : Ledger pgdir base held t := by
  cases walked with
  | found here => exact led
  | made p absent head => exact led.withTable inside absent head

end Walk

section Hold
variable {pgdir : Nat} {base : Nat → Nat} {s : Kernel}

/-- `pp->pp_ref++` before the entry is written. -/
theorem Ledger.hold (led : Ledger pgdir base none s) {p : Nat} (taken : ¬ OnFreeList s p) (few : s.ref p < 65535) :
    Ledger pgdir base (some p) (s.setRef p (s.ref p + 1)) := by
  have link : (s.setRef p (s.ref p + 1)).link = s.link := link_setRef s p _
  have on : ∀ q, OnFreeList (s.setRef p (s.ref p + 1)) q ↔ OnFreeList s q := by
    intro q
    rw [OnFreeList, link]
    rfl
  obtain ⟨nodes,chain,spare⟩ := led.hooked.free
  constructor
  · exact led.hooked.relist rfl rfl (by rw [link]; exact chain) spare
  · exact led.directory
  · exact led.kernel_tables
  · exact led.user_tables
  · intro q small off
    rw [link]
    exact led.unlinked q small fun out => off ((on q).mpr out)
  · exact led.frames
  · intro q out
    have before := (on q).mp out
    have apart : q ≠ p := fun same => taken (same ▸ before)
    rw [ref_setRef, Function.update_of_ne apart]
    exact led.idle q before
  · intro q small
    have count := led.counted q small
    have same : refs (s.setRef p (s.ref p + 1)) pgdir q = refs s pgdir q := rfl
    rw [ref_setRef]
    unfold owed at count ⊢
    rw [same]
    simp only [reduceCtorEq, ↓reduceIte, Nat.add_zero] at count
    by_cases here : q = p
    · subst here
      rw [Function.update_self, if_pos rfl]
      omega
    · rw [Function.update_of_ne here, if_neg (by simpa using Ne.symm here)]
      omega

end Hold
section Entries
variable {pgdir : Nat} {base : Nat → Nat} {held : Option Nat} {s t : Kernel}

theorem refs_store (wf : Hooked pgdir s) {n : Nat} (user : n < userPages)
    (here : present (pde s pgdir (n / NPTENTRIES)) = true) (word p : Nat) :
    refs (s.store (entryLoc s pgdir n) word) pgdir p + (if MapsTo s pgdir p n then 1 else 0) =
      refs s pgdir p + if present word = true ∧ frame word = p then 1 else 0 := by
  have plain := plain_of_user user
  have entry := fun m inside => wf.pte_store plain here word (m := m) (plain_of_user inside)
  have change := refs_entry_change user (same_tables_of_eq fun d _ => wf.pde_store plain here word d)
    (fun m inside other => by rw [entry m inside, if_neg other]) p
  have after : MapsTo (s.store (entryLoc s pgdir n) word) pgdir p n ↔ present word = true ∧ frame word = p := by
    simp only [MapsTo, entry n user, ↓reduceIte]
  simp only [after] at change
  exact change

/-- Writing the entry of the held page settles its count. -/
theorem Ledger.fill {p : Nat} (led : Ledger pgdir base (some p) s) (small : p < s.npages) {n : Nat}
    (user : n < userPages) (here : present (pde s pgdir (n / NPTENTRIES)) = true)
    (vacant : present (pte s pgdir n) = false) {word : Nat} (flag : present word = true) (target : frame word = p) :
    Ledger pgdir base none (s.store (entryLoc s pgdir n) word) := by
  have plain := plain_of_user user
  have dir := led.hooked.pde_store plain here word
  constructor
  · exact led.hooked.store plain here word
  · exact led.directory
  · simp only [dir]
    exact led.kernel_tables
  · simp only [dir]
    exact led.user_tables
  · exact led.unlinked
  · intro m inside
    rw [led.hooked.pte_store plain here word (plain_of_user inside)]
    split
    · intro _
      rw [target]
      exact small
    · exact led.frames m inside
  · exact led.idle
  · intro q inside
    have change := refs_store led.hooked user here word q
    have before : ¬ MapsTo s pgdir q n := by
      rintro ⟨again,_⟩
      simp [vacant] at again
    simp only [before, flag, target, true_and, ↓reduceIte] at change
    have count := led.counted q inside
    have kept : (s.store (entryLoc s pgdir n) word).ref q = s.ref q := rfl
    rw [kept]
    unfold owed at count ⊢
    simp only [Option.some.injEq, reduceCtorEq, ↓reduceIte] at count ⊢
    omega

/-- `pgdir[PDX(va)] |= perm`. -/
def permitted (s : Kernel) (pgdir d perm : Nat) : Kernel := s.store ⟨pgdir, d⟩ (s.load ⟨pgdir, d⟩ ||| perm)

theorem pde_permitted (d perm e : Nat) :
    pde (permitted s pgdir d perm) pgdir e = if e = d then pde s pgdir d ||| perm else pde s pgdir e := by
  simp only [permitted, pde, mem_store, true_and]
  rfl

theorem present_permitted {d : Nat} (here : present (pde s pgdir d) = true) (perm e : Nat) :
    present (pde (permitted s pgdir d perm) pgdir e) = present (pde s pgdir e) := by
  rw [pde_permitted]
  split
  · rename_i same
    rw [same, here]
    exact present_or _ _ here
  · rfl

theorem frame_permitted {perm : Nat} (low : perm < PGSIZE) (d e : Nat) :
    frame (pde (permitted s pgdir d perm) pgdir e) = frame (pde s pgdir e) := by
  rw [pde_permitted]
  split
  · rename_i same
    rw [same]
    exact frame_or_flags _ _ low
  · rfl

theorem pte_permitted (wf : Hooked pgdir s) {d perm : Nat} (here : present (pde s pgdir d) = true)
    (low : perm < PGSIZE) {n : Nat} (plain : Plain n) : pte (permitted s pgdir d perm) pgdir n = pte s pgdir n := by
  simp only [pte, present_permitted here, frame_permitted low]
  split
  · rename_i table
    have other := (wf.tables _ plain.1 plain.2 table).2
    rw [permitted, mem_store, if_neg fun both => other both.1]
  · rfl

theorem permitted_hooked (wf : Hooked pgdir s) {d perm : Nat} (here : present (pde s pgdir d) = true)
    (low : perm < PGSIZE) : Hooked pgdir (permitted s pgdir d perm) := by
  have flag := present_permitted here perm
  have target : ∀ e, frame (pde (permitted s pgdir d perm) pgdir e) = frame (pde s pgdir e) := frame_permitted low d
  constructor
  · simp only [flag, target]
    exact wf.free
  · simp only [flag, target]
    exact wf.window
  · simp only [flag, target]
    exact wf.tables
  · simp only [flag, target]
    exact wf.distinct

theorem Ledger.permit (led : Ledger pgdir base held s) {d perm : Nat} (here : present (pde s pgdir d) = true)
    (low : perm < PGSIZE) : Ledger pgdir base held (permitted s pgdir d perm) := by
  have flag := present_permitted here perm
  have target : ∀ e, frame (pde (permitted s pgdir d perm) pgdir e) = frame (pde s pgdir e) := frame_permitted low d
  have entries : ∀ n, n < userPages → pte (permitted s pgdir d perm) pgdir n = pte s pgdir n :=
    fun n user => pte_permitted led.hooked here low (plain_of_user user)
  constructor
  · exact permitted_hooked led.hooked here low
  · exact led.directory
  · simp only [flag, target]
    exact led.kernel_tables
  · intro e user table
    rw [flag] at table
    rw [pde_permitted]
    split
    · rename_i same
      exact same ▸ open_or perm (led.user_tables e user table)
    · exact led.user_tables e user table
  · exact led.unlinked
  · intro n user
    rw [entries n user]
    exact led.frames n user
  · exact led.idle
  · intro q inside
    have count := led.counted q inside
    have same : refs (permitted s pgdir d perm) pgdir q = refs s pgdir q :=
      refs_congr (fun e _ => ⟨flag e, target e⟩) entries q
    unfold owed at count ⊢
    rw [same]
    exact count

end Entries
section Clear
variable {pgdir va : Nat} {base : Nat → Nat} {held : Option Nat} {s : Kernel}

/-- What `page_remove` leaves when a page is mapped at `va`. -/
def cleared (s : Kernel) (pgdir va : Nat) : Kernel :=
  tlbInvalidate ((release s (frame (pte s pgdir (pgnum va)))).store (entryLoc s pgdir (pgnum va)) 0) va

theorem mem_cleared : (cleared s pgdir va).mem = (s.store (entryLoc s pgdir (pgnum va)) 0).mem := by
  funext q i
  change ((release s _).store _ 0).mem q i = _
  rw [mem_store, mem_store, release_mem]

theorem npages_cleared : (cleared s pgdir va).npages = s.npages := release_npages s _

theorem ref_cleared : (cleared s pgdir va).ref = (release s (frame (pte s pgdir (pgnum va)))).ref := rfl

theorem link_cleared : (cleared s pgdir va).link = (release s (frame (pte s pgdir (pgnum va)))).link := rfl

theorem pde_cleared (wf : Hooked pgdir s) (user : va < UTOP)
    (here : present (pde s pgdir (pgnum va / NPTENTRIES)) = true) (d : Nat) :
    pde (cleared s pgdir va) pgdir d = pde s pgdir d := by
  rw [← wf.pde_store (plain_of_user (pgnum_lt_user va user)) here 0 d, pde, mem_cleared]
  rfl

theorem pte_cleared (wf : Hooked pgdir s) (user : va < UTOP)
    (here : present (pde s pgdir (pgnum va / NPTENTRIES)) = true) {m : Nat} (plain : Plain m) :
    pte (cleared s pgdir va) pgdir m = if m = pgnum va then 0 else pte s pgdir m := by
  rw [← wf.pte_store (plain_of_user (pgnum_lt_user va user)) here 0 plain]
  exact pte_of_mem mem_cleared pgdir m

theorem refs_cleared (wf : Hooked pgdir s) (user : va < UTOP)
    (here : present (pde s pgdir (pgnum va / NPTENTRIES)) = true) (q : Nat) :
    refs (cleared s pgdir va) pgdir q + (if MapsTo s pgdir q (pgnum va) then 1 else 0) = refs s pgdir q := by
  have inside := pgnum_lt_user va user
  have change := refs_store wf inside here 0 q
  have same : refs (cleared s pgdir va) pgdir q = refs (s.store (entryLoc s pgdir (pgnum va)) 0) pgdir q := by
    refine refs_congr (same_tables_of_eq fun d _ => ?_) (fun m _ => pte_of_mem mem_cleared pgdir m) q
    rw [pde, mem_cleared]
    rfl
  simp only [not_present_zero, Bool.false_eq_true, false_and, ↓reduceIte, Nat.add_zero] at change
  rw [same]
  exact change

/-- The count of the page that was mapped falls by one, and it was at least one. -/
theorem Ledger.ref_cleared_eq (led : Ledger pgdir base held s) (user : va < UTOP)
    (mapped : present (pte s pgdir (pgnum va)) = true) (q : Nat) :
    (cleared s pgdir va).ref q + (if MapsTo s pgdir q (pgnum va) then 1 else 0) = s.ref q := by
  have inside := pgnum_lt_user va user
  have small := led.frames _ inside mapped
  obtain ⟨count,narrow⟩ := led.counted _ small
  have some : 0 < refs s pgdir (frame (pte s pgdir (pgnum va))) := refs_pos_of_maps inside ⟨mapped,rfl⟩
  unfold owed at count
  rw [ref_cleared, release_ref]
  by_cases same : q = frame (pte s pgdir (pgnum va))
  · subst same
    rw [Function.update_self, if_pos ⟨mapped,rfl⟩]
    omega
  · rw [Function.update_of_ne same, if_neg fun maps => same maps.2.symm]
    rfl

theorem Ledger.owed_cleared (led : Ledger pgdir base held s) (user : va < UTOP)
    (here : present (pde s pgdir (pgnum va / NPTENTRIES)) = true) (mapped : present (pte s pgdir (pgnum va)) = true)
    {q : Nat} (inside : q < s.npages) :
    (cleared s pgdir va).ref q = owed (cleared s pgdir va) pgdir base held q ∧ (cleared s pgdir va).ref q < 2 ^ 16 := by
  have count := led.counted q inside
  have fewer := refs_cleared led.hooked user here q
  have lower := led.ref_cleared_eq user mapped q
  unfold owed at count ⊢
  omega

/-- The free list of `page_remove`: the page joins it when nothing is owed to it any more. -/
theorem Ledger.on_cleared (led : Ledger pgdir base held s) (user : va < UTOP)
    (mapped : present (pte s pgdir (pgnum va)) = true) :
    ∃ nodes, Chain (cleared s pgdir va).link (cleared s pgdir va).pageFreeList nodes ∧
      (∀ q, q ∈ nodes → OnFreeList s q ∨ (q = frame (pte s pgdir (pgnum va)) ∧ (cleared s pgdir va).ref q = 0)) ∧
      ∀ q, q < s.npages → q ∉ nodes → (cleared s pgdir va).link q = none := by
  have inside := pgnum_lt_user va user
  have small := led.frames _ inside mapped
  have taken := led.mapped_taken inside mapped
  have count : (cleared s pgdir va).ref (frame (pte s pgdir (pgnum va))) =
      (s.ref (frame (pte s pgdir (pgnum va))) + (2 ^ 16 - 1)) % 2 ^ 16 := by
    rw [ref_cleared, release_ref, Function.update_self]
  obtain ⟨nodes,chain,_⟩ := led.hooked.free
  have onlist := on_chain_iff chain
  rw [link_cleared]
  change ∃ nodes, Chain _ (release s (frame (pte s pgdir (pgnum va)))).pageFreeList nodes ∧ _
  generalize frame (pte s pgdir (pgnum va)) = p at small taken count ⊢
  have off : p ∉ nodes := fun mem => taken ((onlist p).mpr mem)
  by_cases zero : (s.ref p + (2 ^ 16 - 1)) % 2 ^ 16 = 0
  · obtain ⟨pushed,links⟩ := release_freed chain off zero
    refine ⟨p :: nodes, pushed, fun q mem => ?_, fun q low out => ?_⟩
    · rcases List.mem_cons.mp mem with same | mem
      · exact Or.inr ⟨same, by rw [same, count, zero]⟩
      · exact Or.inl ((onlist q).mpr mem)
    · rw [List.mem_cons, not_or] at out
      rw [links q out.1]
      exact led.unlinked q low fun on => out.2 ((onlist q).mp on)
  · obtain ⟨link,head⟩ := release_kept zero
    rw [link, head]
    exact ⟨nodes, chain, fun q mem => Or.inl ((onlist q).mpr mem),
      fun q low out => led.unlinked q low fun on => out ((onlist q).mp on)⟩

theorem Ledger.cleared (led : Ledger pgdir base held s) (user : va < UTOP)
    (here : present (pde s pgdir (pgnum va / NPTENTRIES)) = true) (mapped : present (pte s pgdir (pgnum va)) = true) :
    Ledger pgdir base held (cleared s pgdir va) := by
  have wf := led.hooked
  have inside := pgnum_lt_user va user
  have small := led.frames _ inside mapped
  have dir := pde_cleared wf user here
  have books := fun q => led.owed_cleared (q := q) user here mapped
  obtain ⟨nodes,chain,mine,unlinked⟩ := led.on_cleared user mapped
  have onlist := on_chain_iff chain
  have idle : ∀ q, q ∈ nodes → q < s.npages ∧ (JosPmap.cleared s pgdir va).ref q = 0 := by
    intro q mem
    rcases mine q mem with before | ⟨same,zero⟩
    · have lower := led.ref_cleared_eq user mapped q
      have none := led.idle q before
      exact ⟨wf.free_in_memory before, by omega⟩
    · exact ⟨same ▸ small, zero⟩
  have kernel : ∀ d, userPdes ≤ d → d < NPDENTRIES → present (pde (JosPmap.cleared s pgdir va) pgdir d) = true →
      0 < base (frame (pde (JosPmap.cleared s pgdir va) pgdir d)) := by
    simp only [dir]
    exact led.kernel_tables
  constructor
  · have stored := wf.store (plain_of_user inside) here 0
    have kept := wf.pde_store (plain_of_user inside) here 0
    refine stored.relist mem_cleared npages_cleared chain fun q mem => ⟨(idle q mem).1, ?_⟩
    obtain ⟨low,zero⟩ := idle q mem
    -- nothing is owed to a page on the list, so it is no table
    have spare := spare_of_owed led.directory kernel ((books q low).1.symm.trans zero)
    simp only [dir] at spare
    simp only [kept]
    exact spare
  · exact led.directory
  · exact kernel
  · simp only [dir]
    exact led.user_tables
  · intro q low out
    rw [npages_cleared] at low
    exact unlinked q low fun mem => out ((onlist q).mpr mem)
  · intro m low flag
    rw [pte_cleared wf user here (plain_of_user low)] at flag ⊢
    rw [npages_cleared]
    split
    · rename_i same
      rw [if_pos same, not_present_zero] at flag
      cases flag
    · rename_i other
      rw [if_neg other] at flag
      exact led.frames m low flag
  · exact fun q on => (idle q ((onlist q).mp on)).2
  · intro q low
    rw [npages_cleared] at low
    exact books q low

end Clear
section Start
variable {pgdir : Nat} {s : Kernel}

theorem refs_empty (empty : ∀ d, d < userPdes → present (pde s pgdir d) = false) (p : Nat) : refs s pgdir p = 0 := by
  have maps : (Finset.range userPages).filter (MapsTo s pgdir p) = ∅ := by
    rw [Finset.filter_eq_empty_iff]
    rintro n user ⟨here,_⟩
    rw [pte_absent (empty _ (user_page_pde n (Finset.mem_range.mp user))), not_present_zero] at here
    cases here
  have tables : (Finset.range userPdes).filter (TableAt s pgdir p) = ∅ := by
    rw [Finset.filter_eq_empty_iff]
    rintro d user ⟨here,_⟩
    rw [empty d (Finset.mem_range.mp user)] at here
    cases here
  simp [refs, maps, tables]

/-- The books are opened before anything is mapped for the user, with the counts as they are. -/
theorem Ledger.start (wf : Hooked pgdir s) (empty : ∀ d, d < userPdes → present (pde s pgdir d) = false)
    (unlinked : ∀ p, p < s.npages → ¬ OnFreeList s p → s.link p = none) (idle : ∀ p, OnFreeList s p → s.ref p = 0)
    (narrow : ∀ p, s.ref p < 2 ^ 16) (directory : 0 < s.ref pgdir)
    (kernel : ∀ d, userPdes ≤ d → d < NPDENTRIES → present (pde s pgdir d) = true → 0 < s.ref (frame (pde s pgdir d))) :
    Ledger pgdir s.ref none s := by
  refine ⟨wf, directory, kernel, fun d user here => ?_, unlinked, fun n user here => ?_, idle, fun p _ => ⟨?_, narrow p⟩⟩
  · rw [empty d user] at here
    cases here
  · rw [pte_absent (empty _ (user_page_pde n user)), not_present_zero] at here
    cases here
  · simp [owed, refs_empty empty]

theorem selfMapped_ledger : Ledger 1 selfMapped.ref none selfMapped := by
  have only : ∀ p, OnFreeList selfMapped p → p = 3 := by
    intro p free
    have mem := (on_chain_iff selfMapped_chain p).mp free
    simpa using mem
  refine Ledger.start selfMapped_hooked (fun d user => ?_) (fun _ _ _ => rfl) (fun p free => ?_) (fun p => ?_)
    (by decide) (fun d _ _ here => ?_)
  · by_contra here
    rw [Bool.not_eq_false] at here
    rw [selfMapped_pde here] at user
    exact absurd user (by decide)
  · rw [only p free]
    rfl
  · simp only [Kernel.ref, selfMapped]
    split <;> decide
  · rw [selfMapped_pde here]
    decide

end Start
end JosPmap
