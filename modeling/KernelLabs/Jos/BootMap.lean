import KernelLabs.Jos.KernPgdir

/-!
`boot_map_region` for every region (lab-3 `kern/pmap.c`), with the sums of physical addresses
taken in 32 bits. The loop over 4KB pages runs in any well-formed directory and makes a table
whenever it enters a slot without one. With 4MB pages the loop over 4KB pages follows all the
same, and `check_va2pa` decodes a large page by the wrong mask.
-/
namespace JosPmap
open LinkedList Counting

def mapLarge32 (pgdir va pa perm : Nat) : Kernel → Nat → Nat → Kernel
  | s, _, 0 => s
  | s, i, count + 1 =>
    mapLarge32 pgdir va pa perm
      (s.store ⟨pgdir, pdx (va + i * N_PGSIZE)⟩ ((pa + i * N_PGSIZE) % 2 ^ 32 ||| perm ||| PTE_P)) (i + 1) count

def mapPages32 (pgdir va pa perm : Nat) : Kernel → Nat → Nat → Except BootPanic Kernel
  | s, _, 0 => .ok s
  | s, i, count + 1 => do
    match ← raise (pgdirWalk s pgdir (va + i * PGSIZE) true) with
    | (none, _) => throw .failedToMapRegion
    | (some pte, s) =>
      mapPages32 pgdir va pa perm (s.store pte ((pa + i * PGSIZE) % 2 ^ 32 ||| perm ||| PTE_P)) (i + 1) count

def bootMapRegion32 (fourMB : Bool) (s : Kernel) (pgdir va size pa perm : Nat) : Except BootPanic Kernel :=
  let s := if fourMB = true ∧ perm &&& PTE_PS ≠ 0 then mapLarge32 pgdir va pa perm s 0 (size / N_PGSIZE) else s
  mapPages32 pgdir va pa perm s 0 (size / PGSIZE)

section Same
variable {pgdir va pa perm : Nat}

theorem mapLarge32_eq (s : Kernel) (i count : Nat) (fits : pa + (i + count) * N_PGSIZE ≤ 2 ^ 32) :
    mapLarge32 pgdir va pa perm s i count = mapLarge pgdir va pa perm s i count := by
  induction count generalizing s i with
  | zero => rfl
  | succ count ih =>
    have next : pa + (i + 1 + count) * N_PGSIZE ≤ 2 ^ 32 := by rwa [Nat.add_right_comm i 1 count]
    have word : (pa + i * N_PGSIZE) % 2 ^ 32 = pa + i * N_PGSIZE := Nat.mod_eq_of_lt (by
      clear next; unfold N_PGSIZE at fits ⊢; omega)
    rw [mapLarge32, mapLarge, word]
    exact ih _ (i + 1) next

theorem mapPages32_eq (s : Kernel) (i count : Nat) (fits : pa + (i + count) * PGSIZE ≤ 2 ^ 32) :
    mapPages32 pgdir va pa perm s i count = mapPages pgdir va pa perm s i count := by
  induction count generalizing s i with
  | zero => rfl
  | succ count ih =>
    have next : pa + (i + 1 + count) * PGSIZE ≤ 2 ^ 32 := by rwa [Nat.add_right_comm i 1 count]
    have word : (pa + i * PGSIZE) % 2 ^ 32 = pa + i * PGSIZE := Nat.mod_eq_of_lt (by
      clear next; unfold PGSIZE at fits ⊢; omega)
    rw [mapPages32, mapPages]
    congr 1
    funext r
    obtain ⟨found,u⟩ := r
    cases found with
    | none => rfl
    | some loc =>
      dsimp only
      rw [word]
      exact ih _ (i + 1) next

/-- For the regions of `mem_init`, which do not wrap, both descriptions agree. -/
theorem bootMapRegion32_eq (fourMB : Bool) (s : Kernel) {size : Nat} (fits : pa + size ≤ 2 ^ 32) :
    bootMapRegion32 fourMB s pgdir va size pa perm = bootMapRegion fourMB s pgdir va size pa perm := by
  have large : pa + (0 + size / N_PGSIZE) * N_PGSIZE ≤ 2 ^ 32 := by
    unfold N_PGSIZE
    omega
  have small : pa + (0 + size / PGSIZE) * PGSIZE ≤ 2 ^ 32 := by
    unfold PGSIZE
    omega
  unfold bootMapRegion32 bootMapRegion
  dsimp only
  rw [mapLarge32_eq s 0 _ large, mapPages32_eq _ 0 _ small]

end Same

section Grown
variable {pgdir : Nat} {s t u : Kernel}

/-- Only tables were added, on pages taken from the head of the free list. -/
structure Grown (pgdir : Nat) (s : Kernel) (new : List Nat) (t : Kernel) : Prop where
  wellFormed : WellFormed pgdir t
  npages : t.npages = s.npages
  taken : ∃ rest, Chain s.link s.pageFreeList (new ++ rest) ∧ Chain t.link t.pageFreeList rest
  slots : ∀ d, pde t pgdir d = pde s pgdir d ∨
    (present (pde s pgdir d) = false ∧ ∃ p ∈ new, pde t pgdir d = tableWord p)
  hooked : ∀ p ∈ new, ∃ d, d < NPDENTRIES ∧ present (pde s pgdir d) = false ∧ pde t pgdir d = tableWord p
  counts : ∀ p, t.ref p = if p ∈ new then (s.ref p + 1) % 2 ^ 16 else s.ref p

theorem Grown.none (wf : WellFormed pgdir s) : Grown pgdir s [] s := by
  obtain ⟨nodes,chain,_⟩ := wf.free
  refine ⟨wf, rfl, ⟨nodes,chain,chain⟩, fun d => Or.inl rfl, fun p mem => ?_, fun p => rfl⟩
  simp at mem

theorem Walked.grown (wf : WellFormed pgdir s) {d : Nat} (low : d < NPDENTRIES) (away : d ≠ pdx UVPT)
    (walked : Walked s pgdir d t) : ∃ new, Grown pgdir s new t := by
  cases walked with
  | found here => exact ⟨[], .none wf⟩
  | made p absent head =>
    obtain ⟨_,other,_⟩ := wf.head_spare head
    obtain ⟨nodes,chain,_⟩ := wf.free
    obtain ⟨rest,rfl,_,popped⟩ := take_head_chain chain head
    have dir := fun e => pde_withTable (s := s) d p e other
    refine ⟨[p], Walked.wellFormed wf away (.made p absent head), rfl, ⟨rest, chain, ?_⟩, fun e => ?_, fun q mem => ?_, fun q => ?_⟩
    · rw [takeHead, link_setLink] at popped
      rw [link_withTable]
      exact popped
    · rw [dir]
      split
      · rename_i same
        exact Or.inr ⟨same ▸ absent, p, by simp, rfl⟩
      · exact Or.inl rfl
    · have same : q = p := by simpa using mem
      exact ⟨d, low, absent, by rw [dir, if_pos rfl, same]⟩
    · rw [ref_withTable]
      by_cases same : q = p
      · simp [same]
      · simp [same]

theorem Grown.store {new : List Nat} (grown : Grown pgdir s new t) {n : Nat} (plain : Plain n)
    (here : present (pde t pgdir (n / NPTENTRIES)) = true) (word : Nat) :
    Grown pgdir s new (t.store (entryLoc t pgdir n) word) := by
  have dir := grown.wellFormed.pde_store plain here word
  refine ⟨grown.wellFormed.store plain here word, grown.npages, grown.taken, ?_, ?_, grown.counts⟩
  · simp only [dir]
    exact grown.slots
  · simp only [dir]
    exact grown.hooked

theorem Grown.trans {first second : List Nat} (one : Grown pgdir s first t) (two : Grown pgdir t second u) :
    Grown pgdir s (first ++ second) u := by
  obtain ⟨rest,whole,left⟩ := one.taken
  obtain ⟨last,part,final⟩ := two.taken
  have same := chain_unique left part
  subst same
  have apart : ∀ p ∈ first, p ∉ second := by
    have nodup := List.nodup_append.mp (chain_nodup whole)
    exact fun p here there => nodup.2.2 p here p (List.mem_append_left _ there) rfl
  refine ⟨two.wellFormed, two.npages.trans one.npages, ⟨last, by rw [List.append_assoc]; exact whole, final⟩,
    fun d => ?_, fun p mem => ?_, fun p => ?_⟩
  · rcases two.slots d with kept | ⟨absent,p,mem,word⟩
    · rw [kept]
      rcases one.slots d with same | ⟨before,p,mem,word⟩
      · exact Or.inl same
      · exact Or.inr ⟨before, p, List.mem_append_left _ mem, word⟩
    · rcases one.slots d with same | ⟨before,_⟩
      · exact Or.inr ⟨same ▸ absent, p, List.mem_append_right _ mem, word⟩
      · exact Or.inr ⟨before, p, List.mem_append_right _ mem, word⟩
  · rcases List.mem_append.mp mem with early | late
    · obtain ⟨d,low,absent,word⟩ := one.hooked p early
      refine ⟨d, low, absent, ?_⟩
      rcases two.slots d with kept | ⟨gone,_⟩
      · rw [kept, word]
      · rw [word, present_tableWord] at gone
        cases gone
    · obtain ⟨d,low,absent,word⟩ := two.hooked p late
      refine ⟨d, low, ?_, word⟩
      rcases one.slots d with same | ⟨before,_⟩
      · exact same ▸ absent
      · exact before
  · rw [two.counts, one.counts]
    by_cases late : p ∈ second
    · have early : p ∉ first := fun early => apart p early late
      simp [late, early]
    · simp [late]

end Grown

section Loop
variable {pgdir : Nat} {s : Kernel}

/-- The slots of the pages from `q` on that have no table yet. -/
def missingSlots (s : Kernel) (pgdir q count : Nat) : Finset Nat :=
  ((Finset.range count).image fun j => (q + j) / NPTENTRIES).filter fun d => present (pde s pgdir d) = false

/-- The free list has a page for each of them. -/
def EnoughFree (s : Kernel) (pgdir q count : Nat) : Prop :=
  ∃ nodes, Chain s.link s.pageFreeList nodes ∧ (missingSlots s pgdir q count).card ≤ nodes.length

theorem mem_missingSlots {q count d : Nat} : d ∈ missingSlots s pgdir q count ↔
    (∃ j, j < count ∧ (q + j) / NPTENTRIES = d) ∧ present (pde s pgdir d) = false := by
  simp [missingSlots]

theorem missingSlots_next {t : Kernel} {q count : Nat} (grows : ∀ d, present (pde s pgdir d) = true → present (pde t pgdir d) = true) :
    missingSlots t pgdir (q + 1) count ⊆ missingSlots s pgdir q (count + 1) := by
  intro d mem
  rw [mem_missingSlots] at mem ⊢
  obtain ⟨⟨j,low,slot⟩,absent⟩ := mem
  refine ⟨⟨j + 1, by omega, by rw [← slot]; congr 1; omega⟩, ?_⟩
  by_contra here
  rw [Bool.not_eq_false] at here
  rw [grows d here] at absent
  cases absent

/-- One round of the loop takes a page only for a slot that was missing. -/
theorem EnoughFree.walk (wf : Hooked pgdir s) {q count : Nat} (enough : EnoughFree s pgdir q (count + 1)) {t : Kernel}
    (walked : Walked s pgdir (q / NPTENTRIES) t) : EnoughFree t pgdir (q + 1) count := by
  obtain ⟨nodes,chain,room⟩ := enough
  cases walked with
  | found here => exact ⟨nodes, chain, Nat.le_trans (Finset.card_le_card (missingSlots_next fun _ => id)) room⟩
  | made p absent head =>
    obtain ⟨_,other,_⟩ := wf.head_spare head
    obtain ⟨rest,rfl,_,popped⟩ := take_head_chain chain head
    rw [takeHead, link_setLink] at popped
    refine ⟨rest, by rw [link_withTable]; exact popped, ?_⟩
    have dir := fun e => pde_withTable (s := s) (q / NPTENTRIES) p e other
    have fewer : missingSlots (withTable s pgdir (q / NPTENTRIES) p) pgdir (q + 1) count ⊂
        missingSlots s pgdir q (count + 1) := by
      refine (Finset.ssubset_iff_of_subset (missingSlots_next fun d here => ?_)).mpr ⟨q / NPTENTRIES, ?_, ?_⟩
      · rw [dir]
        split
        · exact present_tableWord p
        · exact here
      · exact mem_missingSlots.mpr ⟨⟨0, by omega, rfl⟩, absent⟩
      · intro again
        have gone := (mem_missingSlots.mp again).2
        rw [dir, if_pos rfl, present_tableWord] at gone
        cases gone
    have less := Finset.card_lt_card fewer
    rw [List.length_cons] at room
    omega

theorem EnoughFree.page_left {q count : Nat} (enough : EnoughFree s pgdir q (count + 1))
    (absent : present (pde s pgdir (q / NPTENTRIES)) = false) : s.pageFreeList ≠ none := by
  obtain ⟨nodes,chain,room⟩ := enough
  have some : 0 < (missingSlots s pgdir q (count + 1)).card :=
    Finset.card_pos.mpr ⟨_, mem_missingSlots.mpr ⟨⟨0, by omega, rfl⟩, absent⟩⟩
  cases nodes with
  | nil =>
    rw [List.length_nil] at room
    omega
  | cons p rest => rw [chain.1]; simp

theorem enoughFree_store {q count n : Nat} (wf : Hooked pgdir s) (plain : Plain n)
    (here : present (pde s pgdir (n / NPTENTRIES)) = true) (word : Nat) (enough : EnoughFree s pgdir q count) :
    EnoughFree (s.store (entryLoc s pgdir n) word) pgdir q count := by
  obtain ⟨nodes,chain,room⟩ := enough
  refine ⟨nodes, chain, ?_⟩
  simp only [missingSlots, wf.pde_store plain here]
  exact room

/-- The loop over 4KB pages, from page `q` of the address space on. -/
theorem mapPages32_maps (q pa perm count i : Nat) (wf : WellFormed pgdir s) (top : q + i + count ≤ 2 ^ 20)
    (away : ∀ j, i ≤ j → j < i + count → (q + j) / NPTENTRIES ≠ pdx UVPT) (enough : EnoughFree s pgdir (q + i) count) :
    ∃ t new, mapPages32 pgdir (page2pa q) pa perm s i count = .ok t ∧ Grown pgdir s new t ∧
      ∀ n, Plain n → pte t pgdir n = if q + i ≤ n ∧ n < q + i + count
        then (pa + (n - q) * PGSIZE) % 2 ^ 32 ||| perm ||| PTE_P else pte s pgdir n := by
  induction count generalizing i s with
  | zero =>
    refine ⟨s, [], rfl, .none wf, fun n _ => ?_⟩
    rw [if_neg (by omega)]
  | succ count ih =>
    obtain ⟨slot,number,word⟩ := page_pdx q i (by omega)
    have first := away i (Nat.le_refl i) (by omega)
    have plain : Plain (q + i) := ⟨by simp only [NPTENTRIES, NPDENTRIES]; omega, first⟩
    obtain ⟨absent,empty,_⟩ | ⟨u,walked,run⟩ := walk_create wf.toHooked word (slot ▸ first)
    · rw [slot] at absent
      exact absurd empty (enough.page_left absent)
    have wfU := walked.wellFormed wf (slot ▸ first)
    have here := walked.here wf.toHooked
    obtain ⟨early,grown⟩ := walked.grown wf (pdx_lt _) (slot ▸ first)
    rw [slot] at here walked
    rw [number] at run
    have room := enoughFree_store wfU.toHooked plain here ((pa + i * PGSIZE) % 2 ^ 32 ||| perm ||| PTE_P)
      (enough.walk wf.toHooked walked)
    obtain ⟨t,late,rest,grownT,entries⟩ := ih (i + 1) (wfU.store plain here _) (by omega)
      (fun j low high => away j (by omega) (by omega)) room
    refine ⟨t, early ++ late, ?_, (grown.store plain here _).trans grownT, fun n inside => ?_⟩
    · simp only [mapPages32, run, raise]
      exact rest
    · rw [entries n inside, wfU.pte_store plain here _ inside, walked.pte wf.toHooked inside]
      by_cases here : n = q + i
      · subst here
        rw [if_neg (by omega), if_pos rfl, if_pos (by omega), Nat.add_sub_cancel_left]
      · by_cases later : q + (i + 1) ≤ n ∧ n < q + (i + 1) + count
        · rw [if_pos later, if_pos (by omega)]
        · rw [if_neg later, if_neg here, if_neg (by omega)]

end Loop

section Region
variable {pgdir : Nat} {s t : Kernel}

/-- A table was made for slot `d`. -/
def NewTable (s t : Kernel) (pgdir d : Nat) : Prop :=
  present (pde s pgdir d) = false ∧ present (pde t pgdir d) = true

theorem Grown.pde_kept {new : List Nat} (grown : Grown pgdir s new t) {d : Nat} (old : ¬ NewTable s t pgdir d) :
    pde t pgdir d = pde s pgdir d := by
  rcases grown.slots d with same | ⟨absent,p,_,word⟩
  · exact same
  · exact absurd ⟨absent, by rw [word, present_tableWord]⟩ old

/-- New tables are seen through the window only. -/
theorem Grown.translate {new : List Nat} (wf : WellFormed pgdir s) (grown : Grown pgdir s new t) {n : Nat}
    (low : n < 2 ^ 20) (entry : Plain n → pte t pgdir n = pte s pgdir n)
    (unseen : n / NPTENTRIES = pdx UVPT → ¬ NewTable s t pgdir (n % NPTENTRIES)) :
    translate t pgdir n = translate s pgdir n := by
  by_cases window : n / NPTENTRIES = pdx UVPT
  · have slot : pde t pgdir (pdx UVPT) = pde s pgdir (pdx UVPT) := by
      rcases grown.slots (pdx UVPT) with same | ⟨_,p,mem,word⟩
      · exact same
      · -- a new table is not the directory
        have self := grown.wellFormed.window (by rw [word, present_tableWord])
        rw [word, frame_tableWord] at self
        obtain ⟨rest,chain,_⟩ := grown.taken
        obtain ⟨nodes,again,free⟩ := wf.free
        rw [chain_unique again chain] at free
        exact absurd self (free p (List.mem_append_left _ mem)).2.1
    refine translate_congr (by rw [window, slot]) ?_
    by_cases self : present (pde s pgdir (pdx UVPT)) = true
    · rw [grown.wellFormed.pte_window (slot ▸ self) window, wf.pte_window self window, grown.pde_kept (unseen window)]
    · rw [Bool.not_eq_true] at self
      rw [pte_absent (by rw [window, slot]; exact self), pte_absent (by rw [window]; exact self)]
  · have plain : Plain n := ⟨by simp only [NPTENTRIES, NPDENTRIES]; omega, window⟩
    rcases grown.slots (n / NPTENTRIES) with same | ⟨absent,_⟩
    · exact translate_congr same (entry plain)
    · have zero : pte s pgdir n = 0 := pte_absent absent
      rw [translate_absent (by rw [entry plain, zero, not_present_zero]),
        translate_absent (by rw [zero, not_present_zero])]

/-- A region of 4KB pages that keeps away from the window at `UVPT`. -/
structure Region (va size pa perm : Nat) : Prop where
  va_aligned : PGSIZE ∣ va
  size_aligned : PGSIZE ∣ size
  pa_aligned : PGSIZE ∣ pa
  top : va + size ≤ 2 ^ 32
  away : ∀ i, i < size → pdx (va + i) ≠ pdx UVPT
  flags : perm < PGSIZE
  small : perm &&& PTE_PS = 0

theorem Region.pages {va size pa perm : Nat} (region : Region va size pa perm) :
    va = page2pa (pgnum va) ∧ size = size / PGSIZE * PGSIZE ∧ pgnum va + size / PGSIZE ≤ 2 ^ 20 ∧
    ∀ j, j < size / PGSIZE → (pgnum va + j) / NPTENTRIES ≠ pdx UVPT := by
  obtain ⟨a,rfl⟩ := region.va_aligned
  obtain ⟨b,rfl⟩ := region.size_aligned
  have top := region.top
  refine ⟨?_, ?_, ?_, fun j low => ?_⟩
  · simp only [page2pa, pgnum, PGSIZE]
    omega
  · simp only [PGSIZE]
    omega
  · simp only [pgnum, PGSIZE] at top ⊢
    omega
  · have inside := region.away (j * PGSIZE) (by simp only [PGSIZE] at low ⊢; omega)
    have slot : pdx (PGSIZE * a + j * PGSIZE) = (pgnum (PGSIZE * a) + j) / NPTENTRIES := by
      simp only [pdx, pgnum, PGSIZE, NPTENTRIES] at top low ⊢
      omega
    rwa [slot] at inside

end Region

/-- `boot_map_region` with 4KB pages: given a free page for each table that is missing, it does
    not panic and maps the region; every translation outside it stays, but for the pages of the
    window at `UVPT` that now show the new tables, and only the counts of these tables rise. -/
theorem boot_map_region_maps (fourMB : Bool) (s : Kernel) (pgdir va size pa perm : Nat) (wf : WellFormed pgdir s)
    (idle : ∀ p, OnFreeList s p → s.ref p = 0) (region : Region va size pa perm)
    (enough : EnoughFree s pgdir (pgnum va) (size / PGSIZE)) :
    ∃ t, ∃ new : List Nat, bootMapRegion32 fourMB s pgdir va size pa perm = .ok t ∧
      (∀ i, i < size → PGSIZE ∣ i → checkVa2pa t pgdir (va + i) = .ok ((pa + i) % 2 ^ 32) ∧
        flagBits (pte t pgdir (pgnum (va + i))) = perm ||| PTE_P) ∧
      (∀ n, n < 2 ^ 20 → ¬ (va ≤ page2pa n ∧ page2pa n < va + size) →
        (n / NPTENTRIES = pdx UVPT → ¬ NewTable s t pgdir (n % NPTENTRIES)) →
        translate t pgdir n = translate s pgdir n) ∧
      (∀ p, t.ref p = s.ref p + if p ∈ new then 1 else 0) ∧ new.Nodup ∧
      ∀ p ∈ new, OnFreeList s p ∧ ∃ d, NewTable s t pgdir d ∧ frame (pde t pgdir d) = p := by
  obtain ⟨start,length,top,away⟩ := region.pages
  have plain : bootMapRegion32 fourMB s pgdir va size pa perm = mapPages32 pgdir va pa perm s 0 (size / PGSIZE) := by
    unfold bootMapRegion32
    rw [if_neg (by simp [region.small])]
  obtain ⟨t,new,run,grown,entries⟩ := mapPages32_maps (pgnum va) pa perm (size / PGSIZE) 0 wf (by simpa using top)
    (fun j _ high => away j (by simpa using high)) (by simpa using enough)
  rw [← start] at run
  obtain ⟨rest,chain,_⟩ := grown.taken
  have free : ∀ p ∈ new, OnFreeList s p := fun p mem => (on_chain_iff chain p).mpr (List.mem_append_left _ mem)
  refine ⟨t, new, plain.trans run, fun i inside aligned => ?_, fun n low outside unseen => ?_, fun p => ?_,
    (List.nodup_append.mp (chain_nodup chain)).1, fun p mem => ⟨free p mem, ?_⟩⟩
  · obtain ⟨k,rfl⟩ := aligned
    obtain ⟨b,rfl⟩ := region.size_aligned
    have number : pgnum (va + PGSIZE * k) = pgnum va + k := by
      rw [start]
      simp only [pgnum, page2pa, PGSIZE]
      omega
    have word : va + PGSIZE * k < 2 ^ 32 := Nat.lt_of_lt_of_le (Nat.add_lt_add_left inside va) region.top
    have count : k < PGSIZE * b / PGSIZE := by
      simp only [PGSIZE] at inside ⊢
      omega
    have page : Plain (pgnum va + k) := ⟨by simp only [NPTENTRIES, NPDENTRIES]; omega, away k count⟩
    have entry := entries _ page
    rw [if_pos (by omega), Nat.add_sub_cancel_left, Nat.mul_comm k] at entry
    have offset : PGSIZE ∣ (pa + PGSIZE * k) % 2 ^ 32 := by
      obtain ⟨a,rfl⟩ := region.pa_aligned
      simp only [PGSIZE]
      omega
    obtain ⟨address,flags⟩ := entry_word offset region.flags
    rw [checkVa2pa_spec grown.wellFormed word (number ▸ page), number, entry, present_user_entry, if_pos rfl, address]
    exact ⟨rfl,flags⟩
  · refine grown.translate wf low (fun page => ?_) unseen
    rw [entries n page, if_neg]
    intro inside
    refine outside ?_
    rw [start, length]
    simp only [page2pa, PGSIZE] at inside ⊢
    omega
  · rw [grown.counts]
    by_cases mem : p ∈ new
    · rw [if_pos mem, if_pos mem, idle p (free p mem)]
      rfl
    · rw [if_neg mem, if_neg mem]
      rfl
  · obtain ⟨d,_,absent,word⟩ := grown.hooked p mem
    exact ⟨d, ⟨absent, by rw [word, present_tableWord]⟩, by rw [word, frame_tableWord]⟩

section Window

theorem selfMapped_idle (p : Nat) (free : OnFreeList selfMapped p) : selfMapped.ref p = 0 := by
  have mem := (on_chain_iff selfMapped_chain p).mp free
  have same : p = 3 := by simpa using mem
  subst same
  rfl

theorem kernbase_region : Region 0xF0000000 4096 0 PTE_W := by
  refine ⟨by decide, by decide, by decide, by decide, fun i inside => ?_, by decide, by decide⟩
  rw [uvpt_slot]
  simp only [pdx, PGSIZE, NPTENTRIES]
  omega

theorem selfMapped_enough : EnoughFree selfMapped 1 (pgnum 0xF0000000) (4096 / PGSIZE) := by
  refine ⟨[3], selfMapped_chain, ?_⟩
  exact Nat.le_trans (Finset.card_filter_le _ _) (Nat.le_trans Finset.card_image_le (by decide))

theorem boot_map_region_maps_kernbase : ∃ t, bootMapRegion32 false selfMapped 1 0xF0000000 4096 0 PTE_W = .ok t ∧
    checkVa2pa t 1 (0xF0000000 + 0) = .ok 0 := by
  obtain ⟨t,_,run,maps,_⟩ := boot_map_region_maps false selfMapped 1 0xF0000000 4096 0 PTE_W selfMapped_wellFormed
    selfMapped_idle kernbase_region selfMapped_enough
  exact ⟨t, run, (maps 0 (by decide) (by decide)).1⟩

/-- Mapping one page at `KERNBASE` makes a table, and the address of that table in the window at
    `UVPT`, which had no translation, now has one. -/
theorem window_shows_table : WellFormed 1 selfMapped ∧ Region 0xF0000000 4096 0 PTE_W ∧
    EnoughFree selfMapped 1 (pgnum 0xF0000000) (4096 / PGSIZE) ∧
    ∃ t, bootMapRegion32 false selfMapped 1 0xF0000000 4096 0 PTE_W = .ok t ∧
      checkVa2pa selfMapped 1 0xEF7C0000 = .ok 0xffffffff ∧ checkVa2pa t 1 0xEF7C0000 = .ok 0x3000 :=
  ⟨selfMapped_wellFormed, kernbase_region, selfMapped_enough, _, rfl, by rfl, by rfl⟩

end Window

section Large
variable {pgdir : Nat} {s t : Kernel}

/-- An entry for a large page, as `check_va2pa` tests it. -/
def LargeWord (word : Nat) : Prop := present word = true ∧ word &&& PTE_PS ≠ 0

theorem large_written (pa perm : Nat) : LargeWord (pa ||| (perm ||| PTE_PS) ||| PTE_P) := by
  refine ⟨present_user_entry pa (perm ||| PTE_PS), ?_⟩
  have shift : PTE_PS = 2 ^ 7 := rfl
  have bit : (pa ||| (perm ||| PTE_PS) ||| PTE_P).testBit 7 = true := by
    rw [Nat.testBit_or, Nat.testBit_or, Nat.testBit_or]
    simp [show PTE_PS.testBit 7 = true by decide]
  rw [shift, Nat.and_two_pow]
  rw [← shift, bit]
  decide

/-- The slots of the region all hold large pages. -/
def LargeSlots (s : Kernel) (pgdir va count : Nat) : Prop :=
  ∀ j, j < count → LargeWord (pde s pgdir (pdx (va + j * N_PGSIZE)))

theorem LargeSlots.store {va count : Nat} (large : LargeSlots s pgdir va count) (loc : PteLoc) {word : Nat}
    (written : LargeWord word) : LargeSlots (s.store loc word) pgdir va count := by
  intro j low
  rw [pde, mem_store]
  split
  · exact written
  · exact large j low

theorem LargeSlots.write {va count : Nat} (large : LargeSlots s pgdir va count) {word : Nat} (written : LargeWord word) :
    LargeSlots (s.store ⟨pgdir, pdx (va + count * N_PGSIZE)⟩ word) pgdir va (count + 1) := by
  intro j low
  by_cases last : j = count
  · rw [last, pde, mem_store, if_pos ⟨rfl,rfl⟩]
    exact written
  · exact large.store _ written j (by omega)

theorem mapLarge32_slots {va pa perm : Nat} (count i : Nat) (large : LargeSlots s pgdir va i) :
    LargeSlots (mapLarge32 pgdir va pa (perm ||| PTE_PS) s i count) pgdir va (i + count) := by
  induction count generalizing s i with
  | zero => exact large
  | succ count ih =>
    rw [mapLarge32, Nat.add_comm count 1, ← Nat.add_assoc]
    exact ih (i + 1) (large.write (large_written _ perm))

/-- The walk takes a large page for a table and stops there. -/
theorem walk_large {va : Nat} {found : Option PteLoc} (here : present (pde s pgdir (pdx va)) = true)
    (run : pgdirWalk s pgdir va true = .ok (found, t)) : t = s ∧ found ≠ none := by
  have flag : present (s.load ⟨pgdir, pdx va⟩) = true := here
  simp only [pgdirWalk, flag, ↓reduceIte] at run
  obtain ⟨table,_,done⟩ := bind_ok run
  injection done with pair
  injection pair with place same
  exact ⟨same.symm, by rw [← place]; simp⟩

theorem large_slot {va : Nat} (aligned : N_PGSIZE ∣ va) (i : Nat) :
    pdx (va + i * PGSIZE) = pdx (va + i / NPTENTRIES * N_PGSIZE) := by
  obtain ⟨a,rfl⟩ := aligned
  simp only [pdx, PGSIZE, NPTENTRIES, N_PGSIZE]
  omega

/-- All the loop over 4KB pages writes after large pages looks like an entry for a large page. -/
theorem mapPages32_slots {va pa perm slots : Nat} (aligned : N_PGSIZE ∣ va) (count i : Nat)
    (fits : i + count ≤ slots * NPTENTRIES) (large : LargeSlots s pgdir va slots)
    (run : mapPages32 pgdir va pa (perm ||| PTE_PS) s i count = .ok t) : LargeSlots t pgdir va slots := by
  induction count generalizing s i with
  | zero =>
    injection run with same
    rwa [← same]
  | succ count ih =>
    have slot : i / NPTENTRIES < slots := by
      unfold NPTENTRIES at fits ⊢
      omega
    have here := (large _ slot).1
    rw [← large_slot aligned] at here
    rw [mapPages32] at run
    cases walk : pgdirWalk s pgdir (va + i * PGSIZE) true with
    | error e =>
      rw [walk] at run
      cases run
    | ok r =>
      obtain ⟨found,u⟩ := r
      obtain ⟨same,some⟩ := walk_large here walk
      subst same
      rw [walk] at run
      cases found with
      | none => exact absurd rfl some
      | some loc => exact ih (i + 1) (by omega) (large.store loc (large_written _ perm)) run

/-- `PDE_ADDR` keeps the flags of the entry and drops its address. -/
theorem checkVa2pa_large {va : Nat} (large : LargeWord (pde s pgdir (pdx va))) :
    ∃ pa, checkVa2pa s pgdir va = .ok pa ∧ pa % 2 = 1 := by
  obtain ⟨here,size⟩ := large
  refine ⟨pde s pgdir (pdx va) &&& 0x3fffff ||| va &&& 0x3fffff, ?_, ?_⟩
  · simp only [pde] at here size
    simp only [checkVa2pa, here, Bool.true_eq_false, ↓reduceIte, size, ne_eq, not_false_eq_true, pde]
  · rw [Nat.or_mod_two_eq_one, Nat.and_mod_two_eq_one]
    exact Or.inl ⟨(present_iff _).mp here, by decide⟩

/-- A region of 4MB pages that nothing is mapped in. -/
structure LargeRegion (s : Kernel) (pgdir va size pa : Nat) : Prop where
  va_aligned : N_PGSIZE ∣ va
  size_aligned : N_PGSIZE ∣ size
  pa_aligned : N_PGSIZE ∣ pa
  top : va + size ≤ 2 ^ 32
  unmapped : ∀ i, i < size → checkVa2pa s pgdir (va + i) = .ok 0xffffffff

/-- The region is mapped and nothing but the directory was written. -/
def LargeRight (s : Kernel) (pgdir va size pa perm : Nat) : Prop :=
  ∃ t, bootMapRegion32 true s pgdir va size pa (perm ||| PTE_PS) = .ok t ∧
    (∀ i, i < size → PGSIZE ∣ i → checkVa2pa t pgdir (va + i) = .ok ((pa + i) % 2 ^ 32)) ∧
    (∀ p, p ≠ pgdir → t.mem p = s.mem p) ∧ t.pages = s.pages ∧ t.pageFreeList = s.pageFreeList

theorem large_flag (perm : Nat) : (perm ||| PTE_PS) &&& PTE_PS ≠ 0 := by
  rw [Nat.and_comm, Nat.and_or_distrib_left, Nat.and_self]
  intro zero
  exact absurd (Nat.or_eq_zero_iff.mp zero).2 (by decide)

theorem large_region_wrong {va size pa perm : Nat} (region : LargeRegion s pgdir va size pa) (some : 0 < size) :
    ¬ LargeRight s pgdir va size pa perm := by
  rintro ⟨t,run,maps,_⟩
  unfold bootMapRegion32 at run
  rw [if_pos ⟨rfl, large_flag perm⟩] at run
  obtain ⟨b,rfl⟩ := region.size_aligned
  have count : N_PGSIZE * b / N_PGSIZE = b := Nat.mul_div_cancel_left b (by decide)
  have pages : N_PGSIZE * b / PGSIZE = b * NPTENTRIES := by
    unfold N_PGSIZE PGSIZE NPTENTRIES
    omega
  rw [count, pages] at run
  have start : LargeSlots s pgdir va 0 := fun j low => absurd low (Nat.not_lt_zero j)
  have written : LargeSlots (mapLarge32 pgdir va pa (perm ||| PTE_PS) s 0 b) pgdir va (0 + b) := mapLarge32_slots b 0 start
  rw [Nat.zero_add] at written
  have slots := mapPages32_slots region.va_aligned _ 0 (by omega) written run
  have first := slots 0 (Nat.pos_of_mul_pos_left some)
  rw [Nat.zero_mul, Nat.add_zero] at first
  obtain ⟨address,found,odd⟩ := checkVa2pa_large first
  have wanted := maps 0 some (Nat.dvd_zero _)
  rw [Nat.add_zero, Nat.add_zero, found] at wanted
  injection wanted with same
  obtain ⟨a,rfl⟩ := region.pa_aligned
  unfold N_PGSIZE at same
  omega

/-- With 4MB pages `boot_map_region` does what it does with 4KB pages for the empty region only. -/
theorem boot_map_region_large_iff (s : Kernel) (pgdir va size pa perm : Nat) (region : LargeRegion s pgdir va size pa) :
    LargeRight s pgdir va size pa perm ↔ size = 0 := by
  constructor
  · intro right
    by_contra some
    exact large_region_wrong region (Nat.pos_of_ne_zero some) right
  · rintro rfl
    refine ⟨s, ?_, fun i inside => absurd inside (Nat.not_lt_zero i), fun _ _ => rfl, rfl, rfl⟩
    unfold bootMapRegion32
    rw [if_pos ⟨rfl, large_flag perm⟩]
    rfl

theorem boot_map_region_large_empty : LargeRight selfMapped 1 0xF0000000 0 0 PTE_W :=
  (boot_map_region_large_iff selfMapped 1 0xF0000000 0 0 PTE_W
    ⟨by decide, by decide, by decide, by decide, fun i inside => absurd inside (Nat.not_lt_zero i)⟩).mpr rfl

theorem selfMapped_region : LargeRegion selfMapped 1 0xF0000000 N_PGSIZE 0 := by
  refine ⟨by decide, by decide, by decide, by decide, fun i inside => ?_⟩
  have slot : pdx (0xF0000000 + i) = 960 := by
    simp only [pdx, PGSIZE, NPTENTRIES, N_PGSIZE] at inside ⊢
    omega
  have absent : selfMapped.mem 1 960 = 0 := by decide
  simp only [checkVa2pa, slot, absent, not_present_zero, ↓reduceIte]

/-- One large page at `KERNBASE` for the physical memory from 0 on. -/
theorem large_page_at_kernbase : LargeRegion selfMapped 1 0xF0000000 N_PGSIZE 0 ∧
    ¬ LargeRight selfMapped 1 0xF0000000 N_PGSIZE 0 PTE_W :=
  ⟨selfMapped_region, large_region_wrong selfMapped_region (by decide)⟩

end Large
end JosPmap
