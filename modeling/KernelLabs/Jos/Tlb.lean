import KernelLabs.Jos.Monitor
import KernelLabs.Jos.PageRuns
import KernelLabs.Lib.CacheFlush
import KernelLabs.Lib.Transition

/-!
The TLB next to the page operations. Each operation is taken apart into the writes it makes
to `pages`, to the free list and to memory, in the order of the source, and its `invlpg`;
between any two of them the processor may copy any present entry of the installed
directory, user or kernel, into the TLB. The TLB is a set of pairs here, so a copy does not
displace an older one.
-/
namespace JosPmap
open CacheFlush Transition

/-- The numbers of the pages of the address space. -/
abbrev Vpn := Fin (2 ^ 20)

/-- The page of the window at `UVPT` whose entry is the directory entry of `va`. -/
def uvptPage (va : Nat) : Nat := pdx UVPT * NPTENTRIES + pdx va

inductive Effect where
  | pageFreeList (head : Option Nat)
  | ppLink (p : Nat) (next : Option Nat)
  | ppRef (p n : Nat)
  | zeroPage (p : Nat)
  | store (loc : PteLoc) (word : Nat)
  | invlpg (va : Nat)
  deriving DecidableEq, Repr

def Effect.apply : Effect → Kernel → Kernel
  | .pageFreeList head, s => { s with pageFreeList := head }
  | .ppLink p next, s => s.setLink p next
  | .ppRef p n, s => s.setRef p n
  | .zeroPage p, s => s.zeroPage p
  | .store loc word, s => s.store loc word
  | .invlpg va, s => tlbInvalidate s va

def Effect.flushes : Effect → Vpn → Bool
  | .invlpg va, n => n.val == pgnum va
  | _, _ => false

/-- The processor's cache of the entries of one directory. -/
def mmu (pgdir : Nat) : Device Kernel Vpn Nat Effect where
  view s n := pte s pgdir n.val
  cacheable entry := present entry = true
  apply := Effect.apply
  flushes := Effect.flushes

def pageAllocEffects (s : Kernel) (allocZero : Bool) : List Effect :=
  match s.pageFreeList with
  | none => []
  | some sendPage =>
    [.pageFreeList (s.link sendPage), .ppLink sendPage none] ++ if allocZero then [.zeroPage sendPage] else []

/-- What `pgdir_walk` does to the kernel when it creates the table. -/
def pgdirWalkEffects (s : Kernel) (pgdir va : Nat) : List Effect :=
  if present (s.load ⟨pgdir, pdx va⟩) then []
  else
    match s.pageFreeList with
    | none => []
    | some newPage =>
      pageAllocEffects s true ++ [.ppRef newPage (s.ref newPage + 1),
        .store ⟨pgdir, pdx va⟩ (page2pa newPage ||| PTE_P ||| PTE_W ||| PTE_U)]

def pageDecrefEffects (s : Kernel) (pp : Nat) : List Effect :=
  .ppRef pp (s.ref pp + (2 ^ 16 - 1)) ::
    if (s.ref pp + (2 ^ 16 - 1)) % 2 ^ 16 = 0 then [.ppLink pp s.pageFreeList, .pageFreeList (some pp)]
    else []

def pageRemoveEffects (s : Kernel) (pgdir va : Nat) : Except Panic (List Effect) := do
  match ← pageLookup s pgdir va with
  | (none, _) => return []
  | (some (checkPage, pte), s) =>
    let _ ← pageDecref s checkPage
    return pageDecrefEffects s checkPage ++ [.store pte 0, .invlpg va]

/-- The effects of `page_insert` with those of its `page_remove`, if it calls it. -/
def insertEffects (s walked : Kernel) (pgdir pp va perm : Nat) (pte : PteLoc) (removal : List Effect) :
    List Effect :=
  let removed := (mmu pgdir).replay (walked.setRef pp (walked.ref pp + 1)) removal
  let filled := removed.store pte (page2pa pp ||| perm ||| PTE_P)
  pgdirWalkEffects s pgdir va ++ .ppRef pp (walked.ref pp + 1) :: (removal ++
    [.store pte (page2pa pp ||| perm ||| PTE_P),
     .store ⟨pgdir, pdx va⟩ (filled.load ⟨pgdir, pdx va⟩ ||| perm)])

def pageInsertEffects (s : Kernel) (pgdir pp va perm : Nat) : Except Panic (List Effect) := do
  match ← pgdirWalk s pgdir va true with
  | (none, _) => return []
  | (some pte, walked) =>
    let counted := walked.setRef pp (walked.ref pp + 1)
    let removal ← (if present (counted.load pte) then pageRemoveEffects counted pgdir va else .ok [] :
      Except Panic (List Effect))
    return insertEffects s walked pgdir pp va perm pte removal

def monSetpermEffects (s : Kernel) (pgdir : Nat) (argv : List String) : Except Panic (List Effect) :=
  if argv.length ≠ 3 ∨ setpermPrem argv > 0x100 then return []
  else do
    match ← pgdirWalk s pgdir (unsigned (setpermStart argv)) false with
    | (none, _) => return []
    | (some pte, s) => return [.store pte (s.load pte ||| unsigned (setpermPrem argv))]

section Replay
variable {s t : Kernel} {pgdir : Nat}

theorem map_ok {α β : Type} {x : Except Panic α} {f : α → β} {r : β} (run : x.map f = .ok r) :
    ∃ a, x = .ok a ∧ f a = r := by
  cases x with
  | error e => cases run
  | ok a =>
    cases run
    exact ⟨a,rfl,rfl⟩

theorem entryLoc_va {va : Nat} (user : va < UTOP) :
    (⟨frame (pde s pgdir (pdx va)), ptx va⟩ : PteLoc) = entryLoc s pgdir (pgnum va) := by
  simp only [entryLoc, pgnum_div_eq_pdx va user, pgnum_mod_eq_ptx]

theorem pageLookup_loc {managed : Nat → Prop} {held : Option Nat} (acc : Accounted managed pgdir held s)
    {va p : Nat} {loc : PteLoc} (user : va < UTOP) (run : pageLookup s pgdir va = .ok (some (p, loc), t)) :
    present (pde s pgdir (pdx va)) = true ∧ loc = entryLoc s pgdir (pgnum va) := by
  obtain ⟨⟨found,u⟩,walk,rest⟩ := bind_ok run
  by_cases here : present (pde s pgdir (pdx va)) = true
  · rw [pgdirWalk_found acc user here false, entryLoc_va user] at walk
    cases walk
    dsimp only at rest
    split at rest
    · obtain ⟨_,_,done⟩ := bind_ok rest
      cases done
      exact ⟨here,rfl⟩
    · cases rest
  · have absent : present (pde s pgdir (pdx va)) = false := by simpa using here
    rw [pgdirWalk_absent absent] at walk
    cases walk
    cases rest

theorem pageLookup_same {va : Nat} {r : Option (Nat × PteLoc)} (run : pageLookup s pgdir va = .ok (r, t)) :
    t = s := by
  obtain ⟨⟨found,u⟩,walk,rest⟩ := bind_ok run
  have same := pgdirWalk_same walk
  cases found with
  | none =>
    cases rest
    exact same
  | some loc =>
    dsimp only at rest
    split at rest
    · obtain ⟨_,_,done⟩ := bind_ok rest
      cases done
      exact same
    · cases rest
      exact same

theorem replay_append (s : Kernel) (first second : List Effect) :
    (mmu pgdir).replay s (first ++ second) = (mmu pgdir).replay ((mmu pgdir).replay s first) second :=
  List.foldl_append

theorem replay_pageAlloc (pgdir : Nat) {allocZero : Bool} {r : Option Nat} (run : pageAlloc s allocZero = .ok (r, t)) :
    (mmu pgdir).replay s (pageAllocEffects s allocZero) = t ∧ r = s.pageFreeList := by
  unfold pageAlloc at run
  unfold pageAllocEffects
  cases head : s.pageFreeList with
  | none =>
    rw [head] at run
    cases run
    exact ⟨rfl,rfl⟩
  | some p =>
    rw [head] at run
    cases allocZero with
    | false =>
      simp only [Bool.false_eq_true, ↓reduceIte] at run
      cases run
      exact ⟨rfl,rfl⟩
    | true =>
      simp only [↓reduceIte] at run
      have page : pgnum (page2pa p) = p := by
        simp only [pgnum, page2pa, PGSIZE]
        omega
      unfold kaddr at run
      rw [page] at run
      split at run
      · cases run
      · cases run
        exact ⟨rfl,rfl⟩

theorem pgdirWalk_none {va : Nat} (run : pgdirWalk s pgdir va true = .ok (none, t)) : t = s := by
  unfold pgdirWalk at run
  simp only [↓reduceIte] at run
  split at run
  · obtain ⟨_,_,done⟩ := bind_ok run
    cases done
  obtain ⟨⟨page,u⟩,alloc,rest⟩ := bind_ok run
  obtain ⟨taken,head⟩ := replay_pageAlloc pgdir alloc
  cases page with
  | none =>
    cases rest
    have idle : pageAllocEffects s true = [] := by simp [pageAllocEffects, ← head]
    rw [idle] at taken
    exact taken.symm
  | some newPage =>
    obtain ⟨_,_,done⟩ := bind_ok rest
    cases done

theorem replay_pgdirWalk {va : Nat} {r : Option PteLoc} (run : pgdirWalk s pgdir va true = .ok (r, t)) :
    (mmu pgdir).replay s (pgdirWalkEffects s pgdir va) = t := by
  unfold pgdirWalk at run
  unfold pgdirWalkEffects
  by_cases here : present (s.load ⟨pgdir, pdx va⟩) = true
  · simp only [here, ↓reduceIte] at run ⊢
    obtain ⟨table,_,done⟩ := bind_ok run
    cases done
    rfl
  simp only [here, Bool.false_eq_true, ↓reduceIte] at run ⊢
  obtain ⟨⟨page,u⟩,alloc,rest⟩ := bind_ok run
  obtain ⟨taken,head⟩ := replay_pageAlloc pgdir alloc
  rw [← head]
  cases page with
  | none =>
    cases rest
    have : pageAllocEffects s true = [] := by simp [pageAllocEffects, ← head]
    rw [this] at taken
    exact taken
  | some newPage =>
    obtain ⟨table,_,done⟩ := bind_ok rest
    cases done
    have ref : u.ref newPage = s.ref newPage := by
      rw [← taken]
      simp only [pageAllocEffects, ← head]
      change (Kernel.setLink _ _ _).ref newPage = _
      rw [ref_setLink]
      rfl
    rw [replay_append, taken, ← ref]
    rfl

theorem replay_pageDecref {pp : Nat} (run : pageDecref s pp = .ok t) :
    (mmu pgdir).replay s (pageDecrefEffects s pp) = t := by
  unfold pageDecref at run
  unfold pageDecrefEffects
  have lowered : (s.setRef pp (s.ref pp + (2 ^ 16 - 1))).ref pp = (s.ref pp + (2 ^ 16 - 1)) % 2 ^ 16 := by simp
  simp only [lowered] at run
  split at run
  · rename_i zero
    rw [if_pos zero]
    simp only [pageFree, lowered, zero] at run
    split at run
    · rename_i never
      exact absurd rfl never
    split at run
    · cases run
    · cases run
      rfl
  · rename_i more
    rw [if_neg more]
    cases run
    rfl

theorem replay_pageRemove {va : Nat} (run : pageRemove s pgdir va = .ok t) :
    ∃ effects, pageRemoveEffects s pgdir va = .ok effects ∧ (mmu pgdir).replay s effects = t := by
  unfold pageRemove at run
  unfold pageRemoveEffects
  obtain ⟨⟨found,u⟩,look,rest⟩ := bind_ok run
  have same : u = s := pageLookup_same look
  subst same
  rw [look]
  cases found with
  | none =>
    cases rest
    exact ⟨[],rfl,rfl⟩
  | some hit =>
    obtain ⟨checkPage,pte⟩ := hit
    obtain ⟨v,dropped,done⟩ := bind_ok rest
    cases done
    refine ⟨pageDecrefEffects u checkPage ++ [.store pte 0, .invlpg va], ?_, ?_⟩
    · change (pageDecref u checkPage >>= _) = _
      rw [dropped]
      rfl
    · rw [replay_append, replay_pageDecref dropped]
      rfl

theorem replay_pageInsert {pp va perm : Nat} {done : Bool} (run : pageInsert s pgdir pp va perm = .ok (done, t)) :
    ∃ effects, pageInsertEffects s pgdir pp va perm = .ok effects ∧ (mmu pgdir).replay s effects = t := by
  unfold pageInsert at run
  unfold pageInsertEffects
  obtain ⟨⟨found,u⟩,walk,rest⟩ := bind_ok run
  have walked := replay_pgdirWalk walk
  rw [walk]
  cases found with
  | none =>
    cases rest
    exact ⟨[], rfl, (pgdirWalk_none walk).symm⟩
  | some pte =>
    obtain ⟨v,removed,rest⟩ := bind_ok rest
    obtain ⟨removal,listed,replayed⟩ : ∃ removal,
        (if present ((u.setRef pp (u.ref pp + 1)).load pte) then
          pageRemoveEffects (u.setRef pp (u.ref pp + 1)) pgdir va else .ok [] : Except Panic (List Effect)) =
          .ok removal ∧ (mmu pgdir).replay (u.setRef pp (u.ref pp + 1)) removal = v := by
      split at removed
      · rename_i here
        rw [if_pos here]
        exact replay_pageRemove removed
      · rename_i gone
        rw [if_neg gone]
        cases removed
        exact ⟨[],rfl,rfl⟩
    cases rest
    refine ⟨insertEffects s u pgdir pp va perm pte removal, ?_, ?_⟩
    · change ((if present ((u.setRef pp (u.ref pp + 1)).load pte) then
          pageRemoveEffects (u.setRef pp (u.ref pp + 1)) pgdir va else .ok [] :
          Except Panic (List Effect)) >>= _) = _
      rw [listed]
      rfl
    · unfold insertEffects
      rw [replay_append, walked]
      change (mmu pgdir).replay (u.setRef pp (u.ref pp + 1)) (removal ++ _) = _
      rw [replay_append, replayed]
      rfl

theorem replay_monSetperm {argv : List String} {text : List Char} (run : monSetperm s pgdir argv = .ok (text, t)) :
    ∃ effects, monSetpermEffects s pgdir argv = .ok effects ∧ (mmu pgdir).replay s effects = t := by
  unfold monSetperm at run
  unfold monSetpermEffects
  by_cases args : argv.length ≠ 3
  · rw [if_pos args] at run
    rw [if_pos (Or.inl args)]
    cases run
    exact ⟨[],rfl,rfl⟩
  rw [if_neg args] at run
  by_cases large : setpermPrem argv > 0x100
  · simp only [if_pos large] at run
    rw [if_pos (Or.inr large)]
    cases run
    exact ⟨[],rfl,rfl⟩
  simp only [if_neg large] at run
  rw [if_neg (not_or.mpr ⟨args,large⟩)]
  obtain ⟨⟨found,u⟩,walk,rest⟩ := bind_ok run
  have same := pgdirWalk_same walk
  subst same
  rw [walk]
  cases found with
  | none =>
    cases rest
    exact ⟨[],rfl,rfl⟩
  | some pte =>
    cases rest
    exact ⟨_,rfl,rfl⟩

end Replay

section View
variable {managed : Nat → Prop} {pgdir : Nat} {held : Option Nat} {s t : Kernel}

/-- Above the user half the directory has itself, at `UVPT`, and tables of the kernel. -/
def Upper (managed : Nat → Prop) (pgdir : Nat) (s : Kernel) : Prop :=
  ∀ d, userPdes ≤ d → d < NPTENTRIES → present (pde s pgdir d) = true →
    (d = pdx UVPT ∧ frame (pde s pgdir d) = pgdir) ∨
    (frame (pde s pgdir d) ≠ pgdir ∧ ¬ managed (frame (pde s pgdir d)))

theorem Upper.congr (upper : Upper managed pgdir s)
    (same : ∀ d, userPdes ≤ d → pde t pgdir d = pde s pgdir d) : Upper managed pgdir t := by
  intro d high low
  rw [same d high]
  exact upper d high low

theorem vpn_slot (n : Vpn) : n.val / NPTENTRIES < NPTENTRIES := by
  have := n.isLt
  simp only [NPTENTRIES]
  omega

/-- The table of a page is not a page that was managed and is no user table. -/
theorem table_other (acc : Accounted managed pgdir held s) (upper : Upper managed pgdir s) {p : Nat}
    (own : managed p) (spare : ¬ IsTable s pgdir p) (n : Vpn)
    (here : present (pde s pgdir (n.val / NPTENTRIES)) = true) :
    frame (pde s pgdir (n.val / NPTENTRIES)) ≠ p := by
  intro same
  by_cases user : n.val / NPTENTRIES < userPdes
  · exact spare ⟨_,user,here,same⟩
  · rcases upper _ (Nat.le_of_not_lt user) (vpn_slot n) here with ⟨_,self⟩ | ⟨_,other⟩
    · rw [self] at same
      exact acc.directory_unmanaged (same ▸ own)
    · exact other (same ▸ own)

theorem pte_other_page (acc : Accounted managed pgdir held s) (upper : Upper managed pgdir s) {p : Nat}
    (own : managed p) (spare : ¬ IsTable s pgdir p) {contents : Nat → Nat}
    (mem : t.mem = Function.update s.mem p contents) (n : Vpn) : pte t pgdir n.val = pte s pgdir n.val := by
  have other : pgdir ≠ p := fun same => acc.directory_unmanaged (same ▸ own)
  have dir : ∀ d, pde t pgdir d = pde s pgdir d := by
    intro d
    simp [pde, mem, other]
  unfold pte
  rw [dir]
  split
  · rename_i here
    rw [mem, Function.update_of_ne (table_other acc upper own spare n here)]
  · rfl

theorem pte_store_user (acc : Accounted managed pgdir held s) (upper : Upper managed pgdir s) {n : Nat}
    (user : n < userPages) (here : present (pde s pgdir (n / NPTENTRIES)) = true) (word : Nat) (m : Vpn)
    (away : m.val ≠ n) : pte (s.store (entryLoc s pgdir n) word) pgdir m.val = pte s pgdir m.val := by
  by_cases inside : m.val < userPages
  · rw [pte_store_entry acc user here word m.val inside, if_neg away]
  have own := (acc.tables_taken _ ⟨_, user_page_pde n user, here, rfl⟩).1
  have high : userPdes ≤ m.val / NPTENTRIES := by
    rw [user_pages_eq] at inside
    rw [user_pdes_eq]
    simp only [NPTENTRIES]
    omega
  unfold pte
  rw [pde_store_entry acc user here]
  split
  · rename_i flag
    rw [mem_store, if_neg]
    rintro ⟨same,_⟩
    simp only [entryLoc] at same
    rcases upper _ high (vpn_slot m) flag with ⟨_,self⟩ | ⟨_,other⟩
    · rw [self] at same
      rw [← same] at own
      exact acc.directory_unmanaged own
    · rw [← same] at own
      exact other own
  · rfl

/-- A directory entry is seen through its own pages, and through the window at `UVPT`. -/
theorem pte_store_pde (acc : Accounted managed pgdir held s) (upper : Upper managed pgdir s) (va word : Nat)
    (m : Vpn) (away : m.val / NPTENTRIES ≠ pdx va) :
    pte (s.store ⟨pgdir, pdx va⟩ word) pgdir m.val = pte s pgdir m.val ∨
    m.val = uvptPage va ∧ pte s pgdir m.val = pde s pgdir (pdx va) := by
  have dir : pde (s.store ⟨pgdir, pdx va⟩ word) pgdir (m.val / NPTENTRIES) = pde s pgdir (m.val / NPTENTRIES) := by
    simp only [pde, mem_store, true_and]
    rw [if_neg away]
  unfold pte
  rw [dir]
  by_cases here : present (pde s pgdir (m.val / NPTENTRIES)) = true
  · rw [if_pos here, if_pos here, mem_store]
    split
    · rename_i hit
      obtain ⟨same,index⟩ := hit
      dsimp only at same index
      right
      by_cases low : m.val / NPTENTRIES < userPdes
      · exact absurd (same ▸ (acc.tables_taken _ ⟨_,low,here,rfl⟩).1) acc.directory_unmanaged
      · rcases upper _ (Nat.le_of_not_lt low) (vpn_slot m) here with ⟨slot,_⟩ | ⟨other,_⟩
        · refine ⟨?_, ?_⟩
          · unfold uvptPage
            rw [← slot, ← index]
            exact (Nat.div_add_mod' m.val NPTENTRIES).symm
          · rw [same, index]
            rfl
        · exact absurd same other
    · exact Or.inl rfl
  · left
    rw [if_neg here, if_neg here]

end View

section Orders
variable {managed : Nat → Prop} {pgdir : Nat} {held : Option Nat} {s t : Kernel}

theorem keeps_mem {e : Effect} (mem : (e.apply s).mem = s.mem) (n : Vpn) : (mmu pgdir).Keeps s e n :=
  Or.inl (pte_of_mem mem pgdir n.val)

theorem keeps_absent {e : Effect} {n : Vpn} (absent : present (pte s pgdir n.val) = false) :
    (mmu pgdir).Keeps s e n := by
  right
  change ¬ present (pte s pgdir n.val) = true
  rw [absent]
  simp

theorem orderly_pageAlloc (acc : Accounted managed pgdir held s) (upper : Upper managed pgdir s)
    (allocZero : Bool) : (mmu pgdir).Orderly (fun _ => False) (fun _ => False) s (pageAllocEffects s allocZero) := by
  unfold pageAllocEffects
  cases head : s.pageFreeList with
  | none => exact .done fun _ no => no
  | some p =>
    have free := head_on_free_list acc head
    have spare : ¬ IsTable s pgdir p := fun table => (acc.tables_taken p table).2 free
    refine .cons (keeps_mem rfl) (.cons (keeps_mem rfl) ?_)
    cases allocZero with
    | false => exact .done fun _ no => no
    | true =>
      refine .cons (fun n => Or.inl ?_) (.done fun _ no => no)
      exact (pte_other_page acc upper (managed_of_free acc free) spare rfl n).trans (pte_of_mem rfl pgdir n.val).symm

theorem orderly_pgdirWalk (acc : Accounted managed pgdir held s) (upper : Upper managed pgdir s) (va : Nat) :
    (mmu pgdir).Orderly (fun _ => False) (fun _ => False) s (pgdirWalkEffects s pgdir va) := by
  unfold pgdirWalkEffects
  split
  · exact .done fun _ no => no
  rename_i absent
  have absent : present (pde s pgdir (pdx va)) = false := by
    simp only [Bool.not_eq_true] at absent
    exact absent
  cases head : s.pageFreeList with
  | none => exact .done fun _ no => no
  | some p =>
    refine .append (orderly_pageAlloc acc upper true) ?_
    obtain ⟨empty,_⟩ | ⟨q,contents,again,_,run⟩ := pageAlloc_spec acc true
    · rw [head] at empty
      simp at empty
    have same : q = p := by simpa using again.symm.trans head
    subst same
    rw [(replay_pageAlloc pgdir run).1]
    obtain ⟨accU,_,_⟩ := take_head_accounted acc head contents
    have notDir : pgdir ≠ q := fun same =>
      acc.directory_unmanaged (same ▸ managed_of_free acc (head_on_free_list acc head))
    have dir : ∀ d, pde (allocated s q contents) pgdir d = pde s pgdir d := by
      intro d
      simp [pde, allocated, notDir]
    have upperU : Upper managed pgdir (allocated s q contents) := upper.congr fun d _ => dir d
    refine .cons (keeps_mem rfl) (.cons (fun n => ?_) (.done fun _ no => no))
    by_cases slot : n.val / NPTENTRIES = pdx va
    · refine keeps_absent ?_
      change present (pte (allocated s q contents) pgdir n.val) = false
      simp [pte, slot, dir, absent, not_present_zero]
    · have seen := pte_store_pde accU upperU va (page2pa q ||| PTE_P ||| PTE_W ||| PTE_U) n slot
      rcases seen with same | ⟨_,entry⟩
      · left
        exact (pte_of_mem rfl pgdir n.val).trans (same.trans (pte_of_mem rfl pgdir n.val))
      · refine keeps_absent ?_
        change present (pte (allocated s q contents) pgdir n.val) = false
        rw [entry, dir]
        exact absent

theorem decref_mem (pgdir : Nat) (s : Kernel) (pp : Nat) : ((mmu pgdir).replay s (pageDecrefEffects s pp)).mem = s.mem := by
  unfold pageDecrefEffects
  split <;> rfl

theorem orderly_pageDecref (s : Kernel) (pp : Nat) :
    (mmu pgdir).Orderly (fun _ => False) (fun _ => False) s (pageDecrefEffects s pp) := by
  unfold pageDecrefEffects
  refine .cons (keeps_mem rfl) ?_
  split
  · exact .cons (keeps_mem rfl) (.cons (keeps_mem rfl) (.done fun _ no => no))
  · exact .done fun _ no => no

theorem store_mem_congr {u v : Kernel} (same : u.mem = v.mem) (loc : PteLoc) (word : Nat) :
    (u.store loc word).mem = (v.store loc word).mem := by
  funext p i
  rw [mem_store, mem_store, same]

/-- Nothing is done, or the count of the page goes down and then the entry is cleared. -/
theorem pageRemove_effects {va : Nat} {effects : List Effect} (run : pageRemoveEffects s pgdir va = .ok effects) :
    effects = [] ∨ ∃ checkPage loc, pageLookup s pgdir va = .ok (some (checkPage, loc), s) ∧
      effects = pageDecrefEffects s checkPage ++ [.store loc 0, .invlpg va] := by
  obtain ⟨⟨found,u⟩,look,rest⟩ := bind_ok run
  have same := pageLookup_same look
  subst same
  cases found with
  | none =>
    cases rest
    exact Or.inl rfl
  | some hit =>
    obtain ⟨checkPage,loc⟩ := hit
    obtain ⟨_,_,done⟩ := bind_ok rest
    cases done
    exact Or.inr ⟨checkPage, loc, look, rfl⟩

/-- The entry is stale from the write of 0 until `invlpg`. -/
theorem orderly_clear {va : Nat} {loc : PteLoc}
    (others : ∀ n : Vpn, n.val ≠ pgnum va → pte (s.store loc 0) pgdir n.val = pte s pgdir n.val) :
    (mmu pgdir).Orderly (fun _ => False) (fun _ => False) s [.store loc 0, .invlpg va] := by
  refine .next (fun n => n.val = pgnum va) (fun n away => Or.inr ⟨id, Or.inl (others n away)⟩)
    (.next (fun _ => False) (fun n _ => ?_) (.done fun _ no => no))
  by_cases here : n.val = pgnum va
  · exact Or.inl (by simpa [mmu, Effect.flushes] using here)
  · exact Or.inr ⟨here, keeps_mem rfl n⟩

theorem orderly_pageRemove (acc : Accounted managed pgdir held s) (upper : Upper managed pgdir s) {va : Nat}
    (user : va < UTOP) {effects : List Effect} (run : pageRemoveEffects s pgdir va = .ok effects) :
    (mmu pgdir).Orderly (fun _ => False) (fun _ => False) s effects := by
  rcases pageRemove_effects run with rfl | ⟨checkPage,loc,look,rfl⟩
  · exact .done fun _ no => no
  obtain ⟨here,rfl⟩ := pageLookup_loc acc user look
  have slot : present (pde s pgdir (pgnum va / NPTENTRIES)) = true := by
    rwa [pgnum_div_eq_pdx va user]
  have mem := decref_mem pgdir s checkPage
  refine .append (orderly_pageDecref s checkPage) (orderly_clear fun n away => ?_)
  calc pte (((mmu pgdir).replay s (pageDecrefEffects s checkPage)).store (entryLoc s pgdir (pgnum va)) 0) pgdir n.val
      = pte (s.store (entryLoc s pgdir (pgnum va)) 0) pgdir n.val := pte_of_mem (store_mem_congr mem _ 0) pgdir n.val
    _ = pte s pgdir n.val := pte_store_user acc upper (pgnum_lt_user va user) slot 0 n away
    _ = pte ((mmu pgdir).replay s (pageDecrefEffects s checkPage)) pgdir n.val := (pte_of_mem mem pgdir n.val).symm

/-- A directory entry that gains permissions is only seen to change through the window. -/
theorem pte_or_pde (acc : Accounted managed pgdir held s) (upper : Upper managed pgdir s) {va perm : Nat}
    (user : va < UTOP) (low : perm < PGSIZE) (here : present (pde s pgdir (pdx va)) = true) (n : Vpn)
    (window : n.val ≠ uvptPage va) :
    pte (s.store ⟨pgdir, pdx va⟩ (s.load ⟨pgdir, pdx va⟩ ||| perm)) pgdir n.val = pte s pgdir n.val := by
  by_cases slot : n.val / NPTENTRIES = pdx va
  · have word : pde (s.store ⟨pgdir, pdx va⟩ (s.load ⟨pgdir, pdx va⟩ ||| perm)) pgdir (pdx va) =
        pde s pgdir (pdx va) ||| perm := by
      simp only [pde, mem_store, true_and, ↓reduceIte]
      rfl
    have own := (acc.tables_taken _ ⟨_, pdx_lt_user va user, here, rfl⟩).1
    have other : frame (pde s pgdir (pdx va)) ≠ pgdir := fun same => acc.directory_unmanaged (same ▸ own)
    unfold pte
    rw [slot, word, if_pos (present_or _ _ here), if_pos here, frame_or_flags _ _ low, mem_store,
      if_neg fun both => other both.1]
  · rcases pte_store_pde acc upper va (s.load ⟨pgdir, pdx va⟩ ||| perm) n slot with same | ⟨exposed,_⟩
    · exact same
    · exact absurd exposed window

theorem walk_pde (acc : Accounted managed pgdir held s) (va : Nat) {d : Nat} (away : d ≠ pdx va) :
    pde ((mmu pgdir).replay s (pgdirWalkEffects s pgdir va)) pgdir d = pde s pgdir d := by
  unfold pgdirWalkEffects
  split
  · rfl
  cases head : s.pageFreeList with
  | none => rfl
  | some p =>
    have notDir : pgdir ≠ p := fun same =>
      acc.directory_unmanaged (same ▸ managed_of_free acc (head_on_free_list acc head))
    rw [replay_append]
    simp only [pageAllocEffects, head, ↓reduceIte]
    change (Kernel.store _ ⟨pgdir, pdx va⟩ _).mem pgdir d = s.mem pgdir d
    rw [mem_store, if_neg fun both => away both.2]
    change Function.update s.mem p (fun _ => 0) pgdir d = _
    rw [Function.update_of_ne notDir]

/-- After the `page_remove` of `page_insert`, if it is called, the entry of `va` is vacant. -/
theorem entry_vacated (acc : Accounted managed pgdir held s) (upper : Upper managed pgdir s) {va : Nat}
    (user : va < UTOP) (here : present (pde s pgdir (pdx va)) = true)
    (bounded : ∀ p, managed p → refs s pgdir p ≤ 65535) {removal : List Effect}
    (run : (if present (s.load ⟨frame (pde s pgdir (pdx va)), ptx va⟩) then pageRemoveEffects s pgdir va
      else .ok []) = .ok removal) :
    (mmu pgdir).Orderly (fun _ => False) (fun _ => False) s removal ∧
    Accounted managed pgdir held ((mmu pgdir).replay s removal) ∧
    (∀ d, pde ((mmu pgdir).replay s removal) pgdir d = pde s pgdir d) ∧
    present (pte ((mmu pgdir).replay s removal) pgdir (pgnum va)) = false := by
  rw [load_entry user here] at run
  by_cases mapped : present (pte s pgdir (pgnum va)) = true
  · rw [if_pos mapped] at run
    obtain ⟨v,removed,accV,dir,entries⟩ := pageRemove_spec acc user bounded
    obtain ⟨again,listed,replayed⟩ := replay_pageRemove removed
    rw [listed] at run
    cases run
    rw [replayed]
    refine ⟨orderly_pageRemove acc upper user listed, accV, dir, ?_⟩
    rw [entries _ (pgnum_lt_user va user), if_pos ⟨rfl,mapped⟩, not_present_zero]
  · rw [if_neg mapped] at run
    cases run
    refine ⟨.done fun _ no => no, acc, fun _ => rfl, ?_⟩
    simp only [Bool.not_eq_true] at mapped
    exact mapped

theorem orderly_pageInsert (acc : Accounted managed pgdir none s) (upper : Upper managed pgdir s)
    {pp va perm : Nat} (user : va < UTOP) (own : managed pp) (taken : ¬ OnFreeList s pp) (low : perm < PGSIZE)
    (bounded : ∀ p, managed p → refs s pgdir p ≤ 65535) {effects : List Effect}
    (run : pageInsertEffects s pgdir pp va perm = .ok effects) :
    (mmu pgdir).Orderly (fun n => n.val = uvptPage va) (fun _ => False) s effects ∧
    ∀ d, d ≠ pdx va → pde ((mmu pgdir).replay s effects) pgdir d = pde s pgdir d := by
  obtain ⟨⟨found,w⟩,walk,rest⟩ := bind_ok run
  obtain ⟨_,_,failed⟩ | ⟨u,walked,here,accU,_,fewer,grown⟩ := pgdirWalk_create_spec acc user
  · rw [failed] at walk
    cases walk
    cases rest
    exact ⟨.done fun _ no => no, fun _ _ => rfl⟩
  rw [walked] at walk
  cases walk
  obtain ⟨removal,removed,done⟩ := bind_ok rest
  cases done
  have walkEnd := replay_pgdirWalk walked
  have upperU : Upper managed pgdir w := by
    rw [← walkEnd]
    exact upper.congr fun d high => walk_pde acc va (by have := pdx_lt_user va user; omega)
  have accH := hold_accounted accU own (fun on => taken (fewer pp on))
  have inside := pgnum_lt_user va user
  have boundedH : ∀ q, managed q → refs (w.setRef pp (w.ref pp + 1)) pgdir q ≤ 65535 := by
    intro q hq
    have := grown q
    have := bounded q hq
    change refs w pgdir q ≤ 65535
    omega
  have upperH : Upper managed pgdir (w.setRef pp (w.ref pp + 1)) := upperU
  obtain ⟨orderly,accV,dir,vacant⟩ := entry_vacated accH upperH user here boundedH removed
  unfold insertEffects
  have upperV : Upper managed pgdir ((mmu pgdir).replay (w.setRef pp (w.ref pp + 1)) removal) :=
    upperU.congr fun d _ => dir d
  have hereV : present (pde ((mmu pgdir).replay (w.setRef pp (w.ref pp + 1)) removal) pgdir (pdx va)) = true := by
    rw [dir]
    exact here
  have loc : (⟨frame (pde w pgdir (pdx va)), ptx va⟩ : PteLoc) =
      entryLoc ((mmu pgdir).replay (w.setRef pp (w.ref pp + 1)) removal) pgdir (pgnum va) := by
    rw [← entryLoc_va user, dir]
    rfl
  rw [loc]
  suffices last : (mmu pgdir).Orderly (fun n => n.val = uvptPage va) (fun _ => False)
        ((mmu pgdir).replay (w.setRef pp (w.ref pp + 1)) removal) _ ∧
      ∀ d, d ≠ pdx va → pde ((mmu pgdir).replay ((mmu pgdir).replay (w.setRef pp (w.ref pp + 1)) removal) _) pgdir d
        = pde w pgdir d by
    refine ⟨.append (orderly_pgdirWalk acc upper va) ?_, fun d away => ?_⟩
    · rw [walkEnd]
      exact .cons (keeps_mem rfl) (.append orderly last.1)
    · rw [← walk_pde acc va away, walkEnd, ← last.2 d away, replay_append, walkEnd]
      change pde ((mmu pgdir).replay (w.setRef pp (w.ref pp + 1)) (removal ++ _)) pgdir d = _
      rw [replay_append]
  have sameDir : ∀ d, pde ((mmu pgdir).replay (w.setRef pp (w.ref pp + 1)) removal) pgdir d = pde w pgdir d := dir
  generalize (mmu pgdir).replay (w.setRef pp (w.ref pp + 1)) removal = v at *
  have slot : present (pde v pgdir (pgnum va / NPTENTRIES)) = true := by rwa [pgnum_div_eq_pdx va user]
  have stored := pde_store_entry accV inside slot (page2pa pp ||| perm ||| PTE_P)
  refine ⟨?_, fun d away => ?_⟩
  swap
  · rw [← sameDir d, ← stored d]
    change (Kernel.store _ ⟨pgdir, pdx va⟩ _).mem pgdir d = _
    rw [mem_store, if_neg fun both => away both.2]
    rfl
  refine .cons (fun n => ?_) (.last (fun _ no => no) fun n window => Or.inl ?_)
  · by_cases same : n.val = pgnum va
    · exact keeps_absent (same ▸ vacant)
    · exact Or.inl (pte_store_user accV upperV inside slot _ n same)
  · refine pte_or_pde (fill_entry_accounted accV inside slot vacant (present_user_entry _ _)
      (frame_user_entry pp perm low)) (upperV.congr fun d _ => stored d) user low ?_ n window
    rw [stored]
    exact hereV

theorem orderly_monSetperm (acc : Accounted managed pgdir none s) (upper : Upper managed pgdir s)
    {argv : List String} (user : unsigned (setpermStart argv) < UTOP) {effects : List Effect}
    (run : monSetpermEffects s pgdir argv = .ok effects) :
    (mmu pgdir).Orderly (fun n => n.val = pgnum (unsigned (setpermStart argv))) (fun _ => False) s effects := by
  unfold monSetpermEffects at run
  split at run
  · cases run
    exact .done fun _ no => no
  obtain ⟨⟨found,u⟩,walk,rest⟩ := bind_ok run
  by_cases here : present (pde s pgdir (pdx (unsigned (setpermStart argv)))) = true
  · rw [pgdirWalk_found acc user here false, entryLoc_va user] at walk
    cases walk
    cases rest
    refine .last (fun _ no => no) fun n away => Or.inl ?_
    exact pte_store_user acc upper (pgnum_lt_user _ user) (by rwa [pgnum_div_eq_pdx _ user]) _ n away
  · have absent : present (pde s pgdir (pdx (unsigned (setpermStart argv)))) = false := by simpa using here
    rw [pgdirWalk_absent absent] at walk
    cases walk
    cases rest
    exact .done fun _ no => no

end Orders
end JosPmap
