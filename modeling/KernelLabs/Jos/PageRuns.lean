import KernelLabs.Jos.PageInit

/-!
Runs of the page operations on one directory, from the state `page_init` leaves.
Every legal operation keeps the accounting, so it holds in each state of a run, and
no operation of a run panics.
-/
namespace JosPmap
open LinkedList

/-- Loop invariant of `page_init` when pages below `i` have been visited. -/
structure InitLoop (b : Boot) (i : Nat) (s : Kernel) : Prop where
  npages : s.npages = b.npages
  listed : ∃ nodes, Chain s.link s.pageFreeList nodes ∧
    ∀ p, p ∈ nodes ↔ 1 ≤ p ∧ p < i ∧ b.freed p = true
  unlinked : ∀ p, ¬ (1 ≤ p ∧ p < i ∧ b.freed p = true) → s.link p = none
  free_ref : ∀ p, 1 ≤ p → p < i → b.freed p = true → s.ref p = 0
  used_ref : ∀ p, p < i → ¬ (1 ≤ p ∧ b.freed p = true) → s.ref p = 1

theorem pageInit_loop (b : Boot) (mem : Nat → Nat → Nat) (tlb : Nat → Option Nat) :
    InitLoop b b.npages (pageInit b mem tlb) := by
  have low := b.pgdir_above_hole
  have high := b.pgdir_boot_allocated
  have inside := b.boot_in_memory
  rw [pageInit_eq]
  obtain ⟨npages,listed,unlinked,free,used⟩ := pageInitWith_loop b.npagesBasemem (page2pa b.bootNext) mem tlb
    (by omega : 1 ≤ b.npages)
  rw [← freed_eq] at listed unlinked free used
  exact ⟨npages,listed,unlinked,free,used⟩

theorem pageInit_mem (b : Boot) (mem : Nat → Nat → Nat) (tlb : Nat → Option Nat) :
    (pageInit b mem tlb).mem = mem := by
  rw [pageInit_eq]
  exact initPages_mem _ _ 1 _

theorem pageInit_free_iff (b : Boot) (mem : Nat → Nat → Nat) (tlb : Nat → Option Nat) (p : Nat) :
    OnFreeList (pageInit b mem tlb) p ↔ 1 ≤ p ∧ p < b.npages ∧ b.freed p = true := by
  obtain ⟨nodes,chain,members⟩ := (pageInit_loop b mem tlb).listed
  rw [OnFreeList, on_chain_iff chain]
  exact members p

/-- One directory, at first without user entries, over the pages `page_init` freed. -/
def Start (b : Boot) (s : Kernel) : Prop :=
  ∃ mem tlb, (∀ d, d < userPdes → present (mem b.pgdir d) = false) ∧ s = pageInit b mem tlb

theorem start_accounted {b : Boot} {s : Kernel} (start : Start b s) :
    Accounted (OnFreeList s) b.pgdir none s ∧ ∀ p, refs s b.pgdir p = 0 := by
  obtain ⟨mem,tlb,absent,rfl⟩ := start
  have loop := pageInit_loop b mem tlb
  have noTable : ∀ d, d < userPdes → present (pde (pageInit b mem tlb) b.pgdir d) = false := by
    intro d user
    rw [pde, pageInit_mem]
    exact absent d user
  have noEntry : ∀ n, n < userPages → present (pte (pageInit b mem tlb) b.pgdir n) = false := by
    intro n user
    simp [pte, noTable _ (user_page_pde n user), not_present_zero]
  have none : ∀ p, refs (pageInit b mem tlb) b.pgdir p = 0 := by
    intro p
    have maps : (Finset.range userPages).filter
        (MapsTo (pageInit b mem tlb) b.pgdir p) = ∅ := by
      rw [Finset.filter_eq_empty_iff]
      rintro n user ⟨here,_⟩
      simp [noEntry n (Finset.mem_range.mp user)] at here
    have tables : (Finset.range userPdes).filter
        (TableAt (pageInit b mem tlb) b.pgdir p) = ∅ := by
      rw [Finset.filter_eq_empty_iff]
      rintro d user ⟨here,_⟩
      simp [noTable d (Finset.mem_range.mp user)] at here
    rw [refs, maps, tables]
    rfl
  refine ⟨?_, none⟩
  constructor
  · intro p free
    rw [loop.npages]
    exact ((pageInit_free_iff b mem tlb p).mp free).2.1
  · intro free
    have freed := ((pageInit_free_iff b mem tlb b.pgdir).mp free).2.2
    have low := b.pgdir_above_hole
    have high := b.pgdir_boot_allocated
    have base := b.basemem_below_hole
    rw [ext_page] at low
    rw [io_page] at base
    simp only [Boot.freed, io_page, ext_page] at freed
    rw [if_neg (by omega), if_neg (by omega), if_pos (by omega)] at freed
    simp at freed
  · obtain ⟨nodes,chain,_⟩ := loop.listed
    exact ⟨nodes, chain, fun p mem => (on_chain_iff chain p).mpr mem⟩
  · intro p free out
    exact absurd free out
  · rintro p ⟨d,user,here,_⟩
    simp [noTable d user] at here
  · intro d e hd he here
    simp [noTable d hd] at here
  · intro n user here
    simp [noEntry n user] at here
  · intro p held
    simp at held
  · intro p free
    obtain ⟨low,high,freed⟩ := (pageInit_free_iff b mem tlb p).mp free
    rw [loop.free_ref p low high freed, none p]
    rfl

inductive Op where
  | pageAlloc (allocZero : Bool)
  | pgdirWalk (va : Nat)
  | pageInsert (pp va perm : Nat)
  | pageRemove (va : Nat)
  deriving DecidableEq, Repr

def Op.run (pgdir : Nat) (s : Kernel) : Op → Except Panic Kernel
  | .pageAlloc allocZero => (JosPmap.pageAlloc s allocZero).map Prod.snd
  | .pgdirWalk va => (JosPmap.pgdirWalk s pgdir va true).map Prod.snd
  | .pageInsert pp va perm => (JosPmap.pageInsert s pgdir pp va perm).map Prod.snd
  | .pageRemove va => JosPmap.pageRemove s pgdir va

/-- Addresses are below `UTOP`, permissions are the low 12 bits, and an inserted page
    has left the free list of `page_init`, which only `page_alloc` takes pages from. -/
def Op.Legal (start s : Kernel) : Op → Prop
  | .pageAlloc _ => True
  | .pgdirWalk va => va < UTOP
  | .pageInsert pp va perm =>
    va < UTOP ∧ perm < PGSIZE ∧ OnFreeList start pp ∧ ¬ OnFreeList s pp
  | .pageRemove va => va < UTOP

/-- The states of runs in which no page ever has more than 65535 references. -/
inductive Reached (pgdir : Nat) (start : Kernel) : Kernel → Prop where
  | start : Reached pgdir start start
  | step {s t : Kernel} (op : Op) (before : Reached pgdir start s) (legal : op.Legal start s)
      (run : op.run pgdir s = .ok t) (few : ∀ p, refs t pgdir p ≤ 65535) :
      Reached pgdir start t

theorem step_accounted {managed : Nat → Prop} {pgdir : Nat} {start s : Kernel} {op : Op}
    (acc : Accounted managed pgdir none s) (few : ∀ p, refs s pgdir p ≤ 65535)
    (known : ∀ p, OnFreeList start p → managed p) (legal : op.Legal start s) :
    ∃ t, op.run pgdir s = .ok t ∧ Accounted managed pgdir none t := by
  cases op with
  | pageAlloc allocZero =>
    obtain ⟨_,run⟩ | ⟨p,contents,head,_,run⟩ := pageAlloc_spec acc allocZero
    · exact ⟨s, by simp [Op.run, run, Except.map], acc⟩
    · exact ⟨_, by simp only [Op.run, run, Except.map], (take_head_accounted acc head contents).1⟩
  | pgdirWalk va =>
    obtain ⟨_,_,run⟩ | ⟨t,run,_,accT,_⟩ := pgdirWalk_create_spec acc legal
    · exact ⟨s, by simp [Op.run, run, Except.map], acc⟩
    · exact ⟨t, by simp [Op.run, run, Except.map], accT⟩
  | pageInsert pp va perm =>
    obtain ⟨user,low,origin,taken⟩ := legal
    obtain run | ⟨t,run,accT⟩ := pageInsert_spec acc user (known pp origin) taken low
      (fun p _ => few p)
    · exact ⟨s, by simp [Op.run, run, Except.map], acc⟩
    · exact ⟨t, by simp [Op.run, run, Except.map], accT⟩
  | pageRemove va =>
    obtain ⟨t,run,accT,_⟩ := pageRemove_spec acc legal (fun p _ => few p)
    exact ⟨t, run, accT⟩

theorem reached_accounted {b : Boot} {start s : Kernel} (init : Start b start)
    (reached : Reached b.pgdir start s) :
    Accounted (OnFreeList start) b.pgdir none s ∧ ∀ p, refs s b.pgdir p ≤ 65535 := by
  induction reached with
  | start =>
    obtain ⟨acc,none⟩ := start_accounted init
    exact ⟨acc, fun p => by rw [none p]; exact Nat.zero_le _⟩
  | step op before legal run few ih =>
    obtain ⟨t,again,acc⟩ := step_accounted ih.1 ih.2 (fun _ on => on) legal
    have same := again.symm.trans run
    simp only [Except.ok.injEq] at same
    exact ⟨same ▸ acc, few⟩

/-- In every state of a run: counts equal references, the free list is a finite chain
    without repetition, nothing referred to is on it, and no legal operation panics. -/
theorem page_references_counted (b : Boot) (start s : Kernel) (init : Start b start)
    (reached : Reached b.pgdir start s) :
    (∀ p, OnFreeList start p → s.ref p = refs s b.pgdir p) ∧
    (∃ nodes, Chain s.link s.pageFreeList nodes ∧ nodes.Nodup) ∧
    (∀ n, n < userPages → present (pte s b.pgdir n) = true →
      ¬ OnFreeList s (frame (pte s b.pgdir n))) ∧
    (∀ d, d < userPdes → present (pde s b.pgdir d) = true →
      ¬ OnFreeList s (frame (pde s b.pgdir d))) ∧
    ∀ op : Op, op.Legal start s → ∃ t, op.run b.pgdir s = .ok t := by
  obtain ⟨acc,few⟩ := reached_accounted init reached
  refine ⟨?_, ?_, ?_, ?_, ?_⟩
  · intro p free
    have count := acc.counted p free
    have small := few p
    rw [count]
    simp only [reduceCtorEq, ↓reduceIte, Nat.add_zero]
    exact Nat.mod_eq_of_lt (by omega)
  · obtain ⟨nodes,chain,_⟩ := acc.free_chain
    exact ⟨nodes, chain, chain_nodup chain⟩
  · intro n user here
    exact (acc.frames_taken n user here).2
  · intro d user here
    exact (acc.tables_taken _ ⟨d, user, here, rfl⟩).2
  · intro op legal
    obtain ⟨t,run,_⟩ := step_accounted acc few (fun _ on => on) legal
    exact ⟨t,run⟩

theorem basemem_full : 160 ≤ IOPHYSMEM / PGSIZE := by decide

/-- 640K of base memory and one free page above a kernel that ends at 257 pages. -/
def smallBoot : Boot where
  npages := 258
  npagesBasemem := 160
  bootNext := 257
  pgdir := 256
  memory_window := by decide
  basemem_below_hole := basemem_full
  pgdir_above_hole := by decide
  pgdir_boot_allocated := by decide
  boot_in_memory := by decide

def smallStart : Kernel := pageInit smallBoot (fun _ _ => 0) (fun _ => none)

theorem small_start : Start smallBoot smallStart := by
  refine ⟨fun _ _ => 0, fun _ => none, ?_, rfl⟩
  intro d _
  exact not_present_zero

theorem page_references_counted_small :
    Start smallBoot smallStart ∧ ∃ s, Reached smallBoot.pgdir smallStart s ∧
      (Op.pageAlloc true).run smallBoot.pgdir smallStart = .ok s ∧
      ∀ p, OnFreeList smallStart p → s.ref p = refs s smallBoot.pgdir p := by
  obtain ⟨acc,none⟩ := start_accounted small_start
  obtain ⟨_,run⟩ | ⟨p,contents,head,_,run⟩ := pageAlloc_spec acc true
  · exact ⟨small_start, smallStart, .start, by simp [Op.run, run, Except.map],
      (page_references_counted smallBoot smallStart smallStart small_start .start).1⟩
  · obtain ⟨_,dir,entries⟩ := take_head_accounted acc head contents
    have step : (Op.pageAlloc true).run smallBoot.pgdir smallStart =
        .ok (allocated smallStart p contents) := by
      simp only [Op.run, run, Except.map]
    have reached : Reached smallBoot.pgdir smallStart (allocated smallStart p contents) := by
      refine .step (.pageAlloc true) .start trivial step ?_
      intro q
      rw [refs_congr dir entries, none q]
      exact Nat.zero_le _
    exact ⟨small_start, _, reached, step,
      (page_references_counted smallBoot smallStart _ small_start reached).1⟩

end JosPmap
