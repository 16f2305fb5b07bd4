import KernelLabs.Lib.Custody
import KernelLabs.Lib.Wp
import KernelLabs.Xv6.Vm

/-!
The roles a physical page can have in the address spaces in use, and what the kernel's
writes to pages do to them. A page that has no role is free or in the kernel's hands.
-/
namespace Xv6Vm
open Custody Wp

/-- The pages of user memory. -/
def userPages : Nat := 524288

inductive Role where
  | directory (dir : Nat)
  | table (dir : Nat) (d : Fin NPDENTRIES)
  | user (dir : Nat) (n : Fin userPages)
  deriving DecidableEq

def Role.dir : Role → Nat
  | directory dir => dir
  | table dir _ => dir
  | user dir _ => dir

/-- The page an entry points to. -/
def frame (entry : Nat) : Nat := pteAddr entry / PGSIZE

def entryPage (entry : Nat) : Option Nat := if present entry then some (frame entry) else none

/-- The entry for page number `n`, 0 when it has no page table. -/
def pte (w : Nat → Nat → Nat) (dir n : Nat) : Nat :=
  if present (w dir (n / 1024)) then w (frame (w dir (n / 1024))) (n % 1024) else 0

def page (w : Nat → Nat → Nat) : Role → Option Nat
  | .directory dir => some dir
  | .table dir d => entryPage (w dir d)
  | .user dir n => entryPage (pte w dir n)

/-- The page in role `r` of the address spaces `dirs`. -/
def own (w : Nat → Nat → Nat) (dirs : List Nat) (r : Role) : Option Nat :=
  if r.dir ∈ dirs then page w r else none

/-- Every page of `all` has one role or is free or in the kernel's hands. -/
structure Kept (img : Image) (all : Nat → Prop) (dirs : List Nat) (held : Multiset Nat) (s : Mem) : Prop where
  ex : Exclusive (own s.words dirs) (held + s.freelist) all
  valid : ∀ p, all p → v2p img.fin ≤ page2pa p ∧ page2pa p < PHYSTOP

section Entries

theorem frame_eq (entry : Nat) : frame entry = entry / 4096 := by
  unfold frame pteAddr PGSIZE
  exact Nat.mul_div_cancel _ (by decide)

theorem present_iff (entry : Nat) : present entry = true ↔ entry % 2 = 1 := by
  simp [present, PTE_P, Nat.and_one_is_mod]

theorem frame_flags (p : Nat) {flags : Nat} (low : flags < PGSIZE) : frame (page2pa p ||| flags) = p := by
  have split : (page2pa p ||| flags) / 2 ^ 12 = page2pa p / 2 ^ 12 ||| flags / 2 ^ 12 := Nat.or_div_two_pow
  have none : flags / 2 ^ 12 = 0 := Nat.div_eq_of_lt low
  have whole : page2pa p / 2 ^ 12 = p := Nat.mul_div_cancel p (by decide)
  rw [none, whole, Nat.or_zero] at split
  rw [frame_eq]
  exact split

theorem present_last (word : Nat) : present (word ||| PTE_P) = true :=
  (present_iff _).mpr (Nat.or_mod_two_eq_one.mpr (Or.inr (by decide)))

theorem entryPage_flags (p : Nat) {perm : Nat} (low : perm < PGSIZE) :
    entryPage (page2pa p ||| perm ||| PTE_P) = some p := by
  have flags : perm ||| PTE_P < 2 ^ 12 := Nat.or_lt_two_pow low (by decide)
  unfold entryPage
  rw [if_pos (present_last _), Nat.or_assoc, frame_flags p flags]

theorem entryPage_table (p : Nat) : entryPage (page2pa p ||| PTE_P ||| PTE_W ||| PTE_U) = some p := by
  have shuffle : page2pa p ||| PTE_P ||| PTE_W ||| PTE_U = page2pa p ||| (PTE_W ||| PTE_U) ||| PTE_P := by
    rw [Nat.or_assoc, Nat.or_assoc, Nat.or_assoc]
    rfl
  rw [shuffle]
  exact entryPage_flags p (by decide)

theorem entryPage_some {entry p : Nat} (some : entryPage entry = some p) : present entry = true ∧ frame entry = p := by
  unfold entryPage at some
  split at some
  · rename_i here
    exact ⟨here, Option.some.inj some⟩
  · exact nomatch some

theorem entryPage_of_present {entry : Nat} (here : present entry = true) : entryPage entry = some (frame entry) := by
  unfold entryPage
  rw [if_pos here]

theorem entryPage_zero : entryPage 0 = none := rfl

theorem pdx_page {n : Nat} (low : n < 2 ^ 20) : pdx (n * PGSIZE) = n / 1024 := by
  unfold pdx PGSIZE
  omega

theorem ptx_page (n : Nat) : ptx (n * PGSIZE) = n % 1024 := by
  unfold ptx PGSIZE
  omega

end Entries

section Frame
variable {img : Image} {all : Nat → Prop} {dirs : List Nat} {held : Multiset Nat} {s t : Mem} {dir p n : Nat}

theorem own_of_mem {w : Nat → Nat → Nat} {r : Role} (here : r.dir ∈ dirs) : own w dirs r = page w r := if_pos here

theorem own_outside {w : Nat → Nat → Nat} {r : Role} (away : r.dir ∉ dirs) : own w dirs r = none := if_neg away

/-- Only which directories are in use matters, not their order. -/
theorem own_perm {w : Nat → Nat → Nat} {dirs' : List Nat} (same : ∀ d, d ∈ dirs' ↔ d ∈ dirs) : own w dirs' = own w dirs := by
  funext r
  unfold own
  simp only [same]

theorem Kept.perm (kept : Kept img all dirs held s) {dirs' : List Nat} (same : ∀ d, d ∈ dirs' ↔ d ∈ dirs) :
    Kept img all dirs' held s := ⟨own_perm same ▸ kept.ex, kept.valid⟩

theorem Kept.directory (kept : Kept img all dirs held s) (here : dir ∈ dirs) : dir ∉ held + s.freelist :=
  kept.ex.alone (.directory dir) dir (own_of_mem here)

theorem own_table (here : dir ∈ dirs) {d : Nat} (low : d < NPDENTRIES) (set : present (s.words dir d) = true) :
    own s.words dirs (.table dir ⟨d, low⟩) = some (frame (s.words dir d)) :=
  (own_of_mem here).trans (entryPage_of_present set)

theorem Kept.table (kept : Kept img all dirs held s) (here : dir ∈ dirs) {d : Nat} (low : d < NPDENTRIES)
    (set : present (s.words dir d) = true) : frame (s.words dir d) ∉ held + s.freelist :=
  kept.ex.alone _ _ (own_table here low set)

theorem Kept.inside (kept : Kept img all dirs held s) (member : p ∈ held + s.freelist) :
    v2p img.fin ≤ page2pa p ∧ page2pa p < PHYSTOP := kept.valid p (kept.ex.all_pool member)

/-- Writes to pages without a role are not seen by the address spaces. -/
theorem Kept.same_pte (kept : Kept img all dirs held s) {w : Nat → Nat → Nat}
    (same : ∀ q, q ∉ held + s.freelist → w q = s.words q) (here : dir ∈ dirs) (low : n < 2 ^ 20) :
    pte w dir n = pte s.words dir n := by
  unfold pte
  rw [same dir (kept.directory here)]
  by_cases some : present (s.words dir (n / 1024)) = true
  · have inside : n / 1024 < NPDENTRIES := by
      unfold NPDENTRIES
      omega
    rw [if_pos some, if_pos some, same _ (kept.table here inside some)]
  · rw [if_neg some, if_neg some]

theorem Kept.same_own (kept : Kept img all dirs held s) {w : Nat → Nat → Nat}
    (same : ∀ q, q ∉ held + s.freelist → w q = s.words q) : own w dirs = own s.words dirs := by
  funext r
  by_cases here : r.dir ∈ dirs
  · rw [own_of_mem here, own_of_mem here]
    cases r with
    | directory dir => rfl
    | table dir d => exact congrArg entryPage (congrFun (same dir (kept.directory here)) d)
    | user dir n => exact congrArg entryPage (kept.same_pte same here (Nat.lt_trans n.isLt (by decide)))
  · rw [own_outside here, own_outside here]

theorem fill_other {q : Nat} (content : Nat → Nat) (other : q ≠ p) : (s.fill p content).words q = s.words q := by
  unfold Mem.fill
  dsimp only
  rw [Function.update_of_ne other]

theorem fill_outside {pool : Multiset Nat} (content : Nat → Nat) (member : p ∈ pool) :
    ∀ q, q ∉ pool → (s.fill p content).words q = s.words q :=
  fun _ away => fill_other content fun same => away (same ▸ member)

theorem Kept.fill (kept : Kept img all dirs held s) (content : Nat → Nat) (member : p ∈ held) :
    Kept img all dirs held (s.fill p content) ∧ own (s.fill p content).words dirs = own s.words dirs := by
  have same := kept.same_own (fill_outside content (Multiset.mem_add.mpr (Or.inl member)))
  refine ⟨⟨?_, kept.valid⟩, same⟩
  rw [same]
  exact kept.ex

theorem Kept.fill_pte (kept : Kept img all dirs held s) (content : Nat → Nat) (member : p ∈ held) (here : dir ∈ dirs)
    (low : n < 2 ^ 20) : pte (s.fill p content).words dir n = pte s.words dir n :=
  kept.same_pte (fill_outside content (Multiset.mem_add.mpr (Or.inl member))) here low

end Frame

section Store
variable {img : Image} {all : Nat → Prop} {dirs : List Nat} {held : Multiset Nat} {s t : Mem} {dir p n : Nat}

/-- Where the entry for page number `n` is, if it has a page table. -/
def entryLoc (s : Mem) (dir n : Nat) : PteLoc := ⟨frame (s.words dir (n / 1024)), n % 1024⟩

theorem load_entry (set : present (s.words dir (n / 1024)) = true) : s.load (entryLoc s dir n) = pte s.words dir n := by
  unfold pte
  rw [if_pos set]
  rfl

theorem store_other {loc : PteLoc} {q : Nat} (word : Nat) (other : q ≠ loc.page) : (s.store loc word).words q = s.words q := by
  unfold Mem.store
  dsimp only
  rw [Function.update_of_ne other]

theorem store_here (loc : PteLoc) (word i : Nat) :
    (s.store loc word).words loc.page i = if i = loc.index then word else s.words loc.page i := by
  unfold Mem.store
  dsimp only
  rw [Function.update_self, Function.update_apply]

/-- No two entries of directories point to one page table, and none to a directory. -/
theorem Kept.table_alone (kept : Kept img all dirs held s) (here : dir ∈ dirs) {d : Nat} (low : d < NPDENTRIES)
    (set : present (s.words dir d) = true) {dir' : Nat} (here' : dir' ∈ dirs) :
    dir' ≠ frame (s.words dir d) ∧ ∀ d' < NPDENTRIES, present (s.words dir' d') = true →
      frame (s.words dir' d') = frame (s.words dir d) → dir' = dir ∧ d' = d := by
  have mine := own_table here low set
  constructor
  · intro same
    have role := kept.ex.single (.directory dir') _ _ (own_of_mem here') (same ▸ mine)
    exact Role.noConfusion role
  · intro d' low' set' same
    have theirs := own_table here' low' set'
    rw [same] at theirs
    have role := kept.ex.single _ _ _ theirs mine
    injection role with sameDir sameIndex
    exact ⟨sameDir, congrArg Fin.val sameIndex⟩

theorem div_low (low : n < 2 ^ 20) : n / 1024 < NPDENTRIES := by
  unfold NPDENTRIES
  omega

theorem Kept.store_pte (kept : Kept img all dirs held s) (here : dir ∈ dirs) (low : n < 2 ^ 20)
    (set : present (s.words dir (n / 1024)) = true) (word : Nat) {dir' m : Nat} (here' : dir' ∈ dirs) (low' : m < 2 ^ 20) :
    pte (s.store (entryLoc s dir n) word).words dir' m = if dir' = dir ∧ m = n then word else pte s.words dir' m := by
  obtain ⟨away,alone⟩ := kept.table_alone here (div_low low) set here'
  have same : (s.store (entryLoc s dir n) word).words dir' = s.words dir' := store_other word away
  unfold pte
  rw [same]
  by_cases set' : present (s.words dir' (m / 1024)) = true
  · rw [if_pos set', if_pos set']
    by_cases table : frame (s.words dir' (m / 1024)) = frame (s.words dir (n / 1024))
    · obtain ⟨rfl,block⟩ := alone _ (div_low low') set' table
      rw [table, show frame (s.words dir' (n / 1024)) = (entryLoc s dir' n).page from rfl, store_here]
      have index : (entryLoc s dir' n).index = n % 1024 := rfl
      rw [index]
      have whole : m % 1024 = n % 1024 ↔ m = n := by omega
      simp only [whole, true_and]
    · have other : ¬ (dir' = dir ∧ m = n) := by
        rintro ⟨rfl,rfl⟩
        exact table rfl
      rw [if_neg other, store_other word table]
  · have other : ¬ (dir' = dir ∧ m = n) := by
      rintro ⟨rfl,rfl⟩
      exact set' set
    rw [if_neg set', if_neg set', if_neg other]

theorem Kept.store_page (kept : Kept img all dirs held s) (here : dir ∈ dirs) (low : n < 2 ^ 20)
    (set : present (s.words dir (n / 1024)) = true) (word : Nat) {r : Role} (there : r.dir ∈ dirs)
    (other : ∀ small, r ≠ .user dir ⟨n, small⟩) : page (s.store (entryLoc s dir n) word).words r = page s.words r := by
  obtain ⟨away,_⟩ := kept.table_alone here (div_low low) set there
  cases r with
  | directory => rfl
  | table dir' d => exact congrArg entryPage (congrFun (store_other word away) d)
  | user dir' m =>
    have apart : ¬ (dir' = dir ∧ m.val = n) := by
      rintro ⟨rfl,rfl⟩
      exact other m.isLt rfl
    have inUse : dir' ∈ dirs := there
    have entry := kept.store_pte here low set word inUse (Nat.lt_trans m.isLt (by decide))
    rw [if_neg apart] at entry
    exact congrArg entryPage entry

theorem Kept.store_user (kept : Kept img all dirs held s) (here : dir ∈ dirs) (small : n < userPages)
    (set : present (s.words dir (n / 1024)) = true) (word : Nat) :
    own (s.store (entryLoc s dir n) word).words dirs =
      Function.update (own s.words dirs) (.user dir ⟨n, small⟩) (entryPage word) := by
  have low : n < 2 ^ 20 := Nat.lt_trans small (by decide)
  funext r
  by_cases same : r = .user dir ⟨n, small⟩
  · subst same
    rw [Function.update_self, own_of_mem here]
    have entry := kept.store_pte here low set word here low
    rw [if_pos ⟨rfl, rfl⟩] at entry
    exact congrArg entryPage entry
  · rw [Function.update_of_ne same]
    by_cases there : r.dir ∈ dirs
    · rw [own_of_mem there, own_of_mem there]
      exact kept.store_page here low set word there fun _ => same
    · rw [own_outside there, own_outside there]

/-- The kernel's part of a directory plays no role. -/
theorem Kept.store_kernel (kept : Kept img all dirs held s) (here : dir ∈ dirs) (low : n < 2 ^ 20) (high : userPages ≤ n)
    (set : present (s.words dir (n / 1024)) = true) (word : Nat) :
    own (s.store (entryLoc s dir n) word).words dirs = own s.words dirs := by
  funext r
  by_cases there : r.dir ∈ dirs
  · rw [own_of_mem there, own_of_mem there]
    exact kept.store_page here low set word there fun small => absurd small (Nat.not_lt.mpr high)
  · rw [own_outside there, own_outside there]

end Store

section Calls
variable {img : Image} {all : Nat → Prop} {dirs : List Nat} {held : Multiset Nat} {s t : Mem} {dir p n : Nat}
variable {E : Panic → Prop}

/-- The free pages and the calls of `kalloc` to come do not matter to the address spaces. -/
theorem Kept.of_pool (kept : Kept img all dirs held s) {held' : Multiset Nat} (words : t.words = s.words)
    (pool : held' + t.freelist = held + s.freelist) : Kept img all dirs held' t := by
  refine ⟨?_, kept.valid⟩
  rw [words, pool]
  exact kept.ex

theorem pool_cons (held : Multiset Nat) (p : Nat) (list : List Nat) : held + ↑(p :: list) = p ::ₘ held + (list : Multiset Nat) := by
  rw [← Multiset.cons_coe, Multiset.cons_add, Multiset.add_cons]

theorem kalloc_spec (kept : Kept img all dirs held s) :
    wp E kalloc s fun mem t => t.words = s.words ∧
      match mem with
      | none => Kept img all dirs held t
      | some p => Kept img all dirs (p ::ₘ held) t := by
  unfold kalloc
  rw [wp_bind, wp_get]
  dsimp only
  cases list : s.freelist with
  | nil => exact ⟨rfl, kept.of_pool rfl (by rw [list])⟩
  | cons r next =>
    dsimp only
    rw [wp_ite]
    split
    · exact ⟨rfl, kept.of_pool rfl (by rw [list])⟩
    · refine ⟨rfl, kept.of_pool rfl ?_⟩
      rw [list, pool_cons]

theorem wp_kfree {Q : Unit → Mem → Prop} (valid : v2p img.fin ≤ page2pa p ∧ page2pa p < PHYSTOP) :
    wp E (kfree img p) s Q ↔ Q () { s.fill p junk with freelist := p :: s.freelist } := by
  have fine : ¬ (page2pa p < v2p img.fin ∨ PHYSTOP ≤ page2pa p) :=
    not_or.mpr ⟨Nat.not_lt.mpr valid.1, Nat.not_le.mpr valid.2⟩
  unfold kfree
  dsimp only
  rw [wp_ite, if_neg fine, wp_modify]

theorem kfree_spec (kept : Kept img all dirs (p ::ₘ held) s) :
    wp E (kfree img p) s fun _ t => Kept img all dirs held t ∧ own t.words dirs = own s.words dirs ∧
      ∀ q, q ≠ p → t.words q = s.words q := by
  have filled := kept.fill junk (Multiset.mem_cons_self p held)
  rw [wp_kfree (kept.inside (Multiset.mem_add.mpr (Or.inl (Multiset.mem_cons_self p held))))]
  exact ⟨filled.1.of_pool rfl (pool_cons held p s.freelist), filled.2, fun q other => fill_other junk other⟩

/-- `walkpgdir` without `alloc` only reads. -/
theorem walk_read {Q : Option PteLoc → Mem → Prop} (low : n < 2 ^ 20)
    (found : present (s.words dir (n / 1024)) = true → Q (some (entryLoc s dir n)) s)
    (missing : present (s.words dir (n / 1024)) = false → Q none s) : wp E (walkpgdir dir (n * PGSIZE) false) s Q := by
  unfold walkpgdir
  rw [wp_bind, wp_get, wp_ite, pdx_page low, ptx_page]
  split
  · rename_i set
    exact found set
  · rename_i unset
    rw [wp_ite, if_pos (by rfl)]
    exact missing (Bool.eq_false_iff.mpr unset)

/-- `*pde = V2P(pgtab) | PTE_P | PTE_W | PTE_U`. -/
def Mem.setPde (s : Mem) (dir d p : Nat) : Mem := s.store ⟨dir, d⟩ (page2pa p ||| PTE_P ||| PTE_W ||| PTE_U)

theorem setPde_here (d i : Nat) :
    (s.setPde dir d p).words dir i = if i = d then page2pa p ||| PTE_P ||| PTE_W ||| PTE_U else s.words dir i :=
  store_here ⟨dir, d⟩ _ i

theorem setPde_other {q d : Nat} (other : q ≠ dir) : (s.setPde dir d p).words q = s.words q := by
  unfold Mem.setPde
  rw [store_other _ other]

/-- A page table of zeros maps nothing, as no page table does. -/
theorem Kept.setPde_pte (kept : Kept img all dirs (p ::ₘ held) s) (here : dir ∈ dirs) {d : Nat}
    (unset : present (s.words dir d) = false) (zero : s.words p = fun _ => 0) {dir' : Nat} (there : dir' ∈ dirs)
    (low : n < 2 ^ 20) : pte (s.setPde dir d p).words dir' n = pte s.words dir' n := by
  have old : ∀ q i, present (s.words dir' (n / 1024)) = true → q = frame (s.words dir' (n / 1024)) →
      (s.setPde dir d p).words q i = s.words q i := by
    intro q i set same
    obtain ⟨away,_⟩ := kept.table_alone there (div_low low) set here
    rw [setPde_other fun eq => away (eq.symm.trans same)]
  unfold pte
  by_cases same : dir' = dir
  · subst same
    rw [setPde_here]
    by_cases block : n / 1024 = d
    · have entry := entryPage_some (entryPage_table p)
      have pooled : p ∈ p ::ₘ held + s.freelist := Multiset.mem_add.mpr (Or.inl (Multiset.mem_cons_self p held))
      have apart : p ≠ dir' := fun same => kept.directory here (same ▸ pooled)
      rw [if_pos block, if_pos entry.1, entry.2, setPde_other apart, zero, block, unset]
      rfl
    · rw [if_neg block]
      by_cases set : present (s.words dir' (n / 1024)) = true
      · rw [if_pos set, if_pos set, old _ _ set rfl]
      · rw [if_neg set, if_neg set]
  · rw [setPde_other same]
    by_cases set : present (s.words dir' (n / 1024)) = true
    · rw [if_pos set, if_pos set, old _ _ set rfl]
    · rw [if_neg set, if_neg set]

theorem Kept.setPde_own (kept : Kept img all dirs (p ::ₘ held) s) (here : dir ∈ dirs) {d : Nat} (low : d < NPDENTRIES)
    (unset : present (s.words dir d) = false) (zero : s.words p = fun _ => 0) :
    own (s.setPde dir d p).words dirs = Function.update (own s.words dirs) (.table dir ⟨d, low⟩) (some p) := by
  funext r
  by_cases same : r = .table dir ⟨d, low⟩
  · subst same
    rw [Function.update_self, own_of_mem here]
    change entryPage ((s.setPde dir d p).words dir d) = some p
    rw [setPde_here, if_pos rfl]
    exact entryPage_table p
  · rw [Function.update_of_ne same]
    by_cases there : r.dir ∈ dirs
    · rw [own_of_mem there, own_of_mem there]
      cases r with
      | directory => rfl
      | table dir' d' =>
        refine congrArg entryPage ?_
        by_cases mine : dir' = dir
        · subst mine
          have index : d'.val ≠ d := fun eq => same (congrArg _ (Fin.ext eq))
          rw [setPde_here, if_neg index]
        · rw [setPde_other mine]
      | user dir' n => exact congrArg entryPage (kept.setPde_pte here unset zero there (Nat.lt_trans n.isLt (by decide)))
    · rw [own_outside there, own_outside there]

/-- A page of zeros becomes a page table of the directory. -/
theorem Kept.setPde (kept : Kept img all dirs (p ::ₘ held) s) (here : dir ∈ dirs) {d : Nat} (low : d < NPDENTRIES)
    (unset : present (s.words dir d) = false) (zero : s.words p = fun _ => 0) :
    Kept img all dirs held (s.setPde dir d p) := by
  have none : own s.words dirs (.table dir ⟨d, low⟩) = none := by
    rw [own_of_mem here]
    change entryPage (s.words dir d) = none
    unfold entryPage
    rw [unset]
    rfl
  refine ⟨?_, kept.valid⟩
  rw [kept.setPde_own here low unset zero]
  refine Exclusive.give ?_ none
  rw [← Multiset.cons_add]
  exact kept.ex

end Calls

end Xv6Vm
