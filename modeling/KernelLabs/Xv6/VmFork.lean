import KernelLabs.Xv6.VmUser

/-!
What `copyuvm` makes for `fork`: an address space with the pages of the parent, each in a
physical page of its own. Processes write to their pages and `exec` hides the guard page, so
these are steps here too.
-/
namespace Xv6Vm
open Custody Wp Transition

variable {img : Image} {all : Nat → Prop} {dirs : List Nat} {held : Multiset Nat} {s₀ s t u : Mem} {dir d p n : Nat}

section Entries

end Entries

section Copying

/-- User page `m` of the new directory is a copy of the parent's. -/
structure Copy (d dir m : Nat) (s₀ s : Mem) : Prop where
  mapped : present (pte s.words d m) = true
  flags : pteFlags (pte s.words d m) = pteFlags (pte s₀.words dir m)
  content : s.words (frame (pte s.words d m)) = s₀.words (frame (pte s₀.words dir m))

/-- The loop of `copyuvm` at page `n`. -/
structure Copying (dirs : List Nat) (d dir n : Nat) (s₀ s : Mem) : Prop where
  copies : ∀ m < n, Copy d dir m s₀ s
  rest : ∀ m < userPages, n ≤ m → present (pte s.words d m) = false
  kernel : present (pte s.words d userPages) = true
  intact : Intact dirs s₀ s

theorem Copy.keep {m : Nat} (copy : Copy d dir m s₀ s) (same : SamePage d m s t) : Copy d dir m s₀ t := by
  obtain ⟨entry,content⟩ := same
  refine ⟨?_, ?_, ?_⟩
  · rw [entry]
    exact copy.mapped
  · rw [entry]
    exact copy.flags
  · rw [entry, content]
    exact copy.content

theorem Copying.keep (copying : Copying dirs d dir n s₀ s) (small : n ≤ userPages)
    (same : ∀ m < userPages, pte t.words d m = pte s.words d m ∧ (present (pte s.words d m) = true → SamePage d m s t))
    (kernel : pte t.words d userPages = pte s.words d userPages) (intact : Intact dirs s t) : Copying dirs d dir n s₀ t := by
  refine ⟨fun m below => ?_, fun m smallM above => ?_, ?_, copying.intact.trans intact⟩
  · have copy := copying.copies m below
    exact copy.keep ((same m (by omega)).2 copy.mapped)
  · rw [(same m smallM).1]
    exact copying.rest m smallM above
  · rw [kernel]
    exact copying.kernel

theorem Elsewhere.intact (elsewhere : Elsewhere (d :: dirs) d s t) (new : d ∉ dirs) : Intact dirs s t :=
  elsewhere.others (apart_cons new)

theorem Intact.tail (intact : Intact (d :: dirs) s t) (new : d ∉ dirs) : Intact dirs s t :=
  Elsewhere.intact intact.elsewhere new

end Copying

section Later

/-- Address spaces of which every page has one use. -/
structure Spaces (img : Image) where
  all : Nat → Prop
  dirs : List Nat
  mem : Mem
  kept : Kept img all dirs 0 mem

/-- A process stores a word in its user memory, where it has a page. -/
structure Write where
  pgdir : Nat
  page : Nat
  index : Nat
  word : Nat

def write (dirs : List Nat) (s : Mem) (a : Write) : Option Mem :=
  if a.pgdir ∈ dirs ∧ a.page < userPages ∧ present (pte s.words a.pgdir a.page) then
    some (s.store ⟨frame (pte s.words a.pgdir a.page), a.index⟩ a.word)
  else none

/-- What a process finds in its user memory. -/
def read (s : Mem) (pgdir n i : Nat) : Option Nat :=
  if present (pte s.words pgdir n) then some (s.words (frame (pte s.words pgdir n)) i) else none

theorem write_kept {a : Write} (kept : Kept img all dirs held s) (run : write dirs s a = some t) :
    Kept img all dirs held t ∧ Elsewhere dirs a.pgdir s t := by
  unfold write at run
  simp only [Option.ite_none_right_eq_some, Option.some.injEq] at run
  obtain ⟨⟨here,small,mapped⟩,rfl⟩ := run
  have mine := own_user here small mapped
  exact ⟨(kept.write mine _).1, kept.write_elsewhere mine _⟩

theorem Elsewhere.read (elsewhere : Elsewhere dirs dir s t) (here : d ∈ dirs) (other : d ≠ dir) (small : n < userPages) (i : Nat) :
    read t d n i = read s d n i := by
  have entry := elsewhere.pte here other (Nat.lt_trans small (by decide))
  unfold Xv6Vm.read
  rw [entry]
  by_cases mapped : present (Xv6Vm.pte s.words d n) = true
  · rw [if_pos mapped, if_pos mapped, elsewhere.data (.user d ⟨n, small⟩) _ other (own_user here small mapped)]
  · rw [if_neg mapped, if_neg mapped]

end Later

section Reach
variable {m m' : Machine}

/-- A call of `vm.c`, the guard page of `exec`, or a store of a process. -/
inductive Use where
  | call (op : Op)
  | clearpteu (pgdir page : Nat)
  | write (a : Write)

def Machine.use (img : Image) (m : Machine) : Use → Option Machine
  | .call op => m.call img op
  | .clearpteu pgdir page =>
    if pgdir ∈ m.dirs ∧ page < userPages ∧ present (pte m.mem.words pgdir page) then
      match Xv6Exec.clearpteu pgdir (page * PGSIZE) m.mem with
      | .ok (_, s) => some ⟨s, m.dirs⟩
      | .error _ => none
    else none
  | .write a => (Xv6Vm.write m.dirs m.mem a).map fun s => ⟨s, m.dirs⟩

def uses (img : Image) : System Machine Use where
  start := Machine.booted img
  next := Machine.use img

theorem use_sound (a : Use) (sound : Sound img m) (run : m.use img a = some m') : Sound img m' := by
  cases a with
  | call op => exact call_sound op sound run
  | clearpteu pgdir page =>
    simp only [Machine.use, Option.ite_none_right_eq_some] at run
    obtain ⟨⟨here,small,mapped⟩,run⟩ := run
    have after := clearpteu_spec (E := fun _ => True) sound.kept here small (pte_table mapped)
    unfold wp at after
    generalize Xv6Exec.clearpteu pgdir (page * PGSIZE) m.mem = out at run after
    cases out with
    | error e => cases run
    | ok result =>
      cases run
      exact ⟨after.1, sound.names⟩
  | write a =>
    obtain ⟨t,stored,rfl⟩ := Option.map_eq_some_iff.mp run
    exact ⟨(write_kept sound.kept stored).1, sound.names⟩

/-- After every run the pages have one use each. -/
theorem reach_spaces (img : Image) (reach : (uses img).Reach System.Free m) :
    ∃ v : Spaces img, v.dirs = m.dirs ∧ v.mem = m.mem := by
  have sound : Sound img m := System.reach_invariant (uses img) (fun m booted => reach_sound img (.start booted))
    (fun m a m' sound _ run => use_sound a sound run) reach
  exact ⟨⟨_, m.dirs, m.mem, sound.kept⟩, rfl, rfl⟩

end Reach

section Fork
variable {sz : Nat}

end Fork

/-- Memory of three pages: a directory, its page table and a page of user memory. -/
def threePages : Mem :=
  ({ freelist := [], words := fun _ _ => 0, deny := fun _ => false } : Mem).setPde 2000 0 2001
    |>.store ⟨2001, 0⟩ (page2pa 2002 ||| (PTE_W ||| PTE_U) ||| PTE_P)

theorem threePages_kept : Kept smallImage (· ∈ ({2000, 2001, 2002} : Multiset Nat)) [2000] 0 threePages := by
  have start : Kept smallImage (· ∈ ({2000, 2001, 2002} : Multiset Nat)) [] {2000, 2001, 2002}
      { freelist := [], words := fun _ _ => 0, deny := fun _ => false } := by
    refine ⟨Exclusive.unheld (by decide), fun p member => ?_⟩
    simp only [Multiset.insert_eq_cons, Multiset.mem_cons, Multiset.mem_singleton] at member
    rcases member with rfl | rfl | rfl <;> decide
  have directory := (start.adopt rfl).1
  have table := directory.setPde List.mem_cons_self (d := 0) (by decide) rfl rfl
  exact table.give_user (n := 0) List.mem_cons_self (by decide) (by decide) (by decide) (by decide)

end Xv6Vm
