import Mathlib.Tactic.Ring
import KernelLabs.Jos.Pmap
import KernelLabs.Lib.Counting

/-!
The user half of one page directory read as a partial map from page numbers to
entries, and what stores into directory and table pages do to that map. Entries
above `UTOP` are left alone by every operation considered here.
-/
namespace JosPmap

theorem bind_ok {α β : Type} {x : Except Panic α} {f : α → Except Panic β} {r : β}
    (run : (x >>= f) = .ok r) : ∃ a, x = .ok a ∧ f a = .ok r := by
  cases x with
  | error e => cases run
  | ok a => exact ⟨a,rfl,run⟩

def userPdes : Nat := pdx UTOP
def userPages : Nat := UTOP / PGSIZE

/-- The physical page an entry points to. -/
def frame (entry : Nat) : Nat := pgnum (pteAddr entry)

/-- The low 12 bits of an entry. -/
def flagBits (entry : Nat) : Nat := entry % PGSIZE

def pde (s : Kernel) (pgdir : Nat) (d : Nat) : Nat := s.mem pgdir d

/-- The entry for page number `n`, 0 when it has no page table. -/
def pte (s : Kernel) (pgdir : Nat) (n : Nat) : Nat :=
  if present (pde s pgdir (n / NPTENTRIES)) then
    s.mem (frame (pde s pgdir (n / NPTENTRIES))) (n % NPTENTRIES)
  else 0

theorem pte_of_mem {s t : Kernel} (mem : t.mem = s.mem) (pgdir n : Nat) :
    pte t pgdir n = pte s pgdir n := by
  unfold pte pde
  rw [mem]

theorem user_pdes_eq : userPdes = 955 := by decide

theorem user_pages_eq : userPages = 977920 := by decide

theorem frame_eq_div (entry : Nat) : frame entry = entry / 4096 := by
  simp only [frame, pgnum, pteAddr, PGSIZE]
  omega

theorem present_iff (entry : Nat) : present entry = true ↔ entry % 2 = 1 := by
  simp [present, PTE_P, Nat.and_one_is_mod]

theorem not_present_zero : present 0 = false := by decide

theorem frame_or_flags (entry flags : Nat) (low : flags < PGSIZE) :
    frame (entry ||| flags) = frame entry := by
  have split : (entry ||| flags) / 2 ^ 12 = entry / 2 ^ 12 ||| flags / 2 ^ 12 :=
    Nat.or_div_two_pow
  have none : flags / 2 ^ 12 = 0 := Nat.div_eq_of_lt low
  rw [none, Nat.or_zero] at split
  rw [frame_eq_div, frame_eq_div]
  exact split

theorem flagBits_or (entry flags : Nat) : flagBits (entry ||| flags) = flagBits entry ||| flagBits flags :=
  Nat.or_mod_two_pow (n := 12)

theorem present_or (entry flags : Nat) (here : present entry = true) :
    present (entry ||| flags) = true := by
  rw [present_iff] at here ⊢
  exact Nat.or_mod_two_eq_one.mpr (Or.inl here)

theorem frame_page2pa (p : Nat) : frame (page2pa p) = p := by
  rw [frame_eq_div, page2pa, PGSIZE]
  omega

theorem frame_user_entry (p : Nat) (perm : Nat) (low : perm < PGSIZE) :
    frame (page2pa p ||| perm ||| PTE_P) = p := by
  rw [frame_or_flags _ PTE_P (by decide), frame_or_flags _ perm low, frame_page2pa]

theorem present_user_entry (entry perm : Nat) :
    present (entry ||| perm ||| PTE_P) = true := by
  rw [present_iff]
  exact Nat.or_mod_two_eq_one.mpr (Or.inr (by decide))

theorem entry_word {pa perm : Nat} (aligned : PGSIZE ∣ pa) (low : perm < PGSIZE) :
    pteAddr (pa ||| perm ||| PTE_P) = pa ∧ flagBits (pa ||| perm ||| PTE_P) = perm ||| PTE_P := by
  have one : PTE_P < PGSIZE := by decide
  constructor
  · have page := (frame_or_flags (pa ||| perm) PTE_P one).trans (frame_or_flags pa perm low)
    rw [frame_eq_div, frame_eq_div] at page
    rw [pteAddr, PGSIZE, page]
    exact Nat.div_mul_cancel aligned
  · rw [flagBits_or, flagBits_or]
    rw [flagBits, flagBits, flagBits, Nat.mod_eq_zero_of_dvd aligned, Nat.mod_eq_of_lt low, Nat.mod_eq_of_lt one, Nat.zero_or]

theorem frame_table_entry (p : Nat) :
    frame (page2pa p ||| PTE_P ||| PTE_W ||| PTE_U) = p := by
  rw [frame_or_flags _ PTE_U (by decide), frame_or_flags _ PTE_W (by decide),
    frame_or_flags _ PTE_P (by decide), frame_page2pa]

theorem present_table_entry (entry : Nat) :
    present (entry ||| PTE_P ||| PTE_W ||| PTE_U) = true := by
  have base : present (entry ||| PTE_P) = true := by
    rw [present_iff]
    exact Nat.or_mod_two_eq_one.mpr (Or.inr (by decide))
  exact present_or _ _ (present_or _ _ base)

theorem pgnum_div_eq_pdx (va : Nat) (user : va < UTOP) : pgnum va / NPTENTRIES = pdx va := by
  simp only [pgnum, pdx, PGSIZE, NPTENTRIES, UTOP] at *
  omega

theorem pgnum_mod_eq_ptx (va : Nat) : pgnum va % NPTENTRIES = ptx va := rfl

theorem pdx_lt_user (va : Nat) (user : va < UTOP) : pdx va < userPdes := by
  rw [user_pdes_eq]
  simp only [pdx, PGSIZE, NPTENTRIES, UTOP] at *
  omega

theorem pgnum_lt_user (va : Nat) (user : va < UTOP) : pgnum va < userPages := by
  rw [user_pages_eq]
  simp only [pgnum, PGSIZE, UTOP] at *
  omega

theorem user_page_pde (n : Nat) (user : n < userPages) : n / NPTENTRIES < userPdes := by
  rw [user_pages_eq] at user
  rw [user_pdes_eq, NPTENTRIES]
  omega

@[simp] theorem mem_setLink (s : Kernel) (p : Nat) (next : Option Nat) :
    (s.setLink p next).mem = s.mem := rfl
@[simp] theorem mem_setRef (s : Kernel) (p : Nat) (n : Nat) : (s.setRef p n).mem = s.mem := rfl
@[simp] theorem ref_setLink (s : Kernel) (p : Nat) (next : Option Nat) :
    (s.setLink p next).ref = s.ref := by
  funext q
  by_cases same : q = p
  · subst same; simp [Kernel.ref, Kernel.setLink]
  · simp [Kernel.ref, Kernel.setLink, same]
@[simp] theorem link_setRef (s : Kernel) (p : Nat) (n : Nat) :
    (s.setRef p n).link = s.link := by
  funext q
  by_cases same : q = p
  · subst same; simp [Kernel.link, Kernel.setRef]
  · simp [Kernel.link, Kernel.setRef, same]
@[simp] theorem link_setLink (s : Kernel) (p : Nat) (next : Option Nat) :
    (s.setLink p next).link = Function.update s.link p next := by
  funext q
  by_cases same : q = p
  · subst same; simp [Kernel.link, Kernel.setLink]
  · simp [Kernel.link, Kernel.setLink, same]
@[simp] theorem ref_setRef (s : Kernel) (p : Nat) (n : Nat) :
    (s.setRef p n).ref = Function.update s.ref p (n % 2 ^ 16) := by
  funext q
  by_cases same : q = p
  · subst same; simp [Kernel.ref, Kernel.setRef]
  · simp [Kernel.ref, Kernel.setRef, same]

theorem mem_store (s : Kernel) (loc : PteLoc) (word : Nat) (p : Nat) (i : Nat) :
    (s.store loc word).mem p i = if p = loc.page ∧ i = loc.index then word else s.mem p i := by
  simp only [Kernel.store]
  by_cases page : p = loc.page
  · subst page
    by_cases index : i = loc.index
    · subst index; simp
    · simp [index]
  · simp [page]

/-- Every user table page, for the operations that must not write into one. -/
def IsTable (s : Kernel) (pgdir : Nat) (p : Nat) : Prop :=
  ∃ d, d < userPdes ∧ present (pde s pgdir d) = true ∧ frame (pde s pgdir d) = p

/-- The directories agree on which page tables they use. -/
def SameTables (s t : Kernel) (pgdir : Nat) : Prop :=
  ∀ d, d < userPdes → present (pde t pgdir d) = present (pde s pgdir d) ∧
    frame (pde t pgdir d) = frame (pde s pgdir d)

theorem same_tables_of_eq {s t : Kernel} {pgdir : Nat}
    (dir : ∀ d, d < userPdes → pde t pgdir d = pde s pgdir d) : SameTables s t pgdir := by
  intro d user
  rw [dir d user]
  exact ⟨rfl,rfl⟩

theorem pte_congr {s t : Kernel} {pgdir : Nat} (dir : SameTables s t pgdir)
    (tables : ∀ p, IsTable s pgdir p → t.mem p = s.mem p) (n : Nat) (user : n < userPages) :
    pte t pgdir n = pte s pgdir n := by
  have slot := user_page_pde n user
  obtain ⟨flag,target⟩ := dir _ slot
  simp only [pte]
  rw [flag, target]
  split
  · rename_i here
    rw [tables _ ⟨_, slot, here, rfl⟩]
  · rfl

end JosPmap
