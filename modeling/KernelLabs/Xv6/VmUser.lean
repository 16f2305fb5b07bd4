import KernelLabs.Xv6.Exec
import KernelLabs.Xv6.Growproc

/-!
Writes to the pages of user memory, and the guard page of `exec`: no page changes its role.
-/
namespace Xv6Vm
open Custody Wp

variable {img : Image} {all : Nat → Prop} {dirs : List Nat} {held : Multiset Nat} {s t u : Mem} {dir p n : Nat}

section Guard

theorem ldiff_div (entry : Nat) : Nat.ldiff entry PTE_U / PGSIZE = entry / PGSIZE := by
  apply Nat.eq_of_testBit_eq
  intro i
  rw [show PGSIZE = 2 ^ 12 by rfl, Nat.testBit_div_two_pow, Nat.testBit_div_two_pow, Nat.testBit_ldiff]
  have none : Nat.testBit PTE_U (i + 12) = false := Nat.testBit_eq_false_of_lt (Nat.lt_of_lt_of_le (by decide) (Nat.pow_le_pow_right (by decide) (Nat.le_add_left 12 i)))
  rw [none, Bool.not_false, Bool.and_true]

theorem ldiff_present (entry : Nat) : present (Nat.ldiff entry PTE_U) = present entry := by
  have bit : ∀ x, present x = x.testBit 0 := by
    intro x
    rw [Bool.eq_iff_iff, present_iff, Nat.testBit_zero, decide_eq_true_iff]
  rw [bit, bit, Nat.testBit_ldiff]
  exact Bool.and_true _

theorem ldiff_page (entry : Nat) : entryPage (Nat.ldiff entry PTE_U) = entryPage entry := by
  unfold entryPage frame pteAddr
  rw [ldiff_present, ldiff_div]

end Guard

section Write

theorem pte_congr (directory : t.words dir = s.words dir)
    (table : present (s.words dir (n / 1024)) = true → t.words (frame (s.words dir (n / 1024))) = s.words (frame (s.words dir (n / 1024)))) :
    pte t.words dir n = pte s.words dir n := by
  unfold pte
  rw [directory]
  by_cases set : present (s.words dir (n / 1024)) = true
  · rw [if_pos set, if_pos set, table set]
  · rw [if_neg set, if_neg set]

theorem pte_table (mapped : present (pte s.words dir n) = true) : present (s.words dir (n / 1024)) = true := by
  unfold pte at mapped
  by_cases set : present (s.words dir (n / 1024)) = true
  · exact set
  · rw [if_neg set] at mapped
    cases mapped

theorem Intact.pte (intact : Intact dirs s t) (here : dir ∈ dirs) (low : n < 2 ^ 20) : pte t.words dir n = pte s.words dir n :=
  pte_congr (intact.data (.directory dir) dir (own_of_mem here)) fun set => intact.data _ _ (own_table here (div_low low) set)

theorem Elsewhere.pte {d : Nat} (elsewhere : Elsewhere dirs dir s t) (here : d ∈ dirs) (other : d ≠ dir) (low : n < 2 ^ 20) :
    pte t.words d n = pte s.words d n :=
  pte_congr (elsewhere.data (.directory d) d other (own_of_mem here)) fun set =>
    elsewhere.data (.table d ⟨n / 1024, div_low low⟩) _ other (own_table here (div_low low) set)

variable {m : Fin userPages}

/-- A page of user memory is neither a directory nor a page table. -/
theorem Kept.user_plain (kept : Kept img all dirs held s) (mine : own s.words dirs (.user dir m) = some p) {dir' : Nat}
    (there : dir' ∈ dirs) : dir' ≠ p ∧ ∀ d < NPDENTRIES, present (s.words dir' d) = true → frame (s.words dir' d) ≠ p := by
  constructor
  · rintro rfl
    exact Role.noConfusion (kept.ex.single (.directory dir') _ _ (own_of_mem there) mine)
  · rintro d low set rfl
    exact Role.noConfusion (kept.ex.single _ _ _ (own_table there low set) mine)

/-- A page of user memory is written. -/
theorem Kept.write_pte (kept : Kept img all dirs held s) (mine : own s.words dirs (.user dir m) = some p) (content : Nat → Nat)
    {dir' : Nat} (there : dir' ∈ dirs) (low : n < 2 ^ 20) : pte (s.fill p content).words dir' n = pte s.words dir' n := by
  obtain ⟨notDir,notTable⟩ := kept.user_plain mine there
  unfold pte
  rw [fill_other content notDir]
  by_cases set : present (s.words dir' (n / 1024)) = true
  · rw [if_pos set, if_pos set, fill_other content (notTable _ (div_low low) set)]
  · rw [if_neg set, if_neg set]

theorem Kept.write (kept : Kept img all dirs held s) (mine : own s.words dirs (.user dir m) = some p) (content : Nat → Nat) :
    Kept img all dirs held (s.fill p content) ∧ own (s.fill p content).words dirs = own s.words dirs := by
  have same : own (s.fill p content).words dirs = own s.words dirs := by
    funext r
    by_cases there : r.dir ∈ dirs
    · rw [own_of_mem there, own_of_mem there]
      cases r with
      | directory => rfl
      | table dir' d => exact congrArg entryPage (congrFun (fill_other content (kept.user_plain mine there).1) d)
      | user dir' k => exact congrArg entryPage (kept.write_pte mine content there (Nat.lt_trans k.isLt (by decide)))
    · rw [own_outside there, own_outside there]
  refine ⟨⟨?_, kept.valid⟩, same⟩
  rw [same]
  exact kept.ex

/-- Only that page of that address space is written. -/
theorem Kept.write_elsewhere (kept : Kept img all dirs held s) (mine : own s.words dirs (.user dir m) = some p)
    (content : Nat → Nat) : Elsewhere dirs dir s (s.fill p content) := by
  refine kept.elsewhere (fun r _ => congrFun (kept.write mine content).2 r) fun q _ away => fill_other content ?_
  rintro rfl
  exact away _ rfl mine

end Write

section Guard
variable {E : Xv6Exec.Panic → Prop}

theorem wp_lift {α : Type} {m : M α} {Q : α → Mem → Prop} : wp E (Xv6Exec.lift m) s Q ↔ wp (fun p => E (.vm p)) m s Q := by
  unfold wp Xv6Exec.lift
  cases m s with
  | error e => rfl
  | ok result => rfl

/-- `clearpteu` of a page that has a page table. -/
theorem clearpteu_spec (kept : Kept img all dirs held s) (here : dir ∈ dirs) (small : n < userPages)
    (set : present (s.words dir (n / 1024)) = true) :
    wp E (Xv6Exec.clearpteu dir (n * PGSIZE)) s fun _ t => Kept img all dirs held t ∧ Elsewhere dirs dir s t ∧
      ∃ loc word, t = s.store loc word ∧ loc = entryLoc s dir n ∧ word = Nat.ldiff (pte s.words dir n) PTE_U := by
  have low : n < 2 ^ 20 := Nat.lt_trans small (by decide)
  unfold Xv6Exec.clearpteu
  rw [wp_bind, wp_lift]
  refine walk_read low (fun _ => ?_) fun unset => by cases unset.symm.trans set
  dsimp only
  rw [wp_modify, load_entry set]
  refine ⟨⟨?_, kept.valid⟩, kept.elsewhere_store here low set _, _, _, rfl, rfl, rfl⟩
  have same : entryPage (Nat.ldiff (pte s.words dir n) PTE_U) = own s.words dirs (.user dir ⟨n, small⟩) := by
    rw [ldiff_page, own_of_mem here]
    rfl
  rw [kept.store_user here small set, same, Function.update_eq_self]
  exact kept.ex

end Guard

end Xv6Vm
