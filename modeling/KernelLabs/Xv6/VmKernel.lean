import KernelLabs.Xv6.VmUser

/-!
The kernel's part of an address space: `setupkvm` gives it entries that user code cannot use
and page tables for the two regions of `kmap`, and no call for user memory changes it.
-/
namespace Xv6Vm
open Custody Wp

variable {img : Image} {all : Nat → Prop} {dirs : List Nat} {held : Multiset Nat} {s t u : Mem} {dir p n : Nat}

def userTables : Nat := 512

/-- What `entry & PTE_U` tells. -/
def userBit (entry : Nat) : Bool := entry.testBit 2

/-- The directory entries of the pages from `KERNBASE` to `PHYSTOP` and of those from `DEVSPACE` on. -/
def kernelTable (d : Nat) : Bool := d < 568 || 1016 ≤ d

structure KernelPart (w : Nat → Nat → Nat) (dir : Nat) : Prop where
  hidden : ∀ m < 2 ^ 20, userPages ≤ m → userBit (pte w dir m) = false
  tables : ∀ d < NPDENTRIES, userTables ≤ d → present (w dir d) = kernelTable d

/-- User code can use all pages of user memory. -/
def Usable (w : Nat → Nat → Nat) (dir : Nat) : Prop := ∀ m < userPages, present (pte w dir m) = true → userBit (pte w dir m) = true

/-- Only the user's part of the address space changes, and its pages stay usable. -/
structure Lower (dir : Nat) (s t : Mem) : Prop where
  entries : ∀ m < 2 ^ 20, userPages ≤ m → pte t.words dir m = pte s.words dir m
  tables : ∀ d, userTables ≤ d → t.words dir d = s.words dir d
  usable : Usable s.words dir → Usable t.words dir

theorem Lower.refl (same : t.words = s.words) : Lower dir s t :=
  ⟨fun _ _ _ => by rw [same], fun _ _ => by rw [same], fun usable => by rwa [same]⟩

theorem Lower.trans (first : Lower dir s t) (second : Lower dir t u) : Lower dir s u :=
  ⟨fun m low high => (second.entries m low high).trans (first.entries m low high),
    fun d high => (second.tables d high).trans (first.tables d high), fun usable => second.usable (first.usable usable)⟩

/-- The page tables are the same. -/
theorem Lower.of_same (entries : ∀ m < 2 ^ 20, pte t.words dir m = pte s.words dir m) (directory : t.words dir = s.words dir) :
    Lower dir s t := by
  refine ⟨fun m low _ => entries m low, fun d _ => congrFun directory d, fun usable m small mapped => ?_⟩
  rw [entries m (Nat.lt_trans small (by decide))] at mapped ⊢
  exact usable m small mapped

theorem KernelPart.lower (part : KernelPart s.words dir) (lower : Lower dir s t) : KernelPart t.words dir := by
  refine ⟨fun m low high => ?_, fun d low high => ?_⟩
  · rw [lower.entries m low high]
    exact part.hidden m low high
  · rw [lower.tables d high]
    exact part.tables d low high

section User

/-- `walkpgdir` sets no other entry of the directory. -/
theorem walk_directory (kept : Kept img all dirs held s) (here : dir ∈ dirs) (low : n < 2 ^ 20) :
    wp (fun _ => True) (walkpgdir dir (n * PGSIZE) true) s fun _ t => ∀ d, d ≠ n / 1024 → t.words dir d = s.words dir d := by
  unfold walkpgdir
  dsimp only
  rw [wp_bind, wp_get, wp_ite, pdx_page low]
  split
  · exact fun _ _ => rfl
  · rw [wp_ite, if_neg (by decide), wp_bind]
    refine wp_mono (kalloc_spec kept) fun mem u ⟨words,keptU⟩ => ?_
    cases mem with
    | none =>
      intro d _
      rw [words]
    | some pgtab =>
      dsimp only
      rw [wp_bind, wp_modify, wp_bind, wp_modify, wp_pure]
      have apart : dir ≠ pgtab := by
        rintro rfl
        exact keptU.directory here (Multiset.mem_add.mpr (Or.inl (Multiset.mem_cons_self dir held)))
      intro d other
      have entry := @setPde_here (u.fill pgtab fun _ => 0) dir pgtab (n / 1024) d
      rw [if_neg other, fill_other _ apart, words] at entry
      exact entry

/-- One page mapped sets no other entry of the directory. -/
theorem map_directory (kept : Kept img all dirs held s) (here : dir ∈ dirs) (low : n < 2 ^ 20) {pa perm : Nat} :
    wp (fun _ => True) (mappages dir (n * PGSIZE) PGSIZE pa perm) s fun _ t => ∀ d, d ≠ n / 1024 → t.words dir d = s.words dir d := by
  have single := @mappages_eq dir n 0 perm pa low
  rw [Nat.zero_add, Nat.one_mul] at single
  rw [single, mapLoop, wp_bind]
  refine wp_mono (wp_and (walk_directory kept here low) (walk_alloc (E := fun _ => True) kept here low))
    fun loc t facts => ?_
  obtain ⟨others,walked,found⟩ := facts
  cases loc with
  | none => exact others
  | some l =>
    obtain ⟨rfl,set⟩ := found l rfl
    dsimp only
    rw [wp_bind, wp_get, wp_ite]
    split
    · trivial
    · rw [wp_bind, wp_modify, Nat.add_zero, if_pos rfl]
      intro d other
      have table := (walked.kept.table_alone here (div_low low) set here).1
      rw [store_other _ table]
      exact others d other

theorem map_lower (kept : Kept img all dirs (p ::ₘ held) s) (here : dir ∈ dirs) (small : n < userPages) {perm : Nat}
    (plain : perm < PGSIZE) (user : userBit perm = true) :
    wp (fun _ => True) (mappages dir (n * PGSIZE) PGSIZE (page2pa p) perm) s fun _ t => Lower dir s t := by
  have low : n < 2 ^ 20 := Nat.lt_trans small (by decide)
  refine wp_mono (wp_and (map_directory kept here low) (map_page kept here small plain fun _ => trivial))
    fun ok t ⟨directory,_,entries,_,entry⟩ => ⟨fun m lowM high => entries m lowM (by omega), fun d high => directory d ?_,
      fun usable m smallM mapped => ?_⟩
  · unfold userTables at high
    unfold userPages at small
    omega
  · by_cases same : m = n
    · subst same
      rw [entry] at mapped ⊢
      cases ok with
      | true =>
        rw [if_pos rfl]
        unfold userBit at user ⊢
        rw [Nat.testBit_or, Nat.testBit_or, user, Bool.or_true, Bool.true_or]
      | false => exact usable m smallM mapped
    · rw [entries m (Nat.lt_trans smallM (by decide)) same] at mapped ⊢
      exact usable m smallM mapped

/-- Pages without a role are written. -/
theorem Kept.lower (kept : Kept img all dirs held s) (here : dir ∈ dirs) (same : ∀ q, q ∉ held + s.freelist → t.words q = s.words q) :
    Lower dir s t :=
  Lower.of_same (fun _ low => kept.same_pte same here low) (same dir (kept.directory here))

theorem allocLoop_lower {oldsz newsz : Nat} (user : newsz < KERNBASE) (fuel : Nat) (kept : Kept img all dirs held s)
    (here : dir ∈ dirs) :
    wp (fun _ => True) (allocLoop img dir oldsz newsz fuel (n * PGSIZE)) s fun result t => result ≠ 0 → Lower dir s t := by
  induction fuel generalizing n s with
  | zero => exact fun _ => Lower.refl rfl
  | succ fuel ih =>
    rw [allocLoop, wp_ite]
    by_cases more : n * PGSIZE < newsz
    · have small : n < userPages := by
        unfold PGSIZE at more
        unfold KERNBASE at user
        unfold userPages
        omega
      rw [if_pos more, wp_bind]
      refine wp_mono (kalloc_spec kept) fun mem u given => ?_
      obtain ⟨words,keptU⟩ := given
      cases mem with
      | none =>
        dsimp only
        rw [wp_bind]
        exact wp_mono (wp_trivial _ u) fun _ _ _ none => absurd rfl none
      | some p =>
        dsimp only
        rw [wp_bind, wp_modify, wp_bind]
        have inHand : p ∈ p ::ₘ held := Multiset.mem_cons_self p held
        have filled := keptU.fill (fun _ => 0) inHand
        have begun : Lower dir s (u.fill p fun _ => 0) := (Lower.refl words).trans
          (keptU.lower here (fill_outside _ (Multiset.mem_add.mpr (Or.inl inHand))))
        refine wp_mono (wp_and (map_lower filled.1 here small (by decide) (by decide))
          (map_user (E := fun _ => True) filled.1 here small (by decide) trivial)) fun ok v mapped => ?_
        obtain ⟨lower,_,_,keptV⟩ := mapped
        cases ok with
        | true =>
          rw [wp_ite, if_pos rfl, show n * PGSIZE + PGSIZE = (n + 1) * PGSIZE by ring]
          exact wp_mono (ih keptV) fun _ t later some => (begun.trans lower).trans (later some)
        | false =>
          rw [wp_ite, if_neg (by decide), wp_bind]
          refine wp_mono (wp_trivial _ v) fun _ w _ => ?_
          rw [wp_bind]
          exact wp_mono (wp_trivial _ w) fun _ _ _ none => absurd rfl none
    · rw [if_neg more]
      exact fun _ => Lower.refl rfl

theorem allocuvm_lower {oldsz newsz : Nat} (kept : Kept img all dirs held s) (here : dir ∈ dirs) :
    wp (fun _ => True) (allocuvm img dir oldsz newsz) s fun result t => result ≠ 0 → Lower dir s t := by
  unfold allocuvm
  rw [wp_ite]
  split
  · exact fun none => absurd rfl none
  · rename_i user
    rw [wp_ite]
    split
    · exact fun _ => Lower.refl rfl
    · rw [roundup_page oldsz]
      exact allocLoop_lower (Nat.not_le.mp user) _ kept here

end User

section Kernel

/-- The directory entries that the pages from `q` to `q + c` need. -/
def tableRange (q c d : Nat) : Bool := q / 1024 ≤ d && d ≤ (q + c) / 1024

/-- The directory entries for the regions. -/
def covered (regions : List Kmap) (d : Nat) : Bool :=
  regions.any fun k => tableRange (k.virt / PGSIZE) ((k.physEnd + 2 ^ 32 - k.physStart) % 2 ^ 32 / PGSIZE - 1) d

end Kernel

end Xv6Vm
