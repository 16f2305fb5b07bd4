import KernelLabs.Xv6.VmSpaces

/-!
Who has each physical page, over all sequences of calls from `boot` on: the free list, a
directory, a page table or user memory, and only one of them.
-/
namespace Xv6Vm
open Custody Wp Transition

variable {img : Image} {all : Nat → Prop} {dirs : List Nat} {held : Multiset Nat} {s t u : Mem} {dir p n : Nat}

section Calls

theorem pte_zero (zero : s.words p = fun _ => 0) : pte s.words p n = 0 := by
  unfold pte
  rw [zero]
  exact if_neg (show ¬ present 0 = true by decide)

/-- A page of zeros becomes the directory of a new address space. -/
theorem Kept.adopt (kept : Kept img all dirs (p ::ₘ held) s) (zero : s.words p = fun _ => 0) :
    Kept img all (p :: dirs) held s ∧ p ∉ dirs := by
  have new : p ∉ dirs := fun here => kept.directory here (Multiset.mem_add.mpr (Or.inl (Multiset.mem_cons_self p held)))
  have joined : own s.words (p :: dirs) = Function.update (own s.words dirs) (.directory p) (some p) := by
    funext r
    by_cases same : r = .directory p
    · subst same
      rw [Function.update_self]
      exact own_of_mem List.mem_cons_self
    · rw [Function.update_of_ne same]
      by_cases mine : r.dir = p
      · rw [own_of_mem (mine ▸ List.mem_cons_self), own_outside (mine ▸ new)]
        cases r with
        | directory dir => exact absurd (congrArg Role.directory mine) same
        | table dir d =>
          have eq : dir = p := mine
          change entryPage (s.words dir d) = none
          rw [eq, zero]
          exact entryPage_zero
        | user dir n =>
          have eq : dir = p := mine
          change entryPage (pte s.words dir n) = none
          rw [eq, pte_zero zero]
          rfl
      · unfold own
        simp only [List.mem_cons, mine, false_or]
  refine ⟨⟨?_, kept.valid⟩, new⟩
  rw [joined]
  refine Exclusive.give ?_ (own_outside new)
  rw [← Multiset.cons_add]
  exact kept.ex

theorem apart_cons (new : p ∉ dirs) : ∀ d, d ∈ dirs ↔ d ∈ p :: dirs ∧ d ≠ p := by
  intro d
  rw [List.mem_cons]
  constructor
  · intro member
    have other : d ≠ p := fun same => new (same ▸ member)
    exact ⟨Or.inr member, other⟩
  · rintro ⟨rfl | member, other⟩
    · exact absurd rfl other
    · exact member

/-- What a call that makes an address space leaves: either one more, or everything as it was. -/
def Joined (img : Image) (all : Nat → Prop) (dirs : List Nat) (held : Multiset Nat) (s : Mem) (result : Option Nat) (t : Mem) : Prop :=
  own t.words dirs = own s.words dirs ∧
  match result with
  | none => Kept img all dirs held t
  | some d => Kept img all (d :: dirs) held t ∧ d ∉ dirs

theorem setupkvm_spec {E : Panic → Prop} (kept : Kept img all dirs held s) :
    wp E (setupkvm img) s fun result t => Joined img all dirs held s result t ∧ Intact dirs s t ∧
      ∀ d, result = some d → present (pte t.words d userPages) = true ∧
        ∀ m < userPages, present (pte t.words d m) = false := by
  unfold setupkvm
  rw [wp_bind]
  refine wp_mono (kalloc_spec kept) fun mem u ⟨words,keptU⟩ => ?_
  have before : Intact dirs s u := Intact.refl words
  cases mem with
  | none => exact ⟨⟨before.roles, keptU⟩, before, fun d none => nomatch none⟩
  | some p =>
    dsimp only
    rw [wp_bind, wp_modify]
    have filled := keptU.fill (fun _ => 0) (Multiset.mem_cons_self p held)
    have start : Intact dirs s (u.fill p fun _ => 0) := before.trans (keptU.intact_fill _ (Multiset.mem_cons_self p held))
    have zero : (u.fill p fun _ => 0).words p = fun _ => 0 := Function.update_self p _ u.words
    generalize u.fill p (fun _ => 0) = v at filled zero start ⊢
    obtain ⟨adopted,new⟩ := filled.1.adopt zero
    have empty : ∀ m < 2 ^ 20, userPages ≤ m → present (pte v.words p m) = false := by
      intro m _ _
      rw [pte_zero zero]
      rfl
    rw [wp_ite, if_neg (by decide), wp_bind]
    refine wp_mono (mapKernel_spec (kmap_rising img) adopted List.mem_cons_self (Nat.le_refl _) empty)
      fun ok w ⟨keptW,elsewhere,mapped⟩ => ?_
    have others : Intact dirs s w := start.trans (elsewhere.others (apart_cons new))
    rw [wp_ite]
    split
    · rename_i yes
      refine ⟨⟨others.roles, keptW, new⟩, others, fun d same => ?_⟩
      rw [← Option.some.inj same]
      refine ⟨(mapped yes).2 ⟨KERNBASE, 0, EXTMEM, PTE_W⟩ List.mem_cons_self, fun m small => ?_⟩
      rw [(mapped yes).1 m (Nat.lt_trans small (by decide)) small, pte_zero zero]
      rfl
    · rw [wp_bind]
      refine wp_mono (freevm_spec (apart_cons new) keptW List.mem_cons_self) fun _ x ⟨keptX,same⟩ => ?_
      exact ⟨⟨(others.trans same).roles, keptX⟩, others.trans same, fun d none => nomatch none⟩

theorem allocLoop_spec {E : Panic → Prop} {oldsz newsz : Nat} (user : newsz < KERNBASE) (remap : E .remap) (fuel : Nat)
    (kept : Kept img all dirs held s) (here : dir ∈ dirs) :
    wp E (allocLoop img dir oldsz newsz fuel (n * PGSIZE)) s fun _ t => Kept img all dirs held t ∧ Elsewhere dirs dir s t := by
  induction fuel generalizing n s with
  | zero => exact ⟨kept, Elsewhere.refl rfl⟩
  | succ fuel ih =>
    rw [allocLoop, wp_ite]
    by_cases more : n * PGSIZE < newsz
    · have small : n < userPages := by
        unfold PGSIZE at more
        unfold KERNBASE at user
        unfold userPages
        omega
      rw [if_pos more, wp_bind]
      refine wp_mono (kalloc_spec kept) fun mem u ⟨words,keptU⟩ => ?_
      cases mem with
      | none =>
        dsimp only
        rw [wp_bind]
        refine wp_mono (deallocuvm_spec (Nat.le_of_lt user) keptU here) fun _ t ⟨keptT,elsewhere,_⟩ => ?_
        exact ⟨keptT, (Elsewhere.refl words).trans elsewhere⟩
      | some p =>
        dsimp only
        rw [wp_bind, wp_modify, wp_bind]
        have filled := keptU.fill (fun _ => 0) (Multiset.mem_cons_self p held)
        refine wp_mono (map_user filled.1 here small (by decide) remap) fun ok v ⟨elsewhere,_,keptV⟩ => ?_
        have sofar : Elsewhere dirs dir s v := ((Elsewhere.refl words).trans
          (keptU.intact_fill _ (Multiset.mem_cons_self p held)).elsewhere).trans elsewhere
        cases ok with
        | true =>
          rw [wp_ite, if_pos rfl, show n * PGSIZE + PGSIZE = (n + 1) * PGSIZE by ring]
          refine wp_mono (ih keptV) fun _ t ⟨keptT,later⟩ => ⟨keptT, sofar.trans later⟩
        | false =>
          rw [wp_ite, if_neg (by decide), wp_bind]
          refine wp_mono (deallocuvm_spec (Nat.le_of_lt user) keptV here) fun _ w ⟨keptW,elsewhereW,_⟩ => ?_
          rw [wp_bind]
          refine wp_mono (kfree_intact keptW) fun _ t ⟨keptT,same,_⟩ => ?_
          exact ⟨keptT, (sofar.trans elsewhereW).trans same.elsewhere⟩
    · rw [if_neg more]
      exact ⟨kept, Elsewhere.refl rfl⟩

theorem allocuvm_spec {E : Panic → Prop} {oldsz newsz : Nat} (remap : E .remap) (kept : Kept img all dirs held s)
    (here : dir ∈ dirs) :
    wp E (allocuvm img dir oldsz newsz) s fun _ t => Kept img all dirs held t ∧ Elsewhere dirs dir s t := by
  unfold allocuvm
  rw [wp_ite]
  split
  · exact ⟨kept, Elsewhere.refl rfl⟩
  · rename_i user
    rw [wp_ite]
    split
    · exact ⟨kept, Elsewhere.refl rfl⟩
    · rw [roundup_page oldsz]
      exact allocLoop_spec (Nat.not_le.mp user) remap _ kept here

/-- The panics of `copyuvm`. -/
def CopyPanic (e : Panic) : Prop := e = .remap ∨ e = .pteShouldExist ∨ e = .pageNotPresent

theorem copyLoop_spec {sz d : Nat} (fuel : Nat) (low : n ≤ userPages) (kept : Kept img all dirs held s) (copy : d ∈ dirs)
    (kernel : present (pte s.words d userPages) = true) :
    wp CopyPanic (copyLoop img dir sz d fuel (n * PGSIZE)) s fun _ t => Kept img all dirs held t ∧ Elsewhere dirs d s t := by
  induction fuel generalizing n s with
  | zero => exact ⟨kept, Elsewhere.refl rfl⟩
  | succ fuel ih =>
    have below : n < 2 ^ 20 := Nat.lt_of_le_of_lt low (by decide)
    rw [copyLoop, wp_ite]
    split
    · rw [wp_bind]
      refine walk_read below (fun set => ?_) fun _ => ?_
      · dsimp only
        rw [wp_bind, wp_get, wp_ite]
        split
        · exact Or.inr (Or.inr rfl)
        · rw [wp_bind]
          refine wp_mono (kalloc_spec kept) fun mem u ⟨words,keptU⟩ => ?_
          cases mem with
          | none => exact ⟨keptU, Elsewhere.refl words⟩
          | some p =>
            dsimp only
            rw [wp_bind, wp_modify, wp_bind]
            generalize u.words (pteAddr (s.load (entryLoc s dir n)) / PGSIZE) = content
            have filled := keptU.fill content (Multiset.mem_cons_self p held)
            have begun : Elsewhere dirs d s (u.fill p content) := (Elsewhere.refl words).trans
              (keptU.intact_fill content (Multiset.mem_cons_self p held)).elsewhere
            have still : present (pte (u.fill p content).words d userPages) = true := by
              rw [keptU.fill_pte content (Multiset.mem_cons_self p held) copy (by decide), words]
              exact kernel
            have failed : ∀ {v : Mem}, Kept img all dirs (p ::ₘ held) v → Elsewhere dirs d s v →
                wp CopyPanic (do kfree img p; return false) v fun _ t => Kept img all dirs held t ∧ Elsewhere dirs d s t := by
              intro v keptV elsewhere
              rw [wp_bind]
              refine wp_mono (kfree_intact keptV) fun _ t ⟨keptT,same,_⟩ => ?_
              exact ⟨keptT, elsewhere.trans same.elsewhere⟩
            by_cases top : n = userPages
            · subst top
              refine wp_mono (map_taken filled.1 copy below still (Or.inl rfl)) fun ok v ⟨no,elsewhere,keptV⟩ => ?_
              rw [no, wp_ite, if_neg (by decide)]
              exact failed keptV (begun.trans elsewhere)
            · have small : n < userPages := Nat.lt_of_le_of_ne low top
              refine wp_mono (map_user filled.1 copy small (Nat.mod_lt _ (by decide)) (Or.inl rfl))
                fun ok v ⟨elsewhere,entries,keptV⟩ => ?_
              cases ok with
              | true =>
                rw [wp_ite, if_pos rfl, show n * PGSIZE + PGSIZE = (n + 1) * PGSIZE by ring]
                have kernelV : present (pte v.words d userPages) = true := by
                  rw [entries userPages (by decide) (Ne.symm top)]
                  exact still
                refine wp_mono (ih small keptV kernelV) fun _ t ⟨keptT,later⟩ => ?_
                exact ⟨keptT, (begun.trans elsewhere).trans later⟩
              | false =>
                rw [wp_ite, if_neg (by decide)]
                exact failed keptV (begun.trans elsewhere)
      · exact Or.inr (Or.inl rfl)
    · exact ⟨kept, Elsewhere.refl rfl⟩

theorem copyuvm_spec {sz : Nat} (kept : Kept img all dirs held s) :
    wp CopyPanic (copyuvm img dir sz) s fun result t => Joined img all dirs held s result t := by
  unfold copyuvm
  rw [wp_bind]
  refine wp_mono (setupkvm_spec kept) fun result u ⟨⟨same,joined⟩,_,kernel⟩ => ?_
  cases result with
  | none => exact ⟨same, joined⟩
  | some d =>
    obtain ⟨keptU,new⟩ := joined
    dsimp only
    rw [wp_bind, show (0 : Nat) = 0 * PGSIZE by rfl]
    refine wp_mono (copyLoop_spec _ (Nat.zero_le _) keptU List.mem_cons_self (kernel d rfl).1)
      fun ok v ⟨keptV,elsewhere⟩ => ?_
    have others : own v.words dirs = own s.words dirs := (elsewhere.others (apart_cons new)).roles.trans same
    rw [wp_ite]
    split
    · exact ⟨others, keptV, new⟩
    · rw [wp_bind]
      refine wp_mono (freevm_spec (apart_cons new) keptV List.mem_cons_self) fun _ t ⟨keptT,sameT⟩ => ?_
      exact ⟨sameT.roles.trans others, keptT⟩

end Calls

section Boot

/-- The pages that `kinit1` and `kinit2` give to the allocator. -/
def allocatable (img : Image) (p : Nat) : Prop := pgroundup (v2p img.fin) ≤ page2pa p ∧ page2pa p < PHYSTOP

theorem freerangeLoop_spec {E : Panic → Prop} {lo hi : Nat} (bottom : v2p img.fin ≤ page2pa lo) (top : page2pa hi ≤ PHYSTOP)
    (fuel : Nat) (kept : Kept img (fun p => lo ≤ p ∧ p < n) dirs 0 s) (low : lo ≤ n) (high : n ≤ hi) (enough : hi ≤ n + fuel) :
    wp E (freerangeLoop img (KERNBASE + hi * PGSIZE) fuel (KERNBASE + n * PGSIZE)) s fun _ t =>
      Kept img (fun p => lo ≤ p ∧ p < hi) dirs 0 t := by
  induction fuel generalizing n s with
  | zero =>
    have same : n = hi := by omega
    exact same ▸ kept
  | succ fuel ih =>
    rw [freerangeLoop, wp_ite]
    by_cases more : n < hi
    · have valid : v2p img.fin ≤ page2pa n ∧ page2pa n < PHYSTOP := by
        unfold page2pa PGSIZE at *
        omega
      have joined : Kept img (fun p => lo ≤ p ∧ p < n + 1) dirs {n} s := by
        have ex := kept.ex.join (Multiset.nodup_singleton n) fun q member => by
          rw [Multiset.mem_singleton.mp member]
          omega
        have extent : (fun q => q ∈ ({n} : Multiset Nat) ∨ lo ≤ q ∧ q < n) = fun p => lo ≤ p ∧ p < n + 1 := by
          funext q
          rw [Multiset.mem_singleton, eq_iff_iff]
          omega
        rw [extent, Multiset.zero_add] at ex
        refine ⟨ex, fun p inside => ?_⟩
        by_cases last : p = n
        · exact last ▸ valid
        · exact kept.valid p ⟨inside.1, by omega⟩
      have number : v2p (KERNBASE + n * PGSIZE) / PGSIZE = n := by
        unfold page2pa PHYSTOP at valid
        unfold v2p KERNBASE PGSIZE at *
        omega
      rw [if_pos (by unfold PGSIZE; omega), wp_bind, number]
      refine wp_mono (kfree_spec joined) fun _ u ⟨keptU,_⟩ => ?_
      rw [show KERNBASE + n * PGSIZE + PGSIZE = KERNBASE + (n + 1) * PGSIZE by ring]
      exact ih keptU (by omega) more (by omega)
    · have same : n = hi := by omega
      rw [if_neg (by unfold PGSIZE; omega)]
      exact same ▸ kept

/-- The first page that the kernel's image leaves free. -/
def firstPage (img : Image) : Nat := pgroundup (v2p img.fin) / PGSIZE

theorem firstPage_bounds (img : Image) : v2p img.fin ≤ page2pa (firstPage img) ∧ firstPage img ≤ 1024 ∧
    pgroundup img.fin = KERNBASE + firstPage img * PGSIZE := by
  have first := img.text_first
  have before := img.data_before
  have loaded := img.loaded
  unfold KERNLINK KERNBASE EXTMEM at first
  unfold KERNBASE at loaded
  unfold firstPage page2pa pgroundup v2p KERNBASE PGSIZE
  omega

theorem allocatable_eq (img : Image) : allocatable img = fun p => firstPage img ≤ p ∧ p < 57344 := by
  funext p
  unfold allocatable firstPage pgroundup page2pa PHYSTOP PGSIZE
  rw [eq_iff_iff]
  omega

theorem freerange_spec {E : Panic → Prop} {vstart hi : Nat} (img : Image) (top : page2pa hi ≤ PHYSTOP)
    (kept : Kept img (fun p => firstPage img ≤ p ∧ p < n) dirs 0 s) (low : firstPage img ≤ n) (high : n ≤ hi)
    (start : pgroundup vstart = KERNBASE + n * PGSIZE) :
    wp E (freerange img vstart (KERNBASE + hi * PGSIZE)) s fun _ t => Kept img (fun p => firstPage img ≤ p ∧ p < hi) dirs 0 t := by
  unfold freerange
  rw [start]
  refine freerangeLoop_spec (firstPage_bounds img).1 top _ kept low high ?_
  unfold PGSIZE
  omega

theorem none_kept (img : Image) (words : Nat → Nat → Nat) (deny : Nat → Bool) :
    Kept img (fun p => firstPage img ≤ p ∧ p < firstPage img) [] 0 ⟨[], words, deny⟩ := by
  have empty : (fun p => p ∈ (0 : Multiset Nat) + ↑([] : List Nat)) = fun p => firstPage img ≤ p ∧ p < firstPage img := by
    funext p
    rw [Multiset.zero_add, Multiset.mem_coe, eq_iff_iff]
    constructor
    · exact fun member => nomatch member
    · omega
  refine ⟨?_, fun p inside => by omega⟩
  rw [← empty]
  exact Exclusive.unheld Multiset.nodup_zero

theorem boot_spec {E : Panic → Prop} (img : Image) (words : Nat → Nat → Nat) (deny : Nat → Bool) :
    wp E (boot img) ⟨[], words, deny⟩ fun kpgdir t => Kept img (allocatable img) kpgdir.toList 0 t := by
  have bounds := firstPage_bounds img
  have middle : p2v (4 * 1024 * 1024) = KERNBASE + 1024 * PGSIZE := by decide
  have last : p2v PHYSTOP = KERNBASE + 57344 * PGSIZE := by decide
  unfold boot kinit1 kinit2
  rw [middle, last, wp_bind]
  refine wp_mono (freerange_spec img (by decide) (none_kept img words deny) (Nat.le_refl _) bounds.2.1 bounds.2.2)
    fun _ u keptU => ?_
  rw [wp_bind]
  refine wp_mono (setupkvm_spec keptU) fun result v ⟨⟨_,joined⟩,_⟩ => ?_
  have keptV : Kept img (fun p => firstPage img ≤ p ∧ p < 1024) result.toList 0 v := by
    cases result with
    | none => exact joined
    | some d => exact joined.1
  rw [wp_bind]
  refine wp_mono (freerange_spec img (by decide) keptV bounds.2.1 (by decide) (by decide)) fun _ t keptT => ?_
  rw [allocatable_eq]
  exact keptT

end Boot

section Runs
variable {m m' : Machine}

structure Sound (img : Image) (m : Machine) : Prop where
  kept : Kept img (allocatable img) m.dirs 0 m.mem
  names : m.dirs.Nodup

/-- Every allocatable page is once on the free list or has one role, and no other page
    has any of these uses. -/
structure Owned (img : Image) (m : Machine) : Prop where
  names : m.dirs.Nodup
  free_once : m.mem.freelist.Nodup
  one_role : ∀ p, allocatable img p →
    (p ∈ m.mem.freelist ∧ ∀ r, own m.mem.words m.dirs r ≠ some p) ∨
    (p ∉ m.mem.freelist ∧ ∃! r, own m.mem.words m.dirs r = some p)
  only : ∀ p, (p ∈ m.mem.freelist ∨ ∃ r, own m.mem.words m.dirs r = some p) → allocatable img p

theorem Sound.owned (sound : Sound img m) : Owned img m := by
  have ex := sound.kept.ex
  rw [Multiset.zero_add] at ex
  refine ⟨sound.names, Multiset.coe_nodup.mp ex.once, fun p inside => ?_, fun p used => (ex.covers p).mpr used⟩
  rcases (ex.covers p).mp inside with free | ⟨r,role⟩
  · exact Or.inl ⟨free, fun r role => ex.alone r p role free⟩
  · exact Or.inr ⟨ex.alone r p role, r, role, fun r' role' => ex.single r' r p role' role⟩

theorem joined_sound {E : Panic → Prop} {prog : M (Option Nat)} (sound : Sound img m)
    (after : wp E prog m.mem fun result t => Joined img (allocatable img) m.dirs 0 m.mem result t)
    (run : m.joined (prog m.mem) = some m') : Sound img m' := by
  unfold wp at after
  cases out : prog m.mem with
  | error e =>
    rw [out] at run
    exact nomatch run
  | ok result =>
    obtain ⟨pgdir,t⟩ := result
    rw [out] at run after
    cases pgdir with
    | none =>
      rw [← Option.some.inj run]
      exact ⟨after.2, sound.names⟩
    | some d =>
      rw [← Option.some.inj run]
      exact ⟨after.2.1, List.nodup_cons.mpr ⟨after.2.2, sound.names⟩⟩

theorem kept_sound {α : Type} {E : Panic → Prop} {prog : M α} {R : α → Mem → Prop} (sound : Sound img m)
    (after : wp E prog m.mem fun result t => Kept img (allocatable img) m.dirs 0 t ∧ R result t)
    (run : m.kept (prog m.mem) = some m') : Sound img m' := by
  unfold wp at after
  cases out : prog m.mem with
  | error e =>
    rw [out] at run
    exact nomatch run
  | ok result =>
    rw [out] at run after
    rw [← Option.some.inj run]
    exact ⟨after.1, sound.names⟩

theorem apart_erase (names : dirs.Nodup) : ∀ d, d ∈ dirs.erase dir ↔ d ∈ dirs ∧ d ≠ dir := by
  intro d
  rw [names.mem_erase_iff, and_comm]

theorem call_sound (op : Op) (sound : Sound img m) (run : m.call img op = some m') : Sound img m' := by
  have kept := sound.kept
  cases op with
  | setupkvm =>
    refine joined_sound (E := fun _ => True) sound ?_ run
    exact wp_mono (setupkvm_spec kept) fun _ _ after => after.1
  | allocuvm pgdir oldsz newsz =>
    unfold Machine.call at run
    dsimp only at run
    split at run
    · rename_i here
      exact kept_sound (E := fun _ => True) sound (allocuvm_spec trivial kept here) run
    · exact nomatch run
  | deallocuvm pgdir oldsz newsz =>
    unfold Machine.call at run
    dsimp only at run
    split at run
    · rename_i fine
      exact kept_sound (E := fun _ => True) sound (deallocuvm_spec fine.2 kept fine.1) run
    · exact nomatch run
  | copyuvm pgdir sz =>
    unfold Machine.call at run
    dsimp only at run
    split at run
    · exact joined_sound sound (copyuvm_spec kept) run
    · exact nomatch run
  | freevm pgdir =>
    unfold Machine.call at run
    dsimp only at run
    split at run
    · rename_i here
      have after := freevm_spec (E := fun _ => True) (apart_erase sound.names) kept here
      unfold wp at after
      cases out : freevm img (some pgdir) m.mem with
      | error e =>
        rw [out] at run
        exact nomatch run
      | ok result =>
        rw [out] at run after
        rw [← Option.some.inj run]
        exact ⟨after.1, sound.names.erase pgdir⟩
    · exact nomatch run

theorem reach_sound (img : Image) {m : Machine} (reach : (system img).Reach System.Free m) : Sound img m := by
  refine System.reach_invariant (system img) (fun m booted => ?_) (fun m op m' sound _ run => call_sound op sound run) reach
  obtain ⟨words,deny,kpgdir,run,names⟩ := booted
  have kept := wp_ok (boot_spec (E := fun _ => True) img words deny) run
  refine ⟨names ▸ kept, ?_⟩
  rw [names]
  cases kpgdir with
  | none => exact List.nodup_nil
  | some d => exact List.nodup_singleton d

/-- `t` has the free pages of `s`, each as often. -/
theorem same_free {own : Role → Option Nat} {s t : Mem} (before : Exclusive own (0 + s.freelist) all)
    (after : Exclusive own (0 + t.freelist) all) : t.freelist.Perm s.freelist := by
  have same := after.pool_eq before
  rw [Multiset.zero_add, Multiset.zero_add] at same
  exact Multiset.coe_eq_coe.mp same

theorem Sound.freevm_returns (sound : Sound img m) (here : dir ∈ m.dirs) : ∃ t, freevm img (some dir) m.mem = .ok ((), t) ∧
    t.freelist.Perm (spacePages m.mem.words dir ++ m.mem.freelist) := by
  have apart : ∀ d, d ∈ m.dirs.erase dir ↔ d ∈ m.dirs ∧ d ≠ dir := apart_erase sound.names
  have after := freevm_spec (E := fun _ => False) apart sound.kept here
  unfold wp at after
  cases out : freevm img (some dir) m.mem with
  | error e =>
    rw [out] at after
    exact after.elim
  | ok result =>
    rw [out] at after
    refine ⟨result.2, rfl, ?_⟩
    obtain ⟨keptT,same⟩ := after
    have before := (sound.kept.release apart here).ex
    rw [← same.roles, Multiset.add_zero] at before
    have pool := keptT.ex.pool_eq before
    rw [Multiset.zero_add, Multiset.coe_add] at pool
    exact Multiset.coe_eq_coe.mp pool

theorem Sound.none_leaked {E : Panic → Prop} {prog : M (Option Nat)} (sound : Sound img m)
    (after : wp E prog m.mem fun result t => Joined img (allocatable img) m.dirs 0 m.mem result t)
    {t : Mem} (run : prog m.mem = .ok (none, t)) : t.freelist.Perm m.mem.freelist := by
  obtain ⟨same,keptT⟩ := wp_ok after run
  have ex := keptT.ex
  rw [same] at ex
  exact same_free sound.kept.ex ex

/-- How the calls end: `freevm` gives back every page of its address space once, a call that
    runs out of memory leaves the free pages it found, and no call panics in `kfree`. -/
structure Ends (img : Image) (m : Machine) : Prop where
  freed : ∀ dir ∈ m.dirs, ∃ t, freevm img (some dir) m.mem = .ok ((), t) ∧
    t.freelist.Perm (spacePages m.mem.words dir ++ m.mem.freelist)
  setup : ∃ result t, setupkvm img m.mem = .ok (result, t) ∧ (result = none → t.freelist.Perm m.mem.freelist)
  copy : ∀ dir ∈ m.dirs, ∀ sz t, copyuvm img dir sz m.mem = .ok (none, t) → t.freelist.Perm m.mem.freelist
  copy_panic : ∀ dir ∈ m.dirs, ∀ sz e, copyuvm img dir sz m.mem = .error e → CopyPanic e
  alloc_panic : ∀ dir ∈ m.dirs, ∀ oldsz newsz e, allocuvm img dir oldsz newsz m.mem = .error e → e = .remap
  dealloc_returns : ∀ dir ∈ m.dirs, ∀ oldsz newsz e, oldsz ≤ KERNBASE → deallocuvm img dir oldsz newsz m.mem ≠ .error e

theorem Sound.ends (sound : Sound img m) : Ends img m := by
  have kept := sound.kept
  refine ⟨fun dir here => sound.freevm_returns here, ?_, ?_, ?_, ?_, ?_⟩
  · have after : wp (fun _ => False) (setupkvm img) m.mem fun result t => Joined img (allocatable img) m.dirs 0 m.mem result t :=
      wp_mono (setupkvm_spec kept) fun _ _ after => after.1
    cases out : setupkvm img m.mem with
    | error e => exact (wp_error after out).elim
    | ok result =>
      refine ⟨result.1, result.2, rfl, fun none => sound.none_leaked after ?_⟩
      rw [out, ← none]
  · exact fun dir _ sz t run => sound.none_leaked (copyuvm_spec kept) run
  · exact fun dir _ sz e run => wp_error (copyuvm_spec kept) run
  · exact fun dir here oldsz newsz e run => wp_error (E := (· = .remap)) (allocuvm_spec rfl kept here) run
  · exact fun dir here oldsz newsz e user run => wp_error (E := fun _ => False) (deallocuvm_spec user kept here) run

theorem pages_owned (img : Image) {m : Machine} (reach : (system img).Reach System.Free m) : Owned img m ∧ Ends img m :=
  have sound := reach_sound img reach
  ⟨sound.owned, sound.ends⟩

/-- A kernel that ends at 0x8010a520, with its data from 0x80108000 on. -/
def smallImage : Image where
  data := 0x80108000
  fin := 0x8010a520
  data_aligned := by decide
  text_first := by decide
  data_before := by decide
  loaded := by decide

/-- The state after `boot` in memory of zeros. -/
theorem pages_owned_boot : ∃ kpgdir t, boot smallImage ⟨[], fun _ _ => 0, fun _ => false⟩ = .ok (kpgdir, t) ∧
    Owned smallImage ⟨t, kpgdir.toList⟩ ∧ Ends smallImage ⟨t, kpgdir.toList⟩ := by
  cases out : boot smallImage ⟨[], fun _ _ => 0, fun _ => false⟩ with
  | error e => exact (wp_error (boot_spec (E := fun _ => False) smallImage _ _) out).elim
  | ok result =>
    refine ⟨result.1, result.2, rfl, ?_⟩
    exact pages_owned smallImage (.start ⟨_, _, result.1, out, rfl⟩)

end Runs

end Xv6Vm
