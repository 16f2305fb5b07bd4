import Mathlib.Tactic.Ring
import KernelLabs.Xv6.VmPages

/-!
The functions of `vm.c` on one address space among others: each keeps every page in
one role and leaves the other address spaces as they are, whenever `kalloc` fails.
-/
namespace Xv6Vm
open Custody Wp

/-- The other address spaces have the pages they had, with the contents they had. -/
structure Elsewhere (dirs : List Nat) (dir : Nat) (s t : Mem) : Prop where
  roles : ∀ r : Role, r.dir ≠ dir → own t.words dirs r = own s.words dirs r
  data : ∀ r p, r.dir ≠ dir → own s.words dirs r = some p → t.words p = s.words p

/-- All address spaces have the pages they had, with the contents they had. -/
structure Intact (dirs : List Nat) (s t : Mem) : Prop where
  roles : own t.words dirs = own s.words dirs
  data : ∀ r p, own s.words dirs r = some p → t.words p = s.words p

/-- The directory may have a new page table, but maps what it did. -/
structure Walked (img : Image) (all : Nat → Prop) (dirs : List Nat) (held : Multiset Nat) (dir : Nat) (s t : Mem) : Prop where
  kept : Kept img all dirs held t
  elsewhere : Elsewhere dirs dir s t
  entries : ∀ m < 2 ^ 20, pte t.words dir m = pte s.words dir m

variable {img : Image} {all : Nat → Prop} {dirs : List Nat} {held : Multiset Nat} {s t u : Mem} {dir p n : Nat}

theorem Elsewhere.refl (same : t.words = s.words) : Elsewhere dirs dir s t :=
  ⟨fun r _ => by rw [same], fun _ _ _ _ => by rw [same]⟩

theorem Elsewhere.trans (first : Elsewhere dirs dir s t) (second : Elsewhere dirs dir t u) : Elsewhere dirs dir s u := by
  refine ⟨fun r other => (second.roles r other).trans (first.roles r other), fun r p other role => ?_⟩
  rw [second.data r p other ((first.roles r other).trans role), first.data r p other role]

theorem Intact.refl (same : t.words = s.words) : Intact dirs s t := ⟨by rw [same], fun _ _ _ => by rw [same]⟩

theorem Intact.trans (first : Intact dirs s t) (second : Intact dirs t u) : Intact dirs s u := by
  refine ⟨second.roles.trans first.roles, fun r p role => ?_⟩
  rw [second.data r p (by rw [first.roles, role]), first.data r p role]

theorem Intact.elsewhere (intact : Intact dirs s t) : Elsewhere dirs dir s t :=
  ⟨fun r _ => congrFun intact.roles r, fun r p _ role => intact.data r p role⟩

/-- Only pages in hand and free pages are written. -/
theorem Kept.intact (kept : Kept img all dirs held s) (same : ∀ q, q ∉ held + s.freelist → t.words q = s.words q) :
    Intact dirs s t :=
  ⟨kept.same_own same, fun r p role => same p (kept.ex.alone r p role)⟩

/-- Only pages in hand, free pages and pages of the address space itself are written. -/
theorem Kept.elsewhere (kept : Kept img all dirs held s) (same : ∀ r : Role, r.dir ≠ dir → own t.words dirs r = own s.words dirs r)
    (written : ∀ q, q ∉ held + s.freelist → (∀ r : Role, r.dir = dir → own s.words dirs r ≠ some q) → t.words q = s.words q) :
    Elsewhere dirs dir s t := by
  refine ⟨same, fun r p other role => written p (kept.ex.alone r p role) fun r' mine role' => other ?_⟩
  rw [kept.ex.single r r' p role role']
  exact mine

theorem Kept.intact_fill (kept : Kept img all dirs held s) (content : Nat → Nat) (member : p ∈ held) :
    Intact dirs s (s.fill p content) :=
  kept.intact (fill_outside content (Multiset.mem_add.mpr (Or.inl member)))

/-- An entry of the address space is set. -/
theorem Kept.elsewhere_store (kept : Kept img all dirs held s) (here : dir ∈ dirs) (low : n < 2 ^ 20)
    (set : present (s.words dir (n / 1024)) = true) (word : Nat) : Elsewhere dirs dir s (s.store (entryLoc s dir n) word) := by
  refine kept.elsewhere (fun r other => ?_) fun q _ away => store_other word fun same => ?_
  · by_cases there : r.dir ∈ dirs
    · rw [own_of_mem there, own_of_mem there]
      exact kept.store_page here low set word there fun small same => other (by rw [same]; rfl)
    · rw [own_outside there, own_outside there]
  · rw [same] at away
    exact away (.table dir ⟨n / 1024, div_low low⟩) rfl (own_table here (div_low low) set)

theorem Kept.elsewhere_setPde (kept : Kept img all dirs (p ::ₘ held) s) (here : dir ∈ dirs) {d : Nat} (low : d < NPDENTRIES)
    (unset : present (s.words dir d) = false) (zero : s.words p = fun _ => 0) : Elsewhere dirs dir s (s.setPde dir d p) := by
  refine kept.elsewhere (fun r other => ?_) fun q _ away => setPde_other fun same => ?_
  · rw [kept.setPde_own here low unset zero, Function.update_of_ne fun same => other (by rw [same]; rfl)]
  · rw [same] at away
    exact away (.directory dir) rfl (own_of_mem here)

section Mapping
variable {E : Panic → Prop}

theorem walk_alloc (kept : Kept img all dirs held s) (here : dir ∈ dirs) (low : n < 2 ^ 20) :
    wp E (walkpgdir dir (n * PGSIZE) true) s fun loc t => Walked img all dirs held dir s t ∧
      ∀ l, loc = some l → l = entryLoc t dir n ∧ present (t.words dir (n / 1024)) = true := by
  unfold walkpgdir
  dsimp only
  rw [wp_bind, wp_get, wp_ite, pdx_page low, ptx_page]
  split
  · rename_i set
    refine ⟨⟨kept, Elsewhere.refl rfl, fun _ _ => rfl⟩, fun l some => ?_⟩
    rw [← Option.some.inj some]
    exact ⟨rfl, set⟩
  · rename_i unset
    replace unset : present (s.words dir (n / 1024)) = false := Bool.eq_false_iff.mpr unset
    rw [wp_ite, if_neg (by decide), wp_bind]
    refine wp_mono (kalloc_spec kept) fun mem u ⟨words,kept⟩ => ?_
    cases mem with
    | none => exact ⟨⟨kept, Elsewhere.refl words, fun _ _ => by rw [words]⟩, fun l some => nomatch some⟩
    | some pgtab =>
      dsimp only
      rw [wp_bind, wp_modify, wp_bind, wp_modify, wp_pure]
      have first : pgtab ∈ pgtab ::ₘ held := Multiset.mem_cons_self pgtab held
      have filled := kept.fill (fun _ => 0) first
      have apart : dir ≠ pgtab := fun same => kept.directory here (Multiset.mem_add.mpr (Or.inl (same ▸ first)))
      have zero : (u.fill pgtab fun _ => 0).words pgtab = fun _ => 0 := Function.update_self pgtab _ u.words
      have unset' : present ((u.fill pgtab fun _ => 0).words dir (n / 1024)) = false := by
        rw [fill_other _ apart, words, unset]
      refine ⟨⟨filled.1.setPde here (div_low low) unset' zero, ?_, fun m small => ?_⟩, fun l some => ?_⟩
      · exact ((Elsewhere.refl words).trans (kept.intact_fill _ first).elsewhere).trans
          (filled.1.elsewhere_setPde here (div_low low) unset' zero)
      · rw [← words, ← kept.fill_pte (fun _ => 0) first here small]
        exact filled.1.setPde_pte here unset' zero here small
      · have entry : ((u.fill pgtab fun _ => 0).setPde dir (n / 1024) pgtab).words dir (n / 1024) =
            page2pa pgtab ||| PTE_P ||| PTE_W ||| PTE_U := by
          rw [setPde_here, if_pos rfl]
        have table := entryPage_some (entryPage_table pgtab)
        rw [← Option.some.inj some]
        change (⟨pgtab, n % 1024⟩ : PteLoc) = ⟨frame (((u.fill pgtab fun _ => 0).setPde dir (n / 1024) pgtab).words dir (n / 1024)), _⟩ ∧
          present (((u.fill pgtab fun _ => 0).setPde dir (n / 1024) pgtab).words dir (n / 1024)) = true
        rw [entry, table.2]
        exact ⟨rfl, table.1⟩

/-- One round of `mappages`. -/
theorem mapLoop_step {perm last fuel pa : Nat} {Q : Bool → Mem → Prop} (kept : Kept img all dirs held s) (here : dir ∈ dirs)
    (low : n < 2 ^ 20) (fails : ∀ t, Walked img all dirs held dir s t → Q false t)
    (remap : present (pte s.words dir n) = true → E .remap)
    (stores : ∀ t, Walked img all dirs held dir s t → present (t.words dir (n / 1024)) = true →
      present (pte s.words dir n) = false →
      wp E (if n * PGSIZE = last then pure true else mapLoop dir perm last fuel (n * PGSIZE + PGSIZE) (pa + PGSIZE))
        (t.store (entryLoc t dir n) (pa ||| perm ||| PTE_P)) Q) :
    wp E (mapLoop dir perm last (fuel + 1) (n * PGSIZE) pa) s Q := by
  rw [mapLoop, wp_bind]
  refine wp_mono (walk_alloc kept here low) fun loc t ⟨walked,found⟩ => ?_
  cases loc with
  | none => exact fails t walked
  | some l =>
    obtain ⟨rfl,set⟩ := found l rfl
    dsimp only
    rw [wp_bind, wp_get, wp_ite, load_entry set, walked.entries n low]
    by_cases mapped : present (pte s.words dir n) = true
    · rw [if_pos mapped]
      exact remap mapped
    · rw [if_neg mapped, wp_bind, wp_modify]
      exact stores t walked set (Bool.eq_false_iff.mpr mapped)

theorem rounddown_page (n : Nat) : pgrounddown (n * PGSIZE) = n * PGSIZE := by
  unfold pgrounddown PGSIZE
  omega

/-- The last page of `c + 1` pages from page `q` on, and the rounds of `mappages` for them. -/
theorem last_page {q c : Nat} (range : q + c < 2 ^ 20) :
    pgrounddown ((q * PGSIZE + (c + 1) * PGSIZE + 2 ^ 32 - 1) % 2 ^ 32) = (q + c) * PGSIZE ∧
      ((q + c) * PGSIZE - q * PGSIZE) / PGSIZE + 1 = c + 1 := by
  unfold pgrounddown PGSIZE
  omega

theorem mappages_eq {q c perm pa : Nat} (range : q + c < 2 ^ 20) :
    mappages dir (q * PGSIZE) ((c + 1) * PGSIZE) pa perm = mapLoop dir perm ((q + c) * PGSIZE) (c + 1) (q * PGSIZE) pa := by
  unfold mappages
  dsimp only
  rw [rounddown_page, (last_page range).1, (last_page range).2]

/-- An entry that is not present gets a page in hand. -/
theorem Kept.give_user (kept : Kept img all dirs (p ::ₘ held) s) (here : dir ∈ dirs) (small : n < userPages)
    (set : present (s.words dir (n / 1024)) = true) (absent : present (pte s.words dir n) = false) {perm : Nat} (plain : perm < PGSIZE) :
    Kept img all dirs held (s.store (entryLoc s dir n) (page2pa p ||| perm ||| PTE_P)) := by
  have stored := kept.store_user here small set (page2pa p ||| perm ||| PTE_P)
  rw [entryPage_flags p plain] at stored
  have none : own s.words dirs (.user dir ⟨n, small⟩) = none := by
    rw [own_of_mem here]
    change entryPage (pte s.words dir n) = none
    unfold entryPage
    rw [absent]
    rfl
  refine ⟨?_, kept.valid⟩
  rw [stored]
  refine Exclusive.give ?_ none
  rw [← Multiset.cons_add]
  exact kept.ex

/-- A page in hand becomes a page of user memory, or stays in hand; no other page of the space
    is mapped or unmapped. -/
theorem map_page (kept : Kept img all dirs (p ::ₘ held) s) (here : dir ∈ dirs) (small : n < userPages) {perm : Nat}
    (plain : perm < PGSIZE) (remap : present (pte s.words dir n) = true → E .remap) :
    wp E (mappages dir (n * PGSIZE) PGSIZE (page2pa p) perm) s fun ok t => Elsewhere dirs dir s t ∧
      (∀ m < 2 ^ 20, m ≠ n → pte t.words dir m = pte s.words dir m) ∧
      Kept img all dirs (if ok then held else p ::ₘ held) t ∧
      pte t.words dir n = if ok then page2pa p ||| perm ||| PTE_P else pte s.words dir n := by
  have low : n < 2 ^ 20 := Nat.lt_trans small (by decide)
  have single := @mappages_eq dir n 0 perm (page2pa p) low
  rw [Nat.zero_add, Nat.one_mul] at single
  rw [single]
  refine mapLoop_step kept here low (fun t walked => ?_) remap fun t walked set absent => ?_
  · exact ⟨walked.elsewhere, fun m lowM _ => walked.entries m lowM, walked.kept, walked.entries n low⟩
  · rw [Nat.add_zero, if_pos rfl]
    have unmapped : present (pte t.words dir n) = false := by rw [walked.entries n low, absent]
    refine ⟨walked.elsewhere.trans (walked.kept.elsewhere_store here low set _), fun m lowM other => ?_,
      walked.kept.give_user here small set unmapped plain, ?_⟩
    · rw [walked.kept.store_pte here low set _ here lowM, if_neg fun both => other both.2, walked.entries m lowM]
    · rw [walked.kept.store_pte here low set _ here low, if_pos ⟨rfl,rfl⟩]
      rfl

/-- A page in hand is mapped into user memory, or stays in hand. -/
theorem map_user (kept : Kept img all dirs (p ::ₘ held) s) (here : dir ∈ dirs) (small : n < userPages) {perm : Nat}
    (plain : perm < PGSIZE) (remap : E .remap) :
    wp E (mappages dir (n * PGSIZE) PGSIZE (page2pa p) perm) s fun ok t => Elsewhere dirs dir s t ∧
      (∀ m < 2 ^ 20, m ≠ n → pte t.words dir m = pte s.words dir m) ∧
      Kept img all dirs (if ok then held else p ::ₘ held) t :=
  wp_mono (map_page kept here small plain fun _ => remap) fun _ _ ⟨elsewhere,others,kept,_⟩ => ⟨elsewhere,others,kept⟩

/-- A page that is mapped already is not mapped again. -/
theorem map_taken {pa perm : Nat} (kept : Kept img all dirs held s) (here : dir ∈ dirs) (low : n < 2 ^ 20)
    (taken : present (pte s.words dir n) = true) (remap : E .remap) :
    wp E (mappages dir (n * PGSIZE) PGSIZE pa perm) s fun ok t => ok = false ∧ Elsewhere dirs dir s t ∧ Kept img all dirs held t := by
  have single := @mappages_eq dir n 0 perm pa low
  rw [Nat.zero_add, Nat.one_mul] at single
  rw [single]
  refine mapLoop_step kept here low (fun t walked => ?_) (fun _ => remap) fun t walked set absent => ?_
  · exact ⟨rfl, walked.elsewhere, walked.kept⟩
  · rw [taken] at absent
    exact nomatch absent

/-- Pages of the kernel's part are mapped where there were none. -/
theorem mapLoop_kernel {perm : Nat} (c : Nat) {q pa : Nat} (kept : Kept img all dirs held s) (here : dir ∈ dirs)
    (high : userPages ≤ q) (range : q + c < 2 ^ 20) (absent : ∀ m < 2 ^ 20, q ≤ m → present (pte s.words dir m) = false) :
    wp E (mapLoop dir perm ((q + c) * PGSIZE) (c + 1) (q * PGSIZE) pa) s fun ok t =>
      Kept img all dirs held t ∧ Elsewhere dirs dir s t ∧ (ok = true → ∀ m < 2 ^ 20,
        (q ≤ m ∧ m ≤ q + c → present (pte t.words dir m) = true) ∧
        (¬ (q ≤ m ∧ m ≤ q + c) → pte t.words dir m = pte s.words dir m)) := by
  have low : q < 2 ^ 20 := by omega
  induction c generalizing q s pa with
  | zero =>
    refine mapLoop_step kept here low (fun t walked => ?_) (fun set => ?_) fun t walked set absent => ?_
    · exact ⟨walked.kept, walked.elsewhere, fun no => nomatch no⟩
    · rw [absent q low (Nat.le_refl q)] at set
      exact nomatch set
    · rw [Nat.add_zero, if_pos rfl]
      have same := walked.kept.store_kernel here low high set (pa ||| perm ||| PTE_P)
      refine ⟨⟨?_, walked.kept.valid⟩, walked.elsewhere.trans (walked.kept.elsewhere_store here low set _), fun _ m lowM => ?_⟩
      · rw [same]
        exact walked.kept.ex
      · rw [walked.kept.store_pte here low set _ here lowM]
        refine ⟨fun inside => ?_, fun outside => ?_⟩
        · rw [if_pos ⟨rfl, by omega⟩]
          exact present_last _
        · rw [if_neg (by omega), walked.entries m lowM]
  | succ c ih =>
    refine mapLoop_step kept here low (fun t walked => ?_) (fun set => ?_) fun t walked set free => ?_
    · exact ⟨walked.kept, walked.elsewhere, fun no => nomatch no⟩
    · rw [absent q low (Nat.le_refl q)] at set
      exact nomatch set
    · have more : ¬ q * PGSIZE = (q + (c + 1)) * PGSIZE := by
        unfold PGSIZE
        omega
      have same := walked.kept.store_kernel here low high set (pa ||| perm ||| PTE_P)
      have entries := fun m lowM => walked.kept.store_pte here low set (pa ||| perm ||| PTE_P) here (m := m) lowM
      have after : Kept img all dirs held (t.store (entryLoc t dir q) (pa ||| perm ||| PTE_P)) := by
        refine ⟨?_, walked.kept.valid⟩
        rw [same]
        exact walked.kept.ex
      rw [if_neg more, show q * PGSIZE + PGSIZE = (q + 1) * PGSIZE by ring, show q + (c + 1) = q + 1 + c by ring]
      refine wp_mono (ih after (by omega) (by omega) (fun m lowM above => ?_) (by omega)) fun ok u ⟨keptU,elsewhere,mapped⟩ => ?_
      · rw [entries m lowM, if_neg (by omega), walked.entries m lowM]
        exact absent m lowM (by omega)
      · refine ⟨keptU, (walked.elsewhere.trans (walked.kept.elsewhere_store here low set _)).trans elsewhere, fun yes m lowM => ?_⟩
        obtain ⟨inside,outside⟩ := mapped yes m lowM
        refine ⟨fun range => ?_, fun apart => ?_⟩
        · by_cases first : m = q
          · rw [outside (by omega), entries m lowM, if_pos ⟨rfl, first⟩]
            exact present_last _
          · exact inside (by omega)
        · rw [outside (by omega), entries m lowM, if_neg (by omega), walked.entries m lowM]

/-- Regions of whole pages, one after the other, from page `q` on. -/
inductive Rising : Nat → List Kmap → Prop where
  | nil (q : Nat) : Rising q []
  | cons {start q c : Nat} {k : Kmap} {rest : List Kmap} (above : start ≤ q) (virt : k.virt = q * PGSIZE)
      (size : (k.physEnd + 2 ^ 32 - k.physStart) % 2 ^ 32 = (c + 1) * PGSIZE) (range : q + c < 2 ^ 20)
      (tail : Rising (q + c + 1) rest) : Rising start (k :: rest)

theorem mapKernel_spec {regions : List Kmap} {start : Nat} (rising : Rising start regions) (kept : Kept img all dirs held s)
    (here : dir ∈ dirs) (high : userPages ≤ start)
    (absent : ∀ m < 2 ^ 20, start ≤ m → present (pte s.words dir m) = false) :
    wp E (mapKernel dir regions) s fun ok t => Kept img all dirs held t ∧ Elsewhere dirs dir s t ∧
      (ok = true → (∀ m < 2 ^ 20, m < start → pte t.words dir m = pte s.words dir m) ∧
        ∀ k ∈ regions, present (pte t.words dir (k.virt / PGSIZE)) = true) := by
  induction rising generalizing s with
  | nil q => exact ⟨kept, Elsewhere.refl rfl, fun _ => ⟨fun _ _ _ => rfl, fun k member => nomatch member⟩⟩
  | @cons start q c k rest above virt size range tail ih =>
    rw [mapKernel, wp_bind, virt, size, mappages_eq range]
    refine wp_mono (mapLoop_kernel c kept here (by omega) range fun m low up => absent m low (by omega))
      fun ok t ⟨keptT,elsewhereT,mapped⟩ => ?_
    rw [wp_ite]
    split
    · rename_i yes
      have entries := mapped yes
      refine wp_mono (ih keptT (by omega) fun m low up => ?_) fun ok u ⟨keptU,elsewhereU,rest⟩ => ?_
      · rw [(entries m low).2 (by omega)]
        exact absent m low (by omega)
      · refine ⟨keptU, elsewhereT.trans elsewhereU, fun yes => ⟨fun m low below => ?_, fun k' member => ?_⟩⟩
        · rw [(rest yes).1 m low (by omega), (entries m low).2 (by omega)]
        · rcases List.mem_cons.mp member with rfl | member
          · have first : k'.virt / PGSIZE = q := by
              rw [virt]
              exact Nat.mul_div_cancel q (by decide)
            rw [first, (rest yes).1 q (by omega) (by omega)]
            exact (entries q (by omega)).1 (by omega)
          · exact (rest yes).2 k' member
    · exact ⟨keptT, elsewhereT, fun no => nomatch no⟩

theorem kmap_rising (img : Image) : Rising userPages (kmap img) := by
  have aligned := img.data_aligned
  have first := img.text_first
  have before := img.data_before
  have loaded := img.loaded
  unfold KERNLINK KERNBASE EXTMEM at first
  unfold KERNBASE at loaded
  unfold PGSIZE at aligned
  obtain ⟨d,page⟩ := Nat.dvd_of_mod_eq_zero aligned
  have phys : v2p img.data = img.data - 0x80000000 := by
    unfold v2p KERNBASE
    omega
  unfold kmap
  rw [phys]
  refine .cons (q := 524288) (c := 255) (by decide) (by decide) (by decide) (by decide) ?_
  refine .cons (q := 524544) (c := d - 524545) (by decide) (show KERNLINK = 524544 * PGSIZE by decide) ?_ (by omega) ?_
  · have start : v2p KERNLINK = 0x100000 := by decide
    dsimp only
    rw [start]
    unfold PGSIZE
    omega
  refine .cons (q := d) (c := 581631 - d) (by omega) ?_ ?_ (by omega) ?_
  · dsimp only
    unfold PGSIZE
    omega
  · dsimp only
    unfold PGSIZE PHYSTOP
    omega
  exact .cons (q := 1040384) (c := 8191) (by omega) (by decide) (by decide) (by decide) (.nil _)

end Mapping

section Freeing
variable {E : Panic → Prop}

theorem store_fill_comm {loc : PteLoc} {word : Nat} {content : Nat → Nat} (apart : p ≠ loc.page) :
    ((s.fill p content).store loc word).words = ((s.store loc word).fill p content).words := by
  unfold Mem.fill Mem.store
  dsimp only
  rw [Function.update_of_ne (Ne.symm apart), Function.update_comm apart]

theorem own_user (here : dir ∈ dirs) (small : n < userPages) (mapped : present (pte s.words dir n) = true) :
    own s.words dirs (.user dir ⟨n, small⟩) = some (frame (pte s.words dir n)) :=
  (own_of_mem here).trans (entryPage_of_present mapped)

/-- A page of user memory is neither free nor a part of the page tables. -/
theorem Kept.user_apart (kept : Kept img all dirs held s) (here : dir ∈ dirs) (small : n < userPages)
    (mapped : present (pte s.words dir n) = true) : frame (pte s.words dir n) ∉ held + s.freelist ∧
      frame (pte s.words dir n) ≠ dir ∧ ∀ d < NPDENTRIES, present (s.words dir d) = true →
        frame (pte s.words dir n) ≠ frame (s.words dir d) := by
  have mine := own_user here small mapped
  refine ⟨kept.ex.alone _ _ mine, fun same => ?_, fun d low set same => ?_⟩
  · rw [same] at mine
    have directory : own s.words dirs (.directory dir) = some dir := own_of_mem here
    exact Role.noConfusion (kept.ex.single _ _ _ mine directory)
  · rw [same] at mine
    exact Role.noConfusion (kept.ex.single _ _ _ mine (own_table here low set))

/-- `kfree(v); *pte = 0;` for a page that user memory has at `n`. -/
theorem unmap_spec (kept : Kept img all dirs held s) (here : dir ∈ dirs) (small : n < userPages)
    (set : present (s.words dir (n / 1024)) = true) (mapped : present (pte s.words dir n) = true) :
    wp E (kfree img (frame (pte s.words dir n))) s fun _ u =>
      Kept img all dirs held (u.store (entryLoc s dir n) 0) ∧ Elsewhere dirs dir s (u.store (entryLoc s dir n) 0) ∧
      (∀ m < 2 ^ 20, pte (u.store (entryLoc s dir n) 0).words dir m = if m = n then 0 else pte s.words dir m) ∧
      ∀ m < userPages, m ≠ n → present (pte s.words dir m) = true →
        (u.store (entryLoc s dir n) 0).words (frame (pte s.words dir m)) = s.words (frame (pte s.words dir m)) := by
  have low : n < 2 ^ 20 := Nat.lt_trans small (by decide)
  have mine := own_user here small mapped
  generalize frame (pte s.words dir n) = p at mine ⊢
  have cleared := kept.store_user here small set 0
  rw [entryPage_zero] at cleared
  -- The page is given back first in the proof, last in the code: the two writes are to different pages.
  have back : Kept img all dirs (p ::ₘ held) (s.store (entryLoc s dir n) 0) := by
    refine ⟨?_, kept.valid⟩
    rw [cleared, Multiset.cons_add]
    exact kept.ex.take mine
  have apart : p ≠ (entryLoc s dir n).page := by
    intro same
    have table := own_table here (div_low low) set
    change own s.words dirs _ = some (entryLoc s dir n).page at table
    rw [← same] at table
    exact Role.noConfusion (kept.ex.single _ _ _ mine table)
  have filled := back.fill junk (Multiset.mem_cons_self p held)
  rw [wp_kfree (kept.valid p (kept.ex.all_held mine))]
  have words : ({ s.fill p junk with freelist := p :: s.freelist }.store (entryLoc s dir n) 0).words =
      ((s.store (entryLoc s dir n) 0).fill p junk).words := store_fill_comm apart
  refine ⟨filled.1.of_pool words (pool_cons held p s.freelist), ?_, fun m lowM => ?_, fun m smallM other also => ?_⟩
  · exact ((kept.elsewhere_store here low set 0).trans (back.intact_fill junk (Multiset.mem_cons_self p held)).elsewhere).trans
      (Elsewhere.refl words)
  · rw [words, back.fill_pte junk (Multiset.mem_cons_self p held) here lowM, kept.store_pte here low set 0 here lowM]
    simp only [true_and]
  · have user := own_user here smallM also
    have page : frame (pte s.words dir m) ≠ p := by
      intro same
      rw [same] at user
      exact other (congrArg Fin.val (Role.user.inj (kept.ex.single _ _ _ user mine)).2)
    have table : frame (pte s.words dir m) ≠ (entryLoc s dir n).page := (kept.user_apart here smallM also).2.2 _ (div_low low) set
    rw [words, fill_other junk page, store_other 0 table]

theorem fin_pos (img : Image) : page2pa 0 < v2p img.fin := by
  have first := img.text_first
  have before := img.data_before
  have loaded := img.loaded
  unfold KERNLINK KERNBASE EXTMEM at first
  unfold KERNBASE at loaded
  unfold page2pa v2p KERNBASE
  omega

theorem pgaddr_next {n : Nat} (small : n < userPages) : pgaddr (pdx (n * PGSIZE) + 1) 0 0 = (n / 1024 + 1) * 1024 * PGSIZE := by
  have low : n < 2 ^ 20 := Nat.lt_trans small (by decide)
  have below : n / 1024 + 1 ≤ 512 := by
    unfold userPages at small
    omega
  rw [pdx_page low]
  unfold pgaddr PGSIZE
  rw [Nat.zero_shiftLeft, Nat.or_zero, Nat.or_zero, Nat.shiftLeft_eq]
  omega

/-- What `deallocuvm` leaves of the address space from page `n` on. -/
def Cleared (dir n oldsz : Nat) (s t : Mem) : Prop :=
  ∀ m < 2 ^ 20, (m < n → pte t.words dir m = pte s.words dir m) ∧
    (n ≤ m → m * PGSIZE < oldsz → present (pte t.words dir m) = false)

/-- The pages from `n` to `oldsz` are gone, the others are as they were, with their contents. -/
structure Unmapped (dir n oldsz : Nat) (s t : Mem) : Prop where
  outside : ∀ m < 2 ^ 20, m < n ∨ oldsz ≤ m * PGSIZE → pte t.words dir m = pte s.words dir m
  inside : ∀ m < 2 ^ 20, n ≤ m → m * PGSIZE < oldsz → present (pte t.words dir m) = false
  data : ∀ m < userPages, m < n ∨ oldsz ≤ m * PGSIZE → present (pte s.words dir m) = true →
    t.words (frame (pte s.words dir m)) = s.words (frame (pte s.words dir m))

theorem Unmapped.none {oldsz : Nat} (past : oldsz ≤ n * PGSIZE) : Unmapped dir n oldsz s s := by
  refine ⟨fun _ _ _ => rfl, fun m _ above below => ?_, fun _ _ _ _ => rfl⟩
  unfold PGSIZE at past below
  omega

/-- The pages up to `bound` are gone first, then those from page `mid` on. -/
theorem Unmapped.join {bound mid oldsz : Nat} (first : Unmapped dir n bound s u) (second : Unmapped dir mid oldsz u t)
    (ordered : n ≤ mid) (inside : bound ≤ oldsz) (next : bound = oldsz ∨ bound = mid * PGSIZE) :
    Unmapped dir n oldsz s t := by
  refine ⟨fun m low away => ?_, fun m low above below => ?_, fun m small away mapped => ?_⟩
  · rw [second.outside m low (by omega), first.outside m low (by omega)]
  · by_cases later : mid ≤ m
    · exact second.inside m low later below
    · rw [second.outside m low (Or.inl (by omega))]
      refine first.inside m low above ?_
      rcases next with rfl | rfl
      · exact below
      · exact Nat.mul_lt_mul_of_pos_right (by omega) (by decide)
  · have same := first.outside m (Nat.lt_trans small (by decide)) (by omega)
    have later := second.data m small (by omega) (by rw [same]; exact mapped)
    rw [same] at later
    rw [later, first.data m small (by omega) mapped]

/-- One turn of the loop. -/
theorem Unmapped.page {oldsz : Nat} (more : n * PGSIZE < oldsz) (others : ∀ m < 2 ^ 20, m ≠ n → pte u.words dir m = pte s.words dir m)
    (gone : present (pte u.words dir n) = false) (data : ∀ m < userPages, m ≠ n → present (pte s.words dir m) = true →
      u.words (frame (pte s.words dir m)) = s.words (frame (pte s.words dir m))) :
    Unmapped dir n (min oldsz ((n + 1) * PGSIZE)) s u := by
  have apart : ∀ m, m < n ∨ min oldsz ((n + 1) * PGSIZE) ≤ m * PGSIZE → m ≠ n := by
    rintro m away rfl
    unfold PGSIZE at *
    omega
  refine ⟨fun m low away => others m low (apart m away), fun m low above below => ?_,
    fun m small away => data m small (apart m away)⟩
  obtain rfl : m = n := by
    unfold PGSIZE at *
    omega
  exact gone

/-- Pages without a page table are gone already. -/
theorem Unmapped.block {oldsz : Nat} (unset : present (s.words dir (n / 1024)) = false) :
    Unmapped dir n (min oldsz ((n / 1024 + 1) * 1024 * PGSIZE)) s s := by
  refine ⟨fun _ _ _ => rfl, fun m _ above below => ?_, fun _ _ _ _ => rfl⟩
  have block : m / 1024 = n / 1024 := by
    unfold PGSIZE at below
    omega
  unfold pte
  rw [block, unset, if_neg (by decide)]
  rfl

theorem deallocLoop_unmaps {oldsz : Nat} (user : oldsz ≤ KERNBASE) (fuel : Nat) (kept : Kept img all dirs held s)
    (here : dir ∈ dirs) (enough : oldsz ≤ (n + fuel) * PGSIZE) :
    wp E (deallocLoop img dir oldsz fuel (n * PGSIZE)) s fun _ t =>
      Kept img all dirs held t ∧ Elsewhere dirs dir s t ∧ Unmapped dir n oldsz s t := by
  induction fuel generalizing n s with
  | zero => exact ⟨kept, Elsewhere.refl rfl, Unmapped.none enough⟩
  | succ fuel ih =>
    rw [deallocLoop, wp_ite]
    by_cases more : n * PGSIZE < oldsz
    · have small : n < userPages := by
        unfold KERNBASE at user
        unfold PGSIZE at more
        unfold userPages
        omega
      have low : n < 2 ^ 20 := Nat.lt_trans small (by decide)
      rw [if_pos more, wp_bind]
      refine walk_read low (fun set => ?_) fun unset => ?_
      · dsimp only
        rw [wp_bind, wp_get, wp_ite, load_entry set]
        have rest : ∀ {u : Mem}, Kept img all dirs held u → Elsewhere dirs dir s u →
            Unmapped dir n (min oldsz ((n + 1) * PGSIZE)) s u →
            wp E (deallocLoop img dir oldsz fuel (n * PGSIZE + PGSIZE)) u fun _ t =>
              Kept img all dirs held t ∧ Elsewhere dirs dir s t ∧ Unmapped dir n oldsz s t := by
          intro u keptU elsewhereU first
          rw [show n * PGSIZE + PGSIZE = (n + 1) * PGSIZE by ring]
          refine wp_mono (ih keptU (by rwa [show n + 1 + fuel = n + (fuel + 1) by ring])) fun _ t ⟨keptT,elsewhereT,later⟩ => ?_
          exact ⟨keptT, elsewhereU.trans elsewhereT, first.join later (by omega) (by omega) (by omega)⟩
        split
        · rename_i mapped
          have valid := kept.valid _ (kept.ex.all_held (own_user here small mapped))
          have some : ¬ pteAddr (pte s.words dir n) = 0 := by
            intro zero
            have none : frame (pte s.words dir n) = 0 := by
              unfold frame
              rw [zero]
              rfl
            rw [none] at valid
            exact absurd valid.1 (Nat.not_le.mpr (fin_pos img))
          rw [wp_ite, if_neg some, wp_bind, show pteAddr (pte s.words dir n) / PGSIZE = frame (pte s.words dir n) from rfl]
          refine wp_mono (unmap_spec kept here small set mapped) fun _ u ⟨keptU,elsewhereU,entries,data⟩ => ?_
          rw [wp_bind, wp_modify]
          refine rest keptU elsewhereU (Unmapped.page more (fun m lowM other => ?_) ?_ data)
          · rw [entries m lowM, if_neg other]
          · rw [entries n low, if_pos rfl]
            rfl
        · rename_i absent
          exact rest kept (Elsewhere.refl rfl)
            (Unmapped.page more (fun _ _ _ => rfl) (Bool.eq_false_iff.mpr absent) fun _ _ _ _ => rfl)
      · dsimp only
        rw [pgaddr_next small]
        have still : oldsz ≤ ((n / 1024 + 1) * 1024 + fuel) * PGSIZE :=
          Nat.le_trans enough (Nat.mul_le_mul_right PGSIZE (by omega))
        refine wp_mono (ih kept still) fun _ t ⟨keptT,elsewhere,later⟩ => ?_
        have first : Unmapped dir n (min oldsz ((n / 1024 + 1) * 1024 * PGSIZE)) s s := Unmapped.block unset
        exact ⟨keptT, elsewhere, first.join later (by omega) (by omega) (by omega)⟩
    · rw [if_neg more]
      exact ⟨kept, Elsewhere.refl rfl, Unmapped.none (Nat.not_lt.mp more)⟩

theorem roundup_page (newsz : Nat) : pgroundup newsz = pgroundup newsz / PGSIZE * PGSIZE := by
  unfold pgroundup PGSIZE
  omega

theorem deallocuvm_unmaps {oldsz newsz : Nat} (user : oldsz ≤ KERNBASE) (less : newsz < oldsz)
    (kept : Kept img all dirs held s) (here : dir ∈ dirs) :
    wp E (deallocuvm img dir oldsz newsz) s fun result t => result = newsz ∧ Kept img all dirs held t ∧
      Elsewhere dirs dir s t ∧ Unmapped dir (pgroundup newsz / PGSIZE) oldsz s t := by
  have round := roundup_page newsz
  unfold deallocuvm
  rw [wp_ite, if_neg (Nat.not_le.mpr less)]
  generalize pgroundup newsz / PGSIZE = q at *
  have enough : oldsz ≤ (q + (oldsz / PGSIZE + 1)) * PGSIZE := by
    unfold PGSIZE
    omega
  rw [wp_bind, round]
  exact wp_mono (deallocLoop_unmaps user _ kept here enough) fun _ t after => ⟨rfl,after⟩

theorem deallocuvm_spec {oldsz newsz : Nat} (user : oldsz ≤ KERNBASE) (kept : Kept img all dirs held s) (here : dir ∈ dirs) :
    wp E (deallocuvm img dir oldsz newsz) s fun _ t => Kept img all dirs held t ∧ Elsewhere dirs dir s t ∧
      Cleared dir (pgroundup newsz / PGSIZE) oldsz s t := by
  by_cases more : newsz ≥ oldsz
  · unfold deallocuvm
    rw [wp_ite, if_pos more]
    refine ⟨kept, Elsewhere.refl rfl, fun m _ => ⟨fun _ => rfl, fun above below => ?_⟩⟩
    unfold pgroundup PGSIZE at above
    unfold PGSIZE at below
    omega
  · refine wp_mono (deallocuvm_unmaps user (Nat.not_le.mp more) kept here) fun _ t ⟨_,keptT,elsewhere,gone⟩ => ?_
    exact ⟨keptT, elsewhere, fun m low => ⟨fun below => gone.outside m low (Or.inl below), gone.inside m low⟩⟩

/-- The page tables of the directory entries from `i` on. -/
def tablePages (w : Nat → Nat → Nat) (dir i count : Nat) : List Nat :=
  (List.range' i count).filterMap fun d => entryPage (w dir d)

theorem kfree_intact (kept : Kept img all dirs (p ::ₘ held) s) :
    wp E (kfree img p) s fun _ t => Kept img all dirs held t ∧ Intact dirs s t ∧ ∀ q, q ≠ p → t.words q = s.words q := by
  refine wp_mono (kfree_spec kept) fun _ t ⟨keptT,_,others⟩ => ⟨keptT, kept.intact fun q away => others q ?_, others⟩
  rintro rfl
  exact away (Multiset.mem_add.mpr (Or.inl (Multiset.mem_cons_self q held)))

theorem freeTables_spec (count : Nat) {i : Nat} (kept : Kept img all dirs (↑(tablePages s.words dir i count) + (dir ::ₘ held)) s) :
    wp E (freeTables img dir count i) s fun _ t => Kept img all dirs (dir ::ₘ held) t ∧ Intact dirs s t := by
  induction count generalizing i s with
  | zero =>
    refine ⟨?_, Intact.refl rfl⟩
    have none : tablePages s.words dir i 0 = [] := rfl
    rwa [none, Multiset.coe_nil, Multiset.zero_add] at kept
  | succ count ih =>
    rw [freeTables, wp_bind, wp_get]
    dsimp only
    rw [wp_ite]
    have cons : tablePages s.words dir i (count + 1) = (entryPage (s.words dir i)).toList ++ tablePages s.words dir (i + 1) count := by
      unfold tablePages
      rw [List.range'_succ, List.filterMap_cons]
      cases entryPage (s.words dir i) <;> rfl
    rw [cons] at kept
    split
    · rename_i set
      change present (s.words dir i) = true at set
      rw [entryPage_of_present set, Option.toList_some, List.singleton_append, ← Multiset.cons_coe, Multiset.cons_add] at kept
      have apart : dir ≠ frame (s.words dir i) := by
        intro same
        have twice := (Multiset.nodup_cons.mp (Multiset.cons_add .. ▸ kept.ex.once)).1
        exact twice (by simp [← same])
      rw [wp_bind, show pteAddr (s.load ⟨dir, i⟩) / PGSIZE = frame (s.words dir i) from rfl]
      refine wp_mono (kfree_intact kept) fun _ u ⟨keptU,intact,words⟩ => ?_
      have tables : tablePages u.words dir (i + 1) count = tablePages s.words dir (i + 1) count := by
        unfold tablePages
        rw [words dir apart]
      rw [← tables] at keptU
      refine wp_mono (ih keptU) fun _ t ⟨keptT,later⟩ => ⟨keptT, intact.trans later⟩
    · rename_i unset
      have none : entryPage (s.words dir i) = none := if_neg unset
      rw [none] at kept
      exact ih kept

/-- The roles of the pages of an address space. -/
def spaceRoles (dir : Nat) : List Role :=
  .directory dir :: (List.finRange NPDENTRIES).map (.table dir) ++ (List.finRange userPages).map (.user dir)

def userFrames (w : Nat → Nat → Nat) (dir : Nat) : List Nat :=
  (List.range userPages).filterMap fun n => entryPage (pte w dir n)

/-- The pages of an address space. -/
def spacePages (w : Nat → Nat → Nat) (dir : Nat) : List Nat :=
  dir :: tablePages w dir 0 NPDENTRIES ++ userFrames w dir

theorem mem_spaceRoles {r : Role} : r ∈ spaceRoles dir ↔ r.dir = dir := by
  unfold spaceRoles
  constructor
  · intro member
    rcases List.mem_append.mp member with member | member
    · rcases List.mem_cons.mp member with rfl | member
      · rfl
      · obtain ⟨d,_,rfl⟩ := List.mem_map.mp member
        rfl
    · obtain ⟨n,_,rfl⟩ := List.mem_map.mp member
      rfl
  · rintro rfl
    cases r with
    | directory dir => exact List.mem_append_left _ List.mem_cons_self
    | table dir d => exact List.mem_append_left _ (List.mem_cons_of_mem _ (List.mem_map.mpr ⟨d, List.mem_finRange d, rfl⟩))
    | user dir n => exact List.mem_append_right _ (List.mem_map.mpr ⟨n, List.mem_finRange n, rfl⟩)

theorem spaceRoles_nodup (dir : Nat) : (spaceRoles dir).Nodup := by
  refine List.nodup_append.mpr ⟨List.nodup_cons.mpr ⟨fun member => ?_, ?_⟩, ?_, fun r left r' right => ?_⟩
  · obtain ⟨d,_,same⟩ := List.mem_map.mp member
    exact Role.noConfusion same
  · exact (List.nodup_finRange NPDENTRIES).map fun d e same => by injection same
  · exact (List.nodup_finRange userPages).map fun m n same => by injection same
  · obtain ⟨n,_,rfl⟩ := List.mem_map.mp right
    rcases List.mem_cons.mp left with rfl | left
    · exact fun same => Role.noConfusion same
    · obtain ⟨d,_,rfl⟩ := List.mem_map.mp left
      exact fun same => Role.noConfusion same

theorem finRange_pages {count : Nat} {f : Fin count → Option Nat} {g : Nat → Option Nat} (same : ∀ i, f i = g i.val) :
    (List.finRange count).filterMap f = (List.range count).filterMap g := by
  rw [funext same, ← List.map_coe_finRange_eq_range, List.filterMap_map]
  rfl

theorem spaceRoles_pages (here : dir ∈ dirs) : (spaceRoles dir).filterMap (own s.words dirs) = spacePages s.words dir := by
  have first : own s.words dirs (.directory dir) = some dir := own_of_mem here
  have tables : (List.finRange NPDENTRIES).filterMap (own s.words dirs ∘ Role.table dir) = tablePages s.words dir 0 NPDENTRIES := by
    unfold tablePages
    rw [← List.range_eq_range']
    exact finRange_pages fun d => own_of_mem here
  have users : (List.finRange userPages).filterMap (own s.words dirs ∘ Role.user dir) = userFrames s.words dir :=
    finRange_pages fun n => own_of_mem here
  unfold spaceRoles spacePages
  rw [List.cons_append, List.filterMap_cons_some first, List.filterMap_append, List.filterMap_map, List.filterMap_map, tables, users]
  rfl

/-- Without the address space its pages would be in no role. -/
theorem Kept.release {others : List Nat} (apart : ∀ d, d ∈ others ↔ d ∈ dirs ∧ d ≠ dir) (kept : Kept img all dirs held s)
    (here : dir ∈ dirs) : Kept img all others (↑(spacePages s.words dir) + held) s := by
  have rest : own s.words others = fun r => if r ∈ spaceRoles dir then none else own s.words dirs r := by
    funext r
    by_cases mine : r.dir = dir
    · rw [own_outside fun there => ((apart _).mp there).2 mine, if_pos (mem_spaceRoles.mpr mine)]
    · rw [if_neg fun member => mine (mem_spaceRoles.mp member)]
      unfold own
      simp only [apart, mine, ne_eq, not_false_eq_true, and_true]
  refine ⟨?_, kept.valid⟩
  rw [rest, Multiset.add_assoc, ← spaceRoles_pages here]
  exact kept.ex.takeAll (spaceRoles_nodup dir)

theorem Elsewhere.others {others : List Nat} (apart : ∀ d, d ∈ others ↔ d ∈ dirs ∧ d ≠ dir) (elsewhere : Elsewhere dirs dir s t) :
    Intact others s t := by
  have outside : ∀ w (r : Role), r.dir = dir → own w others r = none :=
    fun w r mine => own_outside fun there => ((apart _).mp there).2 mine
  have inside : ∀ w (r : Role), r.dir ≠ dir → own w others r = own w dirs r := by
    intro w r other
    unfold own
    simp only [apart, other, ne_eq, not_false_eq_true, and_true]
  constructor
  · funext r
    by_cases mine : r.dir = dir
    · rw [outside _ r mine, outside _ r mine]
    · rw [inside _ r mine, inside _ r mine, elsewhere.roles r mine]
  · intro r p role
    by_cases mine : r.dir = dir
    · cases (outside _ r mine).symm.trans role
    · exact elsewhere.data r p mine ((inside _ r mine).symm.trans role)

/-- `freevm` gives back the whole address space. -/
theorem freevm_spec {others : List Nat} (apart : ∀ d, d ∈ others ↔ d ∈ dirs ∧ d ≠ dir) (kept : Kept img all dirs held s)
    (here : dir ∈ dirs) :
    wp E (freevm img (some dir)) s fun _ t => Kept img all others held t ∧ Intact others s t := by
  rw [freevm, wp_bind]
  refine wp_mono (deallocuvm_spec (Nat.le_refl _) kept here) fun _ u ⟨keptU,elsewhere,cleared⟩ => ?_
  have unmapped : userFrames u.words dir = [] := by
    refine List.filterMap_eq_nil_iff.mpr fun n member => ?_
    have inside := List.mem_range.mp member
    unfold userPages at inside
    refine if_neg (Bool.eq_false_iff.mp ((cleared n (by omega)).2 ?_ ?_))
    · rw [show pgroundup 0 / PGSIZE = 0 from by decide]
      exact Nat.zero_le _
    · unfold PGSIZE KERNBASE
      omega
  have ready := keptU.release apart here
  have order : (spacePages u.words dir : Multiset Nat) + held = ↑(tablePages u.words dir 0 NPDENTRIES) + (dir ::ₘ held) := by
    unfold spacePages
    rw [unmapped, List.append_nil, ← Multiset.cons_coe, Multiset.add_cons, Multiset.cons_add]
  rw [order] at ready
  rw [wp_bind]
  refine wp_mono (freeTables_spec NPDENTRIES ready) fun _ v ⟨keptV,intactV⟩ => ?_
  refine wp_mono (kfree_intact keptV) fun _ t ⟨keptT,intactT,_⟩ => ⟨keptT, ?_⟩
  exact ((elsewhere.others apart).trans intactV).trans intactT

end Freeing

end Xv6Vm
