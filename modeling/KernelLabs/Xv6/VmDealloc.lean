import KernelLabs.Xv6.VmFork
import KernelLabs.Xv6.VmRuns

/-!
`deallocuvm` against the loop that visits every page. The loop of the kernel jumps over the regions
of 4MB that have no page table; what it leaves is what the plain loop leaves, in every memory.
-/
namespace Xv6Vm
open Custody Wp Transition

section Loops

/-- The loop of `deallocuvm` as it would be without the jumps. -/
def everyPage (img : Image) (pgdir : Nat) : Nat → Nat → M Unit
  | 0, _ => return
  | count + 1, a => do
    match ← walkpgdir pgdir a false with
    | none => everyPage img pgdir count (a + PGSIZE)
    | some pte =>
      let entry := (← get).load pte
      if present entry then
        if pteAddr entry = 0 then throw .kfree
        kfree img (pteAddr entry / PGSIZE)
        modify fun s => s.store pte 0
      everyPage img pgdir count (a + PGSIZE)

/-- The number of pages that begin below `sz`. -/
def pagesTo (sz : Nat) : Nat := pgroundup sz / PGSIZE

variable {img : Image} {s : Mem} {dir n : Nat}

variable (s dir) in
theorem walk_run (low : n < 2 ^ 20) : walkpgdir dir (n * PGSIZE) false s =
    .ok (if present (s.words dir (n / 1024)) then some (entryLoc s dir n) else none, s) := by
  obtain ⟨loc,t,run,rfl,same⟩ := wp_total (walk_read (E := fun _ => False)
    (Q := fun loc t => loc = (if present (s.words dir (n / 1024)) then some (entryLoc s dir n) else none) ∧ t = s) low
    (fun set => ⟨(if_pos set).symm,rfl⟩) fun unset => ⟨(if_neg (by rw [unset]; decide)).symm,rfl⟩)
  rw [run, same]

theorem pagesTo_iff (sz n : Nat) : n < pagesTo sz ↔ n * PGSIZE < sz := by
  unfold pagesTo pgroundup PGSIZE
  omega

theorem pagesTo_user {sz : Nat} (user : sz ≤ KERNBASE) : pagesTo sz ≤ userPages := by
  unfold pagesTo pgroundup userPages PGSIZE
  unfold KERNBASE at user
  omega

/-- A page without a page table changes nothing. -/
theorem everyPage_missing (low : n < 2 ^ 20) (unset : present (s.words dir (n / 1024)) = false) (count : Nat) :
    everyPage img dir (count + 1) (n * PGSIZE) s = everyPage img dir count ((n + 1) * PGSIZE) s := by
  have walk := walk_run s dir low
  rw [unset, if_neg Bool.false_ne_true] at walk
  rw [everyPage, bind_run walk]
  dsimp only
  rw [Nat.succ_mul]

variable (img) in
/-- Nor do the pages up to the next region. -/
theorem everyPage_region {hi : Nat} (user : hi ≤ userPages) (unset : present (s.words dir (n / 1024)) = false) (step : Nat)
    (inside : n + step ≤ (n / 1024 + 1) * 1024) :
    everyPage img dir (hi - n) (n * PGSIZE) s = everyPage img dir (hi - (n + step)) ((n + step) * PGSIZE) s := by
  induction step with
  | zero => rfl
  | succ step ih =>
    rw [ih (by omega)]
    by_cases more : n + step < hi
    · have region : (n + step) / 1024 = n / 1024 := by omega
      have low : n + step < 2 ^ 20 := by
        unfold userPages at user
        omega
      rw [show hi - (n + step) = hi - (n + (step + 1)) + 1 by omega,
        everyPage_missing low (by rw [region]; exact unset), Nat.add_assoc]
    · rw [show hi - (n + step) = 0 by omega, show hi - (n + (step + 1)) = 0 by omega, everyPage, everyPage]

/-- Where the next region begins is found without a wrap up to the end of user space, and the jumps
    leave out pages that the plain loop passes without effect. -/
theorem deallocLoop_everyPage {oldsz : Nat} (user : oldsz ≤ KERNBASE) (fuel : Nat) (enough : pagesTo oldsz ≤ n + fuel) (s : Mem) :
    deallocLoop img dir oldsz fuel (n * PGSIZE) s = everyPage img dir (pagesTo oldsz - n) (n * PGSIZE) s := by
  have top := pagesTo_user user
  induction fuel generalizing n s with
  | zero =>
    rw [show pagesTo oldsz - n = 0 by omega]
    rfl
  | succ fuel ih =>
    rw [deallocLoop]
    by_cases more : n < pagesTo oldsz
    · have small : n < userPages := by omega
      have low : n < 2 ^ 20 := Nat.lt_trans small (by decide)
      have walk := walk_run s dir low
      rw [if_pos ((pagesTo_iff oldsz n).mp more), bind_run walk]
      by_cases set : present (s.words dir (n / 1024)) = true
      · rw [if_pos set] at walk ⊢
        rw [show pagesTo oldsz - n = pagesTo oldsz - (n + 1) + 1 by omega, everyPage, bind_run walk]
        have later : deallocLoop img dir oldsz fuel (n * PGSIZE + PGSIZE) =
            everyPage img dir (pagesTo oldsz - (n + 1)) (n * PGSIZE + PGSIZE) := by
          funext t
          rw [← Nat.succ_mul]
          exact ih (by omega) t
        dsimp only
        rw [later]
      · rw [if_neg set]
        dsimp only
        rw [pgaddr_next small, ih (by omega)]
        have jump := everyPage_region img top (Bool.eq_false_iff.mpr set) ((n / 1024 + 1) * 1024 - n) (by omega)
        rw [show n + ((n / 1024 + 1) * 1024 - n) = (n / 1024 + 1) * 1024 by omega] at jump
        exact jump.symm
    · rw [if_neg fun below => more ((pagesTo_iff oldsz n).mpr below), show pagesTo oldsz - n = 0 by omega]
      rfl

end Loops

section Effect

/-- `kfree` takes the page. -/
def Valid (img : Image) (p : Nat) : Prop := v2p img.fin ≤ page2pa p ∧ page2pa p < PHYSTOP

/-- The pages from `lo` to `hi` that are present. -/
def Mapped (w : Nat → Nat → Nat) (dir lo hi n : Nat) : Prop := lo ≤ n ∧ n < hi ∧ present (pte w dir n) = true

/-- The frames of the present pages among the `count` from `lo` on, in the order of the addresses. -/
def freed (w : Nat → Nat → Nat) (dir lo count : Nat) : List Nat :=
  ((List.range' lo count).filter fun n => present (pte w dir n)).map fun n => frame (pte w dir n)

/-- The page tables are pages of their own, and no page that is mapped is one of them or the directory. -/
structure Proper (w : Nat → Nat → Nat) (dir lo hi : Nat) : Prop where
  tables : ∀ d d', d < NPDENTRIES → d' < NPDENTRIES → present (w dir d) = true → present (w dir d') = true →
    frame (w dir d) = frame (w dir d') → d = d'
  apart : ∀ d, d < NPDENTRIES → present (w dir d) = true → frame (w dir d) ≠ dir
  pages : ∀ n, Mapped w dir lo hi n → frame (pte w dir n) ≠ dir ∧
    ∀ d, d < NPDENTRIES → present (w dir d) = true → frame (w dir d) ≠ frame (pte w dir n)

/-- Exactly the present pages are freed, each once; their entries are 0, and no other entry and no
    other page has changed. -/
structure Dealloced (dir lo hi : Nat) (s t : Mem) : Prop where
  freelist : t.freelist = (freed s.words dir lo (hi - lo)).reverse ++ s.freelist
  deny : t.deny = s.deny
  gone : ∀ n, n < 2 ^ 20 → Mapped s.words dir lo hi n → pte t.words dir n = 0
  entries : ∀ n, n < 2 ^ 20 → ¬ Mapped s.words dir lo hi n → pte t.words dir n = pte s.words dir n
  directory : t.words dir = s.words dir
  pages : ∀ q, q ∉ freed s.words dir lo (hi - lo) → (∀ d, d < NPDENTRIES → present (s.words dir d) = true → q ≠ frame (s.words dir d)) →
    t.words q = s.words q

variable {img : Image} {s t : Mem} {dir n lo hi : Nat}

/-- The memory behind one turn of the loop that frees page `n`. -/
def released (s : Mem) (dir n : Nat) : Mem :=
  Mem.store { s.fill (frame (pte s.words dir n)) junk with freelist := frame (pte s.words dir n) :: s.freelist } (entryLoc s dir n) 0

theorem mapped_table (mapped : Mapped s.words dir lo hi n) : present (s.words dir (n / 1024)) = true := by
  have here := mapped.2.2
  unfold pte at here
  by_contra unset
  rw [if_neg unset] at here
  revert here
  decide

theorem released_words {q i : Nat} (away : q ≠ frame (pte s.words dir n)) : (released s dir n).words q i =
    if q = frame (s.words dir (n / 1024)) ∧ i = n % 1024 then 0 else s.words q i := by
  unfold released
  by_cases table : q = frame (s.words dir (n / 1024))
  · subst table
    have here := store_here (s := { s.fill (frame (pte s.words dir n)) junk with freelist := frame (pte s.words dir n) :: s.freelist })
      (entryLoc s dir n) 0 i
    unfold entryLoc at here ⊢
    rw [here, fill_other junk away]
    simp
  · rw [store_other 0 table, if_neg fun both => table both.1]
    exact congrFun (fill_other junk away) i

theorem released_page {q : Nat} (away : q ≠ frame (pte s.words dir n)) (other : q ≠ frame (s.words dir (n / 1024))) :
    (released s dir n).words q = s.words q := by
  funext i
  rw [released_words away, if_neg fun both => other both.1]

theorem released_directory (proper : Proper s.words dir lo hi) (low : n < 2 ^ 20) (mapped : Mapped s.words dir lo hi n) :
    (released s dir n).words dir = s.words dir :=
  released_page (proper.pages n mapped).1.symm (proper.apart _ (div_low low) (mapped_table mapped)).symm

/-- One turn sets the entry to 0 and no other one. -/
theorem released_pte (proper : Proper s.words dir lo hi) (low : n < 2 ^ 20) (mapped : Mapped s.words dir lo hi n) {m : Nat}
    (lowM : m < 2 ^ 20) : pte (released s dir n).words dir m = if m = n then 0 else pte s.words dir m := by
  have set := mapped_table mapped
  unfold pte
  rw [released_directory proper low mapped]
  by_cases setM : present (s.words dir (m / 1024)) = true
  · rw [if_pos setM, if_pos setM, released_words ((proper.pages n mapped).2 _ (div_low lowM) setM)]
    by_cases same : m = n
    · rw [if_pos same, if_pos (by rw [same]; exact ⟨rfl,rfl⟩)]
    · rw [if_neg same, if_neg]
      rintro ⟨table,index⟩
      have region := proper.tables _ _ (div_low lowM) (div_low low) setM set table
      omega
  · have other : m ≠ n := by
      rintro rfl
      exact setM set
    rw [if_neg setM, if_neg setM, if_neg other]

theorem mapped_later (proper : Proper s.words dir n hi) (low : n < 2 ^ 20) (mapped : Mapped s.words dir n hi n) (user : hi ≤ userPages)
    (m : Nat) : Mapped (released s dir n).words dir (n + 1) hi m ↔ Mapped s.words dir (n + 1) hi m := by
  unfold Mapped
  refine and_congr_right fun after => and_congr_right fun before => ?_
  have lowM : m < 2 ^ 20 := Nat.lt_trans (Nat.lt_of_lt_of_le before user) (by decide)
  rw [released_pte proper low mapped lowM, if_neg (by omega)]

theorem Mapped.weaken {w : Nat → Nat → Nat} (mapped : Mapped w dir (n + 1) hi lo) : Mapped w dir n hi lo :=
  ⟨Nat.le_of_succ_le mapped.1, mapped.2⟩

theorem Proper.weaken {w : Nat → Nat → Nat} (proper : Proper w dir n hi) : Proper w dir (n + 1) hi :=
  ⟨proper.tables, proper.apart, fun m mapped => proper.pages m mapped.weaken⟩

/-- The directory stays proper for the pages that are still to come. -/
theorem released_proper (proper : Proper s.words dir n hi) (low : n < 2 ^ 20) (mapped : Mapped s.words dir n hi n)
    (user : hi ≤ userPages) : Proper (released s dir n).words dir (n + 1) hi := by
  have same := released_directory proper low mapped
  refine ⟨?_, ?_, fun m mappedM => ?_⟩
  · rw [same]
    exact proper.tables
  · rw [same]
    exact proper.apart
  · have before := (mapped_later proper low mapped user m).mp mappedM
    have lowM : m < 2 ^ 20 := Nat.lt_trans (Nat.lt_of_lt_of_le before.2.1 user) (by decide)
    have other : m ≠ n := by
      have above := before.1
      omega
    rw [same, released_pte proper low mapped lowM, if_neg other]
    exact proper.pages m before.weaken

theorem freed_cons (w : Nat → Nat → Nat) (dir : Nat) (more : n < hi) : freed w dir n (hi - n) =
    (if present (pte w dir n) then [frame (pte w dir n)] else []) ++ freed w dir (n + 1) (hi - (n + 1)) := by
  unfold freed
  rw [show hi - n = hi - (n + 1) + 1 by omega, List.range'_succ, List.filter_cons]
  by_cases mapped : present (pte w dir n) = true
  · rw [if_pos mapped, if_pos mapped]
    rfl
  · rw [if_neg mapped, if_neg mapped]
    rfl

/-- What is freed later is decided before. -/
theorem freed_later (proper : Proper s.words dir n hi) (low : n < 2 ^ 20) (mapped : Mapped s.words dir n hi n) (user : hi ≤ userPages) :
    freed (released s dir n).words dir (n + 1) (hi - (n + 1)) = freed s.words dir (n + 1) (hi - (n + 1)) := by
  have same : ∀ m ∈ List.range' (n + 1) (hi - (n + 1)), pte (released s dir n).words dir m = pte s.words dir m := by
    intro m member
    rw [List.mem_range'_1] at member
    rw [released_pte proper low mapped (by unfold userPages at user; omega), if_neg (by omega)]
  unfold freed
  rw [List.filter_congr fun m member => by rw [same m member]]
  exact List.map_congr_left fun m member => by rw [same m (List.mem_of_mem_filter member)]

theorem dealloced_none (past : hi ≤ n) : Dealloced dir n hi s s := by
  have none : ∀ m, ¬ Mapped s.words dir n hi m := fun m mapped => by
    have above := mapped.1
    have below := mapped.2.1
    omega
  refine ⟨?_, rfl, fun m _ mapped => absurd mapped (none m), fun _ _ _ => rfl, rfl, fun _ _ _ => rfl⟩
  rw [Nat.sub_eq_zero_of_le past]
  rfl

/-- A page that is not present is passed over. -/
theorem Dealloced.skip (rest : Dealloced dir (n + 1) hi s t) (more : n < hi) (absent : ¬ present (pte s.words dir n) = true) :
    Dealloced dir n hi s t := by
  have same : ∀ m, Mapped s.words dir n hi m → Mapped s.words dir (n + 1) hi m := by
    rintro m ⟨above,below,here⟩
    refine ⟨?_, below, here⟩
    by_contra first
    have first : m = n := by omega
    exact absent (first ▸ here)
  have list := freed_cons s.words dir more
  rw [if_neg absent, List.nil_append] at list
  refine ⟨?_, rest.deny, fun m low mapped => rest.gone m low (same m mapped),
    fun m low away => rest.entries m low fun mapped => away mapped.weaken, rest.directory, ?_⟩
  · rw [list]
    exact rest.freelist
  · rw [list]
    exact rest.pages

/-- A page that is present is freed before the rest. -/
theorem Dealloced.release (proper : Proper s.words dir n hi) (user : hi ≤ userPages) (mapped : Mapped s.words dir n hi n)
    (rest : Dealloced dir (n + 1) hi (released s dir n) t) : Dealloced dir n hi s t := by
  have low : n < 2 ^ 20 := Nat.lt_trans (Nat.lt_of_lt_of_le mapped.2.1 user) (by decide)
  have same := released_directory proper low mapped
  have later := mapped_later proper low mapped user
  have list := freed_cons s.words dir mapped.2.1
  rw [if_pos mapped.2.2, ← freed_later proper low mapped user] at list
  refine ⟨?_, rest.deny, fun m lowM here => ?_, fun m lowM away => ?_, rest.directory.trans same, fun q away other => ?_⟩
  · rw [list, rest.freelist, List.reverse_append, List.append_assoc]
    rfl
  · by_cases first : m = n
    · subst first
      have past : ¬ Mapped (released s dir m).words dir (m + 1) hi m := fun again => absurd again.1 (Nat.not_succ_le_self m)
      rw [rest.entries m lowM past, released_pte proper low mapped lowM, if_pos rfl]
    · have above := here.1
      exact rest.gone m lowM ((later m).mpr ⟨by omega, here.2⟩)
  · have past : ¬ Mapped (released s dir n).words dir (n + 1) hi m := fun again => away ((later m).mp again).weaken
    have other : m ≠ n := by
      rintro rfl
      exact away mapped
    rw [rest.entries m lowM past, released_pte proper low mapped lowM, if_neg other]
  · rw [list] at away
    rw [rest.pages q (fun member => away (List.mem_append_right _ member)) fun d lowD set => by
      rw [same] at set ⊢
      exact other d lowD set]
    refine released_page (fun page => away (page ▸ List.mem_append_left _ List.mem_cons_self)) ?_
    exact other _ (div_low low) (mapped_table mapped)

theorem pte_missing (unset : present (s.words dir (n / 1024)) = false) : ¬ present (pte s.words dir n) = true := by
  unfold pte
  rw [unset, if_neg Bool.false_ne_true]
  decide

/-- What the loop panics about, and what it leaves when it does not. -/
def Ended (img : Image) (dir lo hi : Nat) (s : Mem) : Except Panic (Unit × Mem) → Prop
  | .ok (_, t) => (∀ n, Mapped s.words dir lo hi n → Valid img (frame (pte s.words dir n))) ∧ Dealloced dir lo hi s t
  | .error e => e = .kfree ∧ ∃ n, Mapped s.words dir lo hi n ∧ ¬ Valid img (frame (pte s.words dir n))

theorem Ended.skip {r : Except Panic (Unit × Mem)} (rest : Ended img dir (n + 1) hi s r) (more : n < hi)
    (absent : ¬ present (pte s.words dir n) = true) : Ended img dir n hi s r := by
  cases r with
  | error e =>
    obtain ⟨kfree,m,mapped,refused⟩ := rest
    exact ⟨kfree, m, mapped.weaken, refused⟩
  | ok result =>
    refine ⟨?_, rest.2.skip more absent⟩
    rintro m ⟨above,below,here⟩
    refine rest.1 m ⟨?_, below, here⟩
    by_contra first
    have first : m = n := by omega
    exact absent (first ▸ here)

theorem Ended.release {r : Except Panic (Unit × Mem)} (proper : Proper s.words dir n hi) (user : hi ≤ userPages)
    (mapped : Mapped s.words dir n hi n) (valid : Valid img (frame (pte s.words dir n)))
    (rest : Ended img dir (n + 1) hi (released s dir n) r) : Ended img dir n hi s r := by
  have low : n < 2 ^ 20 := Nat.lt_trans (Nat.lt_of_lt_of_le mapped.2.1 user) (by decide)
  have later := mapped_later proper low mapped user
  have same : ∀ m, Mapped s.words dir (n + 1) hi m → pte (released s dir n).words dir m = pte s.words dir m := by
    intro m here
    have above := here.1
    rw [released_pte proper low mapped (Nat.lt_trans (Nat.lt_of_lt_of_le here.2.1 user) (by decide)), if_neg (by omega)]
  cases r with
  | error e =>
    obtain ⟨kfree,m,here,refused⟩ := rest
    have before := (later m).mp here
    exact ⟨kfree, m, before.weaken, by rwa [same m before] at refused⟩
  | ok result =>
    refine ⟨fun m here => ?_, rest.2.release proper user mapped⟩
    by_cases first : m = n
    · rw [first]
      exact valid
    · have above := here.1
      have after : Mapped s.words dir (n + 1) hi m := ⟨by omega, here.2⟩
      rw [← same m after]
      exact rest.1 m ((later m).mpr after)

theorem kfree_run {p : Nat} (valid : Valid img p) (s : Mem) : kfree img p s = .ok ((), { s.fill p junk with freelist := p :: s.freelist }) := by
  obtain ⟨_,t,run,same⟩ := wp_total ((wp_kfree (E := fun _ => False) (s := s)
    (Q := fun _ t => t = { s.fill p junk with freelist := p :: s.freelist }) valid).mpr rfl)
  rw [run, same]

theorem kfree_refuses {p : Nat} (refused : ¬ Valid img p) (s : Mem) : kfree img p s = .error .kfree := by
  unfold kfree
  have outside : page2pa p < v2p img.fin ∨ PHYSTOP ≤ page2pa p := by
    unfold Valid at refused
    omega
  rw [if_pos outside]
  rfl

variable (img) in
/-- The plain loop frees the present pages one after the other. -/
theorem everyPage_ends (user : hi ≤ userPages) (count : Nat) (size : count = hi - n) (proper : Proper s.words dir n hi) :
    Ended img dir n hi s (everyPage img dir count (n * PGSIZE) s) := by
  induction count generalizing n s with
  | zero =>
    refine ⟨fun m mapped => ?_, dealloced_none (by omega)⟩
    have above := mapped.1
    have below := mapped.2.1
    omega
  | succ count ih =>
    have more : n < hi := by omega
    have small : n < userPages := by omega
    have low : n < 2 ^ 20 := Nat.lt_trans small (by decide)
    have walk := walk_run s dir low
    rw [everyPage, bind_run walk, ← Nat.succ_mul]
    by_cases set : present (s.words dir (n / 1024)) = true
    · rw [if_pos set]
      dsimp only
      have read : (get : M Mem) s = .ok (s, s) := rfl
      rw [bind_run read, load_entry set]
      by_cases here : present (pte s.words dir n) = true
      · have mapped : Mapped s.words dir n hi n := ⟨Nat.le_refl n, more, here⟩
        rw [if_pos here]
        by_cases zero : pteAddr (pte s.words dir n) = 0
        · rw [if_pos zero]
          refine ⟨rfl, n, mapped, fun valid => absurd valid.1 (Nat.not_le.mpr ?_)⟩
          unfold frame
          rw [zero]
          exact fin_pos img
        · rw [if_neg zero]
          by_cases valid : Valid img (frame (pte s.words dir n))
          · have rest := ih (s := released s dir n) (by omega) (released_proper proper low mapped user)
            have freed := kfree_run valid s
            unfold frame at freed
            rw [bind_run freed]
            exact Ended.release proper user mapped valid rest
          · have stops := kfree_refuses valid s
            unfold frame at stops
            rw [bind_error stops]
            exact ⟨rfl, n, mapped, valid⟩
      · rw [if_neg here]
        exact (ih (by omega) proper.weaken).skip more here
    · rw [if_neg set]
      exact (ih (by omega) proper.weaken).skip more (pte_missing (Bool.eq_false_iff.mpr set))

theorem Kept.proper {all : Nat → Prop} {dirs : List Nat} {held : Multiset Nat} (kept : Kept img all dirs held s) (here : dir ∈ dirs)
    (user : hi ≤ userPages) : Proper s.words dir lo hi := by
  have single := kept.ex.single
  have owner : ∀ n, Mapped s.words dir lo hi n → ∃ r : Fin userPages, own s.words dirs (.user dir r) = some (frame (pte s.words dir n)) := by
    rintro n ⟨_,below,here'⟩
    have small : n < userPages := by omega
    exact ⟨⟨n,small⟩, own_user here small here'⟩
  refine ⟨fun d d' low low' set set' same => ?_, fun d low set same => ?_, fun n mapped => ⟨fun same => ?_, fun d low set same => ?_⟩⟩
  · have other := own_table here low' set'
    rw [← same] at other
    exact congrArg Fin.val (Role.table.inj (single _ _ _ (own_table here low set) other)).2
  · have table := own_table here low set
    rw [same] at table
    cases single _ _ _ table (own_of_mem (r := .directory dir) here)
  · obtain ⟨r,held⟩ := owner n mapped
    rw [same] at held
    cases single _ _ _ held (own_of_mem (r := .directory dir) here)
  · obtain ⟨r,held⟩ := owner n mapped
    rw [← same] at held
    cases single _ _ _ held (own_table here low set)

theorem Kept.frames {all : Nat → Prop} {dirs : List Nat} {held : Multiset Nat} (kept : Kept img all dirs held s) (here : dir ∈ dirs)
    (user : hi ≤ userPages) (mapped : Mapped s.words dir lo hi n) : Valid img (frame (pte s.words dir n)) := by
  have small : n < userPages := by
    have below := mapped.2.1
    omega
  exact kept.valid _ (kept.ex.all_held (own_user here small mapped.2.2))

end Effect

section Deallocuvm
variable {img : Image} {s : Mem} {dir oldsz newsz : Nat}

theorem deallocLoop_ends (user : oldsz ≤ KERNBASE) {fuel : Nat} (enough : oldsz / PGSIZE + 1 ≤ fuel) (s : Mem) :
    deallocLoop img dir oldsz fuel (pgroundup newsz) s =
      everyPage img dir (pagesTo oldsz - pagesTo newsz) (pgroundup newsz) s := by
  have round : pgroundup newsz = pagesTo newsz * PGSIZE := roundup_page newsz
  rw [round]
  refine deallocLoop_everyPage user fuel ?_ s
  have most : pagesTo oldsz ≤ oldsz / PGSIZE + 1 := by
    unfold pagesTo pgroundup PGSIZE
    omega
  omega

theorem deallocuvm_run (less : newsz < oldsz) {u : Unit} {t : Mem}
    (run : deallocLoop img dir oldsz (oldsz / PGSIZE + 1) (pgroundup newsz) s = .ok (u, t)) :
    deallocuvm img dir oldsz newsz s = .ok (newsz, t) := by
  unfold deallocuvm
  rw [if_neg (Nat.not_le.mpr less), bind_run run]
  rfl

theorem deallocuvm_panics (less : newsz < oldsz) {e : Panic}
    (run : deallocLoop img dir oldsz (oldsz / PGSIZE + 1) (pgroundup newsz) s = .error e) :
    deallocuvm img dir oldsz newsz s = .error e := by
  unfold deallocuvm
  rw [if_neg (Nat.not_le.mpr less), bind_error run]

end Deallocuvm

/-- In every memory the loop ends and does what the loop over every page does. For a proper directory
    that is to free the present pages in their order, or to stop at one that `kfree` refuses; all
    directories the kernel has in use are proper and map no such page. -/
theorem deallocuvm_pages (img : Image) {oldsz newsz : Nat} (less : newsz < oldsz) (user : oldsz ≤ KERNBASE) (dir : Nat) :
    (∀ s fuel, oldsz / PGSIZE + 1 ≤ fuel → deallocLoop img dir oldsz fuel (pgroundup newsz) s =
      everyPage img dir (pagesTo oldsz - pagesTo newsz) (pgroundup newsz) s) ∧
    (∀ s, Proper s.words dir (pagesTo newsz) (pagesTo oldsz) →
      ((∀ n, Mapped s.words dir (pagesTo newsz) (pagesTo oldsz) n → Valid img (frame (pte s.words dir n))) →
        ∃ t, deallocuvm img dir oldsz newsz s = .ok (newsz, t) ∧ Dealloced dir (pagesTo newsz) (pagesTo oldsz) s t) ∧
      ((∃ n, Mapped s.words dir (pagesTo newsz) (pagesTo oldsz) n ∧ ¬ Valid img (frame (pte s.words dir n))) →
        deallocuvm img dir oldsz newsz s = .error .kfree)) ∧
    ∀ m, (system img).Reach System.Free m → dir ∈ m.dirs →
      Proper m.mem.words dir (pagesTo newsz) (pagesTo oldsz) ∧
      ∀ n, Mapped m.mem.words dir (pagesTo newsz) (pagesTo oldsz) n → Valid img (frame (pte m.mem.words dir n)) := by
  have top := pagesTo_user user
  refine ⟨fun s fuel enough => deallocLoop_ends user enough s, fun s proper => ?_, fun m reach here => ?_⟩
  · have ends := everyPage_ends img top _ rfl proper
    have round : pgroundup newsz = pagesTo newsz * PGSIZE := roundup_page newsz
    rw [← round, ← deallocLoop_ends user (Nat.le_refl _)] at ends
    cases run : deallocLoop img dir oldsz (oldsz / PGSIZE + 1) (pgroundup newsz) s with
    | ok result =>
      rw [run] at ends
      refine ⟨fun _ => ⟨result.2, deallocuvm_run less run, ends.2⟩, ?_⟩
      rintro ⟨n,mapped,refused⟩
      exact absurd (ends.1 n mapped) refused
    | error e =>
      rw [run] at ends
      obtain ⟨rfl,n,mapped,refused⟩ := ends
      exact ⟨fun all => absurd (all n mapped) refused, fun _ => deallocuvm_panics less run⟩
  · have kept := (reach_sound img reach).kept
    exact ⟨kept.proper here top, fun n mapped => kept.frames here top mapped⟩

theorem deallocuvm_pages_three : ∃ t, deallocuvm smallImage 2000 4096 0 threePages = .ok (0, t) ∧
    Dealloced 2000 (pagesTo 0) (pagesTo 4096) threePages t := by
  have top : pagesTo 4096 ≤ userPages := by decide
  have here := List.mem_cons_self (a := 2000) (l := [])
  have all := deallocuvm_pages smallImage (show 0 < 4096 by decide) (by decide) 2000
  exact (all.2.1 threePages (threePages_kept.proper here top)).1 fun n mapped => threePages_kept.frames here top mapped

end Xv6Vm
