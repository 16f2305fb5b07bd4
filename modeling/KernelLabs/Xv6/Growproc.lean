import Mathlib.Data.Finset.Card
import KernelLabs.Xv6.VmRuns

/-!
`growproc` (assignment-3 `proc.c`). The new size is computed in a `uint`, and a size of 0 from
`allocuvm` or `deallocuvm` is taken for a failure. `switchuvm` only loads the hardware.
-/
namespace Xv6Vm
open Custody Wp

/-- The `uint` with the value of an integer expression. -/
def uint32 (k : Int) : Nat := (k % 2 ^ 32).toNat

/-- The return value, and the size of the process afterwards. -/
def growproc (img : Image) (pgdir sz : Nat) (n : Int) : M (Int × Nat) := do
  if n > 0 then
    let new ← allocuvm img pgdir sz (uint32 (sz + n))
    if new = 0 then return (-1, sz) else return (0, new)
  else if n < 0 then
    let new ← deallocuvm img pgdir sz (uint32 (sz + n))
    if new = 0 then return (-1, sz) else return (0, new)
  else return (0, sz)

/-- The mapped user pages are those below `PGROUNDUP(sz)`. -/
def Exactly (w : Nat → Nat → Nat) (dir sz : Nat) : Prop :=
  ∀ m < userPages, present (pte w dir m) = true ↔ m * PGSIZE < pgroundup sz

/-- User page `m` is where it was, with the content it had. -/
def SamePage (dir m : Nat) (s t : Mem) : Prop :=
  pte t.words dir m = pte s.words dir m ∧ t.words (frame (pte s.words dir m)) = s.words (frame (pte s.words dir m))

/-- From size `sz` to size `new`. -/
structure Grown (dir sz new : Nat) (s t : Mem) : Prop where
  mapped : Exactly t.words dir new
  preserved : ∀ m < userPages, m * PGSIZE < min sz new → SamePage dir m s t
  fresh : ∀ m < userPages, pgroundup sz ≤ m * PGSIZE → m * PGSIZE < pgroundup new →
    t.words (frame (pte t.words dir m)) = fun _ => 0

/-- Every user page is mapped as it was. -/
def Unchanged (dir : Nat) (s t : Mem) : Prop :=
  ∀ m < userPages, present (pte t.words dir m) = present (pte s.words dir m) ∧
    (present (pte s.words dir m) = true → SamePage dir m s t)

/-- Either 0 with the size and the pages asked for, or -1 with everything as it was. -/
def GrowsRight (img : Image) (dir sz : Nat) (n : Int) (s : Mem) : Prop :=
  ∃ code new t, growproc img dir sz n s = .ok ((code, new), t) ∧
    ((code = 0 ∧ (new : Int) = sz + n ∧ Grown dir sz new s t) ∨ (code = -1 ∧ new = sz ∧ Unchanged dir s t))

variable {img : Image} {all : Nat → Prop} {dirs : List Nat} {held : Multiset Nat} {s t u : Mem} {dir p n : Nat}

section Data
variable {E : Panic → Prop}

/-- `walkpgdir` writes to the directory and to a page from the free list. -/
theorem walk_data (dir va : Nat) (s : Mem) : wp (fun _ => True) (walkpgdir dir va true) s fun loc t =>
    (∀ q, q ∉ s.freelist → q ≠ dir → t.words q = s.words q) ∧
    ∀ l, loc = some l → (present (s.words dir (pdx va)) = true ∧ l.page = frame (s.words dir (pdx va))) ∨
      l.page ∈ s.freelist := by
  unfold walkpgdir
  rw [wp_bind, wp_get, wp_ite]
  split
  · rename_i set
    exact ⟨fun _ _ _ => rfl, fun l some => Or.inl ⟨set, by rw [← Option.some.inj some]; rfl⟩⟩
  · rw [wp_ite, if_neg (by decide), wp_bind]
    unfold kalloc
    rw [wp_bind, wp_get]
    cases list : s.freelist with
    | nil => exact ⟨fun _ _ _ => rfl, fun l some => nomatch some⟩
    | cons r next =>
      dsimp only
      rw [wp_ite]
      split
      · exact ⟨fun _ _ _ => rfl, fun l some => nomatch some⟩
      · refine ⟨fun q taken other => ?_, fun l some => Or.inr ?_⟩
        · have apart : q ≠ r := fun same => taken (same ▸ List.mem_cons_self)
          exact (store_other _ other).trans (fill_other _ apart)
        · rw [← Option.some.inj some]
          exact List.mem_cons_self

/-- `mappages` for one page writes to the page table besides. -/
theorem map_data (dir pa perm : Nat) (s : Mem) (low : n < 2 ^ 20) :
    wp (fun _ => True) (mappages dir (n * PGSIZE) PGSIZE pa perm) s fun _ t =>
      ∀ q, q ∉ s.freelist → q ≠ dir → (present (s.words dir (n / 1024)) = true → q ≠ frame (s.words dir (n / 1024))) →
        t.words q = s.words q := by
  have single := @mappages_eq dir n 0 perm pa low
  rw [Nat.zero_add, Nat.one_mul] at single
  rw [single, mapLoop, wp_bind]
  refine wp_mono (walk_data dir (n * PGSIZE) s) fun loc t walked => ?_
  obtain ⟨words,table⟩ := walked
  rw [pdx_page low] at table
  cases loc with
  | none => exact fun q taken other _ => words q taken other
  | some l =>
    dsimp only
    rw [wp_bind, wp_get, wp_ite]
    split
    · trivial
    · rw [wp_bind, wp_modify, Nat.add_zero, if_pos rfl]
      intro q taken other away
      have apart : q ≠ l.page := by
        rintro rfl
        rcases table l rfl with ⟨set,same⟩ | member
        · exact away set same
        · exact taken member
      exact (store_other _ apart).trans (words q taken other)

theorem not_free {pool : Multiset Nat} (away : p ∉ pool + (s.freelist : Multiset Nat)) : p ∉ s.freelist :=
  fun member => away (Multiset.mem_add.mpr (Or.inr member))

/-- Mapping a page in hand where there was none changes no other page, nor its content. -/
theorem map_fresh (kept : Kept img all dirs (p ::ₘ held) s) (here : dir ∈ dirs) (small : n < userPages) {perm : Nat}
    (plain : perm < PGSIZE) (absent : present (pte s.words dir n) = false) :
    wp E (mappages dir (n * PGSIZE) PGSIZE (page2pa p) perm) s fun ok t =>
      Kept img all dirs (if ok then held else p ::ₘ held) t ∧
      (∀ m < userPages, m ≠ n → pte t.words dir m = pte s.words dir m ∧
        (present (pte s.words dir m) = true → SamePage dir m s t)) ∧
      (pte t.words dir n = if ok then page2pa p ||| perm ||| PTE_P else pte s.words dir n) ∧ t.words p = s.words p := by
  have low : n < 2 ^ 20 := Nat.lt_trans small (by decide)
  have remap : present (pte s.words dir n) = true → E .remap := fun set => nomatch absent.symm.trans set
  refine wp_mono (wp_and (map_page kept here small plain remap) (map_data dir (page2pa p) perm s low))
    fun ok t ⟨⟨_,others,keptT,entry⟩,data⟩ => ⟨keptT, fun m smallM other => ?_, entry, ?_⟩
  · have same := others m (Nat.lt_trans smallM (by decide)) other
    refine ⟨same, fun mapped => ⟨same, ?_⟩⟩
    obtain ⟨used,notDir,notTable⟩ := kept.user_apart here smallM mapped
    exact data _ (not_free used) notDir (notTable _ (div_low low))
  · have once := kept.ex.once
    rw [Multiset.cons_add, Multiset.nodup_cons] at once
    have inHand : p ∈ p ::ₘ held + (s.freelist : Multiset Nat) :=
      Multiset.mem_add.mpr (Or.inl (Multiset.mem_cons_self p held))
    refine data p (not_free once.1) (fun same => kept.directory here (same ▸ inHand)) fun set same => ?_
    exact kept.table here (div_low low) set (same ▸ inHand)

end Data

section Growing
variable {E : Panic → Prop} {old : Nat} {s₀ : Mem}

/-- `allocuvm` on its way from page `old`, at page `n`. -/
structure Growing (dir old n : Nat) (s₀ s : Mem) : Prop where
  below : ∀ m < userPages, m < old → pte s.words dir m = pte s₀.words dir m ∧
    (present (pte s₀.words dir m) = true → SamePage dir m s₀ s)
  fresh : ∀ m < userPages, old ≤ m → m < n →
    present (pte s.words dir m) = true ∧ s.words (frame (pte s.words dir m)) = fun _ => 0
  above : ∀ m < userPages, old ≤ m → n ≤ m → present (pte s.words dir m) = false

/-- A step that leaves the mapped pages as they are. -/
theorem Growing.keep (growing : Growing dir old n s₀ s)
    (same : ∀ m < userPages, pte t.words dir m = pte s.words dir m ∧
      (present (pte s.words dir m) = true → SamePage dir m s t)) : Growing dir old n s₀ t := by
  refine ⟨fun m small less => ?_, fun m small more less => ?_, fun m small more past => ?_⟩
  · obtain ⟨entry,content⟩ := growing.below m small less
    refine ⟨(same m small).1.trans entry, fun mapped => ⟨(same m small).1.trans entry, ?_⟩⟩
    have kept := ((same m small).2 (entry.symm ▸ mapped)).2
    rw [entry] at kept
    exact kept.trans (content mapped).2
  · obtain ⟨mapped,zero⟩ := growing.fresh m small more less
    rw [(same m small).1]
    exact ⟨mapped, ((same m small).2 mapped).2.trans zero⟩
  · rw [(same m small).1]
    exact growing.above m small more past

/-- The page that was filled with zeros is mapped at `n`. -/
theorem Growing.next (growing : Growing dir old n s₀ s) (zero : t.words p = fun _ => 0) {perm : Nat} (plain : perm < PGSIZE)
    (same : ∀ m < userPages, m ≠ n → pte t.words dir m = pte s.words dir m ∧
      (present (pte s.words dir m) = true → SamePage dir m s t))
    (ordered : old ≤ n) (entry : pte t.words dir n = page2pa p ||| perm ||| PTE_P) : Growing dir old (n + 1) s₀ t := by
  refine ⟨fun m small less => ?_, fun m small more less => ?_, fun m small more past => ?_⟩
  · obtain ⟨before,content⟩ := growing.below m small less
    obtain ⟨now,kept⟩ := same m small (by omega)
    refine ⟨now.trans before, fun mapped => ⟨now.trans before, ?_⟩⟩
    have still := (kept (before.symm ▸ mapped)).2
    rw [before] at still
    exact still.trans (content mapped).2
  · by_cases last : m = n
    · subst last
      have page := entryPage_some (entryPage_flags p plain)
      rw [entry]
      exact ⟨page.1, by rw [page.2, zero]⟩
    · obtain ⟨mapped,filled⟩ := growing.fresh m small more (by omega)
      obtain ⟨now,kept⟩ := same m small last
      rw [now]
      exact ⟨mapped, (kept mapped).2.trans filled⟩
  · rw [(same m small (by omega)).1]
    exact growing.above m small more (by omega)

/-- Pages without a role are written. -/
theorem Kept.same_user (kept : Kept img all dirs held s) (here : dir ∈ dirs)
    (same : ∀ q, q ∉ held + s.freelist → t.words q = s.words q) : ∀ m < userPages, pte t.words dir m = pte s.words dir m ∧
      (present (pte s.words dir m) = true → SamePage dir m s t) := by
  intro m small
  have entry := kept.same_pte same here (Nat.lt_trans small (by decide))
  exact ⟨entry, fun mapped => ⟨entry, same _ (kept.user_apart here small mapped).1⟩⟩

/-- After a failure the pages that were added are gone again. -/
theorem Growing.undo {newsz : Nat} (growing : Growing dir old n s₀ s) (more : n * PGSIZE < newsz)
    (gone : Unmapped dir old newsz s t) : Growing dir old old s₀ t := by
  refine ⟨fun m small less => ?_, fun m small more less => absurd less (Nat.not_lt.mpr more), fun m small above _ => ?_⟩
  · obtain ⟨before,content⟩ := growing.below m small less
    have now := gone.outside m (Nat.lt_trans small (by decide)) (Or.inl less)
    refine ⟨now.trans before, fun mapped => ⟨now.trans before, ?_⟩⟩
    have still := gone.data m small (Or.inl less) (before.symm ▸ mapped)
    rw [before] at still
    exact still.trans (content mapped).2
  · by_cases added : m * PGSIZE < newsz
    · exact gone.inside m (Nat.lt_trans small (by decide)) above added
    · rw [gone.outside m (Nat.lt_trans small (by decide)) (Or.inr (Nat.not_lt.mp added))]
      refine growing.above m small above ?_
      unfold PGSIZE at more added
      omega

/-- `deallocuvm(pgdir, newsz, oldsz)` in the loop of `allocuvm`. -/
theorem undo_spec {oldsz newsz : Nat} (user : newsz < KERNBASE) (kept : Kept img all dirs held s) (here : dir ∈ dirs)
    (ordered : pgroundup oldsz / PGSIZE ≤ n) (more : n * PGSIZE < newsz)
    (growing : Growing dir (pgroundup oldsz / PGSIZE) n s₀ s) :
    wp E (deallocuvm img dir newsz oldsz) s fun _ t => Kept img all dirs held t ∧
      Growing dir (pgroundup oldsz / PGSIZE) (pgroundup oldsz / PGSIZE) s₀ t := by
  have less : oldsz < newsz := by
    unfold pgroundup PGSIZE at ordered
    unfold PGSIZE at more
    omega
  refine wp_mono (deallocuvm_unmaps (Nat.le_of_lt user) less kept here) fun _ t ⟨_,keptT,_,gone⟩ => ?_
  exact ⟨keptT, growing.undo more gone⟩

theorem allocLoop_grows {oldsz newsz : Nat} (user : newsz < KERNBASE) (fuel : Nat) (kept : Kept img all dirs held s)
    (here : dir ∈ dirs) (ordered : pgroundup oldsz / PGSIZE ≤ n) (last : n ≤ pgroundup newsz / PGSIZE)
    (enough : newsz ≤ (n + fuel) * PGSIZE) (growing : Growing dir (pgroundup oldsz / PGSIZE) n s₀ s) :
    wp E (allocLoop img dir oldsz newsz fuel (n * PGSIZE)) s fun result t =>
      (result = newsz ∧ Growing dir (pgroundup oldsz / PGSIZE) (pgroundup newsz / PGSIZE) s₀ t) ∨
      (result = 0 ∧ Growing dir (pgroundup oldsz / PGSIZE) (pgroundup oldsz / PGSIZE) s₀ t) := by
  have done : ¬ n * PGSIZE < newsz → pgroundup newsz / PGSIZE = n := by
    intro past
    unfold pgroundup at last ⊢
    unfold PGSIZE at *
    omega
  induction fuel generalizing n s with
  | zero =>
    rw [Nat.add_zero] at enough
    rw [done (Nat.not_lt.mpr enough)]
    exact Or.inl ⟨rfl,growing⟩
  | succ fuel ih =>
    rw [allocLoop, wp_ite]
    by_cases more : n * PGSIZE < newsz
    · have small : n < userPages := by
        unfold PGSIZE at more
        unfold KERNBASE at user
        unfold userPages
        omega
      rw [if_pos more, wp_bind]
      refine wp_mono (kalloc_spec kept) fun mem u allocated => ?_
      obtain ⟨words,keptU⟩ := allocated
      have begun : Growing dir (pgroundup oldsz / PGSIZE) n s₀ u :=
        growing.keep (kept.same_user here fun q _ => congrFun words q)
      cases mem with
      | none =>
        dsimp only
        rw [wp_bind]
        exact wp_mono (undo_spec user keptU here ordered more begun) fun _ t after => Or.inr ⟨rfl,after.2⟩
      | some p =>
        dsimp only
        rw [wp_bind, wp_modify, wp_bind]
        have inHand : p ∈ p ::ₘ held := Multiset.mem_cons_self p held
        have filled := keptU.fill (fun _ => 0) inHand
        have ready : Growing dir (pgroundup oldsz / PGSIZE) n s₀ (u.fill p fun _ => 0) :=
          begun.keep (keptU.same_user here (fill_outside _ (Multiset.mem_add.mpr (Or.inl inHand))))
        have zero : (u.fill p fun _ => 0).words p = fun _ => 0 := Function.update_self p _ u.words
        have absent := ready.above n small ordered (Nat.le_refl n)
        generalize u.fill p (fun _ => 0) = v at filled ready zero absent ⊢
        have plain : PTE_W ||| PTE_U < PGSIZE := by decide
        refine wp_mono (map_fresh filled.1 here small plain absent) fun ok w fresh => ?_
        obtain ⟨keptW,others,entry,content⟩ := fresh
        cases ok with
        | true =>
          have further : n + 1 ≤ pgroundup newsz / PGSIZE := by
            unfold pgroundup
            unfold PGSIZE at *
            omega
          rw [wp_ite, if_pos rfl, show n * PGSIZE + PGSIZE = (n + 1) * PGSIZE by ring]
          refine ih keptW (by omega) further (by rwa [Nat.add_right_comm]) (ready.next (content.trans zero) plain others ordered entry) ?_
          intro past
          unfold pgroundup at further ⊢
          unfold PGSIZE at *
          omega
        | false =>
          have still : Growing dir (pgroundup oldsz / PGSIZE) n s₀ w := by
            refine ready.keep fun m smallM => ?_
            by_cases here : m = n
            · rw [here]
              exact ⟨entry, fun mapped => by cases absent.symm.trans mapped⟩
            · exact others m smallM here
          rw [wp_ite, if_neg (by decide), wp_bind]
          refine wp_mono (undo_spec user keptW here ordered more still) fun _ x after => ?_
          obtain ⟨keptX,undone⟩ := after
          replace keptX : Kept img all dirs (p ::ₘ held) x := keptX
          rw [wp_bind]
          refine wp_mono (kfree_spec keptX) fun _ t freed => Or.inr ⟨rfl, undone.keep (keptX.same_user here ?_)⟩
          exact fun q away => freed.2.2 q fun eq => away (eq ▸ Multiset.mem_add.mpr (Or.inl (Multiset.mem_cons_self q held)))
    · rw [if_neg more, done more]
      exact Or.inl ⟨rfl,growing⟩
end Growing

section Sizes
variable {E : Panic → Prop} {sz : Nat} {k : Int}

/-- There are not as many pages as user memory could have. -/
theorem Exactly.small (kept : Kept img all dirs held s) (here : dir ∈ dirs) (exactly : Exactly s.words dir sz) : sz ≤ PHYSTOP := by
  by_contra more
  have mapped : ∀ m < 57345, present (pte s.words dir m) = true := by
    intro m low
    refine (exactly m (Nat.lt_trans low (by decide))).mpr ?_
    unfold PHYSTOP at more
    unfold pgroundup PGSIZE
    omega
  have inside : ∀ m ∈ Finset.range 57345, frame (pte s.words dir m) ∈ Finset.range 57344 := by
    intro m member
    have low := Finset.mem_range.mp member
    have valid := (kept.valid _ (kept.ex.all_held (own_user here (Nat.lt_trans low (by decide)) (mapped m low)))).2
    unfold page2pa PGSIZE PHYSTOP at valid
    rw [Finset.mem_range]
    omega
  have fewer : (Finset.range 57344).card < (Finset.range 57345).card := by
    rw [Finset.card_range, Finset.card_range]
    decide
  obtain ⟨m,memberM,n,memberN,other,same⟩ := Finset.exists_ne_map_eq_of_card_lt_of_maps_to fewer inside
  have lowM := Finset.mem_range.mp memberM
  have lowN := Finset.mem_range.mp memberN
  have left := own_user here (Nat.lt_trans lowM (by decide)) (mapped m lowM)
  rw [same] at left
  have right := own_user here (Nat.lt_trans lowN (by decide)) (mapped n lowN)
  exact other (congrArg Fin.val (Role.user.inj (kept.ex.single _ _ _ left right)).2)

/-- The size in pages. -/
theorem exactly_iff (dir sz : Nat) : Exactly s.words dir sz ↔
    ∀ m < userPages, present (pte s.words dir m) = true ↔ m < pgroundup sz / PGSIZE := by
  have pages : ∀ m, m * PGSIZE < pgroundup sz ↔ m < pgroundup sz / PGSIZE := by
    intro m
    unfold pgroundup PGSIZE
    omega
  unfold Exactly
  simp only [pages]

theorem Growing.start (mapped : Exactly s.words dir sz) :
    Growing dir (pgroundup sz / PGSIZE) (pgroundup sz / PGSIZE) s s := by
  refine ⟨fun m small _ => ⟨rfl, fun _ => ⟨rfl,rfl⟩⟩, fun m _ above below => absurd below (Nat.not_lt.mpr above), fun m small above _ => ?_⟩
  exact Bool.eq_false_iff.mpr fun set => absurd (((exactly_iff dir sz).mp mapped m small).mp set) (Nat.not_lt.mpr above)

/-- Nothing was added. -/
theorem Growing.unchanged (mapped : Exactly s.words dir sz)
    (growing : Growing dir (pgroundup sz / PGSIZE) (pgroundup sz / PGSIZE) s t) : Unchanged dir s t := by
  intro m small
  by_cases below : m < pgroundup sz / PGSIZE
  · obtain ⟨entry,content⟩ := growing.below m small below
    exact ⟨by rw [entry], content⟩
  · have above := Nat.not_lt.mp below
    have before := (Growing.start mapped).above m small above above
    exact ⟨(growing.above m small above above).trans before.symm, fun set => nomatch before.symm.trans set⟩

/-- Everything was added. -/
theorem Growing.grown {newsz : Nat} (more : sz ≤ newsz) (mapped : Exactly s.words dir sz)
    (growing : Growing dir (pgroundup sz / PGSIZE) (pgroundup newsz / PGSIZE) s t) : Grown dir sz newsz s t := by
  have before := (exactly_iff dir sz).mp mapped
  have ordered : pgroundup sz / PGSIZE ≤ pgroundup newsz / PGSIZE := by
    unfold pgroundup PGSIZE
    omega
  refine ⟨(exactly_iff dir newsz).mpr fun m small => ?_, fun m small below => ?_, fun m small above below => ?_⟩
  · by_cases old : m < pgroundup sz / PGSIZE
    · rw [(growing.below m small old).1, before m small]
      exact ⟨fun less => Nat.lt_of_lt_of_le less ordered, fun _ => old⟩
    · by_cases new : m < pgroundup newsz / PGSIZE
      · exact ⟨fun _ => new, fun _ => (growing.fresh m small (Nat.not_lt.mp old) new).1⟩
      · rw [growing.above m small (Nat.not_lt.mp old) (Nat.not_lt.mp new)]
        exact ⟨fun no => (nomatch no), fun less => absurd less new⟩
  · have old : m < pgroundup sz / PGSIZE := by
      unfold pgroundup
      unfold PGSIZE at *
      omega
    exact (growing.below m small old).2 ((before m small).mpr old)
  · refine (growing.fresh m small ?_ ?_).2
    · unfold pgroundup at above ⊢
      unfold PGSIZE at *
      omega
    · unfold pgroundup at below ⊢
      unfold PGSIZE at *
      omega

/-- `allocuvm` from `sz` to a size that is not less. -/
theorem allocuvm_grows {newsz : Nat} (kept : Kept img all dirs held s) (here : dir ∈ dirs) (more : sz ≤ newsz)
    (mapped : Exactly s.words dir sz) :
    wp E (allocuvm img dir sz newsz) s fun result t =>
      (result = newsz ∧ Grown dir sz newsz s t) ∨ (result = 0 ∧ Unchanged dir s t) := by
  have start := Growing.start mapped
  unfold allocuvm
  rw [wp_ite]
  split
  · exact Or.inr ⟨rfl, start.unchanged mapped⟩
  · rename_i user
    rw [wp_ite, if_neg (Nat.not_lt.mpr more), roundup_page sz]
    have last : pgroundup sz / PGSIZE ≤ pgroundup newsz / PGSIZE := by
      unfold pgroundup PGSIZE
      omega
    have enough : newsz ≤ (pgroundup sz / PGSIZE + (newsz / PGSIZE + 1)) * PGSIZE := by
      unfold pgroundup PGSIZE
      omega
    refine wp_mono (allocLoop_grows (Nat.not_le.mp user) _ kept here (Nat.le_refl _) last enough start) fun result t after => ?_
    rcases after with ⟨rfl,growing⟩ | ⟨rfl,growing⟩
    · exact Or.inl ⟨rfl, growing.grown more mapped⟩
    · exact Or.inr ⟨rfl, growing.unchanged mapped⟩

/-- `deallocuvm` to a size that is not more. -/
theorem Unmapped.grown {newsz : Nat} (less : newsz ≤ sz) (mapped : Exactly s.words dir sz)
    (gone : Unmapped dir (pgroundup newsz / PGSIZE) sz s t) : Grown dir sz newsz s t := by
  have before := (exactly_iff dir sz).mp mapped
  have ordered : pgroundup newsz / PGSIZE ≤ pgroundup sz / PGSIZE := by
    unfold pgroundup PGSIZE
    omega
  refine ⟨(exactly_iff dir newsz).mpr fun m small => ?_, fun m small below => ?_, fun m small above below => ?_⟩
  · have low : m < 2 ^ 20 := Nat.lt_trans small (by decide)
    by_cases kept : m < pgroundup newsz / PGSIZE
    · rw [gone.outside m low (Or.inl kept), before m small]
      exact ⟨fun _ => kept, fun below => Nat.lt_of_lt_of_le below ordered⟩
    · by_cases inside : m * PGSIZE < sz
      · rw [gone.inside m low (Nat.not_lt.mp kept) inside]
        exact ⟨fun no => (nomatch no), fun below => absurd below kept⟩
      · rw [gone.outside m low (Or.inr (Nat.not_lt.mp inside)), before m small]
        refine ⟨fun below => absurd below ?_, fun below => absurd below kept⟩
        unfold pgroundup
        unfold PGSIZE at *
        omega
  · have kept : m < pgroundup newsz / PGSIZE := by
      unfold pgroundup
      unfold PGSIZE at *
      omega
    have set := (before m small).mpr (Nat.lt_of_lt_of_le kept ordered)
    exact ⟨gone.outside m (Nat.lt_trans small (by decide)) (Or.inl kept), gone.data m small (Or.inl kept) set⟩
  · unfold pgroundup at above below
    unfold PGSIZE at *
    omega

theorem uint32_of_nat {m : Nat} (value : k = m) (small : m < 2 ^ 32) : uint32 k = m := by
  unfold uint32
  omega

theorem growproc_more (kept : Kept img all dirs held s) (here : dir ∈ dirs) (mapped : Exactly s.words dir sz)
    (positive : 0 < k) (high : k < 2 ^ 31) : GrowsRight img dir sz k s := by
  obtain ⟨m,rfl⟩ : ∃ m : Nat, k = m := ⟨k.toNat, by omega⟩
  have small := mapped.small kept here
  have new : uint32 (sz + m) = sz + m := uint32_of_nat (by push_cast; rfl) (by unfold PHYSTOP at small; omega)
  have run : wp (fun _ => False) (growproc img dir sz m) s fun result t =>
      (result.1 = 0 ∧ (result.2 : Int) = sz + m ∧ Grown dir sz result.2 s t) ∨ (result.1 = -1 ∧ result.2 = sz ∧ Unchanged dir s t) := by
    unfold growproc
    rw [wp_ite, if_pos positive, wp_bind, new]
    refine wp_mono (allocuvm_grows kept here (Nat.le_add_right sz m) mapped) fun result t after => ?_
    rw [wp_ite]
    rcases after with ⟨rfl,grown⟩ | ⟨rfl,same⟩
    · rw [if_neg (by omega)]
      exact Or.inl ⟨rfl, by push_cast; rfl, grown⟩
    · rw [if_pos rfl]
      exact Or.inr ⟨rfl,rfl,same⟩
  obtain ⟨⟨code,size⟩,t,ends,after⟩ := wp_total run
  exact ⟨code, size, t, ends, after⟩

/-- Every page is gone, and the size 0 that `deallocuvm` returns is taken for a failure. -/
theorem growproc_none (kept : Kept img all dirs held s) (here : dir ∈ dirs) (mapped : Exactly s.words dir sz)
    (some : 0 < sz) : ¬ GrowsRight img dir sz (-sz) s := by
  rintro ⟨code,new,t,ends,right⟩
  have user : sz ≤ KERNBASE := Nat.le_trans (mapped.small kept here) (by decide)
  have run : wp (fun _ => False) (growproc img dir sz (-sz)) s fun result t =>
      result.1 = -1 ∧ present (pte t.words dir 0) = false := by
    unfold growproc
    rw [wp_ite, if_neg (by omega), wp_ite, if_pos (by omega), wp_bind, uint32_of_nat (m := 0) (by omega) (by decide)]
    refine wp_mono (deallocuvm_unmaps user some kept here) fun result t ⟨zero,_,_,gone⟩ => ?_
    rw [zero, wp_ite, if_pos rfl]
    exact ⟨rfl, gone.inside 0 (by decide) (Nat.zero_le _) (by omega)⟩
  obtain ⟨failed,absent⟩ := wp_ok run ends
  rcases right with ⟨fine,_⟩ | ⟨_,_,same⟩
  · exact absurd (failed.symm.trans fine) (by decide)
  · have before : present (pte s.words dir 0) = true := (mapped 0 (by decide)).mpr (by unfold pgroundup PGSIZE; omega)
    rw [← (same 0 (by decide)).1, absent] at before
    exact nomatch before

/-- `sz + n` is less than 0, in a `uint` more than `sz`, and `deallocuvm` does nothing. -/
theorem growproc_below (small : sz ≤ PHYSTOP) (low : -2 ^ 31 ≤ k) (below : sz + k < 0) :
    growproc img dir sz k s = .ok ((if sz = 0 then -1 else 0, sz), s) := by
  have wraps : uint32 (sz + k) ≥ sz := by
    unfold PHYSTOP at small
    unfold uint32
    omega
  unfold growproc deallocuvm
  rw [if_neg (by omega), if_pos (by omega), if_pos wraps]
  by_cases none : sz = 0
  · subst none
    rfl
  · rw [if_neg none]
    change (if sz = 0 then pure (-1, sz) else pure (0, sz) : M (Int × Nat)) s = _
    rw [if_neg none]
    rfl

theorem growproc_less (kept : Kept img all dirs held s) (here : dir ∈ dirs) (mapped : Exactly s.words dir sz)
    (negative : k < 0) (rest : 0 < sz + k) : GrowsRight img dir sz k s := by
  obtain ⟨m,value⟩ : ∃ m : Nat, sz + k = m := ⟨(sz + k).toNat, by omega⟩
  have small := mapped.small kept here
  have user : sz ≤ KERNBASE := Nat.le_trans small (by decide)
  have run : wp (fun _ => False) (growproc img dir sz k) s fun result t =>
      result = (0, m) ∧ Grown dir sz m s t := by
    unfold growproc
    rw [wp_ite, if_neg (by omega), wp_ite, if_pos negative, wp_bind, uint32_of_nat value (by unfold PHYSTOP at small; omega)]
    refine wp_mono (deallocuvm_unmaps user (by omega) kept here) fun result t ⟨same,_,_,gone⟩ => ?_
    rw [same, wp_ite, if_neg (by omega)]
    exact ⟨rfl, gone.grown (by omega) mapped⟩
  obtain ⟨_,t,ends,rfl,grown⟩ := wp_total run
  exact ⟨0, m, t, ends, Or.inl ⟨rfl, value.symm, grown⟩⟩

/-- It goes wrong when nothing or less than nothing is to be left of some memory. -/
theorem growproc_right_iff (kept : Kept img all dirs held s) (here : dir ∈ dirs) (mapped : Exactly s.words dir sz)
    (low : -2 ^ 31 ≤ k) (high : k < 2 ^ 31) : GrowsRight img dir sz k s ↔ sz = 0 ∨ 0 < sz + k := by
  have small := mapped.small kept here
  rcases lt_trichotomy k 0 with negative | rfl | positive
  · rcases lt_trichotomy (sz + k : Int) 0 with below | zero | rest
    · have ends : growproc img dir sz k s = .ok ((if sz = 0 then -1 else 0, sz), s) := growproc_below small low below
      constructor
      · rintro ⟨code,new,t,run,right⟩
        rw [ends] at run
        injection run with same
        injection same with result
        injection result with isCode isNew
        subst isNew
        by_cases none : sz = 0
        · exact Or.inl none
        · rw [if_neg none] at isCode
          omega
      · rintro (none | rest)
        · rw [if_pos none] at ends
          exact ⟨-1, sz, s, ends, Or.inr ⟨rfl, rfl, fun m _ => ⟨rfl, fun _ => ⟨rfl,rfl⟩⟩⟩⟩
        · omega
    · obtain rfl : k = -sz := by omega
      refine ⟨fun right => absurd right (growproc_none kept here mapped (by omega)), fun fine => ?_⟩
      omega
    · exact ⟨fun _ => Or.inr rest, fun _ => growproc_less kept here mapped negative rest⟩
  · refine ⟨fun _ => by omega, fun _ => ⟨0, sz, s, rfl, Or.inl ⟨rfl, by omega, ?_⟩⟩⟩
    exact (Growing.start mapped).grown (Nat.le_refl sz) mapped
  · exact ⟨fun _ => Or.inr (by omega), fun _ => growproc_more kept here mapped positive high⟩

end Sizes

section OnePage

/-- A directory, its page table and a page of user memory. -/
def onePage : Mem where
  freelist := []
  words := fun p i =>
    if p = 1000 ∧ i = 0 then page2pa 1001 ||| PTE_P ||| PTE_W ||| PTE_U
    else if p = 1001 ∧ i = 0 then page2pa 1002 ||| (PTE_W ||| PTE_U) ||| PTE_P
    else 0
  deny := fun _ => false

theorem onePage_pte (n : Nat) : pte onePage.words 1000 n = if n = 0 then page2pa 1002 ||| (PTE_W ||| PTE_U) ||| PTE_P else 0 := by
  by_cases first : n / 1024 = 0
  · have table : pte onePage.words 1000 n = onePage.words 1001 (n % 1024) := by
      unfold pte
      rw [first]
      rfl
    rw [table]
    unfold onePage
    dsimp only
    rw [if_neg (by omega)]
    by_cases zero : n = 0
    · rw [if_pos (by omega), if_pos zero]
    · rw [if_neg (by omega), if_neg zero]
  · have unset : onePage.words 1000 (n / 1024) = 0 := by
      unfold onePage
      dsimp only
      rw [if_neg (by omega), if_neg (by omega)]
    unfold pte
    rw [unset, if_neg (by decide), if_neg (by omega)]

theorem onePage_table (d : Nat) : onePage.words 1000 d = if d = 0 then page2pa 1001 ||| PTE_P ||| PTE_W ||| PTE_U else 0 := by
  unfold onePage
  simp

/-- The page in a role of the only address space. -/
theorem onePage_own {r : Role} {p : Nat} : own onePage.words [1000] r = some p ↔
    (r = .directory 1000 ∧ p = 1000) ∨ (r = .table 1000 ⟨0, by decide⟩ ∧ p = 1001) ∨ (r = .user 1000 ⟨0, by decide⟩ ∧ p = 1002) := by
  by_cases here : r.dir = 1000
  · rw [own_of_mem (by rw [here]; exact List.mem_cons_self)]
    cases r with
    | directory dir =>
      obtain rfl : dir = 1000 := here
      simp [page, eq_comm]
    | table dir d =>
      obtain rfl : dir = 1000 := here
      rw [page, onePage_table]
      by_cases zero : d.val = 0
      · rw [if_pos zero, entryPage_table]
        simp [Fin.ext_iff, zero, eq_comm]
      · rw [if_neg zero, entryPage_zero]
        simp [Fin.ext_iff, zero]
    | user dir n =>
      obtain rfl : dir = 1000 := here
      rw [page, onePage_pte]
      by_cases zero : n.val = 0
      · rw [if_pos zero, entryPage_flags 1002 (by decide)]
        simp [Fin.ext_iff, zero, eq_comm]
      · rw [if_neg zero, entryPage_zero]
        simp [Fin.ext_iff, zero]
  · rw [own_outside (by rwa [List.mem_singleton])]
    constructor
    · exact fun none => nomatch none
    · rintro (⟨rfl,_⟩ | ⟨rfl,_⟩ | ⟨rfl,_⟩) <;> exact absurd rfl here

theorem onePage_kept : Kept smallImage (fun p => p = 1000 ∨ p = 1001 ∨ p = 1002) [1000] 0 onePage := by
  have empty : (0 : Multiset Nat) + onePage.freelist = 0 := rfl
  refine ⟨⟨?_, ?_, ?_, fun p => ⟨fun inside => Or.inr ?_, ?_⟩⟩, ?_⟩
  · rw [empty]
    exact Multiset.nodup_zero
  · rw [empty]
    exact fun r p _ => Multiset.notMem_zero p
  · intro r r' p left right
    rcases onePage_own.mp left with ⟨rfl,rfl⟩ | ⟨rfl,rfl⟩ | ⟨rfl,rfl⟩ <;>
      rcases onePage_own.mp right with ⟨rfl,same⟩ | ⟨rfl,same⟩ | ⟨rfl,same⟩ <;> first | rfl | exact absurd same (by decide)
  · rcases inside with rfl | rfl | rfl
    · exact ⟨_, onePage_own.mpr (Or.inl ⟨rfl,rfl⟩)⟩
    · exact ⟨_, onePage_own.mpr (Or.inr (Or.inl ⟨rfl,rfl⟩))⟩
    · exact ⟨_, onePage_own.mpr (Or.inr (Or.inr ⟨rfl,rfl⟩))⟩
  · rintro (free | ⟨r,role⟩)
    · rw [empty] at free
      exact absurd free (Multiset.notMem_zero p)
    · rcases onePage_own.mp role with ⟨_,same⟩ | ⟨_,same⟩ | ⟨_,same⟩
      · exact Or.inl same
      · exact Or.inr (Or.inl same)
      · exact Or.inr (Or.inr same)
  · rintro p (rfl | rfl | rfl) <;> decide

theorem onePage_exactly : Exactly onePage.words 1000 PGSIZE := by
  intro m _
  rw [onePage_pte]
  by_cases zero : m = 0
  · rw [if_pos zero, zero]
    decide
  · rw [if_neg zero]
    refine ⟨fun no => (nomatch no), fun below => ?_⟩
    unfold pgroundup PGSIZE at below
    omega

/-- Giving back the only page fails after it is gone; giving back two is reported as done. -/
theorem growproc_negative : Kept smallImage (fun p => p = 1000 ∨ p = 1001 ∨ p = 1002) [1000] 0 onePage ∧
    Exactly onePage.words 1000 PGSIZE ∧ ¬ GrowsRight smallImage 1000 PGSIZE (-4096) onePage ∧
    growproc smallImage 1000 PGSIZE (-8192) onePage = .ok ((0, PGSIZE), onePage) :=
  ⟨onePage_kept, onePage_exactly, growproc_none onePage_kept List.mem_cons_self onePage_exactly (by decide),
    growproc_below (by decide) (by decide) (by decide)⟩

theorem growproc_right_iff_onePage : GrowsRight smallImage 1000 PGSIZE (-4095) onePage ↔ PGSIZE = 0 ∨ (0 : Int) < PGSIZE + -4095 :=
  growproc_right_iff onePage_kept List.mem_cons_self onePage_exactly (by decide) (by decide)

end OnePage
end Xv6Vm
