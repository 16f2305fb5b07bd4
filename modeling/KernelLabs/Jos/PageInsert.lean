import KernelLabs.Jos.Ledger

/-!
`page_insert` and `page_remove` (lab-3 `kern/pmap.c`) against the books: what they leave at
`va`, at every other page of the address space, and in `pp_ref`. The window at `UVPT` shows the
page tables themselves, so a new table is seen there.
-/
namespace JosPmap
open LinkedList Counting

def PTE_AVAIL : Nat := 0xE00

/-- Permissions drawn from `PTE_W`, `PTE_U` and `PTE_AVAIL`. -/
def UserPerm (perm : Nat) : Prop := perm &&& (PTE_W ||| PTE_U ||| PTE_AVAIL) = perm

instance (perm : Nat) : Decidable (UserPerm perm) := inferInstanceAs (Decidable (_ = _))

theorem UserPerm.low {perm : Nat} (flags : UserPerm perm) : perm < PGSIZE := by
  rw [← flags]
  exact Nat.lt_of_le_of_lt Nat.and_le_right (by decide)

theorem UserPerm.small {perm : Nat} (flags : UserPerm perm) : perm &&& PTE_PS = 0 := by
  rw [← flags, Nat.and_assoc, show (PTE_W ||| PTE_U ||| PTE_AVAIL) &&& PTE_PS = 0 by decide, Nat.and_zero]

section Remove
variable {pgdir va : Nat} {base : Nat → Nat} {held : Option Nat} {s : Kernel}

theorem user_top (user : va < UTOP) : va < 2 ^ 32 := Nat.lt_trans user (by decide)

theorem user_away (user : va < UTOP) : pdx va ≠ pdx UVPT := (user_slot_lt (pdx_lt_user va user)).2

theorem load_entryLoc {n : Nat} (here : present (pde s pgdir (n / NPTENTRIES)) = true) :
    s.load (entryLoc s pgdir n) = pte s pgdir n := by
  rw [pte, if_pos here]
  rfl

theorem pageLookup_mapped (wf : Hooked pgdir s) (user : va < UTOP)
    (here : present (pde s pgdir (pdx va)) = true) (mapped : present (pte s pgdir (pgnum va)) = true)
    (small : frame (pte s pgdir (pgnum va)) < s.npages) :
    pageLookup s pgdir va = .ok (some (frame (pte s pgdir (pgnum va)), entryLoc s pgdir (pgnum va)), s) := by
  have slot : present (pde s pgdir (pgnum va / NPTENTRIES)) = true := by rwa [pgnum_div_eq_pdx va user]
  have page : pa2page s (pteAddr (pte s pgdir (pgnum va))) = .ok (frame (pte s pgdir (pgnum va))) := by
    simp only [pa2page]
    rw [if_neg (by simp only [frame] at small; omega)]
    rfl
  simp only [pageLookup, walk_found wf (user_top user) (user_away user) here]
  change (if present (s.load (entryLoc s pgdir (pgnum va))) = true then _ else _) = _
  rw [load_entryLoc slot, if_pos mapped, page]
  rfl

theorem pageLookup_vacant (wf : Hooked pgdir s) (user : va < UTOP)
    (vacant : present (pte s pgdir (pgnum va)) = false) : pageLookup s pgdir va = .ok (none, s) := by
  by_cases here : present (pde s pgdir (pdx va)) = true
  · have slot : present (pde s pgdir (pgnum va / NPTENTRIES)) = true := by rwa [pgnum_div_eq_pdx va user]
    simp only [pageLookup, walk_found wf (user_top user) (user_away user) here]
    change (if present (s.load (entryLoc s pgdir (pgnum va))) = true then _ else _) = _
    rw [load_entryLoc slot, vacant]
    rfl
  · rw [Bool.not_eq_true] at here
    simp only [pageLookup, pgdirWalk_absent here]
    rfl

theorem slot_of_mapped {n : Nat} (mapped : present (pte s pgdir n) = true) :
    present (pde s pgdir (n / NPTENTRIES)) = true := by
  by_contra absent
  rw [Bool.not_eq_true] at absent
  rw [pte_absent absent, not_present_zero] at mapped
  cases mapped

/-- The state after `page_remove`. -/
def removed (s : Kernel) (pgdir va : Nat) : Kernel :=
  if present (pte s pgdir (pgnum va)) = true then cleared s pgdir va else s

theorem pageRemove_removed (led : Ledger pgdir base held s) (user : va < UTOP) :
    pageRemove s pgdir va = .ok (removed s pgdir va) := by
  rw [removed]
  split
  · rename_i mapped
    have inside := pgnum_lt_user va user
    have here := slot_of_mapped mapped
    rw [pgnum_div_eq_pdx va user] at here
    have small := led.frames _ inside mapped
    have drop := pageDecref_release (led.unlinked _ small (led.mapped_taken inside mapped))
    simp only [pageRemove, pageLookup_mapped led.hooked user here mapped small]
    change (pageDecref s (frame (pte s pgdir (pgnum va))) >>= _) = _
    rw [drop]
    rfl
  · rename_i vacant
    rw [Bool.not_eq_true] at vacant
    simp only [pageRemove, pageLookup_vacant led.hooked user vacant]
    rfl

theorem Ledger.removed (led : Ledger pgdir base held s) (user : va < UTOP) :
    Ledger pgdir base held (removed s pgdir va) := by
  rw [JosPmap.removed]
  split
  · rename_i mapped
    exact led.cleared user (slot_of_mapped mapped) mapped
  · exact led

theorem pde_removed (wf : Hooked pgdir s) (user : va < UTOP) (d : Nat) :
    pde (removed s pgdir va) pgdir d = pde s pgdir d := by
  rw [removed]
  split
  · rename_i mapped
    exact pde_cleared wf user (slot_of_mapped mapped) d
  · rfl

theorem pte_removed (wf : Hooked pgdir s) (user : va < UTOP) {m : Nat} (plain : Plain m) (other : m ≠ pgnum va) :
    pte (removed s pgdir va) pgdir m = pte s pgdir m := by
  rw [removed]
  split
  · rename_i mapped
    rw [pte_cleared wf user (slot_of_mapped mapped) plain, if_neg other]
  · rfl

theorem removed_vacant (wf : Hooked pgdir s) (user : va < UTOP) :
    present (pte (removed s pgdir va) pgdir (pgnum va)) = false := by
  rw [removed]
  split
  · rename_i mapped
    rw [pte_cleared wf user (slot_of_mapped mapped) (plain_of_user (pgnum_lt_user va user)), if_pos rfl, not_present_zero]
  · rename_i vacant
    rwa [Bool.not_eq_true] at vacant

theorem Ledger.ref_removed (led : Ledger pgdir base held s) (user : va < UTOP) (q : Nat) :
    (JosPmap.removed s pgdir va).ref q + (if MapsTo s pgdir q (pgnum va) then 1 else 0) = s.ref q := by
  rw [JosPmap.removed]
  split
  · rename_i mapped
    exact led.ref_cleared_eq user mapped q
  · rename_i vacant
    rw [if_neg fun maps => vacant maps.1]
    rfl

theorem npages_removed : (removed s pgdir va).npages = s.npages := by
  rw [removed]
  split
  · exact npages_cleared
  · rfl

end Remove
section Rights
variable {pgdir n : Nat} {s t : Kernel}

theorem user_bit (word : Nat) : (word &&& PTE_U != 0) = word.testBit 2 := by
  rw [show PTE_U = 2 ^ 2 from rfl, Nat.and_two_pow]
  cases word.testBit 2 <;> rfl

theorem write_bit (word : Nat) : (word &&& PTE_W != 0) = word.testBit 1 := by
  rw [show PTE_W = 2 ^ 1 from rfl, Nat.and_two_pow]
  cases word.testBit 1 <;> rfl

theorem page2pa_bit (p : Nat) {k : Nat} (low : k < 12) : (page2pa p).testBit k = false := by
  rw [page2pa, PGSIZE, Nat.mul_comm, show 4096 = 2 ^ 12 from rfl, Nat.testBit_two_pow_mul]
  simp [Nat.not_le.mpr low]

theorem user_entry_bits (p perm word : Nat) {k : Nat} (low : k < 12) (other : k ≠ 0) :
    ((word ||| perm) &&& (page2pa p ||| perm ||| PTE_P)).testBit k = perm.testBit k := by
  have one : PTE_P.testBit k = false := by
    rw [PTE_P, ← Nat.pow_zero 2, Nat.testBit_two_pow_of_ne (Ne.symm other)]
  rw [Nat.testBit_and, Nat.testBit_or, Nat.testBit_or, Nat.testBit_or, page2pa_bit p low, one]
  cases perm.testBit k <;> simp

/-- Both levels grant what `perm` grants. -/
theorem translate_inserted {p perm word : Nat} (low : perm < PGSIZE)
    (dir : pde t pgdir (n / NPTENTRIES) = word ||| perm) (entry : pte t pgdir n = page2pa p ||| perm ||| PTE_P) :
    translate t pgdir n = some (p, perm &&& PTE_U != 0, perm &&& PTE_W != 0) := by
  unfold translate
  rw [dir, entry]
  dsimp only
  rw [if_pos (present_user_entry _ _), frame_user_entry p perm low]
  simp only [user_bit, write_bit]
  rw [user_entry_bits p perm word (by decide) (by decide), user_entry_bits p perm word (by decide) (by decide)]

/-- Adding to an entry that is open already grants nothing more below it. -/
theorem translate_widened {perm : Nat} (wide : Open (pde s pgdir (n / NPTENTRIES)))
    (dir : pde t pgdir (n / NPTENTRIES) = pde s pgdir (n / NPTENTRIES) ||| perm)
    (entry : pte t pgdir n = pte s pgdir n) : translate t pgdir n = translate s pgdir n := by
  unfold translate
  rw [dir, entry]
  simp only [user_bit, write_bit, Nat.testBit_and, Nat.testBit_or, wide.1, wide.2, Bool.true_or]

/-- The same where the window shows the entry. -/
theorem translate_widened_entry {perm : Nat} (low : perm < PGSIZE) (here : present (pte s pgdir n) = true)
    (wide : Open (pte s pgdir n)) (dir : pde t pgdir (n / NPTENTRIES) = pde s pgdir (n / NPTENTRIES))
    (entry : pte t pgdir n = pte s pgdir n ||| perm) : translate t pgdir n = translate s pgdir n := by
  unfold translate
  rw [dir, entry, frame_or_flags _ _ low, present_or _ _ here, here]
  simp only [user_bit, write_bit, Nat.testBit_and, Nat.testBit_or, wide.1, wide.2, Bool.true_or]

end Rights
section Insert
variable {pgdir pp va perm : Nat} {base : Nat → Nat} {s u : Kernel}

/-- The entry of `va` vacated, with the count of `pp` raised before. -/
def vacated (u : Kernel) (pgdir pp va : Nat) : Kernel := removed (u.setRef pp (u.ref pp + 1)) pgdir va

/-- The state after `page_insert`, from the state in which `pgdir_walk` returned the entry. -/
def inserted (u : Kernel) (pgdir pp va perm : Nat) : Kernel :=
  let v := vacated u pgdir pp va
  permitted (v.store (entryLoc v pgdir (pgnum va)) (page2pa pp ||| perm ||| PTE_P)) pgdir (pdx va) perm

theorem Ledger.vacated (led : Ledger pgdir base none u) (user : va < UTOP) (taken : ¬ OnFreeList u pp)
    (few : u.ref pp < 65535) : Ledger pgdir base (some pp) (vacated u pgdir pp va) :=
  (led.hold taken few).removed user

theorem pde_vacated (led : Ledger pgdir base none u) (user : va < UTOP) (taken : ¬ OnFreeList u pp)
    (few : u.ref pp < 65535) (d : Nat) : pde (vacated u pgdir pp va) pgdir d = pde u pgdir d :=
  pde_removed (led.hold taken few).hooked user d

theorem pte_vacated (led : Ledger pgdir base none u) (user : va < UTOP) (taken : ¬ OnFreeList u pp)
    (few : u.ref pp < 65535) {n : Nat} (plain : Plain n) (other : n ≠ pgnum va) :
    pte (vacated u pgdir pp va) pgdir n = pte u pgdir n :=
  pte_removed (led.hold taken few).hooked user plain other

theorem ref_vacated (led : Ledger pgdir base none u) (user : va < UTOP) (taken : ¬ OnFreeList u pp)
    (few : u.ref pp < 65535) (q : Nat) :
    (vacated u pgdir pp va).ref q + (if MapsTo u pgdir q (pgnum va) then 1 else 0) = u.ref q + if q = pp then 1 else 0 := by
  have lower : (vacated u pgdir pp va).ref q + (if MapsTo u pgdir q (pgnum va) then 1 else 0) =
      (u.setRef pp (u.ref pp + 1)).ref q := (led.hold taken few).ref_removed user q
  rw [lower, ref_setRef]
  by_cases same : q = pp
  · rw [same, Function.update_self, if_pos rfl]
    omega
  · rw [Function.update_of_ne same, if_neg same]
    rfl

/-- `page_insert` once `pgdir_walk` has returned an entry. -/
theorem pageInsert_inserted (led : Ledger pgdir base none u) (user : va < UTOP) (taken : ¬ OnFreeList u pp)
    (few : u.ref pp < 65535) (here : present (pde u pgdir (pdx va)) = true)
    (walk : pgdirWalk s pgdir va true = .ok (some (entryLoc u pgdir (pgnum va)), u)) :
    pageInsert s pgdir pp va perm = .ok (true, inserted u pgdir pp va perm) := by
  have held := led.hold taken few
  have slot : present (pde (u.setRef pp (u.ref pp + 1)) pgdir (pgnum va / NPTENTRIES)) = true := by
    rw [pgnum_div_eq_pdx va user]
    exact here
  have word : (u.setRef pp (u.ref pp + 1)).load (entryLoc u pgdir (pgnum va)) =
      pte (u.setRef pp (u.ref pp + 1)) pgdir (pgnum va) := load_entryLoc slot
  have vacate : (if present ((u.setRef pp (u.ref pp + 1)).load (entryLoc u pgdir (pgnum va))) = true then
      pageRemove (u.setRef pp (u.ref pp + 1)) pgdir va else .ok (u.setRef pp (u.ref pp + 1))) =
      .ok (vacated u pgdir pp va) := by
    rw [word, vacated]
    split
    · exact pageRemove_removed held user
    · rename_i vacant
      rw [removed, if_neg vacant]
  have loc : entryLoc u pgdir (pgnum va) = entryLoc (vacated u pgdir pp va) pgdir (pgnum va) := by
    simp only [entryLoc, pde_vacated led user taken few]
  simp only [pageInsert, walk]
  change ((if present ((u.setRef pp (u.ref pp + 1)).load (entryLoc u pgdir (pgnum va))) = true then
      pageRemove (u.setRef pp (u.ref pp + 1)) pgdir va else .ok (u.setRef pp (u.ref pp + 1))) >>= _) = _
  rw [vacate, loc]
  rfl

section Effects
variable (led : Ledger pgdir base none u) (user : va < UTOP) (small : pp < u.npages) (taken : ¬ OnFreeList u pp)
  (few : u.ref pp < 65535) (low : perm < PGSIZE) (here : present (pde u pgdir (pdx va)) = true)
include led user taken few here

theorem vacated_slot : present (pde (vacated u pgdir pp va) pgdir (pgnum va / NPTENTRIES)) = true := by
  rw [pgnum_div_eq_pdx va user, pde_vacated led user taken few]
  exact here

theorem pde_filled (word d : Nat) :
    pde ((vacated u pgdir pp va).store (entryLoc (vacated u pgdir pp va) pgdir (pgnum va)) word) pgdir d = pde u pgdir d := by
  rw [(led.vacated user taken few).hooked.pde_store (plain_of_user (pgnum_lt_user va user))
    (vacated_slot led user taken few here), pde_vacated led user taken few]

theorem filled_hooked (word : Nat) :
    Hooked pgdir ((vacated u pgdir pp va).store (entryLoc (vacated u pgdir pp va) pgdir (pgnum va)) word) :=
  (led.vacated user taken few).hooked.store (plain_of_user (pgnum_lt_user va user))
    (vacated_slot led user taken few here) word

theorem pde_inserted (d : Nat) :
    pde (inserted u pgdir pp va perm) pgdir d = if d = pdx va then pde u pgdir d ||| perm else pde u pgdir d := by
  rw [inserted, pde_permitted, pde_filled led user taken few here, pde_filled led user taken few here]
  split
  · rename_i same
    rw [same]
  · rfl

include low

theorem pte_inserted {n : Nat} (plain : Plain n) :
    pte (inserted u pgdir pp va perm) pgdir n = if n = pgnum va then page2pa pp ||| perm ||| PTE_P else pte u pgdir n := by
  have slot : present (pde ((vacated u pgdir pp va).store (entryLoc (vacated u pgdir pp va) pgdir (pgnum va))
      (page2pa pp ||| perm ||| PTE_P)) pgdir (pdx va)) = true := by
    rw [pde_filled led user taken few here]
    exact here
  rw [inserted, pte_permitted (filled_hooked led user taken few here _) slot low plain,
    (led.vacated user taken few).hooked.pte_store (plain_of_user (pgnum_lt_user va user))
      (vacated_slot led user taken few here) _ plain]
  split
  · rfl
  · rename_i other
    exact pte_vacated led user taken few plain other

include small

theorem Ledger.inserted : Ledger pgdir base none (inserted u pgdir pp va perm) := by
  have inside : pp < (JosPmap.vacated u pgdir pp va).npages := by
    rw [JosPmap.vacated, npages_removed]
    exact small
  have vacant := removed_vacant (led.hold taken few).hooked user
  refine ((led.vacated user taken few).fill inside (pgnum_lt_user va user) (vacated_slot led user taken few here) vacant
    (present_user_entry _ _) (frame_user_entry pp perm low)).permit ?_ low
  rw [pde_filled led user taken few here]
  exact here

end Effects
end Insert
section Whole
variable {pgdir pp va perm : Nat} {base : Nat → Nat} {s t : Kernel}

theorem Walked.off (wf : Hooked pgdir s) {d q : Nat} (walked : Walked s pgdir d t) (taken : ¬ OnFreeList s q) :
    ¬ OnFreeList t q := by
  cases walked with
  | found here => exact taken
  | made p absent head => exact fun on => taken ((on_withTable wf head q).mp on).1

theorem Walked.ref (led : Ledger pgdir base none s) {d : Nat} (walked : Walked s pgdir d t) (q : Nat) :
    t.ref q = s.ref q + if present (pde s pgdir d) = false ∧ s.pageFreeList = some q then 1 else 0 := by
  cases walked with
  | found here => simp [here]
  | made p absent head =>
    rw [ref_withTable, head]
    by_cases same : q = p
    · obtain ⟨nodes,chain,_⟩ := led.hooked.free
      have zero := led.idle p (head_on_chain chain head)
      rw [same, Function.update_self, zero, if_pos ⟨absent,rfl⟩]
      rfl
    · rw [Function.update_of_ne same, if_neg fun both => same (Option.some.inj both.2).symm]
      rfl

/-- What `page_insert` does when it returns 0: the page is mapped at `va` with just the permissions
    asked for; no other page is translated in another way, but for the page of the window at
    `UVPT` where a new table is seen; and the counts follow. -/
structure Inserted (s : Kernel) (pgdir pp va perm : Nat) (t : Kernel) : Prop where
  found : ∃ pte, pageLookup t pgdir va = .ok (some (pp, pte), t) ∧ flagBits (t.load pte) = perm ||| PTE_P
  rights : translate t pgdir (pgnum va) = some (pp, perm &&& PTE_U != 0, perm &&& PTE_W != 0)
  others : ∀ n, n < 2 ^ 20 → n ≠ pgnum va →
    (n = windowPage (pdx va) → present (pde s pgdir (pdx va)) = true) → translate t pgdir n = translate s pgdir n
  counts : ∀ q, t.ref q + (if MapsTo s pgdir q (pgnum va) then 1 else 0) =
    s.ref q + (if q = pp then 1 else 0) +
      if present (pde s pgdir (pdx va)) = false ∧ s.pageFreeList = some q then 1 else 0

section Success
variable (led : Ledger pgdir base none s) (user : va < UTOP) (small : pp < s.npages) (taken : ¬ OnFreeList s pp)
  (few : s.ref pp < 65535) (low : perm < PGSIZE) {u : Kernel} (walked : Walked s pgdir (pdx va) u)
include led taken few walked

theorem walked_few : u.ref pp < 65535 := by
  have same := walked.ref led pp
  rw [if_neg] at same
  · omega
  · rintro ⟨_,head⟩
    obtain ⟨nodes,chain,_⟩ := led.hooked.free
    exact taken (head_on_chain chain head)

include user

theorem inserted_counts (q : Nat) : (inserted u pgdir pp va perm).ref q + (if MapsTo s pgdir q (pgnum va) then 1 else 0) =
    s.ref q + (if q = pp then 1 else 0) +
      if present (pde s pgdir (pdx va)) = false ∧ s.pageFreeList = some q then 1 else 0 := by
  have ledU := led.walk (pdx_lt_user va user) walked
  have entry := walked.pte led.hooked (plain_of_user (pgnum_lt_user va user))
  have same : MapsTo s pgdir q (pgnum va) ↔ MapsTo u pgdir q (pgnum va) := by
    simp only [MapsTo, entry]
  have lower := ref_vacated ledU user (walked.off led.hooked taken) (walked_few led taken few walked) q
  have table := walked.ref led q
  have kept : (inserted u pgdir pp va perm).ref q = (vacated u pgdir pp va).ref q := rfl
  rw [kept, if_congr same rfl rfl, lower, table]
  omega

theorem inserted_slot (perm : Nat) : pde (inserted u pgdir pp va perm) pgdir (pdx va) = pde u pgdir (pdx va) ||| perm := by
  have ledU := led.walk (pdx_lt_user va user) walked
  rw [pde_inserted ledU user (walked.off led.hooked taken) (walked_few led taken few walked)
    (walked.here led.hooked), if_pos rfl]

theorem inserted_slots (perm : Nat) {e : Nat} (apart : e ≠ pdx va) :
    pde (inserted u pgdir pp va perm) pgdir e = pde s pgdir e := by
  have ledU := led.walk (pdx_lt_user va user) walked
  rw [pde_inserted ledU user (walked.off led.hooked taken) (walked_few led taken few walked)
    (walked.here led.hooked), if_neg apart, walked.pde_other led.hooked apart]

include low

theorem inserted_hooked : Hooked pgdir (inserted u pgdir pp va perm) := by
  have ledU := led.walk (pdx_lt_user va user) walked
  have takenU := walked.off led.hooked taken
  have fewU := walked_few led taken few walked
  have hereU := walked.here led.hooked
  refine permitted_hooked (filled_hooked ledU user takenU fewU hereU _) ?_ low
  rw [pde_filled ledU user takenU fewU hereU]
  exact hereU

theorem inserted_entries {n : Nat} (plain : Plain n) : pte (inserted u pgdir pp va perm) pgdir n =
    if n = pgnum va then page2pa pp ||| perm ||| PTE_P else pte s pgdir n := by
  have ledU := led.walk (pdx_lt_user va user) walked
  rw [pte_inserted ledU user (walked.off led.hooked taken) (walked_few led taken few walked) low
    (walked.here led.hooked) plain, walked.pte led.hooked plain]

/-- Outside the window both levels grant what they did. -/
theorem inserted_others_plain {n : Nat} (plain : Plain n) (other : n ≠ pgnum va) :
    translate (inserted u pgdir pp va perm) pgdir n = translate s pgdir n := by
  have same := inserted_entries led user taken few low walked plain
  rw [if_neg other] at same
  by_cases slot : n / NPTENTRIES = pdx va
  · by_cases here : present (pde s pgdir (pdx va)) = true
    · have dir := inserted_slot led user taken few walked perm
      rw [walked.same here] at dir same ⊢
      rw [← slot] at dir here
      exact translate_widened (led.user_tables _ (slot ▸ pdx_lt_user va user) here) dir same
    · rw [Bool.not_eq_true] at here
      have zero : pte s pgdir n = 0 := pte_absent (by rw [slot]; exact here)
      rw [translate_absent (by rw [same, zero, not_present_zero]), translate_absent (by rw [zero, not_present_zero])]
  · exact translate_congr (inserted_slots led user taken few walked perm slot) same

/-- The window shows the directory: only a slot that was empty can look different. -/
theorem inserted_others_window {n : Nat} (window : n / NPTENTRIES = pdx UVPT)
    (seen : n = windowPage (pdx va) → present (pde s pgdir (pdx va)) = true) :
    translate (inserted u pgdir pp va perm) pgdir n = translate s pgdir n := by
  have wf := led.hooked
  have slot : pde (inserted u pgdir pp va perm) pgdir (n / NPTENTRIES) = pde s pgdir (n / NPTENTRIES) := by
    rw [window]
    exact inserted_slots led user taken few walked perm (Ne.symm (user_away user))
  by_cases self : present (pde s pgdir (pdx UVPT)) = true
  · have selfT : present (pde (inserted u pgdir pp va perm) pgdir (pdx UVPT)) = true := by
      rw [← window] at self ⊢
      rw [slot]
      exact self
    have after := (inserted_hooked led user taken few low walked).pte_window selfT window
    have before := wf.pte_window self window
    by_cases table : n % NPTENTRIES = pdx va
    · have number : n = windowPage (pdx va) := by
        rw [windowPage, ← window, ← table]
        exact (Nat.div_add_mod' n NPTENTRIES).symm
      have here := seen number
      have wide := led.user_tables _ (pdx_lt_user va user) here
      have dir := inserted_slot led user taken few walked perm
      rw [walked.same here] at dir after slot ⊢
      rw [table] at after before
      rw [dir, ← before] at after
      rw [← before] at here wide
      exact translate_widened_entry low here wide slot after
    · refine translate_congr slot ?_
      rw [after, before, inserted_slots led user taken few walked perm table]
  · rw [Bool.not_eq_true, ← window] at self
    rw [translate_absent (by rw [pte_absent (by rw [slot]; exact self), not_present_zero]),
      translate_absent (by rw [pte_absent self, not_present_zero])]

include small

/-- Everything `page_insert` promises, from the state in which `pgdir_walk` returned the entry. -/
theorem inserted_right : Inserted s pgdir pp va perm (inserted u pgdir pp va perm) := by
  have plain := plain_of_user (pgnum_lt_user va user)
  have wfT := inserted_hooked led user taken few low walked
  have entry := inserted_entries led user taken few low walked plain
  have slot := inserted_slot led user taken few walked perm
  rw [if_pos rfl] at entry
  have dir : pde (inserted u pgdir pp va perm) pgdir (pgnum va / NPTENTRIES) = pde u pgdir (pdx va) ||| perm := by
    rw [pgnum_div_eq_pdx va user]
    exact slot
  have here : present (pde (inserted u pgdir pp va perm) pgdir (pdx va)) = true := by
    rw [slot]
    exact present_or _ _ (walked.here led.hooked)
  have target : frame (pte (inserted u pgdir pp va perm) pgdir (pgnum va)) = pp := by
    rw [entry, frame_user_entry pp perm low]
  have mapped : present (pte (inserted u pgdir pp va perm) pgdir (pgnum va)) = true := by
    rw [entry, present_user_entry]
  have inside : (inserted u pgdir pp va perm).npages = s.npages := npages_removed.trans walked.npages
  constructor
  · have found := pageLookup_mapped wfT user here mapped (by rw [target, inside]; exact small)
    rw [target] at found
    refine ⟨_, found, ?_⟩
    rw [load_entryLoc (slot_of_mapped mapped), entry]
    exact (entry_word ⟨pp, Nat.mul_comm pp PGSIZE⟩ low).2
  · exact translate_inserted low dir entry
  · intro n inside other seen
    by_cases window : n / NPTENTRIES = pdx UVPT
    · exact inserted_others_window led user taken few low walked window seen
    · have plainN : Plain n := ⟨by simp only [NPTENTRIES, NPDENTRIES]; omega, window⟩
      exact inserted_others_plain led user taken few low walked plainN other
  · exact inserted_counts led user taken few walked

end Success

/-- `page_insert` keeps the books and never panics. It fails just without a table for `va` and
    without a free page, and then nothing has changed. -/
theorem pageInsert_books (led : Ledger pgdir base none s) (user : va < UTOP) (small : pp < s.npages)
    (taken : ¬ OnFreeList s pp) (few : s.ref pp < 65535) (low : perm < PGSIZE) :
    ∃ done t, pageInsert s pgdir pp va perm = .ok (done, t) ∧ Ledger pgdir base none t ∧
      (done = false ↔ present (pde s pgdir (pdx va)) = false ∧ s.pageFreeList = none) ∧
      (done = false → t = s) ∧
      (done = true → ∃ u, Walked s pgdir (pdx va) u ∧ t = inserted u pgdir pp va perm) := by
  obtain ⟨absent,empty,walk⟩ | ⟨u,walked,walk⟩ := walk_create led.hooked (user_top user) (user_away user)
  · refine ⟨false, s, ?_, led, ⟨fun _ => ⟨absent,empty⟩, fun _ => rfl⟩, fun _ => rfl, fun success => by simp at success⟩
    simp only [pageInsert, walk]
    rfl
  · have ledU := led.walk (pdx_lt_user va user) walked
    have takenU := walked.off led.hooked taken
    have fewU := walked_few led taken few walked
    have hereU := walked.here led.hooked
    have room : ¬ (present (pde s pgdir (pdx va)) = false ∧ s.pageFreeList = none) := by
      rintro ⟨absent,empty⟩
      cases walked with
      | found here =>
        rw [here] at absent
        cases absent
      | made p _ head =>
        rw [empty] at head
        cases head
    exact ⟨true, inserted u pgdir pp va perm, pageInsert_inserted ledU user takenU fewU hereU walk,
      ledU.inserted user (by rw [walked.npages]; exact small) takenU fewU low hereU,
      ⟨fun failed => by simp at failed, fun both => absurd both room⟩, fun failed => by simp at failed,
      fun _ => ⟨u,walked,rfl⟩⟩

theorem page_insert_maps (s : Kernel) (pgdir pp va perm : Nat) (base : Nat → Nat) (led : Ledger pgdir base none s)
    (wf : WellFormed pgdir s) (user : va < UTOP) (small : pp < s.npages) (taken : ¬ OnFreeList s pp)
    (few : s.ref pp < 65535) (flags : UserPerm perm) :
    ∃ done t, pageInsert s pgdir pp va perm = .ok (done, t) ∧ Ledger pgdir base none t ∧ WellFormed pgdir t ∧
      (done = false ↔ present (pde s pgdir (pdx va)) = false ∧ s.pageFreeList = none) ∧
      (done = false → t = s) ∧ (done = true → Inserted s pgdir pp va perm t) := by
  obtain ⟨done,t,run,ledT,fails,kept,right⟩ := pageInsert_books led user small taken few flags.low
  refine ⟨done, t, run, ledT, ⟨ledT.hooked, fun d low away here => ?_⟩, fails, kept, fun success => ?_⟩
  · cases done with
    | false =>
      rw [kept rfl] at here ⊢
      exact wf.small d low away here
    | true =>
      obtain ⟨u,walked,rfl⟩ := right rfl
      have wfU := walked.wellFormed wf (user_away user)
      by_cases slot : d = pdx va
      · rw [slot, inserted_slot led user taken few walked, Nat.and_or_distrib_right, flags.small, Nat.or_zero]
        exact wfU.small _ (pdx_lt va) (user_away user) (walked.here led.hooked)
      · rw [inserted_slots led user taken few walked _ slot] at here ⊢
        exact wf.small d low away here
  · obtain ⟨u,walked,rfl⟩ := right success
    exact inserted_right led user small taken few flags.low walked

theorem selfMapped_taken : ¬ OnFreeList selfMapped 2 := by
  intro free
  have mem := (on_chain_iff selfMapped_chain 2).mp free
  simp at mem

/-- Page 2 at address 0; page 3 becomes the table. -/
theorem page_insert_maps_first : ∃ done t, pageInsert selfMapped 1 2 0 (PTE_U ||| PTE_W) = .ok (done, t) ∧
    done = true ∧ translate t 1 (pgnum 0) = some (2, true, true) := by
  obtain ⟨done,t,run,_,_,fails,_,right⟩ := page_insert_maps selfMapped 1 2 0 (PTE_U ||| PTE_W) selfMapped.ref
    selfMapped_ledger selfMapped_wellFormed (by decide) (by decide) selfMapped_taken (by decide) (by decide)
  have success : done = true := by
    by_contra failed
    rw [Bool.not_eq_true] at failed
    exact absurd (fails.mp failed).2 (by decide)
  exact ⟨done, t, run, success, (right success).rights⟩

/-- The first page mapped below 4MB makes a table, which the user now sees at `UVPT`. -/
theorem insert_shows_table : Ledger 1 selfMapped.ref none selfMapped ∧ WellFormed 1 selfMapped ∧ ¬ OnFreeList selfMapped 2 ∧
    selfMapped.ref 2 < 65535 ∧ UserPerm PTE_U ∧ windowPage (pdx 0) ≠ pgnum 0 ∧
    ∃ t, pageInsert selfMapped 1 2 0 PTE_U = .ok (true, t) ∧
      translate selfMapped 1 (windowPage (pdx 0)) = none ∧
      translate t 1 (windowPage (pdx 0)) = some (3, true, false) :=
  ⟨selfMapped_ledger, selfMapped_wellFormed, selfMapped_taken, by decide, by decide, by decide, _, rfl, by decide, by decide⟩

end Whole
end JosPmap
