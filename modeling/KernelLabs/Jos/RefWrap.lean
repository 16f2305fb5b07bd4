import KernelLabs.Jos.BootMap
import KernelLabs.Jos.PageInsert

/-!
Runs of `page_insert` and `page_remove` on one directory. One page may be mapped at any of the
977920 user pages, while `pp_ref` has 16 bits. The books balance as long as no page with 65535
references is inserted once more; after 65537 insertions of one page the first `page_remove`
frees it, mapped as it is.
-/
namespace JosPmap
open LinkedList Counting

inductive MapCall where
  | pageInsert (pp va perm : Nat)
  | pageRemove (va : Nat)
  deriving DecidableEq, Repr

def MapCall.run (pgdir : Nat) (s : Kernel) : MapCall → Except Panic Kernel
  | .pageInsert pp va perm => (JosPmap.pageInsert s pgdir pp va perm).map Prod.snd
  | .pageRemove va => JosPmap.pageRemove s pgdir va

def MapCall.Legal (s : Kernel) : MapCall → Prop
  | .pageInsert pp va perm => va < UTOP ∧ pp < s.npages ∧ ¬ OnFreeList s pp ∧ perm < PGSIZE
  | .pageRemove va => va < UTOP

def runCalls (pgdir : Nat) : Kernel → List MapCall → Except Panic Kernel
  | s, [] => .ok s
  | s, call :: rest => do runCalls pgdir (← call.run pgdir s) rest

/-- Every call is made in a state that `allowed` admits it in. -/
def Along (pgdir : Nat) (allowed : Kernel → MapCall → Prop) : Kernel → List MapCall → Prop
  | _, [] => True
  | s, call :: rest => allowed s call ∧ ∀ t, call.run pgdir s = .ok t → Along pgdir allowed t rest

section Books
variable {pgdir : Nat} {base : Nat → Nat} {s : Kernel}

end Books

section Fill
variable {pgdir pp perm k : Nat} {s u : Kernel}

/-- Page `pp` was inserted at the first `k` pages of the address space, and at no other. -/
structure Repeated (pgdir pp perm k : Nat) (s : Kernel) : Prop where
  hooked : Hooked pgdir s
  small : pp < s.npages
  taken : ¬ OnFreeList s pp
  unlinked : s.link pp = none
  count : s.ref pp = k % 2 ^ 16
  entries : ∀ n, n < userPages → pte s pgdir n = if n < k then page2pa pp ||| perm ||| PTE_P else 0

/-- `page_insert` into a vacant entry. -/
def placed (u : Kernel) (pgdir pp va perm : Nat) : Kernel :=
  permitted ((u.setRef pp (u.ref pp + 1)).store (entryLoc u pgdir (pgnum va)) (page2pa pp ||| perm ||| PTE_P)) pgdir
    (pdx va) perm

theorem pageInsert_vacant {va : Nat} (user : va < UTOP) (here : present (pde u pgdir (pdx va)) = true)
    (vacant : present (pte u pgdir (pgnum va)) = false)
    (walk : pgdirWalk s pgdir va true = .ok (some (entryLoc u pgdir (pgnum va)), u)) :
    pageInsert s pgdir pp va perm = .ok (true, placed u pgdir pp va perm) := by
  have slot : present (pde (u.setRef pp (u.ref pp + 1)) pgdir (pgnum va / NPTENTRIES)) = true := by
    rw [pgnum_div_eq_pdx va user]
    exact here
  have word : (u.setRef pp (u.ref pp + 1)).load (entryLoc u pgdir (pgnum va)) =
      pte (u.setRef pp (u.ref pp + 1)) pgdir (pgnum va) := load_entryLoc slot
  have absent : ¬ present (pte (u.setRef pp (u.ref pp + 1)) pgdir (pgnum va)) = true := by
    rw [Bool.not_eq_true]
    exact vacant
  simp only [pageInsert, walk]
  change ((if present ((u.setRef pp (u.ref pp + 1)).load (entryLoc u pgdir (pgnum va))) = true then
      pageRemove (u.setRef pp (u.ref pp + 1)) pgdir va else .ok (u.setRef pp (u.ref pp + 1))) >>= _) = _
  rw [word, if_neg absent]
  rfl

theorem setRef_hooked (hooked : Hooked pgdir s) (p n : Nat) : Hooked pgdir (s.setRef p n) := by
  obtain ⟨nodes,chain,spare⟩ := hooked.free
  exact hooked.relist rfl rfl (by rw [link_setRef]; exact chain) spare

theorem Repeated.walk (repeated : Repeated pgdir pp perm k s) {d : Nat} (away : d ≠ pdx UVPT) (walked : Walked s pgdir d u) :
    Repeated pgdir pp perm k u := by
  refine ⟨walked.hooked repeated.hooked away, ?_, walked.off repeated.hooked repeated.taken, ?_, ?_, fun n user => ?_⟩
  · rw [walked.npages]
    exact repeated.small
  · cases walked with
    | found here => exact repeated.unlinked
    | made p absent head =>
      rw [link_withTable]
      by_cases same : pp = p
      · rw [same, Function.update_self]
      · rw [Function.update_of_ne same]
        exact repeated.unlinked
  · cases walked with
    | found here => exact repeated.count
    | made p absent head =>
      have other : pp ≠ p := by
        rintro rfl
        obtain ⟨nodes,chain,_⟩ := repeated.hooked.free
        exact repeated.taken (head_on_chain chain head)
      rw [ref_withTable, Function.update_of_ne other]
      exact repeated.count
  · rw [walked.pte repeated.hooked (plain_of_user user)]
    exact repeated.entries n user

theorem Repeated.place (repeated : Repeated pgdir pp perm k u) (low : perm < PGSIZE) (user : page2pa k < UTOP)
    (here : present (pde u pgdir (pdx (page2pa k))) = true) :
    Repeated pgdir pp perm (k + 1) (placed u pgdir pp (page2pa k) perm) := by
  have number : pgnum (page2pa k) = k := Nat.mul_div_cancel k (by decide)
  have inside := pgnum_lt_user _ user
  have plain := plain_of_user inside
  have held := setRef_hooked repeated.hooked pp (u.ref pp + 1)
  have slot : present (pde (u.setRef pp (u.ref pp + 1)) pgdir (pgnum (page2pa k) / NPTENTRIES)) = true := by
    rw [pgnum_div_eq_pdx _ user]
    exact here
  have stored := held.store plain slot (page2pa pp ||| perm ||| PTE_P)
  have slotS : present (pde ((u.setRef pp (u.ref pp + 1)).store (entryLoc (u.setRef pp (u.ref pp + 1)) pgdir
      (pgnum (page2pa k))) (page2pa pp ||| perm ||| PTE_P)) pgdir (pdx (page2pa k))) = true := by
    rw [held.pde_store plain slot]
    exact here
  have link : (placed u pgdir pp (page2pa k) perm).link = u.link := link_setRef u pp _
  refine ⟨permitted_hooked stored slotS low, repeated.small, ?_, ?_, ?_, fun n low' => ?_⟩
  · intro on
    refine repeated.taken ?_
    rw [OnFreeList, link] at on
    exact on
  · rw [link]
    exact repeated.unlinked
  · have ref : (placed u pgdir pp (page2pa k) perm).ref = Function.update u.ref pp ((u.ref pp + 1) % 2 ^ 16) :=
      ref_setRef u pp _
    rw [ref, Function.update_self, repeated.count]
    omega
  · have entry := held.pte_store plain slot (page2pa pp ||| perm ||| PTE_P) (plain_of_user low')
    have kept : pte (u.setRef pp (u.ref pp + 1)) pgdir n = pte u pgdir n := rfl
    refine (pte_permitted stored slotS low (plain_of_user low')).trans ?_
    rw [entry, kept, number, repeated.entries n low']
    by_cases same : n = k
    · rw [if_pos same, if_pos (by omega)]
    · rw [if_neg same]
      by_cases less : n < k
      · rw [if_pos less, if_pos (by omega)]
      · rw [if_neg less, if_neg (by omega)]

theorem enoughFree_placed {va q count : Nat} (hooked : Hooked pgdir u) (user : va < UTOP)
    (here : present (pde u pgdir (pdx va)) = true) (enough : EnoughFree u pgdir q count) :
    EnoughFree (placed u pgdir pp va perm) pgdir q count := by
  have held := setRef_hooked hooked pp (u.ref pp + 1)
  have plain := plain_of_user (pgnum_lt_user va user)
  have slot : present (pde (u.setRef pp (u.ref pp + 1)) pgdir (pgnum va / NPTENTRIES)) = true := by
    rw [pgnum_div_eq_pdx va user]
    exact here
  have flag : ∀ d, present (pde (placed u pgdir pp va perm) pgdir d) = present (pde u pgdir d) := by
    intro d
    have dir := held.pde_store plain slot (page2pa pp ||| perm ||| PTE_P)
    refine (present_permitted ((dir (pdx va)).symm ▸ here) perm d).trans ?_
    exact congrArg present (dir d)
  obtain ⟨nodes,chain,room⟩ := enough
  refine ⟨nodes, ?_, ?_⟩
  · have link : (placed u pgdir pp va perm).link = u.link := link_setRef u pp _
    rw [link]
    exact chain
  · simp only [missingSlots, flag]
    exact room

/-- One more page. -/
theorem Repeated.insert (repeated : Repeated pgdir pp perm k s) (low : perm < PGSIZE) (user : page2pa k < UTOP) {count : Nat}
    (enough : EnoughFree s pgdir k (count + 1)) :
    ∃ t, pageInsert s pgdir pp (page2pa k) perm = .ok (true, t) ∧ Repeated pgdir pp perm (k + 1) t ∧
      EnoughFree t pgdir (k + 1) count := by
  have number : pgnum (page2pa k) = k := Nat.mul_div_cancel k (by decide)
  have slot : pdx (page2pa k) = k / NPTENTRIES := by rw [← pgnum_div_eq_pdx _ user, number]
  have away := user_away user
  obtain ⟨absent,empty,_⟩ | ⟨u,walked,walk⟩ := walk_create repeated.hooked (user_top user) away
  · rw [slot] at absent
    exact absurd empty (enough.page_left absent)
  have here := walked.here repeated.hooked
  have repeatedU := repeated.walk away walked
  have vacant : present (pte u pgdir (pgnum (page2pa k))) = false := by
    rw [repeatedU.entries _ (pgnum_lt_user _ user), if_neg (by omega), not_present_zero]
  refine ⟨_, pageInsert_vacant user here vacant walk, repeatedU.place low user here, ?_⟩
  rw [slot] at walked
  exact enoughFree_placed repeatedU.hooked user here (enough.walk repeated.hooked walked)

end Fill
section Wrap
variable {pgdir pp perm k : Nat} {s t : Kernel}

theorem Along.append {allowed : Kernel → MapCall → Prop} {first second : List MapCall}
    (early : Along pgdir allowed s first) (run : runCalls pgdir s first = .ok t) (late : Along pgdir allowed t second) :
    Along pgdir allowed s (first ++ second) := by
  induction first generalizing s with
  | nil =>
    injection run with same
    rw [List.nil_append, same]
    exact late
  | cons call rest ih =>
    obtain ⟨u,step,run⟩ := bind_ok run
    refine ⟨early.1, fun v again => ?_⟩
    rw [step] at again
    injection again with same
    exact same ▸ ih (early.2 u step) run

/-- With a count that has come round to 1, `page_remove` frees a page that is mapped elsewhere. -/
theorem Repeated.remove (repeated : Repeated pgdir pp perm k s) (low : perm < PGSIZE) (round : k % 2 ^ 16 = 1) (more : 1 < k) :
    ∃ t, pageRemove s pgdir 0 = .ok t ∧ MapsTo t pgdir pp 1 ∧ OnFreeList t pp := by
  have user : 0 < UTOP := by decide
  have zero : pgnum 0 = 0 := rfl
  have entry := repeated.entries 0 (by rw [user_pages_eq]; decide)
  rw [if_pos (by omega)] at entry
  have mapped : present (pte s pgdir (pgnum 0)) = true := by rw [zero, entry, present_user_entry]
  have target : frame (pte s pgdir (pgnum 0)) = pp := by rw [zero, entry, frame_user_entry pp perm low]
  have slot := slot_of_mapped mapped
  have here : present (pde s pgdir (pdx 0)) = true := slot
  have found := pageLookup_mapped repeated.hooked user here mapped (by rw [target]; exact repeated.small)
  have drop : pageDecref s (frame (pte s pgdir (pgnum 0))) = .ok (release s (frame (pte s pgdir (pgnum 0)))) :=
    pageDecref_release (by rw [target]; exact repeated.unlinked)
  refine ⟨cleared s pgdir 0, ?_, ?_, ?_⟩
  · simp only [pageRemove, found]
    change (pageDecref s (frame (pte s pgdir (pgnum 0))) >>= _) = _
    rw [drop]
    rfl
  · have second : 1 < userPages := by rw [user_pages_eq]; decide
    have other := pte_cleared repeated.hooked user slot (plain_of_user second)
    rw [zero, if_neg (by decide), repeated.entries 1 second, if_pos more] at other
    rw [MapsTo, other]
    exact ⟨present_user_entry _ _, frame_user_entry pp perm low⟩
  · obtain ⟨nodes,chain,_⟩ := repeated.hooked.free
    have off : pp ∉ nodes := fun mem => repeated.taken ((on_chain_iff chain pp).mpr mem)
    have last : (s.ref pp + (2 ^ 16 - 1)) % 2 ^ 16 = 0 := by
      rw [repeated.count, round]
      decide
    have freed := (release_freed chain off last).1
    rw [← target] at freed
    exact (on_chain_iff freed pp).mpr (by rw [target]; simp)

end Wrap
end JosPmap
