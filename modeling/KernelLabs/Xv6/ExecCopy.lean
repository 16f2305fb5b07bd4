import KernelLabs.Xv6.VmKernel

/-!
What `exec` writes into the memory of the new program: `copyout` reaches the pages that user
code can use and no others, and stops at the first that it cannot use.
-/
namespace Xv6Exec
open Xv6Vm Custody Wp PageBytes

variable {img : Image} {all : Nat → Prop} {dirs : List Nat} {held : Multiset Nat} {s t u : Mem} {dir p n o : Nat}

section Written

/-- The page that user code has at page number `n`. -/
def xlate (w : Nat → Nat → Nat) (dir n : Nat) : Option Nat :=
  if present (pte w dir n) && userBit (pte w dir n) then some (frame (pte w dir n)) else none

theorem xlate_some (here : xlate s.words dir n = some p) :
    present (pte s.words dir n) = true ∧ userBit (pte s.words dir n) = true ∧ frame (pte s.words dir n) = p := by
  unfold xlate at here
  simp only [Option.ite_none_right_eq_some, Bool.and_eq_true, Option.some.injEq] at here
  exact ⟨here.1.1, here.1.2, here.2⟩

theorem xlate_of (mapped : present (pte s.words dir n) = true) (user : userBit (pte s.words dir n) = true) :
    xlate s.words dir n = some (frame (pte s.words dir n)) := by
  unfold xlate
  rw [mapped, user]
  rfl

/-- Only pages of `dir` that user code can use are written. -/
structure Written (dir : Nat) (s t : Mem) : Prop where
  only : ∀ q, (∀ m < userPages, xlate s.words dir m ≠ some q) → t.words q = s.words q
  free : t.freelist = s.freelist

theorem Written.refl : Written dir s s := ⟨fun _ _ => rfl, rfl⟩

/-- What the writes leave as it is. -/
structure Still (img : Image) (all : Nat → Prop) (dirs : List Nat) (held : Multiset Nat) (dir : Nat) (s t : Mem) : Prop where
  kept : Kept img all dirs held t
  elsewhere : Elsewhere dirs dir s t
  entries : ∀ m < 2 ^ 20, pte t.words dir m = pte s.words dir m
  directory : t.words dir = s.words dir

theorem Still.refl (kept : Kept img all dirs held s) : Still img all dirs held dir s s :=
  ⟨kept, Elsewhere.refl rfl, fun _ _ => rfl, rfl⟩

theorem Still.trans (first : Still img all dirs held dir s t) (second : Still img all dirs held dir t u) :
    Still img all dirs held dir s u :=
  ⟨second.kept, first.elsewhere.trans second.elsewhere, fun m low => (second.entries m low).trans (first.entries m low),
    second.directory.trans first.directory⟩

/-- What is no page of user memory is not written. -/
theorem Written.outside (written : Written dir s t) {q : Nat}
    (away : ∀ m < userPages, present (pte s.words dir m) = true → frame (pte s.words dir m) ≠ q) : t.words q = s.words q := by
  refine written.only q fun m small found => ?_
  obtain ⟨mapped,_,same⟩ := xlate_some found
  exact away m small mapped same

theorem Written.still (written : Written dir s t) (kept : Kept img all dirs held s) (here : dir ∈ dirs) :
    Still img all dirs held dir s t := by
  have plain : ∀ dir' ∈ dirs, t.words dir' = s.words dir' ∧ ∀ d < NPDENTRIES, present (s.words dir' d) = true →
      t.words (frame (s.words dir' d)) = s.words (frame (s.words dir' d)) := by
    intro dir' there
    refine ⟨written.outside fun m small mapped => ((kept.user_plain (own_user here small mapped) there).1).symm, fun d low set => ?_⟩
    exact written.outside fun m small mapped => ((kept.user_plain (own_user here small mapped) there).2 d low set).symm
  have entries : ∀ dir' ∈ dirs, ∀ m < 2 ^ 20, pte t.words dir' m = pte s.words dir' m := fun dir' there m low =>
    pte_congr (plain dir' there).1 fun set => (plain dir' there).2 _ (div_low low) set
  have same : own t.words dirs = own s.words dirs := by
    funext r
    by_cases there : r.dir ∈ dirs
    · rw [own_of_mem there, own_of_mem there]
      cases r with
      | directory => rfl
      | table dir' d => exact congrArg entryPage (congrFun (plain dir' there).1 d)
      | user dir' m => exact congrArg entryPage (entries dir' there m (Nat.lt_trans m.isLt (by decide)))
    · rw [own_outside there, own_outside there]
  refine ⟨⟨?_, kept.valid⟩, ?_, entries dir here, (plain dir here).1⟩
  · rw [same, written.free]
    exact kept.ex
  · refine kept.elsewhere (fun r _ => congrFun same r) fun q _ away => written.outside fun m small mapped => ?_
    rintro rfl
    exact away _ rfl (own_user here small mapped)

theorem xlate_congr (entries : ∀ m < 2 ^ 20, pte t.words dir m = pte s.words dir m) (low : n < 2 ^ 20) :
    xlate t.words dir n = xlate s.words dir n := by
  unfold xlate
  rw [entries n low]

theorem Written.trans (first : Written dir s t) (second : Written dir t u) (entries : ∀ m < 2 ^ 20, pte t.words dir m = pte s.words dir m) :
    Written dir s u := by
  refine ⟨fun q away => ?_, second.free.trans first.free⟩
  rw [second.only q fun m small => ?_, first.only q away]
  rw [xlate_congr entries (Nat.lt_trans small (by decide))]
  exact away m small

/-- The byte that user code has at an address. -/
def userByte (w : Nat → Nat → Nat) (dir a : Nat) : Byte := byteAt (w (frame (pte w dir (a / PGSIZE)))) (a % PGSIZE)

theorem written_put (small : n < userPages) (found : xlate s.words dir n = some p) (bytes : List Byte) :
    Written dir s (putBytes s p o bytes) := by
  refine ⟨fun q away => fill_other _ fun same => ?_, rfl⟩
  rw [same] at away
  exact away n small found

/-- Bytes written to page `n` are there, and those of all other addresses are as before. -/
theorem userByte_put (kept : Kept img all dirs held s) (here : dir ∈ dirs) (small : n < userPages)
    (found : xlate s.words dir n = some p) {bytes : List Byte} (inside : o + bytes.length ≤ PGSIZE) {a : Nat}
    (user : a / PGSIZE < userPages) (there : present (pte s.words dir (a / PGSIZE)) = true) :
    userByte (putBytes s p o bytes).words dir a =
      if n * PGSIZE + o ≤ a ∧ a < n * PGSIZE + o + bytes.length then bytes.getD (a - (n * PGSIZE + o)) 0
      else userByte s.words dir a := by
  have still := (written_put (o := o) small found bytes).still kept here
  obtain ⟨mapped,_,rfl⟩ := xlate_some found
  unfold userByte
  rw [still.entries _ (Nat.lt_trans user (by decide))]
  by_cases same : a / PGSIZE = n
  · have page : (putBytes s (frame (pte s.words dir n)) o bytes).words (frame (pte s.words dir n)) =
        writeBytes (s.words (frame (pte s.words dir n))) o bytes := Function.update_self _ _ _
    rw [same, page, byteAt_writeBytes]
    have place : o ≤ a % PGSIZE ∧ a % PGSIZE < o + bytes.length ↔ n * PGSIZE + o ≤ a ∧ a < n * PGSIZE + o + bytes.length := by
      unfold PGSIZE at *
      omega
    by_cases within : n * PGSIZE + o ≤ a ∧ a < n * PGSIZE + o + bytes.length
    · rw [if_pos (place.mpr within), if_pos within]
      congr 1
      unfold PGSIZE at *
      omega
    · rw [if_neg fun low => within (place.mp low), if_neg within]
  · have apart : frame (pte s.words dir (a / PGSIZE)) ≠ frame (pte s.words dir n) := by
      intro eq
      have left := own_user here user there
      rw [eq] at left
      exact same (congrArg Fin.val (Role.user.inj (kept.ex.single _ _ _ left (own_user here small mapped))).2)
    have outside : ¬ (n * PGSIZE + o ≤ a ∧ a < n * PGSIZE + o + bytes.length) := by
      unfold PGSIZE at *
      omega
    rw [if_neg outside]
    exact congrArg (fun page => byteAt page (a % PGSIZE)) (fill_other _ apart)

end Written

section Copyout
variable {E : Panic → Prop}

theorem user_clear (entry : Nat) : entry &&& PTE_U = 0 ↔ userBit entry = false := by
  unfold userBit
  rw [show PTE_U = 2 ^ 2 by rfl, Nat.and_two_pow]
  cases entry.testBit 2 <;> decide

theorem wp_uva2ka {Q : Option Nat → Mem → Prop} (low : n < 2 ^ 20)
    (found : present (s.words dir (n / 1024)) = true → Q (xlate s.words dir n) s)
    (missing : present (s.words dir (n / 1024)) = false → E .nullPte) : wp E (uva2ka dir (n * PGSIZE)) s Q := by
  unfold uva2ka
  rw [wp_bind, wp_lift]
  refine walk_read low (fun set => ?_) missing
  have result := found set
  unfold xlate at result
  dsimp only
  rw [wp_bind, wp_get, wp_ite, load_entry set]
  by_cases mapped : present (pte s.words dir n) = true
  · rw [mapped] at result ⊢
    rw [if_neg (by decide)]
    change wp E (if pte s.words dir n &&& PTE_U = 0 then pure none else pure (some (frame (pte s.words dir n)))) s Q
    rw [wp_ite]
    by_cases user : userBit (pte s.words dir n) = true
    · rw [if_neg fun none => by cases user.symm.trans ((user_clear _).mp none)]
      rw [user, if_pos (by rfl)] at result
      exact result
    · rw [if_pos ((user_clear _).mpr (Bool.eq_false_iff.mpr user))]
      rw [Bool.eq_false_iff.mpr user, if_neg (by decide)] at result
      exact result
  · have absent := Bool.eq_false_iff.mpr mapped
    rw [absent] at result ⊢
    rw [if_pos (by rfl)]
    exact result

/-- One round of `copyout`. -/
theorem copyLoop_step {fuel va : Nat} {buf : List Byte} {Q : Bool → Mem → Prop} (low : va < 2 ^ 32) (some : buf ≠ [])
    (null : present (s.words dir (va / PGSIZE / 1024)) = false → E .nullPte)
    (stops : present (s.words dir (va / PGSIZE / 1024)) = true → xlate s.words dir (va / PGSIZE) = none → Q false s)
    (copies : ∀ page, xlate s.words dir (va / PGSIZE) = Option.some page →
      wp E (copyLoop dir fuel ((va / PGSIZE + 1) * PGSIZE % 2 ^ 32) (buf.drop (min (PGSIZE - va % PGSIZE) buf.length)))
        (putBytes s page (va % PGSIZE) (buf.take (min (PGSIZE - va % PGSIZE) buf.length))) Q) :
    wp E (copyLoop dir (fuel + 1) va buf) s Q := by
  have page : va / PGSIZE < 2 ^ 20 := by
    unfold PGSIZE
    omega
  have offset : va - pgrounddown va = va % PGSIZE := by
    unfold pgrounddown PGSIZE
    omega
  have next : pgrounddown va + PGSIZE = (va / PGSIZE + 1) * PGSIZE := by
    unfold pgrounddown PGSIZE
    omega
  rw [copyLoop, wp_ite, if_neg some]
  dsimp only
  rw [offset, next, wp_bind]
  refine wp_uva2ka page (fun set => ?_) null
  cases found : xlate s.words dir (va / PGSIZE) with
  | none => exact stops set found
  | some pa0 =>
    dsimp only
    rw [wp_bind, wp_modify]
    exact copies pa0 found

/-- Bytes for one page are copied. -/
theorem copyout_page {va : Nat} {buf : List Byte} (low : va < 2 ^ 32) (some : buf ≠ []) (inside : va % PGSIZE + buf.length ≤ PGSIZE)
    (found : xlate s.words dir (va / PGSIZE) = Option.some p) :
    wp E (copyout dir va buf) s fun ok t => ok = true ∧ t = putBytes s p (va % PGSIZE) buf := by
  obtain ⟨mapped,_,_⟩ := xlate_some found
  have table := pte_table mapped
  have whole : min (PGSIZE - va % PGSIZE) buf.length = buf.length := by omega
  unfold copyout
  obtain ⟨b,rest,split⟩ := List.exists_cons_of_ne_nil some
  rw [split, List.length_cons, ← split]
  refine copyLoop_step low some (fun unset => ?_) (fun _ none => ?_) fun page same => ?_
  · cases unset.symm.trans table
  · cases none.symm.trans found
  · obtain rfl := Option.some.inj (same.symm.trans found)
    rw [whole, List.drop_length, List.take_length]
    cases rest.length with
    | zero => exact ⟨rfl,rfl⟩
    | succ fuel =>
      rw [copyLoop, wp_ite, if_pos rfl]
      exact ⟨rfl,rfl⟩

/-- Bytes that reach a page that user code cannot use are not all copied. -/
theorem copyLoop_stops {g : Nat} (fuel : Nat) {va : Nat} {buf : List Byte} (kept : Kept img all dirs held s) (here : dir ∈ dirs)
    (tables : ∀ m ≤ g, present (s.words dir (m / 1024)) = true) (user : g < userPages) (guard : xlate s.words dir g = none)
    (some : buf ≠ []) (enough : buf.length ≤ fuel) (start : va / PGSIZE ≤ g) (reaches : g * PGSIZE < va + buf.length) :
    wp E (copyLoop dir fuel va buf) s fun ok t => ok = false ∧ Still img all dirs held dir s t ∧ Written dir s t := by
  induction fuel generalizing s va buf with
  | zero => exact absurd (List.eq_nil_of_length_eq_zero (Nat.le_zero.mp enough)) some
  | succ fuel ih =>
    have low : va < 2 ^ 32 := by
      unfold userPages at user
      unfold PGSIZE at start
      omega
    have table := tables _ start
    refine copyLoop_step low some (fun unset => by cases unset.symm.trans table) (fun _ _ => ⟨rfl, Still.refl kept, Written.refl⟩)
      fun page found => ?_
    have before : va / PGSIZE < g := by
      refine Nat.lt_of_le_of_ne start fun last => ?_
      rw [last, guard] at found
      cases found
    obtain ⟨mapped,_,rfl⟩ := xlate_some found
    have first := written_put (o := va % PGSIZE) (Nat.lt_trans before user) found (buf.take (min (PGSIZE - va % PGSIZE) buf.length))
    have still := first.still kept here
    have part : PGSIZE - va % PGSIZE < buf.length := by
      unfold PGSIZE at *
      omega
    have next : (va / PGSIZE + 1) * PGSIZE % 2 ^ 32 = (va / PGSIZE + 1) * PGSIZE := by
      unfold userPages at user
      unfold PGSIZE at before ⊢
      omega
    have rest : (buf.drop (min (PGSIZE - va % PGSIZE) buf.length)).length = buf.length - (PGSIZE - va % PGSIZE) := by
      rw [List.length_drop, Nat.min_eq_left (Nat.le_of_lt part)]
    have again : (va / PGSIZE + 1) * PGSIZE / PGSIZE = va / PGSIZE + 1 := Nat.mul_div_cancel _ (by decide)
    rw [next]
    refine wp_mono (ih still.kept (fun m below => ?_) ?_ (fun none => ?_) ?_ ?_ ?_) fun ok t ⟨no,later,second⟩ => ?_
    · rw [still.directory]
      exact tables m below
    · unfold xlate at guard ⊢
      rw [still.entries g (Nat.lt_trans user (by decide))]
      exact guard
    · rw [none, List.length_nil] at rest
      omega
    · rw [rest]
      unfold PGSIZE at *
      omega
    · rw [again]
      exact before
    · rw [rest]
      unfold PGSIZE at *
      omega
    · exact ⟨no, still.trans later, first.trans second still.entries⟩

end Copyout

end Xv6Exec
